import Uvx.Common.Channel
import Uvx.Common.Exec

/-!
# A dialogue over a channel

Somebody says something, and whoever hears a message may answer it. Each message is then an answer to
an answer and so on to something that has been said (`exists_iterate`). If one thing has been said and
no message is heard twice, the messages follow one another, whatever the channel does (`inOrder`).
-/

/-- Something is said, or message number `k` is heard and answered or not. -/
inductive Turn (α : Type*)
  | say (a : α)
  | hear (k : ℕ) (answers : Bool)

namespace Turn

variable {α : Type*} {reply : α → α} {c c' : Channel α} {ts : List (Turn α)} {a : α} {k : ℕ}

/-- What is sent when message number `k` has been heard. -/
def answer (reply : α → α) (c : Channel α) (k : ℕ) (answers : Bool) : List α :=
  if answers then ((c.sent[k]?).map reply).toList else []

/-- What a turn does to the channel. -/
def take (reply : α → α) (c : Channel α) : Turn α → Channel α
  | say a => c.send [a]
  | hear k answers => (c.deliver k).send (answer reply c k answers)

/-- Only what has been sent is heard. -/
def Enabled (c : Channel α) : Turn α → Prop
  | say _ => True
  | hear k _ => k < c.sent.length

def Step (reply : α → α) (c : Channel α) (t : Turn α) (c' : Channel α) : Prop :=
  Enabled c t ∧ c' = take reply c t

/-- What has been said. -/
def said (ts : List (Turn α)) : List α :=
  ts.filterMap fun
    | say a => some a
    | hear _ _ => none

theorem said_say (ts : List (Turn α)) (a : α) : said (ts ++ [say a]) = said ts ++ [a] :=
  List.filterMap_append

theorem said_hear (ts : List (Turn α)) (k : ℕ) (answers : Bool) :
    said (ts ++ [hear k answers]) = said ts := by
  rw [said, List.filterMap_append]
  exact List.append_nil _

theorem answer_of_lt (hk : k < c.sent.length) (answers : Bool) :
    answer reply c k answers = if answers then [reply c.sent[k]] else [] := by
  rw [answer, List.getElem?_eq_getElem hk]
  rfl

/-! ## Every message goes back to something said -/

/-- The message `b` is the last of `n` answers, one to the other, the first of them to `a`, and what
they answer has arrived. -/
structure Follows (reply : α → α) (c : Channel α) (a b : α) (n : ℕ) : Prop where
  eq_iterate : b = reply^[n] a
  le_length : n ≤ c.delivered.length
  arrived : ∀ i < n, reply^[i] a ∈ c.received

/-- What has been delivered stays delivered. -/
theorem Follows.mono {b : α} {n : ℕ} (h : Follows reply c a b n)
    (hlength : c.delivered.length ≤ c'.delivered.length) (hreceived : c.received ⊆ c'.received) :
    Follows reply c' a b n :=
  ⟨h.eq_iterate, h.le_length.trans hlength, fun i hi => hreceived (h.arrived i hi)⟩

/-- **Each message** follows from something said. -/
theorem exists_iterate (h : Exec (Step reply) .empty ts c) :
    c.Sound ∧ ∀ b ∈ c.sent, ∃ a ∈ said ts, ∃ n, Follows reply c a b n := by
  refine h.invariant_actions (I := fun ts c => c.Sound ∧
    ∀ b ∈ c.sent, ∃ a ∈ said ts, ∃ n, Follows reply c a b n) ⟨Channel.sound_empty, ?_⟩ ?_
  · exact fun b hb => absurd hb List.not_mem_nil
  · rintro ts c t c' ⟨hsound, hfollows⟩ ⟨henabled, rfl⟩
    cases t with
    | say a =>
      refine ⟨hsound.send [a], ?_⟩
      rw [said_say]
      intro b hb
      rcases List.mem_append.mp hb with hb | hb
      · obtain ⟨a', ha', n, hn⟩ := hfollows b hb
        exact ⟨a', List.mem_append_left _ ha', n,
          hn.mono (Nat.le_refl _) fun x hx => (hsound.received_send [a]).symm ▸ hx⟩
      · obtain rfl := List.mem_singleton.mp hb
        exact ⟨b, List.mem_append_right _ (List.mem_singleton_self b), 0, rfl, Nat.zero_le _,
          fun i hi => absurd hi (Nat.not_lt_zero i)⟩
    | hear k answers =>
      have hk : k < c.sent.length := henabled
      have hsound' := hsound.deliver hk
      have hreceived : (take reply c (hear k answers)).received = c.received ++ [c.sent[k]] := by
        rw [take, hsound'.received_send, Channel.received_deliver, List.getElem?_eq_getElem hk]
        rfl
      have hlength : (take reply c (hear k answers)).delivered.length
          = c.delivered.length + 1 := List.length_append
      have hmono : ∀ {a b n}, Follows reply c a b n →
          Follows reply (take reply c (hear k answers)) a b n := fun h =>
        h.mono (hlength ▸ Nat.le_succ _) (hreceived ▸ List.subset_append_left ..)
      refine ⟨hsound'.send _, ?_⟩
      rw [said_hear]
      intro b hb
      rcases List.mem_append.mp hb with hb | hb
      · obtain ⟨a, ha, n, hn⟩ := hfollows b hb
        exact ⟨a, ha, n, hmono hn⟩
      · -- the answer to message number `k`
        rw [answer_of_lt hk] at hb
        obtain ⟨a, ha, n, hn⟩ := hfollows c.sent[k] (List.getElem_mem hk)
        have hbk : b = reply c.sent[k] := by
          split_ifs at hb
          · exact List.mem_singleton.mp hb
          · exact absurd hb List.not_mem_nil
        refine ⟨a, ha, n + 1, ?_, ?_, fun i hi => ?_⟩
        · rw [Function.iterate_succ_apply', hbk, hn.eq_iterate]
        · rw [hlength]
          exact Nat.succ_le_succ hn.le_length
        · rw [hreceived]
          rcases Nat.lt_succ_iff_lt_or_eq.mp hi with hi | rfl
          · exact List.mem_append_left _ (hn.arrived i hi)
          · exact List.mem_append_right _ (List.mem_singleton.mpr hn.eq_iterate.symm)

/-! ## One dialogue -/

/-- The messages are `a`, the answer to it, the answer to the answer and so on. They have arrived in
this order, but the last may be on its way. -/
structure InOrder (reply : α → α) (c : Channel α) (a : α) : Prop where
  sent_eq : c.sent = (List.range c.sent.length).map fun n => reply^[n] a
  delivered_eq : c.delivered = List.range c.delivered.length
  le_length : c.delivered.length ≤ c.sent.length
  length_le : c.sent.length ≤ c.delivered.length + 1

/-- The next message to be heard is the last one. -/
theorem InOrder.hear (h : InOrder reply c a) (hk : k < c.sent.length) (hnew : k ∉ c.delivered)
    (answers : Bool) : InOrder reply (take reply c (.hear k answers)) a := by
  have hle : c.delivered.length ≤ k := by
    rw [h.delivered_eq, List.mem_range] at hnew
    exact Nat.le_of_not_lt hnew
  have hlength := h.length_le
  obtain rfl : k = c.delivered.length := by omega
  have hlast : c.sent[c.delivered.length] = reply^[c.delivered.length] a := by
    have hget := List.getElem_of_eq h.sent_eq hk
    rwa [List.getElem_map, List.getElem_range] at hget
  have hdelivered : (take reply c (.hear c.delivered.length answers)).delivered
      = c.delivered ++ [c.delivered.length] := rfl
  have hsent : (take reply c (.hear c.delivered.length answers)).sent
      = c.sent ++ (if answers then [reply^[c.sent.length] a] else []) := by
    rw [take, Channel.send, answer_of_lt hk, hlast, ← Function.iterate_succ_apply' reply]
    have hsucc : c.delivered.length.succ = c.sent.length := by omega
    rw [hsucc]
    rfl
  refine ⟨?_, ?_, ?_, ?_⟩
  · rw [hsent]
    cases answers with
    | true =>
      rw [if_pos rfl, List.length_append, List.length_singleton, List.range_succ, List.map_append,
        ← h.sent_eq, List.map_singleton]
    | false =>
      rw [if_neg Bool.false_ne_true, List.append_nil]
      exact h.sent_eq
  · rw [hdelivered, List.length_append, List.length_singleton, List.range_succ, ← h.delivered_eq]
  · rw [hdelivered, hsent, List.length_append, List.length_append, List.length_singleton]
    omega
  · rw [hdelivered, hsent, List.length_append, List.length_append, List.length_singleton]
    split_ifs
    · rw [List.length_singleton]
      omega
    · rw [List.length_nil]
      omega

/-- **One dialogue** without repetition is in order, though the channel may lose and reorder. -/
theorem inOrder (h : Exec (Step reply) .empty ts c) (hsaid : said ts = [a])
    (hnodup : c.delivered.Nodup) : InOrder reply c a := by
  suffices hinv : c.delivered.Nodup → (said ts = [] → c = .empty) ∧
      ∀ a, said ts = [a] → InOrder reply c a from (hinv hnodup).2 a hsaid
  refine h.invariant_actions (I := fun ts c => c.delivered.Nodup →
    (said ts = [] → c = .empty) ∧ ∀ a, said ts = [a] → InOrder reply c a) ?_ ?_
  · exact fun _ => ⟨fun _ => rfl, fun a ha => absurd ha (List.cons_ne_nil _ _).symm⟩
  · rintro ts c t c' ih ⟨henabled, rfl⟩ hnodup
    cases t with
    | say b =>
      rw [said_say]
      refine ⟨fun hnil => absurd hnil (by simp), fun a ha => ?_⟩
      obtain ⟨hnil, hb⟩ := List.append_eq_singleton_iff.mp ha |>.resolve_right (by simp)
      obtain rfl := List.singleton_inj.mp hb
      rw [(ih hnodup).1 hnil]
      exact ⟨rfl, rfl, Nat.zero_le _, Nat.le_refl _⟩
    | hear k answers =>
      have hk : k < c.sent.length := henabled
      obtain ⟨hold, -, hnew⟩ := List.nodup_append.mp (show (c.delivered ++ [k]).Nodup from hnodup)
      rw [said_hear]
      refine ⟨fun hnil => ?_, fun a ha => ((ih hold).2 a ha).hear hk ?_ answers⟩
      · rw [(ih hold).1 hnil] at hk
        exact absurd hk (Nat.not_lt_zero k)
      · exact fun hmem => hnew k hmem k (List.mem_singleton_self k) rfl

end Turn
