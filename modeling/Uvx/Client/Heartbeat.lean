import Uvx.Client.Mode

/-!
# Heartbeats across reconnects

The client counts its heartbeats through all of its attempts to connect: `on_heartbeat` gets 0, 1, 2
and so on, without a gap or a repetition before the counter wraps around, and only in an attempt that has
been reported as connected and not yet as closed (`heartbeats_numbered`).
-/

namespace Uvx.Client

open Net

variable {m m' : Mode} {s s' : State} {e : Event} {es : List Event} {uv : AddrParser}
  {ip : List UInt8} {port ret : ℤ} {att : List Entry} {l : List (List Entry)} {n : ℕ}

/-- The index of a heartbeat. -/
def Entry.beat? (e : Entry) : Option UInt32 :=
  match e.action with
  | .callback (.onHeartbeat index) => some index
  | _ => none

/-- What has happened in the attempts, in order of time. -/
def timeline (attempts : List (List Entry)) : List Entry := attempts.reverse.flatten

/-- The heartbeats among the entries. -/
def beats (entries : List Entry) : List UInt32 := entries.filterMap Entry.beat?

/-- A callback has been called in the attempt. -/
def Called (cb : Callback) (att : List Entry) : Prop := ∃ e ∈ att, e.action = .callback cb

/-- In the attempt every heartbeat comes after `on_conn_ok` and before `on_conn_close`. -/
def BeatsWithin (att : List Entry) : Prop :=
  ∀ k e, att[k]? = some e → e.beat? ≠ none →
    Called .onConnOk (att.take k) ∧ ¬ Called .onConnClose (att.take k)

/-- There have been `n` heartbeats in these attempts, of which the latest is in the mode `m`. -/
structure Beaten (m : Mode) (attempts : List (List Entry)) (n : ℕ) : Prop where
  beats_eq : beats (timeline attempts) = (List.range n).map .ofNat
  within : ∀ att ∈ attempts, BeatsWithin att
  up : m.uvserver = true → ∀ att ∈ attempts.head?, Called .onConnOk att
  down : m.phase ≠ .closed → ∀ att ∈ attempts.head?, ¬ Called .onConnClose att
  nonempty : attempts ≠ []

/-! ## One more entry -/

theorem timeline_cons (cur : List Entry) (past : List (List Entry)) :
    timeline (cur :: past) = timeline past ++ cur := by
  rw [timeline, List.reverse_cons, List.flatten_concat]
  rfl

theorem beats_append (entries entries' : List Entry) :
    beats (entries ++ entries') = beats entries ++ beats entries' :=
  List.filterMap_append

theorem called_append {cb : Callback} (att : List Entry) (e : Entry) :
    Called cb (att ++ [e]) ↔ Called cb att ∨ e.action = .callback cb := by
  simp [Called, or_and_right, exists_or]

theorem BeatsWithin.snoc (h : BeatsWithin att) {e : Entry}
    (he : e.beat? ≠ none → Called .onConnOk att ∧ ¬ Called .onConnClose att) :
    BeatsWithin (att ++ [e]) := by
  intro k x hx hbeat
  rcases Nat.lt_or_ge k att.length with hk | hk
  · rw [List.getElem?_append_left hk] at hx
    rw [List.take_append_of_le_length (Nat.le_of_lt hk)]
    exact h k x hx hbeat
  · have hlt := (List.getElem?_eq_some_iff.mp hx).1
    rw [List.length_append, List.length_singleton] at hlt
    obtain rfl : k = att.length := by omega
    rw [List.getElem?_concat_length, Option.some_inj] at hx
    obtain rfl := hx
    rw [List.take_left]
    exact he hbeat

namespace Beaten

theorem change (h : Beaten m l n) (hup : m'.uvserver = true → m.uvserver = true)
    (hdown : m'.phase ≠ .closed → m.phase ≠ .closed) : Beaten m' l n :=
  ⟨h.beats_eq, h.within, fun hm => h.up (hup hm), fun hm => h.down (hdown hm), h.nonempty⟩

/-- The current attempt gets an entry. -/
theorem snoc {n' : ℕ} (h : Beaten m l n) {e : Entry}
    (hbeats : (List.range n).map UInt32.ofNat ++ beats [e] = (List.range n').map .ofNat)
    (he : e.beat? ≠ none → m.uvserver = true ∧ m.phase ≠ .closed)
    (hup : m'.uvserver = true → m.uvserver = true ∨ e.action = .callback .onConnOk)
    (hdown : m'.phase ≠ .closed → m.phase ≠ .closed ∧ e.action ≠ .callback .onConnClose) :
    Beaten m' (l.modifyHead (· ++ [e])) n' := by
  obtain ⟨cur, past, rfl⟩ := List.exists_cons_of_ne_nil h.nonempty
  rw [List.modifyHead_cons]
  refine ⟨?_, ?_, fun hm att hatt => ?_, fun hm att hatt => ?_, List.cons_ne_nil _ _⟩
  · have hbeats' := h.beats_eq
    rw [timeline_cons] at hbeats' ⊢
    rw [← List.append_assoc, beats_append, hbeats', hbeats]
  · intro att hatt
    rcases List.mem_cons.mp hatt with rfl | hatt
    · refine (h.within cur List.mem_cons_self).snoc fun hbeat => ?_
      exact ⟨h.up (he hbeat).1 cur rfl, h.down (he hbeat).2 cur rfl⟩
    · exact h.within att (List.mem_cons_of_mem _ hatt)
  · obtain rfl := Option.some_inj.mp hatt
    rw [called_append]
    exact (hup hm).imp_left fun hm => h.up hm cur rfl
  · obtain rfl := Option.some_inj.mp hatt
    rw [called_append]
    exact fun hc => hc.elim (h.down (hdown hm).1 cur rfl) (hdown hm).2

/-- An entry that is no heartbeat. -/
theorem record (h : Beaten m l n) {e : Entry} (he : e.beat? = none)
    (hup : m'.uvserver = true → m.uvserver = true ∨ e.action = .callback .onConnOk)
    (hdown : m'.phase ≠ .closed → m.phase ≠ .closed ∧ e.action ≠ .callback .onConnClose) :
    Beaten m' (l.modifyHead (· ++ [e])) n := by
  refine h.snoc ?_ (fun hbeat => absurd he hbeat) hup hdown
  rw [beats, List.filterMap_cons_none he]
  exact List.append_nil _

/-- The next heartbeat. -/
theorem beat (h : Beaten m l n) (hup : m.uvserver = true) (hdown : m.phase ≠ .closed) (ph : Phase) :
    Beaten m (l.modifyHead (· ++ [⟨.callback (.onHeartbeat (.ofNat n)), ph⟩])) (n + 1) := by
  refine h.snoc ?_ (fun _ => ⟨hup, hdown⟩) (fun hm => Or.inl hm) fun hm => ⟨hm, by simp⟩
  rw [List.range_succ, List.map_append]
  rfl

/-- A new attempt. -/
theorem init (hbeats : beats (timeline l) = (List.range n).map .ofNat)
    (hwithin : ∀ att ∈ l, BeatsWithin att) (hup : m'.uvserver = false) (addr : SockAddr) (ret : ℤ) :
    Beaten m' ([⟨.tcpConnect addr ret, .initialised⟩] :: l) n := by
  refine ⟨?_, ?_, fun hm => ?_, fun _ att hatt => ?_, List.cons_ne_nil _ _⟩
  · rw [timeline_cons, beats_append, hbeats]
    exact List.append_nil _
  · intro att hatt
    rcases List.mem_cons.mp hatt with rfl | hatt
    · intro k e he hbeat
      obtain rfl := List.mem_singleton.mp (List.mem_of_getElem? he)
      exact absurd rfl hbeat
    · exact hwithin att hatt
  · exact absurd (hup.symm.trans hm) (by simp)
  · obtain rfl := Option.some_inj.mp hatt
    simp [Called]

end Beaten

/-! ## Steps and runs -/

/-- The counter has counted the heartbeats. -/
theorem Next.beaten (h : Next s m e m' s') (hr : Rep m s) (hb : Beaten m s.attempts n)
    (hindex : s.heartbeatIndex = .ofNat n) :
    ∃ n', Beaten m' s'.attempts n' ∧ s'.heartbeatIndex = .ofNat n' := by
  cases h with
  | quiet => exact ⟨n, hb, hindex⟩
  | sent => exact ⟨n, hb.record rfl Or.inl fun hm => ⟨hm, by simp⟩, hindex⟩
  | announced => exact ⟨n, hb.record rfl Or.inl fun hm => ⟨hm, by simp⟩, hindex⟩
  | accepted =>
    exact ⟨n, hb.record rfl (fun _ => Or.inr rfl) fun _ => ⟨by simp [Mode.phase], by simp⟩, hindex⟩
  | refused =>
    exact ⟨n, hb.record rfl (by simp [Mode.uvserver]) fun _ => ⟨by simp [Mode.phase], by simp⟩,
      hindex⟩
  | received => exact ⟨n, hb.record rfl Or.inl fun hm => ⟨hm, by simp⟩, hindex⟩
  | beat ret hm hs =>
    -- while `on_conn_close` is running there is no heartbeat
    have hopen : m.phase ≠ .closed := by
      have hstack := hr.stack
      rw [hs] at hstack
      cases m with
      | ending up => cases up <;> exact absurd hstack (by simp [Mode.Stack])
      | closed => exact absurd hm (by simp [Mode.uvserver])
      | _ => simp [Mode.phase]
    refine ⟨n + 1, ?_, ?_⟩
    · rw [hindex]
      exact hb.beat hm hopen _
    · show s.heartbeatIndex + 1 = _
      rw [hindex, UInt32.ofNat_add]
      rfl
  | reconnected ret =>
    refine ⟨n, ?_, ?_⟩
    · rw [attempts_uvxClientReconnect]
      exact .init hb.beats_eq hb.within (by split <;> rfl) _ _
    · unfold uvxClientReconnect uvTcpConnect
      split <;> exact hindex
  | closed up =>
    exact ⟨n, hb.record rfl (fun hm => Or.inl hm) fun hm => absurd rfl hm, hindex⟩
  | returned => exact ⟨n, hb, hindex⟩
  | failed => exact ⟨n, hb.record rfl Or.inl fun hm => ⟨hm, by simp⟩, hindex⟩
  | disconnected hs =>
    refine ⟨n, ?_, ?_⟩
    · rw [attempts_uvClose]
      refine hb.record rfl ?_ ?_
      · cases m <;> simp [Mode.afterClose, Mode.uvserver]
      · cases m <;> simp [Mode.afterClose, Mode.phase]
    · unfold uvClose
      dsimp only
      split <;> exact hindex
  | ended => exact ⟨n, hb.change (by simp [Mode.uvserver]) fun hm => absurd rfl hm, hindex⟩

/-- **Heartbeats are numbered** from 0 on in every run, through all attempts, and each belongs to a
connection that has been reported and not yet reported closed. -/
theorem heartbeats_numbered (hrun : Exec Step (uvxClientConnect uv ip port ret).1 es s) :
    ∃ n, s.heartbeatIndex = .ofNat n ∧ beats (timeline s.attempts) = (List.range n).map .ofNat ∧
      ∀ att ∈ s.attempts, BeatsWithin att := by
  suffices hinv : ∃ m n, Rep m s ∧ Beaten m s.attempts n ∧ s.heartbeatIndex = .ofNat n by
    obtain ⟨m, n, -, hb, hindex⟩ := hinv
    exact ⟨n, hindex, hb.beats_eq, hb.within⟩
  apply hrun.invariant
    (I := fun s => ∃ m n, Rep m s ∧ Beaten m s.attempts n ∧ s.heartbeatIndex = .ofNat n)
  · refine ⟨_, 0, Rep.start uv ip port ret, ?_, rfl⟩
    rw [attempts_uvxClientConnect]
    exact .init rfl (fun _ hatt => absurd hatt List.not_mem_nil) (by split <;> rfl) _ _
  · rintro s e s' ⟨m, n, h, hb, hindex⟩ hstep
    obtain ⟨m', hnext, h'⟩ := h.next hstep
    obtain ⟨n', hb', hindex'⟩ := hnext.beaten h hb hindex
    exact ⟨m', n', h', hb', hindex'⟩

/-- Two heartbeats, a connection lost, and a third one on the next connection. -/
theorem heartbeats_numbered_three :
    ∃ s : State, s.attempts.length = 2 ∧ beats (timeline s.attempts) = [0, 1, 2] ∧
      ∀ att ∈ s.attempts, BeatsWithin att := by
  let es : List Event := [.connect 0, .returned, .heartbeat 0, .returned, .heartbeat 0, .returned,
    .read (-4095), .returned, .closed, .returned, .heartbeat 0, .connect 0, .returned, .heartbeat 0]
  have hrun : ∃ s, runEvents (fun _ _ => True) es (uvxClientConnect plainParser [] 80 0).1 = some s ∧
      s.attempts.length = 2 ∧ beats (timeline s.attempts) = [0, 1, 2] := by decide +kernel
  obtain ⟨s, hs, hlen, hbeats⟩ := hrun
  obtain ⟨n, -, -, hwithin⟩ := heartbeats_numbered (exec_of_runEvents hs).unguarded
  exact ⟨s, hlen, hbeats, hwithin⟩

end Uvx.Client
