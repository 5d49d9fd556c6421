import Uvx.Send.Defs
import Mathlib

/-!
# Every buffer is released once

User code gives up a block when it hands it over, and each request brings a block of its own. While
libuv accepts the requests, each of these blocks is in use by one pending request or has been freed
once (`released_once`); a refused request loses its blocks (`not_released_refused`).
-/

namespace Uvx.Send

open Net

variable {s s' : State} {e : Event} {es : List Event} {lost : List Ptr}

/-- The blocks that libuv uses until a request is complete. -/
def Request.blocks (r : Request) : List Ptr :=
  if r.base = r.ptr then [r.ptr] else [r.base, r.ptr]

/-- The blocks in use by pending requests. -/
def State.inUse (s : State) : List Ptr := s.pending.flatMap Request.blocks

/-- Every block that user code has given up, and every request, has been released once and is not in
use any more, or it is in use by one pending request and has not been released. -/
def Accounted (s : State) : Prop :=
  ∀ p < s.next, p ∉ s.user →
    (s.freed.count p = 1 ∧ p ∉ s.inUse) ∨ (s.freed.count p = 0 ∧ s.inUse.count p = 1)

/-- `uv_write` or `uv_udp_send`, where it is called, accepts the request. -/
def Accepted : Event → Prop
  | .clientSend (some _) _ _ status | .serverConnSend _ _ _ status | .sendToStream _ _ _ status
  | .sendMem _ _ _ status | .udpSendToAddr _ _ _ status => status = 0
  | .clientSend none _ _ _ | .malloc | .complete _ => True

/-! ## The ledger -/

/-- The callback of a request frees the blocks that the request uses. -/
def Request.Owner (r : Request) : Prop :=
  if r.cb = .afterUdpSend then r.base = r.ptr else r.data = r.base ∧ r.base ≠ r.ptr

/-- Each allocated block is in one place: with user code, in use, freed, or lost. -/
structure Ledger (s : State) (lost : List Ptr) : Prop where
  balance : ∀ p, s.user.count p + s.inUse.count p + s.freed.count p + lost.count p
    = if p < s.next then 1 else 0
  owner : ∀ r ∈ s.pending, r.Owner

theorem ledger_init : Ledger .init [] :=
  ⟨fun p => by simp [State.init, State.inUse], fun r hr => absurd hr List.not_mem_nil⟩

theorem Request.complete_eq {r : Request} (h : r.Owner) (s : State) :
    r.complete s = { s with freed := r.blocks.reverse ++ s.freed } := by
  unfold Request.Owner at h
  unfold Request.complete Request.blocks
  cases hcb : r.cb with
  | afterUdpSend =>
    rw [hcb, if_pos rfl] at h
    rw [if_pos h]
    rfl
  | afterSendToStream | afterSendMem =>
    rw [hcb, if_neg (by simp)] at h
    rw [if_neg h.2, ← h.1]
    rfl

namespace Ledger

/-- A block of user code is in no other place. -/
theorem of_user (h : Ledger s lost) {p : Ptr} (hp : p ∈ s.user) :
    p < s.next ∧ s.user.count p = 1 := by
  have hpos := List.count_pos_iff.mpr hp
  have hbal := h.balance p
  split_ifs at hbal with hlt
  · exact ⟨hlt, by omega⟩
  · omega

/-- User code gives up a block, which is then lost unless it is put somewhere else. -/
theorem handOver (h : Ledger s lost) {p : Ptr} (hp : p ∈ s.user) :
    Ledger (s.handOver p) (p :: lost) := by
  refine ⟨?_, h.owner⟩
  intro q
  have hbal := h.balance q
  have hone := (h.of_user hp).2
  show (s.user.erase p).count q + s.inUse.count q + s.freed.count q + _ = if q < s.next then 1 else 0
  rw [List.count_erase, List.count_cons, ← hbal]
  by_cases hq : p = q
  · subst hq
    simp
    omega
  · rw [if_neg (by simpa using hq)]
    omega

/-- A new block is lost unless it is put somewhere. -/
theorem alloc (h : Ledger s lost) : Ledger s.malloc.2 (s.next :: lost) := by
  refine ⟨?_, h.owner⟩
  intro p
  have hbal := h.balance p
  show s.user.count p + s.inUse.count p + s.freed.count p + _ = if p < s.next + 1 then 1 else 0
  rw [List.count_cons, ← Nat.add_assoc, hbal]
  rcases Nat.lt_trichotomy p s.next with hp | rfl | hp
  · simp [hp, Nat.lt_succ_of_lt hp, Nat.ne_of_gt hp]
  · simp
  · simp [Nat.not_lt_of_gt hp, Nat.not_lt.mpr (Nat.succ_le_of_lt hp), Nat.ne_of_lt hp]

/-- The last lost block goes to user code after all. -/
theorem own {p : Ptr} (h : Ledger s (p :: lost)) : Ledger { s with user := p :: s.user } lost := by
  refine ⟨?_, h.owner⟩
  intro q
  have hbal := h.balance q
  show (p :: s.user).count q + s.inUse.count q + s.freed.count q + _ = if q < s.next then 1 else 0
  rw [← hbal, List.count_cons, List.count_cons]
  omega

theorem perm {lost' : List Ptr} (h : Ledger s lost) (hperm : lost'.Perm lost) : Ledger s lost' :=
  ⟨fun p => by rw [hperm.count_eq, h.balance], h.owner⟩

/-- It is freed. -/
theorem free {p : Ptr} (h : Ledger s (p :: lost)) : Ledger (s.free p) lost := by
  refine ⟨?_, h.owner⟩
  intro q
  have hbal := h.balance q
  show s.user.count q + s.inUse.count q + (p :: s.freed).count q + _ = if q < s.next then 1 else 0
  rw [← hbal, List.count_cons, List.count_cons]
  omega

/-- An accepted request puts its blocks in use. -/
theorem accept {r : Request} (h : Ledger s (r.blocks ++ lost)) (hr : r.Owner) :
    Ledger { s with pending := s.pending ++ [r] } lost := by
  refine ⟨?_, ?_⟩
  · intro q
    have hbal := h.balance q
    have huse : ({ s with pending := s.pending ++ [r] } : State).inUse = s.inUse ++ r.blocks := by
      simp [State.inUse]
    rw [List.count_append] at hbal
    rw [huse, List.count_append]
    show s.user.count q + _ + s.freed.count q + _ = if q < s.next then 1 else 0
    omega
  · intro r' hr'
    rcases List.mem_append.mp hr' with hr' | hr'
    · exact h.owner r' hr'
    · rwa [List.mem_singleton.mp hr']

theorem complete {r : Request} (h : Ledger s lost) (hr : r ∈ s.pending) :
    Ledger (handle (.complete r) s) lost := by
  have hperm : s.inUse.Perm (r.blocks ++ (s.pending.erase r).flatMap Request.blocks) :=
    (List.perm_cons_erase hr).flatMap_right _
  refine ⟨?_, ?_⟩
  · intro q
    have hbal := h.balance q
    rw [handle, Request.complete_eq (h.owner r hr)]
    show s.user.count q + ((s.pending.erase r).flatMap Request.blocks).count q
      + (r.blocks.reverse ++ s.freed).count q + _ = if q < s.next then 1 else 0
    rw [hperm.count_eq, List.count_append] at hbal
    rw [← hbal, List.count_append, List.count_reverse]
    omega
  · intro r' hr'
    rw [handle, Request.complete_eq (h.owner r hr)] at hr'
    exact h.owner r' (List.mem_of_mem_erase hr')

end Ledger

/-! ## Sends -/

/-- The blocks that are lost in an event. -/
def lostIn (s : State) : Event → List Ptr
  | .clientSend (some _) data _ status | .serverConnSend _ data _ status
  | .sendToStream _ data _ status | .sendMem data _ _ status =>
    if status = 0 then [] else [data, s.next]
  | .udpSendToAddr _ _ _ status => if status = 0 then [] else [s.next]
  | .clientSend none _ _ _ | .malloc | .complete _ => []

theorem lostIn_eq_nil_iff (s : State) (e : Event) : lostIn s e = [] ↔ Accepted e := by
  cases e with
  | clientSend uvserver data size status =>
    cases uvserver with
    | none => exact iff_of_true rfl trivial
    | some uvserver => simp [lostIn, Accepted]
  | malloc | complete => exact iff_of_true rfl trivial
  | _ => simp [lostIn, Accepted]

/-- A request to write a block that user code has handed over. -/
theorem Ledger.write (h : Ledger s lost) {data : Ptr} (hdata : data ∈ s.user) (status : ℤ)
    {w : Request} (hptr : w.ptr = s.next) (hbase : w.base = data) (hw : w.data = data)
    (hcb : w.cb ≠ .afterUdpSend) :
    Ledger (uvWrite status w (s.handOver data).malloc.2)
      ((if status = 0 then [] else [data, s.next]) ++ lost) := by
  have hne : data ≠ s.next := Nat.ne_of_lt (h.of_user hdata).1
  have hlost : Ledger (s.handOver data).malloc.2 ([data, s.next] ++ lost) :=
    ((h.handOver hdata).alloc).perm (List.Perm.swap _ _ _)
  unfold uvWrite
  split_ifs with hstatus
  · have hblocks : w.blocks = [data, s.next] := by
      rw [Request.blocks, hptr, hbase, if_neg hne]
    refine Ledger.accept (by rwa [hblocks]) ?_
    rw [Request.Owner, if_neg hcb, hw, hbase, hptr]
    exact ⟨rfl, hne⟩
  · exact hlost

/-- What an event does to the ledger. -/
theorem Ledger.step (h : Ledger s lost) (hs : Step s e s') : Ledger s' (lostIn s e ++ lost) := by
  obtain ⟨hen, rfl⟩ := hs
  cases e with
  | malloc => exact h.alloc.own
  | clientSend uvserver data size status =>
    cases uvserver with
    | none => exact (h.handOver hen).free
    | some uvserver => exact h.write hen status rfl rfl rfl (by simp)
  | serverConnSend uvclient data size status => exact h.write hen status rfl rfl rfl (by simp)
  | sendToStream stream data size status => exact h.write hen status rfl rfl rfl (by simp)
  | sendMem pdata size stream status => exact h.write hen status rfl rfl rfl (by simp)
  | udpSendToAddr xudp addr data status =>
    -- the data lies in the block of the request
    have hlost : Ledger { s.malloc.2 with datagrams := s.datagrams ++ [(addr, data)] }
        (s.next :: lost) := ⟨h.alloc.balance, h.alloc.owner⟩
    show Ledger (uvUdpSend status _ addr data s.malloc.2) _
    unfold uvUdpSend lostIn
    simp only
    split_ifs with hstatus
    · refine Ledger.accept (s := { s.malloc.2 with datagrams := s.datagrams ++ [(addr, data)] }) ?_ ?_
      · simpa [Request.blocks, State.malloc] using hlost
      · simp [Request.Owner]
    · exact hlost
  | complete r => exact h.complete hen

/-- The ledger after a run: blocks are lost exactly in the refused requests. -/
theorem exec_ledger (hrun : Exec Step .init es s) :
    ∃ lost, Ledger s lost ∧ (lost = [] ↔ ∀ e ∈ es, Accepted e) := by
  apply hrun.invariant_actions
    (I := fun es s => ∃ lost, Ledger s lost ∧ (lost = [] ↔ ∀ e ∈ es, Accepted e))
  · exact ⟨[], ledger_init, iff_of_true rfl fun _ h => absurd h List.not_mem_nil⟩
  · rintro es s e s' ⟨lost, h, hlost⟩ hstep
    refine ⟨lostIn s e ++ lost, h.step hstep, ?_⟩
    rw [List.append_eq_nil_iff, lostIn_eq_nil_iff, hlost, List.forall_mem_append,
      List.forall_mem_singleton]
    exact and_comm

/-- A ledger without losses accounts for every block. -/
theorem Ledger.accounted (h : Ledger s []) : Accounted s := by
  intro p hp huser
  have hbal := h.balance p
  rw [if_pos hp, List.count_eq_zero_of_not_mem huser, List.count_nil] at hbal
  rcases Nat.eq_zero_or_pos (s.freed.count p) with hz | hpos
  · exact Or.inr ⟨hz, by omega⟩
  · exact Or.inl ⟨by omega, List.count_eq_zero.mp (by omega)⟩

/-- A lost block is neither in use nor freed. -/
theorem Ledger.not_accounted (h : Ledger s lost) (hlost : lost ≠ []) : ¬ Accounted s := by
  obtain ⟨p, hp⟩ := List.exists_mem_of_ne_nil lost hlost
  have hpos := List.count_pos_iff.mpr hp
  have hbal := h.balance p
  intro hacc
  split_ifs at hbal with hlt
  · have huser : p ∉ s.user := List.count_eq_zero.mp (by omega)
    rcases hacc p hlt huser with ⟨hfreed, -⟩ | ⟨-, huse⟩ <;> omega
  · omega

/-- **Every buffer and every request is released once** as long as libuv accepts the requests, and
with a refused one this ends for good. -/
theorem released_once (hrun : Exec Step .init es s) :
    (Accounted s ∧ (s.pending = [] → ∀ p < s.next, p ∉ s.user → s.freed.count p = 1)) ↔
      ∀ e ∈ es, Accepted e := by
  obtain ⟨lost, h, hlost⟩ := exec_ledger hrun
  rw [← hlost]
  constructor
  · rintro ⟨hacc, -⟩
    by_contra hne
    exact h.not_accounted hne hacc
  · rintro rfl
    refine ⟨h.accounted, ?_⟩
    intro hidle p hp huser
    rcases h.accounted p hp huser with ⟨hfreed, -⟩ | ⟨-, huse⟩
    · exact hfreed
    · rw [State.inUse, hidle] at huse
      exact absurd huse (by simp)

/-- A buffer is written and a datagram is sent, and then another buffer cannot be sent. -/
theorem released_once_three :
    ∃ s : State, s.pending = [] ∧ s.next = 4 ∧ ∀ p < s.next, p ∉ s.user → s.freed.count p = 1 := by
  let w : Request := ⟨1, 9, 0, 5, 0, .afterSendToStream⟩
  let req : Request := ⟨2, 8, 2, 1, 8, .afterUdpSend⟩
  let es : List Event := [.malloc, .clientSend (some 9) 0 5 0, .udpSendToAddr 8 ⟨false, [], 0⟩ [7] 0,
    .complete req, .malloc, .clientSend none 3 5 0, .complete w]
  have hrun : Exec Step .init es (es.foldl (fun s e => handle e s) .init) := by
    refine .cons ⟨trivial, rfl⟩ (.cons ⟨?_, rfl⟩ (.cons ⟨trivial, rfl⟩ (.cons ⟨?_, rfl⟩
      (.cons ⟨trivial, rfl⟩ (.cons ⟨?_, rfl⟩ (.cons ⟨?_, rfl⟩ .nil))))))
    all_goals
      show _ ∈ _
      decide
  refine ⟨_, ?_, ?_, ((released_once hrun).mpr ?_).2 ?_⟩
  · decide
  · decide
  · simp [es, Accepted]
  · decide

/-- A buffer is handed over and `uv_write` refuses it: nobody will free it. -/
theorem not_released_refused :
    ∃ es s, Exec Step .init es s ∧ s.pending = [] ∧ s.user = [] ∧ s.next = 2 ∧ s.freed = [] ∧
      ¬ Accounted s := by
  refine ⟨[.malloc, .clientSend (some 9) 0 5 (-32)], _,
    .cons ⟨trivial, rfl⟩ (.cons ⟨?_, rfl⟩ .nil), rfl, rfl, rfl, rfl, fun hacc => ?_⟩
  · show 0 ∈ _
    decide
  · exact absurd (hacc 0 (by decide) (by decide)) (by decide)

end Uvx.Send
