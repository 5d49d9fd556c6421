import Mathlib.Data.List.Nodup
import Uvx.Common.Wp
import Uvx.LinkHash.Table
import Uvx.Server.Spec

/-!
# References, memory and traces

`Tracks s a`: the memory of `s` holds the connections of the abstract server `a`. The reference count
of a connection is the number of references held by user code, and one more while the server has its
own; memory that is not the server's is free or held by user code alone. Reference calls keep this,
whenever they are made (`userRef_spec`).
-/

namespace Uvx.Server

open LinkHash

/-- A connection on which the server has a reference. -/
structure Owns (s : State) (l : Link) : Prop where
  isKey : IsKey l.ptr
  handle_eq : s.handle l.ptr = l.handle
  trace_eq : s.trace l.serial = l.trace
  conn : ∃ c, s.heap l.ptr = some c ∧ c.lastCommTime = l.time ∧ c.serial = l.serial ∧
    c.refcount = s.held l.ptr + 1

/-- The memory of the connection has not been freed. -/
def Live (s : State) (l : Link) : Prop :=
  ∃ c, s.heap l.ptr = some c ∧ c.serial = l.serial

/-- A connection on which the server has dropped its reference. -/
def Dropped (s : State) (l : Link) : Prop :=
  (Live s l ∧ s.trace l.serial = l.trace) ∨ (¬ Live s l ∧ s.trace l.serial = l.trace ++ [.freed])

/-- Memory on which the server has no reference. -/
structure Foreign (s : State) (gone : List Link) (p : Ptr) : Prop where
  handle_eq : s.handle p = .unused
  heap : (s.heap p = none ∧ s.held p = 0) ∨
    ∃ c, s.heap p = some c ∧ c.refcount = s.held p ∧ 0 < s.held p ∧
      ∃ l ∈ gone, l.ptr = p ∧ l.serial = c.serial

/-- The memory of the server holds the connections of `a`. -/
structure Tracks (s : State) (a : Spec) : Prop where
  now_eq : s.now = a.now
  accepted_eq : s.accepted = a.accepted
  ptrs : (a.owned.map Link.ptr).Nodup
  serials : (a.all.map Link.serial).Nodup
  serial_lt : ∀ l ∈ a.all, l.serial < a.accepted
  cover : ∀ n < a.accepted, n ∈ a.all.map Link.serial
  fresh : ∀ n, a.accepted ≤ n → s.trace n = []
  owns : ∀ l ∈ a.owned, Owns s l
  dropped : ∀ l ∈ a.gone, Dropped s l
  foreign : ∀ p, p ∉ a.owned.map Link.ptr → Foreign s a.gone p

/-- The two states differ at most in references and traces, and in the memory they have freed. -/
structure SameBut (s s' : State) : Prop where
  conns_eq : s'.conns = s.conns
  timer_eq : s'.timer = s.timer
  listening_eq : s'.listening = s.listening

namespace SameBut

theorem refl (s : State) : SameBut s s := ⟨rfl, rfl, rfl⟩

theorem trans {s s' s'' : State} (h : SameBut s s') (h' : SameBut s' s'') : SameBut s s'' :=
  ⟨h'.1.trans h.1, h'.2.trans h.2, h'.3.trans h.3⟩

end SameBut

/-! ## Memory in use -/

variable {s s' : State} {a a' : Spec} {l : Link}

theorem Owns.of_some (h : Owns s l) {c : Conn} (hc : s.heap l.ptr = some c) :
    c.lastCommTime = l.time ∧ c.serial = l.serial ∧ c.refcount = s.held l.ptr + 1 := by
  obtain ⟨c', hc', hrest⟩ := h.conn
  rw [hc, Option.some_inj] at hc'
  exact hc' ▸ hrest

theorem Foreign.of_some {gone : List Link} {p : Ptr} (h : Foreign s gone p) {c : Conn}
    (hc : s.heap p = some c) :
    c.refcount = s.held p ∧ 0 < s.held p ∧ ∃ l ∈ gone, l.ptr = p ∧ l.serial = c.serial := by
  rcases h.heap with ⟨hnone, -⟩ | ⟨c', hc', hrest⟩
  · rw [hc] at hnone
    exact absurd hnone (by simp)
  · rw [hc, Option.some_inj] at hc'
    exact hc' ▸ hrest

/-! ## Frames -/

theorem Owns.congr (h : Owns s l) (hhandle : s'.handle l.ptr = s.handle l.ptr)
    (htrace : s'.trace l.serial = s.trace l.serial) (hheap : s'.heap l.ptr = s.heap l.ptr)
    (hheld : s'.held l.ptr = s.held l.ptr) : Owns s' l :=
  ⟨h.isKey, hhandle.trans h.handle_eq, htrace.trans h.trace_eq, by rw [hheap, hheld]; exact h.conn⟩

theorem Dropped.congr (h : Dropped s l) (hlive : Live s' l ↔ Live s l)
    (htrace : s'.trace l.serial = s.trace l.serial) : Dropped s' l := by
  rw [Dropped, hlive, htrace]
  exact h

theorem Foreign.congr {gone : List Link} {p : Ptr} (h : Foreign s gone p)
    (hhandle : s'.handle p = s.handle p) (hheap : s'.heap p = s.heap p)
    (hheld : s'.held p = s.held p) : Foreign s' gone p :=
  ⟨hhandle.trans h.handle_eq, by rw [hheap, hheld]; exact h.heap⟩

namespace Tracks

/-- Time and the fields that are not memory. -/
theorem frame (h : Tracks s a) {now : UInt64} (hnow : s'.now = now) (hacc : s'.accepted = s.accepted)
    (hhandle : s'.handle = s.handle) (hheap : s'.heap = s.heap) (hheld : s'.held = s.held)
    (htrace : s'.trace = s.trace) : Tracks s' { a with now := now } := by
  refine ⟨hnow, hacc.trans h.accepted_eq, h.ptrs, h.serials, h.serial_lt, h.cover, fun n hn => ?_,
    fun l hl => ?_, fun g hg => ?_, fun p hp => ?_⟩
  · rw [htrace]; exact h.fresh n hn
  · exact (h.owns l hl).congr (by rw [hhandle]) (by rw [htrace]) (by rw [hheap]) (by rw [hheld])
  · exact (h.dropped g hg).congr (by rw [Live, Live, hheap]) (by rw [htrace])
  · exact (h.foreign p hp).congr (by rw [hhandle]) (by rw [hheap]) (by rw [hheld])

theorem mem_all_of_owned (hl : l ∈ a.owned) : l ∈ a.all :=
  List.mem_append_left _ hl

/-- Connections of the server differ in their memory. -/
theorem eq_of_ptr (h : Tracks s a) {m : Link} (hl : l ∈ a.owned) (hm : m ∈ a.owned)
    (he : l.ptr = m.ptr) : l = m :=
  List.inj_on_of_nodup_map h.ptrs hl hm he

/-- Connections differ in their serial numbers. -/
theorem eq_of_serial (h : Tracks s a) {m : Link} (hl : l ∈ a.all) (hm : m ∈ a.all)
    (he : l.serial = m.serial) : l = m :=
  List.inj_on_of_nodup_map h.serials hl hm he

/-- A dropped connection whose memory is in use again has been freed. -/
theorem serial_ne (h : Tracks s a) {g : Link} (hl : l ∈ a.owned) (hg : g ∈ a.gone) :
    g.serial ≠ l.serial := by
  have hnodup := h.serials
  rw [Spec.all, List.map_append, List.nodup_append] at hnodup
  exact fun he => hnodup.2.2 _ (List.mem_map_of_mem hl) _ (List.mem_map_of_mem hg) he.symm

/-- The memory at the address of a dropped connection does not belong to it once the server uses
the address again. -/
theorem not_live (h : Tracks s a) {g : Link} (hl : l ∈ a.owned) (hg : g ∈ a.gone)
    (hp : g.ptr = l.ptr) : ¬ Live s g := by
  rintro ⟨c, hc, hserial⟩
  rw [hp] at hc
  exact h.serial_ne hl hg (hserial.symm.trans ((h.owns l hl).of_some hc).2.1)

/-- **One connection changes.** The rest of the memory and the traces stay as they were. -/
theorem change (h : Tracks s a) {xs ys : List Link} {l' : Link} (howned : a.owned = xs ++ l :: ys)
    (howned' : a'.owned = xs ++ l' :: ys) (hgone : a'.gone = a.gone) (hnow : a'.now = a.now)
    (hacc : a'.accepted = a.accepted) (hptr : l'.ptr = l.ptr) (hserial : l'.serial = l.serial)
    (hnow' : s'.now = s.now) (hacc' : s'.accepted = s.accepted) (hl' : Owns s' l')
    (hat : ∀ p, p ≠ l.ptr → s'.handle p = s.handle p ∧ s'.heap p = s.heap p ∧ s'.held p = s.held p)
    (htrace : ∀ n, n ≠ l.serial → s'.trace n = s.trace n) : Tracks s' a' := by
  have hptrs : a'.owned.map Link.ptr = a.owned.map Link.ptr := by
    rw [howned, howned', List.map_append, List.map_append, List.map_cons, List.map_cons, hptr]
  have hserials : a'.all.map Link.serial = a.all.map Link.serial := by
    rw [Spec.all, Spec.all, howned, howned', hgone]
    simp only [List.map_append, List.map_cons, hserial]
  have hl : l ∈ a.owned := by simp [howned]
  refine ⟨by rw [hnow', hnow, h.now_eq], by rw [hacc', hacc, h.accepted_eq], hptrs ▸ h.ptrs,
    hserials ▸ h.serials, fun m hm => ?_, hserials ▸ hacc ▸ h.cover, fun n hn => ?_, fun m hm => ?_,
    fun g hg => ?_, fun p hp => ?_⟩
  · have hmem : m.serial ∈ a.all.map Link.serial := hserials ▸ List.mem_map_of_mem hm
    obtain ⟨m', hm', he⟩ := List.mem_map.mp hmem
    rw [hacc, ← he]
    exact h.serial_lt m' hm'
  · rw [hacc] at hn
    have hlt := h.serial_lt l (mem_all_of_owned hl)
    rw [htrace n (by omega)]
    exact h.fresh n hn
  · have hmem : m = l' ∨ m ∈ xs ++ ys := by
      rw [howned', List.mem_append, List.mem_cons] at hm
      rw [List.mem_append]; tauto
    rcases hmem with rfl | hmem
    · exact hl'
    · have hmo : m ∈ a.owned := by
        rw [howned, List.mem_append, List.mem_cons]
        rw [List.mem_append] at hmem; tauto
      have hne : m ≠ l := by
        rintro rfl
        have hnodup := List.Nodup.of_map _ h.ptrs
        rw [howned, List.nodup_middle, List.nodup_cons] at hnodup
        exact hnodup.1 hmem
      obtain ⟨hh, hp, hd⟩ := hat m.ptr fun he => hne (h.eq_of_ptr hmo hl he)
      exact (h.owns m hmo).congr hh
        (htrace _ fun he => hne (h.eq_of_serial (mem_all_of_owned hmo) (mem_all_of_owned hl) he)) hp hd
  · rw [hgone] at hg
    refine (h.dropped g hg).congr ?_ (htrace _ (h.serial_ne hl hg))
    by_cases hp : g.ptr = l.ptr
    · refine iff_of_false ?_ (h.not_live hl hg hp)
      rintro ⟨c, hc, hcs⟩
      rw [hp, ← hptr] at hc
      exact h.serial_ne hl hg (hcs.symm.trans ((hl'.of_some hc).2.1.trans hserial))
    · rw [Live, Live, (hat _ hp).2.1]
  · rw [hptrs] at hp
    obtain ⟨hh, hq, hd⟩ := hat p fun he => hp (he ▸ List.mem_map_of_mem hl)
    rw [hgone]
    exact (h.foreign p hp).congr hh hq hd

end Tracks

/-! ## Reference calls -/

/-- The memory at `p` with its references changed by `d`. -/
def State.addRef (s : State) (p : Ptr) (c : Conn) (d : ℤ) : State :=
  { s with
    held := Function.update s.held p (s.held p + d).toNat
    heap := Function.update s.heap p (some { c with refcount := c.refcount + d }) }

/-- The memory at `p` freed with its last reference. -/
def State.dropRef (s : State) (p : Ptr) (c : Conn) : State :=
  { s with
    held := Function.update s.held p 0
    heap := Function.update s.heap p none
    trace := Function.update s.trace c.serial (s.trace c.serial ++ [.freed]) }

section Fields

variable (s : State) (p q : Ptr) (c : Conn) (d : ℤ) (n : ℕ)

theorem heap_addRef : (s.addRef p c d).heap q =
    if q = p then some { c with refcount := c.refcount + d } else s.heap q :=
  Function.update_apply ..

theorem held_addRef :
    (s.addRef p c d).held q = if q = p then (s.held p + d).toNat else s.held q :=
  Function.update_apply ..

theorem heap_dropRef : (s.dropRef p c).heap q = if q = p then none else s.heap q :=
  Function.update_apply ..

theorem held_dropRef : (s.dropRef p c).held q = if q = p then 0 else s.held q :=
  Function.update_apply ..

theorem trace_dropRef : (s.dropRef p c).trace n =
    if n = c.serial then s.trace c.serial ++ [.freed] else s.trace n :=
  Function.update_apply ..

end Fields

theorem Tracks.addRef (h : Tracks s a) {p : Ptr} {c : Conn} {d : ℤ} (hc : s.heap p = some c)
    (hd : 0 ≤ s.held p + d) (hpos : p ∈ a.owned.map Link.ptr ∨ 0 < s.held p + d) :
    Tracks (s.addRef p c d) a := by
  refine ⟨h.now_eq, h.accepted_eq, h.ptrs, h.serials, h.serial_lt, h.cover, h.fresh,
    fun l hl => ?_, fun g hg => ?_, fun q hq => ?_⟩
  · by_cases hp : l.ptr = p
    · subst hp
      obtain ⟨htime, hserial, href⟩ := (h.owns l hl).of_some hc
      refine ⟨(h.owns l hl).isKey, (h.owns l hl).handle_eq, (h.owns l hl).trace_eq,
        { c with refcount := c.refcount + d }, ?_, htime, hserial, ?_⟩
      · rw [heap_addRef, if_pos rfl]
      · rw [held_addRef, if_pos rfl]
        simp only
        omega
    · exact (h.owns l hl).congr rfl rfl (by rw [heap_addRef, if_neg hp])
        (by rw [held_addRef, if_neg hp])
  · refine (h.dropped g hg).congr ?_ rfl
    by_cases hp : g.ptr = p
    · rw [Live, Live, heap_addRef, if_pos hp, hp, hc]
      simp
    · rw [Live, Live, heap_addRef, if_neg hp]
  · by_cases hp : q = p
    · subst hp
      obtain ⟨href, -, hg⟩ := (h.foreign q hq).of_some hc
      have hpos' := hpos.resolve_left hq
      refine ⟨(h.foreign q hq).handle_eq,
        Or.inr ⟨{ c with refcount := c.refcount + d }, ?_, ?_, ?_, hg⟩⟩
      · rw [heap_addRef, if_pos rfl]
      · rw [held_addRef, if_pos rfl]; simp only; omega
      · rw [held_addRef, if_pos rfl]; omega
    · exact (h.foreign q hq).congr rfl (by rw [heap_addRef, if_neg hp])
        (by rw [held_addRef, if_neg hp])

theorem Tracks.dropRef (h : Tracks s a) {p : Ptr} {c : Conn} (hc : s.heap p = some c)
    (hp : p ∉ a.owned.map Link.ptr) : Tracks (s.dropRef p c) a := by
  obtain ⟨-, -, g, hg, hgp, hgs⟩ := (h.foreign p hp).of_some hc
  have hga : g ∈ a.all := List.mem_append_right _ hg
  have htrace : ∀ n, n ≠ c.serial → (s.dropRef p c).trace n = s.trace n :=
    fun n hn => by rw [trace_dropRef, if_neg hn]
  refine ⟨h.now_eq, h.accepted_eq, h.ptrs, h.serials, h.serial_lt, h.cover, fun n hn => ?_,
    fun l hl => ?_, fun m hm => ?_, fun q hq => ?_⟩
  · have := h.serial_lt g hga
    rw [htrace n (by omega)]
    exact h.fresh n hn
  · have hlp : l.ptr ≠ p := fun he => hp (he ▸ List.mem_map_of_mem hl)
    exact (h.owns l hl).congr rfl (htrace _ fun he => h.serial_ne hl hg (hgs.trans he.symm))
      (by rw [heap_dropRef, if_neg hlp]) (by rw [held_dropRef, if_neg hlp])
  · have hnone : (s.dropRef p c).heap p = none := by rw [heap_dropRef, if_pos rfl]
    by_cases hms : m.serial = c.serial
    · -- the connection whose memory is freed
      have hmg : m = g := h.eq_of_serial (List.mem_append_right _ hm) hga (hms.trans hgs.symm)
      rcases h.dropped m hm with ⟨-, htr⟩ | ⟨hdead, -⟩
      · refine Or.inr ⟨?_, ?_⟩
        · rintro ⟨c', hc', -⟩
          rw [hmg, hgp, hnone] at hc'
          exact absurd hc' (by simp)
        · rw [← htr, trace_dropRef, if_pos hms, hms]
      · exact absurd ⟨c, by rw [hmg, hgp, hc], hms.symm⟩ hdead
    · refine (h.dropped m hm).congr ?_ (htrace _ hms)
      by_cases hmp : m.ptr = p
      · rw [Live, Live, hmp, hnone, hc]
        refine iff_of_false (by simp) ?_
        rintro ⟨c', hc', hs⟩
        exact hms (by rw [← hs, ← Option.some_inj.mp hc'])
      · rw [Live, Live, heap_dropRef, if_neg hmp]
  · by_cases hqp : q = p
    · subst hqp
      exact ⟨(h.foreign q hq).handle_eq,
        Or.inl ⟨by rw [heap_dropRef, if_pos rfl], by rw [held_dropRef, if_pos rfl]⟩⟩
    · exact (h.foreign q hq).congr rfl (by rw [heap_dropRef, if_neg hqp])
        (by rw [held_dropRef, if_neg hqp])

theorem uvxServerConnRef_eq {p : Ptr} {c : Conn} {ref : ℤ} (hc : s.heap p = some c)
    (href : ref = 1 ∨ ref = -1) :
    uvxServerConnRef p ref s = .ok ((),
      if c.refcount + ref = 0 then
        { s with
          heap := Function.update s.heap p none
          trace := Function.update s.trace c.serial (s.trace c.serial ++ [.freed]) }
      else
        { s with
          heap := Function.update s.heap p (some { c with refcount := c.refcount + ref }) }) := by
  simp only [uvxServerConnRef, check, if_pos href, deref, run_bind, run_get, run_pure, Except.bind,
    hc]
  split
  · rfl
  · rfl

/-- The references counted are those held by user code and the server's own. -/
theorem Tracks.refcount (h : Tracks s a) {p : Ptr} {c : Conn} (hc : s.heap p = some c) :
    (p ∈ a.owned.map Link.ptr ∧ c.refcount = s.held p + 1) ∨
      (p ∉ a.owned.map Link.ptr ∧ c.refcount = s.held p ∧ 0 < s.held p) := by
  by_cases hp : p ∈ a.owned.map Link.ptr
  · obtain ⟨l, hl, rfl⟩ := List.mem_map.mp hp
    exact Or.inl ⟨hp, ((h.owns l hl).of_some hc).2.2⟩
  · obtain ⟨href, hpos, -⟩ := (h.foreign p hp).of_some hc
    exact Or.inr ⟨hp, href, hpos⟩

/-- Memory on which user code holds a reference is there. -/
theorem Tracks.exists_conn (h : Tracks s a) {p : Ptr} (hp : 0 < s.held p) :
    ∃ c, s.heap p = some c := by
  by_cases hpo : p ∈ a.owned.map Link.ptr
  · obtain ⟨l, hl, rfl⟩ := List.mem_map.mp hpo
    obtain ⟨c, hc, -⟩ := (h.owns l hl).conn
    exact ⟨c, hc⟩
  · rcases (h.foreign p hpo).heap with ⟨-, hzero⟩ | ⟨c, hc, -⟩
    · omega
    · exact ⟨c, hc⟩

/-- The cases of a reference call. -/
theorem userRef_cases (h : Tracks s a) (p : Ptr) (up : Bool) :
    userRef p up s = .ok ((), s) ∨
    (∃ c, ∃ d : ℤ, s.heap p = some c ∧ 0 ≤ s.held p + d ∧
      (p ∈ a.owned.map Link.ptr ∨ 0 < s.held p + d) ∧ userRef p up s = .ok ((), s.addRef p c d)) ∨
    ∃ c, s.heap p = some c ∧ p ∉ a.owned.map Link.ptr ∧
      userRef p up s = .ok ((), s.dropRef p c) := by
  cases up with
  | true =>
    cases hc : s.heap p with
    | none =>
      refine Or.inl ?_
      simp [userRef, hc, run_bind, run_get, run_pure, Except.bind]
    | some c =>
      have href := h.refcount hc
      refine Or.inr (Or.inl ⟨c, 1, rfl, by omega, Or.inr (by omega), ?_⟩)
      set s₁ : State := { s with held := Function.update s.held p (s.held p + 1) } with hs₁
      have hc₁ : s₁.heap p = some c := hc
      have hrun : userRef p true s = uvxServerConnRef p 1 s₁ := by
        simp [userRef, hs₁, hc, run_bind, run_get, run_set, Except.bind]
      rw [hrun, uvxServerConnRef_eq hc₁ (Or.inl rfl), if_neg (by omega)]
      rfl
  | false =>
    rcases Nat.eq_zero_or_pos (s.held p) with hz | hpos
    · refine Or.inl ?_
      simp [userRef, hz, run_bind, run_get, run_pure, Except.bind]
    · obtain ⟨c, hc⟩ := h.exists_conn hpos
      set s₁ : State := { s with held := Function.update s.held p (s.held p - 1) } with hs₁
      have hc₁ : s₁.heap p = some c := hc
      have hrun : userRef p false s = uvxServerConnRef p (-1) s₁ := by
        simp [userRef, hs₁, hpos, run_bind, run_get, run_set, Except.bind]
      rw [hrun, uvxServerConnRef_eq hc₁ (Or.inr rfl)]
      have href := h.refcount hc
      by_cases hlast : c.refcount + -1 = 0
      · refine Or.inr (Or.inr ⟨c, hc, ?_, ?_⟩)
        · rcases href with ⟨-, href⟩ | ⟨hp, -⟩
          · omega
          · exact hp
        · have hone : s.held p - 1 = 0 := by omega
          rw [if_pos hlast, State.dropRef, hs₁, hone]
      · refine Or.inr (Or.inl ⟨c, -1, hc, by omega, ?_, ?_⟩)
        · rcases href with ⟨hp, -⟩ | ⟨-, href, -⟩
          · exact Or.inl hp
          · exact Or.inr (by omega)
        · have hsub : (s.held p + -1 : ℤ).toNat = s.held p - 1 := by omega
          rw [if_neg hlast, State.addRef, hsub]

/-- **Reference calls** find their connection, and keep the memory in order. -/
theorem userRef_spec (h : Tracks s a) (p : Ptr) (up : Bool) (E : Fault → Prop) :
    Wp (userRef p up) E (fun _ s' => Tracks s' a ∧ SameBut s s') s := by
  rcases userRef_cases h p up with hrun | ⟨c, d, hc, hd, hpos, hrun⟩ | ⟨c, hc, hp, hrun⟩
  · exact Wp.of_ok hrun ⟨h, .refl s⟩
  · exact Wp.of_ok hrun ⟨h.addRef hc hd hpos, rfl, rfl, rfl⟩
  · exact Wp.of_ok hrun ⟨h.dropRef hc hp, rfl, rfl, rfl⟩

/-- A connection of the server is found whenever the loop thread looks at it. -/
theorem touch_spec (user : User) (h : Tracks s a) (hl : l ∈ a.owned) (E : Fault → Prop) :
    Wp (touch user l.ptr) E (fun c s' => Tracks s' a ∧ SameBut s s' ∧ s'.heap l.ptr = some c ∧
      c.lastCommTime = l.time ∧ c.serial = l.serial ∧ c.refcount = s'.held l.ptr + 1) s := by
  unfold touch
  refine Wp.bind (Wp.modify (Wp.bind (Wp.get ?_)))
  set s₁ : State := { s with turn := s.turn + 1 } with hs₁
  have h₁ : Tracks s₁ a := h.frame h.now_eq rfl rfl rfl rfl rfl
  refine Wp.seq (Wp.forM (I := fun s' => Tracks s' a ∧ SameBut s s') (fun call _ s' hs' => ?_)
    ⟨h₁, rfl, rfl, rfl⟩) fun _ s' ⟨h', hsame⟩ => ?_
  · exact (userRef_spec hs'.1 call.1 call.2 E).mono fun _ s'' ⟨h'', hsame⟩ =>
      ⟨h'', hs'.2.trans hsame⟩
  · obtain ⟨c, hc, htime, hserial, href⟩ := (h'.owns l hl).conn
    refine Wp.bind (Wp.get ?_)
    rw [hc]
    exact Wp.pure ⟨h', hsame, hc, htime, hserial, href⟩

end Uvx.Server
