import Uvx.Server.Connections

/-!
# Accepting connections, whatever their estimate

`conn_count` is the size of the table, and 0 is let through. Then the first connection is looked up in
a table without cells, and the remainder is undefined. Every other table serves every run: a vacant
cell is left whenever a connection is inserted, or the table is doubled (`handler_ends_iff`).
-/

namespace Uvx.Server

open LinkHash

variable {t : LhTable} {s s' s₀ : State} {a : Spec} {config : Config} {user : User} {es : List Event}
  {uv : Libuv} {now : UInt64} {ip : List UInt8} {port : ℤ} {ret : ℤ}

/-- A connection comes in without an error. -/
def Accepts (e : Event) : Prop :=
  ∃ conn accepted, e = .connection 0 conn accepted

/-- No remainder by zero has been taken, and no probing goes on for ever. -/
def Ends (r : Except Fault (Unit × State)) : Prop :=
  r ≠ .error (.table .divByZero) ∧ r ≠ .error (.table .loops)

theorem ends_of_ok {r : Except Fault (Unit × State)} {s' : State} (h : r = .ok ((), s')) : Ends r := by
  rw [h]
  exact ⟨by simp, by simp⟩

/-! ## A table without cells -/

theorem tableLookup_divByZero (hs : s.conns = some t) (hsize : t.size = 0) (conn : Ptr) :
    tableLookup conn s = .error (.table .divByZero) := by
  have hlookup : lhTableLookupEntry t conn = .error .divByZero := by
    unfold lhTableLookupEntry
    rw [homeSlot_of_zero hsize]
    rfl
  unfold tableLookup
  rw [run_bind, conns_eq hs, Except.bind, hlookup]
  rfl

/-- The first connection is looked up, before it is inserted. -/
theorem handle_divByZero (hs : s.conns = some t) (hsize : t.size = 0) {e : Event} (he : Accepts e) :
    handle config user e s = .error (.table .divByZero) := by
  obtain ⟨conn, accepted, rfl⟩ := he
  show Server.uvxOnConnection config user 0 conn accepted s = _
  unfold Server.uvxOnConnection
  rw [if_pos rfl]
  have hfault := tableLookup_divByZero (s := { s with
    heap := Function.update s.heap conn (some ⟨0, 1, s.accepted⟩), accepted := s.accepted + 1 })
    hs hsize conn
  simp only [run_bind, run_modify, Except.bind, check_of config.connExtraSize_nonneg, hfault]

/-- Without connections, whatever is not an accept leaves the table alone. -/
theorem Sim.still (h : Sim t s a) (hloose : a.loose = none) (hu : ¬ user.Shuts)
    (hlinks : a.links = []) {e : Event} (he : Enabled s e) (hne : e ≠ .user .shutdown)
    (hacc : ¬ Accepts e) (E : Fault → Prop) :
    Wp (handle config user e) E (fun _ s' => Sim t s' (a.step config e)) s := by
  have hclear := clearShutdown_of_not_shuts config hu
  cases e with
  | connection status conn accepted =>
    have hst : status ≠ 0 := fun hst => hacc ⟨conn, accepted, by rw [hst]⟩
    rw [Spec.step, if_neg hst]
    show Wp (Server.uvxOnConnection config user status conn accepted) _ _ s
    unfold Server.uvxOnConnection
    rw [if_neg hst]
    exact Wp.pure h
  | read conn nread =>
    obtain ⟨_, l, _, -, hl, -⟩ := h.exists_put hloose he (by simp)
    exact absurd (hlinks ▸ hl) List.not_mem_nil
  | closed conn =>
    obtain ⟨_, l, _, -, hl, -⟩ := h.exists_put hloose he (by simp)
    exact absurd (hlinks ▸ hl) List.not_mem_nil
  | heartbeat =>
    exact (h.uvOnHeartbeatTimer hloose hclear).mono fun _ _ h' => h'.resolve_right fun hd => hu hd.2
  | advance now =>
    exact Wp.modify ⟨h.tracks.frame rfl rfl rfl rfl rfl rfl, h.conns, h.holds⟩
  | user call =>
    exact h.userCall fun hcall => hne (by rw [hcall])

/-- The links of a server whose table has no cell. -/
theorem Sim.links_of_size_zero (h : Sim t s a) (hsize : t.size = 0) : a.links = [] := by
  have hlen := h.holds.length_le
  rw [List.length_map, hsize] at hlen
  exact List.length_eq_zero_iff.mp (Nat.le_zero.mp hlen)

/-- A table that was made without cells stays so. -/
theorem exec_size_zero (hstart : uvxServerStart uv now ip port config = .ok (s₀, ret))
    (hcount : config.connCount = 0) (hns : NoShutdown user es)
    (hrun : Exec (Step config user) s₀ es s) :
    ∃ t, Sim t s (.run config now es) ∧ t.size = 0 := by
  obtain ⟨t₀, h₀, hsize₀⟩ := start_sim hstart
  rw [hcount] at hsize₀
  refine hrun.invariant_of_forall (I := fun es s => ∃ t, Sim t s (.run config now es) ∧ t.size = 0)
    hns.forall_ne ⟨t₀, h₀, Int.natCast_eq_zero.mp hsize₀⟩ ?_
  rintro es s e s' ⟨t, h, hsize⟩ he hstep
  have hacc : ¬ Accepts e := fun hacc => by
    have hfault := (handle_divByZero h.conns hsize hacc).symm.trans hstep.2
    exact absurd hfault (by simp)
  have hstep' : Sim t s' ((Spec.run config now es).step config e) :=
    (h.still (Spec.loose_run ..) hns.calls (h.links_of_size_zero hsize) hstep.1 he hacc
      fun _ => True).ok hstep.2
  exact ⟨t, Spec.run_append .. ▸ hstep', hsize⟩

/-! ## Every table -/

/-- Negative estimates have been refused by the allocator. -/
theorem connCount_pos (hstart : uvxServerStart uv now ip port config = .ok (s₀, ret))
    (hne : config.connCount ≠ 0) : 1 ≤ config.connCount.toInt := by
  obtain ⟨t, -, hsize⟩ := start_sim hstart
  have hne' : config.connCount.toInt ≠ 0 := fun hz => hne (Int32.toInt_inj.mp hz)
  omega

/-- **When accepting can go wrong.** Along every run, as long as the table can be doubled, the next
handler ends, without a remainder by zero and without probing for ever, unless it accepts a
connection into a table that was configured without cells. -/
theorem handler_ends_iff (hstart : uvxServerStart uv now ip port config = .ok (s₀, ret))
    (hns : NoShutdown user es) (hrun : Exec (Step config user) s₀ es s)
    (hsize : ∀ t, s.conns = some t → t.size < 2 ^ 30) {e : Event} (he : Enabled s e)
    (hne : e ≠ .user .shutdown) :
    (Ends (handle config user e s) ↔ ¬ (config.connCount = 0 ∧ Accepts e)) ∧
      (¬ (config.connCount = 0 ∧ Accepts e) → ∃ s', handle config user e s = .ok ((), s')) := by
  by_cases hzero : config.connCount = 0
  · obtain ⟨t, h, htsize⟩ := exec_size_zero hstart hzero hns hrun
    by_cases hacc : Accepts e
    · refine ⟨iff_of_false (fun hends => ?_) (not_not_intro ⟨hzero, hacc⟩),
        fun hc => absurd ⟨hzero, hacc⟩ hc⟩
      exact hends.1 (handle_divByZero h.conns htsize hacc)
    · obtain ⟨_, s', hs', -⟩ := (h.still (Spec.loose_run ..) hns.calls (h.links_of_size_zero htsize)
        he hne hacc fun _ => False).exists_ok fun _ => not_false
      exact ⟨iff_of_true (ends_of_ok hs') fun hc => hacc hc.2, fun _ => ⟨s', hs'⟩⟩
  · obtain ⟨t, h, hle⟩ := exec_sim hstart hns hrun
    have hpos := connCount_pos hstart hzero
    obtain ⟨s', hs'⟩ := h.exists_ok (Spec.loose_run ..) hns.calls (by omega) (hsize t h.conns) he hne
    exact ⟨iff_of_true (ends_of_ok hs') fun hc => hzero hc.1, fun _ => ⟨s', hs'⟩⟩

/-- A server with an estimate of `n` connections. -/
def sized (n : Int32) : Config := { smallConfig with connCount := n }

/-- Data from the third connection in a table that started with one cell. -/
theorem handler_ends_iff_oneCell :
    ∃ s s', Ends (handle (sized 1) quietUser (.read 0x3000 7) s) ∧
      handle (sized 1) quietUser (.read 0x3000 7) s = .ok ((), s') := by
  let es : List Event := [.connection 0 0x1000 0, .connection 0 0x2000 0, .connection 0 0x3000 0]
  have hrun : ∃ s, runFrom (sized 1) quietUser (fun _ _ => True) es = some s ∧
      (s.conns.map fun t => t.size) = some 4 ∧ s.handle 0x3000 = .reading := by
    decide +kernel
  obtain ⟨s, hs, hsize, hreading⟩ := hrun
  obtain ⟨s₀, ret, hstart, hexec⟩ := exec_of_runFrom hs
  have hlt : ∀ t, s.conns = some t → t.size < 2 ^ 30 := fun t ht => by
    rw [ht] at hsize
    have hfour : t.size = 4 := Option.some_inj.mp hsize
    omega
  obtain ⟨hends, hok⟩ := handler_ends_iff hstart (noShutdown_quietUser (by decide)) hexec.unguarded
    hlt (e := .read 0x3000 7) hreading (by decide)
  obtain ⟨s', hs'⟩ := hok fun hc => absurd hc.1 (by decide)
  exact ⟨s, s', hends.mpr fun hc => absurd hc.1 (by decide), hs'⟩

/-- With an estimate of 0 the server starts, and is stopped by its first connection. -/
theorem not_ends_empty :
    ∃ s₀, uvxServerStart plainLibuv 0 [] 0 (sized 0) = .ok (s₀, 1) ∧
      Enabled s₀ (.connection 0 0x1000 0) ∧
      handle (sized 0) quietUser (.connection 0 0x1000 0) s₀ = .error (.table .divByZero) ∧
      ¬ Ends (handle (sized 0) quietUser (.connection 0 0x1000 0) s₀) := by
  have hfault : ∀ s₀ : State, (∃ t, s₀.conns = some t ∧ t.size = 0) →
      handle (sized 0) quietUser (.connection 0 0x1000 0) s₀ = .error (.table .divByZero) :=
    fun s₀ ⟨t, ht, hsize⟩ => handle_divByZero ht hsize ⟨0x1000, 0, rfl⟩
  refine ⟨_, rfl, ⟨rfl, rfl, by decide, by decide⟩, hfault _ ⟨_, rfl, rfl⟩, fun hends => ?_⟩
  exact hends.1 (hfault _ ⟨_, rfl, rfl⟩)

end Uvx.Server
