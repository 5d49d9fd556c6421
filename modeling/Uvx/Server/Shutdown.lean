import Uvx.Server.Runs

/-!
# Shutting the server down

`uvx_server_shutdown` frees the table and leaves the connections as they are. It is clean as long as
there are none (`ClearEvent`, `ClearShutdown`): then the table is not used after that, and no
connection stays open (`shutdown_clean`). With an open connection, the next data from it is looked up
in the table that has been freed (`not_shutdown_clean`).
-/

namespace Uvx.Server

open LinkHash

variable {s s' : State} {a : Spec} {config : Config} {user : User} {es : List Event}
  {uv : Libuv} {now : UInt64} {ip : List UInt8} {port : ℤ} {ret : ℤ}

/-- The server runs with its table, or has been shut down without connections. -/
def Clean (s : State) : Prop :=
  (∃ t a, Sim t s a ∧ a.loose = none) ∨ ∃ a, Down s a

/-- A clean server stays so, and uses its table only as long as that has not been freed. -/
theorem Clean.handle (h : Clean s) (hu : ClearShutdown config user) {e : Event} (he : Enabled s e)
    (hclear : ClearEvent s e) :
    Wp (Server.handle config user e) (fun fault => fault ≠ .tableFreed) (fun _ s' => Clean s') s := by
  rcases h with ⟨t, a, h, hloose⟩ | ⟨a, hdown⟩
  · have hspec := h.handle_spec hloose hu he hclear
    cases hrun : Server.handle config user e s with
    | ok r =>
      refine Wp.of_ok hrun ?_
      rcases hspec.ok hrun with ⟨t', -, h'⟩ | ⟨hd, -⟩
      · exact Or.inl ⟨t', _, h', (Spec.loose_step ..).trans hloose⟩
      · exact Or.inr ⟨a, hd⟩
    | error fault =>
      refine Wp.of_error hrun ?_
      rcases hspec.error hrun with ⟨-, rfl⟩ | ⟨-, rfl⟩ <;> simp
  · exact (hdown.step he _).mono fun _ _ hd => Or.inr hd

/-- A clean server that has been shut down has no open connection. -/
theorem Clean.handle_of_none (h : Clean s) (hnone : s.conns = none) (p : Ptr) :
    s.handle p = .unused := by
  rcases h with ⟨t, a, h, -⟩ | ⟨a, hdown⟩
  · exact absurd (hnone.symm.trans h.conns) (by simp)
  · exact (hdown.tracks.foreign p (by rw [hdown.owned]; exact List.not_mem_nil)).handle_eq

theorem exec_clean {s₀ : State} (hstart : uvxServerStart uv now ip port config = .ok (s₀, ret))
    (hu : ClearShutdown config user)
    (hrun : Exec (Guarded (Step config user) ClearEvent) s₀ es s) : Clean s := by
  apply hrun.invariant
  · obtain ⟨t, h, -⟩ := start_sim hstart
    exact Or.inl ⟨t, _, h, rfl⟩
  · intro s e s' h hstep
    exact (h.handle hu hstep.1.1 hstep.2).ok hstep.1.2

/-- **A clean shutdown.** If the server is shut down only while it has no connection, and not from
`on_heartbeat` with a sweep to follow, no handler uses the table after it has been freed, and after
the shutdown every connection is closed or being closed. -/
theorem shutdown_clean {s₀ : State}
    (hstart : uvxServerStart uv now ip port config = .ok (s₀, ret)) (hu : ClearShutdown config user)
    (hrun : Exec (Guarded (Step config user) ClearEvent) s₀ es s) :
    (∀ e, Enabled s e → ClearEvent s e → handle config user e s ≠ .error .tableFreed) ∧
      (s.conns = none → ∀ p, s.handle p = .unused ∨ s.handle p = .closing) := by
  have h := exec_clean hstart hu hrun
  refine ⟨?_, fun hnone p => Or.inl (h.handle_of_none hnone p)⟩
  intro e he hclear hrun'
  exact (h.handle hu he hclear).error hrun' rfl

/-- The only connection has been closed before the shutdown. -/
theorem shutdown_clean_closed :
    ∃ s : State, s.conns = none ∧ s.accepted = 1 ∧
      ∀ p, s.handle p = .unused ∨ s.handle p = .closing := by
  let es : List Event := [.connection 0 0x1000 (-1), .closed 0x1000, .user .shutdown]
  have hrun : ∃ s, runFrom smallConfig quietUser ClearEvent es = some s ∧ s.conns.isNone ∧
      s.accepted = 1 := by decide +kernel
  obtain ⟨s, hs, hnone, haccepted⟩ := hrun
  obtain ⟨s₀, ret, hstart, hexec⟩ := exec_of_runFrom hs
  have hu : ClearShutdown smallConfig quietUser := fun _ _ _ _ hcall =>
    absurd hcall List.not_mem_nil
  have hnone := Option.isNone_iff_eq_none.mp hnone
  exact ⟨s, hnone, haccepted, (shutdown_clean hstart hu hexec).2 hnone⟩

/-- A shutdown with an open connection: its handle stays open, and when data comes the table is used
after it has been freed. -/
theorem not_shutdown_clean :
    ∃ s₀ ret es s, uvxServerStart plainLibuv 0 [] 0 smallConfig = .ok (s₀, ret) ∧
      Exec (Step smallConfig quietUser) s₀ es s ∧ s.conns = none ∧ s.handle 0x1000 = .reading ∧
      Enabled s (.read 0x1000 7) ∧
      handle smallConfig quietUser (.read 0x1000 7) s = .error .tableFreed := by
  let es : List Event := [.connection 0 0x1000 0, .user .shutdown]
  have hrun : ∃ s, runFrom smallConfig quietUser (fun _ _ => True) es = some s ∧ s.conns.isNone ∧
      s.handle 0x1000 = .reading ∧
      faultOf (handle smallConfig quietUser (.read 0x1000 7) s) = some .tableFreed := by
    decide +kernel
  obtain ⟨s, hs, hnone, hhandle, hfault⟩ := hrun
  obtain ⟨s₀, ret, hstart, hexec⟩ := exec_of_runFrom hs
  exact ⟨s₀, ret, es, s, hstart, hexec.unguarded, Option.isNone_iff_eq_none.mp hnone, hhandle,
    hhandle, faultOf_eq_some.mp hfault⟩

end Uvx.Server
