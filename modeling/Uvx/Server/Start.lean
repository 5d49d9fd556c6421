import Uvx.Server.Runs

/-!
# Starting the server

`uvx_server_start` starts the heartbeat timer, then binds, then listens, and looks at the last status
only. It is all or nothing (`AllOrNothing`) exactly when a listener that is there was bound as well, and
one that is not there leaves no timer behind (`allOrNothing_iff`).
-/

namespace Uvx.Server

variable {s s' s₀ : State} {config : Config} {user : User} {es : List Event} {uv : Libuv}
  {now : UInt64} {ip : List UInt8} {port : ℤ} {ret : ℤ}

/-! ## The statuses -/

/-- What `uv_tcp_bind` returns to `uvx_server_start`. -/
def bindStatus (uv : Libuv) (ip : List UInt8) (port : ℤ) : ℤ :=
  uv.tcpBind (uv.parse ip port).2

/-- The address at which the server is then bound. -/
def boundAddr (uv : Libuv) (ip : List UInt8) (port : ℤ) : Option Net.SockAddr :=
  if 0 ≤ bindStatus uv ip port then some (uv.parse ip port).2 else none

/-- What `uv_listen` returns. -/
def listenStatus (uv : Libuv) (ip : List UInt8) (port : ℤ) (config : Config) : ℤ :=
  uv.listen (boundAddr uv ip port) config.connBacklog

/-- The server that `uvx_server_start` leaves behind, whatever it returns. -/
structure Fresh (uv : Libuv) (ip : List UInt8) (port : ℤ) (config : Config) (s : State) : Prop where
  bound : s.bound = boundAddr uv ip port
  listening : s.listening = decide (0 ≤ listenStatus uv ip port config)
  uvCalls : s.uvCalls = [.tcpBind (uv.parse ip port).2, .listen]
  timer : s.timer = decide (0 < config.heartbeatInterval)
  handle : ∀ p, s.handle p = .unused
  heap : ∀ p, s.heap p = none
  held : ∀ p, s.held p = 0

theorem start_fresh (h : uvxServerStart uv now ip port config = .ok (s₀, ret)) :
    Fresh uv ip port config s₀ ∧ ret = if 0 ≤ listenStatus uv ip port config then 1 else 0 := by
  unfold uvxServerStart at h
  cases htable : LinkHash.lhKptrTableNew config.connCount.toInt with
  | ok t =>
    rw [htable] at h
    obtain ⟨rfl, rfl⟩ := Prod.mk.inj (Except.ok.inj h)
    exact ⟨⟨rfl, rfl, rfl, rfl, fun _ => rfl, fun _ => rfl, fun _ => rfl⟩, rfl⟩
  | error fault =>
    rw [htable] at h
    exact absurd h (by simp [bind, Except.bind, Except.mapError])

/-! ## A server that has not started -/

/-- Nothing is going on: no listener, no timer, no connection. -/
structure Idle (s : State) : Prop where
  listening : s.listening = false
  timer : s.timer = false
  handle : ∀ p, s.handle p = .unused
  heap : ∀ p, s.heap p = none
  held : ∀ p, s.held p = 0

/-- Nothing but user code and time does anything to it, and no timer runs. -/
theorem Idle.step (h : Idle s) {e : Event} (hstep : Step config user s e s') :
    Idle s' ∧ e ≠ .heartbeat := by
  obtain ⟨he, hrun⟩ := hstep
  cases e with
  | connection status conn accepted => exact absurd (h.listening.symm.trans he.1) (by simp)
  | read conn nread => exact absurd ((h.handle conn).symm.trans he) (by simp)
  | closed conn => exact absurd ((h.handle conn).symm.trans he) (by simp)
  | heartbeat => exact absurd (h.timer.symm.trans he) (by simp)
  | advance now =>
    obtain ⟨-, rfl⟩ := Prod.mk.inj (Except.ok.inj hrun)
    exact ⟨⟨h.listening, h.timer, h.handle, h.heap, h.held⟩, by simp⟩
  | user call =>
    refine ⟨?_, by simp⟩
    cases call with
    | connRef conn up =>
      -- there is no connection to refer to
      have hnone : userRef conn up s = .ok ((), s) := by
        cases up with
        | true => simp [userRef, h.heap conn, run_bind, run_get, run_pure, Except.bind]
        | false => simp [userRef, h.held conn, run_bind, run_get, run_pure, Except.bind]
      obtain ⟨-, rfl⟩ := Prod.mk.inj (Except.ok.inj (hnone.symm.trans hrun))
      exact h
    | shutdown =>
      cases hconns : s.conns with
      | none =>
        have hrun' := (userCall_shutdown_eq_of_none hconns).symm.trans hrun
        obtain ⟨-, rfl⟩ := Prod.mk.inj (Except.ok.inj hrun')
        exact h
      | some t =>
        have hrun' := (userCall_shutdown_eq_of_some hconns).symm.trans hrun
        obtain ⟨-, rfl⟩ := Prod.mk.inj (Except.ok.inj hrun')
        exact ⟨rfl, rfl, h.handle, h.heap, h.held⟩

theorem Idle.exec (h : Idle s₀) (hrun : Exec (Step config user) s₀ es s) :
    Idle s ∧ .heartbeat ∉ es := by
  refine hrun.invariant_actions (I := fun es s => Idle s ∧ .heartbeat ∉ es)
    ⟨h, List.not_mem_nil⟩ ?_
  intro es s e s' ih hstep
  obtain ⟨h', hne⟩ := ih.1.step hstep
  refine ⟨h', ?_⟩
  rw [List.mem_append, List.mem_singleton, not_or]
  exact ⟨ih.2, hne.symm⟩

/-! ## All or nothing -/

/-- What `uvx_server_start` promises for an `ip` that parses: it returns 1 only for a server that
listens where it should, and 0 only for one whose timer never runs. -/
structure AllOrNothing (uv : Libuv) (ip : List UInt8) (port : ℤ) (config : Config) (s₀ : State)
    (ret : ℤ) : Prop where
  started : ret = 1 → s₀.bound = some (uv.parse ip port).2 ∧ s₀.listening = true
  stopped : ret = 0 → s₀.timer = false ∧
    ∀ user es s, Exec (Step config user) s₀ es s → .heartbeat ∉ es

/-- A server that does not listen and has no timer is idle. -/
theorem Fresh.idle (h : Fresh uv ip port config s₀) (hlisten : listenStatus uv ip port config < 0)
    (hinterval : config.heartbeatInterval ≤ 0) : Idle s₀ where
  listening := by rw [h.listening, decide_eq_false (by omega)]
  timer := by rw [h.timer, decide_eq_false (by omega)]
  handle := h.handle
  heap := h.heap
  held := h.held

/-- **When starting is all or nothing**: a listener that is there has been bound before, and the
timer has been started only for a listener that is there. -/
theorem allOrNothing_iff (h : uvxServerStart uv now ip port config = .ok (s₀, ret)) :
    AllOrNothing uv ip port config s₀ ret ↔
      (0 ≤ listenStatus uv ip port config → 0 ≤ bindStatus uv ip port) ∧
        (listenStatus uv ip port config < 0 → config.heartbeatInterval ≤ 0) := by
  obtain ⟨hfresh, hret⟩ := start_fresh h
  rcases Int.lt_or_le (listenStatus uv ip port config) 0 with hneg | hpos
  · -- it returns 0, and only the timer is left to look at
    rw [if_neg (by omega)] at hret
    constructor
    · intro hall
      obtain ⟨htimer, -⟩ := hall.stopped hret
      rw [hfresh.timer] at htimer
      exact ⟨fun hpos => by omega, fun _ => Int.not_lt.mp (of_decide_eq_false htimer)⟩
    · rintro ⟨-, hinterval⟩
      have hidle := hfresh.idle hneg (hinterval hneg)
      exact ⟨fun hone => by omega,
        fun _ => ⟨hidle.timer, fun user es s hrun => (hidle.exec hrun).2⟩⟩
  · -- it returns 1, and only the address is left to look at
    rw [if_pos hpos] at hret
    constructor
    · intro hall
      obtain ⟨hbound, -⟩ := hall.started hret
      rw [hfresh.bound, boundAddr] at hbound
      refine ⟨fun _ => ?_, fun hneg => by omega⟩
      by_contra hbind
      rw [if_neg hbind] at hbound
      exact absurd hbound (by simp)
    · rintro ⟨hbind, -⟩
      refine ⟨fun _ => ⟨?_, ?_⟩, fun hzero => by omega⟩
      · rw [hfresh.bound, boundAddr, if_pos (hbind hpos)]
      · rw [hfresh.listening, decide_eq_true hpos]

/-- A libuv in which `uv_tcp_bind` and `uv_listen` return the given statuses. -/
def statusLibuv (bind listen : ℤ) : Libuv where
  toAddrParser := Net.dottedParser
  tcpBind _ := bind
  listen _ _ := listen

/-- A server that is bound and listens. -/
theorem allOrNothing_iff_started :
    ∃ s₀, uvxServerStart (statusLibuv 0 0) 0 Net.loopback 80 smallConfig = .ok (s₀, 1) ∧
      (AllOrNothing (statusLibuv 0 0) Net.loopback 80 smallConfig s₀ 1 ↔
        (0 ≤ listenStatus (statusLibuv 0 0) Net.loopback 80 smallConfig →
            0 ≤ bindStatus (statusLibuv 0 0) Net.loopback 80) ∧
          (listenStatus (statusLibuv 0 0) Net.loopback 80 smallConfig < 0 →
            smallConfig.heartbeatInterval ≤ 0)) :=
  ⟨_, rfl, allOrNothing_iff rfl⟩

/-- The string `192.0.2.1`, an address that no interface has. -/
def elsewhere : List UInt8 := [49, 57, 50, 46, 48, 46, 50, 46, 49]

/-- The address is not available, and the server listens on another one; or it does not listen, and
its timer runs and calls `on_heartbeat`. -/
theorem not_allOrNothing :
    0 ≤ (Net.dottedParser.parse elsewhere 80).1 ∧ 0 ≤ (Net.dottedParser.parse Net.loopback 80).1 ∧
    (∃ s₀, uvxServerStart (statusLibuv (-99) 0) 0 elsewhere 80 smallConfig = .ok (s₀, 1) ∧
      s₀.bound = none ∧ ¬ AllOrNothing (statusLibuv (-99) 0) elsewhere 80 smallConfig s₀ 1) ∧
    ∃ s₀ s, uvxServerStart (statusLibuv 0 (-98)) 0 Net.loopback 80 smallConfig = .ok (s₀, 0) ∧
      Exec (Step smallConfig quietUser) s₀ [.heartbeat] s ∧ s.turn = 1 ∧
      ¬ AllOrNothing (statusLibuv 0 (-98)) Net.loopback 80 smallConfig s₀ 0 := by
  refine ⟨by decide, by decide, ⟨_, rfl, rfl, fun h => ?_⟩, ?_⟩
  · exact absurd (((allOrNothing_iff rfl).mp h).1 (by decide)) (by decide)
  · refine ⟨_, _, rfl, .snoc .nil ⟨rfl, rfl⟩, rfl, fun h => ?_⟩
    exact absurd (((allOrNothing_iff rfl).mp h).2 (by decide)) (by decide)

end Uvx.Server
