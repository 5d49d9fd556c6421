import Uvx.Client.Defs
import Uvx.Common.Exec

/-!
# The client as a state machine

Between and within its handlers a client is in one of a few modes, which determine its flags, what
libuv knows of its handle and which callbacks may be running (`Rep`). `Next` lists what a step can
do, and every step of the client is one of these (`Rep.next`).
-/

namespace Uvx.Client

open Net

/-- Where a client is in its current attempt. `up` tells whether the connection was established. -/
inductive Mode
  | connecting
  /-- `uv_tcp_connect` has failed at once, and no callback will follow. -/
  | lost
  /-- The connect callback has reported a failure, and `uv_close` comes next. -/
  | failing
  | opened
  | closing (up : Bool)
  /-- The close callback is running. -/
  | ending (up : Bool)
  | closed
deriving DecidableEq

namespace Mode

def phase : Mode → Phase
  | connecting | lost | failing => .initialised
  | opened => .connected
  | closing _ => .closing
  | ending _ | closed => .closed

/-- `uvserver` is not null. -/
def uvserver : Mode → Bool
  | opened => true
  | closing up | ending up => up
  | _ => false

/-- The callbacks that may be running. -/
def Stack : Mode → List Callback → Prop
  | failing, stack => stack = [.onConnFail] ∨ stack = [.onConnClosing]
  | opened, stack | closing true, stack => ∀ cb ∈ stack, cb ≠ .onConnFail ∧ cb ≠ .onConnClose
  | ending true, stack => ∃ k, stack = .replicate k .onConnClosing ++ [.onConnClose]
  | ending false, stack => stack = [.onConnClose]
  | _, stack => stack = []

/-- The mode after `uv_close`. -/
def afterClose : Mode → Mode
  | failing => closing false
  | opened => closing true
  | m => m

end Mode

/-- The state of a client in the mode `m`. -/
structure Rep (m : Mode) (s : State) : Prop where
  phase_eq : s.phase = m.phase
  uvserver_eq : s.uvserver = m.uvserver
  connecting_eq : s.connecting = decide (m = .connecting)
  connectionClosed_eq : s.connectionClosed = decide (m = .closed)
  reading : s.reading = true → m = .opened
  stack : m.Stack s.stack

/-- The events that close an established connection. -/
def Closes (e : Event) : Prop :=
  e = .user .disconnect ∨ e = .user .shutdown ∨ ∃ nread < 0, e = .read nread

/-- What a step can do in each mode. -/
inductive Next (s : State) : Mode → Event → Mode → State → Prop
  /-- Nothing happens, but that the timer may be stopped. -/
  | quiet {m : Mode} {e : Event} (timer : Bool) : Next s m e m { s with timer := timer }
  | sent {m : Mode} (status : ℤ) (h : m.uvserver = true) :
      Next s m (.user (.send status)) m (s.record .uvWrite)
  /-- The connection is to be closed, which is announced first. -/
  | announced {m : Mode} {e : Event} (timer reading : Bool) (h : m.uvserver = true)
      (he : Closes e) :
      Next s m e m ({ s with timer := timer, reading := reading }.call .onConnClosing)
  | accepted (h : s.stack = []) : Next s .connecting (.connect 0) .opened
      ({ s with connecting := false, phase := .connected, uvserver := true }.call .onConnOk)
  | refused {status : ℤ} (h : status ≠ 0) : Next s .connecting (.connect status) .failing
      ({ s with connecting := false, uvserver := false }.call .onConnFail)
  | received {nread : ℤ} (h : 0 < nread) (hs : s.stack = []) :
      Next s .opened (.read nread) .opened (s.call .onRecv)
  | beat {m : Mode} (ret : ℤ) (h : m.uvserver = true) (hs : s.stack = []) :
      Next s m (.heartbeat ret) m
        ({ s with heartbeatIndex := s.heartbeatIndex + 1 }.call (.onHeartbeat s.heartbeatIndex))
  | reconnected (ret : ℤ) : Next s .closed (.heartbeat ret)
      (if 0 ≤ ret then .connecting else .lost) (uvxClientReconnect ret s).1
  | closed (up : Bool) : Next s (.closing up) .closed (.ending up)
      ({ s with phase := .closed }.call .onConnClose)
  /-- A callback returns after which the client does nothing but start to read. -/
  | returned {m : Mode} {cb : Callback} {stack : List Callback} (reading : Bool)
      (hs : s.stack = cb :: stack) (h : cb = .onConnOk ∨ cb = .onRecv ∨ ∃ i, cb = .onHeartbeat i) :
      Next s m .returned m { s with stack := stack, reading := reading }
  | failed (hs : s.stack = [.onConnFail]) :
      Next s .failing .returned .failing ({ s with stack := [] }.call .onConnClosing)
  | disconnected {m : Mode} {stack : List Callback} (hs : s.stack = .onConnClosing :: stack) :
      Next s m .returned m.afterClose (uvClose { s with stack := stack })
  | ended (up : Bool) (hs : s.stack = [.onConnClose]) : Next s (.ending up) .returned .closed
      { s with stack := [], uvserver := false, connectionClosed := true }

variable {m m' : Mode} {s s' : State} {e : Event}

theorem Rep.congr (h : Rep m s) (hphase : s'.phase = s.phase) (huv : s'.uvserver = s.uvserver)
    (hconn : s'.connecting = s.connecting) (hclosed : s'.connectionClosed = s.connectionClosed)
    (hreading : s'.reading = true → m = .opened) (hstack : m.Stack s'.stack) : Rep m s' :=
  ⟨hphase.trans h.phase_eq, huv.trans h.uvserver_eq, hconn.trans h.connecting_eq,
    hclosed.trans h.connectionClosed_eq, hreading, hstack⟩

/-- The mode in which the connect request is outstanding. -/
theorem Rep.eq_connecting (h : Rep m s) (hs : s.connecting = true) : m = .connecting := by
  rw [h.connecting_eq] at hs
  exact of_decide_eq_true hs

/-- In an established connection a callback may be called that is not about the end of it. -/
theorem Mode.Stack.cons {stack : List Callback} (h : m.Stack stack) (hm : m.uvserver = true)
    (hs : stack = []) {cb : Callback} (hcb : cb ≠ .onConnFail ∧ cb ≠ .onConnClose) :
    m.Stack [cb] := by
  subst hs
  cases m with
  | opened => simpa [Mode.Stack] using hcb
  | closing up =>
    obtain rfl : up = true := hm
    simpa [Mode.Stack] using hcb
  | ending up =>
    obtain rfl : up = true := hm
    obtain ⟨k, hk⟩ := h
    simp at hk
  | _ => exact absurd hm (by decide)

/-- `on_conn_closing` may be called once more, whatever is running. -/
theorem Mode.Stack.closing {stack : List Callback} (h : m.Stack stack) (hm : m.uvserver = true) :
    m.Stack (.onConnClosing :: stack) := by
  have hcons : (∀ cb ∈ stack, cb ≠ .onConnFail ∧ cb ≠ .onConnClose) →
      ∀ cb ∈ Callback.onConnClosing :: stack, cb ≠ .onConnFail ∧ cb ≠ .onConnClose := by
    intro h cb hcb
    rcases List.mem_cons.mp hcb with rfl | hcb
    · simp
    · exact h cb hcb
  cases m with
  | opened => exact hcons h
  | closing up =>
    obtain rfl : up = true := hm
    exact hcons h
  | ending up =>
    obtain rfl : up = true := hm
    obtain ⟨k, rfl⟩ := h
    exact ⟨k + 1, rfl⟩
  | _ => exact absurd hm (by decide)

/-! ## The steps -/

/-- The client after `uvx_client_connect`. -/
theorem Rep.start (uv : AddrParser) (ip : List UInt8) (port : ℤ) (ret : ℤ) :
    Rep (if 0 ≤ ret then .connecting else .lost) (uvxClientConnect uv ip port ret).1 := by
  unfold uvxClientConnect uvxClientReconnect uvTcpConnect
  split
  · exact ⟨rfl, rfl, rfl, rfl, fun hr => absurd hr (by simp [uvTcpInit, State.record]), rfl⟩
  · exact ⟨rfl, rfl, rfl, rfl, fun hr => absurd hr (by simp [uvTcpInit, State.record]), rfl⟩

theorem Rep.reconnect (h : Rep .closed s) (ret : ℤ) :
    Rep (if 0 ≤ ret then .connecting else .lost) (uvxClientReconnect ret s).1 := by
  unfold uvxClientReconnect uvTcpConnect
  split
  · exact ⟨rfl, rfl, rfl, rfl, fun hr => absurd hr (by simp [uvTcpInit, State.record]), h.stack⟩
  · exact ⟨rfl, rfl, h.connecting_eq, rfl,
      fun hr => absurd hr (by simp [uvTcpInit, State.record]), h.stack⟩

theorem Rep.announce (h : Rep m s) (hm : m.uvserver = true) (timer : Bool) {reading : Bool}
    (hr : reading = true → m = .opened) :
    Rep m ({ s with timer := timer, reading := reading }.call .onConnClosing) :=
  h.congr rfl rfl rfl rfl hr (h.stack.closing hm)

theorem Rep.connect {status : ℤ} (h : Rep m s) (hs : Step s (.connect status) s') :
    ∃ m', Next s m (.connect status) m' s' ∧ Rep m' s' := by
  obtain ⟨⟨hstack, hconn, -⟩, hs⟩ := hs
  -- the request is outstanding in one mode only
  obtain rfl := h.eq_connecting hconn
  have hread : s.reading = false :=
    Bool.eq_false_iff.mpr fun hr => absurd (h.reading hr) (by decide)
  obtain rfl := Option.some_inj.mp hs
  unfold uvOnConnect
  split
  · next hst =>
    subst hst
    refine ⟨.opened, .accepted hstack, ⟨rfl, rfl, rfl, h.connectionClosed_eq, fun _ => rfl, ?_⟩⟩
    show ∀ cb ∈ Callback.onConnOk :: s.stack, _
    rw [hstack]
    simp
  · next hst =>
    refine ⟨.failing, .refused hst, ⟨h.phase_eq, rfl, rfl, h.connectionClosed_eq, ?_, ?_⟩⟩
    · intro hr
      exact absurd (hread.symm.trans hr) (by simp)
    · refine Or.inl ?_
      show Callback.onConnFail :: s.stack = _
      rw [hstack]

theorem Rep.read {nread : ℤ} (h : Rep m s) (hs : Step s (.read nread) s') :
    ∃ m', Next s m (.read nread) m' s' ∧ Rep m' s' := by
  obtain ⟨⟨hstack, hread⟩, hs⟩ := hs
  obtain rfl := h.reading hread
  have huv : s.uvserver = true := h.uvserver_eq
  rw [handle, uvxOnClientRead, if_pos huv] at hs
  split at hs
  · next hn =>
    obtain rfl := Option.some_inj.mp hs
    refine ⟨.opened, .received hn hstack, h.congr rfl rfl rfl rfl (fun _ => rfl) ?_⟩
    show ∀ cb ∈ Callback.onRecv :: s.stack, _
    rw [hstack]
    simp
  · split at hs
    · next hn =>
      obtain rfl := Option.some_inj.mp hs
      exact ⟨.opened, .announced s.timer false rfl (Or.inr (Or.inr ⟨nread, hn, rfl⟩)),
        h.announce rfl s.timer (by simp)⟩
    · obtain rfl := Option.some_inj.mp hs
      exact ⟨.opened, .quiet s.timer, h⟩

theorem Rep.closed (h : Rep m s) (hs : Step s .closed s') :
    ∃ m', Next s m .closed m' s' ∧ Rep m' s' := by
  obtain ⟨⟨hstack, hphase, -⟩, hs⟩ := hs
  obtain rfl := Option.some_inj.mp hs
  rw [h.phase_eq] at hphase
  cases m with
  | ending up => exact absurd hphase (by simp [Mode.phase])
  | closing up =>
    refine ⟨.ending up, .closed up, ⟨rfl, h.uvserver_eq, h.connecting_eq, h.connectionClosed_eq,
      fun hr => absurd (h.reading hr) (by simp), ?_⟩⟩
    show (Mode.ending up).Stack (.onConnClose :: s.stack)
    rw [hstack]
    cases up with
    | false => rfl
    | true => exact ⟨0, rfl⟩
  | _ => exact absurd hphase (by decide)

theorem Rep.heartbeat {ret : ℤ} (h : Rep m s) (hs : Step s (.heartbeat ret) s') :
    ∃ m', Next s m (.heartbeat ret) m' s' ∧ Rep m' s' := by
  obtain ⟨⟨hstack, -⟩, hs⟩ := hs
  obtain rfl := Option.some_inj.mp hs
  unfold uvxOnHeartbeatTimer
  split
  · next huv =>
    have hm : m.uvserver = true := h.uvserver_eq.symm.trans huv
    refine ⟨m, .beat ret hm hstack, h.congr rfl rfl rfl rfl h.reading ?_⟩
    show m.Stack (.onHeartbeat s.heartbeatIndex :: s.stack)
    rw [hstack]
    exact h.stack.cons hm hstack (by simp)
  · split
    · next hclosed =>
      rw [h.connectionClosed_eq] at hclosed
      obtain rfl := of_decide_eq_true hclosed
      exact ⟨_, .reconnected ret, h.reconnect ret⟩
    · exact ⟨m, .quiet s.timer, h⟩

theorem Rep.disconnect (h : Rep m s) (he : Closes e) (timer : Bool) :
    ∃ m', Next s m e m' (uvxClientDisconnect { s with timer := timer }) ∧
      Rep m' (uvxClientDisconnect { s with timer := timer }) := by
  unfold uvxClientDisconnect
  split
  · next huv =>
    have hm : m.uvserver = true := h.uvserver_eq.symm.trans huv
    exact ⟨m, .announced timer s.reading hm he, h.announce hm timer h.reading⟩
  · exact ⟨m, .quiet timer, h.congr rfl rfl rfl rfl h.reading h.stack⟩

theorem Rep.user {call : UserCall} (h : Rep m s) (hs : Step s (.user call) s') :
    ∃ m', Next s m (.user call) m' s' ∧ Rep m' s' := by
  obtain ⟨-, hs⟩ := hs
  cases call with
  | send status =>
    obtain rfl := Option.some_inj.mp hs
    unfold uvxClientSend
    split
    · next huv =>
      exact ⟨m, .sent status (h.uvserver_eq.symm.trans huv),
        h.congr rfl rfl rfl rfl h.reading h.stack⟩
    · exact ⟨m, .quiet s.timer, h⟩
  | disconnect =>
    obtain rfl := Option.some_inj.mp hs
    exact h.disconnect (Or.inl rfl) s.timer
  | shutdown =>
    -- the timer is stopped, and then as above
    obtain rfl := Option.some_inj.mp hs
    exact h.disconnect (Or.inr (Or.inl rfl)) false

/-- `uv_close` after `on_conn_closing`. -/
theorem Rep.close {stack : List Callback} (h : Rep m s) (hs : s.stack = .onConnClosing :: stack)
    (hstack : m.afterClose.Stack stack) : Rep m.afterClose (uvClose { s with stack := stack }) := by
  have hm := h.stack
  rw [hs] at hm
  have hphase := h.phase_eq
  unfold uvClose
  cases m with
  | failing | opened =>
    -- the handle is open, so this is the first `uv_close`
    rw [if_pos (by simp [State.record, hphase, Mode.phase])]
    exact ⟨rfl, h.uvserver_eq, h.connecting_eq, h.connectionClosed_eq, fun hr => absurd hr (by simp),
      hstack⟩
  | closing up | ending up =>
    -- a repeated one
    rw [if_neg (by simp [State.record, hphase, Mode.phase])]
    exact h.congr rfl rfl rfl rfl h.reading hstack
  | connecting | lost | closed => exact absurd hm (by simp [Mode.Stack])

/-- A callback on an established connection returns. -/
theorem Rep.returned_up {cb : Callback} {stack : List Callback} (h : Rep m s)
    (hm : m = .opened ∨ m = .closing true) (hs : s.stack = cb :: stack) :
    ∃ m', Next s m .returned m' (resume cb { s with stack := stack }) ∧
      Rep m' (resume cb { s with stack := stack }) := by
  have hforall : ∀ cb' ∈ cb :: stack, cb' ≠ .onConnFail ∧ cb' ≠ .onConnClose := by
    have := h.stack
    rw [hs] at this
    rcases hm with rfl | rfl <;> exact this
  have hrest : ∀ cb' ∈ stack, cb' ≠ .onConnFail ∧ cb' ≠ .onConnClose := fun cb' hcb =>
    hforall cb' (List.mem_cons_of_mem _ hcb)
  have hstack : m.Stack stack := by
    rcases hm with rfl | rfl <;> exact hrest
  cases cb with
  | onConnOk =>
    -- `uv_read_start` has no effect if user code has closed the connection in the callback
    show ∃ m', Next s m .returned m' (uvReadStart _) ∧ Rep m' (uvReadStart _)
    unfold uvReadStart
    split
    · next hphase =>
      refine ⟨m, .returned true hs (Or.inl rfl), h.congr rfl rfl rfl rfl (fun _ => ?_) hstack⟩
      refine hm.resolve_right ?_
      rintro rfl
      exact absurd (h.phase_eq.symm.trans hphase) (by decide)
    · exact ⟨m, .returned s.reading hs (Or.inl rfl), h.congr rfl rfl rfl rfl h.reading hstack⟩
  | onRecv =>
    exact ⟨m, .returned s.reading hs (Or.inr (Or.inl rfl)),
      h.congr rfl rfl rfl rfl h.reading hstack⟩
  | onHeartbeat index =>
    exact ⟨m, .returned s.reading hs (Or.inr (Or.inr ⟨index, rfl⟩)),
      h.congr rfl rfl rfl rfl h.reading hstack⟩
  | onConnClosing =>
    refine ⟨m.afterClose, .disconnected hs, h.close hs ?_⟩
    rcases hm with rfl | rfl <;> exact hrest
  | onConnFail => exact absurd rfl (hforall _ (by simp)).1
  | onConnClose => exact absurd rfl (hforall _ (by simp)).2

/-- `on_conn_close` returns. -/
theorem Rep.end {up : Bool} (h : Rep (.ending up) s) (hs : s.stack = [.onConnClose]) :
    ∃ m', Next s (.ending up) .returned m' (resume .onConnClose { s with stack := [] }) ∧
      Rep m' (resume .onConnClose { s with stack := [] }) :=
  ⟨.closed, .ended up hs, ⟨h.phase_eq, rfl, h.connecting_eq, rfl,
    fun hr => absurd (h.reading hr) (by simp), rfl⟩⟩

theorem Rep.returned (h : Rep m s) (hs : Step s .returned s') :
    ∃ m', Next s m .returned m' s' ∧ Rep m' s' := by
  obtain ⟨hne, hs⟩ := hs
  obtain ⟨cb, stack, hstack⟩ := List.exists_cons_of_ne_nil hne
  rw [handle, hstack] at hs
  obtain rfl := Option.some_inj.mp hs
  have hm := h.stack
  rw [hstack] at hm
  cases m with
  | opened => exact h.returned_up (Or.inl rfl) hstack
  | closing up =>
    cases up with
    | true => exact h.returned_up (Or.inr rfl) hstack
    | false => exact absurd hm (by simp [Mode.Stack])
  | failing =>
    rcases hm with hm | hm
    · obtain ⟨rfl, rfl⟩ := List.cons_eq_cons.mp hm
      exact ⟨.failing, .failed hstack,
        ⟨h.phase_eq, h.uvserver_eq, h.connecting_eq, h.connectionClosed_eq, h.reading, Or.inr rfl⟩⟩
    · obtain ⟨rfl, rfl⟩ := List.cons_eq_cons.mp hm
      exact ⟨.closing false, .disconnected hstack, h.close hstack rfl⟩
  | ending up =>
    cases up with
    | false =>
      obtain ⟨rfl, rfl⟩ := List.cons_eq_cons.mp hm
      exact h.end hstack
    | true =>
      -- the calls of `on_conn_closing` within `on_conn_close` return first
      obtain ⟨k, hk⟩ := hm
      cases k with
      | zero =>
        obtain ⟨rfl, rfl⟩ := List.cons_eq_cons.mp hk
        exact h.end hstack
      | succ k =>
        obtain ⟨rfl, rfl⟩ := List.cons_eq_cons.mp hk
        exact ⟨.ending true, .disconnected hstack, h.close hstack ⟨k, rfl⟩⟩
  | connecting | lost | closed => exact absurd hm (by simp [Mode.Stack])

theorem attempts_uvClose (s : State) : (uvClose s).attempts = (s.record .uvClose).attempts := by
  simp only [uvClose]
  split
  · rfl
  · rfl

theorem stack_uvClose (s : State) : (uvClose s).stack = s.stack := by
  simp only [uvClose]
  split
  · rfl
  · rfl

theorem stack_uvxClientReconnect (ret : ℤ) (s : State) :
    (uvxClientReconnect ret s).1.stack = s.stack := by
  unfold uvxClientReconnect uvTcpConnect
  split
  · rfl
  · rfl

theorem attempts_uvxClientReconnect (ret : ℤ) (s : State) :
    (uvxClientReconnect ret s).1.attempts =
      [⟨.tcpConnect s.serverAddr ret, .initialised⟩] :: s.attempts := by
  unfold uvxClientReconnect uvTcpConnect
  split
  · rfl
  · rfl

/-- The attempt that `uvx_client_connect` starts. -/
theorem attempts_uvxClientConnect (uv : AddrParser) (ip : List UInt8) (port ret : ℤ) :
    (uvxClientConnect uv ip port ret).1.attempts =
      [[⟨.tcpConnect (uv.parse ip port).2 ret, .initialised⟩]] :=
  attempts_uvxClientReconnect ret _

/-- **Every step** of the client is one of its mode. -/
theorem Rep.next (h : Rep m s) (hs : Step s e s') : ∃ m', Next s m e m' s' ∧ Rep m' s' := by
  cases e with
  | connect status => exact h.connect hs
  | read nread => exact h.read hs
  | closed => exact h.closed hs
  | heartbeat ret => exact h.heartbeat hs
  | user call => exact h.user hs
  | returned => exact h.returned hs

/-- Computed runs are runs. -/
theorem exec_of_runEvents {P : State → Event → Prop} [∀ s e, Decidable (P s e)] {es : List Event}
    (h : runEvents P es s = some s') : Exec (Guarded Step P) s es s' := by
  induction es generalizing s with
  | nil => obtain rfl := Option.some_inj.mp h; exact .nil
  | cons e es ih =>
    rw [runEvents] at h
    split at h
    · next he =>
      obtain ⟨s₁, hs₁, hrest⟩ := Option.bind_eq_some_iff.mp h
      exact .cons ⟨⟨he.1, hs₁⟩, he.2⟩ (ih hrest)
    · exact absurd h (by simp)

end Uvx.Client
