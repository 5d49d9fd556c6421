import Uvx.Net.Addr

/-!
# The TCP client: `uvx_client.c`

The state of a client has its own fields and what libuv knows of its handles. User code runs in the
callbacks and between the handlers, and may call the client in both. A handler is therefore cut where
it calls user code: the callbacks that are running are on a stack, and `resume` is what the client
does when the innermost one returns. What happens is noted for each attempt to connect, from its
`uv_tcp_init` on. Printing, the interval of the timer, the data sent and received and the pointers from
the handles back to the client are left out; the interval is at least a millisecond, so that the timer
repeats. Callbacks left null are those that return at once.
-/

namespace Uvx.Client

open Net

/-- What libuv knows of `uvclient` since its last `uv_tcp_init`; before the first one it is as good
as closed. -/
inductive Phase
  | initialised
  | connected
  | closing
  | closed
deriving DecidableEq

/-- The callbacks of the client. -/
inductive Callback
  | onConnOk
  | onConnFail
  | onRecv
  | onConnClosing
  | onConnClose
  | onHeartbeat (index : UInt32)
deriving DecidableEq

/-- What happens in an attempt to connect. -/
inductive Action
  | callback (cb : Callback)
  | tcpConnect (addr : SockAddr) (ret : ℤ)
  | uvWrite
  | uvClose
deriving DecidableEq

/-- An action, and the phase of `uvclient` when it happened. -/
structure Entry where
  action : Action
  phase : Phase
deriving DecidableEq

/-- `uvx_client_t` and what surrounds it. -/
structure State where
  serverAddr : SockAddr
  /-- `uvserver` is not null. -/
  uvserver : Bool
  connectionClosed : Bool
  heartbeatIndex : UInt32
  /-- The heartbeat timer is started, and repeats. -/
  timer : Bool
  phase : Phase
  /-- The connect request is outstanding. -/
  connecting : Bool
  /-- Data is read from `uvclient`. -/
  reading : Bool
  /-- The callbacks that are running, the innermost one first. -/
  stack : List Callback
  /-- The attempts to connect, the latest one first. -/
  attempts : List (List Entry)

namespace State

/-- Note what happens in the current attempt. -/
def record (s : State) (a : Action) : State :=
  { s with attempts := s.attempts.modifyHead (· ++ [⟨a, s.phase⟩]) }

/-- User code is called. -/
def call (s : State) (cb : Callback) : State :=
  { s.record (.callback cb) with stack := cb :: s.stack }

end State

/-! ## Functions of libuv -/

def uvTcpInit (s : State) : State :=
  { s with phase := .initialised, reading := false, attempts := [] :: s.attempts }

/-- `uv_tcp_connect`, which returns `ret`. -/
def uvTcpConnect (ret : ℤ) (s : State) : State :=
  let s := s.record (.tcpConnect s.serverAddr ret)
  if 0 ≤ ret then { s with connecting := true } else s

/-- `uv_read_start`, which fails on a handle that is not connected or is closing. -/
def uvReadStart (s : State) : State :=
  if s.phase = .connected then { s with reading := true } else s

def uvReadStop (s : State) : State :=
  { s with reading := false }

/-- `uv_close` of `uvclient`. On a handle that is closing or closed it is an error, which is noted
and has no effect. -/
def uvClose (s : State) : State :=
  let s := s.record .uvClose
  if s.phase = .initialised ∨ s.phase = .connected then
    { s with phase := .closing, reading := false }
  else s

/-! ## The client -/

/-- `uvx__client_reconnect`, where `uv_tcp_connect` returns `ret`. -/
def uvxClientReconnect (ret : ℤ) (s : State) : State × ℤ :=
  let s := { s with uvserver := false, connectionClosed := false }
  let s := uvTcpConnect ret (uvTcpInit s)
  (s, if 0 ≤ ret then 1 else 0)

/-- `uvx_client_connect`, where `uv_tcp_connect` returns `ret`. -/
def uvxClientConnect (uv : AddrParser) (ip : List UInt8) (port : ℤ) (ret : ℤ) : State × ℤ :=
  let xclient : State :=
    { serverAddr := (uv.parse ip port).2
      uvserver := false
      connectionClosed := false
      heartbeatIndex := 0
      timer := false
      phase := .closed
      connecting := false
      reading := false
      stack := []
      attempts := [] }
  let (xclient, r) := uvxClientReconnect ret xclient
  ({ xclient with heartbeatIndex := 0, timer := true }, r)

/-- `_uvx_client_close` up to `on_conn_closing`. -/
def uvxClientClose (s : State) : State :=
  s.call .onConnClosing

/-- `uvx__on_heartbeat_timer`, where `uv_tcp_connect` returns `ret` if it is called. -/
def uvxOnHeartbeatTimer (ret : ℤ) (s : State) : State :=
  if s.uvserver then
    let index := s.heartbeatIndex
    { s with heartbeatIndex := s.heartbeatIndex + 1 }.call (.onHeartbeat index)
  else if s.connectionClosed then (uvxClientReconnect ret s).1
  else s

/-- `_uv_on_connect` up to its callback. -/
def uvOnConnect (status : ℤ) (s : State) : State :=
  if status = 0 then { s with uvserver := true }.call .onConnOk
  else { s with uvserver := false }.call .onConnFail

/-- `uvx__on_client_read` up to its callback, if its assertion holds. -/
def uvxOnClientRead (nread : ℤ) (s : State) : Option State :=
  if 0 < nread then
    if s.uvserver then some (s.call .onRecv) else none
  else if nread < 0 then some (uvxClientClose (uvReadStop s))
  else some s

/-- `uvx__after_close_client` up to its callback. -/
def uvxAfterCloseClient (s : State) : State :=
  s.call .onConnClose

/-- What the client does after a callback. -/
def resume : Callback → State → State
  | .onConnOk => uvReadStart
  | .onConnFail => uvxClientClose
  | .onRecv => id
  | .onConnClosing => uvClose
  | .onConnClose => fun s => { s with uvserver := false, connectionClosed := true }
  | .onHeartbeat _ => id

/-- `uvx_client_send`, where `uv_write` returns `status` if it is called. -/
def uvxClientSend (status : ℤ) (s : State) : State × ℤ :=
  if s.uvserver then (s.record .uvWrite, if status = 0 then 1 else 0) else (s, 0)

/-- `uvx_client_disconnect` up to `on_conn_closing`. -/
def uvxClientDisconnect (s : State) : State :=
  if s.uvserver then uvxClientClose s else s

/-- `uvx_client_shutdown` up to `on_conn_closing`. -/
def uvxClientShutdown (s : State) : State :=
  uvxClientDisconnect { s with timer := false }

/-! ## Runs -/

inductive UserCall
  | send (status : ℤ)
  | disconnect
  | shutdown
deriving DecidableEq

inductive Event
  | connect (status : ℤ)
  | read (nread : ℤ)
  | closed
  | heartbeat (ret : ℤ)
  | user (call : UserCall)
  /-- The innermost callback returns. -/
  | returned
deriving DecidableEq

/-- What libuv promises: its callbacks come one after another; a connect callback for each request,
with success only on a handle that has not been closed; data only while it is read; a close callback
after `uv_close`; and timer callbacks while the timer is started. The client is shut down once. -/
def Enabled (s : State) : Event → Prop
  | .connect status =>
    s.stack = [] ∧ s.connecting = true ∧ (status = 0 → s.phase = .initialised)
  | .read _ => s.stack = [] ∧ s.reading = true
  | .closed => s.stack = [] ∧ s.phase = .closing ∧ s.connecting = false
  | .heartbeat _ => s.stack = [] ∧ s.timer = true
  | .user .shutdown => s.timer = true
  | .user _ => True
  | .returned => s.stack ≠ []

instance (s : State) (e : Event) : Decidable (Enabled s e) :=
  match e with
  | .connect status => inferInstanceAs
      (Decidable (s.stack = [] ∧ s.connecting = true ∧ (status = 0 → s.phase = .initialised)))
  | .read _ => inferInstanceAs (Decidable (s.stack = [] ∧ s.reading = true))
  | .closed => inferInstanceAs
      (Decidable (s.stack = [] ∧ s.phase = .closing ∧ s.connecting = false))
  | .heartbeat _ => inferInstanceAs (Decidable (s.stack = [] ∧ s.timer = true))
  | .user .shutdown => inferInstanceAs (Decidable (s.timer = true))
  | .user (.send _) => .isTrue trivial
  | .user .disconnect => .isTrue trivial
  | .returned => inferInstanceAs (Decidable (s.stack ≠ []))

/-- What an event does, if no assertion fails. -/
def handle : Event → State → Option State
  | .connect status, s =>
    let phase := if status = 0 then .connected else s.phase
    some (uvOnConnect status { s with connecting := false, phase := phase })
  | .read nread, s => uvxOnClientRead nread s
  | .closed, s => some (uvxAfterCloseClient { s with phase := .closed })
  | .heartbeat ret, s => some (uvxOnHeartbeatTimer ret s)
  | .user (.send status), s => some (uvxClientSend status s).1
  | .user .disconnect, s => some (uvxClientDisconnect s)
  | .user .shutdown, s => some (uvxClientShutdown s)
  | .returned, s =>
    match s.stack with
    | [] => some s
    | cb :: stack => some (resume cb { s with stack := stack })

def Step (s : State) (e : Event) (s' : State) : Prop :=
  Enabled s e ∧ handle e s = some s'

/-- The state after the events, if each may happen where `P` holds. -/
def runEvents (P : State → Event → Prop) [∀ s e, Decidable (P s e)] : List Event → State → Option State
  | [], s => some s
  | e :: es, s =>
    if Enabled s e ∧ P s e then (handle e s).bind (runEvents P es) else none

end Uvx.Client
