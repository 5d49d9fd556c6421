import Uvx.LinkHash.Defs
import Uvx.Net.Addr

/-!
# The TCP server: `uvx_server.c`

A handler runs on a `State`, which it shares with libuv, with the allocator and with user code. The
state keeps, beside the server's own fields, what libuv knows of each handle, which memory is
allocated, how many references user code holds, and what has happened to each connection so far.
User code is a program of its own: it runs in callbacks and, on other threads, whenever the loop
thread looks at a connection. Callbacks left null are those whose user code does nothing. Memory is
granted whenever it is asked for. Printing, the receive buffers and what user code keeps behind
`conn->extra` are left out.
-/

namespace Uvx.Server

open LinkHash Net

/-- Pointers to connections. -/
abbrev Ptr := UInt64

/-- What stops a handler. -/
inductive Fault
  | table (fault : LhFault)
  /-- The table is used after `lh_table_free`. -/
  | tableFreed
  /-- A connection is used after `free`. -/
  | connFreed (conn : Ptr)
  | assertion
deriving DecidableEq

/-- What libuv knows of a `uvclient`. -/
inductive Handle
  | unused
  | idle
  | reading
  | closing
deriving DecidableEq

/-- The callbacks about a connection. -/
inductive ConnCallback
  | onConnOk
  | onConnFail
  | onRecv
  | onConnClosing
  | onConnClose
deriving DecidableEq

/-- What happens to a connection. -/
inductive Action
  | callback (cb : ConnCallback)
  | uvClose
  /-- Deleted from the table by its close callback. -/
  | removed
  | freed
deriving DecidableEq

inductive Callback
  | conn (cb : ConnCallback) (conn : Ptr)
  | onHeartbeat (index : UInt32)

/-- `uvx_server_conn_t`. The serial number tells apart connections that got the same memory. -/
structure Conn where
  lastCommTime : UInt64
  refcount : ℤ
  serial : ℕ
deriving DecidableEq

/-- What `uvx_server_start` calls with its address. -/
inductive UvCall
  | tcpBind (addr : SockAddr)
  | listen
deriving DecidableEq

/-- `uvx_server_t` and what surrounds it. -/
structure State where
  /-- `uv_now` -/
  now : UInt64
  conns : Option LhTable
  heartbeatIndex : UInt32
  /-- The heartbeat timer is started. -/
  timer : Bool
  bound : Option SockAddr
  /-- `uvserver` is listening. -/
  listening : Bool
  /-- The calls of `uv_tcp_bind` and `uv_listen`. -/
  uvCalls : List UvCall
  heap : Ptr → Option Conn
  handle : Ptr → Handle
  /-- The references taken by user code and not given back. -/
  held : Ptr → ℕ
  /-- How many connections there have been. -/
  accepted : ℕ
  trace : ℕ → List Action
  /-- How often user code has run. -/
  turn : ℕ

inductive UserCall
  | connRef (conn : Ptr) (up : Bool)
  | shutdown
deriving DecidableEq

/-- User code: the calls made in a callback, and the references taken and given back by other threads
before the loop thread looks at a connection. -/
structure User where
  calls : State → Callback → List UserCall
  threads : State → List (Ptr × Bool)

/-- `uvx_server_config_t`. The times are those the code computes from the seconds; `timeoutOn` is
`conn_timeout_seconds > 0`. The server asserts of each connection that `conn_extra_size` is not negative,
and configurations have it so. -/
structure Config where
  connCount : Int32
  connBacklog : Int32
  timeoutOn : Bool
  connTimeout : ℤ
  heartbeatInterval : ℤ
  connExtraSize : Int32
  connExtraSize_nonneg : 0 ≤ connExtraSize

/-- Connections without extra data are as the server asserts. -/
theorem Config.noExtra : (0 : Int32) ≤ 0 := Int32.le_refl 0

/-- The libuv functions called by `uvx_server_start`. -/
structure Libuv extends AddrParser where
  tcpBind : SockAddr → ℤ
  listen : Option SockAddr → Int32 → ℤ

abbrev M := StateT State (Except Fault)

/-! ## Starting -/

/-- `uv_tcp_bind` of `uvserver` -/
def uvTcpBind (uv : Libuv) (addr : SockAddr) (s : State) : State × ℤ :=
  let ret := uv.tcpBind addr
  ({ s with
      uvCalls := s.uvCalls ++ [.tcpBind addr]
      bound := if 0 ≤ ret then some addr else s.bound }, ret)

/-- `uv_listen` -/
def uvListen (uv : Libuv) (backlog : Int32) (s : State) : State × ℤ :=
  let ret := uv.listen s.bound backlog
  ({ s with uvCalls := s.uvCalls ++ [.listen], listening := decide (0 ≤ ret) }, ret)

/-- `uvx_server_start` -/
def uvxServerStart (uv : Libuv) (now : UInt64) (ip : List UInt8) (port : ℤ) (config : Config) :
    Except Fault (State × ℤ) := do
  let conns ← (lhKptrTableNew config.connCount.toInt).mapError .table
  let xserver : State :=
    { now := now
      conns := some conns
      heartbeatIndex := 0
      timer := decide (0 < config.heartbeatInterval)
      bound := none
      listening := false
      uvCalls := []
      heap := fun _ => none
      handle := fun _ => .unused
      held := fun _ => 0
      accepted := 0
      trace := fun _ => []
      turn := 0 }
  let addr := (uv.parse ip port).2
  -- the status of the bind is not looked at
  let (xserver, _) := uvTcpBind uv addr xserver
  let (xserver, ret) := uvListen uv config.connBacklog xserver
  pure (xserver, if 0 ≤ ret then 1 else 0)

/-! ## The table -/

/-- `_UVX_S_PRIVATE(xserver)->conns` -/
def conns : M LhTable := do
  match (← get).conns with
  | some t => pure t
  | none => throw .tableFreed

def tableCall {α : Type} (r : Except LhFault α) : M α :=
  match r with
  | .ok a => pure a
  | .error fault => throw (.table fault)

def tableLookup (conn : Ptr) : M (Option ℕ) := do
  tableCall (lhTableLookupEntry (← conns) conn)

def tableInsert (conn : Ptr) : M Unit := do
  let t ← tableCall (lhTableInsert (← conns) conn conn)
  modify fun s => { s with conns := some t }

def tableDelete (conn : Ptr) : M ℤ := do
  let (n, t) ← tableCall (lhTableDelete (← conns) conn)
  modify fun s => { s with conns := some t }
  pure n

/-- `assert` -/
def check (b : Prop) [Decidable b] : M Unit :=
  if b then pure () else throw .assertion

/-! ## Connections -/

def deref (conn : Ptr) : M Conn := do
  match (← get).heap conn with
  | some c => pure c
  | none => throw (.connFreed conn)

/-- Note what happens to a connection. -/
def record (serial : ℕ) (a : Action) : M Unit :=
  modify fun s => { s with trace := Function.update s.trace serial (s.trace serial ++ [a]) }

/-- `uvx_server_conn_ref`, which holds `refmutex` to its end. -/
def uvxServerConnRef (conn : Ptr) (ref : ℤ) : M Unit := do
  check (ref = 1 ∨ ref = -1)
  let c ← deref conn
  let c := { c with refcount := c.refcount + ref }
  if c.refcount = 0 then
    modify fun s => { s with heap := Function.update s.heap conn none }
    record c.serial .freed
  else
    modify fun s => { s with heap := Function.update s.heap conn (some c) }

/-- A reference call by user code. References are taken on connections that are there, and given back
once each; other calls are not made. -/
def userRef (conn : Ptr) (up : Bool) : M Unit := do
  let s ← get
  if up then
    if (s.heap conn).isSome then
      set { s with held := Function.update s.held conn (s.held conn + 1) }
      uvxServerConnRef conn 1
  else if 0 < s.held conn then
    set { s with held := Function.update s.held conn (s.held conn - 1) }
    uvxServerConnRef conn (-1)

/-- The loop thread looks at a connection. -/
def touch (user : User) (conn : Ptr) : M Conn := do
  modify fun s => { s with turn := s.turn + 1 }
  (user.threads (← get)).forM fun call => userRef call.1 call.2
  deref conn

def setLastCommTime (user : User) (conn : Ptr) (time : UInt64) : M Unit := do
  let c ← touch user conn
  modify fun s => { s with heap := Function.update s.heap conn (some { c with lastCommTime := time }) }

/-- `uv_read_start` -/
def uvReadStart (user : User) (conn : Ptr) : M Unit := do
  let _ ← touch user conn
  modify fun s =>
    if s.handle conn = .idle then { s with handle := Function.update s.handle conn .reading } else s

/-- `uv_read_stop` -/
def uvReadStop (user : User) (conn : Ptr) : M Unit := do
  let _ ← touch user conn
  modify fun s =>
    if s.handle conn = .reading then { s with handle := Function.update s.handle conn .idle } else s

/-- `uv_close` of a `uvclient`. Repeated, it is noted and has no effect. -/
def uvClose (user : User) (conn : Ptr) : M Unit := do
  let c ← touch user conn
  record c.serial .uvClose
  modify fun s => { s with handle := Function.update s.handle conn .closing }

/-! ## User code on the loop thread -/

/-- `uvx_server_shutdown` -/
def uvxServerShutdown : M ℤ := do
  modify fun s => { s with timer := false }
  let _ ← conns
  modify fun s => { s with conns := none }
  modify fun s => { s with listening := false, bound := none }
  pure 0

/-- A call by user code; a server is shut down once. -/
def userCall : UserCall → M Unit
  | .connRef conn up => userRef conn up
  | .shutdown => do
    if (← get).conns.isSome then
      let _ ← uvxServerShutdown

def callback (user : User) (cb : Callback) : M Unit := do
  modify fun s => { s with turn := s.turn + 1 }
  (user.calls (← get) cb).forM userCall

/-- A callback about a connection. -/
def notify (user : User) (cb : ConnCallback) (conn : Ptr) : M Unit := do
  let c ← touch user conn
  record c.serial (.callback cb)
  callback user (.conn cb conn)

/-! ## The handlers -/

/-- `_uv_disconnect_client` -/
def uvDisconnectClient (user : User) (conn : Ptr) : M Unit := do
  uvReadStop user conn
  notify user .onConnClosing conn
  uvClose user conn

/-- `uvx__on_read` -/
def uvxOnRead (user : User) (conn : Ptr) (nread : ℤ) : M Unit := do
  let _ ← touch user conn
  if 0 < nread then
    setLastCommTime user conn (← get).now
    let n ← tableDelete conn
    check (n = 0)
    tableInsert conn
    notify user .onRecv conn
  else if nread < 0 then
    uvDisconnectClient user conn

/-- `_uv_after_close_connection` -/
def uvAfterCloseConnection (user : User) (conn : Ptr) : M Unit := do
  let c ← touch user conn
  notify user .onConnClose conn
  let n ← tableDelete conn
  check (n = 0)
  record c.serial .removed
  let _ ← touch user conn
  uvxServerConnRef conn (-1)

/-- `uvx__on_connection`, where `calloc` returns `conn` and `uv_accept` returns `accepted`. -/
def uvxOnConnection (config : Config) (user : User) (status : ℤ) (conn : Ptr) (accepted : ℤ) :
    M Unit := do
  if status = 0 then
    check (0 ≤ config.connExtraSize)
    modify fun s =>
      { s with
        heap := Function.update s.heap conn (some ⟨0, 1, s.accepted⟩)
        accepted := s.accepted + 1 }
    let e ← tableLookup conn
    check (e = none)
    tableInsert conn
    -- `uv_tcp_init`
    modify fun s => { s with handle := Function.update s.handle conn .idle }
    if accepted = 0 then
      setLastCommTime user conn (← get).now
      notify user .onConnOk conn
      uvReadStart user conn
    else
      notify user .onConnFail conn
      uvClose user conn

/-- `lh_foreach_safe` over the table, where the body tells whether to go on. The list has at most
`size` entries, or it is a cycle. -/
def foreachSafe {β : Type} (body : Ptr → β → M (ForInStep β)) : ℕ → Option ℕ → β → M β
  | _, none, b => pure b
  | 0, some _, _ => throw (.table .loops)
  | fuel + 1, some n, b => do
    let t ← conns
    let tmp := t.next n
    match ← body (t.key n) b with
    | .done b => pure b
    | .yield b => foreachSafe body fuel tmp b

/-- `uv_now - conn->last_comm_time > conn_timeout` -/
def expired (config : Config) (now time : UInt64) : Bool :=
  decide (config.connTimeout < ((now - time).toNat : ℤ))

/-- The body of the loop of `_uvx_check_timeout_clients`, which breaks at the first connection that
is not expired. -/
def checkTimeout (config : Config) (user : User) (conn : Ptr) (_ : Unit) :
    M (ForInStep Unit) := do
  let c ← touch user conn
  if expired config (← get).now c.lastCommTime then
    uvDisconnectClient user conn
    pure (.yield ())
  else
    pure (.done ())

/-- `_uvx_check_timeout_clients` -/
def uvxCheckTimeoutClients (config : Config) (user : User) : M Unit := do
  if config.connTimeout ≤ 0 then
    return
  let t ← conns
  foreachSafe (checkTimeout config user) t.size t.head ()

/-- `_uv_on_heartbeat_timer` up to the sweep. -/
def heartbeatCallback (user : User) : M Unit := do
  let index := (← get).heartbeatIndex
  modify fun s => { s with heartbeatIndex := s.heartbeatIndex + 1 }
  callback user (.onHeartbeat index)

/-- `_uv_on_heartbeat_timer` -/
def uvOnHeartbeatTimer (config : Config) (user : User) : M Unit := do
  heartbeatCallback user
  if config.timeoutOn then
    uvxCheckTimeoutClients config user

/-- `uvx_server_iter_conns`, where `onIterConn` works on `userdata`. -/
def uvxServerIterConns {β : Type} (onIterConn : Ptr → β → M β) (userdata : β) : M (β × ℤ) := do
  let t ← conns
  let userdata ← foreachSafe (fun conn b => ForInStep.yield <$> onIterConn conn b)
    t.size t.head userdata
  let t ← conns
  pure (userdata, t.count)

/-! ## Runs -/

inductive Event
  | connection (status : ℤ) (conn : Ptr) (accepted : ℤ)
  | read (conn : Ptr) (nread : ℤ)
  | closed (conn : Ptr)
  | heartbeat
  | advance (now : UInt64)
  | user (call : UserCall)
deriving DecidableEq

/-- What the allocator and libuv promise: a new connection gets free memory, nothing is read from a
handle that is closing, a close callback follows `uv_close`, timers run while they are started, and
time does not go back. -/
def Enabled (s : State) : Event → Prop
  | .connection _ conn _ => s.listening = true ∧ s.heap conn = none ∧ conn ≠ lhEmpty ∧ conn ≠ lhFreed
  | .read conn _ => s.handle conn = .reading
  | .closed conn => s.handle conn = .closing
  | .heartbeat => s.timer = true
  | .advance now => s.now ≤ now
  | .user _ => True

instance (s : State) (e : Event) : Decidable (Enabled s e) :=
  match e with
  | .connection _ conn _ => inferInstanceAs
      (Decidable (s.listening = true ∧ s.heap conn = none ∧ conn ≠ lhEmpty ∧ conn ≠ lhFreed))
  | .read conn _ => inferInstanceAs (Decidable (s.handle conn = .reading))
  | .closed conn => inferInstanceAs (Decidable (s.handle conn = .closing))
  | .heartbeat => inferInstanceAs (Decidable (s.timer = true))
  | .advance now => inferInstanceAs (Decidable (s.now ≤ now))
  | .user _ => .isTrue trivial

/-- The handler of an event. -/
def handle (config : Config) (user : User) : Event → M Unit
  | .connection status conn accepted => uvxOnConnection config user status conn accepted
  | .read conn nread => uvxOnRead user conn nread
  | .closed conn => do
    modify fun s => { s with handle := Function.update s.handle conn .unused }
    uvAfterCloseConnection user conn
  | .heartbeat => uvOnHeartbeatTimer config user
  | .advance now => modify fun s => { s with now := now }
  | .user call => userCall call

def Step (config : Config) (user : User) (s : State) (e : Event) (s' : State) : Prop :=
  Enabled s e ∧ handle config user e s = .ok ((), s')

/-- The state after the events, if each may happen where `P` holds and its handler ends. -/
def runEvents (config : Config) (user : User) (P : State → Event → Prop)
    [∀ s e, Decidable (P s e)] : List Event → State → Option State
  | [], s => some s
  | e :: es, s =>
    if Enabled s e ∧ P s e then
      match handle config user e s with
      | .ok (_, s') => runEvents config user P es s'
      | .error _ => none
    else none

end Uvx.Server
