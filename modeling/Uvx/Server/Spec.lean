import Uvx.Server.Defs

/-!
# The server as an ordered list of connections

The server keeps its connections in the order of their last communication, each with the time of it.
A connection leaves the list when its handle has been closed, and is forgotten when the server and
user code have dropped their references. `Spec.step` says what an event does to the list.
-/

namespace Uvx.Server

/-- A connection as libuv and user code see it. -/
structure Link where
  ptr : Ptr
  serial : ℕ
  time : UInt64
  handle : Handle
  trace : List Action

namespace Link

/-- Note what happens to the connection. -/
def noted (l : Link) (as : List Action) : Link := { l with trace := l.trace ++ as }

/-- `uv_close`, announced to user code. -/
def disconnected (l : Link) : Link :=
  { l.noted [.callback .onConnClosing, .uvClose] with handle := .closing }

def received (l : Link) (now : UInt64) : Link :=
  { l.noted [.callback .onRecv] with time := now }

/-- The connection taken out of the table after its close callback. -/
def removed (l : Link) : Link :=
  { l.noted [.callback .onConnClose, .removed] with handle := .unused }

/-- A connection whose accept succeeded or failed. -/
def accept (conn : Ptr) (serial : ℕ) (now : UInt64) (ok : Bool) : Link :=
  if ok then ⟨conn, serial, now, .reading, [.callback .onConnOk]⟩
  else ⟨conn, serial, 0, .closing, [.callback .onConnFail, .uvClose]⟩

end Link

/-- `links` are the connections in the table, in their order; `loose` is one on which the server has
its reference while it is not in the table; on those in `gone` the server has none any more. -/
structure Spec where
  now : UInt64
  accepted : ℕ
  links : List Link
  loose : Option Link
  gone : List Link

namespace Spec

/-- The connections on which the server has a reference. -/
def owned (a : Spec) : List Link := a.links ++ a.loose.toList

/-- All connections there have been. -/
def all (a : Spec) : List Link := a.owned ++ a.gone

/-- The list without the connection `conn`. -/
def without (conn : Ptr) (links : List Link) : List Link :=
  links.filter fun l => l.ptr ≠ conn

def find (a : Spec) (conn : Ptr) : Option Link :=
  a.links.find? fun l => l.ptr = conn

/-- Change the connection `conn` where it is. -/
def change (conn : Ptr) (f : Link → Link) (links : List Link) : List Link :=
  links.map fun l => if l.ptr = conn then f l else l

/-- Disconnect from the front on, as long as the connections are expired. -/
def sweep (expired : Link → Bool) : List Link → List Link
  | [] => []
  | l :: links => if expired l then l.disconnected :: sweep expired links else l :: links

/-- What an event does. -/
def step (config : Config) (a : Spec) : Event → Spec
  | .connection status conn accepted =>
    if status = 0 then
      { a with
        accepted := a.accepted + 1
        links := a.links ++ [.accept conn a.accepted a.now (accepted = 0)] }
    else a
  | .read conn nread =>
    if 0 < nread then
      { a with
        links := without conn a.links ++ ((a.find conn).map fun l => l.received a.now).toList }
    else if nread < 0 then { a with links := change conn Link.disconnected a.links }
    else a
  | .closed conn =>
    { a with
      links := without conn a.links
      gone := a.gone ++ ((a.find conn).map Link.removed).toList }
  | .heartbeat =>
    if config.timeoutOn ∧ 0 < config.connTimeout then
      { a with links := sweep (fun l => expired config a.now l.time) a.links }
    else a
  | .advance now => { a with now := now }
  | .user _ => a

end Spec

end Uvx.Server
