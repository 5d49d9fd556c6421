import Uvx.Common.Exec
import Uvx.Net.Addr

/-!
# Sending: `uvx.c`, `uvx_udp.c` and the callers

Blocks of memory are numbered in the order of their allocation, and every `free` is noted. libuv is
known by the status it returns: it has accepted a request when this is 0, and runs its callback once,
later; a refused request it forgets. The contents of a block matter for datagrams only, whose bytes
are copied. Allocations succeed.
-/

namespace Uvx.Send

open Net

/-- Blocks of memory. -/
abbrev Ptr := ℕ

/-- The callbacks of the requests. -/
inductive Callback
  | afterSendToStream
  | afterSendMem
  | afterUdpSend
deriving DecidableEq

/-- `uv_write_t` and `uv_udp_send_t`, with the buffer that was passed along. -/
structure Request where
  /-- The request object itself. -/
  ptr : Ptr
  /-- The stream or the UDP socket. -/
  handle : Ptr
  /-- The block in which `buf.base` lies. -/
  base : Ptr
  len : ℕ
  /-- The field `data`. -/
  data : Ptr
  cb : Callback
deriving DecidableEq

/-- Memory and what libuv has to do. -/
structure State where
  /-- The number of blocks allocated so far. -/
  next : Ptr
  /-- The blocks of user code. -/
  user : List Ptr
  /-- Every block freed, as often as it was, latest first. -/
  freed : List Ptr
  /-- The accepted requests whose callback has not run, oldest first. -/
  pending : List Request
  /-- What was passed to `uv_udp_send`, oldest first. -/
  datagrams : List (SockAddr × List UInt8)
deriving DecidableEq

namespace State

def init : State := ⟨0, [], [], [], []⟩

def malloc (s : State) : Ptr × State := (s.next, { s with next := s.next + 1 })

def free (s : State) (p : Ptr) : State := { s with freed := p :: s.freed }

end State

/-! ## Functions of libuv -/

/-- `uv_write`, which returns `status`. -/
def uvWrite (status : ℤ) (w : Request) (s : State) : State :=
  if status = 0 then { s with pending := s.pending ++ [w] } else s

/-- `uv_udp_send`, which returns `status`. -/
def uvUdpSend (status : ℤ) (req : Request) (addr : SockAddr) (bytes : List UInt8) (s : State) :
    State :=
  let s := { s with datagrams := s.datagrams ++ [(addr, bytes)] }
  if status = 0 then { s with pending := s.pending ++ [req] } else s

/-! ## Streams -/

/-- `uvx_after_send_to_stream` -/
def uvxAfterSendToStream (w : Request) (s : State) : State :=
  (s.free w.data).free w.ptr

/-- `uvx_send_to_stream`, where `uv_write` returns `status`. -/
def uvxSendToStream (stream data : Ptr) (size : ℕ) (status : ℤ) (s : State) : State × ℤ :=
  let (w, s) := s.malloc
  let req : Request :=
    { ptr := w, handle := stream, base := data, len := size, data := data,
      cb := .afterSendToStream }
  (uvWrite status req s, if status = 0 then 1 else 0)

/-- `uvx_after_send_mem`, where `automem_uninit` frees `mem.pdata`. -/
def uvxAfterSendMem (w : Request) (s : State) : State :=
  (s.free w.data).free w.ptr

/-- `uvx_send_mem` of an `automem_t` with the given `pdata` and `size`. -/
def uvxSendMem (pdata : Ptr) (size : ℕ) (stream : Ptr) (status : ℤ) (s : State) : State × ℤ :=
  let (w, s) := s.malloc
  let req : Request :=
    { ptr := w, handle := stream, base := pdata, len := size, data := pdata, cb := .afterSendMem }
  (uvWrite status req s, status)

/-- `uvx_client_send`, where `uvserver` is the field of the client. -/
def uvxClientSend (uvserver : Option Ptr) (data : Ptr) (size : ℕ) (status : ℤ) (s : State) :
    State × ℤ :=
  match uvserver with
  | some uvserver => uvxSendToStream uvserver data size status s
  | none => (s.free data, 0)

/-- `uvx_server_conn_send` -/
def uvxServerConnSend (uvclient data : Ptr) (size : ℕ) (status : ℤ) (s : State) : State × ℤ :=
  uvxSendToStream uvclient data size status s

/-! ## Datagrams -/

/-- `uv_after_udp_send` -/
def uvAfterUdpSend (req : Request) (s : State) : State :=
  s.free req.ptr

/-- `uvx_udp_send_to_addr`, where `uv_udp_send` returns `status`. The data is copied to the end of
the request. -/
def uvxUdpSendToAddr (xudp : Ptr) (addr : SockAddr) (data : List UInt8) (status : ℤ) (s : State) :
    State × ℤ :=
  let (p, s) := s.malloc
  let req : Request :=
    { ptr := p, handle := xudp, base := p, len := data.length, data := xudp, cb := .afterUdpSend }
  (uvUdpSend status req addr data s, if status = 0 then 1 else 0)

/-! ## Runs -/

/-- The callback of a request. It only prints the status it gets. -/
def Request.complete (r : Request) : State → State :=
  match r.cb with
  | .afterSendToStream => uvxAfterSendToStream r
  | .afterSendMem => uvxAfterSendMem r
  | .afterUdpSend => uvAfterUdpSend r

inductive Event
  /-- User code allocates a block. -/
  | malloc
  | clientSend (uvserver : Option Ptr) (data : Ptr) (size : ℕ) (status : ℤ)
  | serverConnSend (uvclient data : Ptr) (size : ℕ) (status : ℤ)
  | sendToStream (stream data : Ptr) (size : ℕ) (status : ℤ)
  | sendMem (pdata : Ptr) (size : ℕ) (stream : Ptr) (status : ℤ)
  | udpSendToAddr (xudp : Ptr) (addr : SockAddr) (data : List UInt8) (status : ℤ)
  /-- The callback of a request runs. -/
  | complete (r : Request)
deriving DecidableEq

/-- User code hands over blocks that it has allocated, and libuv completes what is pending. -/
def Enabled (s : State) : Event → Prop
  | .clientSend _ data _ _ | .serverConnSend _ data _ _ | .sendToStream _ data _ _
  | .sendMem data _ _ _ => data ∈ s.user
  | .complete r => r ∈ s.pending
  | .malloc | .udpSendToAddr .. => True

/-- User code gives up a block. -/
def State.handOver (s : State) (p : Ptr) : State := { s with user := s.user.erase p }

/-- What an event does. -/
def handle : Event → State → State
  | .malloc, s =>
    let (p, s) := s.malloc
    { s with user := p :: s.user }
  | .clientSend uvserver data size status, s =>
    (uvxClientSend uvserver data size status (s.handOver data)).1
  | .serverConnSend uvclient data size status, s =>
    (uvxServerConnSend uvclient data size status (s.handOver data)).1
  | .sendToStream stream data size status, s =>
    (uvxSendToStream stream data size status (s.handOver data)).1
  | .sendMem pdata size stream status, s =>
    (uvxSendMem pdata size stream status (s.handOver pdata)).1
  | .udpSendToAddr xudp addr data status, s => (uvxUdpSendToAddr xudp addr data status s).1
  | .complete r, s => r.complete { s with pending := s.pending.erase r }

def Step (s : State) (e : Event) (s' : State) : Prop :=
  Enabled s e ∧ s' = handle e s

end Uvx.Send
