import Uvx.Loge.Defs
import Uvx.Send.Defs

/-!
# The UDP logger: `uvx_log.c`

A logger serializes each log into an array on its stack and sends that as one datagram. Starting the
UDP socket is left out: without an address to bind to, `uvx_udp_start` always succeeds.
-/

namespace Uvx.Log

open Net Loge Send

/-- `uvx_log_t` -/
structure UvxLogT where
  xudp : Ptr
  targetAddr : SockAddr
  loge : LogeT

/-- `uvx_log_init`, in the process with id `pid`; `loge` is what the memory holds before. -/
def uvxLogInit (uv : AddrParser) (xudp : Ptr) (loge : LogeT) (targetIp : List UInt8)
    (targetPort : ℤ) (name : Option CString) (pid : Int32) : UvxLogT :=
  { xudp := xudp
    targetAddr := (uv.parse targetIp targetPort).2
    loge := logeInit loge name pid }

/-- `uvx_log_enable` -/
def uvxLogEnable (xlog : UvxLogT) (enabled : Int32) : UvxLogT :=
  { xlog with loge := logeEnable xlog.loge enabled }

/-- What a call finds: the time and the thread, the array `buf` on its stack, and the status that
`uv_udp_send` will return. -/
structure Context where
  env : Env
  buf : ℕ → UInt8
  status : ℤ

/-- The first `size` bytes of the output buffer. -/
def bytes (o : Out) (size : ℕ) : List UInt8 := (List.range size).map o.byte

/-- `uvx_log_send` -/
def uvxLogSend (ctx : Context) (xlog : UvxLogT) (level : Int32) (tags msg file : Option CString)
    (line : Int32) (s : Send.State) : Send.State × ℤ :=
  let (o, size) := logeItem ctx.env xlog.loge ctx.buf maxBuf level tags msg file line
  uvxUdpSendToAddr xlog.xudp xlog.targetAddr (bytes o size) ctx.status s

/-- `uvx_log_send_bin` -/
def uvxLogSendBin (ctx : Context) (xlog : UvxLogT) (level : Int32) (tags : Option CString)
    (msg : Msg) (file : Option CString) (line : Int32) (s : Send.State) : Send.State × ℤ :=
  let (o, size) := logeItemBin ctx.env xlog.loge ctx.buf maxBuf level tags msg file line
  uvxUdpSendToAddr xlog.xudp xlog.targetAddr (bytes o size) ctx.status s

/-- `uvx_log_serialize`, into the array `buf`. -/
def uvxLogSerialize (env : Env) (xlog : UvxLogT) (buf : ℕ → UInt8) (bufsize : ℕ) (level : Int32)
    (tags msg file : Option CString) (line : Int32) : Out × ℕ :=
  logeItem env xlog.loge buf bufsize level tags msg file line

/-- `uvx_log_serialize_bin` -/
def uvxLogSerializeBin (env : Env) (xlog : UvxLogT) (buf : ℕ → UInt8) (bufsize : ℕ) (level : Int32)
    (tags : Option CString) (msg : Msg) (file : Option CString) (line : Int32) : Out × ℕ :=
  logeItemBin env xlog.loge buf bufsize level tags msg file line

/-- `uvx_log_send_serialized`, where `uv_udp_send` returns `status`. -/
def uvxLogSendSerialized (xlog : UvxLogT) (data : List UInt8) (status : ℤ) (s : Send.State) :
    Send.State × ℤ :=
  uvxUdpSendToAddr xlog.xudp xlog.targetAddr data status s

/-! ## The macros of `uvx.h` -/

/-- `snprintf` of a formatted `text` into an array of `size` bytes: what does not fit is cut. -/
def snprintf (size : ℕ) (text : CString) : CString :=
  ⟨text.bytes.take (size - 1), fun h => text.nonzero (List.mem_of_mem_take h)⟩

namespace Macro

/-- `UVX_LOG`, where `text` is what the format and its values describe. -/
def uvxLog (ctx : Context) (xlog : UvxLogT) (level : Int32) (tags : Option CString) (text : CString)
    (file : Option CString) (line : Int32) (s : Send.State) : Send.State × ℤ :=
  uvxLogSend ctx xlog level tags (some (snprintf maxBuf text)) file line s

/-- `UVX_LOG_SERIALIZE` -/
def uvxLogSerialize (env : Env) (xlog : UvxLogT) (buf : ℕ → UInt8) (bufsize : ℕ) (level : Int32)
    (tags : Option CString) (text : CString) (file : Option CString) (line : Int32) : Out × ℕ :=
  Log.uvxLogSerialize env xlog buf bufsize level tags (some (snprintf maxBuf text)) file line

end Macro

/-! ## Runs -/

structure State where
  xlog : UvxLogT
  net : Send.State

inductive Event
  | enable (enabled : Int32)
  | send (ctx : Context) (level : Int32) (tags msg file : Option CString) (line : Int32)
  | sendBin (ctx : Context) (level : Int32) (tags : Option CString) (msg : Msg)
      (file : Option CString) (line : Int32)

/-- What a call does. -/
def handle : Event → State → State
  | .enable enabled, s => { s with xlog := uvxLogEnable s.xlog enabled }
  | .send ctx level tags msg file line, s =>
    { s with net := (uvxLogSend ctx s.xlog level tags msg file line s.net).1 }
  | .sendBin ctx level tags msg file line, s =>
    { s with net := (uvxLogSendBin ctx s.xlog level tags msg file line s.net).1 }

/-- The state after calls in this order. -/
def run (es : List Event) (s : State) : State := es.foldl (fun s e => handle e s) s

end Uvx.Log
