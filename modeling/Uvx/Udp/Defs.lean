import Uvx.Send.Defs

/-!
# The UDP socket: `uvx_udp.c`

Starting a socket, sending to an `ip`, and passing on what has been received. The socket is known by
what libuv has been asked to do with it; the other contents of the configuration and printing are left
out.
-/

namespace Uvx.Udp

open Net

/-- `uvx_udp_t` -/
structure State where
  /-- The addresses passed to `uv_udp_bind`. -/
  binds : List SockAddr
  /-- Where the socket has been bound. -/
  bound : Option SockAddr
  /-- `uv_udp_recv_start` has been called. -/
  receiving : Bool
  closing : Bool
deriving DecidableEq

/-- `uv_udp_init` -/
def uvUdpInit : State := ⟨[], none, false, false⟩

/-- `uv_udp_bind`, which returns `r`. -/
def uvUdpBind (r : ℤ) (addr : SockAddr) (s : State) : State :=
  { s with binds := s.binds ++ [addr], bound := if 0 ≤ r then some addr else s.bound }

/-- `uvx_udp_start`, where `uv_udp_bind` returns `r`. Without an `ip` the socket is bound later, to a
port that the system chooses. -/
def uvxUdpStart (uv : AddrParser) (r : ℤ) (ip : Option (List UInt8)) (port : ℤ) : State × ℤ :=
  match ip with
  | some ip =>
    let s := uvUdpBind r (uv.parse ip port).2 uvUdpInit
    if r < 0 then ({ s with closing := true }, 0) else ({ s with receiving := true }, 1)
  | none => ({ uvUdpInit with receiving := true }, 1)

/-- `uvx_udp_send_to_ip`, where `uv_udp_send` returns `status`. -/
def uvxUdpSendToIp (uv : AddrParser) (xudp : Send.Ptr) (ip : List UInt8) (port : ℤ)
    (data : List UInt8) (status : ℤ) (s : Send.State) : Send.State × ℤ :=
  Send.uvxUdpSendToAddr xudp (uv.parse ip port).2 data status s

/-- `uvx__on_udp_recv`: what has been received goes to `on_recv`, if there is something and someone to
get it. The buffer is freed in any case. -/
def uvxOnUdpRecv {σ : Type*} (onRecv : Option (List UInt8 → σ → σ)) (nread : ℤ) (base : List UInt8)
    (s : σ) : σ :=
  match onRecv with
  | some onRecv => if 0 < nread then onRecv (base.take nread.toNat) s else s
  | none => s

end Uvx.Udp
