import Uvx.Client.Mode
import Uvx.Server.Start
import Uvx.Udp.Defs

/-!
# Malformed addresses

Four functions take an `ip` as a string. None of them looks at the status of the parser, so that each
takes care of its address (`Careful`) exactly when the string parses (`careful_iff`). On a string that
does not parse they go on with the address that is filled in nevertheless, all zeros, which is the
wildcard address (`malformed_is_wildcard`).
-/

namespace Uvx.Net

/-! ## What is done with an address -/

/-- The calls of libuv about the address of an entry point. -/
inductive Call
  | tcpBind (addr : SockAddr)
  | listen
  | tcpConnect (addr : SockAddr)
  | udpBind (addr : SockAddr)
  | udpSend (addr : SockAddr)
deriving DecidableEq

/-- The address passed along. -/
def Call.addr : Call → Option SockAddr
  | tcpBind addr | tcpConnect addr | udpBind addr | udpSend addr => some addr
  | listen => none

/-- An entry point takes care of its address: one that parses is used as it is, and for another one
the result is 0 and libuv is not called. -/
def Careful (parsed : ℤ × SockAddr) (ret : ℤ) (calls : List Call) : Prop :=
  if 0 ≤ parsed.1 then calls.filterMap Call.addr = [parsed.2] else ret = 0 ∧ calls = []

/-- Calling libuv once in any case is careful as long as the address parses. -/
theorem careful_iff_of_addr {parsed : ℤ × SockAddr} {ret : ℤ} {calls : List Call}
    (h : calls.filterMap Call.addr = [parsed.2]) : Careful parsed ret calls ↔ 0 ≤ parsed.1 := by
  rw [Careful]
  by_cases hparsed : 0 ≤ parsed.1
  · rw [if_pos hparsed]
    exact iff_of_true h hparsed
  · rw [if_neg hparsed]
    refine iff_of_false (fun hc => ?_) hparsed
    rw [hc.2] at h
    exact absurd h (by simp)

/-! ## The calls of the entry points -/

/-- The calls noted by a server. -/
def serverCalls (s : Server.State) : List Call :=
  s.uvCalls.map fun
    | .tcpBind addr => .tcpBind addr
    | .listen => .listen

/-- The calls noted by a client. -/
def clientCalls (s : Client.State) : List Call :=
  s.attempts.flatten.filterMap fun e =>
    match e.action with
    | .tcpConnect addr _ => some (.tcpConnect addr)
    | _ => none

/-- The calls noted by a UDP socket. -/
def udpCalls (s : Udp.State) : List Call := s.binds.map .udpBind

/-- The datagrams sent between two states. -/
def sendCalls (s s' : Send.State) : List Call :=
  (s'.datagrams.drop s.datagrams.length).map fun d => .udpSend d.1

theorem serverCalls_start {uv : Server.Libuv} {now : UInt64} {ip : List UInt8} {port ret : ℤ}
    {config : Server.Config} {s₀ : Server.State}
    (h : Server.uvxServerStart uv now ip port config = .ok (s₀, ret)) :
    serverCalls s₀ = [.tcpBind (uv.parse ip port).2, .listen] := by
  rw [serverCalls, (Server.start_fresh h).1.uvCalls]
  rfl

theorem clientCalls_connect (uv : AddrParser) (ip : List UInt8) (port ret : ℤ) :
    clientCalls (Client.uvxClientConnect uv ip port ret).1 = [.tcpConnect (uv.parse ip port).2] := by
  rw [clientCalls, Client.attempts_uvxClientConnect]
  rfl

theorem udpCalls_start (uv : AddrParser) (r : ℤ) (ip : List UInt8) (port : ℤ) :
    udpCalls (Udp.uvxUdpStart uv r (some ip) port).1 = [.udpBind (uv.parse ip port).2] := by
  rw [Udp.uvxUdpStart]
  split <;> rfl

theorem sendCalls_sendToIp (uv : AddrParser) (xudp : Send.Ptr) (ip : List UInt8) (port : ℤ)
    (data : List UInt8) (status : ℤ) (s : Send.State) :
    sendCalls s (Udp.uvxUdpSendToIp uv xudp ip port data status s).1 =
      [.udpSend (uv.parse ip port).2] := by
  have hsent : (Udp.uvxUdpSendToIp uv xudp ip port data status s).1.datagrams =
      s.datagrams ++ [((uv.parse ip port).2, data)] := by
    unfold Udp.uvxUdpSendToIp Send.uvxUdpSendToAddr Send.uvUdpSend
    dsimp only
    split <;> rfl
  rw [sendCalls, hsent, List.drop_left, List.map_singleton]

/-! ## No entry point refuses an address -/

/-- The address of every interface. -/
def wildcard (ipv6 : Bool) (port : ℤ) : SockAddr :=
  ⟨ipv6, List.replicate (if ipv6 then 16 else 4) 0, port.toNat⟩

/-- What libuv does with a string that it rejects. -/
structure Rejects (uv : AddrParser) (ip : List UInt8) (port : ℤ) : Prop where
  status : (uv.parse ip port).1 < 0
  addr : (uv.parse ip port).2 = wildcard (58 ∈ ip) port

/-- **A malformed address is taken for the wildcard address** by all four, whatever libuv answers. -/
theorem malformed_is_wildcard {uv : Server.Libuv} {bad any : List UInt8} {port : ℤ}
    (hbad : Rejects uv.toAddrParser bad port)
    (hany : (uv.parse any port).2 = wildcard (58 ∈ bad) port) (now : UInt64)
    (config : Server.Config) (connectRet bindRet sendRet : ℤ) (xudp : Send.Ptr) (data : List UInt8)
    (s : Send.State) :
    Server.uvxServerStart uv now bad port config = Server.uvxServerStart uv now any port config ∧
      Client.uvxClientConnect uv.toAddrParser bad port connectRet =
        Client.uvxClientConnect uv.toAddrParser any port connectRet ∧
      Udp.uvxUdpStart uv.toAddrParser bindRet (some bad) port =
        Udp.uvxUdpStart uv.toAddrParser bindRet (some any) port ∧
      Udp.uvxUdpSendToIp uv.toAddrParser xudp bad port data sendRet s =
        Udp.uvxUdpSendToIp uv.toAddrParser xudp any port data sendRet s := by
  have haddr : (uv.parse bad port).2 = (uv.parse any port).2 := hbad.addr.trans hany.symm
  refine ⟨?_, ?_, ?_, ?_⟩
  · unfold Server.uvxServerStart
    rw [haddr]
  · unfold Client.uvxClientConnect
    rw [haddr]
  · unfold Udp.uvxUdpStart
    simp only [haddr]
  · unfold Udp.uvxUdpSendToIp
    rw [haddr]

/-- `uvx_server_start`, which returns `ret` and leaves the server `s₀`, takes care of its address. -/
def ServerCareful (uv : Server.Libuv) (ip : List UInt8) (port : ℤ) (s₀ : Server.State) (ret : ℤ) :
    Prop :=
  Careful (uv.parse ip port) ret (serverCalls s₀)

/-- `uvx_client_connect` does, where `uv_tcp_connect` returns `connectRet`. -/
def ClientCareful (uv : AddrParser) (ip : List UInt8) (port connectRet : ℤ) : Prop :=
  let r := Client.uvxClientConnect uv ip port connectRet
  Careful (uv.parse ip port) r.2 (clientCalls r.1)

/-- `uvx_udp_start` does, where `uv_udp_bind` returns `bindRet`. -/
def UdpStartCareful (uv : AddrParser) (ip : List UInt8) (port bindRet : ℤ) : Prop :=
  let r := Udp.uvxUdpStart uv bindRet (some ip) port
  Careful (uv.parse ip port) r.2 (udpCalls r.1)

/-- `uvx_udp_send_to_ip` does, where `uv_udp_send` returns `sendRet`. -/
def UdpSendCareful (uv : AddrParser) (xudp : Send.Ptr) (ip : List UInt8) (port : ℤ)
    (data : List UInt8) (sendRet : ℤ) (s : Send.State) : Prop :=
  let r := Udp.uvxUdpSendToIp uv xudp ip port data sendRet s
  Careful (uv.parse ip port) r.2 (sendCalls s r.1)

/-- **The entry points take care of an address exactly when it parses**: of every string that does
not, each of them makes an address. -/
theorem careful_iff (uv : Server.Libuv) (now : UInt64) (ip : List UInt8) (port : ℤ)
    (config : Server.Config) (connectRet bindRet sendRet : ℤ) (xudp : Send.Ptr) (data : List UInt8)
    (s : Send.State) :
    (∀ s₀ ret, Server.uvxServerStart uv now ip port config = .ok (s₀, ret) →
        (ServerCareful uv ip port s₀ ret ↔ 0 ≤ (uv.parse ip port).1)) ∧
      (ClientCareful uv.toAddrParser ip port connectRet ↔ 0 ≤ (uv.parse ip port).1) ∧
      (UdpStartCareful uv.toAddrParser ip port bindRet ↔ 0 ≤ (uv.parse ip port).1) ∧
      (UdpSendCareful uv.toAddrParser xudp ip port data sendRet s ↔ 0 ≤ (uv.parse ip port).1) := by
  refine ⟨fun _ _ hstart => careful_iff_of_addr ?_, careful_iff_of_addr ?_, careful_iff_of_addr ?_,
    careful_iff_of_addr ?_⟩
  · rw [serverCalls_start hstart]; rfl
  · rw [clientCalls_connect]; rfl
  · rw [udpCalls_start]; rfl
  · rw [sendCalls_sendToIp]; rfl

/-- A libuv without errors, and the address `127.0.0.1`. -/
theorem careful_iff_loopback :
    ∃ s₀, Server.uvxServerStart (Server.statusLibuv 0 0) 0 loopback 80 Server.smallConfig =
        .ok (s₀, 1) ∧
      ServerCareful (Server.statusLibuv 0 0) loopback 80 s₀ 1 ∧
      ClientCareful dottedParser loopback 80 0 ∧ UdpStartCareful dottedParser loopback 80 0 ∧
      UdpSendCareful dottedParser 0 loopback 80 [] 0 .init := by
  obtain ⟨s₀, hstart⟩ : ∃ s₀, Server.uvxServerStart (Server.statusLibuv 0 0) 0 loopback 80
      Server.smallConfig = .ok (s₀, 1) := ⟨_, rfl⟩
  obtain ⟨hserver, hclient, hudp, hsend⟩ := careful_iff (Server.statusLibuv 0 0) 0 loopback 80
    Server.smallConfig 0 0 0 0 [] .init
  exact ⟨s₀, hstart, (hserver s₀ 1 hstart).mpr (by decide), hclient.mpr (by decide),
    hudp.mpr (by decide), hsend.mpr (by decide)⟩

/-- The string `1.2.3`. -/
def tooShort : List UInt8 := [49, 46, 50, 46, 51]

/-- Given `1.2.3`, the server listens on every interface, the client connects, the socket is bound
and the datagram is sent. -/
theorem not_careful_tooShort :
    Rejects dottedParser tooShort 80 ∧
    (∃ s₀, Server.uvxServerStart (Server.statusLibuv 0 0) 0 tooShort 80 Server.smallConfig =
        .ok (s₀, 1) ∧ s₀.bound = some (wildcard false 80) ∧ s₀.listening = true ∧
      ¬ ServerCareful (Server.statusLibuv 0 0) tooShort 80 s₀ 1) ∧
    ¬ ClientCareful dottedParser tooShort 80 0 ∧ ¬ UdpStartCareful dottedParser tooShort 80 0 ∧
    ¬ UdpSendCareful dottedParser 0 tooShort 80 [] 0 .init := by
  have hbad : ¬ 0 ≤ (dottedParser.parse tooShort 80).1 := by decide
  refine ⟨⟨by decide, by decide⟩, ⟨_, rfl, by decide, rfl, fun h => ?_⟩, fun h => ?_, fun h => ?_,
    fun h => ?_⟩
  · exact hbad ((careful_iff_of_addr rfl).mp h)
  · exact hbad ((careful_iff_of_addr rfl).mp h)
  · exact hbad ((careful_iff_of_addr rfl).mp h)
  · exact hbad ((careful_iff_of_addr rfl).mp h)

end Uvx.Net
