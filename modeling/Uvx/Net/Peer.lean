import Uvx.Common.Buf
import Uvx.Net.Addr

/-!
# Reading addresses: `uvx.c`

A `struct sockaddr *` is the memory behind it, byte by byte, in the layout of Linux on a little-endian
machine. Each reader notes the offsets at which it looks. `uvx_get_tcp_ip_port` has the peer's address
copied into a `struct sockaddr`, which has 16 bytes, and an IPv6 address has 28: the second half of its
host is whatever stands behind (`uvxGetTcpIpPort_inet6`).
-/

namespace Uvx.Net

/-! ## Addresses in memory -/

/-- `AF_INET` -/
def afInet : ℕ := 2

/-- `AF_INET6` -/
def afInet6 : ℕ := 10

/-- `sizeof(struct sockaddr)` -/
def sizeofSockaddr : ℕ := 16

/-- The address of a peer. -/
inductive Peer
  | inet (addr : Vector UInt8 4) (port : UInt16)
  | inet6 (addr : Vector UInt8 16) (port : UInt16) (flowinfo scopeId : Vector UInt8 4)
deriving DecidableEq

/-- The two bytes of a port, in network order. -/
def htons (port : UInt16) : List UInt8 := [(port >>> 8).toUInt8, port.toUInt8]

namespace Peer

def family : Peer → ℕ
  | inet .. => afInet
  | inet6 .. => afInet6

/-- `sin_addr`, `sin6_addr` -/
def host : Peer → List UInt8
  | inet addr _ => addr.toList
  | inet6 addr _ _ _ => addr.toList

/-- What stands in front of the host. -/
def header : Peer → List UInt8
  | inet _ port => [2, 0] ++ htons port
  | inet6 _ port flowinfo _ => [10, 0] ++ htons port ++ flowinfo.toList

/-- What stands behind it. -/
def trailer : Peer → List UInt8
  | inet .. => List.replicate 8 0
  | inet6 _ _ _ scopeId => scopeId.toList

/-- The `struct sockaddr_in` or `struct sockaddr_in6`. -/
def bytes (peer : Peer) : List UInt8 := peer.header ++ peer.host ++ peer.trailer

/-- The memory of the complete address. -/
def mem (peer : Peer) (i : ℕ) : UInt8 := peer.bytes.getD i 0

/-- Where the host stands. -/
def hostOffset : Peer → ℕ
  | inet .. => 4
  | inet6 .. => 8

def port : Peer → UInt16
  | inet _ port => port
  | inet6 _ port _ _ => port

end Peer

/-! ## The readers -/

/-- What a reader leaves behind: its result, what its two output pointers then point to, and the
offsets at which it has read. -/
structure Answer (ρ : Type) where
  ret : ρ
  ipbuf : Option (List UInt8)
  port : Option ℤ
  read : List ℕ
deriving DecidableEq

/-- `addr->sa_family` -/
def saFamily (addr : ℕ → UInt8) : ℕ := Bytes.readLE addr 0 2

/-- `ntohs` of the two bytes at offset 2. -/
def ntohs (addr : ℕ → UInt8) : ℤ := ((addr 2).toNat * 256 + (addr 3).toNat : ℕ)

/-- The `n` bytes at offset `i`. -/
def bytesOf (addr : ℕ → UInt8) (i n : ℕ) : List UInt8 := (List.range' i n).map addr

/-- A case of the two readers. The host is the `n` bytes at offset `i`, and `copy` brings it into
`ipbuf`. -/
def readHost {ρ : Type} (copy : List UInt8 → List UInt8 → List UInt8) (ret : ρ) (addr : ℕ → UInt8)
    (i n : ℕ) (ipbuf : Option (List UInt8)) (port : Option ℤ) : Answer ρ where
  ret := ret
  ipbuf := ipbuf.map (copy (bytesOf addr i n))
  port := port.map fun _ => ntohs addr
  read := [0, 1] ++ (if ipbuf.isSome then List.range' i n else []) ++
    (if port.isSome then [2, 3] else [])

/-- The default case: an unknown family. -/
def readUnknown {ρ : Type} (ret : ρ) (ipbuf : Option (List UInt8)) (port : Option ℤ) : Answer ρ :=
  ⟨ret, ipbuf, port.map fun _ => 0, [0, 1]⟩

/-- `uv_inet_ntop`: from the family, the bytes of the host, the size of the buffer and its contents
the contents afterwards. -/
abbrev InetNtop := ℕ → List UInt8 → ℤ → List UInt8 → List UInt8

/-- `uvx_get_ip_port`. It returns `ipbuf`, and the result tells whether that is not null. -/
def uvxGetIpPort (uvInetNtop : InetNtop) (addr : ℕ → UInt8) (ipbuf : Option (List UInt8))
    (buflen : ℤ) (port : Option ℤ) : Answer Bool :=
  if saFamily addr = afInet then
    readHost (fun host => uvInetNtop afInet host buflen) ipbuf.isSome addr 4 4 ipbuf port
  else if saFamily addr = afInet6 then
    readHost (fun host => uvInetNtop afInet6 host buflen) ipbuf.isSome addr 8 16 ipbuf port
  else readUnknown false ipbuf port

/-- `uvx_get_raw_ip_port`, which returns the number of bytes of the host. -/
def uvxGetRawIpPort (addr : ℕ → UInt8) (ipbuf : Option (List UInt8)) (port : Option ℤ) : Answer ℕ :=
  if saFamily addr = afInet then
    readHost (fun host buf => host ++ buf.drop 4) 4 addr 4 4 ipbuf port
  else if saFamily addr = afInet6 then
    readHost (fun host buf => host ++ buf.drop 16) 16 addr 8 16 ipbuf port
  else readUnknown 0 ipbuf port

/-- `uv_tcp_getpeername`, when it succeeds: at most `len` bytes of the peer's address are copied over
what was in memory. -/
def uvTcpGetpeername (peer : Peer) (len : ℕ) (mem : ℕ → UInt8) (i : ℕ) : UInt8 :=
  if i < min len peer.bytes.length then peer.bytes.getD i 0 else mem i

/-- `uvx_get_tcp_ip_port`, where `uv_tcp_getpeername` returns `r`. The local `addr` stands at the
front of `mem`. -/
def uvxGetTcpIpPort (uvInetNtop : InetNtop) (r : ℤ) (peer : Peer) (mem : ℕ → UInt8)
    (ipbuf : Option (List UInt8)) (buflen : ℤ) (port : Option ℤ) : Answer Bool :=
  if r = 0 then
    uvxGetIpPort uvInetNtop (uvTcpGetpeername peer sizeofSockaddr mem) ipbuf buflen port
  else ⟨false, ipbuf, port, []⟩

/-! ## Reading what was written -/

theorem Peer.length_header (peer : Peer) : peer.header.length = peer.hostOffset := by
  cases peer with
  | inet addr port => rfl
  | inet6 addr port flowinfo scopeId => simp [header, htons, hostOffset]

theorem Peer.length_host (peer : Peer) :
    peer.host.length = if peer.family = afInet then 4 else 16 := by
  cases peer with
  | inet addr port => exact addr.length_toList
  | inet6 addr port flowinfo scopeId => exact addr.length_toList

theorem Peer.length_bytes (peer : Peer) :
    peer.bytes.length = if peer.family = afInet then 16 else 28 := by
  rw [bytes, List.length_append, List.length_append, length_header, length_host]
  cases peer with
  | inet addr port => rfl
  | inet6 addr port flowinfo scopeId =>
    rw [show trailer (.inet6 addr port flowinfo scopeId) = scopeId.toList from rfl,
      scopeId.length_toList]
    rfl

/-- The host stands at its offset. -/
theorem Peer.mem_host (peer : Peer) {j : ℕ} (hj : j < peer.host.length) :
    peer.mem (peer.hostOffset + j) = peer.host[j] := by
  rw [mem, bytes, List.getD_eq_getElem?_getD, List.append_assoc, ← length_header,
    List.getElem?_append_right (Nat.le_add_right _ _), Nat.add_sub_cancel_left,
    List.getElem?_append_left hj, List.getElem?_eq_getElem hj, Option.getD_some]

/-- The header of an address: its family and its port. -/
def HasHeader (peer : Peer) (mem : ℕ → UInt8) : Prop :=
  ∀ i < 4, mem i = peer.mem i

theorem Peer.mem_zero (peer : Peer) : peer.mem 0 = .ofNat peer.family := by
  cases peer <;> rfl

theorem Peer.mem_one (peer : Peer) : peer.mem 1 = 0 := by
  cases peer <;> rfl

theorem Peer.mem_two (peer : Peer) : peer.mem 2 = (peer.port >>> 8).toUInt8 := by
  cases peer <;> rfl

theorem Peer.mem_three (peer : Peer) : peer.mem 3 = peer.port.toUInt8 := by
  cases peer <;> rfl

theorem HasHeader.saFamily {peer : Peer} {mem : ℕ → UInt8} (h : HasHeader peer mem) :
    saFamily mem = peer.family := by
  rw [Net.saFamily, Bytes.readLE, Bytes.readLE, Bytes.readLE, h 0 (by decide), h 1 (by decide),
    peer.mem_zero, peer.mem_one]
  cases peer with
  | inet addr port => rfl
  | inet6 addr port flowinfo scopeId => rfl

theorem HasHeader.ntohs {peer : Peer} {mem : ℕ → UInt8} (h : HasHeader peer mem) :
    ntohs mem = peer.port.toNat := by
  have hport := peer.port.toNat_lt
  rw [Net.ntohs, h 2 (by decide), h 3 (by decide), peer.mem_two, peer.mem_three,
    UInt16.toNat_toUInt8, UInt16.toNat_toUInt8, UInt16.toNat_shiftRight,
    show (8 : UInt16).toNat % 16 = 8 from rfl, Nat.shiftRight_eq_div_pow]
  omega

/-- The offsets read for the family, the host if there is a buffer, and the port if it is asked for. -/
def Peer.readOffsets (peer : Peer) (ipbuf : Option (List UInt8)) (port : Option ℤ) : List ℕ :=
  [0, 1] ++ (if ipbuf.isSome then List.range' peer.hostOffset peer.host.length else []) ++
    (if port.isSome then [2, 3] else [])

variable {uvInetNtop : InetNtop} {peer : Peer} {mem : ℕ → UInt8} {ipbuf : Option (List UInt8)}
  {buflen : ℤ} {port : Option ℤ}

/-- With the header in memory, `uvx_get_ip_port` reports the port, and the bytes where the host
should be. -/
theorem HasHeader.uvxGetIpPort (h : HasHeader peer mem) :
    uvxGetIpPort uvInetNtop mem ipbuf buflen port =
      { ret := ipbuf.isSome
        ipbuf := ipbuf.map
          (uvInetNtop peer.family (bytesOf mem peer.hostOffset peer.host.length) buflen)
        port := port.map fun _ => (peer.port.toNat : ℤ)
        read := peer.readOffsets ipbuf port } := by
  rw [Net.uvxGetIpPort, h.saFamily, Peer.readOffsets, peer.length_host, ← h.ntohs]
  cases peer with
  | inet addr port => rfl
  | inet6 addr port flowinfo scopeId => rfl

theorem HasHeader.uvxGetRawIpPort (h : HasHeader peer mem) :
    uvxGetRawIpPort mem ipbuf port =
      { ret := peer.host.length
        ipbuf := ipbuf.map fun buf =>
          bytesOf mem peer.hostOffset peer.host.length ++ buf.drop peer.host.length
        port := port.map fun _ => (peer.port.toNat : ℤ)
        read := peer.readOffsets ipbuf port } := by
  rw [Net.uvxGetRawIpPort, h.saFamily, Peer.readOffsets, peer.length_host, ← h.ntohs]
  cases peer with
  | inet addr port => rfl
  | inet6 addr port flowinfo scopeId => rfl

theorem bytesOf_congr {mem mem' : ℕ → UInt8} {i n : ℕ}
    (h : ∀ k, i ≤ k → k < i + n → mem k = mem' k) : bytesOf mem i n = bytesOf mem' i n := by
  rw [bytesOf, bytesOf]
  refine List.map_congr_left ?_
  intro k hk
  obtain ⟨h₁, h₂⟩ := List.mem_range'_1.mp hk
  exact h k h₁ h₂

theorem length_bytesOf (mem : ℕ → UInt8) (i n : ℕ) : (bytesOf mem i n).length = n := by
  rw [bytesOf, List.length_map, List.length_range']

theorem bytesOf_append (mem : ℕ → UInt8) (i m n : ℕ) :
    bytesOf mem i (m + n) = bytesOf mem i m ++ bytesOf mem (i + m) n := by
  rw [bytesOf, bytesOf, bytesOf, ← List.map_append, List.range'_append_1]

theorem bytesOf_mem (peer : Peer) : bytesOf peer.mem peer.hostOffset peer.host.length = peer.host := by
  refine List.ext_getElem (length_bytesOf _ _ _) ?_
  intro j h₁ h₂
  simp only [bytesOf, List.getElem_map, List.getElem_range', Nat.one_mul]
  exact peer.mem_host h₂

/-- **A complete address is reported as it is**, as text and as bytes. -/
theorem uvxGetIpPort_mem (peer : Peer) :
    uvxGetIpPort uvInetNtop peer.mem ipbuf buflen port =
      { ret := ipbuf.isSome
        ipbuf := ipbuf.map (uvInetNtop peer.family peer.host buflen)
        port := port.map fun _ => (peer.port.toNat : ℤ)
        read := peer.readOffsets ipbuf port } := by
  have h : HasHeader peer peer.mem := fun _ _ => rfl
  rw [h.uvxGetIpPort, bytesOf_mem]

theorem uvxGetRawIpPort_mem (peer : Peer) (buf : List UInt8) :
    (uvxGetRawIpPort peer.mem (some buf) port).ipbuf = some (peer.host ++ buf.drop peer.host.length) := by
  have h : HasHeader peer peer.mem := fun _ _ => rfl
  rw [h.uvxGetRawIpPort, bytesOf_mem]
  rfl

/-! ## Reading what was copied -/

/-- The sixteen bytes of the local are filled, -/
theorem getpeername_of_lt (peer : Peer) (mem : ℕ → UInt8) {i : ℕ} (hi : i < sizeofSockaddr) :
    uvTcpGetpeername peer sizeofSockaddr mem i = peer.mem i := by
  have hlen : sizeofSockaddr ≤ peer.bytes.length := by
    rw [peer.length_bytes, sizeofSockaddr]
    split <;> omega
  rw [uvTcpGetpeername, if_pos (Nat.lt_min.mpr ⟨hi, Nat.lt_of_lt_of_le hi hlen⟩), Peer.mem]

/-- and nothing behind them. -/
theorem getpeername_of_le (peer : Peer) (mem : ℕ → UInt8) {i : ℕ} (hi : sizeofSockaddr ≤ i) :
    uvTcpGetpeername peer sizeofSockaddr mem i = mem i := by
  rw [uvTcpGetpeername, if_neg]
  exact fun hlt => Nat.not_lt_of_le hi (Nat.lt_min.mp hlt).1

theorem hasHeader_getpeername (peer : Peer) (mem : ℕ → UInt8) :
    HasHeader peer (uvTcpGetpeername peer sizeofSockaddr mem) :=
  fun _ hi => getpeername_of_lt peer mem (Nat.lt_trans hi (by decide))

theorem eq_inet_or_inet6 (peer : Peer) :
    (peer.family = afInet ∧ peer.hostOffset = 4 ∧ peer.host.length = 4) ∨
      (peer.family = afInet6 ∧ peer.hostOffset = 8 ∧ peer.host.length = 16) := by
  cases peer with
  | inet addr port => exact Or.inl ⟨rfl, rfl, addr.length_toList⟩
  | inet6 addr port flowinfo scopeId => exact Or.inr ⟨rfl, rfl, addr.length_toList⟩

/-- Nothing is read behind the host. -/
theorem lt_of_mem_readOffsets {i : ℕ} (hi : i ∈ peer.readOffsets ipbuf port) :
    i < peer.hostOffset + peer.host.length := by
  have hsize := eq_inet_or_inet6 peer
  rw [Peer.readOffsets, List.mem_append, List.mem_append] at hi
  rcases hi with (hi | hi) | hi
  · have : i = 0 ∨ i = 1 := by simpa using hi
    omega
  · split at hi
    · exact (List.mem_range'_1.mp hi).2
    · exact absurd hi List.not_mem_nil
  · split at hi
    · have : i = 2 ∨ i = 3 := by simpa using hi
      omega
    · exact absurd hi List.not_mem_nil

/-- **An IPv6 address loses its second half** to what stands in memory behind the local. -/
theorem uvxGetTcpIpPort_inet6 (h : peer.family = afInet6) (buf : List UInt8) :
    (uvxGetTcpIpPort uvInetNtop 0 peer mem (some buf) buflen port).ipbuf =
      some (uvInetNtop afInet6 (peer.host.take 8 ++ bytesOf mem 16 8) buflen buf) := by
  have hsize : peer.hostOffset = 8 ∧ peer.host.length = 8 + 8 := by
    rcases eq_inet_or_inet6 peer with ⟨hinet, -⟩ | ⟨-, hsize⟩
    · exact absurd (hinet.symm.trans h) (by decide)
    · exact hsize
  have hlow : bytesOf (uvTcpGetpeername peer sizeofSockaddr mem) 8 8 = peer.host.take 8 := by
    rw [← bytesOf_mem peer, hsize.1, hsize.2, bytesOf_append, List.take_left' (length_bytesOf _ _ _)]
    exact bytesOf_congr fun k _ hk => getpeername_of_lt peer mem hk
  have hhigh : bytesOf (uvTcpGetpeername peer sizeofSockaddr mem) 16 8 = bytesOf mem 16 8 :=
    bytesOf_congr fun k hk _ => getpeername_of_le peer mem hk
  rw [uvxGetTcpIpPort, if_pos rfl, (hasHeader_getpeername peer mem).uvxGetIpPort, hsize.1, hsize.2,
    bytesOf_append, hlow, hhigh, h]
  rfl

/-- The peer is reported as it is, and only what was copied is read. -/
structure Reported (uvInetNtop : InetNtop) (peer : Peer) (mem : ℕ → UInt8) (ipbuf : List UInt8)
    (buflen : ℤ) (port : Option ℤ) : Prop where
  same : uvxGetTcpIpPort uvInetNtop 0 peer mem (some ipbuf) buflen port =
    uvxGetIpPort uvInetNtop peer.mem (some ipbuf) buflen port
  copied : ∀ i ∈ (uvxGetTcpIpPort uvInetNtop 0 peer mem (some ipbuf) buflen port).read,
    i < min sizeofSockaddr peer.bytes.length

/-- **`uvx_get_tcp_ip_port` reports IPv4 peers**, and no others. -/
theorem reported_iff (uvInetNtop : InetNtop) (peer : Peer) (mem : ℕ → UInt8) (ipbuf : List UInt8)
    (buflen : ℤ) (port : Option ℤ) :
    Reported uvInetNtop peer mem ipbuf buflen port ↔ peer.family = afInet := by
  have hread : (uvxGetTcpIpPort uvInetNtop 0 peer mem (some ipbuf) buflen port).read =
      peer.readOffsets (some ipbuf) port := by
    rw [uvxGetTcpIpPort, if_pos rfl, (hasHeader_getpeername peer mem).uvxGetIpPort]
  rcases eq_inet_or_inet6 peer with ⟨hfam, hoff, hlen⟩ | ⟨hfam, hoff, hlen⟩
  · refine iff_of_true ⟨?_, ?_⟩ hfam
    · have hcopied : bytesOf (uvTcpGetpeername peer sizeofSockaddr mem) peer.hostOffset
          peer.host.length = bytesOf peer.mem peer.hostOffset peer.host.length := by
        refine bytesOf_congr fun k _ hk => getpeername_of_lt peer mem ?_
        rw [hoff, hlen] at hk
        exact Nat.lt_trans hk (by decide)
      rw [uvxGetTcpIpPort, if_pos rfl, (hasHeader_getpeername peer mem).uvxGetIpPort, hcopied,
        bytesOf_mem, uvxGetIpPort_mem]
    · intro i hi
      have hlt := lt_of_mem_readOffsets (hread ▸ hi)
      rw [hoff, hlen] at hlt
      rw [peer.length_bytes, if_pos hfam, sizeofSockaddr]
      omega
  · refine iff_of_false (fun h => ?_) (by rw [hfam]; decide)
    -- the first byte behind the local
    have hmem : 16 ∈ peer.readOffsets (some ipbuf) port := by
      rw [Peer.readOffsets, hoff, hlen]
      exact List.mem_append_left _ (List.mem_append_right _ (List.mem_range'_1.mpr (by decide)))
    have hlt := Nat.lt_min.mp (h.copied 16 (hread ▸ hmem))
    exact absurd hlt.1 (by decide)

/-! ## An address that is misreported -/

def digit (n : ℕ) : UInt8 := .ofNat (if n < 10 then 48 + n else 87 + n)

/-- The digits of `n` in the given base, four at most, without leading zeros. -/
def digits (base n : ℕ) : List UInt8 :=
  (if base ^ 3 ≤ n then [digit (n / base ^ 3 % base)] else []) ++
    (if base ^ 2 ≤ n then [digit (n / base ^ 2 % base)] else []) ++
    (if base ≤ n then [digit (n / base % base)] else []) ++ [digit (n % base)]

/-- The groups of an IPv6 address. -/
def groups : List UInt8 → List ℕ
  | hi :: lo :: host => (hi.toNat * 256 + lo.toNat) :: groups host
  | _ => []

/-- `uv_inet_ntop` for addresses in which no two groups of zeros stand side by side. -/
def plainNtop : InetNtop := fun family host size buf =>
  let text : List UInt8 :=
    if family = afInet then [46].intercalate (host.map fun b => digits 10 b.toNat)
    else [58].intercalate ((groups host).map (digits 16))
  if (text.length : ℤ) < size then text ++ [0] ++ buf.drop (text.length + 1) else buf

/-- The peer `2001:db8:1:2:3:4:5:6`, port 443. -/
def peer6 : Peer :=
  .inet6 #v[0x20, 0x01, 0x0d, 0xb8, 0, 1, 0, 2, 0, 3, 0, 4, 0, 5, 0, 6] 443 #v[0, 0, 0, 0] #v[0, 0, 0, 0]

/-- With bytes `0xff` behind the local, `2001:db8:1:2:ffff:ffff:ffff:ffff` is reported. -/
theorem not_reported_peer6 :
    let buf : List UInt8 := List.replicate 40 0
    (uvxGetTcpIpPort plainNtop 0 peer6 (fun _ => 0xff) (some buf) 40 (some 0)).ipbuf ≠
        (uvxGetIpPort plainNtop peer6.mem (some buf) 40 (some 0)).ipbuf ∧
      ¬ Reported plainNtop peer6 (fun _ => 0xff) buf 40 (some 0) := by
  intro buf
  have htext : (uvxGetTcpIpPort plainNtop 0 peer6 (fun _ => 0xff) (some buf) 40 (some 0)).ipbuf ≠
      (uvxGetIpPort plainNtop peer6.mem (some buf) 40 (some 0)).ipbuf := by decide +kernel
  exact ⟨htext, fun h => htext (congrArg Answer.ipbuf h.same)⟩

end Uvx.Net
