import Mathlib.Data.Int.Notation
import Mathlib.Data.Nat.Notation

/-!
# Addresses

The address families, and how the functions of the library that take an `ip` and a `port` tell them
apart.
-/

namespace Uvx.Net

/-- `struct sockaddr_in`, `struct sockaddr_in6` -/
structure SockAddr where
  ipv6 : Bool
  host : List UInt8
  port : ℕ
deriving DecidableEq

/-- `uv_ip4_addr` and `uv_ip6_addr`: a status, and the address that is filled in. -/
structure AddrParser where
  ip4Addr : List UInt8 → ℤ → ℤ × SockAddr
  ip6Addr : List UInt8 → ℤ → ℤ × SockAddr

/-- An `ip` with a colon is an IPv6 address. -/
def AddrParser.parse (uv : AddrParser) (ip : List UInt8) (port : ℤ) : ℤ × SockAddr :=
  if 58 ∈ ip then uv.ip6Addr ip port else uv.ip4Addr ip port

/-- A parser that takes every string for an address. -/
def plainParser : AddrParser where
  ip4Addr ip port := (0, ⟨false, ip, port.toNat⟩)
  ip6Addr ip port := (0, ⟨true, ip, port.toNat⟩)

/-- `inet_pton` for IPv4: `octets` are complete, and `cur` is the value of the digits behind the last
dot. -/
def inetPton4 (octets : List UInt8) (cur : Option ℕ) : List UInt8 → Option (List UInt8)
  | [] =>
    match cur with
    | some n => if octets.length = 3 then some (octets ++ [.ofNat n]) else none
    | none => none
  | c :: cs =>
    if 48 ≤ c ∧ c ≤ 57 then
      match cur with
      | some n =>
        let n' := n * 10 + (c.toNat - 48)
        if n = 0 ∨ 255 < n' then none else inetPton4 octets (some n') cs
      | none => inetPton4 octets (some (c.toNat - 48)) cs
    else if c = 46 then
      match cur with
      | some n => if octets.length = 3 then none else inetPton4 (octets ++ [.ofNat n]) none cs
      | none => none
    else none

/-- A parser that knows IPv4 only. The address of a string that it rejects is all zeros. -/
def dottedParser : AddrParser where
  ip4Addr ip port :=
    match inetPton4 [] none ip with
    | some host => (0, ⟨false, host, port.toNat⟩)
    | none => (-22, ⟨false, .replicate 4 0, port.toNat⟩)
  ip6Addr _ port := (-22, ⟨true, .replicate 16 0, port.toNat⟩)

/-- `"127.0.0.1"` -/
def loopback : List UInt8 := [49, 50, 55, 46, 48, 46, 48, 46, 49]

end Uvx.Net
