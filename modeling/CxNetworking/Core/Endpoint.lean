import CxNetworking.Core.SocketOps
import CxNetworking.Lib.BigEndian
import CxNetworking.Lib.Dotted
import Mathlib.Data.Vector.Basic

/-! The conversions between `core::socket_address` and the system's socket addresses, which
go through the text form of an address. The system's own conversions are assumed to be
inverse; nothing else is known of the text. -/
namespace CxNetworking.Core

namespace Domain

def octets : Domain → Nat
  | .inet => 4
  | .inet6 => 16

abbrev Raw (d : Domain) : Type := List.Vector UInt8 d.octets

/-- The wildcard address, which zero-initialised storage holds. -/
def any (d : Domain) : d.Raw := List.Vector.replicate d.octets 0

def anyText : Domain → String
  | .inet => "0.0.0.0"
  | .inet6 => "::"

end Domain

/-- `inet_ntop` and `inet_pton`. The latter fails on a text that is not a numeric address of
the family. -/
structure Inet where
  ntop : (d : Domain) → d.Raw → String
  pton : (d : Domain) → String → Option d.Raw
  pton_ntop : ∀ d a, pton d (ntop d a) = some a
  pton_any : ∀ d, pton d d.anyText = some d.any

/-- The members of `sockaddr_in` and `sockaddr_in6` that denote an endpoint. The port is in
network byte order. -/
inductive Sockaddr where
  | in4 (port : UInt16) (addr : Domain.Raw .inet)
  | in6 (port : UInt16) (addr : Domain.Raw .inet6) (scopeId : UInt32)
  deriving DecidableEq

namespace Sockaddr

def domain : Sockaddr → Domain
  | .in4 _ _ => .inet
  | .in6 _ _ _ => .inet6

/-- The interface that an IPv6 address belongs to, if not zero; IPv4 addresses have none. -/
def scopeId : Sockaddr → UInt32
  | .in4 _ _ => 0
  | .in6 _ _ scope => scope

def fill : (d : Domain) → UInt16 → d.Raw → Sockaddr
  | .inet, port, addr => .in4 port addr
  | .inet6, port, addr => .in6 port addr 0

end Sockaddr

/-- `htons` and `ntohs` of a little-endian machine. -/
def htons (port : UInt16) : UInt16 := BigEndian.swap16 port

def ntohs (port : UInt16) : UInt16 := BigEndian.swap16 port

@[simp] theorem htons_ntohs (port : UInt16) : htons (ntohs port) = port := BigEndian.swap16_swap16 port

namespace Inet

variable (net : Inet)

def fromSockaddr : Sockaddr → SocketAddress
  | .in6 port addr _ => { address := net.ntop .inet6 addr, port := ntohs port, family := Domain.inet6.family }
  | .in4 port addr => { address := net.ntop .inet addr, port := ntohs port, family := Domain.inet.family }

/-- `to_sockaddr`; whether `inet_pton` succeeds is not looked at. -/
def toSockaddr (a : SocketAddress) : Sockaddr :=
  if a.family = Domain.inet6.family then
    .in6 (htons a.port) ((net.pton .inet6 a.address).getD Domain.inet6.any) 0
  else .in4 (htons a.port) ((net.pton .inet a.address).getD Domain.inet.any)

/-- With an address of one of the two families, what the text does not fill in stays zero. -/
theorem toSockaddr_family (d : Domain) (address : String) (port : UInt16) :
    net.toSockaddr { address, port, family := d.family } =
      .fill d (htons port) ((net.pton d address).getD d.any) := by
  cases d <;> rfl

/-- `resolver::resolve`, given what `getaddrinfo` finds, if it succeeds. -/
def resolve (found : Option (List Sockaddr)) : List SocketAddress := (found.map (·.map net.fromSockaddr)).getD []

theorem toSockaddr_fromSockaddr (s : Sockaddr) :
    net.toSockaddr (net.fromSockaddr s) =
      match s with
      | .in4 port addr => .in4 port addr
      | .in6 port addr _ => .in6 port addr 0 := by
  cases s with
  | in4 port addr => simp [toSockaddr, fromSockaddr, Domain.family, net.pton_ntop]
  | in6 port addr scope => simp [toSockaddr, fromSockaddr, net.pton_ntop]

theorem domain_toSockaddr_fromSockaddr (s : Sockaddr) : (net.toSockaddr (net.fromSockaddr s)).domain = s.domain := by
  rw [toSockaddr_fromSockaddr]
  cases s <;> rfl

/-- An address that is converted back and forth denotes the same endpoint exactly when it
has no scope. -/
theorem sockaddr_round_trip_iff (s : Sockaddr) : net.toSockaddr (net.fromSockaddr s) = s ↔ s.scopeId = 0 := by
  rw [toSockaddr_fromSockaddr]
  cases s with
  | in4 port addr => exact iff_of_true rfl rfl
  | in6 port addr scope => simp [Sockaddr.scopeId, eq_comm]

def ofDotted (d : Domain) (text : String) : Option d.Raw :=
  (Dotted.parse text.toList).bind fun bs => if h : bs.length = d.octets then some ⟨bs, h⟩ else none

theorem ofDotted_format (d : Domain) (a : d.Raw) : ofDotted d (String.ofList (Dotted.format a.toList)) = some a := by
  have hne : a.toList ≠ [] := by
    apply List.ne_nil_of_length_pos
    rw [a.toList_length]
    cases d <;> decide
  rw [ofDotted, String.toList_ofList, Dotted.parse_format hne, Option.bind_some, dif_pos a.toList_length]
  rfl

def in6addrLoopback : Domain.Raw .inet6 := ⟨[0, 0, 0, 0, 0, 0, 0, 0, 0, 0, 0, 0, 0, 0, 0, 1], rfl⟩

def in6addrLinkLocal : Domain.Raw .inet6 := ⟨[0xfe, 0x80, 0, 0, 0, 0, 0, 0, 0, 0, 0, 0, 0, 0, 0, 1], rfl⟩

def inet6Texts : List (Domain.Raw .inet6 × String) :=
  [(Domain.inet6.any, "::"), (in6addrLoopback, "::1"), (in6addrLinkLocal, "fe80::1")]

def ntop6 (a : Domain.Raw .inet6) : String :=
  match inet6Texts.find? (·.1 = a) with
  | some entry => entry.2
  | none => String.ofList (Dotted.format a.toList)

def pton6 (text : String) : Option (Domain.Raw .inet6) :=
  match inet6Texts.find? (·.2 = text) with
  | some entry => some entry.1
  | none => ofDotted .inet6 text

theorem pton6_ntop6 (a : Domain.Raw .inet6) : pton6 (ntop6 a) = some a := by
  have hback : ∀ entry ∈ inet6Texts, pton6 entry.2 = some entry.1 ∧ ofDotted .inet6 entry.2 = none := by
    decide +kernel
  rw [ntop6]
  cases hfind : inet6Texts.find? (·.1 = a) with
  | some entry =>
      have ha : entry.1 = a := by simpa using List.find?_some hfind
      rw [← ha]
      exact (hback entry (List.mem_of_find?_eq_some hfind)).1
  | none =>
      have hdotted := ofDotted_format .inet6 a
      have hnew : inet6Texts.find? (·.2 = String.ofList (Dotted.format a.toList)) = none := by
        rw [List.find?_eq_none]
        intro entry he htext
        rw [← of_decide_eq_true htext, (hback entry he).2] at hdotted
        cases hdotted
      simp only [pton6, hnew]
      exact hdotted

/-- A pair that can be evaluated: dotted numbers, which for IPv4 is the system's own form. Of
the IPv6 addresses it has the system's text for those above. -/
def numeric : Inet where
  ntop
    | .inet, a => String.ofList (Dotted.format a.toList)
    | .inet6, a => ntop6 a
  pton
    | .inet, text => ofDotted .inet text
    | .inet6, text => pton6 text
  pton_ntop
    | .inet, a => ofDotted_format .inet a
    | .inet6, a => pton6_ntop6 a
  pton_any d := by cases d <;> decide +kernel

/-- Port 5353 of fe80::1 on the second interface. -/
def linkLocal : Sockaddr := .in6 (htons 5353) in6addrLinkLocal 2

/-- The interface is lost. -/
theorem linkLocal_unscoped :
    (numeric.fromSockaddr linkLocal).address = "fe80::1" ∧
      (numeric.toSockaddr (numeric.fromSockaddr linkLocal)).scopeId = 0 ∧ linkLocal.scopeId = 2 ∧
      numeric.toSockaddr (numeric.fromSockaddr linkLocal) ≠ linkLocal := by
  have hscope : (numeric.toSockaddr (numeric.fromSockaddr linkLocal)).scopeId = 0 := by
    rw [toSockaddr_fromSockaddr]
    rfl
  refine ⟨by decide +kernel, hscope, rfl, ?_⟩
  intro hsame
  rw [hsame] at hscope
  exact absurd hscope (by decide)

end Inet
end CxNetworking.Core
