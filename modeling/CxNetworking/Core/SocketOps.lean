import CxNetworking.Core.EventLoop

/-! What `core::socket_ops`, `core::resolver` and `core::descriptor` answer: addresses,
error codes and the results of the calls. The kernel is not modelled; a run names the
result of every call it makes. -/
namespace CxNetworking

/-- What a `core::buffer` or a span of bytes holds. -/
abbrev Bytes := List UInt8

namespace Core

structure SocketAddress where
  address : String
  port : UInt16 := 0
  family : Int := 0
  deriving DecidableEq, Repr

inductive Domain where
  | inet
  | inet6
  deriving DecidableEq, Repr

def Domain.family : Domain → Int
  | .inet => 2
  | .inet6 => 10

/-- `std::errc`; the value-initialised code is success. -/
structure Errc where
  code : Nat := 0
  deriving DecidableEq, Repr

namespace Errc

def success : Errc := ⟨0⟩
def interrupted : Errc := ⟨4⟩
def badFileDescriptor : Errc := ⟨9⟩
def again : Errc := ⟨11⟩
def inProgress : Errc := ⟨115⟩

/-- `core::would_block`; EAGAIN and EWOULDBLOCK are one code. -/
def wouldBlock (e : Errc) : Bool := e == again

end Errc

/-- The answer of a call: nothing was called, `send` took some bytes, `recv` returned a
chunk (empty at the end of the stream), a call returned -1, a call without a value
returned its code, a descriptor was opened or accepted, a datagram arrived, a name was
resolved (to no address on failure), or an endpoint was read back. -/
inductive Kernel where
  | none
  | sent (count : Nat)
  | got (chunk : List UInt8)
  | failed (e : Errc)
  | status (e : Errc)
  | opened (h : Handle)
  | accepted (h : Handle) (peer : SocketAddress)
  | received (datagram : List UInt8) (source : SocketAddress)
  | resolved (addrs : List SocketAddress)
  | endpoint (addr : SocketAddress)
  deriving DecidableEq, Repr

/-- The call returned -1, or a code other than success. -/
def Kernel.fails : Kernel → Bool
  | .failed _ => true
  | .status e => e != .success
  | _ => false

def valid (h : Handle) : Bool := 0 ≤ h

/-- A transfer on an invalid descriptor fails with EBADF. -/
def Kernel.Possible (desc : Handle) (k : Kernel) : Prop :=
  valid desc = false → k = .failed .badFileDescriptor

instance (desc : Handle) (k : Kernel) : Decidable (k.Possible desc) := inferInstanceAs (Decidable (_ → _))

/-- The texts of the 'error' event: fixed ones, and those of `describe`. -/
inductive Failure where
  | text (s : String)
  | system (call : String) (e : Errc)
  deriving DecidableEq, Repr

/-- What a turn of an object leaves: the loop, the object, the frames in place of the one
executed, and what it adds to the history. -/
structure Turn (κ δ σ φ ν : Type) where
  loop : EventLoop κ δ
  obj : σ
  push : List φ := []
  notes : List ν := []

end Core
end CxNetworking
