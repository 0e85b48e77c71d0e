import Mathlib.Algebra.Ring.Int.Defs
import Mathlib.Data.List.Basic

/-! `core::poller` over poll(2): the watched descriptors with their masks, the
eventfd that wakes a blocked wait, and the translation of `revents`. One wait is cut
at its locked sections: `pollfds` is the snapshot, `drain` and `translate` are what
follows a successful `::poll`. -/
namespace CxNetworking.Core

/-- `descriptor::native_handle`. -/
abbrev Handle := Int

def invalidHandle : Handle := -1

/-- `poller::interest`, a set of bits over `unsigned`. -/
structure Interest where
  bits : UInt32
  deriving DecidableEq, Repr

namespace Interest

def none : Interest := ⟨0⟩
def read : Interest := ⟨1⟩
def write : Interest := ⟨2⟩

instance : OrOp Interest := ⟨fun a b => ⟨a.bits ||| b.bits⟩⟩

def has (set bit : Interest) : Bool := set.bits &&& bit.bits != 0

end Interest

structure Ready where
  readable : Bool := false
  writable : Bool := false
  error : Bool := false
  hangup : Bool := false
  deriving DecidableEq, Repr

structure Event where
  handle : Handle
  what : Ready
  deriving DecidableEq, Repr

/-- The bits of `<poll.h>`. -/
def POLLIN : UInt16 := 0x1
def POLLOUT : UInt16 := 0x4
def POLLERR : UInt16 := 0x8
def POLLHUP : UInt16 := 0x10

def toPollMask (i : Interest) : UInt16 :=
  let m : UInt16 := 0
  let m := if i.has .read then m ||| POLLIN else m
  if i.has .write then m ||| POLLOUT else m

structure PollFd where
  fd : Handle
  events : UInt16
  revents : UInt16 := 0
  deriving DecidableEq, Repr

/-- What `::poll` can do: fail with `EINTR`, fail with another error, or return
with `revents` filled in, all of them zero when it timed out. -/
inductive PollOutcome where
  | interrupted
  | failed
  | returned (revents : List UInt16)
  deriving DecidableEq, Repr

/-- `poller::impl::posix::state`; `wake` is the count held by the eventfd. -/
structure Poller where
  wakeFd : Handle
  wake : Nat := 0
  fds : Std.ExtTreeMap Handle UInt16 := ∅

namespace Poller

def set (p : Poller) (fd : Handle) (mask : UInt16) : Poller :=
  { p with fds := p.fds.insert fd mask }

def setIfPresent (p : Poller) (fd : Handle) (mask : UInt16) : Poller :=
  if fd ∈ p.fds then { p with fds := p.fds.insert fd mask } else p

def erase (p : Poller) (fd : Handle) : Poller := { p with fds := p.fds.erase fd }

def poke (p : Poller) : Poller := { p with wake := p.wake + 1 }

/-- The argument of `::poll`: the eventfd first, then the map in key order. -/
def pollfds (p : Poller) : List PollFd :=
  { fd := p.wakeFd, events := POLLIN } :: p.fds.toList.map fun e => { fd := e.1, events := e.2 }

/-- The eventfd is read until it is empty if it was reported readable. -/
def drain (p : Poller) (pfds : List PollFd) : Poller :=
  match pfds with
  | [] => p
  | wake :: _ => if wake.revents &&& POLLIN != 0 then { p with wake := 0 } else p

end Poller

def toReady (re : UInt16) : Ready where
  readable := re &&& POLLIN != 0
  writable := re &&& POLLOUT != 0
  error := re &&& POLLERR != 0
  hangup := re &&& POLLHUP != 0

/-- The `int` milliseconds handed to `::poll`; without a timeout it waits forever. -/
def toPollTimeout : Option Int → Int
  | none => -1
  | some ms => (ms + 2 ^ 31) % 2 ^ 32 - 2 ^ 31

/-- The vector `::poll` leaves behind: the `revents` of the answer, in place. -/
def report (pfds : List PollFd) (revents : List UInt16) : List PollFd :=
  pfds.zipWith (fun p re => { p with revents := re }) revents

/-- The events pushed for the reported descriptors; index 0 is the eventfd. -/
def translate (pfds : List PollFd) : List Event :=
  (pfds.drop 1).filterMap fun p =>
    if p.revents = 0 then none else some { handle := p.fd, what := toReady p.revents }

theorem mem_translate {pfds : List PollFd} {ev : Event} :
    ev ∈ translate pfds ↔
      ∃ p ∈ pfds.drop 1, p.revents ≠ 0 ∧ ev.handle = p.fd ∧ ev.what = toReady p.revents := by
  simp only [translate, List.mem_filterMap]
  constructor
  · rintro ⟨p, hp, h⟩
    split at h
    · cases h
    · cases h
      exact ⟨p, hp, ‹_›, rfl, rfl⟩
  · rintro ⟨p, hp, hre, hh, hw⟩
    refine ⟨p, hp, ?_⟩
    rw [if_neg hre, ← hh, ← hw]

end CxNetworking.Core
