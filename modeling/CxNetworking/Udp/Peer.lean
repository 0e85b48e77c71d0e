import CxNetworking.Core.SocketOps

/-! `udp::peer`, cut into turns like the sockets. -/
namespace CxNetworking.Udp
open CxNetworking.Core

structure Peer where
  family : Domain := .inet
  fd : Handle := invalidHandle
  reading : Bool := false
  localAddress : SocketAddress := { address := "" }
  deriving DecidableEq, Repr

namespace Peer

inductive Emission where
  | listening
  | message (datagram : Bytes) (source : SocketAddress)
  | error (f : Failure)
  | close
  deriving DecidableEq, Repr

inductive Call where
  | bind (port : UInt16) (address : String)
  | send (datagram : Bytes) (port : UInt16) (host : String)
  | close
  deriving DecidableEq, Repr

inductive Note where
  | emitted (e : Emission)
  | called (c : Call)
  | bind (addr : SocketAddress)
  | sendTo (datagram : Bytes) (dest : SocketAddress)
  deriving DecidableEq, Repr

inductive Opening where
  | bind (addr : SocketAddress)
  | send (datagram : Bytes) (port : UInt16) (host : String)
  deriving DecidableEq, Repr

inductive Frame where
  | user
  | bind (port : UInt16) (address : String)
  | send (datagram : Bytes) (port : UInt16) (host : String)
  | openSocket (k : Opening)
  | setNonblocking (k : Opening)
  | closeFailed
  | bindTo (addr : SocketAddress)
  | resolve (datagram : Bytes) (port : UInt16) (host : String)
  | sendTo (datagram : Bytes) (dest : SocketAddress)
  | readBack (announce : Bool)
  | close
  | drain
  deriving DecidableEq, Repr

variable {κ δ : Type}

abbrev Turn (κ δ : Type) := Core.Turn κ δ Peer Frame Note

def emit (loop : EventLoop κ δ) (p : Peer) (e : Emission) (rest : List Frame) : Turn κ δ :=
  { loop, obj := p, push := .user :: rest, notes := [.emitted e] }

def fail (loop : EventLoop κ δ) (p : Peer) (f : Failure) (rest : List Frame) : Turn κ δ :=
  emit loop p (.error f) rest

/-- The turn makes a call that the history records. -/
def noting (n : Note) (turn : Turn κ δ) : Turn κ δ := { turn with notes := turn.notes ++ [n] }

def create (family : String) : Peer := { family := if family = "udp6" then .inet6 else .inet }

def bindAddress (p : Peer) (port : UInt16) (address : String) : SocketAddress where
  address := if p.family = .inet6 ∧ address = "0.0.0.0" then "::" else address
  port
  family := p.family.family

/-- What follows `open_socket`. -/
def Opening.next : Opening → Frame
  | .bind addr => .bindTo addr
  | .send datagram port host => .resolve datagram port host

/-- The start of `bind` and of `send`: a descriptor is opened unless there is one. -/
def opening (p : Peer) (k : Opening) : List Frame := if valid p.fd then [k.next] else [.openSocket k]

def beginReading (self : κ) (loop : EventLoop κ δ) (p : Peer) : EventLoop κ δ × Peer :=
  if p.reading then (loop, p) else (loop.watch p.fd .read self, { p with reading := true })

/-- `read_back_local` and `begin_reading`, the end of `bind` and of the first `send`. -/
def readBack (self : κ) (loop : EventLoop κ δ) (p : Peer) (addr : SocketAddress) (announce : Bool) : Turn κ δ :=
  let (loop, p) := beginReading self loop { p with localAddress := addr }
  if announce then emit loop p .listening [] else { loop, obj := p }

def close (loop : EventLoop κ δ) (p : Peer) : Turn κ δ :=
  if valid p.fd then emit (loop.unwatch p.fd) { p with fd := invalidHandle, reading := false } .close []
  else { loop, obj := p }

def sendTo (loop : EventLoop κ δ) (p : Peer) (datagram : Bytes) (dest : SocketAddress) : Kernel → Option (Turn κ δ)
  | .sent _ =>
    some (noting (.sendTo datagram dest) { loop, obj := p, push := if p.reading then [] else [.readBack false] })
  | .failed e => some (noting (.sendTo datagram dest) (fail loop p (.system "sendto" e) []))
  | _ => none

def drain (loop : EventLoop κ δ) (p : Peer) : Kernel → Option (Turn κ δ)
  | .received datagram source => some (emit loop p (.message datagram source) [.drain])
  | .failed e =>
    if e.wouldBlock then some { loop, obj := p }
    else if e = .interrupted then some { loop, obj := p, push := [.drain] }
    else some (fail loop p (.system "recvfrom" e) [])
  | _ => none

def exec (self : κ) (loop : EventLoop κ δ) (p : Peer) : Frame → Kernel → Option (Turn κ δ)
  | .bind port address, .none => some { loop, obj := p, push := p.opening (.bind (p.bindAddress port address)) }
  | .send datagram port host, .none => some { loop, obj := p, push := p.opening (.send datagram port host) }
  | .openSocket _, .failed e => some (fail loop p (.system "socket" e) [])
  | .openSocket k, .opened d =>
    if valid d then some { loop, obj := { p with fd := d }, push := [.setNonblocking k] } else none
  | .setNonblocking k, .status e =>
    some (if e = .success then { loop, obj := p, push := [k.next] }
      else fail loop p (.system "socket" e) [.closeFailed])
  | .closeFailed, .none => some { loop, obj := { p with fd := invalidHandle } }
  | .bindTo addr, .status e =>
    some (noting (.bind addr) (if e = .success then { loop, obj := p, push := [.readBack true] }
      else fail loop p (.system "bind" e) []))
  | .resolve _ _ host, .resolved [] => some (fail loop p (.text ("ENOTFOUND: " ++ host)) [])
  | .resolve datagram _ _, .resolved (dest :: _) => some { loop, obj := p, push := [.sendTo datagram dest] }
  | .sendTo datagram dest, answer => if answer.Possible p.fd then sendTo loop p datagram dest answer else none
  | .readBack announce, .endpoint addr => some (readBack self loop p addr announce)
  | .close, .none => some (close loop p)
  | .drain, answer => if answer.Possible p.fd then drain loop p answer else none
  | _, _ => none

def Call.frames : Call → List Frame
  | .bind port address => [.bind port address]
  | .send datagram port host => [.send datagram port host]
  | .close => [.close]

inductive Executed (self : κ) (loop : EventLoop κ δ) (p : Peer) : Frame → Kernel → Turn κ δ → Prop
  | bind {port address} : Executed self loop p (.bind port address) .none
      { loop, obj := p, push := p.opening (.bind (p.bindAddress port address)) }
  | send {datagram port host} : Executed self loop p (.send datagram port host) .none
      { loop, obj := p, push := p.opening (.send datagram port host) }
  | notOpened {k e} : Executed self loop p (.openSocket k) (.failed e) (fail loop p (.system "socket" e) [])
  | opened {k d} : valid d = true → Executed self loop p (.openSocket k) (.opened d)
      { loop, obj := { p with fd := d }, push := [.setNonblocking k] }
  | nonblocking {k} : Executed self loop p (.setNonblocking k) (.status .success) { loop, obj := p, push := [k.next] }
  | blocking {k e} : e ≠ .success → Executed self loop p (.setNonblocking k) (.status e)
      (fail loop p (.system "socket" e) [.closeFailed])
  | closeFailed : Executed self loop p .closeFailed .none { loop, obj := { p with fd := invalidHandle } }
  | bound {addr} : Executed self loop p (.bindTo addr) (.status .success)
      (noting (.bind addr) { loop, obj := p, push := [.readBack true] })
  | notBound {addr e} : e ≠ .success → Executed self loop p (.bindTo addr) (.status e)
      (noting (.bind addr) (fail loop p (.system "bind" e) []))
  | unresolved {datagram port host} : Executed self loop p (.resolve datagram port host) (.resolved [])
      (fail loop p (.text ("ENOTFOUND: " ++ host)) [])
  | resolved {datagram port host dest addrs} : Executed self loop p (.resolve datagram port host)
      (.resolved (dest :: addrs)) { loop, obj := p, push := [.sendTo datagram dest] }
  | sendTo {datagram dest answer turn} : answer.Possible p.fd → sendTo loop p datagram dest answer = some turn →
      Executed self loop p (.sendTo datagram dest) answer turn
  | readBack {announce addr} : Executed self loop p (.readBack announce) (.endpoint addr)
      (readBack self loop p addr announce)
  | close : Executed self loop p .close .none (close loop p)
  | drain {answer turn} : answer.Possible p.fd → drain loop p answer = some turn →
      Executed self loop p .drain answer turn

theorem exec_spec {self : κ} {loop : EventLoop κ δ} {p : Peer} {f : Frame} {answer : Kernel} {turn : Turn κ δ}
    (h : p.exec self loop f answer = some turn) : Executed self loop p f answer turn := by
  unfold exec at h
  split at h
  · cases h; exact .bind
  · cases h; exact .send
  · cases h; exact .notOpened
  · obtain ⟨hd, h⟩ := Option.ite_none_right_eq_some.mp h; cases h; exact .opened hd
  · cases h
    split
    · next he => exact he ▸ .nonblocking
    · next he => exact .blocking he
  · cases h; exact .closeFailed
  · cases h
    split
    · next he => exact he ▸ .bound
    · next he => exact .notBound he
  · cases h; exact .unresolved
  · cases h; exact .resolved
  · obtain ⟨hp, h⟩ := Option.ite_none_right_eq_some.mp h; exact .sendTo hp h
  · cases h; exact .readBack
  · cases h; exact .close
  · obtain ⟨hp, h⟩ := Option.ite_none_right_eq_some.mp h; exact .drain hp h
  · cases h

theorem sendTo_cases {loop : EventLoop κ δ} {p : Peer} {datagram : Bytes} {dest : SocketAddress} {answer : Kernel}
    {turn : Turn κ δ} (h : sendTo loop p datagram dest answer = some turn) :
    turn = noting (.sendTo datagram dest) { loop, obj := p, push := if p.reading then [] else [.readBack false] } ∨
    ∃ e, turn = noting (.sendTo datagram dest) (fail loop p (.system "sendto" e) []) := by
  unfold sendTo at h
  split at h
  · exact .inl (Option.some.inj h).symm
  · exact .inr ⟨_, (Option.some.inj h).symm⟩
  · cases h

theorem drain_cases {loop : EventLoop κ δ} {p : Peer} {answer : Kernel} {turn : Turn κ δ}
    (h : drain loop p answer = some turn) :
    (∃ datagram source, turn = emit loop p (.message datagram source) [.drain]) ∨
    turn = { loop, obj := p } ∨ turn = { loop, obj := p, push := [.drain] } ∨
    ∃ e, turn = fail loop p (.system "recvfrom" e) [] := by
  unfold drain at h
  split at h
  · exact .inl ⟨_, _, (Option.some.inj h).symm⟩
  · split at h
    · exact .inr (.inl (Option.some.inj h).symm)
    · split at h
      · exact .inr (.inr (.inl (Option.some.inj h).symm))
      · exact .inr (.inr (.inr ⟨_, (Option.some.inj h).symm⟩))
  · cases h

theorem readBack_cases (self : κ) (loop : EventLoop κ δ) (p : Peer) (addr : SocketAddress) (announce : Bool) :
    ∃ push notes, (push = [] ∨ push = [.user]) ∧
      (p.reading = true ∧
        readBack self loop p addr announce = { loop, obj := { p with localAddress := addr }, push, notes } ∨
      p.reading = false ∧ readBack self loop p addr announce =
        { loop := loop.watch p.fd .read self, obj := { p with localAddress := addr, reading := true }, push
          notes }) := by
  cases hr : p.reading <;> cases announce <;> simp [readBack, beginReading, hr, emit]

inductive Registration (self : κ) (loop : EventLoop κ δ) (p : Peer) : Frame → Turn κ δ → Prop
  | kept {f turn} : turn.obj.fd = p.fd → turn.obj.reading = p.reading → turn.loop = loop →
      Registration self loop p f turn
  | opened {k d turn} : turn.obj.fd = d → turn.obj.reading = p.reading → turn.loop = loop →
      Registration self loop p (.openSocket k) turn
  | failed {turn} : turn.obj.fd = invalidHandle → turn.obj.reading = p.reading → turn.loop = loop →
      Registration self loop p .closeFailed turn
  | reading {announce turn} : p.reading = false → turn.obj.fd = p.fd → turn.obj.reading = true →
      turn.loop = loop.watch p.fd .read self → Registration self loop p (.readBack announce) turn
  | closed {turn} : turn.obj.fd = invalidHandle → turn.loop = loop.unwatch p.fd → Registration self loop p .close turn

theorem executed_registration {self : κ} {loop : EventLoop κ δ} {p : Peer} {f : Frame} {answer : Kernel}
    {turn : Turn κ δ} (h : Executed self loop p f answer turn) : Registration self loop p f turn := by
  cases h with
  | opened => exact .opened rfl rfl rfl
  | closeFailed => exact .failed rfl rfl rfl
  | sendTo _ h => rcases sendTo_cases h with rfl | ⟨e, rfl⟩ <;> exact .kept rfl rfl rfl
  | drain _ h => rcases drain_cases h with ⟨datagram, source, rfl⟩ | rfl | rfl | ⟨e, rfl⟩ <;> exact .kept rfl rfl rfl
  | @readBack announce addr =>
      rcases readBack_cases self loop p addr announce with ⟨push, notes, -, ⟨-, heq⟩ | ⟨hr, heq⟩⟩ <;> rw [heq]
      · exact .kept rfl rfl rfl
      · exact .reading hr rfl rfl rfl
  | close =>
      unfold close
      split
      · exact .closed rfl rfl
      · exact .kept rfl rfl rfl
  | bind | send | notOpened | nonblocking | blocking | bound | notBound | unresolved | resolved =>
      exact .kept rfl rfl rfl

end Peer
end CxNetworking.Udp
