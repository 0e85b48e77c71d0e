import CxNetworking.Tcp.Socket

/-! `tcp::server`. Its methods and its callback run on the loop thread; as with the
sockets, each system call, each run of statements between two of them, and each emission
ends a turn. Accepted sockets go by a name (`κ`), under which they also register. -/
namespace CxNetworking.Tcp
open CxNetworking.Core

structure Server (κ : Type) where
  fd : Handle := invalidHandle
  bound : SocketAddress := { address := "" }
  conns : List κ := []
  deriving DecidableEq, Repr

namespace Server

inductive Emission (κ : Type) where
  | listening
  | connection (conn : κ)
  | error (f : Failure)
  | close
  deriving DecidableEq, Repr

inductive Call where
  | listen (port : UInt16) (host : String)
  | close
  deriving DecidableEq, Repr

inductive Note (κ : Type) where
  | emitted (e : Emission κ)
  | called (c : Call)
  deriving DecidableEq, Repr

/-- The descriptor that `listen` and `accept_ready` have in hand is a field of the frames
until it is stored. `listen` closes it when it returns early, behind the 'error' listeners. -/
inductive Frame where
  | user
  | listen (port : UInt16) (host : String)
  | openSocket (addr : SocketAddress)
  | bindTo (d : Handle) (addr : SocketAddress)
  | listenOn (d : Handle)
  | setNonblocking (d : Handle)
  | store (d : Handle)
  | close
  | accept
  | acceptNonblocking (d : Handle) (peer : SocketAddress)
  | adopt (d : Handle) (peer : SocketAddress)
  | dropLocal (d : Handle)
  deriving DecidableEq, Repr

variable {κ δ : Type}

abbrev Turn (κ δ : Type) := Core.Turn κ δ (Server κ) Frame (Note κ)

def emit (loop : EventLoop κ δ) (s : Server κ) (e : Emission κ) (rest : List Frame) : Turn κ δ :=
  { loop, obj := s, push := .user :: rest, notes := [.emitted e] }

def fail (loop : EventLoop κ δ) (s : Server κ) (f : Failure) (rest : List Frame) : Turn κ δ :=
  emit loop s (.error f) rest

/-- A step of `listen` that may fail: it goes on with `next`, or emits the error and drops
the descriptor. -/
def require (loop : EventLoop κ δ) (s : Server κ) (call : String) (e : Errc) (d : Handle) (next : Frame) : Turn κ δ :=
  if e = .success then { loop, obj := s, push := [next] } else fail loop s (.system call e) [.dropLocal d]

/-- The end of `listen`. Moving the new descriptor in closes the one held before,
without `unwatch`. -/
def store (self : κ) (loop : EventLoop κ δ) (s : Server κ) (d : Handle) (bound : SocketAddress) : Turn κ δ :=
  emit (loop.watch d .read self) { s with fd := d, bound } .listening []

def close (loop : EventLoop κ δ) (s : Server κ) : Turn κ δ :=
  if valid s.fd then emit (loop.unwatch s.fd) { s with fd := invalidHandle } .close [] else { loop, obj := s }

/-- One `accept` of `accept_ready`. -/
def accept (loop : EventLoop κ δ) (s : Server κ) : Kernel → Option (Turn κ δ)
  | .accepted d peer => if valid d then some { loop, obj := s, push := [.acceptNonblocking d peer] } else none
  | .failed e =>
    if e.wouldBlock then some { loop, obj := s }
    else if e = .interrupted then some { loop, obj := s, push := [.accept] }
    else some (fail loop s (.system "accept" e) [])
  | _ => none

/-- The accepted socket, named `conn`, begins to read and is kept among the connections. -/
def adopt (conn : κ) (loop : EventLoop κ δ) (s : Server κ) (d : Handle) : Turn κ δ :=
  emit (loop.watch d .read conn) { s with conns := s.conns ++ [conn] } (.connection conn) [.accept]

/-- The turn of a server at a frame; `conn` names the next socket that is made. -/
def exec (self conn : κ) (loop : EventLoop κ δ) (s : Server κ) : Frame → Kernel → Option (Turn κ δ)
  | .listen _ host, .resolved [] => some (fail loop s (.text ("EADDRNOTAVAIL: could not resolve " ++ host)) [])
  | .listen _ _, .resolved (addr :: _) => some { loop, obj := s, push := [.openSocket addr] }
  | .openSocket _, .failed e => some (fail loop s (.system "socket" e) [])
  | .openSocket addr, .opened d => if valid d then some { loop, obj := s, push := [.bindTo d addr] } else none
  | .bindTo d _, .status e => some (require loop s "bind" e d (.listenOn d))
  | .listenOn d, .status e => some (require loop s "listen" e d (.setNonblocking d))
  | .setNonblocking d, .status e => some (require loop s "listen" e d (.store d))
  | .store d, .endpoint bound => some (store self loop s d bound)
  | .close, .none => some (close loop s)
  | .accept, answer => if answer.Possible s.fd then accept loop s answer else none
  | .acceptNonblocking d peer, .status e =>
    some { loop, obj := s, push := if e = .success then [.adopt d peer] else [.accept] }
  | .adopt d _, .none => some (adopt conn loop s d)
  | .dropLocal _, .none => some { loop, obj := s }
  | _, _ => none

def accepted : Frame → Option Socket
  | .adopt d peer => some { state := .open, desc := d, peer }
  | _ => none

def drop [DecidableEq κ] (s : Server κ) (conn : κ) : Server κ := { s with conns := s.conns.filter (· ≠ conn) }

def Call.frames : Call → List Frame
  | .listen port host => [.listen port host]
  | .close => [.close]

inductive Executed (self conn : κ) (loop : EventLoop κ δ) (s : Server κ) : Frame → Kernel → Turn κ δ → Prop
  | unresolved {port host} : Executed self conn loop s (.listen port host) (.resolved [])
      (fail loop s (.text ("EADDRNOTAVAIL: could not resolve " ++ host)) [])
  | resolved {port host addr addrs} : Executed self conn loop s (.listen port host) (.resolved (addr :: addrs))
      { loop, obj := s, push := [.openSocket addr] }
  | notOpened {addr e} : Executed self conn loop s (.openSocket addr) (.failed e)
      (fail loop s (.system "socket" e) [])
  | opened {addr d} : valid d = true → Executed self conn loop s (.openSocket addr) (.opened d)
      { loop, obj := s, push := [.bindTo d addr] }
  | bindTo {d addr e} : Executed self conn loop s (.bindTo d addr) (.status e)
      (require loop s "bind" e d (.listenOn d))
  | listenOn {d e} : Executed self conn loop s (.listenOn d) (.status e)
      (require loop s "listen" e d (.setNonblocking d))
  | setNonblocking {d e} : Executed self conn loop s (.setNonblocking d) (.status e)
      (require loop s "listen" e d (.store d))
  | store {d bound} : Executed self conn loop s (.store d) (.endpoint bound) (store self loop s d bound)
  | close : Executed self conn loop s .close .none (close loop s)
  | accept {answer turn} : answer.Possible s.fd → accept loop s answer = some turn →
      Executed self conn loop s .accept answer turn
  | acceptNonblocking {d peer e} : Executed self conn loop s (.acceptNonblocking d peer) (.status e)
      { loop, obj := s, push := if e = .success then [.adopt d peer] else [.accept] }
  | adopt {d peer} : Executed self conn loop s (.adopt d peer) .none (adopt conn loop s d)
  | dropLocal {d} : Executed self conn loop s (.dropLocal d) .none { loop, obj := s }

theorem exec_spec {self conn : κ} {loop : EventLoop κ δ} {s : Server κ} {f : Frame} {answer : Kernel}
    {turn : Turn κ δ} (h : s.exec self conn loop f answer = some turn) : Executed self conn loop s f answer turn := by
  unfold exec at h
  split at h
  · cases h; exact .unresolved
  · cases h; exact .resolved
  · cases h; exact .notOpened
  · obtain ⟨hd, h⟩ := Option.ite_none_right_eq_some.mp h; cases h; exact .opened hd
  · cases h; exact .bindTo
  · cases h; exact .listenOn
  · cases h; exact .setNonblocking
  · cases h; exact .store
  · cases h; exact .close
  · obtain ⟨hp, h⟩ := Option.ite_none_right_eq_some.mp h; exact .accept hp h
  · cases h; exact .acceptNonblocking
  · cases h; exact .adopt
  · cases h; exact .dropLocal
  · cases h

theorem accept_cases {loop : EventLoop κ δ} {s : Server κ} {answer : Kernel} {turn : Turn κ δ}
    (h : accept loop s answer = some turn) :
    (∃ d peer, valid d = true ∧ turn = { loop, obj := s, push := [.acceptNonblocking d peer] }) ∨
    turn = { loop, obj := s } ∨ turn = { loop, obj := s, push := [.accept] } ∨
    ∃ e, turn = fail loop s (.system "accept" e) [] := by
  unfold accept at h
  split at h
  · next d peer =>
      obtain ⟨hd, h⟩ := Option.ite_none_right_eq_some.mp h
      exact .inl ⟨d, peer, hd, (Option.some.inj h).symm⟩
  · split at h
    · exact .inr (.inl (Option.some.inj h).symm)
    · split at h
      · exact .inr (.inr (.inl (Option.some.inj h).symm))
      · exact .inr (.inr (.inr ⟨_, (Option.some.inj h).symm⟩))
  · cases h

inductive Registration (self conn : κ) (loop : EventLoop κ δ) (s : Server κ) : Frame → Turn κ δ → Prop
  | kept {f turn} : accepted f = none → turn.obj = s → turn.loop = loop → Registration self conn loop s f turn
  | stored {d turn} : turn.obj.fd = d → turn.loop = loop.watch d .read self →
      Registration self conn loop s (.store d) turn
  | closed {turn} : turn.obj.fd = invalidHandle → turn.loop = loop.unwatch s.fd →
      Registration self conn loop s .close turn
  | adopted {d peer turn} : turn.obj.fd = s.fd → turn.loop = loop.watch d .read conn →
      Registration self conn loop s (.adopt d peer) turn

theorem executed_registration {self conn : κ} {loop : EventLoop κ δ} {s : Server κ} {f : Frame} {answer : Kernel}
    {turn : Turn κ δ} (h : Executed self conn loop s f answer turn) : Registration self conn loop s f turn := by
  cases h with
  | bindTo | listenOn | setNonblocking =>
      unfold require
      split <;> exact .kept rfl rfl rfl
  | accept _ h =>
      rcases accept_cases h with ⟨d, peer, -, rfl⟩ | rfl | rfl | ⟨e, rfl⟩ <;> exact .kept rfl rfl rfl
  | store => exact .stored rfl rfl
  | close =>
      unfold close
      split
      · exact .closed rfl rfl
      · exact .kept rfl rfl rfl
  | adopt => exact .adopted rfl rfl
  | unresolved | resolved | notOpened | opened | acceptNonblocking | dropLocal => exact .kept rfl rfl rfl

end Server
end CxNetworking.Tcp
