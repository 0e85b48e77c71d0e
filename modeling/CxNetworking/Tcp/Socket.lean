import CxNetworking.Core.EventLoop
import CxNetworking.Core.SocketOps
import Mathlib.Logic.Function.Basic

/-! `tcp::socket`, cut into atomic turns. A turn is one section under the socket's mutex,
one system call or one call of the event loop, together with the emission that follows
it, if any. Between two turns other threads may run, and an emission hands control to
user code. What a method still has to do is kept as a list of frames. `pump` and
`raise` are the two frames that hold the mutex from the turn before. -/
namespace CxNetworking.Tcp
open CxNetworking.Core

inductive State where
  | idle
  | connecting
  | «open»
  | closed
  deriving DecidableEq, Repr

/-- The members of a socket; `mutex` is the thread that holds `mutex_`. -/
structure Socket where
  state : State := .idle
  desc : Handle := invalidHandle
  peer : SocketAddress := { address := "" }
  outbuf : Bytes := []
  outOffset : Nat := 0
  ended : Bool := false
  mutex : Option Nat := none
  deriving DecidableEq, Repr

inductive Emission where
  | connect
  | data (chunk : Bytes)
  | drain
  | «end»
  | error (f : Failure)
  | close
  deriving DecidableEq, Repr

inductive Call where
  | connect
  | write (chunk : Bytes)
  | «end»
  | destroy
  deriving DecidableEq, Repr

/-- What the history records, newest first in the log. -/
inductive Note where
  | emitted (e : Emission)
  | called (c : Call)
  | queued (chunk : Bytes)
  | took (bytes : Bytes)
  | shutdown (h : Handle)
  deriving DecidableEq, Repr

/-- Who called `pump_output`: `write`, or `on_io` with the readiness it was given. -/
inductive Caller where
  | write
  | onIo (r : Ready)
  deriving DecidableEq, Repr

inductive Frame where
  | user
  | write (chunk : Bytes)
  | pump (k : Caller)
  | relock (k : Caller)
  | raise
  | «end»
  | onIo (r : Ready)
  | pendingError
  | setOpen
  | lowerConnected
  | afterConnect
  | pumpOutput (r : Ready)
  | lowerDrained (r : Ready)
  | afterDrain (r : Ready)
  | recv
  | closeBegin
  | closeUnwatch
  | closeDesc
  | openSocket (addr : SocketAddress)
  | setNonblocking (d : Handle) (addr : SocketAddress)
  | connectTo (d : Handle) (addr : SocketAddress)
  | storeConnect (d : Handle) (addr : SocketAddress)
  | watchConnect
  | dropLocal (d : Handle)
  deriving DecidableEq, Repr

abbrev Turn (κ δ : Type) := Core.Turn κ δ Socket Frame Note

namespace Socket

variable {κ δ : Type}

def backlog (s : Socket) : Bool := s.outOffset < s.outbuf.length

/-- An event is emitted: its listeners are user code, and `rest` follows. -/
def emit (loop : EventLoop κ δ) (s : Socket) (e : Emission) (rest : List Frame) : Turn κ δ :=
  { loop, obj := s, push := .user :: rest, notes := [.emitted e] }

/-- `fail` emits the error and then goes into `close_with`. -/
def fail (loop : EventLoop κ δ) (s : Socket) (f : Failure) (rest : List Frame) : Turn κ δ :=
  emit loop s (.error f) (.closeBegin :: rest)

/-- The end of `on_io`. -/
def readHalf (r : Ready) : List Frame := if r.readable || r.hangup then [.recv] else []

/-- What follows `pump_output` under the same lock. `write` keeps the lock to raise the
interest, `on_io` takes its decision and unlocks. -/
def afterPump (t : Nat) (loop : EventLoop κ δ) (s : Socket) (notes : List Note) : Caller → Turn κ δ
  | .write =>
    if s.backlog then { loop, obj := { s with mutex := some t }, push := [.raise], notes }
    else { loop, obj := { s with mutex := none }, notes }
  | .onIo r =>
    { loop, obj := { s with mutex := none }, push := if s.backlog then readHalf r else [.lowerDrained r], notes }

/-- The loop of `pump_output`, up to its next `send`; the emptied buffer is cleared. -/
def pumpOutput (t : Nat) (loop : EventLoop κ δ) (s : Socket) (notes : List Note) (k : Caller) : Turn κ δ :=
  if s.backlog then { loop, obj := { s with mutex := some t }, push := [.pump k], notes }
  else afterPump t loop { s with outbuf := [], outOffset := 0 } notes k

/-- The part of `write` under the lock. -/
def write (t : Nat) (loop : EventLoop κ δ) (s : Socket) (chunk : Bytes) : Turn κ δ :=
  if s.state ≠ .open then fail loop s (.text "ERR_STREAM_WRITE_AFTER_END: socket is not open") []
  else if s.backlog then afterPump t loop { s with outbuf := s.outbuf ++ chunk } [.queued chunk] .write
  else pumpOutput t loop { s with outbuf := s.outbuf ++ chunk } [.queued chunk] .write

/-- One `send` of `pump_output` and what follows it. -/
def pump (t : Nat) (loop : EventLoop κ δ) (s : Socket) (k : Caller) : Kernel → Option (Turn κ δ)
  | .sent n =>
    if n ≤ s.outbuf.length - s.outOffset then
      if 0 < n then
        some (pumpOutput t loop { s with outOffset := s.outOffset + n }
          [.took ((s.outbuf.drop s.outOffset).take n)] k)
      else some (fail loop { s with mutex := none } (.system "send" .success) [.relock k])
    else none
  | .failed e =>
    if e.wouldBlock then some (afterPump t loop s [] k)
    else if e = .interrupted then some { loop, obj := s, push := [.pump k] }
    else some (fail loop { s with mutex := none } (.system "send" e) [.relock k])
  | _ => none

def recv (loop : EventLoop κ δ) (s : Socket) : Kernel → Option (Turn κ δ)
  | .got [] => some (emit loop s .end [.closeBegin])
  | .got chunk => some (emit loop s (.data chunk) [.recv])
  | .failed e =>
    if e.wouldBlock then some { loop, obj := s }
    else if e = .interrupted then some { loop, obj := s, push := [.recv] }
    else some (fail loop s (.system "recv" e) [])
  | _ => none

/-- `on_io` reads the state once, at its start. -/
def onIo (s : Socket) (r : Ready) : List Frame :=
  match s.state with
  | .connecting => [.pendingError]
  | .open => if r.writable then [.pumpOutput r] else readHalf r
  | .idle | .closed => []

/-- The first section of `close_with`. -/
def closeBegin (loop : EventLoop κ δ) (s : Socket) : Turn κ δ :=
  { loop, obj := { s with state := .closed }
    push := if s.state ≠ .closed ∧ valid s.desc then [.closeUnwatch] else [] }

/-- A turn that takes the mutex waits until it is free. -/
def locked (s : Socket) (turn : Turn κ δ) : Option (Turn κ δ) := if s.mutex = none then some turn else none

def setOpen (loop : EventLoop κ δ) (s : Socket) : Turn κ δ :=
  { loop, obj := { s with state := .open }, push := [.lowerConnected] }

def afterConnect (t : Nat) (loop : EventLoop κ δ) (s : Socket) : Turn κ δ :=
  if s.backlog then { loop, obj := { s with mutex := some t }, push := [.raise] } else { loop, obj := s }

def afterDrain (loop : EventLoop κ δ) (s : Socket) (r : Ready) : Turn κ δ :=
  { loop, obj := s, push := readHalf r, notes := if s.ended then [.shutdown s.desc] else [] }

/-- `end`. -/
def halfClose (loop : EventLoop κ δ) (s : Socket) : Turn κ δ :=
  { loop, obj := { s with ended := true }
    notes := if s.state = .open ∧ s.backlog = false then [.shutdown s.desc] else [] }

/-- Moving the new descriptor in closes the one held before, without `unwatch`. -/
def storeConnect (loop : EventLoop κ δ) (s : Socket) (d : Handle) (addr : SocketAddress) : Turn κ δ :=
  { loop, obj := { s with desc := d, state := .connecting, peer := addr }, push := [.watchConnect] }

/-- The turn of thread `t` at a frame, given the answer of the system call it makes.
`self` stands for the callback the socket registers, `on_io` on a weak pointer. -/
def exec (self : κ) (t : Nat) (loop : EventLoop κ δ) (s : Socket) : Frame → Kernel → Option (Turn κ δ)
  | .write chunk, .none => s.locked (write t loop s chunk)
  | .pump k, answer => if answer.Possible s.desc then pump t loop s k answer else none
  | .relock k, .none => s.locked (afterPump t loop s [] k)
  | .raise, .none => some { loop := loop.modify s.desc (.read ||| .write), obj := { s with mutex := none } }
  | .end, .none => s.locked (halfClose loop s)
  | .onIo r, .none => s.locked { loop, obj := s, push := s.onIo r }
  | .pendingError, .status e =>
    some (if e = .success then { loop, obj := s, push := [.setOpen] } else fail loop s (.system "connect" e) [])
  | .setOpen, .none => s.locked (setOpen loop s)
  | .lowerConnected, .none => some (emit (loop.modify s.desc .read) s .connect [.afterConnect])
  | .afterConnect, .none => s.locked (afterConnect t loop s)
  | .pumpOutput r, .none => s.locked (pumpOutput t loop s [] (.onIo r))
  | .lowerDrained r, .none => some (emit (loop.modify s.desc .read) s .drain [.afterDrain r])
  | .afterDrain r, .none => s.locked (afterDrain loop s r)
  | .recv, answer => if answer.Possible s.desc then recv loop s answer else none
  | .closeBegin, .none => s.locked (closeBegin loop s)
  | .closeUnwatch, .none => some { loop := loop.unwatch s.desc, obj := s, push := [.closeDesc] }
  | .closeDesc, .none => s.locked (emit loop { s with desc := invalidHandle } .close [])
  | .openSocket _, .failed e => some (fail loop s (.system "socket" e) [])
  | .openSocket addr, .opened d =>
    if valid d then some { loop, obj := s, push := [.setNonblocking d addr] } else none
  | .setNonblocking d addr, .status e =>
    some (if e = .success then { loop, obj := s, push := [.connectTo d addr] }
      else fail loop s (.system "socket" e) [.dropLocal d])
  | .connectTo d addr, .status e =>
    some (if e = .success ∨ e = .inProgress then { loop, obj := s, push := [.storeConnect d addr] }
      else fail loop s (.system "connect" e) [.dropLocal d])
  | .storeConnect d addr, .none => s.locked (storeConnect loop s d addr)
  | .watchConnect, .none => some { loop := loop.watch s.desc .write self, obj := s }
  | .dropLocal _, .none => some { loop, obj := s }
  | _, _ => none

theorem readHalf_eq (r : Ready) : readHalf r = [.recv] ∨ readHalf r = [] := by
  unfold readHalf
  split <;> simp

@[simp] theorem backlog_mk (s : Socket) (state : State) (desc : Handle) (peer : SocketAddress) (ended : Bool)
    (mutex : Option Nat) : (mk state desc peer s.outbuf s.outOffset ended mutex).backlog = s.backlog := rfl

theorem backlog_of_took {s : Socket} {n : Nat} (h : { s with outOffset := s.outOffset + n }.backlog = true) :
    s.backlog = true := by
  simp only [Socket.backlog, decide_eq_true_eq] at h ⊢
  omega

/-! What the functions called under the lock return, case by case. -/
section Spec

variable {t : Nat} {loop : EventLoop κ δ} {s : Socket} {k : Caller}

theorem afterPump_cases (t : Nat) (loop : EventLoop κ δ) (s : Socket) (k : Caller) (notes : List Note) :
    (k = .write ∧ s.backlog = true ∧
      afterPump t loop s notes k = { loop, obj := { s with mutex := some t }, push := [.raise], notes }) ∨
    (k = .write ∧ s.backlog = false ∧ afterPump t loop s notes k = { loop, obj := { s with mutex := none }, notes }) ∨
    (∃ r, k = .onIo r ∧ s.backlog = true ∧
      afterPump t loop s notes k = { loop, obj := { s with mutex := none }, push := readHalf r, notes }) ∨
    (∃ r, k = .onIo r ∧ s.backlog = false ∧
      afterPump t loop s notes k = { loop, obj := { s with mutex := none }, push := [.lowerDrained r], notes }) := by
  cases hb : s.backlog <;> cases k <;> simp [afterPump, hb]

theorem pumpOutput_cases (t : Nat) (loop : EventLoop κ δ) (s : Socket) (k : Caller) (notes : List Note) :
    (s.backlog = true ∧
      pumpOutput t loop s notes k = { loop, obj := { s with mutex := some t }, push := [.pump k], notes }) ∨
    (s.backlog = false ∧ ∃ push, pumpOutput t loop s notes k =
        { loop, obj := { s with outbuf := [], outOffset := 0, mutex := none }, push, notes } ∧
      ((k = .write ∧ push = []) ∨ ∃ r, k = .onIo r ∧ push = [.lowerDrained r])) := by
  cases hb : s.backlog with
  | true => exact .inl ⟨rfl, by simp [pumpOutput, hb]⟩
  | false =>
      have hclear : { s with outbuf := [], outOffset := 0 }.backlog = false := rfl
      cases k <;> simp [pumpOutput, hb, afterPump, hclear]

theorem afterPump_notes (notes : List Note) : (afterPump t loop s notes k).notes = notes := by
  rcases afterPump_cases t loop s k notes with
    ⟨-, -, heq⟩ | ⟨-, -, heq⟩ | ⟨r, -, -, heq⟩ | ⟨r, -, -, heq⟩ <;> rw [heq]

theorem pumpOutput_notes (notes : List Note) : (pumpOutput t loop s notes k).notes = notes := by
  rcases pumpOutput_cases t loop s k notes with ⟨-, heq⟩ | ⟨-, push, heq, -⟩ <;> rw [heq]

theorem write_cases (t : Nat) (loop : EventLoop κ δ) (s : Socket) (chunk : Bytes) :
    (s.state ≠ .open ∧
      write t loop s chunk = fail loop s (.text "ERR_STREAM_WRITE_AFTER_END: socket is not open") []) ∨
    (s.state = .open ∧ s.backlog = true ∧ write t loop s chunk =
      { loop, obj := { s with outbuf := s.outbuf ++ chunk, mutex := some t }, push := [.raise]
        notes := [.queued chunk] }) ∨
    (s.state = .open ∧ s.backlog = false ∧
      write t loop s chunk = pumpOutput t loop { s with outbuf := s.outbuf ++ chunk } [.queued chunk] .write) := by
  unfold write
  split
  · exact .inl ⟨‹_›, rfl⟩
  · next ho =>
      have ho : s.state = .open := not_not.mp ho
      split
      · next hb =>
          have hb' : { s with outbuf := s.outbuf ++ chunk }.backlog = true := by
            simp only [backlog, decide_eq_true_eq, List.length_append] at hb ⊢
            omega
          exact .inr (.inl ⟨ho, hb, by simp [afterPump, hb']⟩)
      · next hb => exact .inr (.inr ⟨ho, by simpa using hb, rfl⟩)

theorem pump_cases {answer : Kernel} {turn : Turn κ δ} (h : pump t loop s k answer = some turn) :
    (∃ n, 0 < n ∧ n ≤ s.outbuf.length - s.outOffset ∧ turn = pumpOutput t loop { s with outOffset := s.outOffset + n }
      [.took ((s.outbuf.drop s.outOffset).take n)] k) ∨
    turn = afterPump t loop s [] k ∨ turn = { loop, obj := s, push := [.pump k] } ∨
    ∃ f, turn = fail loop { s with mutex := none } f [.relock k] := by
  cases answer with
  | sent n =>
      obtain ⟨hn, h⟩ := Option.ite_none_right_eq_some.mp h
      split at h
      · exact .inl ⟨n, ‹_›, hn, (Option.some.inj h).symm⟩
      · exact .inr (.inr (.inr ⟨_, (Option.some.inj h).symm⟩))
  | failed e =>
      simp only [pump] at h
      split at h
      · exact .inr (.inl (Option.some.inj h).symm)
      · split at h
        · exact .inr (.inr (.inl (Option.some.inj h).symm))
        · exact .inr (.inr (.inr ⟨_, (Option.some.inj h).symm⟩))
  | none | got | status | opened | accepted | received | resolved | endpoint => cases h

theorem recv_cases {answer : Kernel} {turn : Turn κ δ} (h : recv loop s answer = some turn) :
    turn = emit loop s .end [.closeBegin] ∨ (∃ chunk, turn = emit loop s (.data chunk) [.recv]) ∨
    turn = { loop, obj := s } ∨ turn = { loop, obj := s, push := [.recv] } ∨
    ∃ e, turn = fail loop s (.system "recv" e) [] := by
  unfold recv at h
  split at h
  · exact .inl (Option.some.inj h).symm
  · exact .inr (.inl ⟨_, (Option.some.inj h).symm⟩)
  · split at h
    · exact .inr (.inr (.inl (Option.some.inj h).symm))
    · split at h
      · exact .inr (.inr (.inr (.inl (Option.some.inj h).symm)))
      · exact .inr (.inr (.inr (.inr ⟨_, (Option.some.inj h).symm⟩)))
  · cases h

end Spec

/-- The turns there are, one constructor for each frame and outcome. -/
inductive Executed (self : κ) (t : Nat) (loop : EventLoop κ δ) (s : Socket) : Frame → Kernel → Turn κ δ → Prop
  | write {chunk} : s.mutex = none → Executed self t loop s (.write chunk) .none (write t loop s chunk)
  | pump {k answer turn} : answer.Possible s.desc → pump t loop s k answer = some turn →
      Executed self t loop s (.pump k) answer turn
  | relock {k} : s.mutex = none → Executed self t loop s (.relock k) .none (afterPump t loop s [] k)
  | raise : Executed self t loop s .raise .none
      { loop := loop.modify s.desc (.read ||| .write), obj := { s with mutex := none } }
  | halfClose : s.mutex = none → Executed self t loop s .end .none (halfClose loop s)
  | onIo {r} : s.mutex = none → Executed self t loop s (.onIo r) .none { loop, obj := s, push := s.onIo r }
  | connected : Executed self t loop s .pendingError (.status .success) { loop, obj := s, push := [.setOpen] }
  | refused {e} : e ≠ .success →
      Executed self t loop s .pendingError (.status e) (fail loop s (.system "connect" e) [])
  | setOpen : s.mutex = none → Executed self t loop s .setOpen .none (setOpen loop s)
  | lowerConnected : Executed self t loop s .lowerConnected .none
      (emit (loop.modify s.desc .read) s .connect [.afterConnect])
  | afterConnect : s.mutex = none → Executed self t loop s .afterConnect .none (afterConnect t loop s)
  | pumpOutput {r} : s.mutex = none →
      Executed self t loop s (.pumpOutput r) .none (pumpOutput t loop s [] (.onIo r))
  | lowerDrained {r} : Executed self t loop s (.lowerDrained r) .none
      (emit (loop.modify s.desc .read) s .drain [.afterDrain r])
  | afterDrain {r} : s.mutex = none → Executed self t loop s (.afterDrain r) .none (afterDrain loop s r)
  | recv {answer turn} : answer.Possible s.desc → recv loop s answer = some turn →
      Executed self t loop s .recv answer turn
  | closeBegin : s.mutex = none → Executed self t loop s .closeBegin .none (closeBegin loop s)
  | closeUnwatch : Executed self t loop s .closeUnwatch .none
      { loop := loop.unwatch s.desc, obj := s, push := [.closeDesc] }
  | closeDesc : s.mutex = none → Executed self t loop s .closeDesc .none
      (emit loop { s with desc := invalidHandle } .close [])
  | notOpened {addr e} : Executed self t loop s (.openSocket addr) (.failed e) (fail loop s (.system "socket" e) [])
  | opened {addr d} : valid d = true → Executed self t loop s (.openSocket addr) (.opened d)
      { loop, obj := s, push := [.setNonblocking d addr] }
  | nonblocking {d addr} : Executed self t loop s (.setNonblocking d addr) (.status .success)
      { loop, obj := s, push := [.connectTo d addr] }
  | blocking {d addr e} : e ≠ .success → Executed self t loop s (.setNonblocking d addr) (.status e)
      (fail loop s (.system "socket" e) [.dropLocal d])
  | connecting {d addr e} : e = .success ∨ e = .inProgress → Executed self t loop s (.connectTo d addr) (.status e)
      { loop, obj := s, push := [.storeConnect d addr] }
  | unreachable {d addr e} : ¬ (e = .success ∨ e = .inProgress) →
      Executed self t loop s (.connectTo d addr) (.status e) (fail loop s (.system "connect" e) [.dropLocal d])
  | storeConnect {d addr} : s.mutex = none →
      Executed self t loop s (.storeConnect d addr) .none (storeConnect loop s d addr)
  | watchConnect : Executed self t loop s .watchConnect .none { loop := loop.watch s.desc .write self, obj := s }
  | dropLocal {d} : Executed self t loop s (.dropLocal d) .none { loop, obj := s }

theorem locked_eq_some {s : Socket} {turn turn' : Turn κ δ} (h : s.locked turn = some turn') :
    s.mutex = none ∧ turn' = turn := by
  simp only [locked, Option.ite_none_right_eq_some, Option.some.injEq] at h
  exact ⟨h.1, h.2.symm⟩

theorem exec_spec {self : κ} {t : Nat} {loop : EventLoop κ δ} {s : Socket} {f : Frame} {k : Kernel}
    {turn : Turn κ δ} (h : s.exec self t loop f k = some turn) : Executed self t loop s f k turn := by
  unfold exec at h
  split at h
  · obtain ⟨hm, rfl⟩ := locked_eq_some h; exact .write hm
  · obtain ⟨hp, h⟩ := Option.ite_none_right_eq_some.mp h; exact .pump hp h
  · obtain ⟨hm, rfl⟩ := locked_eq_some h; exact .relock hm
  · cases h; exact .raise
  · obtain ⟨hm, rfl⟩ := locked_eq_some h; exact .halfClose hm
  · obtain ⟨hm, rfl⟩ := locked_eq_some h; exact .onIo hm
  · cases h
    split
    · next he => exact he ▸ .connected
    · next he => exact .refused he
  · obtain ⟨hm, rfl⟩ := locked_eq_some h; exact .setOpen hm
  · cases h; exact .lowerConnected
  · obtain ⟨hm, rfl⟩ := locked_eq_some h; exact .afterConnect hm
  · obtain ⟨hm, rfl⟩ := locked_eq_some h; exact .pumpOutput hm
  · cases h; exact .lowerDrained
  · obtain ⟨hm, rfl⟩ := locked_eq_some h; exact .afterDrain hm
  · obtain ⟨hp, h⟩ := Option.ite_none_right_eq_some.mp h; exact .recv hp h
  · obtain ⟨hm, rfl⟩ := locked_eq_some h; exact .closeBegin hm
  · cases h; exact .closeUnwatch
  · obtain ⟨hm, rfl⟩ := locked_eq_some h; exact .closeDesc hm
  · cases h; exact .notOpened
  · obtain ⟨hd, h⟩ := Option.ite_none_right_eq_some.mp h; cases h; exact .opened hd
  · cases h
    split
    · next he => exact he ▸ .nonblocking
    · next he => exact .blocking he
  · cases h
    split
    · next he => exact .connecting he
    · next he => exact .unreachable he
  · obtain ⟨hm, rfl⟩ := locked_eq_some h; exact .storeConnect hm
  · cases h; exact .watchConnect
  · cases h; exact .dropLocal
  · cases h

/-- What a turn does to the descriptor and to the watch table. -/
inductive Registration (self : κ) (loop : EventLoop κ δ) (s : Socket) : Frame → Turn κ δ → Prop
  | kept {f turn} : turn.obj.desc = s.desc → turn.loop = loop → Registration self loop s f turn
  | raised {turn} : turn.obj.desc = s.desc → turn.loop = loop.modify s.desc (.read ||| .write) →
      Registration self loop s .raise turn
  | lowered {f turn} : (f = .lowerConnected ∨ ∃ r, f = .lowerDrained r) → turn.obj.desc = s.desc →
      turn.loop = loop.modify s.desc .read → Registration self loop s f turn
  | unwatched {turn} : turn.obj = s → turn.loop = loop.unwatch s.desc → Registration self loop s .closeUnwatch turn
  | closed {turn} : turn.obj = { s with desc := invalidHandle } → turn.loop = loop →
      Registration self loop s .closeDesc turn
  | stored {d addr turn} : turn.obj = { s with desc := d, state := .connecting, peer := addr } → turn.loop = loop →
      turn.push = [.watchConnect] → Registration self loop s (.storeConnect d addr) turn
  | watched {turn} : turn.obj = s → turn.loop = loop.watch s.desc .write self →
      Registration self loop s .watchConnect turn

theorem afterPump_kept {self : κ} {t : Nat} {loop : EventLoop κ δ} {s : Socket} {f : Frame} {notes : List Note}
    {k : Caller} : Registration self loop s f (afterPump t loop s notes k) := by
  rcases afterPump_cases t loop s k notes with
    ⟨-, -, heq⟩ | ⟨-, -, heq⟩ | ⟨r, -, -, heq⟩ | ⟨r, -, -, heq⟩ <;> rw [heq] <;> exact .kept rfl rfl

theorem pumpOutput_kept {self : κ} {t : Nat} {loop : EventLoop κ δ} {s s' : Socket} {f : Frame} {notes : List Note}
    {k : Caller} (hdesc : s'.desc = s.desc) : Registration self loop s f (pumpOutput t loop s' notes k) := by
  rcases pumpOutput_cases t loop s' k notes with ⟨-, heq⟩ | ⟨-, push, heq, -⟩ <;> rw [heq] <;> exact .kept hdesc rfl

theorem executed_registration {self : κ} {t : Nat} {loop : EventLoop κ δ} {s : Socket} {f : Frame} {answer : Kernel}
    {turn : Turn κ δ} (h : Executed self t loop s f answer turn) : Registration self loop s f turn := by
  cases h with
  | @write chunk =>
      rcases write_cases t loop s chunk with ⟨-, heq⟩ | ⟨-, -, heq⟩ | ⟨-, -, heq⟩ <;> rw [heq]
      · exact .kept rfl rfl
      · exact .kept rfl rfl
      · exact pumpOutput_kept rfl
  | pump _ h =>
      rcases pump_cases h with ⟨n, -, -, rfl⟩ | rfl | rfl | ⟨e, rfl⟩
      · exact pumpOutput_kept rfl
      · exact afterPump_kept
      · exact .kept rfl rfl
      · exact .kept rfl rfl
  | relock => exact afterPump_kept
  | pumpOutput => exact pumpOutput_kept rfl
  | recv _ h => rcases recv_cases h with rfl | ⟨chunk, rfl⟩ | rfl | rfl | ⟨e, rfl⟩ <;> exact .kept rfl rfl
  | afterConnect =>
      unfold afterConnect
      split <;> exact .kept rfl rfl
  | raise => exact .raised rfl rfl
  | lowerConnected => exact .lowered (.inl rfl) rfl rfl
  | lowerDrained => exact .lowered (.inr ⟨_, rfl⟩) rfl rfl
  | closeUnwatch => exact .unwatched rfl rfl
  | closeDesc => exact .closed rfl rfl
  | storeConnect => exact .stored rfl rfl rfl
  | watchConnect => exact .watched rfl rfl
  | halfClose | onIo | afterDrain | closeBegin | refused | notOpened | blocking | unreachable | connected | setOpen
    | opened | nonblocking | connecting | dropLocal => exact .kept rfl rfl

end Socket

/-- The frames a call of the user starts with; `connect` goes to the thread pool. -/
def Call.frames : Call → List Frame
  | .connect => []
  | .write chunk => [.write chunk]
  | .end => [.end]
  | .destroy => [.closeBegin]

/-- The function `connect` defers once the host is resolved. -/
def connectResolved {κ δ : Type} (loop : EventLoop κ δ) (s : Socket) : List SocketAddress → Turn κ δ
  | [] => s.fail loop (.text "ENOTFOUND: getaddrinfo returned no results") []
  | addr :: _ => { loop, obj := s, push := [.openSocket addr] }

theorem connectResolved_loop {κ δ : Type} (loop : EventLoop κ δ) (s : Socket) (addrs : List SocketAddress) :
    (connectResolved loop s addrs).loop = loop := by
  cases addrs <;> rfl

/-- A socket on its loop, among threads. `resolving` counts the `connect` calls whose
name resolution is under way; the resolved ones wait among the loop's deferred
functions. A thread without frames, or with `user` on top, is in user code. -/
structure Conn where
  loop : EventLoop Unit (List SocketAddress)
  sock : Socket := {}
  threads : Nat → List Frame := fun _ => []
  resolving : Nat := 0
  log : List Note := []

inductive ConnLabel where
  | call (t : Nat) (c : Call)
  | ret (t : Nat)
  | turn (t : Nat) (k : Kernel)
  | io (h : Handle) (r : Ready)
  | resolved (addrs : List SocketAddress)
  | deferred
  deriving DecidableEq, Repr

namespace Conn

def loopThread : Nat := 0

def create (wakeFd : Handle) : Conn := { loop := { poller := { wakeFd } } }

/-- A socket made by a server for the descriptor `h`, reading already. -/
def accepted (wakeFd h : Handle) (peer : SocketAddress) : Conn where
  loop := EventLoop.watch { poller := { wakeFd } } h .read ()
  sock := { state := .open, desc := h, peer }

/-- A socket as it is before its first event: made by the user, or by a server. -/
inductive Initial : Conn → Prop
  | created (wakeFd : Handle) : Initial (create wakeFd)
  | accepted (wakeFd h : Handle) (peer : SocketAddress) : valid h = true → Initial (accepted wakeFd h peer)

def inUser (c : Conn) (t : Nat) : Bool :=
  match c.threads t with
  | [] | .user :: _ => true
  | _ => false

/-- Thread `t` continues with a turn's outcome on top of `rest`. -/
def apply (c : Conn) (t : Nat) (rest : List Frame) (turn : Turn Unit (List SocketAddress)) : Conn :=
  { c with
    loop := turn.loop
    sock := turn.obj
    threads := Function.update c.threads t (turn.push ++ rest)
    log := turn.notes ++ c.log }

/-- Readiness is dispatched and deferred functions run on the loop thread, between the
functions it runs; which readiness is not restricted here. -/
def step (c : Conn) : ConnLabel → Option Conn
  | .call t call =>
    if c.inUser t then
      some { c with
        threads := Function.update c.threads t (call.frames ++ c.threads t)
        resolving := if call = .connect then c.resolving + 1 else c.resolving
        log := .called call :: c.log }
    else none
  | .ret t =>
    match c.threads t with
    | .user :: rest => some { c with threads := Function.update c.threads t rest }
    | _ => none
  | .turn t k =>
    match c.threads t with
    | [] => none
    | frame :: rest => (c.sock.exec () t c.loop frame k).map (c.apply t rest)
  | .io h r =>
    if c.threads loopThread = [] ∧ h ∈ c.loop.watches then
      some { c with threads := Function.update c.threads loopThread [.onIo r] }
    else none
  | .resolved addrs =>
    if 0 < c.resolving then some { c with resolving := c.resolving - 1, loop := c.loop.defer addrs } else none
  | .deferred =>
    match c.threads loopThread, c.loop.deferred with
    | [], addrs :: deferred =>
      some (c.apply loopThread [] (connectResolved { c.loop with deferred } c.sock addrs))
    | _, _ => none

theorem step_spec {c d : Conn} {a : ConnLabel} (h : c.step a = some d) :
    (∃ t call, a = .call t call ∧ c.inUser t = true ∧ d = { c with
      threads := Function.update c.threads t (call.frames ++ c.threads t)
      resolving := if call = .connect then c.resolving + 1 else c.resolving
      log := .called call :: c.log }) ∨
    (∃ t rest, a = .ret t ∧ c.threads t = .user :: rest ∧
      d = { c with threads := Function.update c.threads t rest }) ∨
    (∃ t k f rest turn, a = .turn t k ∧ c.threads t = f :: rest ∧
      Socket.Executed () t c.loop c.sock f k turn ∧ d = c.apply t rest turn) ∨
    (∃ h r, a = .io h r ∧ c.threads loopThread = [] ∧ h ∈ c.loop.watches ∧
      d = { c with threads := Function.update c.threads loopThread [.onIo r] }) ∨
    (∃ addrs, a = .resolved addrs ∧ d = { c with resolving := c.resolving - 1, loop := c.loop.defer addrs }) ∨
    (∃ addrs deferred, a = .deferred ∧ c.threads loopThread = [] ∧ c.loop.deferred = addrs :: deferred ∧
      d = c.apply loopThread [] (connectResolved { c.loop with deferred } c.sock addrs)) := by
  cases a with
  | call t call =>
      obtain ⟨hu, h⟩ := Option.ite_none_right_eq_some.mp h
      exact .inl ⟨t, call, rfl, hu, (Option.some.inj h).symm⟩
  | ret t =>
      simp only [step] at h
      split at h
      · next rest hf => exact .inr (.inl ⟨t, rest, rfl, hf, (Option.some.inj h).symm⟩)
      · cases h
  | turn t k =>
      simp only [step] at h
      split at h
      · cases h
      · next f rest hf =>
          obtain ⟨turn, hturn, rfl⟩ := Option.map_eq_some_iff.mp h
          exact .inr (.inr (.inl ⟨t, k, f, rest, turn, rfl, hf, Socket.exec_spec hturn, rfl⟩))
  | io hd r =>
      obtain ⟨⟨hf, hw⟩, h⟩ := Option.ite_none_right_eq_some.mp h
      exact .inr (.inr (.inr (.inl ⟨hd, r, rfl, hf, hw, (Option.some.inj h).symm⟩)))
  | resolved addrs =>
      obtain ⟨-, h⟩ := Option.ite_none_right_eq_some.mp h
      exact .inr (.inr (.inr (.inr (.inl ⟨addrs, rfl, (Option.some.inj h).symm⟩))))
  | deferred =>
      simp only [step] at h
      split at h
      · next addrs deferred hf hdef =>
          exact .inr (.inr (.inr (.inr (.inr ⟨addrs, deferred, rfl, hf, hdef, (Option.some.inj h).symm⟩))))
      · cases h

end Conn
end CxNetworking.Tcp
