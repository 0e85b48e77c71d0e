import CxNetworking.Core.EventLoop
import CxNetworking.Dns.Message

/-! `dns::client` as a re-entrant machine. Error listeners and answer handlers are user
code that may call the client again, so every call into user code pushes what the
client does when it comes back. Handlers are named by the number of their `query`
call. -/
namespace CxNetworking.Dns
open CxNetworking.Core

def ascii (s : String) : Bytes := s.toList.map fun c => UInt8.ofNat c.toNat

structure Pending where
  handler : Nat
  timer : Nat
  deriving DecidableEq, Repr

/-- What is left to do when user code returns. -/
inductive Resume where
  | leave
  | answerInvalid (handler : Nat)
  | resolveFailed (id : UInt16)
  deriving DecidableEq, Repr

inductive ClientNote where
  | queried (handler : Nat) (id : UInt16)
  | sent (wire : Bytes)
  | errored (text : Bytes)
  | invoked (handler : Nat) (answer : Option Message)
  deriving DecidableEq, Repr

/-- The client and the timers of its loop; a timer's function is the id it expires.
`due` holds the functions `fire_due_timers` has collected and not run yet. -/
structure Client where
  loop : EventLoop Unit UInt16
  timeout : Int := 5000
  pending : Std.ExtTreeMap UInt16 Pending := ∅
  due : List UInt16 := []
  stack : List Resume := []
  queries : Nat := 0
  log : List ClientNote := []

def request (name : Bytes) (type id : UInt16) : Message where
  header := { id, recursionDesired := true }
  questions := [{ name, type, class_ := RecordClass.internet }]

namespace Client

def create (wakeFd : Handle) : Client := { loop := { poller := { wakeFd } } }

def resolve (c : Client) (id : UInt16) (answer : Option Message) : Client :=
  match c.pending[id]? with
  | none => c
  | some entry =>
    { c with
      pending := c.pending.erase id
      loop := c.loop.clearTimeout entry.timer
      stack := .leave :: c.stack
      log := .invoked entry.handler answer :: c.log }

/-- A serialized query is armed with a timer, entered with `emplace`, which keeps an
entry that is already there, and sent; `failure` is the error the peer reports if it
cannot send. -/
def submit (c : Client) (handler : Nat) (id : UInt16) (wire : Bytes) (now : Int) (failure : Option Bytes) :
    Client :=
  let (timer, loop) := c.loop.setTimeout now c.timeout id
  let c := { c with loop, pending := c.pending.insertIfNew id { handler, timer } }
  match failure with
  | none => { c with log := .sent wire :: c.log }
  | some text => { c with stack := .resolveFailed id :: c.stack, log := .errored text :: c.log }

def query (c : Client) (name : Bytes) (type id : UInt16) (now : Int) (failure : Option Bytes) : Client :=
  let handler := c.queries
  let c := { c with queries := c.queries + 1, log := .queried handler id :: c.log }
  match (request name type id).serialize with
  | none =>
    { c with
      stack := .answerInvalid handler :: c.stack
      log := .errored (ascii "invalid question name: " ++ name) :: c.log }
  | some wire => c.submit handler id wire now failure

/-- The listener on the peer's datagrams. -/
def receive (c : Client) (datagram : Bytes) : Client :=
  match Message.parse datagram with
  | none =>
    { c with stack := .leave :: c.stack, log := .errored (ascii "received a malformed DNS response") :: c.log }
  | some parsed => c.resolve parsed.header.id (some parsed)

def expire (c : Client) (id : UInt16) : Client := c.resolve id none

/-- The listener on the peer's errors outside `send`. -/
def peerError (c : Client) (text : Bytes) : Client :=
  { c with stack := .leave :: c.stack, log := .errored text :: c.log }

def resume (c : Client) : Resume → Client
  | .leave => c
  | .answerInvalid handler => { c with stack := .leave :: c.stack, log := .invoked handler none :: c.log }
  | .resolveFailed id => c.resolve id none

end Client

inductive ClientLabel where
  | query (name : Bytes) (type id : UInt16) (now : Int) (failure : Option Bytes)
  | datagram (d : Bytes)
  | peerError (text : Bytes)
  | collect (now : Int)
  | timer
  | ret
  | setTimeout (timeout : Int)
  deriving DecidableEq, Repr

/-- `query` may be called at any time. Datagrams, errors of the peer and timers come
from the loop thread, so only when no user code of the client is running, and what
comes from the peer not before the collected timers have run. -/
def Client.step (c : Client) : ClientLabel → Option Client
  | .query name type id now failure => some (c.query name type id now failure)
  | .datagram d => if c.stack = [] ∧ c.due = [] then some (c.receive d) else none
  | .peerError text => if c.stack = [] ∧ c.due = [] then some (c.peerError text) else none
  | .collect now =>
    if c.stack = [] ∧ c.due = [] then
      some { c with due := (c.loop.takeDue now).1, loop := (c.loop.takeDue now).2 }
    else none
  | .timer =>
    match c.stack, c.due with
    | [], id :: due => some ({ c with due }.expire id)
    | _, _ => none
  | .ret =>
    match c.stack with
    | [] => none
    | frame :: stack => some ({ c with stack }.resume frame)
  | .setTimeout timeout => some { c with timeout }

namespace Client

theorem resolve_cases (c : Client) (id : UInt16) (answer : Option Message) :
    (c.pending[id]? = none ∧ c.resolve id answer = c) ∨
    ∃ entry, c.pending[id]? = some entry ∧ c.resolve id answer =
      { c with
        pending := c.pending.erase id
        loop := c.loop.clearTimeout entry.timer
        stack := .leave :: c.stack
        log := .invoked entry.handler answer :: c.log } := by
  unfold resolve
  cases h : c.pending[id]? with
  | none => exact .inl ⟨rfl, rfl⟩
  | some entry => exact .inr ⟨entry, rfl, rfl⟩

theorem resolve_invoked {c : Client} {id : UInt16} {answer answer' : Option Message} {n : Nat}
    (h : (c.resolve id answer).log = .invoked n answer' :: c.log) :
    answer' = answer ∧ ∃ e : Pending, c.pending[id]? = some e ∧ e.handler = n := by
  rcases c.resolve_cases id answer with ⟨-, heq⟩ | ⟨e, he, heq⟩ <;> rw [heq] at h
  · exact ((List.cons_ne_self _ _) h.symm).elim
  · obtain ⟨hn, hanswer⟩ := ClientNote.invoked.inj (List.cons.inj h).1
    exact ⟨hanswer.symm, e, he, hn⟩

theorem query_log (c : Client) (name : Bytes) (type id : UInt16) (now : Int) (failure : Option Bytes) :
    ∃ note, (∀ n answer, note ≠ .invoked n answer) ∧
      (c.query name type id now failure).log = note :: .queried c.queries id :: c.log := by
  unfold query
  split
  · exact ⟨_, by simp, rfl⟩
  · cases failure with
    | none => exact ⟨_, by simp, rfl⟩
    | some text => exact ⟨_, by simp, rfl⟩

theorem step_spec {c d : Client} {a : ClientLabel} (h : c.step a = some d) :
    (∃ name type id now failure, a = .query name type id now failure ∧ d = c.query name type id now failure) ∨
    (∃ datagram, a = .datagram datagram ∧ d = c.receive datagram) ∨
    (∃ text, a = .peerError text ∧ d = c.peerError text) ∨
    (∃ now, a = .collect now ∧
      d = { c with due := (c.loop.takeDue now).1, loop := (c.loop.takeDue now).2 }) ∨
    (∃ id due, a = .timer ∧ c.due = id :: due ∧ d = { c with due }.expire id) ∨
    (∃ frame stack, a = .ret ∧ c.stack = frame :: stack ∧ d = { c with stack }.resume frame) ∨
    (∃ timeout, a = .setTimeout timeout ∧ d = { c with timeout }) := by
  cases a with
  | query name type id now failure => exact .inl ⟨_, _, _, _, _, rfl, (Option.some.inj h).symm⟩
  | datagram datagram =>
      simp only [step, Option.ite_none_right_eq_some] at h
      exact .inr (.inl ⟨_, rfl, (Option.some.inj h.2).symm⟩)
  | peerError text =>
      simp only [step, Option.ite_none_right_eq_some] at h
      exact .inr (.inr (.inl ⟨_, rfl, (Option.some.inj h.2).symm⟩))
  | collect now =>
      simp only [step, Option.ite_none_right_eq_some] at h
      exact .inr (.inr (.inr (.inl ⟨_, rfl, (Option.some.inj h.2).symm⟩)))
  | timer =>
      simp only [step] at h
      split at h
      · next hdue => exact .inr (.inr (.inr (.inr (.inl ⟨_, _, rfl, hdue, (Option.some.inj h).symm⟩))))
      · cases h
  | ret =>
      simp only [step] at h
      split at h
      · cases h
      · next hstack => exact .inr (.inr (.inr (.inr (.inr (.inl ⟨_, _, rfl, hstack, (Option.some.inj h).symm⟩)))))
  | setTimeout timeout =>
      exact .inr (.inr (.inr (.inr (.inr (.inr ⟨_, rfl, (Option.some.inj h).symm⟩)))))

end Client
end CxNetworking.Dns
