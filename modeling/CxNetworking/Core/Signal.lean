import CxNetworking.Lib.Execution
import Mathlib.Logic.Function.Basic

/-! `core::signal` and `core::event` on the thread that emits. An emission copies the list
of sinks and calls the copies one after the other; while a listener runs, it may make any
calls, among them another emission. The listeners' own functions are opaque. -/
namespace CxNetworking.Core

/-- The control block of a signal with the connections that `event::once` makes. An entry of
the list is named by the number of its `connect`. A connection is an iterator to an entry
and a flag `valid_`; of the two that `once` makes, `slot` is held by the wrapper in the
entry and `subscription` is the copy returned. -/
structure Signal where
  sinks : List Nat := []
  connects : Nat := 0
  slot : Nat → Option Bool := fun _ => none
  subscription : Nat → Option Bool := fun _ => none
  /-- The entries that were erased when they were no longer in the list. -/
  dangling : List Nat := []

namespace Signal

def connect (s : Signal) : Signal := { s with sinks := s.sinks ++ [s.connects], connects := s.connects + 1 }

def disconnectAll (s : Signal) : Signal := { s with sinks := [] }

def erase (s : Signal) (id : Nat) : Signal :=
  if id ∈ s.sinks then { s with sinks := s.sinks.erase id } else { s with dangling := id :: s.dangling }

/-- `connection::disconnect`, up to its own flag. -/
def disconnect (s : Signal) (id : Nat) (valid : Option Bool) : Signal := if valid = some true then s.erase id else s

def disconnectSlot (s : Signal) (id : Nat) : Signal :=
  { s.disconnect id (s.slot id) with slot := Function.update s.slot id ((s.slot id).map fun _ => false) }

def disconnectSubscription (s : Signal) (id : Nat) : Signal :=
  { s.disconnect id (s.subscription id) with
    subscription := Function.update s.subscription id ((s.subscription id).map fun _ => false) }

/-- The signal's part of `event::once`. -/
def once (s : Signal) : Signal :=
  { s.connect with
    slot := Function.update s.slot s.connects (some true)
    subscription := Function.update s.subscription s.connects (some true) }

end Signal

/-- `signal::emit`: the copies that are still to be called, and whether one is running. -/
structure EmitLoop where
  rest : List Nat
  running : Bool := false
  deriving DecidableEq, Repr

/-- An event with its emissions under way, the innermost first, and the functions invoked,
the latest first. -/
structure Emitter where
  signal : Signal := {}
  stack : List EmitLoop := []
  invoked : List Nat := []

/-- The calls of `core::event`, and `disconnect` on the subscription that the call of `once`
with this number returned. -/
inductive EventCall where
  | connect
  | once
  | emit
  | offAll
  | disconnect (id : Nat)
  deriving DecidableEq, Repr

/-- Code of the user makes a call, the innermost emission goes on, or the listener that it
called returns. -/
inductive EventLabel where
  | call (r : EventCall)
  | next
  | ret
  deriving DecidableEq, Repr

namespace Emitter

/-- No emission is under way, or a listener is running. -/
def userCode (e : Emitter) : Bool :=
  match e.stack with
  | [] => true
  | loop :: _ => loop.running

def call (e : Emitter) : EventCall → Emitter
  | .connect => { e with signal := e.signal.connect }
  | .once => { e with signal := e.signal.once }
  | .emit => { e with stack := { rest := e.signal.sinks } :: e.stack }
  | .offAll => { e with signal := e.signal.disconnectAll }
  | .disconnect id => { e with signal := e.signal.disconnectSubscription id }

/-- A copy is called. The wrapper of `once` disconnects its slot before it calls the
function, whether or not the slot was still valid. -/
def invoke (e : Emitter) (id : Nat) : Emitter :=
  { e with signal := e.signal.disconnectSlot id, invoked := id :: e.invoked }

def step (e : Emitter) : EventLabel → Option Emitter
  | .call r => if e.userCode then some (e.call r) else none
  | .next =>
    match e.stack with
    | { rest := [], running := false } :: outer => some { e with stack := outer }
    | { rest := id :: rest, running := false } :: outer =>
      some { e.invoke id with stack := { rest, running := true } :: outer }
    | _ => none
  | .ret =>
    match e.stack with
    | { rest, running := true } :: outer => some { e with stack := { rest } :: outer }
    | _ => none

inductive Step (e : Emitter) : EventLabel → Emitter → Prop
  | call (r) : e.userCode = true → Step e (.call r) (e.call r)
  | finish {outer} : e.stack = { rest := [] } :: outer → Step e .next { e with stack := outer }
  | invoke {id rest outer} : e.stack = { rest := id :: rest } :: outer →
      Step e .next { e.invoke id with stack := { rest, running := true } :: outer }
  | ret {rest outer} : e.stack = { rest, running := true } :: outer →
      Step e .ret { e with stack := { rest } :: outer }

theorem step_spec {e f : Emitter} {a : EventLabel} (h : e.step a = some f) : Step e a f := by
  cases a with
  | call r =>
      simp only [step, Option.ite_none_right_eq_some] at h
      obtain ⟨huser, h⟩ := h
      cases h
      exact .call r huser
  | next =>
      simp only [step] at h
      split at h
      · next hs => cases h; exact .finish hs
      · next hs => cases h; exact .invoke hs
      · cases h
  | ret =>
      simp only [step] at h
      split at h
      · next hs => cases h; exact .ret hs
      · cases h

end Emitter
end CxNetworking.Core
