import CxNetworking.Core.Deferred
import CxNetworking.Core.Isolation
import CxNetworking.Core.Timers
import CxNetworking.Lib.Simulation

/-! The event loop as its users see it: calls that take effect at once, a queue of deferred
functions, timers that are taken when they are due, and callbacks that are called as long
as they are registered. The loop among its threads behaves like this one as long as nobody
registers a handle anew, or removes it, between the lookup of its callback and the call. -/
namespace CxNetworking.Core
open Execution

/-- The loop without its threads; `due` holds the timer functions taken and not run yet. -/
structure Serial (κ φ : Type) where
  callback : Handle → Option κ := fun _ => none
  queue : List φ := []
  timers : List (Timer φ) := []
  due : List φ := []

inductive SerialLabel (κ φ : Type) where
  | watch (h : Handle) (cb : κ)
  | unwatch (h : Handle)
  | defer (fn : φ)
  | setTimer (t : Timer φ)
  | clear (id : Nat)
  | run (fn : φ)
  | collect (now : Int)
  | fire (fn : φ)
  | dispatch (h : Handle) (cb : κ)
  deriving DecidableEq, Repr

inductive Called (κ φ : Type) where
  | deferred (fn : φ)
  | timer (fn : φ)
  | callback (h : Handle) (cb : κ)
  deriving DecidableEq, Repr

def SerialLabel.called {κ φ : Type} : SerialLabel κ φ → Option (Called κ φ)
  | .run fn => some (.deferred fn)
  | .fire fn => some (.timer fn)
  | .dispatch h cb => some (.callback h cb)
  | .watch _ _ | .unwatch _ | .defer _ | .setTimer _ | .clear _ | .collect _ => none

def Note.called : Note → Option (Called Nat Nat)
  | .ranDeferred fn => some (.deferred fn)
  | .ranTimer fn => some (.timer fn)
  | .invoked cb ev => some (.callback ev.handle cb)
  | .watched _ _ | .unwatched _ | .polled _ _ => none

namespace Serial

variable {κ φ : Type} [DecidableEq κ] [DecidableEq φ]

/-- The first function of a list, if it is this one, and the others. -/
def pop (fn : φ) : List φ → Option (List φ)
  | [] => none
  | first :: rest => if first = fn then some rest else none

def step (s : Serial κ φ) : SerialLabel κ φ → Option (Serial κ φ)
  | .watch h cb => some { s with callback := Function.update s.callback h (some cb) }
  | .unwatch h => some { s with callback := Function.update s.callback h none }
  | .defer fn => some { s with queue := s.queue ++ [fn] }
  | .setTimer t => some { s with timers := s.timers ++ [t] }
  | .clear id => some { s with timers := s.timers.filter fun t => t.id != id }
  | .run fn => (pop fn s.queue).map fun queue => { s with queue }
  | .collect now =>
    if s.due = [] then
      some { s with
        timers := s.timers.filter fun t => ¬ t.when ≤ now
        due := (s.timers.filter fun t => t.when ≤ now).map (·.fn) }
    else none
  | .fire fn => (pop fn s.due).map fun due => { s with due }
  | .dispatch h cb => if s.due = [] ∧ s.callback h = some cb then some s else none

end Serial

/-- The handle whose callback was looked up and is called next. -/
def Phase.found : Phase → Option Handle
  | .calling _ ev _ => some ev.handle
  | .idle | .waiting _ | .polling _ _ | .polled _ | .swapping | .deferred _ | .timers | .due _ | .dispatch _ => none

namespace Section

/-- The handle whose registration the section removes or renews. -/
def rewrites : Section → Option Handle
  | .setWatch h _ _ | .eraseWatch h => some h
  | .setFd _ _ | .setInterest _ _ | .updateFd _ _ | .dropFd _ | .pushDeferred _ | .pushTimer _ _ | .clearTimeout _
    | .interrupt => none

/-- The step of the serial loop that a section is. A call takes effect with its first
section; the poller and its eventfd are not seen. -/
def serial (now : Int) (l : EventLoop Nat Nat) : Section → List (SerialLabel Nat Nat)
  | .setWatch h _ cb => [.watch h cb]
  | .eraseWatch h => [.unwatch h]
  | .pushDeferred fn => [.defer fn]
  | .pushTimer delay fn => [.setTimer { id := l.nextTimerId, when := deadline now delay, fn }]
  | .clearTimeout id => [.clear id]
  | .setFd _ _ | .setInterest _ _ | .updateFd _ _ | .dropFd _ | .interrupt => []

theorem serial_not_called (now : Int) (l : EventLoop Nat Nat) (s : Section) :
    (s.serial now l).filterMap SerialLabel.called = [] := by
  cases s <;> rfl

theorem notes_not_called (s : Section) : s.notes.filterMap Note.called = [] := by
  cases s <;> rfl

theorem effect_keeps {s : Section} {k : Handle} (hs : s.rewrites ≠ some k) (now : Int) (l : EventLoop Nat Nat) :
    (s.effect now l).callback k = l.callback k := by
  cases s with
  | setWatch h events cb =>
      rw [effect, EventLoop.callback_setWatch, if_neg fun he => hs (congrArg some he)]
  | eraseWatch h =>
      rw [effect, EventLoop.callback_eraseWatch, if_neg fun he => hs (congrArg some he)]
  | setFd | setInterest | updateFd | dropFd | pushDeferred | pushTimer | clearTimeout | interrupt =>
      exact effect_callback id now l k

end Section

namespace Cycle

variable {c d : Cycle} {a : Label}

/-- What a user of the loop sees of it: the batch that was swapped out is the front of the
queue. -/
def serial (c : Cycle) : Serial Nat Nat where
  callback := c.loop.callback
  queue := c.phase.batch ++ c.loop.deferred
  timers := c.loop.timers
  due := c.phase.dueBatch

def called (c : Cycle) : List (Called Nat Nat) := c.log.filterMap Note.called

/-- No thread rewrites the registration whose callback the loop thread is about to call. -/
def Uninterrupted (c : Cycle) : Label → Prop
  | .exec t _ => ∀ h ∈ c.phase.found, (c.inside t).bind Section.rewrites ≠ some h
  | .loop _ | .poll _ | .ret | .call _ _ | .quit _ => True

instance (c : Cycle) (a : Label) : Decidable (c.Uninterrupted a) :=
  match a with
  | .exec _ _ => inferInstanceAs (Decidable (∀ h ∈ c.phase.found, _))
  | .loop _ | .poll _ | .ret | .call _ _ | .quit _ => isTrue trivial

/-- The callback that was looked up is the registered one. -/
def Found (c : Cycle) : Prop := ∀ cb ev rest, c.phase = .calling cb ev rest → c.loop.callback ev.handle = some cb

theorem step_found (hf : c.Found) (hok : c.Uninterrupted a) (h : c.step a = some d) : d.Found := by
  intro cb ev rest hp
  rcases step_spec h with ⟨now, rfl, -, hadv⟩ | ⟨ms, pfds, outcome, rfl, -, hans⟩ | ⟨rfl, -, -, rfl⟩ |
    ⟨t, r, rfl, -, -, rfl⟩ | ⟨t, now, s, rfl, hs, rfl⟩ | ⟨q, rfl, rfl⟩
  · cases hadv with
    | find _ _ he =>
        cases hp
        rw [EventLoop.callback, he]
        rfl
    | stay hidle _ =>
        rw [hidle] at hp
        cases hp
    | begin | snapshot | collect | swap | deferredDone | runDeferred | fire | timersDone | runTimer | dispatchDone | leave
      | skip | invoke => cases hp
  · cases hans <;> cases hp
  · exact hf cb ev rest hp
  · exact hf cb ev rest hp
  · have hother := hok ev.handle (by rw [show c.phase = _ from hp]; rfl)
    rw [hs] at hother
    exact (Section.effect_keeps hother now c.loop).trans (hf cb ev rest hp)
  · exact hf cb ev rest hp

theorem exec_serial (t : Nat) (now : Int) (s : Section) :
    run Serial.step c.serial (s.serial now c.loop) = some (c.exec t now s).serial := by
  cases s with
  | setWatch h events cb =>
      have hcb : Function.update c.loop.callback h (some cb) = (c.loop.setWatch h events cb).callback := by
        funext k
        rw [EventLoop.callback_setWatch, Function.update_apply]
        simp only [eq_comm]
      simp only [Section.serial, run_singleton, Serial.step, serial, hcb]
      rfl
  | eraseWatch h =>
      have hcb : Function.update c.loop.callback h none = (c.loop.eraseWatch h).callback := by
        funext k
        rw [EventLoop.callback_eraseWatch, Function.update_apply]
        simp only [eq_comm]
      simp only [Section.serial, run_singleton, Serial.step, serial, hcb]
      rfl
  | pushDeferred fn =>
      simp only [Section.serial, run_singleton, Serial.step, serial, List.append_assoc]
      rfl
  | setInterest h events =>
      have hcb : ((Section.setInterest h events).effect now c.loop).callback = c.loop.callback := by
        funext k
        exact Section.effect_callback id now c.loop k
      have hrest : ((Section.setInterest h events).effect now c.loop).deferred = c.loop.deferred ∧
          ((Section.setInterest h events).effect now c.loop).timers = c.loop.timers := by
        simp only [Section.effect, EventLoop.setInterest]
        cases c.loop.watches[h]? <;> exact ⟨rfl, rfl⟩
      simp only [Section.serial, run, serial, exec, hcb, hrest.1, hrest.2]
  | pushTimer | clearTimeout | setFd | updateFd | dropFd | interrupt => rfl

theorem advance_serial {now : Int} (hf : c.Found) (h : Advance c now d) :
    Matches Serial.step serial called SerialLabel.called c d := by
  cases h with
  | swap hp =>
      refine ⟨[], ?_, rfl⟩
      simp only [run, serial, hp, Phase.batch, Phase.dueBatch, EventLoop.swapDeferred, List.nil_append, List.append_nil]
      rfl
  | @runDeferred fn rest hp =>
      refine ⟨[.run fn], ?_, rfl⟩
      simp only [run_singleton, Serial.step, serial, hp, Phase.batch, List.cons_append, Serial.pop, if_true]
      rfl
  | fire hp =>
      refine ⟨[.collect now], ?_, rfl⟩
      simp only [run_singleton, Serial.step, serial, hp, Phase.batch, Phase.dueBatch, if_true]
      rfl
  | @runTimer fn rest hp =>
      refine ⟨[.fire fn], ?_, rfl⟩
      simp only [run_singleton, Serial.step, serial, hp, Phase.dueBatch, Serial.pop, if_true]
      rfl
  | @invoke cb ev rest hp =>
      refine ⟨[.dispatch ev.handle cb], ?_, rfl⟩
      have hcb := hf cb ev rest hp
      simp only [run_singleton, Serial.step, serial, hp, Phase.batch, Phase.dueBatch, hcb, and_self, if_true]
      rfl
  | stay hp _ => exact ⟨[], rfl, rfl⟩
  | collect hp =>
      refine ⟨[], ?_, rfl⟩
      simp only [run, serial, hp, Phase.batch, Phase.dueBatch]
      rfl
  | begin hp _ | snapshot hp | deferredDone hp | timersDone hp | dispatchDone hp | leave hp _ | skip hp _ _
    | find hp _ _ =>
      refine ⟨[], ?_, rfl⟩
      simp only [run, serial, hp, Phase.batch, Phase.dueBatch]

theorem step_serial (hf : c.Found) (h : c.step a = some d) :
    Matches Serial.step serial called SerialLabel.called c d := by
  rcases step_spec h with ⟨now, rfl, -, hadv⟩ | ⟨ms, pfds, outcome, rfl, hp, hans⟩ | ⟨rfl, -, -, rfl⟩ |
    ⟨t, r, rfl, -, -, rfl⟩ | ⟨t, now, s, rfl, hs, rfl⟩ | ⟨q, rfl, rfl⟩
  · exact advance_serial hf hadv
  · cases hans <;> exact ⟨[], by simp only [run, serial, hp]; rfl, rfl⟩
  · exact ⟨[], rfl, rfl⟩
  · exact ⟨[], rfl, rfl⟩
  · refine ⟨s.serial now c.loop, exec_serial t now s, ?_⟩
    rw [called, exec, List.filterMap_append, s.notes_not_called, s.serial_not_called]
    rfl
  · exact ⟨[], rfl, rfl⟩

theorem start_found (wakeFd : Handle) : (start wakeFd).Found := by
  intro cb ev rest hp
  cases hp

theorem serial_start (wakeFd : Handle) : (start wakeFd).serial = {} := by
  have hcb : (start wakeFd).loop.callback = fun _ => none := by
    funext h
    simp [start, EventLoop.callback]
  simp only [serial, hcb]
  rfl

/-- Two threads watch a handle and defer. The deferred function sets a timer and removes the
watch that another thread renews before its event is dispatched. -/
def renewedWatch : List Label :=
  [.call 1 (.watch 5 .read), .call 2 .defer, .exec 1 0, .exec 2 0, .exec 1 0, .exec 1 0, .exec 2 0, .loop 0, .loop 0,
    .poll (.returned [POLLIN, POLLIN]), .loop 0, .loop 0, .loop 0, .call 0 (.unwatch 5), .exec 0 0,
    .call 1 (.watch 5 .read), .exec 1 0, .exec 0 0, .exec 0 0, .call 0 (.setTimeout 0), .exec 0 0, .exec 0 0, .ret, .loop 0,
    .loop 0, .loop 0, .ret, .loop 0, .loop 0, .loop 0]

end Cycle
end CxNetworking.Core
