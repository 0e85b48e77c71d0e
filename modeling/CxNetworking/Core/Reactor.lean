import CxNetworking.Core.Task
import CxNetworking.Core.Wakeup
import CxNetworking.Lib.History

/-! The event loop with the task that drives it: `event_loop::start` and `stop`, called by
any threads, down to the thread that repeats `iterate`. Nothing keeps such calls from
overlapping; only the data race of two that use the task's thread has no step. All threads
use the rest of the interface meanwhile. -/
namespace CxNetworking.Core
open Execution

/-- The next step of a call of `start` or `stop` behind the exchange of `started_`. -/
inductive ReactorStage where
  | clearQuitting
  | startTask
  | spawn
  | setQuitting
  | interrupt
  | stopTask
  | notifyAll
  | requestStop
  | join
  | setStopRequested
  deriving DecidableEq, Repr

/-- `calls` are the threads that are inside a call of `start` or `stop`, with its next step. -/
structure Reactor where
  cycle : Cycle
  task : Task := {}
  started : Bool := false
  stopRequested : Bool := false
  calls : List (Nat × ReactorStage) := []

inductive ReactorLabel where
  | start (t : Nat)
  | stop (t : Nat)
  | exec (t : Nat)
  | task (b : TaskLabel)
  | cycle (a : Label)
  deriving DecidableEq, Repr

/-- The steps of the task's own thread. The loop never pauses its task, and `iterate` returns
by a step of its own. -/
def TaskLabel.inner : TaskLabel → Bool
  | .wake | .turn => true
  | _ => false

def LoopThread.inLoop (th : LoopThread) : Bool := th.pc == .looping

/-- The steps that only the loop thread takes. -/
def Label.onLoop : Label → Bool
  | .loop _ | .poll _ | .ret => true
  | .call t _ | .exec t _ => t == loopThread
  | .quit _ => false

/-- Whether `iterate` has returned with the step. -/
def Label.ends : Label → Cycle → Bool
  | .loop _, c | .poll _, c => c.phase == .idle
  | _, _ => false

/-! ### What the steps of the cycle leave alone -/

/-- The notes of what the loop thread does. -/
def Note.ofLoop : Note → Bool
  | .watched _ _ | .unwatched _ => false
  | .polled _ _ | .ranDeferred _ | .ranTimer _ | .invoked _ _ => true

/-- The section queues a function: a deferred one, or that of a timer. -/
def Section.queues : Section → Bool
  | .pushDeferred _ | .pushTimer _ _ => true
  | _ => false

/-- A section of a call leaves `quitting_` alone, takes nothing from the eventfd, and queues
at most one function. -/
theorem Section.effect_frame (now : Int) (l : EventLoop Nat Nat) (s : Section) :
    (s.effect now l).quitting = l.quitting ∧ l.poller.wake ≤ (s.effect now l).poller.wake ∧
      l.deferred.length ≤ (s.effect now l).deferred.length ∧
      (s.effect now l).deferred.length + (s.effect now l).timers.length ≤
        l.deferred.length + l.timers.length + s.queues.toNat := by
  cases s with
  | setInterest h events =>
      simp only [effect, EventLoop.setInterest]
      cases l.watches[h]? with
      | none => exact ⟨rfl, Nat.le_refl _, Nat.le_refl _, Nat.le_refl _⟩
      | some e => exact ⟨rfl, Nat.le_refl _, Nat.le_refl _, Nat.le_refl _⟩
  | updateFd h events =>
      refine ⟨rfl, ?_, Nat.le_refl _, Nat.le_refl _⟩
      simp only [effect, EventLoop.updateFd, Poller.setIfPresent]
      split <;> exact Nat.le_refl _
  | clearTimeout id =>
      refine ⟨rfl, Nat.le_refl _, Nat.le_refl _, ?_⟩
      have := List.length_filter_le (fun t : Timer Nat => t.id != id) l.timers
      simp only [effect, EventLoop.clearTimeout, queues, Bool.toNat_false]
      omega
  | pushDeferred fn =>
      refine ⟨rfl, Nat.le_refl _, ?_, ?_⟩ <;>
        simp only [effect, EventLoop.pushDeferred, List.length_append, List.length_singleton, queues, Bool.toNat_true] <;>
        omega
  | pushTimer delay fn =>
      refine ⟨rfl, Nat.le_refl _, Nat.le_refl _, ?_⟩
      simp only [effect, EventLoop.pushTimer, List.length_append, List.length_singleton, queues, Bool.toNat_true]
      omega
  | interrupt => exact ⟨rfl, Nat.le_succ _, Nat.le_refl _, Nat.le_refl _⟩
  | setWatch _ _ _ | setFd _ _ | eraseWatch _ | dropFd _ => exact ⟨rfl, Nat.le_refl _, Nat.le_refl _, Nat.le_refl _⟩

theorem Section.notes_ofLoop (s : Section) : s.notes.filter Note.ofLoop = [] := by
  cases s <;> rfl

namespace Cycle

variable {c d : Cycle} {a : Label}

/-- The other threads do not move the loop thread. -/
theorem step_elsewhere (hq : ∀ q, a ≠ .quit q) (ha : a.onLoop = false) (h : c.step a = some d) :
    d.phase = c.phase ∧ d.busy = c.busy ∧ d.inside loopThread = c.inside loopThread ∧
      d.log.filter Note.ofLoop = c.log.filter Note.ofLoop := by
  rcases step_spec h with ⟨now, rfl, -, -⟩ | ⟨ms, pfds, outcome, rfl, -, -⟩ | ⟨rfl, -, -, -⟩ |
    ⟨t, r, rfl, -, -, rfl⟩ | ⟨t, now, s, rfl, -, rfl⟩ | ⟨q, rfl, -⟩
  · cases ha
  · cases ha
  · cases ha
  · have hne : loopThread ≠ t := fun he => by simp [Label.onLoop, he] at ha
    exact ⟨rfl, rfl, Function.update_of_ne hne _ _, rfl⟩
  · have hne : loopThread ≠ t := fun he => by simp [Label.onLoop, he] at ha
    refine ⟨rfl, rfl, Function.update_of_ne hne _ _, ?_⟩
    rw [exec, List.filter_append, Section.notes_ofLoop, List.nil_append]
  · exact absurd rfl (hq q)

theorem step_quitting (hq : ∀ q, a ≠ .quit q) (h : c.step a = some d) : d.loop.quitting = c.loop.quitting := by
  rcases step_spec h with ⟨now, rfl, -, hd⟩ | ⟨ms, pfds, outcome, rfl, -, hd⟩ | ⟨rfl, -, -, rfl⟩ |
    ⟨t, r, rfl, -, -, rfl⟩ | ⟨t, now, s, rfl, -, rfl⟩ | ⟨q, rfl, -⟩
  · cases hd <;> rfl
  · cases hd <;> rfl
  · rfl
  · rfl
  · exact (Section.effect_frame now c.loop s).1
  · exact absurd rfl (hq q)

/-- Once the loop is quitting, no `::poll` is begun, and one that was begun keeps the count
of the eventfd. -/
theorem step_blocking (hquit : c.loop.quitting = true) (hq : ∀ q, a ≠ .quit q) (h : c.step a = some d)
    (hb : d.phase.Blocking) : c.phase.Blocking ∧ c.loop.poller.wake ≤ d.loop.poller.wake := by
  rcases step_spec h with ⟨now, rfl, -, hd⟩ | ⟨ms, pfds, outcome, rfl, -, hd⟩ | ⟨rfl, -, -, rfl⟩ |
    ⟨t, r, rfl, -, -, rfl⟩ | ⟨t, now, s, rfl, -, rfl⟩ | ⟨q, rfl, -⟩
  · cases hd with
    | stay => exact ⟨hb, Nat.le_refl _⟩
    | begin _ hno => rw [hquit] at hno; cases hno
    | snapshot hp => exact ⟨by rw [hp]; trivial, Nat.le_refl _⟩
    | collect | swap | deferredDone | runDeferred | fire | timersDone | runTimer | dispatchDone | leave | skip | find
      | invoke => exact hb.elim
  · cases hd <;> exact hb.elim
  · exact ⟨hb, Nat.le_refl _⟩
  · exact ⟨hb, Nat.le_refl _⟩
  · exact ⟨hb, (Section.effect_frame now c.loop s).2.1⟩
  · exact absurd rfl (hq q)

/-- Between two cycles and up to the return of `::poll` the loop thread runs no function. -/
def Resting (c : Cycle) : Prop := c.phase = .idle ∨ c.phase.Blocking → c.busy = false

theorem step_resting (hr : c.Resting) (h : c.step a = some d) : d.Resting := by
  intro hd
  rcases step_spec h with ⟨now, rfl, hb, hadv⟩ | ⟨ms, pfds, outcome, rfl, hp, hans⟩ | ⟨rfl, -, -, rfl⟩ |
    ⟨t, r, rfl, -, -, rfl⟩ | ⟨t, now, s, rfl, -, rfl⟩ | ⟨q, rfl, rfl⟩
  · cases hadv with
    | runDeferred | runTimer | invoke =>
        rcases hd with hd | hd
        · cases hd
        · exact hd.elim
    | stay | begin | snapshot | collect | swap | deferredDone | fire | timersDone | dispatchDone | leave | skip | find =>
        exact hb
  · have hb : c.busy = false := hr (.inr (by rw [hp]; trivial))
    cases hans <;> exact hb
  · rfl
  · exact hr hd
  · exact hr hd
  · exact hr hd

/-- How many steps the loop thread takes until `iterate` returns, once the loop is quitting
and if nothing more is queued: two for each function, one for each other step. -/
def rest (c : Cycle) : Nat :=
  c.busy.toNat +
    match c.phase with
    | .idle | .dispatch _ => 1
    | .calling _ _ _ => 3
    | .due fns => 2 * fns.length + 2
    | .timers => 2 * c.loop.timers.length + 3
    | .deferred fns => 2 * (fns.length + c.loop.timers.length) + 4
    | .swapping => 2 * (c.loop.deferred.length + c.loop.timers.length) + 5
    | .polled _ => 2 * (c.loop.deferred.length + c.loop.timers.length) + 6
    | .polling _ _ => 2 * (c.loop.deferred.length + c.loop.timers.length) + 7
    | .waiting _ => 2 * (c.loop.deferred.length + c.loop.timers.length) + 8

theorem rest_pos (c : Cycle) : 0 < c.rest := by
  rw [rest]
  split <;> omega

def counted : Label → Bool
  | .loop _ | .poll _ | .ret => true
  | _ => false

def queues (c : Cycle) : Label → Bool
  | .exec t _ => (c.inside t).any Section.queues
  | _ => false

theorem length_takeDue (l : EventLoop Nat Nat) (now : Int) : (l.takeDue now).1.length ≤ l.timers.length := by
  rw [EventLoop.takeDue, List.length_map]
  exact List.length_filter_le _ _

theorem advance_rest {now : Int} (hquit : c.loop.quitting = true) (hb : c.busy = false) (h : Advance c now d)
    (hd : d.phase ≠ .idle) : d.rest + 1 ≤ c.rest := by
  cases h with
  | stay hp _ => exact absurd hp hd
  | begin _ hno | skip _ hno _ | find _ hno _ => rw [hquit] at hno; cases hno
  | dispatchDone _ | leave _ _ => exact absurd rfl hd
  | fire hp =>
      have := length_takeDue c.loop now
      simp only [rest, hp, hb, Bool.toNat_false]
      omega
  | snapshot hp | collect hp | swap hp | deferredDone hp | runDeferred hp | timersDone hp | runTimer hp | invoke hp =>
      simp only [rest, hp, hb, enter, EventLoop.swapDeferred, EventLoop.collect, Bool.toNat_false, Bool.toNat_true,
        List.length_cons, List.length_nil]
      omega

theorem step_rest (hquit : c.loop.quitting = true) (hq : ∀ q, a ≠ .quit q) (h : c.step a = some d)
    (hd : a.ends d = false) : d.rest + (counted a).toNat ≤ c.rest + 2 * (c.queues a).toNat := by
  rcases step_spec h with ⟨now, rfl, hb, hadv⟩ | ⟨ms, pfds, outcome, rfl, hp, hans⟩ | ⟨rfl, hb, -, rfl⟩ |
    ⟨t, r, rfl, -, -, rfl⟩ | ⟨t, now, s, rfl, hs, rfl⟩ | ⟨q, rfl, -⟩
  · exact advance_rest hquit hb hadv (beq_eq_false_iff_ne.mp hd)
  · cases hans with
    | failed => cases hd
    | interrupted | returned _ =>
        simp only [rest, hp, counted, queues, Bool.toNat_true]
        omega
  · simp only [rest, hb, counted, queues, Bool.toNat_false, Bool.toNat_true]
    omega
  · exact Nat.le_refl _
  · obtain ⟨-, -, hdeferred, hlen⟩ := Section.effect_frame now c.loop s
    simp only [rest, exec, counted, queues, hs, Option.any_some, Bool.toNat_false]
    cases c.phase <;> simp only <;> omega
  · exact absurd rfl (hq q)

end Cycle

namespace Reactor

def looping (r : Reactor) : Bool := r.task.thread.any LoopThread.inLoop

def goes (r : Reactor) (t : Nat) (next : Option ReactorStage) : Reactor :=
  { r with calls := next.toList.map (t, ·) ++ r.calls.filter (·.1 ≠ t) }

/-- The next step of the call that thread `t` is in. `task::start` of a running task and
`task::stop` of one that does not run return at once. -/
def exec (r : Reactor) (t : Nat) : ReactorStage → Option Reactor
  | .clearQuitting =>
    some ({ r with cycle := { r.cycle with loop := { r.cycle.loop with quitting := false } } }.goes t (some .startTask))
  | .startTask =>
    (r.task.step .start).map fun task => { r with task }.goes t (if r.task.running then none else some .spawn)
  | .spawn =>
    (r.task.step .spawn).map fun task => { r with task }.goes t (if task.control = Control.outside then none else some .spawn)
  | .setQuitting =>
    some ({ r with cycle := { r.cycle with loop := { r.cycle.loop with quitting := true } } }.goes t (some .interrupt))
  | .interrupt => some ({ r with cycle := { r.cycle with loop := r.cycle.loop.interrupt } }.goes t (some .stopTask))
  | .stopTask =>
    (r.task.step .stop).map fun task =>
      { r with task }.goes t (some (if r.task.running then .notifyAll else .setStopRequested))
  | .notifyAll => (r.task.step .notifyAll).map fun task => { r with task }.goes t (some .requestStop)
  | .requestStop =>
    (r.task.step .requestStop).map fun task =>
      { r with task }.goes t (some (if task.control = Control.outside then .setStopRequested else .join))
  | .join => (r.task.step .join).map fun task => { r with task }.goes t (some .setStopRequested)
  | .setStopRequested => some ({ r with stopRequested := true }.goes t none)

/-- A step of the cycle; `iterate` hands control back to `task::run` when it returns. -/
def turn (r : Reactor) (a : Label) : Option Reactor :=
  (r.cycle.step a).bind fun cycle =>
    if a.ends cycle then (r.task.step .ret).map fun task => { r with cycle, task } else some { r with cycle }

def step (r : Reactor) : ReactorLabel → Option Reactor
  | .start t =>
    if r.calls.lookup t = none then
      some (if r.started then r else { r with started := true }.goes t (some .clearQuitting))
    else none
  | .stop t =>
    if r.calls.lookup t = none then
      some (if r.started then { r with started := false }.goes t (some .setQuitting) else r)
    else none
  | .exec t => (r.calls.lookup t).bind (r.exec t)
  | .task b => if b.inner then (r.task.step b).map fun task => { r with task } else none
  | .cycle (.quit _) => none
  | .cycle a => if a.onLoop → r.looping then r.turn a else none

inductive Step (r : Reactor) : ReactorLabel → Reactor → Prop
  | startStarted {t} : r.started = true → Step r (.start t) r
  | start {t} : r.started = false → Step r (.start t) ({ r with started := true }.goes t (some .clearQuitting))
  | stopStopped {t} : r.started = false → Step r (.stop t) r
  | stop {t} : r.started = true → Step r (.stop t) ({ r with started := false }.goes t (some .setQuitting))
  | exec {t s r'} : r.calls.lookup t = some s → r.exec t s = some r' → Step r (.exec t) r'
  | task {b t} : b.inner = true → r.task.step b = some t → Step r (.task b) { r with task := t }
  | within {a c} : (∀ q, a ≠ .quit q) → (a.onLoop = true → r.looping = true) → r.cycle.step a = some c →
      a.ends c = false → Step r (.cycle a) { r with cycle := c }
  | returns {a c t} : (∀ q, a ≠ .quit q) → (a.onLoop = true → r.looping = true) → r.cycle.step a = some c →
      a.ends c = true → r.task.step .ret = some t → Step r (.cycle a) { r with cycle := c, task := t }

variable {r u : Reactor} {a : ReactorLabel}

theorem turn_spec {a : Label} (hq : ∀ q, a ≠ .quit q) (ha : a.onLoop = true → r.looping = true)
    (h : r.turn a = some u) : Step r (.cycle a) u := by
  obtain ⟨c, hc, h⟩ := Option.bind_eq_some_iff.mp h
  split at h
  next he =>
    obtain ⟨t, ht, rfl⟩ := Option.map_eq_some_iff.mp h
    exact .returns hq ha hc he ht
  next he =>
    cases h
    exact .within hq ha hc (Bool.eq_false_iff.mpr he)

theorem step_spec (h : r.step a = some u) : Step r a u := by
  cases a with
  | start t =>
      obtain ⟨-, h⟩ := Option.ite_none_right_eq_some.mp h
      cases h
      split
      next hr => exact .startStarted hr
      next hr => exact .start (Bool.eq_false_iff.mpr hr)
  | stop t =>
      obtain ⟨-, h⟩ := Option.ite_none_right_eq_some.mp h
      cases h
      split
      next hr => exact .stop hr
      next hr => exact .stopStopped (Bool.eq_false_iff.mpr hr)
  | exec t =>
      obtain ⟨s, hs, h⟩ := Option.bind_eq_some_iff.mp h
      exact .exec hs h
  | task b =>
      obtain ⟨hb, h⟩ := Option.ite_none_right_eq_some.mp h
      obtain ⟨t, ht, rfl⟩ := Option.map_eq_some_iff.mp h
      exact .task hb ht
  | cycle a =>
      cases a with
      | quit q => cases h
      | loop _ | poll _ | ret | call _ _ | exec _ _ =>
          obtain ⟨ha, h⟩ := Option.ite_none_right_eq_some.mp h
          exact turn_spec nofun ha h

/-- No call of `start` or `stop` that changes `started_` begins while another is under way,
nor on the loop thread, which cannot join itself. Nothing in the code sees to that. -/
def Apart (r : Reactor) : ReactorLabel → Prop
  | .start t => r.started = false → t ≠ loopThread ∧ r.calls = []
  | .stop t => r.started = true → t ≠ loopThread ∧ r.calls = []
  | _ => True

instance (r : Reactor) (a : ReactorLabel) : Decidable (r.Apart a) :=
  match a with
  | .start _ => inferInstanceAs (Decidable (_ → _ ∧ _))
  | .stop _ => inferInstanceAs (Decidable (_ → _ ∧ _))
  | .exec _ | .task _ | .cycle _ => isTrue trivial

/-! ### The invariant -/

/-- The value of `started_` at a stage of the one call under way, and whether the task runs
then. -/
def Agrees (r : Reactor) : Option ReactorStage → Prop
  | none => r.started = r.task.running
  | some .clearQuitting | some .startTask => r.started = true ∧ r.task.running = false
  | some .spawn => r.started = true ∧ r.task.running = true
  | some .setQuitting | some .interrupt | some .stopTask => r.started = false ∧ r.task.running = true
  | some .notifyAll | some .requestStop | some .join | some .setStopRequested =>
    r.started = false ∧ r.task.running = false

/-- Where the call is in `task::start` or `task::stop`. -/
def control : Option ReactorStage → Control
  | some .spawn => .spawning
  | some .notifyAll => .notifying
  | some .requestStop => .stopping
  | some .join => .joining
  | _ => .outside

def quits : ReactorStage → Bool
  | .interrupt | .stopTask | .notifyAll | .requestStop | .join | .setStopRequested => true
  | _ => false

/-- At most one call of `start` or `stop` is under way, at this stage. -/
structure Sound (r : Reactor) (stage : Option ReactorStage) : Prop where
  alone : ∃ t, r.calls = stage.toList.map (t, ·)
  task : r.task.Sound
  agrees : r.Agrees stage
  /-- The task is started and stopped by the stages that do so, and by nothing else. -/
  control : r.task.control = control stage
  resting : r.cycle.Resting
  outside : r.looping = false → r.cycle.phase = .idle
  quitting : ∀ s, stage = some s → quits s = true → r.cycle.loop.quitting = true
  /-- A quitting loop is not left to block in `::poll`. -/
  woken : r.cycle.loop.quitting = true → r.cycle.phase.Blocking →
    0 < r.cycle.loop.poller.wake ∨ stage = some .interrupt

theorem sound_create (wakeFd : Handle) : Sound { cycle := .start wakeFd } none where
  alone := ⟨0, rfl⟩
  task := Task.sound_idle true
  agrees := rfl
  control := rfl
  resting _ := rfl
  outside _ := rfl
  quitting _ := nofun
  woken := nofun

section Calls

variable {stage : Option ReactorStage} {t : Nat} {s : ReactorStage}

theorem Sound.stage_eq (hr : r.Sound stage) (ht : r.calls.lookup t = some s) : stage = some s ∧ r.calls = [(t, s)] := by
  obtain ⟨t', hcalls⟩ := hr.alone
  cases stage with
  | none => rw [hcalls] at ht; cases ht
  | some s' =>
      rw [hcalls] at ht ⊢
      simp only [Option.toList_some, List.map_singleton, List.lookup_cons, List.lookup_nil] at ht ⊢
      split at ht
      next he =>
        cases ht
        rw [beq_iff_eq.mp he]
        exact ⟨rfl, rfl⟩
      next => cases ht

theorem Sound.stage_of_nil (hr : r.Sound stage) (h : r.calls = []) : stage = none := by
  obtain ⟨t, hcalls⟩ := hr.alone
  rw [h] at hcalls
  cases stage with
  | none => rfl
  | some s => cases hcalls

theorem goes_calls (h : r.calls = [(t, s)]) (next : Option ReactorStage) :
    (r.goes t next).calls = next.toList.map (t, ·) := by
  simp [goes, h]

end Calls

/-- What the steps of the task's own thread leave alone. -/
theorem inner_step {b : TaskLabel} {s t : Task} (hs : s.Sound) (hb : b.inner = true) (h : s.step b = some t) :
    t.running = s.running ∧ t.control = s.control := by
  cases Task.step_spec hs.spawning h with
  | wake _ _ | top _ _ | sleep _ _ _ _ | pass _ _ _ | quit _ _ _ | iterate _ _ _ _ | spin _ _ _ _ => exact ⟨rfl, rfl⟩
  | _ => cases hb

theorem inLoop_woken {th : LoopThread} (h : th.inLoop = true) : th.woken = th := by
  apply if_neg
  intro hp
  rw [LoopThread.inLoop, hp] at h
  cases h

/-- Only the return of `iterate` takes the loop thread out of it. -/
theorem inLoop_kept {b : TaskLabel} {s t : Task} (hs : s.Sound) (hb : b ≠ .ret) (h : s.step b = some t)
    (hl : s.thread.any LoopThread.inLoop = true) : t.thread.any LoopThread.inLoop = true := by
  obtain ⟨th, hth, hin⟩ := Option.any_eq_true .. |>.mp hl
  have hpc {th' : LoopThread} {pc : LoopPc} (ht : s.thread = some th') (hp : th'.pc = pc) : pc = .looping := by
    cases Option.some.inj (ht.symm.trans hth)
    exact hp.symm.trans (beq_iff_eq.mp hin)
  cases Task.step_spec hs.spawning h with
  | ret _ _ => exact absurd rfl hb
  | startRunning _ | start _ _ | stopStopped _ | stop _ _ | pause | resume => exact hl
  | spawn _ ht | unjoinable _ ht => rw [hth] at ht; cases ht
  | notifyAll _ | resumed _ => simpa [hth, inLoop_woken hin] using hin
  | requestStop _ ht =>
      cases Option.some.inj (ht.symm.trans hth)
      rw [Option.any_some, LoopThread.requestStop, inLoop_woken hin]
      exact hin
  | join _ ht hp | wake ht hp | top ht hp | sleep ht hp _ _ | pass ht hp _ | quit ht hp _ | iterate ht hp _ _
    | spin ht hp _ _ => cases hpc ht hp

theorem Sound.outside_step {stage : Option ReactorStage} {b : TaskLabel} {task : Task} (hr : r.Sound stage)
    (hb : b ≠ .ret) (h : r.task.step b = some task) (hl : looping { r with task } = false) : r.cycle.phase = .idle := by
  apply hr.outside
  rw [Bool.eq_false_iff] at hl ⊢
  exact fun hl' => hl (inLoop_kept hr.task hb h hl')

theorem Sound.cycle_step {stage : Option ReactorStage} {c : Cycle} {a : Label} (hr : r.Sound stage)
    (hq : ∀ q, a ≠ .quit q) (ha : a.onLoop = true → r.looping = true) (h : r.cycle.step a = some c) :
    Sound { r with cycle := c } stage := by
  have hquit := Cycle.step_quitting hq h
  refine { hr with
    agrees := hr.agrees, resting := Cycle.step_resting hr.resting h, outside := ?_, quitting := ?_, woken := ?_ }
  · intro hl
    have hno : a.onLoop = false := Bool.eq_false_iff.mpr fun he => by
      have := ha he
      rw [show r.looping = false from hl] at this
      cases this
    exact (Cycle.step_elsewhere hq hno h).1.trans (hr.outside hl)
  · intro s hs hsq
    exact hquit.trans (hr.quitting s hs hsq)
  · intro hqt hb
    obtain ⟨hb', hle⟩ := Cycle.step_blocking (hquit ▸ hqt) hq h hb
    exact (hr.woken (hquit ▸ hqt) hb').imp_left fun hw => Nat.lt_of_lt_of_le hw hle

section Exec

variable {t : Nat} {s : ReactorStage}

theorem Sound.woken_of_ne (hr : r.Sound (some s)) (hne : s ≠ .interrupt) (hq : r.cycle.loop.quitting = true)
    (hb : r.cycle.phase.Blocking) : 0 < r.cycle.loop.poller.wake :=
  (hr.woken hq hb).resolve_right fun he => hne (Option.some.inj he)

theorem Sound.task_step {b : TaskLabel} {task : Task} {next : Option ReactorStage} (hr : r.Sound (some s))
    (hcalls : r.calls = [(t, s)]) (hb : b ≠ .ret) (hs : s ≠ .interrupt) (h : r.task.step b = some task)
    (hagrees : Agrees { r with task } next) (hcontrol : task.control = Reactor.control next)
    (hquits : ∀ s', next = some s' → quits s' = true → quits s = true) : Sound ({ r with task }.goes t next) next where
  alone := ⟨t, goes_calls hcalls next⟩
  task := Task.step_sound hr.task h
  agrees := by cases next <;> exact hagrees
  control := hcontrol
  resting := hr.resting
  outside := hr.outside_step hb h
  quitting s' hs' hq := hr.quitting s rfl (hquits s' hs' hq)
  woken hq hblock := .inl (hr.woken_of_ne hs hq hblock)

theorem exec_sound (hr : r.Sound (some s)) (hcalls : r.calls = [(t, s)]) (h : r.exec t s = some u) :
    ∃ stage, u.Sound stage := by
  have hag := hr.agrees
  cases s with
  | clearQuitting =>
      cases h
      refine ⟨some .startTask, ⟨t, goes_calls hcalls _⟩, hr.task, hag, hr.control, hr.resting, hr.outside, ?_, nofun⟩
      rintro _ ⟨⟩ ⟨⟩
  | startTask =>
      obtain ⟨task, htask, rfl⟩ := Option.map_eq_some_iff.mp h
      cases Task.step_spec hr.task.spawning htask with
      | startRunning hrun => rw [hag.2] at hrun; cases hrun
      | start hc hrun =>
          rw [hrun]
          refine ⟨some .spawn, hr.task_step hcalls (by decide) (by decide) htask ⟨hag.1, rfl⟩ rfl ?_⟩
          rintro _ ⟨⟩ ⟨⟩
  | spawn =>
      obtain ⟨task, htask, rfl⟩ := Option.map_eq_some_iff.mp h
      cases Task.step_spec hr.task.spawning htask with
      | spawn hc _ =>
          have hu : Sound (goes { r with task := _ } t none) none :=
            hr.task_step hcalls (by decide) (by decide) htask (hag.1.trans hag.2.symm) rfl nofun
          exact ⟨none, hu⟩
  | setQuitting =>
      cases h
      exact ⟨some .interrupt, ⟨t, goes_calls hcalls _⟩, hr.task, hag, hr.control, hr.resting, hr.outside,
        fun _ _ _ => rfl, fun _ _ => .inr rfl⟩
  | interrupt =>
      cases h
      exact ⟨some .stopTask, ⟨t, goes_calls hcalls _⟩, hr.task, hag, hr.control, hr.resting, hr.outside,
        fun _ _ _ => hr.quitting _ rfl rfl, fun _ _ => .inl (Nat.succ_pos _)⟩
  | stopTask =>
      obtain ⟨task, htask, rfl⟩ := Option.map_eq_some_iff.mp h
      cases Task.step_spec hr.task.spawning htask with
      | stopStopped hrun => rw [hag.2] at hrun; cases hrun
      | stop hc hrun =>
          rw [hrun]
          exact ⟨some .notifyAll, hr.task_step hcalls (by decide) (by decide) htask ⟨hag.1, rfl⟩ rfl fun _ _ _ => rfl⟩
  | notifyAll =>
      obtain ⟨task, htask, rfl⟩ := Option.map_eq_some_iff.mp h
      cases Task.step_spec hr.task.spawning htask with
      | notifyAll hc =>
          exact ⟨some .requestStop, hr.task_step hcalls (by decide) (by decide) htask hag rfl fun _ _ _ => rfl⟩
  | requestStop =>
      obtain ⟨task, htask, rfl⟩ := Option.map_eq_some_iff.mp h
      cases Task.step_spec hr.task.spawning htask with
      | unjoinable hc ht => exact absurd ht (hr.task.joinable (.inr (.inl hc)))
      | requestStop hc _ =>
          have hu : Sound (goes { r with task := _ } t (some .join)) (some .join) :=
            hr.task_step hcalls (by decide) (by decide) htask hag rfl fun _ _ _ => rfl
          exact ⟨some .join, hu⟩
  | join =>
      obtain ⟨task, htask, rfl⟩ := Option.map_eq_some_iff.mp h
      cases Task.step_spec hr.task.spawning htask with
      | join hc _ _ =>
          exact ⟨some .setStopRequested, hr.task_step hcalls (by decide) (by decide) htask hag rfl fun _ _ _ => rfl⟩
  | setStopRequested =>
      cases h
      exact ⟨none, ⟨t, goes_calls hcalls _⟩, hr.task, hag.1.trans hag.2.symm, hr.control, hr.resting, hr.outside,
        nofun, fun hq hb => .inl (hr.woken_of_ne (by decide) hq hb)⟩

end Exec

theorem ret_spec {s t : Task} (h : s.step .ret = some t) :
    ∃ th, s.thread = some th ∧ t = { s with thread := some { th with pc := .top } } := by
  rw [Task.step] at h
  split at h
  next th hth =>
    obtain ⟨-, h⟩ := Option.ite_none_right_eq_some.mp h
    exact ⟨th, hth, (Option.some.inj h).symm⟩
  next => cases h

theorem ret_sound {stage : Option ReactorStage} {t : Task} (hr : r.Sound stage) (hidle : r.cycle.phase = .idle)
    (h : r.task.step .ret = some t) : Sound { r with task := t } stage := by
  have hsound := Task.step_sound hr.task h
  obtain ⟨th, -, rfl⟩ := ret_spec h
  exact { hr with task := hsound, agrees := hr.agrees, control := hr.control, outside := fun _ => hidle }

theorem Sound.enter {t : Nat} {started : Bool} {s : ReactorStage} (hr : r.Sound none) (hcalls : r.calls = [])
    (hagrees : Agrees { r with started } (some s)) (hcontrol : Reactor.control (some s) = .outside)
    (hquits : quits s = false) : Sound ({ r with started }.goes t (some s)) (some s) where
  alone := ⟨t, by simp [goes, hcalls]⟩
  task := hr.task
  agrees := hagrees
  control := hr.control.trans hcontrol.symm
  resting := hr.resting
  outside := hr.outside
  quitting s' hs' hq := by
    cases hs'
    rw [hquits] at hq
    cases hq
  woken hq hb := .inl ((hr.woken hq hb).resolve_right nofun)

theorem step_sound {stage : Option ReactorStage} (hr : r.Sound stage) (hok : r.Apart a) (h : r.step a = some u) :
    ∃ stage', u.Sound stage' := by
  cases step_spec h with
  | startStarted _ | stopStopped _ => exact ⟨stage, hr⟩
  | start hst =>
      obtain ⟨-, hcalls⟩ := hok hst
      cases hr.stage_of_nil hcalls
      exact ⟨_, hr.enter hcalls ⟨rfl, hr.agrees.symm.trans hst⟩ rfl rfl⟩
  | stop hst =>
      obtain ⟨-, hcalls⟩ := hok hst
      cases hr.stage_of_nil hcalls
      exact ⟨_, hr.enter hcalls ⟨rfl, hr.agrees.symm.trans hst⟩ rfl rfl⟩
  | exec hs hx =>
      obtain ⟨rfl, hcalls⟩ := hr.stage_eq hs
      exact exec_sound hr hcalls hx
  | @task b t hb ht =>
      obtain ⟨hrun, hcontrol⟩ := inner_step hr.task hb ht
      have hret : b ≠ .ret := by rintro rfl; cases hb
      refine ⟨stage, { hr with
        task := Task.step_sound hr.task ht, agrees := ?_, control := hcontrol.trans hr.control
        outside := hr.outside_step hret ht }⟩
      have := hr.agrees
      simpa only [Agrees, hrun] using this
  | within hq ha hc _ => exact ⟨stage, hr.cycle_step hq ha hc⟩
  | @returns a c t hq ha hc he ht =>
      have hidle : c.phase = .idle := by
        cases a with
        | loop | poll => exact beq_iff_eq.mp he
        | ret | call | exec | quit => cases he
      exact ⟨stage, ret_sound (hr.cycle_step hq ha hc) hidle ht⟩

theorem reachable_sound {wakeFd : Handle} {as : List ReactorLabel} (hok : Along step Apart { cycle := .start wakeFd } as)
    (h : run step { cycle := .start wakeFd } as = some r) : ∃ stage, r.Sound stage :=
  (throughout_of_along (I := fun r => ∃ stage, r.Sound stage) (fun _ _ _ ⟨_, hr⟩ hok hs => step_sound hr hok hs)
    ⟨none, sound_create wakeFd⟩ hok).last h

/-! ### After `stop` -/

/-- No call of `start` or `stop` is under way, and the loop is not started. -/
def Stopped (r : Reactor) : Prop := r.calls = [] ∧ r.started = false

theorem Stopped.thread (hs : r.Stopped) (hr : r.Sound none) : r.task.thread = none := by
  by_contra hne
  have hrun := hr.task.running.mpr (.inr ⟨hr.control, hne⟩)
  cases hs.2.symm.trans (hr.agrees.trans hrun)

theorem stopped_step (hs : r.Stopped) (hr : r.Sound none) (ha : ∀ t, a ≠ .start t) (h : r.step a = some u) :
    u.Stopped ∧ u.Sound none ∧ u.cycle.log.filter Note.ofLoop = r.cycle.log.filter Note.ofLoop := by
  have hno : r.looping = false := by rw [looping, hs.thread hr]; rfl
  have hok : r.Apart a := by
    cases a with
    | start t => exact absurd rfl (ha t)
    | stop t => exact fun hst => by rw [hs.2] at hst; cases hst
    | exec | task | cycle => trivial
  have hkept : u.Stopped ∧ u.cycle.log.filter Note.ofLoop = r.cycle.log.filter Note.ofLoop := by
    cases step_spec h with
    | startStarted _ | start _ => exact absurd rfl (ha _)
    | stopStopped _ => exact ⟨hs, rfl⟩
    | stop hst => rw [hs.2] at hst; cases hst
    | exec hst _ => rw [hs.1] at hst; cases hst
    | task _ _ => exact ⟨hs, rfl⟩
    | within hq hon hc _ | returns hq hon hc _ _ =>
        have hoff := Bool.eq_false_iff.mpr fun he => Bool.eq_false_iff.mp hno (hon he)
        exact ⟨hs, (Cycle.step_elsewhere hq hoff hc).2.2.2⟩
  obtain ⟨stage, hu⟩ := step_sound hr hok h
  cases hu.stage_of_nil hkept.1.1
  exact ⟨hkept.1, hu, hkept.2⟩

/-- After `stop` has returned, and until the next call of `start`, there is no loop thread:
nothing is polled and no callback, timer or deferred function runs, whatever the other
threads ask of the loop. The calls of `start` and `stop` before that did not overlap. -/
theorem silent_when_stopped {wakeFd : Handle} {as bs : List ReactorLabel}
    (hok : Along step Apart { cycle := .start wakeFd } as) (h : run step { cycle := .start wakeFd } as = some r)
    (hs : r.Stopped) (hb : run step r bs = some u) (hno : ∀ t, .start t ∉ bs) :
    u.task.thread = none ∧ u.cycle.phase = .idle ∧ u.cycle.busy = false ∧
      u.cycle.log.filter Note.ofLoop = r.cycle.log.filter Note.ofLoop := by
  obtain ⟨stage, hr⟩ := reachable_sound hok h
  cases hr.stage_of_nil hs.1
  have hend : u.Stopped ∧ u.Sound none ∧ u.cycle.log.filter Note.ofLoop = r.cycle.log.filter Note.ofLoop := by
    clear hok h
    induction bs generalizing r with
    | nil =>
        cases hb
        exact ⟨hs, hr, rfl⟩
    | cons b bs ih =>
        obtain ⟨v, hv, hu⟩ := run_cons.mp hb
        obtain ⟨hs', hr', hlog⟩ := stopped_step hs hr (fun t he => hno t (he ▸ List.mem_cons_self)) hv
        obtain ⟨hs'', hu', hlog'⟩ := ih hs' hu (fun t ht => hno t (List.mem_cons_of_mem b ht)) hr'
        exact ⟨hs'', hu', hlog'.trans hlog⟩
  obtain ⟨hstopped, hu, hlog⟩ := hend
  have hth := hstopped.thread hu
  have hidle := hu.outside (by rw [looping, hth]; rfl)
  exact ⟨hth, hidle, hu.resting (.inl hidle), hlog⟩

/-- Thread 1 starts the loop and stops it while its thread blocks in `::poll`. -/
def stoppedRun : List ReactorLabel :=
  [.start 1, .exec 1, .exec 1, .exec 1, .task .turn, .task .turn, .task .turn, .cycle (.loop 0), .cycle (.loop 0),
    .stop 1, .exec 1, .exec 1, .exec 1, .exec 1, .exec 1, .cycle (.poll (.returned [POLLIN])), .cycle (.loop 0),
    .cycle (.loop 0), .cycle (.loop 0), .cycle (.loop 0), .cycle (.loop 0), .cycle (.loop 0), .task .turn, .exec 1,
    .exec 1]

theorem stoppedRun_silent :
    ∃ r u, run step { cycle := .start 3 } stoppedRun = some r ∧ r.Stopped ∧
      run step r [.cycle (.call 2 .defer), .cycle (.exec 2 0), .cycle (.exec 2 0), .stop 2] = some u ∧
      u.cycle.loop.deferred = [0] ∧ u.cycle.log.filter Note.ofLoop = r.cycle.log.filter Note.ofLoop :=
  ⟨_, _, rfl, ⟨rfl, rfl⟩, rfl, rfl,
    (silent_when_stopped (by decide : Along step Apart { cycle := .start 3 } stoppedRun) rfl ⟨rfl, rfl⟩
      (rfl : run step _ [.cycle (.call 2 .defer), .cycle (.exec 2 0), .cycle (.exec 2 0), .stop 2] = _)
      (by simp)).2.2.2⟩

/-! ### `stop` returns -/

/-- How many steps the loop thread takes after it was asked to stop. -/
def left (r : Reactor) : Nat :=
  match r.task.thread with
  | none => 0
  | some th => if th.inLoop then r.cycle.rest + 1 else Task.left th.pc

/-- The loop thread's steps outside the functions that it runs. -/
def onLoop : ReactorLabel → Bool
  | .task .turn => true
  | .cycle a => Cycle.counted a
  | _ => false

def queues (r : Reactor) : ReactorLabel → Bool
  | .cycle a => r.cycle.queues a
  | _ => false

theorem Sound.joining (hr : r.Sound (some .join)) : ∃ th, r.task.thread = some th ∧ th.stop = true := by
  obtain ⟨th, hth⟩ := Option.ne_none_iff_exists'.mp (hr.task.joinable (.inr (.inr hr.control)))
  exact ⟨th, hth, (hr.task.stop th hth).mpr hr.control⟩

/-- A step of its own takes a thread that is being joined closer to its end outside `loop_`. -/
theorem joining_inner {b : TaskLabel} {s t : Task} {th : LoopThread} (hs : s.Sound) (hth : s.thread = some th)
    (hstop : th.stop = true) (hb : b.inner = true) (h : s.step b = some t) :
    th.inLoop = false ∧ ∃ th', t.thread = some th' ∧ th'.inLoop = false := by
  have heq {th' : LoopThread} (ht : s.thread = some th') : th' = th := Option.some.inj (ht.symm.trans hth)
  have hpc {pc : LoopPc} (hp : th.pc = pc) (hne : pc ≠ .looping) : th.inLoop = false := by
    rw [LoopThread.inLoop, hp, beq_eq_false_iff_ne]
    exact hne
  cases Task.step_spec hs.spawning h with
  | @wake th' ht hp =>
      cases heq ht
      have hw : th.woken = { th with pc := .waiting } := if_pos hp
      exact ⟨hpc hp nofun, _, rfl, by rw [hw]; rfl⟩
  | top ht hp =>
      cases heq ht
      exact ⟨hpc hp nofun, _, rfl, by rw [hstop]; rfl⟩
  | sleep ht hp _ hno | iterate ht hp hno _ | spin ht hp hno _ =>
      cases heq ht
      rw [hstop] at hno
      cases hno
  | pass ht hp _ | quit ht hp _ =>
      cases heq ht
      exact ⟨hpc hp nofun, _, rfl, rfl⟩
  | _ => cases hb

section Join

variable {t : Nat}

theorem joining_step (hr : r.Sound (some .join)) (hcalls : r.calls = [(t, .join)]) (hok : r.Apart a)
    (ha : a ≠ .exec t) (h : r.step a = some u) :
    u.calls = [(t, .join)] ∧ u.left + (onLoop a).toNat ≤ r.left + 2 * (r.queues a).toNat := by
  obtain ⟨th, hth, hstop⟩ := hr.joining
  have hquit : r.cycle.loop.quitting = true := hr.quitting _ rfl rfl
  cases step_spec h with
  | startStarted _ | stopStopped _ => exact ⟨hcalls, Nat.le_refl _⟩
  | start hst | stop hst =>
      -- it would begin while this one is under way
      have hnil := (hok hst).2
      rw [hcalls] at hnil
      cases hnil
  | @exec t' s _ hs _ =>
      rw [hcalls] at hs
      simp only [List.lookup_cons, List.lookup_nil] at hs
      split at hs
      next he => exact absurd (congrArg _ (beq_iff_eq.mp he)) ha
      next => cases hs
  | @task b task hb ht =>
      have hj : b ≠ .join := by rintro rfl; cases hb
      obtain ⟨-, -, th', hth', -, hle⟩ := Task.joining_step hr.control hth hstop ht hj
      obtain ⟨hno, th'', hth'', hno'⟩ := joining_inner hr.task hth hstop hb ht
      cases Option.some.inj (hth'.symm.trans hth'')
      refine ⟨hcalls, ?_⟩
      simp only [left, hth, hth', hno, hno', Bool.false_eq_true, if_false]
      cases b with
      | turn => exact hle
      | _ => exact Nat.le_trans (Nat.le_of_add_right_le hle) (Nat.le_add_right _ _)
  | @within a c hq hon hcy he =>
      refine ⟨hcalls, ?_⟩
      have hrest := Cycle.step_rest hquit hq hcy he
      simp only [left, hth]
      split
      next =>
        change c.rest + 1 + (Cycle.counted a).toNat ≤ r.cycle.rest + 1 + 2 * (r.cycle.queues a).toNat
        omega
      next hin =>
        have hoff : Cycle.counted a = false := by
          by_contra hcount
          have hloop := hon (by cases a <;> simp_all [Cycle.counted, Label.onLoop])
          rw [looping, hth] at hloop
          exact hin hloop
        change Task.left th.pc + (Cycle.counted a).toNat ≤ _
        rw [hoff]
        exact Nat.le_add_right _ _
  | @returns a c task hq hon hcy he ht =>
      have hin : th.inLoop = true := by
        have hloop := hon (by cases a <;> first | rfl | cases he)
        rwa [looping, hth] at hloop
      obtain ⟨th', hth', rfl⟩ := ret_spec ht
      cases Option.some.inj (hth.symm.trans hth')
      refine ⟨hcalls, ?_⟩
      have hpos := Cycle.rest_pos r.cycle
      have hown := Bool.toNat_le (onLoop (.cycle a))
      have hleft : r.left = r.cycle.rest + 1 := by rw [left, hth]; exact if_pos hin
      change 1 + _ ≤ _
      omega

theorem joining_run {bs : List ReactorLabel} (hr : r.Sound (some .join)) (hcalls : r.calls = [(t, .join)])
    (hok : Along step Apart r bs) (h : run step r bs = some u) (hno : .exec t ∉ bs) :
    (u.Sound (some .join) ∧ u.calls = [(t, .join)]) ∧
      u.left + bs.countP onLoop ≤ r.left + 2 * tally step queues r bs := by
  have hwaits : Along step (fun _ b => b ≠ .exec t) r bs :=
    Along.of_labels (fun b hb _ => ne_of_mem_of_not_mem hb hno) r
  have hstep : ∀ r b u, Sound r (some .join) ∧ r.calls = [(t, .join)] → r.Apart b ∧ b ≠ .exec t → r.step b = some u →
      (Sound u (some .join) ∧ u.calls = [(t, .join)]) ∧ u.left + (onLoop b).toNat ≤ r.left + 2 * (r.queues b).toNat := by
    rintro r b u ⟨hr, hcalls⟩ ⟨hok, hb⟩ hu
    obtain ⟨hcalls', hle⟩ := joining_step hr hcalls hok hb hu
    obtain ⟨stage, hu⟩ := step_sound hr hok hu
    obtain ⟨rfl, -⟩ := hu.stage_eq (t := t) (s := .join) (by simp [hcalls'])
    exact ⟨⟨hu, hcalls'⟩, hle⟩
  exact run_potential hstep ⟨hr, hcalls⟩ (hok.and hwaits) h

end Join

/-- The loop thread can go on in `iterate`: a function that it runs returns or goes on in a
call of the loop, `::poll` comes back, or the next step is taken. -/
theorem cycle_moves (c : Cycle) :
    ∃ a, (Cycle.counted a = true ∨ ∃ now, a = .exec loopThread now) ∧ (c.step a).isSome := by
  cases hb : c.busy with
  | true =>
      cases hi : c.inside loopThread with
      | none => exact ⟨.ret, .inl rfl, by simp [Cycle.step, hb, hi]⟩
      | some s => exact ⟨.exec loopThread 0, .inr ⟨0, rfl⟩, by simp [Cycle.step, hi]⟩
  | false =>
      cases hp : c.phase with
      | polling ms pfds => exact ⟨.poll .interrupted, .inl rfl, by simp [Cycle.step, hp, Cycle.answer]⟩
      | deferred fns | due fns =>
          refine ⟨.loop 0, .inl rfl, ?_⟩
          cases fns <;> simp [Cycle.step, Cycle.advance, hb, hp]
      | dispatch evs =>
          refine ⟨.loop 0, .inl rfl, ?_⟩
          cases evs with
          | nil => simp [Cycle.step, Cycle.advance, hb, hp]
          | cons ev rest =>
              simp only [Cycle.step, Cycle.advance, hb, hp, Bool.false_eq_true, if_false]
              split
              · rfl
              · split <;> rfl
      | idle | waiting _ | polled _ | swapping | timers | calling _ _ _ =>
          exact ⟨.loop 0, .inl rfl, by simp [Cycle.step, Cycle.advance, hb, hp]⟩

theorem turn_isSome {a : Label} (hl : r.looping = true) (h : (r.cycle.step a).isSome) (hq : ∀ q, a ≠ .quit q) :
    (r.step (.cycle a)).isSome := by
  obtain ⟨c, hc⟩ := Option.isSome_iff_exists.mp h
  obtain ⟨th, hth, hin⟩ := Option.any_eq_true .. |>.mp hl
  have hret : (r.task.step .ret).isSome := by simp [Task.step, hth, beq_iff_eq.mp hin]
  have hstep : r.step (.cycle a) = r.turn a := by
    cases a with
    | quit q => exact absurd rfl (hq q)
    | _ => exact if_pos fun _ => hl
  rw [hstep, turn, hc, Option.bind_some]
  split
  · rwa [Option.isSome_map]
  · rfl

/-- `stop` returns, when no other call of `start` or `stop` overlaps it. While thread `t`
waits in `join`, whatever the other threads do: the loop thread does not block in `::poll`,
since the eventfd holds a count; it takes a bounded number of steps outside the functions
that it runs, two more for each function or timer that is queued; and until `join` can
return, it can take the next one. -/
theorem stop_returns {wakeFd : Handle} {as bs : List ReactorLabel} {t : Nat}
    (hok : Along step Apart { cycle := .start wakeFd } as) (h : run step { cycle := .start wakeFd } as = some r)
    (hj : r.calls.lookup t = some .join) (hok' : Along step Apart r bs) (hb : run step r bs = some u)
    (hno : .exec t ∉ bs) :
    (u.cycle.phase.Blocking → 0 < u.cycle.loop.poller.wake) ∧
      bs.countP onLoop ≤ r.left + 2 * tally step queues r bs ∧
      ∃ a, (a = .exec t ∨ onLoop a = true ∨ ∃ now, a = .cycle (.exec loopThread now)) ∧ (u.step a).isSome := by
  obtain ⟨stage, hr⟩ := reachable_sound hok h
  obtain ⟨rfl, hcalls⟩ := hr.stage_eq hj
  obtain ⟨⟨hu, hcalls'⟩, hle⟩ := joining_run hr hcalls hok' hb hno
  obtain ⟨th, hth, hstop⟩ := hu.joining
  refine ⟨hu.woken_of_ne (by decide) (hu.quitting _ rfl rfl), by omega, ?_⟩
  by_cases hdone : th.pc = .done
  · have hjoin : (u.task.step .join).isSome := by simp [Task.step, hth, hu.control, control, hdone]
    exact ⟨.exec t, .inl rfl, by simpa [step, exec, hcalls'] using hjoin⟩
  rcases Task.joining_moves hu.task hth hstop hdone with hturn | hret
  · exact ⟨.task .turn, .inr (.inl rfl), by simpa [step, TaskLabel.inner] using hturn⟩
  · have hl : u.looping = true := by
      obtain ⟨t, ht⟩ := Option.isSome_iff_exists.mp hret
      simp only [Task.step, hth] at ht
      obtain ⟨hp, -⟩ := Option.ite_none_right_eq_some.mp ht
      simp [looping, hth, LoopThread.inLoop, hp]
    obtain ⟨a, ha, hmoves⟩ := cycle_moves u.cycle
    refine ⟨.cycle a, .inr (ha.imp id (Exists.imp fun now he => by rw [he])), turn_isSome hl hmoves ?_⟩
    rintro q rfl
    rcases ha with ha | ⟨now, ha⟩ <;> cases ha

def blockedStop : List ReactorLabel := stoppedRun.take 15

theorem blockedStop_returns :
    ∃ r u, run step { cycle := .start 3 } blockedStop = some r ∧ r.calls = [(1, .join)] ∧
      run step r [.cycle (.call 2 .defer), .cycle (.exec 2 0), .stop 2] = some u ∧ u.cycle.phase.Blocking ∧
      0 < u.cycle.loop.poller.wake :=
  ⟨_, _, rfl, rfl, rfl, trivial,
    (stop_returns (t := 1) (by decide : Along step Apart { cycle := .start 3 } blockedStop) rfl rfl (by decide)
      (rfl : run step _ [.cycle (.call 2 .defer), .cycle (.exec 2 0), .stop 2] = _) (by decide)).1 trivial⟩

/-- Thread 2 calls `start` while `stop` is between its wakeup and `task::stop`: it clears
`quitting_`, finds the task running and returns, and `stop` joins a thread that blocks in
`::poll`. -/
def overlappingStart : List ReactorLabel :=
  stoppedRun.take 12 ++ (stoppedRun.drop 15).take 7 ++
    [.start 2, .exec 2, .exec 2, .task .turn, .task .turn, .task .turn, .cycle (.loop 0), .cycle (.loop 0),
      .exec 1, .exec 1, .exec 1]

example : ∃ r, run step { cycle := .start 3 } overlappingStart = some r ∧ r.calls = [(1, .join)] ∧
    r.cycle.phase.Blocking ∧ r.cycle.loop.poller.wake = 0 :=
  ⟨_, rfl, rfl, trivial, rfl⟩

end Reactor
end CxNetworking.Core
