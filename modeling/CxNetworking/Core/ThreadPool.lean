import CxNetworking.Lib.Execution
import Mathlib.Logic.Function.Basic

/-! `core::thread_pool`: worker threads that drain three queues by strict priority. A step
is one locked section, one call on the condition variable, the end of a task, or one part
of the destructor; any interleaving of them is a run. -/
namespace CxNetworking.Core

inductive Priority where
  | high
  | normal
  | low
  deriving DecidableEq, Repr

def Priority.index : Priority → Nat
  | .high => 0
  | .normal => 1
  | .low => 2

def Priority.all : List Priority := [.high, .normal, .low]

/-- Where a worker stands in `worker_loop`: about to lock the mutex and look at the queues
(at the top of its loop, or woken inside `wait`), asleep on `queue_cond_`, running the
task with this number, or returned. -/
inductive Worker where
  | ready
  | asleep
  | running (task : Nat)
  | exited
  deriving DecidableEq, Repr

def Worker.isReady : Worker → Bool
  | .ready => true
  | _ => false

def Worker.isRunning : Worker → Bool
  | .running _ => true
  | _ => false

/-- A thread that calls `submit`: one outside the pool, or a worker from inside its task. -/
inductive Submitter where
  | outside (thread : Nat)
  | worker (i : Nat)
  deriving DecidableEq, Repr

def Submitter.isOutside : Submitter → Bool
  | .outside _ => true
  | .worker _ => false

inductive Outcome where
  | returned
  | threw (what : String)
  | threwOther
  deriving DecidableEq, Repr

/-- What `worker_loop` prints on `std::cerr` after the task. -/
def Outcome.report : Outcome → List String
  | .returned => []
  | .threw what => ["lambdatech::networking::core::thread_pool: task threw: " ++ what ++ "\n"]
  | .threwOther => ["lambdatech::networking::core::thread_pool: task threw a non-exception value\n"]

/-- What happened to a task, named by the number of its `submit`. -/
inductive PoolNote where
  | submitted (task : Nat) (p : Priority)
  | took (i : Nat) (task : Nat) (p : Priority)
  | finished (i : Nat) (task : Nat) (o : Outcome)
  deriving DecidableEq, Repr

structure ThreadPool where
  workers : List Worker
  queues : Priority → List Nat := fun _ => []
  /-- The threads that have pushed a task and not yet called `notify_one`. -/
  notifying : List Submitter := []
  submitted : Nat := 0
  /-- The destructor runs. It destroys the `jthread`s one at a time: `request_stop`, then
  `join`. -/
  destroying : Bool := false
  stops : List Nat := []
  joined : List Nat := []
  cerr : List String := []
  /-- What happened, the latest first. -/
  log : List PoolNote := []

/-- A label names the thread that goes on. `notify` carries the sleeper that `notify_one`
wakes, and `wake` is a spurious wakeup. -/
inductive PoolLabel where
  | submit (s : Submitter) (p : Priority)
  | notify (s : Submitter) (woken : Option Nat)
  | wake (i : Nat)
  | turn (i : Nat)
  | finish (i : Nat) (o : Outcome)
  | destroy
  | stop (i : Nat)
  | join (i : Nat)
  deriving DecidableEq, Repr

/-- `dequeue_highest`: the loop over the queues; `none` is its `nullptr`. -/
def dequeueHighest (queues : Priority → List Nat) : List Priority → Option (Priority × Nat × (Priority → List Nat))
  | [] => none
  | p :: ps =>
    match queues p with
    | [] => dequeueHighest queues ps
    | task :: rest => some (p, task, Function.update queues p rest)

def hasPending (queues : Priority → List Nat) : Bool := Priority.all.any fun p => !(queues p).isEmpty

namespace ThreadPool

/-- The constructor: `std::max(1u, worker_count)` workers. -/
def create (workerCount : Nat) : ThreadPool := { workers := List.replicate (max 1 workerCount) .ready }

def setWorker (s : ThreadPool) (i : Nat) (w : Worker) : ThreadPool := { s with workers := s.workers.set i w }

/-- Whether the thread's code may be using the pool: a worker runs a task, and an outside
thread finds the pool alive. -/
def hosts (s : ThreadPool) : Submitter → Bool
  | .outside _ => !s.destroying
  | .worker i => (s.workers[i]?).any Worker.isRunning

/-- A thread calls `submit` when it is not inside another call of it. -/
def maySubmit (s : ThreadPool) (t : Submitter) : Bool := t ∉ s.notifying && s.hosts t

/-- The locked section of `submit`. -/
def push (s : ThreadPool) (t : Submitter) (p : Priority) : ThreadPool :=
  { s with
    queues := Function.update s.queues p (s.queues p ++ [s.submitted])
    notifying := t :: s.notifying
    submitted := s.submitted + 1
    log := .submitted s.submitted p :: s.log }

/-- The locked section of `worker_loop`, with the part of `wait` that holds the mutex: a
worker with nothing to run returns when its stop was requested and sleeps otherwise. -/
def turn (s : ThreadPool) (i : Nat) : Option ThreadPool :=
  if hasPending s.queues then
    (dequeueHighest s.queues Priority.all).map fun (p, task, queues) =>
      { s.setWorker i (.running task) with queues, log := .took i task p :: s.log }
  else some (s.setWorker i (if i ∈ s.stops then .exited else .asleep))

/-- The end of the task, with the handlers of `worker_loop`. -/
def finish (s : ThreadPool) (i task : Nat) (o : Outcome) : ThreadPool :=
  { s.setWorker i .ready with cerr := s.cerr ++ o.report, log := .finished i task o :: s.log }

/-- `request_stop` of a worker's `jthread` ends its wait. -/
def requestStop (s : ThreadPool) (i : Nat) : ThreadPool :=
  { (if s.workers[i]? = some .asleep then s.setWorker i .ready else s) with stops := i :: s.stops }

def step (s : ThreadPool) : PoolLabel → Option ThreadPool
  | .submit t p => if s.maySubmit t then some (s.push t p) else none
  | .notify t (some i) =>
    if t ∈ s.notifying ∧ s.workers[i]? = some .asleep then
      some { s.setWorker i .ready with notifying := s.notifying.erase t }
    else none
  | .notify t none =>
    if t ∈ s.notifying ∧ Worker.asleep ∉ s.workers then some { s with notifying := s.notifying.erase t } else none
  | .wake i => if s.workers[i]? = some .asleep then some (s.setWorker i .ready) else none
  | .turn i => if s.workers[i]? = some .ready then s.turn i else none
  | .finish i o =>
    match s.workers[i]? with
    | some (.running task) => if .worker i ∈ s.notifying then none else some (s.finish i task o)
    | _ => none
  | .destroy =>
    -- Destroying the pool under another thread's `submit` is outside the language.
    if s.destroying ∨ s.notifying.any Submitter.isOutside then none else some { s with destroying := true }
  | .stop i =>
    if s.destroying ∧ i < s.workers.length ∧ i ∉ s.stops ∧ s.stops.length = s.joined.length then
      some (s.requestStop i)
    else none
  | .join i =>
    if s.stops = i :: s.joined ∧ s.workers[i]? = some .exited then some { s with joined := i :: s.joined } else none

inductive Step (s : ThreadPool) : PoolLabel → ThreadPool → Prop
  | submit (t p) : s.maySubmit t = true → Step s (.submit t p) (s.push t p)
  | notifyOne {t i} : t ∈ s.notifying → s.workers[i]? = some .asleep →
      Step s (.notify t (some i)) { s.setWorker i .ready with notifying := s.notifying.erase t }
  | notifyNone {t} : t ∈ s.notifying → Worker.asleep ∉ s.workers →
      Step s (.notify t none) { s with notifying := s.notifying.erase t }
  | wake {i} : s.workers[i]? = some .asleep → Step s (.wake i) (s.setWorker i .ready)
  | take {i p task queues} : s.workers[i]? = some .ready →
      dequeueHighest s.queues Priority.all = some (p, task, queues) →
      Step s (.turn i) { s.setWorker i (.running task) with queues, log := .took i task p :: s.log }
  | idle {i} : s.workers[i]? = some .ready → hasPending s.queues = false →
      Step s (.turn i) (s.setWorker i (if i ∈ s.stops then .exited else .asleep))
  | finish {i task} (o) : s.workers[i]? = some (.running task) → .worker i ∉ s.notifying →
      Step s (.finish i o) (s.finish i task o)
  | destroy : s.destroying = false → (∀ t ∈ s.notifying, t.isOutside = false) →
      Step s .destroy { s with destroying := true }
  | stop {i} : s.destroying = true → i < s.workers.length → i ∉ s.stops → s.stops.length = s.joined.length →
      Step s (.stop i) (s.requestStop i)
  | join {i} : s.stops = i :: s.joined → s.workers[i]? = some .exited →
      Step s (.join i) { s with joined := i :: s.joined }

variable {s t u : ThreadPool} {a : PoolLabel}

theorem step_spec (h : s.step a = some t) : Step s a t := by
  cases a with
  | submit t p =>
      rw [step] at h
      split at h
      · cases h
        exact .submit t p ‹_›
      · cases h
  | notify t woken =>
      cases woken with
      | none =>
          rw [step] at h
          split at h
          next hg => cases h; exact .notifyNone hg.1 hg.2
          next => cases h
      | some i =>
          rw [step] at h
          split at h
          next hg => cases h; exact .notifyOne hg.1 hg.2
          next => cases h
  | wake i =>
      rw [step] at h
      split at h
      next hg => cases h; exact .wake hg
      next => cases h
  | turn i =>
      rw [step] at h
      split at h
      next hi =>
        rw [turn] at h
        split at h
        next =>
          obtain ⟨⟨p, task, queues⟩, hd, rfl⟩ := Option.map_eq_some_iff.mp h
          exact .take hi hd
        next hp => cases h; exact .idle hi (Bool.eq_false_iff.mpr hp)
      next => cases h
  | finish i o =>
      rw [step] at h
      split at h
      next task hi =>
        split at h
        next => cases h
        next hn => cases h; exact .finish o hi hn
      next => cases h
  | destroy =>
      rw [step] at h
      split at h
      next => cases h
      next hg =>
        cases h
        rw [not_or, Bool.not_eq_true, List.any_eq_true, not_exists] at hg
        exact .destroy hg.1 fun t ht => Bool.eq_false_iff.mpr fun ho => hg.2 t ⟨ht, ho⟩
  | stop i =>
      rw [step] at h
      split at h
      next hg => cases h; exact .stop hg.1 hg.2.1 hg.2.2.1 hg.2.2.2
      next => cases h
  | join i =>
      rw [step] at h
      split at h
      next hg => cases h; exact .join hg.1 hg.2
      next => cases h

end ThreadPool

/-! ### The queues -/

def queued (queues : Priority → List Nat) : List Nat := Priority.all.flatMap queues

theorem mem_all (p : Priority) : p ∈ Priority.all := by
  cases p <;> decide

theorem queued_eq_nil {queues : Priority → List Nat} : queued queues = [] ↔ ∀ p, queues p = [] := by
  simp only [queued, List.flatMap_eq_nil_iff, mem_all, forall_const]

theorem hasPending_false {queues : Priority → List Nat} : hasPending queues = false ↔ queued queues = [] := by
  simp only [hasPending, List.any_eq_false, Bool.not_eq_true', Bool.not_eq_false, List.isEmpty_iff, mem_all,
    forall_const, queued_eq_nil]

theorem queued_update (queues : Priority → List Nat) (p : Priority) (l : List Nat) :
    (queued (Function.update queues p l) ++ queues p).Perm (queued queues ++ l) := by
  rw [List.perm_iff_count]
  intro task
  cases p <;> simp [queued, Priority.all, Function.update] <;> omega

theorem dequeueHighest_spec {queues queues' : Priority → List Nat} {ps : List Priority} {p : Priority} {task : Nat}
    (h : dequeueHighest queues ps = some (p, task, queues')) :
    ∃ before after rest, ps = before ++ p :: after ∧ (∀ q ∈ before, queues q = []) ∧
      queues p = task :: rest ∧ queues' = Function.update queues p rest := by
  induction ps with
  | nil => cases h
  | cons q ps ih =>
      rw [dequeueHighest] at h
      split at h
      next hq =>
        obtain ⟨before, after, rest, hps, hb, hp⟩ := ih h
        refine ⟨q :: before, after, rest, by rw [hps]; rfl, ?_, hp⟩
        exact List.forall_mem_cons.mpr ⟨hq, hb⟩
      next first rest hq =>
        cases h
        exact ⟨[], ps, rest, rfl, List.forall_mem_nil _, hq, rfl⟩

theorem dequeueHighest_isSome {queues : Priority → List Nat} {ps : List Priority} {p : Priority} (hp : p ∈ ps)
    (h : queues p ≠ []) : (dequeueHighest queues ps).isSome := by
  induction ps with
  | nil => cases hp
  | cons q ps ih =>
      rw [dequeueHighest]
      split
      next hq =>
        rcases List.mem_cons.mp hp with rfl | hp
        · exact absurd hq h
        · exact ih hp
      next => rfl

theorem dequeueHighest_highest {queues queues' : Priority → List Nat} {p q : Priority} {task : Nat}
    (h : dequeueHighest queues Priority.all = some (p, task, queues')) (hq : q.index < p.index) : queues q = [] := by
  obtain ⟨before, after, rest, hps, hb, -, -⟩ := dequeueHighest_spec h
  apply hb
  match before, hps with
  | [], hps => cases hps; cases q <;> cases hq
  | [_], hps => cases hps; cases q <;> simp_all [Priority.index]
  | [_, _], hps => cases hps; cases q <;> simp_all [Priority.index]
  | _ :: _ :: _ :: _, hps => simp [Priority.all] at hps

theorem queued_dequeue {queues queues' : Priority → List Nat} {p : Priority} {task : Nat}
    (h : dequeueHighest queues Priority.all = some (p, task, queues')) :
    (task :: queued queues').Perm (queued queues) := by
  obtain ⟨-, -, rest, -, -, hp, rfl⟩ := dequeueHighest_spec h
  have hu := queued_update queues p rest
  rw [hp] at hu
  exact (List.perm_append_right_iff rest).mp (((List.perm_middle).symm.trans hu))

/-! ### Every task is in one place -/

theorem countP_set_add {α : Type*} {f : α → Bool} {l : List α} {i : Nat} {old : α} (h : l[i]? = some old) (new : α) :
    (l.set i new).countP f + (f old).toNat = l.countP f + (f new).toNat := by
  induction l generalizing i with
  | nil => cases h
  | cons x l ih =>
      cases i with
      | zero =>
          cases h
          rw [List.set_cons_zero, List.countP_cons, List.countP_cons]
          cases f old <;> cases f new <;> simp
      | succ i =>
          have hi := ih h
          rw [List.set_cons_succ, List.countP_cons, List.countP_cons]
          omega

def Worker.runs (task : Nat) : Worker → Bool
  | .running t => t == task
  | _ => false

def finishedTasks : List PoolNote → List Nat
  | [] => []
  | .finished _ task _ :: log => task :: finishedTasks log
  | .submitted _ _ :: log | .took _ _ _ :: log => finishedTasks log

namespace ThreadPool

/-- How many times the task stands in a queue, is being run, or has been run. -/
def places (s : ThreadPool) (task : Nat) : Nat :=
  (queued s.queues).count task + s.workers.countP (Worker.runs task) + (finishedTasks s.log).count task

def OnePlace (s : ThreadPool) : Prop := ∀ task, s.places task = if task < s.submitted then 1 else 0

variable {s t : ThreadPool} {a : PoolLabel}

theorem countP_setWorker {f : Worker → Bool} {i : Nat} {old : Worker} (h : s.workers[i]? = some old) (new : Worker) :
    (s.setWorker i new).workers.countP f + (f old).toNat = s.workers.countP f + (f new).toNat :=
  countP_set_add h new

theorem places_setWorker {i : Nat} {old new : Worker} (h : s.workers[i]? = some old)
    (hold : old.isRunning = false) (hnew : new.isRunning = false) (task : Nat) :
    (s.setWorker i new).places task = s.places task := by
  have hc := countP_setWorker (f := Worker.runs task) h new
  have ho : Worker.runs task old = false := by cases old <;> first | rfl | cases hold
  have hn : Worker.runs task new = false := by cases new <;> first | rfl | cases hnew
  rw [ho, hn] at hc
  rw [places, places, Nat.add_right_cancel hc]
  rfl

theorem places_push (s : ThreadPool) (x : Submitter) (p : Priority) (task : Nat) :
    (s.push x p).places task = s.places task + [s.submitted].count task := by
  have hu := (queued_update s.queues p (s.queues p ++ [s.submitted])).count_eq task
  simp only [List.count_append] at hu
  simp only [places, push, finishedTasks]
  omega

theorem places_take {i task : Nat} {p : Priority} {queues : Priority → List Nat} (hi : s.workers[i]? = some .ready)
    (hd : dequeueHighest s.queues Priority.all = some (p, task, queues)) (x : Nat) :
    places { s.setWorker i (.running task) with queues, log := .took i task p :: s.log } x = s.places x := by
  have hq := (queued_dequeue hd).count_eq x
  have hc := countP_setWorker (f := Worker.runs x) hi (.running task)
  simp only [places, finishedTasks]
  simp only [List.count_cons, Worker.runs] at hq hc
  cases hx : task == x <;> simp [hx] at hq hc <;> omega

theorem places_finish {i task : Nat} (hi : s.workers[i]? = some (.running task)) (o : Outcome) (x : Nat) :
    (s.finish i task o).places x = s.places x := by
  have hc := countP_setWorker (f := Worker.runs x) hi .ready
  simp only [places, finish, finishedTasks, List.count_cons]
  simp only [Worker.runs] at hc
  cases hx : task == x <;> simp [hx] at hc ⊢ <;> simp only [setWorker] at hc ⊢ <;> omega

theorem onePlace_create (n : Nat) : (create n).OnePlace := by
  intro task
  simp [places, create, queued, Priority.all, finishedTasks, List.countP_replicate, Worker.runs]

theorem step_onePlace (hs : s.OnePlace) (h : s.step a = some t) : t.OnePlace := by
  intro task
  have hp := hs task
  cases step_spec h with
  | submit x p _ =>
      rw [places_push, hp]
      change _ = if task < s.submitted + 1 then 1 else 0
      by_cases he : s.submitted = task
      · subst he; simp
      · rw [List.count_singleton, beq_eq_false_iff_ne.mpr he]
        have : task < s.submitted + 1 ↔ task < s.submitted := by omega
        simp [this]
  | notifyOne _ hi => exact (places_setWorker hi rfl rfl task).trans hp
  | notifyNone _ _ => exact hp
  | wake hi => exact (places_setWorker hi rfl rfl task).trans hp
  | take hi hd => exact (places_take hi hd task).trans hp
  | idle hi _ =>
      refine (places_setWorker hi rfl ?_ task).trans hp
      split <;> rfl
  | finish o hi _ => exact (places_finish hi o task).trans hp
  | destroy _ _ => exact hp
  | stop _ _ _ _ =>
      rw [requestStop]
      split
      next hi => exact (places_setWorker hi rfl rfl task).trans hp
      next => exact hp
  | join _ _ => exact hp

/-- A submitted task is in a queue, or run by one worker, or finished, and in one of these
only: no interleaving loses a task or runs it twice. -/
theorem task_in_one_place {n : Nat} {as : List PoolLabel} (h : Execution.run step (create n) as = some s) (task : Nat) :
    (queued s.queues).count task + s.workers.countP (Worker.runs task) + (finishedTasks s.log).count task =
      if task < s.submitted then 1 else 0 :=
  Execution.run_invariant (fun _ _ _ hi hs => step_onePlace hi hs) (onePlace_create n) h task

/-- The only worker runs a task that throws before the submitter has called `notify_one`. -/
def thrownRun : List PoolLabel :=
  [.submit (.outside 0) .low, .turn 0, .finish 0 (.threw "bad_function_call"), .notify (.outside 0) none]

theorem thrownRun_in_one_place :
    ∃ s, Execution.run step (create 0) thrownRun = some s ∧ s.submitted = 1 ∧
      (queued s.queues).count 0 + s.workers.countP (Worker.runs 0) + (finishedTasks s.log).count 0 = 1 :=
  ⟨_, rfl, rfl, task_in_one_place (n := 0) (h := (rfl : Execution.run step (create 0) thrownRun = _)) 0⟩

/-! ### The order in which tasks are taken -/

def submittedAt (p : Priority) : List PoolNote → List Nat
  | [] => []
  | .submitted task q :: log => submittedAt p log ++ if q = p then [task] else []
  | .took _ _ _ :: log | .finished _ _ _ :: log => submittedAt p log

def takenAt (p : Priority) : List PoolNote → List Nat
  | [] => []
  | .took _ task q :: log => takenAt p log ++ if q = p then [task] else []
  | .submitted _ _ :: log | .finished _ _ _ :: log => takenAt p log

/-- Each level is a first-in first-out queue. -/
def Ledger (s : ThreadPool) : Prop := ∀ p, submittedAt p s.log = takenAt p s.log ++ s.queues p

theorem step_ledger (hs : s.Ledger) (h : s.step a = some t) : t.Ledger := by
  intro q
  have hq := hs q
  cases step_spec h with
  | submit x p _ =>
      simp only [push, submittedAt, takenAt, hq, List.append_assoc]
      by_cases he : p = q
      · subst he; simp
      · simp [he, Function.update_of_ne (Ne.symm he)]
  | @take i p task queues _ hd =>
      obtain ⟨-, -, rest, -, -, hp, rfl⟩ := dequeueHighest_spec hd
      simp only [submittedAt, takenAt, hq, List.append_assoc]
      by_cases he : p = q
      · subst he; simp [hp]
      · simp [he, Function.update_of_ne (Ne.symm he)]
  | notifyOne _ _ => exact hq
  | notifyNone _ _ => exact hq
  | wake _ => exact hq
  | idle _ _ => exact hq
  | finish _ _ _ => exact hq
  | destroy _ _ => exact hq
  | stop _ _ _ _ =>
      rw [requestStop]
      split <;> exact hq
  | join _ _ => exact hq

/-- Strict priority, and first-in first-out within a level: a worker takes a task only when
every task submitted so far at a higher level and every earlier one of its own level has
been taken. -/
theorem took_in_order {n i task : Nat} {p : Priority} {as : List PoolLabel}
    (h : Execution.run step (create n) as = some s) (ht : s.step (.turn i) = some t)
    (hl : t.log = .took i task p :: s.log) :
    (∀ q : Priority, q.index < p.index → submittedAt q s.log = takenAt q s.log) ∧
      submittedAt p s.log = takenAt p s.log ++ task :: t.queues p := by
  have hledger : s.Ledger := Execution.run_invariant (fun _ _ _ hi hs => step_ledger hi hs) (fun _ => rfl) h
  generalize ha : PoolLabel.turn i = a at ht
  cases step_spec ht with
  | take hi hd =>
      cases hl
      constructor
      · intro q hq
        rw [hledger q, dequeueHighest_highest hd hq, List.append_nil]
      · obtain ⟨-, -, rest, -, -, hp, rfl⟩ := dequeueHighest_spec hd
        simp only [hledger p, hp, Function.update_self]
  | idle _ _ => exact absurd hl.symm (List.cons_ne_self _ _)
  | _ => cases ha

/-- The task of low priority is submitted first. -/
def overtakenRun : List PoolLabel := [.submit (.outside 0) .low, .submit (.outside 1) .high]

theorem overtakenRun_in_order :
    ∃ s t, Execution.run step (create 1) overtakenRun = some s ∧ s.step (.turn 0) = some t ∧
      t.log = .took 0 1 .high :: s.log ∧ submittedAt .high s.log = takenAt .high s.log ++ 1 :: t.queues .high :=
  ⟨_, _, rfl, rfl, rfl,
    (took_in_order (n := 1) (h := (rfl : Execution.run step (create 1) overtakenRun = _)) rfl rfl).2⟩

end ThreadPool
end CxNetworking.Core
