import CxNetworking.Core.PoolDrain
import CxNetworking.Core.Signal
import CxNetworking.Lib.Simulation

/-! `signal::emit_async` with the pool it goes through: the copies of the listeners are
submitted one after the other, each as a task of its own, while other threads connect,
disconnect and use the pool. -/
namespace CxNetworking.Core
open Execution

/-- A call of `emit_async`, by its number: the copies still to be submitted. -/
structure AsyncLoop where
  number : Nat
  priority : Priority
  rest : List Nat
  deriving DecidableEq, Repr

structure Job where
  emission : Nat
  task : Nat
  entry : Nat
  deriving DecidableEq, Repr

/-- A signal and a pool. `sending` are the calls of `emit_async` by the threads that make
them, and `jobs` what they have submitted, the latest first. The pool may have other
tasks. -/
structure AsyncSignal where
  signal : Signal := {}
  pool : ThreadPool
  sending : Submitter → Option AsyncLoop := fun _ => none
  emissions : Nat := 0
  jobs : List Job := []

/-- `submit` is one round of the loop of `emit_async`, up to the locked section. -/
inductive AsyncLabel where
  | connect
  | disconnect (id : Nat)
  | disconnectAll
  | emitAsync (x : Submitter) (p : Priority)
  | submit (x : Submitter) (p : Priority)
  | done (x : Submitter)
  | pool (b : PoolLabel)
  deriving DecidableEq, Repr

namespace AsyncSignal

/-- A thread inside `emit_async` makes no other call of `submit`, and a task that is there
does not end. -/
def outside (s : AsyncSignal) : PoolLabel → Bool
  | .submit x _ => (s.sending x).isNone
  | .finish i _ => (s.sending (.worker i)).isNone
  | _ => true

def step (s : AsyncSignal) : AsyncLabel → Option AsyncSignal
  | .connect => some { s with signal := s.signal.connect }
  | .disconnect id => some { s with signal := s.signal.erase id }
  | .disconnectAll => some { s with signal := s.signal.disconnectAll }
  | .emitAsync x p =>
    if s.sending x = none ∧ s.pool.maySubmit x then
      some { s with
        sending := Function.update s.sending x (some { number := s.emissions, priority := p, rest := s.signal.sinks })
        emissions := s.emissions + 1 }
    else none
  | .submit x p =>
    match s.sending x with
    | some { number, priority, rest := id :: rest } =>
      if priority = p ∧ s.pool.maySubmit x then
        some { s with
          pool := s.pool.push x p
          sending := Function.update s.sending x (some { number, priority, rest })
          jobs := { emission := number, task := s.pool.submitted, entry := id } :: s.jobs }
      else none
    | _ => none
  | .done x =>
    match s.sending x with
    | some { rest := [], .. } =>
      if x ∈ s.pool.notifying then none else some { s with sending := Function.update s.sending x none }
    | _ => none
  | .pool b => if s.outside b then (s.pool.step b).map fun pool => { s with pool } else none

inductive Step (s : AsyncSignal) : AsyncLabel → AsyncSignal → Prop
  | signal {a sig} : (∀ x p, a ≠ .submit x p ∧ a ≠ .emitAsync x p) → (∀ b, a ≠ .pool b) → Step s a { s with signal := sig }
  | emitAsync {x p} : s.sending x = none → Step s (.emitAsync x p) { s with
      sending := Function.update s.sending x (some { number := s.emissions, priority := p, rest := s.signal.sinks })
      emissions := s.emissions + 1 }
  | submit {x p number id rest} : s.sending x = some { number, priority := p, rest := id :: rest } →
      s.pool.maySubmit x = true → Step s (.submit x p) { s with
        pool := s.pool.push x p
        sending := Function.update s.sending x (some { number, priority := p, rest })
        jobs := { emission := number, task := s.pool.submitted, entry := id } :: s.jobs }
  | done {x number p} : s.sending x = some { number, priority := p, rest := [] } →
      Step s (.done x) { s with sending := Function.update s.sending x none }
  | pool {b q} : s.pool.step b = some q → Step s (.pool b) { s with pool := q }

variable {s t u : AsyncSignal} {a : AsyncLabel}

theorem step_spec (h : s.step a = some u) : Step s a u := by
  cases a with
  | connect | disconnect _ | disconnectAll =>
      cases h
      exact .signal (by simp) (by simp)
  | emitAsync x p =>
      obtain ⟨hg, h⟩ := Option.ite_none_right_eq_some.mp h
      cases h
      exact .emitAsync hg.1
  | submit x p =>
      rw [step] at h
      split at h
      next hx =>
        obtain ⟨⟨rfl, hm⟩, h⟩ := Option.ite_none_right_eq_some.mp h
        cases h
        exact .submit hx hm
      next => cases h
  | done x =>
      rw [step] at h
      split at h
      next hx =>
        split at h
        next => cases h
        next =>
          cases h
          exact .done hx
      next => cases h
  | pool b =>
      obtain ⟨-, h⟩ := Option.ite_none_right_eq_some.mp h
      obtain ⟨q, hq, rfl⟩ := Option.map_eq_some_iff.mp h
      exact .pool hq

def poolImage : AsyncLabel → List PoolLabel
  | .submit x p => [.submit x p]
  | .pool b => [b]
  | _ => []

theorem run_pool {as : List AsyncLabel} (h : run step s as = some u) :
    run ThreadPool.step s.pool (as.flatMap poolImage) = some u.pool := by
  refine Simulates.run_view AsyncSignal.pool ?_ h
  intro s a u hstep
  cases step_spec hstep with
  | signal hs hp =>
      have hnil : poolImage a = [] := by
        cases a with
        | submit x p => exact absurd rfl (hs x p).1
        | pool b => exact absurd rfl (hp b)
        | connect | disconnect _ | disconnectAll | emitAsync _ _ | done _ => rfl
      rw [hnil]
      rfl
  | emitAsync _ | done _ => rfl
  | submit _ hm => rw [poolImage, run_singleton, ThreadPool.step, if_pos hm]
  | pool hq => rwa [poolImage, run_singleton]

/-! ### The tasks of an emission -/

/-- The jobs of an emission, in the order in which they were submitted. -/
def jobsOf (e : Nat) (jobs : List Job) : List Job := (jobs.filter (·.emission == e)).reverse

/-- Emissions and tasks are numbered as they come. -/
structure Numbered (s : AsyncSignal) : Prop where
  sending : ∀ x l, s.sending x = some l → l.number < s.emissions
  emission : ∀ j ∈ s.jobs, j.emission < s.emissions
  task : ∀ j ∈ s.jobs, j.task < s.pool.submitted
  order : s.jobs.Pairwise fun newer older => older.task < newer.task

theorem submitted_mono {p q : ThreadPool} {b : PoolLabel} (h : p.step b = some q) : p.submitted ≤ q.submitted := by
  cases ThreadPool.step_spec h with
  | submit _ _ _ => exact Nat.le_succ _
  | stop _ _ _ _ =>
      rw [ThreadPool.requestStop]
      split <;> exact Nat.le_refl _
  | notifyOne _ _ | notifyNone _ _ | wake _ | take _ _ | idle _ _ | finish _ _ _ | destroy _ _ | join _ _ =>
      exact Nat.le_refl _

theorem sending_update {x y : Submitter} {new l : Option AsyncLoop} (h : Function.update s.sending x new y = l) :
    y = x ∧ l = new ∨ y ≠ x ∧ s.sending y = l := by
  by_cases hy : y = x
  · subst hy
    rw [Function.update_self] at h
    exact .inl ⟨rfl, h.symm⟩
  · rw [Function.update_of_ne hy] at h
    exact .inr ⟨hy, h⟩

theorem step_numbered (hs : s.Numbered) (h : s.step a = some u) : u.Numbered := by
  cases step_spec h with
  | signal _ _ => exact { hs with }
  | emitAsync _ =>
      refine { hs with sending := ?_, emission := fun j hj => Nat.lt_succ_of_lt (hs.emission j hj) }
      intro y l hl
      rcases sending_update hl with ⟨-, hl⟩ | ⟨-, hl⟩
      · cases hl
        exact Nat.lt_succ_self _
      · exact Nat.lt_succ_of_lt (hs.sending y l hl)
  | submit hx _ =>
      have hnumber := hs.sending _ _ hx
      constructor
      · intro y l hl
        rcases sending_update hl with ⟨-, hl⟩ | ⟨-, hl⟩
        · cases hl
          exact hnumber
        · exact hs.sending y l hl
      · exact List.forall_mem_cons.mpr ⟨hnumber, hs.emission⟩
      · exact List.forall_mem_cons.mpr ⟨Nat.lt_succ_self _, fun j hj => Nat.lt_succ_of_lt (hs.task j hj)⟩
      · exact List.pairwise_cons.mpr ⟨hs.task, hs.order⟩
  | done _ =>
      refine { hs with sending := ?_ }
      intro y l hl
      rcases sending_update hl with ⟨-, hl⟩ | ⟨-, hl⟩
      · cases hl
      · exact hs.sending y l hl
  | pool hq => exact { hs with task := fun j hj => Nat.lt_of_lt_of_le (hs.task j hj) (submitted_mono hq) }

/-- Thread `x` has submitted a first part of what emission `e` copied. -/
structure Sends (e : Nat) (x : Submitter) (copied : List Nat) (s : AsyncSignal) : Prop where
  issued : e < s.emissions
  elsewhere : ∀ y l, s.sending y = some l → l.number = e → y = x
  here : (∃ l, s.sending x = some l ∧ l.number = e ∧ (jobsOf e s.jobs).map Job.entry ++ l.rest = copied) ∨
    ((∀ l, s.sending x = some l → l.number ≠ e) ∧ (jobsOf e s.jobs).map Job.entry = copied)

theorem jobsOf_cons (e : Nat) (j : Job) (jobs : List Job) :
    jobsOf e (j :: jobs) = if j.emission = e then jobsOf e jobs ++ [j] else jobsOf e jobs := by
  by_cases he : j.emission = e <;> simp [jobsOf, he]

theorem Sends.other {e : Nat} {x y : Submitter} {copied : List Nat} {o : Option AsyncLoop} (hs : s.Sends e x copied)
    (hissued : e < u.emissions) (hsending : u.sending = Function.update s.sending y o)
    (hjobs : jobsOf e u.jobs = jobsOf e s.jobs) (hy : ∀ l, s.sending y = some l → l.number ≠ e)
    (ho : ∀ l, o = some l → l.number ≠ e) : u.Sends e x copied := by
  refine ⟨hissued, ?_, ?_⟩
  · intro z l hl hnumber
    rw [hsending] at hl
    rcases sending_update hl with ⟨-, hl⟩ | ⟨-, hl⟩
    · exact absurd hnumber (ho l hl.symm)
    · exact hs.elsewhere z l hl hnumber
  · rw [hsending, hjobs]
    rcases hs.here with ⟨l, hl, hnumber, hcopied⟩ | ⟨hnone, hcopied⟩
    · refine .inl ⟨l, ?_, hnumber, hcopied⟩
      have hxy : x ≠ y := by
        rintro rfl
        exact hy l hl hnumber
      exact (Function.update_of_ne hxy _ _).trans hl
    · refine .inr ⟨?_, hcopied⟩
      intro l hl
      rcases sending_update hl with ⟨-, hl⟩ | ⟨-, hl⟩
      · exact ho l hl.symm
      · exact hnone l hl

theorem step_sends {e : Nat} {x : Submitter} {copied : List Nat} (hs : s.Sends e x copied) (h : s.step a = some u) :
    u.Sends e x copied := by
  cases step_spec h with
  | signal _ _ => exact { hs with }
  | pool _ => exact { hs with }
  | @emitAsync y p hy =>
      refine hs.other (Nat.lt_succ_of_lt hs.issued) rfl rfl (by simp [hy]) ?_
      rintro _ ⟨⟩
      exact Nat.ne_of_gt hs.issued
  | @submit y p number id rest hy _ =>
      by_cases he : number = e
      · obtain rfl : y = x := hs.elsewhere y _ hy he
        rcases hs.here with ⟨l, hl, -, hcopied⟩ | ⟨hnone, -⟩
        · cases hy.symm.trans hl
          refine ⟨hs.issued, ?_, .inl ⟨_, Function.update_self .., he, ?_⟩⟩
          · intro z l hl hnumber
            rcases sending_update hl with ⟨rfl, -⟩ | ⟨-, hl⟩
            · rfl
            · exact hs.elsewhere z l hl hnumber
          · rw [jobsOf_cons, if_pos he]
            simpa using hcopied
        · exact absurd he (hnone _ hy)
      · refine hs.other hs.issued rfl (by rw [jobsOf_cons, if_neg he]) (by simp [hy, he]) ?_
        rintro _ ⟨⟩
        exact he
  | @done y number p hy =>
      by_cases he : number = e
      · obtain rfl : y = x := hs.elsewhere y _ hy he
        rcases hs.here with ⟨l, hl, -, hcopied⟩ | ⟨hnone, -⟩
        · cases hy.symm.trans hl
          rw [List.append_nil] at hcopied
          refine ⟨hs.issued, ?_, .inr ⟨?_, hcopied⟩⟩
          · intro z l hl hnumber
            rcases sending_update hl with ⟨-, hl⟩ | ⟨-, hl⟩
            · cases hl
            · exact hs.elsewhere z l hl hnumber
          · intro l hl
            cases (Function.update_self y _ _).symm.trans hl
        · exact absurd he (hnone _ hy)
      · exact hs.other hs.issued rfl rfl (by simp [hy, he]) (by simp)

theorem sends_begin {x : Submitter} {p : Priority} (hs : s.Numbered) (h : s.step (.emitAsync x p) = some u) :
    u.Sends s.emissions x s.signal.sinks := by
  cases step_spec h with
  | signal hne _ => exact absurd rfl (hne x p).2
  | emitAsync _ =>
      have hnone : jobsOf s.emissions s.jobs = [] := by
        rw [jobsOf, List.reverse_eq_nil_iff, List.filter_eq_nil_iff]
        intro j hj
        simpa using Nat.ne_of_lt (hs.emission j hj)
      refine ⟨Nat.lt_succ_self _, ?_, .inl ⟨_, Function.update_self .., rfl, by rw [hnone]; rfl⟩⟩
      intro y l hl hnumber
      rcases sending_update hl with ⟨rfl, -⟩ | ⟨-, hl⟩
      · rfl
      · exact absurd hnumber (Nat.ne_of_lt (hs.sending y l hl))

theorem numbered_create (n : Nat) : Numbered { pool := .create n } := ⟨by simp, by simp, by simp, List.Pairwise.nil⟩

/-- A pool that is quiet, or whose threads are all joined, has run every task once. -/
theorem finished_at_rest {n : Nat} {pool : ThreadPool} {as : List PoolLabel}
    (h : run ThreadPool.step (.create n) as = some pool)
    (hend : (∀ b, ThreadPool.isOwn b = true → pool.step b = none) ∨ pool.joined.length = pool.workers.length)
    {task : Nat} (hlt : task < pool.submitted) : (finishedTasks pool.log).count task = 1 := by
  have ht := ThreadPool.reachable_teardown h
  rcases hend with hquiet | hjoined
  · obtain ⟨hn, hidle⟩ := ThreadPool.quiet hquiet
    have hq := ThreadPool.quiet_queued (ThreadPool.reachable_wakeful h) ht hn hidle
    exact ThreadPool.finished_once h hq hidle hlt
  · have hexited := ht.all_exited hjoined
    exact ThreadPool.finished_once h (ht.emptied hexited) (fun w hw => .inr (hexited w hw)) hlt

/-- `emit_async` calls each listener that was connected when it was called exactly once: it
submits one task for each of them in the order of their connection, and when the pool has
nothing left to do, or its destructor has returned, each of these tasks has been run once,
whatever was connected, disconnected or submitted meanwhile. -/
theorem async_exactly_once {n : Nat} {as bs : List AsyncLabel} {x : Submitter} {p : Priority}
    (h : run step { pool := .create n } as = some s) (he : s.step (.emitAsync x p) = some t)
    (hb : run step t bs = some u) (hdone : ∀ l, u.sending x = some l → l.number ≠ s.emissions)
    (hend : (∀ b, ThreadPool.isOwn b = true → u.pool.step b = none) ∨ u.pool.joined.length = u.pool.workers.length) :
    (jobsOf s.emissions u.jobs).map Job.entry = s.signal.sinks ∧
      (jobsOf s.emissions u.jobs).Pairwise (fun earlier later => earlier.task < later.task) ∧
      ∀ j ∈ jobsOf s.emissions u.jobs, (finishedTasks u.pool.log).count j.task = 1 := by
  have hrun : run step { pool := .create n } (as ++ .emitAsync x p :: bs) = some u :=
    run_append h (run_cons.mpr ⟨t, he, hb⟩)
  have hs : s.Numbered := run_invariant (fun _ _ _ hi hs => step_numbered hi hs) (numbered_create n) h
  have hu : u.Numbered := run_invariant (fun _ _ _ hi hs => step_numbered hi hs) (numbered_create n) hrun
  have hsends : u.Sends s.emissions x s.signal.sinks :=
    run_invariant (fun _ _ _ hi hs => step_sends hi hs) (sends_begin hs he) hb
  refine ⟨?_, ?_, ?_⟩
  · rcases hsends.here with ⟨l, hl, hnumber, -⟩ | ⟨-, hcopied⟩
    · exact absurd hnumber (hdone l hl)
    · exact hcopied
  · rw [jobsOf, List.pairwise_reverse]
    exact hu.order.filter _
  · intro j hj
    rw [jobsOf, List.mem_reverse] at hj
    exact finished_at_rest (run_pool hrun) hend (hu.task j (List.mem_of_mem_filter hj))

/-- Two listeners are called by one worker; the second is disconnected before its turn, and
a third comes too late. -/
def asyncRun : List AsyncLabel :=
  [.submit (.outside 0) .high, .disconnect 1, .connect, .pool (.notify (.outside 0) none), .submit (.outside 0) .high,
    .pool (.turn 0), .pool (.notify (.outside 0) none), .done (.outside 0), .pool .destroy, .pool (.stop 0),
    .pool (.finish 0 .returned), .pool (.turn 0), .pool (.finish 0 .returned), .pool (.turn 0), .pool (.join 0)]

theorem asyncRun_exactly_once :
    ∃ s t u, run step { pool := .create 1 } [.connect, .connect] = some s ∧
      s.step (.emitAsync (.outside 0) .high) = some t ∧ run step t asyncRun = some u ∧ u.signal.sinks = [0, 2] ∧
      (jobsOf 0 u.jobs).map Job.entry = [0, 1] ∧
      ∀ j ∈ jobsOf 0 u.jobs, (finishedTasks u.pool.log).count j.task = 1 := by
  have h := async_exactly_once (n := 1) (h := (rfl : run step { pool := .create 1 } [.connect, .connect] = _))
    (x := .outside 0) (p := .high) rfl (rfl : run step _ asyncRun = _) (by simp) (.inr rfl)
  exact ⟨_, _, _, rfl, rfl, rfl, rfl, h.1, h.2.2⟩

end AsyncSignal
end CxNetworking.Core
