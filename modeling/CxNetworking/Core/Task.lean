import CxNetworking.Lib.Execution
import Mathlib.Data.List.Basic

/-! `core::task`: a dedicated thread that repeats a function until it is stopped. A call of
`start` or `stop` that changes `running_` goes on to use `thread_` outside the lock, so two
of them at a time are a data race, which has no step here; a call that finds the task as it
wants it returns at once and may come at any time. Any threads pause and resume the task. A
step is one locked section, one call on the condition variable, one reading of the stop
token, or the return of the repeated function. -/
namespace CxNetworking.Core
open Execution

/-- Where the dedicated thread stands in `task::run`: at the test of the loop, inside `wait`
and about to look at `paused_`, asleep there, at the second test, in `loop_`, returned. -/
inductive LoopPc where
  | top
  | waiting
  | asleep
  | check
  | looping
  | done
  deriving DecidableEq, Repr

/-- A started `jthread` with its stop state. -/
structure LoopThread where
  pc : LoopPc := .top
  stop : Bool := false
  deriving DecidableEq, Repr

/-- Where the thread that starts and stops the task stands: outside, before the assignment
in `start`, or in `stop` before `notify_all`, before `request_stop`, in `join`. -/
inductive Control where
  | outside
  | spawning
  | notifying
  | stopping
  | joining
  deriving DecidableEq, Repr

structure Task where
  /-- Whether `loop_` holds a function. -/
  callable : Bool := true
  running : Bool := false
  paused : Bool := false
  thread : Option LoopThread := none
  control : Control := .outside
  /-- The threads in `resume` that are still to call `notify_all`. -/
  resuming : List Nat := []
  /-- How often `loop_` was called. -/
  iterations : Nat := 0
  deriving DecidableEq, Repr

inductive TaskLabel where
  | start
  | spawn
  | stop
  | notifyAll
  | requestStop
  | join
  | pause
  | resume (t : Nat)
  | resumed (t : Nat)
  | wake
  | turn
  | ret
  deriving DecidableEq, Repr

def LoopThread.woken (th : LoopThread) : LoopThread := if th.pc = .asleep then { th with pc := .waiting } else th

/-- `request_stop` also ends the wait of a sleeper. -/
def LoopThread.requestStop (th : LoopThread) : LoopThread := { th.woken with stop := true }

namespace Task

/-- `task::run`, up to the next point where another thread may come in between. -/
def turn (s : Task) (th : LoopThread) : Option Task :=
  match th.pc with
  | .top => some { s with thread := some { th with pc := if th.stop then .done else .waiting } }
  | .waiting =>
    some { s with thread := some { th with pc := if s.paused = true ∧ th.stop = false then .asleep else .check } }
  | .check =>
    some (if th.stop then { s with thread := some { th with pc := .done } }
      else if s.callable then { s with thread := some { th with pc := .looping }, iterations := s.iterations + 1 }
      else { s with thread := some { th with pc := .top } })
  | .asleep | .looping | .done => none

def step (s : Task) : TaskLabel → Option Task
  | .start =>
    if s.running then some s
    else if s.control = .outside then some { s with running := true, paused := false, control := .spawning }
    else none
  | .spawn =>
    if s.control = .spawning then
      match s.thread with
      | none => some { s with thread := some {}, control := .outside }
      | some th =>
        -- The assignment to a `jthread` that still has a thread stops and joins it first.
        if th.pc = .done then some { s with thread := some {}, control := .outside }
        else if th.stop then none
        else some { s with thread := some th.requestStop }
    else none
  | .stop =>
    if s.running then
      if s.control = .outside then some { s with running := false, paused := false, control := .notifying } else none
    else some s
  | .notifyAll =>
    if s.control = .notifying then some { s with thread := s.thread.map .woken, control := .stopping } else none
  | .requestStop =>
    if s.control = .stopping then
      match s.thread with
      | none => some { s with control := .outside }
      | some th => some { s with thread := some th.requestStop, control := .joining }
    else none
  | .join =>
    match s.thread with
    | some th => if s.control = .joining ∧ th.pc = .done then some { s with thread := none, control := .outside } else none
    | none => none
  | .pause => some { s with paused := true }
  | .resume t => if t ∈ s.resuming then none else some { s with paused := false, resuming := t :: s.resuming }
  | .resumed t =>
    if t ∈ s.resuming then some { s with thread := s.thread.map .woken, resuming := s.resuming.erase t } else none
  | .wake =>
    match s.thread with
    | some th => if th.pc = .asleep then some { s with thread := some th.woken } else none
    | none => none
  | .turn => s.thread.bind s.turn
  | .ret =>
    match s.thread with
    | some th => if th.pc = .looping then some { s with thread := some { th with pc := .top } } else none
    | none => none

/-- The steps, one constructor for each way to go on; the assignment in `start` has none for
a task that still has a thread. -/
inductive Step (s : Task) : TaskLabel → Task → Prop
  | startRunning : s.running = true → Step s .start s
  | start : s.control = .outside → s.running = false →
      Step s .start { s with running := true, paused := false, control := .spawning }
  | spawn : s.control = .spawning → s.thread = none → Step s .spawn { s with thread := some {}, control := .outside }
  | stopStopped : s.running = false → Step s .stop s
  | stop : s.control = .outside → s.running = true →
      Step s .stop { s with running := false, paused := false, control := .notifying }
  | notifyAll : s.control = .notifying →
      Step s .notifyAll { s with thread := s.thread.map .woken, control := .stopping }
  | unjoinable : s.control = .stopping → s.thread = none → Step s .requestStop { s with control := .outside }
  | requestStop {th} : s.control = .stopping → s.thread = some th →
      Step s .requestStop { s with thread := some th.requestStop, control := .joining }
  | join {th} : s.control = .joining → s.thread = some th → th.pc = .done →
      Step s .join { s with thread := none, control := .outside }
  | pause : Step s .pause { s with paused := true }
  | resume {t} : Step s (.resume t) { s with paused := false, resuming := t :: s.resuming }
  | resumed {t} : t ∈ s.resuming →
      Step s (.resumed t) { s with thread := s.thread.map .woken, resuming := s.resuming.erase t }
  | wake {th} : s.thread = some th → th.pc = .asleep → Step s .wake { s with thread := some th.woken }
  | top {th} : s.thread = some th → th.pc = .top →
      Step s .turn { s with thread := some { th with pc := if th.stop then .done else .waiting } }
  | sleep {th} : s.thread = some th → th.pc = .waiting → s.paused = true → th.stop = false →
      Step s .turn { s with thread := some { th with pc := .asleep } }
  | pass {th} : s.thread = some th → th.pc = .waiting → ¬ (s.paused = true ∧ th.stop = false) →
      Step s .turn { s with thread := some { th with pc := .check } }
  | quit {th} : s.thread = some th → th.pc = .check → th.stop = true →
      Step s .turn { s with thread := some { th with pc := .done } }
  | iterate {th} : s.thread = some th → th.pc = .check → th.stop = false → s.callable = true →
      Step s .turn { s with thread := some { th with pc := .looping }, iterations := s.iterations + 1 }
  | spin {th} : s.thread = some th → th.pc = .check → th.stop = false → s.callable = false →
      Step s .turn { s with thread := some { th with pc := .top } }
  | ret {th} : s.thread = some th → th.pc = .looping → Step s .ret { s with thread := some { th with pc := .top } }

variable {s t : Task} {a : TaskLabel}

theorem turn_spec {th : LoopThread} (hth : s.thread = some th) (h : s.turn th = some t) : Step s .turn t := by
  rw [turn] at h
  split at h
  next hpc => cases h; exact .top hth hpc
  next hpc =>
    cases h
    split
    next hg => exact .sleep hth hpc hg.1 hg.2
    next hg => exact .pass hth hpc hg
  next hpc =>
    cases h
    split
    next hs => exact .quit hth hpc hs
    next hs =>
      split
      next hc => exact .iterate hth hpc (Bool.eq_false_iff.mpr hs) hc
      next hc => exact .spin hth hpc (Bool.eq_false_iff.mpr hs) (Bool.eq_false_iff.mpr hc)
  all_goals cases h

theorem step_spec (hspawn : s.control = .spawning → s.thread = none) (h : s.step a = some t) : Step s a t := by
  cases a with
  | start =>
      rw [step] at h
      split at h
      next hr =>
        cases h
        exact .startRunning hr
      next hr =>
        obtain ⟨hc, h⟩ := Option.ite_none_right_eq_some.mp h
        cases h
        exact .start hc (Bool.eq_false_iff.mpr hr)
  | spawn =>
      obtain ⟨hc, h⟩ := Option.ite_none_right_eq_some.mp h
      have ht := hspawn hc
      rw [ht] at h
      cases h
      exact .spawn hc ht
  | stop =>
      rw [step] at h
      split at h
      next hr =>
        obtain ⟨hc, h⟩ := Option.ite_none_right_eq_some.mp h
        cases h
        exact .stop hc hr
      next hr =>
        cases h
        exact .stopStopped (Bool.eq_false_iff.mpr hr)
  | notifyAll =>
      obtain ⟨hc, h⟩ := Option.ite_none_right_eq_some.mp h
      cases h
      exact .notifyAll hc
  | requestStop =>
      obtain ⟨hc, h⟩ := Option.ite_none_right_eq_some.mp h
      split at h
      next ht => cases h; exact .unjoinable hc ht
      next th ht => cases h; exact .requestStop hc ht
  | join =>
      rw [step] at h
      split at h
      next th ht =>
        obtain ⟨hg, h⟩ := Option.ite_none_right_eq_some.mp h
        cases h
        exact .join hg.1 ht hg.2
      next => cases h
  | pause => cases h; exact .pause
  | resume u =>
      obtain ⟨-, h⟩ := Option.ite_none_left_eq_some.mp h
      cases h
      exact .resume
  | resumed u =>
      obtain ⟨hu, h⟩ := Option.ite_none_right_eq_some.mp h
      cases h
      exact .resumed hu
  | wake =>
      rw [step] at h
      split at h
      next th ht =>
        obtain ⟨hp, h⟩ := Option.ite_none_right_eq_some.mp h
        cases h
        exact .wake ht hp
      next => cases h
  | turn =>
      obtain ⟨th, hth, h⟩ := Option.bind_eq_some_iff.mp h
      exact turn_spec hth h
  | ret =>
      rw [step] at h
      split at h
      next th ht =>
        obtain ⟨hp, h⟩ := Option.ite_none_right_eq_some.mp h
        cases h
        exact .ret ht hp
      next => cases h

/-! ### What the members say about the thread -/

structure Sound (s : Task) : Prop where
  spawning : s.control = .spawning → s.thread = none
  running : s.running = true ↔ s.control = .spawning ∨ (s.control = .outside ∧ s.thread ≠ none)
  joinable : s.control = .notifying ∨ s.control = .stopping ∨ s.control = .joining → s.thread ≠ none
  stop : ∀ th, s.thread = some th → (th.stop = true ↔ s.control = .joining)
  done : ∀ th, s.thread = some th → th.pc = .done → th.stop = true
  /-- A sleeper is to be left alone, or a `notify_all` is on its way. -/
  asleep : ∀ th, s.thread = some th → th.pc = .asleep →
    th.stop = false ∧ (s.paused = true ∨ s.resuming ≠ [] ∨ s.control = .notifying)

theorem sound_idle (callable : Bool) : Sound { callable } := by
  constructor <;> simp

theorem woken_pc (th : LoopThread) : th.woken.pc ≠ .asleep := by
  rw [LoopThread.woken]
  split
  · exact nofun
  · assumption

theorem woken_done {th : LoopThread} (h : th.woken.pc = .done) : th.pc = .done := by
  rw [LoopThread.woken] at h
  split at h
  · cases h
  · exact h

theorem woken_stop (th : LoopThread) : th.woken.stop = th.stop := by
  rw [LoopThread.woken]
  split <;> rfl

theorem Sound.move {th : LoopThread} {pc : LoopPc} {n : Nat} (hs : s.Sound) (hth : s.thread = some th)
    (hdone : pc = .done → th.stop = true)
    (hasleep : pc = .asleep → th.stop = false ∧ (s.paused = true ∨ s.resuming ≠ [] ∨ s.control = .notifying)) :
    Sound { s with thread := some { th with pc }, iterations := n } where
  spawning hc := by rw [hs.spawning hc] at hth; cases hth
  running := by rw [hs.running]; simp [hth]
  joinable := by simp
  stop := by rintro _ ⟨⟩; exact hs.stop th hth
  done := by rintro _ ⟨⟩; exact hdone
  asleep := by rintro _ ⟨⟩; exact hasleep

theorem Sound.notify {control : Control} {resuming : List Nat} (hs : s.Sound)
    (hc : control = s.control ∨ s.control = .notifying ∧ control = .stopping) :
    Sound { s with thread := s.thread.map .woken, control, resuming } := by
  have hjoin : control = .joining ↔ s.control = .joining := by grind
  refine ⟨?_, ?_, ?_, ?_, ?_, ?_⟩
  · grind [hs.spawning]
  · grind [hs.running, Option.map_eq_none_iff]
  · grind [hs.joinable, Option.map_eq_none_iff]
  · intro _ ht
    obtain ⟨th, hth, rfl⟩ := Option.map_eq_some_iff.mp ht
    rw [woken_stop, hs.stop th hth, hjoin]
  · intro _ ht hp
    obtain ⟨th, hth, rfl⟩ := Option.map_eq_some_iff.mp ht
    rw [woken_stop]
    exact hs.done th hth (woken_done hp)
  · intro _ ht hp
    obtain ⟨th, -, rfl⟩ := Option.map_eq_some_iff.mp ht
    exact absurd hp (woken_pc th)

theorem step_sound (hs : s.Sound) (h : s.step a = some t) : t.Sound := by
  cases step_spec hs.spawning h with
  | startRunning _ | stopStopped _ => exact hs
  | start hc hr =>
      have hn : s.thread = none := by
        by_contra hne
        rw [hs.running.mpr (.inr ⟨hc, hne⟩)] at hr
        cases hr
      constructor <;> simp [hn]
  | spawn hc ht =>
      constructor <;> simp [hs.running.mpr (.inl hc)]
  | stop hc hr =>
      obtain hsp | ⟨-, hne⟩ := hs.running.mp hr
      · rw [hc] at hsp; cases hsp
      · refine ⟨nofun, by simp, fun _ => hne, ?_, hs.done, ?_⟩
        · intro th ht
          rw [hs.stop th ht, hc]
          simp
        · exact fun th ht hp => ⟨(hs.asleep th ht hp).1, .inr (.inr rfl)⟩
  | notifyAll hc => exact hs.notify (.inr ⟨hc, rfl⟩)
  | unjoinable hc ht => exact absurd ht (hs.joinable (.inr (.inl hc)))
  | @requestStop th hc ht =>
      have hr : s.running = false := by
        rw [Bool.eq_false_iff, ne_eq, hs.running, hc]
        simp
      refine ⟨nofun, by simp [hr], by simp, ?_, ?_, ?_⟩
      · rintro _ ⟨⟩
        simp [LoopThread.requestStop]
      · rintro _ ⟨⟩ _
        rfl
      · rintro _ ⟨⟩ hp
        exact absurd hp (woken_pc th)
  | join hc ht hp =>
      have hr : s.running = false := by
        rw [Bool.eq_false_iff, ne_eq, hs.running, hc]
        simp
      constructor <;> simp [hr]
  | pause => exact { hs with asleep := fun th ht hp => ⟨(hs.asleep th ht hp).1, .inl rfl⟩ }
  | resume => exact { hs with asleep := fun th ht hp => ⟨(hs.asleep th ht hp).1, .inr (.inl nofun)⟩ }
  | resumed _ => exact hs.notify (.inl rfl)
  | @wake th ht hp =>
      have hw : th.woken = { th with pc := .waiting } := if_pos hp
      rw [hw]
      exact hs.move ht nofun nofun
  | top ht _ =>
      apply hs.move ht
      · intro hd
        by_contra hstop
        rw [if_neg hstop] at hd
        cases hd
      · intro hd
        split at hd <;> cases hd
  | sleep ht _ hp hst => exact hs.move ht nofun fun _ => ⟨hst, .inl hp⟩
  | pass ht _ _ => exact hs.move ht nofun nofun
  | quit ht _ hst => exact hs.move ht (fun _ => hst) nofun
  | iterate ht _ _ _ => exact hs.move ht nofun nofun
  | spin ht _ _ _ => exact hs.move ht nofun nofun
  | ret ht _ => exact hs.move ht nofun nofun

theorem reachable_sound {b : Bool} {as : List TaskLabel} (h : run step { callable := b } as = some s) : s.Sound :=
  run_invariant (fun _ _ _ hi hs => step_sound hi hs) (sound_idle b) h

/-! ### `stop` -/

def isLoop : TaskLabel → Bool
  | .turn | .ret => true
  | _ => false

/-- How many steps a thread that was asked to stop takes before it returns. -/
def left : LoopPc → Nat
  | .done => 0
  | .top | .check => 1
  | .waiting | .looping | .asleep => 2

/-- While `stop` waits in `join`, nothing changes its mind: the thread stays asked, comes
closer to its end with each of its steps, and calls `loop_` no more. -/
theorem joining_step {th : LoopThread} (hc : s.control = .joining) (hth : s.thread = some th) (hstop : th.stop = true)
    (h : s.step a = some t) (ha : a ≠ .join) :
    t.control = .joining ∧ t.iterations = s.iterations ∧
      ∃ th', t.thread = some th' ∧ th'.stop = true ∧ left th'.pc + (isLoop a).toNat ≤ left th.pc := by
  have heq {th' : LoopThread} (ht : s.thread = some th') : th' = th := Option.some.inj (ht.symm.trans hth)
  have hwoken : left th.woken.pc ≤ left th.pc := by
    rw [LoopThread.woken]
    split
    next hp => rw [hp]; exact Nat.le_refl _
    next => exact Nat.le_refl _
  cases step_spec (by rw [hc]; exact nofun) h with
  | start hc' _ | spawn hc' _ | stop hc' _ | notifyAll hc' | unjoinable hc' _ | requestStop hc' _ =>
      rw [hc] at hc'
      cases hc'
  | join _ _ _ => exact absurd rfl ha
  | startRunning _ | stopStopped _ | pause | resume => exact ⟨hc, rfl, th, hth, hstop, Nat.le_refl _⟩
  | resumed _ =>
      refine ⟨hc, rfl, th.woken, ?_, (woken_stop th).trans hstop, hwoken⟩
      rw [hth]
      rfl
  | wake ht _ =>
      cases heq ht
      exact ⟨hc, rfl, _, rfl, (woken_stop th).trans hstop, hwoken⟩
  | top ht hp =>
      cases heq ht
      refine ⟨hc, rfl, _, rfl, hstop, ?_⟩
      simp only [hstop, hp, if_true]
      decide
  | sleep ht _ _ hno =>
      cases heq ht
      rw [hstop] at hno
      cases hno
  | pass ht hp _ =>
      cases heq ht
      refine ⟨hc, rfl, _, rfl, hstop, ?_⟩
      rw [hp]
      exact Nat.le_refl _
  | quit ht hp _ =>
      cases heq ht
      refine ⟨hc, rfl, _, rfl, hstop, ?_⟩
      rw [hp]
      exact Nat.le_refl _
  | iterate ht _ hno _ | spin ht _ hno _ =>
      cases heq ht
      rw [hstop] at hno
      cases hno
  | ret ht hp =>
      cases heq ht
      refine ⟨hc, rfl, _, rfl, hstop, ?_⟩
      rw [hp]
      exact Nat.le_refl _

/-- A thread that was asked to stop is not asleep, so it can go on until it returns. -/
theorem joining_moves {th : LoopThread} (hs : s.Sound) (hth : s.thread = some th) (hstop : th.stop = true)
    (hdone : th.pc ≠ .done) : (s.step .turn).isSome ∨ (s.step .ret).isSome := by
  cases hp : th.pc with
  | top | waiting | check => exact .inl (by simp [step, hth, turn, hp])
  | asleep =>
      have := (hs.asleep th hth hp).1
      rw [hstop] at this
      cases this
  | looping => exact .inr (by simp [step, hth, hp])
  | done => exact absurd hp hdone

theorem joining_run {th : LoopThread} {as : List TaskLabel} (hc : s.control = .joining) (hth : s.thread = some th)
    (hstop : th.stop = true) (h : run step s as = some t) (hno : .join ∉ as) :
    t.control = .joining ∧ t.iterations = s.iterations ∧
      ∃ th', t.thread = some th' ∧ th'.stop = true ∧ left th'.pc + as.countP isLoop ≤ left th.pc := by
  induction as generalizing s th with
  | nil =>
      cases h
      exact ⟨hc, rfl, th, hth, hstop, Nat.le_refl _⟩
  | cons a as ih =>
      obtain ⟨r, hr, ht⟩ := run_cons.mp h
      rw [List.mem_cons, not_or] at hno
      obtain ⟨hc', hi, th', hth', hstop', hle⟩ := joining_step hc hth hstop hr (Ne.symm hno.1)
      obtain ⟨hc'', hi', th'', hth'', hstop'', hle'⟩ := ih hc' hth' hstop' ht hno.2
      refine ⟨hc'', hi'.trans hi, th'', hth'', hstop'', ?_⟩
      rw [List.countP_cons]
      cases hl : isLoop a <;> simp only [hl, Bool.toNat_false, Bool.toNat_true] at hle <;> simp <;> omega

/-- `stop` ends the repetition. Outside `start` and `stop` the task has a thread exactly when
`is_running` says so. While `stop` waits in `join`, whatever other threads do, `loop_` is
not called again, the dedicated thread takes at most two more steps, one of which may be
the return of `loop_`, and until it has returned it can take the next one. -/
theorem stop_joins {b : Bool} {as : List TaskLabel} (h : run step { callable := b } as = some s) :
    (s.control = .outside → (s.running = true ↔ s.thread ≠ none)) ∧
      (s.control = .joining → ∀ bs t, run step s bs = some t → .join ∉ bs →
        t.iterations = s.iterations ∧ bs.countP isLoop ≤ 2 ∧
          ((t.step .join).isSome ∨ (t.step .turn).isSome ∨ (t.step .ret).isSome)) := by
  have hs := reachable_sound h
  constructor
  · intro hc
    rw [hs.running, hc]
    simp
  · intro hc bs t ht hno
    obtain ⟨th, hth⟩ := Option.ne_none_iff_exists'.mp (hs.joinable (.inr (.inr hc)))
    have hstop := (hs.stop th hth).mpr hc
    obtain ⟨hc', hi, th', hth', hstop', hle⟩ := joining_run hc hth hstop ht hno
    have hbound : left th.pc ≤ 2 := by cases th.pc <;> decide
    refine ⟨hi, by omega, ?_⟩
    by_cases hdone : th'.pc = .done
    · exact .inl (by simp [step, hth', hc', hdone])
    · have hs' : t.Sound := run_invariant (fun _ _ _ hi hs => step_sound hi hs) hs ht
      exact .inr (joining_moves hs' hth' hstop' hdone)

/-- The task is stopped while its thread sleeps in a pause that another thread is ending. -/
def pausedStop : List TaskLabel :=
  [.start, .spawn, .pause, .turn, .turn, .resume 1, .stop, .notifyAll, .requestStop]

theorem pausedStop_joins :
    ∃ s t, run step {} pausedStop = some s ∧ s.control = .joining ∧ run step s [.turn, .resumed 1, .turn] = some t ∧
      t.iterations = s.iterations ∧ ((t.step .join).isSome ∨ (t.step .turn).isSome ∨ (t.step .ret).isSome) := by
  obtain ⟨hi, -, hmoves⟩ := (stop_joins (b := true) (h := (rfl : run step {} pausedStop = _))).2 rfl
    [.turn, .resumed 1, .turn] _ rfl (by decide)
  exact ⟨_, _, rfl, rfl, rfl, hi, hmoves⟩

/-! ### `pause` and `resume` -/

/-- The dedicated thread has looked at `paused_` and is about to call `loop_`. -/
def committed (s : Task) : Nat :=
  match s.thread with
  | some { pc := .check, stop := false } => 1
  | _ => 0

def clears (s : Task) : TaskLabel → Bool
  | .start => !s.running
  | .stop => s.running
  | .resume _ => true
  | _ => false

theorem committed_le (s : Task) : s.committed ≤ 1 := by
  rw [committed]
  split <;> decide

theorem committed_eq_zero (th : LoopThread) (hth : s.thread = some th) (h : th.pc ≠ .check ∨ th.stop = true) :
    s.committed = 0 := by
  rw [committed, hth]
  split
  next heq => cases heq; simp at h
  next => rfl

theorem committed_woken (s : Task) (control : Control) (resuming : List Nat) :
    committed { s with thread := s.thread.map .woken, control, resuming } ≤ s.committed := by
  cases hth : s.thread with
  | none => exact Nat.zero_le _
  | some th =>
      by_cases hp : th.pc = .asleep
      · have hw : th.woken = { th with pc := .waiting } := if_pos hp
        rw [committed_eq_zero th.woken rfl (.inl (by rw [hw]; exact nofun))]
        exact Nat.zero_le _
      · have hw : th.woken = th := if_neg hp
        simp only [committed, Option.map_some, hw, hth]
        exact Nat.le_refl _

theorem paused_step (hs : s.Sound) (hp : s.paused = true) (hno : s.clears a = false) (h : s.step a = some t) :
    t.paused = true ∧ t.iterations + t.committed ≤ s.iterations + s.committed := by
  cases step_spec hs.spawning h with
  | start _ hr | stop _ hr =>
      rw [clears, hr] at hno
      cases hno
  | resume => cases hno
  | startRunning _ | stopStopped _ => exact ⟨hp, Nat.le_refl _⟩
  | spawn _ _ => exact ⟨hp, Nat.add_le_add_left (Nat.zero_le _) _⟩
  | notifyAll _ => exact ⟨hp, Nat.add_le_add_left (committed_woken s .stopping s.resuming) _⟩
  | unjoinable _ _ => exact ⟨hp, Nat.le_refl _⟩
  | @requestStop th _ _ =>
      refine ⟨hp, Nat.add_le_add_left ?_ _⟩
      rw [committed_eq_zero th.requestStop rfl (.inr rfl)]
      exact Nat.zero_le _
  | join _ _ _ => exact ⟨hp, Nat.add_le_add_left (Nat.zero_le _) _⟩
  | pause => exact ⟨rfl, Nat.le_refl _⟩
  | resumed _ => exact ⟨hp, Nat.add_le_add_left (committed_woken s s.control _) _⟩
  | @wake th ht hpc =>
      have hw : th.woken = { th with pc := .waiting } := if_pos hpc
      refine ⟨hp, Nat.add_le_add_left ?_ _⟩
      rw [committed_eq_zero th.woken rfl (.inl (by rw [hw]; exact nofun))]
      exact Nat.zero_le _
  | @top th ht _ =>
      refine ⟨hp, Nat.add_le_add_left ?_ _⟩
      rw [committed_eq_zero _ rfl (.inl (by split <;> exact nofun))]
      exact Nat.zero_le _
  | sleep _ _ _ _ => exact ⟨hp, Nat.add_le_add_left (Nat.zero_le _) _⟩
  | @pass th ht hpc hg =>
      -- Past a pause the thread only goes because it was asked to stop.
      have hstop : th.stop = true := by
        by_contra hne
        exact hg ⟨hp, Bool.eq_false_iff.mpr hne⟩
      refine ⟨hp, Nat.add_le_add_left ?_ _⟩
      rw [committed_eq_zero { th with pc := .check } rfl (.inr hstop)]
      exact Nat.zero_le _
  | quit _ _ _ | spin _ _ _ _ => exact ⟨hp, Nat.add_le_add_left (Nat.zero_le _) _⟩
  | @iterate th ht hpc hst _ =>
      refine ⟨hp, ?_⟩
      have hone : s.committed = 1 := by
        obtain ⟨pc, stop⟩ := th
        cases hpc
        cases hst
        rw [committed, ht]
      rw [hone]
      exact Nat.le_refl _
  | ret _ _ => exact ⟨hp, Nat.add_le_add_left (Nat.zero_le _) _⟩

def HeldThrough (s : Task) (as : List TaskLabel) : Prop := Along step (fun s a => s.clears a = false) s as

instance (s : Task) (as : List TaskLabel) : Decidable (s.HeldThrough as) :=
  inferInstanceAs (Decidable (Along step (fun s a => s.clears a = false) s as))

theorem paused_run {as : List TaskLabel} (hs : s.Sound) (hp : s.paused = true) (hno : s.HeldThrough as)
    (h : run step s as = some t) : t.iterations + t.committed ≤ s.iterations + s.committed := by
  induction as generalizing s with
  | nil =>
      cases h
      exact Nat.le_refl _
  | cons a as ih =>
      obtain ⟨r, hr, ht⟩ := run_cons.mp h
      obtain ⟨hp', hle⟩ := paused_step hs hp hno.1 hr
      exact Nat.le_trans (ih (step_sound hs hr) hp' (hno.2 r hr) ht) hle

/-- `pause` holds the repetition until `paused_` is cleared: `loop_` is called no more, but
for one call by a thread that had looked at the flag before. And no `resume` is missed: a
task that runs, is not paused and has no `notify_all` to come can go on. -/
theorem pause_holds {b : Bool} {as : List TaskLabel} (h : run step { callable := b } as = some s) :
    (s.paused = true → s.committed ≤ 1 ∧ ∀ bs t, s.HeldThrough bs → run step s bs = some t →
        t.iterations ≤ s.iterations + s.committed) ∧
      (s.paused = false → s.resuming = [] → s.control = .outside → s.running = true →
        (s.step .turn).isSome ∨ (s.step .ret).isSome) := by
  have hs := reachable_sound h
  constructor
  · intro hp
    refine ⟨committed_le s, fun bs t hno ht => ?_⟩
    have := paused_run hs hp hno ht
    omega
  · intro hp hr hc hrun
    obtain hsp | ⟨-, hne⟩ := hs.running.mp hrun
    · rw [hc] at hsp
      cases hsp
    obtain ⟨th, hth⟩ := Option.ne_none_iff_exists'.mp hne
    cases hpc : th.pc with
    | top | waiting | check => exact .inl (by simp [step, hth, turn, hpc])
    | asleep =>
        have := (hs.asleep th hth hpc).2
        simp [hp, hr, hc] at this
    | looping => exact .inr (by simp [step, hth, hpc])
    | done =>
        have := (hs.stop th hth).mp (hs.done th hth hpc)
        rw [hc] at this
        cases this

/-- The task is paused when its thread has just found it not paused. -/
def pausedLate : List TaskLabel := [.start, .spawn, .turn, .turn, .pause]

theorem pausedLate_holds :
    ∃ s t, run step {} pausedLate = some s ∧ s.paused = true ∧ s.committed = 1 ∧
      run step s [.turn, .ret, .start, .turn, .turn, .wake, .turn] = some t ∧ t.iterations = 1 ∧
      t.iterations ≤ s.iterations + s.committed :=
  ⟨_, _, rfl, rfl, rfl, rfl, rfl,
    ((pause_holds (b := true) (h := (rfl : run step {} pausedLate = _))).1 rfl).2
      [.turn, .ret, .start, .turn, .turn, .wake, .turn] _ (by decide) rfl⟩

end Task
end CxNetworking.Core
