import CxNetworking.Core.Cycle
import CxNetworking.Core.Deadlines
import CxNetworking.Lib.History
import Mathlib.Data.List.Nodup

/-! Timers are conserved. A timer is pushed behind the others, leaves the table in the
batch of a cycle that finds it due or by a call of `clear_timeout` with its id, and runs
once if a batch has taken it. The history keeps what the table forgets. -/
namespace CxNetworking.Core
open Execution

def ranTimers : List Note → List Nat
  | [] => []
  | .ranTimer fn :: earlier => ranTimers earlier ++ [fn]
  | _ :: earlier => ranTimers earlier

/-- The functions of the current batch that were not run yet. -/
def Phase.dueBatch : Phase → List Nat
  | .due rest => rest
  | _ => []

/-- A call of `set_timeout`: its timer, the reading and the delay that gave the deadline,
and the batch that was being run, if one was. -/
structure Setting where
  timer : Timer Nat
  now : Int
  delay : Int
  during : Option Nat
  deriving DecidableEq, Repr

/-- A timer function is run, as part of a batch that was taken at a reading of the clock. -/
structure Firing where
  fn : Nat
  batch : Nat
  reading : Int
  deriving DecidableEq, Repr

/-- What a run has done about timers: the calls of `set_timeout` in order, the ids cleared
since they were handed out, the number of batches with the reading of the last one, and
the functions run. -/
structure Timeline where
  set : List Setting := []
  cleared : List Nat := []
  batches : Nat := 0
  reading : Int := 0
  ran : List Firing := []
  deriving DecidableEq, Repr

def Timeline.fns (g : Timeline) : List Nat := g.set.map (·.timer.fn)

/-- The firing is of a function that was set, with its deadline reached, and not while the
same batch was being run. -/
def Timeline.Due (g : Timeline) (r : Firing) : Prop :=
  ∃ s ∈ g.set, s.timer.fn = r.fn ∧ s.timer.when ≤ r.reading ∧ ∀ k, s.during = some k → k < r.batch

/-- The timers that were set and are neither gone into a batch nor cleared by their id, in
the order of the calls. -/
def pendingTimers (set : List Setting) (gone cleared : List Nat) : List (Timer Nat) :=
  (set.filter fun s => s.timer.fn ∉ gone ∧ s.timer.id ∉ cleared).map (·.timer)

theorem mem_pendingTimers {set : List Setting} {gone cleared : List Nat} {t : Timer Nat} :
    t ∈ pendingTimers set gone cleared ↔ ∃ s ∈ set, (s.timer.fn ∉ gone ∧ s.timer.id ∉ cleared) ∧ s.timer = t := by
  simp only [pendingTimers, List.mem_map, List.mem_filter, decide_eq_true_eq, and_assoc]

theorem pendingTimers_concat {set : List Setting} {gone cleared : List Nat} {s : Setting} (hgone : s.timer.fn ∉ gone)
    (hcleared : s.timer.id ∉ cleared) :
    pendingTimers (set ++ [s]) gone cleared = pendingTimers set gone cleared ++ [s.timer] := by
  simp [pendingTimers, hgone, hcleared]

theorem filter_pendingTimers {set : List Setting} {gone cleared gone' cleared' : List Nat} {keep : Timer Nat → Bool}
    (h : ∀ s ∈ set, s.timer.fn ∉ gone' ∧ s.timer.id ∉ cleared' ↔
      (s.timer.fn ∉ gone ∧ s.timer.id ∉ cleared) ∧ keep s.timer = true) :
    (pendingTimers set gone cleared).filter keep = pendingTimers set gone' cleared' := by
  rw [pendingTimers, List.filter_map, List.filter_filter]
  refine congrArg (List.map _) (List.filter_congr fun s hs => ?_)
  rw [Bool.eq_iff_iff, Bool.and_eq_true, decide_eq_true_eq, decide_eq_true_eq, h s hs, and_comm]
  rfl

theorem pendingTimers_fns_sublist (set : List Setting) (gone cleared : List Nat) :
    ((pendingTimers set gone cleared).map (·.fn)).Sublist (set.map (·.timer.fn)) := by
  rw [pendingTimers, List.map_map]
  exact List.filter_sublist.map _

namespace Cycle

/-- The functions that have left the table to be run: those run, and then those of the
current batch. -/
def gone (c : Cycle) : List Nat := ranTimers c.log ++ c.phase.dueBatch

def runningBatch (c : Cycle) (batch : Nat) : Option Nat :=
  match c.phase with
  | .due _ => some batch
  | _ => none

def setting (c : Cycle) (now delay : Int) (fn batch : Nat) : Setting where
  timer := { id := c.loop.nextTimerId, when := deadline now delay, fn }
  now := now
  delay := delay
  during := c.runningBatch batch

def recordTimers (c : Cycle) (a : Label) (g : Timeline) : Timeline :=
  match a with
  | .loop now =>
    match c.phase with
    | .timers => { g with batches := g.batches + 1, reading := now }
    | .due (fn :: _) => { g with ran := g.ran ++ [{ fn, batch := g.batches, reading := g.reading }] }
    | _ => g
  | .exec t now =>
    match c.inside t with
    | some (.pushTimer delay fn) => { g with set := g.set ++ [c.setting now delay fn g.batches] }
    | some (.clearTimeout id) => if id < c.loop.nextTimerId then { g with cleared := id :: g.cleared } else g
    | _ => g
  | _ => g

/-! What a step does about timers. -/

structure Untimed (c d : Cycle) : Prop where
  timers : d.loop.timers = c.loop.timers
  next : d.loop.nextTimerId = c.loop.nextTimerId
  ran : ranTimers d.log = ranTimers c.log
  batch : d.phase.dueBatch = c.phase.dueBatch

theorem Untimed.gone {c d : Cycle} (h : Untimed c d) : d.gone = c.gone := by
  rw [Cycle.gone, Cycle.gone, h.ran, h.batch]

/-- A step takes a batch, runs the first function of one, pushes a timer, clears an id, or
leaves the timers alone. -/
inductive Moves (c : Cycle) : Label → Cycle → Prop
  | none {a d} : Untimed c d → (∀ g, c.recordTimers a g = g) → Moves c a d
  | fire {now} : c.phase = .timers →
      Moves c (.loop now) { c with loop := (c.loop.takeDue now).2, phase := .due (c.loop.takeDue now).1 }
  | run {now fn rest} : c.phase = .due (fn :: rest) → Moves c (.loop now) (c.enter (.due rest) (.ranTimer fn))
  | push {t now delay fn} : c.inside t = some (.pushTimer delay fn) →
      Moves c (.exec t now) (c.exec t now (.pushTimer delay fn))
  | clear {t now id} : c.inside t = some (.clearTimeout id) →
      Moves c (.exec t now) (c.exec t now (.clearTimeout id))

theorem advance_moves {c d : Cycle} {now : Int} (hd : Advance c now d) : Moves c (.loop now) d := by
  cases hd with
  | fire hp => exact .fire hp
  | runTimer hp => exact .run hp
  | stay hp _ | begin hp _ | snapshot hp | collect hp | swap hp | deferredDone hp | timersDone hp | dispatchDone hp
    | leave hp _ | skip hp _ _ | find hp _ _ | runDeferred hp | invoke hp =>
      refine .none ⟨rfl, rfl, rfl, ?_⟩ fun g => ?_
      · simp only [hp, enter, Phase.dueBatch]
      · simp only [recordTimers, hp]

theorem exec_moves {c : Cycle} {t : Nat} {s : Section} (now : Int) (hs : c.inside t = some s) :
    Moves c (.exec t now) (c.exec t now s) := by
  cases s with
  | pushTimer delay fn => exact .push hs
  | clearTimeout id => exact .clear hs
  | setInterest h events =>
      refine .none ⟨?_, ?_, rfl, rfl⟩ fun g => by simp only [recordTimers, hs]
      all_goals
        simp only [exec, Section.effect, EventLoop.setInterest]
        cases c.loop.watches[h]? <;> rfl
  | setWatch | setFd | updateFd | eraseWatch | dropFd | pushDeferred | interrupt =>
      exact .none ⟨rfl, rfl, rfl, rfl⟩ fun g => by simp only [recordTimers, hs]

theorem step_moves {c d : Cycle} {a : Label} (h : c.step a = some d) : Moves c a d := by
  rcases step_spec h with ⟨now, rfl, -, hd⟩ | ⟨ms, pfds, outcome, rfl, hp, hd⟩ | ⟨rfl, -, -, rfl⟩ |
    ⟨t, r, rfl, -, -, rfl⟩ | ⟨t, now, s, rfl, hs, rfl⟩ | ⟨q, rfl, rfl⟩
  · exact advance_moves hd
  · refine .none ?_ fun _ => rfl
    cases hd <;> exact ⟨rfl, rfl, rfl, by rw [hp]; rfl⟩
  · exact .none ⟨rfl, rfl, rfl, rfl⟩ fun _ => rfl
  · exact .none ⟨rfl, rfl, rfl, rfl⟩ fun _ => rfl
  · exact exec_moves now hs
  · exact .none ⟨rfl, rfl, rfl, rfl⟩ fun _ => rfl

theorem gone_fire {c : Cycle} (hp : c.phase = .timers) (now : Int) :
    gone { c with loop := (c.loop.takeDue now).2, phase := .due (c.loop.takeDue now).1 } =
      c.gone ++ (c.loop.takeDue now).1 := by
  simp [gone, hp, Phase.dueBatch]

theorem gone_run {c : Cycle} {fn : Nat} {rest : List Nat} (hp : c.phase = .due (fn :: rest)) :
    (c.enter (.due rest) (.ranTimer fn)).gone = c.gone := by
  simp [gone, hp, enter, ranTimers, Phase.dueBatch]

/-! The names of functions that are on their way to the table. -/

/-- No function in `fns` is about to be pushed, and no two threads push the same one. -/
structure FreshNames (c : Cycle) (fns : List Nat) : Prop where
  used : ∀ fn ∈ fns, fn < c.calls
  unused : ∀ t delay fn, c.inside t = some (.pushTimer delay fn) → fn < c.calls ∧ fn ∉ fns
  distinct : ∀ t u delay delay' fn, c.inside t = some (.pushTimer delay fn) →
    c.inside u = some (.pushTimer delay' fn) → t = u

theorem FreshNames.same {c d : Cycle} {fns : List Nat} (h : FreshNames c fns) (hinside : d.inside = c.inside)
    (hcalls : d.calls = c.calls) : FreshNames d fns := by
  refine ⟨?_, ?_, ?_⟩
  · simpa only [hcalls] using h.used
  · simpa only [hcalls, hinside] using h.unused
  · simpa only [hinside] using h.distinct

theorem FreshNames.call {c : Cycle} {fns : List Nat} (h : FreshNames c fns) (t : Nat) (r : Request) :
    FreshNames { c with inside := Function.update c.inside t (some (r.enter c.calls)), calls := c.calls + 1 } fns := by
  have hname : ∀ delay fn, r.enter c.calls = .pushTimer delay fn → fn = c.calls := by
    intro delay fn hr
    cases r <;> cases hr
    rfl
  refine ⟨fun fn hfn => Nat.lt_succ_of_lt (h.used fn hfn), ?_, ?_⟩
  · intro u delay fn hu
    simp only [Function.update_apply] at hu
    split at hu
    · rw [hname delay fn (Option.some.inj hu)]
      exact ⟨Nat.lt_succ_self _, fun hmem => Nat.lt_irrefl _ (h.used _ hmem)⟩
    · exact (h.unused u delay fn hu).imp_left Nat.lt_succ_of_lt
  · intro u v delay delay' fn hu hv
    simp only [Function.update_apply] at hu hv
    split at hu <;> split at hv
    · simp_all
    · rw [hname _ _ (Option.some.inj hu)] at hv
      exact absurd (h.unused v _ _ hv).1 (Nat.lt_irrefl _)
    · rw [hname _ _ (Option.some.inj hv)] at hu
      exact absurd (h.unused u _ _ hu).1 (Nat.lt_irrefl _)
    · exact h.distinct u v delay delay' fn hu hv

theorem inside_exec_pushTimer {c : Cycle} {t u : Nat} {now : Int} {s : Section} {delay : Int} {fn : Nat}
    (h : (c.exec t now s).inside u = some (.pushTimer delay fn)) : u ≠ t ∧ c.inside u = some (.pushTimer delay fn) := by
  rcases inside_exec_cases h with hlater | hu
  · cases hlater
  · exact hu

theorem FreshNames.exec {c : Cycle} {fns : List Nat} (h : FreshNames c fns) (t : Nat) (now : Int) (s : Section) :
    FreshNames (c.exec t now s) fns := by
  refine ⟨h.used, ?_, ?_⟩
  · intro u delay fn hu
    exact h.unused u delay fn (inside_exec_pushTimer hu).2
  · intro u v delay delay' fn hu hv
    exact h.distinct u v delay delay' fn (inside_exec_pushTimer hu).2 (inside_exec_pushTimer hv).2

theorem FreshNames.push {c : Cycle} {fns : List Nat} (h : FreshNames c fns) {t : Nat} {delay : Int} {fn : Nat} (now : Int)
    (hs : c.inside t = some (.pushTimer delay fn)) : FreshNames (c.exec t now (.pushTimer delay fn)) (fns ++ [fn]) := by
  have hexec := h.exec t now (.pushTimer delay fn)
  refine ⟨?_, ?_, hexec.distinct⟩
  · intro f hf
    rcases List.mem_append.mp hf with hf | hf
    · exact h.used f hf
    · rw [List.mem_singleton.mp hf]
      exact (h.unused t delay fn hs).1
  · intro u delay' f hu
    obtain ⟨hlt, hnot⟩ := hexec.unused u delay' f hu
    refine ⟨hlt, ?_⟩
    intro hf
    rcases List.mem_append.mp hf with hf | hf
    · exact hnot hf
    · obtain ⟨hut, hcu⟩ := inside_exec_pushTimer hu
      rw [List.mem_singleton.mp hf] at hcu
      exact hut (h.distinct u t delay' delay fn hcu hs)

/-! The invariant. -/

/-- The table is what was set and is still pending, in order; what was run or is about to
be was due. -/
structure Kept (c : Cycle) (g : Timeline) : Prop where
  fresh : FreshNames c g.fns
  fns : g.fns.Nodup
  ids : g.set.Pairwise (·.timer.id < ·.timer.id)
  issued : ∀ s ∈ g.set, s.timer.id < c.loop.nextTimerId
  cleared : ∀ id ∈ g.cleared, id < c.loop.nextTimerId
  whens : ∀ s ∈ g.set, s.timer.when = deadline s.now s.delay
  during : ∀ s ∈ g.set, ∀ k, s.during = some k → k ≤ g.batches
  log : g.ran.map (·.fn) = ranTimers c.log
  once : c.gone.Nodup
  fired : ∀ r ∈ g.ran, g.Due r
  taken : ∀ fn ∈ c.phase.dueBatch, g.Due { fn, batch := g.batches, reading := g.reading }
  table : c.loop.timers = pendingTimers g.set c.gone g.cleared

theorem start_kept (wakeFd : Handle) : Kept (start wakeFd) {} where
  fresh := ⟨by simp [Timeline.fns], by simp [start], by simp [start]⟩
  fns := .nil
  ids := .nil
  issued := by simp
  cleared := by simp
  whens := by simp
  during := by simp
  log := rfl
  once := .nil
  fired := by simp
  taken := by simp [start, Phase.dueBatch]
  table := rfl

section Facts

variable {c : Cycle} {g : Timeline} (h : Kept c g)
include h

theorem Kept.mem_timers {t : Timer Nat} : t ∈ c.loop.timers ↔
    ∃ s ∈ g.set, (s.timer.fn ∉ c.gone ∧ s.timer.id ∉ g.cleared) ∧ s.timer = t := by
  rw [h.table, mem_pendingTimers]

theorem Kept.unique {s s' : Setting} (hs : s ∈ g.set) (hs' : s' ∈ g.set) (hfn : s.timer.fn = s'.timer.fn) : s = s' :=
  List.inj_on_of_nodup_map h.fns hs hs' hfn

theorem Kept.mem_fns {fn : Nat} (hfn : fn ∈ c.gone) : fn ∈ g.fns := by
  rcases List.mem_append.mp hfn with hran | hdue
  · rw [← h.log] at hran
    obtain ⟨r, hr, rfl⟩ := List.mem_map.mp hran
    obtain ⟨s, hs, hfn, _⟩ := h.fired r hr
    exact List.mem_map.mpr ⟨s, hs, hfn⟩
  · obtain ⟨s, hs, hfn, _⟩ := h.taken fn hdue
    exact List.mem_map.mpr ⟨s, hs, hfn⟩

theorem Kept.mem_takeDue {now : Int} {s : Setting} (hs : s ∈ g.set) :
    s.timer.fn ∈ (c.loop.takeDue now).1 ↔
      (s.timer.fn ∉ c.gone ∧ s.timer.id ∉ g.cleared) ∧ s.timer.when ≤ now := by
  simp only [EventLoop.takeDue, List.mem_map, List.mem_filter, decide_eq_true_eq]
  constructor
  · rintro ⟨t, ⟨ht, hdue⟩, hfn⟩
    obtain ⟨s', hs', hpending, rfl⟩ := h.mem_timers.mp ht
    cases h.unique hs hs' hfn.symm
    exact ⟨hpending, hdue⟩
  · rintro ⟨hpending, hdue⟩
    exact ⟨s.timer, ⟨h.mem_timers.mpr ⟨s, hs, hpending, rfl⟩, hdue⟩, rfl⟩

theorem Kept.takeDue_sublist (now : Int) : (c.loop.takeDue now).1.Sublist g.fns := by
  refine (List.filter_sublist.map _).trans ?_
  rw [h.table]
  exact pendingTimers_fns_sublist ..

theorem Kept.same {d : Cycle} (hd : Untimed c d) (hfresh : FreshNames d g.fns) : Kept d g := by
  refine ⟨hfresh, h.fns, h.ids, hd.next ▸ h.issued, hd.next ▸ h.cleared, h.whens, h.during, ?_, ?_, h.fired, ?_, ?_⟩
  · rw [hd.ran]
    exact h.log
  · rw [hd.gone]
    exact h.once
  · rw [hd.batch]
    exact h.taken
  · rw [hd.timers, hd.gone]
    exact h.table

theorem Kept.fire (hp : c.phase = .timers) (now : Int) :
    Kept { c with loop := (c.loop.takeDue now).2, phase := .due (c.loop.takeDue now).1 }
      { g with batches := g.batches + 1, reading := now } := by
  have hgone := gone_fire hp now
  have hset : ∀ fn ∈ (c.loop.takeDue now).1, ∃ s ∈ g.set, s.timer.fn = fn :=
    fun fn hfn => List.mem_map.mp ((h.takeDue_sublist now).subset hfn)
  refine ⟨h.fresh.same rfl rfl, h.fns, h.ids, h.issued, h.cleared, h.whens, ?_, h.log, ?_, h.fired, ?_, ?_⟩
  · exact fun s hs k hk => Nat.le_succ_of_le (h.during s hs k hk)
  · rw [hgone]
    refine List.nodup_append.mpr ⟨h.once, (h.takeDue_sublist now).nodup h.fns, ?_⟩
    rintro fn hout _ hdue rfl
    obtain ⟨s, hs, rfl⟩ := hset fn hdue
    exact ((h.mem_takeDue hs).mp hdue).1.1 hout
  · intro fn hfn
    obtain ⟨s, hs, rfl⟩ := hset fn hfn
    exact ⟨s, hs, rfl, ((h.mem_takeDue hs).mp hfn).2, fun k hk => Nat.lt_succ_of_le (h.during s hs k hk)⟩
  · rw [hgone]
    refine (congrArg (List.filter _) h.table).trans (filter_pendingTimers fun s hs => ?_)
    rw [List.mem_append, h.mem_takeDue hs, decide_eq_true_eq]
    tauto

theorem Kept.runFirst {fn : Nat} {rest : List Nat} (hp : c.phase = .due (fn :: rest)) :
    Kept (c.enter (.due rest) (.ranTimer fn))
      { g with ran := g.ran ++ [{ fn, batch := g.batches, reading := g.reading }] } := by
  have htaken := h.taken
  rw [hp] at htaken
  refine ⟨h.fresh.same rfl rfl, h.fns, h.ids, h.issued, h.cleared, h.whens, h.during, ?_, ?_, ?_, ?_, ?_⟩
  · rw [List.map_append, h.log]
    rfl
  · rw [gone_run hp]
    exact h.once
  · refine List.forall_mem_append.mpr ⟨h.fired, List.forall_mem_singleton.mpr ?_⟩
    exact htaken fn List.mem_cons_self
  · exact fun f hf => htaken f (List.mem_cons_of_mem fn hf)
  · rw [gone_run hp]
    exact h.table

theorem Kept.push {t : Nat} {delay : Int} {fn : Nat} (hs : c.inside t = some (.pushTimer delay fn)) (now : Int) :
    Kept (c.exec t now (.pushTimer delay fn)) (c.recordTimers (.exec t now) g) := by
  have hg : c.recordTimers (.exec t now) g = { g with set := g.set ++ [c.setting now delay fn g.batches] } := by
    simp only [recordTimers, hs]
  have hnew : fn ∉ g.fns := (h.fresh.unused t delay fn hs).2
  have hfns : (c.recordTimers (.exec t now) g).fns = g.fns ++ [fn] := by
    rw [hg, Timeline.fns, List.map_append]
    rfl
  have hdue : ∀ r, g.Due r → (c.recordTimers (.exec t now) g).Due r := by
    rintro r ⟨s, hs, hr⟩
    rw [hg]
    exact ⟨s, List.mem_append_left _ hs, hr⟩
  rw [hg] at hdue hfns ⊢
  refine ⟨?_, ?_, ?_, ?_, ?_, ?_, ?_, h.log, h.once, ?_, ?_, ?_⟩
  · rw [hfns]
    exact h.fresh.push now hs
  · rw [hfns, ← List.concat_eq_append]
    exact h.fns.concat hnew
  · refine List.pairwise_append.mpr ⟨h.ids, List.pairwise_singleton _ _, fun s hs s' hs' => ?_⟩
    cases List.mem_singleton.mp hs'
    exact h.issued s hs
  · refine List.forall_mem_append.mpr ⟨fun s hs => Nat.lt_succ_of_lt (h.issued s hs), ?_⟩
    exact List.forall_mem_singleton.mpr (Nat.lt_succ_self _)
  · exact fun id hid => Nat.lt_succ_of_lt (h.cleared id hid)
  · exact List.forall_mem_append.mpr ⟨h.whens, List.forall_mem_singleton.mpr rfl⟩
  · refine List.forall_mem_append.mpr ⟨h.during, List.forall_mem_singleton.mpr fun k hk => ?_⟩
    simp only [setting, runningBatch] at hk
    split at hk
    · cases hk
      exact Nat.le_refl _
    · cases hk
  · exact fun r hr => hdue r (h.fired r hr)
  · exact fun f hf => hdue _ (h.taken f hf)
  · -- the new timer is pending: its function is new, and its id was not handed out before
    have hgone : fn ∉ c.gone := fun hfn => hnew (h.mem_fns hfn)
    have hcleared : c.loop.nextTimerId ∉ g.cleared := fun hid => Nat.lt_irrefl _ (h.cleared _ hid)
    exact (congrArg (· ++ _) h.table).trans
      (@pendingTimers_concat g.set _ g.cleared (c.setting now delay fn g.batches) hgone hcleared).symm

theorem Kept.clear {t : Nat} {id : Nat} (hs : c.inside t = some (.clearTimeout id)) (now : Int) :
    Kept (c.exec t now (.clearTimeout id)) (c.recordTimers (.exec t now) g) := by
  have hfresh := h.fresh.exec t now (.clearTimeout id)
  by_cases hid : id < c.loop.nextTimerId
  · have hg : c.recordTimers (.exec t now) g = { g with cleared := id :: g.cleared } := by
      simp only [recordTimers, hs, if_pos hid]
    rw [hg]
    refine ⟨hfresh, h.fns, h.ids, h.issued, ?_, h.whens, h.during, h.log, h.once, h.fired, h.taken, ?_⟩
    · exact List.forall_mem_cons.mpr ⟨hid, h.cleared⟩
    · refine (congrArg (List.filter _) h.table).trans (filter_pendingTimers fun s _ => ?_)
      rw [List.mem_cons, not_or, bne_iff_ne]
      tauto
  · -- an id that was not handed out is nobody's
    have hg : c.recordTimers (.exec t now) g = g := by simp only [recordTimers, hs, if_neg hid]
    have htimers : (c.exec t now (.clearTimeout id)).loop.timers = c.loop.timers := by
      refine List.filter_eq_self.mpr fun u hu => bne_iff_ne.mpr ?_
      rintro rfl
      obtain ⟨s, hset, -, rfl⟩ := h.mem_timers.mp hu
      exact hid (h.issued s hset)
    rw [hg]
    exact h.same ⟨htimers, rfl, rfl, rfl⟩ hfresh

end Facts

theorem step_fresh {c d : Cycle} {a : Label} {fns : List Nat} (h : FreshNames c fns) (hd : c.step a = some d) : FreshNames d fns := by
  rcases step_spec hd with ⟨now, -, -, hd⟩ | ⟨ms, pfds, outcome, -, -, hd⟩ | ⟨-, -, -, rfl⟩ |
    ⟨t, r, -, -, -, rfl⟩ | ⟨t, now, s, -, hs, rfl⟩ | ⟨q, -, rfl⟩
  · cases hd <;> exact h.same rfl rfl
  · cases hd <;> exact h.same rfl rfl
  · exact h.same rfl rfl
  · exact h.call t r
  · exact h.exec t now s
  · exact h.same rfl rfl

theorem step_kept {c d : Cycle} {a : Label} {g : Timeline} (h : Kept c g) (hd : c.step a = some d) :
    Kept d (c.recordTimers a g) := by
  cases step_moves hd with
  | none hsame hg =>
      rw [hg]
      exact h.same hsame (step_fresh h.fresh hd)
  | @fire now hp =>
      have hg : c.recordTimers (.loop now) g = { g with batches := g.batches + 1, reading := now } := by
        simp only [recordTimers, hp]
      rw [hg]
      exact h.fire hp now
  | @run now fn rest hp =>
      have hg : c.recordTimers (.loop now) g =
          { g with ran := g.ran ++ [{ fn, batch := g.batches, reading := g.reading }] } := by
        simp only [recordTimers, hp]
      rw [hg]
      exact h.runFirst hp
  | @push _ now _ _ hs => exact h.push hs now
  | @clear _ now _ hs => exact h.clear hs now

theorem Kept.run {c d : Cycle} {as : List Label} {g : Timeline} (h : Kept c g) (hd : run step c as = some d) :
    Kept d (history step recordTimers c as g) :=
  history_invariant (fun _ _ _ _ hi _ => step_kept hi) h (Along.trivial _ _) hd

theorem run_kept {wakeFd : Handle} {as : List Label} {c : Cycle} (h : run step (start wakeFd) as = some c) :
    Kept c (history step recordTimers (start wakeFd) as {}) :=
  (start_kept wakeFd).run h

/-- In every run, no timer function is run twice; each that is run was set, in a cycle whose
reading has reached its deadline and not while the same batch was being run; and the
table holds, in order, exactly what was set and was neither run, nor is in the current
batch, nor was cleared by its own id. -/
theorem timers_conserved (wakeFd : Handle) {as : List Label} {c : Cycle} (h : run step (start wakeFd) as = some c)
    {g : Timeline} (hg : g = history step recordTimers (start wakeFd) as {}) :
    (ranTimers c.log).Nodup ∧ g.ran.map (·.fn) = ranTimers c.log ∧
    (∀ r ∈ g.ran, ∃ s ∈ g.set, s.timer.fn = r.fn ∧ (∀ k, s.during = some k → k < r.batch) ∧
      s.timer.when ≤ r.reading ∧
      (Fits64 (s.now + s.delay * nanosPerMilli) → s.now + s.delay * nanosPerMilli ≤ r.reading)) ∧
    (g.set.map (·.timer.id)).Nodup ∧ (g.set.map (·.timer.fn)).Nodup ∧
    c.loop.timers = pendingTimers g.set c.gone g.cleared := by
  have hkept : Kept c g := hg ▸ run_kept h
  refine ⟨(List.nodup_append.mp hkept.once).1, hkept.log, ?_, ?_, hkept.fns, hkept.table⟩
  · intro r hr
    obtain ⟨s, hs, hfn, hdue, hduring⟩ := hkept.fired r hr
    refine ⟨s, hs, hfn, hduring, hdue, ?_⟩
    intro hfits
    rw [hkept.whens s hs, deadline_eq_wrap64, (wrap64_eq_iff _).mpr hfits] at hdue
    exact hdue
  · exact (List.pairwise_map.mpr hkept.ids).imp Nat.ne_of_lt

/-- Two timers are set. The first one's function sets another without delay and clears the
second; the new one runs in the next cycle. -/
def timersRun : List Label :=
  [.call 1 (.setTimeout 5), .exec 1 0, .exec 1 0, .call 1 (.setTimeout 9), .exec 1 0, .exec 1 0,
    .loop 0, .loop 0, .poll (.returned [POLLIN]), .loop 0, .loop 0, .loop 0, .loop 6000000, .loop 0,
    .call 0 (.setTimeout 0), .exec 0 6000000, .exec 0 0, .call 0 (.clearTimeout 2), .exec 0 0, .ret, .loop 0, .loop 0,
    .loop 6000000, .loop 0, .poll (.returned [POLLIN]), .loop 0, .loop 0, .loop 0, .loop 7000000, .loop 0]

def timersRunHistory : Timeline where
  set := [⟨⟨1, 5000000, 0⟩, 0, 5, none⟩, ⟨⟨2, 9000000, 1⟩, 0, 9, none⟩, ⟨⟨3, 6000000, 2⟩, 6000000, 0, some 1⟩]
  cleared := [2]
  batches := 2
  reading := 7000000
  ran := [⟨0, 1, 6000000⟩, ⟨2, 2, 7000000⟩]

theorem timersRun_conserved :
    ∃ c, run step (start 3) timersRun = some c ∧ history step recordTimers (start 3) timersRun {} = timersRunHistory ∧
      ranTimers c.log = [0, 2] ∧ c.loop.timers = pendingTimers timersRunHistory.set [0, 2] [2] := by
  obtain ⟨c, hc, hbatch⟩ := Option.map_eq_some_iff.mp
    (show (run step (start 3) timersRun).map (·.phase.dueBatch) = some [] by decide +kernel)
  have hg : history step recordTimers (start 3) timersRun {} = timersRunHistory := by decide +kernel
  obtain ⟨-, hlog, -, -, -, htable⟩ := timers_conserved 3 hc hg.symm
  rw [gone, ← hlog, hbatch] at htable
  exact ⟨c, hc, hg, hlog.symm, htable⟩

end Cycle
end CxNetworking.Core
