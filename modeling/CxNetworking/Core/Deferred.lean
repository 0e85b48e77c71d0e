import CxNetworking.Core.Cycle
import CxNetworking.Lib.History
import Mathlib.Data.List.Forall2

/-! Deferred functions run once each, in the order of their pushes. A cycle takes the whole
queue in one swap and runs what it took; what is pushed meanwhile waits for the next
cycle. -/
namespace CxNetworking.Core
open Execution

def executed : List Note → List Nat
  | [] => []
  | .ranDeferred fn :: earlier => executed earlier ++ [fn]
  | _ :: earlier => executed earlier

/-- The functions swapped out in the current cycle and not executed yet. -/
def Phase.batch : Phase → List Nat
  | .deferred rest => rest
  | _ => []

/-- The loop thread has begun a cycle and not reached its swap. -/
def Phase.BeforeSwap : Phase → Prop
  | .waiting _ | .polling _ _ | .polled _ | .swapping => True
  | _ => False

/-- What a run has done about deferred functions: the number of cycles begun, the pushes in
order, each with the cycle whose batch was running, if one was, and the executions in
order, each with its cycle. -/
structure Deferrals where
  cycle : Nat := 0
  pushed : List (Nat × Option Nat) := []
  ran : List (Nat × Nat) := []
  deriving DecidableEq, Repr

namespace Cycle

def batchCycle (c : Cycle) (cycle : Nat) : Option Nat :=
  match c.phase with
  | .deferred _ => some cycle
  | _ => none

def recordDeferrals (c : Cycle) (a : Label) (g : Deferrals) : Deferrals :=
  match a with
  | .loop _ =>
    match c.phase with
    | .idle => if c.loop.quitting then g else { g with cycle := g.cycle + 1 }
    | .deferred (fn :: _) => { g with ran := g.ran ++ [(fn, g.cycle)] }
    | _ => g
  | .exec t _ =>
    match c.inside t with
    | some (.pushDeferred fn) => { g with pushed := g.pushed ++ [(fn, c.batchCycle g.cycle)] }
    | _ => g
  | _ => g

/-- A push that is the `fn` of an execution in `cycle`, and was not made during its batch. -/
def Precedes (p : Nat × Option Nat) (r : Nat × Nat) : Prop := p.1 = r.1 ∧ ∀ k, p.2 = some k → k < r.2

/-- The pushes, split into those executed, those in the batch and those in the queue. -/
structure Tracked (c : Cycle) (g : Deferrals) (done batch queue : List (Nat × Option Nat)) : Prop where
  split : g.pushed = done ++ batch ++ queue
  log : executed c.log = g.ran.map (·.1)
  ran : List.Forall₂ Precedes done g.ran
  taken : List.Forall₂ Precedes batch (c.phase.batch.map (·, g.cycle))
  queued : queue.map (·.1) = c.loop.deferred
  tags : ∀ p ∈ queue, ∀ k, p.2 = some k → k ≤ g.cycle ∧ (c.phase.BeforeSwap → k < g.cycle)

theorem Tracked.same {c d : Cycle} {g : Deferrals} {done batch queue : List (Nat × Option Nat)}
    (h : Tracked c g done batch queue) (hlog : executed d.log = executed c.log) (hbatch : d.phase.batch = c.phase.batch)
    (hqueue : d.loop.deferred = c.loop.deferred) (hphase : d.phase.BeforeSwap → c.phase.BeforeSwap) :
    Tracked d g done batch queue := by
  refine ⟨h.split, hlog.trans h.log, h.ran, hbatch ▸ h.taken, h.queued.trans hqueue.symm, fun p hp k hk => ?_⟩
  exact (h.tags p hp k hk).imp_right fun hlt hd => hlt (hphase hd)

theorem advance_tracked {c d : Cycle} {now : Int} {g : Deferrals} {done batch queue : List (Nat × Option Nat)}
    (h : Tracked c g done batch queue) (hd : Advance c now d) :
    ∃ done batch queue, Tracked d (c.recordDeferrals (.loop now) g) done batch queue := by
  cases hd with
  | stay hp hq =>
      have hg : c.recordDeferrals (.loop now) g = g := by simp only [recordDeferrals, hp, hq, if_true]
      rw [hg]
      exact ⟨done, batch, queue, h⟩
  | begin hp hq =>
      have hg : c.recordDeferrals (.loop now) g = { g with cycle := g.cycle + 1 } := by
        simp only [recordDeferrals, hp, hq, Bool.false_eq_true, if_false]
      have hbatch := h.taken
      rw [hp] at hbatch
      rw [hg]
      refine ⟨done, batch, queue, h.split, h.log, h.ran, hbatch, h.queued, fun p hm k hk => ?_⟩
      have hle := (h.tags p hm k hk).1
      exact ⟨Nat.le_succ_of_le hle, fun _ => Nat.lt_succ_of_le hle⟩
  | swap hp =>
      have hg : c.recordDeferrals (.loop now) g = g := by simp only [recordDeferrals, hp]
      have hnone : batch = [] := by
        have hbatch := h.taken
        rw [hp] at hbatch
        exact List.forall₂_nil_right_iff.mp hbatch
      -- every function of the queue was pushed before this cycle's batch
      have hswapped : List.Forall₂ Precedes queue (c.loop.deferred.map (·, g.cycle)) := by
        rw [← h.queued, List.map_map, List.forall₂_map_right_iff, List.forall₂_same]
        exact fun p hm => ⟨rfl, fun k hk => (h.tags p hm k hk).2 (hp ▸ trivial)⟩
      rw [hg]
      refine ⟨done, queue, [], ?_, h.log, h.ran, hswapped, rfl, by simp⟩
      simp only [h.split, hnone, List.append_nil]
  | @runDeferred fn rest hp =>
      have hg : c.recordDeferrals (.loop now) g = { g with ran := g.ran ++ [(fn, g.cycle)] } := by
        simp only [recordDeferrals, hp]
      have hbatch := h.taken
      rw [hp] at hbatch
      obtain ⟨p, batch', hhead, hrest, rfl⟩ := List.forall₂_cons_right_iff.mp hbatch
      rw [hg]
      refine ⟨done ++ [p], batch', queue, ?_, ?_, ?_, hrest, h.queued, fun p hm k hk => ?_⟩
      · simp only [h.split, List.append_assoc, List.cons_append, List.nil_append]
      · simp only [enter, executed, h.log, List.map_append, List.map_cons, List.map_nil]
      · exact List.rel_append h.ran (.cons hhead .nil)
      · exact ⟨(h.tags p hm k hk).1, False.elim⟩
  | snapshot hp | collect hp | deferredDone hp | fire hp | timersDone hp | dispatchDone hp | leave hp _
    | skip hp _ _ | find hp _ _ =>
      have hg : c.recordDeferrals (.loop now) g = g := by simp only [recordDeferrals, hp]
      rw [hg]
      exact ⟨done, batch, queue, h.same rfl (by rw [hp]; rfl) rfl (by simp [hp, Phase.BeforeSwap])⟩
  | runTimer hp | invoke hp =>
      have hg : c.recordDeferrals (.loop now) g = g := by simp only [recordDeferrals, hp]
      rw [hg]
      exact ⟨done, batch, queue, h.same rfl (by rw [hp]; rfl) rfl (by simp [enter, Phase.BeforeSwap])⟩

theorem answer_tracked {c d : Cycle} {ms : Int} {pfds : List PollFd} {outcome : PollOutcome} {g : Deferrals}
    {done batch queue : List (Nat × Option Nat)} (h : Tracked c g done batch queue) (hp : c.phase = .polling ms pfds)
    (hd : Answer c pfds outcome d) : Tracked d g done batch queue := by
  cases hd with
  | interrupted | failed | returned => exact h.same rfl (by rw [hp]; rfl) rfl (by simp [hp, Phase.BeforeSwap])

theorem effect_deferred (now : Int) (l : EventLoop Nat Nat) {s : Section} (hs : ∀ fn, s ≠ .pushDeferred fn) :
    (s.effect now l).deferred = l.deferred := by
  cases s with
  | pushDeferred fn => exact (hs fn rfl).elim
  | setInterest h events =>
      simp only [Section.effect, EventLoop.setInterest]
      cases l.watches[h]? <;> rfl
  | setWatch | setFd | updateFd | eraseWatch | dropFd | pushTimer | clearTimeout | interrupt => rfl

theorem executed_notes (s : Section) (log : List Note) : executed (s.notes ++ log) = executed log := by
  cases s <;> rfl

theorem exec_tracked {c : Cycle} {t : Nat} {now : Int} {s : Section} {g : Deferrals}
    {done batch queue : List (Nat × Option Nat)} (h : Tracked c g done batch queue) (hs : c.inside t = some s) :
    ∃ queue, Tracked (c.exec t now s) (c.recordDeferrals (.exec t now) g) done batch queue := by
  by_cases hpush : ∃ fn, s = .pushDeferred fn
  · obtain ⟨fn, rfl⟩ := hpush
    have hg : c.recordDeferrals (.exec t now) g =
        { g with pushed := g.pushed ++ [(fn, c.batchCycle g.cycle)] } := by
      simp only [recordDeferrals, hs]
    rw [hg]
    refine ⟨queue ++ [(fn, c.batchCycle g.cycle)], ?_, h.log, h.ran, h.taken, ?_, fun p hm k hk => ?_⟩
    · simp only [h.split, List.append_assoc]
    · simp only [exec, Section.effect, EventLoop.pushDeferred, List.map_append, h.queued, List.map_cons, List.map_nil]
    · rcases List.mem_append.mp hm with hm | hm
      · exact h.tags p hm k hk
      · rw [List.mem_singleton.mp hm] at hk
        unfold batchCycle at hk
        split at hk
        · next hp =>
            cases hk
            exact ⟨Nat.le_refl _, by simp [exec, hp, Phase.BeforeSwap]⟩
        · cases hk
  · have hne : ∀ fn, s ≠ .pushDeferred fn := fun fn hfn => hpush ⟨fn, hfn⟩
    have hg : c.recordDeferrals (.exec t now) g = g := by
      simp only [recordDeferrals, hs]
      split
      · next fn hfn => exact (hne fn (Option.some.inj hfn)).elim
      · rfl
    rw [hg]
    exact ⟨queue, h.same (executed_notes s c.log) rfl (effect_deferred now c.loop hne) id⟩

theorem step_tracked {c d : Cycle} {a : Label} {g : Deferrals} (h : ∃ done batch queue, Tracked c g done batch queue)
    (hd : c.step a = some d) : ∃ done batch queue, Tracked d (c.recordDeferrals a g) done batch queue := by
  obtain ⟨done, batch, queue, h⟩ := h
  rcases step_spec hd with ⟨now, rfl, -, hd⟩ | ⟨ms, pfds, outcome, rfl, hp, hd⟩ | ⟨rfl, -, -, rfl⟩ |
    ⟨t, r, rfl, -, -, rfl⟩ | ⟨t, now, s, rfl, hs, rfl⟩ | ⟨q, rfl, rfl⟩
  · exact advance_tracked h hd
  · exact ⟨done, batch, queue, answer_tracked h hp hd⟩
  · exact ⟨done, batch, queue, h.same rfl rfl rfl id⟩
  · exact ⟨done, batch, queue, h.same rfl rfl rfl id⟩
  · exact ⟨done, batch, exec_tracked h hs⟩
  · exact ⟨done, batch, queue, h.same rfl rfl rfl id⟩

theorem map_fst_of_forall₂ {pushes : List (Nat × Option Nat)} {runs : List (Nat × Nat)}
    (h : List.Forall₂ Precedes pushes runs) : pushes.map (·.1) = runs.map (·.1) := by
  induction h with
  | nil => rfl
  | cons hpair _ ih => rw [List.map_cons, List.map_cons, hpair.1, ih]

theorem start_tracked (wakeFd : Handle) : Tracked (start wakeFd) {} [] [] [] :=
  ⟨rfl, rfl, .nil, .nil, rfl, by simp⟩

/-- In every run, the functions executed, those swapped out and those in `deferred_` are,
in this order, all functions pushed; and the execution of a function pushed while a
cycle's batch was running belongs to a later cycle. -/
theorem deferred_once_in_order (wakeFd : Handle) {as : List Label} {c : Cycle} (h : run step (start wakeFd) as = some c)
    {g : Deferrals} (hg : g = history step recordDeferrals (start wakeFd) as {}) :
    executed c.log ++ c.phase.batch ++ c.loop.deferred = g.pushed.map (·.1) ∧
    g.ran.map (·.1) = executed c.log ∧
    ∀ (i : Nat) p r, g.pushed[i]? = some p → g.ran[i]? = some r → ∀ k, p.2 = some k → k < r.2 := by
  obtain ⟨done, batch, queue, ht⟩ : ∃ done batch queue, Tracked c g done batch queue := hg ▸
    history_invariant (I := fun c g => ∃ done batch queue, Tracked c g done batch queue)
      (fun _ _ _ _ hi _ => step_tracked hi) ⟨[], [], [], start_tracked wakeFd⟩ (Along.trivial _ _) h
  refine ⟨?_, ht.log.symm, fun i p r hp hr => ?_⟩
  · simp only [ht.split, List.map_append, map_fst_of_forall₂ ht.ran, map_fst_of_forall₂ ht.taken, ht.queued, ht.log,
      List.map_map, Function.comp_def, List.map_id']
  · obtain ⟨hi, rfl⟩ := List.getElem?_eq_some_iff.mp hr
    have hlt : i < done.length := ht.ran.length_eq ▸ hi
    rw [ht.split, List.append_assoc, List.getElem?_append_left hlt, List.getElem?_eq_getElem hlt] at hp
    cases hp
    exact (ht.ran.get hlt hi).2

/-- Another thread defers a function; the function defers one more while it runs, and a
restart falls between the two cycles. -/
def deferringRun : List Label :=
  [.call 1 .defer, .exec 1 0, .exec 1 0, .loop 0, .loop 0, .poll (.returned [POLLIN]), .loop 0, .loop 0, .loop 0,
    .call 0 .defer, .exec 0 0, .exec 0 0, .ret, .quit true, .loop 0, .loop 0, .loop 0, .loop 0, .quit false,
    .loop 0, .loop 0, .poll (.returned [POLLIN]), .loop 0, .loop 0, .loop 0]

theorem deferringRun_in_order :
    ∃ c g, run step (start 3) deferringRun = some c ∧ g = history step recordDeferrals (start 3) deferringRun {} ∧
      g = { cycle := 2, pushed := [(0, none), (1, some 1)], ran := [(0, 1), (1, 2)] } ∧
      executed c.log ++ c.phase.batch ++ c.loop.deferred = [0, 1] ∧
      ∀ (i : Nat) p r, g.pushed[i]? = some p → g.ran[i]? = some r → ∀ k, p.2 = some k → k < r.2 := by
  obtain ⟨c, hc⟩ := Option.isSome_iff_exists.mp
    (show (run step (start 3) deferringRun).isSome = true by decide +kernel)
  have hg : history step recordDeferrals (start 3) deferringRun {} =
      { cycle := 2, pushed := [(0, none), (1, some 1)], ran := [(0, 1), (1, 2)] } := by
    decide +kernel
  obtain ⟨horder, -, hlater⟩ := deferred_once_in_order 3 hc hg.symm
  exact ⟨c, _, hc, hg.symm, rfl, horder, hlater⟩

end Cycle
end CxNetworking.Core
