import CxNetworking.Lib.History
import Mathlib.Logic.Function.Basic

/-! `start`, `stop` and `run` of the event loop, called from any threads. Each exchange or
store of an atomic, each call of the task and each hold of `run_mutex_` is one step; the
write to the eventfd and the notification of `run_cv_` change no member and are left out,
as a waiting thread may wake at any time. -/
namespace CxNetworking.Core
open Execution

inductive LifecycleCall where
  | start
  | stop
  | run
  deriving DecidableEq, Repr

/-- The next step of a call; `run` begins as `start` does and goes on to wait. -/
inductive Stage where
  | exchangeStarted (inRun : Bool)
  | clearQuitting (inRun : Bool)
  | startTask (inRun : Bool)
  | wait
  | clearStarted
  | setQuitting
  | stopTask
  | requestStop
  deriving DecidableEq, Repr

def LifecycleCall.enter : LifecycleCall → Stage
  | .start => .exchangeStarted false
  | .stop => .clearStarted
  | .run => .exchangeStarted true

/-- A `stop` has stopped the loop and not yet set `stop_requested_`. -/
def Stage.Stopping : Stage → Prop
  | .setQuitting | .stopTask | .requestStop => True
  | _ => False

def Stage.InRun : Stage → Prop
  | .exchangeStarted inRun | .clearQuitting inRun | .startTask inRun => inRun = true
  | .wait => True
  | _ => False

/-- A `run` was entered, a `stop` found the loop started, or a `run` returned. -/
inductive LifecycleNote where
  | entered (t : Nat)
  | stopped (t : Nat)
  | returned (t : Nat)
  deriving DecidableEq, Repr

/-- The members `started_`, `quitting_`, `stop_requested_` and the task's `running_`, and
where each thread stands. -/
structure Lifecycle where
  started : Bool := false
  quitting : Bool := false
  stopRequested : Bool := false
  running : Bool := false
  inside : Nat → Option Stage := fun _ => none
  log : List LifecycleNote := []

inductive LifecycleLabel where
  | call (t : Nat) (c : LifecycleCall)
  | exec (t : Nat)
  deriving DecidableEq, Repr

namespace Lifecycle

def goto (l : Lifecycle) (t : Nat) (next : Option Stage) : Lifecycle :=
  { l with inside := Function.update l.inside t next }

def afterStart (inRun : Bool) : Option Stage := if inRun then some .wait else none

def exec (l : Lifecycle) (t : Nat) : Stage → Option Lifecycle
  | .exchangeStarted inRun =>
    some (if l.started then l.goto t (afterStart inRun)
      else { l with started := true }.goto t (some (.clearQuitting inRun)))
  | .clearQuitting inRun => some ({ l with quitting := false }.goto t (some (.startTask inRun)))
  | .startTask inRun => some ({ l with running := true }.goto t (afterStart inRun))
  | .wait =>
    if l.stopRequested then some ({ l with stopRequested := false, log := .returned t :: l.log }.goto t none)
    else none
  | .clearStarted =>
    some (if l.started then { l with started := false, log := .stopped t :: l.log }.goto t (some .setQuitting)
      else l.goto t none)
  | .setQuitting => some ({ l with quitting := true }.goto t (some .stopTask))
  | .stopTask => some ({ l with running := false }.goto t (some .requestStop))
  | .requestStop => some ({ l with stopRequested := true }.goto t none)

def call (l : Lifecycle) (t : Nat) (c : LifecycleCall) : Lifecycle :=
  { l with log := if c = LifecycleCall.run then .entered t :: l.log else l.log }.goto t (some c.enter)

def step (l : Lifecycle) : LifecycleLabel → Option Lifecycle
  | .call t c => if l.inside t = none then some (l.call t c) else none
  | .exec t => (l.inside t).bind (l.exec t)

/-! A `run` returns because of a `stop`. -/

/-- Since thread `t` last entered `run`, a `stop` has stopped the loop. -/
def stoppedSince (t : Nat) : List LifecycleNote → Bool
  | [] => false
  | .stopped _ :: _ => true
  | .entered u :: earlier => if u = t then false else stoppedSince t earlier
  | .returned _ :: earlier => stoppedSince t earlier

/-- Each return in the history comes after a `stop` made since that `run` was entered. -/
def Justified : List LifecycleNote → Prop
  | [] => True
  | .returned t :: earlier => stoppedSince t earlier = true ∧ Justified earlier
  | .entered _ :: earlier | .stopped _ :: earlier => Justified earlier

/-- A request to return is there or on its way. -/
def Requested (l : Lifecycle) : Prop := l.stopRequested = true ∨ ∃ u s, l.inside u = some s ∧ s.Stopping

/-- `run` is entered only when every `stop` that stopped the loop has made a `run` return. -/
def NoneRequested (l : Lifecycle) : LifecycleLabel → Prop
  | .call _ .run => ¬ l.Requested
  | _ => True

/-- Every request to return was made by a `stop` that came after the entry of each `run`
that is under way. -/
structure Explained (l : Lifecycle) : Prop where
  returns : Justified l.log
  waiting : l.Requested → ∀ t s, l.inside t = some s → s.InRun → stoppedSince t l.log = true

theorem Explained.goto {l m : Lifecycle} (h : l.Explained) {t : Nat} {s : Stage} {next : Option Stage}
    (hs : l.inside t = some s) (hlog : m.log = l.log) (hreq : m.stopRequested = true → l.Requested)
    (hinside : m.inside = Function.update l.inside t next)
    (hstop : ∀ s', next = some s' → s'.Stopping → s.Stopping)
    (hrun : ∀ s', next = some s' → s'.InRun → s.InRun) : m.Explained := by
  have hback : m.Requested → l.Requested := by
    rintro (hflag | ⟨u, s', hu, hs'⟩)
    · exact hreq hflag
    · rw [hinside, Function.update_apply] at hu
      split at hu
      · exact .inr ⟨t, s, hs, hstop s' hu hs'⟩
      · exact .inr ⟨u, s', hu, hs'⟩
  refine ⟨hlog ▸ h.returns, fun hm u s' hu hs' => ?_⟩
  rw [hlog]
  rw [hinside, Function.update_apply] at hu
  split at hu
  · next heq => exact heq ▸ h.waiting (hback hm) t s hs (hrun s' hu hs')
  · exact h.waiting (hback hm) u s' hu hs'

theorem exec_explained {l m : Lifecycle} {t : Nat} {s : Stage} (h : l.Explained) (hs : l.inside t = some s)
    (hm : l.exec t s = some m) : m.Explained := by
  have hafter : ∀ inRun s', afterStart inRun = some s' → ¬ s'.Stopping ∧ inRun = true := by
    intro inRun s' hs'
    obtain ⟨hrun, hs'⟩ := Option.ite_none_right_eq_some.mp hs'
    cases hs'
    exact ⟨id, hrun⟩
  cases s with
  | exchangeStarted inRun =>
      cases hm
      split
      · exact h.goto hs rfl .inl rfl (fun s' hs' hst => ((hafter _ _ hs').1 hst).elim) fun s' hs' _ => (hafter _ _ hs').2
      · refine h.goto hs rfl .inl rfl ?_ ?_
        · rintro s' ⟨⟩ hst
          exact hst.elim
        · rintro s' ⟨⟩ hrun
          exact hrun
  | clearQuitting inRun =>
      cases hm
      refine h.goto hs rfl .inl rfl ?_ ?_
      · rintro s' ⟨⟩ hst
        exact hst.elim
      · rintro s' ⟨⟩ hrun
        exact hrun
  | startTask inRun =>
      cases hm
      exact h.goto hs rfl .inl rfl (fun s' hs' hst => ((hafter _ _ hs').1 hst).elim) fun s' hs' _ => (hafter _ _ hs').2
  | wait =>
      obtain ⟨hreq, hm⟩ := Option.ite_none_right_eq_some.mp hm
      cases hm
      have hreq : l.Requested := .inl hreq
      refine ⟨⟨h.waiting hreq t _ hs trivial, h.returns⟩, fun _ u s' hu hs' => ?_⟩
      simp only [Lifecycle.goto, Function.update_apply] at hu
      split at hu
      · cases hu
      · exact h.waiting hreq u s' hu hs'
  | clearStarted =>
      cases hm
      split
      · exact ⟨h.returns, fun _ _ _ _ _ => rfl⟩
      · exact h.goto hs rfl .inl rfl (by simp) (by simp)
  | setQuitting | stopTask =>
      cases hm
      refine h.goto hs rfl .inl rfl (fun _ _ _ => trivial) ?_
      rintro s' ⟨⟩ hrun
      exact hrun.elim
  | requestStop =>
      cases hm
      exact h.goto hs rfl (fun _ => .inr ⟨t, _, hs, trivial⟩) rfl (by simp) (by simp)

theorem step_explained {l m : Lifecycle} {a : LifecycleLabel} (h : l.Explained) (hok : l.NoneRequested a)
    (hm : l.step a = some m) : m.Explained := by
  cases a with
  | exec t =>
      obtain ⟨s, hs, hm⟩ := Option.bind_eq_some_iff.mp hm
      exact exec_explained h hs hm
  | call t c =>
      obtain ⟨hout, hm⟩ := Option.ite_none_right_eq_some.mp hm
      cases hm
      have hback : (l.call t c).Requested → l.Requested := by
        rintro (hflag | ⟨u, s, hu, hs⟩)
        · exact .inl hflag
        · simp only [Lifecycle.call, Lifecycle.goto, Function.update_apply] at hu
          split at hu
          · cases hu
            cases c <;> exact hs.elim
          · exact .inr ⟨u, s, hu, hs⟩
      cases c with
      | run => exact ⟨h.returns, fun hreq => (hok (hback hreq)).elim⟩
      | start | stop =>
          refine ⟨h.returns, fun hreq u s hu hs => ?_⟩
          simp only [Lifecycle.call, Lifecycle.goto, Function.update_apply] at hu
          split at hu
          · cases hu
            cases hs
          · exact h.waiting (hback hreq) u s hu hs

/-- In every run of calls from any threads, in which `run` is entered only when every
`stop` that stopped the loop has made a `run` return: each `run` that returned did so
after a `stop` that stopped the loop since it was entered. -/
theorem run_returns_by_stop {as : List LifecycleLabel} {l : Lifecycle} (hok : Along step NoneRequested {} as)
    (h : Execution.run step {} as = some l) : Justified l.log := by
  have hstart : Explained {} := ⟨trivial, fun _ _ _ hs => by cases hs⟩
  exact ((throughout_of_along (fun _ _ _ => step_explained) hstart hok).last h).returns

def stoppedRun : List LifecycleLabel :=
  [.call 1 .run, .exec 1, .exec 1, .exec 1, .call 2 .stop, .exec 2, .exec 2, .exec 2, .exec 2, .exec 1]

theorem stoppedRun_returns :
    ∃ l, Execution.run step {} stoppedRun = some l ∧ l.log = [.returned 1, .stopped 2, .entered 1] ∧
      Justified l.log := by
  have hlog : (Execution.run step {} stoppedRun).map (·.log) = some [.returned 1, .stopped 2, .entered 1] := by decide
  obtain ⟨l, hl, hlog⟩ := Option.map_eq_some_iff.mp hlog
  have hfirst : ¬ Requested {} := by
    rintro (hflag | ⟨u, s, hu, -⟩)
    · cases hflag
    · cases hu
  have hok : Along step NoneRequested {} stoppedRun :=
    ⟨hfirst, fun m _ => Along.of_labels (by simp [NoneRequested]) m⟩
  exact ⟨l, hl, hlog, run_returns_by_stop hok hl⟩

/-- The loop is started and stopped, and then `run` is called. -/
def staleRequestRun : List LifecycleLabel :=
  [.call 1 .start, .exec 1, .exec 1, .exec 1, .call 1 .stop, .exec 1, .exec 1, .exec 1, .exec 1, .call 2 .run, .exec 2,
    .exec 2, .exec 2, .exec 2]

/-- It returns at once, with the loop running and no `stop` since. -/
theorem staleRequestRun_returns :
    ∃ l, Execution.run step {} staleRequestRun = some l ∧ l.log = [.returned 2, .entered 2, .stopped 1] ∧
      l.running = true ∧ ¬ Justified l.log := by
  have hfacts : (Execution.run step {} staleRequestRun).map (fun l => (l.log, l.running)) =
      some ([.returned 2, .entered 2, .stopped 1], true) := by
    decide
  obtain ⟨l, hl, hfacts⟩ := Option.map_eq_some_iff.mp hfacts
  obtain ⟨hlog, hrunning⟩ := Prod.mk.inj hfacts
  refine ⟨l, hl, hlog, hrunning, ?_⟩
  rw [hlog]
  exact fun hjust => Bool.noConfusion hjust.1

end Lifecycle
end CxNetworking.Core
