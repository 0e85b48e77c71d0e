import CxNetworking.Core.Lifecycle

/-! `running()` and the loop's task. A call of `start` or `stop` that changes `started_`
calls the task two steps later; in between, a call of the other kind can change
`started_` back and call the task first. -/
namespace CxNetworking.Core
open Execution

/-- The call has changed `started_` and has not yet called the task. -/
def Stage.Changing : Stage → Prop
  | .clearQuitting _ | .startTask _ | .setQuitting | .stopTask => True
  | _ => False

def Stage.starts : Stage → Bool
  | .clearQuitting _ | .startTask _ => true
  | _ => false

namespace Lifecycle

/-- No thread is between its change of `started_` and its call of the task. -/
def Settled (l : Lifecycle) : Prop := ∀ t s, l.inside t = some s → ¬ s.Changing

/-- `running()` tells whether the task runs, and a running task is not quitting. -/
def Agrees (l : Lifecycle) : Prop := l.started = l.running ∧ (l.running = true → l.quitting = false)

/-- The next step of thread `t` changes `started_`. -/
def Changes (l : Lifecycle) (t : Nat) : Prop :=
  (∃ inRun, l.inside t = some (.exchangeStarted inRun)) ∧ l.started = false ∨
    l.inside t = some .clearStarted ∧ l.started = true

/-- `started_` is not changed while another thread has yet to tell the task. -/
def Apart (l : Lifecycle) : LifecycleLabel → Prop
  | .exec t => l.Changes t → l.Settled
  | .call _ _ => True

/-- What the members are while the call at this stage has yet to tell the task. -/
structure At (l : Lifecycle) (s : Stage) : Prop where
  started : l.started = s.starts
  running : l.running = !s.starts
  quitting : ∀ inRun, s = .startTask inRun → l.quitting = false

/-- At most one thread has yet to tell the task. -/
inductive InOrder (l : Lifecycle) : Prop
  | settled : l.Settled → l.Agrees → InOrder l
  | changing (t s) : l.inside t = some s → s.Changing → l.At s →
      (∀ u s', u ≠ t → l.inside u = some s' → ¬ s'.Changing) → InOrder l

theorem InOrder.quiet {l m : Lifecycle} (h : l.InOrder) {t : Nat} {next : Option Stage}
    (hbefore : ∀ s, l.inside t = some s → ¬ s.Changing) (hafter : ∀ s, next = some s → ¬ s.Changing)
    (hinside : m.inside = Function.update l.inside t next) (hstarted : m.started = l.started)
    (hrunning : m.running = l.running) (hquitting : m.quitting = l.quitting) : m.InOrder := by
  have hothers : ∀ u s, m.inside u = some s → s.Changing → u ≠ t ∧ l.inside u = some s := by
    intro u s hu hs
    rw [hinside, Function.update_apply] at hu
    split at hu
    · exact (hafter s hu hs).elim
    · next hne => exact ⟨hne, hu⟩
  cases h with
  | settled hsettled hagrees =>
      refine .settled ?_ ?_
      · intro u s hu hs
        exact hsettled u s (hothers u s hu hs).2 hs
      · rw [Agrees, hstarted, hrunning, hquitting]
        exact hagrees
  | changing t₀ s₀ ht₀ hs₀ hat hrest =>
      have hne : t₀ ≠ t := by
        rintro rfl
        exact hbefore s₀ ht₀ hs₀
      refine .changing t₀ s₀ ?_ hs₀ ?_ ?_
      · rw [hinside, Function.update_of_ne hne]
        exact ht₀
      · exact ⟨hstarted.trans hat.started, hrunning.trans hat.running, fun r hr => hquitting.trans (hat.quitting r hr)⟩
      · intro u s hu hus hs
        exact hrest u s hu (hothers u s hus hs).2 hs

theorem InOrder.alone {l : Lifecycle} (h : l.InOrder) {t : Nat} {s : Stage} (ht : l.inside t = some s)
    (hs : s.Changing) : l.At s ∧ ∀ u s', u ≠ t → l.inside u = some s' → ¬ s'.Changing := by
  cases h with
  | settled hsettled _ => exact (hsettled t s ht hs).elim
  | changing t₀ s₀ ht₀ _ hat hrest =>
      by_cases heq : t = t₀
      · subst heq
        cases ht.symm.trans ht₀
        exact ⟨hat, hrest⟩
      · exact (hrest t s heq ht hs).elim

theorem InOrder.change {l m : Lifecycle} {t : Nat} {s : Stage}
    (hrest : ∀ u s', u ≠ t → l.inside u = some s' → ¬ s'.Changing)
    (hinside : m.inside = Function.update l.inside t (some s)) (hs : s.Changing) (hat : m.At s) : m.InOrder := by
  refine .changing t s ?_ hs hat ?_
  · rw [hinside, Function.update_self]
  · intro u s' hu hus
    rw [hinside, Function.update_of_ne hu] at hus
    exact hrest u s' hu hus

theorem InOrder.finish {l m : Lifecycle} {t : Nat} {next : Option Stage}
    (hrest : ∀ u s', u ≠ t → l.inside u = some s' → ¬ s'.Changing)
    (hinside : m.inside = Function.update l.inside t next) (hafter : ∀ s, next = some s → ¬ s.Changing)
    (hagrees : m.Agrees) : m.InOrder := by
  refine .settled ?_ hagrees
  intro u s hu
  rw [hinside, Function.update_apply] at hu
  split at hu
  · exact hafter s hu
  · next hne => exact hrest u s hne hu

theorem InOrder.agrees {l : Lifecycle} (h : l.InOrder) (hsettled : l.Settled) : l.Agrees := by
  cases h with
  | settled _ hagrees => exact hagrees
  | changing t s ht hs _ _ => exact (hsettled t s ht hs).elim

theorem afterStart_not_changing {inRun : Bool} {s : Stage} (h : afterStart inRun = some s) : ¬ s.Changing := by
  obtain ⟨-, h⟩ := Option.ite_none_right_eq_some.mp h
  cases h
  exact id

theorem exec_inOrder {l m : Lifecycle} {t : Nat} {s : Stage} (h : l.InOrder) (hs : l.inside t = some s)
    (hok : l.Changes t → l.Settled) (hm : l.exec t s = some m) : m.InOrder := by
  have hquiet : ¬ s.Changing → ∀ s', l.inside t = some s' → ¬ s'.Changing := by
    intro hnot s' hs'
    cases hs.symm.trans hs'
    exact hnot
  cases s with
  | exchangeStarted inRun =>
      cases hm
      split
      · exact h.quiet (hquiet id) (fun _ => afterStart_not_changing) rfl rfl rfl rfl
      · next hstarted =>
          have hstarted : l.started = false := eq_false_of_ne_true hstarted
          have hsettled := hok (.inl ⟨⟨inRun, hs⟩, hstarted⟩)
          have hrunning : l.running = false := (h.agrees hsettled).1.symm.trans hstarted
          exact .change (fun u s' _ => hsettled u s') rfl trivial ⟨rfl, hrunning, by simp⟩
  | clearQuitting inRun =>
      cases hm
      obtain ⟨hat, hrest⟩ := h.alone hs trivial
      exact .change hrest rfl trivial ⟨hat.started, hat.running, fun _ _ => rfl⟩
  | startTask inRun =>
      cases hm
      obtain ⟨hat, hrest⟩ := h.alone hs trivial
      exact .finish hrest rfl (fun _ => afterStart_not_changing) ⟨hat.started, fun _ => hat.quitting inRun rfl⟩
  | wait =>
      obtain ⟨-, hm⟩ := Option.ite_none_right_eq_some.mp hm
      cases hm
      exact h.quiet (hquiet id) (by simp) rfl rfl rfl rfl
  | clearStarted =>
      cases hm
      split
      · next hstarted =>
          have hsettled := hok (.inr ⟨hs, hstarted⟩)
          have hrunning : l.running = true := (h.agrees hsettled).1.symm.trans hstarted
          exact .change (fun u s' _ => hsettled u s') rfl trivial ⟨rfl, hrunning, by simp⟩
      · exact h.quiet (hquiet id) (by simp) rfl rfl rfl rfl
  | setQuitting =>
      cases hm
      obtain ⟨hat, hrest⟩ := h.alone hs trivial
      exact .change hrest rfl trivial ⟨hat.started, hat.running, by simp⟩
  | stopTask =>
      cases hm
      obtain ⟨hat, hrest⟩ := h.alone hs trivial
      exact .finish hrest rfl (by simp [Stage.Changing]) ⟨hat.started, by simp [goto]⟩
  | requestStop =>
      cases hm
      exact h.quiet (hquiet id) (by simp) rfl rfl rfl rfl

theorem step_inOrder {l m : Lifecycle} {a : LifecycleLabel} (h : l.InOrder) (hok : l.Apart a)
    (hm : l.step a = some m) : m.InOrder := by
  cases a with
  | exec t =>
      obtain ⟨s, hs, hm⟩ := Option.bind_eq_some_iff.mp hm
      exact exec_inOrder h hs hok hm
  | call t c =>
      obtain ⟨hout, hm⟩ := Option.ite_none_right_eq_some.mp hm
      cases hm
      refine h.quiet (by simp [hout]) ?_ rfl rfl rfl rfl
      intro s hs
      cases hs
      cases c <;> exact id

theorem start_inOrder : InOrder {} := .settled (by simp [Settled]) ⟨rfl, by simp⟩

/-- In every run of calls from any threads that do not change `started_` in between another
call's change and its call of the task: whenever no thread is in between, in particular
when all calls have returned, `running()` tells whether the task runs. -/
theorem settled_agrees {as : List LifecycleLabel} {l : Lifecycle} (hok : Along step Apart {} as)
    (h : Execution.run step {} as = some l) (hsettled : l.Settled) : l.Agrees :=
  ((throughout_of_along (fun _ _ _ => step_inOrder) start_inOrder hok).last h).agrees hsettled

/-- Thread 1 calls `start`, and when it has returned, thread 2 calls `stop`. -/
def startedStopped : List LifecycleLabel :=
  [.call 1 .start, .exec 1, .exec 1, .exec 1, .call 2 .stop, .exec 2, .exec 2, .exec 2, .exec 2]

theorem startedStopped_agrees :
    ∃ l, Execution.run step {} startedStopped = some l ∧ (∀ t, l.inside t = none) ∧ l.Agrees := by
  have hout : ∀ t, (Execution.run step {} startedStopped).map (fun l => l.inside t) = some none := by
    intro t
    simp [startedStopped, Execution.run, step, call, exec, goto, afterStart, LifecycleCall.enter]
  have hok : Along step Apart {} startedStopped := by
    simp [startedStopped, Along, Apart, Changes, Settled, Stage.Changing, step, call, exec, goto, afterStart,
      LifecycleCall.enter, Function.update_apply]
  obtain ⟨l, hl⟩ : ∃ l, Execution.run step {} startedStopped = some l := ⟨_, rfl⟩
  have hreturned : ∀ t, l.inside t = none := by
    intro t
    simpa [hl] using hout t
  exact ⟨l, hl, hreturned, settled_agrees hok hl (by simp [Settled, hreturned])⟩

/-- Thread 2 stops the loop while thread 1 is in `start`, behind the exchange. -/
def stoppedInStart : List LifecycleLabel :=
  [.call 1 .start, .exec 1, .call 2 .stop, .exec 2, .exec 2, .exec 2, .exec 2, .exec 1, .exec 1]

/-- All calls have returned; the task runs, and `running()` is false. -/
theorem stoppedInStart_disagrees :
    ∃ l, Execution.run step {} stoppedInStart = some l ∧ (∀ t, l.inside t = none) ∧ l.started = false ∧
      l.running = true := by
  have hout : ∀ t, (Execution.run step {} stoppedInStart).map (fun l => l.inside t) = some none := by
    intro t
    simp [stoppedInStart, Execution.run, step, call, exec, goto, afterStart, LifecycleCall.enter, Function.update_comm]
  obtain ⟨l, hl, hstarted, hrunning⟩ : ∃ l, Execution.run step {} stoppedInStart = some l ∧ l.started = false ∧
      l.running = true := ⟨_, rfl, rfl, rfl⟩
  refine ⟨l, hl, ?_, hstarted, hrunning⟩
  intro t
  simpa [hl] using hout t

/-! Every other overlap can end like that. -/

theorem change_completes {l : Lifecycle} {t : Nat} {s : Stage} (ht : l.inside t = some s) (hs : s.Changing) :
    ∃ as m next, Execution.run step l as = some m ∧ m.started = l.started ∧ m.running = s.starts ∧
      m.inside = Function.update l.inside t next ∧ ∀ s', next = some s' → ¬ s'.Changing := by
  cases s with
  | clearQuitting inRun =>
      refine ⟨[.exec t, .exec t], { l with quitting := false, running := true }.goto t (afterStart inRun),
        afterStart inRun, ?_, rfl, rfl, rfl, fun _ => afterStart_not_changing⟩
      simp [Execution.run, step, ht, exec, goto]
  | startTask inRun =>
      refine ⟨[.exec t], { l with running := true }.goto t (afterStart inRun), afterStart inRun, ?_, rfl, rfl, rfl,
        fun _ => afterStart_not_changing⟩
      simp [Execution.run, step, ht, exec, goto]
  | setQuitting =>
      refine ⟨[.exec t, .exec t], { l with quitting := true, running := false }.goto t (some .requestStop),
        some .requestStop, ?_, rfl, rfl, rfl, by simp [Stage.Changing]⟩
      simp [Execution.run, step, ht, exec, goto]
  | stopTask =>
      refine ⟨[.exec t], { l with running := false }.goto t (some .requestStop), some .requestStop, ?_, rfl, rfl, rfl,
        by simp [Stage.Changing]⟩
      simp [Execution.run, step, ht, exec, goto]
  | exchangeStarted | wait | clearStarted | requestStop => exact hs.elim

theorem change_begins {l : Lifecycle} {t : Nat} (h : l.Changes t) :
    ∃ m s, l.step (.exec t) = some m ∧ m.started = !l.started ∧ m.inside = Function.update l.inside t (some s) ∧
      s.Changing ∧ s.starts = !l.started ∧ ∀ s', l.inside t = some s' → ¬ s'.Changing := by
  rcases h with ⟨⟨inRun, ht⟩, hstarted⟩ | ⟨ht, hstarted⟩
  · refine ⟨{ l with started := true }.goto t (some (.clearQuitting inRun)), .clearQuitting inRun, ?_, ?_, rfl,
      trivial, ?_, ?_⟩
    · simp [step, ht, exec, hstarted]
    · simp [goto, hstarted]
    · simp [Stage.starts, hstarted]
    · simp [ht, Stage.Changing]
  · refine ⟨{ l with started := false, log := .stopped t :: l.log }.goto t (some .setQuitting), .setQuitting,
      ?_, ?_, rfl, trivial, ?_, ?_⟩
    · simp [step, ht, exec, hstarted]
    · simp [goto, hstarted]
    · simp [Stage.starts, hstarted]
    · simp [ht, Stage.Changing]

/-- When `started_` is changed against the condition, the run can go on to a state in which
no thread is in between and `running()` does not tell whether the task runs. -/
theorem overlap_disagrees {as : List LifecycleLabel} {l : Lifecycle} (hok : Along step Apart {} as)
    (h : Execution.run step {} as = some l) {t : Nat} (hnot : ¬ l.Apart (.exec t)) :
    ∃ bs m, Execution.run step l (.exec t :: bs) = some m ∧ m.Settled ∧ ¬ m.Agrees := by
  obtain ⟨hchanges, hunsettled⟩ := Classical.not_imp.mp hnot
  have hinv : l.InOrder := (throughout_of_along (fun _ _ _ => step_inOrder) start_inOrder hok).last h
  cases hinv with
  | settled hsettled _ => exact (hunsettled hsettled).elim
  | changing u s hu hs hat hrest =>
      obtain ⟨l₁, s₁, hl₁, hstarted₁, hinside₁, hs₁, hstarts₁, hidle⟩ := change_begins hchanges
      have hne : u ≠ t := by
        rintro rfl
        exact hidle s hu hs
      -- the second thread is done with the task before the first one tells it the opposite
      have ht₁ : l₁.inside t = some s₁ := by rw [hinside₁, Function.update_self]
      obtain ⟨bs, l₂, next₂, hrun₂, hstarted₂, -, hinside₂, hdone₂⟩ := change_completes ht₁ hs₁
      have hu₂ : l₂.inside u = some s := by
        rw [hinside₂, Function.update_of_ne hne, hinside₁, Function.update_of_ne hne, hu]
      obtain ⟨cs, l₃, next₃, hrun₃, hstarted₃, hrunning₃, hinside₃, hdone₃⟩ := change_completes hu₂ hs
      refine ⟨bs ++ cs, l₃, run_cons.mpr ⟨l₁, hl₁, run_append hrun₂ hrun₃⟩, ?_, ?_⟩
      · intro v s' hv
        rw [hinside₃, Function.update_apply] at hv
        split at hv
        · exact hdone₃ s' hv
        · next hvu =>
            rw [hinside₂, Function.update_apply] at hv
            split at hv
            · exact hdone₂ s' hv
            · next hvt =>
                rw [hinside₁, Function.update_of_ne hvt] at hv
                exact hrest v s' hvu hv
      · intro hagrees
        have hsame := hagrees.1
        rw [hstarted₃, hstarted₂, hstarted₁, hrunning₃, hat.started] at hsame
        simp at hsame

end Lifecycle
end CxNetworking.Core
