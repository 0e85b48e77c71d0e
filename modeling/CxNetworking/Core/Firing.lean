import CxNetworking.Core.Timers

/-! Which timers fire, and in what order. A batch is taken from the table in one locked
section and run behind it: `clear_timeout` does not reach into a batch, and the order
within a batch is the order in which its timers were set. -/
namespace CxNetworking.Core
open Execution

namespace Cycle

theorem record_grows (c : Cycle) (a : Label) (g : Timeline) :
    g.set ⊆ (c.recordTimers a g).set ∧ g.cleared ⊆ (c.recordTimers a g).cleared := by
  unfold recordTimers
  split
  · split <;> exact ⟨List.Subset.refl _, List.Subset.refl _⟩
  · split
    · exact ⟨List.subset_append_left _ _, List.Subset.refl _⟩
    · split
      · exact ⟨List.Subset.refl _, List.subset_cons_self _ _⟩
      · exact ⟨List.Subset.refl _, List.Subset.refl _⟩
    · exact ⟨List.Subset.refl _, List.Subset.refl _⟩
  · exact ⟨List.Subset.refl _, List.Subset.refl _⟩

theorem Moves.gone {c d : Cycle} {a : Label} (h : Moves c a d) :
    d.gone = c.gone ∨ ∃ now, d.gone = c.gone ++ (c.loop.takeDue now).1 := by
  cases h with
  | none hsame _ => exact .inl hsame.gone
  | @fire now hp => exact .inr ⟨now, gone_fire hp now⟩
  | run hp => exact .inl (gone_run hp)
  | push _ => exact .inl rfl
  | clear _ => exact .inl rfl

/-! Clearing. -/

/-- The id was cleared before a batch took the timer. -/
structure Dead (c : Cycle) (g : Timeline) (s : Setting) : Prop where
  set : s ∈ g.set
  cleared : s.timer.id ∈ g.cleared
  out : s.timer.fn ∉ c.gone

theorem step_dead {c d : Cycle} {a : Label} {g : Timeline} {s : Setting} (hkept : Kept c g) (h : Dead c g s)
    (hd : c.step a = some d) : Dead d (c.recordTimers a g) s := by
  obtain ⟨hset, hcleared⟩ := c.record_grows a g
  refine ⟨hset h.set, hcleared h.cleared, ?_⟩
  rcases (step_moves hd).gone with hsame | ⟨now, hgone⟩
  · rw [hsame]
    exact h.out
  · rw [hgone, List.mem_append, hkept.mem_takeDue h.set]
    rintro (hout | hdue)
    · exact h.out hout
    · exact hdue.1.2 h.cleared

theorem run_dead {c d : Cycle} {as : List Label} {g : Timeline} {s : Setting} (hkept : Kept c g) (h : Dead c g s)
    (hd : run step c as = some d) : s.timer.fn ∉ ranTimers d.log := by
  have hstep : ∀ c g a d, Kept c g ∧ Dead c g s → True → step c a = some d →
      Kept d (recordTimers c a g) ∧ Dead d (recordTimers c a g) s :=
    fun _ _ _ _ hi _ hd => ⟨step_kept hi.1 hd, step_dead hi.1 hi.2 hd⟩
  obtain ⟨-, hend⟩ := history_invariant hstep ⟨hkept, h⟩ (Along.trivial c as) hd
  exact fun hran => hend.out (List.mem_append_left _ hran)

/-- A batch is run to its last function, whatever was cleared meanwhile. -/
theorem batch_runs {rest : List Nat} {fn : Nat} (hfn : fn ∈ rest) (c : Cycle) (hp : c.phase = .due rest)
    (hinside : c.inside loopThread = none) : ∃ as d, run step c as = some d ∧ fn ∈ ranTimers d.log := by
  induction rest generalizing c with
  | nil => cases hfn
  | cons first rest ih =>
      have hnext : ∀ b : Cycle, b.phase = .due (first :: rest) → b.inside loopThread = none → b.busy = false →
          ∃ as d, run step b as = some d ∧ fn ∈ ranTimers d.log := by
        intro b hbp hbi hbusy
        have hfirst : b.step (.loop 0) = some (b.enter (.due rest) (.ranTimer first)) := by
          simp [step, advance, hbusy, hbp]
        rcases List.mem_cons.mp hfn with rfl | hlater
        · exact ⟨[.loop 0], _, run_cons.mpr ⟨_, hfirst, rfl⟩, by simp [enter, ranTimers]⟩
        · obtain ⟨as, d, hd, hran⟩ := ih hlater (b.enter (.due rest) (.ranTimer first)) rfl hbi
          exact ⟨.loop 0 :: as, d, run_cons.mpr ⟨_, hfirst, hd⟩, hran⟩
      cases hbusy : c.busy with
      | false => exact hnext c hp hinside hbusy
      | true =>
          -- the function that is running returns before the next one starts
          have hret : c.step .ret = some { c with busy := false } := by simp [step, hbusy, hinside]
          obtain ⟨as, d, hd, hran⟩ := hnext { c with busy := false } hp hinside rfl
          exact ⟨.ret :: as, d, run_cons.mpr ⟨_, hret, hd⟩, hran⟩

/-- Clearing a timer whose function was not started, on the loop thread, keeps the function
from ever being run exactly when no batch has taken it yet. -/
theorem cleared_never_runs_iff (wakeFd : Handle) {as : List Label} {c d : Cycle}
    (h : run step (start wakeFd) as = some c) {g : Timeline}
    (hg : g = history step recordTimers (start wakeFd) as {}) {s : Setting} (hs : s ∈ g.set)
    (hnot : s.timer.fn ∉ ranTimers c.log) {now : Int}
    (hclear : c.inside loopThread = some (.clearTimeout s.timer.id)) (hd : c.step (.exec loopThread now) = some d) :
    (∀ bs e, run step d bs = some e → s.timer.fn ∉ ranTimers e.log) ↔ s.timer.fn ∉ c.phase.dueBatch := by
  have hkept : Kept c g := hg ▸ run_kept h
  have hdeq : c.exec loopThread now (.clearTimeout s.timer.id) = d := by
    rw [step, hclear] at hd
    exact Option.some.inj hd
  constructor
  · intro hnever hmem
    cases hp : c.phase with
    | due rest =>
        rw [hp] at hmem
        have hinside : d.inside loopThread = none := by
          rw [← hdeq]
          simp [exec, Section.next]
        obtain ⟨bs, e, he, hran⟩ := batch_runs hmem d (hdeq ▸ hp) hinside
        exact hnever bs e he hran
    | idle | waiting | polling | polled | swapping | deferred | timers | dispatch | calling =>
        rw [hp] at hmem
        cases hmem
  · intro hbatch bs e he
    have hrecord : c.recordTimers (.exec loopThread now) g = { g with cleared := s.timer.id :: g.cleared } := by
      simp only [recordTimers, hclear, if_pos (hkept.issued s hs)]
    have hout : s.timer.fn ∉ d.gone := by
      rw [← hdeq]
      exact fun hout => (List.mem_append.mp hout).elim hnot hbatch
    have hdead : Dead d (c.recordTimers (.exec loopThread now) g) s := by
      rw [hrecord]
      exact ⟨hs, List.mem_cons_self, hout⟩
    exact run_dead (step_kept hkept hd) hdead he

/-- In the run of `timersRun`, the second timer is cleared before it is due. -/
theorem timersRun_cleared :
    ∃ c d, run step (start 3) (timersRun.take 18) = some c ∧ c.step (.exec loopThread 0) = some d ∧
      ∀ bs e, run step d bs = some e → 1 ∉ ranTimers e.log := by
  obtain ⟨c, hc, hfacts⟩ := Option.map_eq_some_iff.mp
    (show (run step (start 3) (timersRun.take 18)).map
        (fun c => (c.inside loopThread, ranTimers c.log, c.phase.dueBatch)) =
      some (some (.clearTimeout 2), [0], []) by decide +kernel)
  simp only [Prod.mk.injEq] at hfacts
  obtain ⟨hclear, hlog, hbatch⟩ := hfacts
  have hset : (⟨⟨2, 9000000, 1⟩, 0, 9, none⟩ : Setting) ∈
      (history step recordTimers (start 3) (timersRun.take 18) {}).set := by decide +kernel
  have hd : c.step (.exec loopThread 0) = some (c.exec loopThread 0 (.clearTimeout 2)) := by
    simp [step, hclear]
  refine ⟨c, _, hc, hd, ?_⟩
  refine (cleared_never_runs_iff 3 hc rfl hset ?_ hclear hd).mpr ?_
  · rw [hlog]
    decide
  · rw [hbatch]
    decide

/-- Two timers are due in one cycle, and the function of the first clears the second. -/
def clearingRun : List Label :=
  [.call 1 (.setTimeout 0), .exec 1 0, .exec 1 0, .call 1 (.setTimeout 0), .exec 1 0, .exec 1 0,
    .loop 0, .loop 0, .poll (.returned [POLLIN]), .loop 0, .loop 0, .loop 0, .loop 0, .loop 0, .call 0 (.clearTimeout 2)]

/-- The call returns before the second function is started, and the function is run. -/
theorem clearingRun_runs :
    ∃ c d e, run step (start 3) clearingRun = some c ∧
      (⟨⟨2, 0, 1⟩, 0, 0, none⟩ : Setting) ∈ (history step recordTimers (start 3) clearingRun {}).set ∧
      c.inside loopThread = some (.clearTimeout 2) ∧ 1 ∉ ranTimers c.log ∧
      c.step (.exec loopThread 0) = some d ∧ d.inside loopThread = none ∧
      run step d [.ret, .loop 0] = some e ∧ 1 ∈ ranTimers e.log := by
  obtain ⟨c, hc, hrest⟩ := Option.bind_eq_some_iff.mp
    (show ((run step (start 3) clearingRun).bind fun c => (c.step (.exec loopThread 0)).bind fun d =>
        (run step d [.ret, .loop 0]).map fun e =>
          (c.inside loopThread, ranTimers c.log, d.inside loopThread, ranTimers e.log)) =
      some (some (.clearTimeout 2), [0], none, [0, 1]) by decide +kernel)
  obtain ⟨d, hd, hrest⟩ := Option.bind_eq_some_iff.mp hrest
  obtain ⟨e, he, hfacts⟩ := Option.map_eq_some_iff.mp hrest
  simp only [Prod.mk.injEq] at hfacts
  obtain ⟨hclear, hlog, hinside, hran⟩ := hfacts
  refine ⟨c, d, e, hc, by decide +kernel, hclear, ?_, hd, hinside, he, ?_⟩
  · rw [hlog]
    decide
  · rw [hran]
    decide

/-! Order. -/

def Clears (c : Cycle) (id : Nat) : Label → Prop
  | .exec t _ => c.inside t = some (.clearTimeout id)
  | _ => False

/-- The step takes both timers in one batch. -/
def TakesBoth (c : Cycle) (t₁ t₂ : Timer Nat) : Label → Prop
  | .loop now => c.phase = .timers ∧ (t₁ ∈ c.loop.timers ∧ t₁.when ≤ now) ∧ t₂ ∈ c.loop.timers ∧ t₂.when ≤ now
  | _ => False

theorem Kept.sorted {c : Cycle} {g : Timeline} (h : Kept c g) : c.loop.timers.Pairwise (·.id < ·.id) := by
  rw [h.table, pendingTimers, List.pairwise_map]
  exact h.ids.sublist List.filter_sublist

theorem Kept.id_inj {c : Cycle} {g : Timeline} (h : Kept c g) {t₁ t₂ : Timer Nat} (h₁ : t₁ ∈ c.loop.timers)
    (h₂ : t₂ ∈ c.loop.timers) (hid : t₁.id = t₂.id) : t₁ = t₂ :=
  List.inj_on_of_nodup_map ((List.pairwise_map.mpr h.sorted).imp Nat.ne_of_lt) h₁ h₂ hid

theorem Kept.sublist_timers {c : Cycle} {g : Timeline} (h : Kept c g) {t₁ t₂ : Timer Nat} (h₁ : t₁ ∈ c.loop.timers)
    (h₂ : t₂ ∈ c.loop.timers) (hlt : t₁.id < t₂.id) : [t₁, t₂].Sublist c.loop.timers := by
  have hsorted := h.sorted
  obtain ⟨before, after, heq⟩ := List.append_of_mem h₁
  rw [heq] at h₂ hsorted ⊢
  obtain ⟨-, -, hbefore⟩ := List.pairwise_append.mp hsorted
  rcases List.mem_append.mp h₂ with hmem | hmem
  · exact absurd hlt (Nat.lt_asymm (hbefore t₂ hmem t₁ List.mem_cons_self))
  · rcases List.mem_cons.mp hmem with rfl | hafter
    · exact absurd hlt (Nat.lt_irrefl _)
    · exact ((List.singleton_sublist.mpr hafter).cons_cons t₁).trans (List.sublist_append_right before _)

theorem Kept.sublist_takeDue {c : Cycle} {g : Timeline} (h : Kept c g) {t₁ t₂ : Timer Nat} {now : Int}
    (h₁ : t₁ ∈ c.loop.timers) (h₂ : t₂ ∈ c.loop.timers) (hlt : t₁.id < t₂.id) (hdue₁ : t₁.when ≤ now)
    (hdue₂ : t₂.when ≤ now) : [t₁.fn, t₂.fn].Sublist (c.loop.takeDue now).1 := by
  have hsub := ((h.sublist_timers h₁ h₂ hlt).filter fun t => t.when ≤ now).map (·.fn)
  simpa [hdue₁, hdue₂, EventLoop.takeDue] using hsub

/-- Where two timers can be, as long as the first goes first. -/
def InTurn (c : Cycle) (t₁ t₂ : Timer Nat) : Prop :=
  [t₁.fn, t₂.fn].Sublist c.gone ∨ (t₁.fn ∈ c.gone ∧ t₂ ∈ c.loop.timers) ∨ (t₁ ∈ c.loop.timers ∧ t₂ ∈ c.loop.timers)

theorem InTurn.same {c d : Cycle} {t₁ t₂ : Timer Nat} (h : InTurn c t₁ t₂) (hgone : d.gone = c.gone)
    (htimers : ∀ t, (t = t₁ ∨ t = t₂) → t ∈ c.loop.timers → t ∈ d.loop.timers) : InTurn d t₁ t₂ := by
  have h₁ := htimers t₁ (.inl rfl)
  have h₂ := htimers t₂ (.inr rfl)
  unfold InTurn
  rw [hgone]
  exact h.imp_right (Or.imp (And.imp_right h₂) (And.imp h₁ h₂))

/-- A batch that takes the second takes the first as well, or the first went before. -/
theorem fire_inTurn {c : Cycle} {g : Timeline} {t₁ t₂ : Timer Nat} {now : Int} (hkept : Kept c g)
    (h : InTurn c t₁ t₂) (hlt : t₁.when < t₂.when) (hp : c.phase = .timers)
    (hturn : t₁.id < t₂.id ∨ ¬ c.TakesBoth t₁ t₂ (.loop now)) :
    InTurn { c with loop := (c.loop.takeDue now).2, phase := .due (c.loop.takeDue now).1 } t₁ t₂ := by
  unfold InTurn
  rw [gone_fire hp now]
  have hstays : ∀ t ∈ c.loop.timers, ¬ t.when ≤ now → t ∈ (c.loop.takeDue now).2.timers :=
    fun t ht hlater => List.mem_filter.mpr ⟨ht, decide_eq_true hlater⟩
  have htaken : ∀ t ∈ c.loop.timers, t.when ≤ now → t.fn ∈ (c.loop.takeDue now).1 :=
    fun t ht hdue => List.mem_map_of_mem (List.mem_filter.mpr ⟨ht, decide_eq_true hdue⟩)
  rcases h with hsub | ⟨h₁, h₂⟩ | ⟨h₁, h₂⟩
  · exact .inl (hsub.trans (List.sublist_append_left ..))
  · by_cases hdue : t₂.when ≤ now
    · exact .inl ((List.singleton_sublist.mpr h₁).append (List.singleton_sublist.mpr (htaken t₂ h₂ hdue)))
    · exact .inr (.inl ⟨List.mem_append_left _ h₁, hstays t₂ h₂ hdue⟩)
  · by_cases hdue : t₂.when ≤ now
    · have hdue₁ : t₁.when ≤ now := by omega
      rcases hturn with hid | hnot
      · exact .inl ((hkept.sublist_takeDue h₁ h₂ hid hdue₁ hdue).trans (List.sublist_append_right ..))
      · exact absurd ⟨hp, ⟨h₁, hdue₁⟩, h₂, hdue⟩ hnot
    · by_cases hdue₁ : t₁.when ≤ now
      · exact .inr (.inl ⟨List.mem_append_right _ (htaken t₁ h₁ hdue₁), hstays t₂ h₂ hdue⟩)
      · exact .inr (.inr ⟨hstays t₁ h₁ hdue₁, hstays t₂ h₂ hdue⟩)

theorem step_inTurn {c d : Cycle} {a : Label} {g : Timeline} {t₁ t₂ : Timer Nat} (hkept : Kept c g)
    (h : InTurn c t₁ t₂) (hlt : t₁.when < t₂.when) (hclear : ¬ c.Clears t₁.id a ∧ ¬ c.Clears t₂.id a)
    (hturn : t₁.id < t₂.id ∨ ¬ c.TakesBoth t₁ t₂ a) (hd : c.step a = some d) : InTurn d t₁ t₂ := by
  cases step_moves hd with
  | none hsame _ => exact h.same hsame.gone fun t _ ht => by rwa [hsame.timers]
  | fire hp => exact fire_inTurn hkept h hlt hp hturn
  | run hp => exact h.same (gone_run hp) fun t _ ht => ht
  | push _ => exact h.same rfl fun t _ ht => List.mem_append_left _ ht
  | @clear u now id hs =>
      refine h.same rfl fun t hor ht => List.mem_filter.mpr ⟨ht, bne_iff_ne.mpr ?_⟩
      rintro rfl
      rcases hor with rfl | rfl
      · exact hclear.1 hs
      · exact hclear.2 hs

theorem run_gone {c d : Cycle} {as : List Label} (h : run step c as = some d) : c.gone.Sublist d.gone := by
  have hstep : ∀ b a e, c.gone.Sublist b.gone → step b a = some e → c.gone.Sublist e.gone := by
    intro b a e hb he
    rcases (step_moves he).gone with hsame | ⟨now, hgone⟩
    · rwa [hsame]
    · rw [hgone]
      exact hb.trans (List.sublist_append_left ..)
  exact run_invariant hstep (List.Sublist.refl _) h

theorem step_fire {c d : Cycle} {now : Int} (hp : c.phase = .timers) (h : c.step (.loop now) = some d) :
    d = { c with loop := (c.loop.takeDue now).2, phase := .due (c.loop.takeDue now).1 } := by
  simp only [step, advance, hp] at h
  split at h
  · cases h
  · exact (Option.some.inj h).symm

theorem takesBoth_sublist {c d : Cycle} {as : List Label} {g : Timeline} {t₁ t₂ : Timer Nat} (hkept : Kept c g)
    (hid : t₂.id < t₁.id) (h : run step c as = some d)
    (hboth : ¬ Along step (fun c a => ¬ c.TakesBoth t₁ t₂ a) c as) : [t₂.fn, t₁.fn].Sublist d.gone := by
  induction as generalizing c g with
  | nil => exact absurd trivial hboth
  | cons a as ih =>
      obtain ⟨b, hb, hd⟩ := run_cons.mp h
      by_cases htakes : c.TakesBoth t₁ t₂ a
      · cases a with
        | loop now =>
            obtain ⟨hp, ⟨h₁, hdue₁⟩, h₂, hdue₂⟩ := htakes
            have hgone : b.gone = c.gone ++ (c.loop.takeDue now).1 := by
              rw [step_fire hp hb, gone_fire hp]
            have hsub := (hkept.sublist_takeDue h₂ h₁ hid hdue₂ hdue₁).trans (List.sublist_append_right c.gone _)
            rw [← hgone] at hsub
            exact hsub.trans (run_gone hd)
        | poll | ret | call | exec | quit => cases htakes
      · refine ih (step_kept hkept hb) hd fun halong => hboth ⟨htakes, fun t ht => ?_⟩
        cases hb.symm.trans ht
        exact halong

theorem not_sublist_swap {l : List Nat} (hl : l.Nodup) {x y : Nat} (h : [x, y].Sublist l) (h' : [y, x].Sublist l) :
    False := by
  induction l with
  | nil => cases h
  | cons z l ih =>
      obtain ⟨hz, hl⟩ := List.nodup_cons.mp hl
      cases h with
      | cons _ h =>
          cases h' with
          | cons _ h' => exact ih hl h h'
          | cons_cons _ h' => exact hz (h.subset (by simp))
      | cons_cons _ h =>
          cases h' with
          | cons _ h' => exact hz (h'.subset (by simp))
          | cons_cons _ h' => exact hz (List.singleton_sublist.mp h)

theorem sublist_left_of_mem {l₁ l₂ : List Nat} (hl : (l₁ ++ l₂).Nodup) {x y : Nat} (h : [x, y].Sublist (l₁ ++ l₂))
    (hy : y ∈ l₁) : [x, y].Sublist l₁ := by
  have hout : y ∉ l₂ := fun hy₂ => (List.nodup_append.mp hl).2.2 y hy y hy₂ rfl
  obtain ⟨m₁, m₂, heq, hm₁, hm₂⟩ := List.sublist_append_iff.mp h
  match m₁ with
  | [] =>
      cases heq
      exact absurd (hm₂.subset (by simp)) hout
  | [_] =>
      cases heq
      exact absurd (hm₂.subset (by simp)) hout
  | _ :: _ :: _ =>
      simp only [List.cons_append, List.cons.injEq, List.nil_eq, List.append_eq_nil_iff] at heq
      obtain ⟨rfl, rfl, rfl, -⟩ := heq
      exact hm₁

theorem run_inTurn {c d : Cycle} {as : List Label} {g : Timeline} {t₁ t₂ : Timer Nat} (hkept : Kept c g)
    (h : InTurn c t₁ t₂) (hlt : t₁.when < t₂.when)
    (hclear : Along step (fun c a => ¬ c.Clears t₁.id a ∧ ¬ c.Clears t₂.id a) c as)
    (hturn : t₁.id < t₂.id ∨ Along step (fun c a => ¬ c.TakesBoth t₁ t₂ a) c as) (hd : run step c as = some d) :
    InTurn d t₁ t₂ := by
  have hok : Along step (fun c a => (¬ c.Clears t₁.id a ∧ ¬ c.Clears t₂.id a) ∧
      (t₁.id < t₂.id ∨ ¬ c.TakesBoth t₁ t₂ a)) c as := by
    rcases hturn with hid | hnot
    · exact hclear.mono fun _ _ hc => ⟨hc, .inl hid⟩
    · exact (hclear.and hnot).mono fun _ _ hc => ⟨hc.1, .inr hc.2⟩
  have hstep : ∀ c g a d, Kept c g ∧ InTurn c t₁ t₂ →
      (¬ c.Clears t₁.id a ∧ ¬ c.Clears t₂.id a) ∧ (t₁.id < t₂.id ∨ ¬ c.TakesBoth t₁ t₂ a) → step c a = some d →
      Kept d (recordTimers c a g) ∧ InTurn d t₁ t₂ :=
    fun _ _ _ _ hi hok hd => ⟨step_kept hi.1 hd, step_inTurn hi.1 hi.2 hlt hok.1 hok.2 hd⟩
  exact (history_invariant hstep ⟨hkept, h⟩ hok hd).2

/-- Of two pending timers that are not cleared, the one with the earlier deadline is run
first exactly when it was set first or no batch takes both of them. -/
theorem fired_in_deadline_order_iff (wakeFd : Handle) {as bs : List Label} {c e : Cycle}
    (h : run step (start wakeFd) as = some c) {t₁ t₂ : Timer Nat} (h₁ : t₁ ∈ c.loop.timers)
    (h₂ : t₂ ∈ c.loop.timers) (hlt : t₁.when < t₂.when) (he : run step c bs = some e)
    (hclear : Along step (fun c a => ¬ c.Clears t₁.id a ∧ ¬ c.Clears t₂.id a) c bs)
    (hran : t₂.fn ∈ ranTimers e.log) :
    [t₁.fn, t₂.fn].Sublist (ranTimers e.log) ↔
      t₁.id < t₂.id ∨ Along step (fun c a => ¬ c.TakesBoth t₁ t₂ a) c bs := by
  have hkept := run_kept h
  have hend := hkept.run he
  constructor
  · intro hsub
    by_contra hnot
    obtain ⟨hid, hboth⟩ := not_or.mp hnot
    have hne : t₁.id ≠ t₂.id := by
      intro heq
      cases hkept.id_inj h₁ h₂ heq
      exact Int.lt_irrefl _ hlt
    have hswap := takesBoth_sublist hkept (by omega) he hboth
    exact not_sublist_swap hend.once (hsub.trans (List.sublist_append_left ..)) hswap
  · intro hturn
    have hpending : t₂ ∉ e.loop.timers := by
      intro hmem
      obtain ⟨s, -, hout, rfl⟩ := hend.mem_timers.mp hmem
      exact hout.1 (List.mem_append_left _ hran)
    rcases run_inTurn hkept (.inr (.inr ⟨h₁, h₂⟩)) hlt hclear hturn he with hsub | ⟨-, hmem⟩ | ⟨-, hmem⟩
    · exact sublist_left_of_mem hend.once hsub hran
    · exact absurd hmem hpending
    · exact absurd hmem hpending

def settingRun (first second : Int) : List Label :=
  [.call 1 (.setTimeout first), .exec 1 0, .exec 1 0, .call 1 (.setTimeout second), .exec 1 0, .exec 1 0]

/-- The loop wakes up at 30 ms and runs two timers that are due. -/
def lateCycle : List Label :=
  [.loop 30000000, .loop 30000000, .poll (.returned [POLLIN]), .loop 30000000, .loop 30000000, .loop 30000000,
    .loop 30000000, .loop 30000000, .ret, .loop 30000000]

theorem lateCycle_clears_none (c : Cycle) (i j : Nat) :
    Along step (fun c a => ¬ c.Clears i a ∧ ¬ c.Clears j a) c lateCycle :=
  Along.of_labels (by simp [lateCycle, Clears]) c

theorem settingRun_in_order :
    ∃ c e, run step (start 3) (settingRun 10 20) = some c ∧ run step c lateCycle = some e ∧
      c.loop.timers = [⟨1, 10000000, 0⟩, ⟨2, 20000000, 1⟩] ∧ [0, 1].Sublist (ranTimers e.log) := by
  obtain ⟨c, hc, hrest⟩ := Option.bind_eq_some_iff.mp
    (show ((run step (start 3) (settingRun 10 20)).bind fun c =>
        (run step c lateCycle).map fun e => (c.loop.timers, ranTimers e.log)) =
      some ([⟨1, 10000000, 0⟩, ⟨2, 20000000, 1⟩], [0, 1]) by decide +kernel)
  obtain ⟨e, he, hfacts⟩ := Option.map_eq_some_iff.mp hrest
  obtain ⟨htimers, hran⟩ := Prod.mk.inj hfacts
  refine ⟨c, e, hc, he, htimers, ?_⟩
  refine (@fired_in_deadline_order_iff 3 _ _ c e hc ⟨1, 10000000, 0⟩ ⟨2, 20000000, 1⟩ ?_ ?_ (by decide) he
    (lateCycle_clears_none c 1 2) ?_).mpr (.inl (by decide))
  · simp [htimers]
  · simp [htimers]
  · simp [hran]

/-- With the later deadline set first, the timer of 20 ms is run before the one of 10 ms. -/
theorem settingRun_out_of_order :
    ∃ c e, run step (start 3) (settingRun 20 10) = some c ∧ run step c lateCycle = some e ∧ c.phase = .idle ∧
      c.loop.timers = [⟨1, 20000000, 0⟩, ⟨2, 10000000, 1⟩] ∧
      Along step (fun c a => ¬ c.Clears 1 a ∧ ¬ c.Clears 2 a) c lateCycle ∧ ranTimers e.log = [0, 1] := by
  obtain ⟨c, hc, hrest⟩ := Option.bind_eq_some_iff.mp
    (show ((run step (start 3) (settingRun 20 10)).bind fun c =>
        (run step c lateCycle).map fun e => (c.phase, c.loop.timers, ranTimers e.log)) =
      some (.idle, [⟨1, 20000000, 0⟩, ⟨2, 10000000, 1⟩], [0, 1]) by decide +kernel)
  obtain ⟨e, he, hfacts⟩ := Option.map_eq_some_iff.mp hrest
  simp only [Prod.mk.injEq] at hfacts
  obtain ⟨hphase, htimers, hran⟩ := hfacts
  exact ⟨c, e, hc, he, hphase, htimers, lateCycle_clears_none c 1 2, hran⟩

end Cycle
end CxNetworking.Core
