import Mathlib.Data.List.Basic

/-! Labelled executions of a partial step function. A label carries every choice
the environment makes in its step, so a list of labels determines the whole run.
Nothing here names a particular system. -/
namespace Execution

variable {σ ℓ : Type*} (step : σ → ℓ → Option σ)

/-- The state after a list of labels; `none` when some step is not enabled. -/
def run : σ → List ℓ → Option σ
  | s, [] => some s
  | s, a :: as => (step s a).bind fun t => run t as

/-- Every step of the run meets `ok`, read in the state before the step. -/
def Along (ok : σ → ℓ → Prop) : σ → List ℓ → Prop
  | _, [] => True
  | s, a :: as => ok s a ∧ ∀ t, step s a = some t → Along ok t as

/-- Every state of the run, the first one included, satisfies `P`. -/
def Throughout (P : σ → Prop) : σ → List ℓ → Prop
  | s, [] => P s
  | s, a :: as => P s ∧ ∀ t, step s a = some t → Throughout P t as

/-- How many steps of the run meet `p`, read in the state before the step. -/
def tally (p : σ → ℓ → Bool) : σ → List ℓ → Nat
  | _, [] => 0
  | s, a :: as => (p s a).toNat + (step s a).elim 0 fun t => tally p t as

variable {step}

instance decidableAlong {ok : σ → ℓ → Prop} [∀ s a, Decidable (ok s a)] :
    ∀ (s : σ) (as : List ℓ), Decidable (Along step ok s as)
  | _, [] => isTrue trivial
  | s, a :: as =>
    match h : step s a with
    | none => decidable_of_iff (ok s a) (by simp [Along, h])
    | some t =>
      have : Decidable (Along step ok t as) := decidableAlong t as
      decidable_of_iff (ok s a ∧ Along step ok t as) (by simp [Along, h])

instance decidableThroughout {P : σ → Prop} [DecidablePred P] :
    ∀ (s : σ) (as : List ℓ), Decidable (Throughout step P s as)
  | s, [] => inferInstanceAs (Decidable (P s))
  | s, a :: as =>
    match h : step s a with
    | none => decidable_of_iff (P s) (by simp [Throughout, h])
    | some t =>
      have : Decidable (Throughout step P t as) := decidableThroughout t as
      decidable_of_iff (P s ∧ Throughout step P t as) (by simp [Throughout, h])

theorem run_cons {s u : σ} {a : ℓ} {as : List ℓ} :
    run step s (a :: as) = some u ↔ ∃ t, step s a = some t ∧ run step t as = some u := by
  simp only [run, Option.bind_eq_some_iff]

theorem run_append {s t u : σ} {as bs : List ℓ} (h : run step s as = some t) (h' : run step t bs = some u) :
    run step s (as ++ bs) = some u := by
  induction as generalizing s with
  | nil => cases h; exact h'
  | cons a as ih =>
      obtain ⟨r, hr, ht⟩ := run_cons.mp h
      exact run_cons.mpr ⟨r, hr, ih ht⟩

theorem Along.mono {p q : σ → ℓ → Prop} (hpq : ∀ s a, p s a → q s a) {s : σ} {as : List ℓ} (h : Along step p s as) :
    Along step q s as := by
  induction as generalizing s with
  | nil => exact True.intro
  | cons a as ih => exact ⟨hpq s a h.1, fun t ht => ih (h.2 t ht)⟩

theorem Along.and {p q : σ → ℓ → Prop} {s : σ} {as : List ℓ} (hp : Along step p s as) (hq : Along step q s as) :
    Along step (fun s a => p s a ∧ q s a) s as := by
  induction as generalizing s with
  | nil => exact True.intro
  | cons a as ih => exact ⟨⟨hp.1, hq.1⟩, fun t ht => ih (hp.2 t ht) (hq.2 t ht)⟩

theorem run_invariant {I : σ → Prop} (hstep : ∀ s a t, I s → step s a = some t → I t)
    {s u : σ} {as : List ℓ} (hs : I s) (h : run step s as = some u) : I u := by
  induction as generalizing s with
  | nil => cases h; exact hs
  | cons a as ih =>
      obtain ⟨t, ht, hu⟩ := run_cons.mp h
      exact ih (hstep s a t hs ht) hu

/-- An invariant kept by the steps that meet `ok` holds throughout every run of
such steps. -/
theorem throughout_of_along {ok : σ → ℓ → Prop} {I : σ → Prop}
    (hstep : ∀ s a t, I s → ok s a → step s a = some t → I t)
    {s : σ} {as : List ℓ} (hs : I s) (hok : Along step ok s as) : Throughout step I s as := by
  induction as generalizing s with
  | nil => exact hs
  | cons a as ih => exact ⟨hs, fun t ht => ih (hstep s a t hs hok.1 ht) (hok.2 t ht)⟩

theorem Throughout.mono {P Q : σ → Prop} (hPQ : ∀ s, P s → Q s) {s : σ} {as : List ℓ}
    (h : Throughout step P s as) : Throughout step Q s as := by
  induction as generalizing s with
  | nil => exact hPQ s h
  | cons a as ih => exact ⟨hPQ s h.1, fun t ht => ih (h.2 t ht)⟩

theorem Throughout.head {P : σ → Prop} {s : σ} {as : List ℓ} (h : Throughout step P s as) : P s := by
  cases as with
  | nil => exact h
  | cons a as => exact h.1

theorem Throughout.last {P : σ → Prop} {s u : σ} {as : List ℓ} (h : Throughout step P s as)
    (hrun : run step s as = some u) : P u := by
  induction as generalizing s with
  | nil => cases hrun; exact h
  | cons a as ih =>
      obtain ⟨t, ht, hu⟩ := run_cons.mp hrun
      exact ih (h.2 t ht) hu

/-- When a step that breaks `ok` always leads to a state without `P`, a run that
keeps `P` throughout, with its last state included, takes only steps that meet `ok`. -/
theorem along_of_throughout {ok : σ → ℓ → Prop} {P : σ → Prop}
    (hbad : ∀ s a t, ¬ ok s a → step s a = some t → ¬ P t)
    {s u : σ} {as : List ℓ} (h : Throughout step P s as) (hrun : run step s as = some u) :
    Along step ok s as := by
  induction as generalizing s with
  | nil => trivial
  | cons a as ih =>
      obtain ⟨t, ht, hu⟩ := run_cons.mp hrun
      refine ⟨?_, ?_⟩
      · by_contra hok
        exact hbad s a t hok ht (h.2 t ht).head
      · intro v hv
        cases ht.symm.trans hv
        exact ih (h.2 t ht) hu

theorem tally_cons {p : σ → ℓ → Bool} {s t : σ} {a : ℓ} {as : List ℓ} (h : step s a = some t) :
    tally step p s (a :: as) = (p s a).toNat + tally step p t as := by
  rw [tally, h, Option.elim_some]

/-- A potential pays for the steps of a run: when each step lowers `f` by one if it counts,
and raises it by at most `k` if it adds work, then the run has no more steps that count than
the potential at its start and the work added to it pay for. -/
theorem run_potential {ok : σ → ℓ → Prop} {I : σ → Prop} {f : σ → Nat} {counts : ℓ → Bool} {adds : σ → ℓ → Bool}
    {k : Nat}
    (hstep : ∀ s a t, I s → ok s a → step s a = some t →
      I t ∧ f t + (counts a).toNat ≤ f s + k * (adds s a).toNat)
    {s u : σ} {as : List ℓ} (hs : I s) (hok : Along step ok s as) (h : run step s as = some u) :
    I u ∧ f u + as.countP counts ≤ f s + k * tally step adds s as := by
  induction as generalizing s with
  | nil => cases h; exact ⟨hs, Nat.le_refl _⟩
  | cons a as ih =>
      obtain ⟨t, ht, hu⟩ := run_cons.mp h
      obtain ⟨hi, hle⟩ := hstep s a t hs hok.1 ht
      obtain ⟨hi', hle'⟩ := ih hi (hok.2 t ht) hu
      refine ⟨hi', ?_⟩
      have hcounts : (a :: as).countP counts = as.countP counts + (counts a).toNat := by
        cases hc : counts a <;> simp [hc]
      rw [hcounts, tally_cons ht, Nat.mul_add]
      omega

end Execution
