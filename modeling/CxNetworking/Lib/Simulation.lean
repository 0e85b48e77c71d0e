import CxNetworking.Lib.Execution

/-! Forward simulation between labelled systems. A concrete step is matched by a run of the
abstract system over the image of its label; an empty image is a step that the abstract
system does not see. -/
namespace Execution

variable {σ τ ℓ μ : Type*} {step : σ → ℓ → Option σ} {step' : τ → μ → Option τ}

/-- Every step from related states is matched, and the states after it are related. -/
def Simulates (step : σ → ℓ → Option σ) (step' : τ → μ → Option τ) (image : ℓ → List μ) (rel : σ → τ → Prop) : Prop :=
  ∀ s a s' t, rel s t → step s a = some s' → ∃ t', run step' t (image a) = some t' ∧ rel s' t'

theorem run_singleton {s : σ} {a : ℓ} : run step s [a] = step s a := by
  simp [run]

theorem Simulates.run {image : ℓ → List μ} {rel : σ → τ → Prop} (hsim : Simulates step step' image rel)
    {s s' : σ} {t : τ} {as : List ℓ} (hrel : rel s t) (h : run step s as = some s') :
    ∃ t', Execution.run step' t (as.flatMap image) = some t' ∧ rel s' t' := by
  induction as generalizing s t with
  | nil =>
      cases h
      exact ⟨t, rfl, hrel⟩
  | cons a as ih =>
      obtain ⟨r, hr, hs'⟩ := run_cons.mp h
      obtain ⟨u, hu, hrel⟩ := hsim s a r t hrel hr
      obtain ⟨t', ht', hrel⟩ := ih hrel hs'
      exact ⟨t', run_append hu ht', hrel⟩

theorem Simulates.run_view {image : ℓ → List μ} (view : σ → τ)
    (hsim : ∀ s a s', step s a = some s' → Execution.run step' (view s) (image a) = some (view s'))
    {s s' : σ} {as : List ℓ} (h : Execution.run step s as = some s') :
    Execution.run step' (view s) (as.flatMap image) = some (view s') := by
  have hs : Simulates step step' image (fun s t => t = view s) := by
    rintro s a s' _ rfl hstep
    exact ⟨view s', hsim s a s' hstep, rfl⟩
  obtain ⟨t', ht', rfl⟩ := hs.run rfl h
  exact ht'

/-- A step is matched by a run of the abstract system that shows what the step adds to the
record `seen`, newest first. -/
def Matches (step' : τ → μ → Option τ) (view : σ → τ) {ω : Type*} (seen : σ → List ω) (shows : μ → Option ω) (s s' : σ) :
    Prop :=
  ∃ bs, run step' (view s) bs = some (view s') ∧ seen s' = (bs.filterMap shows).reverse ++ seen s

/-- A refinement that keeps what is observed: when every step that meets `ok` is matched, so
is every run of such steps. The abstract steps may depend on the state. -/
theorem matches_run {ω : Type*} {view : σ → τ} {seen : σ → List ω} {shows : μ → Option ω} {ok : σ → ℓ → Prop}
    {I : σ → Prop}
    (hstep : ∀ s a s', I s → ok s a → step s a = some s' → I s' ∧ Matches step' view seen shows s s')
    {s u : σ} {as : List ℓ} (hs : I s) (hok : Along step ok s as) (h : run step s as = some u) :
    Matches step' view seen shows s u := by
  induction as generalizing s with
  | nil =>
      cases h
      exact ⟨[], rfl, rfl⟩
  | cons a as ih =>
      obtain ⟨r, hr, hu⟩ := run_cons.mp h
      obtain ⟨hi, bs, hbs, hseen⟩ := hstep s a r hs hok.1 hr
      obtain ⟨bs', hbs', hseen'⟩ := ih hi (hok.2 r hr) hu
      refine ⟨bs ++ bs', run_append hbs hbs', ?_⟩
      rw [hseen', hseen, List.filterMap_append, List.reverse_append, List.append_assoc]

end Execution
