import CxNetworking.Lib.Execution

/-! History variables: a value beside the state that every step updates and no step
reads. With one, what a run has done can be spoken of in its last state. -/
namespace Execution

variable {σ ℓ γ : Type*} (step : σ → ℓ → Option σ) (record : σ → ℓ → γ → γ)

/-- The history variable after a run; `record` reads the state before each step. -/
def history : σ → List ℓ → γ → γ
  | _, [], g => g
  | s, a :: as, g => (step s a).elim g fun t => history t as (record s a g)

variable {step record}

theorem history_cons {s t : σ} {a : ℓ} {as : List ℓ} {g : γ} (h : step s a = some t) :
    history step record s (a :: as) g = history step record t as (record s a g) := by
  rw [history, h, Option.elim_some]

/-- A condition that the labels of a run meet in every state. -/
theorem Along.of_labels {ok : σ → ℓ → Prop} {as : List ℓ} (h : ∀ a ∈ as, ∀ s, ok s a) (s : σ) : Along step ok s as := by
  induction as generalizing s with
  | nil => exact True.intro
  | cons a as ih =>
      exact ⟨h a List.mem_cons_self s, fun t _ => ih (fun b hb => h b (List.mem_cons_of_mem a hb)) t⟩

theorem Along.trivial (s : σ) (as : List ℓ) : Along step (fun _ _ => True) s as :=
  Along.of_labels (fun _ _ _ => True.intro) s

/-- An invariant of the state and the history variable, kept by the steps that meet
`ok`, holds after every run of such steps. -/
theorem history_invariant {ok : σ → ℓ → Prop} {I : σ → γ → Prop}
    (hstep : ∀ s g a t, I s g → ok s a → step s a = some t → I t (record s a g))
    {s u : σ} {g : γ} {as : List ℓ} (hs : I s g) (hok : Along step ok s as) (h : run step s as = some u) :
    I u (history step record s as g) := by
  induction as generalizing s g with
  | nil => cases h; exact hs
  | cons a as ih =>
      obtain ⟨t, ht, hu⟩ := run_cons.mp h
      rw [history_cons ht]
      exact ih (hstep s g a t hs hok.1 ht) (hok.2 t ht) hu

end Execution
