import Mathlib.Data.Finset.Card

/-! Finite orbits of a partial successor function. An orbit that halts visits no
state twice, so a bound on the states it may visit is a bound on its length; one that
goes on beyond the bound visits some state again. -/
namespace Orbit

variable {α : Type*} (next : α → Option α)

/-- The states visited from `a` until the successor is undefined, in order. -/
inductive Path : α → List α → Prop
  | halt {a} : next a = none → Path a [a]
  | step {a b l} : next a = some b → Path b l → Path a (a :: l)

variable {next}

theorem Path.unique {a : α} {l m : List α} (hl : Path next a l) (hm : Path next a m) : l = m := by
  induction hl generalizing m with
  | halt hn =>
      cases hm with
      | halt _ => rfl
      | step hs _ => cases hn.symm.trans hs
  | step hn _ ih =>
      cases hm with
      | halt hh => cases hh.symm.trans hn
      | step hs hp =>
          cases hn.symm.trans hs
          rw [ih hp]

theorem Path.of_mem {a b : α} {l : List α} (h : Path next a l) (hb : b ∈ l) :
    ∃ m, Path next b m ∧ m.length ≤ l.length := by
  induction h with
  | halt hn =>
      cases List.mem_singleton.mp hb
      exact ⟨_, .halt hn, Nat.le_refl _⟩
  | step hn hp ih =>
      rcases List.mem_cons.mp hb with rfl | later
      · exact ⟨_, .step hn hp, Nat.le_refl _⟩
      · obtain ⟨m, hm, hlen⟩ := ih later
        exact ⟨m, hm, hlen.trans (Nat.le_succ _)⟩

/-- A repeated state would have two paths of different lengths. -/
theorem Path.nodup {a : α} {l : List α} (h : Path next a l) : l.Nodup := by
  induction h with
  | halt _ => exact List.nodup_singleton _
  | @step a b l hn hp ih =>
      refine List.nodup_cons.mpr ⟨?_, ih⟩
      intro again
      obtain ⟨m, hm, hlen⟩ := hp.of_mem again
      have same : m = a :: l := hm.unique (.step hn hp)
      rw [same, List.length_cons] at hlen
      omega

theorem Path.length_le [DecidableEq α] {a : α} {l : List α} {S : Finset α} (h : Path next a l)
    (hS : ∀ x ∈ l, x ∈ S) : l.length ≤ S.card := by
  rw [← List.toFinset_card_of_nodup h.nodup]
  exact Finset.card_le_card fun x hx => hS x (List.mem_toFinset.mp hx)

variable (next)

def after : Nat → α → Option α
  | 0, a => some a
  | n + 1, a => (next a).bind (after n)

def Returns (a : α) : Prop := ∃ i j x, i < j ∧ after next i a = some x ∧ after next j a = some x

variable {next}

theorem after_succ {a b : α} (h : next a = some b) (n : Nat) : after next (n + 1) a = after next n b := by
  rw [after, h, Option.bind_some]

/-- Too many steps inside a finite set visit some state twice. -/
theorem returns_of_card {a : α} {S : Finset α} (h : ∀ n ≤ S.card, ∃ x ∈ S, after next n a = some x) :
    Returns next a := by
  have : Nonempty α := ⟨a⟩
  choose! f hf using h
  have hcard : S.card < (Finset.range (S.card + 1)).card := by
    rw [Finset.card_range]
    exact Nat.lt_succ_self _
  obtain ⟨i, hi, j, hj, hne, heq⟩ := Finset.exists_ne_map_eq_of_card_lt_of_maps_to hcard
    fun n hn => (hf n (Nat.le_of_lt_succ (Finset.mem_range.mp hn))).1
  have hat : ∀ n ∈ Finset.range (S.card + 1), after next n a = some (f n) := fun n hn =>
    (hf n (Nat.le_of_lt_succ (Finset.mem_range.mp hn))).2
  rcases Nat.lt_or_gt_of_ne hne with hlt | hlt
  · exact ⟨i, j, f i, hlt, hat i hi, heq ▸ hat j hj⟩
  · exact ⟨j, i, f j, hlt, hat j hj, heq ▸ hat i hi⟩

end Orbit
