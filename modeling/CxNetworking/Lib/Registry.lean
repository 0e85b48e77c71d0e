import Mathlib.Logic.Function.Basic

/-! A table of owners under keys, next to owners that each hold at most one key. -/
namespace Registry

variable {ι η : Type*}

/-- Every entry names an owner that holds its key. -/
def Sound (holds : ι → Option η) (table : η → Option ι) : Prop := ∀ k o, table k = some o → holds o = some k

namespace Sound

variable {holds : ι → Option η} {table : η → Option ι} {k : η} {o : ι}

theorem unnamed (h : Sound holds table) (ho : holds o = none) (j : η) : table j ≠ some o := by
  intro hj
  cases ho.symm.trans (h j o hj)

/-- An owner without an entry may take or give up a key. -/
theorem rehold [DecidableEq ι] (h : Sound holds table) (ho : ∀ j, table j ≠ some o) (x : Option η) :
    Sound (Function.update holds o x) table := by
  intro j p hj
  rw [Function.update_apply]
  split
  · next hp => exact (ho j (hp ▸ hj)).elim
  · exact h j p hj

variable [DecidableEq η]

theorem enter (h : Sound holds table) (ho : holds o = some k) : Sound holds (Function.update table k (some o)) := by
  intro j p hj
  rw [Function.update_apply] at hj
  split at hj
  · next hjk =>
      cases hj
      rw [ho, hjk]
  · exact h j p hj

theorem strike (h : Sound holds table) (k : η) : Sound holds (Function.update table k none) := by
  intro j p hj
  rw [Function.update_apply] at hj
  split at hj
  · cases hj
  · exact h j p hj

theorem unnamed_strike (h : Sound holds table) (ho : ∀ j, holds o = some j → j = k) (j : η) :
    Function.update table k none j ≠ some o := by
  intro hj
  rw [Function.update_apply] at hj
  split at hj
  · cases hj
  · next hjk => exact hjk (ho j (h j o hj))

end Sound
end Registry
