import Mathlib.Data.List.Basic
import Mathlib.Logic.Function.Basic

/-! Owners that cannot be copied. Resources are taken from a table and given back to it. A
resource in use is held by one owner, or it is loose: in the hands of code that is on its
way to store it or to give it back. -/
namespace Ownership

variable {ω ρ : Type} {table loose : List ρ} {holds : ω → Option ρ} {o : ω} {r : ρ}

structure Owned (table : List ρ) (holds : ω → Option ρ) (loose : List ρ) : Prop where
  nodup : table.Nodup
  loose_nodup : loose.Nodup
  alone : ∀ o o' r, holds o = some r → holds o' = some r → o = o'
  apart : ∀ o r, holds o = some r → r ∉ loose
  mem_iff : ∀ r, r ∈ table ↔ r ∈ loose ∨ ∃ o, holds o = some r

namespace Owned

theorem start : Owned [] (fun _ : ω => (none : Option ρ)) [] := by
  constructor <;> simp

theorem of_perm {table' loose' : List ρ} (h : Owned table holds loose) (ht : table'.Perm table)
    (hl : loose'.Perm loose) : Owned table' holds loose' where
  nodup := ht.nodup_iff.mpr h.nodup
  loose_nodup := hl.nodup_iff.mpr h.loose_nodup
  alone := h.alone
  apart o r ho := fun hr => h.apart o r ho (hl.mem_iff.mp hr)
  mem_iff r := by rw [ht.mem_iff, hl.mem_iff, h.mem_iff]

theorem mem_of_holds (h : Owned table holds loose) (ho : holds o = some r) : r ∈ table :=
  (h.mem_iff r).mpr (.inr ⟨o, ho⟩)

theorem mem_of_loose (h : Owned table holds loose) (hr : r ∈ loose) : r ∈ table := (h.mem_iff r).mpr (.inl hr)

theorem acquire (h : Owned table holds loose) (hr : r ∉ table) : Owned (r :: table) holds (r :: loose) where
  nodup := List.nodup_cons.mpr ⟨hr, h.nodup⟩
  loose_nodup := List.nodup_cons.mpr ⟨fun hl => hr (h.mem_of_loose hl), h.loose_nodup⟩
  alone := h.alone
  apart o x ho hx := by
    rcases List.mem_cons.mp hx with rfl | hx
    · exact hr (h.mem_of_holds ho)
    · exact h.apart o x ho hx
  mem_iff x := by rw [List.mem_cons, List.mem_cons, h.mem_iff, or_assoc]

theorem discard [DecidableEq ρ] (h : Owned table holds (r :: loose)) : Owned (table.erase r) holds loose := by
  obtain ⟨hr, hloose⟩ := List.nodup_cons.mp h.loose_nodup
  refine ⟨h.nodup.erase r, hloose, h.alone, fun o x ho hx => h.apart o x ho (List.mem_cons_of_mem r hx), ?_⟩
  intro x
  rw [h.nodup.mem_erase_iff, h.mem_iff, List.mem_cons]
  constructor
  · rintro ⟨hne, (rfl | hx) | hx⟩
    · exact absurd rfl hne
    · exact .inl hx
    · exact .inr hx
  · rintro (hx | ⟨o, ho⟩)
    · exact ⟨fun he => hr (he ▸ hx), .inl (.inr hx)⟩
    · refine ⟨?_, .inr ⟨o, ho⟩⟩
      rintro rfl
      exact h.apart o x ho List.mem_cons_self

section Owners

variable [DecidableEq ω]

theorem store (h : Owned table holds (r :: loose)) (ho : holds o = none) :
    Owned table (Function.update holds o (some r)) loose := by
  obtain ⟨hr, hloose⟩ := List.nodup_cons.mp h.loose_nodup
  have hget {k : ω} {x : ρ} (hk : Function.update holds o (some r) k = some x) :
      k = o ∧ x = r ∨ k ≠ o ∧ holds k = some x := by
    by_cases he : k = o
    · subst he
      rw [Function.update_self] at hk
      exact .inl ⟨rfl, (Option.some.inj hk).symm⟩
    · rw [Function.update_of_ne he] at hk
      exact .inr ⟨he, hk⟩
  have hout {k : ω} (hk : holds k = some r) : False := h.apart k r hk List.mem_cons_self
  constructor
  · exact h.nodup
  · exact hloose
  · intro k k' x hk hk'
    rcases hget hk with ⟨hko, hx⟩ | ⟨-, hold⟩ <;> rcases hget hk' with ⟨hko', hx'⟩ | ⟨-, hold'⟩
    · exact hko.trans hko'.symm
    · exact (hout (hx ▸ hold')).elim
    · exact (hout (hx' ▸ hold)).elim
    · exact h.alone k k' x hold hold'
  · intro k x hk hx
    rcases hget hk with ⟨-, rfl⟩ | ⟨-, hk⟩
    · exact hr hx
    · exact h.apart k x hk (List.mem_cons_of_mem r hx)
  · intro x
    rw [h.mem_iff, List.mem_cons]
    constructor
    · rintro ((rfl | hx) | ⟨k, hk⟩)
      · exact .inr ⟨o, Function.update_self ..⟩
      · exact .inl hx
      · refine .inr ⟨k, ?_⟩
        rw [Function.update_of_ne]
        · exact hk
        · rintro rfl
          rw [ho] at hk
          cases hk
    · rintro (hx | ⟨k, hk⟩)
      · exact .inl (.inr hx)
      · rcases hget hk with ⟨-, rfl⟩ | ⟨-, hk⟩
        · exact .inl (.inl rfl)
        · exact .inr ⟨k, hk⟩

theorem unload (h : Owned table holds loose) (ho : holds o = some r) :
    Owned table (Function.update holds o none) (r :: loose) := by
  have hget {k : ω} {x : ρ} : Function.update holds o none k = some x ↔ k ≠ o ∧ holds k = some x := by
    by_cases he : k = o
    · subst he
      simp
    · simp [he]
  constructor
  · exact h.nodup
  · exact List.nodup_cons.mpr ⟨h.apart o r ho, h.loose_nodup⟩
  · exact fun k k' x hk hk' => h.alone k k' x (hget.mp hk).2 (hget.mp hk').2
  · intro k x hk hx
    obtain ⟨hne, hk⟩ := hget.mp hk
    rcases List.mem_cons.mp hx with rfl | hx
    · exact hne (h.alone k o x hk ho)
    · exact h.apart k x hk hx
  · intro x
    rw [h.mem_iff, List.mem_cons]
    constructor
    · rintro (hx | ⟨k, hk⟩)
      · exact .inl (.inr hx)
      · by_cases he : k = o
        · subst he
          exact .inl (.inl (Option.some.inj (hk.symm.trans ho)))
        · exact .inr ⟨k, hget.mpr ⟨he, hk⟩⟩
    · rintro ((rfl | hx) | ⟨k, hk⟩)
      · exact .inr ⟨o, ho⟩
      · exact .inl hx
      · exact .inr ⟨k, (hget.mp hk).2⟩

theorem clear [DecidableEq ρ] (h : Owned table holds loose) (ho : holds o = some r) :
    Owned (table.erase r) (Function.update holds o none) loose :=
  (h.unload ho).discard

end Owners

end Owned
end Ownership
