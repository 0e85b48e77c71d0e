import CxNetworking.Dns.ReaderCalls
import CxNetworking.Dns.RoundTrip

/-! What a call that fails leaves behind. `read_name` moves the cursor at the first pointer
it follows, before it knows whether there is a name; `write_name` writes each label before
it looks at the next one. -/
namespace CxNetworking.Dns
open Reader

/-- The labels that start at offset `c` lead to a pointer, and `e` follows its two bytes. -/
inductive PointerAhead (d : Bytes) : Nat → Nat → Prop
  | here {c t} : itemAt d c = some (.pointer t) → PointerAhead d c (c + 2)
  | label {c n e} : itemAt d c = some (.label n) → PointerAhead d (c + 1 + n) e → PointerAhead d c e

theorem PointerAhead.lt {d : Bytes} {c e : Nat} (h : PointerAhead d c e) : c < e := by
  induction h with
  | here => omega
  | label _ _ ih => omega

theorem itemAt_of_le {d : Bytes} {c : Nat} (h : d.length ≤ c) : itemAt d c = none := by
  simp [itemAt, h]

theorem PointerAhead.item {d : Bytes} {c e : Nat} (h : PointerAhead d c e) : itemAt d c ≠ none := by
  cases h with
  | here hitem | label hitem => simp [hitem]

namespace Reader

/-- Behind the first pointer the cursor stays where that pointer left it. -/
theorem readNameLoop_jumped (safety : Nat) (r : Reader) (c : Nat) (name : Bytes) :
    (readNameLoop safety r c true name).2.position = r.position := by
  induction safety generalizing r c name with
  | zero => rfl
  | succ safety ih =>
      obtain ⟨l, -, heq⟩ := readNameLoop_succ safety r c true name
      rw [heq]
      split
      · rfl
      · rfl
      · exact ih _ _ _
      · exact ih _ _ _

/-- Where a `read_name` that fails leaves the cursor. The cap is never reached before the
first pointer, since every label is at least two bytes long. -/
theorem readNameLoop_failed {safety : Nat} {r : Reader} {c : Nat} {name : Bytes}
    (hcap : r.buffer.length ≤ safety + c) (h : (readNameLoop safety r c false name).1 = none) :
    PointerAhead r.buffer c (readNameLoop safety r c false name).2.position ∨
      (¬ ∃ e, PointerAhead r.buffer c e) ∧ (readNameLoop safety r c false name).2.position = r.position := by
  induction safety generalizing r c name with
  | zero =>
      right
      refine ⟨?_, rfl⟩
      rintro ⟨e, he⟩
      exact he.item (itemAt_of_le (by omega))
  | succ safety ih =>
      obtain ⟨l, -, heq⟩ := readNameLoop_succ safety r c false name
      rw [heq] at h ⊢
      cases hitem : itemAt r.buffer c with
      | none =>
          right
          refine ⟨?_, rfl⟩
          rintro ⟨e, he⟩
          exact he.item hitem
      | some item =>
          cases item with
          | root =>
              rw [hitem] at h
              cases h
          | label n =>
              rw [hitem] at h
              have hcap' : (r.touch l).buffer.length ≤ safety + (c + 1 + n) := by
                rw [touch_buffer]
                omega
              rcases ih hcap' h with hahead | ⟨hnone, hpos⟩
              · exact .inl (.label hitem hahead)
              · right
                refine ⟨?_, hpos⟩
                rintro ⟨e, he⟩
                cases he with
                | here hp => cases hitem.symm.trans hp
                | label hl hrest =>
                    cases hitem.symm.trans hl
                    exact hnone ⟨e, hrest⟩
          | pointer t =>
              left
              have hpos := readNameLoop_jumped safety (settle false (r.touch l) (c + 2)) t name
              simp only [hpos, settle_position]
              exact .here hitem

theorem tested_read {α : Type} {r s : Reader} {v : α} {p : Prop} [Decidable p]
    (h : (if p then (none, r) else (some v, s)).1 = none) : (if p then (none, r) else (some v, s)).2 = r := by
  split at h
  · next hp => rw [if_pos hp]
  · cases h

theorem readName_failed {r : Reader} (h : r.readName.1 = none) :
    r.readName.2.position = r.position ↔ ¬ ∃ e, PointerAhead r.buffer r.position e := by
  rcases readNameLoop_failed (Nat.le_add_right _ _) h with hahead | ⟨hnone, hpos⟩
  · have hmoved := hahead.lt
    constructor
    · intro hsame
      exact absurd hsame (Nat.ne_of_gt hmoved)
    · intro hnone
      exact (hnone ⟨_, hahead⟩).elim
  · exact iff_of_true hpos hnone

/-- A read that fails leaves the cursor alone, except that `read_name` moves it when the
labels at the cursor lead to a pointer. -/
theorem failed_read_position_iff (r : Reader) {c : ReaderCall} (hread : ∀ p, c ≠ .seek p)
    (hnone : (r.call c).1 = none) :
    (r.call c).2.position = r.position ↔ ¬ (c = .readName ∧ ∃ e, PointerAhead r.buffer r.position e) := by
  have hother : c ≠ .readName → (r.call c).2 = r →
      ((r.call c).2.position = r.position ↔ ¬ (c = .readName ∧ ∃ e, PointerAhead r.buffer r.position e)) := by
    intro hne hsame
    rw [hsame]
    exact iff_of_true rfl fun hname => hne hname.1
  cases c with
  | readU8 => exact hother (by simp) (tested_read (Option.map_eq_none_iff.mp hnone))
  | readU16 => exact hother (by simp) (tested_read (Option.map_eq_none_iff.mp hnone))
  | readU32 => exact hother (by simp) (tested_read (Option.map_eq_none_iff.mp hnone))
  | readBytes count => exact hother (by simp) (tested_read (Option.map_eq_none_iff.mp hnone))
  | readName => simpa only [call, true_and] using readName_failed (Option.map_eq_none_iff.mp hnone)
  | seek p => exact (hread p rfl).elim

theorem truncatedName_stays :
    (Reader.call { buffer := [0, 5, 98], position := 1 } .readName).1 = none ∧
      (Reader.call { buffer := [0, 5, 98], position := 1 } .readName).2.position = 1 := by
  have hnone : (Reader.call { buffer := [0, 5, 98], position := 1 } .readName).1 = none := by decide
  refine ⟨hnone, (failed_read_position_iff _ (by simp) hnone).mpr ?_⟩
  rintro ⟨-, e, he⟩
  exact he.item rfl

/-- A pointer to itself: no name, and the cursor is behind the pointer. -/
theorem selfPointer_moves :
    (Reader.call { buffer := [192, 0] } .readName).1 = none ∧
      (Reader.call { buffer := [192, 0] } .readName).2.position = 2 := by
  decide

end Reader

def LabelFits (l : Bytes) : Prop := 1 ≤ l.length ∧ l.length ≤ 63

instance : DecidablePred LabelFits := fun _ => inferInstanceAs (Decidable (_ ∧ _))

def firstLabel (name : Bytes) : Bytes := name.takeWhile (· != dot)

theorem firstLabel_append {l : Bytes} (h : dot ∉ l) (rest : Bytes) : firstLabel (l ++ rest) = l ++ firstLabel rest := by
  apply List.takeWhile_append_of_pos
  intro b hb
  rw [bne_iff_ne]
  rintro rfl
  exact h hb

theorem firstLabel_cons_dot {l : Bytes} (h : dot ∉ l) (rest : Bytes) : firstLabel (l ++ dot :: rest) = l := by
  rw [firstLabel_append h]
  simp [firstLabel]

/-- What a rejected name leaves: the labels in front of the first one that does not fit. -/
theorem writeNameLoop_rejected (w : Writer) (name : Bytes) (start : Nat) (h : (w.writeNameLoop name start).1 = false) :
    ∃ labels rest, name.drop start = labels.flatMap (· ++ [dot]) ++ rest ∧ (∀ l ∈ labels, GoodLabel l) ∧
      ¬ LabelFits (firstLabel rest) ∧ (w.writeNameLoop name start).2.buffer = w.buffer ++ encodeLabels labels := by
  fun_induction Writer.writeNameLoop w name start with
  | case1 w start hstart hnone hlen =>
      refine ⟨[], name.drop start, rfl, by simp, ?_, by simp [encodeLabels]⟩
      have hfirst : firstLabel (name.drop start) = name.drop start := by
        simpa [firstLabel] using firstLabel_append (not_mem_of_findFrom hnone) []
      rw [hfirst, LabelFits, List.length_drop]
      omega
  | case2 => cases h
  | case3 w start hstart i hsome hlen =>
      obtain ⟨l, rest, heq, hc, rfl⟩ := findFrom_split hsome
      refine ⟨[], name.drop start, rfl, by simp, ?_, by simp [encodeLabels]⟩
      rw [heq, firstLabel_cons_dot hc, LabelFits]
      omega
  | case4 w start hstart i hsome hlen ih =>
      obtain ⟨l, rest, heq, hc, rfl⟩ := findFrom_split hsome
      obtain ⟨labels, rest', hrest, hgood, hbad, hbuffer⟩ := ih h
      rw [drop_succ_of_drop heq] at hrest
      refine ⟨l :: labels, rest', ?_, ?_, hbad, ?_⟩
      · rw [heq, hrest]
        simp
      · intro m hm
        rcases List.mem_cons.mp hm with rfl | later
        · exact ⟨by omega, by omega, hc⟩
        · exact hgood m later
      · rw [hbuffer, writeLabel_buffer heq]
        simp [encodeLabels]
  | case5 => cases h

/-- A rejected name leaves the writer alone exactly when its first label does not fit. -/
theorem rejected_name_buffer_iff {w w' : Writer} {name : Bytes} (h : w.writeName name = (false, w')) :
    w'.buffer = w.buffer ↔ ¬ LabelFits (firstLabel name) := by
  obtain ⟨labels, rest, hname, hgood, hbad, hbuffer⟩ := writeNameLoop_rejected w name 0 (congrArg Prod.fst h)
  have hbuffer : w'.buffer = w.buffer ++ encodeLabels labels := by rw [← hbuffer, ← Writer.writeName, h]
  rw [List.drop_zero] at hname
  cases labels with
  | nil =>
      rw [hname]
      exact iff_of_true (by simpa [encodeLabels] using hbuffer) hbad
  | cons l labels =>
      have hl := hgood l List.mem_cons_self
      have hfirst : firstLabel name = l := by
        rw [hname, List.flatMap_cons, List.append_assoc, List.append_assoc]
        exact firstLabel_cons_dot hl.noDot _
      rw [hfirst, hbuffer]
      apply iff_of_false
      · simp [encodeLabels]
      · exact not_not.mpr ⟨hl.pos, hl.le⟩

theorem leadingDot_stays :
    ∃ w', Writer.writeName ⟨[7]⟩ [46, 97] = (false, w') ∧ w'.buffer = [7] := by
  have hrejected : Writer.writeName ⟨[7]⟩ [46, 97] = (false, ⟨[7]⟩) := by
    rw [Writer.writeName, Writer.writeNameLoop]
    rfl
  exact ⟨_, hrejected, (rejected_name_buffer_iff hrejected).mpr (by decide)⟩

/-- The first label of "a..b" stays in the buffer. -/
theorem doubleDot_leaves_label :
    ∃ w', Writer.writeName ⟨[7]⟩ [97, 46, 46, 98] = (false, w') ∧ w'.buffer = [7, 1, 97] := by
  refine ⟨⟨[7, 1, 97]⟩, ?_, rfl⟩
  rw [Writer.writeName, Writer.writeNameLoop]
  change Writer.writeNameLoop ⟨[7, 1, 97]⟩ [97, 46, 46, 98] 2 = _
  rw [Writer.writeNameLoop]
  rfl

end CxNetworking.Dns
