import CxNetworking.Dns.Reader
import CxNetworking.Lib.Orbit

/-! Domain names as RFC 1035 derives them, and the exactness of `read_name` for
that relation. The iteration cap of the source is not part of the relation: a
derivation never meets an offset twice, so a cap of the buffer size cuts off
looping chains only. -/
namespace CxNetworking.Dns
open Reader

/-- `NameAt d c labels e`: the labels of the name at offset `c` of `d`, and the
stream position `e` behind it. A pointer ends the name in the stream, wherever
the labels it stands for are. -/
inductive NameAt (d : Bytes) : Nat → List Bytes → Nat → Prop
  | root {c} : d[c]? = some 0 → NameAt d c [] (c + 1)
  | label {c len labels e} : d[c]? = some len → 1 ≤ len.toNat → len.toNat ≤ 63 →
      c + 1 + len.toNat ≤ d.length → NameAt d (c + 1 + len.toNat) labels e →
      NameAt d c ((d.drop (c + 1)).take len.toNat :: labels) e
  | pointer {c hi lo labels e} : d[c]? = some hi → 192 ≤ hi.toNat → d[c + 1]? = some lo →
      NameAt d (hi.toNat % 64 * 256 + lo.toNat) labels e → NameAt d c labels (c + 2)

def joinLabels (labels : List Bytes) : Bytes := [dot].intercalate labels

/-- What one iteration of the loop finds at an offset. -/
inductive Item where
  | root
  | label (length : Nat)
  | pointer (target : Nat)

def itemAt (d : Bytes) (c : Nat) : Option Item :=
  match d[c]? with
  | none => none
  | some len =>
      if 192 ≤ len.toNat then (d[c + 1]?).map fun lo => .pointer (len.toNat % 64 * 256 + lo.toNat)
      else if 64 ≤ len.toNat then none
      else if len.toNat = 0 then some .root
      else if d.length < c + 1 + len.toNat then none
      else some (.label len.toNat)

/-- The offset the chain goes on at; undefined behind the root and on malformed input. -/
def nextOffset (d : Bytes) (c : Nat) : Option Nat :=
  match itemAt d c with
  | some (.label n) => some (c + 1 + n)
  | some (.pointer t) => some t
  | _ => none

theorem itemAt_root {d : Bytes} {c : Nat} (h : d[c]? = some 0) : itemAt d c = some .root := by
  simp [itemAt, h]

theorem itemAt_label {d : Bytes} {c : Nat} {len : UInt8} (h : d[c]? = some len) (h1 : 1 ≤ len.toNat)
    (h63 : len.toNat ≤ 63) (hin : c + 1 + len.toNat ≤ d.length) : itemAt d c = some (.label len.toNat) := by
  simp only [itemAt, h]
  rw [if_neg (by omega), if_neg (by omega), if_neg (by omega), if_neg (by omega)]

theorem itemAt_pointer {d : Bytes} {c : Nat} {hi lo : UInt8} (h : d[c]? = some hi) (h192 : 192 ≤ hi.toNat)
    (hlo : d[c + 1]? = some lo) : itemAt d c = some (.pointer (hi.toNat % 64 * 256 + lo.toNat)) := by
  simp only [itemAt, h, if_pos h192, hlo, Option.map_some]

/-- Every item found is one of the three grammar cases, read back from the bytes. -/
theorem itemAt_cases {d : Bytes} {c : Nat} {i : Item} (h : itemAt d c = some i) :
    (i = .root ∧ d[c]? = some 0) ∨
    (∃ len, i = .label len.toNat ∧ d[c]? = some len ∧ 1 ≤ len.toNat ∧ len.toNat ≤ 63 ∧
      c + 1 + len.toNat ≤ d.length) ∨
    (∃ hi lo, i = .pointer (hi.toNat % 64 * 256 + lo.toNat) ∧ d[c]? = some hi ∧ 192 ≤ hi.toNat ∧
      d[c + 1]? = some lo) := by
  unfold itemAt at h
  cases hd : d[c]? with
  | none => simp [hd] at h
  | some len =>
      simp only [hd] at h
      split_ifs at h with h192 h64 h0 hover
      · obtain ⟨lo, hlo, rfl⟩ := Option.map_eq_some_iff.mp h
        exact .inr (.inr ⟨len, lo, rfl, rfl, h192, hlo⟩)
      · cases h
        exact .inl ⟨rfl, by rw [UInt8.toNat_inj.mp (h0.trans UInt8.toNat_zero.symm)]⟩
      · cases h
        exact .inr (.inl ⟨len, rfl, rfl, by omega, by omega, by omega⟩)

/-- The reader of the next iteration: the first pointer fixes the stream position. -/
def settle (jumped : Bool) (r : Reader) (p : Nat) : Reader := if jumped then r else r.seek p

@[simp] theorem settle_buffer (jumped : Bool) (r : Reader) (p : Nat) :
    (settle jumped r p).buffer = r.buffer := by
  cases jumped <;> rfl

theorem settle_position (jumped : Bool) (r : Reader) (p : Nat) :
    (settle jumped r p).position = if jumped then r.position else p := by
  cases jumped <;> rfl

/-- One iteration of `read_name`, by the item it finds. The indices it touches are
all inside the buffer, also when it gives up. -/
theorem readNameLoop_succ (safety : Nat) (r : Reader) (c : Nat) (jumped : Bool) (name : Bytes) :
    ∃ l : List Nat, (∀ i ∈ l, i < r.buffer.length) ∧
      readNameLoop (safety + 1) r c jumped name =
        match itemAt r.buffer c with
        | none => (none, r.touch l)
        | some .root => (some name, settle jumped (r.touch l) (c + 1))
        | some (.label n) =>
            readNameLoop safety (r.touch l) (c + 1 + n) jumped
              (appendLabel name ((r.buffer.drop (c + 1)).take n))
        | some (.pointer t) => readNameLoop safety (settle jumped (r.touch l) (c + 2)) t true name := by
  rw [readNameLoop]
  by_cases hc : r.buffer.length ≤ c
  · refine ⟨[], by simp, ?_⟩
    rw [if_pos hc, itemAt, List.getElem?_eq_none hc]
    rfl
  rw [if_neg hc]
  simp only [byteAt_eq, touch_buffer, itemAt, getElem?_eq_getD (Nat.lt_of_not_le hc), BigEndian.top_bits_eq_iff, ne_eq,
    BigEndian.top_bits_zero_iff, BigEndian.join14]
  by_cases h192 : 192 ≤ (r.buffer.getD c 0).toNat
  · simp only [h192, ↓reduceIte]
    by_cases h1 : r.buffer.length ≤ c + 1
    · refine ⟨[c], by simp; omega, ?_⟩
      rw [if_pos h1, List.getElem?_eq_none h1]
      rfl
    · refine ⟨[c + 1, c], by simp; omega, ?_⟩
      rw [if_neg h1, getElem?_eq_getD (Nat.lt_of_not_le h1)]
      rfl
  · simp only [h192, ↓reduceIte]
    by_cases h64 : 64 ≤ (r.buffer.getD c 0).toNat
    · refine ⟨[c], by simp; omega, ?_⟩
      rw [if_pos (by omega), if_pos h64]
    rw [if_neg (by omega), if_neg h64]
    have hzero : r.buffer.getD c 0 = 0 ↔ (r.buffer.getD c 0).toNat = 0 := by rw [← UInt8.toNat_inj, UInt8.toNat_zero]
    simp only [hzero]
    by_cases h0 : (r.buffer.getD c 0).toNat = 0
    · refine ⟨[c], by simp; omega, ?_⟩
      simp only [h0, ↓reduceIte]
      rfl
    · rw [if_neg h0, if_neg h0]
      by_cases hover : r.buffer.length < c + 1 + (r.buffer.getD c 0).toNat
      · refine ⟨[c], by simp; omega, ?_⟩
        simp only [hover, ↓reduceIte]
      · refine ⟨(List.range' (c + 1) (r.buffer.getD c 0).toNat).reverse ++ [c], ?_, ?_⟩
        · intro i hi
          simp only [List.mem_append, List.mem_reverse, List.mem_range'_1, List.mem_singleton] at hi
          omega
        · simp only [hover, ↓reduceIte, bytesAt_eq, touch_buffer]
          rw [range'_map_getD (by omega)]
          simp only [touch, List.append_assoc]

theorem readNameLoop_safe (safety : Nat) {r : Reader} (h : r.Safe) (c : Nat) (jumped : Bool) (name : Bytes) :
    (readNameLoop safety r c jumped name).2.Safe ∧
      (readNameLoop safety r c jumped name).2.buffer = r.buffer := by
  induction safety generalizing r c jumped name with
  | zero => exact ⟨h, rfl⟩
  | succ safety ih =>
      obtain ⟨l, hl, heq⟩ := readNameLoop_succ safety r c jumped name
      have ht : (r.touch l).Safe := h.touch hl
      have hsettle : ∀ p, p ≤ r.buffer.length → (settle jumped (r.touch l) p).Safe := by
        intro p hp
        cases jumped
        · exact ht.seek hp
        · exact ht
      rw [heq]
      cases hitem : itemAt r.buffer c with
      | none => exact ⟨ht, rfl⟩
      | some item =>
          rcases itemAt_cases hitem with ⟨rfl, h0⟩ | ⟨len, rfl, hc, _, _, _⟩ | ⟨hi, lo, rfl, hc, _, h1⟩
          · have hc := (List.getElem?_eq_some_iff.mp h0).1
            exact ⟨hsettle _ hc, settle_buffer _ _ _⟩
          · exact ih ht _ _ _
          · have h2 := (List.getElem?_eq_some_iff.mp h1).1
            obtain ⟨hs, hb⟩ := ih (hsettle _ h2) (hi.toNat % 64 * 256 + lo.toNat) true name
            exact ⟨hs, hb.trans (settle_buffer _ _ _)⟩

/-- A name that is returned is derivable, and the cursor is behind it in the stream. -/
theorem readNameLoop_sound (safety : Nat) (r : Reader) (c : Nat) (jumped : Bool) (name out : Bytes)
    (h : (readNameLoop safety r c jumped name).1 = some out) :
    ∃ labels e, NameAt r.buffer c labels e ∧ out = labels.foldl appendLabel name ∧
      (readNameLoop safety r c jumped name).2.position = if jumped then r.position else e := by
  induction safety generalizing r c jumped name with
  | zero => cases h
  | succ safety ih =>
      obtain ⟨l, _, heq⟩ := readNameLoop_succ safety r c jumped name
      rw [heq] at h ⊢
      cases hitem : itemAt r.buffer c with
      | none => rw [hitem] at h; cases h
      | some item =>
          rw [hitem] at h
          rcases itemAt_cases hitem with ⟨rfl, h0⟩ | ⟨len, rfl, hc, h1, h63, hin⟩ | ⟨hi, lo, rfl, hc, h192, h1⟩
          · cases h
            exact ⟨[], c + 1, .root h0, rfl, settle_position _ _ _⟩
          · obtain ⟨labels, e, hn, hout, hpos⟩ := ih _ _ _ _ h
            exact ⟨_, e, .label hc h1 h63 hin hn, hout, hpos⟩
          · obtain ⟨labels, e, hn, hout, hpos⟩ := ih _ _ _ _ h
            rw [settle_buffer] at hn
            refine ⟨labels, c + 2, .pointer hc h192 h1 hn, hout, ?_⟩
            rw [hpos, settle_position]
            rfl

/-- A derivation gives a finite orbit inside the buffer, and the loop returns its
name once the orbit's length is allowed. -/
theorem readNameLoop_complete {d : Bytes} {c e : Nat} {labels : List Bytes} (h : NameAt d c labels e) :
    ∃ path, Orbit.Path (nextOffset d) c path ∧ (∀ x ∈ path, x < d.length) ∧
      ∀ safety r jumped name, r.buffer = d → path.length ≤ safety →
        (readNameLoop safety r c jumped name).1 = some (labels.foldl appendLabel name) := by
  induction h with
  | @root c h0 =>
      have hi := itemAt_root h0
      refine ⟨[c], .halt (by rw [nextOffset, hi]), ?_, ?_⟩
      · intro x hx
        cases List.mem_singleton.mp hx
        exact (List.getElem?_eq_some_iff.mp h0).1
      · intro safety r jumped name hr hlen
        obtain ⟨s, rfl⟩ := Nat.exists_eq_succ_of_ne_zero (Nat.ne_of_gt hlen)
        obtain ⟨l, _, heq⟩ := readNameLoop_succ s r c jumped name
        rw [heq, hr, hi]
        rfl
  | @label c len labels e hc h1 h63 hin _ ih =>
      have hi := itemAt_label hc h1 h63 hin
      obtain ⟨path, hp, hlt, hloop⟩ := ih
      refine ⟨c :: path, .step (by rw [nextOffset, hi]) hp, ?_, ?_⟩
      · exact List.forall_mem_cons.mpr ⟨(List.getElem?_eq_some_iff.mp hc).1, hlt⟩
      · intro safety r jumped name hr hlen
        obtain ⟨s, rfl⟩ := Nat.exists_eq_succ_of_ne_zero (Nat.ne_of_gt (Nat.lt_of_lt_of_le (Nat.succ_pos _) hlen))
        obtain ⟨l, _, heq⟩ := readNameLoop_succ s r c jumped name
        rw [heq, hr, hi]
        exact hloop s _ _ _ hr (Nat.le_of_succ_le_succ hlen)
  | @pointer c hi lo labels e hc h192 h1 _ ih =>
      have hitem := itemAt_pointer hc h192 h1
      obtain ⟨path, hp, hlt, hloop⟩ := ih
      refine ⟨c :: path, .step (by rw [nextOffset, hitem]) hp, ?_, ?_⟩
      · exact List.forall_mem_cons.mpr ⟨(List.getElem?_eq_some_iff.mp hc).1, hlt⟩
      · intro safety r jumped name hr hlen
        obtain ⟨s, rfl⟩ := Nat.exists_eq_succ_of_ne_zero (Nat.ne_of_gt (Nat.lt_of_lt_of_le (Nat.succ_pos _) hlen))
        obtain ⟨l, _, heq⟩ := readNameLoop_succ s r c jumped name
        rw [heq, hr, hitem]
        exact hloop s _ _ _ ((settle_buffer _ _ _).trans hr) (Nat.le_of_succ_le_succ hlen)

theorem NameAt.unique {d : Bytes} {c e e' : Nat} {labels labels' : List Bytes} (h : NameAt d c labels e)
    (h' : NameAt d c labels' e') : labels = labels' ∧ e = e' := by
  induction h generalizing labels' e' with
  | root h0 =>
      cases h' with
      | root _ => exact ⟨rfl, rfl⟩
      | label hc h1 _ _ _ =>
          cases h0.symm.trans hc
          exact absurd h1 (by decide)
      | pointer hc h192 _ _ =>
          cases h0.symm.trans hc
          exact absurd h192 (by decide)
  | label hc h1 h63 _ _ ih =>
      cases h' with
      | root h0 =>
          cases h0.symm.trans hc
          exact absurd h1 (by decide)
      | label hc' _ _ _ hn =>
          cases hc.symm.trans hc'
          obtain ⟨rfl, rfl⟩ := ih hn
          exact ⟨rfl, rfl⟩
      | pointer hc' h192 _ _ =>
          cases hc.symm.trans hc'
          omega
  | pointer hc h192 h1 _ ih =>
      cases h' with
      | root h0 =>
          cases h0.symm.trans hc
          exact absurd h192 (by decide)
      | label hc' _ h63 _ _ =>
          cases hc.symm.trans hc'
          omega
      | pointer hc' _ h1' hn =>
          cases hc.symm.trans hc'
          cases h1.symm.trans h1'
          exact ⟨(ih hn).1, rfl⟩

theorem NameAt.ne_nil {d : Bytes} {c e : Nat} {labels : List Bytes} (h : NameAt d c labels e) :
    ∀ l ∈ labels, l ≠ [] := by
  induction h with
  | root _ => exact fun _ hl => absurd hl List.not_mem_nil
  | label _ h1 _ hin _ ih =>
      intro l hl
      rcases List.mem_cons.mp hl with rfl | later
      · intro hnil
        have := congrArg List.length hnil
        simp at this
        omega
      · exact ih l later
  | pointer _ _ _ _ ih => exact ih

theorem foldl_appendLabel {name : Bytes} (hname : name ≠ []) (labels : List Bytes) :
    labels.foldl appendLabel name = joinLabels (name :: labels) := by
  induction labels generalizing name with
  | nil => simp [joinLabels]
  | cons l labels ih =>
      rw [List.foldl_cons, appendLabel, if_neg hname, ih (by simp)]
      cases labels <;> simp [joinLabels, List.intercalate]

/-- Labels are never empty, so the accumulated name is the labels joined by '.'. -/
theorem foldl_appendLabel_nil {labels : List Bytes} (h : ∀ l ∈ labels, l ≠ []) :
    labels.foldl appendLabel [] = joinLabels labels := by
  cases labels with
  | nil => rfl
  | cons l labels =>
      rw [List.foldl_cons, appendLabel, if_pos rfl]
      exact foldl_appendLabel (h l List.mem_cons_self) labels

/-- `read_name` returns exactly the derivable name at the cursor. -/
theorem readName_iff (r : Reader) (name : Bytes) :
    (r.readName).1 = some name ↔
      ∃ labels e, NameAt r.buffer r.position labels e ∧ name = joinLabels labels := by
  constructor
  · intro h
    obtain ⟨labels, e, hn, hout, _⟩ := readNameLoop_sound _ _ _ _ _ _ h
    exact ⟨labels, e, hn, hout.trans (foldl_appendLabel_nil hn.ne_nil)⟩
  · rintro ⟨labels, e, hn, rfl⟩
    obtain ⟨path, hp, hlt, hloop⟩ := readNameLoop_complete hn
    have hcap : path.length ≤ r.buffer.length := by
      simpa using hp.length_le (S := Finset.range r.buffer.length) fun x hx => Finset.mem_range.mpr (hlt x hx)
    rw [readName, hloop _ r false [] rfl hcap, foldl_appendLabel_nil hn.ne_nil]

theorem readName_position {r : Reader} {labels : List Bytes} {e : Nat}
    (h : NameAt r.buffer r.position labels e) : (r.readName).2.position = e := by
  have hsome := (readName_iff r (joinLabels labels)).mpr ⟨labels, e, h, rfl⟩
  obtain ⟨labels', e', hn, _, hpos⟩ := readNameLoop_sound _ _ _ _ _ _ hsome
  rw [readName, hpos, (hn.unique h).2]
  rfl

theorem NameAt.end_le {d : Bytes} {c e : Nat} {labels : List Bytes} (h : NameAt d c labels e) : e ≤ d.length := by
  induction h with
  | root h0 => exact (List.getElem?_eq_some_iff.mp h0).1
  | label _ _ _ _ _ ih => exact ih
  | pointer _ _ h1 _ _ => exact (List.getElem?_eq_some_iff.mp h1).1

/-- The chain of labels and pointers from `c` reaches a zero byte. -/
def Reaches (d : Bytes) (c : Nat) : Prop := ∃ n x, Orbit.after (nextOffset d) n c = some x ∧ d[x]? = some 0

/-- The chain from `c` leaves the buffer, is cut off by its end or meets a reserved length byte. -/
def Malformed (d : Bytes) (c : Nat) : Prop := ∃ n x, Orbit.after (nextOffset d) n c = some x ∧ itemAt d x = none

/-- A chain of finitely many steps to a zero byte is a derivation of a name. -/
theorem nameAt_of_reaches {d : Bytes} {c : Nat} (h : Reaches d c) : ∃ labels e, NameAt d c labels e := by
  obtain ⟨n, x, hx, h0⟩ := h
  induction n generalizing c with
  | zero =>
      cases hx
      exact ⟨[], _, .root h0⟩
  | succ n ih =>
      obtain ⟨b, hb, hx⟩ := Option.bind_eq_some_iff.mp hx
      obtain ⟨labels, e, hn⟩ := ih hx
      unfold nextOffset at hb
      split at hb
      · next len hitem =>
          cases hb
          rcases itemAt_cases hitem with ⟨hi, -⟩ | ⟨len', hi, hc, h1, h63, hin⟩ | ⟨hi, lo, hi', -⟩
          · cases hi
          · cases hi
            exact ⟨_, e, .label hc h1 h63 hin hn⟩
          · cases hi'
      · next target hitem =>
          cases hb
          rcases itemAt_cases hitem with ⟨hi, -⟩ | ⟨len, hi, -⟩ | ⟨hi, lo, hi', hc, h192, h1⟩
          · cases hi
          · cases hi
          · cases hi'
            exact ⟨labels, _, .pointer hc h192 h1 hn⟩
      · cases hb

theorem NameAt.reaches {d : Bytes} {c e : Nat} {labels : List Bytes} (h : NameAt d c labels e) : Reaches d c := by
  induction h with
  | @root c h0 => exact ⟨0, c, rfl, h0⟩
  | label hc h1 h63 hin _ ih =>
      obtain ⟨n, x, hx, h0⟩ := ih
      exact ⟨n + 1, x, (Orbit.after_succ (by rw [nextOffset, itemAt_label hc h1 h63 hin]) n).trans hx, h0⟩
  | pointer hc h192 h1 _ ih =>
      obtain ⟨n, x, hx, h0⟩ := ih
      exact ⟨n + 1, x, (Orbit.after_succ (by rw [nextOffset, itemAt_pointer hc h192 h1]) n).trans hx, h0⟩

/-- A loop that gives up has met a malformed item, or has used up its iterations on
offsets inside the buffer. -/
theorem readNameLoop_none {safety : Nat} {r : Reader} {c : Nat} {jumped : Bool} {name : Bytes}
    (h : (readNameLoop safety r c jumped name).1 = none) :
    Malformed r.buffer c ∨ ∀ n ≤ safety, ∃ x, Orbit.after (nextOffset r.buffer) n c = some x ∧
      (n < safety → x < r.buffer.length) := by
  induction safety generalizing r c jumped name with
  | zero =>
      refine .inr fun n hn => ⟨c, ?_, fun hlt => absurd hlt (Nat.not_lt_zero n)⟩
      rw [Nat.le_zero.mp hn]
      rfl
  | succ safety ih =>
      obtain ⟨l, -, heq⟩ := readNameLoop_succ safety r c jumped name
      rw [heq] at h
      -- one step of the chain in front of what the rest of the loop meets
      have hcons : ∀ {b}, nextOffset r.buffer c = some b → c < r.buffer.length →
          (Malformed r.buffer b ∨ ∀ n ≤ safety, ∃ x, Orbit.after (nextOffset r.buffer) n b = some x ∧
            (n < safety → x < r.buffer.length)) →
          Malformed r.buffer c ∨ ∀ n ≤ safety + 1, ∃ x, Orbit.after (nextOffset r.buffer) n c = some x ∧
            (n < safety + 1 → x < r.buffer.length) := by
        intro b hb hlt hrest
        rcases hrest with ⟨n, x, hx, hbad⟩ | hlong
        · exact .inl ⟨n + 1, x, (Orbit.after_succ hb n).trans hx, hbad⟩
        · refine .inr fun n hn => ?_
          cases n with
          | zero => exact ⟨c, rfl, fun _ => hlt⟩
          | succ n =>
              obtain ⟨x, hx, hin⟩ := hlong n (Nat.le_of_succ_le_succ hn)
              exact ⟨x, (Orbit.after_succ hb n).trans hx, fun hlt => hin (Nat.lt_of_succ_lt_succ hlt)⟩
      cases hitem : itemAt r.buffer c with
      | none => exact .inl ⟨0, c, rfl, hitem⟩
      | some item =>
          rw [hitem] at h
          rcases itemAt_cases hitem with ⟨rfl, -⟩ | ⟨len, rfl, hc, -⟩ | ⟨hi, lo, rfl, hc, -⟩
          · cases h
          · exact hcons (by rw [nextOffset, hitem]) (List.getElem?_eq_some_iff.mp hc).1 (ih (r := r.touch l) h)
          · refine hcons (by rw [nextOffset, hitem]) (List.getElem?_eq_some_iff.mp hc).1 ?_
            simpa only [settle_buffer, touch_buffer] using ih h

/-- With as many iterations as there are bytes, only a chain that is malformed or that
loops is given up. -/
theorem readName_none {r : Reader} (h : (r.readName).1 = none) :
    Malformed r.buffer r.position ∨ Orbit.Returns (nextOffset r.buffer) r.position := by
  rcases readNameLoop_none h with hbad | hlong
  · exact .inl hbad
  · obtain ⟨x, hx, -⟩ := hlong r.buffer.length (Nat.le_refl _)
    by_cases hin : x < r.buffer.length
    · refine .inr (Orbit.returns_of_card (S := Finset.range r.buffer.length) fun n hn => ?_)
      rw [Finset.card_range] at hn
      obtain ⟨y, hy, hlt⟩ := hlong n hn
      refine ⟨y, Finset.mem_range.mpr ?_, hy⟩
      rcases Nat.lt_or_eq_of_le hn with hn | rfl
      · exact hlt hn
      · cases hx.symm.trans hy
        exact hin
    · exact .inl ⟨_, x, hx, by rw [itemAt, List.getElem?_eq_none (Nat.le_of_not_lt hin)]⟩

/-- `read_name` returns a name exactly when the chain at the cursor reaches a zero byte;
the name is the visited labels joined by '.', the cursor ends behind the first pointer
or the zero byte, in the buffer, and the iteration cap rejects looping chains only. -/
theorem readName_exact (r : Reader) :
    ((r.readName).1.isSome ↔ Reaches r.buffer r.position) ∧
    (∀ name, (r.readName).1 = some name →
      ∃ labels e, NameAt r.buffer r.position labels e ∧ name = joinLabels labels ∧
        (r.readName).2.position = e ∧ e ≤ r.buffer.length) ∧
    ((r.readName).1 = none →
      Malformed r.buffer r.position ∨ Orbit.Returns (nextOffset r.buffer) r.position) := by
  refine ⟨⟨fun h => ?_, fun h => ?_⟩, fun name h => ?_, readName_none⟩
  · obtain ⟨name, hname⟩ := Option.isSome_iff_exists.mp h
    obtain ⟨labels, e, hn, -⟩ := (readName_iff r name).mp hname
    exact hn.reaches
  · obtain ⟨labels, e, hn⟩ := nameAt_of_reaches h
    exact Option.isSome_iff_exists.mpr ⟨_, (readName_iff r _).mpr ⟨labels, e, hn, rfl⟩⟩
  · obtain ⟨labels, e, hn, hjoin⟩ := (readName_iff r name).mp h
    exact ⟨labels, e, hn, hjoin, readName_position hn, hn.end_le⟩

theorem readName_safe {r : Reader} (h : r.Safe) : (r.readName).2.Safe ∧ (r.readName).2.buffer = r.buffer :=
  readNameLoop_safe _ h _ _ _

end CxNetworking.Dns
