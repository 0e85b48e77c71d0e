import CxNetworking.Dns.ParseExact

/-! `message::serialize` accepts exactly the messages whose names split into labels of
1 to 63 bytes, and `message::parse` reads back what was written. The reading half
goes through the grammar of `ParseExact`: it is enough to derive the written bytes. -/
namespace CxNetworking.Dns
open Reader

structure GoodLabel (l : Bytes) : Prop where
  pos : 1 ≤ l.length
  le : l.length ≤ 63
  noDot : dot ∉ l

/-- The labels of a written name; a final '.' may follow them. -/
structure LabelsOf (name : Bytes) (labels : List Bytes) : Prop where
  good : ∀ l ∈ labels, GoodLabel l
  join : name = joinLabels labels ∨ labels ≠ [] ∧ name = joinLabels labels ++ [dot]

/-- The names that can be written, as the documentation describes them. -/
def WritableName (name : Bytes) : Prop :=
  name = [] ∨ ∃ labels : List Bytes, labels ≠ [] ∧ (∀ l ∈ labels, 1 ≤ l.length ∧ l.length ≤ 63 ∧ dot ∉ l) ∧
    (name = joinLabels labels ∨ name = joinLabels labels ++ [dot])

/-- A name without its optional final '.'. -/
def stripDot (name : Bytes) : Bytes := if name.getLast? = some dot then name.dropLast else name

theorem writableName_iff (name : Bytes) : WritableName name ↔ ∃ labels, LabelsOf name labels := by
  constructor
  · rintro (rfl | ⟨labels, hne, hgood, hjoin⟩)
    · exact ⟨[], fun _ hl => absurd hl List.not_mem_nil, .inl rfl⟩
    · exact ⟨labels, fun l hl => ⟨(hgood l hl).1, (hgood l hl).2.1, (hgood l hl).2.2⟩,
        hjoin.imp id fun h => ⟨hne, h⟩⟩
  · rintro ⟨labels, hgood, hjoin⟩
    by_cases hne : labels = []
    · subst hne
      rcases hjoin with rfl | ⟨h, _⟩
      · exact .inl rfl
      · exact absurd rfl h
    · exact .inr ⟨labels, hne, fun l hl => ⟨(hgood l hl).pos, (hgood l hl).le, (hgood l hl).noDot⟩,
        hjoin.imp id And.right⟩

theorem joinLabels_cons (l : Bytes) {labels : List Bytes} (h : labels ≠ []) :
    joinLabels (l :: labels) = l ++ dot :: joinLabels labels := by
  cases labels with
  | nil => exact absurd rfl h
  | cons m labels => simp [joinLabels, List.intercalate]

@[simp] theorem joinLabels_singleton (l : Bytes) : joinLabels [l] = l := by
  simp [joinLabels, List.intercalate]

theorem joinLabels_ne_nil {labels : List Bytes} (hne : labels ≠ []) (h : ∀ l ∈ labels, GoodLabel l) :
    joinLabels labels ≠ [] := by
  obtain ⟨l, labels, rfl⟩ := List.exists_cons_of_ne_nil hne
  by_cases hnil : labels = []
  · subst hnil
    rw [joinLabels_singleton]
    exact List.ne_nil_of_length_pos (h l List.mem_cons_self).pos
  · rw [joinLabels_cons l hnil]
    simp

theorem joinLabels_getLast {labels : List Bytes} (h : ∀ l ∈ labels, GoodLabel l) :
    (joinLabels labels).getLast? ≠ some dot := by
  induction labels with
  | nil => simp [joinLabels]
  | cons l labels ih =>
      have hlabels : ∀ m ∈ labels, GoodLabel m := fun m hm => h m (List.mem_cons_of_mem l hm)
      by_cases hne : labels = []
      · subst hne
        rw [joinLabels_singleton]
        intro hlast
        exact (h l List.mem_cons_self).noDot (List.mem_of_getLast? hlast)
      · have hjoin : dot :: joinLabels labels = [dot] ++ joinLabels labels := rfl
        rw [joinLabels_cons l hne, hjoin, List.getLast?_append_of_ne_nil _ (by simp),
          List.getLast?_append_of_ne_nil _ (joinLabels_ne_nil hne hlabels)]
        exact ih hlabels

theorem LabelsOf.stripDot {name : Bytes} {labels : List Bytes} (h : LabelsOf name labels) :
    stripDot name = joinLabels labels := by
  rcases h.join with rfl | ⟨_, rfl⟩
  · rw [Dns.stripDot, if_neg (joinLabels_getLast h.good)]
  · rw [Dns.stripDot, if_pos List.getLast?_concat, List.dropLast_concat]

def encodeLabels (labels : List Bytes) : Bytes := labels.flatMap fun l => UInt8.ofNat l.length :: l

theorem foldl_writeU8 (w : Writer) (bs : Bytes) : (bs.foldl Writer.writeU8 w).buffer = w.buffer ++ bs := by
  induction bs generalizing w with
  | nil => simp
  | cons b bs ih => simp [ih, Writer.writeU8]

theorem writeLabel_buffer {w : Writer} {name l rest : Bytes} {start : Nat} (h : name.drop start = l ++ rest) :
    (w.writeLabel name start (start + l.length)).buffer = w.buffer ++ UInt8.ofNat l.length :: l := by
  rw [Writer.writeLabel, foldl_writeU8, h, Nat.add_sub_cancel_left, List.take_left']
  · simp [Writer.writeU8]
  · rfl

theorem findFrom_eq_none {s : Bytes} {c : UInt8} {start : Nat} (h : c ∉ s.drop start) :
    findFrom s c start = none := by
  rw [findFrom, Option.map_eq_none_iff, List.findIdx?_eq_none_iff]
  intro x hx
  simp only [beq_eq_false_iff_ne]
  rintro rfl
  exact h hx

theorem findFrom_append {s l rest : Bytes} {c : UInt8} {start : Nat} (hs : s.drop start = l ++ c :: rest)
    (hc : c ∉ l) : findFrom s c start = some (start + l.length) := by
  rw [findFrom, hs]
  have hidx : (l ++ c :: rest).findIdx? (· == c) = some l.length := by
    rw [List.findIdx?_append, List.findIdx?_eq_none_iff.mpr, List.findIdx?_cons]
    · simp
    · intro x hx
      simp only [beq_eq_false_iff_ne]
      rintro rfl
      exact hc hx
  rw [hidx]
  rfl

theorem drop_succ_of_drop {s l rest : Bytes} {c : UInt8} {start : Nat} (hs : s.drop start = l ++ c :: rest) :
    s.drop (start + l.length + 1) = rest := by
  rw [Nat.add_assoc, ← List.drop_drop, hs, List.drop_append, List.drop_eq_nil_of_le (Nat.le_succ _),
    Nat.add_sub_cancel_left]
  rfl

theorem not_mem_of_findFrom {s : Bytes} {c : UInt8} {start : Nat} (h : findFrom s c start = none) :
    c ∉ s.drop start := by
  intro hmem
  obtain ⟨l, rest, heq, hc⟩ := List.eq_append_cons_of_mem hmem
  cases h.symm.trans (findFrom_append heq hc)

theorem findFrom_split {s : Bytes} {c : UInt8} {start i : Nat} (h : findFrom s c start = some i) :
    ∃ l rest, s.drop start = l ++ c :: rest ∧ c ∉ l ∧ i = start + l.length := by
  have hmem : c ∈ s.drop start := by
    by_contra hc
    rw [findFrom_eq_none hc] at h
    cases h
  obtain ⟨l, rest, heq, hc⟩ := List.eq_append_cons_of_mem hmem
  rw [findFrom_append heq hc] at h
  exact ⟨l, rest, heq, hc, (Option.some.inj h).symm⟩

theorem LabelsOf.nil : LabelsOf [] [] := ⟨fun _ hl => absurd hl List.not_mem_nil, .inl rfl⟩

theorem LabelsOf.single {l : Bytes} (h : GoodLabel l) : LabelsOf l [l] := by
  refine ⟨?_, .inl (joinLabels_singleton l).symm⟩
  intro m hm
  cases List.mem_singleton.mp hm
  exact h

theorem LabelsOf.cons {l rest : Bytes} {labels : List Bytes} (hl : GoodLabel l) (h : LabelsOf rest labels) :
    LabelsOf (l ++ dot :: rest) (l :: labels) := by
  refine ⟨?_, ?_⟩
  · intro m hm
    rcases List.mem_cons.mp hm with rfl | later
    · exact hl
    · exact h.good m later
  · by_cases hne : labels = []
    · subst hne
      rcases h.join with rfl | ⟨hne, _⟩
      · exact .inr ⟨List.cons_ne_nil _ _, by simp [joinLabels]⟩
      · exact absurd rfl hne
    · rw [joinLabels_cons l hne]
      rcases h.join with rfl | ⟨_, rfl⟩
      · exact .inl rfl
      · exact .inr ⟨List.cons_ne_nil _ _, by simp⟩

theorem LabelsOf.cons_cases {name l : Bytes} {labels : List Bytes} (h : LabelsOf name (l :: labels)) :
    (name = l ∧ labels = []) ∨ ∃ rest, name = l ++ dot :: rest ∧ LabelsOf rest labels := by
  have hgood : ∀ m ∈ labels, GoodLabel m := fun m hm => h.good m (List.mem_cons_of_mem l hm)
  by_cases hne : labels = []
  · subst hne
    rcases h.join with rfl | ⟨_, rfl⟩
    · exact .inl ⟨joinLabels_singleton l, rfl⟩
    · exact .inr ⟨[], by rw [joinLabels_singleton], .nil⟩
  · have hjoin := h.join
    rw [joinLabels_cons l hne] at hjoin
    rcases hjoin with rfl | ⟨_, rfl⟩
    · exact .inr ⟨_, rfl, hgood, .inl rfl⟩
    · exact .inr ⟨joinLabels labels ++ [dot], by simp, hgood, .inr ⟨hne, rfl⟩⟩

theorem writeNameLoop_complete {labels : List Bytes} {name : Bytes} {start : Nat} (w : Writer)
    (h : LabelsOf (name.drop start) labels) :
    w.writeNameLoop name start = (true, ⟨w.buffer ++ encodeLabels labels ++ [0]⟩) := by
  induction labels generalizing w start with
  | nil =>
      rcases h.join with hnil | ⟨hne, _⟩
      · have hle : name.length ≤ start := List.drop_eq_nil_iff.mp hnil
        rw [Writer.writeNameLoop, if_neg (Nat.not_lt.mpr hle)]
        simp [encodeLabels, Writer.writeU8]
      · exact absurd rfl hne
  | cons l labels ih =>
      have hl := h.good l List.mem_cons_self
      have hpos := hl.pos
      have hle := hl.le
      rcases h.cons_cases with ⟨hname, rfl⟩ | ⟨rest, hname, hrest⟩
      · have hlen := congrArg List.length hname
        rw [List.length_drop] at hlen
        have hend : name.length = start + l.length := by omega
        have hnone : findFrom name dot start = none := findFrom_eq_none (hname ▸ hl.noDot)
        rw [Writer.writeNameLoop, if_pos (by omega)]
        split
        next _ =>
          rw [if_neg (by omega), hend]
          have hbuf := writeLabel_buffer (w := w) (hname.trans (List.append_nil l).symm)
          simp [Writer.writeU8, hbuf, encodeLabels]
        next _ hsome => cases hnone.symm.trans hsome
      · have hlen := congrArg List.length hname
        simp only [List.length_drop, List.length_append, List.length_cons] at hlen
        have hsome := findFrom_append hname hl.noDot
        rw [Writer.writeNameLoop, if_pos (by omega)]
        split
        next hnone => cases hnone.symm.trans hsome
        next i hi =>
          cases hsome.symm.trans hi
          rw [if_neg (by omega), ih _ (drop_succ_of_drop hname ▸ hrest), writeLabel_buffer hname]
          simp [encodeLabels]

theorem writeNameLoop_sound (w : Writer) (name : Bytes) (start : Nat)
    (h : (w.writeNameLoop name start).1 = true) : ∃ labels, LabelsOf (name.drop start) labels := by
  fun_induction Writer.writeNameLoop w name start with
  | case1 => cases h
  | case2 w start hstart hnone hlen =>
      refine ⟨[name.drop start], .single ⟨?_, ?_, not_mem_of_findFrom hnone⟩⟩
      · rw [List.length_drop]; omega
      · rw [List.length_drop]; omega
  | case3 => cases h
  | case4 w start hstart i hsome hlen ih =>
      obtain ⟨l, rest, heq, hc, rfl⟩ := findFrom_split hsome
      obtain ⟨labels, hlabels⟩ := ih h
      rw [drop_succ_of_drop heq] at hlabels
      rw [heq]
      exact ⟨l :: labels, .cons ⟨by omega, by omega, hc⟩ hlabels⟩
  | case5 w start hstart =>
      exact ⟨[], by rw [List.drop_eq_nil_of_le (Nat.le_of_not_lt hstart)]; exact .nil⟩

theorem writeName_complete {labels : List Bytes} {name : Bytes} (w : Writer) (h : LabelsOf name labels) :
    w.writeName name = (true, ⟨w.buffer ++ encodeLabels labels ++ [0]⟩) :=
  writeNameLoop_complete w h

theorem writeName_sound {w : Writer} {name : Bytes} (h : (w.writeName name).1 = true) :
    ∃ labels, LabelsOf name labels :=
  writeNameLoop_sound w name 0 h

theorem NameAt.prepend {pre l rest : Bytes} {b : UInt8} {labels : List Bytes} {e : Nat}
    (hb : b.toNat = l.length) (h1 : 1 ≤ l.length) (h63 : l.length ≤ 63)
    (h : NameAt (pre ++ b :: (l ++ rest)) (pre.length + 1 + l.length) labels e) :
    NameAt (pre ++ b :: (l ++ rest)) pre.length (l :: labels) e := by
  have hget : (pre ++ b :: (l ++ rest))[pre.length]? = some b := by simp
  have htake : ((pre ++ b :: (l ++ rest)).drop (pre.length + 1)).take l.length = l := by
    rw [← List.drop_drop, List.drop_left]
    simp
  rw [← hb] at h h1 h63 htake
  have hstep := NameAt.label hget h1 h63 (by simp; omega) h
  rwa [htake] at hstep

/-- Encoded labels with their zero byte derive the name they encode, wherever they stand. -/
theorem nameAt_encodeLabels {labels : List Bytes} (h : ∀ l ∈ labels, GoodLabel l) (pre post : Bytes) :
    NameAt (pre ++ (encodeLabels labels ++ 0 :: post)) pre.length labels
      (pre.length + (encodeLabels labels).length + 1) := by
  induction labels generalizing pre with
  | nil => exact .root (by simp [encodeLabels])
  | cons l labels ih =>
      have hl := h l List.mem_cons_self
      have hn := ih (fun m hm => h m (List.mem_cons_of_mem l hm)) (pre ++ UInt8.ofNat l.length :: l)
      have hlen : (UInt8.ofNat l.length).toNat = l.length := by
        have := hl.le
        rw [UInt8.toNat_ofNat']
        omega
      have hend : (pre ++ UInt8.ofNat l.length :: l).length + (encodeLabels labels).length + 1 =
          pre.length + (encodeLabels (l :: labels)).length + 1 := by
        simp [encodeLabels]
        omega
      have hpos : (pre ++ UInt8.ofNat l.length :: l).length = pre.length + 1 + l.length := by
        simp
        omega
      rw [hend, hpos, List.append_assoc, List.cons_append] at hn
      have hd : pre ++ (encodeLabels (l :: labels) ++ 0 :: post) =
          pre ++ UInt8.ofNat l.length :: (l ++ (encodeLabels labels ++ 0 :: post)) := by
        simp [encodeLabels]
      rw [hd]
      exact hn.prepend hlen hl.pos hl.le

def encode16 (v : UInt16) : Bytes := [(v >>> 8).toUInt8, (v &&& 0xFF).toUInt8]

theorem writeU16_buffer (w : Writer) (v : UInt16) : (w.writeU16 v).buffer = w.buffer ++ encode16 v := by
  simp [Writer.writeU16, Writer.writeU8, encode16]

theorem word16_encode16 (v : UInt16) (pre post : Bytes) :
    word16 (pre ++ (encode16 v ++ post)) pre.length = v := by
  rw [← join_eq_word16]
  have hhi : (pre ++ (encode16 v ++ post)).getD pre.length 0 = (v >>> 8).toUInt8 := by
    simp [encode16]
  have hlo : (pre ++ (encode16 v ++ post)).getD (pre.length + 1) 0 = (v &&& 0xFF).toUInt8 := by
    simp [encode16]
  rw [hhi, hlo, BigEndian.join16_split]

def Question.stripped (q : Question) : Question := { q with name := stripDot q.name }

/-- The names of the questions split into these labels. -/
abbrev NamesOf (qs : List Question) (split : List (List Bytes)) : Prop :=
  List.Forall₂ (fun q labels => LabelsOf q.name labels) qs split

theorem exists_namesOf {qs : List Question} (h : ∀ q ∈ qs, ∃ labels, LabelsOf q.name labels) :
    ∃ split, NamesOf qs split := by
  induction qs with
  | nil => exact ⟨[], .nil⟩
  | cons q qs ih =>
      obtain ⟨labels, hq⟩ := h q List.mem_cons_self
      obtain ⟨split, hqs⟩ := ih fun p hp => h p (List.mem_cons_of_mem q hp)
      exact ⟨labels :: split, .cons hq hqs⟩

def encodeQuestions : List Question → List (List Bytes) → Bytes
  | q :: qs, labels :: split =>
      encodeLabels labels ++ 0 :: (encode16 q.type ++ (encode16 q.class_ ++ encodeQuestions qs split))
  | _, _ => []

theorem writeQuestions_complete {qs : List Question} {split : List (List Bytes)} (h : NamesOf qs split) (w : Writer) :
    Message.writeQuestions qs w = some ⟨w.buffer ++ encodeQuestions qs split⟩ := by
  induction h generalizing w with
  | nil => simp [Message.writeQuestions, encodeQuestions]
  | cons hq _ ih =>
      rw [Message.writeQuestions, writeName_complete w hq]
      refine (ih _).trans ?_
      simp [writeU16_buffer, encodeQuestions]

/-- The bytes of writable questions derive those questions and the labels of their names,
wherever they stand. -/
theorem encodeQuestions_at {qs : List Question} {split : List (List Bytes)} (h : NamesOf qs split) (pre post : Bytes) :
    QuestionsAt (pre ++ (encodeQuestions qs split ++ post)) qs.length pre.length (qs.map Question.stripped) ∧
      LabelsAt (pre ++ (encodeQuestions qs split ++ post)) qs.length pre.length split := by
  induction h generalizing pre with
  | nil => exact ⟨.nil, .nil⟩
  | @cons q labels qs split hq _ ih =>
      have hn := nameAt_encodeLabels hq.good pre
        (encode16 q.type ++ (encode16 q.class_ ++ (encodeQuestions qs split ++ post)))
      have hqs := ih (pre ++ encodeLabels labels ++ 0 :: (encode16 q.type ++ encode16 q.class_))
      have htype := word16_encode16 q.type (pre ++ encodeLabels labels ++ [0])
        (encode16 q.class_ ++ (encodeQuestions qs split ++ post))
      have hclass := word16_encode16 q.class_ (pre ++ encodeLabels labels ++ 0 :: encode16 q.type)
        (encodeQuestions qs split ++ post)
      have he : (pre ++ encodeLabels labels ++ [0]).length = pre.length + (encodeLabels labels).length + 1 := by
        simp
        omega
      have he2 : (pre ++ encodeLabels labels ++ 0 :: encode16 q.type).length =
          pre.length + (encodeLabels labels).length + 1 + 2 := by
        simp [encode16]
        omega
      have he4 : (pre ++ encodeLabels labels ++ 0 :: (encode16 q.type ++ encode16 q.class_)).length =
          pre.length + (encodeLabels labels).length + 1 + 4 := by
        simp [encode16]
        omega
      rw [he] at htype
      rw [he2] at hclass
      rw [he4] at hqs
      simp only [encodeQuestions, List.append_assoc, List.cons_append, List.nil_append] at hn htype hclass hqs ⊢
      have hcons := QuestionsAt.cons hn (by simp [encode16]; omega) hqs.1
      rw [htype, hclass, ← hq.stripDot] at hcons
      exact ⟨hcons, .cons hn hqs.2⟩

theorem writeQuestions_sound {qs : List Question} {w : Writer} (h : (Message.writeQuestions qs w).isSome) :
    ∀ q ∈ qs, ∃ labels, LabelsOf q.name labels := by
  induction qs generalizing w with
  | nil => exact fun _ hq => absurd hq List.not_mem_nil
  | cons q qs ih =>
      rw [Message.writeQuestions] at h
      intro p hp
      split at h
      next => cases h
      next w' hw =>
        rcases List.mem_cons.mp hp with rfl | later
        · exact writeName_sound (congrArg Prod.fst hw)
        · exact ih h p later

section HeaderBytes

theorem or_eq_add {a b i : Nat} (ha : 2 ^ i ∣ a) (hb : b < 2 ^ i) : a ||| b = a + b := by
  obtain ⟨k, rfl⟩ := ha
  rw [Nat.mul_comm, ← Nat.shiftLeft_eq, Nat.shiftLeft_add_eq_or_of_lt hb]

theorem toNat_code (v : UInt8) (hv : v.toNat < 16) : (v.toUInt16 &&& 0xF).toNat = v.toNat := by
  rw [UInt16.toNat_and, UInt8.toNat_toUInt16, show (0xF : UInt16).toNat = 2 ^ 4 - 1 from rfl,
    Nat.and_two_pow_sub_one_eq_mod, Nat.mod_eq_of_lt hv]

variable {h : Header} (ho : h.opcode.value.toNat < 16) (hr : h.rcode.value.toNat < 16)
include ho hr

theorem packFlags_toNat :
    h.packFlags.toNat =
      h.response.toNat * 32768 + h.opcode.value.toNat * 2048 + h.authoritative.toNat * 1024 +
      h.truncated.toNat * 512 + h.recursionDesired.toNat * 256 + h.recursionAvailable.toNat * 128 +
      h.rcode.value.toNat := by
  have hqr : (h.response.toUInt16 <<< 15).toNat = h.response.toNat * 32768 := by cases h.response <;> rfl
  have haa : (h.authoritative.toUInt16 <<< 10).toNat = h.authoritative.toNat * 1024 := by
    cases h.authoritative <;> rfl
  have htc : (h.truncated.toUInt16 <<< 9).toNat = h.truncated.toNat * 512 := by cases h.truncated <;> rfl
  have hrd : (h.recursionDesired.toUInt16 <<< 8).toNat = h.recursionDesired.toNat * 256 := by
    cases h.recursionDesired <;> rfl
  have hra : (h.recursionAvailable.toUInt16 <<< 7).toNat = h.recursionAvailable.toNat * 128 := by
    cases h.recursionAvailable <;> rfl
  have hop : ((h.opcode.value.toUInt16 &&& 0xF) <<< 11).toNat = h.opcode.value.toNat * 2048 := by
    rw [UInt16.toNat_shiftLeft, toNat_code _ ho, show (11 : UInt16).toNat % 16 = 11 from rfl, Nat.shiftLeft_eq]
    omega
  have bqr := h.response.toNat_le
  have baa := h.authoritative.toNat_le
  have btc := h.truncated.toNat_le
  have brd := h.recursionDesired.toNat_le
  have bra := h.recursionAvailable.toNat_le
  rw [Header.packFlags]
  simp only [UInt16.toNat_or, UInt16.toNat_zero, Nat.zero_or, hqr, hop, haa, htc, hrd, hra, toNat_code _ hr]
  rw [or_eq_add (b := h.opcode.value.toNat * 2048) (i := 15) (by omega) (by omega),
    or_eq_add (b := h.authoritative.toNat * 1024) (i := 11) (by omega) (by omega),
    or_eq_add (b := h.truncated.toNat * 512) (i := 10) (by omega) (by omega),
    or_eq_add (b := h.recursionDesired.toNat * 256) (i := 9) (by omega) (by omega),
    or_eq_add (b := h.recursionAvailable.toNat * 128) (i := 8) (by omega) (by omega),
    or_eq_add (b := h.rcode.value.toNat) (i := 7) (by omega) (by omega)]

omit ho hr in
theorem write_buffer (w : Writer) :
    (h.write w).buffer = w.buffer ++ (encode16 h.id ++ (encode16 h.packFlags ++ (encode16 h.questionCount ++
      (encode16 h.answerCount ++ (encode16 h.authorityCount ++ encode16 h.additionalCount))))) := by
  simp only [Header.write, writeU16_buffer, List.append_assoc]

omit ho hr in
theorem decide_toNat_eq_one (b : Bool) : decide (b.toNat = 1) = b := by cases b <;> rfl

/-- The header bytes, read by the RFC layout, are the header. -/
theorem headerAt_write (post : Bytes) : headerAt ((h.write {}).buffer ++ post) = h := by
  have hflags := packFlags_toNat ho hr
  have hhi := BigEndian.toNat_high16 h.packFlags
  have hlo := BigEndian.toNat_low16 h.packFlags
  have bqr := h.response.toNat_le
  have baa := h.authoritative.toNat_le
  have btc := h.truncated.toNat_le
  have brd := h.recursionDesired.toNat_le
  have bra := h.recursionAvailable.toNat_le
  have hbit : ∀ (b : Bool) (p : Prop) [Decidable p], (p ↔ b.toNat = 1) → decide p = b :=
    fun b p _ hp => (decide_eq_decide.mpr hp).trans (decide_toNat_eq_one b)
  rw [write_buffer]
  have hword : ∀ v : UInt16, UInt16.ofNat ((v >>> 8).toUInt8.toNat * 256 + (v &&& 0xFF).toUInt8.toNat) = v :=
    fun v => word16_encode16 v [] []
  apply Header.ext
  · exact hword h.id
  · exact hbit _ (128 ≤ (h.packFlags >>> 8).toUInt8.toNat) (by omega)
  · apply Opcode.ext
    apply UInt8.toNat_inj.mp
    refine (UInt8.toNat_ofNat' ..).trans ?_
    change (h.packFlags >>> 8).toUInt8.toNat / 8 % 16 % 2 ^ 8 = _
    omega
  · exact hbit _ ((h.packFlags >>> 8).toUInt8.toNat / 4 % 2 = 1) (by omega)
  · exact hbit _ ((h.packFlags >>> 8).toUInt8.toNat / 2 % 2 = 1) (by omega)
  · exact hbit _ ((h.packFlags >>> 8).toUInt8.toNat % 2 = 1) (by omega)
  · exact hbit _ (128 ≤ (h.packFlags &&& 0xFF).toUInt8.toNat) (by omega)
  · apply Rcode.ext
    apply UInt8.toNat_inj.mp
    refine (UInt8.toNat_ofNat' ..).trans ?_
    change (h.packFlags &&& 0xFF).toUInt8.toNat % 16 % 2 ^ 8 = _
    omega
  · exact hword h.questionCount
  · exact hword h.answerCount
  · exact hword h.authorityCount
  · exact hword h.additionalCount

end HeaderBytes

/-- The header as it is written: the count of questions is refreshed, in 16 bits. -/
def Message.sentHeader (m : Message) : Header := { m.header with questionCount := UInt16.ofNat m.questions.length }

/-- A serialized message is its header and its questions, and nothing else. -/
theorem serialize_eq {m : Message} {split : List (List Bytes)} (h : NamesOf m.questions split) :
    m.serialize = some ((m.sentHeader.write {}).buffer ++ encodeQuestions m.questions split) := by
  have hwrite := writeQuestions_complete h (m.sentHeader.write {})
  exact congrArg (Option.map (·.buffer)) hwrite

theorem serialize_isSome_of_namesOf {m : Message} {split : List (List Bytes)} (h : NamesOf m.questions split) :
    m.serialize.isSome := by
  rw [serialize_eq h]
  rfl

theorem serialize_isSome_iff (m : Message) :
    m.serialize.isSome ↔ ∀ q ∈ m.questions, WritableName q.name := by
  simp only [writableName_iff]
  constructor
  · intro h
    exact writeQuestions_sound (by simpa [Message.serialize] using h)
  · intro h
    obtain ⟨split, hsplit⟩ := exists_namesOf h
    exact serialize_isSome_of_namesOf hsplit

theorem write_length (h : Header) : (h.write {}).buffer.length = 12 := by
  rw [write_buffer]
  rfl

/-- What was serialized derives the message with its names stripped, and their labels. -/
theorem serialize_derives {m : Message} (hq : m.questions.length ≤ 65535)
    (ho : m.header.opcode.value.toNat < 16) (hr : m.header.rcode.value.toNat < 16) {split : List (List Bytes)}
    (hsplit : NamesOf m.questions split) {b : Bytes} (hb : m.serialize = some b) :
    MessageAt b { header := m.sentHeader, questions := m.questions.map Question.stripped } ∧
      LabelsAt b m.questions.length 12 split := by
  cases (serialize_eq hsplit).symm.trans hb
  have hheader := headerAt_write (h := m.sentHeader) ho hr (encodeQuestions m.questions split)
  have hcount := congrArg (fun h => h.questionCount.toNat) hheader
  have hqs := encodeQuestions_at hsplit (m.sentHeader.write {}).buffer []
  rw [List.append_nil, write_length] at hqs
  refine ⟨⟨?_, hheader.symm, ?_⟩, hqs.2⟩
  · rw [List.length_append, write_length]
    omega
  · have hn : (word16 ((m.sentHeader.write {}).buffer ++ encodeQuestions m.questions split) 4).toNat =
        m.questions.length := by
      refine hcount.trans ?_
      exact UInt16.toNat_ofNat_of_lt' (by simp [UInt16.size]; omega)
    rw [hn]
    exact hqs.1

theorem namesOf_of_serialize {m : Message} {b : Bytes} (hb : m.serialize = some b) :
    ∃ split, NamesOf m.questions split := by
  have hwritable := (serialize_isSome_iff m).mp (by rw [hb]; rfl)
  simp only [writableName_iff] at hwritable
  exact exists_namesOf hwritable

/-- The round trip. A message of at most 65535 questions with four-bit codes can be
serialized exactly when all its names can be written, and what was serialized parses
to the same header, counting the questions, and to the same questions with each name
stripped of its optional final '.'. -/
theorem serialize_parse (m : Message) (hq : m.questions.length ≤ 65535)
    (ho : m.header.opcode.value.toNat < 16) (hr : m.header.rcode.value.toNat < 16) :
    (m.serialize.isSome ↔ ∀ q ∈ m.questions, WritableName q.name) ∧
    ∀ b, m.serialize = some b →
      ∃ p, Message.parse b = some p ∧ p.header.questionCount.toNat = m.questions.length ∧
        p.header = { m.header with questionCount := p.header.questionCount } ∧
        p.questions = m.questions.map fun q => { q with name := stripDot q.name } := by
  refine ⟨serialize_isSome_iff m, ?_⟩
  intro b hb
  obtain ⟨split, hsplit⟩ := namesOf_of_serialize hb
  have hparse := (parse_iff b _).mpr (serialize_derives hq ho hr hsplit hb).1
  refine ⟨_, hparse, ?_, rfl, rfl⟩
  exact UInt16.toNat_ofNat_of_lt' (by simp [UInt16.size]; omega)

/-- A query for "a.bc." and for the root. -/
def dottedQuery : Message where
  header := { id := 7, recursionDesired := true, opcode := ⟨4⟩ }
  questions := [{ name := [97, 46, 98, 99, 46] }, { name := [] }]

theorem serialize_parse_dottedQuery :
    ∃ b p, dottedQuery.serialize = some b ∧ Message.parse b = some p ∧
      p.questions = [{ name := [97, 46, 98, 99] }, { name := [] }] := by
  obtain ⟨b, hb⟩ := Option.isSome_iff_exists.mp (show dottedQuery.serialize.isSome by decide +kernel)
  obtain ⟨p, hp, _, _, hqs⟩ := (serialize_parse dottedQuery (by decide) (by decide) (by decide)).2 b hb
  exact ⟨b, p, hb, hp, hqs.trans (by decide)⟩

end CxNetworking.Dns
