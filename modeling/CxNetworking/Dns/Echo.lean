import CxNetworking.Dns.RoundTrip

/-! A parsed message sent back. Decoding joins the labels of a name by '.' and encoding
splits it there again, so the labels survive exactly when none of them holds that byte. -/
namespace CxNetworking.Dns
open Reader

theorem NameAt.length_bounds {d : Bytes} {c e : Nat} {labels : List Bytes} (h : NameAt d c labels e) :
    ∀ l ∈ labels, 1 ≤ l.length ∧ l.length ≤ 63 := by
  induction h with
  | root _ => exact fun _ hl => absurd hl List.not_mem_nil
  | label _ h1 h63 hin _ ih =>
      intro l hl
      rcases List.mem_cons.mp hl with rfl | later
      · rw [List.length_take, List.length_drop]
        omega
      · exact ih l later
  | pointer _ _ _ _ ih => exact ih

theorem LabelsAt.unique {d : Bytes} {n p : Nat} {decoded decoded' : List (List Bytes)} (h : LabelsAt d n p decoded)
    (h' : LabelsAt d n p decoded') : decoded = decoded' := by
  induction h generalizing decoded' with
  | nil =>
      cases h'
      rfl
  | cons hn _ ih =>
      cases h' with
      | cons hn' hrest =>
          obtain ⟨rfl, rfl⟩ := hn.unique hn'
          rw [ih hrest]

theorem QuestionsAt.length {d : Bytes} {n p : Nat} {questions : List Question} (h : QuestionsAt d n p questions) :
    questions.length = n := by
  induction h with
  | nil => rfl
  | cons _ _ _ ih => rw [List.length_cons, ih]

/-- The names of the questions were joined from these labels. -/
abbrev JoinedFrom (questions : List Question) (decoded : List (List Bytes)) : Prop :=
  List.Forall₂ (fun q labels => q.name = joinLabels labels ∧ ∀ l ∈ labels, 1 ≤ l.length ∧ l.length ≤ 63)
    questions decoded

theorem QuestionsAt.labels {d : Bytes} {n p : Nat} {questions : List Question} (h : QuestionsAt d n p questions) :
    ∃ decoded, LabelsAt d n p decoded ∧ JoinedFrom questions decoded := by
  induction h with
  | nil => exact ⟨[], .nil, .nil⟩
  | @cons n p e labels questions hn _ _ ih =>
      obtain ⟨decoded, hlabels, hnames⟩ := ih
      exact ⟨labels :: decoded, .cons hn hlabels, .cons ⟨rfl, hn.length_bounds⟩ hnames⟩

/-- Without a '.' in them, the decoded labels are those that the name is written with. -/
theorem namesOf_of_noDot {questions : List Question} {decoded : List (List Bytes)}
    (h : JoinedFrom questions decoded) (hdot : ∀ labels ∈ decoded, ∀ l ∈ labels, dot ∉ l) : NamesOf questions decoded := by
  induction h with
  | nil => exact .nil
  | @cons q labels questions decoded hq _ ih =>
      have hgood : ∀ l ∈ labels, GoodLabel l := fun l hl =>
        ⟨(hq.2 l hl).1, (hq.2 l hl).2, hdot labels List.mem_cons_self l hl⟩
      exact .cons ⟨hgood, .inl hq.1⟩ (ih fun labels hl => hdot labels (List.mem_cons_of_mem _ hl))

theorem noDot_of_namesOf {questions : List Question} {split : List (List Bytes)} (h : NamesOf questions split) :
    ∀ labels ∈ split, ∀ l ∈ labels, dot ∉ l := by
  induction h with
  | nil => exact fun _ hl => absurd hl List.not_mem_nil
  | cons hq _ ih =>
      intro labels hl l hmem
      rcases List.mem_cons.mp hl with rfl | later
      · exact (hq.good l hmem).noDot
      · exact ih labels later l hmem

theorem stripped_eq {questions : List Question} {decoded : List (List Bytes)}
    (hnames : JoinedFrom questions decoded) (h : NamesOf questions decoded) :
    questions.map Question.stripped = questions := by
  induction h with
  | nil => rfl
  | @cons q labels questions decoded hq _ ih =>
      cases hnames with
      | cons hname hnames =>
          have hstrip : q.stripped = q := by
            rw [Question.stripped, hq.stripDot, ← hname.1]
          rw [List.map_cons, hstrip, ih hnames]

theorem headerAt_codes (d : Bytes) :
    (headerAt d).opcode.value.toNat < 16 ∧ (headerAt d).rcode.value.toNat < 16 := by
  simp only [headerAt, UInt8.toNat_ofNat']
  omega

/-- The message can be sent back: it is serialized, parses to an equal message, and the
bytes encode these labels for its questions. -/
def Echoes (m : Message) (decoded : List (List Bytes)) : Prop :=
  ∃ b p, m.serialize = some b ∧ Message.parse b = some p ∧ p.equal m = true ∧
    LabelsAt b m.questions.length 12 decoded

/-- A parsed message can be sent back exactly when no label decoded from its datagram
contains a '.'. -/
theorem echo_iff_noDot {d : Bytes} {m : Message} (h : Message.parse d = some m) :
    ∃ decoded, LabelsAt d m.questions.length 12 decoded ∧
      (Echoes m decoded ↔ ∀ labels ∈ decoded, ∀ l ∈ labels, dot ∉ l) := by
  obtain ⟨-, hheader, hquestions⟩ := (parse_iff d m).mp h
  have hlength := hquestions.length
  have hcount : m.questions.length ≤ 65535 := by
    rw [hlength]
    exact Nat.le_of_lt_succ (word16 d 4).toNat_lt
  obtain ⟨ho, hr⟩ := headerAt_codes d
  rw [← hheader] at ho hr
  rw [← hlength] at hquestions
  obtain ⟨decoded, hlabels, hnames⟩ := hquestions.labels
  refine ⟨decoded, hlabels, ?_, ?_⟩
  · rintro ⟨b, p, hb, -, -, hencoded⟩
    obtain ⟨split, hsplit⟩ := namesOf_of_serialize hb
    rw [hencoded.unique (serialize_derives hcount ho hr hsplit hb).2]
    exact noDot_of_namesOf hsplit
  · intro hdot
    have hsplit := namesOf_of_noDot hnames hdot
    obtain ⟨b, hb⟩ := Option.isSome_iff_exists.mp (serialize_isSome_of_namesOf hsplit)
    obtain ⟨hmessage, hencoded⟩ := serialize_derives hcount ho hr hsplit hb
    refine ⟨b, _, hb, (parse_iff b _).mpr hmessage, ?_, hencoded⟩
    rw [stripped_eq hnames hsplit]
    simp [Message.equal, Header.uncounted, Message.sentHeader]

/-- A query for "a" and for "b.a", the second name ending in a pointer to the first. -/
def pointedQuery : Bytes :=
  [0, 7, 1, 0, 0, 2, 0, 0, 0, 0, 0, 0] ++ [1, 97, 0, 0, 1, 0, 1] ++ [1, 98, 192, 12, 0, 1, 0, 1]

theorem pointedQuery_echoes :
    ∃ m, Message.parse pointedQuery = some m ∧ LabelsAt pointedQuery 2 12 [[[97]], [[98], [97]]] ∧
      Echoes m [[[97]], [[98], [97]]] := by
  have hlabels : LabelsAt pointedQuery 2 12 [[[97]], [[98], [97]]] := by
    have ha : NameAt pointedQuery 12 [[97]] 15 :=
      @NameAt.label _ 12 1 [] 15 rfl (by decide) (by decide) (by decide) (.root rfl)
    have hb : NameAt pointedQuery 19 [[98], [97]] 23 :=
      @NameAt.label _ 19 1 [[97]] 23 rfl (by decide) (by decide) (by decide)
        (@NameAt.pointer _ 21 192 12 _ _ rfl (by decide) rfl ha)
    exact .cons ha (.cons hb .nil)
  have hparse : ((Message.parse pointedQuery).map fun m => m.questions.length) = some 2 := by decide +kernel
  obtain ⟨m, hm, hlength⟩ := Option.map_eq_some_iff.mp hparse
  obtain ⟨decoded, hdecoded, hiff⟩ := echo_iff_noDot hm
  rw [hlength] at hdecoded
  rw [← hlabels.unique hdecoded] at hiff
  exact ⟨m, hm, hlabels, hiff.mpr (by decide)⟩

/-- A query whose name is one label that holds a '.' and nothing else. -/
def dotQuery : Bytes := [0, 7, 1, 0, 0, 1, 0, 0, 0, 0, 0, 0] ++ [1, 46, 0, 0, 1, 0, 1]

/-- It is accepted, but what was parsed cannot be serialized. -/
theorem dotQuery_not_echoed :
    LabelsAt dotQuery 1 12 [[[46]]] ∧
      ∃ m, Message.parse dotQuery = some m ∧ m.serialize = none ∧ ¬ ∃ decoded, Echoes m decoded := by
  have hlabels : NameAt dotQuery 12 [[46]] 15 :=
    @NameAt.label _ 12 1 [] 15 rfl (by decide) (by decide) (by decide) (.root rfl)
  have hparse : ((Message.parse dotQuery).map fun m => m.serialize) = some none := by decide +kernel
  obtain ⟨m, hm, hnone⟩ := Option.map_eq_some_iff.mp hparse
  refine ⟨.cons hlabels .nil, m, hm, hnone, ?_⟩
  rintro ⟨decoded, b, p, hb, -⟩
  cases hnone.symm.trans hb

end CxNetworking.Dns
