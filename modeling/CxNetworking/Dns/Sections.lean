import CxNetworking.Dns.Echo
import CxNetworking.Dns.Server

/-! The sections of a datagram. `message::parse` reads the header and the questions, so
that nothing behind them can change what it returns. `message::serialize` writes those
two and no record: it refreshes the count of the questions, in 16 bits, and copies the
three other counts from the header it was given. -/
namespace CxNetworking.Dns
open Reader

theorem getElem?_append_of_some {d : Bytes} {i : Nat} {b : UInt8} (h : d[i]? = some b) (t : Bytes) :
    (d ++ t)[i]? = some b := by
  obtain ⟨hi, _⟩ := List.getElem?_eq_some_iff.mp h
  rw [List.getElem?_append_left hi]
  exact h

/-- A derivation looks at no byte outside the datagram, so it stands in every longer one. -/
theorem NameAt.append {d : Bytes} {c e : Nat} {labels : List Bytes} (h : NameAt d c labels e) (t : Bytes) :
    NameAt (d ++ t) c labels e := by
  induction h with
  | root h0 => exact .root (getElem?_append_of_some h0 t)
  | @label c len labels e hlen h1 h63 hin _ ih =>
      have hlabel : ((d ++ t).drop (c + 1)).take len.toNat = (d.drop (c + 1)).take len.toNat := by
        rw [List.drop_append_of_le_length (by omega), List.take_append_of_le_length]
        rw [List.length_drop]
        omega
      rw [← hlabel]
      refine .label (getElem?_append_of_some hlen t) h1 h63 ?_ ih
      rw [List.length_append]
      omega
  | pointer hhi h192 hlo _ ih =>
      exact .pointer (getElem?_append_of_some hhi t) h192 (getElem?_append_of_some hlo t) ih

theorem word16_append {d : Bytes} {i : Nat} (h : i + 2 ≤ d.length) (t : Bytes) : word16 (d ++ t) i = word16 d i := by
  rw [word16, word16, List.getD_append _ _ _ _ (by omega), List.getD_append _ _ _ _ (by omega)]

theorem headerAt_append {d : Bytes} (h : 12 ≤ d.length) (t : Bytes) : headerAt (d ++ t) = headerAt d := by
  have hword : ∀ i, i + 2 ≤ 12 → word16 (d ++ t) i = word16 d i := fun i hi => word16_append (by omega) t
  rw [headerAt, headerAt, hword 0 (by omega), hword 4 (by omega), hword 6 (by omega), hword 8 (by omega),
    hword 10 (by omega), List.getD_append _ _ _ _ (by omega), List.getD_append _ _ _ _ (by omega)]

theorem QuestionsAt.append {d : Bytes} {n p : Nat} {questions : List Question} (h : QuestionsAt d n p questions)
    (t : Bytes) : QuestionsAt (d ++ t) n p questions := by
  induction h with
  | nil => exact .nil
  | @cons n p e labels questions hn hin _ ih =>
      rw [← word16_append (i := e) (by omega) t, ← word16_append (i := e + 2) (by omega) t]
      refine .cons (hn.append t) ?_ ih
      rw [List.length_append]
      omega

theorem MessageAt.append {d : Bytes} {m : Message} (h : MessageAt d m) (t : Bytes) : MessageAt (d ++ t) m := by
  have hlength := h.length
  refine ⟨?_, ?_, ?_⟩
  · rw [List.length_append]
    omega
  · rw [headerAt_append hlength]
    exact h.header
  · rw [word16_append (by omega)]
    exact h.questions.append t

/-- What a datagram parses to does not depend on the bytes that follow it, be they the
records of a response or anything else. -/
theorem parse_append {d : Bytes} {m : Message} (h : Message.parse d = some m) (t : Bytes) :
    Message.parse (d ++ t) = some m :=
  (parse_iff (d ++ t) m).mpr (((parse_iff d m).mp h).append t)

/-- The query with a compressed name, with a record for that name behind it. -/
theorem pointedQuery_append :
    ∃ m, Message.parse pointedQuery = some m ∧ m.questions.length = 2 ∧
      Message.parse (pointedQuery ++ [192, 19, 0, 1, 0, 1, 0, 0, 0, 9, 0, 4, 1, 1, 1, 1]) = some m := by
  have hparse : ((Message.parse pointedQuery).map fun m => m.questions.length) = some 2 := by decide +kernel
  obtain ⟨m, hm, hlength⟩ := Option.map_eq_some_iff.mp hparse
  exact ⟨m, hm, hlength, parse_append hm _⟩

def Header.recordCounts (h : Header) : UInt16 × UInt16 × UInt16 := (h.answerCount, h.authorityCount, h.additionalCount)

theorem counts_write (h : Header) (post : Bytes) :
    (headerAt ((h.write {}).buffer ++ post)).questionCount = h.questionCount ∧
      (headerAt ((h.write {}).buffer ++ post)).recordCounts = h.recordCounts := by
  have hword : ∀ v : UInt16, UInt16.ofNat ((v >>> 8).toUInt8.toNat * 256 + (v &&& 0xFF).toUInt8.toNat) = v :=
    fun v => word16_encode16 v [] []
  rw [write_buffer]
  refine ⟨hword h.questionCount, ?_⟩
  have hcounts := congrArg₂ Prod.mk (hword h.answerCount)
    (congrArg₂ Prod.mk (hword h.authorityCount) (hword h.additionalCount))
  exact hcounts

theorem serialize_counts {m : Message} {b : Bytes} (hb : m.serialize = some b) :
    (headerAt b).questionCount = UInt16.ofNat m.questions.length ∧
      (headerAt b).recordCounts = m.header.recordCounts := by
  obtain ⟨split, hsplit⟩ := namesOf_of_serialize hb
  cases (serialize_eq hsplit).symm.trans hb
  exact counts_write m.sentHeader (encodeQuestions m.questions split)

theorem QuestionsAt.take {d : Bytes} {n p : Nat} {questions : List Question} (h : QuestionsAt d n p questions)
    {k : Nat} (hk : k ≤ n) : QuestionsAt d k p (questions.take k) := by
  induction h generalizing k with
  | nil =>
      cases Nat.le_zero.mp hk
      exact .nil
  | cons hn hin _ ih =>
      cases k with
      | zero => exact .nil
      | succ k => exact .cons hn hin (ih (Nat.le_of_succ_le_succ hk))

/-- All questions of the message stand in its bytes, whatever their count says. -/
theorem serialize_questionsAt {m : Message} {b : Bytes} (hb : m.serialize = some b) :
    12 ≤ b.length ∧ QuestionsAt b m.questions.length 12 (m.questions.map Question.stripped) := by
  obtain ⟨split, hsplit⟩ := namesOf_of_serialize hb
  cases (serialize_eq hsplit).symm.trans hb
  have hqs := (encodeQuestions_at hsplit (m.sentHeader.write {}).buffer []).1
  rw [List.append_nil, write_length] at hqs
  refine ⟨?_, hqs⟩
  rw [List.length_append, write_length]
  omega

theorem serialize_questionCount {m : Message} {b : Bytes} (hb : m.serialize = some b) :
    (headerAt b).questionCount.toNat = m.questions.length % 65536 := by
  rw [(serialize_counts hb).1]
  exact UInt16.toNat_ofNat'

/-- Every serialized message parses; of its questions those come back that the count
tells the parser to read. -/
theorem parse_serialize {m : Message} {b : Bytes} (hb : m.serialize = some b) :
    ∃ p, Message.parse b = some p ∧
      p.questions = (m.questions.map Question.stripped).take (m.questions.length % 65536) := by
  obtain ⟨hlength, hqs⟩ := serialize_questionsAt hb
  have hfirst := hqs.take (Nat.mod_le m.questions.length 65536)
  have hcount : (word16 b 4).toNat = m.questions.length % 65536 := serialize_questionCount hb
  rw [← hcount] at hfirst ⊢
  exact ⟨⟨headerAt b, _⟩, (parse_iff b _).mpr ⟨hlength, rfl, hfirst⟩, rfl⟩

/-- The question count of a serialized message is the number of its questions, and as
many are parsed back, exactly when there are fewer than 2^16. -/
theorem questionCount_honest_iff {m : Message} {b : Bytes} (hb : m.serialize = some b) :
    ((headerAt b).questionCount.toNat = m.questions.length ↔ m.questions.length < 65536) ∧
      ∃ p, Message.parse b = some p ∧ (p.questions.length = m.questions.length ↔ m.questions.length < 65536) := by
  obtain ⟨p, hp, hquestions⟩ := parse_serialize hb
  have hcount := serialize_questionCount hb
  have hparsed : p.questions.length = m.questions.length % 65536 := by
    rw [hquestions, List.length_take, List.length_map]
    exact Nat.min_eq_left (Nat.mod_le _ _)
  refine ⟨?_, p, hp, ?_⟩
  · omega
  · omega

theorem dottedQuery_counted :
    ∃ b p, dottedQuery.serialize = some b ∧ (headerAt b).questionCount.toNat = 2 ∧
      Message.parse b = some p ∧ p.questions.length = 2 := by
  obtain ⟨b, hb⟩ := Option.isSome_iff_exists.mp (show dottedQuery.serialize.isSome by decide +kernel)
  obtain ⟨hcount, p, hp, hparsed⟩ := questionCount_honest_iff hb
  exact ⟨b, p, hb, hcount.mpr (by decide), hp, hparsed.mpr (by decide)⟩

def rootQueries : Message where
  questions := List.replicate 65536 { name := [] }

theorem rootQueries_namesOf : NamesOf rootQueries.questions (List.replicate 65536 []) := by
  have hnames : ∀ n, NamesOf (List.replicate n { name := [] }) (List.replicate n []) := by
    intro n
    induction n with
    | zero => exact .nil
    | succ n ih => exact .cons .nil ih
  exact hnames 65536

/-- It is serialized with a question count of zero, and no question comes back. -/
theorem rootQueries_uncounted :
    rootQueries.questions.length = 65536 ∧
      ∃ b p, rootQueries.serialize = some b ∧ (headerAt b).questionCount = 0 ∧
        Message.parse b = some p ∧ p.questions = [] := by
  have hlength : rootQueries.questions.length = 65536 := List.length_replicate
  obtain ⟨b, hb⟩ := Option.isSome_iff_exists.mp (serialize_isSome_of_namesOf rootQueries_namesOf)
  obtain ⟨p, hp, hquestions⟩ := parse_serialize hb
  have hcount := (serialize_counts hb).1
  rw [hlength] at hcount hquestions
  exact ⟨hlength, b, p, hb, hcount, hp, hquestions⟩

/-- No record is ever written, so the counts of the record sections are honest exactly
when the header held zeros: for a message of the caller's, for one that was parsed from
a datagram, and for a reply that a responder sends. -/
theorem recordCounts_honest_iff (m : Message) :
    (∀ b, m.serialize = some b →
      (∃ split, NamesOf m.questions split ∧
        b = (m.sentHeader.write {}).buffer ++ encodeQuestions m.questions split) ∧
      ((headerAt b).recordCounts = (0, 0, 0) ↔ m.header.recordCounts = (0, 0, 0))) ∧
    (∀ d b, Message.parse d = some m → m.serialize = some b →
      ((headerAt b).recordCounts = (0, 0, 0) ↔ (headerAt d).recordCounts = (0, 0, 0))) ∧
    ∀ (r : Responder) sent wire dest, r.send m sent = some (wire, dest) →
      ((headerAt wire).recordCounts = (0, 0, 0) ↔ m.header.recordCounts = (0, 0, 0)) := by
  refine ⟨?_, ?_, ?_⟩
  · intro b hb
    obtain ⟨split, hsplit⟩ := namesOf_of_serialize hb
    refine ⟨⟨split, hsplit, ?_⟩, ?_⟩
    · exact Option.some.inj (hb.symm.trans (serialize_eq hsplit))
    · rw [(serialize_counts hb).2]
  · intro d b hd hb
    rw [(serialize_counts hb).2, ((parse_iff d m).mp hd).header]
  · intro r sent wire dest hsend
    rw [(serialize_counts (Responder.send_eq_some hsend).1).2]
    rfl

theorem dottedQuery_noRecords :
    ∃ b, dottedQuery.serialize = some b ∧ (headerAt b).recordCounts = (0, 0, 0) := by
  obtain ⟨b, hb⟩ := Option.isSome_iff_exists.mp (show dottedQuery.serialize.isSome by decide +kernel)
  exact ⟨b, hb, ((recordCounts_honest_iff dottedQuery).1 b hb).2.mpr rfl⟩

/-- A response to a query for "a", with the one record that its header counts. -/
def answeredQuery : Bytes :=
  [0, 7, 129, 128, 0, 1, 0, 1, 0, 0, 0, 0] ++ [1, 97, 0, 0, 1, 0, 1] ++
    [192, 12, 0, 1, 0, 1, 0, 0, 0, 9, 0, 4, 1, 1, 1, 1]

/-- Serialized again, by itself or as a reply, it ends behind the question and still
counts an answer. -/
theorem answeredQuery_resent :
    ∃ m b, Message.parse answeredQuery = some m ∧ m.serialize = some b ∧ b.length = 19 ∧
      (headerAt b).recordCounts = (1, 0, 0) ∧
      (Responder.send ⟨{ address := "1.1.1.1" }, 7⟩ m true).map Prod.fst = some b := by
  have hparse : ((Message.parse answeredQuery).map fun m =>
      (m.serialize.map fun b => (b.length, (headerAt b).recordCounts),
        decide ((Responder.send ⟨{ address := "1.1.1.1" }, 7⟩ m true).map Prod.fst = m.serialize))) =
      some (some (19, 1, 0, 0), true) := by decide +kernel
  obtain ⟨m, hm, hfacts⟩ := Option.map_eq_some_iff.mp hparse
  obtain ⟨hb, hsent⟩ := Prod.mk.inj hfacts
  obtain ⟨b, hb, hcounts⟩ := Option.map_eq_some_iff.mp hb
  obtain ⟨hlength, hcounts⟩ := Prod.mk.inj hcounts
  exact ⟨m, b, hm, hb, hlength, hcounts, (of_decide_eq_true hsent).trans hb⟩

end CxNetworking.Dns
