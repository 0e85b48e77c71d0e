import CxNetworking.Dns.Message
import CxNetworking.Dns.NameGrammar

/-! `message::parse` accepts exactly the header and question grammar, returns what
the grammar reads, and touches no byte outside the datagram. -/
namespace CxNetworking.Dns
open Reader

/-- The header of a datagram by the bit positions of RFC 1035. -/
def headerAt (d : Bytes) : Header where
  id := word16 d 0
  response := 128 ≤ (d.getD 2 0).toNat
  opcode := ⟨UInt8.ofNat ((d.getD 2 0).toNat / 8 % 16)⟩
  authoritative := (d.getD 2 0).toNat / 4 % 2 = 1
  truncated := (d.getD 2 0).toNat / 2 % 2 = 1
  recursionDesired := (d.getD 2 0).toNat % 2 = 1
  recursionAvailable := 128 ≤ (d.getD 3 0).toNat
  rcode := ⟨UInt8.ofNat ((d.getD 3 0).toNat % 16)⟩
  questionCount := word16 d 4
  answerCount := word16 d 6
  authorityCount := word16 d 8
  additionalCount := word16 d 10

/-- `n` questions in a row, the first one at offset `p`. -/
inductive QuestionsAt (d : Bytes) : Nat → Nat → List Question → Prop
  | nil {p} : QuestionsAt d 0 p []
  | cons {n p e labels questions} : NameAt d p labels e → e + 4 ≤ d.length →
      QuestionsAt d n (e + 4) questions →
      QuestionsAt d (n + 1) p
        ({ name := joinLabels labels, type := word16 d e, class_ := word16 d (e + 2) } :: questions)

inductive LabelsAt (d : Bytes) : Nat → Nat → List (List Bytes) → Prop
  | nil {p} : LabelsAt d 0 p []
  | cons {n p e labels decoded} : NameAt d p labels e → LabelsAt d n (e + 4) decoded →
      LabelsAt d (n + 1) p (labels :: decoded)

/-- The message a datagram encodes. Bytes behind the last question are not looked at. -/
structure MessageAt (d : Bytes) (m : Message) : Prop where
  length : 12 ≤ d.length
  header : m.header = headerAt d
  questions : QuestionsAt d (word16 d 4).toNat 12 m.questions

theorem readU16_some {r : Reader} (h : r.Safe) {v : UInt16} (hv : (r.readU16).1 = some v) :
    r.position + 2 ≤ r.buffer.length ∧ v = word16 r.buffer r.position ∧
      (r.readU16).2.position = r.position + 2 := by
  obtain ⟨hl, rfl⟩ := ((readU16_spec h).2.2 v).mp hv
  exact ⟨hl, rfl, readU16_position h hl⟩

theorem flagBit (w : UInt16) {i : Nat} (hi : i < 16) :
    ((w >>> UInt16.ofNat i &&& 0x1) != 0) = decide (w.toNat / 2 ^ i % 2 = 1) := by
  have hbit : (w >>> UInt16.ofNat i &&& 0x1).toNat = w.toNat / 2 ^ i % 2 := by
    rw [UInt16.toNat_and, UInt16.toNat_shiftRight, UInt16.toNat_ofNat_of_lt' (by simp [UInt16.size]; omega),
      Nat.mod_eq_of_lt hi, show (0x1 : UInt16).toNat = 2 ^ 1 - 1 from rfl,
      Nat.and_two_pow_sub_one_eq_mod, Nat.shiftRight_eq_div_pow]
  rw [bne, Bool.eq_iff_iff]
  simp only [Bool.not_eq_true', beq_eq_false_iff_ne, ne_eq, decide_eq_true_eq, ← UInt16.toNat_inj, hbit,
    UInt16.toNat_zero]
  omega

theorem flagCode (w : UInt16) {i : Nat} (hi : i < 16) :
    ((w >>> UInt16.ofNat i) &&& 0xF).toUInt8 = UInt8.ofNat (w.toNat / 2 ^ i % 16) := by
  apply UInt8.toNat_inj.mp
  rw [UInt16.toNat_toUInt8, UInt16.toNat_and, UInt16.toNat_shiftRight,
    UInt16.toNat_ofNat_of_lt' (by simp [UInt16.size]; omega), Nat.mod_eq_of_lt hi,
    show (0xF : UInt16).toNat = 2 ^ 4 - 1 from rfl, Nat.and_two_pow_sub_one_eq_mod,
    Nat.shiftRight_eq_div_pow, UInt8.toNat_ofNat']

theorem word16_toNat (d : Bytes) (i : Nat) :
    (word16 d i).toNat = (d.getD i 0).toNat * 256 + (d.getD (i + 1) 0).toNat := by
  rw [← join_eq_word16, BigEndian.toNat_join16]

/-- The shifts and masks of `header::parse` pick out the bits of the RFC layout. -/
theorem unpackFlags_eq_headerAt (d : Bytes) :
    ({ id := word16 d 0, questionCount := word16 d 4, answerCount := word16 d 6, authorityCount := word16 d 8,
       additionalCount := word16 d 10 } : Header).unpackFlags (word16 d 2) = headerAt d := by
  have hw : (word16 d 2).toNat = (d.getD 2 0).toNat * 256 + (d.getD 3 0).toNat := word16_toNat d 2
  have hhi := (d.getD 2 0).toNat_lt
  have hlo := (d.getD 3 0).toNat_lt
  have hbit : ∀ {i : Nat}, i < 16 → ∀ p : Prop, [Decidable p] →
      ((word16 d 2).toNat / 2 ^ i % 2 = 1 ↔ p) →
      ((word16 d 2 >>> UInt16.ofNat i &&& 0x1) != 0) = decide p :=
    fun hi p _ hp => (flagBit _ hi).trans (decide_eq_decide.mpr hp)
  simp only [Header.unpackFlags, headerAt, Header.mk.injEq, Opcode.mk.injEq, Rcode.mk.injEq, true_and, and_true]
  refine ⟨hbit (i := 15) (by omega) _ (by omega), ?_, hbit (i := 10) (by omega) _ (by omega),
    hbit (i := 9) (by omega) _ (by omega), hbit (i := 8) (by omega) _ (by omega),
    hbit (i := 7) (by omega) _ (by omega), ?_⟩
  · refine (flagCode (word16 d 2) (i := 11) (by omega)).trans (congrArg _ ?_)
    omega
  · have h0 : word16 d 2 &&& 0xF = (word16 d 2 >>> UInt16.ofNat 0) &&& 0xF := by
      rw [show UInt16.ofNat 0 = 0 from rfl, UInt16.shiftRight_zero]
    rw [h0]
    refine (flagCode (word16 d 2) (i := 0) (by omega)).trans (congrArg _ ?_)
    omega

def wordsAt (d : Bytes) (p : Nat) : Nat → List UInt16
  | 0 => []
  | n + 1 => word16 d p :: wordsAt d (p + 2) n

theorem readWords_spec (n : Nat) {r : Reader} (h : r.Safe) :
    (Header.readWords n r).2.Safe ∧ (Header.readWords n r).2.buffer = r.buffer ∧
    (r.position + 2 * n ≤ r.buffer.length →
      (Header.readWords n r).1 = (wordsAt r.buffer r.position n).map some ∧
      (Header.readWords n r).2.position = r.position + 2 * n) ∧
    (none ∉ (Header.readWords n r).1 → r.position + 2 * n ≤ r.buffer.length) := by
  induction n generalizing r with
  | zero => exact ⟨h, rfl, fun _ => ⟨rfl, rfl⟩, fun _ => h.cursor⟩
  | succ n ih =>
      obtain ⟨hs, hb, hv⟩ := readU16_spec h
      obtain ⟨ihs, ihb, ihl, ihn⟩ := ih hs
      refine ⟨ihs, ihb.trans hb, ?_, ?_⟩
      · intro hl
        have hpos := readU16_position h (by omega)
        have hword := (hv _).mpr ⟨by omega, rfl⟩
        rw [hb, hpos] at ihl
        obtain ⟨hw, hp⟩ := ihl (by omega)
        refine ⟨?_, hp.trans (by omega)⟩
        change r.readU16.1 :: (Header.readWords n r.readU16.2).1 = _
        rw [hw, hword]
        rfl
      · intro hnone
        change none ∉ r.readU16.1 :: (Header.readWords n r.readU16.2).1 at hnone
        obtain ⟨hhead, htail⟩ := not_or.mp (mt List.mem_cons.mpr hnone)
        obtain ⟨v, hv'⟩ := Option.ne_none_iff_exists'.mp (Ne.symm hhead)
        obtain ⟨hl, _⟩ := (hv v).mp hv'
        have hrest := ihn htail
        rw [hb, readU16_position h hl] at hrest
        omega

theorem Header.parse_snd (r : Reader) : (Header.parse r).2 = (Header.readWords 6 r).2 := by
  unfold Header.parse
  generalize Header.readWords 6 r = x
  split <;> rfl

theorem Header.parse_fst {r : Reader} {id flags qd an ns ar : UInt16}
    (h : (Header.readWords 6 r).1 = [some id, some flags, some qd, some an, some ns, some ar]) :
    (Header.parse r).1 =
      some (({ id, questionCount := qd, answerCount := an, authorityCount := ns,
               additionalCount := ar } : Header).unpackFlags flags) := by
  unfold Header.parse
  generalize Header.readWords 6 r = x at h ⊢
  obtain ⟨words, r'⟩ := x
  cases h
  rfl

theorem Header.parse_safe {r : Reader} (h : r.Safe) :
    (Header.parse r).2.Safe ∧ (Header.parse r).2.buffer = r.buffer := by
  obtain ⟨hs, hb, _⟩ := readWords_spec 6 h
  rw [Header.parse_snd]
  exact ⟨hs, hb⟩

theorem wordsAt_header (d : Bytes) :
    (wordsAt d 0 6).map some = [some (word16 d 0), some (word16 d 2), some (word16 d 4), some (word16 d 6),
      some (word16 d 8), some (word16 d 10)] := rfl

theorem Header.parse_long {d : Bytes} {r : Reader} (hr : r.Safe) (hd : r.buffer = d) (hp : r.position = 0)
    (hl : 12 ≤ d.length) : (Header.parse r).1 = some (headerAt d) ∧ (Header.parse r).2.position = 12 := by
  obtain ⟨_, _, hlong, _⟩ := readWords_spec 6 hr
  rw [hd, hp, wordsAt_header] at hlong
  obtain ⟨hw, hpos⟩ := hlong hl
  rw [Header.parse_snd, Header.parse_fst hw, unpackFlags_eq_headerAt]
  exact ⟨rfl, hpos⟩

theorem Header.parse_short {d : Bytes} {h : Header} (hsome : (Header.parse { buffer := d }).1 = some h) :
    12 ≤ d.length := by
  obtain ⟨_, _, _, hnone⟩ := readWords_spec 6 (Safe.of_buffer d)
  have hall : none ∉ (Header.readWords 6 { buffer := d }).1 := by
    unfold Header.parse at hsome
    split at hsome
    next heq => simp [heq]
    next => cases hsome
  simpa using hnone hall

theorem readQuestions_safe (n : Nat) {r : Reader} (h : r.Safe) :
    (Message.readQuestions n r).2.Safe ∧ (Message.readQuestions n r).2.buffer = r.buffer := by
  induction n generalizing r with
  | zero => exact ⟨h, rfl⟩
  | succ n ih =>
      obtain ⟨h1, b1⟩ := readName_safe h
      obtain ⟨h2, b2, _⟩ := readU16_spec h1
      obtain ⟨h3, b3, _⟩ := readU16_spec h2
      obtain ⟨h4, b4⟩ := ih h3
      have hb : r.readName.2.readU16.2.readU16.2.buffer = r.buffer := by rw [b3, b2, b1]
      simp only [Message.readQuestions]
      split
      · exact ⟨h4, b4.trans hb⟩
      · exact ⟨h3, hb⟩

theorem readQuestions_iff (n : Nat) {r : Reader} (h : r.Safe) (questions : List Question) :
    (Message.readQuestions n r).1 = some questions ↔ QuestionsAt r.buffer n r.position questions := by
  induction n generalizing r questions with
  | zero =>
      constructor
      · intro hq
        cases hq
        exact .nil
      · intro hq
        cases hq
        rfl
  | succ n ih =>
      obtain ⟨h1, b1⟩ := readName_safe h
      obtain ⟨h2, b2, v2⟩ := readU16_spec h1
      obtain ⟨h3, b3, v3⟩ := readU16_spec h2
      have hb : r.readName.2.readU16.2.readU16.2.buffer = r.buffer := by rw [b3, b2, b1]
      constructor
      · intro hq
        simp only [Message.readQuestions] at hq
        split at hq
        next name type class_ hname htype hclass =>
          obtain ⟨labels, e, hn, rfl⟩ := (readName_iff r name).mp hname
          have hpos := readName_position hn
          obtain ⟨l2, rfl, p2⟩ := readU16_some h1 htype
          obtain ⟨l3, rfl, p3⟩ := readU16_some h2 hclass
          obtain ⟨rest, hrest, rfl⟩ := Option.map_eq_some_iff.mp hq
          have hqs := (ih h3 rest).mp hrest
          rw [hb, p3, p2, hpos] at hqs
          rw [b2, b1, p2, hpos] at l3
          rw [b1, hpos, b2, b1, p2, hpos]
          exact .cons hn l3 hqs
        next => cases hq
      · intro hq
        cases hq with
        | @cons n p e labels questions hn hl hqs =>
            have hname := (readName_iff r _).mpr ⟨labels, e, hn, rfl⟩
            have hpos := readName_position hn
            have htype := (v2 _).mpr ⟨by rw [b1, hpos]; omega, rfl⟩
            have p2 := readU16_position h1 (by rw [b1, hpos]; omega)
            have hclass := (v3 _).mpr ⟨by rw [b2, b1, p2, hpos]; omega, rfl⟩
            have p3 := readU16_position h2 (by rw [b2, b1, p2, hpos]; omega)
            have hrest := (ih h3 questions).mpr (by rw [hb, p3, p2, hpos]; exact hqs)
            simp only [Message.readQuestions, hname, htype, hclass, hrest, b1, b2, hpos, p2, Option.map_some]

theorem parseFrom_safe {r : Reader} (h : r.Safe) :
    (Message.parseFrom r).2.Safe ∧ (Message.parseFrom r).2.buffer = r.buffer := by
  obtain ⟨hs, hb⟩ := Header.parse_safe h
  unfold Message.parseFrom
  generalize Header.parse r = x at hs hb
  obtain ⟨header, r'⟩ := x
  cases header with
  | none => exact ⟨hs, hb⟩
  | some header =>
      obtain ⟨hs', hb'⟩ := readQuestions_safe header.questionCount.toNat hs
      exact ⟨hs', hb'.trans hb⟩

theorem parse_iff (d : Bytes) (m : Message) : Message.parse d = some m ↔ MessageAt d m := by
  have h0 : (Reader.mk d 0 []).Safe := .of_buffer d
  obtain ⟨hs, hb⟩ := Header.parse_safe h0
  have hlong := Header.parse_long h0 rfl rfl
  have hshort := @Header.parse_short d
  unfold Message.parse Message.parseFrom
  generalize Header.parse { buffer := d } = x at *
  obtain ⟨header, r⟩ := x
  constructor
  · intro hm
    cases header with
    | none => cases hm
    | some header =>
        have hlen := hshort rfl
        obtain ⟨hhead, hpos⟩ := hlong hlen
        cases hhead
        obtain ⟨questions, hq, rfl⟩ := Option.map_eq_some_iff.mp hm
        have hqs := (readQuestions_iff _ hs questions).mp hq
        rw [hb, hpos] at hqs
        exact ⟨hlen, rfl, hqs⟩
  · rintro ⟨hlen, hheader, hquestions⟩
    obtain ⟨hhead, hpos⟩ := hlong hlen
    cases hhead
    have hq := (readQuestions_iff (word16 d 4).toNat hs m.questions).mpr (by rw [hb, hpos]; exact hquestions)
    obtain ⟨mh, mq⟩ := m
    cases hheader
    exact Option.map_eq_some_iff.mpr ⟨mq, hq, rfl⟩

/-- `message::parse` is exact: it returns a message if and only if the datagram has a
header and the announced questions, the message is the one so read, and on every
datagram each index it reads is inside. -/
theorem parse_exact (d : Bytes) :
    (∀ m, Message.parse d = some m ↔ MessageAt d m) ∧ ∀ i ∈ Message.parseAccesses d, i < d.length := by
  refine ⟨parse_iff d, ?_⟩
  obtain ⟨hs, hb⟩ := parseFrom_safe (.of_buffer d)
  intro i hi
  have hlt := hs.touched i hi
  rwa [hb] at hlt

end CxNetworking.Dns
