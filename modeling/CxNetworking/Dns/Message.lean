import CxNetworking.Dns.Reader
import CxNetworking.Dns.Writer

/-! `dns::header` and `dns::message`: the fixed header, the question section, and
their wire forms. Resource records are neither read nor written by the source. -/
namespace CxNetworking.Dns

/-- `dns::opcode`, an enumeration over `std::uint8_t`: any byte is a value. -/
@[ext] structure Opcode where
  value : UInt8
  deriving DecidableEq, Repr

def Opcode.query : Opcode := ⟨0⟩

/-- `dns::rcode`, likewise open to every byte. -/
@[ext] structure Rcode where
  value : UInt8
  deriving DecidableEq, Repr

def Rcode.noError : Rcode := ⟨0⟩

@[ext] structure Header where
  id : UInt16 := 0
  response : Bool := false
  opcode : Opcode := .query
  authoritative : Bool := false
  truncated : Bool := false
  recursionDesired : Bool := false
  recursionAvailable : Bool := false
  rcode : Rcode := .noError
  questionCount : UInt16 := 0
  answerCount : UInt16 := 0
  authorityCount : UInt16 := 0
  additionalCount : UInt16 := 0
  deriving DecidableEq, Repr

/-- `record_type::a` and `record_class::in`, the defaults of a question. -/
def RecordType.a : UInt16 := 1
def RecordClass.internet : UInt16 := 1

structure Question where
  name : Bytes
  type : UInt16 := RecordType.a
  class_ : UInt16 := RecordClass.internet
  deriving DecidableEq, Repr

structure Message where
  header : Header := {}
  questions : List Question := []
  deriving DecidableEq, Repr

namespace Header

def unpackFlags (h : Header) (flags : UInt16) : Header :=
  { h with
    response := (flags >>> 15) &&& 0x1 != 0
    opcode := ⟨((flags >>> 11) &&& 0xF).toUInt8⟩
    authoritative := (flags >>> 10) &&& 0x1 != 0
    truncated := (flags >>> 9) &&& 0x1 != 0
    recursionDesired := (flags >>> 8) &&& 0x1 != 0
    recursionAvailable := (flags >>> 7) &&& 0x1 != 0
    rcode := ⟨(flags &&& 0xF).toUInt8⟩ }

/-- `n` words read one after the other, whether or not an earlier one was there. -/
def readWords : Nat → Reader → List (Option UInt16) × Reader
  | 0, r => ([], r)
  | n + 1, r =>
      let (word, r) := r.readU16
      let (words, r) := readWords n r
      (word :: words, r)

/-- All six words are read before any of them is tested. -/
def parse (r : Reader) : Option Header × Reader :=
  match readWords 6 r with
  | ([some id, some flags, some qd, some an, some ns, some ar], r) =>
      (some (({ id, questionCount := qd, answerCount := an, authorityCount := ns,
                additionalCount := ar } : Header).unpackFlags flags), r)
  | (_, r) => (none, r)

def packFlags (h : Header) : UInt16 :=
  (0 : UInt16) ||| h.response.toUInt16 <<< 15
    ||| (h.opcode.value.toUInt16 &&& 0xF) <<< 11
    ||| h.authoritative.toUInt16 <<< 10
    ||| h.truncated.toUInt16 <<< 9
    ||| h.recursionDesired.toUInt16 <<< 8
    ||| h.recursionAvailable.toUInt16 <<< 7
    ||| (h.rcode.value.toUInt16 &&& 0xF)

def write (h : Header) (w : Writer) : Writer :=
  (((((w.writeU16 h.id).writeU16 h.packFlags).writeU16 h.questionCount).writeU16
    h.answerCount).writeU16 h.authorityCount).writeU16 h.additionalCount

/-- The header with its four section counts cleared. -/
def uncounted (h : Header) : Header :=
  { h with questionCount := 0, answerCount := 0, authorityCount := 0, additionalCount := 0 }

end Header

namespace Message

/-- The question loop of `message::parse`. The type and the class are read even when
the name was not. -/
def readQuestions : Nat → Reader → Option (List Question) × Reader
  | 0, r => (some [], r)
  | n + 1, r =>
      let (name, r) := r.readName
      let (type, r) := r.readU16
      let (class_, r) := r.readU16
      match name, type, class_ with
      | some name, some type, some class_ =>
          let (rest, r) := readQuestions n r
          (rest.map ({ name, type, class_ } :: ·), r)
      | _, _, _ => (none, r)

/-- `message::parse` with the reader it leaves behind, which names every byte read. -/
def parseFrom (r : Reader) : Option Message × Reader :=
  match Header.parse r with
  | (none, r) => (none, r)
  | (some header, r) =>
      let (questions, r) := readQuestions header.questionCount.toNat r
      (questions.map ({ header, questions := · }), r)

def parse (datagram : Bytes) : Option Message := (parseFrom { buffer := datagram }).1

/-- The indices at which `message::parse` evaluates `buffer_[i]`. -/
def parseAccesses (datagram : Bytes) : List Nat := (parseFrom { buffer := datagram }).2.accessed

def writeQuestions : List Question → Writer → Option Writer
  | [], w => some w
  | q :: qs, w =>
      match w.writeName q.name with
      | (false, _) => none
      | (true, w) => writeQuestions qs ((w.writeU16 q.type).writeU16 q.class_)

/-- The count is the vector's size narrowed to 16 bits. -/
def serialize (m : Message) : Option Bytes :=
  let header := { m.header with questionCount := UInt16.ofNat m.questions.length }
  (writeQuestions m.questions (header.write {})).map (·.buffer)

/-- `operator==`: the counts, which `serialize` derives, are left out. -/
def equal (a b : Message) : Bool := a.header.uncounted == b.header.uncounted && a.questions == b.questions

end Message
end CxNetworking.Dns
