import CxNetworking.Dns.NameGrammar
import CxNetworking.Lib.Execution

/-! Any sequence of the reader's public calls. Every read trusts that the cursor lies in
the buffer, where `remaining` does not wrap; the reads keep it there, `seek` does not
look. -/
namespace CxNetworking.Dns
open Reader Execution

inductive ReaderCall where
  | readU8
  | readU16
  | readU32
  | readBytes (count : Nat)
  | readName
  | seek (position : Nat)
  deriving DecidableEq, Repr

inductive Value where
  | u8 (v : UInt8)
  | u16 (v : UInt16)
  | u32 (v : UInt32)
  | bytes (data : Bytes)
  | name (name : Bytes)
  deriving DecidableEq, Repr

namespace Reader

def call (r : Reader) : ReaderCall → Option Value × Reader
  | .readU8 => (r.readU8.1.map .u8, r.readU8.2)
  | .readU16 => (r.readU16.1.map .u16, r.readU16.2)
  | .readU32 => (r.readU32.1.map .u32, r.readU32.2)
  | .readBytes count => ((r.readBytes count).1.map .bytes, (r.readBytes count).2)
  | .readName => (r.readName.1.map .name, r.readName.2)
  | .seek position => (none, r.seek position)

def step (r : Reader) (c : ReaderCall) : Option Reader := some (r.call c).2

/-- The bytes that a read needs lie between the cursor and the end: so many, or a name. -/
def Available (r : Reader) : ReaderCall → Prop
  | .readU8 => r.position + 1 ≤ r.buffer.length
  | .readU16 => r.position + 2 ≤ r.buffer.length
  | .readU32 => r.position + 4 ≤ r.buffer.length
  | .readBytes count => r.position + count ≤ r.buffer.length
  | .readName => ∃ labels e, NameAt r.buffer r.position labels e ∧ e ≤ r.buffer.length
  | .seek _ => True

def SeeksInside (r : Reader) : ReaderCall → Prop
  | .seek position => position ≤ r.buffer.length
  | .readU8 | .readU16 | .readU32 | .readBytes _ | .readName => True

instance (r : Reader) (c : ReaderCall) : Decidable (r.SeeksInside c) :=
  match c with
  | .seek _ => inferInstanceAs (Decidable (_ ≤ _))
  | .readU8 | .readU16 | .readU32 | .readBytes _ | .readName => isTrue trivial

theorem call_safe {r : Reader} (h : r.Safe) {c : ReaderCall} (hok : r.SeeksInside c) :
    (r.call c).2.Safe ∧ (r.call c).2.buffer = r.buffer := by
  cases c with
  | readU8 => exact ⟨((readU8_takes h).spec h).1, ((readU8_takes h).spec h).2.1⟩
  | readU16 => exact ⟨((readU16_takes h).spec h).1, ((readU16_takes h).spec h).2.1⟩
  | readU32 => exact ⟨((readU32_takes h).spec h).1, ((readU32_takes h).spec h).2.1⟩
  | readBytes count => exact ⟨((readBytes_takes h count).spec h).1, ((readBytes_takes h count).spec h).2.1⟩
  | readName => exact readName_safe h
  | seek position => exact ⟨h.seek hok, rfl⟩

theorem call_none {r : Reader} (h : r.Safe) {c : ReaderCall} (hlack : ¬ r.Available c) : (r.call c).1 = none := by
  cases c with
  | readU8 => simp only [call, (readU8_takes h).short (Nat.lt_of_not_le hlack), Option.map_none]
  | readU16 => simp only [call, (readU16_takes h).short (Nat.lt_of_not_le hlack), Option.map_none]
  | readU32 => simp only [call, (readU32_takes h).short (Nat.lt_of_not_le hlack), Option.map_none]
  | readBytes count => simp only [call, (readBytes_takes h count).short (Nat.lt_of_not_le hlack), Option.map_none]
  | readName =>
      refine Option.map_eq_none_iff.mpr (Option.eq_none_iff_forall_ne_some.mpr fun name hname => hlack ?_)
      obtain ⟨labels, e, hn, -⟩ := (readName_iff r name).mp hname
      exact ⟨labels, e, hn, hn.end_le⟩
  | seek position => exact (hlack trivial).elim

/-- In every sequence of calls in which `seek` stays inside the buffer, no byte outside it
is ever read, and a read that lacks bytes returns nothing. -/
theorem calls_safe (d : Bytes) {cs : List ReaderCall} (hok : Along step SeeksInside { buffer := d } cs) :
    Throughout step (fun r => (∀ i ∈ r.accessed, i < d.length) ∧ ∀ c, ¬ r.Available c → (r.call c).1 = none)
      { buffer := d } cs := by
  have hstart : ({ buffer := d } : Reader).Safe ∧ ({ buffer := d } : Reader).buffer = d := ⟨.of_buffer d, rfl⟩
  refine (throughout_of_along (I := fun r => r.Safe ∧ r.buffer = d) ?_ hstart hok).mono ?_
  · rintro r c _ ⟨h, hbuf⟩ hc ⟨⟩
    obtain ⟨hsafe, hsame⟩ := call_safe h hc
    exact ⟨hsafe, hsame.trans hbuf⟩
  · rintro r ⟨h, rfl⟩
    exact ⟨h.touched, fun c => call_none h⟩

theorem mixedCalls_safe :
    Along step SeeksInside { buffer := [0, 7, 1, 97, 0] } [.readU16, .readName, .seek 5, .readU8, .seek 1] ∧
      Throughout step (fun r => (∀ i ∈ r.accessed, i < [0, 7, 1, 97, 0].length) ∧
        ∀ c, ¬ r.Available c → (r.call c).1 = none)
        { buffer := [0, 7, 1, 97, 0] } [.readU16, .readName, .seek 5, .readU8, .seek 1] :=
  have hinside : Along step SeeksInside { buffer := [0, 7, 1, 97, 0] }
      [.readU16, .readName, .seek 5, .readU8, .seek 1] := by decide
  ⟨hinside, calls_safe _ hinside⟩

/-- Behind the end `remaining` wraps to nearly 2^64: the byte at index 4 of a buffer of one
byte is read. -/
theorem seekBehind_unsafe :
    ∃ r v, run step { buffer := [7] } [.seek 4, .readU8] = some r ∧ 4 ∈ r.accessed ∧ [7].length ≤ 4 ∧
      ¬ (Reader.seek { buffer := [7] } 4).Available .readU8 ∧
      ((Reader.seek { buffer := [7] } 4).call .readU8).1 = some v :=
  ⟨_, .u8 0, rfl, by decide, by decide, by simp [Available, Reader.seek], rfl⟩

end Reader
end CxNetworking.Dns
