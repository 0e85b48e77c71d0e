import CxNetworking.Core.SocketOps
import CxNetworking.Lib.BigEndian

/-! The bounds-checked cursor `dns::wire::reader` over a datagram. Every evaluation
of `buffer_[i]` goes through `byteAt`, which also records `i`, so the indices a
call touches are part of its result. A byte outside the buffer reads as zero here
but stays recorded. -/
namespace CxNetworking.Dns

structure Reader where
  buffer : Bytes
  position : Nat := 0
  accessed : List Nat := []

namespace Reader

/-- `buffer_.size() - position_` in `size_t`: a cursor past the end wraps. -/
def remaining (r : Reader) : Nat :=
  if r.position ≤ r.buffer.length then r.buffer.length - r.position
  else 2 ^ 64 + r.buffer.length - r.position

def atEnd (r : Reader) : Bool := r.buffer.length ≤ r.position

def seek (r : Reader) (position : Nat) : Reader := { r with position }

/-- `position_ + k` in `size_t`. A buffer is shorter than the address space, so only
a cursor already past the end can wrap. -/
def offset (r : Reader) (k : Nat) : Nat :=
  if r.position ≤ r.buffer.length then r.position + k else (r.position + k) % 2 ^ 64

def byteAt (r : Reader) (i : Nat) : UInt8 × Reader :=
  (r.buffer.getD i 0, { r with accessed := i :: r.accessed })

def advance (r : Reader) (k : Nat) : Reader := { r with position := r.offset k }

def readU8 (r : Reader) : Option UInt8 × Reader :=
  if r.remaining < 1 then (none, r)
  else
    let (b, r) := r.byteAt r.position
    (some b, r.advance 1)

def readU16 (r : Reader) : Option UInt16 × Reader :=
  if r.remaining < 2 then (none, r)
  else
    let (hi, r) := r.byteAt r.position
    let (lo, r) := r.byteAt (r.offset 1)
    (some (hi.toUInt16 <<< 8 ||| lo.toUInt16), r.advance 2)

def readU32 (r : Reader) : Option UInt32 × Reader :=
  if r.remaining < 4 then (none, r)
  else
    let (b0, r) := r.byteAt r.position
    let (b1, r) := r.byteAt (r.offset 1)
    let (b2, r) := r.byteAt (r.offset 2)
    let (b3, r) := r.byteAt (r.offset 3)
    let value := [b0, b1, b2, b3].foldl (fun (v : UInt32) b => v <<< 8 ||| b.toUInt32) 0
    (some value, r.advance 4)

def bytesAt (r : Reader) (start : Nat) : Nat → Bytes × Reader
  | 0 => ([], r)
  | n + 1 =>
      let (b, r) := r.byteAt start
      let (bs, r) := bytesAt r (start + 1) n
      (b :: bs, r)

def readBytes (r : Reader) (count : Nat) : Option Bytes × Reader :=
  if r.remaining < count then (none, r)
  else
    let (slice, s) := r.bytesAt r.position count
    (some slice, s.advance count)

def dot : UInt8 := 0x2E

def appendLabel (name label : Bytes) : Bytes :=
  if name = [] then label else name ++ dot :: label

/-- The loop of `read_name`. The first argument is `safety`, the number of
iterations still allowed. -/
def readNameLoop : Nat → Reader → Nat → Bool → Bytes → Option Bytes × Reader
  | 0, r, _, _, _ => (none, r)
  | safety + 1, r, cursor, jumped, name =>
      if r.buffer.length ≤ cursor then (none, r)
      else
        let (length, r) := r.byteAt cursor
        if length &&& 0xC0 = 0xC0 then
          if r.buffer.length ≤ cursor + 1 then (none, r)
          else
            let (low, r) := r.byteAt (cursor + 1)
            let target := ((length &&& 0x3F).toNat <<< 8) ||| low.toNat
            let r := if jumped then r else r.seek (cursor + 2)
            readNameLoop safety r target true name
        else if length &&& 0xC0 ≠ 0 then (none, r)
        else if length = 0 then
          (some name, if jumped then r else r.seek (cursor + 1))
        else if r.buffer.length < cursor + 1 + length.toNat then (none, r)
        else
          let (label, r) := r.bytesAt (cursor + 1) length.toNat
          readNameLoop safety r (cursor + 1 + length.toNat) jumped (appendLabel name label)

def readName (r : Reader) : Option Bytes × Reader :=
  readNameLoop r.buffer.length r r.position false []

def touch (r : Reader) (l : List Nat) : Reader := { r with accessed := l ++ r.accessed }

@[simp] theorem touch_buffer (r : Reader) (l : List Nat) : (r.touch l).buffer = r.buffer := rfl
@[simp] theorem touch_position (r : Reader) (l : List Nat) : (r.touch l).position = r.position := rfl

theorem byteAt_eq (r : Reader) (i : Nat) : r.byteAt i = (r.buffer.getD i 0, r.touch [i]) := rfl

theorem bytesAt_eq (r : Reader) (start n : Nat) :
    r.bytesAt start n =
      ((List.range' start n).map (r.buffer.getD · 0), r.touch (List.range' start n).reverse) := by
  induction n generalizing r start with
  | zero => rfl
  | succ n ih =>
      simp only [bytesAt, byteAt_eq, ih, touch_buffer, List.range'_succ, List.map_cons, List.reverse_cons]
      simp only [touch, List.append_assoc]

theorem getElem?_eq_getD {d : Bytes} {i : Nat} (h : i < d.length) : d[i]? = some (d.getD i 0) := by
  rw [List.getD_eq_getElem?_getD, List.getElem?_eq_getElem h, Option.getD_some]

theorem range'_map_getD {d : Bytes} {start n : Nat} (h : start + n ≤ d.length) :
    (List.range' start n).map (d.getD · 0) = (d.drop start).take n := by
  apply List.ext_getElem
  · simp; omega
  · intro i h₁ h₂
    simp only [List.length_map, List.length_range'] at h₁
    simp only [List.getElem_map, List.getElem_range', List.getElem_take, List.getElem_drop, one_mul]
    rw [List.getD_eq_getElem?_getD, List.getElem?_eq_getElem (by omega), Option.getD_some]

/-- The cursor lies in the buffer and so does every byte read so far. -/
structure Safe (r : Reader) : Prop where
  cursor : r.position ≤ r.buffer.length
  touched : ∀ i ∈ r.accessed, i < r.buffer.length

theorem Safe.touch {r : Reader} (h : r.Safe) {l : List Nat} (hl : ∀ i ∈ l, i < r.buffer.length) :
    (r.touch l).Safe := by
  refine ⟨h.cursor, ?_⟩
  intro i hi
  rcases List.mem_append.mp hi with hi | hi
  · exact hl i hi
  · exact h.touched i hi

theorem Safe.seek {r : Reader} (h : r.Safe) {p : Nat} (hp : p ≤ r.buffer.length) : (r.seek p).Safe :=
  ⟨hp, h.touched⟩

theorem Safe.of_buffer (d : Bytes) : (Reader.mk d 0 []).Safe :=
  ⟨Nat.zero_le _, fun _ hi => absurd hi List.not_mem_nil⟩

/-- The two bytes at `i` as a big-endian number. -/
def word16 (d : Bytes) (i : Nat) : UInt16 :=
  UInt16.ofNat ((d.getD i 0).toNat * 256 + (d.getD (i + 1) 0).toNat)

theorem join_eq_word16 (d : Bytes) (i : Nat) :
    (d.getD i 0).toUInt16 <<< 8 ||| (d.getD (i + 1) 0).toUInt16 = word16 d i := by
  have hhi := (d.getD i 0).toNat_lt
  have hlo := (d.getD (i + 1) 0).toNat_lt
  apply UInt16.toNat_inj.mp
  rw [BigEndian.toNat_join16, word16, UInt16.toNat_ofNat_of_lt']
  simp only [UInt16.size]
  omega

def word32 (d : Bytes) (i : Nat) : UInt32 :=
  [d.getD i 0, d.getD (i + 1) 0, d.getD (i + 2) 0, d.getD (i + 3) 0].foldl
    (fun (v : UInt32) b => v <<< 8 ||| b.toUInt32) 0

/-- What a read of `n` bytes does: it takes them and returns `v`, or there are fewer, and
it returns nothing and leaves the reader alone. -/
structure Takes {α : Type} (r : Reader) (n : Nat) (v : α) (out : Option α × Reader) : Prop where
  short : r.buffer.length < r.position + n → out = (none, r)
  long : r.position + n ≤ r.buffer.length →
    ∃ l : List Nat, (∀ i ∈ l, i < r.buffer.length) ∧ out = (some v, (r.touch l).seek (r.position + n))

section Takes

variable {α : Type} {r : Reader} {n : Nat} {v : α} {out : Option α × Reader}

/-- One contract for both outcomes: the reader stays safe on the same buffer, and a value
means that the bytes were there. -/
theorem Takes.spec (h : r.Safe) (ht : Takes r n v out) :
    out.2.Safe ∧ out.2.buffer = r.buffer ∧ ∀ w, out.1 = some w ↔ r.position + n ≤ r.buffer.length ∧ w = v := by
  by_cases hl : r.position + n ≤ r.buffer.length
  · obtain ⟨l, hin, rfl⟩ := ht.long hl
    refine ⟨(h.touch hin).seek hl, rfl, ?_⟩
    intro w
    simp [hl, eq_comm]
  · rw [ht.short (Nat.lt_of_not_le hl)]
    refine ⟨h, rfl, ?_⟩
    intro w
    simp [hl]

theorem Takes.position (ht : Takes r n v out) (hl : r.position + n ≤ r.buffer.length) :
    out.2.position = r.position + n := by
  obtain ⟨l, -, rfl⟩ := ht.long hl
  rfl

end Takes

/-- The test of every read of `n` bytes. -/
theorem remaining_lt_iff {r : Reader} (h : r.Safe) (n : Nat) :
    r.remaining < n ↔ r.buffer.length < r.position + n := by
  have hc := h.cursor
  rw [remaining, if_pos hc]
  omega

theorem readU8_takes {r : Reader} (h : r.Safe) : Takes r 1 (r.buffer.getD r.position 0) r.readU8 := by
  refine ⟨fun hs => ?_, fun hl => ⟨[r.position], by simp; omega, ?_⟩⟩
  · rw [readU8, if_pos ((remaining_lt_iff h 1).mpr hs)]
  · rw [readU8, if_neg (by rw [remaining_lt_iff h]; omega)]
    simp only [byteAt_eq, advance, offset, touch_position, touch_buffer, h.cursor, ↓reduceIte]
    rfl

theorem readU16_takes {r : Reader} (h : r.Safe) : Takes r 2 (word16 r.buffer r.position) r.readU16 := by
  refine ⟨fun hs => ?_, fun hl => ⟨[r.position + 1, r.position], by simp; omega, ?_⟩⟩
  · rw [readU16, if_pos ((remaining_lt_iff h 2).mpr hs)]
  · rw [readU16, if_neg (by rw [remaining_lt_iff h]; omega)]
    simp only [byteAt_eq, touch_buffer, touch_position, offset, h.cursor, ↓reduceIte, advance, join_eq_word16]
    rfl

theorem readU32_takes {r : Reader} (h : r.Safe) : Takes r 4 (word32 r.buffer r.position) r.readU32 := by
  refine ⟨fun hs => ?_, fun hl =>
    ⟨[r.position + 3, r.position + 2, r.position + 1, r.position], by simp; omega, ?_⟩⟩
  · rw [readU32, if_pos ((remaining_lt_iff h 4).mpr hs)]
  · rw [readU32, if_neg (by rw [remaining_lt_iff h]; omega)]
    simp only [byteAt_eq, touch_buffer, touch_position, offset, h.cursor, ↓reduceIte, advance]
    rfl

theorem readBytes_takes {r : Reader} (h : r.Safe) (n : Nat) :
    Takes r n ((r.buffer.drop r.position).take n) (r.readBytes n) := by
  refine ⟨fun hs => ?_, fun hl => ⟨(List.range' r.position n).reverse, ?_, ?_⟩⟩
  · rw [readBytes, if_pos ((remaining_lt_iff h n).mpr hs)]
  · intro i hi
    have := List.mem_range'_1.mp (List.mem_reverse.mp hi)
    omega
  · rw [readBytes, if_neg (by rw [remaining_lt_iff h]; omega)]
    simp only [bytesAt_eq, range'_map_getD hl, advance, offset, touch_position, touch_buffer, h.cursor, ↓reduceIte]
    rfl

theorem readU16_spec {r : Reader} (h : r.Safe) :
    (r.readU16).2.Safe ∧ (r.readU16).2.buffer = r.buffer ∧
      ∀ v, (r.readU16).1 = some v ↔ r.position + 2 ≤ r.buffer.length ∧ v = word16 r.buffer r.position :=
  (readU16_takes h).spec h

theorem readU16_position {r : Reader} (h : r.Safe) (hl : r.position + 2 ≤ r.buffer.length) :
    (r.readU16).2.position = r.position + 2 :=
  (readU16_takes h).position hl

end Reader
end CxNetworking.Dns
