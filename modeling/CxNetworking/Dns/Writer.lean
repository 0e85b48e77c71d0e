import CxNetworking.Dns.Reader

/-! The appending writer `dns::wire::writer`. Names are written uncompressed; a
rejected name leaves the labels already emitted in the buffer. -/
namespace CxNetworking.Dns

structure Writer where
  buffer : Bytes := []

def findFrom (s : Bytes) (c : UInt8) (start : Nat) : Option Nat :=
  ((s.drop start).findIdx? (· == c)).map (start + ·)

theorem findFrom_bounds {s : Bytes} {c : UInt8} {start i : Nat} (h : findFrom s c start = some i) :
    start ≤ i ∧ i < s.length := by
  obtain ⟨j, hj, rfl⟩ := Option.map_eq_some_iff.mp h
  have hlt := (List.findIdx?_eq_some_iff_getElem.mp hj).1
  rw [List.length_drop] at hlt
  omega

namespace Writer

def writeU8 (w : Writer) (value : UInt8) : Writer := { w with buffer := w.buffer ++ [value] }

def writeU16 (w : Writer) (value : UInt16) : Writer :=
  (w.writeU8 (value >>> 8).toUInt8).writeU8 (value &&& 0xFF).toUInt8

def writeU32 (w : Writer) (value : UInt32) : Writer :=
  (((w.writeU8 (value >>> 24).toUInt8).writeU8 (value >>> 16).toUInt8).writeU8
    (value >>> 8).toUInt8).writeU8 (value &&& 0xFF).toUInt8

def writeBytes (w : Writer) (data : Bytes) : Writer := { w with buffer := w.buffer ++ data }

def writeLabel (w : Writer) (name : Bytes) (start «end» : Nat) : Writer :=
  ((name.drop start).take («end» - start)).foldl writeU8 (w.writeU8 (UInt8.ofNat («end» - start)))

def writeNameLoop (w : Writer) (name : Bytes) (start : Nat) : Bool × Writer :=
  if start < name.length then
    match h : findFrom name Reader.dot start with
    | none =>
        if name.length - start = 0 ∨ 63 < name.length - start then (false, w)
        else (true, (w.writeLabel name start name.length).writeU8 0)
    | some dot =>
        if dot - start = 0 ∨ 63 < dot - start then (false, w)
        else writeNameLoop (w.writeLabel name start dot) name (dot + 1)
  else (true, w.writeU8 0)
termination_by name.length - start
decreasing_by
  have := findFrom_bounds h
  omega

def writeName (w : Writer) (name : Bytes) : Bool × Writer := w.writeNameLoop name 0

end Writer
end CxNetworking.Dns
