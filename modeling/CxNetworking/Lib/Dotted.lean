import Mathlib.Data.List.Basic

/-! Bytes as decimal numbers with a '.' between them. A number is read only in the form in
which it is written, without leading zeros. -/
namespace Dotted

def octet (b : UInt8) : List Char := Nat.toDigits 10 b.toNat

def format (bs : List UInt8) : List Char := ['.'].intercalate (bs.map octet)

def readOctet (cs : List Char) : Option UInt8 :=
  let v := Nat.ofDigitChars 10 cs 0
  if v < 256 ∧ Nat.toDigits 10 v = cs then some (UInt8.ofNat v) else none

def parse (cs : List Char) : Option (List UInt8) := (cs.splitOn '.').mapM readOctet

theorem readOctet_octet (b : UInt8) : readOctet (octet b) = some b := by
  have hb := b.toNat_lt
  simp [readOctet, octet, hb]

theorem dot_not_mem_octet (b : UInt8) : '.' ∉ octet b := by
  intro hmem
  have hdigit := Nat.isDigit_of_mem_toDigits (by decide) (by decide) hmem
  revert hdigit
  decide

theorem mapM_readOctet (bs : List UInt8) : (bs.map octet).mapM readOctet = some bs := by
  induction bs with
  | nil => rfl
  | cons b bs ih => simp [readOctet_octet, ih]

theorem parse_format {bs : List UInt8} (h : bs ≠ []) : parse (format bs) = some bs := by
  have hdots : ∀ l ∈ bs.map octet, '.' ∉ l := by
    intro l hl
    obtain ⟨b, -, rfl⟩ := List.mem_map.mp hl
    exact dot_not_mem_octet b
  rw [parse, format, List.splitOn_intercalate '.' hdots (by simpa using h)]
  exact mapM_readOctet bs

example : parse "127.0.0.1".toList = some [127, 0, 0, 1] := by decide +kernel

end Dotted
