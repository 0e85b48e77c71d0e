import Mathlib.Data.Nat.Bitwise
import Mathlib.Data.UInt

/-! Big-endian words as bytes, and the byte masks the label formats test.
Every fact is about the numbers the machine words denote. -/
namespace BigEndian

theorem toNat_join16 (hi lo : UInt8) :
    (hi.toUInt16 <<< 8 ||| lo.toUInt16).toNat = hi.toNat * 256 + lo.toNat := by
  have hhi := hi.toNat_lt
  have hlo := lo.toNat_lt
  simp only [UInt16.toNat_or, UInt16.toNat_shiftLeft, UInt8.toNat_toUInt16]
  rw [show (8 : UInt16).toNat % 16 = 8 from rfl, Nat.shiftLeft_eq, Nat.mod_eq_of_lt (by omega),
    ← Nat.shiftLeft_eq, ← Nat.shiftLeft_add_eq_or_of_lt (by omega), Nat.shiftLeft_eq]

theorem toNat_high16 (v : UInt16) : (v >>> 8).toUInt8.toNat = v.toNat / 256 := by
  have hv := v.toNat_lt
  simp only [UInt16.toNat_toUInt8, UInt16.toNat_shiftRight]
  rw [show (8 : UInt16).toNat % 16 = 8 from rfl, Nat.shiftRight_eq_div_pow]
  omega

theorem toNat_low16 (v : UInt16) : (v &&& 0xFF).toUInt8.toNat = v.toNat % 256 := by
  simp only [UInt16.toNat_toUInt8, UInt16.toNat_and]
  rw [show (0xFF : UInt16).toNat = 2 ^ 8 - 1 from rfl, Nat.and_two_pow_sub_one_eq_mod]
  omega

theorem join16_split (v : UInt16) :
    (v >>> 8).toUInt8.toUInt16 <<< 8 ||| (v &&& 0xFF).toUInt8.toUInt16 = v := by
  apply UInt16.toNat_inj.mp
  rw [toNat_join16, toNat_high16, toNat_low16]
  omega

def swap16 (v : UInt16) : UInt16 := (v &&& 0xFF).toUInt8.toUInt16 <<< 8 ||| (v >>> 8).toUInt8.toUInt16

theorem toNat_swap16 (v : UInt16) : (swap16 v).toNat = v.toNat % 256 * 256 + v.toNat / 256 := by
  rw [swap16, toNat_join16, toNat_low16, toNat_high16]

@[simp] theorem swap16_swap16 (v : UInt16) : swap16 (swap16 v) = v := by
  have hv := v.toNat_lt
  apply UInt16.toNat_inj.mp
  rw [toNat_swap16, toNat_swap16]
  omega

theorem toNat_push32 {v : UInt32} (b : UInt8) (hv : v.toNat < 2 ^ 24) :
    (v <<< 8 ||| b.toUInt32).toNat = v.toNat * 256 + b.toNat := by
  have hb := b.toNat_lt
  simp only [UInt32.toNat_or, UInt32.toNat_shiftLeft, UInt8.toNat_toUInt32]
  rw [show (8 : UInt32).toNat % 32 = 8 from rfl, Nat.shiftLeft_eq, Nat.mod_eq_of_lt (by omega),
    ← Nat.shiftLeft_eq, ← Nat.shiftLeft_add_eq_or_of_lt (by omega), Nat.shiftLeft_eq]

theorem toNat_join32 (b0 b1 b2 b3 : UInt8) :
    ([b0, b1, b2, b3].foldl (fun (v : UInt32) b => v <<< 8 ||| b.toUInt32) 0).toNat =
      ((b0.toNat * 256 + b1.toNat) * 256 + b2.toNat) * 256 + b3.toNat := by
  have h0 := b0.toNat_lt
  have h1 := b1.toNat_lt
  have h2 := b2.toNat_lt
  have e0 := toNat_push32 (v := 0) b0 (by decide)
  rw [show (0 : UInt32).toNat = 0 from rfl, Nat.zero_mul, Nat.zero_add] at e0
  have e1 := toNat_push32 b1 (e0 ▸ (by omega : b0.toNat < 2 ^ 24))
  rw [e0] at e1
  have e2 := toNat_push32 b2 (e1 ▸ (by omega : b0.toNat * 256 + b1.toNat < 2 ^ 24))
  rw [e1] at e2
  have e3 := toNat_push32 b3 (e2 ▸ (by omega : (b0.toNat * 256 + b1.toNat) * 256 + b2.toNat < 2 ^ 24))
  rw [e2] at e3
  exact e3

theorem toNat_byte32 (v : UInt32) (k : Nat) (hk : k < 32) :
    (v >>> UInt32.ofNat k).toUInt8.toNat = v.toNat / 2 ^ k % 256 := by
  simp only [UInt32.toNat_toUInt8, UInt32.toNat_shiftRight]
  rw [UInt32.toNat_ofNat_of_lt' (by simp only [UInt32.size]; omega), Nat.mod_eq_of_lt hk,
    Nat.shiftRight_eq_div_pow]

theorem toNat_low32 (v : UInt32) : (v &&& 0xFF).toUInt8.toNat = v.toNat % 256 := by
  simp only [UInt32.toNat_toUInt8, UInt32.toNat_and]
  rw [show (0xFF : UInt32).toNat = 2 ^ 8 - 1 from rfl, Nat.and_two_pow_sub_one_eq_mod]
  omega

theorem join32_split (v : UInt32) :
    [(v >>> 24).toUInt8, (v >>> 16).toUInt8, (v >>> 8).toUInt8, (v &&& 0xFF).toUInt8].foldl
      (fun (w : UInt32) b => w <<< 8 ||| b.toUInt32) 0 = v := by
  have hv := v.toNat_lt
  have h24 := toNat_byte32 v 24 (by decide)
  have h16 := toNat_byte32 v 16 (by decide)
  have h8 := toNat_byte32 v 8 (by decide)
  apply UInt32.toNat_inj.mp
  rw [toNat_join32, toNat_low32]
  simp only [show UInt32.ofNat 24 = 24 from rfl, show UInt32.ofNat 16 = 16 from rfl,
    show UInt32.ofNat 8 = 8 from rfl] at h24 h16 h8
  rw [h24, h16, h8]
  omega

/-- The two top bits are set exactly from 192 on. -/
theorem top_bits_eq_iff (b : UInt8) : b &&& 0xC0 = 0xC0 ↔ 192 ≤ b.toNat := by
  rw [← UInt8.toNat_inj, UInt8.toNat_and]
  have hb := b.toNat_lt
  generalize b.toNat = n at hb ⊢
  revert n
  decide +kernel

/-- The two top bits are clear exactly below 64. -/
theorem top_bits_zero_iff (b : UInt8) : b &&& 0xC0 = 0 ↔ b.toNat < 64 := by
  rw [← UInt8.toNat_inj, UInt8.toNat_and]
  have hb := b.toNat_lt
  generalize b.toNat = n at hb ⊢
  revert n
  decide +kernel

/-- A pointer's 14-bit offset, as the number its two bytes denote. -/
theorem join14 (hi lo : UInt8) :
    ((hi &&& 0x3F).toNat <<< 8) ||| lo.toNat = hi.toNat % 64 * 256 + lo.toNat := by
  have hlo := lo.toNat_lt
  rw [UInt8.toNat_and, show (0x3F : UInt8).toNat = 2 ^ 6 - 1 from rfl, Nat.and_two_pow_sub_one_eq_mod,
    ← Nat.shiftLeft_add_eq_or_of_lt (by omega), Nat.shiftLeft_eq]

end BigEndian
