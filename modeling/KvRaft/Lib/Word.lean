import Mathlib.Order.Defs.LinearOrder
import Mathlib.Tactic

/-! # 64-bit words

Unsigned words in their linear order and the signed words that they are cast to. -/

instance UInt64.instLinearOrder : LinearOrder UInt64 where
  le_refl := UInt64.le_refl
  le_trans _ _ _ := UInt64.le_trans
  le_antisymm _ _ := UInt64.le_antisymm
  le_total := UInt64.le_total
  lt_iff_le_not_ge a b := by
    rw [UInt64.lt_iff_toNat_lt, UInt64.le_iff_toNat_le, UInt64.le_iff_toNat_le]
    omega
  toDecidableLE := inferInstance
  toDecidableEq := inferInstance
  min := min
  max := max

namespace UInt64

theorem toNat_add_one {a : UInt64} (h : a.toNat + 1 < 2 ^ 64) : (a + 1).toNat = a.toNat + 1 := by
  rw [UInt64.toNat_add]
  exact Nat.mod_eq_of_lt h

theorem toNat_ofNat_lt {n : Nat} (h : n < 2 ^ 64) : (UInt64.ofNat n).toNat = n :=
  UInt64.toNat_ofNat_of_lt' h

/-- `as i64`. -/
def signed (a : UInt64) : Int := a.toInt64.toInt

/-- `as u64`, of the number that a signed word denotes. -/
def ofSigned (i : Int) : UInt64 := (Int64.ofInt i).toUInt64

theorem ofSigned_signed (a : UInt64) : ofSigned a.signed = a := by
  rw [ofSigned, signed, Int64.ofInt_toInt, UInt64.toUInt64_toInt64]

theorem signed_inj {a b : UInt64} : a.signed = b.signed ↔ a = b :=
  ⟨fun h => by rw [← ofSigned_signed a, h, ofSigned_signed], fun h => h ▸ rfl⟩

theorem signed_of_lt {a : UInt64} (h : a.toNat < 2 ^ 63) : a.signed = a.toNat := by
  show a.toBitVec.toInt = _
  rw [BitVec.toInt_eq_toNat_of_lt (by simpa using (by omega : 2 * a.toNat < 2 ^ 64))]
  rfl

end UInt64
