import Mathlib

namespace Binary64

def magnitude (b : UInt64) : Nat := b.toNat % 2 ^ 63

def negative (b : UInt64) : Bool := b >>> 63 == 1

def rank (b : UInt64) : Int := if negative b then -magnitude b else magnitude b

def infinite : Nat := 0x7FF0000000000000

def Nan (b : UInt64) : Prop := infinite < magnitude b

def Finite (b : UInt64) : Prop := magnitude b < infinite

-- The order of the standard: no NaN compares, and the two zeros are equal.
structure Le (a b : UInt64) : Prop where
  left : ¬ Nan a
  right : ¬ Nan b
  rank : rank a ≤ rank b

def posZero : UInt64 := 0
def negZero : UInt64 := 0x8000000000000000

def code (b : UInt64) : UInt64 := if negative b then ~~~b else b ^^^ ((1 : UInt64) <<< 63)

theorem negative_iff (b : UInt64) : negative b = true ↔ 2 ^ 63 ≤ b.toNat := by
  have hlt := b.toNat_lt
  have h63 : (63 : UInt64).toNat % 64 = 63 := rfl
  have h1 : (1 : UInt64).toNat = 1 := rfl
  rw [negative, beq_iff_eq, ← UInt64.toNat_inj, UInt64.toNat_shiftRight, h63, h1, Nat.shiftRight_eq_div_pow]
  omega

theorem toNat_eq (b : UInt64) : b.toNat = if negative b then 2 ^ 63 + magnitude b else magnitude b := by
  have hlt := b.toNat_lt
  rw [magnitude]
  split
  · next h =>
    rw [negative_iff] at h
    omega
  · next h =>
    rw [negative_iff] at h
    omega

theorem magnitude_lt (b : UInt64) : magnitude b < 2 ^ 63 := Nat.mod_lt _ (by norm_num)

theorem toNat_code (b : UInt64) :
    (code b).toNat = if negative b then 2 ^ 63 - 1 - magnitude b else 2 ^ 63 + magnitude b := by
  have hm := magnitude_lt b
  have hb := toNat_eq b
  rw [code]
  split
  · next h =>
    rw [if_pos h] at hb
    rw [UInt64.toNat_not, UInt64.size, hb]
    omega
  · next h =>
    rw [if_neg h] at hb
    have hbit : ((1 : UInt64) <<< 63).toNat = 2 ^ 63 := rfl
    have hlow := Nat.xor_mod_two_pow (a := b.toNat) (b := 2 ^ 63) (n := 63)
    have hhigh := Nat.xor_div_two_pow (a := b.toNat) (b := 2 ^ 63) (n := 63)
    have hdiv : b.toNat / 2 ^ 63 = 0 := by omega
    rw [Nat.mod_self, Nat.xor_zero] at hlow
    rw [Nat.div_self (by norm_num), hdiv, Nat.zero_xor] at hhigh
    rw [UInt64.toNat_xor, hbit]
    omega

theorem code_le (a b : UInt64) : code a ≤ code b ↔ rank a ≤ rank b ∧ ¬ (a = posZero ∧ b = negZero) := by
  have ha := toNat_eq a
  have hb := toNat_eq b
  have hca := toNat_code a
  have hcb := toNat_code b
  have hma := magnitude_lt a
  have hmb := magnitude_lt b
  have h0 : posZero.toNat = 0 := rfl
  have h1 : negZero.toNat = 2 ^ 63 := rfl
  rw [UInt64.le_iff_toNat_le, ← UInt64.toNat_inj, ← UInt64.toNat_inj, h0, h1, rank, rank]
  cases hna : negative a <;> cases hnb : negative b <;> simp only [hna, hnb, if_true, if_false, Bool.false_eq_true] at * <;> omega

theorem finite_iff (b : UInt64) : ((b >>> 52) &&& 0x7FF != 0x7FF) = true ↔ Finite b := by
  have h52 : (52 : UInt64).toNat % 64 = 52 := rfl
  have hmask : (0x7FF : UInt64).toNat = 2 ^ 11 - 1 := rfl
  have hand : ((b >>> 52) &&& 0x7FF).toNat = b.toNat / 2 ^ 52 % 2 ^ 11 := by
    rw [UInt64.toNat_and, UInt64.toNat_shiftRight, h52, hmask, Nat.and_two_pow_sub_one_eq_mod,
      Nat.shiftRight_eq_div_pow]
  rw [bne_iff_ne, ne_eq, ← UInt64.toNat_inj, hand, hmask, Finite, magnitude, infinite]
  omega

end Binary64
