import ReadconDb.Library.ByteString
import ReadconDb.Library.Binary64

namespace Lexicographic

open ByteString

section Bytes

theorem compare_append {a a' b b' : Bytes} (h : a.length = a'.length) :
    compare (a ++ b) (a' ++ b') = (compare a a').then (compare b b') := by
  induction a generalizing a' with
  | nil =>
    obtain rfl := List.eq_nil_of_length_eq_zero h.symm
    rfl
  | cons x a ih =>
    cases a' with
    | nil => cases h
    | cons x' a' =>
      rw [List.cons_append, List.cons_append, List.compare_cons_cons, List.compare_cons_cons,
        ih (Nat.succ.inj h), Ordering.then_assoc]

theorem compare_singleton (x y : UInt8) : compare [x] [y] = compare x.toNat y.toNat := by
  have hnat : compare x y = compare x.toNat y.toNat := by
    change compareOfLessAndEq x y = compareOfLessAndEq x.toNat y.toNat
    simp only [compareOfLessAndEq, UInt8.lt_iff_toNat_lt, ← UInt8.toNat_inj]
  rw [List.compare_cons_cons, hnat]
  exact Ordering.then_eq

theorem compare_last (m n : Nat) :
    (compare (m / 256) (n / 256)).then (compare (m % 256) (n % 256)) = compare m n := by
  rcases lt_trichotomy m n with h | rfl | h
  · rw [Nat.compare_eq_lt.mpr h, Ordering.then_eq_lt, Nat.compare_eq_lt, Nat.compare_eq_eq, Nat.compare_eq_lt]
    omega
  · rw [Nat.compare_eq_eq.mpr rfl, Nat.compare_eq_eq.mpr rfl, Nat.compare_eq_eq.mpr rfl]
    rfl
  · rw [Nat.compare_eq_gt.mpr h, Ordering.then_eq_gt, Nat.compare_eq_gt, Nat.compare_eq_eq, Nat.compare_eq_gt]
    omega

theorem compare_beBytes {w m n : Nat} (hm : m < 256 ^ w) (hn : n < 256 ^ w) :
    compare (beBytes w m) (beBytes w n) = compare m n := by
  induction w generalizing m n with
  | zero =>
    obtain rfl : m = 0 := by simpa using hm
    obtain rfl : n = 0 := by simpa using hn
    rfl
  | succ w ih =>
    have hm' : m / 256 < 256 ^ w := Nat.div_lt_of_lt_mul (by rwa [← pow_succ'])
    have hn' : n / 256 < 256 ^ w := Nat.div_lt_of_lt_mul (by rwa [← pow_succ'])
    rw [beBytes, beBytes, compare_append (by simp), ih hm' hn', compare_singleton, UInt8.toNat_ofNat', UInt8.toNat_ofNat',
      compare_last]

end Bytes

section Scalars

open Binary64

-- The order of the numbers, with `-0` before `+0`.
def compareScalars (a b : UInt64) : Ordering := (compare (rank a) (rank b)).then (compare (!negative a) (!negative b))

theorem compare_not_lt (p q : Bool) : compare (!p) (!q) = .lt ↔ p = true ∧ q = false := by
  cases p <;> cases q <;> decide

theorem compare_not_eq (p q : Bool) : compare (!p) (!q) = .eq ↔ p = q := by
  cases p <;> cases q <;> decide

theorem compare_not_gt (p q : Bool) : compare (!p) (!q) = .gt ↔ p = false ∧ q = true := by
  cases p <;> cases q <;> decide

theorem compare_code (a b : UInt64) : compare (code a).toNat (code b).toNat = compareScalars a b := by
  have ha := toNat_code a
  have hb := toNat_code b
  have hma := magnitude_lt a
  have hmb := magnitude_lt b
  symm
  rcases lt_trichotomy (code a).toNat (code b).toNat with h | h | h
  · rw [Nat.compare_eq_lt.mpr h, compareScalars, Ordering.then_eq_lt, Int.compare_eq_lt, Int.compare_eq_eq,
      compare_not_lt, rank, rank]
    cases hna : negative a <;> cases hnb : negative b <;> simp [hna, hnb] at * <;> omega
  · rw [Nat.compare_eq_eq.mpr h, compareScalars, Ordering.then_eq_eq, Int.compare_eq_eq, compare_not_eq, rank, rank]
    cases hna : negative a <;> cases hnb : negative b <;> simp [hna, hnb] at * <;> omega
  · rw [Nat.compare_eq_gt.mpr h, compareScalars, Ordering.then_eq_gt, Int.compare_eq_gt, Int.compare_eq_eq,
      compare_not_gt, rank, rank]
    cases hna : negative a <;> cases hnb : negative b <;> simp [hna, hnb] at * <;> omega

theorem code_inj {a b : UInt64} (h : code a = code b) : a = b := by
  have hc := congrArg UInt64.toNat h
  have ha := toNat_eq a
  have hb := toNat_eq b
  have hma := magnitude_lt a
  have hmb := magnitude_lt b
  rw [toNat_code, toNat_code] at hc
  rw [← UInt64.toNat_inj]
  cases hna : negative a <;> cases hnb : negative b <;> simp [hna, hnb] at * <;> omega

end Scalars

end Lexicographic
