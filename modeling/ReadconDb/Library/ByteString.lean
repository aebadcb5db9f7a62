import Mathlib

namespace ByteString

abbrev Bytes := List UInt8

def beBytes : Nat → Nat → Bytes
  | 0, _ => []
  | w + 1, n => beBytes w (n / 256) ++ [UInt8.ofNat n]

def beNat (b : Bytes) : Nat := b.foldl (fun n x => n * 256 + x.toNat) 0

def leBytes : Nat → Nat → Bytes
  | 0, _ => []
  | w + 1, n => UInt8.ofNat n :: leBytes w (n / 256)

def leNat : Bytes → Nat
  | [] => 0
  | x :: xs => x.toNat + 256 * leNat xs

@[simp] theorem length_beBytes (w n : Nat) : (beBytes w n).length = w := by
  induction w generalizing n with
  | zero => rfl
  | succ w ih => simp [beBytes, ih]

@[simp] theorem length_leBytes (w n : Nat) : (leBytes w n).length = w := by
  induction w generalizing n with
  | zero => rfl
  | succ w ih => simp [leBytes, ih]

theorem mod_pow_succ (n w : Nat) : n % 256 ^ (w + 1) = n % 256 + 256 * (n / 256 % 256 ^ w) := by
  rw [pow_succ', Nat.mod_mul]

theorem beNat_beBytes (w n : Nat) : beNat (beBytes w n) = n % 256 ^ w := by
  induction w generalizing n with
  | zero => simp [beBytes, beNat, Nat.mod_one]
  | succ w ih =>
    have hw := ih (n / 256)
    simp only [beNat] at hw
    simp only [beBytes, beNat, List.foldl_append, List.foldl_cons, List.foldl_nil, hw]
    rw [mod_pow_succ, UInt8.toNat_ofNat']
    omega

theorem leNat_leBytes (w n : Nat) : leNat (leBytes w n) = n % 256 ^ w := by
  induction w generalizing n with
  | zero => simp [leBytes, leNat, Nat.mod_one]
  | succ w ih => simp [leBytes, leNat, ih, mod_pow_succ]

theorem beBytes_inj {w m n : Nat} (hm : m < 256 ^ w) (hn : n < 256 ^ w)
    (h : beBytes w m = beBytes w n) : m = n := by
  have hb := congrArg beNat h
  rwa [beNat_beBytes, beNat_beBytes, Nat.mod_eq_of_lt hm, Nat.mod_eq_of_lt hn] at hb

theorem leBytes_inj {w m n : Nat} (hm : m < 256 ^ w) (hn : n < 256 ^ w)
    (h : leBytes w m = leBytes w n) : m = n := by
  have hb := congrArg leNat h
  rwa [leNat_leBytes, leNat_leBytes, Nat.mod_eq_of_lt hm, Nat.mod_eq_of_lt hn] at hb

theorem beNat_append_singleton (b : Bytes) (x : UInt8) : beNat (b ++ [x]) = beNat b * 256 + x.toNat := by
  simp [beNat]

theorem beBytes_beNat (b : Bytes) : beBytes b.length (beNat b) = b := by
  induction b using List.reverseRecOn with
  | nil => rfl
  | append_singleton b x ih =>
    have hx := x.toNat_lt
    have hd : (beNat b * 256 + x.toNat) / 256 = beNat b := by omega
    have hm : UInt8.ofNat (beNat b * 256 + x.toNat) = x := by
      rw [← UInt8.toNat_inj, UInt8.toNat_ofNat']
      omega
    rw [List.length_append, List.length_singleton, beNat_append_singleton, beBytes, hd, hm, ih]

theorem beNat_lt (b : Bytes) : beNat b < 256 ^ b.length := by
  induction b using List.reverseRecOn with
  | nil => simp [beNat]
  | append_singleton b x ih =>
    have hx := x.toNat_lt
    rw [List.length_append, List.length_singleton, beNat_append_singleton, pow_succ]
    omega

theorem beNat_append (a b : Bytes) : beNat (a ++ b) = beNat a * 256 ^ b.length + beNat b := by
  induction b using List.reverseRecOn with
  | nil => simp [beNat]
  | append_singleton b x ih =>
    rw [← List.append_assoc, beNat_append_singleton, ih, beNat_append_singleton, List.length_append,
      List.length_singleton, pow_succ]
    ring

theorem beNat_cons (x : UInt8) (b : Bytes) : beNat (x :: b) = x.toNat * 256 ^ b.length + beNat b := by
  have h := beNat_append [x] b
  simpa [beNat] using h

theorem beNat_take_le {a b : Bytes} {w : Nat} (h : compare a b = .lt) (ha : w ≤ a.length) (hb : w ≤ b.length) :
    beNat (a.take w) ≤ beNat (b.take w) := by
  induction w generalizing a b with
  | zero => simp
  | succ w ih =>
    cases a with
    | nil => simp at ha
    | cons x a =>
      cases b with
      | nil => simp at hb
      | cons y b =>
        rw [List.length_cons, Nat.succ_le_succ_iff] at ha hb
        have hla : (a.take w).length = w := by rw [List.length_take]; omega
        have hlb : (b.take w).length = w := by rw [List.length_take]; omega
        rw [List.compare_cons_cons, Ordering.then_eq_lt] at h
        rw [List.take_succ_cons, List.take_succ_cons, beNat_cons, beNat_cons, hla, hlb]
        rcases h with h | ⟨he, h⟩
        · have hxy : x.toNat < y.toNat := UInt8.lt_iff_toNat_lt.mp (compareOfLessAndEq_eq_lt.mp h)
          have hlt := beNat_lt (a.take w)
          rw [hla] at hlt
          nlinarith [Nat.mul_le_mul_right (256 ^ w) (Nat.succ_le_of_lt hxy)]
        · obtain rfl := Std.LawfulEqCmp.eq_of_compare he
          exact Nat.add_le_add_left (ih h ha hb) _

theorem leBytes_leNat (b : Bytes) : leBytes b.length (leNat b) = b := by
  induction b with
  | nil => rfl
  | cons x b ih =>
    have hx := x.toNat_lt
    have hd : (x.toNat + 256 * leNat b) / 256 = leNat b := by omega
    have hm : UInt8.ofNat (x.toNat + 256 * leNat b) = x := by
      rw [← UInt8.toNat_inj, UInt8.toNat_ofNat']
      omega
    rw [List.length_cons, leNat, leBytes, hd, hm, ih]

theorem leNat_lt (b : Bytes) : leNat b < 256 ^ b.length := by
  induction b with
  | nil => simp [leNat]
  | cons x b ih =>
    have hx := x.toNat_lt
    rw [List.length_cons, leNat, pow_succ]
    omega

theorem append_suffix_inj {a b s t : Bytes} (hs : s.length = t.length)
    (h : a ++ s = b ++ t) : a = b ∧ s = t :=
  List.append_inj' h hs

def utf8 (s : String) : Bytes := s.toByteArray.data.toList

def ofUtf8 (b : Bytes) : Option String := String.fromUTF8? ⟨b.toArray⟩

@[simp] theorem ofUtf8_utf8 (s : String) : ofUtf8 (utf8 s) = some s := by
  have h : (⟨(utf8 s).toArray⟩ : ByteArray) = s.toByteArray := by simp [utf8]
  rw [ofUtf8, h, String.fromUTF8?, dif_pos s.isValidUTF8]
  rfl

theorem utf8_of_ofUtf8 {b : Bytes} {s : String} (h : ofUtf8 b = some s) : utf8 s = b := by
  simp only [ofUtf8, String.fromUTF8?] at h
  split at h
  · have hs := Option.some.inj h
    subst hs
    rfl
  · cases h

theorem utf8_inj {s t : String} (h : utf8 s = utf8 t) : s = t := by
  have ht := ofUtf8_utf8 t
  rw [← h, ofUtf8_utf8] at ht
  exact Option.some.inj ht

@[simp] theorem utf8_empty : utf8 "" = [] := rfl

@[simp] theorem utf8_append (s t : String) : utf8 (s ++ t) = utf8 s ++ utf8 t := by
  simp [utf8, String.toByteArray_append]

theorem utf8_eq_flatMap (s : String) : utf8 s = s.toList.flatMap String.utf8EncodeChar := by
  have h : s.toByteArray = s.toList.utf8Encode := by
    rw [← String.toByteArray_ofList, String.ofList_toList]
  rw [utf8, h, List.utf8Encode, List.data_toByteArray, List.toList_toArray]

theorem encodeChar_lt (c : Char) : ∀ b ∈ String.utf8EncodeChar c, b < 0xF8 := by
  intro b hb
  simp only [String.utf8EncodeChar] at hb
  have hf : UInt8.toNat 0xF8 = 248 := rfl
  rw [UInt8.lt_iff_toNat_lt, hf]
  split_ifs at hb <;> simp only [List.mem_cons, List.not_mem_nil, or_false] at hb
  · subst hb
    rw [UInt8.toNat_ofNat']
    omega
  · rcases hb with rfl | rfl <;> rw [UInt8.toNat_ofNat'] <;> omega
  · rcases hb with rfl | rfl | rfl <;> rw [UInt8.toNat_ofNat'] <;> omega
  · rcases hb with rfl | rfl | rfl | rfl <;> rw [UInt8.toNat_ofNat'] <;> omega

theorem utf8_byte_lt {s : String} {b : UInt8} (hb : b ∈ utf8 s) : b < 0xF8 := by
  rw [utf8_eq_flatMap, List.mem_flatMap] at hb
  obtain ⟨c, _, hc⟩ := hb
  exact encodeChar_lt c b hc

theorem sep_not_mem_utf8 (s : String) : (0xff : UInt8) ∉ utf8 s :=
  fun hm => absurd (utf8_byte_lt hm) (by decide)

theorem takeWhile_sep (s : String) (a : Bytes) :
    (utf8 s ++ 0xff :: a).takeWhile (· ≠ 0xff) = utf8 s := by
  rw [List.takeWhile_append_of_pos, List.takeWhile_cons_of_neg (by simp), List.append_nil]
  intro b hb
  have hne : b ≠ 0xff := fun he => sep_not_mem_utf8 s (he ▸ hb)
  simpa using hne

theorem utf8_sep_inj {s t : String} {a b : Bytes}
    (h : utf8 s ++ 0xff :: a = utf8 t ++ 0xff :: b) : s = t ∧ a = b := by
  have hs : utf8 s = utf8 t := by rw [← takeWhile_sep s a, h, takeWhile_sep]
  exact ⟨utf8_inj hs, by simpa [hs] using h⟩

end ByteString
