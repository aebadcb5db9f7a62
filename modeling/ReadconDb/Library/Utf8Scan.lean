import ReadconDb.Library.ByteString

namespace Utf8Scan

open ByteString

section Chars

def encode (cs : List Char) : Bytes := cs.flatMap String.utf8EncodeChar

theorem utf8_ofList (cs : List Char) : utf8 (String.ofList cs) = encode cs := by
  rw [utf8_eq_flatMap, String.toList_ofList, encode]

theorem encode_cons (c : Char) (cs : List Char) : encode (c :: cs) = String.utf8EncodeChar c ++ encode cs :=
  List.flatMap_cons

theorem encode_ascii {c : Char} (h : c.toNat < 128) : String.utf8EncodeChar c = [UInt8.ofNat c.toNat] := by
  have hval : c.val.toNat ≤ 127 := Nat.le_of_lt_succ h
  rw [String.utf8EncodeChar, if_pos hval]
  rfl

theorem base_le (k : Nat) {m base : Nat} (hm : 0 < m) (hb : base + m ≤ 256) :
    base ≤ (UInt8.ofNat (k % m + base)).toNat := by
  have hlt := Nat.mod_lt k hm
  rw [UInt8.toNat_ofNat', Nat.mod_eq_of_lt (by omega)]
  omega

-- The first byte of any other character starts one, and no byte of it is below 128.
theorem encode_wide {c : Char} (h : 128 ≤ c.toNat) : ∃ b bs, String.utf8EncodeChar c = b :: bs ∧ 192 ≤ b.toNat ∧
    ∀ x ∈ b :: bs, 128 ≤ x.toNat := by
  have hval : ¬ c.val.toNat ≤ 127 := Nat.not_le.mpr h
  have htail (k : Nat) : 128 ≤ (UInt8.ofNat (k % 64 + 128)).toNat := base_le k (by decide) (by decide)
  rw [String.utf8EncodeChar, if_neg hval]
  split_ifs
  · have hhead : 192 ≤ (UInt8.ofNat (c.val.toNat / 64 % 32 + 192)).toNat := base_le _ (by decide) (by decide)
    refine ⟨_, _, rfl, hhead, ?_⟩
    simp only [List.forall_mem_cons]
    exact ⟨by omega, htail _, by simp⟩
  · have hhead : 224 ≤ (UInt8.ofNat (c.val.toNat / 4096 % 16 + 224)).toNat := base_le _ (by decide) (by decide)
    refine ⟨_, _, rfl, by omega, ?_⟩
    simp only [List.forall_mem_cons]
    exact ⟨by omega, htail _, htail _, by simp⟩
  · have hhead : 240 ≤ (UInt8.ofNat (c.val.toNat / 262144 % 8 + 240)).toNat := base_le _ (by decide) (by decide)
    refine ⟨_, _, rfl, by omega, ?_⟩
    simp only [List.forall_mem_cons]
    exact ⟨by omega, htail _, htail _, htail _, by simp⟩

theorem encode_eq_nil {cs : List Char} : encode cs = [] ↔ cs = [] := by
  cases cs with
  | nil => simp [encode]
  | cons c cs => simp [encode, String.utf8EncodeChar_ne_nil]

theorem head_encode {a : Char} (ha : a.toNat < 128) (cs : List Char) :
    (encode cs).head? = some (UInt8.ofNat a.toNat) ↔ cs.head? = some a := by
  cases cs with
  | nil => simp [encode]
  | cons c cs =>
    rw [encode_cons, List.head?_cons, Option.some.injEq]
    by_cases h : c.toNat < 128
    · rw [encode_ascii h, List.singleton_append, List.head?_cons, Option.some.injEq]
      constructor
      · intro he
        have hnat := congrArg UInt8.toNat he
        rw [UInt8.toNat_ofNat', UInt8.toNat_ofNat', Nat.mod_eq_of_lt (by omega), Nat.mod_eq_of_lt (by omega)] at hnat
        exact Char.toNat_inj.mp hnat
      · rintro rfl
        rfl
    · obtain ⟨b, bs, hbs, hb, _⟩ := encode_wide (Nat.not_lt.mp h)
      rw [hbs, List.cons_append, List.head?_cons, Option.some.injEq]
      constructor
      · intro he
        rw [he, UInt8.toNat_ofNat', Nat.mod_eq_of_lt (by omega)] at hb
        omega
      · rintro rfl
        exact absurd ha h

end Chars

section Search

variable {A : Type}

def afterFirst (p : A → Bool) : List A → List A
  | [] => []
  | a :: as => if p a then as else afterFirst p as

theorem afterFirst_append_none {p : A → Bool} {as bs : List A} (h : ∀ a ∈ as, p a = false) :
    afterFirst p (as ++ bs) = afterFirst p bs := by
  induction as with
  | nil => rfl
  | cons a as ih =>
    obtain ⟨ha, has⟩ := List.forall_mem_cons.mp h
    rw [List.cons_append, afterFirst, ha]
    exact ih has

variable {stop : UInt8 → Bool} {stopChar : Char → Bool}

theorem afterFirst_encode (hlow : ∀ c, c.toNat < 128 → stop (UInt8.ofNat c.toNat) = stopChar c)
    (hbyte : ∀ b, 128 ≤ b.toNat → stop b = false) (hchar : ∀ c, 128 ≤ c.toNat → stopChar c = false)
    (cs : List Char) : afterFirst stop (encode cs) = encode (afterFirst stopChar cs) := by
  induction cs with
  | nil => rfl
  | cons c cs ih =>
    rw [encode_cons, afterFirst]
    by_cases h : c.toNat < 128
    · rw [encode_ascii h, List.singleton_append, afterFirst, hlow c h, ih]
      split
      · rfl
      · rfl
    · obtain ⟨b, bs, hbs, _, hall⟩ := encode_wide (Nat.not_lt.mp h)
      rw [hchar c (Nat.not_lt.mp h), afterFirst_append_none fun x hx => hbyte x (hall x (hbs ▸ hx)), ih]
      rfl

end Search

end Utf8Scan
