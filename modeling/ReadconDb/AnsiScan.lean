import ReadconDb.MpiTables
import ReadconDb.Topology
import ReadconDb.Library.Utf8Scan

set_option linter.unusedSectionVars false

namespace ReadconDb

open ByteString Slicing Utf8Scan

section Scan

def isAlphabeticByte (b : UInt8) : Bool := (65 ≤ b.toNat && b.toNat ≤ 90) || (97 ≤ b.toNat && b.toNat ≤ 122)

-- A byte that ends an OSC sequence: BEL or a backslash.
def endsOsc (b : UInt8) : Bool := b.toNat == 0x07 || b.toNat == 0x5c

def skipPast (stop : UInt8 → Bool) (bytes : Bytes) (i : Nat) : Nat :=
  if _h : i < bytes.length then
    if stop bytes[i] then i + 1 else skipPast stop bytes (i + 1)
  else i
  termination_by bytes.length - i

theorem le_skipPast (stop : UInt8 → Bool) (bytes : Bytes) (i : Nat) : i ≤ skipPast stop bytes i := by
  fun_induction skipPast stop bytes i with
  | case1 => omega
  | case2 i h hs ih => omega
  | case3 => omega

-- The bytes are walked one by one, the text is cut only where a character starts.
def stripLoop (bytes : Bytes) (i : Nat) (out : List Char) : Checked Error (List Char) :=
  if _h : i < bytes.length then
    if bytes[i] = 0x1b ∧ bytes[i + 1]? = some 0x5b then stripLoop bytes (skipPast isAlphabeticByte bytes (i + 2)) out
    else if bytes[i] = 0x1b ∧ bytes[i + 1]? = some 0x5d then stripLoop bytes (skipPast endsOsc bytes (i + 2)) out
    else do
      let rest ← strSlice bytes i bytes.length
      match rest.toList with
      | ch :: _ => stripLoop bytes (i + ch.utf8Size) (out ++ [ch])
      | [] => return out
  else return out
  termination_by bytes.length - i
  decreasing_by
    · have hle := le_skipPast isAlphabeticByte bytes (i + 2)
      omega
    · have hle := le_skipPast endsOsc bytes (i + 2)
      omega
    · have hpos := ch.utf8Size_pos
      omega

def stripAnsiBytes (s : String) : Checked Error String :=
  if '\x1b' ∉ s.toList then return s
  else do
    let out ← stripLoop (utf8 s) 0 []
    return String.ofList out

end Scan

section Spec

-- What is left of a text: the matches of `ESC [ … letter` and of `ESC ] … BEL or backslash` are gone, each up to the
-- end of the text where it has no last character.
inductive Stripped : List Char → List Char → Prop
  | nil : Stripped [] []
  | csi {body rest out : List Char} {last : Char} (hb : ∀ c ∈ body, isAsciiAlphabetic c = false)
      (hl : isAsciiAlphabetic last = true) (h : Stripped rest out) : Stripped ('\x1b' :: '[' :: (body ++ last :: rest)) out
  | csiOpen {body : List Char} (hb : ∀ c ∈ body, isAsciiAlphabetic c = false) : Stripped ('\x1b' :: '[' :: body) []
  | osc {body rest out : List Char} {last : Char} (hb : ∀ c ∈ body, c ≠ '\x07' ∧ c ≠ '\\')
      (hl : last = '\x07' ∨ last = '\\') (h : Stripped rest out) : Stripped ('\x1b' :: ']' :: (body ++ last :: rest)) out
  | oscOpen {body : List Char} (hb : ∀ c ∈ body, c ≠ '\x07' ∧ c ≠ '\\') : Stripped ('\x1b' :: ']' :: body) []
  | keep {c : Char} {rest out : List Char} (hc : ¬(c = '\x1b' ∧ (rest.head? = some '[' ∨ rest.head? = some ']')))
      (h : Stripped rest out) : Stripped (c :: rest) (c :: out)

def endsOscChar (c : Char) : Bool := c = '\x07' || c = '\\'

theorem stripFrom_csi (cs : List Char) : stripFrom .csi cs = stripFrom .text (afterFirst isAsciiAlphabetic cs) := by
  induction cs with
  | nil => rfl
  | cons c cs ih =>
    rw [stripFrom, afterFirst]
    split
    · rfl
    · exact ih

theorem stripFrom_osc (cs : List Char) : stripFrom .osc cs = stripFrom .text (afterFirst endsOscChar cs) := by
  induction cs with
  | nil => rfl
  | cons c cs ih =>
    rw [stripFrom, afterFirst, endsOscChar]
    split
    · rfl
    · exact ih

theorem stripFrom_keep {c : Char} {rest : List Char}
    (hc : ¬(c = '\x1b' ∧ (rest.head? = some '[' ∨ rest.head? = some ']'))) :
    stripFrom .text (c :: rest) = c :: stripFrom .text rest := by
  rw [stripFrom]
  · rintro rest' rfl rfl
    exact hc ⟨rfl, .inl rfl⟩
  · rintro rest' rfl rfl
    exact hc ⟨rfl, .inr rfl⟩

theorem afterFirst_last {A : Type} {p : A → Bool} {body rest : List A} {last : A} (hb : ∀ a ∈ body, p a = false)
    (hl : p last = true) : afterFirst p (body ++ last :: rest) = rest := by
  rw [afterFirst_append_none hb, afterFirst, if_pos hl]

theorem afterFirst_none {A : Type} {p : A → Bool} {body : List A} (hb : ∀ a ∈ body, p a = false) : afterFirst p body = [] := by
  have h : afterFirst p (body ++ []) = afterFirst p [] := afterFirst_append_none hb
  rwa [List.append_nil] at h

theorem endsOscChar_false {c : Char} (h : c ≠ '\x07' ∧ c ≠ '\\') : endsOscChar c = false := by
  simp [endsOscChar, h.1, h.2]

theorem Stripped.eq {cs out : List Char} (h : Stripped cs out) : out = stripFrom .text cs := by
  induction h with
  | nil => rfl
  | csi hb hl _ ih => rw [stripFrom, stripFrom_csi, afterFirst_last hb hl, ih]
  | csiOpen hb => rw [stripFrom, stripFrom_csi, afterFirst_none hb]; rfl
  | @osc body rest out last hb hl _ ih =>
    have hl' : endsOscChar last = true := by simpa [endsOscChar] using hl
    rw [stripFrom, stripFrom_osc, afterFirst_last (fun c hc => endsOscChar_false (hb c hc)) hl', ih]
  | oscOpen hb => rw [stripFrom, stripFrom_osc, afterFirst_none fun c hc => endsOscChar_false (hb c hc)]; rfl
  | keep hc _ ih => rw [stripFrom_keep hc, ih]

theorem afterFirst_cases {A : Type} (p : A → Bool) (as : List A) :
    (∃ body last, as = body ++ last :: afterFirst p as ∧ (∀ a ∈ body, p a = false) ∧ p last = true) ∨
      ((∀ a ∈ as, p a = false) ∧ afterFirst p as = []) := by
  induction as with
  | nil => exact .inr ⟨by simp, rfl⟩
  | cons a as ih =>
    rw [afterFirst]
    cases hp : p a with
    | true => exact .inl ⟨[], a, by simp, by simp, hp⟩
    | false =>
      simp only [Bool.false_eq_true, if_false]
      rcases ih with ⟨body, last, heq, hb, hl⟩ | ⟨hb, hnil⟩
      · exact .inl ⟨a :: body, last, by rw [List.cons_append, ← heq], by simpa [hp] using hb, hl⟩
      · exact .inr ⟨by simpa [hp] using hb, hnil⟩

theorem stripped_stripFrom (cs : List Char) : Stripped cs (stripFrom .text cs) := by
  induction hn : cs.length using Nat.strong_induction_on generalizing cs with
  | h n ih =>
    cases cs with
    | nil => exact .nil
    | cons c rest =>
      by_cases hc : c = '\x1b' ∧ (rest.head? = some '[' ∨ rest.head? = some ']')
      · obtain ⟨rfl, hopen⟩ := hc
        cases rest with
        | nil => simp at hopen
        | cons o rest =>
          simp only [List.head?_cons, Option.some.injEq] at hopen
          have hshort {p : Char → Bool} {body : List Char} {last : Char} (h : rest = body ++ last :: afterFirst p rest) :
              (afterFirst p rest).length < n := by
            have hlen := congrArg List.length h
            simp only [List.length_append, List.length_cons] at hlen hn
            omega
          rcases hopen with rfl | rfl
          · rw [stripFrom, stripFrom_csi]
            rcases afterFirst_cases isAsciiAlphabetic rest with ⟨body, last, heq, hb, hl⟩ | ⟨hb, hnil⟩
            · have hrest := ih _ (hshort heq) _ rfl
              generalize afterFirst isAsciiAlphabetic rest = tail at heq hrest ⊢
              rw [heq]
              exact .csi hb hl hrest
            · rw [hnil]
              exact .csiOpen hb
          · rw [stripFrom, stripFrom_osc]
            rcases afterFirst_cases endsOscChar rest with ⟨body, last, heq, hb, hl⟩ | ⟨hb, hnil⟩
            · have hrest := ih _ (hshort heq) _ rfl
              generalize afterFirst endsOscChar rest = tail at heq hrest ⊢
              rw [heq]
              exact .osc (fun c hc => by simpa [endsOscChar] using hb c hc) (by simpa [endsOscChar] using hl) hrest
            · rw [hnil]
              exact .oscOpen fun c hc => by simpa [endsOscChar] using hb c hc
      · rw [stripFrom_keep hc]
        refine .keep hc (ih rest.length ?_ rest rfl)
        simp at hn
        omega

end Spec

section Safe

variable {bytes : Bytes} {i : Nat} {cs : List Char}

theorem skipPast_le (stop : UInt8 → Bool) (h : i ≤ bytes.length) : skipPast stop bytes i ≤ bytes.length := by
  fun_induction skipPast stop bytes i with
  | case1 i hi => omega
  | case2 i hi hs ih => exact ih hi
  | case3 i hi => exact h

theorem drop_skipPast (stop : UInt8 → Bool) (bytes : Bytes) (i : Nat) :
    bytes.drop (skipPast stop bytes i) = afterFirst stop (bytes.drop i) := by
  fun_induction skipPast stop bytes i with
  | case1 i hi hs => rw [List.drop_eq_getElem_cons hi, afterFirst, if_pos hs]
  | case2 i hi hs ih => rw [ih, List.drop_eq_getElem_cons hi, afterFirst, if_neg hs]
  | case3 i hi =>
    rw [List.drop_eq_nil_of_le (Nat.not_lt.mp hi)]
    rfl

theorem alphabetic_low (c : Char) (h : c.toNat < 128) : isAlphabeticByte (UInt8.ofNat c.toNat) = isAsciiAlphabetic c := by
  have hn : (UInt8.ofNat c.toNat).toNat = c.toNat := by rw [UInt8.toNat_ofNat', Nat.mod_eq_of_lt (by omega)]
  have hval : c.val.toNat = c.toNat := rfl
  rw [isAlphabeticByte, hn, isAsciiAlphabetic, Char.isAlpha, Char.isUpper, Char.isLower]
  simp only [ge_iff_le, UInt32.le_iff_toNat_le, hval, Bool.decide_and]
  rfl

theorem alphabetic_wide (c : Char) (h : 128 ≤ c.toNat) : isAsciiAlphabetic c = false := by
  have hval : c.val.toNat = c.toNat := rfl
  rw [isAsciiAlphabetic, Char.isAlpha, Char.isUpper, Char.isLower]
  simp only [ge_iff_le, UInt32.le_iff_toNat_le, hval]
  simp
  omega

theorem endsOsc_low (c : Char) (h : c.toNat < 128) : endsOsc (UInt8.ofNat c.toNat) = endsOscChar c := by
  have hn : (UInt8.ofNat c.toNat).toNat = c.toNat := by rw [UInt8.toNat_ofNat', Nat.mod_eq_of_lt (by omega)]
  rw [endsOsc, hn, endsOscChar, Bool.eq_iff_iff]
  simp [← Char.toNat_inj]

theorem afterFirst_alphabetic (cs : List Char) :
    afterFirst isAlphabeticByte (encode cs) = encode (afterFirst isAsciiAlphabetic cs) := by
  apply afterFirst_encode alphabetic_low _ alphabetic_wide
  intro b hb
  simp [isAlphabeticByte]
  omega

theorem afterFirst_endsOsc (cs : List Char) : afterFirst endsOsc (encode cs) = encode (afterFirst endsOscChar cs) := by
  apply afterFirst_encode endsOsc_low
  · intro b hb
    simp [endsOsc]
    omega
  · intro c hc
    rw [endsOscChar]
    simp only [Bool.or_eq_false_iff, decide_eq_false_iff_not]
    constructor
    · rintro rfl
      exact absurd hc (by decide)
    · rintro rfl
      exact absurd hc (by decide)

-- What is left to read are whole characters, so the text may be cut here.
theorem boundary_rest (hi : i ≤ bytes.length) (hcs : bytes.drop i = encode cs) : isCharBoundary bytes i = true := by
  rw [isCharBoundary, ← List.head?_drop, hcs]
  cases cs with
  | nil =>
    have hlen := congrArg List.length hcs
    rw [List.length_drop, encode, List.flatMap_nil, List.length_nil] at hlen
    have heq : i = bytes.length := by omega
    simp [heq]
  | cons c cs =>
    rw [encode_cons]
    by_cases h : c.toNat < 128
    · have hb : UInt8.ofNat c.toNat < 0x80 := by
        rw [UInt8.lt_iff_toNat_lt, UInt8.toNat_ofNat', Nat.mod_eq_of_lt (by omega)]
        exact h
      simp [encode_ascii h, hb]
    · obtain ⟨b, bs, hbs, hb, _⟩ := encode_wide (Nat.not_lt.mp h)
      have hb' : 0xC0 ≤ b := UInt8.le_iff_toNat_le.mpr hb
      simp [hbs, hb']

theorem strSlice_rest (hi : i ≤ bytes.length) (hcs : bytes.drop i = encode cs) :
    strSlice bytes i bytes.length = lift (.ok (String.ofList cs)) := by
  have htake : (bytes.drop i).take (bytes.length - i) = encode cs := by
    rw [← List.length_drop, List.take_length, hcs]
  have hend : isCharBoundary bytes bytes.length = true := by simp [isCharBoundary]
  rw [strSlice, slice_ok hi le_rfl, lift_ok_bind, boundary_rest hi hcs, hend, htake, ← utf8_ofList]
  simp

theorem head_rest (hcs : bytes.drop i = encode cs) {a : Char} (ha : a.toNat < 128) :
    bytes[i]? = some (UInt8.ofNat a.toNat) ↔ cs.head? = some a := by
  rw [← List.head?_drop, hcs, head_encode ha]

theorem drop_step {c : Char} (hcs : bytes.drop i = encode (c :: cs)) :
    bytes.drop (i + c.utf8Size) = encode cs ∧ i + c.utf8Size ≤ bytes.length := by
  have hlen := congrArg List.length hcs
  rw [encode_cons, List.length_append, String.length_utf8EncodeChar, List.length_drop] at hlen
  have hpos := c.utf8Size_pos
  refine ⟨?_, by omega⟩
  rw [← List.drop_drop, hcs, encode_cons, ← String.length_utf8EncodeChar, List.drop_left]

theorem stripLoop_eq (hi : i ≤ bytes.length) (hcs : bytes.drop i = encode cs) (out : List Char) :
    stripLoop bytes i out = lift (.ok (out ++ stripFrom .text cs)) := by
  induction hn : bytes.length - i using Nat.strong_induction_on generalizing i cs out with
  | h n ih =>
    rw [stripLoop]
    split
    · next hlt =>
      have hget : bytes[i]? = some bytes[i] := List.getElem?_eq_getElem hlt
      cases cs with
      | nil =>
        have hlen := congrArg List.length hcs
        rw [List.length_drop, encode, List.flatMap_nil, List.length_nil] at hlen
        omega
      | cons c rest =>
        obtain ⟨hnext, hle⟩ := drop_step hcs
        have hpos := c.utf8Size_pos
        have hesc : bytes[i] = 0x1b ↔ c = '\x1b' := by
          have hh := head_rest hcs (a := '\x1b') (by decide)
          rwa [hget, Option.some.injEq, List.head?_cons, Option.some.injEq] at hh
        have hopen {o : Char} (ho : o.toNat < 128) (hc : c = '\x1b') :
            bytes[i + 1]? = some (UInt8.ofNat o.toNat) ↔ rest.head? = some o := by
          subst hc
          exact head_rest hnext ho
        have hskip {stop : UInt8 → Bool} {stopChar : Char → Bool} {o : Char} {body : List Char}
            (hstop : ∀ cs, afterFirst stop (encode cs) = encode (afterFirst stopChar cs)) (ho : o.toNat < 128)
            (hc : c = '\x1b') (hr : rest = o :: body) :
            stripLoop bytes (skipPast stop bytes (i + 2)) out =
              lift (.ok (out ++ stripFrom .text (afterFirst stopChar body))) := by
          subst hc hr
          obtain ⟨hbody, hle'⟩ := drop_step hnext
          have hsize : o.utf8Size = 1 := Char.utf8Size_eq_one_iff.mpr (UInt32.le_iff_toNat_le.mpr (Nat.le_of_lt_succ ho))
          have hat : bytes.drop (i + 2) = encode body := by
            rw [hsize] at hbody
            exact hbody
          rw [hsize] at hle'
          have hle'' : i + 2 ≤ bytes.length := hle'
          have hge := le_skipPast stop bytes (i + 2)
          have hin := skipPast_le stop hle''
          refine ih _ ?_ hin ?_ out rfl
          · omega
          · rw [drop_skipPast, hat, hstop]
        by_cases hcsi : c = '\x1b' ∧ rest.head? = some '['
        · obtain ⟨hc, hhead⟩ := hcsi
          obtain ⟨body, hbody⟩ := List.head?_eq_some_iff.mp hhead
          rw [if_pos ⟨hesc.mpr hc, (hopen (o := '[') (by decide) hc).mpr hhead⟩,
            hskip afterFirst_alphabetic (by decide) hc hbody, hc, hbody, stripFrom, stripFrom_csi]
        · rw [if_neg fun hb => hcsi ⟨hesc.mp hb.1, (hopen (o := '[') (by decide) (hesc.mp hb.1)).mp hb.2⟩]
          by_cases hosc : c = '\x1b' ∧ rest.head? = some ']'
          · obtain ⟨hc, hhead⟩ := hosc
            obtain ⟨body, hbody⟩ := List.head?_eq_some_iff.mp hhead
            rw [if_pos ⟨hesc.mpr hc, (hopen (o := ']') (by decide) hc).mpr hhead⟩,
              hskip afterFirst_endsOsc (by decide) hc hbody, hc, hbody, stripFrom, stripFrom_osc]
          · rw [if_neg fun hb => hosc ⟨hesc.mp hb.1, (hopen (o := ']') (by decide) (hesc.mp hb.1)).mp hb.2⟩,
              strSlice_rest hi hcs, lift_ok_bind, String.toList_ofList]
            simp only
            rw [ih _ (by omega) hle hnext (out ++ [c]) rfl, stripFrom_keep, List.append_assoc, List.singleton_append]
            tauto
    · next hge =>
      have hnil : cs = [] := by
        rw [← encode_eq_nil, ← hcs]
        exact List.drop_eq_nil_of_le (Nat.not_lt.mp hge)
      rw [hnil]
      simp [stripFrom]

theorem strip_ansi_exact (s : String) : stripAnsiBytes s = lift (.ok (stripAnsi s)) ∧
    (∀ out, Stripped s.toList out ↔ out = (stripAnsi s).toList) ∧ ('\x1b' ∉ s.toList → stripAnsi s = s) := by
  have hkept (h : '\x1b' ∉ s.toList) : stripAnsi s = s := by
    have hplain (cs : List Char) (hcs : '\x1b' ∉ cs) : stripFrom .text cs = cs := by
      induction cs with
      | nil => rfl
      | cons c cs ih =>
        obtain ⟨hc, hrest⟩ : '\x1b' ≠ c ∧ '\x1b' ∉ cs := by simpa using hcs
        rw [stripFrom_keep fun h => hc h.1.symm, ih hrest]
    rw [stripAnsi, hplain _ h, String.ofList_toList]
  refine ⟨?_, fun out => ?_, hkept⟩
  · rw [stripAnsiBytes]
    split
    · next h => rw [hkept h, pure_eq_lift]
    · have hall : (utf8 s).drop 0 = encode s.toList := utf8_eq_flatMap s
      rw [stripLoop_eq (Nat.zero_le _) hall, lift_ok_bind]
      rfl
  · rw [stripAnsi, String.toList_ofList]
    constructor
    · exact Stripped.eq
    · rintro rfl
      exact stripped_stripFrom _

end Safe

end ReadconDb
