import ReadconDb.UnitsCanon
import ReadconDb.Library.Outcome
import ReadconDb.Library.Words

set_option linter.unusedSectionVars false

namespace ReadconDb

open ByteString Outcome Words

section Table

def aliasTable : List (String × String) :=
  [("a", "angstrom"), ("å", "angstrom"), ("angstrom", "angstrom"), ("ångstrom", "angstrom"),
    ("nm", "nm"), ("nanometer", "nm"), ("nanometre", "nm"), ("m", "m"), ("meter", "m"), ("metre", "m"),
    ("bohr", "bohr"), ("a0", "bohr"), ("fs", "fs"), ("femtosecond", "fs"), ("femtoseconds", "fs"),
    ("ps", "ps"), ("picosecond", "ps"), ("picoseconds", "ps"), ("ns", "ns"), ("nanosecond", "ns"), ("nanoseconds", "ns"),
    ("s", "s"), ("sec", "s"), ("second", "s"), ("seconds", "s"), ("ev", "eV"), ("mev", "meV"), ("hartree", "hartree"),
    ("ha", "hartree"), ("j", "J"), ("joule", "J"), ("kj", "kJ"), ("kcal", "kcal"), ("amu", "amu"), ("u", "amu"),
    ("dalton", "amu"), ("da", "amu"), ("kg", "kg"), ("kilogram", "kg"), ("mol", "mol")]

theorem preferredAtom_eq_some {atom pref : String} :
    preferredAtom atom = some pref ↔ (toAsciiLowercase (trim atom), pref) ∈ aliasTable := by
  rw [preferredAtom]
  generalize toAsciiLowercase (trim atom) = a
  constructor
  · intro h
    split at h <;> first | (cases h; done) | (obtain rfl := Option.some.inj h; simp [aliasTable])
  · intro h
    simp only [aliasTable, List.mem_cons, Prod.mk.injEq, List.not_mem_nil, or_false] at h
    repeat (rcases h with ⟨rfl, rfl⟩ | h; · rfl)
    obtain ⟨rfl, rfl⟩ := h
    rfl

end Table

section Spellings

-- The signs that lower case turns into a letter of the table, and `to_ascii_lowercase` does not.
def isWideLetter (c : Char) : Bool := c == '\u00c5' || c == '\u212b' || c == '\u212a'

def lowerCase (c : Char) : Char :=
  if c = '\u00c5' ∨ c = '\u212b' then '\u00e5' else if c = '\u212a' then 'k' else c.toLower

structure Spelling where
  name : String
  pref : String
  listed : (name, pref) ∈ aliasTable
  chars : List Char
  cased : chars.map lowerCase = name.toList

namespace Spelling

def Plain (s : Spelling) : Prop := s.name ≠ "a0" ∧ ∀ c ∈ s.chars, isWideLetter c = false

def written (s : Spelling) : List Char :=
  if s.name = "a0" then "angstrom0".toList
  else ((preferredAtom (String.ofList s.chars)).getD (String.ofList s.chars)).toList

theorem lowerCase_narrow {c : Char} (h : isWideLetter c = false) : lowerCase c = c.toLower := by
  simp only [isWideLetter, Bool.or_eq_false_iff, beq_eq_false_iff_ne] at h
  rw [lowerCase, if_neg (by simp [h.1.1, h.1.2]), if_neg h.2]

theorem lowerCase_wide {c : Char} (h : isWideLetter c = true) : lowerCase c = '\u00e5' ∨ lowerCase c = 'k' := by
  simp only [isWideLetter, Bool.or_eq_true, beq_iff_eq] at h
  rcases h with (rfl | rfl) | rfl <;> decide

-- How the words of the table are made up: all letters but `a0`, and å or k only at the head.
theorem table_nonempty : ∀ q ∈ aliasTable, q.1.toList ≠ [] ∧ q.2.toList ≠ [] := by decide +kernel

theorem table_tails : ∀ q ∈ aliasTable,
    (q.1.toList.drop 1).all (fun c => c.val.toNat != 0xe5 && c.val.toNat != 0x6b) = true := by decide +kernel

theorem table_letters : ∀ q ∈ aliasTable,
    (q.1 == "a0" || q.1.toList.all fun c => isAtomChar c && !isWhitespace c) = true := by decide +kernel

theorem table_preferred : ∀ q ∈ aliasTable, (toAsciiLowercase q.2, q.2) ∈ aliasTable := by decide +kernel

theorem table_narrow : ∀ q ∈ aliasTable, (q.1.toList.all fun c => !isWideLetter c) = true := by decide +kernel

theorem table_bohr : ∀ q ∈ aliasTable, (q.1 != "a0" || q.2 == "bohr") = true := by decide +kernel

theorem table_plain : ∀ q ∈ aliasTable, toAsciiLowercase q.2 ≠ "a0" ∧
    q.2.toList.all (fun c => isAtomChar c && !isWhitespace c && c.val.toNat < 128) = true := by decide +kernel

theorem isWhitespace_upper {c : Char} (h : c.isUpper = true) : isWhitespace c = false := by
  have hlo : 'A'.val.toNat = 65 := rfl
  have hhi : 'Z'.val.toNat = 90 := rfl
  simp only [Char.isUpper, decide_eq_true_eq, ge_iff_le, UInt32.le_iff_toNat_le, hlo, hhi] at h
  simp only [isWhitespace, Bool.or_eq_false_iff, Bool.and_eq_false_iff, decide_eq_false_iff_not, beq_eq_false_iff_ne]
  omega

theorem lowerCase_letter {c : Char} (h : isAtomChar (lowerCase c) = true ∧ isWhitespace (lowerCase c) = false) :
    isAtomChar c = true ∧ isWhitespace c = false := by
  cases hw : isWideLetter c with
  | true =>
    simp only [isWideLetter, Bool.or_eq_true, beq_iff_eq] at hw
    rcases hw with (rfl | rfl) | rfl <;> decide
  | false =>
    rw [lowerCase_narrow hw] at h
    cases hu : c.isUpper with
    | true => exact ⟨by simp [isAtomChar, Char.isAlpha, hu], isWhitespace_upper hu⟩
    | false => rwa [Char.toLower_eq_of_not_isUpper (by simp [hu])] at h

variable (s : Spelling)

theorem chars_ne_nil : s.chars ≠ [] := by
  intro h
  have hname := s.cased
  rw [h] at hname
  exact (table_nonempty _ s.listed).1 hname.symm

theorem letters (h : s.name ≠ "a0") : ∀ c ∈ s.chars, isAtomChar c = true ∧ isWhitespace c = false := by
  intro c hc
  have hall := table_letters _ s.listed
  simp only [beq_false_of_ne h, Bool.false_or, List.all_eq_true, Bool.and_eq_true, Bool.not_eq_true'] at hall
  exact lowerCase_letter (hall _ (s.cased ▸ List.mem_map_of_mem hc))

theorem trim_ofList {cs : List Char} (h : ∀ c ∈ cs, isWhitespace c = false) : trim (String.ofList cs) = String.ofList cs := by
  have hdrop (xs : List Char) (hx : ∀ c ∈ xs, isWhitespace c = false) : xs.dropWhile isWhitespace = xs := by
    cases xs with
    | nil => rfl
    | cons c xs => simp [hx c List.mem_cons_self]
  rw [trim, String.toList_ofList, hdrop cs h, hdrop cs.reverse fun c hc => h c (List.mem_reverse.mp hc),
    List.reverse_reverse]

variable {s}

theorem preferredAtom_plain (h : s.Plain) : preferredAtom (String.ofList s.chars) = some s.pref := by
  have hname : toAsciiLowercase (String.ofList s.chars) = s.name := by
    rw [toAsciiLowercase, String.toList_ofList, ← List.map_congr_left fun c hc => lowerCase_narrow (h.2 c hc), s.cased,
      String.ofList_toList]
  rw [preferredAtom_eq_some, trim_ofList fun c hc => (s.letters h.1 c hc).2, hname]
  exact s.listed

theorem written_plain (h : s.Plain) : s.written = s.pref.toList := by
  rw [written, if_neg h.1, preferredAtom_plain h, Option.getD_some]

theorem wide_head (h : ∃ c ∈ s.chars, isWideLetter c = true) : ∃ c cs, s.chars = c :: cs ∧ isWideLetter c = true := by
  obtain ⟨x, hx, hwide⟩ := h
  obtain ⟨c, cs, hcs⟩ := List.exists_cons_of_ne_nil s.chars_ne_nil
  rw [hcs] at hx
  rcases List.mem_cons.mp hx with rfl | hx
  · exact ⟨x, cs, hcs, hwide⟩
  · have htail := table_tails _ s.listed
    rw [← s.cased, hcs, List.map_cons, List.drop_one, List.tail_cons, List.all_eq_true] at htail
    have hlow := htail _ (List.mem_map_of_mem hx)
    rcases lowerCase_wide hwide with he | he <;> rw [he] at hlow <;> exact absurd hlow (by decide)

theorem written_wide (h : ∃ c ∈ s.chars, isWideLetter c = true) (hn : s.name ≠ "a0") : s.written = s.chars := by
  obtain ⟨c, cs, hcs, hwide⟩ := wide_head h
  have hnone : preferredAtom (String.ofList s.chars) = none := by
    rw [Option.eq_none_iff_forall_ne_some]
    intro p hp
    rw [preferredAtom_eq_some, trim_ofList fun c hc => (s.letters hn c hc).2] at hp
    have hnarrow := table_narrow _ hp
    have hupper : ¬ c.isUpper = true := by
      simp only [isWideLetter, Bool.or_eq_true, beq_iff_eq] at hwide
      rcases hwide with (rfl | rfl) | rfl <;> decide
    rw [toAsciiLowercase, String.toList_ofList, String.toList_ofList, hcs, List.map_cons, List.all_cons,
      Char.toLower_eq_of_not_isUpper hupper, hwide] at hnarrow
    cases hnarrow
  rw [written, if_neg hn, hnone, Option.getD_none, String.toList_ofList]

theorem written_cases (s : Spelling) : s.Plain ∧ s.written = s.pref.toList ∨
    ¬ s.Plain ∧ ∃ c cs b bs, s.written = c :: cs ∧ s.pref.toList = b :: bs ∧ c ≠ b := by
  by_cases hn : s.name = "a0"
  · have hpref := table_bohr _ s.listed
    simp only [hn, bne_self_eq_false, Bool.false_or, beq_iff_eq] at hpref
    have hgot : "angstrom0".toList = 'a' :: "ngstrom0".toList := by decide
    have hwant : "bohr".toList = 'b' :: "ohr".toList := by decide
    refine .inr ⟨fun h => h.1 hn, 'a', "ngstrom0".toList, 'b', "ohr".toList, ?_, ?_, by decide⟩
    · rw [written, if_pos hn, hgot]
    · rw [hpref, hwant]
  · by_cases hw : ∃ c ∈ s.chars, isWideLetter c = true
    · obtain ⟨c, cs, hcs, hwide⟩ := wide_head hw
      obtain ⟨b, bs, hbs⟩ := List.exists_cons_of_ne_nil (table_nonempty _ s.listed).2
      refine .inr ⟨fun h => ?_, c, cs, b, bs, by rw [written_wide hw hn, hcs], hbs, ?_⟩
      · rw [h.2 c (hcs ▸ List.mem_cons_self)] at hwide
        cases hwide
      · rintro rfl
        have hplain := (table_plain _ s.listed).2
        rw [hbs, List.all_cons, Bool.and_eq_true, Bool.and_eq_true, decide_eq_true_eq] at hplain
        have hsmall := hplain.1.2
        simp only [isWideLetter, Bool.or_eq_true, beq_iff_eq] at hwide
        rcases hwide with (rfl | rfl) | rfl <;> exact absurd hsmall (by decide)
    · have hplain : s.Plain := ⟨hn, fun c hc => by
        cases hc' : isWideLetter c with
        | false => rfl
        | true => exact absurd ⟨c, hc, hc'⟩ hw⟩
      exact .inl ⟨hplain, written_plain hplain⟩

end Spelling

end Spellings

section Expressions

def isUnitNumber (c : Char) : Bool := c == '-' || c.isDigit || c == '.'

structure UnitNumber where
  chars : List Char
  nonempty : chars ≠ []
  digits : ∀ c ∈ chars, isUnitNumber c = true

inductive UnitPower where
  | number (n : UnitNumber)
  | fraction (n m : UnitNumber)

inductive UnitExpr where
  | atom (s : Spelling)
  | product (a b : UnitExpr)
  | quotient (a b : UnitExpr)
  | group (a : UnitExpr)
  | power (a : UnitExpr) (p : UnitPower)

inductive UnitToken where
  | atom (s : Spelling)
  | op (c : Char) (h : isUnitOperator c = true)
  | number (n : UnitNumber)

def UnitPower.tokens : UnitPower → List UnitToken
  | .number n => [.number n]
  | .fraction n m => [.op '(' rfl, .number n, .op '/' rfl, .number m, .op ')' rfl]

def UnitExpr.tokens : UnitExpr → List UnitToken
  | .atom s => [.atom s]
  | .product a b => a.tokens ++ .op '*' rfl :: b.tokens
  | .quotient a b => a.tokens ++ .op '/' rfl :: b.tokens
  | .group a => .op '(' rfl :: (a.tokens ++ [.op ')' rfl])
  | .power a p => a.tokens ++ .op '^' rfl :: p.tokens

def UnitToken.word (f : Spelling → List Char) : UnitToken → List Char
  | .atom s => f s
  | .op c _ => [c]
  | .number n => n.chars

inductive Spaced : List (List Char) → List Char → Prop
  | last (blank : List Char) (h : ∀ c ∈ blank, isWhitespace c = true) : Spaced [] blank
  | word (blank w : List Char) {ws : List (List Char)} {text : List Char} (h : ∀ c ∈ blank, isWhitespace c = true)
      (hs : Spaced ws text) : Spaced (w :: ws) (blank ++ w ++ text)

def UnitExpr.Spells (e : UnitExpr) (text : String) : Prop :=
  Spaced (e.tokens.map (UnitToken.word Spelling.chars)) text.toList

theorem Spelling.pref_narrow (s : Spelling) : ∀ c ∈ s.pref.toList, isWideLetter c = false := by
  intro c hc
  have hplain := (Spelling.table_plain _ s.listed).2
  rw [List.all_eq_true] at hplain
  have hsmall := hplain c hc
  rw [Bool.and_eq_true, decide_eq_true_eq] at hsmall
  simp only [isWideLetter, Bool.or_eq_false_iff, beq_eq_false_iff_ne]
  refine ⟨⟨?_, ?_⟩, ?_⟩ <;> rintro rfl <;> exact absurd hsmall.2 (by decide)

def Spelling.preferred (s : Spelling) : Spelling where
  name := toAsciiLowercase s.pref
  pref := s.pref
  listed := Spelling.table_preferred _ s.listed
  chars := s.pref.toList
  cased := by
    rw [toAsciiLowercase, String.toList_ofList]
    exact List.map_congr_left fun c hc => Spelling.lowerCase_narrow (s.pref_narrow c hc)

def UnitExpr.preferred : UnitExpr → UnitExpr
  | .atom s => .atom s.preferred
  | .product a b => .product a.preferred b.preferred
  | .quotient a b => .quotient a.preferred b.preferred
  | .group a => .group a.preferred
  | .power a p => .power a.preferred p

def UnitExpr.Plain : UnitExpr → Prop
  | .atom s => s.Plain
  | .product a b | .quotient a b => a.Plain ∧ b.Plain
  | .group a | .power a _ => a.Plain

end Expressions

section Tokens

theorem preferred_plain (s : Spelling) : s.preferred.Plain :=
  ⟨(Spelling.table_plain _ s.listed).1, s.pref_narrow⟩

theorem UnitExpr.preferred_plain (e : UnitExpr) : e.preferred.Plain := by
  induction e with
  | atom s => exact ReadconDb.preferred_plain s
  | product a b iha ihb => exact ⟨iha, ihb⟩
  | quotient a b iha ihb => exact ⟨iha, ihb⟩
  | group a ih => exact ih
  | power a p ih => exact ih

def UnitToken.isAtom : UnitToken → Bool
  | .atom _ => true
  | _ => false

def AtomsApart (ts : List UnitToken) : Prop := ts.IsChain fun a b => a.isAtom = false ∨ b.isAtom = false

theorem atomsApart_append {ts us : List UnitToken} {c : Char} {h : isUnitOperator c = true} (ht : AtomsApart ts) (hu : AtomsApart us) :
    AtomsApart (ts ++ .op c h :: us) := by
  have hop : AtomsApart (.op c h :: us) := by
    cases us with
    | nil => exact List.isChain_singleton _
    | cons u us => exact List.isChain_cons_cons.mpr ⟨.inl rfl, hu⟩
  refine List.isChain_append.mpr ⟨ht, hop, fun a _ b hb => ?_⟩
  obtain rfl := Option.some.inj hb
  exact .inr rfl

theorem UnitPower.apart (p : UnitPower) : AtomsApart p.tokens := by
  cases p with
  | number n => exact List.isChain_singleton _
  | fraction n m => simp [UnitPower.tokens, AtomsApart, UnitToken.isAtom]

theorem UnitExpr.apart (e : UnitExpr) : AtomsApart e.tokens := by
  induction e with
  | atom s => exact List.isChain_singleton _
  | product a b iha ihb => exact atomsApart_append iha ihb
  | quotient a b iha ihb => exact atomsApart_append iha ihb
  | group a ih =>
    have hnil : AtomsApart [] := List.isChain_nil
    exact atomsApart_append hnil (atomsApart_append ih hnil)
  | power a p ih => exact atomsApart_append ih p.apart

def layout (f : Spelling → List Char) : List UnitToken → List Char → List Char
  | [], out => out
  | .op c _ :: ts, out => layout f ts (pushOperator out c)
  | t :: ts, out => layout f ts (out ++ t.word f)

variable {expr : String} {rest out : List Char}

theorem rewriteAtoms_op {c : Char} (h : isUnitOperator c = true) :
    rewriteAtoms expr (c :: rest) out = rewriteAtoms expr rest (pushOperator out c) := by
  rw [rewriteAtoms, if_pos h]

theorem number_not_op {c : Char} (h : isUnitNumber c = true) : isUnitOperator c = false := by
  simp only [isUnitNumber, Bool.or_eq_true, beq_iff_eq] at h
  simp only [isUnitOperator, Bool.or_eq_false_iff, beq_eq_false_iff_ne]
  rcases h with (rfl | h) | rfl
  · decide
  · refine ⟨⟨⟨⟨?_, ?_⟩, ?_⟩, ?_⟩, ?_⟩ <;> rintro rfl <;> exact absurd h (by decide)
  · decide

theorem atomChar_not {c : Char} (h : isAtomChar c = true) : isUnitOperator c = false ∧ isUnitNumber c = false := by
  simp only [isUnitOperator, isUnitNumber, Bool.or_eq_false_iff, beq_eq_false_iff_ne]
  have hdigit : c.isDigit = false := by
    have hlo : '0'.val.toNat = 48 := rfl
    have hhi : '9'.val.toNat = 57 := rfl
    simp only [isAtomChar, Char.isAlpha, Char.isUpper, Char.isLower, Bool.or_eq_true, decide_eq_true_eq,
      Bool.and_eq_true, ge_iff_le, UInt32.le_iff_toNat_le] at h
    simp only [Char.isDigit, Bool.and_eq_false_iff, decide_eq_false_iff_not, ge_iff_le, UInt32.le_iff_toNat_le, hlo, hhi]
    have hA : 'A'.val.toNat = 65 := rfl
    have ha : 'a'.val.toNat = 97 := rfl
    omega
  refine ⟨⟨⟨⟨⟨?_, ?_⟩, ?_⟩, ?_⟩, ?_⟩, ⟨?_, hdigit⟩, ?_⟩ <;> rintro rfl <;> exact absurd h (by decide)

theorem rewriteAtoms_number {cs : List Char} (h : ∀ c ∈ cs, isUnitNumber c = true) :
    rewriteAtoms expr (cs ++ rest) out = rewriteAtoms expr rest (out ++ cs) := by
  induction cs generalizing out with
  | nil => simp
  | cons c cs ih =>
    have hc := h c List.mem_cons_self
    have hno : ¬ isUnitOperator c = true := by simp [number_not_op hc]
    rw [List.cons_append, rewriteAtoms, if_neg hno, if_pos (by simpa [isUnitNumber] using hc),
      ih fun d hd => h d (List.mem_cons_of_mem _ hd), List.append_assoc, List.singleton_append]

theorem rewriteAtoms_atom {c : Char} {cs : List Char} (h : ∀ d ∈ c :: cs, isAtomChar d = true)
    (hr : ∀ d ∈ rest.head?, isAtomChar d = false) : rewriteAtoms expr (c :: cs ++ rest) out =
      rewriteAtoms expr rest (out ++ ((preferredAtom (String.ofList (c :: cs))).getD (String.ofList (c :: cs))).toList) := by
  have hc := h c List.mem_cons_self
  obtain ⟨hop, hnum⟩ := atomChar_not hc
  have htake : (cs ++ rest).takeWhile isAtomChar = cs := by
    rw [List.takeWhile_append_of_pos fun d hd => h d (List.mem_cons_of_mem _ hd)]
    cases rest with
    | nil => simp
    | cons r rest => simp [hr r rfl]
  have hdrop : (cs ++ rest).dropWhile isAtomChar = rest := by
    rw [List.dropWhile_append_of_pos fun d hd => h d (List.mem_cons_of_mem _ hd)]
    cases rest with
    | nil => rfl
    | cons r rest => simp [hr r rfl]
  rw [List.cons_append, rewriteAtoms, if_neg (by simp [hop]), if_neg (by simpa [isUnitNumber] using hnum), if_pos hc,
    htake, hdrop]

theorem narrow_of_lower {x y : Char} (hx : lowerCase x = y) (hy : y ≠ '\u00e5' ∧ y ≠ 'k') : isWideLetter x = false := by
  cases hw : isWideLetter x with
  | false => rfl
  | true =>
    rcases Spelling.lowerCase_wide hw with hl | hl
    · exact absurd (hx.symm.trans hl) hy.1
    · exact absurd (hx.symm.trans hl) hy.2

theorem zero_of_lower {x : Char} (h : lowerCase x = '0') : x = '0' := by
  rw [Spelling.lowerCase_narrow (narrow_of_lower h (by decide))] at h
  by_cases hu : x.isUpper
  · have hlower := Char.isLower_toLower_eq_isAlpha x
    rw [h, Char.isAlpha, hu, Bool.true_or] at hlower
    exact absurd hlower (by decide)
  · rwa [Char.toLower_eq_of_not_isUpper hu] at h

def oneLetter (c : Char) (h : lowerCase c = 'a') : Spelling :=
  ⟨"a", "angstrom", List.mem_cons_self, [c], by rw [List.map_singleton, h]; rfl⟩

@[simp] theorem oneLetter_chars {c : Char} (h : lowerCase c = 'a') : (oneLetter c h).chars = [c] := rfl

@[simp] theorem oneLetter_pref {c : Char} (h : lowerCase c = 'a') : (oneLetter c h).pref = "angstrom" := rfl

theorem oneLetter_plain {c : Char} (h : lowerCase c = 'a') : (oneLetter c h).Plain := by
  refine ⟨fun hn => absurd (show "a" = "a0" from hn) (by decide), fun x hx => ?_⟩
  rw [List.mem_singleton.mp hx]
  exact narrow_of_lower h (by decide)

-- The one alias with a digit in it.
theorem Spelling.a0_chars (s : Spelling) (h : s.name = "a0") : ∃ c, s.chars = [c, '0'] ∧
    preferredAtom (String.ofList [c]) = some "angstrom" ∧ isAtomChar c = true ∧ isWhitespace c = false := by
  have hname : "a0".toList = ['a', '0'] := by decide
  have hcased := s.cased
  rw [h, hname] at hcased
  obtain ⟨c, cs, hcs, hc, htail⟩ := List.map_eq_cons_iff.mp hcased
  obtain ⟨e, es, rfl, he, hnil⟩ := List.map_eq_cons_iff.mp htail
  obtain rfl := List.map_eq_nil_iff.mp hnil
  obtain rfl := zero_of_lower he
  have hplain := oneLetter_plain hc
  have hpref := Spelling.preferredAtom_plain hplain
  have hletters := (oneLetter c hc).letters hplain.1
  rw [oneLetter_chars] at hpref hletters
  rw [oneLetter_pref] at hpref
  exact ⟨c, hcs, hpref, hletters c List.mem_cons_self⟩

theorem Spelling.chars_solid (s : Spelling) : ∀ c ∈ s.chars, isWhitespace c = false := by
  by_cases h : s.name = "a0"
  · obtain ⟨c, hc, _, _, hsolid⟩ := s.a0_chars h
    intro x hx
    rw [hc] at hx
    rcases List.mem_cons.mp hx with rfl | hx
    · exact hsolid
    · rw [List.mem_singleton.mp hx]
      decide
  · exact fun c hc => (s.letters h c hc).2

theorem Spelling.written_solid (s : Spelling) : ∀ c ∈ s.written, isWhitespace c = false := by
  intro c hc
  rw [Spelling.written] at hc
  split at hc
  · have hall : "angstrom0".toList.all (fun c => !isWhitespace c) = true := by decide +kernel
    simpa using List.all_eq_true.mp hall c hc
  · cases hp : preferredAtom (String.ofList s.chars) with
    | none =>
      rw [hp, Option.getD_none, String.toList_ofList] at hc
      exact s.chars_solid c hc
    | some p =>
      rw [hp, Option.getD_some] at hc
      have hplain := List.all_eq_true.mp (Spelling.table_plain _ (preferredAtom_eq_some.mp hp)).2 c hc
      simp only [Bool.and_eq_true, Bool.not_eq_true'] at hplain
      exact hplain.1.2

theorem rewriteAtoms_spelling (s : Spelling) (hr : ∀ d ∈ rest.head?, isAtomChar d = false) :
    rewriteAtoms expr (s.chars ++ rest) out = rewriteAtoms expr rest (out ++ s.written) := by
  by_cases h : s.name = "a0"
  · obtain ⟨c, hc, hpref, hatom, _⟩ := s.a0_chars h
    have hzero : ∀ d ∈ ('0' :: rest).head?, isAtomChar d = false := by
      rintro d ⟨⟩
      decide
    have hword : "angstrom0".toList = "angstrom".toList ++ ['0'] := by decide +kernel
    have hfirst : rewriteAtoms expr ([c] ++ '0' :: rest) out = rewriteAtoms expr ('0' :: rest)
        (out ++ ((preferredAtom (String.ofList [c])).getD (String.ofList [c])).toList) :=
      rewriteAtoms_atom (by simpa using hatom) hzero
    rw [hpref, Option.getD_some] at hfirst
    have hdigits : ∀ d ∈ ['0'], isUnitNumber d = true := fun d hd => by
      rw [List.mem_singleton.mp hd]
      rfl
    have hsecond : rewriteAtoms expr ('0' :: rest) (out ++ "angstrom".toList) =
        rewriteAtoms expr rest (out ++ "angstrom".toList ++ ['0']) := rewriteAtoms_number hdigits
    rw [Spelling.written, if_pos h, hword, hc, ← List.append_assoc]
    exact hfirst.trans hsecond
  · obtain ⟨c, cs, hcs⟩ := List.exists_cons_of_ne_nil s.chars_ne_nil
    have hletters : ∀ d ∈ c :: cs, isAtomChar d = true := fun d hd => (s.letters h d (hcs ▸ hd)).1
    rw [Spelling.written, if_neg h, hcs]
    exact rewriteAtoms_atom hletters hr

theorem head_not_atom {ts : List UnitToken} {t : UnitToken} (h : AtomsApart (t :: ts)) (ht : t.isAtom = true) :
    ∀ d ∈ (ts.flatMap (UnitToken.word Spelling.chars)).head?, isAtomChar d = false := by
  intro d hd
  have hnot {b : Bool} (hb : isAtomChar d = true → b = false) (h : b = true) : isAtomChar d = false := by
    cases hd : isAtomChar d with
    | false => rfl
    | true => rw [hb hd] at h; cases h
  cases ts with
  | nil => cases hd
  | cons u us =>
    rcases (List.isChain_cons_cons.mp h).1 with hu | hu
    · rw [ht] at hu
      cases hu
    · cases u with
      | atom s => cases hu
      | op c hc =>
        obtain rfl := Option.some.inj hd
        exact hnot (fun h => (atomChar_not h).1) hc
      | number n =>
        obtain ⟨c, cs, hcs⟩ := List.exists_cons_of_ne_nil n.nonempty
        rw [List.flatMap_cons, UnitToken.word, hcs] at hd
        obtain rfl := Option.some.inj hd
        exact hnot (fun h => (atomChar_not h).2) (n.digits c (hcs ▸ List.mem_cons_self))

theorem rewriteAtoms_tokens {ts : List UnitToken} (h : AtomsApart ts) :
    rewriteAtoms expr (ts.flatMap (UnitToken.word Spelling.chars)) out = .ok (layout Spelling.written ts out) := by
  induction ts generalizing out with
  | nil => rw [List.flatMap_nil, rewriteAtoms, layout]
  | cons t ts ih =>
    have hrest : AtomsApart ts := h.tail
    rw [List.flatMap_cons]
    cases t with
    | atom s => rw [UnitToken.word, rewriteAtoms_spelling s (head_not_atom h rfl), ih hrest, layout, UnitToken.word]; simp
    | op c hc => rw [UnitToken.word, List.singleton_append, rewriteAtoms_op hc, ih hrest, layout]
    | number n => rw [UnitToken.word, rewriteAtoms_number n.digits, ih hrest, layout, UnitToken.word]; simp

end Tokens

end ReadconDb
