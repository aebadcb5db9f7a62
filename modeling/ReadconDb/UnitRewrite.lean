import ReadconDb.UnitExpr
import ReadconDb.Catalog

set_option linter.unusedSectionVars false

namespace ReadconDb

open ByteString Outcome Words

section Spacing

variable {ws : List (List Char)} {text : List Char}

def Solid (w : List Char) : Prop := w ≠ [] ∧ ∀ c ∈ w, isWhitespace c = false

theorem Spaced.after {blank : List Char} (hb : ∀ c ∈ blank, isWhitespace c = true) (h : Spaced ws text) :
    Spaced ws (blank ++ text) := by
  have hmore {b : List Char} (h : ∀ c ∈ b, isWhitespace c = true) : ∀ c ∈ blank ++ b, isWhitespace c = true :=
    fun c hc => (List.mem_append.mp hc).elim (hb c) (h c)
  cases h with
  | last b h => exact .last _ (hmore h)
  | word b w h hs =>
    rw [← List.append_assoc, ← List.append_assoc]
    exact .word _ w (hmore h) hs

theorem Spaced.filter (h : Spaced ws text) (hw : ∀ w ∈ ws, Solid w) :
    text.filter (fun c => !isWhitespace c) = ws.flatten := by
  have hblank {b : List Char} (h : ∀ c ∈ b, isWhitespace c = true) : b.filter (fun c => !isWhitespace c) = [] :=
    List.filter_eq_nil_iff.mpr fun c hc => by simp [h c hc]
  induction h with
  | last b h => rw [hblank h, List.flatten_nil]
  | word b w h hs ih =>
    have hword : w.filter (fun c => !isWhitespace c) = w :=
      List.filter_eq_self.mpr fun c hc => by simp [(hw w List.mem_cons_self).2 c hc]
    rw [List.filter_append, List.filter_append, hblank h, hword, ih fun v hv => hw v (List.mem_cons_of_mem _ hv),
      List.nil_append, List.flatten_cons]

theorem Spaced.dropWhile (h : Spaced ws text) (hw : ∀ w ∈ ws, Solid w) : Spaced ws (text.dropWhile isWhitespace) := by
  cases h with
  | last b h =>
    rw [List.dropWhile_eq_nil_iff.mpr h]
    exact .last [] (by simp)
  | word b w h hs =>
    obtain ⟨c, cs, rfl⟩ := List.exists_cons_of_ne_nil (hw w List.mem_cons_self).1
    have hc := (hw _ List.mem_cons_self).2 c List.mem_cons_self
    rw [List.append_assoc, List.dropWhile_append_of_pos h, List.cons_append, List.dropWhile_cons_of_neg (by simp [hc])]
    exact .word [] (c :: cs) (by simp) hs

theorem rdropWhile_solid {x w : List Char} (hw : Solid w) (t : List Char) :
    (x ++ w ++ t).rdropWhile isWhitespace = x ++ w ++ t.rdropWhile isWhitespace := by
  obtain ⟨c, cs, hcs⟩ := List.exists_cons_of_ne_nil (show w.reverse ≠ [] by simpa using hw.1)
  have hc : isWhitespace c = false := hw.2 c (List.mem_reverse.mp (hcs ▸ List.mem_cons_self))
  have hkeep : (x ++ w).rdropWhile isWhitespace = x ++ w := by
    rw [List.rdropWhile, List.reverse_append, hcs, List.cons_append, List.dropWhile_cons_of_neg (by simp [hc]),
      ← List.cons_append, ← hcs, ← List.reverse_append, List.reverse_reverse]
  cases ht : t.rdropWhile isWhitespace with
  | nil => rw [rdropWhile_append_blank (List.rdropWhile_eq_nil_iff.mp ht), hkeep, List.append_nil]
  | cons a l => rw [rdropWhile_append_sep (by simp [ht]), ht]

theorem Spaced.rdropWhile (h : Spaced ws text) (hw : ∀ w ∈ ws, Solid w) : Spaced ws (text.rdropWhile isWhitespace) := by
  induction h with
  | last b h =>
    rw [List.rdropWhile_eq_nil_iff.mpr h]
    exact .last [] (by simp)
  | word b w h hs ih =>
    rw [rdropWhile_solid (hw w List.mem_cons_self)]
    exact .word b w h (ih fun v hv => hw v (List.mem_cons_of_mem _ hv))

theorem toList_trim (s : String) : (trim s).toList = (s.toList.dropWhile isWhitespace).rdropWhile isWhitespace := by
  rw [trim, String.toList_ofList, List.rdropWhile]

theorem Spaced.trim {s : String} (h : Spaced ws s.toList) (hw : ∀ w ∈ ws, Solid w) :
    Spaced ws (ReadconDb.trim s).toList := by
  rw [toList_trim]
  exact (h.dropWhile hw).rdropWhile hw

end Spacing

section Layout

variable {f : Spelling → List Char}

theorem operator_solid {c : Char} (h : isUnitOperator c = true) : Solid [c] := by
  refine ⟨List.cons_ne_nil _ _, fun d hd => ?_⟩
  rw [List.mem_singleton.mp hd]
  simp only [isUnitOperator, Bool.or_eq_true, beq_iff_eq] at h
  rcases h with (((rfl | rfl) | rfl) | rfl) | rfl <;> decide

theorem UnitNumber.solid (n : UnitNumber) : Solid n.chars := by
  refine ⟨n.nonempty, fun c hc => ?_⟩
  have hnum := n.digits c hc
  simp only [isUnitNumber, Bool.or_eq_true, beq_iff_eq] at hnum
  rcases hnum with (rfl | hdigit) | rfl
  · decide
  · have hlo : '0'.val.toNat = 48 := rfl
    have hhi : '9'.val.toNat = 57 := rfl
    simp only [Char.isDigit, Bool.and_eq_true, decide_eq_true_eq, ge_iff_le, UInt32.le_iff_toNat_le, hlo, hhi] at hdigit
    simp only [isWhitespace, Bool.or_eq_false_iff, Bool.and_eq_false_iff, decide_eq_false_iff_not, beq_eq_false_iff_ne]
    omega
  · decide

theorem Spelling.solid_chars (s : Spelling) : Solid s.chars := ⟨s.chars_ne_nil, s.chars_solid⟩

theorem Spelling.solid_written (s : Spelling) : Solid s.written := by
  refine ⟨?_, s.written_solid⟩
  rcases s.written_cases with ⟨_, h⟩ | ⟨_, c, cs, _, _, h, _⟩ <;> rw [h]
  · exact (Spelling.table_nonempty _ s.listed).2
  · exact List.cons_ne_nil _ _

theorem words_solid (hf : ∀ s, Solid (f s)) (ts : List UnitToken) : ∀ w ∈ ts.map (UnitToken.word f), Solid w := by
  intro w hw
  obtain ⟨t, _, rfl⟩ := List.mem_map.mp hw
  cases t with
  | atom s => exact hf s
  | op c h => exact operator_solid h
  | number n => exact n.solid

theorem pushOperator_eq (out : List Char) (c : Char) : ∃ b b' : List Char, pushOperator out c = out ++ b ++ [c] ++ b' ∧
    (∀ x ∈ b, isWhitespace x = true) ∧ ∀ x ∈ b', isWhitespace x = true := by
  have hblank : ∀ x ∈ [' '], isWhitespace x = true := by simp [isWhitespace]
  rw [pushOperator]
  split <;> split
  · exact ⟨[' '], [' '], rfl, hblank, hblank⟩
  · exact ⟨[], [' '], by simp, by simp, hblank⟩
  · exact ⟨[' '], [], by simp, hblank, by simp⟩
  · exact ⟨[], [], by simp, by simp, by simp⟩

theorem layout_spaced (f : Spelling → List Char) (ts : List UnitToken) (out : List Char) :
    ∃ y, layout f ts out = out ++ y ∧ Spaced (ts.map (UnitToken.word f)) y := by
  induction ts generalizing out with
  | nil => exact ⟨[], by simp [layout], .last [] (by simp)⟩
  | cons t ts ih =>
    cases t with
    | atom s =>
      obtain ⟨y, hy, hs⟩ := ih (out ++ f s)
      exact ⟨f s ++ y, by simp [layout, UnitToken.word, hy], .word [] (f s) (by simp) hs⟩
    | op c h =>
      obtain ⟨b, b', hpush, hb, hb'⟩ := pushOperator_eq out c
      obtain ⟨y, hy, hs⟩ := ih (pushOperator out c)
      refine ⟨b ++ [c] ++ (b' ++ y), ?_, .word b [c] hb (hs.after hb')⟩
      rw [layout, hy, hpush]
      simp
    | number n =>
      obtain ⟨y, hy, hs⟩ := ih (out ++ n.chars)
      exact ⟨n.chars ++ y, by simp [layout, UnitToken.word, hy], .word [] n.chars (by simp) hs⟩

theorem pushOperator_tidy {out : List Char} {c : Char} (h : Tidy isWhitespace ' ' out) (hc : isUnitOperator c = true) :
    Tidy isWhitespace ' ' (pushOperator out c) := by
  have hsolid := (operator_solid hc).2 c List.mem_cons_self
  have hend {l : List Char} (hl : Tidy isWhitespace ' ' l) :
      Tidy isWhitespace ' ' (if c != '(' && c != '^' then l ++ [c] ++ [' '] else l ++ [c]) := by
    have hpush := hl.push hsolid
    split
    · exact hpush.space List.getLast?_concat hsolid
    · exact hpush
  have hopen : Tidy isWhitespace ' '
      (if !out.isEmpty && out.getLast? != some ' ' && c != ')' && c != '^' then out ++ [' '] else out) := by
    split
    next hcond =>
      simp only [Bool.and_eq_true, bne_iff_ne, ne_eq] at hcond
      obtain ⟨a, ha⟩ : ∃ a, out.getLast? = some a := by
        cases hl : out.getLast? with
        | none => simp [List.getLast?_eq_none_iff.mp hl] at hcond
        | some a => exact ⟨a, rfl⟩
      have hlast : isWhitespace a = false := by
        cases hw : isWhitespace a with
        | false => rfl
        | true =>
          obtain rfl := h.blanks a (List.mem_of_getLast? ha) hw
          exact absurd ha hcond.1.1.2
      exact h.space ha hlast
    next => exact h
  exact hend hopen

theorem layout_tidy (hf : ∀ s, Solid (f s)) {ts : List UnitToken} {out : List Char} (h : Tidy isWhitespace ' ' out) :
    Tidy isWhitespace ' ' (layout f ts out) := by
  induction ts generalizing out with
  | nil => exact h
  | cons t ts ih =>
    cases t with
    | atom s => exact ih (h.pushAll (hf s).2)
    | op c hc => exact ih (pushOperator_tidy h hc)
    | number n => exact ih (h.pushAll n.solid.2)

end Layout

section Canonical

variable {F : Type} [Float64 F]

theorem join_layout {f : Spelling → List Char} (hf : ∀ s, Solid (f s)) (ts : List UnitToken) :
    (" ".intercalate (splitWhitespace (String.ofList (layout f ts [])))).toList =
      (layout f ts []).rdropWhile isWhitespace := by
  have hsplit : (splitWhitespace (String.ofList (layout f ts []))).map String.toList =
      words isWhitespace (layout f ts []) := by
    rw [splitWhitespace, List.map_map, String.toList_ofList, words]
    simp [Function.comp_def]
  rw [String.toList_intercalate, hsplit]
  exact (layout_tidy hf tidy_nil).join_words (by decide)

def Spelling.prefers (s : Spelling) : List Char := s.pref.toList

theorem Spelling.solid_prefers (s : Spelling) : Solid s.prefers := s.preferred.solid_chars

theorem layout_written (ts : List UnitToken) : ∃ r, (layout Spelling.written ts []).rdropWhile isWhitespace = r ∧
    Spaced (ts.map (UnitToken.word Spelling.written)) r := by
  obtain ⟨y, hy, hs⟩ := layout_spaced Spelling.written ts []
  rw [List.nil_append] at hy
  refine ⟨_, rfl, ?_⟩
  rw [hy]
  exact hs.rdropWhile (words_solid Spelling.solid_written ts)

theorem UnitExpr.tokens_ne_nil (e : UnitExpr) : e.tokens ≠ [] := by
  cases e <;> simp [UnitExpr.tokens]

theorem Spaced.ne_nil {ws : List (List Char)} {text : List Char} (h : Spaced ws text) (hws : ws ≠ [])
    (hw : ∀ w ∈ ws, Solid w) : text ≠ [] := by
  cases h with
  | last => exact absurd rfl hws
  | word b w h hs =>
    have hne := (hw w List.mem_cons_self).1
    simp [hne]

theorem canonicalizeUnit_spelled {d : Crates F} {e : UnitExpr} {expr : String} (hs : e.Spells expr)
    (hp : ∃ x, d.unitConversionFactor (trim expr) (trim expr) = .ok x) :
    canonicalizeUnit d expr =
      .ok (" ".intercalate (splitWhitespace (String.ofList (layout Spelling.written e.tokens [])))) := by
  obtain ⟨x, hx⟩ := hp
  have hsolid := words_solid Spelling.solid_chars e.tokens
  have htrim := Spaced.trim hs hsolid
  have hne : trim expr ≠ "" := by
    intro h
    rw [h] at htrim
    exact htrim.ne_nil (by simpa using e.tokens_ne_nil) hsolid rfl
  have hfilter : (trim expr).toList.filter (fun c => !isWhitespace c) = e.tokens.flatMap (UnitToken.word Spelling.chars) := by
    rw [htrim.filter hsolid, List.flatMap]
  rw [canonicalizeUnit]
  simp only [hne, if_false, uc, hx, hfilter, rewriteAtoms_tokens e.apart]
  rfl

def UnitToken.preferred : UnitToken → UnitToken
  | .atom s => .atom s.preferred
  | t => t

theorem UnitPower.preferred_tokens (p : UnitPower) : p.tokens.map UnitToken.preferred = p.tokens := by
  cases p <;> rfl

theorem UnitExpr.preferred_tokens (e : UnitExpr) : e.preferred.tokens = e.tokens.map UnitToken.preferred := by
  induction e with
  | atom s => rfl
  | product a b iha ihb => simp [UnitExpr.preferred, UnitExpr.tokens, iha, ihb, UnitToken.preferred]
  | quotient a b iha ihb => simp [UnitExpr.preferred, UnitExpr.tokens, iha, ihb, UnitToken.preferred]
  | group a ih => simp [UnitExpr.preferred, UnitExpr.tokens, ih, UnitToken.preferred]
  | power a p ih => simp [UnitExpr.preferred, UnitExpr.tokens, ih, UnitToken.preferred, p.preferred_tokens]

theorem UnitExpr.preferred_words (e : UnitExpr) :
    e.preferred.tokens.map (UnitToken.word Spelling.chars) = e.tokens.map (UnitToken.word Spelling.prefers) := by
  rw [e.preferred_tokens, List.map_map]
  refine List.map_congr_left fun t _ => ?_
  cases t <;> rfl

theorem layout_preferred (ts : List UnitToken) (out : List Char) :
    layout Spelling.written (ts.map UnitToken.preferred) out = layout Spelling.prefers ts out := by
  induction ts generalizing out with
  | nil => rfl
  | cons t ts ih =>
    cases t with
    | atom s =>
      have hs : s.preferred.written = s.prefers := Spelling.written_plain (preferred_plain s)
      change layout Spelling.written _ (out ++ s.preferred.written) = layout Spelling.prefers ts (out ++ s.prefers)
      rw [hs, ih]
    | op c h => exact ih (pushOperator out c)
    | number n => exact ih (out ++ n.chars)

theorem UnitExpr.plain_iff (e : UnitExpr) : e.Plain ↔ ∀ s, UnitToken.atom s ∈ e.tokens → s.Plain := by
  have hpower (p : UnitPower) (s : Spelling) : UnitToken.atom s ∉ p.tokens := by cases p <;> simp [UnitPower.tokens]
  induction e with
  | atom s => simp [UnitExpr.Plain, UnitExpr.tokens]
  | product a b iha ihb => simp [UnitExpr.Plain, UnitExpr.tokens, iha, ihb, or_imp, forall_and]
  | quotient a b iha ihb => simp [UnitExpr.Plain, UnitExpr.tokens, iha, ihb, or_imp, forall_and]
  | group a ih => simp [UnitExpr.Plain, UnitExpr.tokens, ih]
  | power a p ih => simp [UnitExpr.Plain, UnitExpr.tokens, ih, hpower]

theorem layout_plain {ts : List UnitToken} (h : ∀ s, UnitToken.atom s ∈ ts → s.Plain) (out : List Char) :
    layout Spelling.written ts out = layout Spelling.prefers ts out := by
  induction ts generalizing out with
  | nil => rfl
  | cons t ts ih =>
    have hrest := ih fun s hs => h s (List.mem_cons_of_mem _ hs)
    cases t with
    | atom s =>
      change layout Spelling.written ts (out ++ s.written) = layout Spelling.prefers ts (out ++ s.prefers)
      rw [Spelling.written_plain (h s List.mem_cons_self), hrest, Spelling.prefers]
    | op c hc => exact hrest (pushOperator out c)
    | number n => exact hrest (out ++ n.chars)

-- Where the letters agree, every atom came out as its preferred name: a wrong one differs at its first letter.
theorem plain_of_flatten {ts : List UnitToken} (h : (ts.map (UnitToken.word Spelling.written)).flatten =
    (ts.map (UnitToken.word Spelling.prefers)).flatten) : ∀ s, UnitToken.atom s ∈ ts → s.Plain := by
  induction ts with
  | nil => simp
  | cons t ts ih =>
    rw [List.map_cons, List.map_cons, List.flatten_cons, List.flatten_cons] at h
    intro s hs
    cases t with
    | op c hc =>
      have hrest := ih (List.append_cancel_left h)
      exact (List.mem_cons.mp hs).elim (fun he => by cases he) (hrest s)
    | number n =>
      have hrest := ih (List.append_cancel_left h)
      exact (List.mem_cons.mp hs).elim (fun he => by cases he) (hrest s)
    | atom u =>
      rcases u.written_cases with ⟨hplain, hw⟩ | ⟨_, c, cs, b, bs, hw, hp, hne⟩
      · rw [UnitToken.word, UnitToken.word, hw, Spelling.prefers] at h
        rcases List.mem_cons.mp hs with he | hs
        · obtain rfl := UnitToken.atom.inj he
          exact hplain
        · exact ih (List.append_cancel_left h) s hs
      · rw [UnitToken.word, UnitToken.word, hw, Spelling.prefers, hp, List.cons_append, List.cons_append] at h
        exact absurd (List.cons.inj h).1 hne

theorem trim_result {out : List Char} (h : Tidy isWhitespace ' ' out) {r : String}
    (hr : r.toList = out.rdropWhile isWhitespace) : trim r = r := by
  rw [← String.toList_inj, toList_trim, hr]
  have hstart : (out.rdropWhile isWhitespace).dropWhile isWhitespace = out.rdropWhile isWhitespace := by
    cases hc : out.rdropWhile isWhitespace with
    | nil => rfl
    | cons c cs =>
      obtain ⟨t, ht⟩ := List.rdropWhile_prefix isWhitespace out
      have hhead : out.head? = some c := by rw [← ht, hc]; rfl
      rw [List.dropWhile_cons_of_neg (by simp [h.starts c hhead])]
  rw [hstart, List.rdropWhile_idempotent]

-- The expression in its preferred names, laid out as the rewriting lays it out.
def UnitExpr.canonical (e : UnitExpr) : String :=
  " ".intercalate (splitWhitespace (String.ofList (layout Spelling.prefers e.tokens [])))

-- Where the parser knows a spelling of an expression, it knows the canonical one.
def AcceptsPreferred (d : Crates F) : Prop :=
  ∀ (e : UnitExpr) (s : String), e.Spells s → (∃ x, d.unitConversionFactor s s = .ok x) →
    ∃ x, d.unitConversionFactor e.canonical e.canonical = .ok x

def RewritesUnit (d : Crates F) (e : UnitExpr) (expr : String) : Prop :=
  ∃ r, canonicalizeUnit d expr = .ok r ∧ e.preferred.Spells r ∧ canonicalizeUnit d r = .ok r

theorem rewritesUnit_iff_plain {d : Crates F} (hd : AcceptsPreferred d) {e : UnitExpr} {expr : String}
    (hs : e.Spells expr) (hp : ∃ x, d.unitConversionFactor (trim expr) (trim expr) = .ok x) :
    RewritesUnit d e expr ↔ e.Plain := by
  have hcall := canonicalizeUnit_spelled hs hp
  obtain ⟨out, hout, hspaced⟩ := layout_written e.tokens
  have hjoin := (join_layout Spelling.solid_written e.tokens).trans hout
  have hsolid := words_solid Spelling.solid_written e.tokens
  constructor
  · rintro ⟨r, hr, hspells, _⟩
    obtain rfl := Except.ok.inj (hcall.symm.trans hr)
    rw [UnitExpr.Spells, hjoin, e.preferred_words] at hspells
    refine e.plain_iff.mpr (plain_of_flatten ?_)
    rw [← hspaced.filter hsolid, hspells.filter (words_solid Spelling.solid_prefers e.tokens)]
  · intro hplain
    have hall := e.plain_iff.mp hplain
    have hsame := layout_plain hall []
    have hwords : e.tokens.map (UnitToken.word Spelling.written) = e.tokens.map (UnitToken.word Spelling.prefers) := by
      refine List.map_congr_left fun t ht => ?_
      cases t with
      | atom s => exact Spelling.written_plain (hall s ht)
      | op c h => rfl
      | number n => rfl
    have hspells : e.preferred.Spells (" ".intercalate (splitWhitespace (String.ofList (layout Spelling.written e.tokens [])))) := by
      rw [UnitExpr.Spells, hjoin, e.preferred_words, ← hwords]
      exact hspaced
    have htrim := trim_result (layout_tidy Spelling.solid_written tidy_nil) (join_layout Spelling.solid_written e.tokens)
    have haccept := hd e _ (Spaced.trim hs (words_solid Spelling.solid_chars e.tokens)) hp
    rw [UnitExpr.canonical, ← hsame] at haccept
    have hagain := canonicalizeUnit_spelled hspells (by rwa [htrim])
    rw [e.preferred_tokens, layout_preferred, ← hsame] at hagain
    exact ⟨_, hcall, hspells, hagain⟩

end Canonical

section Tiny

def kilojoule : Spelling := ⟨"kj", "kJ", by decide, "kJ".toList, by decide⟩

def mole : Spelling := ⟨"mol", "mol", by decide, "Mol".toList, by decide⟩

def bohrRadius : Spelling := ⟨"a0", "bohr", by decide, "a0".toList, by decide⟩

def molarEnergy : UnitExpr := .quotient (.atom kilojoule) (.atom mole)

theorem tiny_accepts (s : String) : ∃ x, tiny.unitConversionFactor s s = .ok x := by
  refine ⟨.one, ?_⟩
  change tinyFactor s s = .ok .one
  rw [tinyFactor, if_pos rfl]

theorem tiny_acceptsPreferred : AcceptsPreferred tiny := fun _ _ _ _ => tiny_accepts _

theorem molarEnergy_spells : molarEnergy.Spells " kJ/Mol" := by
  have htext : " kJ/Mol".toList = [' '] ++ "kJ".toList ++ ([] ++ ['/'] ++ ([] ++ "Mol".toList ++ [])) := by decide
  rw [UnitExpr.Spells, htext]
  exact .word _ _ (by simp [isWhitespace]) (.word _ _ (by simp) (.word _ _ (by simp) (.last _ (by simp))))

theorem molarEnergy_plain : molarEnergy.Plain := by
  refine ⟨⟨by decide, ?_⟩, ⟨by decide, ?_⟩⟩
  · exact fun c hc => by simpa using List.all_eq_true.mp (show "kJ".toList.all (fun c => !isWideLetter c) = true by decide) c hc
  · exact fun c hc => by simpa using List.all_eq_true.mp (show "Mol".toList.all (fun c => !isWideLetter c) = true by decide) c hc

theorem molarEnergy_rewritten : RewritesUnit tiny molarEnergy " kJ/Mol" :=
  (rewritesUnit_iff_plain tiny_acceptsPreferred molarEnergy_spells (tiny_accepts _)).mpr molarEnergy_plain

theorem bohrRadius_spells : (UnitExpr.atom bohrRadius).Spells "a0" := by
  have htext : "a0".toList = [] ++ "a0".toList ++ [] := by decide
  rw [UnitExpr.Spells, htext]
  exact .word _ _ (by simp) (.last _ (by simp))

-- The loop cuts the alias in two at its digit, and reads the first half as another one.
theorem bohrRadius_misread : canonicalizeUnit tiny "a0" = .ok "angstrom0" ∧
    ¬ RewritesUnit tiny (.atom bohrRadius) "a0" := by
  have hcall : canonicalizeUnit tiny "a0" = .ok "angstrom0" := by
    rw [canonicalizeUnit_spelled bohrRadius_spells (tiny_accepts _)]
    decide +kernel
  refine ⟨hcall, ?_⟩
  rintro ⟨r, hr, hs, _⟩
  obtain rfl := Except.ok.inj (hcall.symm.trans hr)
  have hwords := Spaced.filter hs (words_solid Spelling.solid_chars _)
  exact absurd hwords (by decide +kernel)

end Tiny

end ReadconDb
