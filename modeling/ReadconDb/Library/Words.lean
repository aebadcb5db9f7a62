import Mathlib

namespace Words

variable {A : Type} {sep : A → Bool} {blank : A}

def words (sep : A → Bool) (l : List A) : List (List A) := (l.splitOnP sep).filter (· ≠ [])

@[simp] theorem words_nil : words sep ([] : List A) = [] := by simp [words]

theorem words_append_sep {c : A} (h : sep c = true) (x y : List A) : words sep (x ++ c :: y) = words sep x ++ words sep y := by
  rw [words, List.splitOnP_append_cons x y h, List.filter_append, words, words]

theorem words_word {w : List A} (hne : w ≠ []) (h : ∀ a ∈ w, sep a = false) : words sep w = [w] := by
  rw [words, List.splitOnP_eq_singleton fun a ha => by simpa using h a ha]
  simp [hne]

-- One blank between any two words, and none before the first.
structure Tidy (sep : A → Bool) (blank : A) (l : List A) : Prop where
  starts : ∀ a ∈ l.head?, sep a = false
  apart : l.IsChain fun a b => sep a = false ∨ sep b = false
  blanks : ∀ a ∈ l, sep a = true → a = blank

theorem tidy_nil : Tidy sep blank [] := ⟨by simp, List.isChain_nil, by simp⟩

theorem Tidy.push {l : List A} {c : A} (h : Tidy sep blank l) (hc : sep c = false) : Tidy sep blank (l ++ [c]) where
  starts a ha := by
    cases l with
    | nil =>
      obtain rfl : c = a := by simpa using ha
      exact hc
    | cons b l => exact h.starts a ha
  apart := List.isChain_append.mpr ⟨h.apart, List.isChain_singleton c, fun a _ b hb => by
    obtain rfl : c = b := by simpa using hb
    exact .inr hc⟩
  blanks a ha hs := by
    rcases List.mem_append.mp ha with ha | ha
    · exact h.blanks a ha hs
    · rw [List.mem_singleton.mp ha, hc] at hs
      cases hs

theorem Tidy.pushAll {l w : List A} (h : Tidy sep blank l) (hw : ∀ a ∈ w, sep a = false) : Tidy sep blank (l ++ w) := by
  induction w generalizing l with
  | nil => rwa [List.append_nil]
  | cons a w ih =>
    have hone := h.push (hw a List.mem_cons_self)
    have hrest := ih hone fun b hb => hw b (List.mem_cons_of_mem _ hb)
    rwa [List.append_assoc] at hrest

theorem Tidy.space {l : List A} {a : A} (h : Tidy sep blank l) (hl : l.getLast? = some a) (ha : sep a = false) :
    Tidy sep blank (l ++ [blank]) where
  starts b hb := by
    cases l with
    | nil => cases hl
    | cons c l => exact h.starts b hb
  apart := List.isChain_append.mpr ⟨h.apart, List.isChain_singleton blank, fun b hb _ _ => by
    obtain rfl := Option.some.inj (hl.symm.trans hb)
    exact .inl ha⟩
  blanks b hb hs := by
    rcases List.mem_append.mp hb with hb | hb
    · exact h.blanks b hb hs
    · exact List.mem_singleton.mp hb

theorem Tidy.tail {w l : List A} {c : A} (h : Tidy sep blank (w ++ c :: l)) (hc : sep c = true) : Tidy sep blank l where
  starts a ha := by
    have hapart := (List.isChain_append.mp h.apart).2.1
    cases l with
    | nil => cases ha
    | cons b l =>
      obtain rfl : b = a := by simpa using ha
      rcases (List.isChain_cons_cons.mp hapart).1 with hn | hn
      · rw [hc] at hn
        cases hn
      · exact hn
  apart := (List.isChain_append.mp h.apart).2.1.tail
  blanks a ha hs := h.blanks a (List.mem_append_right _ (List.mem_cons_of_mem _ ha)) hs

theorem rdropWhile_append_sep {w l : List A} (h : l.rdropWhile sep ≠ []) :
    (w ++ l).rdropWhile sep = w ++ l.rdropWhile sep := by
  rw [List.rdropWhile, List.reverse_append, List.dropWhile_append]
  rw [List.rdropWhile, ne_eq, List.reverse_eq_nil_iff] at h
  rw [if_neg (by simpa using h), List.reverse_append, List.reverse_reverse, List.rdropWhile]

theorem rdropWhile_append_blank {w l : List A} (h : ∀ a ∈ l, sep a = true) :
    (w ++ l).rdropWhile sep = w.rdropWhile sep := by
  rw [List.rdropWhile, List.reverse_append, List.dropWhile_append_of_pos fun a ha => h a (List.mem_reverse.mp ha),
    List.rdropWhile]

theorem rdropWhile_ne_nil {l : List A} {a : A} (ha : a ∈ l) (hs : sep a = false) : l.rdropWhile sep ≠ [] := by
  rw [ne_eq, List.rdropWhile_eq_nil_iff]
  intro hall
  rw [hall a ha] at hs
  cases hs

theorem first_word {l : List A} (hl : l ≠ []) (hs : ∀ a ∈ l.head?, sep a = false) :
    ∃ w, w ≠ [] ∧ (∀ a ∈ w, sep a = false) ∧ (l = w ∨ ∃ c rest, sep c = true ∧ l = w ++ c :: rest) := by
  refine ⟨l.takeWhile fun a => !sep a, ?_, fun a ha => by simpa using List.mem_takeWhile_imp ha, ?_⟩
  · cases l with
    | nil => exact absurd rfl hl
    | cons a l => simp [hs a rfl]
  · have hsplit := List.takeWhile_append_dropWhile (p := fun a => !sep a) (l := l)
    cases hd : l.dropWhile fun a => !sep a with
    | nil =>
      rw [hd, List.append_nil] at hsplit
      exact .inl hsplit.symm
    | cons c rest =>
      refine .inr ⟨c, rest, ?_, ?_⟩
      · have hhead := List.head?_dropWhile_not (fun a => !sep a) l
        rw [hd] at hhead
        simpa using hhead
      · rw [← hd]
        exact hsplit.symm

theorem words_ne_nil {l : List A} (hl : l ≠ []) (hs : ∀ a ∈ l.head?, sep a = false) : words sep l ≠ [] := by
  obtain ⟨w, hw, hword, rfl | ⟨c, rest, hc, rfl⟩⟩ := first_word hl hs
  · rw [words_word hw hword]
    exact List.cons_ne_nil _ _
  · rw [words_append_sep hc, words_word hw hword]
    exact List.cons_ne_nil _ _

-- Splitting a tidy text and joining its words takes a blank off the end, and no more.
theorem Tidy.join_words {l : List A} (h : Tidy sep blank l) (hb : sep blank = true) :
    [blank].intercalate (words sep l) = l.rdropWhile sep := by
  induction hn : l.length using Nat.strong_induction_on generalizing l with
  | _ n ih =>
    by_cases hl : l = []
    · subst hl
      simp
    · obtain ⟨w, hw, hword, rfl | ⟨c, rest, hc, rfl⟩⟩ := first_word hl h.starts
      · rw [words_word hw hword, List.intercalate_singleton]
        refine (List.rdropWhile_eq_self_iff.mpr fun hne => ?_).symm
        rw [hword _ (List.getLast_mem hne)]
        exact Bool.false_ne_true
      · obtain rfl := h.blanks c (by simp) hc
        have htail := h.tail hc
        have hrest := ih rest.length (by rw [← hn]; simp; omega) htail rfl
        rw [words_append_sep hc, words_word hw hword]
        by_cases hr : rest = []
        · subst hr
          rw [words_nil, List.append_nil, List.intercalate_singleton, List.rdropWhile_concat_pos _ _ _ hc]
          refine (List.rdropWhile_eq_self_iff.mpr fun hne => ?_).symm
          rw [hword _ (List.getLast_mem hne)]
          exact Bool.false_ne_true
        · obtain ⟨a, rest, rfl⟩ := List.exists_cons_of_ne_nil hr
          have hkeep := rdropWhile_ne_nil (l := a :: rest) List.mem_cons_self (htail.starts a rfl)
          obtain ⟨v, vs, hv⟩ := List.exists_cons_of_ne_nil (words_ne_nil hr htail.starts)
          have hsplit : w ++ c :: a :: rest = (w ++ [c]) ++ a :: rest := by simp
          rw [hsplit, rdropWhile_append_sep hkeep, ← hrest, hv, List.singleton_append, List.intercalate_cons_cons]

end Words
