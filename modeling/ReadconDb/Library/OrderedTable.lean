import Mathlib

set_option linter.unusedSectionVars false

namespace OrderedTable

open Std

variable {K V A : Type} {cmp : K → K → Ordering} [TransCmp cmp] [LawfulEqCmp cmp] [DecidableEq K]

theorem get_insert (t : ExtTreeMap K V cmp) (k a : K) (v : V) :
    (t.insert k v)[a]? = if k = a then some v else t[a]? := by
  rw [ExtTreeMap.getElem?_insert]
  simp only [LawfulEqCmp.compare_eq_iff_eq]

theorem get_erase (t : ExtTreeMap K V cmp) (k a : K) :
    (t.erase k)[a]? = if k = a then none else t[a]? := by
  rw [ExtTreeMap.getElem?_erase]
  simp only [LawfulEqCmp.compare_eq_iff_eq]

theorem mem_iff_get (t : ExtTreeMap K V cmp) (a : K) : a ∈ t ↔ ∃ v, t[a]? = some v := by
  rw [← Option.isSome_iff_exists, ExtTreeMap.mem_iff_isSome_getElem?]

theorem mem_insert_iff (t : ExtTreeMap K V cmp) (k a : K) (v : V) :
    a ∈ t.insert k v ↔ k = a ∨ a ∈ t := by
  rw [ExtTreeMap.mem_insert, LawfulEqCmp.compare_eq_iff_eq]

theorem mem_erase_iff (t : ExtTreeMap K V cmp) (k a : K) :
    a ∈ t.erase k ↔ k ≠ a ∧ a ∈ t := by
  rw [ExtTreeMap.mem_erase, ne_eq, ne_eq, LawfulEqCmp.compare_eq_iff_eq]

theorem key_mem_toList {t : ExtTreeMap K V cmp} {k : K} :
    k ∈ t.toList.map Prod.fst ↔ k ∈ t := by
  rw [mem_iff_get, List.mem_map]
  constructor
  · rintro ⟨⟨a, v⟩, hm, rfl⟩
    exact ⟨v, ExtTreeMap.mem_toList_iff_getElem?_eq_some.mp hm⟩
  · rintro ⟨v, hv⟩
    exact ⟨(k, v), ExtTreeMap.mem_toList_iff_getElem?_eq_some.mpr hv, rfl⟩

theorem keys_nodup (t : ExtTreeMap K V cmp) : (t.toList.map Prod.fst).Nodup := by
  rw [List.Nodup, List.pairwise_map]
  refine t.ordered_keys_toList.imp ?_
  intro a b hab he
  rw [he] at hab
  have hs : cmp b.1 b.1 = .eq := ReflCmp.compare_self
  rw [hs] at hab
  cases hab

theorem ext_unit {s t : ExtTreeMap K Unit cmp} (h : ∀ k, k ∈ s ↔ k ∈ t) : s = t := by
  apply ExtTreeMap.ext_getElem?
  intro k
  have hk := h k
  rw [mem_iff_get, mem_iff_get] at hk
  cases hs : s[k]? with
  | none =>
    cases ht : t[k]? with
    | none => rfl
    | some v =>
      obtain ⟨u, hu⟩ := hk.mpr ⟨v, ht⟩
      rw [hs] at hu
      cases hu
  | some v =>
    obtain ⟨u, hu⟩ := hk.mp ⟨v, hs⟩
    rw [hu]

theorem takeWhile_eq_filter {p : A → Bool} {xs : List A}
    (h : xs.Pairwise fun a b => p b = true → p a = true) : xs.takeWhile p = xs.filter p := by
  induction xs with
  | nil => rfl
  | cons x xs ih =>
    obtain ⟨hx, hxs⟩ := List.pairwise_cons.mp h
    by_cases hp : p x = true
    · rw [List.takeWhile_cons_of_pos hp, List.filter_cons_of_pos hp, ih hxs]
    · rw [List.takeWhile_cons_of_neg hp, List.filter_cons_of_neg hp, eq_comm, List.filter_eq_nil_iff]
      exact fun y hy hpy => hp (hx y hy hpy)

def putAll (f : A → K) (g : A → V) (t : ExtTreeMap K V cmp) (xs : List A) : ExtTreeMap K V cmp :=
  xs.foldl (fun t x => t.insert (f x) (g x)) t

def dropAll (f : A → K) (t : ExtTreeMap K V cmp) (xs : List A) : ExtTreeMap K V cmp :=
  xs.foldl (fun t x => t.erase (f x)) t

section PutDrop

variable (f : A → K) (g : A → V)

@[simp] theorem putAll_nil (t : ExtTreeMap K V cmp) : putAll f g t [] = t := rfl

@[simp] theorem putAll_cons (t : ExtTreeMap K V cmp) (x : A) (xs : List A) :
    putAll f g t (x :: xs) = putAll f g (t.insert (f x) (g x)) xs := rfl

@[simp] theorem dropAll_nil (t : ExtTreeMap K V cmp) : dropAll f t [] = t := rfl

@[simp] theorem dropAll_cons (t : ExtTreeMap K V cmp) (x : A) (xs : List A) :
    dropAll f t (x :: xs) = dropAll f (t.erase (f x)) xs := rfl

theorem mem_putAll (t : ExtTreeMap K V cmp) (xs : List A) (a : K) :
    a ∈ putAll f g t xs ↔ a ∈ t ∨ ∃ x ∈ xs, f x = a := by
  induction xs generalizing t with
  | nil => simp
  | cons x xs ih =>
    rw [putAll_cons, ih, mem_insert_iff]
    simp only [List.mem_cons, exists_eq_or_imp]
    tauto

theorem get_putAll_of_not_mem (t : ExtTreeMap K V cmp) (xs : List A) {a : K}
    (h : ∀ x ∈ xs, f x ≠ a) : (putAll f g t xs)[a]? = t[a]? := by
  induction xs generalizing t with
  | nil => rfl
  | cons x xs ih =>
    rw [putAll_cons, ih _ (fun y hy => h y (by simp [hy])), get_insert, if_neg (h x (by simp))]

theorem get_putAll_of_mem (t : ExtTreeMap K V cmp) {xs : List A}
    (hn : (xs.map f).Nodup) {x : A} (hx : x ∈ xs) : (putAll f g t xs)[f x]? = some (g x) := by
  induction xs generalizing t with
  | nil => simp at hx
  | cons y ys ih =>
    rw [List.map_cons, List.nodup_cons] at hn
    rw [putAll_cons]
    rcases List.mem_cons.mp hx with rfl | hx
    · have hy : ∀ z ∈ ys, f z ≠ f x := fun z hz he => hn.1 (he ▸ List.mem_map_of_mem hz)
      rw [get_putAll_of_not_mem f g _ ys hy, get_insert, if_pos rfl]
    · exact ih _ hn.2 hx

theorem mem_dropAll (t : ExtTreeMap K V cmp) (xs : List A) (a : K) :
    a ∈ dropAll f t xs ↔ a ∈ t ∧ ∀ x ∈ xs, f x ≠ a := by
  induction xs generalizing t with
  | nil => simp
  | cons x xs ih =>
    rw [dropAll_cons, ih, mem_erase_iff]
    simp only [List.mem_cons, forall_eq_or_imp]
    tauto

theorem get_dropAll_of_not_mem (t : ExtTreeMap K V cmp) (xs : List A) {a : K}
    (h : ∀ x ∈ xs, f x ≠ a) : (dropAll f t xs)[a]? = t[a]? := by
  induction xs generalizing t with
  | nil => rfl
  | cons x xs ih =>
    rw [dropAll_cons, ih _ (fun y hy => h y (by simp [hy])), get_erase, if_neg (h x (by simp))]

theorem get_dropAll_of_mem (t : ExtTreeMap K V cmp) {xs : List A} {x : A} (hx : x ∈ xs) :
    (dropAll f t xs)[f x]? = none := by
  have hn : f x ∉ dropAll f t xs := fun hm => ((mem_dropAll f t xs _).mp hm).2 x hx rfl
  rwa [ExtTreeMap.mem_iff_isSome_getElem?, Bool.not_eq_true, Option.isSome_eq_false_iff,
    Option.isNone_iff_eq_none] at hn

theorem putAll_values {P : V → Prop} {t : ExtTreeMap K V cmp} {xs : List A} {a : K}
    (ht : ∀ v : V, t[a]? = some v → P v) (hx : ∀ x ∈ xs, P (g x)) {v : V}
    (hv : (putAll f g t xs)[a]? = some v) : P v := by
  induction xs generalizing t with
  | nil => exact ht v hv
  | cons x xs ih =>
    refine ih (fun w hw => ?_) (fun y hy => hx y (by simp [hy])) hv
    rw [get_insert] at hw
    split at hw
    · exact Option.some.inj hw ▸ hx x (by simp)
    · exact ht w hw

theorem get_putAll_eq_some (t : ExtTreeMap K V cmp) {xs : List A} (hn : (xs.map f).Nodup) {a : K}
    {v : V} : (putAll f g t xs)[a]? = some v ↔
      (∃ x ∈ xs, f x = a ∧ g x = v) ∨ ((∀ x ∈ xs, f x ≠ a) ∧ t[a]? = some v) := by
  by_cases h : ∃ x ∈ xs, f x = a
  · obtain ⟨x, hx, rfl⟩ := h
    rw [get_putAll_of_mem f g t hn hx, Option.some.injEq]
    constructor
    · exact fun hv => .inl ⟨x, hx, rfl, hv⟩
    · rintro (⟨y, hy, he, hv⟩ | ⟨hall, _⟩)
      · rw [← List.inj_on_of_nodup_map hn hy hx he]
        exact hv
      · exact absurd rfl (hall x hx)
  · have hne : ∀ x ∈ xs, f x ≠ a := fun x hx he => h ⟨x, hx, he⟩
    rw [get_putAll_of_not_mem f g t xs hne]
    constructor
    · exact fun hv => .inr ⟨hne, hv⟩
    · rintro (⟨x, hx, he, _⟩ | ⟨_, hv⟩)
      · exact absurd he (hne x hx)
      · exact hv

theorem get_dropAll_eq_some (t : ExtTreeMap K V cmp) (xs : List A) {a : K} {v : V} :
    (dropAll f t xs)[a]? = some v ↔ (∀ x ∈ xs, f x ≠ a) ∧ t[a]? = some v := by
  by_cases h : ∃ x ∈ xs, f x = a
  · obtain ⟨x, hx, rfl⟩ := h
    rw [get_dropAll_of_mem f t hx]
    simp only [reduceCtorEq, false_iff, not_and]
    exact fun hall => absurd rfl (hall x hx)
  · have hne : ∀ x ∈ xs, f x ≠ a := fun x hx he => h ⟨x, hx, he⟩
    rw [get_dropAll_of_not_mem f t xs hne]
    exact ⟨fun hv => ⟨hne, hv⟩, And.right⟩

end PutDrop

end OrderedTable
