import Mathlib

set_option linter.unusedSectionVars false

namespace SortedList

variable {A : Type} [LinearOrder A]

theorem sublist_of_subset {xs ys : List A} (hx : xs.Pairwise (· < ·)) (hy : ys.Pairwise (· < ·))
    (h : xs ⊆ ys) : xs.Sublist ys :=
  List.sublist_of_subperm_of_pairwise (List.subperm_of_subset hx.nodup h) hx hy

theorem mem_take_of_sublist {xs ys : List A} {a : A} (h : xs.Sublist ys) (hy : ys.Nodup) (hx : a ∈ xs) (n : Nat)
    (ha : a ∈ ys.take n) : a ∈ xs.take n := by
  induction h generalizing n with
  | slnil => cases hx
  | @cons xs ys b hs ih =>
    obtain ⟨hb, hy⟩ := List.nodup_cons.mp hy
    cases n with
    | zero => simp at ha
    | succ n =>
      rw [List.take_succ_cons, List.mem_cons] at ha
      rcases ha with rfl | ha
      · exact absurd (hs.subset hx) hb
      · exact (List.take_sublist_take_left n.le_succ).subset (ih hy hx n ha)
  | @cons_cons xs ys b hs ih =>
    obtain ⟨hb, hy⟩ := List.nodup_cons.mp hy
    cases n with
    | zero => simp at ha
    | succ n =>
      rw [List.take_succ_cons, List.mem_cons] at ha ⊢
      rcases ha with rfl | ha
      · exact .inl rfl
      · rcases List.mem_cons.mp hx with rfl | hx
        · exact .inl rfl
        · exact .inr (ih hy hx n ha)

theorem take_eq_take {xs ys : List A} (hx : xs.Pairwise (· < ·)) (hy : ys.Pairwise (· < ·)) (h : xs ⊆ ys) {n : Nat}
    (hn : ys.take n ⊆ xs) : xs.take n = ys.take n := by
  induction n generalizing xs ys with
  | zero => simp
  | succ n ih =>
    cases ys with
    | nil => rw [List.subset_nil.mp h]
    | cons y ys =>
      obtain ⟨hlow, hys⟩ := List.pairwise_cons.mp hy
      cases xs with
      | nil => simp at hn
      | cons x xs =>
        obtain ⟨hmin, hxs⟩ := List.pairwise_cons.mp hx
        have hyx : y ∈ x :: xs := hn (by simp)
        have hxy : x ∈ y :: ys := h (by simp)
        obtain rfl : x = y := by
          rcases List.mem_cons.mp hyx with he | hyx
          · exact he.symm
          · rcases List.mem_cons.mp hxy with he | hxy
            · exact he
            · exact absurd ((hmin y hyx).trans (hlow x hxy)) (lt_irrefl x)
        have hsub : xs ⊆ ys := by
          intro a ha
          exact (List.mem_cons.mp (h (by simp [ha]))).resolve_left (hmin a ha).ne'
        have htake : ys.take n ⊆ xs := by
          intro a ha
          have hlt := hlow a (List.mem_of_mem_take ha)
          exact (List.mem_cons.mp (hn (by simp [ha]))).resolve_left hlt.ne'
        rw [List.take_succ_cons, List.take_succ_cons, ih hxs hys hsub htake]

theorem take_merge {parts : List (List A)} {whole merged : List A} (n : Nat) (hw : whole.Pairwise (· < ·))
    (hp : ∀ p ∈ parts, p.Pairwise (· < ·)) (hm : ∀ a, a ∈ whole ↔ ∃ p ∈ parts, a ∈ p)
    (ht : merged.Pairwise (· < ·)) (hmm : ∀ a, a ∈ merged ↔ ∃ p ∈ parts, a ∈ p.take n) :
    merged.take n = whole.take n := by
  apply take_eq_take ht hw
  · intro a ha
    obtain ⟨p, hpm, ha⟩ := (hmm a).mp ha
    exact (hm a).mpr ⟨p, hpm, List.mem_of_mem_take ha⟩
  · intro a ha
    obtain ⟨p, hpm, hap⟩ := (hm a).mp (List.mem_of_mem_take ha)
    have hsub : p ⊆ whole := fun b hb => (hm b).mpr ⟨p, hpm, hb⟩
    exact (hmm a).mpr ⟨p, hpm, mem_take_of_sublist (sublist_of_subset (hp p hpm) hw hsub) hw.nodup hap n ha⟩

theorem mergeSort_pairwise {xs : List A} (h : xs.Nodup) : xs.mergeSort.Pairwise (· < ·) := by
  have hle : xs.mergeSort.Pairwise (· ≤ ·) := List.pairwise_mergeSort' (· ≤ ·) xs
  have hne : xs.mergeSort.Nodup := (List.mergeSort_perm xs _).nodup_iff.mpr h
  exact hle.imp₂ (fun _ _ hle hne => lt_of_le_of_ne hle hne) hne

end SortedList
