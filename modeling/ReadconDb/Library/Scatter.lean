import Mathlib

namespace Scatter

section Rows

variable {A : Type}

def place (writes : List (Nat × A)) (out : List A) : List A := writes.foldl (fun out w => out.set w.1 w.2) out

theorem length_place (writes : List (Nat × A)) (out : List A) : (place writes out).length = out.length := by
  induction writes generalizing out with
  | nil => rfl
  | cons w ws ih =>
    rw [place, List.foldl_cons]
    exact (ih _).trans List.length_set

theorem place_other {writes : List (Nat × A)} {i : Nat} (h : ∀ w ∈ writes, w.1 ≠ i) (out : List A) :
    (place writes out)[i]? = out[i]? := by
  induction writes generalizing out with
  | nil => rfl
  | cons w ws ih =>
    rw [place, List.foldl_cons]
    have hrest := ih (fun v hv => h v (List.mem_cons_of_mem _ hv)) (out.set w.1 w.2)
    exact hrest.trans (List.getElem?_set_ne (h w List.mem_cons_self))

theorem place_self {writes : List (Nat × A)} {i : Nat} {a : A} (hn : (writes.map Prod.fst).Nodup)
    (hm : (i, a) ∈ writes) {out : List A} (hi : i < out.length) : (place writes out)[i]? = some a := by
  induction writes generalizing out with
  | nil => cases hm
  | cons w ws ih =>
    rw [List.map_cons, List.nodup_cons] at hn
    rw [place, List.foldl_cons]
    rcases List.mem_cons.mp hm with rfl | hm
    · have hlater : ∀ v ∈ ws, v.1 ≠ i := fun v hv he => hn.1 (List.mem_map.mpr ⟨v, hv, he⟩)
      exact (place_other hlater _).trans (List.getElem?_set_self hi)
    · exact ih hn.2 hm (List.length_set.symm ▸ hi)

-- Writes that reach every place once leave nothing of the buffer, in whatever order they come.
theorem place_perm {writes : List (Nat × A)} {xs out : List A} (h : writes.Perm ((List.range xs.length).zip xs))
    (hl : out.length = xs.length) : place writes out = xs := by
  have hkeys : ((List.range xs.length).zip xs).map Prod.fst = List.range xs.length :=
    List.map_fst_zip (by rw [List.length_range])
  have hnodup : (writes.map Prod.fst).Nodup := by
    rw [(h.map Prod.fst).nodup_iff, hkeys]
    exact List.nodup_range
  apply List.ext_getElem?
  intro i
  cases hx : xs[i]? with
  | none =>
    rw [List.getElem?_eq_none_iff, length_place, hl]
    exact List.getElem?_eq_none_iff.mp hx
  | some a =>
    obtain ⟨hi, rfl⟩ := List.getElem?_eq_some_iff.mp hx
    refine place_self hnodup (h.mem_iff.mpr ?_) (hl.symm ▸ hi)
    refine List.mem_iff_getElem.mpr ⟨i, by simpa using hi, ?_⟩
    rw [List.getElem_zip, List.getElem_range]

end Rows

section Flat

variable {A : Type} {w : Nat}

def copyFrom (out : List A) (start : Nat) (src : List A) : List A :=
  out.take start ++ src ++ out.drop (start + src.length)

theorem copyFrom_flatten {rows : List (List A)} (hw : ∀ r ∈ rows, r.length = w) {row : List A} (hr : row.length = w)
    {i : Nat} (hi : i < rows.length) : copyFrom rows.flatten (w * i) row = (rows.set i row).flatten := by
  induction rows generalizing i with
  | nil => cases hi
  | cons r rs ih =>
    have hrw : r.length = w := hw r List.mem_cons_self
    cases i with
    | zero =>
      rw [copyFrom, List.set_cons_zero, List.flatten_cons, List.flatten_cons, Nat.mul_zero, List.take_zero, Nat.zero_add,
        List.nil_append, hr, ← hrw, List.drop_left]
    | succ i =>
      have hrest := ih (fun q hq => hw q (List.mem_cons_of_mem _ hq)) (Nat.lt_of_succ_lt_succ hi)
      have hstart : w * (i + 1) = r.length + w * i := by
        rw [hrw, Nat.mul_add, Nat.mul_one, Nat.add_comm]
      rw [List.set_cons_succ, List.flatten_cons, List.flatten_cons, ← hrest, copyFrom, copyFrom, hstart,
        Nat.add_assoc, List.take_length_add_append, List.drop_length_add_append]
      simp only [List.append_assoc]

end Flat

end Scatter
