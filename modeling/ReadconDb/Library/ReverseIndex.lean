import ReadconDb.Library.OrderedTable

set_option linter.unusedSectionVars false

namespace ReverseIndex

open Std OrderedTable

variable {K V : Type} {cmp : K → K → Ordering} [TransCmp cmp] [LawfulEqCmp cmp] [DecidableEq K]
  {cmp' : V → V → Ordering} [TransCmp cmp'] [LawfulEqCmp cmp'] [DecidableEq V]

-- `post` names, for every value of `fwd`, one key that carries it.
structure LinkedAt (fwd : ExtTreeMap K V cmp) (post : ExtTreeMap V K cmp') (v : V) : Prop where
  names : ∀ k : K, post[v]? = some k → fwd[k]? = some v
  posted : ∀ k : K, fwd[k]? = some v → v ∈ post

def Linked (fwd : ExtTreeMap K V cmp) (post : ExtTreeMap V K cmp') : Prop := ∀ v, LinkedAt fwd post v

variable {fwd fwd' : ExtTreeMap K V cmp} {post : ExtTreeMap V K cmp'}

theorem linked_empty : Linked (∅ : ExtTreeMap K V cmp) (∅ : ExtTreeMap V K cmp') := by
  intro v
  constructor <;> intro k h <;> simp at h

theorem Linked.put_posted (h : Linked fwd post) {k : K} {v : V} (hk : fwd[k]? = none)
    (hv : v ∈ post) : Linked (fwd.insert k v) post := by
  intro w
  constructor
  · intro j hj
    have hjw := (h w).names j hj
    rw [get_insert, if_neg]
    · exact hjw
    · rintro rfl
      rw [hk] at hjw
      cases hjw
  · intro j hj
    rw [get_insert] at hj
    split at hj
    · exact Option.some.inj hj ▸ hv
    · exact (h w).posted j hj

theorem Linked.put_new (h : Linked fwd post) {k : K} {v : V} (hk : fwd[k]? = none) :
    Linked (fwd.insert k v) (post.insert v k) := by
  intro w
  constructor
  · intro j hj
    rw [get_insert] at hj
    split at hj
    · next hvw =>
      obtain rfl := Option.some.inj hj
      rw [get_insert, if_pos rfl, hvw]
    · have hjw := (h w).names j hj
      rw [get_insert, if_neg]
      · exact hjw
      · rintro rfl
        rw [hk] at hjw
        cases hjw
  · intro j hj
    rw [get_insert] at hj
    rw [mem_insert_iff]
    split at hj
    · exact .inl (Option.some.inj hj)
    · exact .inr ((h w).posted j hj)

theorem Linked.thin (h : Linked fwd post) (hsub : ∀ (k : K) (v : V), fwd'[k]? = some v → fwd[k]? = some v) {v : V}
    (hkeep : ∀ k : K, post[v]? = some k → fwd'[k]? = some v) : LinkedAt fwd' post v where
  names := hkeep
  posted k hk := (h v).posted k (hsub k v hk)

theorem linkedAt_insert_self {k : K} {v : V} (hk : fwd[k]? = some v) :
    LinkedAt fwd (post.insert v k) v where
  names j hj := by
    rw [get_insert, if_pos rfl] at hj
    exact Option.some.inj hj ▸ hk
  posted j _ := (mem_insert_iff _ _ _ _).mpr (.inl rfl)

theorem linkedAt_erase_self {v : V} (hv : ∀ k : K, fwd[k]? ≠ some v) : LinkedAt fwd (post.erase v) v where
  names j hj := by
    rw [get_erase, if_pos rfl] at hj
    cases hj
  posted j hj := absurd hj (hv j)

theorem LinkedAt.insert_other {k : K} {v w : V} (h : LinkedAt fwd post v) (hne : w ≠ v) :
    LinkedAt fwd (post.insert w k) v where
  names j hj := by
    rw [get_insert, if_neg hne] at hj
    exact h.names j hj
  posted j hj := (mem_insert_iff _ _ _ _).mpr (.inr (h.posted j hj))

theorem LinkedAt.erase_other {v w : V} (h : LinkedAt fwd post v) (hne : w ≠ v) :
    LinkedAt fwd (post.erase w) v where
  names j hj := by
    rw [get_erase, if_neg hne] at hj
    exact h.names j hj
  posted j hj := (mem_erase_iff _ _ _).mpr ⟨hne, h.posted j hj⟩

theorem repair_all {A : Type} {repair : ExtTreeMap V K cmp' → A → ExtTreeMap V K cmp'} {val : A → V}
    {P : ExtTreeMap V K cmp' → Prop} (hP : ∀ post a, P post → P (repair post a))
    (hself : ∀ post a, P post → LinkedAt fwd (repair post a) (val a))
    (hother : ∀ post a v, P post → LinkedAt fwd post v → LinkedAt fwd (repair post a) v)
    (as : List A) (h : P post) (hrest : ∀ v, (∀ a ∈ as, val a ≠ v) → LinkedAt fwd post v) :
    Linked fwd (as.foldl repair post) := by
  induction as generalizing post with
  | nil => exact fun v => hrest v (by simp)
  | cons a as ih =>
    rw [List.foldl_cons]
    refine ih (hP post a h) fun v hv => ?_
    by_cases hav : val a = v
    · exact hav ▸ hself post a h
    · refine hother post a v h (hrest v fun b hb => ?_)
      rcases List.mem_cons.mp hb with rfl | hb
      · exact hav
      · exact hv b hb

end ReverseIndex
