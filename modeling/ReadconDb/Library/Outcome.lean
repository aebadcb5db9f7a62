import Mathlib

namespace Outcome

variable {E A B C : Type}

theorem bind_eq_ok {x : Except E A} {f : A → Except E B} {b : B} :
    (x >>= f) = .ok b ↔ ∃ a, x = .ok a ∧ f a = .ok b := by
  cases x with
  | error e => simp [bind, Except.bind]
  | ok a => simp [bind, Except.bind]

theorem map_eq_ok {x : Except E A} {f : A → B} {b : B} :
    (f <$> x) = .ok b ↔ ∃ a, x = .ok a ∧ f a = b := by
  cases x with
  | error e => simp [Functor.map, Except.map]
  | ok a => simp [Functor.map, Except.map]

theorem mapError_eq_ok {E' : Type} {x : Except E A} {f : E → E'} {a : A} : x.mapError f = .ok a ↔ x = .ok a := by
  cases x <;> simp [Except.mapError]

@[simp] theorem pure_eq_ok {a b : A} : (pure a : Except E A) = .ok b ↔ a = b := by
  simp [pure, Except.pure]

theorem mapM_eq_ok {f : A → Except E B} {xs : List A} {ys : List B} :
    xs.mapM f = .ok ys ↔ List.Forall₂ (fun x y => f x = .ok y) xs ys := by
  induction xs generalizing ys with
  | nil => cases ys <;> simp
  | cons x xs ih =>
    rw [List.mapM_cons, bind_eq_ok]
    constructor
    · rintro ⟨y, hy, h⟩
      obtain ⟨zs, hzs, h⟩ := bind_eq_ok.mp h
      rw [pure_eq_ok] at h
      subst h
      exact .cons hy (ih.mp hzs)
    · intro h
      cases h with
      | cons hy hys => exact ⟨_, hy, bind_eq_ok.mpr ⟨_, ih.mpr hys, rfl⟩⟩

theorem mapM_ok_of_forall {f : A → Except E B} {g : A → B} {xs : List A}
    (h : ∀ x ∈ xs, f x = .ok (g x)) : xs.mapM f = .ok (xs.map g) := by
  rw [mapM_eq_ok, List.forall₂_map_right_iff, List.forall₂_same]
  exact h

theorem mapM_length {f : A → Except E B} {xs : List A} {ys : List B}
    (h : xs.mapM f = .ok ys) : ys.length = xs.length :=
  (mapM_eq_ok.mp h).length_eq.symm

theorem mapM_agree {f g : A → Except E B} {xs : List A} {ys : List B} (hf : xs.mapM f = .ok ys)
    (hg : xs.mapM g = .ok ys) : ∀ x ∈ xs, f x = g x := by
  rw [mapM_eq_ok] at hf hg
  induction hf with
  | nil => simp
  | cons hfx _ ih =>
    obtain ⟨hgx, hg⟩ := List.forall₂_cons.mp hg
    rw [List.forall_mem_cons]
    exact ⟨hfx.trans hgx.symm, ih hg⟩

theorem mapM_append_ok {f : A → Except E B} {xs xs' : List A} {ys ys' : List B}
    (h : xs.mapM f = .ok ys) (h' : xs'.mapM f = .ok ys') :
    (xs ++ xs').mapM f = .ok (ys ++ ys') :=
  mapM_eq_ok.mpr (List.rel_append (mapM_eq_ok.mp h) (mapM_eq_ok.mp h'))

theorem forall₂_split {R : A → C → Prop} {P : A → B → Prop} {Q : B → C → Prop}
    (hR : ∀ a c, R a c → ∃ b, P a b ∧ Q b c) {xs : List A} {zs : List C} (h : List.Forall₂ R xs zs) :
    ∃ ys, List.Forall₂ P xs ys ∧ List.Forall₂ Q ys zs := by
  induction h with
  | nil => exact ⟨[], .nil, .nil⟩
  | cons hac _ ih =>
    obtain ⟨b, hp, hq⟩ := hR _ _ hac
    obtain ⟨ys, hps, hqs⟩ := ih
    exact ⟨b :: ys, .cons hp hps, .cons hq hqs⟩

theorem forall₂_join {R : A → C → Prop} {P : A → B → Prop} {Q : B → C → Prop}
    (hR : ∀ a b c, P a b → Q b c → R a c) {xs : List A} {ys : List B} {zs : List C}
    (hp : List.Forall₂ P xs ys) (hq : List.Forall₂ Q ys zs) : List.Forall₂ R xs zs := by
  induction hp generalizing zs with
  | nil =>
    cases hq
    exact .nil
  | cons h _ ih =>
    cases hq with
    | cons hbc hqs => exact .cons (hR _ _ _ h hbc) (ih hqs)

theorem forall₂_mem_right {P : A → B → Prop} {xs : List A} {ys : List B} (h : List.Forall₂ P xs ys) {y : B}
    (hy : y ∈ ys) : ∃ x ∈ xs, P x y := by
  induction h with
  | nil => cases hy
  | cons hp _ ih =>
    rcases List.mem_cons.mp hy with rfl | hy
    · exact ⟨_, by simp, hp⟩
    · obtain ⟨x, hx, hxy⟩ := ih hy
      exact ⟨x, by simp [hx], hxy⟩

theorem forall₂_mem_left {P : A → B → Prop} {xs : List A} {ys : List B} (h : List.Forall₂ P xs ys) {x : A}
    (hx : x ∈ xs) : ∃ y ∈ ys, P x y := by
  induction h with
  | nil => cases hx
  | cons hp _ ih =>
    rcases List.mem_cons.mp hx with rfl | hx
    · exact ⟨_, by simp, hp⟩
    · obtain ⟨y, hy, hxy⟩ := ih hx
      exact ⟨y, by simp [hy], hxy⟩

theorem forall₂_with_mem {P : A → B → Prop} {xs : List A} {ys : List B} (h : List.Forall₂ P xs ys) :
    List.Forall₂ (fun x y => x ∈ xs ∧ P x y) xs ys :=
  (List.forall₂_and_left _ _).mpr ⟨fun _ hx => hx, h⟩

theorem forall₂_pairwise {P : A → B → Prop} {R : A → A → Prop} {S : B → B → Prop}
    (hS : ∀ x x' y y', R x x' → P x y → P x' y' → S y y') {xs : List A} {ys : List B}
    (h : List.Forall₂ P xs ys) (hR : xs.Pairwise R) : ys.Pairwise S := by
  induction h with
  | nil => exact .nil
  | @cons x y xs ys hp hps ih =>
    obtain ⟨hx, hxs⟩ := List.pairwise_cons.mp hR
    refine List.pairwise_cons.mpr ⟨fun y' hy' => ?_, ih hxs⟩
    obtain ⟨x', hx', hp'⟩ := forall₂_mem_right hps hy'
    exact hS x x' y y' (hx x' hx') hp hp'

theorem foldlM_cons_ok {f : B → A → Except E B} {b c : B} {x : A} {xs : List A} :
    (x :: xs).foldlM f b = .ok c ↔ ∃ b', f b x = .ok b' ∧ xs.foldlM f b' = .ok c := by
  rw [List.foldlM_cons, bind_eq_ok]

theorem foldlM_flatMap {f : B → A → Except E B} (g : C → List A) (xs : List C) (b : B) :
    xs.foldlM (fun b x => (g x).foldlM f b) b = (xs.flatMap g).foldlM f b := by
  induction xs generalizing b with
  | nil => rfl
  | cons x xs ih =>
    rw [List.foldlM_cons, List.flatMap_cons, List.foldlM_append]
    exact congrArg _ (funext fun _ => ih _)

theorem foldlM_preserves {I : B → Prop} {f : B → A → Except E B} {xs : List A} {b c : B}
    (step : ∀ b x b', x ∈ xs → I b → f b x = .ok b' → I b') (hb : I b) (h : xs.foldlM f b = .ok c) : I c := by
  induction xs generalizing b with
  | nil => exact pure_eq_ok.mp h ▸ hb
  | cons x xs ih =>
    obtain ⟨b', hx, h⟩ := foldlM_cons_ok.mp h
    exact ih (fun b y b'' hy => step b y b'' (by simp [hy])) (step b x b' (by simp) hb hx) h

end Outcome
