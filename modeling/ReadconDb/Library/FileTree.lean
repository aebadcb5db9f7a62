import Mathlib

set_option linter.unusedSectionVars false

namespace FileTree

inductive Node (A : Type) where
  | dir
  | file (content : A)
  deriving DecidableEq

-- What stands at each path; `[]` is the tree's own root, and only a directory has anything below it.
@[ext] structure Tree (N A : Type) where
  node : List N → Option (Node A)
  closed : ∀ p n, node (p ++ [n]) ≠ none → node p = some .dir

namespace Tree

variable {N A : Type} [DecidableEq N] {t t' t'' : Tree N A} {p q : List N}

def absent (N A : Type) : Tree N A := ⟨fun _ => none, fun _ _ h => absurd rfl h⟩

theorem dir_above {r : List N} (hr : r ≠ []) (h : t.node (p ++ r) ≠ none) : t.node p = some .dir := by
  induction r using List.reverseRecOn with
  | nil => exact absurd rfl hr
  | append_singleton r n ih =>
    have hdir := t.closed (p ++ r) n (by rwa [List.append_assoc])
    by_cases hr' : r = []
    · rwa [hr', List.append_nil] at hdir
    · exact ih hr' (by rw [hdir]; exact Option.some_ne_none _)

theorem none_below (hp : t.node p = none) (h : p <+: q) : t.node q = none := by
  obtain ⟨r, rfl⟩ := h
  by_cases hr : r = []
  · rwa [hr, List.append_nil]
  · by_contra hq
    rw [dir_above hr hq] at hp
    cases hp

def isDir (t : Tree N A) (p : List N) : Bool :=
  match t.node p with
  | some .dir => true
  | _ => false

def isFile (t : Tree N A) (p : List N) : Bool :=
  match t.node p with
  | some (.file _) => true
  | _ => false

theorem isDir_iff : t.isDir p = true ↔ t.node p = some .dir := by
  unfold isDir
  split <;> simp_all

instance (t : Tree N A) (p : List N) : Decidable (t.node p = some .dir) := decidable_of_iff _ isDir_iff

def put (t : Tree N A) (p : List N) (x : Node A) : Tree N A :=
  if h : (p = [] ∨ t.isDir p.dropLast = true) ∧ t.isDir p = false then
    { node := Function.update t.node p (some x)
      closed := by
        intro q n hq
        have hdir : t.node q = some .dir := by
          by_cases hqn : q ++ [n] = p
          · subst hqn
            rcases h.1 with h' | h'
            · exact absurd h' (by simp)
            · rwa [List.dropLast_concat, isDir_iff] at h'
          · rw [Function.update_of_ne hqn] at hq
            exact t.closed q n hq
        by_cases hqp : q = p
        · subst hqp
          rw [isDir_iff.mpr hdir] at h
          exact absurd h.2 (by simp)
        · rwa [Function.update_of_ne hqp] }
  else t

theorem put_node (hp : p = [] ∨ t.node p.dropLast = some .dir) (hd : t.node p ≠ some .dir) (x : Node A) (q : List N) :
    (t.put p x).node q = if q = p then some x else t.node q := by
  have hroom : p = [] ∨ t.isDir p.dropLast = true := hp.imp_right isDir_iff.mpr
  have hfree : t.isDir p = false := by
    rw [Bool.eq_false_iff, Ne, isDir_iff]
    exact hd
  rw [put, dif_pos ⟨hroom, hfree⟩]
  exact Function.update_apply _ _ _ _

def prune (t : Tree N A) (p : List N) : Tree N A where
  node q := if p <+: q then none else t.node q
  closed q n h := by
    split at h
    · exact absurd rfl h
    · next hn =>
      rw [if_neg fun hq => hn (hq.trans (List.prefix_append q [n]))]
      exact t.closed q n h

theorem prune_node : (t.prune p).node q = if p <+: q then none else t.node q := rfl

-- A file in a directory's place is not removed, nor a directory in a file's.
def removeDirAll (t : Tree N A) (p : List N) : Tree N A := if t.isDir p then t.prune p else t

def removeFile (t : Tree N A) (p : List N) : Tree N A := if t.isFile p then t.prune p else t

theorem removeDirAll_node :
    (t.removeDirAll p).node q = if t.node p = some .dir ∧ p <+: q then none else t.node q := by
  rw [removeDirAll]
  by_cases h : t.node p = some .dir
  · rw [if_pos (isDir_iff.mpr h), prune_node]
    simp [h]
  · rw [if_neg (mt isDir_iff.mp h), if_neg fun hd => h hd.1]

theorem removeDirAll_root (h : t.node [] = some .dir) : t.removeDirAll [] = absent N A := by
  refine Tree.ext (funext fun q => ?_)
  rw [removeDirAll_node, if_pos ⟨h, List.nil_prefix⟩]
  rfl

theorem removeFile_put_self {p : List N} (hp : p = [] ∨ t.node p.dropLast = some .dir) (hn : t.node p = none) (a : A) :
    (t.put p (.file a)).removeFile p = t := by
  have hput (q : List N) := put_node (t := t) hp (by rw [hn]; exact (Option.some_ne_none _).symm) (.file a) q
  have hfile : (t.put p (.file a)).isFile p = true := by
    rw [isFile, hput, if_pos rfl]
  refine Tree.ext (funext fun q => ?_)
  rw [removeFile, if_pos hfile, prune_node]
  split
  · next hq => rw [none_below hn hq]
  · next hq =>
    rw [hput, if_neg]
    rintro rfl
    exact hq (List.prefix_refl q)

theorem removeFile_none {n : N} (h : t.node [n] = none) : (t.removeFile p).node [n] = none := by
  rw [removeFile]
  split
  · rw [prune_node, h, ite_self]
  · exact h

section Grows

def Grows (names : List N) (t t' : Tree N A) : Prop :=
  ∀ q, t'.node q = t.node q ∨ t.node q = none ∧ ∃ n ∈ names, [n] <+: q ∧ t'.node [n] = some .dir

variable {names more : List N}

theorem Grows.refl (names : List N) (t : Tree N A) : Grows names t t := fun _ => .inl rfl

theorem Grows.mono (h : Grows names t t') (hsub : names ⊆ more) : Grows more t t' := by
  intro q
  rcases h q with he | ⟨hnone, n, hn, hq⟩
  · exact .inl he
  · exact .inr ⟨hnone, n, hsub hn, hq⟩

theorem grows_put {n : N} (hp : p = [] ∨ t.node p.dropLast = some .dir) (hnone : t.node p = none) {x : Node A}
    (hq : [n] <+: p) (hd : (t.put p x).node [n] = some .dir) : Grows [n] t (t.put p x) := by
  intro q
  rw [put_node hp (by rw [hnone]; exact (Option.some_ne_none _).symm)]
  split
  · next h =>
    subst h
    exact .inr ⟨hnone, n, by simp, hq, hd⟩
  · exact .inl rfl

theorem Grows.keeps (h : Grows names t t') {x : Node A} (hx : t.node q = some x) : t'.node q = some x := by
  rcases h q with he | ⟨hn, _⟩
  · rw [he, hx]
  · rw [hx] at hn
    cases hn

theorem Grows.trans (h : Grows names t t') (h' : Grows more t' t'') : Grows (names ++ more) t t'' := by
  intro q
  rcases h' q with he' | ⟨hn', n, hn, hq, hd⟩
  · rcases h q with he | ⟨hnone, n, hn, hq, hd⟩
    · exact .inl (he'.trans he)
    · exact .inr ⟨hnone, n, by simp [hn], hq, h'.keeps hd⟩
  · refine .inr ⟨?_, n, by simp [hn], hq, hd⟩
    by_contra hne
    obtain ⟨x, hx⟩ := Option.ne_none_iff_exists'.mp hne
    rw [h.keeps hx] at hn'
    cases hn'

theorem Grows.same (h : Grows names t t') {n : N} (hn : n ∉ names) (hq : [n] <+: q) : t'.node q = t.node q := by
  rcases h q with he | ⟨_, m, hm, hmq, _⟩
  · exact he
  · have hnm : [n] = [m] := (List.prefix_of_prefix_length_le hq hmq le_rfl).eq_of_length rfl
    obtain rfl := List.singleton_inj.mp hnm
    exact absurd hm hn

theorem removeDirAlls_node (names : List N) (t : Tree N A) (q : List N) :
    (names.foldl (fun t n => t.removeDirAll [n]) t).node q =
      if ∃ n ∈ names, [n] <+: q ∧ t.node [n] = some .dir then none else t.node q := by
  induction names generalizing t with
  | nil => simp
  | cons n names ih =>
    rw [List.foldl_cons, ih]
    by_cases hn : t.node [n] = some .dir ∧ [n] <+: q
    · have hnode : (t.removeDirAll [n]).node q = none := by rw [removeDirAll_node, if_pos hn]
      rw [hnode, ite_self, if_pos ⟨n, by simp, hn.2, hn.1⟩]
    · have hnode : (t.removeDirAll [n]).node q = t.node q := by rw [removeDirAll_node, if_neg hn]
      rw [hnode]
      refine if_congr ?_ rfl rfl
      constructor
      · rintro ⟨m, hm, hq, hd⟩
        rw [removeDirAll_node] at hd
        split at hd
        · cases hd
        · exact ⟨m, by simp [hm], hq, hd⟩
      · rintro ⟨m, hm, hq, hd⟩
        rcases List.mem_cons.mp hm with rfl | hm
        · exact absurd ⟨hd, hq⟩ hn
        · refine ⟨m, hm, hq, ?_⟩
          rw [removeDirAll_node, if_neg]
          · exact hd
          · rintro ⟨hdir, hnm⟩
            have hmn : [n] = [m] := hnm.eq_of_length rfl
            obtain rfl := List.singleton_inj.mp hmn
            exact hn ⟨hdir, hq⟩

theorem Grows.rollback (h : Grows names t t') (hnew : ∀ n ∈ names, t.node [n] ≠ some .dir) :
    names.foldl (fun t n => t.removeDirAll [n]) t' = t := by
  refine Tree.ext (funext fun q => ?_)
  rw [removeDirAlls_node]
  split
  · next hd =>
    obtain ⟨n, hn, hq, hdir⟩ := hd
    have habsent : t.node [n] = none := by
      rcases h [n] with he | ⟨hnone, _⟩
      · exact absurd (he.symm.trans hdir) (hnew n hn)
      · exact hnone
    exact (none_below habsent hq).symm
  · next hd =>
    rcases h q with he | ⟨_, n, hn, hq, hdir⟩
    · exact he
    · exact absurd ⟨n, hn, hq, hdir⟩ hd

theorem Grows.rollback_lost (h : Grows names t t') {n : N} (hn : n ∈ names) (hd : t.node [n] = some .dir) :
    (names.foldl (fun t n => t.removeDirAll [n]) t').node [n] = none := by
  rw [removeDirAlls_node, if_pos ⟨n, hn, List.prefix_refl _, h.keeps hd⟩]

end Grows

end Tree

end FileTree
