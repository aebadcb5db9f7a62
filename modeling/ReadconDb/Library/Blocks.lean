import Mathlib

namespace Blocks

section Scan

variable {M : Type} [Add M]

def scan (a : M) : List M → List (M × M)
  | [] => []
  | x :: xs => (a, a + x) :: scan (a + x) xs

theorem scan_hom {f : Nat → M} (hf : ∀ m n, f (m + n) = f m + f n) (s : Nat) (ns : List Nat) :
    scan (f s) (ns.map f) = (List.range ns.length).map fun r => (f (s + (ns.take r).sum), f (s + (ns.take (r + 1)).sum)) := by
  induction ns generalizing s with
  | nil => rfl
  | cons n ns ih =>
    rw [List.map_cons, scan, ← hf, ih (s + n), List.length_cons, List.range_succ_eq_map, List.map_cons, List.map_map]
    congr 1
    apply List.map_congr_left
    intro r _
    simp [Nat.add_assoc]

end Scan

section Sums

theorem mem_le_sum {ns : List Nat} {n : Nat} (h : n ∈ ns) : n ≤ ns.sum := List.single_le_sum (by simp) n h

theorem sum_take_le (ns : List Nat) (r : Nat) : (ns.take r).sum ≤ ns.sum := by
  have h := congrArg List.sum (List.take_append_drop r ns)
  rw [List.sum_append] at h
  omega

theorem sum_take_succ (ns : List Nat) {r : Nat} (hr : r < ns.length) :
    (ns.take (r + 1)).sum = (ns.take r).sum + ns[r] := by
  rw [List.take_add_one, List.getElem?_eq_getElem hr, List.sum_append]
  simp

theorem sum_take_mono (ns : List Nat) {r q : Nat} (h : r ≤ q) : (ns.take r).sum ≤ (ns.take q).sum := by
  have ht := sum_take_le (ns.take q) r
  rwa [List.take_take, Nat.min_eq_left h] at ht

theorem sums_lt_iff (ns : List Nat) {cap : Nat} (hc : 0 < cap) :
    (∀ r < ns.length, (ns.take (r + 1)).sum < cap) ↔ ns.sum < cap := by
  constructor
  · intro h
    cases ns with
    | nil => exact hc
    | cons n ns =>
      have hlast := h ns.length (by simp)
      rwa [List.take_of_length_le (by simp)] at hlast
  · exact fun h r _ => (sum_take_le ns (r + 1)).trans_lt h

theorem starts_lt_iff (ns : List Nat) {cap : Nat} (hc : 0 < cap) :
    (∀ r < ns.length, (ns.take r).sum < cap) ↔ ns.dropLast.sum < cap := by
  rw [List.dropLast_eq_take]
  constructor
  · intro h
    cases ns with
    | nil => exact hc
    | cons n ns => exact h ns.length (by simp)
  · intro h r hr
    exact (sum_take_mono ns (by omega)).trans_lt h

theorem exists_block (ns : List Nat) {i : Nat} (h : i < ns.sum) :
    ∃ r < ns.length, (ns.take r).sum ≤ i ∧ i < (ns.take (r + 1)).sum := by
  induction ns generalizing i with
  | nil => exact absurd h (Nat.not_lt_zero i)
  | cons n ns ih =>
    by_cases hi : i < n
    · exact ⟨0, by simp, by simp, by simpa using hi⟩
    · rw [List.sum_cons] at h
      have hlt : i - n < ns.sum := by omega
      obtain ⟨r, hr, hlo, hhi⟩ := ih hlt
      refine ⟨r + 1, by simpa using hr, ?_, ?_⟩
      · rw [List.take_succ_cons, List.sum_cons]
        omega
      · rw [List.take_succ_cons, List.sum_cons]
        omega

theorem flatten_at {X : Type} (bs : List (List X)) {r : Nat} (hr : r < bs.length) {j : Nat} (hj : j < bs[r].length) :
    bs.flatten[((bs.map List.length).take r).sum + j]? = bs[r][j]? := by
  induction bs generalizing r with
  | nil => exact absurd hr (Nat.not_lt_zero r)
  | cons b bs ih =>
    cases r with
    | zero =>
      have hj' : j < b.length := hj
      rw [List.flatten_cons, List.map_cons, List.take_zero, List.sum_nil, Nat.zero_add, List.getElem?_append_left hj']
      rfl
    | succ r =>
      have hr' : r < bs.length := by simpa using hr
      rw [List.flatten_cons, List.map_cons, List.take_succ_cons, List.sum_cons, Nat.add_assoc,
        List.getElem?_append_right (Nat.le_add_right _ _), Nat.add_sub_cancel_left]
      exact ih hr' hj

theorem flatten_get {X : Type} {bs : List (List X)} {r : Nat} {b : List X} (h : bs[r]? = some b) {j : Nat}
    (hj : j < b.length) : bs.flatten[((bs.map List.length).take r).sum + j]? = b[j]? := by
  obtain ⟨hr, rfl⟩ := List.getElem?_eq_some_iff.mp h
  exact flatten_at bs hr hj

-- A sum that grows by small steps and never shows in the upper half of its range has not passed it.
theorem no_wrap (p : Nat → Nat) {cap gap : Nat} (h0 : p 0 < cap) (hg : gap ≤ cap) (hstep : ∀ k, p (k + 1) ≤ p k + gap)
    (hlow : ∀ k, p k % (2 * cap) < cap) (k : Nat) : p k < cap := by
  induction k with
  | zero => exact h0
  | succ k ih =>
    have hs := hstep k
    have hl := hlow (k + 1)
    rwa [Nat.mod_eq_of_lt (by omega)] at hl

end Sums

section Pieces

variable {X : Type}

def piece (xs : List X) (lo hi : Nat) : List X := (xs.drop lo).take (hi - lo)

theorem piece_append {xs : List X} {lo mid hi : Nat} (h : lo ≤ mid) (h' : mid ≤ hi) :
    piece xs lo mid ++ piece xs mid hi = piece xs lo hi := by
  have hdrop : xs.drop mid = (xs.drop lo).drop (mid - lo) := by rw [List.drop_drop, Nat.add_sub_cancel' h]
  rw [piece, piece, piece, hdrop, ← List.take_add]
  congr 1
  omega

theorem piece_all (xs : List X) : piece xs 0 xs.length = xs := by simp [piece]

theorem length_piece {xs : List X} {lo hi : Nat} (h : hi ≤ xs.length) : (piece xs lo hi).length = hi - lo := by
  rw [piece, List.length_take, List.length_drop]
  omega

theorem piece_flatten {bs : List (List X)} {r : Nat} {b : List X} (h : bs[r]? = some b) :
    piece bs.flatten ((bs.map List.length).take r).sum (((bs.map List.length).take r).sum + b.length) = b := by
  apply List.ext_getElem?
  intro j
  rw [piece, Nat.add_sub_cancel_left, List.getElem?_take]
  split
  · next hj => rw [List.getElem?_drop, flatten_get h hj]
  · next hj => rw [List.getElem?_eq_none (by omega)]

theorem map_mapIdx {A B C : Type} (g : B → C) (f : Nat → A → B) (xs : List A) :
    (xs.mapIdx f).map g = xs.mapIdx fun r a => g (f r a) := by
  apply List.ext_getElem
  · simp
  · intro r _ _
    simp

theorem mapIdx_eq_range {A B : Type} {f : Nat → A → B} {g : Nat → B} {xs : List A}
    (h : ∀ r a, xs[r]? = some a → f r a = g r) : xs.mapIdx f = (List.range xs.length).map g := by
  apply List.ext_getElem?
  intro r
  rw [List.getElem?_mapIdx, List.getElem?_map]
  cases hr : xs[r]? with
  | none => rw [List.getElem?_eq_none (by simpa using hr)]; rfl
  | some a =>
    have hlt := (List.getElem?_eq_some_iff.mp hr).1
    rw [List.getElem?_range hlt, Option.map_some, Option.map_some, h r a hr]

def chunksExact (w : Nat) (xs : List X) : List (List X) :=
  (List.range (xs.length / w)).map fun i => piece xs (i * w) ((i + 1) * w)

theorem chunksExact_flatMap {Y : Type} {f : Y → List X} {w : Nat} (hw : 0 < w) (hf : ∀ y, (f y).length = w)
    (ys : List Y) : chunksExact w (ys.flatMap f) = ys.map f := by
  have hlen : (ys.flatMap f).length = ys.length * w := by
    rw [List.length_flatMap]
    simp [hf]
  rw [chunksExact, hlen, Nat.mul_div_cancel _ hw]
  induction ys with
  | nil => rfl
  | cons y ys ih =>
    have hrest : (ys.flatMap f).length = ys.length * w := by
      rw [List.length_flatMap]
      simp [hf]
    rw [List.length_cons, List.range_succ_eq_map, List.map_cons, List.map_cons, List.map_map, ← ih hrest, List.flatMap_cons]
    congr 1
    · rw [piece, Nat.zero_mul, List.drop_zero, Nat.zero_add, Nat.one_mul, Nat.sub_zero, ← hf y, List.take_left]
    · apply List.map_congr_left
      intro i _
      have hd : (i + 1) * w = (f y).length + i * w := by rw [hf, Nat.add_mul, Nat.one_mul, Nat.add_comm]
      have hw' : (i + 1 + 1) * w - (i + 1) * w = (i + 1) * w - i * w := by
        rw [← Nat.sub_mul, ← Nat.sub_mul]
        congr 1
        omega
      change piece (f y ++ ys.flatMap f) ((i + 1) * w) ((i + 1 + 1) * w) = _
      rw [piece, piece, hw', hd, ← List.drop_drop, List.drop_left]

theorem pieces_flatten {cut : Nat → Nat} (hc : Monotone cut) (xs : List X) (n : Nat) :
    ((List.range n).map fun r => piece xs (cut r) (cut (r + 1))).flatten = piece xs (cut 0) (cut n) := by
  induction n with
  | zero => simp [piece]
  | succ n ih =>
    rw [List.range_succ, List.map_append, List.flatten_append, ih, List.map_singleton, List.flatten_singleton]
    exact piece_append (hc (Nat.zero_le n)) (hc (Nat.le_succ n))

end Pieces

section Spans

theorem piece_range {n lo hi : Nat} (h : hi ≤ n) : piece (List.range n) lo hi = List.range' lo (hi - lo) := by
  apply List.ext_getElem
  · rw [length_piece (by simpa using h), List.length_range']
  · intro i h1 _
    simp [piece]

inductive Consecutive : Nat → List (Nat × Nat) → Nat → Prop
  | nil (a : Nat) : Consecutive a [] a
  | cons {a b c : Nat} {rest : List (Nat × Nat)} (h : a < b) (t : Consecutive b rest c) : Consecutive a ((a, b) :: rest) c

theorem Consecutive.le {a c : Nat} {rs : List (Nat × Nat)} (h : Consecutive a rs c) : a ≤ c := by
  induction h with
  | nil => exact le_rfl
  | cons h _ ih => exact h.le.trans ih

theorem Consecutive.initial {a c : Nat} {rs pre : List (Nat × Nat)} (h : Consecutive a rs c) (hp : pre <+: rs) :
    ∃ b ≤ c, Consecutive a pre b := by
  induction h generalizing pre with
  | nil a =>
    rw [List.prefix_nil] at hp
    subst hp
    exact ⟨a, le_rfl, .nil a⟩
  | @cons a b c rest h t ih =>
    rcases List.prefix_cons_iff.mp hp with rfl | ⟨pre', rfl, hp'⟩
    · exact ⟨a, h.le.trans t.le, .nil a⟩
    · obtain ⟨stop, hle, hcons⟩ := ih hp'
      exact ⟨stop, hle, .cons h hcons⟩

theorem Consecutive.covers {a c : Nat} {rs : List (Nat × Nat)} (h : Consecutive a rs c) (i : Nat) :
    rs.countP (fun r => r.1 ≤ i ∧ i < r.2) = if a ≤ i ∧ i < c then 1 else 0 := by
  induction h with
  | nil a => simp
  | @cons a b c rest h t ih =>
    have hle := t.le
    rw [List.countP_cons, ih]
    by_cases hb : i < b
    · have hc : i < c := by omega
      simp [hb, hc, Nat.not_le.mpr hb]
    · have ha : a ≤ i := by omega
      have hbi : b ≤ i := by omega
      simp [hb, ha, hbi]

theorem Consecutive.flatten {a c : Nat} {rs : List (Nat × Nat)} (h : Consecutive a rs c) :
    rs.flatMap (fun r => List.range' r.1 (r.2 - r.1)) = List.range' a (c - a) := by
  induction h with
  | nil a => simp
  | @cons a b c rest h t ih =>
    have hle := t.le
    rw [List.flatMap_cons, ih]
    have hb : a + (b - a) = b := by omega
    have hc : b - a + (c - b) = c - a := by omega
    have hrange : List.range' a (b - a) ++ List.range' (a + (b - a)) (c - b) = List.range' a (b - a + (c - b)) :=
      List.range'_append_1
    rwa [hb, hc] at hrange

end Spans

end Blocks
