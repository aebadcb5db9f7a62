import ReadconDb.Library.Blocks

namespace Extents

structure Write (X : Type) where
  offset : Nat
  data : List X

variable {X : Type}

def Write.stop (w : Write X) : Nat := w.offset + w.data.length

def Write.Covers (w : Write X) (i : Nat) : Prop := w.offset ≤ i ∧ i < w.stop

instance (w : Write X) (i : Nat) : Decidable (w.Covers i) := inferInstanceAs (Decidable (_ ∧ _))

-- A positional write: `none` stands for a byte past the end that nothing was put in.
def put (file : Nat → Option X) (w : Write X) : Nat → Option X :=
  fun i => if w.Covers i then w.data[i - w.offset]? else file i

def Write.Of (w : Write X) (text : List X) : Prop := ∀ j, j < w.data.length → w.data[j]? = text[w.offset + j]?

section Runs

variable {text : List X} {w : Write X} {ws : List (Write X)}

theorem put_of (h : w.Of text) (file : Nat → Option X) (i : Nat) :
    put file w i = if w.Covers i then text[i]? else file i := by
  rw [put]
  split
  · next hc =>
    obtain ⟨hlo, hhi⟩ := hc
    rw [Write.stop] at hhi
    rw [h (i - w.offset) (by omega), Nat.add_sub_cancel' hlo]
  · rfl

theorem puts_of (h : ∀ w ∈ ws, w.Of text) (file : Nat → Option X) (i : Nat) :
    ws.foldl put file i = if ∃ w ∈ ws, w.Covers i then text[i]? else file i := by
  induction ws generalizing file with
  | nil => simp
  | cons w ws ih =>
    rw [List.foldl_cons, ih (fun v hv => h v (List.mem_cons_of_mem w hv)), put_of (h w List.mem_cons_self)]
    simp only [List.exists_mem_cons_iff]
    by_cases hrest : ∃ v ∈ ws, v.Covers i
    · simp [hrest]
    · simp [hrest]

def Apart (v w : Write X) : Prop := ∀ i, ¬(v.Covers i ∧ w.Covers i)

instance : Std.Symm (Apart : Write X → Write X → Prop) := ⟨fun _ _ h i hi => h i hi.symm⟩

theorem covered_once (hp : ws.Pairwise Apart) {i : Nat} (h : ∃ w ∈ ws, w.Covers i) :
    ws.countP (fun w => w.Covers i) = 1 := by
  induction ws with
  | nil => simp at h
  | cons w ws ih =>
    obtain ⟨hw, hws⟩ := List.pairwise_cons.mp hp
    rw [List.countP_cons]
    by_cases hc : w.Covers i
    · have hnone : ws.countP (fun w => w.Covers i) = 0 := by
        rw [List.countP_eq_zero]
        intro v hv
        simpa using fun hvi => hw v hv i ⟨hc, hvi⟩
      simp [hnone, hc]
    · have hrest : ∃ v ∈ ws, v.Covers i := by
        obtain ⟨v, hv, hvi⟩ := h
        rcases List.mem_cons.mp hv with rfl | hv
        · exact absurd hvi hc
        · exact ⟨v, hv, hvi⟩
      simp [ih hws hrest, hc]

def Write.ofBlocks (bs : List (List X)) : List (Write X) :=
  bs.mapIdx fun r b => { offset := ((bs.map List.length).take r).sum, data := b }

theorem ofBlocks_of (bs : List (List X)) : ∀ w ∈ Write.ofBlocks bs, w.Of bs.flatten := by
  intro w hw j hj
  obtain ⟨r, hr, rfl⟩ := List.mem_mapIdx.mp hw
  exact (Blocks.flatten_at bs hr hj).symm

theorem ofBlocks_cover (bs : List (List X)) {i : Nat} (hi : i < bs.flatten.length) :
    ∃ w ∈ Write.ofBlocks bs, w.Covers i := by
  rw [List.length_flatten] at hi
  obtain ⟨r, hr, hlo, hhi⟩ := Blocks.exists_block _ hi
  have hr' : r < bs.length := by simpa using hr
  rw [Blocks.sum_take_succ _ hr, List.getElem_map] at hhi
  exact ⟨_, List.mem_mapIdx.mpr ⟨r, hr', rfl⟩, hlo, hhi⟩

theorem puts_blocks (bs : List (List X)) (file : Nat → Option X) {i : Nat} (hi : i < bs.flatten.length) :
    (Write.ofBlocks bs).foldl put file i = bs.flatten[i]? := by
  rw [puts_of (ofBlocks_of bs), if_pos (ofBlocks_cover bs hi)]

end Runs

end Extents
