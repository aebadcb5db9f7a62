import ReadconDb.Library.ByteString

namespace Framing

open ByteString

section SelfDelimiting

variable {A B : Type}

def SelfDelimiting (P : A → Prop) (f : A → List B) : Prop :=
  ∀ x y, P x → P y → ∀ a b, f x ++ a = f y ++ b → x = y ∧ a = b

theorem SelfDelimiting.flatMap {P : A → Prop} {f : A → List B} (h : SelfDelimiting P f) (hne : ∀ x, f x ≠ [])
    {xs ys : List A} (hx : ∀ x ∈ xs, P x) (hy : ∀ y ∈ ys, P y) (he : xs.flatMap f = ys.flatMap f) : xs = ys := by
  induction xs generalizing ys with
  | nil =>
    cases ys with
    | nil => rfl
    | cons y ys => exact absurd (List.append_eq_nil_iff.mp he.symm).1 (hne y)
  | cons x xs ih =>
    cases ys with
    | nil => exact absurd (List.append_eq_nil_iff.mp he).1 (hne x)
    | cons y ys =>
      obtain ⟨rfl, hrest⟩ := h x y (hx x (by simp)) (hy y (by simp)) _ _ he
      rw [ih (fun z hz => hx z (by simp [hz])) (fun z hz => hy z (by simp [hz])) hrest]

theorem length_le_flatMap {f : A → List B} {x : A} {xs : List A} (h : x ∈ xs) :
    (f x).length ≤ (xs.flatMap f).length :=
  (List.sublist_flatten_of_mem (List.mem_map_of_mem h)).length_le

end SelfDelimiting

section Frame

variable {w : Nat}

def frame (w : Nat) (part : Bytes) : Bytes := leBytes w part.length ++ part

@[simp] theorem length_frame (part : Bytes) : (frame w part).length = w + part.length := by
  rw [frame, List.length_append, length_leBytes]

theorem frame_selfDelimiting : SelfDelimiting (fun part => part.length < 256 ^ w) (frame w) := by
  intro x y hx hy a b he
  rw [frame, frame, List.append_assoc, List.append_assoc] at he
  obtain ⟨hlen, hrest⟩ := List.append_inj he (by rw [length_leBytes, length_leBytes])
  exact List.append_inj hrest (leBytes_inj hx hy hlen)

theorem fits_of_flatMap {parts : List Bytes} (h : (parts.flatMap (frame w)).length < 256 ^ w) :
    ∀ part ∈ parts, part.length < 256 ^ w := by
  intro part hm
  have hle := length_le_flatMap (f := frame w) hm
  rw [length_frame] at hle
  exact ((Nat.le_add_left _ w).trans hle).trans_lt h

end Frame

section Sections

variable {I : Type}

abbrev Sect (I : Type) := I × List (Bytes × Bytes)

def rowParts (rows : List (Bytes × Bytes)) : List Bytes := rows.flatMap fun row => [row.1, row.2]

def parts (label : I → Bytes) (sect : Sect I) : List Bytes := label sect.1 :: rowParts sect.2

-- No count closes a section: it ends where a part is the label of one that may follow.
def Sealed (label : I → Bytes) (followers : I → List I) : List (Sect I) → Prop
  | [] => True
  | sect :: rest =>
    (∀ row ∈ sect.2, ∀ i ∈ followers sect.1, row.1 ≠ label i) ∧
      (∀ next ∈ rest.head?, next.1 ∈ followers sect.1) ∧ Sealed label followers rest

theorem sealed_of_chain {label : I → Bytes} {followers : I → List I} {s : List (Sect I)}
    (hkeys : ∀ sect ∈ s, ∀ row ∈ sect.2, ∀ i ∈ followers sect.1, row.1 ≠ label i)
    (hnames : (s.map Prod.fst).IsChain fun i j => j ∈ followers i) : Sealed label followers s := by
  induction s with
  | nil => trivial
  | cons sect s ih =>
    refine ⟨hkeys sect (by simp), ?_, ih (fun sect' hs => hkeys sect' (by simp [hs])) hnames.tail⟩
    cases s with
    | nil => simp
    | cons next s =>
      rintro _ ⟨⟩
      exact (List.isChain_cons_cons.mp hnames).1

theorem rowParts_inj {rows rows' : List (Bytes × Bytes)} {q q' : List Bytes}
    (h : ∀ row ∈ rows, q'.head? ≠ some row.1) (h' : ∀ row ∈ rows', q.head? ≠ some row.1)
    (he : rowParts rows ++ q = rowParts rows' ++ q') : rows = rows' ∧ q = q' := by
  induction rows generalizing rows' with
  | nil =>
    cases rows' with
    | nil => exact ⟨rfl, he⟩
    | cons row rows' =>
      obtain rfl : q = _ := he
      exact absurd rfl (h' row (by simp))
  | cons row rows ih =>
    cases rows' with
    | nil =>
      obtain rfl : _ = q' := he
      exact absurd rfl (h row (by simp))
    | cons row' rows' =>
      obtain ⟨hk, he⟩ := List.cons.inj he
      obtain ⟨hv, he⟩ := List.cons.inj he
      obtain ⟨rfl, hq⟩ := ih (fun r hr => h r (by simp [hr])) (fun r hr => h' r (by simp [hr])) he
      exact ⟨by rw [Prod.ext hk hv], hq⟩

variable {label : I → Bytes} {followers : I → List I}

theorem Sealed.stops {i : I} {own rows : List (Bytes × Bytes)} {rest : List (Sect I)}
    (hs : Sealed label followers ((i, own) :: rest))
    (hrows : ∀ row ∈ rows, ∀ j ∈ followers i, row.1 ≠ label j) :
    ∀ row ∈ rows, (rest.flatMap (parts label)).head? ≠ some row.1 := by
  intro row hrow he
  cases rest with
  | nil => cases he
  | cons next rest =>
    have hk : label next.1 = row.1 := Option.some.inj he
    exact hrows row hrow next.1 (hs.2.1 next rfl) hk.symm

theorem sections_inj (hl : Function.Injective label) {s t : List (Sect I)} (hs : Sealed label followers s)
    (ht : Sealed label followers t) (he : s.flatMap (parts label) = t.flatMap (parts label)) : s = t := by
  induction s generalizing t with
  | nil =>
    cases t with
    | nil => rfl
    | cons next rest => cases he
  | cons sect s ih =>
    cases t with
    | nil => cases he
    | cons sect' t =>
      obtain ⟨i, rows⟩ := sect
      obtain ⟨j, rows'⟩ := sect'
      obtain ⟨hij, he⟩ := List.cons.inj he
      obtain rfl := hl hij
      obtain ⟨rfl, hrest⟩ := rowParts_inj (ht.stops hs.1) (hs.stops ht.1) he
      rw [ih hs.2.2 ht.2.2 hrest]

end Sections

end Framing
