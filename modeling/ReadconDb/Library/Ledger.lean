import ReadconDb.Library.Outcome

abbrev Ledger (K V : Type) := K → Option (List V)

namespace Ledger

variable {K V : Type} [DecidableEq K]

def blank : Ledger K V := fun _ => none

def write (L : Ledger K V) (k : K) (xs : List V) : Ledger K V := Function.update L k (some xs)

def extend (L : Ledger K V) (k : K) (xs : List V) : Ledger K V := write L k ((L k).getD [] ++ xs)

def entry (L : Ledger K V) (k : K) (i : Nat) : Option V := (L k).bind fun xs => xs[i]?

def count (L : Ledger K V) (k : K) : Nat := ((L k).getD []).length

@[simp] theorem write_self (L : Ledger K V) (k : K) (xs : List V) : write L k xs k = some xs :=
  Function.update_self _ _ _

theorem write_other (L : Ledger K V) {k j : K} (xs : List V) (h : j ≠ k) : write L k xs j = L j :=
  Function.update_of_ne h _ _

theorem entry_write_self (L : Ledger K V) (k : K) (xs : List V) (i : Nat) :
    entry (write L k xs) k i = xs[i]? := by
  simp [entry]

theorem entry_write_other (L : Ledger K V) {k j : K} (xs : List V) (h : j ≠ k) (i : Nat) :
    entry (write L k xs) j i = entry L j i := by
  rw [entry, write_other L xs h, entry]

omit [DecidableEq K] in
theorem entry_eq (L : Ledger K V) (k : K) (i : Nat) : entry L k i = ((L k).getD [])[i]? := by
  rw [entry]
  cases L k <;> simp

omit [DecidableEq K] in
theorem entry_none_of_le {L : Ledger K V} {k : K} {i : Nat} (h : count L k ≤ i) : entry L k i = none := by
  rw [entry_eq]
  exact List.getElem?_eq_none h

omit [DecidableEq K] in
theorem entry_isSome_iff {L : Ledger K V} {k : K} {i : Nat} :
    (∃ v, entry L k i = some v) ↔ i < count L k := by
  rw [entry_eq, count]
  constructor
  · rintro ⟨v, hv⟩
    exact (List.getElem?_eq_some_iff.mp hv).1
  · exact fun h => ⟨_, List.getElem?_eq_getElem h⟩

omit [DecidableEq K] in
theorem entries (L : Ledger K V) (k : K) :
    (List.range (count L k)).map (entry L k) = ((L k).getD []).map some := by
  refine List.ext_getElem (by simp [count]) fun i h₁ h₂ => ?_
  rw [List.getElem_map, List.getElem_map, List.getElem_range, entry_eq]
  exact List.getElem?_eq_getElem _

theorem entry_extend_self (L : Ledger K V) (k : K) (xs : List V) (i : Nat) (v : V) :
    entry (extend L k xs) k i = some v ↔
      entry L k i = some v ∨ (count L k ≤ i ∧ xs[i - count L k]? = some v) := by
  rw [extend, entry_write_self, entry_eq, count]
  by_cases h : i < ((L k).getD []).length
  · rw [List.getElem?_append_left h]
    constructor
    · exact .inl
    · rintro (hv | ⟨hle, _⟩)
      · exact hv
      · omega
  · have hle : ((L k).getD []).length ≤ i := by omega
    have hnone : ((L k).getD [])[i]? = none := List.getElem?_eq_none hle
    rw [List.getElem?_append_right hle, hnone]
    simp [hle]

theorem count_extend_self (L : Ledger K V) (k : K) (xs : List V) :
    count (extend L k xs) k = count L k + xs.length := by
  simp [count, extend]

theorem extend_blank_at {L : Ledger K V} {k : K} (h : L k = none) (xs : List V) :
    extend L k xs = write L k xs := by
  rw [extend, h, Option.getD_none, List.nil_append]

def extendAll (L : Ledger K V) (es : List (K × List V)) : Ledger K V :=
  es.foldl (fun L e => extend L e.1 e.2) L

def parts (k : K) (es : List (K × List V)) : List (List V) := (es.filter fun e => e.1 = k).map Prod.snd

@[simp] theorem parts_nil (k : K) : parts k ([] : List (K × List V)) = [] := rfl

theorem parts_append (k : K) (es fs : List (K × List V)) : parts k (es ++ fs) = parts k es ++ parts k fs := by
  rw [parts, List.filter_append, List.map_append, parts, parts]

@[simp] theorem parts_singleton_self (k : K) (xs : List V) : parts k [(k, xs)] = [xs] := by
  simp [parts]

theorem extendAll_snoc (L : Ledger K V) (es : List (K × List V)) (k : K) (xs : List V) :
    extendAll L (es ++ [(k, xs)]) = extend (extendAll L es) k xs := by
  rw [extendAll, List.foldl_append]
  rfl

theorem extendAll_apply (L : Ledger K V) (es : List (K × List V)) (k : K) :
    extendAll L es k = if parts k es = [] then L k else some ((L k).getD [] ++ (parts k es).flatten) := by
  induction es generalizing L with
  | nil => rfl
  | cons e es ih =>
    have hcons : extendAll L (e :: es) = extendAll (extend L e.1 e.2) es := rfl
    rw [hcons, ih]
    by_cases he : e.1 = k
    · subst he
      have hparts : parts e.1 (e :: es) = e.2 :: parts e.1 es := by simp [parts]
      have hself : extend L e.1 e.2 e.1 = some ((L e.1).getD [] ++ e.2) := write_self _ _ _
      rw [hparts, hself, if_neg (List.cons_ne_nil _ _)]
      split
      · next h0 => simp [h0]
      · simp
    · have hparts : parts k (e :: es) = parts k es := by simp [parts, he]
      have hother : extend L e.1 e.2 k = L k := write_other _ _ (Ne.symm he)
      rw [hparts, hother]

theorem extendAll_blank (es : List (K × List V)) (k : K) :
    extendAll blank es k = if parts k es = [] then none else some (parts k es).flatten := by
  rw [extendAll_apply]
  rfl

theorem extendAll_blank_getD (es : List (K × List V)) (k : K) :
    (extendAll blank es k).getD [] = (parts k es).flatten := by
  rw [extendAll_blank]
  split
  · next h => simp [h]
  · rfl

section Writes

open Outcome

variable {S J E : Type} {f : S → J → Except E S} {key : J → K} {R : S → Ledger K V → Prop} {L : Ledger K V} {s : S}

-- A run whose steps each write a fresh entry goes through, and leaves what was written.
theorem foldlM_writes {js : List J} {val : J → List V}
    (step : ∀ j ∈ js, ∀ s L, R s L → L (key j) = none → ∃ s', f s j = .ok s' ∧ R s' (write L (key j) (val j)))
    (hd : (js.map key).Nodup) (hs : R s L) (hfresh : ∀ j ∈ js, L (key j) = none) :
    ∃ s' L', js.foldlM f s = .ok s' ∧ R s' L' ∧
      ∀ k xs, L' k = some xs ↔ L k = some xs ∨ ∃ j ∈ js, key j = k ∧ val j = xs := by
  induction js generalizing s L with
  | nil => exact ⟨s, L, rfl, hs, fun k xs => by simp⟩
  | cons j js ih =>
    rw [List.map_cons, List.nodup_cons] at hd
    have hnone := hfresh j (by simp)
    obtain ⟨mid, hmid, hrep⟩ := step j (by simp) s L hs hnone
    have hne : ∀ i ∈ js, key i ≠ key j := fun i hi he => hd.1 (he ▸ List.mem_map_of_mem hi)
    obtain ⟨s', L', hrun, hrep', hL'⟩ := ih (fun i hi => step i (by simp [hi])) hd.2 hrep fun i hi => by
      rw [write_other _ _ (hne i hi)]
      exact hfresh i (by simp [hi])
    refine ⟨s', L', foldlM_cons_ok.mpr ⟨mid, hmid, hrun⟩, hrep', fun k xs => ?_⟩
    rw [hL']
    by_cases hk : k = key j
    · subst hk
      rw [write_self, hnone, Option.some.injEq]
      constructor
      · rintro (he | ⟨i, hi, he, _⟩)
        · exact .inr ⟨j, by simp, rfl, he⟩
        · exact absurd he (hne i hi)
      · rintro (he | ⟨i, hi, he, hx⟩)
        · cases he
        · rcases List.mem_cons.mp hi with rfl | hi
          · exact .inl hx
          · exact absurd he (hne i hi)
    · rw [write_other _ _ hk]
      refine or_congr_right ?_
      constructor
      · rintro ⟨i, hi, he⟩
        exact ⟨i, by simp [hi], he⟩
      · rintro ⟨i, hi, rfl, hx⟩
        rcases List.mem_cons.mp hi with rfl | hi
        · exact absurd rfl hk
        · exact ⟨i, hi, rfl, hx⟩

theorem foldlM_wrote {P : J → List V → Prop} {js : List J} {last : S} (hd : (js.map key).Nodup) (hs : R s L)
    (h : js.foldlM f s = .ok last)
    (step : ∀ j s s' L rest, R s L → f s j = .ok s' → List.foldlM f s' rest = .ok last →
      ∃ xs, R s' (write L (key j) xs) ∧ P j xs) :
    ∃ L', R last L' ∧ (∀ k, k ∉ js.map key → L' k = L k) ∧ ∀ j ∈ js, ∃ xs, L' (key j) = some xs ∧ P j xs := by
  induction js generalizing s L with
  | nil =>
    obtain rfl := pure_eq_ok.mp h
    exact ⟨L, hs, fun _ _ => rfl, by simp⟩
  | cons j js ih =>
    rw [List.map_cons, List.nodup_cons] at hd
    obtain ⟨mid, hmid, hrest⟩ := foldlM_cons_ok.mp h
    obtain ⟨xs, hrep, hp⟩ := step j s mid L js hs hmid hrest
    obtain ⟨L', hrep', hkept, hall⟩ := ih hd.2 hrep hrest
    refine ⟨L', hrep', fun k hk => ?_, fun i hi => ?_⟩
    · rw [List.map_cons, List.mem_cons, not_or] at hk
      rw [hkept k hk.2, write_other _ _ hk.1]
    · rcases List.mem_cons.mp hi with rfl | hi
      · exact ⟨xs, by rw [hkept _ hd.1, write_self], hp⟩
      · exact hall i hi

end Writes

end Ledger
