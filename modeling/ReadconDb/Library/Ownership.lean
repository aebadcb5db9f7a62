import Mathlib

set_option linter.unusedSectionVars false

namespace Ownership

section Claims

variable {K O E : Type} [Ord K] [Std.TransOrd K] [Std.LawfulEqOrd K] [DecidableEq O]

-- The first to claim a key holds it.
def claim (conflict : K → E) (held : Std.ExtTreeMap K O compare) (c : K × O) : Except E (Std.ExtTreeMap K O compare) :=
  match held[c.1]? with
  | some o => if o ≠ c.2 then .error (conflict c.1) else .ok held
  | none => .ok (held.insert c.1 c.2)

def Agree (cs : List (K × O)) : Prop := ∀ c ∈ cs, ∀ c' ∈ cs, c.1 = c'.1 → c.2 = c'.2

def Records (cs : List (K × O)) (held : Std.ExtTreeMap K O compare) : Prop :=
  ∀ k o, held[k]? = some o ↔ (k, o) ∈ cs

variable {conflict : K → E} {held held' : Std.ExtTreeMap K O compare} {cs : List (K × O)} {c : K × O}

theorem records_nil : Records [] (∅ : Std.ExtTreeMap K O compare) := by
  simp [Records]

theorem Records.agree (h : Records cs held) : Agree cs := by
  rintro ⟨k, o⟩ hc ⟨_, o'⟩ hc' rfl
  have ho := (h k o).mpr hc
  rw [(h k o').mpr hc', Option.some.injEq] at ho
  exact ho.symm

theorem Records.claim (h : Records cs held) (hc : claim conflict held c = .ok held') : Records (cs ++ [c]) held' := by
  obtain ⟨k, o⟩ := c
  intro j p
  rw [List.mem_append, List.mem_singleton, Prod.mk.injEq, ← h]
  cases hk : held[k]? with
  | some q =>
    simp only [Ownership.claim, hk] at hc
    split at hc
    · cases hc
    · next hq =>
      obtain rfl := Except.ok.inj hc
      obtain rfl := not_not.mp hq
      constructor
      · exact .inl
      · rintro (hj | ⟨rfl, rfl⟩)
        · exact hj
        · exact hk
  | none =>
    simp only [Ownership.claim, hk] at hc
    obtain rfl := Except.ok.inj hc
    rw [Std.ExtTreeMap.getElem?_insert]
    by_cases hj : k = j
    · subst hj
      simp [hk, eq_comm]
    · simp [hj, Ne.symm hj]

theorem claims_ok_iff (h : Records cs held) (more : List (K × O)) :
    (∃ held', more.foldlM (claim conflict) held = .ok held') ↔ Agree (cs ++ more) := by
  induction more generalizing cs held with
  | nil =>
    rw [List.append_nil]
    exact ⟨fun _ => h.agree, fun _ => ⟨held, rfl⟩⟩
  | cons c more ih =>
    rw [List.foldlM_cons]
    cases hc : claim conflict held c with
    | ok next =>
      have hnext := ih (h.claim hc)
      rw [List.append_assoc] at hnext
      exact hnext
    | error e =>
      constructor
      · rintro ⟨_, he⟩
        cases he
      · intro hagree
        simp only [claim] at hc
        split at hc
        · next o ho =>
          split at hc
          · next hne =>
            have hm := (h c.1 o).mp ho
            exact absurd (hagree (c.1, o) (by simp [hm]) c (by simp) rfl) hne
          · cases hc
        · cases hc

end Claims

section Visits

variable {J K S E : Type} [DecidableEq K] (key : J → K) (repeated : K → E) (act : S → J → Except E S)

def visit (st : Finset K × S) (j : J) : Except E (Finset K × S) :=
  if key j ∈ st.1 then .error (repeated (key j)) else do return (insert (key j) st.1, ← act st.2 j)

variable {key repeated act}

theorem visit_ok {st st' : Finset K × S} {j : J} (h : visit key repeated act st j = .ok st') :
    st'.1 = insert (key j) st.1 ∧ act st.2 j = .ok st'.2 := by
  rw [visit] at h
  split at h
  · cases h
  · cases ha : act st.2 j with
    | error e =>
      rw [ha] at h
      cases h
    | ok s =>
      rw [ha] at h
      obtain rfl := Except.ok.inj h
      exact ⟨rfl, rfl⟩

theorem visits_seen {js : List J} {st st' : Finset K × S} (h : js.foldlM (visit key repeated act) st = .ok st') (k : K) :
    k ∈ st'.1 ↔ k ∈ st.1 ∨ k ∈ js.map key := by
  induction js generalizing st with
  | nil =>
    obtain rfl := Except.ok.inj h
    simp
  | cons j js ih =>
    rw [List.foldlM_cons] at h
    cases hv : visit key repeated act st j with
    | error e =>
      rw [hv] at h
      cases h
    | ok next =>
      rw [hv] at h
      rw [ih h, (visit_ok hv).1, Finset.mem_insert, List.map_cons, List.mem_cons]
      tauto

theorem visits_fresh {before after : List J} {j : J} {s : S} {st : Finset K × S}
    (hd : ((before ++ j :: after).map key).Nodup) (h : before.foldlM (visit key repeated act) (∅, s) = .ok st) :
    key j ∉ st.1 := by
  rw [visits_seen h]
  rw [List.map_append, List.map_cons] at hd
  have hj := (List.nodup_append.mp hd).2.2
  simp only [Finset.notMem_empty, false_or]
  intro hm
  exact hj _ hm _ (by simp) rfl

end Visits

end Ownership
