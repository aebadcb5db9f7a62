import Mathlib

namespace Splicing

section Pieces

variable {T : Type} (parse : T → Option (List T)) (join : List T → T) (closed : T → Prop)

def Piece (s : T) : Prop := ∃ t ss, parse t = some ss ∧ s ∈ ss

-- The pieces of an input make it up, all but the last closed; closed pieces are cut again where they were joined.
structure Splices : Prop where
  exact : ∀ {t ss}, parse t = some ss → join ss = t
  closes : ∀ {t ss}, parse t = some ss → ∀ s ∈ ss.dropLast, closed s
  rejoins : ∀ {ss}, (∀ s ∈ ss, Piece parse s ∧ closed s) → parse (join ss) = some ss

def Grown (ss : List T) : Prop :=
  ∃ t head tail, parse t = some head ∧ (∀ s ∈ tail, Piece parse s ∧ closed s) ∧ ss = head ++ tail

variable {parse join closed} {ss : List T}

theorem Splices.parse_nil (h : Splices parse join closed) : parse (join []) = some [] := by
  apply h.rejoins
  simp

theorem Splices.grown_closed (h : Splices parse join closed) (hs : ∀ s ∈ ss, Piece parse s ∧ closed s) :
    Grown parse closed ss :=
  ⟨join [], [], ss, h.parse_nil, hs, rfl⟩

theorem grown_parse {t : T} (h : parse t = some ss) : Grown parse closed ss :=
  ⟨t, ss, [], h, by simp, (List.append_nil ss).symm⟩

theorem Grown.append (h : Grown parse closed ss) {more : List T} (hm : ∀ s ∈ more, Piece parse s ∧ closed s) :
    Grown parse closed (ss ++ more) := by
  obtain ⟨t, head, tail, ht, htail, rfl⟩ := h
  refine ⟨t, head, tail ++ more, ht, fun s hs => ?_, List.append_assoc _ _ _⟩
  rcases List.mem_append.mp hs with hs | hs
  · exact htail s hs
  · exact hm s hs

theorem Grown.reparses_iff (h : Splices parse join closed) (hg : Grown parse closed ss) :
    parse (join ss) = some ss ↔ ∀ s ∈ ss.dropLast, closed s := by
  constructor
  · exact h.closes
  · intro hclosed
    obtain ⟨t, head, tail, ht, htail, rfl⟩ := hg
    by_cases hne : tail = []
    · subst hne
      rw [List.append_nil, h.exact ht]
      exact ht
    · rw [List.dropLast_append_of_ne_nil hne] at hclosed
      apply h.rejoins
      intro s hs
      rcases List.mem_append.mp hs with hs | hs
      · exact ⟨⟨t, head, ht, hs⟩, hclosed s (List.mem_append_left _ hs)⟩
      · exact htail s hs

end Pieces

end Splicing
