import Mathlib

abbrev Slots (A : Type) := List (Option A)

namespace Slots

variable {A : Type}

def slot (s : Slots A) (i : Nat) : Option A := (s[i]?).join

def firstFree : Slots A → Nat
  | [] => 0
  | none :: _ => 0
  | some _ :: rest => firstFree rest + 1

def push : Slots A → A → Slots A
  | [], a => [some a]
  | none :: rest, a => some a :: rest
  | some b :: rest, a => some b :: push rest a

def write (s : Slots A) (i : Nat) (a : A) : Slots A := s.set i (some a)

def clear (s : Slots A) (i : Nat) : Slots A := s.set i none

@[simp] theorem slot_nil (i : Nat) : slot ([] : Slots A) i = none := rfl

@[simp] theorem slot_cons_zero (o : Option A) (s : Slots A) : slot (o :: s) 0 = o := rfl

@[simp] theorem slot_cons_succ (o : Option A) (s : Slots A) (i : Nat) : slot (o :: s) (i + 1) = slot s i := rfl

theorem slot_lt {s : Slots A} {i : Nat} {a : A} (h : slot s i = some a) : i < s.length := by
  rw [slot, Option.join_eq_some_iff] at h
  exact (List.getElem?_eq_some_iff.mp h).1

theorem slot_firstFree (s : Slots A) : slot s (firstFree s) = none := by
  induction s with
  | nil => rfl
  | cons o s ih =>
    cases o with
    | none => rfl
    | some b => exact ih

theorem slot_push (s : Slots A) (a : A) (i : Nat) :
    slot (push s a) i = if i = firstFree s then some a else slot s i := by
  induction s generalizing i with
  | nil => cases i <;> simp [push, firstFree]
  | cons o s ih =>
    cases o with
    | none => cases i <;> simp [push, firstFree]
    | some b =>
      cases i with
      | zero => simp [push, firstFree]
      | succ i => simp [push, firstFree, ih]

theorem slot_set (s : Slots A) (i j : Nat) (o : Option A) :
    slot (s.set i o) j = if j = i ∧ i < s.length then o else slot s j := by
  rw [slot, slot, List.getElem?_set]
  by_cases h : i = j
  · subst h
    by_cases hl : i < s.length
    · simp [hl]
    · simp [hl]
  · rw [if_neg h, if_neg fun hj => h hj.1.symm]

theorem slot_write {s : Slots A} {i : Nat} {b : A} (h : slot s i = some b) (a : A) (j : Nat) :
    slot (write s i a) j = if j = i then some a else slot s j := by
  rw [write, slot_set]
  simp [slot_lt h]

theorem slot_clear (s : Slots A) (i j : Nat) : slot (clear s i) j = if j = i then none else slot s j := by
  rw [clear, slot_set]
  by_cases h : j = i
  · subst h
    by_cases hl : j < s.length
    · simp [hl]
    · simp [slot, hl]
  · simp [h]

end Slots
