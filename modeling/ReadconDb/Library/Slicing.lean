import ReadconDb.Library.ByteString
import ReadconDb.Library.Outcome

namespace Slicing

open ByteString

-- A run that answers with a value or an error, or stops in a panic.
abbrev Checked (E A : Type) := ExceptT E Option A

section Runs

variable {E A B : Type}

def lift (r : Except E A) : Checked E A := some r

def panicked : Checked E A := (none : Option (Except E A))

def NeverPanics (x : Checked E A) : Prop := ∃ r, x = lift r

theorem lift_inj {r s : Except E A} (h : (lift r : Checked E A) = lift s) : r = s := Option.some.inj h

@[simp] theorem lift_ok_bind (a : A) (f : A → Checked E B) : (lift (.ok a) >>= f) = f a := rfl

@[simp] theorem lift_error_bind (e : E) (f : A → Checked E B) : (lift (.error e) >>= f) = lift (.error e) := rfl

@[simp] theorem pure_eq_lift (a : A) : (pure a : Checked E A) = lift (.ok a) := rfl

theorem lift_bind_lift {r : Except E A} {f : A → Checked E B} {g : A → Except E B}
    (h : ∀ a, r = .ok a → f a = lift (g a)) : (lift r >>= f) = lift (r >>= g) := by
  cases r with
  | error e => rfl
  | ok a => exact h a rfl

theorem checked_bind_ok {x : Checked E A} {f : A → Checked E B} {b : B} (h : (x >>= f) = lift (.ok b)) :
    ∃ a, x = lift (.ok a) ∧ f a = lift (.ok b) := by
  cases x with
  | none => cases h
  | some r =>
    cases r with
    | error e => cases h
    | ok a => exact ⟨a, rfl, h⟩

def slice (b : List A) (lo hi : Nat) : Checked E (List A) :=
  if lo ≤ hi ∧ hi ≤ b.length then lift (.ok ((b.drop lo).take (hi - lo))) else panicked

def index (b : List A) (i : Nat) : Checked E A :=
  match b[i]? with
  | some a => lift (.ok a)
  | none => panicked

def minus (a b : Nat) : Checked E Nat := if b ≤ a then lift (.ok (a - b)) else panicked

-- `a + b` of machine words below `cap`
def plus (cap a b : Nat) : Checked E Nat := if a + b < cap then lift (.ok (a + b)) else panicked

-- Room for `n` items: a request that the allocator does not grant ends the process.
def reserve (granted : Nat → Bool) (n : Nat) : Checked E Unit := if granted n then lift (.ok ()) else panicked

theorem slice_ok {b : List A} {lo hi : Nat} (hl : lo ≤ hi) (hh : hi ≤ b.length) :
    (slice b lo hi : Checked E (List A)) = lift (.ok ((b.drop lo).take (hi - lo))) := if_pos ⟨hl, hh⟩

theorem index_ok {b : List A} {i : Nat} {a : A} (h : b[i]? = some a) : (index b i : Checked E A) = lift (.ok a) := by
  rw [index, h]

theorem minus_ok {a b : Nat} (h : b ≤ a) : (minus a b : Checked E Nat) = lift (.ok (a - b)) := if_pos h

theorem plus_ok {cap a b : Nat} (h : a + b < cap) : (plus cap a b : Checked E Nat) = lift (.ok (a + b)) := if_pos h

@[simp] theorem panicked_bind (f : A → Checked E B) : (panicked >>= f) = panicked := rfl

theorem not_never_panicked : ¬ NeverPanics (panicked : Checked E A) := by
  rintro ⟨r, hr⟩
  cases hr

def within (granted : Nat → Bool) (room : Option Nat) (x : Checked E A) : Checked E A :=
  match room with
  | none => x
  | some n => reserve granted n >>= fun _ => x

variable {granted : Nat → Bool} {room : Option Nat}

theorem within_granted (h : room.all granted = true) (x : Checked E A) : within granted room x = x := by
  cases room with
  | none => rfl
  | some n =>
    have hn : granted n = true := h
    rw [within, reserve, if_pos hn]
    rfl

theorem within_bind (x : Checked E A) (f : A → Checked E B) :
    (within granted room x >>= f) = within granted room (x >>= f) := by
  cases room with
  | none => rfl
  | some n => exact bind_assoc (reserve granted n) (fun _ => x) f

theorem within_never {r : Except E A} : NeverPanics (within granted room (lift r)) ↔ room.all granted = true := by
  constructor
  · intro h
    cases room with
    | none => rfl
    | some n =>
      by_contra hn
      have hn : ¬ granted n = true := hn
      rw [within, reserve, if_neg hn] at h
      exact not_never_panicked h
  · exact fun h => ⟨r, within_granted h _⟩

end Runs

section Bytes

variable {E : Type}

def readU32 (b : Bytes) (lo hi : Nat) : Checked E Nat := do
  let four ← slice b lo hi
  if four.length = 4 then lift (.ok (leNat four)) else panicked

theorem readU32_ok {b : Bytes} (lo : Nat) (h : lo + 4 ≤ b.length) :
    (readU32 b lo (lo + 4) : Checked E Nat) = lift (.ok (leNat ((b.drop lo).take 4))) := by
  have hl : ((b.drop lo).take 4).length = 4 := by
    rw [List.length_take, List.length_drop]
    omega
  rw [readU32, slice_ok (Nat.le_add_right lo 4) h, lift_ok_bind, Nat.add_sub_cancel_left, if_pos hl]

end Bytes

section Saturating

-- Machine words of a 64-bit target.
def usizeMax : Nat := 2 ^ 64 - 1

def isizeMax : Nat := 2 ^ 63 - 1

def satAdd (a b : Nat) : Nat := min (a + b) usizeMax

def satMul (a b : Nat) : Nat := min (a * b) usizeMax

def alignUp (unit n : Nat) : Nat := satMul ((n + unit - 1) / unit) unit

theorem satAdd_eq {a b : Nat} (h : a + b ≤ usizeMax) : satAdd a b = a + b := min_eq_left h

theorem satMul_eq {a b : Nat} (h : a * b ≤ usizeMax) : satMul a b = a * b := min_eq_left h

theorem satAdd_le (a b : Nat) : satAdd a b ≤ usizeMax := min_le_right _ _

theorem satMul_le (a b : Nat) : satMul a b ≤ usizeMax := min_le_right _ _

theorem le_satAdd {a : Nat} (h : a ≤ usizeMax) (b : Nat) : a ≤ satAdd a b := le_min (Nat.le_add_right a b) h

theorem le_alignUp {unit n : Nat} (hu : 0 < unit) (hn : n ≤ usizeMax) : n ≤ alignUp unit n := by
  refine le_min ?_ hn
  have hdiv := Nat.div_add_mod (n + unit - 1) unit
  have hmod := Nat.mod_lt (n + unit - 1) hu
  rw [Nat.mul_comm]
  omega

end Saturating

end Slicing
