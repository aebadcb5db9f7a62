import ReadconDb.Library.ByteString
import ReadconDb.Library.Outcome

namespace Reading

open ByteString

abbrev Reader (E A : Type) := StateT Bytes (Except E) A

section Spelling

variable {E A B : Type}

-- `b` spells `a`: it is read whatever follows it, and no proper part of it is read.
structure Spells (p : Reader E A) (b : Bytes) (a : A) : Prop where
  reads : ∀ rest, p (b ++ rest) = .ok (a, rest)
  stops : ∀ pre, pre <+: b → pre ≠ b → ∃ e, p pre = .error e

theorem Spells.reads_all {p : Reader E A} {b : Bytes} {a : A} (h : Spells p b a) : p b = .ok (a, []) := by
  have hread := h.reads []
  rwa [List.append_nil] at hread

theorem prefix_append_cases {X : Type} {pre b b' : List X} (h : pre <+: b ++ b') :
    pre <+: b ∨ ∃ pre', pre = b ++ pre' ∧ pre' <+: b' := by
  rcases List.prefix_or_prefix_of_prefix h (List.prefix_append b b') with hfront | ⟨pre', rfl⟩
  · exact .inl hfront
  · exact .inr ⟨pre', rfl, List.prefix_append_right_inj b |>.mp h⟩

theorem prefix_after {X : Type} {pre b b' : List X} (h : pre <+: b ++ b') (hl : b.length ≤ pre.length) :
    ∃ pre', pre = b ++ pre' ∧ pre' <+: b' := by
  rcases prefix_append_cases h with hfront | hback
  · exact ⟨[], by rw [List.append_nil, hfront.eq_of_length_le hl], List.nil_prefix⟩
  · exact hback

theorem strict_length {X : Type} {pre b : List X} (h : pre <+: b) (hne : pre ≠ b) : pre.length < b.length :=
  h.length_le.lt_of_ne fun heq => hne (h.eq_of_length heq)

theorem Spells.pure (a : A) : Spells (pure a : Reader E A) [] a where
  reads _ := rfl
  stops _ hp hne := absurd (List.prefix_nil.mp hp) hne

theorem Spells.bind {p : Reader E A} {f : A → Reader E B} {b b' : Bytes} {a : A} {a' : B} (hp : Spells p b a)
    (hf : Spells (f a) b' a') : Spells (p >>= f) (b ++ b') a' where
  reads rest := by
    show (p (b ++ b' ++ rest) >>= fun s => f s.1 s.2) = _
    rw [List.append_assoc, hp.reads]
    exact hf.reads rest
  stops pre hpre hne := by
    show ∃ e, (p pre >>= fun s => f s.1 s.2) = .error e
    have hback (pre' : Bytes) (hpre' : pre' <+: b') (heq : pre = b ++ pre') :
        ∃ e, (p pre >>= fun s => f s.1 s.2) = .error e := by
      subst heq
      obtain ⟨e, he⟩ := hf.stops pre' hpre' fun h => hne (by rw [h])
      exact ⟨e, by rw [hp.reads]; exact he⟩
    rcases prefix_append_cases hpre with hfront | ⟨pre', heq, hpre'⟩
    · by_cases hb : pre = b
      · exact hback [] List.nil_prefix (by rw [hb, List.append_nil])
      · obtain ⟨e, he⟩ := hp.stops pre hfront hb
        exact ⟨e, by rw [he]; rfl⟩
    · exact hback pre' hpre' heq

theorem Spells.ends {p : Reader E A} {f : A → Reader E B} {b : Bytes} {a : A} {a' : B} (h : Spells p b a)
    (hf : Spells (f a) [] a') : Spells (p >>= f) b a' := by
  have hbind := h.bind hf
  rwa [List.append_nil] at hbind

theorem Spells.map {p : Reader E A} {b : Bytes} {a : A} (h : Spells p b a) (g : A → B) :
    Spells (p >>= fun x => Pure.pure (g x)) b (g a) := h.ends (Spells.pure (g a))

end Spelling

section Parts

variable {E A : Type} (short : E)

def take (n : Nat) : Reader E Bytes :=
  fun b => if b.length < n then .error short else .ok (b.take n, b.drop n)

def word (w : Nat) : Reader E Nat := do
  let b ← take short w
  return leNat b

def times (p : Reader E A) : Nat → Reader E (List A)
  | 0 => pure []
  | n + 1 => do
    let a ← p
    let more ← times p n
    return a :: more

variable {short}

theorem spells_take {b : Bytes} {n : Nat} (hn : b.length = n) : Spells (take short n) b b where
  reads rest := by
    subst hn
    rw [take, if_neg (by rw [List.length_append]; omega), List.take_left, List.drop_left]
  stops pre hpre hne := by
    have hlt := strict_length hpre hne
    exact ⟨short, if_pos (by omega)⟩

theorem spells_word {w n : Nat} (hn : n < 256 ^ w) : Spells (word short w) (leBytes w n) n := by
  have htake : Spells (take short w) (leBytes w n) (leBytes w n) := spells_take (length_leBytes w n)
  have h := htake.map leNat
  rwa [leNat_leBytes, Nat.mod_eq_of_lt hn] at h

theorem spells_times {p : Reader E A} {f : A → Bytes} {as : List A} (h : ∀ a ∈ as, Spells p (f a) a) :
    Spells (times p as.length) (as.flatMap f) as := by
  induction as with
  | nil => exact Spells.pure []
  | cons a as ih =>
    rw [List.flatMap_cons, List.length_cons, times]
    apply (h a (by simp)).bind
    apply (ih fun a' ha' => h a' (by simp [ha'])).ends
    exact Spells.pure (a :: as)

end Parts

end Reading
