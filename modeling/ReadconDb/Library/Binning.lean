import Mathlib

namespace Binning

section Fill

variable {A X : Type} (dest : A → Nat) (f : A → List X)

-- What goes to one place, in the order it is sent.
def bin (as : List A) (q : Nat) : List X := (as.filter fun a => dest a = q).flatMap f

variable {dest f}

theorem bin_cons_self {a : A} (as : List A) : bin dest f (a :: as) (dest a) = f a ++ bin dest f as (dest a) := by
  rw [bin, List.filter_cons_of_pos (by simp), List.flatMap_cons, bin]

theorem bin_cons_of_ne {a : A} (as : List A) {q : Nat} (h : dest a ≠ q) : bin dest f (a :: as) q = bin dest f as q := by
  rw [bin, List.filter_cons_of_neg (by simpa using h), bin]

theorem bin_append (as bs : List A) (q : Nat) : bin dest f (as ++ bs) q = bin dest f as q ++ bin dest f bs q := by
  rw [bin, List.filter_append, List.flatMap_append, bin, bin]

theorem bin_flatMap {B : Type} (rs : List B) (g : B → List A) (q : Nat) :
    bin dest f (rs.flatMap g) q = rs.flatMap fun r => bin dest f (g r) q := by
  induction rs with
  | nil => rfl
  | cons r rs ih => rw [List.flatMap_cons, List.flatMap_cons, bin_append, ih]

theorem bin_congr {dest' : A → Nat} {f' : A → List X} {as : List A} (hd : ∀ a ∈ as, dest a = dest' a)
    (hf : ∀ a ∈ as, f a = f' a) (q : Nat) : bin dest f as q = bin dest' f' as q := by
  induction as with
  | nil => rfl
  | cons a as ih =>
    have ih := ih (fun b hb => hd b (List.mem_cons_of_mem a hb)) fun b hb => hf b (List.mem_cons_of_mem a hb)
    have ha := hd a List.mem_cons_self
    by_cases h : dest a = q
    · subst h
      have hself : bin dest' f' (a :: as) (dest' a) = f' a ++ bin dest' f' as (dest' a) := bin_cons_self as
      rw [← ha] at hself
      rw [bin_cons_self, hself, ih, hf a List.mem_cons_self]
    · rw [bin_cons_of_ne as h, bin_cons_of_ne as (ha ▸ h), ih]

theorem foldl_modify (as : List A) (out : List (List X)) :
    as.foldl (fun out a => out.modify (dest a) (· ++ f a)) out = out.mapIdx fun q b => b ++ bin dest f as q := by
  induction as generalizing out with
  | nil =>
    apply List.ext_getElem
    · simp
    · intro q h _
      simp [bin]
  | cons a as ih =>
    rw [List.foldl_cons, ih]
    apply List.ext_getElem
    · simp
    · intro q h _
      rw [List.getElem_mapIdx, List.getElem_mapIdx, List.getElem_modify]
      split
      · next hq =>
        subst hq
        rw [bin_cons_self, List.append_assoc]
      · next hq => rw [bin_cons_of_ne as hq]

end Fill

section Weigh

variable {A : Type} (dest : A → Nat) (w : A → Nat)

def load (as : List A) (q : Nat) : Nat := ((as.filter fun a => dest a = q).map w).sum

variable {dest w}

theorem load_cons (a : A) (as : List A) (q : Nat) :
    load dest w (a :: as) q = (if dest a = q then w a else 0) + load dest w as q := by
  by_cases h : dest a = q
  · rw [load, List.filter_cons_of_pos (by simpa using h), List.map_cons, List.sum_cons, if_pos h, load]
  · rw [load, List.filter_cons_of_neg (by simpa using h), if_neg h, Nat.zero_add, load]

theorem load_le (as : List A) (q : Nat) : load dest w as q ≤ (as.map w).sum := by
  apply List.Sublist.sum_le_sum
  · exact (List.filter_sublist).map w
  · simp

theorem load_eq_length {X : Type} {f : A → List X} (as : List A) (hw : ∀ a ∈ as, w a = (f a).length) (q : Nat) :
    load dest w as q = (bin dest f as q).length := by
  rw [load, bin, List.length_flatMap]
  congr 1
  apply List.map_congr_left
  intro a ha
  exact hw a (List.mem_of_mem_filter ha)

end Weigh

end Binning

namespace Fifo

variable {M : Type}

def Holds (sent taken channel : List M) : Prop := sent = taken ++ channel

variable {sent taken channel : List M} {m : M}

theorem Holds.send (h : Holds sent taken channel) : Holds (sent ++ [m]) taken (channel ++ [m]) := by
  rw [Holds] at h ⊢
  rw [h, List.append_assoc]

theorem Holds.take (h : Holds sent taken (m :: channel)) : Holds sent (taken ++ [m]) channel := by
  rw [Holds] at h ⊢
  rw [h, List.append_assoc, List.singleton_append]

-- A message that is out, and was sent once by then, was behind all that was sent before it.
theorem Holds.before (h : Holds sent taken channel) {pre post : List M} (hs : sent = pre ++ m :: post)
    (hm : m ∈ taken) (hn : m ∉ pre) : pre <+: taken := by
  have hpre : pre <+: sent := ⟨m :: post, hs.symm⟩
  have htaken : taken <+: sent := ⟨channel, h.symm⟩
  rcases List.prefix_or_prefix_of_prefix hpre htaken with hp | hp
  · exact hp
  · exact absurd (hp.subset hm) hn

end Fifo
