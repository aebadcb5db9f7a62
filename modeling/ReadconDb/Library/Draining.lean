import ReadconDb.Library.Reading
import ReadconDb.Library.Slicing

namespace Draining

open Slicing Reading

section Drain

variable {E A B : Type}

-- A buffer is drained of what it can already emit; `ready` is what came before.
abbrev Drain (E A B : Type) := List A → List B → Checked E (List B × List A)

structure Emits (drain : Drain E A B) (group : List A) (out : List B) : Prop where
  nonempty : group ≠ []
  emits : ∀ rest ready, drain (group ++ rest) ready = drain rest (ready ++ out)
  waits : ∀ part ready, part <+: group → part ≠ group → part ≠ [] → drain part ready = lift (.ok (ready, part))

def feed (drain : Drain E A B) : List (List A) → List A → Checked E (List B × List A)
  | [], buf => lift (.ok ([], buf))
  | batch :: batches, buf => do
    let (ready, buf) ← drain (buf ++ batch) []
    let (more, buf) ← feed drain batches buf
    return (ready ++ more, buf)

variable {drain : Drain E A B} {groups : List (List A × List B)}

theorem feed_snoc {batches : List (List A)} {batch buf mid rest : List A} {out more : List B}
    (hf : feed drain batches buf = lift (.ok (out, mid))) (hd : drain (mid ++ batch) [] = lift (.ok (more, rest))) :
    feed drain (batches ++ [batch]) buf = lift (.ok (out ++ more, rest)) := by
  induction batches generalizing buf out with
  | nil =>
    cases hf
    simp only [List.nil_append, feed, hd, lift_ok_bind, pure_eq_lift, List.append_nil]
  | cons first batches ih =>
    rw [feed] at hf
    obtain ⟨⟨ready, buf'⟩, hdrain, hf⟩ := checked_bind_ok hf
    obtain ⟨⟨later, buf''⟩, hlater, hf⟩ := checked_bind_ok hf
    cases hf
    rw [List.cons_append, feed, hdrain, lift_ok_bind]
    simp only [ih hlater, lift_ok_bind, pure_eq_lift, List.append_assoc]

def inputs (groups : List (List A × List B)) : List A := groups.flatMap Prod.fst

def outputs (groups : List (List A × List B)) : List B := groups.flatMap Prod.snd

theorem inputs_append (gs hs : List (List A × List B)) : inputs (gs ++ hs) = inputs gs ++ inputs hs :=
  List.flatMap_append

theorem outputs_append (gs hs : List (List A × List B)) : outputs (gs ++ hs) = outputs gs ++ outputs hs :=
  List.flatMap_append

theorem drain_groups (h : ∀ g ∈ groups, Emits drain g.1 g.2) (rest : List A) (ready : List B) :
    drain (inputs groups ++ rest) ready = drain rest (ready ++ outputs groups) := by
  induction groups generalizing ready with
  | nil => simp [inputs, outputs]
  | cons g groups ih =>
    have hg := h g (by simp)
    have hcons : inputs (g :: groups) ++ rest = g.1 ++ (inputs groups ++ rest) := by simp [inputs]
    rw [hcons, hg.emits, ih fun g' hg' => h g' (by simp [hg'])]
    simp [outputs]

-- What stays behind is less than the group that comes next.
def Waiting (part : List A) (groups : List (List A × List B)) : Prop :=
  ∀ g ∈ groups.head?, part <+: g.1 ∧ part ≠ g.1

theorem waiting_nil (h : ∀ g ∈ groups, Emits drain g.1 g.2) : Waiting ([] : List A) groups := by
  refine fun g hg => ⟨List.nil_prefix, ?_⟩
  exact (h g (List.mem_of_mem_head? hg)).nonempty.symm

theorem drain_prefix (hnil : ∀ ready, drain [] ready = lift (.ok (ready, []))) (h : ∀ g ∈ groups, Emits drain g.1 g.2)
    {buf : List A} (hb : buf <+: inputs groups) (ready : List B) :
    ∃ full later part, groups = full ++ later ∧ buf = inputs full ++ part ∧ Waiting part later ∧
      drain buf ready = lift (.ok (ready ++ outputs full, part)) := by
  induction groups generalizing buf ready with
  | nil =>
    obtain rfl := List.prefix_nil.mp hb
    refine ⟨[], [], [], rfl, rfl, by simp [Waiting], ?_⟩
    rw [hnil]
    simp [outputs]
  | cons g groups ih =>
    have hg := h g (by simp)
    have hrest : ∀ g' ∈ groups, Emits drain g'.1 g'.2 := fun g' hg' => h g' (by simp [hg'])
    have hcons : inputs (g :: groups) = g.1 ++ inputs groups := by simp [inputs]
    by_cases hlen : g.1.length ≤ buf.length
    · obtain ⟨back, rfl, hback⟩ := prefix_after (hcons ▸ hb) hlen
      obtain ⟨full, later, part, rfl, rfl, hw, hdrain⟩ := ih hrest hback (ready ++ g.2)
      refine ⟨g :: full, later, part, rfl, by simp [inputs], hw, ?_⟩
      rw [hg.emits, hdrain]
      simp [outputs]
    · have hshort : buf <+: g.1 := by
        rcases prefix_append_cases (hcons ▸ hb) with hshort | ⟨part, rfl, _⟩
        · exact hshort
        · rw [List.length_append] at hlen
          omega
      have hne : buf ≠ g.1 := by
        rintro rfl
        exact hlen le_rfl
      refine ⟨[], g :: groups, buf, rfl, rfl, by simp [Waiting, hshort, hne], ?_⟩
      have hout : ready ++ outputs ([] : List (List A × List B)) = ready := List.append_nil ready
      rw [hout]
      by_cases hempty : buf = []
      · rw [hempty, hnil]
      · exact hg.waits buf ready hshort hne hempty

theorem feed_groups (hnil : ∀ ready, drain [] ready = lift (.ok (ready, []))) (h : ∀ g ∈ groups, Emits drain g.1 g.2)
    {batches : List (List A)} {buf : List A} (hw : Waiting buf groups) (hall : buf ++ batches.flatten = inputs groups) :
    feed drain batches buf = lift (.ok (outputs groups, [])) := by
  induction batches generalizing buf groups with
  | nil =>
    rw [List.flatten_nil, List.append_nil] at hall
    cases groups with
    | nil =>
      rw [hall]
      rfl
    | cons g groups =>
      obtain ⟨hp, hne⟩ := hw g rfl
      have hlt := strict_length hp hne
      have hlen : buf.length = g.1.length + (inputs groups).length := by
        rw [hall, ← List.length_append]
        simp [inputs]
      omega
  | cons batch batches ih =>
    rw [List.flatten_cons, ← List.append_assoc] at hall
    obtain ⟨full, later, part, rfl, hbuf, hpart, hdrain⟩ :=
      drain_prefix hnil h (hall ▸ List.prefix_append _ _) []
    have hlater : part ++ batches.flatten = inputs later := by
      rw [hbuf, inputs_append, List.append_assoc] at hall
      exact List.append_cancel_left hall
    rw [feed, hdrain, lift_ok_bind]
    simp only [ih (fun g hg => h g (by simp [hg])) hpart hlater, lift_ok_bind, List.nil_append, pure_eq_lift,
      outputs_append]

end Drain

section Turns

variable {E A B : Type}

structure ByTurns (turn : List A → Checked E (Option (List B × List A))) (drain : Drain E A B) : Prop where
  eq : ∀ buf ready, drain buf ready = do
    match ← turn buf with
    | none => lift (.ok (ready, buf))
    | some (out, rest) => drain rest (ready ++ out)
  shorter : ∀ {buf out rest}, turn buf = lift (.ok (some (out, rest))) → rest.length < buf.length
  longer : ∀ {buf out rest}, turn buf = lift (.ok (some (out, rest))) →
    ∀ more, turn (buf ++ more) = lift (.ok (some (out, rest ++ more)))

variable {turn : List A → Checked E (Option (List B × List A))} {drain : Drain E A B}

theorem ByTurns.goes_on (h : ByTurns turn drain) {buf rest : List A} {ready out : List B}
    (hd : drain buf ready = lift (.ok (out, rest))) (more : List A) : drain (buf ++ more) ready = drain (rest ++ more) out := by
  induction hn : buf.length using Nat.strong_induction_on generalizing buf ready with
  | h n ih =>
    rw [h.eq] at hd
    obtain ⟨next, hturn, hd⟩ := checked_bind_ok hd
    cases next with
    | none =>
      obtain ⟨rfl, rfl⟩ := Prod.mk.inj (Except.ok.inj (lift_inj hd))
      rfl
    | some next =>
      obtain ⟨group, left⟩ := next
      rw [h.eq, h.longer hturn, lift_ok_bind]
      exact ih left.length (hn ▸ h.shorter hturn) hd rfl

theorem ByTurns.ready_first (h : ByTurns turn drain) {buf rest : List A} {ready out : List B}
    (hd : drain buf ready = lift (.ok (out, rest))) (before : List B) :
    drain buf (before ++ ready) = lift (.ok (before ++ out, rest)) := by
  induction hn : buf.length using Nat.strong_induction_on generalizing buf ready with
  | h n ih =>
    rw [h.eq] at hd ⊢
    obtain ⟨next, hturn, hd⟩ := checked_bind_ok hd
    rw [hturn, lift_ok_bind]
    cases next with
    | none =>
      obtain ⟨rfl, rfl⟩ := Prod.mk.inj (Except.ok.inj (lift_inj hd))
      rfl
    | some next =>
      obtain ⟨group, left⟩ := next
      have hleft := ih left.length (hn ▸ h.shorter hturn) hd rfl
      rwa [← List.append_assoc] at hleft

theorem ByTurns.feed_once (h : ByTurns turn drain) {batches : List (List A)} (hne : batches ≠ []) {buf rest : List A}
    {out : List B} (hf : feed drain batches buf = lift (.ok (out, rest))) :
    drain (buf ++ batches.flatten) [] = lift (.ok (out, rest)) := by
  induction batches generalizing buf out with
  | nil => exact absurd rfl hne
  | cons batch batches ih =>
    rw [feed] at hf
    obtain ⟨⟨ready, buf'⟩, hdrain, hf⟩ := checked_bind_ok hf
    obtain ⟨⟨more, buf''⟩, hmore, hf⟩ := checked_bind_ok hf
    obtain ⟨rfl, rfl⟩ := Prod.mk.inj (Except.ok.inj (lift_inj hf))
    by_cases hlast : batches = []
    · subst hlast
      obtain ⟨rfl, rfl⟩ := Prod.mk.inj (Except.ok.inj (lift_inj hmore))
      simpa using hdrain
    · have hrest := h.ready_first (ih hlast hmore) ready
      rw [List.append_nil] at hrest
      rw [List.flatten_cons, ← List.append_assoc, h.goes_on hdrain, hrest]

end Turns

end Draining
