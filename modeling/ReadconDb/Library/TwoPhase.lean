import Mathlib

namespace TwoPhase

section Calls

variable {S P R E : Type}

def write (refused : Option E) (body : S → Except E (R × S)) (live : S) : Except E R × S :=
  match refused with
  | some e => (.error e, live)
  | none =>
    match body live with
    | .error e => (.error e, live)
    | .ok (r, next) => (.ok r, next)

def call (plan : Except E P) (refused : Option E) (commit : P → S → Except E (R × S)) (live : S) :
    Except E R × S :=
  match plan with
  | .error e => (.error e, live)
  | .ok p => write refused (commit p) live

def each {A N : Type} (exec : A → Option E → S → Except E R × S) (verdict : A → Option E)
    (add : N → R → N) (n : N) : List A → S → Except E N × S
  | [], s => (.ok n, s)
  | a :: rest, s =>
    match exec a (verdict a) s with
    | (.error e, next) => (.error e, next)
    | (.ok r, next) => each exec verdict add (add n r) rest next

theorem write_cases (refused : Option E) (body : S → Except E (R × S)) (live : S) :
    (∃ e, write refused body live = (.error e, live)) ∨
      ∃ r next, refused = none ∧ body live = .ok (r, next) ∧
        write refused body live = (.ok r, next) := by
  cases refused with
  | some e => exact .inl ⟨e, rfl⟩
  | none =>
    cases hb : body live with
    | error e => exact .inl ⟨e, by simp [write, hb]⟩
    | ok out => exact .inr ⟨out.1, out.2, rfl, rfl, by simp [write, hb]⟩

theorem call_cases (plan : Except E P) (refused : Option E) (commit : P → S → Except E (R × S))
    (live : S) :
    (∃ e, call plan refused commit live = (.error e, live)) ∨
      ∃ p r next, refused = none ∧ plan = .ok p ∧ commit p live = .ok (r, next) ∧
        call plan refused commit live = (.ok r, next) := by
  cases plan with
  | error e => exact .inl ⟨e, rfl⟩
  | ok p =>
    rcases write_cases refused (commit p) live with ⟨e, he⟩ | ⟨r, next, hr, hb, hw⟩
    · exact .inl ⟨e, he⟩
    · exact .inr ⟨p, r, next, hr, rfl, hb, hw⟩

theorem call_preserves {I : S → Prop} {plan : Except E P} {refused : Option E}
    {commit : P → S → Except E (R × S)} {live : S} (h : I live)
    (hc : ∀ p r next, plan = .ok p → commit p live = .ok (r, next) → I next) :
    I (call plan refused commit live).2 := by
  rcases call_cases plan refused commit live with ⟨e, he⟩ | ⟨p, r, next, _, hp, hb, hw⟩
  · rw [he]
    exact h
  · rw [hw]
    exact hc p r next hp hb

theorem each_preserves {A N : Type} {I : S → Prop} {exec : A → Option E → S → Except E R × S}
    {verdict : A → Option E} {add : N → R → N} (step : ∀ a s, I s → I (exec a (verdict a) s).2)
    (n : N) (as : List A) {s : S} (h : I s) : I (each exec verdict add n as s).2 := by
  induction as generalizing n s with
  | nil => exact h
  | cons a as ih =>
    have ha := step a s h
    rw [each]
    split
    · next e next he => simpa [he] using ha
    · next r next hr => exact ih (add n r) (by simpa [hr] using ha)

theorem each_ok {A N : Type} {I : S → Prop} {P : A → S → Prop} {exec : A → Option E → S → Except E R × S}
    {verdict : A → Option E} {add : N → R → N}
    (step : ∀ a s r s', I s → exec a (verdict a) s = (.ok r, s') → I s' ∧ P a s' ∧ ∀ b, P b s → P b s')
    {n m : N} {as : List A} {s s' : S} (h : I s) (he : each exec verdict add n as s = (.ok m, s')) :
    (∀ a ∈ as, P a s') ∧ ∀ b, P b s → P b s' := by
  induction as generalizing n s with
  | nil =>
    obtain ⟨_, rfl⟩ := Prod.mk.inj he
    exact ⟨by simp, fun _ hb => hb⟩
  | cons a as ih =>
    rw [each] at he
    split at he
    · cases (Prod.mk.inj he).1
    · next r next hr =>
      obtain ⟨hi, hp, hkeep⟩ := step a s r next h hr
      obtain ⟨hall, hrest⟩ := ih hi he
      refine ⟨fun b hb => ?_, fun b hb => hrest b (hkeep b hb)⟩
      rcases List.mem_cons.mp hb with rfl | hb
      · exact hrest b hp
      · exact hall b hb

theorem each_still {A N : Type} {exec : A → Option E → S → Except E R × S} {verdict : A → Option E}
    {add : N → R → N} {r : R} (n : N) {as : List A} {s : S} (h : ∀ a ∈ as, exec a (verdict a) s = (.ok r, s))
    (hr : ∀ n, add n r = n) : each exec verdict add n as s = (.ok n, s) := by
  induction as with
  | nil => rfl
  | cons a as ih =>
    rw [each, h a (by simp)]
    simp only [hr]
    exact ih fun b hb => h b (by simp [hb])

theorem each_total {A N : Type} {I : S → Prop} {exec : A → Option E → S → Except E R × S} {verdict : A → Option E}
    {add : N → R → N} {as : List A} (step : ∀ a ∈ as, ∀ s, I s → ∃ r s', exec a (verdict a) s = (.ok r, s') ∧ I s')
    (n : N) {s : S} (h : I s) : ∃ m s', each exec verdict add n as s = (.ok m, s') := by
  induction as generalizing n s with
  | nil => exact ⟨n, s, rfl⟩
  | cons a as ih =>
    obtain ⟨r, next, hr, hi⟩ := step a (by simp) s h
    rw [each, hr]
    exact ih (fun b hb => step b (by simp [hb])) (add n r) hi

end Calls

structure Config (S C R E : Type) where
  shared : S
  flight : List (C × S)
  log : List (C × Except E R)

section Entries

variable {A : Type} {P : List A → A → Prop}

def AtEach (P : List A → A → Prop) (log : List A) : Prop :=
  ∀ pre x post, log = pre ++ x :: post → P pre x

theorem atEach_nil : AtEach P [] := by
  intro pre x post h
  simp at h

theorem AtEach.snoc {log : List A} {x : A} (h : AtEach P log) (hx : P log x) : AtEach P (log ++ [x]) := by
  intro pre y post he
  rcases List.eq_nil_or_concat post with rfl | ⟨post, z, rfl⟩
  · obtain ⟨rfl, hy⟩ := List.append_inj' he rfl
    exact (List.cons.inj hy).1 ▸ hx
  · refine h pre y post ?_
    rw [List.concat_eq_append, ← List.cons_append, ← List.append_assoc] at he
    exact (List.append_inj' he rfl).1

end Entries

section Interleaving

variable {S C R E : Type} (exec : C → S → Option E → S → Except E R × S) (allow : C → S → S → Prop)

inductive Step : Config S C R E → Config S C R E → Prop where
  | start (shared : S) (flight : List (C × S)) (log : List (C × Except E R)) (c : C) :
      Step ⟨shared, flight, log⟩ ⟨shared, (c, shared) :: flight, log⟩
  | finish (shared : S) (pre post : List (C × S)) (log : List (C × Except E R)) (c : C) (snap : S)
      (refused : Option E) (h : allow c snap shared) :
      Step ⟨shared, pre ++ (c, snap) :: post, log⟩
        ⟨(exec c snap refused shared).2, pre ++ post,
          log ++ [(c, (exec c snap refused shared).1)]⟩

def Run (start : S) : Config S C R E → Prop :=
  Relation.ReflTransGen (Step exec allow) ⟨start, [], []⟩

variable {exec allow}

theorem Run.start {first shared : S} {flight : List (C × S)} {log : List (C × Except E R)}
    (h : Run exec allow first ⟨shared, flight, log⟩) (c : C) :
    Run exec allow first ⟨shared, (c, shared) :: flight, log⟩ :=
  h.tail (.start shared flight log c)

theorem Run.finish {first shared snap : S} {post : List (C × S)} {log : List (C × Except E R)} {c : C}
    (pre : List (C × S)) (h : Run exec allow first ⟨shared, pre ++ (c, snap) :: post, log⟩)
    (refused : Option E) (ha : allow c snap shared) :
    Run exec allow first ⟨(exec c snap refused shared).2, pre ++ post,
      log ++ [(c, (exec c snap refused shared).1)]⟩ :=
  h.tail (.finish shared pre post log c snap refused ha)

theorem Run.overlap (exec : C → S → Option E → S → Except E R × S) (allow : C → S → S → Prop) (first : S)
    (a b : C) (ha : allow a first first) (hb : allow b first (exec a first none first).2) :
    ∃ g g', Run exec allow first g ∧ Relation.ReflTransGen (Step exec allow) g g' ∧
      g'.log.map Prod.fst = [a, b] ∧ g.shared = (exec a first none first).2 ∧
        g'.shared = (exec b first none (exec a first none first).2).2 := by
  have hstart : Run exec allow first ⟨first, [], []⟩ := Relation.ReflTransGen.refl
  have hfirst := Run.finish [] ((hstart.start b).start a) none ha
  exact ⟨_, _, hfirst, .single (.finish _ [] [] _ b first none hb), rfl, rfl, rfl⟩

theorem Run.invariant {I : List (C × Except E R) → S → Prop} {L : S → S → Prop}
    (refl : ∀ s, L s s) (trans : ∀ {a b c}, L a b → L b c → L a c)
    (step : ∀ log c snap refused live, I log live → (∃ past, I past snap) → L snap live →
      allow c snap live →
      I (log ++ [(c, (exec c snap refused live).1)]) (exec c snap refused live).2 ∧
        L live (exec c snap refused live).2)
    {start : S} (h0 : I [] start) {g : Config S C R E} (h : Run exec allow start g) :
    I g.log g.shared ∧ ∀ e ∈ g.flight, (∃ past, I past e.2) ∧ L e.2 g.shared := by
  induction h with
  | refl => exact ⟨h0, by simp⟩
  | tail _ hs ih =>
    cases hs with
    | start shared flight log c =>
      refine ⟨ih.1, fun e he => ?_⟩
      rcases List.mem_cons.mp he with rfl | he
      · exact ⟨⟨log, ih.1⟩, refl _⟩
      · exact ih.2 e he
    | finish shared pre post log c snap refused ha =>
      obtain ⟨hpast, hle⟩ := ih.2 (c, snap) (by simp)
      obtain ⟨hi, hl⟩ := step log c snap refused shared ih.1 hpast hle ha
      refine ⟨hi, fun e he => ?_⟩
      obtain ⟨hp, hse⟩ := ih.2 e (by
        rcases List.mem_append.mp he with he | he
        · simp [he]
        · simp [he])
      exact ⟨hp, trans hse hl⟩

theorem Run.preserves {I : S → Prop}
    (step : ∀ c snap refused live, I live → I snap → allow c snap live →
      I (exec c snap refused live).2)
    {start : S} (h0 : I start) {g : Config S C R E} (h : Run exec allow start g) : I g.shared := by
  have hall := Run.invariant (I := fun _ s => I s) (L := fun _ _ => True) (fun _ => trivial)
    (fun _ _ => trivial)
    (fun _ c snap refused live hi hp _ ha =>
      ⟨step c snap refused live hi hp.choose_spec ha, trivial⟩) h0 h
  exact hall.1

theorem Run.grows {I : S → Prop} {L : S → S → Prop}
    (step : ∀ c snap refused live, I live → allow c snap live →
      I (exec c snap refused live).2 ∧ L live (exec c snap refused live).2)
    (refl : ∀ s, L s s) (trans : ∀ {a b c}, L a b → L b c → L a c) {first : S} (h0 : I first)
    {g g' : Config S C R E} (h : Run exec allow first g)
    (h' : Relation.ReflTransGen (Step exec allow) g g') : I g'.shared ∧ L g.shared g'.shared := by
  induction h' with
  | refl => exact ⟨Run.preserves (fun c snap refused live hi _ ha => (step c snap refused live hi ha).1) h0 h, refl _⟩
  | tail _ hs ih =>
    cases hs with
    | start => exact ih
    | finish shared pre post log c snap refused ha =>
      have hnext := step c snap refused shared ih.1 ha
      exact ⟨hnext.1, trans ih.2 hnext.2⟩

end Interleaving

end TwoPhase
