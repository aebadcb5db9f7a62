import ReadconDb.Keys
import ReadconDb.Library.Slicing

namespace ReadconDb

open Slicing

def mapAlign : Nat := 2 ^ 20

def mapGrowRetries : Nat := 8

def alignMap (n : Nat) : Nat := alignUp mapAlign n

def mapFull : Error := .heed "MDB_MAP_FULL: Environment mapsize limit reached"

def isMapFull (e : Error) : Bool := e == mapFull

-- What LMDB answers: to the opening and the commit of each attempt, and to each resize.
structure Environment where
  begins : Nat → Option Error
  commits : Nat → Option Error
  used : Nat → Nat
  resize : Nat → Nat → Result Nat

-- A granted resize leaves a map of at least the size asked for.
structure Environment.Lawful (env : Environment) : Prop where
  granted : ∀ {k want got}, env.resize k want = .ok got → want ≤ got
  word : ∀ {k want got}, env.resize k want = .ok got → got ≤ usizeMax

structure Attempt where
  map : Nat
  ran : Bool
  deriving DecidableEq, Repr

structure Retried (T S : Type) where
  result : Result T
  tables : S
  map : Nat
  attempts : List Attempt

inductive Tried (T S : Type) where
  | done (value : T) (tables : S)
  | failed (e : Error)
  | full (e : Error)

section Write

variable {T S : Type} (env : Environment) (body : Nat → S → Result (T × S)) (inputBytes : Nat)

def growAfterMapFull (k cur : Nat) : Result Nat :=
  let usedPlus := satAdd (env.used k) inputBytes
  let want := alignMap (max (satMul cur 2) usedPlus)
  let want := if want ≤ cur then alignMap (satAdd cur mapAlign) else want
  env.resize k want

def refused (e : Error) : Tried T S := if isMapFull e then .full e else .failed e

def attempt (i : Nat) (tables : S) : Bool × Tried T S :=
  match env.begins i with
  | some e => (false, refused e)
  | none =>
    match body i tables with
    | .error e => (true, refused e)
    | .ok (value, next) =>
      match env.commits i with
      | some e => (true, refused e)
      | none => (true, .done value next)

def retry : Nat → Nat → S → Nat → Error → Retried T S
  | 0, _, tables, map, last => ⟨.error last, tables, map, []⟩
  | n + 1, i, tables, map, _ =>
    match attempt env body i tables with
    | (ran, .done value next) => ⟨.ok value, next, map, [⟨map, ran⟩]⟩
    | (ran, .failed e) => ⟨.error e, tables, map, [⟨map, ran⟩]⟩
    | (ran, .full e) =>
      match growAfterMapFull env inputBytes (i + 1) map with
      | .error e => ⟨.error e, tables, map, [⟨map, ran⟩]⟩
      | .ok next =>
        let out := retry n (i + 1) tables next e
        { out with attempts := ⟨map, ran⟩ :: out.attempts }

def stayedFull : Error := .message "LMDB map stayed full after growing it"

def withWrite (tables : S) (map : Nat) : Retried T S :=
  let need := satAdd (env.used 0) (satMul inputBytes 2)
  if need > map then
    match env.resize 0 (alignMap (max need (satMul map 2))) with
    | .error e => ⟨.error e, tables, map, []⟩
    | .ok next => retry env body inputBytes mapGrowRetries 0 tables next stayedFull
  else retry env body inputBytes mapGrowRetries 0 tables map stayedFull

end Write

section Growth

variable {env : Environment} {inputBytes : Nat}

theorem le_alignMap {n : Nat} (hn : n ≤ usizeMax) : n ≤ alignMap n := le_alignUp (by decide) hn

theorem grow_le (he : env.Lawful) {k cur next : Nat} (hc : cur ≤ usizeMax)
    (h : growAfterMapFull env inputBytes k cur = .ok next) : cur ≤ next := by
  refine le_trans ?_ (he.granted h)
  split
  · exact (le_satAdd hc mapAlign).trans (le_alignMap (satAdd_le cur mapAlign))
  · next hlt => exact le_of_lt (not_le.mp hlt)

theorem grow_doubles (he : env.Lawful) {k cur next : Nat} (hdouble : cur * 2 ≤ usizeMax)
    (hused : env.used k + inputBytes ≤ usizeMax) (h : growAfterMapFull env inputBytes k cur = .ok next) :
    cur * 2 ≤ next ∧ env.used k + inputBytes ≤ next := by
  have hgot := he.granted h
  rw [satMul_eq hdouble, satAdd_eq hused] at hgot
  have hwant : max (cur * 2) (env.used k + inputBytes) ≤ alignMap (max (cur * 2) (env.used k + inputBytes)) :=
    le_alignMap (max_le hdouble hused)
  have hcap : max (cur * 2) (env.used k + inputBytes) ≤ next := by
    refine hwant.trans (le_trans ?_ hgot)
    split
    · next hle => exact hle.trans ((le_satAdd (by omega) mapAlign).trans (le_alignMap (satAdd_le cur mapAlign)))
    · exact le_rfl
  exact ⟨(le_max_left _ _).trans hcap, (le_max_right _ _).trans hcap⟩

end Growth

section Atomic

variable {T S : Type} {env : Environment} {body : Nat → S → Result (T × S)} {inputBytes : Nat}

structure Atomic (env : Environment) (body : Nat → S → Result (T × S)) (inputBytes n first : Nat) (tables : S)
    (map : Nat) (out : Retried T S) : Prop where
  ok : ∀ v, out.result = .ok v → ∃ i, first + out.attempts.length = i + 1 ∧ env.begins i = none ∧
    env.commits i = none ∧ body i tables = .ok (v, out.tables)
  error : ∀ e, out.result = .error e → out.tables = tables
  bounded : out.attempts.length ≤ n
  grows : (map :: out.attempts.map Attempt.map ++ [out.map]).IsChain (· ≤ ·)
  doubles : ∀ (j : Nat) (a b : Attempt), out.attempts[j]? = some a → out.attempts[j + 1]? = some b →
    a.map * 2 ≤ usizeMax → env.used (first + j + 1) + inputBytes ≤ usizeMax →
      a.map * 2 ≤ b.map ∧ env.used (first + j + 1) + inputBytes ≤ b.map

theorem attempt_done {i : Nat} {tables next : S} {v : T} {ran : Bool} (h : attempt env body i tables = (ran, .done v next)) :
    env.begins i = none ∧ env.commits i = none ∧ body i tables = .ok (v, next) := by
  have hrefused (e : Error) : (refused e : Tried T S) ≠ .done v next := by
    rw [refused]
    split <;> simp
  rw [attempt] at h
  split at h
  · exact absurd (Prod.mk.inj h).2 (hrefused _)
  · next hb =>
    split at h
    · exact absurd (Prod.mk.inj h).2 (hrefused _)
    · next value next' hbody =>
      split at h
      · exact absurd (Prod.mk.inj h).2 (hrefused _)
      · next hc =>
        obtain ⟨rfl, rfl⟩ := Tried.done.inj (Prod.mk.inj h).2
        exact ⟨hb, hc, hbody⟩

theorem retry_starts (env : Environment) (body : Nat → S → Result (T × S)) (inputBytes n i : Nat) (tables : S) (map : Nat)
    (last : Error) :
    ∀ a, (retry env body inputBytes n i tables map last).attempts[0]? = some a → a.map = map := by
  cases n with
  | zero =>
    intro a ha
    cases ha
  | succ n =>
    intro a ha
    rw [retry] at ha
    split at ha
    · exact (Option.some.inj ha) ▸ rfl
    · exact (Option.some.inj ha) ▸ rfl
    · split at ha
      · exact (Option.some.inj ha) ▸ rfl
      · exact (Option.some.inj ha) ▸ rfl

theorem retry_atomic (he : env.Lawful) (n i : Nat) (tables : S) {map : Nat} (hm : map ≤ usizeMax) (last : Error) :
    Atomic env body inputBytes n i tables map (retry env body inputBytes n i tables map last) := by
  induction n generalizing i map last with
  | zero =>
    rw [retry]
    exact
      { ok := by simp
        error := by simp
        bounded := le_rfl
        grows := by simp
        doubles := by simp }
  | succ n ih =>
    rw [retry]
    split
    · next ran value next hdone =>
      obtain ⟨hb, hc, hbody⟩ := attempt_done hdone
      exact
        { ok := by
            rintro v ⟨⟩
            exact ⟨i, rfl, hb, hc, hbody⟩
          error := by simp
          bounded := by simp
          grows := by simp
          doubles := by simp }
    · exact
        { ok := by simp
          error := by simp
          bounded := by simp
          grows := by simp
          doubles := by simp }
    · next ran e _ =>
      split
      · exact
          { ok := by simp
            error := by simp
            bounded := by simp
            grows := by simp
            doubles := by simp }
      · next grown hgrow =>
        have hrest := ih (i + 1) (he.word hgrow) e
        have hstart := retry_starts env body inputBytes n (i + 1) tables grown e
        generalize retry env body inputBytes n (i + 1) tables grown e = out at hrest hstart
        exact
          { ok := fun v hv => by
              obtain ⟨k, hk, hrun⟩ := hrest.ok v hv
              refine ⟨k, ?_, hrun⟩
              rw [List.length_cons]
              omega
            error := hrest.error
            bounded := by
              have hle := hrest.bounded
              rw [List.length_cons]
              omega
            grows := by
              have hchain := hrest.grows
              have hle := grow_le he hm hgrow
              simp only [List.map_cons, List.cons_append] at hchain ⊢
              refine List.isChain_cons_cons.mpr ⟨le_rfl, ?_⟩
              rw [List.isChain_cons] at hchain ⊢
              exact ⟨fun b hb => hle.trans (hchain.1 b hb), hchain.2⟩
            doubles := by
              intro j a b ha hb hd hu
              cases j with
              | zero =>
                obtain rfl := Option.some.inj ha
                rw [hstart b hb]
                exact grow_doubles he hd hu hgrow
              | succ j =>
                have hstep := hrest.doubles j a b ha hb hd
                rw [Nat.add_right_comm i 1 j] at hstep
                exact hstep hu }

structure AtomicWrite (env : Environment) (body : Nat → S → Result (T × S)) (inputBytes : Nat) (tables : S) (map : Nat)
    (out : Retried T S) : Prop where
  ok : ∀ v, out.result = .ok v → ∃ i, out.attempts.length = i + 1 ∧ env.begins i = none ∧ env.commits i = none ∧
    body i tables = .ok (v, out.tables)
  error : ∀ e, out.result = .error e → out.tables = tables
  runs : out.attempts.countP Attempt.ran ≤ 8
  grows : (map :: out.attempts.map Attempt.map ++ [out.map]).IsChain (· ≤ ·)
  doubles : ∀ (j : Nat) (a b : Attempt), out.attempts[j]? = some a → out.attempts[j + 1]? = some b →
    a.map * 2 ≤ usizeMax → env.used (j + 1) + inputBytes ≤ usizeMax →
      a.map * 2 ≤ b.map ∧ env.used (j + 1) + inputBytes ≤ b.map

theorem Atomic.write {tables : S} {map start : Nat} {out : Retried T S} (hs : map ≤ start)
    (h : Atomic env body inputBytes mapGrowRetries 0 tables start out) :
    AtomicWrite env body inputBytes tables map out where
  ok v hv := by
    obtain ⟨i, hi, hrun⟩ := h.ok v hv
    exact ⟨i, (Nat.zero_add _).symm.trans hi, hrun⟩
  error := h.error
  runs := List.countP_le_length.trans h.bounded
  grows := by
    have hchain := h.grows
    rw [List.cons_append, List.isChain_cons] at hchain ⊢
    exact ⟨fun b hb => hs.trans (hchain.1 b hb), hchain.2⟩
  doubles j a b ha hb hd hu := by
    have hstep := h.doubles j a b ha hb hd
    rw [Nat.zero_add] at hstep
    exact hstep hu

theorem map_full_retries_atomic (he : env.Lawful) (tables : S) {map : Nat} (hm : map ≤ usizeMax) :
    AtomicWrite env body inputBytes tables map (withWrite env body inputBytes tables map) := by
  rw [withWrite]
  split
  · next hneed =>
    split
    · exact
        { ok := by simp
          error := by simp
          runs := by simp
          grows := by simp
          doubles := by simp }
    · next next hgrant =>
      have hgrow : map ≤ next := by
        refine le_trans ?_ (he.granted hgrant)
        refine le_trans ?_ (le_alignMap (max_le (satAdd_le _ _) (satMul_le _ _)))
        exact hneed.le.trans (le_max_left _ _)
      exact (retry_atomic he mapGrowRetries 0 tables (he.word hgrant) stayedFull).write hgrow
  · exact (retry_atomic he mapGrowRetries 0 tables hm stayedFull).write le_rfl

end Atomic

section Tiny

-- The map is full twice, inside the body and at commit; the third attempt commits.
def tinyEnvironment : Environment where
  begins _ := none
  commits i := if i = 1 then some mapFull else none
  used _ := 0
  resize _ want := if want ≤ usizeMax then .ok want else .error (.heed "EINVAL")

def tinyBody (i : Nat) (tables : Nat) : Result (Unit × Nat) := if i = 0 then .error mapFull else .ok ((), tables + 1)

theorem tinyEnvironment_lawful : tinyEnvironment.Lawful where
  granted {k want got} h := by
    simp only [tinyEnvironment] at h
    split at h
    · exact (Except.ok.inj h).le
    · cases h
  word {k want got} h := by
    simp only [tinyEnvironment] at h
    split at h
    · next hw => exact (Except.ok.inj h) ▸ hw
    · cases h

theorem tiny_retries_atomic : AtomicWrite tinyEnvironment tinyBody 0 5 mapAlign (withWrite tinyEnvironment tinyBody 0 5 mapAlign) :=
  map_full_retries_atomic tinyEnvironment_lawful 5 (by decide)

example : (withWrite tinyEnvironment tinyBody 0 5 mapAlign).tables = 6 ∧
    (withWrite tinyEnvironment tinyBody 0 5 mapAlign).attempts.map Attempt.map = [2 ^ 20, 2 ^ 21, 2 ^ 22] := by decide

end Tiny

end ReadconDb
