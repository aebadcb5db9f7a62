import Mathlib

namespace WorkPool

inductive Worker where
  | idle
  | filling (tasks : List Nat)
  | stopped

namespace Worker

def pending : Worker → List Nat
  | .filling tasks => tasks
  | _ => []

def weight : Worker → Nat
  | .idle => 1
  | .filling tasks => tasks.length + 2
  | .stopped => 0

end Worker

-- Chunks are claimed from a shared counter; `filled` lists the slots in the order they were filled.
structure Pool (A : Type) where
  next : Nat
  slots : List A
  workers : List Worker
  filled : List Nat

section Steps

variable {A : Type} (chunks : List (List Nat)) (job : Nat → A)

inductive Step : Pool A → Pool A → Prop
  | claim {next chunk} (slots front back filled) (h : chunks[next]? = some chunk) :
      Step ⟨next, slots, front ++ .idle :: back, filled⟩ ⟨next + 1, slots, front ++ .filling chunk :: back, filled⟩
  | stop {next} (slots front back filled) (h : chunks.length ≤ next) :
      Step ⟨next, slots, front ++ .idle :: back, filled⟩ ⟨next + 1, slots, front ++ .stopped :: back, filled⟩
  | fill (next slots front back filled) (i : Nat) (tasks : List Nat) :
      Step ⟨next, slots, front ++ .filling (i :: tasks) :: back, filled⟩
        ⟨next, slots.set i (job i), front ++ .filling tasks :: back, filled ++ [i]⟩
  | turn (next slots front back filled) :
      Step ⟨next, slots, front ++ .filling [] :: back, filled⟩ ⟨next, slots, front ++ .idle :: back, filled⟩

def Run : Pool A → Pool A → Prop := Relation.ReflTransGen (Step chunks job)

def Pool.Complete (s : Pool A) : Prop := ∀ w ∈ s.workers, w = .stopped

def Pool.start (slots : List A) (count : Nat) : Pool A := ⟨0, slots, List.replicate count .idle, []⟩

structure Accounted (n : Nat) (s : Pool A) : Prop where
  tasks : (s.filled ++ s.workers.flatMap Worker.pending ++ (chunks.drop s.next).flatten).Perm chunks.flatten
  length : s.slots.length = n
  slots : ∀ i ∈ s.filled, i < n → s.slots[i]? = some (job i)
  stopped : Worker.stopped ∈ s.workers → chunks.length ≤ s.next

variable {chunks job} {n : Nat} {s s' : Pool A}

theorem accounted_start {slots : List A} {count : Nat} (hs : slots.length = n) :
    Accounted chunks job n (Pool.start slots count) where
  tasks := by simp [Pool.start, List.flatMap_replicate, Worker.pending]
  length := hs
  slots := by simp [Pool.start]
  stopped := by simp [Pool.start, List.mem_replicate]

theorem Step.accounted (h : Step chunks job s s') (hi : Accounted chunks job n s) : Accounted chunks job n s' := by
  cases h with
  | @claim next chunk slots front back filled hc =>
    have hdrop : chunks.drop next = chunk :: chunks.drop (next + 1) := by
      obtain ⟨hlt, rfl⟩ := List.getElem?_eq_some_iff.mp hc
      exact List.drop_eq_getElem_cons hlt
    refine ⟨?_, hi.length, hi.slots, ?_⟩
    · have hp := hi.tasks
      simp only [hdrop, List.flatMap_append, List.flatMap_cons, Worker.pending, List.nil_append, List.flatten_cons] at hp ⊢
      refine List.Perm.trans (List.perm_iff_count.mpr fun i => ?_) hp
      simp only [List.count_append]
      omega
    · intro hm
      have hstop := hi.stopped
      simp only [List.mem_append, List.mem_cons, reduceCtorEq, false_or] at hm hstop
      exact (hstop hm).trans (Nat.le_succ next)
  | @stop next slots front back filled hc =>
    refine ⟨?_, hi.length, hi.slots, fun _ => hc.trans (Nat.le_succ next)⟩
    have hp := hi.tasks
    simpa [List.drop_eq_nil_of_le hc, List.drop_eq_nil_of_le (hc.trans (Nat.le_succ next)), Worker.pending] using hp
  | fill next slots front back filled i tasks =>
    refine ⟨?_, ?_, ?_, ?_⟩
    · have hp := hi.tasks
      simp only [List.flatMap_append, List.flatMap_cons, Worker.pending] at hp ⊢
      refine List.Perm.trans (List.perm_iff_count.mpr fun j => ?_) hp
      simp only [List.count_append, List.count_cons, List.count_nil]
      omega
    · rw [List.length_set]
      exact hi.length
    · intro j hj hlt
      have hlen : slots.length = n := hi.length
      by_cases hij : i = j
      · subst hij
        exact List.getElem?_set_self (by omega)
      · rw [List.getElem?_set_ne hij]
        rcases List.mem_append.mp hj with hj | hj
        · exact hi.slots j hj hlt
        · exact absurd (List.mem_singleton.mp hj).symm hij
    · intro hm
      have hstop := hi.stopped
      simp only [List.mem_append, List.mem_cons, reduceCtorEq, false_or] at hm hstop
      exact hstop hm
  | turn next slots front back filled =>
    refine ⟨?_, hi.length, hi.slots, ?_⟩
    · simpa [Worker.pending] using hi.tasks
    · intro hm
      have hstop := hi.stopped
      simp only [List.mem_append, List.mem_cons, reduceCtorEq, false_or] at hm hstop
      exact hstop hm

theorem Run.accounted (h : Run chunks job s s') (hi : Accounted chunks job n s) : Accounted chunks job n s' := by
  induction h with
  | refl => exact hi
  | tail _ hstep ih => exact hstep.accounted ih

theorem Accounted.complete (hi : Accounted chunks job n s) (hc : s.Complete) (hw : s.workers ≠ []) :
    s.filled.Perm chunks.flatten := by
  have hstop : Worker.stopped ∈ s.workers := by
    obtain ⟨w, hw⟩ := List.exists_mem_of_ne_nil _ hw
    exact hc w hw ▸ hw
  have hdrop := List.drop_eq_nil_of_le (hi.stopped hstop)
  have hpending : s.workers.flatMap Worker.pending = [] := by
    rw [List.flatMap_eq_nil_iff]
    intro w hw
    rw [hc w hw]
    rfl
  have hp := hi.tasks
  rwa [hdrop, hpending, List.flatten_nil, List.append_nil, List.append_nil] at hp

theorem Accounted.slots_eq (hi : Accounted chunks job n s) (hc : s.Complete) (hw : s.workers ≠ [])
    (hall : chunks.flatten = List.range n) : s.slots = (List.range n).map job := by
  have hp := hi.complete hc hw
  rw [hall] at hp
  apply List.ext_getElem?
  intro i
  by_cases hlt : i < n
  · rw [hi.slots i (hp.mem_iff.mpr (List.mem_range.mpr hlt)) hlt, List.getElem?_map, List.getElem?_range hlt]
    rfl
  · rw [List.getElem?_eq_none (by rw [hi.length]; omega), List.getElem?_eq_none (by simp; omega)]

theorem Run.workers_length (h : Run chunks job s s') : s'.workers.length = s.workers.length := by
  induction h with
  | refl => rfl
  | tail _ hstep ih =>
    rw [← ih]
    cases hstep <;> simp

end Steps

section Progress

variable {A : Type} {chunks : List (List Nat)} {job : Nat → A} {s s' : Pool A}

def Pool.work (chunks : List (List Nat)) (s : Pool A) : Nat :=
  ((chunks.drop s.next).map fun chunk => chunk.length + 2).sum + (s.workers.map Worker.weight).sum

theorem Step.work_lt (h : Step chunks job s s') : s'.work chunks < s.work chunks := by
  cases h with
  | @claim next chunk slots front back filled hc =>
    have hdrop : chunks.drop next = chunk :: chunks.drop (next + 1) := by
      obtain ⟨hlt, rfl⟩ := List.getElem?_eq_some_iff.mp hc
      exact List.drop_eq_getElem_cons hlt
    simp only [Pool.work, hdrop, List.map_cons, List.map_append, List.sum_cons, List.sum_append, Worker.weight]
    omega
  | @stop next slots front back filled hc =>
    simp only [Pool.work, List.drop_eq_nil_of_le hc, List.drop_eq_nil_of_le (hc.trans (Nat.le_succ next)), List.map_cons,
      List.map_append, List.sum_cons, List.sum_append, Worker.weight]
    omega
  | fill next slots front back filled i tasks =>
    simp only [Pool.work, List.map_cons, List.map_append, List.sum_cons, List.sum_append, Worker.weight, List.length_cons]
    omega
  | turn next slots front back filled =>
    simp only [Pool.work, List.map_cons, List.map_append, List.sum_cons, List.sum_append, Worker.weight, List.length_nil]
    omega

theorem progress (chunks : List (List Nat)) (job : Nat → A) (hs : ¬ s.Complete) : ∃ s', Step chunks job s s' := by
  obtain ⟨next, slots, workers, filled⟩ := s
  simp only [Pool.Complete, not_forall] at hs
  obtain ⟨w, hw, hne⟩ := hs
  obtain ⟨front, back, rfl⟩ := List.append_of_mem hw
  cases w with
  | stopped => exact absurd rfl hne
  | idle =>
    cases hc : chunks[next]? with
    | none => exact ⟨_, .stop slots front back filled (List.getElem?_eq_none_iff.mp hc)⟩
    | some chunk => exact ⟨_, .claim slots front back filled hc⟩
  | filling tasks =>
    cases tasks with
    | nil => exact ⟨_, .turn next slots front back filled⟩
    | cons i tasks => exact ⟨_, .fill next slots front back filled i tasks⟩

theorem exists_complete (chunks : List (List Nat)) (job : Nat → A) (s : Pool A) : ∃ s', Run chunks job s s' ∧ s'.Complete := by
  induction hw : s.work chunks using Nat.strongRecOn generalizing s with
  | ind k ih =>
    by_cases hs : s.Complete
    · exact ⟨s, .refl, hs⟩
    · obtain ⟨s₁, hstep⟩ := progress chunks job hs
      obtain ⟨s₂, hrun, hdone⟩ := ih (s₁.work chunks) (hw ▸ hstep.work_lt) s₁ rfl
      exact ⟨s₂, .head hstep hrun, hdone⟩

end Progress

end WorkPool
