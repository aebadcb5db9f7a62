import ReadconDb.MpiGather

set_option linter.unusedSectionVars false

namespace ReadconDb

open ByteString Outcome Blocks Slicing Binning

section Verdicts

def settle (fits : Nat → Nat → Bool) (b0 b1 : Nat) : Except Nat Nat :=
  if fits b0 b1 then .ok b1
  else
    match _h : shrinkBatchEnd b0 b1 with
    | some shrunk => settle fits b0 shrunk
    | none => .error b1
  termination_by b1
  decreasing_by exact (shrinkBatchEnd_lt _h).2

variable {fits : Nat → Nat → Bool} {n b0 b1 e : Nat}

theorem shrinkBatchEnd_none (hb : b0 < b1) (hn : b1 ≤ usizeMax) (h : shrinkBatchEnd b0 b1 = none) : b1 = b0 + 1 := by
  by_contra hne
  have hnext : satAdd b0 ((b1 - b0) / 2) = b0 + (b1 - b0) / 2 := satAdd_eq (by omega)
  simp only [shrinkBatchEnd, hnext] at h
  rw [if_neg (by omega), if_pos (by omega)] at h
  cases h

theorem settle_ok (hb : b0 < b1) (h : settle fits b0 b1 = .ok e) : b0 < e ∧ e ≤ b1 ∧ fits b0 e = true := by
  induction b1 using Nat.strong_induction_on with
  | h b1 ih =>
    rw [settle] at h
    split at h
    · next hfit =>
      cases h
      exact ⟨hb, le_rfl, hfit⟩
    · split at h
      · next shrunk hs =>
        obtain ⟨hlo, hhi⟩ := shrinkBatchEnd_lt hs
        obtain ⟨h1, h2, h3⟩ := ih shrunk hhi hlo h
        exact ⟨h1, h2.trans hhi.le, h3⟩
      · cases h

-- Halving stops at one frame only.
theorem settle_error (hb : b0 < b1) (hn : b1 ≤ usizeMax) (h : settle fits b0 b1 = .error e) :
    e = b0 + 1 ∧ fits b0 e = false := by
  induction b1 using Nat.strong_induction_on with
  | h b1 ih =>
    rw [settle] at h
    split at h
    · cases h
    · next hfit =>
      split at h
      · next shrunk hs =>
        have hin := shrinkBatchEnd_lt hs
        exact ih shrunk hin.2 hin.1 (hin.2.le.trans hn) h
      · next hs =>
        cases h
        exact ⟨shrinkBatchEnd_none hb hn hs, by simpa using hfit⟩

theorem settle_fits (h : fits b0 b1 = true) : settle fits b0 b1 = .ok b1 := by
  rw [settle, if_pos h]

theorem settle_shrunk (h : fits b0 b1 = false) (hs : shrinkBatchEnd b0 b1 = some e) :
    settle fits b0 b1 = settle fits b0 e := by
  rw [settle, if_neg (by simp [h])]
  split
  · next e' he =>
    obtain rfl : e = e' := Option.some.inj (hs.symm.trans he)
    rfl
  · next he => cases hs.symm.trans he

theorem settle_stuck (h : fits b0 b1 = false) (hs : shrinkBatchEnd b0 b1 = none) : settle fits b0 b1 = .error b1 := by
  rw [settle, if_neg (by simp [h])]
  split
  · next e he => cases hs.symm.trans he
  · rfl

def cover (fits : Nat → Nat → Bool) (batch : Nat) (hn : n ≤ usizeMax) (b0 : Nat) : List (Nat × Nat) × Option (Nat × Nat) :=
  if _hb : b0 < n then
    match _h : settle fits b0 (batchEnd b0 batch n) with
    | .error b1 => ([], some (b0, b1))
    | .ok b1 => ((b0, b1) :: (cover fits batch hn b1).1, (cover fits batch hn b1).2)
  else ([], none)
  termination_by n - b0
  decreasing_by
    all_goals
      obtain ⟨hlo, _⟩ := batchEnd_within batch hn _hb
      have hin := settle_ok hlo _h
      omega

theorem cover_done {batch : Nat} {hn : n ≤ usizeMax} (h : ¬b0 < n) : cover fits batch hn b0 = ([], none) := by
  rw [cover, dif_neg h]

theorem cover_stuck {batch : Nat} {hn : n ≤ usizeMax} (h : b0 < n) (hs : settle fits b0 (batchEnd b0 batch n) = .error e) :
    cover fits batch hn b0 = ([], some (b0, e)) := by
  rw [cover, dif_pos h]
  split
  · next e' he =>
    cases hs.symm.trans he
    rfl
  · next e' he => cases hs.symm.trans he

theorem cover_next {batch : Nat} {hn : n ≤ usizeMax} (h : b0 < n) (hs : settle fits b0 (batchEnd b0 batch n) = .ok e) :
    cover fits batch hn b0 = ((b0, e) :: (cover fits batch hn e).1, (cover fits batch hn e).2) := by
  rw [cover, dif_pos h]
  split
  · next e' he => cases hs.symm.trans he
  · next e' he =>
    cases hs.symm.trans he
    rfl

inductive Ends (fits : Nat → Nat → Bool) (n : Nat) : Nat → Option (Nat × Nat) → Prop
  | all : Ends fits n n none
  | tooBig {b0 : Nat} (hb : b0 < n) (hf : fits b0 (b0 + 1) = false) : Ends fits n b0 (some (b0, b0 + 1))

theorem Ends.le {stop : Nat} {stuck : Option (Nat × Nat)} (h : Ends fits n stop stuck) : stop ≤ n := by
  cases h with
  | all => exact le_rfl
  | tooBig hb _ => exact hb.le

theorem cover_ends (fits : Nat → Nat → Bool) (batch : Nat) (hn : n ≤ usizeMax) (hb : b0 ≤ n) :
    (∃ stop, Consecutive b0 (cover fits batch hn b0).1 stop ∧ Ends fits n stop (cover fits batch hn b0).2) ∧
      ∀ b ∈ (cover fits batch hn b0).1, fits b.1 b.2 = true ∧ b.2 - b.1 ≤ max batch 1 ∧ b.2 ≤ n := by
  induction hk : n - b0 using Nat.strong_induction_on generalizing b0 with
  | h k ih =>
    rw [cover]
    split
    · next hlt =>
      obtain ⟨hlo, hhi⟩ := batchEnd_within batch hn hlt
      split
      · next b1 hs =>
        obtain ⟨rfl, hfit⟩ := settle_error hlo (hhi.trans hn) hs
        exact ⟨⟨b0, .nil b0, .tooBig hlt hfit⟩, by simp⟩
      · next b1 hs =>
        obtain ⟨h1, h2, h3⟩ := settle_ok hlo hs
        obtain ⟨⟨stop, hcons, hends⟩, hall⟩ := ih (n - b1) (by omega) (h2.trans hhi) rfl
        refine ⟨⟨stop, .cons h1 hcons, hends⟩, ?_⟩
        intro b hmem
        rcases List.mem_cons.mp hmem with rfl | hmem
        · refine ⟨h3, ?_, h2.trans hhi⟩
          have hend : batchEnd b0 batch n ≤ b0 + max batch 1 := by
            rw [batchEnd, if_neg (by omega)]
            exact (min_le_left _ _).trans (min_le_left _ _)
          change b1 - b0 ≤ max batch 1
          omega
        · exact hall b hmem
    · obtain rfl : b0 = n := by omega
      exact ⟨⟨b0, .nil b0, .all⟩, by simp⟩

end Verdicts

section Batches

variable {x : Exchange} {b0 b1 : Nat}

def Exchange.fits (x : Exchange) (b0 b1 : Nat) : Bool := fitsAll x.size (countsOf x b0 b1)

theorem Exchange.n_le (x : Exchange) : x.n ≤ usizeMax := x.counted

theorem exchangeFrom_eq (hx : x.Sound) (hres : x.Resident) (hb : b0 < b1) (hn : b1 ≤ x.n) :
    exchangeFrom x b0 b1 =
      match settle x.fits b0 b1 with
      | .ok e => .ok (e, (columnsOf x b0 e).map List.flatten)
      | .error e => .error (tooBig x.size (countsOf x b0 e)) := by
  induction b1 using Nat.strong_induction_on with
  | h b1 ih =>
    rw [exchangeFrom, plan_eq hx hres hn]
    simp only
    cases hfit : x.fits b0 b1 with
    | true =>
      have hall : fitsAll x.size (countsOf x b0 b1) = true := hfit
      rw [settle_fits hfit, if_pos hall, deliver_eq hx hres hall]
      rfl
    | false =>
      have hall : fitsAll x.size (countsOf x b0 b1) = false := hfit
      rw [if_neg (ne_true_of_eq_false hall)]
      split
      · next shrunk hs =>
        obtain ⟨hlo, hhi⟩ := shrinkBatchEnd_lt hs
        rw [ih shrunk hhi hlo (hhi.le.trans hn), settle_shrunk hfit hs]
      · next hs => rw [settle_stuck hfit hs]

def rowsOf (x : Exchange) (b : Nat × Nat) : List (List (UInt32 × Held)) :=
  (List.range x.size).map fun q => (x.owned b.1 b.2 q).map (x.heldOf b.1)

theorem decoded_eq (hx : x.Sound) (hres : x.Resident) (hb : b0 ≤ b1) (hn : b1 ≤ x.n) :
    collective (((columnsOf x b0 b1).map List.flatten).map (x.decodeBatch b0 b1)) = .ok (rowsOf x (b0, b1)) := by
  rw [collective_eq_ok, rowsOf, columnsOf, List.map_map, List.map_map, List.map_map]
  apply List.map_congr_left
  intro q _
  simp only [Function.comp_apply]
  rw [received_eq hx hb hn, decodeBatch_ok hx hres hn]

variable {S : Type}

def tooBigAt (x : Exchange) (b : Nat × Nat) : List Error :=
  (tooBig x.size (countsOf x b.1 b.2)).mapIdx fun rank e => rankError (A := Unit) rank (.error e)

def stageAll (x : Exchange) (put : S → List (List (UInt32 × Held)) → Spmd S) (stuck : Option (Nat × Nat)) (s : S) :
    List (Nat × Nat) → List (Nat × Nat) × Spmd S
  | [] => ([], match stuck with | none => .ok s | some b => .error (tooBigAt x b))
  | b :: rest =>
    match put s (rowsOf x b) with
    | .error es => ([b], .error es)
    | .ok s' => (b :: (stageAll x put stuck s' rest).1, (stageAll x put stuck s' rest).2)

theorem runBatches_eq (hx : x.Sound) (hres : x.Resident) (batch : Nat) (put : S → List (List (UInt32 × Held)) → Spmd S)
    (s : S) : runBatches x batch put b0 s =
      stageAll x put (cover x.fits batch x.n_le b0).2 s (cover x.fits batch x.n_le b0).1 := by
  induction hk : x.n - b0 using Nat.strong_induction_on generalizing b0 s with
  | h k ih =>
    rw [runBatches]
    by_cases hb : b0 < x.n
    · obtain ⟨hlo, hhi⟩ := batchEnd_within batch x.n_le hb
      have hex : exchangeBatch x b0 batch = _ := exchangeFrom_eq hx hres hlo hhi
      rw [dif_pos hb]
      split
      · next es hes =>
        rw [hes] at hex
        split at hex
        · cases hex
        · next e he =>
          cases hex
          rw [cover_stuck hb he]
          rfl
      · next b1 recv hrecv =>
        rw [hrecv] at hex
        split at hex
        · next e he =>
          cases hex
          obtain ⟨h1, h2, _⟩ := settle_ok hlo he
          rw [cover_next hb he, decoded_eq hx hres h1.le (h2.trans hhi)]
          simp only [stageAll]
          cases put s (rowsOf x (b0, b1)) with
          | error es => rfl
          | ok s' =>
            simp only
            rw [ih (x.n - b1) (by omega) s' rfl]
        · cases hex
    · rw [dif_neg hb, cover_done hb]
      rfl

theorem stageAll_ok {put : S → List (List (UInt32 × Held)) → Spmd S} {stuck : Option (Nat × Nat)} {s s' : S}
    {bs : List (Nat × Nat)} (h : (stageAll x put stuck s bs).2 = .ok s') :
    stuck = none ∧ (stageAll x put stuck s bs).1 = bs := by
  induction bs generalizing s with
  | nil =>
    cases stuck with
    | none => exact ⟨rfl, rfl⟩
    | some b => cases h
  | cons b bs ih =>
    rw [stageAll] at h ⊢
    split at h
    · cases h
    · next s₁ hs₁ =>
      obtain ⟨hstuck, hall⟩ := ih h
      exact ⟨hstuck, by simp only [hall]⟩

theorem stageAll_error {put : S → List (List (UInt32 × Held)) → Spmd S} {stuck : Option (Nat × Nat)} {s : S}
    {bs : List (Nat × Nat)} {es : List Error} (h : (stageAll x put stuck s bs).2 = .error es) :
    (∃ b, stuck = some b ∧ es = tooBigAt x b ∧ (stageAll x put stuck s bs).1 = bs) ∨
      ∃ b ∈ bs, ∃ s', put s' (rowsOf x b) = .error es := by
  induction bs generalizing s with
  | nil =>
    cases stuck with
    | none => cases h
    | some b =>
      cases h
      exact .inl ⟨b, rfl, rfl, rfl⟩
  | cons b bs ih =>
    rw [stageAll] at h ⊢
    split at h
    · next es' hput =>
      cases h
      exact .inr ⟨b, List.mem_cons_self, s, hput⟩
    · next s₁ hs₁ =>
      rcases ih h with ⟨b', hstuck, hes, hall⟩ | ⟨b', hb', s', hput⟩
      · exact .inl ⟨b', hstuck, hes, by simp only [hall]⟩
      · exact .inr ⟨b', List.mem_cons_of_mem b hb', s', hput⟩

theorem stageAll_initial {put : S → List (List (UInt32 × Held)) → Spmd S} {stuck : Option (Nat × Nat)} {s : S}
    (bs : List (Nat × Nat)) : (stageAll x put stuck s bs).1 <+: bs := by
  induction bs generalizing s with
  | nil => exact List.nil_prefix
  | cons b bs ih =>
    rw [stageAll]
    split
    · exact (List.prefix_cons_inj b).mpr List.nil_prefix
    · exact (List.prefix_cons_inj b).mpr ih

structure CoversOnce (x : Exchange) (batch : Nat) (put : S → List (List (UInt32 × Held)) → Spmd S) (s : S) : Prop where
  consecutive : ∃ stop ≤ x.n, Consecutive 0 (runBatches x batch put 0 s).1 stop
  succeeds : ∀ s', (runBatches x batch put 0 s).2 = .ok s' → Consecutive 0 (runBatches x batch put 0 s).1 x.n
  fails : ∀ es, (runBatches x batch put 0 s).2 = .error es →
    (∃ b0 < x.n, Consecutive 0 (runBatches x batch put 0 s).1 b0 ∧ x.fits b0 (b0 + 1) = false ∧
      es = tooBigAt x (b0, b0 + 1)) ∨ ∃ b s', put s' (rowsOf x b) = .error es

theorem runBatches_once (hx : x.Sound) (hres : x.Resident) (batch : Nat) (put : S → List (List (UInt32 × Held)) → Spmd S)
    (s : S) : CoversOnce x batch put s := by
  have heq : runBatches x batch put 0 s = _ := runBatches_eq hx hres batch put s
  obtain ⟨⟨stop, hcons, hends⟩, _⟩ := cover_ends x.fits batch x.n_le (Nat.zero_le x.n)
  exact {
    consecutive := by
      rw [heq]
      obtain ⟨stop', hle, hcons'⟩ := hcons.initial (stageAll_initial _)
      exact ⟨stop', hle.trans hends.le, hcons'⟩
    succeeds := by
      intro s' h
      rw [heq] at h ⊢
      obtain ⟨hstuck, hall⟩ := stageAll_ok h
      rw [hall]
      rw [hstuck] at hends
      cases hends
      exact hcons
    fails := by
      intro es h
      rw [heq] at h ⊢
      rcases stageAll_error h with ⟨b, hstuck, hes, hall⟩ | ⟨b, _, s', hput⟩
      · rw [hall]
        rw [hstuck] at hends
        cases hends with
        | tooBig hb hf => exact .inl ⟨stop, hb, hcons, hf, hes⟩
      · exact .inr ⟨b, s', hput⟩ }

structure BatchLoop (x : Exchange) : Prop where
  stages : ∀ {S : Type} (batch : Nat) (put : S → List (List (UInt32 × Held)) → Spmd S) (s : S),
    runBatches x batch put 0 s = stageAll x put (cover x.fits batch x.n_le 0).2 s (cover x.fits batch x.n_le 0).1
  once : ∀ {S : Type} (batch : Nat) (put : S → List (List (UInt32 × Held)) → Spmd S) (s : S), CoversOnce x batch put s
  planned : ∀ b0 b1, b1 ≤ x.n → plan x b0 b1 = .ok ((messagesOf x b0 b1).map lengthsU64)
  delivered : ∀ b0 b1, b0 ≤ b1 → b1 ≤ x.n → x.fits b0 b1 = true → ∃ recv,
    deliver x b0 b1 ((messagesOf x b0 b1).map lengthsU64) = .ok recv ∧
      recv = (List.range x.size).map (fun q => (x.owned b0 b1 q).flatMap (x.record b0)) ∧
      collective (recv.map (x.decodeBatch b0 b1)) = .ok (rowsOf x (b0, b1))
  winners : ∀ b0 b1 q g done rest, b1 ≤ x.n → x.owned b0 b1 q = done ++ g :: rest →
    sendStoredBytes (x.winner g) g b0 = false →
      x.winner g ∈ done ∧ sendStoredBytes (x.winner (x.winner g)) (x.winner g) b0 = true

variable {F : Type} [Float64 F] {d : Crates F} {files : Files}

-- The second part is about every pattern of verdicts, the first about those the code comes to.
theorem batches_cover_once {size : Nat} (hs : 0 < size) {route : Route} {input : List (UInt64 × String)}
    (h : prepare d files size route input = lift (.ok x)) :
    BatchLoop x ∧ ∀ (n : Nat) (hn : n ≤ usizeMax) (fits : Nat → Nat → Bool) (batch : Nat),
      ∃ stop, Consecutive 0 (cover fits batch hn 0).1 stop ∧ Ends fits n stop (cover fits batch hn 0).2 := by
  obtain ⟨hx, hres⟩ := prepare_sound hs h
  refine ⟨?_, fun n hn fits batch => (cover_ends fits batch hn (Nat.zero_le n)).1⟩
  exact {
    stages := fun batch put s => runBatches_eq hx hres batch put s
    once := fun batch put s => runBatches_once hx hres batch put s
    planned := by
      intro b0 b1 hn
      rw [plan_eq hx hres hn, ← messages_lengths]
      rfl
    delivered := by
      intro b0 b1 hb hn hfit
      refine ⟨(columnsOf x b0 b1).map List.flatten, ?_, ?_, decoded_eq hx hres hb hn⟩
      · rw [← deliver_eq hx hres hfit, ← messages_lengths]
        rfl
      · rw [columnsOf, List.map_map]
        apply List.map_congr_left
        intro q _
        exact received_eq hx hb hn q
    winners := by
      intro b0 b1 q g done rest hn hall hsend
      obtain ⟨hne, hle⟩ : x.winner g ≠ g ∧ b0 ≤ x.winner g := by simpa [sendStoredBytes] using hsend
      obtain ⟨hdone, _⟩ := hx.winner_done hn hall hle hne
      have hg : g ∈ x.owned b0 b1 q := by simp [hall]
      rw [Exchange.owned, List.mem_filter, List.mem_range'_1] at hg
      refine ⟨hdone, ?_⟩
      rw [hx.winner_winner g (by omega)]
      simp [sendStoredBytes] }

end Batches

section Tiny

-- Two files of one frame each, alike: the second frame is a duplicate that another rank parses.
def tinyFiles : Files := fun path =>
  if path = "a.con" ∨ path = "b.con" then .ok (utf8 hydrogen.2) else .error "No such file or directory (os error 2)"

def answered {A E : Type} : Checked E A → Option A
  | some (.ok a) => some a
  | _ => none

theorem answered_eq {A E : Type} {x : Checked E A} {a : A} (h : answered x = some a) : x = lift (.ok a) := by
  cases x with
  | none => cases h
  | some r =>
    cases r with
    | error e => cases h
    | ok b =>
      cases h
      rfl

theorem tiny_batches_once : ∃ x, prepare tiny tinyFiles 2 .single [(7, "a.con"), (9, "b.con")] = lift (.ok x) ∧
    x.firstOf = [0, 0] ∧ BatchLoop x := by
  have hrun : (answered (prepare tiny tinyFiles 2 .single [(7, "a.con"), (9, "b.con")])).map (·.firstOf) = some [0, 0] := by
    decide +kernel
  obtain ⟨x, hx, hfirst⟩ := Option.map_eq_some_iff.mp hrun
  have hprep := answered_eq hx
  exact ⟨x, hprep, hfirst, (batches_cover_once (by decide) hprep).1⟩

end Tiny

end ReadconDb
