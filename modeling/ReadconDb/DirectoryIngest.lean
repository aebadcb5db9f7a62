import ReadconDb.Catalog
import ReadconDb.Store
import ReadconDb.Library.WorkPool

set_option linter.unusedSectionVars false

namespace ReadconDb

open ByteString Outcome TwoPhase WorkPool

section Bounds

def chunkBoundsFrom (n i : Nat) : List (Nat × Nat) :=
  if _h : i < n then (i, min (i + max (n / 8) 1) n) :: chunkBoundsFrom n (min (i + max (n / 8) 1) n) else []
  termination_by n - i

def ingestChunkBounds (n : Nat) : List (Nat × Nat) := if n = 0 then [] else chunkBoundsFrom n 0

def chunkTasks (b : Nat × Nat) : List Nat := List.range' b.1 (b.2 - b.1)

theorem chunkBoundsFrom_tasks {n i : Nat} (hi : i ≤ n) : (chunkBoundsFrom n i).flatMap chunkTasks = List.range' i (n - i) := by
  induction i using chunkBoundsFrom.induct n with
  | case1 i hlt ih =>
    have hsplit : n - i = (min (i + max (n / 8) 1) n - i) + (n - min (i + max (n / 8) 1) n) := by omega
    have hnext : i + (min (i + max (n / 8) 1) n - i) = min (i + max (n / 8) 1) n := by omega
    rw [chunkBoundsFrom, dif_pos hlt, List.flatMap_cons, ih (by omega), chunkTasks, hsplit, ← List.range'_append_1, hnext]
  | case2 i hge =>
    rw [chunkBoundsFrom, dif_neg hge, Nat.sub_eq_zero_of_le (not_lt.mp hge)]
    rfl

theorem ingestChunkBounds_tasks (n : Nat) : (ingestChunkBounds n).flatMap chunkTasks = List.range n := by
  rw [ingestChunkBounds]
  split
  · next hn =>
    subst hn
    rfl
  · rw [chunkBoundsFrom_tasks (Nat.zero_le n), List.range_eq_range', Nat.sub_zero]

end Bounds

-- What `fs::read_dir` lists, what a path is called and what it holds.
structure Directory (P : Type) where
  entries : Result (List (Option P))
  fileName : P → Option String
  file : P → ConFile

section Paths

variable {P : Type} [LinearOrder P] (dir : Directory P)

def Directory.isCon (p : P) : Bool :=
  let name := (dir.fileName p).getD ""
  name.endsWith ".con" || name.endsWith ".convel"

def Directory.sortedPaths (entries : List (Option P)) : List P :=
  ((entries.filterMap id).filter dir.isCon).mergeSort fun p q => decide (p ≤ q)

def Directory.paths : Result (List P) := dir.sortedPaths <$> dir.entries

theorem sortedPaths_sorted (es : List (Option P)) : (dir.sortedPaths es).Pairwise (· ≤ ·) := by
  have htrans (a b c : P) (hab : decide (a ≤ b) = true) (hbc : decide (b ≤ c) = true) : decide (a ≤ c) = true :=
    decide_eq_true (le_trans (of_decide_eq_true hab) (of_decide_eq_true hbc))
  have htotal (a b : P) : (decide (a ≤ b) || decide (b ≤ a)) = true := by
    simpa using le_total a b
  exact (List.pairwise_mergeSort htrans htotal _).imp of_decide_eq_true

theorem paths_sorted {paths : List P} (h : dir.paths = .ok paths) : paths.Pairwise (· ≤ ·) := by
  rw [Directory.paths] at h
  cases hes : dir.entries with
  | error e => rw [hes] at h; cases h
  | ok es =>
    rw [hes] at h
    exact Except.ok.inj h ▸ sortedPaths_sorted dir es

theorem sortedPaths_perm {es es' : List (Option P)} (h : es.Perm es') : dir.sortedPaths es = dir.sortedPaths es' := by
  have hperm := (h.filterMap id).filter dir.isCon
  have hall := (List.mergeSort_perm _ fun p q => decide (p ≤ q)).trans
    (hperm.trans (List.mergeSort_perm _ fun p q => decide (p ≤ q)).symm)
  exact hall.eq_of_pairwise (fun _ _ _ _ hab hba => le_antisymm hab hba) (sortedPaths_sorted dir es)
    (sortedPaths_sorted dir es')

end Paths

section Ingest

variable {F : Type} [Float64 F] (d : Crates F) (start : UInt64) (units : Option (Value F)) (compress : Bool)
  (refused : Nat → Option Error)

def preparePath (trajId : UInt64) (file : ConFile) : Result (List PreparedIndexPuts) :=
  match units with
  | none => do prepareTrajectoryStr d trajId (← file.contents) compress
  | some _ => do
    let frames ← framesWithUnits d file units
    prepareTrajectoryFramesFormatted d trajId frames 0 d.defaultFormat compress

def fileId (i : Nat) : UInt64 := start + UInt64.ofNat i

def prepareJob (files : List ConFile) (i : Nat) : Result (List PreparedIndexPuts) :=
  match files[i]? with
  | some file => preparePath d units compress (fileId start i) file
  | none => .ok []

def commitFile (i : Nat) (file : ConFile) (row : Result (List PreparedIndexPuts)) (c : ConCorpus F) :
    Result UInt32 × ConCorpus F :=
  match row with
  | .error e => (.error e, c)
  | .ok puts => call (groupIf d compress puts) (refused i) (commitPrepared d (fileId start i) file.display false) c

def commitRows : Nat → List (Result (List PreparedIndexPuts) × ConFile) → List (UInt64 × UInt32 × String) →
    ConCorpus F → Result (List (UInt64 × UInt32 × String)) × ConCorpus F
  | _, [], out, c => (.ok out, c)
  | i, (row, file) :: rest, out, c =>
    match commitFile d start compress refused i file row c with
    | (.error e, next) => (.error e, next)
    | (.ok n, next) => commitRows (i + 1) rest (out ++ [(fileId start i, n, file.display)]) next

def emptySlots (n : Nat) : List (Result (List PreparedIndexPuts)) := List.replicate n (.ok [])

def ingestChunks (files : List ConFile) : List (List Nat) := (ingestChunkBounds files.length).map chunkTasks

-- The slots after the prepare phase: filled in order by one thread, or by workers in any schedule.
inductive Prepares (files : List ConFile) (threads : Nat) : List (Result (List PreparedIndexPuts)) → Prop
  | serial (h : max threads 1 = 1 ∨ (ingestChunkBounds files.length).length ≤ 1) :
      Prepares files threads ((ingestChunks files).flatten.foldl
        (fun slots i => slots.set i (prepareJob d start units compress files i)) (emptySlots files.length))
  | threaded (h : ¬ (max threads 1 = 1 ∨ (ingestChunkBounds files.length).length ≤ 1))
      {s : Pool (Result (List PreparedIndexPuts))}
      (run : Run (ingestChunks files) (prepareJob d start units compress files)
        (Pool.start (emptySlots files.length) (min (max threads 1) (ingestChunkBounds files.length).length)) s)
      (done : s.Complete) :
      Prepares files threads s.slots

variable {P : Type} [LinearOrder P] (dir : Directory P)

inductive DirectoryIngests (threads : Nat) (c : ConCorpus F) :
    Result (List (UInt64 × UInt32 × String)) × ConCorpus F → Prop
  | unreadable {e} (h : dir.paths = .error e) : DirectoryIngests threads c (.error e, c)
  | read {paths rows} (h : dir.paths = .ok paths)
      (hrows : Prepares d start units compress (paths.map dir.file) threads rows) :
      DirectoryIngests threads c (commitRows d start compress refused 0 (rows.zip (paths.map dir.file)) [] c)

end Ingest

section Threads

variable {F : Type} [Float64 F] {d : Crates F} {start : UInt64} {units : Option (Value F)} {compress : Bool}
  {refused : Nat → Option Error}

theorem ingestChunks_flatten (files : List ConFile) : (ingestChunks files).flatten = List.range files.length := by
  rw [ingestChunks, ← List.flatMap_def, ingestChunkBounds_tasks]

theorem foldl_set_range {A : Type} (job : Nat → A) (slots : List A) :
    (List.range slots.length).foldl (fun slots i => slots.set i (job i)) slots = (List.range slots.length).map job := by
  have hprefix (k : Nat) (hk : k ≤ slots.length) :
      (List.range k).foldl (fun slots i => slots.set i (job i)) slots = (List.range k).map job ++ slots.drop k := by
    induction k with
    | zero => rfl
    | succ k ih =>
      have hlen : ((List.range k).map job).length = k := by simp
      rw [List.range_succ, List.foldl_append, ih (by omega), List.foldl_cons, List.foldl_nil,
        List.set_append_right _ _ (by omega), hlen, Nat.sub_self, List.drop_eq_getElem_cons (by omega), List.set_cons_zero,
        List.map_append, List.append_assoc]
      rfl
  have hall := hprefix slots.length le_rfl
  rwa [List.drop_length, List.append_nil] at hall

theorem pool_started {files : List ConFile} {threads : Nat}
    (h : ¬ (max threads 1 = 1 ∨ (ingestChunkBounds files.length).length ≤ 1)) :
    (Pool.start (emptySlots files.length) (min (max threads 1) (ingestChunkBounds files.length).length)).workers ≠ [] := by
  rw [Pool.start, Ne, List.replicate_eq_nil_iff]
  omega

theorem Prepares.eq {files : List ConFile} {threads : Nat} {rows : List (Result (List PreparedIndexPuts))}
    (h : Prepares d start units compress files threads rows) :
    rows = (List.range files.length).map (prepareJob d start units compress files) := by
  have hslots : (emptySlots files.length).length = files.length := List.length_replicate
  cases h with
  | serial h =>
    have hfold := foldl_set_range (prepareJob d start units compress files) (emptySlots files.length)
    rw [hslots] at hfold
    rw [ingestChunks_flatten]
    exact hfold
  | threaded h run done =>
    have hne := run.workers_length
    have hstart := pool_started h
    refine (run.accounted (accounted_start hslots)).slots_eq done ?_ (ingestChunks_flatten files)
    rw [← List.length_pos_iff] at hstart ⊢
    omega

theorem prepares_exists (d : Crates F) (start : UInt64) (units : Option (Value F)) (compress : Bool) (files : List ConFile) (threads : Nat) :
    ∃ rows, Prepares d start units compress files threads rows := by
  by_cases h : max threads 1 = 1 ∨ (ingestChunkBounds files.length).length ≤ 1
  · exact ⟨_, .serial h⟩
  · obtain ⟨s, hrun, hdone⟩ := exists_complete (ingestChunks files) (prepareJob d start units compress files)
      (Pool.start (emptySlots files.length) (min (max threads 1) (ingestChunkBounds files.length).length))
    exact ⟨_, .threaded h hrun hdone⟩

def ingestFile (d : Crates F) (start : UInt64) (units : Option (Value F)) (compress : Bool)
    (refused : Nat → Option Error) (i : Nat) (file : ConFile) (c : ConCorpus F) : Result UInt32 × ConCorpus F :=
  commitFile d start compress refused i file (preparePath d units compress (fileId start i) file) c

inductive CommittedInOrder (d : Crates F) (start : UInt64) (units : Option (Value F)) (compress : Bool)
    (refused : Nat → Option Error) : Nat → List ConFile → ConCorpus F → List (UInt64 × UInt32 × String) →
      ConCorpus F → Prop
  | nil (i c) : CommittedInOrder d start units compress refused i [] c [] c
  | cons {i file files c n next rows last} (h : ingestFile d start units compress refused i file c = (.ok n, next))
      (hs : CommittedInOrder d start units compress refused (i + 1) files next rows last) :
      CommittedInOrder d start units compress refused i (file :: files) c ((fileId start i, n, file.display) :: rows) last

inductive EndsAs (d : Crates F) (start : UInt64) (units : Option (Value F)) (compress : Bool)
    (refused : Nat → Option Error) (files : List ConFile) (c : ConCorpus F) :
    Result (List (UInt64 × UInt32 × String)) × ConCorpus F → Prop
  | all {rows last} (h : CommittedInOrder d start units compress refused 0 files c rows last) :
      EndsAs d start units compress refused files c (.ok rows, last)
  | stopped {before file after rows next e} (h : files = before ++ file :: after)
      (hs : CommittedInOrder d start units compress refused 0 before c rows next)
      (hf : ingestFile d start units compress refused before.length file next = (.error e, next)) :
      EndsAs d start units compress refused files c (.error e, next)

theorem commitFile_call (i : Nat) (file : ConFile) (row : Result (List PreparedIndexPuts)) (c : ConCorpus F) :
    commitFile d start compress refused i file row c =
      call (row >>= groupIf d compress) (refused i) (commitPrepared d (fileId start i) file.display false) c := by
  cases row <;> rfl

theorem commitFile_error {i : Nat} {file : ConFile} {row : Result (List PreparedIndexPuts)} {c next : ConCorpus F}
    {e : Error} (h : commitFile d start compress refused i file row c = (.error e, next)) : next = c := by
  rw [commitFile_call] at h
  rcases call_cases (row >>= groupIf d compress) (refused i) (commitPrepared d (fileId start i) file.display false) c
    with ⟨e', he⟩ | ⟨_, _, _, _, _, _, he⟩
  · rw [he] at h
    exact (Prod.mk.inj h).2.symm
  · rw [he] at h
    cases h

theorem appendTrajectoryPathUnits_call (no : Option Error) (c : ConCorpus F) (t : UInt64) (file : ConFile) :
    appendTrajectoryPathUnits d no c c t file units =
      call (preparePath d units c.compressFrames t file >>= groupIf d c.compressFrames) no
        (commitPrepared d t file.display false) c := by
  cases units with
  | none =>
    rw [preparePath, appendTrajectoryPathUnits]
    cases file.contents <;> rfl
  | some u =>
    rw [preparePath, appendTrajectoryPathUnits]
    cases framesWithUnits d file (some u) <;> rfl

theorem ingestFile_appends {i : Nat} {file : ConFile} {c : ConCorpus F} (hc : c.compressFrames = compress) :
    ingestFile d start units compress refused i file c =
      appendTrajectoryPathUnits d (refused i) c c (fileId start i) file units := by
  rw [ingestFile, commitFile_call, appendTrajectoryPathUnits_call, hc]

theorem ingestFile_compress (i : Nat) (file : ConFile) (c : ConCorpus F) :
    (ingestFile d start units compress refused i file c).2.compressFrames = c.compressFrames := by
  rw [ingestFile, commitFile_call]
  refine call_preserves (I := fun s : ConCorpus F => s.compressFrames = c.compressFrames) rfl fun _ _ _ _ hn => ?_
  obtain ⟨_, _, m, _, rfl⟩ := commitPrepared_ok hn
  exact puts_compress _ _

theorem commitRows_ends {i : Nat} {files : List ConFile} {rows : List (Result (List PreparedIndexPuts))}
    (hrows : List.Forall₂ (fun (kf : ConFile × Nat) row => row = preparePath d units compress (fileId start kf.2) kf.1)
      (files.zipIdx i) rows) (out : List (UInt64 × UInt32 × String)) (c : ConCorpus F) :
    (∃ new last, CommittedInOrder d start units compress refused i files c new last ∧
      commitRows d start compress refused i (rows.zip files) out c = (.ok (out ++ new), last)) ∨
    ∃ before file after new next e, files = before ++ file :: after ∧
      CommittedInOrder d start units compress refused i before c new next ∧
      ingestFile d start units compress refused (i + before.length) file next = (.error e, next) ∧
      commitRows d start compress refused i (rows.zip files) out c = (.error e, next) := by
  induction files generalizing i rows out c with
  | nil =>
    refine .inl ⟨[], c, .nil i c, ?_⟩
    rw [List.zip_nil_right, commitRows, List.append_nil]
  | cons file files ih =>
    rw [List.zipIdx_cons] at hrows
    cases hrows with
    | @cons _ row _ rows hrow hrest =>
      subst hrow
      rw [List.zip_cons_cons, commitRows]
      cases hfile : commitFile d start compress refused i file (preparePath d units compress (fileId start i) file) c with
      | mk result next =>
        cases result with
        | error e =>
          obtain rfl := commitFile_error hfile
          exact .inr ⟨[], file, files, [], next, e, rfl, .nil i next, hfile, rfl⟩
        | ok n =>
          rcases ih hrest (out ++ [(fileId start i, n, file.display)]) next with ⟨new, last, hc, hr⟩ |
            ⟨before, file', after, new, last, e, rfl, hc, hf, hr⟩
          · refine .inl ⟨_, last, .cons hfile hc, ?_⟩
            dsimp only
            rw [hr, List.append_assoc]
            rfl
          · refine .inr ⟨file :: before, file', after, _, last, e, rfl, .cons hfile hc, ?_, hr⟩
            rw [List.length_cons, ← hf, Nat.add_right_comm, Nat.add_assoc]

theorem job_rows {files : List ConFile} {i : Nat} {job : Nat → Result (List PreparedIndexPuts)}
    (hjob : ∀ j file, files[j]? = some file → job (i + j) = preparePath d units compress (fileId start (i + j)) file) :
    List.Forall₂ (fun (kf : ConFile × Nat) row => row = preparePath d units compress (fileId start kf.2) kf.1)
      (files.zipIdx i) ((List.range' i files.length).map job) := by
  induction files generalizing i with
  | nil => exact .nil
  | cons file files ih =>
    rw [List.zipIdx_cons, List.length_cons, List.range'_succ, List.map_cons]
    refine .cons (hjob 0 file rfl) (ih fun j file' hf => ?_)
    rw [Nat.add_right_comm, Nat.add_assoc]
    exact hjob (j + 1) file' hf

theorem Prepares.ends {files : List ConFile} {threads : Nat} {rows : List (Result (List PreparedIndexPuts))}
    (h : Prepares d start units compress files threads rows) (c : ConCorpus F) :
    EndsAs d start units compress refused files c (commitRows d start compress refused 0 (rows.zip files) [] c) := by
  have hjob (j : Nat) (file : ConFile) (hf : files[j]? = some file) :
      prepareJob d start units compress files (0 + j) = preparePath d units compress (fileId start (0 + j)) file := by
    rw [prepareJob, Nat.zero_add, hf]
  have hrows := job_rows hjob
  rw [← List.range_eq_range', ← h.eq] at hrows
  rcases commitRows_ends hrows [] c with ⟨new, last, hc, hr⟩ | ⟨before, file, after, new, next, e, hfiles, hc, hf, hr⟩
  · rw [hr]
    exact .all hc
  · rw [hr]
    rw [Nat.zero_add] at hf
    exact .stopped hfiles hc hf

theorem threaded_fills_once {files : List ConFile} {threads : Nat} {s : Pool (Result (List PreparedIndexPuts))}
    (h : ¬ (max threads 1 = 1 ∨ (ingestChunkBounds files.length).length ≤ 1))
    (run : Run (ingestChunks files) (prepareJob d start units compress files)
      (Pool.start (emptySlots files.length) (min (max threads 1) (ingestChunkBounds files.length).length)) s)
    (done : s.Complete) : s.filled.Perm (List.range files.length) := by
  have hstart := pool_started h
  have hne : s.workers ≠ [] := by
    rw [← List.length_pos_iff] at hstart ⊢
    rw [run.workers_length]
    exact hstart
  have haccounted := run.accounted (accounted_start (n := files.length) List.length_replicate)
  exact ingestChunks_flatten files ▸ haccounted.complete done hne

variable (d start units compress refused) {P : Type} [LinearOrder P] (dir : Directory P) (c : ConCorpus F)

-- What an ingest of the directory promises at every thread count, under every schedule.
structure IgnoresThreads : Prop where
  ends : ∀ threads, ∃ out, DirectoryIngests d start units compress refused dir threads c out
  same : ∀ threads out single, DirectoryIngests d start units compress refused dir threads c out →
    DirectoryIngests d start units compress refused dir 1 c single → out = single
  unreadable : ∀ e threads out, dir.paths = .error e →
    DirectoryIngests d start units compress refused dir threads c out → out = (.error e, c)
  read : ∀ paths threads out, dir.paths = .ok paths →
    DirectoryIngests d start units compress refused dir threads c out →
    paths.Pairwise (· ≤ ·) ∧ EndsAs d start units compress refused (paths.map dir.file) c out
  appends : ∀ i file (c' : ConCorpus F), c'.compressFrames = compress →
    ingestFile d start units compress refused i file c' =
      appendTrajectoryPathUnits d (refused i) c' c' (fileId start i) file units
  keeps : ∀ i file (c' : ConCorpus F),
    (ingestFile d start units compress refused i file c').2.compressFrames = c'.compressFrames
  listing : ∀ entries entries', entries.Perm entries' → dir.sortedPaths entries = dir.sortedPaths entries'
  partition : ∀ n, (ingestChunkBounds n).flatMap chunkTasks = List.range n
  halts : ∀ files, WellFounded fun s' s => Step (ingestChunks files) (prepareJob d start units compress files) s s'
  unstuck : ∀ files (s : Pool (Result (List PreparedIndexPuts))), ¬ s.Complete →
    ∃ s', Step (ingestChunks files) (prepareJob d start units compress files) s s'
  once : ∀ files threads s, ¬ (max threads 1 = 1 ∨ (ingestChunkBounds (List.length files)).length ≤ 1) →
    Run (ingestChunks files) (prepareJob d start units compress files)
      (Pool.start (emptySlots files.length) (min (max threads 1) (ingestChunkBounds files.length).length)) s →
    s.Complete → s.filled.Perm (List.range files.length)

theorem directory_ingest_ignores_threads : IgnoresThreads d start units compress refused dir c where
  ends threads := by
    cases hp : dir.paths with
    | error e => exact ⟨_, .unreadable hp⟩
    | ok paths =>
      obtain ⟨rows, hrows⟩ := prepares_exists d start units compress (paths.map dir.file) threads
      exact ⟨_, .read hp hrows⟩
  same threads out single h h₁ := by
    cases h with
    | unreadable hp =>
      cases h₁ with
      | unreadable hp₁ => rw [Except.error.inj (hp.symm.trans hp₁)]
      | read hp₁ _ => cases hp.symm.trans hp₁
    | read hp hrows =>
      cases h₁ with
      | unreadable hp₁ => cases hp.symm.trans hp₁
      | read hp₁ hrows₁ =>
        obtain rfl := Except.ok.inj (hp.symm.trans hp₁)
        rw [hrows.eq, hrows₁.eq]
  unreadable e threads out hp h := by
    cases h with
    | unreadable hp₁ => rw [Except.error.inj (hp.symm.trans hp₁)]
    | read hp₁ _ => cases hp.symm.trans hp₁
  read paths threads out hp h := by
    cases h with
    | unreadable hp₁ => cases hp.symm.trans hp₁
    | read hp₁ hrows =>
      obtain rfl := Except.ok.inj (hp.symm.trans hp₁)
      exact ⟨paths_sorted dir hp, hrows.ends c⟩
  appends _ _ _ hc := ingestFile_appends hc
  keeps := ingestFile_compress
  listing _ _ h := sortedPaths_perm dir h
  partition := ingestChunkBounds_tasks
  halts _ := Subrelation.wf Step.work_lt (measure (Pool.work _)).wf
  unstuck _ _ hs := progress _ _ hs
  once _ _ _ h run done := threaded_fills_once h run done

end Threads

section Tiny

def lostFile : Error := .message "No such file or directory (os error 2)"

-- Listed out of order and with an entry that is no path; the second file is lost before it is read.
def twoFiles : Directory Nat where
  entries := .ok [some 1, none, some 0]
  fileName p := some (if p = 0 then "a.con" else "b.con")
  file p := if p = 0 then ⟨"a.con", .ok hydrogen.2⟩ else ⟨"b.con", .error lostFile⟩

theorem twoFiles_paths : twoFiles.paths = .ok [0, 1] := by
  have hcon : [1, 0].filter twoFiles.isCon = [1, 0] := by decide +kernel
  have hsort : [1, 0].mergeSort (fun p q => decide (p ≤ q)) = [0, 1] := by simp [List.mergeSort]
  exact congrArg Except.ok ((congrArg (List.mergeSort · fun p q => decide (p ≤ q)) hcon).trans hsort)

def twoOutcome : Result (List (UInt64 × UInt32 × String)) × ConCorpus Bits :=
  commitRows tiny 5 true (fun _ => none) 0 (((List.range ([0, 1].map twoFiles.file).length).map
    (prepareJob tiny 5 none true ([0, 1].map twoFiles.file))).zip ([0, 1].map twoFiles.file)) [] (ConCorpus.empty Bits)

theorem twoOutcome_stops : twoOutcome.1 = .error lostFile ∧
    twoOutcome.2.frames.keys = [(⟨5, 0⟩ : FrameKey).toBytes.val] := by decide +kernel

-- Two workers: the first file is stored, the second stops the ingest, as with one worker.
theorem twoFiles_stops : ∃ out, DirectoryIngests tiny 5 none true (fun _ => none) twoFiles 2 (ConCorpus.empty Bits) out ∧
    DirectoryIngests tiny 5 none true (fun _ => none) twoFiles 1 (ConCorpus.empty Bits) out ∧
      out.1 = .error lostFile ∧ out.2.frames.keys = [(⟨5, 0⟩ : FrameKey).toBytes.val] := by
  have h := directory_ingest_ignores_threads tiny 5 none true (fun _ => none) twoFiles (ConCorpus.empty Bits)
  obtain ⟨out, hout⟩ := h.ends 2
  obtain ⟨single, hsingle⟩ := h.ends 1
  obtain rfl := h.same 2 out single hout hsingle
  refine ⟨out, hout, hsingle, ?_⟩
  cases hout with
  | unreadable hp => cases hp.symm.trans twoFiles_paths
  | @read paths rows hp hrows =>
    have hpaths : paths = [0, 1] := Except.ok.inj (hp.symm.trans twoFiles_paths)
    have hrun : commitRows tiny 5 true (fun _ => none) 0 (rows.zip (paths.map twoFiles.file)) [] (ConCorpus.empty Bits) =
        twoOutcome := by
      rw [hrows.eq, hpaths, twoOutcome]
    rw [hrun]
    exact twoOutcome_stops

end Tiny

end ReadconDb
