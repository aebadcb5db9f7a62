import ReadconDb.MpiTables
import ReadconDb.Streaming
import ReadconDb.Library.Binning
import ReadconDb.Library.Extents

set_option linter.unusedSectionVars false

namespace ReadconDb

open ByteString Outcome Blocks Slicing Binning

section Winners

inductive Route where
  | single
  | sharded (nShards : UInt32)

def Route.to (size : Nat) : Route → UInt64 → Nat × UInt32
  | .single, _ => (0, 0)
  | .sharded nShards, t =>
    let s := shardForTraj t nShards
    (s.toNat % size, s)

variable {K : Type} [DecidableEq K]

def firstFrom (seen : List (K × Nat)) (g : Nat) : List K → List Nat
  | [] => []
  | k :: ks =>
    match seen.lookup k with
    | some w => w :: firstFrom seen (g + 1) ks
    | none => g :: firstFrom ((k, g) :: seen) (g + 1) ks

end Winners

section Exchange

-- What every rank knows when the batches start, and what each holds of its block.
structure Exchange where
  size : Nat
  tabs : List FileTab
  locals : List Local
  envOf : List (Nat × UInt32)
  firstOf : List Nat
  counted : framesIn tabs ≤ usizeMax

def Exchange.n (x : Exchange) : Nat := framesIn x.tabs

-- An index past the end would panic; the frames asked for are the rank's own, see `Exchange.Sound.encAt_eq`.
def Local.encAt (l : Local) (g : Nat) : Bytes := (l.enc[g - l.first]?).getD []
def Local.storedAt (l : Local) (g : Nat) : Bytes := (l.stored[g - l.first]?).getD []
def Exchange.winner (x : Exchange) (g : Nat) : Nat := (x.firstOf[g]?).getD 0
def Exchange.owner (x : Exchange) (g : Nat) : Nat := ((x.envOf[g]?).getD (0, 0)).1
def Exchange.env (x : Exchange) (g : Nat) : UInt32 := ((x.envOf[g]?).getD (0, 0)).2

def rankSpan (n size rank g0 g1 : Nat) : List Nat :=
  let mine := blockRange n size rank
  List.range' (max mine.1 g0) (min mine.2 g1 - max mine.1 g0)

def sendStoredBytes (winner frame batchStart : Nat) : Bool := winner == frame || decide (winner < batchStart)

def addCount (dest : Nat) (n : UInt64) (scounts : List UInt64) : Result (List UInt64) :=
  let held := (scounts[dest]?).getD 0
  if held.toNat + n.toNat < 2 ^ 64 then .ok (scounts.set dest (held + n))
  else .error (.message "MPI message length overflows u64")

def planCounts (x : Exchange) (b0 b1 rank : Nat) (l : Local) : Result (List UInt64) :=
  (rankSpan x.n x.size rank b0 b1).foldlM (fun scounts g =>
    let send := sendStoredBytes (x.winner g) g b0
    addCount (x.owner g) (recordBytes (l.encAt g).length (l.storedAt g).length send) scounts) (List.replicate x.size 0)

def recordOf (x : Exchange) (b0 : Nat) (l : Local) (g : Nat) : Bytes :=
  pushRecord (UInt64.ofNat g) (l.encAt g) (if sendStoredBytes (x.winner g) g b0 then l.storedAt g else [])

def buildMessages (x : Exchange) (b0 b1 rank : Nat) (l : Local) : List Bytes :=
  (rankSpan x.n x.size rank b0 b1).foldl (fun out g => out.modify (x.owner g) (· ++ recordOf x b0 l g))
    (List.replicate x.size [])

def batchEnd (b0 batch n : Nat) : Nat := if n ≤ b0 then b0 else min (satAdd b0 (max batch 1)) n

def shrinkBatchEnd (b0 b1 : Nat) : Option Nat :=
  let span := b1 - b0
  if span ≤ 1 then none
  else
    let next := satAdd b0 (span / 2)
    if b0 < next ∧ next < b1 then some next else none

-- A step after which the ranks agree whether it went well; a rank without an error of its own gets the common one.
def agreed {A : Type} (common : Error) (rs : List (Result A)) : Spmd (List A) :=
  match rs.mapM id with
  | .ok vs => .ok vs
  | .error _ =>
    .error (rs.map fun r =>
      match r with
      | .error e => e
      | .ok _ => common)

def columns (size : Nat) (rows : List (List UInt64)) : List (List UInt64) :=
  (List.range size).map fun q => rows.map fun row => (row[q]?).getD 0

def plan (x : Exchange) (b0 b1 : Nat) : Spmd (List (List UInt64)) :=
  agreed failedElsewhere (x.locals.mapIdx (planCounts x b0 b1))

def fitsAll (size : Nat) (scounts : List (List UInt64)) : Bool :=
  (scounts.zip (columns size scounts)).all fun c => fitsI32 c.1 && fitsI32 c.2

def tooBig (size : Nat) (scounts : List (List UInt64)) : List Error :=
  (scounts.zip (columns size scounts)).map fun c =>
    .message ("MPI message of " ++ toString ((c.1 ++ c.2).foldl max 0) ++ " bytes exceeds i32::MAX")

def packCounts (c : List UInt64 × List UInt64) :
    Result ((List Int32 × List Int32) × (List Int32 × List Int32)) := do
  let sc ← c.1.mapM mpiI32
  let rc ← c.2.mapM mpiI32
  let sd ← prefixI32 sc
  let rd ← prefixI32 rc
  return ((sc, sd), (rc, rd))

def i32At (xs : List Int32) (q : Nat) : Nat := ((xs[q]?).getD 0).toInt.toNat

-- `MPI_Alltoallv`: from each rank the bytes at its displacement for `q`, put at `q`'s displacement for it.
def alltoallv (sends : List (Bytes × List Int32 × List Int32)) (rd : List Int32) (rtot q : Nat) : Bytes :=
  let writes := sends.mapIdx fun r s =>
    ({ offset := i32At rd r, data := piece s.1 (i32At s.2.2 q) (i32At s.2.2 q + i32At s.2.1 q) } : Extents.Write UInt8)
  (List.range rtot).map fun i => (writes.foldl Extents.put (fun _ => some 0) i).getD 0

def sumU64 (ns : List UInt64) : UInt64 := ns.foldl (· + ·) 0

def deliver (x : Exchange) (b0 b1 : Nat) (scounts : List (List UInt64)) : Spmd (List Bytes) := do
  let out := x.locals.mapIdx (buildMessages x b0 b1)
  let checked := (out.zip scounts).map fun o =>
    if (o.1.map fun m => UInt64.ofNat m.length) = o.2 then .ok ()
    else .error (.message "MPI batch length does not match the planned count")
  let _ ← agreed (.message "MPI batch length does not match the planned count") checked
  let rcounts := columns x.size scounts
  let packed ← agreed failedElsewhere ((scounts.zip rcounts).map packCounts)
  let sends := (out.zip packed).map fun o => (o.1.flatten, o.2.1)
  return (packed.zip rcounts).mapIdx fun q p => alltoallv sends p.1.2.2 (sumU64 p.2).toNat q

theorem shrinkBatchEnd_lt {b0 b1 next : Nat} (h : shrinkBatchEnd b0 b1 = some next) : b0 < next ∧ next < b1 := by
  simp only [shrinkBatchEnd] at h
  split at h
  · cases h
  · split at h
    · next hn =>
      cases h
      exact hn
    · cases h

def exchangeFrom (x : Exchange) (b0 b1 : Nat) : Spmd (Nat × List Bytes) :=
  match plan x b0 b1 with
  | .error es => .error es
  | .ok scounts =>
    if fitsAll x.size scounts then do return (b1, ← deliver x b0 b1 scounts)
    else
      match _h : shrinkBatchEnd b0 b1 with
      | some shrunk => exchangeFrom x b0 shrunk
      | none => .error (tooBig x.size scounts)
  termination_by b1
  decreasing_by exact (shrinkBatchEnd_lt _h).2

def exchangeBatch (x : Exchange) (b0 batch : Nat) : Spmd (Nat × List Bytes) :=
  exchangeFrom x b0 (batchEnd b0 batch x.n)

def Exchange.tabAt (x : Exchange) (g : Nat) : FileTab :=
  (x.tabs[fileOf x.tabs g]?).getD { trajId := 0, path := "", offs := [], g0 := 0 }

def reuseOf (x : Exchange) (b0 b1 : Nat) : List Nat :=
  ((List.range' b0 (b1 - b0)).filter fun g => x.winner g ≠ g ∧ b0 ≤ x.winner g).map x.winner

def payload (x : Exchange) (b0 : Nat) (reuse : List Nat) (kept : List (Nat × Bytes)) (g : Nat) (raw : Bytes) :
    Result (Bytes × List (Nat × Bytes)) :=
  let winner := x.winner g
  if winner = g then .ok (raw, if g ∈ reuse then (g, raw) :: kept else kept)
  else if winner < b0 then .ok (raw, kept)
  else
    match kept.lookup winner with
    | some bytes => .ok (bytes, kept)
    | none => .error (.message ("missing dedup payload for frame " ++ toString g))

-- Each record takes a byte at least: the buffer's length bounds the turns.
def decodeFrom (x : Exchange) (b0 : Nat) (reuse : List Nat) :
    Nat → Bytes → List (Nat × Bytes) → Result (List (UInt32 × Held))
  | 0, _, _ => .ok []
  | fuel + 1, p, kept =>
    if p = [] then .ok []
    else do
      let (g, p) ← readU64 p
      let g := g.toNat
      if x.firstOf.length ≤ g then .error (.message ("frame " ++ toString g ++ " outside ingest"))
      else do
        let (enc, p) ← readBytes p
        let (raw, p) ← readBytes p
        let (stored, kept) ← payload x b0 reuse kept g raw
        let t := x.tabAt g
        let idx ← fitU32 (g - t.g0)
        let rest ← decodeFrom x b0 reuse fuel p kept
        return (x.env g, ⟨⟨t.trajId, idx⟩, enc, stored⟩) :: rest

def Exchange.decodeBatch (x : Exchange) (b0 b1 : Nat) (recv : Bytes) : Result (List (UInt32 × Held)) :=
  decodeFrom x b0 (reuseOf x b0 b1) recv.length recv []

theorem exchangeFrom_within {x : Exchange} {b0 b1 e : Nat} {recv : List Bytes} (hb : b0 < b1)
    (h : exchangeFrom x b0 b1 = .ok (e, recv)) : b0 < e ∧ e ≤ b1 := by
  induction b1 using Nat.strong_induction_on with
  | h b1 ih =>
    rw [exchangeFrom] at h
    split at h
    · cases h
    · split at h
      · obtain ⟨_, _, h⟩ := bind_eq_ok.mp h
        cases h
        exact ⟨hb, le_rfl⟩
      · split at h
        · next shrunk hs =>
          obtain ⟨hlo, hhi⟩ := shrinkBatchEnd_lt hs
          have hin := ih shrunk hhi hlo h
          exact ⟨hin.1, hin.2.trans hhi.le⟩
        · cases h

theorem batchEnd_within {b0 n : Nat} (batch : Nat) (hn : n ≤ usizeMax) (h : b0 < n) :
    b0 < batchEnd b0 batch n ∧ batchEnd b0 batch n ≤ n := by
  rw [batchEnd, if_neg (by omega)]
  refine ⟨lt_min ?_ h, min_le_right _ _⟩
  rw [satAdd]
  omega

theorem exchangeBatch_within {x : Exchange} {b0 batch e : Nat} {recv : List Bytes} (hb : b0 < x.n)
    (h : exchangeBatch x b0 batch = .ok (e, recv)) : b0 < e ∧ e ≤ x.n := by
  obtain ⟨hlo, hhi⟩ := batchEnd_within batch x.counted hb
  obtain ⟨hlo', hhi'⟩ := exchangeFrom_within hlo h
  exact ⟨hlo', hhi'.trans hhi⟩

end Exchange

section Loop

variable {S : Type}

def runBatches (x : Exchange) (batch : Nat) (put : S → List (List (UInt32 × Held)) → Spmd S) (b0 : Nat) (s : S) :
    List (Nat × Nat) × Spmd S :=
  if _hb : b0 < x.n then
    match _h : exchangeBatch x b0 batch with
    | .error es => ([], .error (es.mapIdx fun rank e => rankError (A := Unit) rank (.error e)))
    | .ok (b1, recv) =>
      match collective (recv.map (x.decodeBatch b0 b1)) with
      | .error es => ([(b0, b1)], .error es)
      | .ok rows =>
        match put s rows with
        | .error es => ([(b0, b1)], .error es)
        | .ok s' => ((b0, b1) :: (runBatches x batch put b1 s').1, (runBatches x batch put b1 s').2)
  else ([], .ok s)
  termination_by x.n - b0
  decreasing_by
    all_goals
      have hin := exchangeBatch_within _hb _h
      omega

end Loop

end ReadconDb
