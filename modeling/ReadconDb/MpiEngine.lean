import ReadconDb.MpiParse
import ReadconDb.MpiLoop
import ReadconDb.MpiDrain
import ReadconDb.Ingest

set_option linter.unusedSectionVars false

namespace ReadconDb

open ByteString Outcome Blocks Slicing

section Session

variable {F : Type} [Float64 F] (d : Crates F)

def sessionClosed : Error := .message "ingest session is closed"

def trajClaimed (txn : ConCorpus F) (trajId : UInt64) : Result Unit :=
  match txn.trajMeta[trajId]? with
  | some existing => .error (.trajExists trajId existing.nFrames)
  | none =>
    if txn.frames.keys.any (beBytes 8 trajId.toNat).isPrefixOf then
      .error (.message ("trajectory " ++ toString trajId ++ " has frame records and no metadata; refusing to overwrite"))
    else .ok ()

namespace IngestSession

def begin (c : ConCorpus F) : IngestSession F := ⟨c, some c⟩

def claim (s : IngestSession F) (trajId : UInt64) : Result Unit :=
  match s.txn with
  | none => .error sessionClosed
  | some c => trajClaimed c trajId

def putTrajMeta (s : IngestSession F) (trajId : UInt64) (nFrames : UInt32) (source : String) : Result (IngestSession F) :=
  match s.txn with
  | none => .error sessionClosed
  | some c =>
    let trajMeta : TrajMeta F := { nFrames, source }
    .ok { s with txn := some { c with trajMeta := c.trajMeta.insert trajId (trajMeta.stored d) } }

def commit (s : IngestSession F) : Result (ConCorpus F) :=
  match s.txn with
  | none => .error sessionClosed
  | some c => .ok c

end IngestSession

end Session

section Ranks

variable {F : Type} [Float64 F]

-- A rank's hash maps: what is in each under an environment's id. `opened` and `ids` are the keys of two of them.
structure RankState (F : Type) where
  opened : List UInt32
  sessions : UInt32 → Option (IngestSession F)
  bufs : UInt32 → Option (List Held)
  ids : List UInt32

-- What LMDB answers to each call, and the order in which a hash map gives its keys.
structure EngineIo (F : Type) where
  opened : UInt32 → Option Error
  grown : UInt32 → Nat → Option Error
  begun : UInt32 → Option Error
  put : UInt32 → ConCorpus F → List (FrameKey × Bytes × Bytes) → Option Error
  putMeta : UInt32 → ConCorpus F → UInt64 → Option Error
  committed : UInt32 → Option Error
  order : List UInt32 → List UInt32
  reorders : ∀ ids, (order ids).Perm ids

def ruling : Option Error → Result Unit
  | none => .ok ()
  | some e => .error e

def missingEnv (id : UInt32) : Error := .message ("missing env " ++ toString id)

def inputMapFactor : Nat := 3

variable (d : Crates F) (io : EngineIo F) (size : Nat) (route : Route) (rank : Nat)

def openEnvs (envs : List UInt32) : List FileTab → Result (List UInt32)
  | [] => .ok envs
  | t :: tabs =>
    let dest := route.to size t.trajId
    if dest.1 = rank ∧ dest.2 ∉ envs then
      match io.opened dest.2 with
      | some e => .error e
      | none => openEnvs (envs ++ [dest.2]) tabs
    else openEnvs envs tabs

def measureEnvs (bytes : UInt32 → Nat) : List FileTab → Result (UInt32 → Nat)
  | [] => .ok bytes
  | t :: tabs =>
    let dest := route.to size t.trajId
    if dest.1 = rank then
      let total := bytes dest.2 + (t.offs.getLast?.getD 0).toNat
      if total ≤ usizeMax then measureEnvs (Function.update bytes dest.2 total) tabs
      else .error (.message ("input bytes for env " ++ toString dest.2 ++ " overflow"))
    else measureEnvs bytes tabs

def growEnvs (envs : List UInt32) (bytes : UInt32 → Nat) : Result Unit :=
  (io.order envs).forM fun env => ruling (io.grown env (satMul (bytes env) inputMapFactor))

def sessionsOf (tables : UInt32 → ConCorpus F) (envs : List UInt32) (env : UInt32) : Option (IngestSession F) :=
  if env ∈ envs then some (.begin (tables env)) else none

def claimFile (sessions : UInt32 → Option (IngestSession F)) (t : FileTab) : Result Unit :=
  let dest := route.to size t.trajId
  if dest.1 = rank then
    match sessions dest.2 with
    | none => .error (missingEnv dest.2)
    | some s => s.claim t.trajId
  else .ok ()

def beginEnvs (tables : UInt32 → ConCorpus F) (tabs : List FileTab) (envs : List UInt32) : Result (RankState F) := do
  (io.order envs).forM fun env => ruling (io.begun env)
  tabs.forM (claimFile size route rank (sessionsOf tables envs))
  return { opened := envs, sessions := sessionsOf tables envs, bufs := fun _ => none, ids := [] }

def beginAll (tables : UInt32 → ConCorpus F) (tabs : List FileTab) : Spmd (List (RankState F)) := do
  let envs ← collective ((List.range size).map fun rank => openEnvs io size route rank [] tabs)
  let bytes ← collective ((List.range size).map fun rank => measureEnvs size route rank (fun _ => 0) tabs)
  let _ ← collective ((envs.zip bytes).map fun e => growEnvs io e.1 e.2)
  collective (envs.mapIdx fun rank envs => beginEnvs io size route rank tables tabs envs)

def heldRecord (r : Held) : FrameKey × Bytes × Bytes := (r.fk, r.enc, r.stored)

def putRows (id : UInt32) (session : IngestSession F) (rows : List (FrameKey × Bytes × Bytes)) :
    Result (IngestSession F) :=
  match putEncoded session rows with
  | (.error e, _) => .error e
  | (.ok (), next) =>
    match session.txn.bind fun c => io.put id c rows with
    | some e => .error e
    | none => .ok next

variable (nOf : UInt64 → Option UInt32)

def flushReady (s : RankState F) (id : UInt32) : Checked Error (RankState F) :=
  match s.bufs id with
  | none => lift (.ok s)
  | some buf => do
    let (ready, buf) ← drainReady d nOf buf []
    let s := { s with bufs := Function.update s.bufs id (some buf) }
    if ready.isEmpty then lift (.ok s)
    else
      match s.sessions id with
      | none => lift (.error (missingEnv id))
      | some session => do
        let session ← lift (putRows io id session (ready.map heldRecord))
        lift (.ok { s with sessions := Function.update s.sessions id (some session) })

def pushRow (s : RankState F) (row : UInt32 × Held) : RankState F :=
  { s with
    bufs := Function.update s.bufs row.1 (some ((s.bufs row.1).getD [] ++ [row.2]))
    ids := if row.1 ∈ s.ids then s.ids else s.ids ++ [row.1] }

def flushAll (s : RankState F) : Checked Error (RankState F) := (io.order s.ids).foldlM (flushReady d io nOf) s

def stageRank (s : RankState F) (rows : List (UInt32 × Held)) : Checked Error (RankState F) :=
  flushAll d io nOf (rows.foldl pushRow s)

-- A panic ends every rank, and none is left to report it.
def reported {A : Type} : Checked (List Error) A → Spmd A
  | none => .error []
  | some r => r

def stage (ranks : List (RankState F)) (rows : List (List (UInt32 × Held))) : Spmd (List (RankState F)) :=
  reported (together (List.zipWith (stageRank d io nOf) ranks rows))

def flushTail (s : RankState F) (id : UInt32) : Checked Error (RankState F) := do
  let s ← flushReady d io nOf s id
  if ((s.bufs id).getD []).isEmpty then lift (.ok s)
  else lift (.error (.message "MPI ingest left an unfinished frame group"))

def tailRank (s : RankState F) : Checked Error (RankState F) := (io.order s.ids).foldlM (flushTail d io nOf) s

def putMeta (s : RankState F) (tc : FileTab × UInt32) : Result (RankState F) :=
  let dest := route.to size tc.1.trajId
  if dest.1 = rank then
    match s.sessions dest.2 with
    | none => .error (missingEnv dest.2)
    | some session => do
      let next ← session.putTrajMeta d tc.1.trajId tc.2 tc.1.path
      let _ ← ruling (session.txn.bind fun c => io.putMeta dest.2 c tc.1.trajId)
      return { s with sessions := Function.update s.sessions dest.2 (some next) }
  else .ok s

-- A session that is dropped without its commit leaves its environment as it was.
def commitEnvs (s : RankState F) : List UInt32 → (UInt32 → ConCorpus F) → Result Unit × (UInt32 → ConCorpus F)
  | [], tables => (.ok (), tables)
  | id :: ids, tables =>
    match s.sessions id with
    | none => commitEnvs s ids tables
    | some session =>
      match session.commit, io.committed id with
      | .error e, _ => (.error e, tables)
      | .ok _, some e => (.error e, tables)
      | .ok c, none => commitEnvs s ids (Function.update tables id c)

def commitAll : List (RankState F) → (UInt32 → ConCorpus F) → List (Result Unit) × (UInt32 → ConCorpus F)
  | [], tables => ([], tables)
  | s :: ranks, tables =>
    let mine := commitEnvs io s (io.order s.opened) tables
    let rest := commitAll ranks mine.2
    (mine.1 :: rest.1, rest.2)

end Ranks

section Engine

variable {F : Type} [Float64 F] (d : Crates F) (files : Files) (io : EngineIo F)

abbrev BatchRun (F : Type) :=
  Exchange → (List (RankState F) → List (List (UInt32 × Held)) → Spmd (List (RankState F))) → List (RankState F) →
    Spmd (List (RankState F))

def batchRun (batch : Nat) : BatchRun F := fun x put s => (runBatches x (max batch 1) put 0 s).2

-- The same loop where `fits` says which batches may be sent; the code's own is the 31-bit one.
def batchRunWithin (fits : Exchange → Nat → Nat → Bool) (batch : Nat) : BatchRun F := fun x put s =>
  (stageAll x put (cover (fits x) (max batch 1) x.n_le 0).2 s (cover (fits x) (max batch 1) x.n_le 0).1).2

variable (size : Nat) (route : Route) (run : BatchRun F) (input : List (UInt64 × String))

def scanned : Checked (List Error) (List FileTab) :=
  if ¬(input.map Prod.fst).Nodup then
    lift (.error (List.replicate size (.message "duplicate traj_id in MPI ingest")))
  else
    match scanFiles d files input with
    | .error e => lift (.error (List.replicate size e))
    | .ok tabs => lift (.ok tabs)

def nOfTabs (tabs : List FileTab) (counts : List UInt32) (id : UInt64) : Option UInt32 :=
  ((tabs.zip counts).find? fun tc => tc.1.trajId == id).map Prod.snd

def unreported {A : Type} : Spmd A → Checked (List Error) A
  | .error [] => panicked
  | r => lift r

-- All that comes before the commits. The files are scanned a second time in `prepare`, and as the first time.
def staged (tables : UInt32 → ConCorpus F) : Checked (List Error) (List UInt32 × List (RankState F)) := do
  let tabs ← scanned d files size input
  let counts ← alike size (lift (tabs.mapM fun t => fitU32 t.n))
  let ranks ← lift (beginAll io size route tables tabs)
  let x ← prepare d files size route input
  let ranks ← unreported (run x (stage d io (nOfTabs tabs counts)) ranks)
  let ranks ← together (ranks.map (tailRank d io (nOfTabs tabs counts)))
  let ranks ← lift (collective (ranks.mapIdx fun rank s => (tabs.zip counts).foldlM (putMeta d io size route rank) s))
  return (counts, ranks)

def engine (tables : UInt32 → ConCorpus F) : Checked (List Error) (List UInt32) × (UInt32 → ConCorpus F) :=
  match staged d files io size route run input tables with
  | none => (panicked, tables)
  | some (.error es) => (lift (.error es), tables)
  | some (.ok (counts, ranks)) =>
    let done := commitAll io ranks tables
    (lift ((fun _ => counts) <$> collective done.1), done.2)

def appendTrajectoryPaths (batch : Nat) (tables : UInt32 → ConCorpus F) :
    Checked (List Error) (List UInt32) × (UInt32 → ConCorpus F) :=
  engine d files io size .single (batchRun batch) input tables

def appendTrajectoryPathsSharded (root : Result UInt32) (batch : Nat) (tables : UInt32 → ConCorpus F) :
    Checked (List Error) (List UInt32) × (UInt32 → ConCorpus F) :=
  match root with
  | .error e => (lift (.error (List.replicate size (.message e.display))), tables)
  | .ok nShards => engine d files io size (.sharded nShards) (batchRun batch) input tables

end Engine

end ReadconDb
