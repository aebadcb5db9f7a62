import ReadconDb.Ingest
import ReadconDb.Topology

namespace ReadconDb

open ByteString Outcome OrderedTable TwoPhase

section Maintain

variable {F : Type} [Float64 F] (d : Crates F)

structure UnitsPlan where
  oldPuts : List PreparedIndexPuts
  prepared : List PreparedIndexPuts

def rewriteFrame (units : Value F) (fr : ConFrame F) : Result (ConFrame F) := do
  let merged ← mergeUnits d (d.units fr.header) units
  let fr ← rescaleFrameUnits d fr merged
  return { fr with header := d.setUnits fr.header merged }

def readForUnits (c : ConCorpus F) (units : Value F) (key : FrameKey) :
    Result (PreparedIndexPuts × ConFrame F) := do
  let blob ← getFrameText d c key
  let fr ← getFrame d c key
  let old ← buildIndexPuts d key fr blob c.compressFrames
  return (old, ← rewriteFrame d units fr)

def prepareUnits (c : ConCorpus F) (trajId : UInt64) (units : Value F) : Result UnitsPlan := do
  let keys ← select c (Select.trajectory {} trajId)
  if keys = [] then .error (.message "no frames for traj")
  else
    let rows ← keys.mapM (readForUnits d c units)
    let prepared ← prepareTrajectoryFramesFormatted d trajId (rows.map Prod.snd) 0 .roundTrip
      c.compressFrames
    return ⟨rows.map Prod.fst, ← groupIf d c.compressFrames prepared⟩

def commitUnits (plan : UnitsPlan) (live : ConCorpus F) : Result (UInt32 × ConCorpus F) :=
  let (stale, cleared) := deleteAllIndexPuts live plan.oldPuts
  let next := plan.prepared.foldl putIndexPuts (repointFrameByHash cleared stale)
  .ok (UInt32.ofNat plan.oldPuts.length, next)

def setTrajectoryUnits (refused : Option Error) (snap live : ConCorpus F) (trajId : UInt64)
    (units : Value F) : Result UInt32 × ConCorpus F :=
  call (prepareUnits d snap trajId units) refused commitUnits live

def scalarRow (i : Index) (key : F → FrameKey → Option (Arr 20)) (x : Option F) (fk : FrameKey) :
    List (Index × Bytes) :=
  ((x.bind fun x => key x fk).toList).map fun k => (i, k.val)

-- The puts of one turn of the loop in `reindex`, which does not go through `build_index_puts`.
def reindexRows (fk : FrameKey) (frame : ConFrame F) : List (Index × Bytes) :=
  let counts := d.frameSpeciesCounts frame
  let formula := d.compositionFormula counts
  (Index.idxNatoms, (natomsKey (UInt32.ofNat frame.atomData.length) fk).val) ::
  (counts.flatMap fun sc =>
    [(Index.idxElemCount, elemCountKey sc.1 sc.2 fk), (Index.idxSymbol, symbolKey sc.1 fk)]) ++
  ((if formula = "" then [] else [(Index.idxFormula, formulaKey formula fk)]) ++
  (scalarRow .idxEnergy energyBinKey (d.finiteEnergy frame) fk ++
  ((if (d.finiteEnergy frame).isSome then [(Index.idxFlags, (flagKey flagHasEnergy fk).val)] else []) ++
  ((if d.frameHasForces frame then
      (Index.idxFlags, (flagKey flagHasForces fk).val) ::
        scalarRow .idxFmax fmaxBinKey (d.frameFmax frame) fk
    else []) ++
  ((if d.frameHasVelocities frame then [(Index.idxFlags, (flagKey flagHasVelocities fk).val)] else []) ++
  (scalarRow .idxMass massBinKey (d.frameTotalMass frame) fk ++
  (scalarRow .idxVolume volumeBinKey (d.frameCellVolume frame) fk ++
  ((((d.pbc frame.header).map pbcMaskFromBools).toList.map fun mask =>
      (Index.idxPbc, (pbcKey mask fk).val)) ++
  (metaKeysOf fk (metaChannels (d.fromFrame frame))).map fun k => (Index.idxMeta, k.val)))))))))

def reindexFrame (c : ConCorpus F) (fk : FrameKey) : Result (ConCorpus F) := do
  let text ← getFrameText d c fk
  let frame ← firstFrame d "empty blob on reindex" text
  let hash := hashFrameBytes d (utf8 text)
  return { c with
    hashByFrame := c.hashByFrame.insert fk.toBytes.val hash.val
    frameByHash := postHash c.frameByHash hash.val fk.toBytes.val
    idx := (reindexRows d fk frame).foldl putRow c.idx }

def clearSecondary (c : ConCorpus F) : ConCorpus F :=
  { c with idx := fun _ => ∅, frameByHash := ∅, hashByFrame := ∅ }

def clearTopo (c : ConCorpus F) : ConCorpus F := { c with idxTopo := c.idxTopo.map fun _ => ∅ }

def rebuildIfRecorded (recorded : Option (TopologyParams F)) (c : ConCorpus F) : Result (ConCorpus F) :=
  if recorded.isSome then rebuildIdxTopoFromStored c else .ok c

def reindexCommit (recorded : Option (TopologyParams F)) (live : ConCorpus F) :
    Result (UInt32 × ConCorpus F) := do
  let keys := live.frames.keys.filterMap FrameKey.fromBytes
  let next ← keys.foldlM (reindexFrame d) (clearTopo (clearSecondary live))
  let next ← rebuildIfRecorded recorded next
  return (UInt32.ofNat keys.length, next)

def reindex (refused : Option Error) (snap live : ConCorpus F) : Result UInt32 × ConCorpus F :=
  call (collectedTopoParams snap) refused (reindexCommit d) live

def repackPlan (c : ConCorpus F) (trajId : UInt64) : Result (List (FrameKey × Bytes)) := do
  let keys := (listFrameKeys c).filter fun k => k.trajId == trajId
  let texts ← keys.mapM fun key => do return (key.frameIdx, ← getFrameText d c key)
  let old ← keys.mapM (storedIn c)
  let packed ← packAligned d texts
  return ((keys.zip packed).zip old).filterMap fun row =>
    if row.1.2 ≠ row.2 then some row.1 else none

def repackCommit (changed : List (FrameKey × Bytes)) (live : ConCorpus F) :
    Result (UInt32 × ConCorpus F) :=
  .ok (UInt32.ofNat changed.length,
    { live with frames := putAll (fun row => row.1.toBytes.val) Prod.snd live.frames changed })

def writesNothing : Result (List (FrameKey × Bytes)) → Bool
  | .ok [] => true
  | _ => false

-- With nothing to change no transaction is opened, so none is refused.
def repackTraj (refused : Option Error) (snap live : ConCorpus F) (trajId : UInt64) :
    Result UInt32 × ConCorpus F :=
  let plan := repackPlan d snap trajId
  call plan (if writesNothing plan then none else refused) repackCommit live

def storedTrajs (c : ConCorpus F) : List UInt64 := ((listFrameKeys c).map FrameKey.trajId).dedup

def migrateFrames (refused : UInt64 → Option Error) (c : ConCorpus F) : Result UInt32 × ConCorpus F :=
  each (fun t verdict s => repackTraj d verdict s s t) refused (· + ·) 0 (storedTrajs c) c

def cookPlan (c : ConCorpus F) (key : FrameKey) : Result Bytes := do
  CookedSoa.encodeFrame (← getFrame d c key)

def cookCommit (key : FrameKey) (bytes : Bytes) (live : ConCorpus F) : Result (Nat × ConCorpus F) :=
  .ok (bytes.length, { live with framesSoa := live.framesSoa.insert key.toBytes.val bytes })

def cookFrame (refused : Option Error) (snap live : ConCorpus F) (key : FrameKey) :
    Result Nat × ConCorpus F :=
  call (cookPlan d snap key) refused (cookCommit key) live

def recookAll (refused : FrameKey → Option Error) (c : ConCorpus F) : Result UInt32 × ConCorpus F :=
  each (fun key verdict s => cookFrame d verdict s s key) refused (fun n _ => n + 1) 0
    (listFrameKeys c) c

def deleteCookedSoa (refused : Option Error) (live : ConCorpus F) (key : FrameKey) :
    Result Unit × ConCorpus F :=
  write refused
    (fun s => .ok ((), { s with framesSoa := s.framesSoa.erase key.toBytes.val })) live

def setCompressFrames (c : ConCorpus F) (compress : Bool) : ConCorpus F :=
  { c with compressFrames := compress }

def appendTrajectoryPathCook (refused : Option Error) (refusedCook : FrameKey → Option Error)
    (c : ConCorpus F) (trajId : UInt64) (file : ConFile) (cook : Bool) :
    Result UInt32 × ConCorpus F :=
  match appendTrajectoryPath d refused c c trajId file with
  | (.error e, next) => (.error e, next)
  | (.ok n, next) =>
    if !cook then (.ok n, next)
    else
      let keys := (List.range n.toNat).map fun i => FrameKey.mk trajId (UInt32.ofNat i)
      each (fun key verdict s => cookFrame d verdict s s key) refusedCook (fun n _ => n) n keys next

def annotateTopology (seams : Seams F) (refused : Option Error) (snap live : ConCorpus F)
    (opts : AnnotateTopologyOpts F) : Result UInt32 × ConCorpus F :=
  call (annotatePlan d seams snap opts) refused (annotateCommit d opts) live

end Maintain

end ReadconDb
