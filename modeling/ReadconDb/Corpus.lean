import ReadconDb.FrameCodec
import ReadconDb.Library.OrderedTable
import ReadconDb.Library.TwoPhase

namespace ReadconDb

open ByteString Outcome OrderedTable

abbrev Table (V : Type) := Std.ExtTreeMap Bytes V compare

structure TrajMeta (F : Type) where
  nFrames : UInt32 := 0
  source : String := ""
  topoCutoff : Option F := none
  topoGraph : Option String := none
  topoHops : Option UInt32 := none
  topoMethod : Option String := none

inductive Index where
  | idxNatoms
  | idxSymbol
  | idxElemCount
  | idxFormula
  | idxEnergy
  | idxFmax
  | idxMass
  | idxVolume
  | idxPbc
  | idxFlags
  | idxMeta
  deriving DecidableEq, Repr

structure ScreeningKeys where
  natomsK : Arr 16
  symbolKeys : List Bytes
  elemCountKeys : List Bytes
  formulaK : Option Bytes
  energyK : Option (Arr 20)
  fmaxK : Option (Arr 20)
  massK : Option (Arr 20)
  volumeK : Option (Arr 20)
  pbcK : Option (Arr 13)
  flagKeys : List (Arr 13)
  metaKeys : List (Arr 21)

structure PreparedIndexPuts extends ScreeningKeys where
  fk : FrameKey
  stored : Bytes
  hash : ContentHash

structure ConCorpus (F : Type) where
  compressFrames : Bool
  frames : Table Bytes
  trajMeta : Std.ExtTreeMap UInt64 (TrajMeta F) compare
  idx : Index → Table Unit
  frameByHash : Table Bytes
  hashByFrame : Table Bytes
  framesSoa : Table Bytes
  idxTopo : Option (Table Unit)
  topoByFrame : Option (Table Bytes)

def ConCorpus.empty (F : Type) : ConCorpus F where
  compressFrames := true
  frames := ∅
  trajMeta := ∅
  idx := fun _ => ∅
  frameByHash := ∅
  hashByFrame := ∅
  framesSoa := ∅
  idxTopo := some ∅
  topoByFrame := some ∅

namespace ScreeningKeys

def keys (p : ScreeningKeys) : Index → List Bytes
  | .idxNatoms => [p.natomsK.val]
  | .idxSymbol => p.symbolKeys
  | .idxElemCount => p.elemCountKeys
  | .idxFormula => p.formulaK.toList
  | .idxEnergy => p.energyK.toList.map Subtype.val
  | .idxFmax => p.fmaxK.toList.map Subtype.val
  | .idxMass => p.massK.toList.map Subtype.val
  | .idxVolume => p.volumeK.toList.map Subtype.val
  | .idxPbc => p.pbcK.toList.map Subtype.val
  | .idxFlags => p.flagKeys.map Subtype.val
  | .idxMeta => p.metaKeys.map Subtype.val

def putOrder : List Index :=
  [.idxNatoms, .idxSymbol, .idxElemCount, .idxFormula, .idxEnergy, .idxFmax, .idxMass, .idxVolume,
    .idxPbc, .idxFlags, .idxMeta]

def rows (p : ScreeningKeys) : List (Index × Bytes) :=
  putOrder.flatMap fun i => (p.keys i).map (Prod.mk i)

end ScreeningKeys

def putRow (idx : Index → Table Unit) (row : Index × Bytes) : Index → Table Unit :=
  Function.update idx row.1 ((idx row.1).insert row.2 ())

def deleteRow (idx : Index → Table Unit) (row : Index × Bytes) : Index → Table Unit :=
  Function.update idx row.1 ((idx row.1).erase row.2)

section Projection

variable {F : Type} [Float64 F]

def firstSymbols (seen : List String) : List (String × UInt32) → List String
  | [] => []
  | (sym, _) :: rest =>
    if sym ∈ seen then firstSymbols seen rest else sym :: firstSymbols (sym :: seen) rest

def metaChannels (proj : FrameIndexProjection F) : List (UInt8 × Option F) :=
  [(metaTime, proj.time), (metaTimestep, proj.timestep), (metaFrameIndex, proj.frameIndex),
    (metaNebBead, proj.nebBead), (metaNebBand, proj.nebBand), (metaCharge, proj.charge),
    (metaMagmom, proj.magmom)]

def metaKeysOf (fk : FrameKey) (channels : List (UInt8 × Option F)) : List (Arr 21) :=
  channels.filterMap fun c => c.2.bind fun x => metaScalarKey c.1 x fk

def screeningKeys (fk : FrameKey) (proj : FrameIndexProjection F) : ScreeningKeys where
  natomsK := natomsKey proj.nAtoms fk
  symbolKeys := (firstSymbols [] proj.speciesCounts).map fun sym => symbolKey sym fk
  elemCountKeys := proj.speciesCounts.map fun sc => elemCountKey sc.1 sc.2 fk
  formulaK := if proj.formula = "" then none else some (formulaKey proj.formula fk)
  energyK := proj.energy.bind fun e => energyBinKey e fk
  fmaxK := if proj.hasForces then proj.fmax.bind fun fm => fmaxBinKey fm fk else none
  massK := proj.totalMass.bind fun m => massBinKey m fk
  volumeK := proj.cellVolume.bind fun v => volumeBinKey v fk
  pbcK := proj.pbc.map fun p => pbcKey (pbcMaskFromBools p) fk
  flagKeys :=
    (if proj.energy.isSome then [flagKey flagHasEnergy fk] else []) ++
    (if proj.hasForces then [flagKey flagHasForces fk] else []) ++
    (if proj.hasVelocities then [flagKey flagHasVelocities fk] else [])
  metaKeys := metaKeysOf fk (metaChannels proj)

end Projection

section Frames

variable {F : Type} [Float64 F] (d : Crates F)

def buildIndexPuts (fk : FrameKey) (frame : ConFrame F) (text : String) (compress : Bool) :
    Result PreparedIndexPuts := do
  let stored ← storeFrame d text compress
  return { screeningKeys fk (d.fromFrame frame) with
    fk := fk, stored := stored, hash := hashFrameBytes d (utf8 text) }

def postHash (t : Table Bytes) (hash : Bytes) (fkB : Bytes) : Table Bytes :=
  match t[hash]? with
  | none => t.insert hash fkB
  | some _ => t

def putIndexPuts (c : ConCorpus F) (p : PreparedIndexPuts) : ConCorpus F :=
  { c with
    frames := c.frames.insert p.fk.toBytes.val p.stored
    hashByFrame := c.hashByFrame.insert p.fk.toBytes.val p.hash.val
    frameByHash := postHash c.frameByHash p.hash.val p.fk.toBytes.val
    idx := p.rows.foldl putRow c.idx }

def posted (c : ConCorpus F) (p : PreparedIndexPuts) : Bool :=
  match c.frameByHash[p.hash.val]? with
  | some bytes => FrameKey.fromBytes bytes == some p.fk
  | none => false

def deleteIndexPuts (c : ConCorpus F) (p : PreparedIndexPuts) : ConCorpus F :=
  { c with
    frames := c.frames.erase p.fk.toBytes.val
    hashByFrame := c.hashByFrame.erase p.fk.toBytes.val
    framesSoa := c.framesSoa.erase p.fk.toBytes.val
    idx := p.rows.foldl deleteRow c.idx }

def deleteAllIndexPuts (c : ConCorpus F) : List PreparedIndexPuts → List ContentHash × ConCorpus F
  | [] => ([], c)
  | p :: ps =>
    let (stale, next) := deleteAllIndexPuts (deleteIndexPuts c p) ps
    (if posted c p then p.hash :: stale else stale, next)

def survivor (hashByFrame : Table Bytes) (digest : ContentHash) : Option FrameKey :=
  hashByFrame.toList.findSome? fun kv => if kv.2 = digest.val then FrameKey.fromBytes kv.1 else none

def repointDigest (hashByFrame frameByHash : Table Bytes) (digest : ContentHash) : Table Bytes :=
  match frameByHash[digest.val]?.bind FrameKey.fromBytes with
  | none => frameByHash
  | some posted =>
    if (hashByFrame[posted.toBytes.val]?).isSome then frameByHash
    else
      match survivor hashByFrame digest with
      | some other => frameByHash.insert digest.val other.toBytes.val
      | none => frameByHash.erase digest.val

def repointFrameByHash (c : ConCorpus F) (stale : List ContentHash) : ConCorpus F :=
  { c with frameByHash := stale.foldl (repointDigest c.hashByFrame) c.frameByHash }

def storedIn (c : ConCorpus F) (key : FrameKey) : Result Bytes :=
  match c.frames[key.toBytes.val]? with
  | some b => .ok b
  | none => .error (.missingFrame key)

def getFrameText (c : ConCorpus F) (key : FrameKey) : Result String := do
  let stored ← storedIn c key
  decodeFrame d stored fun idx => storedIn c ⟨key.trajId, idx⟩

def firstFrame (missing text : String) : Result (ConFrame F) :=
  match (d.conFrames text).head? with
  | none => .error (.parse missing)
  | some (.error e) => .error (.parse e)
  | some (.ok item) => .ok item.1

def getFrame (c : ConCorpus F) (key : FrameKey) : Result (ConFrame F) := do
  firstFrame d "empty blob" (← getFrameText d c key)

def listFrameKeys (c : ConCorpus F) : List FrameKey :=
  (c.frames.toList.filterMap fun kv => FrameKey.fromBytes kv.1).mergeSort

def prepareItems (trajId : UInt64) (compress : Bool) (frameIdx : UInt32) :
    List (Result (ConFrame F × String)) → Result (List PreparedIndexPuts)
  | [] => .ok []
  | item :: rest => do
    let (frame, blob) ← item
    let p ← buildIndexPuts d ⟨trajId, frameIdx⟩ frame blob compress
    let ps ← prepareItems trajId compress (frameIdx + 1) rest
    return p :: ps

def spans (fileContents : String) : List (Result (ConFrame F × String)) :=
  (d.conFrames fileContents).map (Except.mapError Error.parse)

def serialize (floatFormat : FloatFormat) (fr : ConFrame F) : Result (ConFrame F × String) :=
  match d.writeFrame floatFormat fr with
  | .error e => .error (.parse ("serialize: " ++ e))
  | .ok bytes =>
    match ofUtf8 bytes with
    | none => .error (.message "utf8: invalid utf-8 sequence")
    | some blob => .ok (fr, blob)

def prepareTrajectoryStr (trajId : UInt64) (fileContents : String) (compress : Bool) :
    Result (List PreparedIndexPuts) :=
  prepareItems d trajId compress 0 (spans d fileContents)

def prepareTrajectoryFramesFormatted (trajId : UInt64) (frames : List (ConFrame F))
    (startIdx : UInt32) (floatFormat : FloatFormat) (compress : Bool) :
    Result (List PreparedIndexPuts) :=
  prepareItems d trajId compress startIdx (frames.map (serialize d floatFormat))

def assignStored : List PreparedIndexPuts → List Bytes → List PreparedIndexPuts
  | p :: ps, stored :: rest => { p with stored := stored } :: assignStored ps rest
  | ps, _ => ps

def groupPrepared (prepared : List PreparedIndexPuts) : Result (List PreparedIndexPuts) :=
  if prepared.length < 2 then .ok prepared
  else do
    let texts ← prepared.mapM fun p => do return (p.fk.frameIdx, ← loadFrame d p.stored)
    let packed ← packAligned d texts
    return assignStored prepared packed

def groupIf (compress : Bool) (prepared : List PreparedIndexPuts) : Result (List PreparedIndexPuts) :=
  if compress then groupPrepared d prepared else .ok prepared

-- What comes back of a record after serde_json has written and read it.
def TrajMeta.stored (m : TrajMeta F) : TrajMeta F := { m with topoCutoff := m.topoCutoff.bind d.jsonF64 }

def framesAfter (prepared : List PreparedIndexPuts) (otherwise : UInt32) : UInt32 :=
  match prepared.getLast? with
  | some p => p.fk.frameIdx + 1
  | none => otherwise

def commitPrepared (trajId : UInt64) (source : String) (replaceMeta : Bool)
    (prepared : List PreparedIndexPuts) (live : ConCorpus F) : Result (UInt32 × ConCorpus F) :=
  match live.trajMeta[trajId]?, replaceMeta with
  | some existing, false => .error (.trajExists trajId existing.nFrames)
  | existing, _ =>
    let next := prepared.foldl putIndexPuts live
    let nFrames := framesAfter prepared 0
    let trajMeta := { existing.getD {} with nFrames := nFrames, source := source }
    .ok (nFrames, { next with trajMeta := next.trajMeta.insert trajId (trajMeta.stored d) })

def raceMessage (trajId : UInt64) (startIdx liveN : UInt32) : String :=
  "concurrent extend race on traj " ++ toString trajId ++ ": expected start " ++
    toString startIdx ++ ", live " ++ toString liveN

def countOf (existing : Option (TrajMeta F)) : UInt32 := (existing.map TrajMeta.nFrames).getD 0

def commitExtend (trajId : UInt64) (hint : String) (prior : Option (TrajMeta F))
    (prepared : List PreparedIndexPuts) (live : ConCorpus F) : Result (UInt32 × ConCorpus F) :=
  let existing := live.trajMeta[trajId]?
  if countOf existing ≠ countOf prior then
    .error (.message (raceMessage trajId (countOf prior) (countOf existing)))
  else
    let next := prepared.foldl putIndexPuts live
    let nFrames := framesAfter prepared (countOf prior)
    let trajMeta := { (existing.or prior).getD { source := hint } with nFrames := nFrames }
    .ok (nFrames, { next with trajMeta := next.trajMeta.insert trajId (trajMeta.stored d) })

end Frames

end ReadconDb
