import ReadconDb.CookedSoa
import ReadconDb.UnitsCanon

namespace ReadconDb

open ByteString Outcome OrderedTable TwoPhase

structure ConFile where
  display : String
  contents : Result String

section Ingest

-- `snap` is the corpus a call reads and prepares from, `live` the one its transaction opens on.
variable {F : Type} [Float64 F] (d : Crates F) (refused : Option Error) (snap live : ConCorpus F)

def prepareAppendStr (trajId : UInt64) (fileContents : String) : Result (List PreparedIndexPuts) := do
  let prepared ← prepareTrajectoryStr d trajId fileContents snap.compressFrames
  groupIf d snap.compressFrames prepared

def prepareAppendFrames (trajId : UInt64) (frames : List (ConFrame F)) (floatFormat : FloatFormat) :
    Result (List PreparedIndexPuts) := do
  let prepared ←
    prepareTrajectoryFramesFormatted d trajId frames 0 floatFormat snap.compressFrames
  groupIf d snap.compressFrames prepared

def prepareExtend (trajId : UInt64) (frames : List (ConFrame F)) :
    Result (Option (TrajMeta F) × List PreparedIndexPuts) := do
  let prior := snap.trajMeta[trajId]?
  let prepared ← prepareTrajectoryFramesFormatted d trajId frames (countOf prior) d.defaultFormat
    snap.compressFrames
  return (prior, ← groupIf d snap.compressFrames prepared)

def appendTrajectoryStr (trajId : UInt64) (fileContents source : String) :
    Result UInt32 × ConCorpus F :=
  call (prepareAppendStr d snap trajId fileContents) refused (commitPrepared d trajId source false) live

def appendTrajectoryFramesWithFloatFormat (trajId : UInt64) (frames : List (ConFrame F))
    (source : String) (floatFormat : FloatFormat) : Result UInt32 × ConCorpus F :=
  call (prepareAppendFrames d snap trajId frames floatFormat) refused
    (commitPrepared d trajId source false) live

def appendTrajectoryFrames (trajId : UInt64) (frames : List (ConFrame F)) (source : String) :
    Result UInt32 × ConCorpus F :=
  appendTrajectoryFramesWithFloatFormat d refused snap live trajId frames source d.defaultFormat

def appendTrajectoryFramesWithPrecision (trajId : UInt64) (frames : List (ConFrame F))
    (source : String) (precision : Nat) : Result UInt32 × ConCorpus F :=
  appendTrajectoryFramesWithFloatFormat d refused snap live trajId frames source
    (.decimalPlaces precision)

def extendTrajectoryFrames (trajId : UInt64) (frames : List (ConFrame F)) (sourceHint : String) :
    Result UInt32 × ConCorpus F :=
  call (prepareExtend d snap trajId frames) refused
    (fun plan => commitExtend d trajId sourceHint plan.1 plan.2) live

def stampUnits (units : Option (Value F)) (fr : ConFrame F) : ConFrame F :=
  match units with
  | none => fr
  | some u => { fr with header := d.setUnits fr.header u }

def readFrames (text : String) (units : Option (Value F)) : Result (List (ConFrame F)) :=
  (d.conFrames text).mapM fun item =>
    match item with
    | .error e => .error (.parse e)
    | .ok (fr, _) => .ok (stampUnits d units fr)

def canonicalUnits (units : Option (Value F)) : Result (Option (Value F)) :=
  match units with
  | none => .ok none
  | some u => some <$> canonicalizeUnitsObject d u

def framesWithUnits (file : ConFile) (units : Option (Value F)) : Result (List (ConFrame F)) := do
  let text ← file.contents
  let units ← canonicalUnits d units
  readFrames d text units

def appendTrajectoryPathUnits (trajId : UInt64) (file : ConFile) (units : Option (Value F)) :
    Result UInt32 × ConCorpus F :=
  match units with
  | none =>
    match file.contents with
    | .error e => (.error e, live)
    | .ok text => appendTrajectoryStr d refused snap live trajId text file.display
  | some _ =>
    match framesWithUnits d file units with
    | .error e => (.error e, live)
    | .ok frames => appendTrajectoryFrames d refused snap live trajId frames file.display

def appendTrajectoryPath (trajId : UInt64) (file : ConFile) : Result UInt32 × ConCorpus F :=
  appendTrajectoryPathUnits d refused snap live trajId file none

def extendTrajectoryPathUnits (trajId : UInt64) (file : ConFile) (units : Option (Value F)) :
    Result UInt32 × ConCorpus F :=
  match framesWithUnits d file units with
  | .error e => (.error e, live)
  | .ok frames => extendTrajectoryFrames d refused snap live trajId frames file.display

def extendTrajectoryPath (trajId : UInt64) (file : ConFile) : Result UInt32 × ConCorpus F :=
  extendTrajectoryPathUnits d refused snap live trajId file none

end Ingest

end ReadconDb
