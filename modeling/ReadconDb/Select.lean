import ReadconDb.Corpus
import ReadconDb.UnitsCanon

namespace ReadconDb

open ByteString Outcome OrderedTable

structure Select (F : Type) where
  trajId : Option UInt64 := none
  natomsMin : Option UInt32 := none
  natomsMax : Option UInt32 := none
  symbolsAll : List String := []
  contentHash : Option ContentHash := none
  energyMin : Option F := none
  energyMax : Option F := none
  fmaxMin : Option F := none
  fmaxMax : Option F := none
  massMin : Option F := none
  massMax : Option F := none
  volumeMin : Option F := none
  volumeMax : Option F := none
  pbcExact : Option (Bool × Bool × Bool) := none
  timeMin : Option F := none
  timeMax : Option F := none
  timestepMin : Option F := none
  timestepMax : Option F := none
  frameIndexMin : Option F := none
  frameIndexMax : Option F := none
  nebBeadMin : Option F := none
  nebBeadMax : Option F := none
  nebBandMin : Option F := none
  nebBandMax : Option F := none
  chargeMin : Option F := none
  chargeMax : Option F := none
  magmomMin : Option F := none
  magmomMax : Option F := none
  elementCountMin : List (String × UInt32) := []
  elementCountExact : List (String × UInt32) := []
  exactFormula : Option String := none
  topoKey : Option String := none
  requireForces : Bool := false
  requireVelocities : Bool := false
  requireEnergy : Bool := false
  limit : Option Nat := none

def Select.trajectory {F : Type} (sel : Select F) (id : UInt64) : Select F :=
  { sel with trajId := some id }

def isAsciiHexdigit (c : Char) : Bool :=
  c.isDigit || ('a' ≤ c && c ≤ 'f') || ('A' ≤ c && c ≤ 'F')

def normalizeTopoHex (raw : String) : Result String :=
  let s := trim raw
  if s = "" || !s.toList.all isAsciiHexdigit then
    .error (.message ("invalid topology key " ++ raw))
  else .ok (toAsciiLowercase s)

section Scans

variable (keep : FrameKey → Bool)

def collect (ks : List Bytes) (read : Bytes → Option FrameKey) : Finset FrameKey :=
  ((ks.filterMap read).filter keep).toFinset

def prefixIter (t : Table Unit) (pref : Bytes) : List Bytes := t.keys.filter pref.isPrefixOf

-- Bin keys are a big-endian number of `w` bytes and a frame key; the scan stops past `hi`.
def scanBins (w lo hi : Nat) (t : Table Unit) : Finset FrameKey :=
  collect keep (t.keys.takeWhile fun k => k.length < w + 12 || beNat (k.take w) ≤ hi) fun k =>
    if k.length < w + 12 then none
    else if lo ≤ beNat (k.take w) then FrameKey.fromBytes ((k.drop w).take 12) else none

def scanPrefix (t : Table Unit) (pref : Bytes) : Finset FrameKey :=
  collect keep (prefixIter t pref) fun k =>
    if k.length < 12 then none else FrameKey.fromBytes (k.drop (k.length - 12))

def scanElemCount (t : Table Unit) (sym : String) (accept : UInt32 → Bool) : Finset FrameKey :=
  collect keep (prefixIter t (elemCountSymbolPrefix sym)) fun k =>
    (parseElemCountKey k sym).bind fun cf => if accept cf.1 then some cf.2 else none

def scanTagged (t : Table Unit) (tag : UInt8) : Finset FrameKey :=
  collect keep (prefixIter t [tag]) fun k =>
    if k.length < 13 then none else FrameKey.fromBytes ((k.drop 1).take 12)

-- Unlike the bins, a value past `hi` is passed over and the scan goes on.
def scanMeta (t : Table Unit) (ch : UInt8) (lo hi : Nat) : Finset FrameKey :=
  collect keep (prefixIter t [ch]) fun k =>
    if k.length < 21 then none
    else if beNat ((k.drop 1).take 8) > hi then none
    else if lo ≤ beNat ((k.drop 1).take 8) then FrameKey.fromBytes ((k.drop 9).take 12) else none

end Scans

section Bounds

variable {F : Type} [Float64 F]

def loBits (lo : Option F) (otherwise : F) : Nat :=
  ((orderedF64Bits (lo.getD otherwise)).getD 0).toNat

def hiBits (hi : Option F) : Nat :=
  ((orderedF64Bits (hi.getD infinity)).getD (2 ^ 64 - 1)).toNat

def given (lo hi : Option F) : Bool := lo.isSome || hi.isSome

end Bounds

section Sets

variable {F : Type} [Float64 F] (c : ConCorpus F) (sel : Select F)

def inTraj (fk : FrameKey) : Bool :=
  match sel.trajId with
  | none => true
  | some t => t == fk.trajId

def hashSet (h : ContentHash) : Finset FrameKey :=
  match c.frameByHash[h.val]?.bind FrameKey.fromBytes with
  | some fk => if inTraj sel fk then {fk} else ∅
  | none => ∅

def scanOrd (t : Table Unit) (lo hi : Option F) (otherwise : F) : List (Finset FrameKey) :=
  if given lo hi then [scanBins (inTraj sel) 8 (loBits lo otherwise) (hiBits hi) t] else []

def scanChannel (ch : UInt8) (lo hi : Option F) : List (Finset FrameKey) :=
  if given lo hi then
    [scanMeta (inTraj sel) (c.idx .idxMeta) ch (loBits lo negInfinity) (hiBits hi)]
  else []

def topoSets : Result (List (Finset FrameKey)) :=
  match sel.topoKey with
  | none => .ok []
  | some hex =>
    match c.idxTopo with
    | none => .ok [∅]
    | some idx => do return [scanPrefix (inTraj sel) idx (topoPrefix (← normalizeTopoHex hex))]

def natomsSets : List (Finset FrameKey) :=
  if sel.natomsMin.isSome || sel.natomsMax.isSome then
    [scanBins (inTraj sel) 4 (sel.natomsMin.getD 0).toNat (sel.natomsMax.getD (2 ^ 32 - 1)).toNat
      (c.idx .idxNatoms)]
  else []

def nameSets : List (Finset FrameKey) :=
  sel.symbolsAll.map (fun sym => scanPrefix (inTraj sel) (c.idx .idxSymbol) (symbolPrefix sym)) ++
  sel.exactFormula.toList.map (fun formula =>
    scanPrefix (inTraj sel) (c.idx .idxFormula) (formulaPrefix formula))

def countSets : List (Finset FrameKey) :=
  sel.elementCountExact.map (fun e =>
    scanElemCount (inTraj sel) (c.idx .idxElemCount) e.1 (fun n => n == e.2)) ++
  sel.elementCountMin.map (fun e =>
    scanElemCount (inTraj sel) (c.idx .idxElemCount) e.1 (fun n => decide (n ≥ e.2)))

def binSets : List (Finset FrameKey) :=
  scanOrd sel (c.idx .idxEnergy) sel.energyMin sel.energyMax negInfinity ++
  scanOrd sel (c.idx .idxFmax) sel.fmaxMin sel.fmaxMax zeroF64 ++
  scanOrd sel (c.idx .idxMass) sel.massMin sel.massMax negInfinity ++
  scanOrd sel (c.idx .idxVolume) sel.volumeMin sel.volumeMax negInfinity

def pbcSets : List (Finset FrameKey) :=
  sel.pbcExact.toList.map fun pbc =>
    scanTagged (inTraj sel) (c.idx .idxPbc) (pbcMaskFromBools pbc)

def metaSets : List (Finset FrameKey) :=
  scanChannel c sel metaTime sel.timeMin sel.timeMax ++
  scanChannel c sel metaTimestep sel.timestepMin sel.timestepMax ++
  scanChannel c sel metaFrameIndex sel.frameIndexMin sel.frameIndexMax ++
  scanChannel c sel metaNebBead sel.nebBeadMin sel.nebBeadMax ++
  scanChannel c sel metaNebBand sel.nebBandMin sel.nebBandMax ++
  scanChannel c sel metaCharge sel.chargeMin sel.chargeMax ++
  scanChannel c sel metaMagmom sel.magmomMin sel.magmomMax

def flagSet (required : Bool) (flag : UInt8) : List (Finset FrameKey) :=
  if required then [scanTagged (inTraj sel) (c.idx .idxFlags) flag] else []

def flagSets : List (Finset FrameKey) :=
  flagSet c sel sel.requireForces flagHasForces ++
  flagSet c sel sel.requireVelocities flagHasVelocities ++
  flagSet c sel sel.requireEnergy flagHasEnergy

def allFrames : Finset FrameKey :=
  ((c.frames.keys.filterMap FrameKey.fromBytes).filter (inTraj sel)).toFinset

def predicateSets : Result (List (Finset FrameKey)) := do
  let topo ← topoSets c sel
  return sel.contentHash.toList.map (hashSet c sel) ++ natomsSets c sel ++ nameSets c sel ++ topo ++
    countSets c sel ++ binSets c sel ++ pbcSets c sel ++ metaSets c sel ++ flagSets c sel

def retainTraj (s : Finset FrameKey) : Finset FrameKey :=
  match sel.trajId with
  | none => s
  | some tid => s.filter fun fk => fk.trajId == tid

def intersectFrom (acc : Finset FrameKey) : List (Finset FrameKey) → Finset FrameKey
  | [] => acc
  | s :: rest =>
    if acc = ∅ then acc
    else if s.card < acc.card then intersectFrom (s ∩ acc) rest
    else intersectFrom (acc ∩ s) rest

def intersectAll (sets : List (Finset FrameKey)) : Finset FrameKey :=
  match sets.mergeSort fun s t => s.card ≤ t.card with
  | [] => ∅
  | acc :: rest => intersectFrom acc rest

def select : Result (List FrameKey) := do
  let sets ← predicateSets c sel
  let sets := if sets = [] then [allFrames c sel] else sets.map (retainTraj sel)
  let out := (intersectAll sets).sort
  return match sel.limit with
    | none => out
    | some lim => out.take lim

end Sets

end ReadconDb
