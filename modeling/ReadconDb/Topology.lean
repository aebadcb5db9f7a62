import ReadconDb.Select

namespace ReadconDb

open ByteString Outcome OrderedTable

structure AnnotateTopologyOpts (F : Type) where
  cutoff : F
  graph : String := "cutoff"
  hops : UInt32 := 2

structure FingerprintRecord where
  frame : Int
  key : String
  method : String

structure TopologyParams (F : Type) where
  cutoff : Option F
  graph : Option String
  hops : Option UInt32
  method : Option String

structure SeamsJson where
  command : Option String
  frame : Option Int
  status : Int
  text : String

-- The `seams` binary, as found on this machine, and serde_json's reading of one of its lines.
structure Seams (F : Type) where
  resolved : Except Error Unit
  stdout : Bytes → F → String → UInt32 → Except Error String
  jsonLine : String → Except String SeamsJson

def isAsciiAlphabetic (c : Char) : Bool := c.isAlpha

inductive AnsiMode where
  | text
  | csi
  | osc

def stripFrom : AnsiMode → List Char → List Char
  | _, [] => []
  | .csi, c :: rest => if isAsciiAlphabetic c then stripFrom .text rest else stripFrom .csi rest
  | .osc, c :: rest => if c = '\x07' || c = '\\' then stripFrom .text rest else stripFrom .osc rest
  | .text, '\x1b' :: '[' :: rest => stripFrom .csi rest
  | .text, '\x1b' :: ']' :: rest => stripFrom .osc rest
  | .text, c :: rest => c :: stripFrom .text rest

def stripAnsi (s : String) : String := String.ofList (stripFrom .text s.toList)

def scanTokens (key method : Option String) : List String → Option String × Option String
  | token :: value :: rest =>
    if token = "key" then scanTokens (some value) method rest
    else if token = "method" then scanTokens key (some value) rest
    else scanTokens key method (value :: rest)
  | _ => (key, method)

def parseFingerprintText (text : String) : Result (String × String) :=
  let cleaned := stripAnsi text
  match scanTokens none none (splitWhitespace cleaned) with
  | (none, _) => .error (.message ("seams fingerprint text missing key token: " ++ cleaned))
  | (some _, none) => .error (.message ("seams fingerprint text missing method token: " ++ cleaned))
  | (some key, some method) => do return (← normalizeTopoHex key, method)

section Engine

variable {F : Type} [Float64 F] (d : Crates F) (seams : Seams F)

def parseFingerprintJsonLine (line : String) : Result FingerprintRecord :=
  match seams.jsonLine (trim line) with
  | .error e => .error (.message ("seams fingerprint json: " ++ e ++ ": " ++ line))
  | .ok rec =>
    if rec.status ≠ 0 then
      .error (.message ("seams fingerprint status " ++ toString rec.status ++ ": " ++ rec.text))
    else
      match rec.command.filter (· ≠ "fingerprint") with
      | some cmd => .error (.message ("seams fingerprint unexpected command " ++ cmd))
      | none => do
        let (key, method) ← parseFingerprintText rec.text
        return ⟨rec.frame.getD 0, key, method⟩

def stdoutLines (stdout : String) : List String :=
  ((stdout.toList.splitOn '\n').map fun line => trim (String.ofList line)).filter (· ≠ "")

def parseFingerprintJsonStdout (stdout : String) : Result (List FingerprintRecord) := do
  let out ← (stdoutLines stdout).mapM (parseFingerprintJsonLine seams)
  if out.isEmpty then .error (.message "seams fingerprint produced no JSON objects") else .ok out

def fingerprintConBytes (bytes : Bytes) (cutoff : F) (graph : String) (hops : UInt32) :
    Result (List FingerprintRecord) := do
  parseFingerprintJsonStdout seams (← seams.stdout bytes cutoff graph hops)

namespace TopologyParams

def isEmpty (p : TopologyParams F) : Bool :=
  p.cutoff.isNone && p.graph.isNone && p.hops.isNone && p.method.isNone

def sameCutoff (a b : Option F) : Bool :=
  match a, b with
  | none, none => true
  | some x, some y => Float64.eq x y
  | _, _ => false

def agrees (p q : TopologyParams F) : Bool :=
  sameCutoff p.cutoff q.cutoff && p.graph == q.graph && p.hops == q.hops && p.method == q.method

end TopologyParams

def debugOption {A : Type} (text : A → String) : Option A → String
  | none => "None"
  | some a => "Some(" ++ text a ++ ")"

def debugParams (p : TopologyParams F) : String :=
  "cutoff=" ++ debugOption Float64.debug p.cutoff ++ " graph=" ++ debugOption String.quote p.graph ++
    " hops=" ++ debugOption toString p.hops ++ " method=" ++ debugOption String.quote p.method

def mixedTopoError (a b : TopologyParams F) : Error :=
  .message ("mixed topology parameters: do not mix cutoff/graph/hops/method (have " ++
    debugParams a ++ "; saw " ++ debugParams b ++ ")")

namespace TrajMeta

def topoParams (m : TrajMeta F) : TopologyParams F :=
  ⟨m.topoCutoff, m.topoGraph, m.topoHops, m.topoMethod⟩

def hasTopo (m : TrajMeta F) : Bool := !m.topoParams.isEmpty

def stampTopo (m : TrajMeta F) (cutoff : F) (graph : String) (hops : UInt32) (method : String) :
    TrajMeta F :=
  { m with topoCutoff := some cutoff, topoGraph := some graph, topoHops := some hops,
           topoMethod := some method }

end TrajMeta

def listTrajMetas (c : ConCorpus F) : List (UInt64 × TrajMeta F) := c.trajMeta.toList

def collectParams (seen : Option (TopologyParams F)) :
    List (UInt64 × TrajMeta F) → Result (Option (TopologyParams F))
  | [] => .ok seen
  | (_, m) :: rest =>
    if !m.hasTopo then collectParams seen rest
    else
      match seen with
      | none => collectParams (some m.topoParams) rest
      | some prev =>
        if prev.agrees m.topoParams then collectParams seen rest
        else .error (mixedTopoError prev m.topoParams)

def collectedTopoParams (c : ConCorpus F) : Result (Option (TopologyParams F)) :=
  collectParams none (listTrajMetas c)

def topoMissing : Error :=
  .message "topology indexes missing; open the corpus for write to create idx_topo"

def requireTopoDbs (c : ConCorpus F) : Result (Table Unit × Table Bytes) :=
  match c.idxTopo, c.topoByFrame with
  | some idx, some byFrame => .ok (idx, byFrame)
  | _, _ => .error topoMissing

def ofTopoBytes (b : Bytes) : Result String :=
  match ofUtf8 b with
  | none => .error (.utf8 "invalid utf-8 sequence")
  | some s => .ok s

def rebuildRow (idx : Table Unit) (row : Bytes × Bytes) : Result (Table Unit) :=
  match FrameKey.fromBytes row.1 with
  | none => .ok idx
  | some fk => do
    let hex ← normalizeTopoHex (← ofTopoBytes row.2)
    return idx.insert (topoKey hex fk) ()

def rebuildIdxTopoFromStored (c : ConCorpus F) : Result (ConCorpus F) := do
  let (idx, byFrame) ← requireTopoDbs c
  let idx ← byFrame.toList.foldlM rebuildRow idx
  return { c with idxTopo := some idx }

def dropOldTopo (idx : Table Unit) (fk : FrameKey) (old : Option Bytes) : Result (Table Unit) :=
  match old with
  | none => .ok idx
  | some b => do return idx.erase (topoKey (← ofTopoBytes b) fk)

def putTopoEntry (tables : Table Unit × Table Bytes) (entry : FrameKey × String) :
    Result (Table Unit × Table Bytes) := do
  let fkB := entry.1.toBytes.val
  let idx ← dropOldTopo tables.1 entry.1 tables.2[fkB]?
  return (idx.insert (topoKey entry.2 entry.1) (), tables.2.insert fkB (utf8 entry.2))

def frameTopoKey (c : ConCorpus F) (key : FrameKey) : Result (Option String) :=
  match c.topoByFrame.bind fun byFrame => byFrame[key.toBytes.val]? with
  | none => .ok none
  | some b => some <$> ofTopoBytes b

structure AnnotatePlan (F : Type) where
  metas : List (UInt64 × TrajMeta F)
  pending : List (FrameKey × String)
  method : String

def checkRecorded (recorded : Option (TopologyParams F)) (opts : AnnotateTopologyOpts F) :
    Result Unit :=
  match recorded with
  | none => .ok ()
  | some rec =>
    let cutoffDiff := rec.cutoff.any fun x => !Float64.eq x opts.cutoff
    let graphDiff := rec.graph.any fun g => g != opts.graph
    let hopsDiff := rec.hops.any fun h => h != opts.hops
    if cutoffDiff || graphDiff || hopsDiff then
      .error (mixedTopoError rec ⟨some opts.cutoff, some opts.graph, some opts.hops, rec.method⟩)
    else .ok ()

def trajectoryBlob (c : ConCorpus F) (tid : UInt64) (nFrames : Nat) : Result String := do
  let texts ← (List.range nFrames).mapM fun i => getFrameText d c ⟨tid, UInt32.ofNat i⟩
  return String.join texts

abbrev Pending := Option String × List (FrameKey × String)

def addRecord (tid : UInt64) (acc : Pending) (row : FingerprintRecord × Nat) : Result Pending :=
  match acc.1.filter (· ≠ row.1.method) with
  | some m =>
    .error (.message ("seams fingerprint mixed methods in one run (" ++ m ++ " vs " ++
      row.1.method ++ ")"))
  | none => .ok (some row.1.method, acc.2 ++ [(⟨tid, UInt32.ofNat row.2⟩, row.1.key)])

def countError (n : Nat) (tid : UInt64) (nFrames : UInt32) : Error :=
  .message ("seams fingerprint returned " ++ toString n ++ " objects for traj " ++ toString tid ++
    " with " ++ toString nFrames ++ " frames")

def annotateTraj (c : ConCorpus F) (opts : AnnotateTopologyOpts F) (acc : Pending)
    (row : UInt64 × TrajMeta F) : Result Pending :=
  if row.2.nFrames = 0 then .ok acc
  else do
    let blob ← trajectoryBlob d c row.1 row.2.nFrames.toNat
    let recs ← fingerprintConBytes seams (utf8 blob) opts.cutoff opts.graph opts.hops
    if recs.length ≠ row.2.nFrames.toNat then .error (countError recs.length row.1 row.2.nFrames)
    else recs.zipIdx.foldlM (addRecord row.1) acc

def checkMethod (recorded : Option (TopologyParams F)) (opts : AnnotateTopologyOpts F)
    (runMethod : Option String) : Result Unit :=
  match recorded, runMethod with
  | some rec, some method =>
    if rec.method.any fun m => m != method then
      .error (mixedTopoError rec ⟨some opts.cutoff, some opts.graph, some opts.hops, some method⟩)
    else .ok ()
  | _, _ => .ok ()

-- `none`: there was no frame to annotate and nothing will be written.
def annotatePlan (c : ConCorpus F) (opts : AnnotateTopologyOpts F) : Result (Option (AnnotatePlan F)) :=
  do
    seams.resolved
    let _ ← requireTopoDbs c
    let recorded ← collectedTopoParams c
    checkRecorded recorded opts
    let metas := listTrajMetas c
    let (runMethod, pending) ← metas.foldlM (annotateTraj d seams c opts) (none, [])
    checkMethod recorded opts runMethod
    return runMethod.map fun method => ⟨metas, pending, method⟩

def stampMeta (opts : AnnotateTopologyOpts F) (method : String)
    (t : Std.ExtTreeMap UInt64 (TrajMeta F) compare) (row : UInt64 × TrajMeta F) :
    Std.ExtTreeMap UInt64 (TrajMeta F) compare :=
  t.insert row.1 ((row.2.stampTopo opts.cutoff opts.graph opts.hops method).stored d)

def annotateCommit (opts : AnnotateTopologyOpts F) (plan : Option (AnnotatePlan F))
    (live : ConCorpus F) : Result (UInt32 × ConCorpus F) :=
  match plan with
  | none => .ok (0, live)
  | some plan => do
    let (idx, byFrame) ← plan.pending.foldlM putTopoEntry (← requireTopoDbs live)
    return (UInt32.ofNat plan.pending.length,
      { live with
        idxTopo := some idx
        topoByFrame := some byFrame
        trajMeta := plan.metas.foldl (stampMeta d opts plan.method) live.trajMeta })

end Engine

end ReadconDb
