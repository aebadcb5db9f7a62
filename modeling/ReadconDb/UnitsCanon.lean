import ReadconDb.Keys

namespace ReadconDb

open ByteString

def isWhitespace (c : Char) : Bool :=
  let v := c.val.toNat
  (9 ≤ v && v ≤ 13) || v == 0x20 || v == 0x85 || v == 0xA0 || v == 0x1680 ||
    (0x2000 ≤ v && v ≤ 0x200A) || v == 0x2028 || v == 0x2029 || v == 0x202F || v == 0x205F ||
    v == 0x3000

def trim (s : String) : String :=
  String.ofList ((s.toList.dropWhile isWhitespace).reverse.dropWhile isWhitespace).reverse

def toAsciiLowercase (s : String) : String := String.ofList (s.toList.map Char.toLower)

def splitWhitespace (s : String) : List String :=
  ((s.toList.splitOnP isWhitespace).filter (· ≠ [])).map String.ofList

def preferredAtom (atom : String) : Option String :=
  match toAsciiLowercase (trim atom) with
  | "a" | "å" | "angstrom" | "ångstrom" => some "angstrom"
  | "nm" | "nanometer" | "nanometre" => some "nm"
  | "m" | "meter" | "metre" => some "m"
  | "bohr" | "a0" => some "bohr"
  | "fs" | "femtosecond" | "femtoseconds" => some "fs"
  | "ps" | "picosecond" | "picoseconds" => some "ps"
  | "ns" | "nanosecond" | "nanoseconds" => some "ns"
  | "s" | "sec" | "second" | "seconds" => some "s"
  | "ev" => some "eV"
  | "mev" => some "meV"
  | "hartree" | "ha" => some "hartree"
  | "j" | "joule" => some "J"
  | "kj" => some "kJ"
  | "kcal" => some "kcal"
  | "amu" | "u" | "dalton" | "da" => some "amu"
  | "kg" | "kilogram" => some "kg"
  | "mol" => some "mol"
  | _ => none

def isUnitOperator (c : Char) : Bool := c == '*' || c == '/' || c == '(' || c == ')' || c == '^'

def isAtomChar (c : Char) : Bool := c.isAlpha || c.val.toNat > 127

def pushOperator (out : List Char) (b : Char) : List Char :=
  let out :=
    if !out.isEmpty && out.getLast? != some ' ' && b != ')' && b != '^' then out ++ [' '] else out
  let out := out ++ [b]
  if b != '(' && b != '^' then out ++ [' '] else out

def rewriteAtoms (expr : String) (cs : List Char) (out : List Char) : Result (List Char) :=
  match cs with
  | [] => .ok out
  | c :: rest =>
    if isUnitOperator c then rewriteAtoms expr rest (pushOperator out c)
    else if c == '-' || c.isDigit || c == '.' then rewriteAtoms expr rest (out ++ [c])
    else if isAtomChar c then
      let atom := String.ofList (c :: rest.takeWhile isAtomChar)
      rewriteAtoms expr (rest.dropWhile isAtomChar) (out ++ ((preferredAtom atom).getD atom).toList)
    else .error (.message ("bad unit token in '" ++ expr ++ "'"))
  termination_by cs.length
  decreasing_by
    all_goals simp
    have := List.length_dropWhile_le isAtomChar rest
    omega

section Units

variable {F : Type} [Float64 F] (d : Crates F)

def uc (start stop : String) : Result F :=
  match d.unitConversionFactor start stop with
  | .error e => .error (.message e)
  | .ok x => .ok x

def canonicalizeUnit (expr : String) : Result String := do
  let trimmed := trim expr
  if trimmed = "" then .error (.message "empty unit")
  else
    let _ ← uc d trimmed trimmed
    let out ← rewriteAtoms expr (trimmed.toList.filter (fun c => !isWhitespace c)) []
    return " ".intercalate (splitWhitespace (String.ofList out))

def canonicalizeUnitsObject (units : Value F) : Result (Value F) :=
  match units.asObject with
  | none => .error (.message "units must be an object")
  | some obj => do
    let out ← obj.foldlM (fun (out : JsonMap F) kv =>
      match kv.2.asStr with
      | none => .error (.message ("units." ++ kv.1 ++ " must be a string"))
      | some s => do return JsonMap.insert out kv.1 (.string (← canonicalizeUnit d s))) []
    return .object out

def defaultConUnits : Value F :=
  .object [("energy", .string "eV"), ("length", .string "angstrom"), ("mass", .string "amu"),
    ("time", .string "fs")]

def dimUnit (u : Value F) (dim default : String) : String :=
  ((u.get dim).bind Value.asStr).getD default

def dimFactor (old new : Value F) (dim default : String) : Result F :=
  let start := dimUnit old dim default
  let stop := dimUnit new dim start
  if start = stop then .ok (Float64.lit 1) else uc d start stop

def mergeUnits (old : Option (Value F)) (new : Value F) : Result (Value F) := do
  let new ← canonicalizeUnitsObject d new
  let base : JsonMap F :=
    match old.bind Value.asObject with
    | some m => m
    | none => (defaultConUnits.asObject).getD []
  return .object (((new.asObject).getD []).foldl (fun out kv => JsonMap.insert out kv.1 kv.2) base)

def naturalTimeUnit : String := "(amu*angstrom^2/eV)^0.5"

def conSpecMinor (header : FrameHeader F) : Option UInt64 :=
  (JsonMap.get header.metadata "con_spec_minor").bind Value.asU64

def velocityTimeIsDeclared (header : FrameHeader F) : Bool :=
  header.specVersion > 3 || (header.specVersion == 3 && (conSpecMinor header).getD 0 ≥ 1)

def declaredTimeUnit (header : FrameHeader F) : Option String :=
  ((d.unitFor header "time").map trim).filter (· ≠ "")

def positiveTimestep (header : FrameHeader F) : Option F :=
  (d.timestep header).filter fun dt => isFinite dt && Float64.lt (Float64.lit 0) dt

def frameHasClock (header : FrameHeader F) : Bool :=
  (d.time header).isSome || (positiveTimestep d header).isSome

def hasVelocityRows (fr : ConFrame F) : Bool :=
  fr.velocities.length > 0 || fr.atomData.any (fun a => a.velocity.isSome)

def requireDeclaredV31Time (fr : ConFrame F) : Result Unit :=
  if !velocityTimeIsDeclared fr.header || (declaredTimeUnit d fr.header).isSome then .ok ()
  else if frameHasClock d fr.header then
    .error (.message "v3.1 frame has a clock but no units.time (D10)")
  else if hasVelocityRows fr then
    .error (.message "v3.1 frame has velocities but no units.time (D10)")
  else .ok ()

def notOne (x : F) : Bool := !Float64.eq x (Float64.lit 1)

def scaleLattice (lf : F) (m : JsonMap F) : JsonMap F :=
  let scaleCell (c : Value F) : Value F :=
    match c.asF64 with
    | some x => Value.ofF64 (x * lf)
    | none => c
  let scaleRow (row : Value F) : Value F :=
    match row with
    | .array cs => .array (cs.map scaleCell)
    | other => other
  m.map fun kv =>
    if kv.1 == "lattice_vectors" then
      match kv.2 with
      | .array rows => (kv.1, .array (rows.map scaleRow))
      | other => (kv.1, other)
    else kv

def scaleHeader (lf tf ef mf : F) (h : FrameHeader F) : FrameHeader F :=
  let h := if notOne lf then
      { h with boxl := h.boxl.scale lf, metadata := scaleLattice lf h.metadata } else h
  let h := if notOne tf then
      let h := match d.time h with
        | some t => d.setTime h (t * tf)
        | none => h
      match d.timestep h with
        | some dt => d.setTimestep h (dt * tf)
        | none => h
    else h
  let h := if notOne ef then
      match d.energy h with
        | some e => d.setEnergy h (e * ef)
        | none => h
    else h
  if notOne mf then { h with massesPerType := h.massesPerType.map (· * mf) } else h

def scaleAtom (lf vf ff ef : F) (a : AtomDatum F) : AtomDatum F :=
  let a := if notOne lf then { a with x := a.x * lf, y := a.y * lf, z := a.z * lf } else a
  let a := if notOne vf then { a with velocity := a.velocity.map (·.scale vf) } else a
  let a := if notOne ff then { a with force := a.force.map (·.scale ff) } else a
  if notOne ef then { a with energy := a.energy.map (· * ef) } else a

def rescaleFrameUnits (fr : ConFrame F) (newUnits : Value F) : Result (ConFrame F) := do
  requireDeclaredV31Time d fr
  let old := (d.units fr.header).getD defaultConUnits
  let lf ← dimFactor d old newUnits "length" "angstrom"
  let ef ← dimFactor d old newUnits "energy" "eV"
  let tf ← dimFactor d old newUnits "time" "fs"
  let mf ← dimFactor d old newUnits "mass" "amu"
  let velTf := if velocityTimeIsDeclared fr.header then tf else Float64.lit 1
  let vf := lf / velTf
  let ff := ef / lf
  let n := fr.positions.length
  let scaled {α : Type} (k : F) (rows : List α) (f : α → α) : List α :=
    if rows.length = n ∧ notOne k then rows.map f else rows
  return { fr with
    header := scaleHeader d lf tf ef mf fr.header
    positions := scaled lf fr.positions (·.scale lf)
    velocities := scaled vf fr.velocities (·.scale vf)
    forces := scaled ff fr.forces (·.scale ff)
    atomEnergies := scaled ef fr.atomEnergies (· * ef)
    masses := scaled mf fr.masses (· * mf)
    atomData := fr.atomData.mapIdx fun i a => if i < n then scaleAtom lf vf ff ef a else a }

end Units

end ReadconDb
