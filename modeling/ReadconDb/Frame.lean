import ReadconDb.Library.ByteString

namespace ReadconDb

open ByteString

class Float64 (F : Type) extends Add F, Sub F, Mul F, Div F where
  toBits : F → UInt64
  ofBits : UInt64 → F
  eq : F → F → Bool
  lt : F → F → Bool
  abs : F → F
  max : F → F → F
  sqrt : F → F
  cos : F → F
  sin : F → F
  pi : F
  ofInt : Int → F
  lit : ℚ → F
  debug : F → String
  ofBits_toBits : ∀ x, ofBits (toBits x) = x
  toBits_ofBits : ∀ b, toBits (ofBits b) = b

def zeroF64 {F : Type} [Float64 F] : F := Float64.ofBits 0
def infinity {F : Type} [Float64 F] : F := Float64.ofBits 0x7FF0000000000000
def negInfinity {F : Type} [Float64 F] : F := Float64.ofBits 0xFFF0000000000000

def isFinite {F : Type} [Float64 F] (x : F) : Bool :=
  (Float64.toBits x >>> 52) &&& 0x7FF != 0x7FF

def isSignNegative {F : Type} [Float64 F] (x : F) : Bool :=
  Float64.toBits x >>> 63 == 1

structure Vec3 (F : Type) where
  x : F
  y : F
  z : F
  deriving DecidableEq

def Vec3.toList {F : Type} (v : Vec3 F) : List F := [v.x, v.y, v.z]

def Vec3.scale {F : Type} [Mul F] (v : Vec3 F) (k : F) : Vec3 F := ⟨v.x * k, v.y * k, v.z * k⟩

inductive Number (F : Type) where
  | posInt (n : UInt64)
  | negInt (i : Int64)
  | float (x : F)
  deriving DecidableEq

inductive Value (F : Type) where
  | null
  | bool (b : Bool)
  | number (n : Number F)
  | string (s : String)
  | array (xs : List (Value F))
  | object (kvs : List (String × Value F))

-- Without `preserve_order` serde_json keeps an object sorted by key.
abbrev JsonMap (F : Type) := List (String × Value F)

namespace JsonMap

variable {F : Type}

def get (m : JsonMap F) (k : String) : Option (Value F) :=
  (m.find? (fun kv => kv.1 == k)).map Prod.snd

def insert (m : JsonMap F) (k : String) (v : Value F) : JsonMap F :=
  match m with
  | [] => [(k, v)]
  | kv :: rest =>
    if kv.1 == k then (k, v) :: rest
    else if k < kv.1 then (k, v) :: kv :: rest
    else kv :: insert rest k v

end JsonMap

namespace Value

variable {F : Type}

def asObject : Value F → Option (JsonMap F)
  | .object kvs => some kvs
  | _ => none

def asArray : Value F → Option (List (Value F))
  | .array xs => some xs
  | _ => none

def asStr : Value F → Option String
  | .string s => some s
  | _ => none

def asU64 : Value F → Option UInt64
  | .number (.posInt n) => some n
  | _ => none

def asF64 [Float64 F] : Value F → Option F
  | .number (.posInt n) => some (Float64.ofInt n.toNat)
  | .number (.negInt i) => some (Float64.ofInt i.toInt)
  | .number (.float x) => some x
  | _ => none

def ofF64 [Float64 F] (x : F) : Value F :=
  if isFinite x then .number (.float x) else .null

def get (v : Value F) (k : String) : Option (Value F) := v.asObject.bind (fun m => JsonMap.get m k)

section Decide

variable [DecidableEq F]

mutual

def decEq : (v w : Value F) → Decidable (v = w)
  | .null, .null => .isTrue rfl
  | .bool a, .bool b => decidable_of_iff (a = b) (by simp)
  | .number a, .number b => decidable_of_iff (a = b) (by simp)
  | .string a, .string b => decidable_of_iff (a = b) (by simp)
  | .array xs, .array ys =>
    have := decEqList xs ys
    decidable_of_iff (xs = ys) (by simp)
  | .object xs, .object ys =>
    have := decEqPairs xs ys
    decidable_of_iff (xs = ys) (by simp)
  | .null, .bool _ | .null, .number _ | .null, .string _ | .null, .array _ | .null, .object _
  | .bool _, .null | .bool _, .number _ | .bool _, .string _ | .bool _, .array _ | .bool _, .object _
  | .number _, .null | .number _, .bool _ | .number _, .string _ | .number _, .array _
  | .number _, .object _
  | .string _, .null | .string _, .bool _ | .string _, .number _ | .string _, .array _
  | .string _, .object _
  | .array _, .null | .array _, .bool _ | .array _, .number _ | .array _, .string _
  | .array _, .object _
  | .object _, .null | .object _, .bool _ | .object _, .number _ | .object _, .string _
  | .object _, .array _ => .isFalse nofun

def decEqList : (vs ws : List (Value F)) → Decidable (vs = ws)
  | [], [] => .isTrue rfl
  | v :: vs, w :: ws =>
    have := decEq v w
    have := decEqList vs ws
    decidable_of_iff (v = w ∧ vs = ws) (by simp)
  | [], _ :: _ | _ :: _, [] => .isFalse nofun

def decEqPairs : (vs ws : List (String × Value F)) → Decidable (vs = ws)
  | [], [] => .isTrue rfl
  | (k, v) :: vs, (j, w) :: ws =>
    have := decEq v w
    have := decEqPairs vs ws
    decidable_of_iff (k = j ∧ v = w ∧ vs = ws) (by simp [and_assoc])
  | [], _ :: _ | _ :: _, [] => .isFalse nofun

end

instance : DecidableEq (Value F) := decEq

end Decide

end Value

structure FrameHeader (F : Type) where
  specVersion : UInt32
  boxl : Vec3 F
  angles : Vec3 F
  massesPerType : List F
  metadata : JsonMap F
  deriving DecidableEq

structure AtomDatum (F : Type) where
  symbol : String
  x : F
  y : F
  z : F
  velocity : Option (Vec3 F)
  force : Option (Vec3 F)
  energy : Option F
  deriving DecidableEq

-- `rest` holds what readcon-core keeps in a frame and this crate never looks at.
structure ConFrame (F : Type) where
  header : FrameHeader F
  atomData : List (AtomDatum F)
  atomIds : List UInt64
  positions : List (Vec3 F)
  velocities : List (Vec3 F)
  forces : List (Vec3 F)
  atomEnergies : List F
  masses : List F
  rest : Bytes
  deriving DecidableEq

inductive FloatFormat where
  | decimalPlaces (n : Nat)
  | roundTrip
  deriving DecidableEq, Repr

structure FrameIndexProjection (F : Type) where
  nAtoms : UInt32
  speciesCounts : List (String × UInt32)
  formula : String
  energy : Option F
  hasForces : Bool
  fmax : Option F
  hasVelocities : Bool
  totalMass : Option F
  cellVolume : Option F
  pbc : Option (Bool × Bool × Bool)
  time : Option F
  timestep : Option F
  frameIndex : Option F
  nebBead : Option F
  nebBand : Option F
  charge : Option F
  magmom : Option F

-- The crates this one calls: readcon-core, serde_json's text for a float, zstd and xxhash-rust.
structure Crates (F : Type) where
  conFrames : String → List (Except String (ConFrame F × String))
  frameStartOffsets : String → List Nat
  defaultFormat : FloatFormat
  writeFrame : FloatFormat → ConFrame F → Except String Bytes
  fromFrame : ConFrame F → FrameIndexProjection F
  frameSpeciesCounts : ConFrame F → List (String × UInt32)
  compositionFormula : List (String × UInt32) → String
  finiteEnergy : ConFrame F → Option F
  frameHasForces : ConFrame F → Bool
  frameHasVelocities : ConFrame F → Bool
  frameFmax : ConFrame F → Option F
  frameTotalMass : ConFrame F → Option F
  frameCellVolume : ConFrame F → Option F
  pbc : FrameHeader F → Option (Bool × Bool × Bool)
  units : FrameHeader F → Option (Value F)
  setUnits : FrameHeader F → Value F → FrameHeader F
  unitFor : FrameHeader F → String → Option String
  time : FrameHeader F → Option F
  setTime : FrameHeader F → F → FrameHeader F
  timestep : FrameHeader F → Option F
  setTimestep : FrameHeader F → F → FrameHeader F
  energy : FrameHeader F → Option F
  setEnergy : FrameHeader F → F → FrameHeader F
  unitConversionFactor : String → String → Except String F
  symbolToAtomicNumber : String → UInt64
  jsonF64 : F → Option F
  zstdEncode : Bytes → Except String Bytes
  zstdDecode : Bytes → Except String Bytes
  xxh3_128 : Bytes → BitVec 128

end ReadconDb
