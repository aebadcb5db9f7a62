import ReadconDb.Maintain
import ReadconDb.UnitRewrite

set_option linter.unusedSectionVars false

namespace ReadconDb

open ByteString Outcome TwoPhase

section Dimensions

inductive Dim where
  | length
  | energy
  | time
  | mass
  deriving DecidableEq

def Dim.key : Dim → String
  | .length => "length"
  | .energy => "energy"
  | .time => "time"
  | .mass => "mass"

def Dim.conUnit : Dim → String
  | .length => "angstrom"
  | .energy => "eV"
  | .time => "fs"
  | .mass => "amu"

def conUnit (key : String) : Option String :=
  ([Dim.length, .energy, .time, .mass].find? fun a => a.key == key).map Dim.conUnit

theorem conUnit_key (a : Dim) : conUnit a.key = some a.conUnit := by cases a <;> rfl

variable {F : Type} [Float64 F] (d : Crates F)

def labelIn (u : Value F) (key : String) : Option String := (u.get key).bind Value.asStr

def frameLabel (h : FrameHeader F) (key : String) : Option String := (d.units h).bind fun u => labelIn u key

def Dim.unitIn (a : Dim) (h : FrameHeader F) : String := (frameLabel d h a.key).getD a.conUnit

def quotientUnit (num den : String) : String :=
  num ++ " / " ++ if den.toList.all isAtomChar then den else "(" ++ den ++ ")"

-- Quantities without a CON default of their own are in the units of the dimensions (D10 for early velocities).
def derivedUnit (h : FrameHeader F) (key : String) : Option String :=
  if key = "velocity" then
    some (quotientUnit (Dim.length.unitIn d h) (if velocityTimeIsDeclared h then Dim.time.unitIn d h else naturalTimeUnit))
  else if key = "force" then some (quotientUnit (Dim.energy.unitIn d h) (Dim.length.unitIn d h))
  else if key = "timestep" then some (Dim.time.unitIn d h)
  else if key = "lattice_vectors" then some (Dim.length.unitIn d h)
  else none

-- Any other header number has a unit only where it is labelled: CON has no default for a charge or a moment.
def effectiveUnit (h : FrameHeader F) (key : String) : Option String :=
  (frameLabel d h key).or ((conUnit key).or (derivedUnit d h key))

def Relabels (h : FrameHeader F) (merged : Value F) (key start stop : String) : Prop :=
  effectiveUnit d h key = some start ∧ labelIn merged key = some stop ∧ start ≠ stop

def FactorOf (h : FrameHeader F) (merged : Value F) (a : Dim) (x : F) : Prop :=
  (∃ start stop, Relabels d h merged a.key start stop ∧ d.unitConversionFactor start stop = .ok x) ∨
    (∀ start stop, ¬ Relabels d h merged a.key start stop) ∧ x = Float64.lit 1

def scaleBy (k x : F) : F := if notOne k then x * k else x

def Vec3.by (k : F) (v : Vec3 F) : Vec3 F := ⟨scaleBy k v.x, scaleBy k v.y, scaleBy k v.z⟩

def cellBy (k : F) (c : Value F) : Value F :=
  match c.asF64 with
  | some x => if notOne k then Value.ofF64 (x * k) else c
  | none => c

def latticeBy (k : F) (v : Value F) : Value F :=
  match v with
  | .array rows => .array (rows.map fun row =>
      match row with
      | .array cs => .array (cs.map (cellBy k))
      | other => other)
  | other => other

def AtomDatum.by (length velocity force energy : F) (a : AtomDatum F) : AtomDatum F :=
  { a with
    x := scaleBy length a.x, y := scaleBy length a.y, z := scaleBy length a.z
    velocity := a.velocity.map (Vec3.by velocity)
    force := a.force.map (Vec3.by force)
    energy := a.energy.map (scaleBy energy) }

inductive HeaderNumber where
  | time
  | timestep
  | energy
  deriving DecidableEq

namespace HeaderNumber

def read : HeaderNumber → FrameHeader F → Option F
  | .time => d.time
  | .timestep => d.timestep
  | .energy => d.energy

def write : HeaderNumber → FrameHeader F → F → FrameHeader F
  | .time => d.setTime
  | .timestep => d.setTimestep
  | .energy => d.setEnergy

def dim : HeaderNumber → Dim
  | .time | .timestep => .time
  | .energy => .energy

def key : HeaderNumber → String
  | .time => "time"
  | .timestep => "timestep"
  | .energy => "energy"

-- What the header reads once the product is written; JSON holds no number that is not finite.
def scaled (a : HeaderNumber) (h : FrameHeader F) (k x : F) : Option F :=
  if notOne k then a.read d (a.write d h (x * k)) else some x

end HeaderNumber

-- The header's named numbers: each is read off the metadata, and writing one leaves all else as it was.
structure HeaderLaws (d : Crates F) : Prop where
  reads_back : ∀ (a : HeaderNumber) h x, isFinite x = true → a.read d (a.write d h x) = some x
  reads_own : ∀ (a : HeaderNumber) h h' x, a.read d (a.write d h x) = a.read d (a.write d h' x)
  reads_other : ∀ (a b : HeaderNumber) h x, a ≠ b → a.read d (b.write d h x) = a.read d h
  reads_metadata : ∀ (a : HeaderNumber) h h',
    (∀ key, key ≠ "lattice_vectors" → JsonMap.get h.metadata key = JsonMap.get h'.metadata key) → a.read d h = a.read d h'
  keeps_boxl : ∀ (a : HeaderNumber) h x, (a.write d h x).boxl = h.boxl
  keeps_masses : ∀ (a : HeaderNumber) h x, (a.write d h x).massesPerType = h.massesPerType
  keeps_metadata : ∀ (a : HeaderNumber) h x key, key ≠ a.key →
    JsonMap.get (a.write d h x).metadata key = JsonMap.get h.metadata key

-- The parser fills an array with one row an atom, or leaves it empty.
structure Aligned (fr : ConFrame F) : Prop where
  atoms : fr.atomData.length = fr.positions.length
  velocities : fr.velocities = [] ∨ fr.velocities.length = fr.positions.length
  forces : fr.forces = [] ∨ fr.forces.length = fr.positions.length
  energies : fr.atomEnergies = [] ∨ fr.atomEnergies.length = fr.positions.length
  masses : fr.masses = [] ∨ fr.masses.length = fr.positions.length

-- A velocity is a length over a time, but where the time label is no velocity unit (D10); a force is an energy over a length.
def velocityFactor (h : FrameHeader F) (k : Dim → F) : F :=
  k .length / (if velocityTimeIsDeclared h then k .time else Float64.lit 1)

def forceFactor (k : Dim → F) : F := k .energy / k .length

structure Rescaled (k : Dim → F) (fr fr' : ConFrame F) : Prop where
  box : fr'.header.boxl = fr.header.boxl.by (k .length)
  lattice : JsonMap.get fr'.header.metadata "lattice_vectors" =
    (JsonMap.get fr.header.metadata "lattice_vectors").map (latticeBy (k .length))
  metadata : ∀ key, key ≠ "lattice_vectors" → (∀ a : HeaderNumber, key ≠ a.key) →
    JsonMap.get fr'.header.metadata key = JsonMap.get fr.header.metadata key
  named : ∀ (a : HeaderNumber) x, a.read d fr.header = some x → isFinite (scaleBy (k a.dim) x) = true →
    a.read d fr'.header = some (scaleBy (k a.dim) x)
  unnamed : ∀ a : HeaderNumber, a.read d fr.header = none → a.read d fr'.header = none
  massesPerType : fr'.header.massesPerType = fr.header.massesPerType.map (scaleBy (k .mass))
  positions : fr'.positions = fr.positions.map (Vec3.by (k .length))
  velocities : fr'.velocities = fr.velocities.map (Vec3.by (velocityFactor fr.header k))
  forces : fr'.forces = fr.forces.map (Vec3.by (forceFactor k))
  atomEnergies : fr'.atomEnergies = fr.atomEnergies.map (scaleBy (k .energy))
  masses : fr'.masses = fr.masses.map (scaleBy (k .mass))
  atoms : fr'.atomData = fr.atomData.map
    (AtomDatum.by (k .length) (velocityFactor fr.header k) (forceFactor k) (k .energy))

def rowsOfAtoms (rows : List (Vec3 F)) (row : AtomDatum F → Option (Vec3 F)) (atoms : List (AtomDatum F)) : List F :=
  (rows ++ atoms.filterMap row).flatMap Vec3.toList

namespace Value

mutual

def numbers : Value F → List F
  | .array xs => numbersList xs
  | .object kvs => numbersPairs kvs
  | v => v.asF64.toList

def numbersList : List (Value F) → List F
  | [] => []
  | v :: vs => numbers v ++ numbersList vs

def numbersPairs : List (String × Value F) → List F
  | [] => []
  | (_, v) :: kvs => numbers v ++ numbersPairs kvs

end

def cells : Value F → List F
  | .array rows => rows.flatMap fun row =>
      match row with
      | .array cs => cs.filterMap asF64
      | _ => []
  | _ => []

end Value

def metadataNumbers (read : Value F → List F) (h : FrameHeader F) (key : String) : List F :=
  ((JsonMap.get h.metadata key).map read).getD []

-- A key without rows of its own names what the header holds under it: `charge` and `magmom` among them.
def numbersUnder (key : String) (fr : ConFrame F) : List F :=
  if key = "velocity" then rowsOfAtoms fr.velocities AtomDatum.velocity fr.atomData
  else if key = "force" then rowsOfAtoms fr.forces AtomDatum.force fr.atomData
  else if key = "timestep" then (d.timestep fr.header).toList
  else if key = "lattice_vectors" then metadataNumbers Value.cells fr.header key
  else metadataNumbers Value.numbers fr.header key

structure Honest (fr : ConFrame F) (merged : Value F) (fr' : ConFrame F) : Prop where
  dimensions : ∃ k : Dim → F, (∀ a, FactorOf d fr.header merged a (k a)) ∧ Rescaled d k fr fr'
  others : ∀ key start stop, conUnit key = none → Relabels d fr.header merged key start stop →
    List.Forall₂ (fun x y => ∃ k, d.unitConversionFactor start stop = .ok k ∧ y = scaleBy k x)
      (numbersUnder d key fr) (numbersUnder d key fr')

end Dimensions

section Rescaling

variable {F : Type} [Float64 F] {d : Crates F} {fr fr' : ConFrame F} {merged : Value F}

def oldUnits (d : Crates F) (h : FrameHeader F) : Value F := (d.units h).getD defaultConUnits

theorem dimUnit_oldUnits (h : FrameHeader F) (a : Dim) :
    effectiveUnit d h a.key = some (dimUnit (oldUnits d h) a.key a.conUnit) := by
  rw [effectiveUnit, conUnit_key, oldUnits, dimUnit, frameLabel]
  cases hu : d.units h with
  | none => cases a <;> rfl
  | some u =>
    rw [Option.bind_some, labelIn, Option.getD_some]
    cases (u.get a.key).bind Value.asStr <;> rfl

theorem dimFactor_eq_ok {h : FrameHeader F} {a : Dim} {x : F} :
    dimFactor d (oldUnits d h) merged a.key a.conUnit = .ok x ↔ FactorOf d h merged a x := by
  have hstart := dimUnit_oldUnits (d := d) h a
  have hrelabels {start stop : String} : Relabels d h merged a.key start stop ↔
      start = dimUnit (oldUnits d h) a.key a.conUnit ∧ labelIn merged a.key = some stop ∧ start ≠ stop := by
    rw [Relabels, hstart, Option.some.injEq, eq_comm]
  rw [dimFactor, FactorOf]
  generalize dimUnit (oldUnits d h) a.key a.conUnit = start at hrelabels
  have hstop : dimUnit merged a.key start = (labelIn merged a.key).getD start := rfl
  simp only [hstop, hrelabels]
  cases hl : labelIn merged a.key with
  | none => simp [eq_comm]
  | some stop =>
    rw [Option.getD_some]
    by_cases hs : start = stop
    · simp [hs, eq_comm]
    · rw [if_neg hs, uc]
      cases hf : d.unitConversionFactor start stop <;> simp [hs, hf]

def rescaledFrame (d : Crates F) (k : Dim → F) (fr : ConFrame F) : ConFrame F :=
  { fr with
    header := scaleHeader d (k .length) (k .time) (k .energy) (k .mass) fr.header
    positions := if fr.positions.length = fr.positions.length ∧ notOne (k .length) then
      fr.positions.map (·.scale (k .length)) else fr.positions
    velocities := if fr.velocities.length = fr.positions.length ∧ notOne (velocityFactor fr.header k) then
      fr.velocities.map (·.scale (velocityFactor fr.header k)) else fr.velocities
    forces := if fr.forces.length = fr.positions.length ∧ notOne (forceFactor k) then
      fr.forces.map (·.scale (forceFactor k)) else fr.forces
    atomEnergies := if fr.atomEnergies.length = fr.positions.length ∧ notOne (k .energy) then
      fr.atomEnergies.map (· * k .energy) else fr.atomEnergies
    masses := if fr.masses.length = fr.positions.length ∧ notOne (k .mass) then
      fr.masses.map (· * k .mass) else fr.masses
    atomData := fr.atomData.mapIdx fun i a => if i < fr.positions.length then
      scaleAtom (k .length) (velocityFactor fr.header k) (forceFactor k) (k .energy) a else a }

theorem rescale_eq_ok : rescaleFrameUnits d fr merged = .ok fr' ↔ requireDeclaredV31Time d fr = .ok () ∧
    ∃ k : Dim → F, (∀ a, FactorOf d fr.header merged a (k a)) ∧ fr' = rescaledFrame d k fr := by
  rw [rescaleFrameUnits]
  simp only [← dimFactor_eq_ok, oldUnits, bind_eq_ok, -eq_self]
  constructor
  · rintro ⟨_, hreq, lf, hl, ef, he, tf, ht, mf, hm, hfr⟩
    refine ⟨hreq, fun | .length => lf | .energy => ef | .time => tf | .mass => mf, ?_, (Except.ok.inj hfr).symm⟩
    rintro (_ | _ | _ | _)
    · exact hl
    · exact he
    · exact ht
    · exact hm
  · rintro ⟨hreq, k, hk, rfl⟩
    exact ⟨(), hreq, _, hk .length, _, hk .energy, _, hk .time, _, hk .mass, rfl⟩

theorem scaleBy_one {k : F} (h : notOne k = false) (x : F) : scaleBy k x = x := by
  rw [scaleBy, if_neg (by simp [h])]

theorem scaleBy_ne {k : F} (h : notOne k = true) (x : F) : scaleBy k x = x * k := by rw [scaleBy, if_pos h]

theorem by_one {k : F} (h : notOne k = false) (v : Vec3 F) : v.by k = v := by
  rw [Vec3.by, scaleBy_one h, scaleBy_one h, scaleBy_one h]

theorem by_ne {k : F} (h : notOne k = true) (v : Vec3 F) : v.by k = v.scale k := by
  rw [Vec3.by, scaleBy_ne h, scaleBy_ne h, scaleBy_ne h, Vec3.scale]

theorem scaled_rows {α : Type} {rows : List α} {n : Nat} {k : F} {f g : α → α} (h : rows = [] ∨ rows.length = n)
    (hf : notOne k = true → ∀ r, g r = f r) (hg : notOne k = false → ∀ r, g r = r) :
    (if rows.length = n ∧ notOne k then rows.map f else rows) = rows.map g := by
  rcases h with rfl | h
  · simp
  · cases hk : notOne k with
    | true => rw [if_pos ⟨h, rfl⟩, List.map_congr_left fun r _ => hf hk r]
    | false => rw [if_neg (by simp), List.map_congr_left fun r _ => hg hk r, List.map_id']

theorem scaleAtom_eq (lf vf ff ef : F) (a : AtomDatum F) : scaleAtom lf vf ff ef a = a.by lf vf ff ef := by
  rw [scaleAtom, AtomDatum.by]
  have hvec (k : F) (v : Option (Vec3 F)) : v.map (Vec3.by k) = if notOne k then v.map (·.scale k) else v := by
    cases hk : notOne k with
    | true => simp only [if_true, funext fun v => by_ne hk v]
    | false => simp [funext fun v => by_one hk v]
  have hnum (k : F) (v : Option F) : v.map (scaleBy k) = if notOne k then v.map (· * k) else v := by
    cases hk : notOne k with
    | true => simp only [if_true, funext fun v => scaleBy_ne hk v]
    | false => simp [funext fun v => scaleBy_one hk v]
  simp only [hvec, hnum, scaleBy]
  cases notOne lf <;> cases notOne vf <;> cases notOne ff <;> cases notOne ef <;> rfl

def boxStep (k : F) (h : FrameHeader F) : FrameHeader F :=
  if notOne k then { h with boxl := h.boxl.scale k, metadata := scaleLattice k h.metadata } else h

def numberStep (d : Crates F) (a : HeaderNumber) (k : F) (h : FrameHeader F) : FrameHeader F :=
  if notOne k then
    match a.read d h with
    | some x => a.write d h (x * k)
    | none => h
  else h

def massStep (k : F) (h : FrameHeader F) : FrameHeader F :=
  if notOne k then { h with massesPerType := h.massesPerType.map (· * k) } else h

theorem scaleHeader_eq (lf tf ef mf : F) (h : FrameHeader F) : scaleHeader d lf tf ef mf h =
    massStep mf (numberStep d .energy ef (numberStep d .timestep tf (numberStep d .time tf (boxStep lf h)))) := by
  unfold scaleHeader massStep numberStep boxStep
  cases notOne tf <;> rfl

theorem find_mapped (m : JsonMap F) (f : String × Value F → Value F) (key : String) :
    (m.map fun kv => (kv.1, f kv)).find? (fun kv => kv.1 == key) =
      (m.find? fun kv => kv.1 == key).map fun kv => (kv.1, f kv) := by
  rw [List.find?_map]
  rfl

theorem get_scaleLattice {k : F} (hk : notOne k = true) (m : JsonMap F) (key : String) :
    JsonMap.get (scaleLattice k m) key =
      if key = "lattice_vectors" then (JsonMap.get m key).map (latticeBy k) else JsonMap.get m key := by
  have hcell (c : Value F) : (match c.asF64 with
      | some x => Value.ofF64 (x * k)
      | none => c) = cellBy k c := by
    rw [cellBy]
    cases c.asF64 with
    | none => rfl
    | some x => exact (if_pos hk).symm
  have hentry : scaleLattice k m = m.map fun kv =>
      (kv.1, if kv.1 = "lattice_vectors" then latticeBy k kv.2 else kv.2) := by
    rw [scaleLattice]
    refine List.map_congr_left fun kv _ => ?_
    obtain ⟨name, v⟩ := kv
    by_cases hname : name = "lattice_vectors"
    · subst hname
      simp only [BEq.rfl, if_true]
      cases v with
      | array rows =>
        refine congrArg (fun rows => ("lattice_vectors", Value.array rows)) (List.map_congr_left fun row _ => ?_)
        cases row with
        | array cs => exact congrArg Value.array (List.map_congr_left fun c _ => hcell c)
        | _ => rfl
      | _ => rfl
    · simp [hname]
  rw [hentry, JsonMap.get, JsonMap.get, find_mapped]
  cases hf : m.find? fun kv => kv.1 == key with
  | none => simp
  | some kv =>
    have hkey : kv.1 = key := by simpa using List.find?_some hf
    by_cases hl : key = "lattice_vectors" <;> simp [hkey, hl]

theorem latticeBy_one {k : F} (h : notOne k = false) (v : Value F) : latticeBy k v = v := by
  have hcell (c : Value F) : cellBy k c = c := by
    rw [cellBy]
    cases c.asF64 with
    | none => rfl
    | some x => exact if_neg (by simp [h])
  cases v with
  | array rows =>
    rw [latticeBy, Value.array.injEq]
    refine List.map_id'' (fun row => ?_) rows
    cases row with
    | array cs => exact congrArg Value.array (List.map_id'' hcell cs)
    | _ => rfl
  | _ => rfl

section Header

variable (laws : HeaderLaws d)

theorem boxStep_spec (k : F) (h : FrameHeader F) : (boxStep k h).boxl = h.boxl.by k ∧
    (boxStep k h).massesPerType = h.massesPerType ∧
    JsonMap.get (boxStep k h).metadata "lattice_vectors" =
      (JsonMap.get h.metadata "lattice_vectors").map (latticeBy k) ∧
    ∀ key, key ≠ "lattice_vectors" → JsonMap.get (boxStep k h).metadata key = JsonMap.get h.metadata key := by
  rw [boxStep]
  cases hk : notOne k with
  | true =>
    rw [if_pos rfl]
    refine ⟨(by_ne hk _).symm, rfl, ?_, fun key hkey => ?_⟩
    · rw [get_scaleLattice hk, if_pos rfl]
    · rw [get_scaleLattice hk, if_neg hkey]
  | false =>
    rw [if_neg (by simp)]
    refine ⟨(by_one hk _).symm, rfl, ?_, fun key _ => rfl⟩
    rw [funext fun v => latticeBy_one hk v, Option.map_id']

include laws

theorem numberStep_keeps (a : HeaderNumber) (k : F) (h : FrameHeader F) : (numberStep d a k h).boxl = h.boxl ∧
    (numberStep d a k h).massesPerType = h.massesPerType ∧
    ∀ key, key ≠ a.key → JsonMap.get (numberStep d a k h).metadata key = JsonMap.get h.metadata key := by
  rw [numberStep]
  split
  · split
    · exact ⟨laws.keeps_boxl a h _, laws.keeps_masses a h _, laws.keeps_metadata a h _⟩
    · exact ⟨rfl, rfl, fun _ _ => rfl⟩
  · exact ⟨rfl, rfl, fun _ _ => rfl⟩

theorem numberStep_other {a b : HeaderNumber} (hab : a ≠ b) (k : F) (h : FrameHeader F) :
    a.read d (numberStep d b k h) = a.read d h := by
  rw [numberStep]
  split
  · split
    · exact laws.reads_other a b h _ hab
    · rfl
  · rfl

theorem numberStep_own (a : HeaderNumber) (k : F) (h h' : FrameHeader F) :
    a.read d (numberStep d a k h) = (a.read d h).bind (a.scaled d h' k) := by
  rw [numberStep]
  cases hx : a.read d h with
  | none => split <;> exact hx
  | some x =>
    rw [Option.bind_some, HeaderNumber.scaled]
    split
    · exact laws.reads_own a h h' _
    · exact hx

theorem scaled_finite {a : HeaderNumber} {k x : F} (h : FrameHeader F) (hfin : isFinite (scaleBy k x) = true) :
    a.scaled d h k x = some (scaleBy k x) := by
  rw [HeaderNumber.scaled]
  cases hk : notOne k with
  | true =>
    rw [scaleBy_ne hk] at hfin ⊢
    exact (if_pos rfl).trans (laws.reads_back a h _ hfin)
  | false => simp [scaleBy_one hk]

def numberSteps (d : Crates F) (k : Dim → F) (as : List HeaderNumber) (h : FrameHeader F) : FrameHeader F :=
  as.foldl (fun h a => numberStep d a (k a.dim) h) h

theorem numberSteps_keeps (k : Dim → F) (as : List HeaderNumber) (h : FrameHeader F) :
    (numberSteps d k as h).boxl = h.boxl ∧ (numberSteps d k as h).massesPerType = h.massesPerType ∧
    ∀ key, (∀ a ∈ as, key ≠ a.key) → JsonMap.get (numberSteps d k as h).metadata key = JsonMap.get h.metadata key := by
  induction as generalizing h with
  | nil => exact ⟨rfl, rfl, fun _ _ => rfl⟩
  | cons a as ih =>
    obtain ⟨hbox, hmass, hmeta⟩ := numberStep_keeps laws a (k a.dim) h
    obtain ⟨hbox', hmass', hmeta'⟩ := ih (numberStep d a (k a.dim) h)
    refine ⟨hbox'.trans hbox, hmass'.trans hmass, fun key hkey => ?_⟩
    obtain ⟨ha, has⟩ := List.forall_mem_cons.mp hkey
    exact (hmeta' key has).trans (hmeta key ha)

theorem numberSteps_other {a : HeaderNumber} (k : Dim → F) {as : List HeaderNumber} (ha : a ∉ as) (h : FrameHeader F) :
    a.read d (numberSteps d k as h) = a.read d h := by
  induction as generalizing h with
  | nil => rfl
  | cons b as ih =>
    have hrest := ih (fun h => ha (List.mem_cons_of_mem _ h)) (numberStep d b (k b.dim) h)
    have hab : a ≠ b := fun hab => ha (List.mem_cons.mpr (.inl hab))
    exact hrest.trans (numberStep_other laws hab (k b.dim) h)

theorem numberSteps_own {a : HeaderNumber} {k : Dim → F} {as : List HeaderNumber} (ha : a ∈ as) (hn : as.Nodup)
    (h h' : FrameHeader F) : a.read d (numberSteps d k as h) = (a.read d h).bind (a.scaled d h' (k a.dim)) := by
  induction as generalizing h with
  | nil => cases ha
  | cons b as ih =>
    obtain ⟨hb, hn⟩ := List.nodup_cons.mp hn
    by_cases hab : a = b
    · subst hab
      exact (numberSteps_other laws k hb _).trans (numberStep_own laws a (k a.dim) h h')
    · have hrest := ih ((List.mem_cons.mp ha).resolve_left hab) hn (numberStep d b (k b.dim) h)
      rw [numberStep_other laws hab] at hrest
      exact hrest

omit laws in
theorem massStep_spec (k : F) (h : FrameHeader F) : (massStep k h).boxl = h.boxl ∧ (massStep k h).metadata = h.metadata ∧
    (massStep k h).massesPerType = h.massesPerType.map (scaleBy k) := by
  rw [massStep]
  cases hk : notOne k with
  | true =>
    rw [if_pos rfl]
    exact ⟨rfl, rfl, List.map_congr_left fun x _ => (scaleBy_ne hk x).symm⟩
  | false =>
    rw [if_neg (by simp)]
    refine ⟨rfl, rfl, ?_⟩
    rw [funext fun x => scaleBy_one hk x, List.map_id']

end Header

theorem rescaledFrame_header (k : Dim → F) (fr : ConFrame F) : (rescaledFrame d k fr).header =
    massStep (k .mass) (numberSteps d k [.time, .timestep, .energy] (boxStep (k .length) fr.header)) :=
  scaleHeader_eq _ _ _ _ fr.header

theorem rescaledFrame_read (laws : HeaderLaws d) (k : Dim → F) (a : HeaderNumber) (fr : ConFrame F) :
    a.read d (rescaledFrame d k fr).header = (a.read d fr.header).bind (a.scaled d fr.header (k a.dim)) := by
  obtain ⟨_, _, _, hmeta⟩ := boxStep_spec (k .length) fr.header
  obtain ⟨_, hmeta3, _⟩ := massStep_spec (k .mass)
    (numberSteps d k [.time, .timestep, .energy] (boxStep (k .length) fr.header))
  calc a.read d (rescaledFrame d k fr).header
      = a.read d (numberSteps d k [.time, .timestep, .energy] (boxStep (k .length) fr.header)) :=
        laws.reads_metadata a _ _ fun key _ => by rw [rescaledFrame_header, hmeta3]
    _ = (a.read d (boxStep (k .length) fr.header)).bind (a.scaled d fr.header (k a.dim)) :=
        numberSteps_own laws (by cases a <;> simp) (by decide) _ _
    _ = (a.read d fr.header).bind (a.scaled d fr.header (k a.dim)) := by
        rw [laws.reads_metadata a _ _ hmeta]

theorem rescaledFrame_spec (laws : HeaderLaws d) (ha : Aligned fr) (k : Dim → F) :
    Rescaled d k fr (rescaledFrame d k fr) := by
  obtain ⟨hbox, hmass, hlat, hmeta⟩ := boxStep_spec (k .length) fr.header
  obtain ⟨hbox2, hmass2, hmeta2⟩ := numberSteps_keeps laws k [.time, .timestep, .energy] (boxStep (k .length) fr.header)
  obtain ⟨hbox3, hmeta3, hmass3⟩ := massStep_spec (k .mass)
    (numberSteps d k [.time, .timestep, .energy] (boxStep (k .length) fr.header))
  have hrows {rows : List (Vec3 F)} {n : Nat} (c : F) (h : rows = [] ∨ rows.length = n) :
      (if rows.length = n ∧ notOne c then rows.map (·.scale c) else rows) = rows.map (Vec3.by c) :=
    scaled_rows h (fun hc v => by_ne hc v) fun hc v => by_one hc v
  have hnums {xs : List F} {n : Nat} (c : F) (h : xs = [] ∨ xs.length = n) :
      (if xs.length = n ∧ notOne c then xs.map (· * c) else xs) = xs.map (scaleBy c) :=
    scaled_rows h (fun hc x => scaleBy_ne hc x) fun hc x => scaleBy_one hc x
  constructor
  · rw [rescaledFrame_header, hbox3, hbox2, hbox]
  · rw [rescaledFrame_header, hmeta3, hmeta2 _ (by decide), hlat]
  · intro key hkey hnamed
    rw [rescaledFrame_header, hmeta3, hmeta2 _ fun a _ => hnamed a, hmeta key hkey]
  · intro a x hx hfin
    rw [rescaledFrame_read laws, hx, Option.bind_some, scaled_finite laws _ hfin]
  · intro a hx
    rw [rescaledFrame_read laws, hx, Option.bind_none]
  · rw [rescaledFrame_header, hmass3, hmass2, hmass]
  · exact hrows _ (.inr rfl)
  · exact hrows _ ha.velocities
  · exact hrows _ ha.forces
  · exact hnums _ ha.energies
  · exact hnums _ ha.masses
  · refine List.ext_getElem? fun i => ?_
    rw [rescaledFrame, List.getElem?_mapIdx, List.getElem?_map]
    cases hi : fr.atomData[i]? with
    | none => rfl
    | some a =>
      have hlt := (List.getElem?_eq_some_iff.mp hi).1
      rw [ha.atoms] at hlt
      simp only [Option.map_some, if_pos hlt, scaleAtom_eq]

def cellScaled (k x : F) : Option F := (cellBy k (.number (.float x))).asF64

-- What the code makes of a number under a further key; nothing is left of a product that JSON cannot hold.
def scaledUnder (d : Crates F) (h : FrameHeader F) (k : Dim → F) (key : String) (x : F) : Option F :=
  if key = "velocity" then some (scaleBy (velocityFactor h k) x)
  else if key = "force" then some (scaleBy (forceFactor k) x)
  else if key = "timestep" then HeaderNumber.timestep.scaled d h (k .time) x
  else if key = "lattice_vectors" then cellScaled (k .length) x
  else some x

theorem rowsOfAtoms_scaled {c : F} {rows rows' : List (Vec3 F)} {row : AtomDatum F → Option (Vec3 F)}
    {atoms : List (AtomDatum F)} {f : AtomDatum F → AtomDatum F} (hrows : rows' = rows.map (Vec3.by c))
    (hf : ∀ a, row (f a) = (row a).map (Vec3.by c)) :
    rowsOfAtoms rows' row (atoms.map f) = (rowsOfAtoms rows row atoms).map (scaleBy c) := by
  have hfun : row ∘ f = fun a => (row a).map (Vec3.by c) := funext hf
  rw [rowsOfAtoms, rowsOfAtoms, hrows, List.filterMap_map, hfun, ← List.map_filterMap, ← List.map_append,
    List.flatMap_map, List.map_flatMap]
  rfl

theorem cellBy_scaled (k : F) (c : Value F) : (cellBy k c).asF64 = c.asF64.bind (cellScaled k) := by
  rw [cellBy]
  cases hc : c.asF64 with
  | none => exact hc
  | some x =>
    have hx : (Value.number (.float x)).asF64 = some x := rfl
    rw [Option.bind_some, cellScaled, cellBy, hx]
    by_cases hk : notOne k
    · simp only [hk, if_true]
    · simp only [hk]
      exact hc

theorem latticeBy_cells (k : F) (v : Value F) : (latticeBy k v).cells = v.cells.filterMap (cellScaled k) := by
  cases v with
  | array rows =>
    rw [latticeBy, Value.cells, Value.cells, List.flatMap_map, List.filterMap_flatMap]
    refine List.flatMap_congr fun row _ => ?_
    cases row with
    | array cs => simp only [List.filterMap_map, List.filterMap_filterMap, Function.comp_def, cellBy_scaled]
    | _ => rfl
  | _ => rfl

theorem numbersUnder_rescaled (laws : HeaderLaws d) (ha : Aligned fr) (k : Dim → F) {key : String}
    (hkey : conUnit key = none) : numbersUnder d key (rescaledFrame d k fr) =
      (numbersUnder d key fr).filterMap (scaledUnder d fr.header k key) := by
  have h := rescaledFrame_spec laws ha k
  have hdim (a : Dim) : key ≠ a.key := by
    rintro rfl
    rw [conUnit_key] at hkey
    cases hkey
  rw [numbersUnder, numbersUnder, funext (scaledUnder.eq_1 d fr.header k key)]
  split
  · rw [List.filterMap_eq_map', h.atoms]
    exact rowsOfAtoms_scaled h.velocities fun a => rfl
  · split
    · rw [List.filterMap_eq_map', h.atoms]
      exact rowsOfAtoms_scaled h.forces fun a => rfl
    · split
      · have hread : d.timestep (rescaledFrame d k fr).header =
            (d.timestep fr.header).bind (HeaderNumber.timestep.scaled d fr.header (k .time)) :=
          rescaledFrame_read laws k .timestep fr
        rw [hread]
        cases d.timestep fr.header with
        | none => rfl
        | some x => cases hx : HeaderNumber.timestep.scaled d fr.header (k .time) x <;> simp [hx]
      · next htimestep =>
        split
        · next hlattice =>
          rw [metadataNumbers, metadataNumbers, hlattice, h.lattice]
          cases JsonMap.get fr.header.metadata "lattice_vectors" with
          | none => rfl
          | some v => exact latticeBy_cells _ v
        · next hlattice =>
          have hnamed (a : HeaderNumber) : key ≠ a.key := by
            cases a with
            | time => exact hdim .time
            | timestep => exact htimestep
            | energy => exact hdim .energy
          rw [metadataNumbers, metadataNumbers, h.metadata key hlattice hnamed, List.filterMap_some]

theorem forall₂_filterMap {A B : Type} {R : A → B → Prop} {f : A → Option B} {xs : List A} :
    List.Forall₂ R xs (xs.filterMap f) ↔ ∀ x ∈ xs, ∃ y, f x = some y ∧ R x y := by
  induction xs with
  | nil => simp
  | cons x xs ih =>
    rw [List.forall_mem_cons, ← ih]
    cases hx : f x with
    | none =>
      have hlen : (xs.filterMap f).length ≤ xs.length := List.length_filterMap_le f xs
      rw [List.filterMap_cons_none hx]
      constructor
      · intro h
        have hl := h.length_eq
        rw [List.length_cons] at hl
        omega
      · rintro ⟨⟨y, hy, _⟩, _⟩
        cases hy
    | some y => simp [List.filterMap_cons_some hx]

end Rescaling

section Silence

variable {F : Type} [Float64 F] {d : Crates F} {fr : ConFrame F} {units : Value F}

structure NeverSilent (d : Crates F) (fr : ConFrame F) (units : Value F) : Prop where
  honest : ∀ merged fr', mergeUnits d (d.units fr.header) units = .ok merged →
    rescaleFrameUnits d fr merged = .ok fr' → Honest d fr merged fr'
  failed : ∀ (refused : Option Error) (snap live : ConCorpus F) (t : UInt64) (e : Error),
    (setTrajectoryUnits d refused snap live t units).1 = .error e →
      (setTrajectoryUnits d refused snap live t units).2 = live

-- A further label changes only as the dimensions make it: each number it names becomes what its own factor makes of it.
def FurtherLabelsFollow (d : Crates F) (fr : ConFrame F) (units : Value F) : Prop :=
  requireDeclaredV31Time d fr = .ok () → ∀ merged, mergeUnits d (d.units fr.header) units = .ok merged →
    ∀ k : Dim → F, (∀ a, FactorOf d fr.header merged a (k a)) →
      ∀ key start stop, conUnit key = none → Relabels d fr.header merged key start stop →
        ∀ x ∈ numbersUnder d key fr, ∃ c, d.unitConversionFactor start stop = .ok c ∧
          scaledUnder d fr.header k key x = some (scaleBy c x)

theorem failed_unchanged (refused : Option Error) (snap live : ConCorpus F) (t : UInt64) (e : Error)
    (h : (setTrajectoryUnits d refused snap live t units).1 = .error e) :
    (setTrajectoryUnits d refused snap live t units).2 = live := by
  rw [setTrajectoryUnits] at h ⊢
  rcases call_cases (prepareUnits d snap t units) refused commitUnits live with ⟨e', he⟩ | ⟨p, r, next, _, _, _, hw⟩
  · rw [he]
  · rw [hw] at h
    cases h

theorem never_silent_iff (laws : HeaderLaws d) (ha : Aligned fr) :
    NeverSilent d fr units ↔ FurtherLabelsFollow d fr units := by
  have hothers (k : Dim → F) {key start stop : String} (hkey : conUnit key = none) :
      List.Forall₂ (fun x y => ∃ c, d.unitConversionFactor start stop = .ok c ∧ y = scaleBy c x)
          (numbersUnder d key fr) (numbersUnder d key (rescaledFrame d k fr)) ↔
        ∀ x ∈ numbersUnder d key fr, ∃ c, d.unitConversionFactor start stop = .ok c ∧
          scaledUnder d fr.header k key x = some (scaleBy c x) := by
    rw [numbersUnder_rescaled laws ha k hkey, forall₂_filterMap]
    refine forall₂_congr fun x _ => ⟨?_, ?_⟩
    · rintro ⟨y, hy, c, hc, rfl⟩
      exact ⟨c, hc, hy⟩
    · rintro ⟨c, hc, hy⟩
      exact ⟨_, hy, c, hc, rfl⟩
  constructor
  · intro h hreq merged hm k hk key start stop hkey hrel
    have hhonest := h.honest merged _ hm (rescale_eq_ok.mpr ⟨hreq, k, hk, rfl⟩)
    exact (hothers k hkey).mp (hhonest.others key start stop hkey hrel)
  · intro h
    refine ⟨fun merged fr' hm hfr => ?_, failed_unchanged⟩
    obtain ⟨hreq, k, hk, rfl⟩ := rescale_eq_ok.mp hfr
    exact ⟨⟨k, hk, rescaledFrame_spec laws ha k⟩, fun key start stop hkey hrel =>
      (hothers k hkey).mpr (h hreq merged hm k hk key start stop hkey hrel)⟩

end Silence

section Tiny

theorem get_cons {F : Type} (kv : String × Value F) (m : JsonMap F) (key : String) :
    JsonMap.get (kv :: m) key = if kv.1 = key then some kv.2 else JsonMap.get m key := by
  by_cases h : kv.1 = key <;> simp [JsonMap.get, h]

theorem json_get_insert {F : Type} (m : JsonMap F) (key key' : String) (v : Value F) :
    JsonMap.get (JsonMap.insert m key v) key' = if key = key' then some v else JsonMap.get m key' := by
  induction m with
  | nil => rw [JsonMap.insert, get_cons]
  | cons kv m ih =>
    rw [JsonMap.insert, get_cons]
    by_cases hkv : kv.1 = key
    · rw [if_pos (by simpa using hkv), get_cons, hkv]
      split <;> rfl
    · rw [if_neg (by simpa using hkv)]
      split
      · rw [get_cons, get_cons]
      · rw [get_cons, ih]
        by_cases hk' : kv.1 = key'
        · rw [if_pos hk', if_neg fun h => hkv (hk'.trans h.symm), if_pos hk']
        · rw [if_neg hk', if_neg hk']

def forceUnits (start stop : String) : Except String Bits :=
  if start = stop then .ok .one
  else if start = "eV / angstrom" ∧ stop = "eV / nm" then .ok .ten
  else tinyFactor start stop

def forcing : Crates Bits := { tinyBase with unitConversionFactor := forceUnits }

theorem forcing_read (a : HeaderNumber) (h : FrameHeader Bits) :
    a.read forcing h = (JsonMap.get h.metadata a.key).bind Value.asF64 := by
  cases a <;> rfl

theorem forcing_write (a : HeaderNumber) (h : FrameHeader Bits) (x : Bits) :
    a.write forcing h x = { h with metadata := JsonMap.insert h.metadata a.key (.ofF64 x) } := by
  cases a <;> rfl

theorem forcing_laws : HeaderLaws forcing := by
  have hlattice (a : HeaderNumber) : a.key ≠ "lattice_vectors" := by cases a <;> decide
  constructor
  · intro a h x hfin
    rw [forcing_read, forcing_write, json_get_insert, if_pos rfl, Value.ofF64, if_pos hfin]
    rfl
  · intro a h h' x
    rw [forcing_read, forcing_read, forcing_write, forcing_write, json_get_insert, json_get_insert, if_pos rfl,
      if_pos rfl]
  · intro a b h x hab
    have hne : b.key ≠ a.key := by
      cases a <;> cases b <;> first | exact absurd rfl hab | decide
    rw [forcing_read, forcing_read, forcing_write, json_get_insert, if_neg hne]
  · intro a h h' hsame
    rw [forcing_read, forcing_read, hsame _ (hlattice a)]
  · intro a h x
    rw [forcing_write]
  · intro a h x
    rw [forcing_write]
  · intro a h x key hkey
    rw [forcing_write, json_get_insert, if_neg hkey.symm]

def forced : ConFrame Bits :=
  { tinyFrame "H" .one .ten .massOfH [("charge", .number (.float .one)), ("magmom", .number (.float .ten)),
      ("units", .object [("charge", .string "e"), ("force", .string "eV / angstrom")])] with
    atomData := [⟨"H", .one, .zero, .zero, none, some ⟨.one, .zero, .zero⟩, none⟩]
    forces := [⟨.one, .zero, .zero⟩] }

example : numbersUnder forcing "charge" forced = [.one] ∧ numbersUnder forcing "magmom" forced = [.ten] := by decide

theorem forced_aligned : Aligned forced := ⟨rfl, .inl rfl, .inr rfl, .inl rfl, .inl rfl⟩

def electronvolt : Spelling := ⟨"ev", "eV", by decide, "eV".toList, by decide⟩

def nanometre : Spelling := ⟨"nm", "nm", by decide, "nm".toList, by decide⟩

theorem forcing_accepts (s : String) : ∃ x, forcing.unitConversionFactor s s = .ok x :=
  ⟨.one, if_pos rfl⟩

theorem canonical_nm : canonicalizeUnit forcing "nm" = .ok "nm" := by
  have hs : (UnitExpr.atom nanometre).Spells "nm" := by
    have htext : "nm".toList = [] ++ "nm".toList ++ [] := by decide
    rw [UnitExpr.Spells, htext]
    exact .word _ _ (by simp) (.last _ (by simp))
  rw [canonicalizeUnit_spelled hs (forcing_accepts _)]
  decide +kernel

theorem canonical_forceUnit : canonicalizeUnit forcing "eV/nm" = .ok "eV / nm" := by
  have hs : (UnitExpr.quotient (.atom electronvolt) (.atom nanometre)).Spells "eV/nm" := by
    have htext : "eV/nm".toList = [] ++ "eV".toList ++ ([] ++ ['/'] ++ ([] ++ "nm".toList ++ [])) := by decide
    rw [UnitExpr.Spells, htext]
    exact .word _ _ (by simp) (.word _ _ (by simp) (.word _ _ (by simp) (.last _ (by simp))))
  rw [canonicalizeUnit_spelled hs (forcing_accepts _)]
  decide +kernel

theorem merged_force : mergeUnits forcing (forcing.units forced.header) (.object [("force", .string "eV/nm")]) =
    .ok (.object [("charge", .string "e"), ("force", .string "eV / nm")]) := by
  simp only [mergeUnits, canonicalizeUnitsObject, Value.asObject, List.foldlM_cons, List.foldlM_nil, Value.asStr,
    canonical_forceUnit]
  rfl

def forceWithLength : Value Bits := .object [("force", .string "eV/nm"), ("length", .string "nm")]

def mergedWithLength : Value Bits :=
  .object [("charge", .string "e"), ("force", .string "eV / nm"), ("length", .string "nm")]

theorem merged_length : mergeUnits forcing (forcing.units forced.header) forceWithLength = .ok mergedWithLength := by
  simp only [mergeUnits, forceWithLength, canonicalizeUnitsObject, Value.asObject, List.foldlM_cons, List.foldlM_nil,
    Value.asStr, canonical_forceUnit, canonical_nm]
  rfl

theorem forced_declared : requireDeclaredV31Time forcing forced = .ok () := rfl

theorem forced_length : Relabels forcing forced.header mergedWithLength "length" "angstrom" "nm" :=
  ⟨rfl, rfl, by decide⟩

-- The energy stays and the length is a tenth, so the force is ten times what it was.
theorem forced_factor {k : Dim → Bits} (hk : ∀ a, FactorOf forcing forced.header mergedWithLength a (k a)) :
    forceFactor k = .ten := by
  have hlength : k .length = .tenth := by
    rcases hk .length with ⟨start, stop, ⟨hstart, hstop, _⟩, hc⟩ | ⟨hnone, _⟩
    · obtain rfl := Option.some.inj (forced_length.1.symm.trans hstart)
      obtain rfl := Option.some.inj (forced_length.2.1.symm.trans hstop)
      exact (Except.ok.inj (show Except.ok Bits.tenth = Except.ok _ from hc)).symm
    · exact absurd forced_length (hnone _ _)
  have henergy : k .energy = .one := by
    rcases hk .energy with ⟨start, stop, ⟨_, hstop, _⟩, _⟩ | ⟨_, hone⟩
    · cases hstop
    · exact hone
  rw [forceFactor, hlength, henergy]
  rfl

theorem forced_follows : FurtherLabelsFollow forcing forced forceWithLength := by
  intro _ merged hm k hk key start stop hkey hrel x hx
  obtain rfl := Except.ok.inj (merged_length.symm.trans hm)
  obtain ⟨hstart, hstop, hne⟩ := hrel
  rw [labelIn, Value.get, mergedWithLength, Value.asObject, Option.bind_some, get_cons, get_cons, get_cons] at hstop
  split at hstop
  · next hcharge =>
    subst hcharge
    obtain rfl := Option.some.inj (show some "e" = some start from hstart)
    exact absurd (Option.some.inj (show some "e" = some stop from hstop)) hne
  · split at hstop
    · next hforce =>
      subst hforce
      obtain rfl := Option.some.inj (show some "eV / angstrom" = some start from hstart)
      obtain rfl := Option.some.inj (show some "eV / nm" = some stop from hstop)
      refine ⟨.ten, rfl, ?_⟩
      rw [← forced_factor hk]
      rfl
    · split at hstop
      · next hlength =>
        subst hlength
        cases hkey
      · cases hstop

theorem forced_never_silent : NeverSilent forcing forced forceWithLength :=
  (never_silent_iff forcing_laws forced_aligned).mpr forced_follows

-- A force of one stays one, and is now said to be in eV / nm.
theorem force_relabelled : ¬ NeverSilent forcing forced (.object [("force", .string "eV/nm")]) := by
  intro h
  have hfactor (a : Dim) :
      FactorOf forcing forced.header (.object [("charge", .string "e"), ("force", .string "eV / nm")]) a Bits.one := by
    refine .inr ⟨fun start stop hrel => ?_, rfl⟩
    have hnone : labelIn (.object [("charge", .string "e"), ("force", .string "eV / nm")] : Value Bits) a.key = none := by
      cases a <;> rfl
    rw [Relabels, hnone] at hrel
    cases hrel.2.1
  have hrescale := rescale_eq_ok.mpr ⟨forced_declared, fun _ => Bits.one, hfactor, rfl⟩
  have hrel : Relabels forcing forced.header (.object [("charge", .string "e"), ("force", .string "eV / nm")]) "force"
      "eV / angstrom" "eV / nm" := ⟨rfl, rfl, by decide⟩
  have hall := (h.honest _ _ merged_force hrescale).others "force" _ _ rfl hrel
  rw [numbersUnder_rescaled forcing_laws forced_aligned _ rfl, forall₂_filterMap] at hall
  obtain ⟨y, hy, c, hc, rfl⟩ := hall Bits.one (by decide)
  obtain rfl : Bits.ten = c := Except.ok.inj (show Except.ok Bits.ten = Except.ok c from hc)
  exact absurd hy (by decide)

end Tiny

end ReadconDb
