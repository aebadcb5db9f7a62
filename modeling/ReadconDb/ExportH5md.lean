import ReadconDb.Store

set_option linter.unusedSectionVars false

namespace ReadconDb

open ByteString Outcome OrderedTable TwoPhase

structure H5mdArrays (F : Type) where
  nFrames : Nat
  natoms : Nat
  positions : List F
  edges : List F
  speciesZ : List Int32
  forces : Option (List F)
  velocities : Option (List F)
  velocityUnit : String
  boundary : String × String × String
  times : List F
  timeUnit : String
  lengthUnit : String
  forceUnit : String

structure H5mdCollectOpts where
  velocityTimeUnit : Option String := none

def h5mdLengthCore : String := "angstrom"
def h5mdLengthAttr : String := "Angstrom"
def h5mdTimeCore : String := "ps"
def h5mdTimeAttr : String := "ps"
def conTimeDefault : String := "fs"
def h5mdForceAttr : String := "kJ mol-1 Angstrom-1"
def h5mdVelocityAttr : String := "Angstrom ps-1"

def boundaryFromPbc (pbc : Option (Bool × Bool × Bool)) : String × String × String :=
  let p := pbc.getD (true, true, true)
  let name (periodic : Bool) := if periodic then "periodic" else "none"
  (name p.1, name p.2.1, name p.2.2)

section Collect

variable {F : Type} [Float64 F] (d : Crates F)

def kjMolAngstromSi : F := (Float64.lit 1000 / Float64.lit 602214076000000000000000) / Float64.lit (1 / 10 ^ 10)

def headerUnit (h : FrameHeader F) (dim default : String) : String := (d.unitFor h dim).getD default

def forceScaleToEngine (energyU lengthU : String) : Result F := do
  let eJ ← uc d energyU "J"
  let lM ← uc d lengthU "m"
  return (eJ / lM) / kjMolAngstromSi

def timeScaleToPs (start : String) : Result F :=
  match uc d start h5mdTimeCore with
  | .ok f => .ok f
  | .error e =>
    if toAsciiLowercase start = "ns" || toAsciiLowercase start = "nanosecond" then .ok (Float64.lit 1000)
    else .error e

def clockMissing : Error := .message "v3.1 frame has a clock but no units.time (D10)"

def clockUnit (h : FrameHeader F) (overrideUnit : Option String) : Result String :=
  match declaredTimeUnit d h with
  | some unit => .ok unit
  | none =>
    if velocityTimeIsDeclared h then
      match (overrideUnit.map trim).filter (· ≠ "") with
      | some unit => .ok unit
      | none => .error clockMissing
    else .ok conTimeDefault

def frameTimePs (h : FrameHeader F) (frameIdx : UInt32) (overrideUnit : Option String) : Result F :=
  if !frameHasClock d h then .ok (Float64.ofInt frameIdx.toNat)
  else do
    let scale ← timeScaleToPs d (← clockUnit d h overrideUnit)
    match d.time h, positiveTimestep d h with
    | some t, _ => return t * scale
    | none, some dt => return Float64.ofInt frameIdx.toNat * dt * scale
    | none, none => return Float64.ofInt frameIdx.toNat

def boxlToEdges33 (boxl : Vec3 F) : List F :=
  [boxl.x, zeroF64, zeroF64, zeroF64, boxl.y, zeroF64, zeroF64, zeroF64, boxl.z]

def boxlAnglesToEdges33 (boxl angles : Vec3 F) : List F :=
  let square (a : F) : Bool :=
    Float64.eq a zeroF64 || Float64.lt (Float64.abs (a - Float64.lit 90)) (Float64.lit (1 / 10 ^ 9))
  if angles.toList.all square then boxlToEdges33 boxl
  else
    let deg (a : F) : F := a * Float64.pi / Float64.lit 180
    let (alpha, beta, gamma) := (deg angles.x, deg angles.y, deg angles.z)
    let bx := boxl.y * Float64.cos gamma
    let byy := boxl.y * Float64.sin gamma
    let cx := boxl.z * Float64.cos beta
    let cy := boxl.z * (Float64.cos alpha - Float64.cos beta * Float64.cos gamma) / Float64.sin gamma
    let cz := Float64.sqrt (Float64.max (boxl.z * boxl.z - cx * cx - cy * cy) zeroF64)
    [boxl.x, zeroF64, zeroF64, bx, byy, zeroF64, cx, cy, cz]

def latticeRow (row : Value F) : Option (List F) :=
  match row.asArray with
  | none => none
  | some cells => if cells.length ≠ 3 then none else cells.mapM Value.asF64

def latticeEdges (h : FrameHeader F) : Option (List F) :=
  match (JsonMap.get h.metadata "lattice_vectors").bind Value.asArray with
  | none => none
  | some rows => if rows.length ≠ 3 then none else (rows.mapM latticeRow).map List.flatten

def edges33FromHeader (h : FrameHeader F) : List F :=
  (latticeEdges h).getD (boxlAnglesToEdges33 h.boxl h.angles)

def velocityTimeUnitFor (h : FrameHeader F) (hasVelocities : Bool) (overrideUnit : Option String) :
    Result String :=
  match overrideUnit with
  | some unit => do
    let _ ← timeScaleToPs d unit
    return unit
  | none =>
    if velocityTimeIsDeclared h then
      match (d.unitFor h "time").filter fun u => trim u ≠ "" with
      | some unit => .ok unit
      | none =>
        if hasVelocities then .error (.message "v3.1 frame has velocities but no units.time (D10)")
        else .ok conTimeDefault
    else .ok naturalTimeUnit

def speciesOf (fr : ConFrame F) : List Int32 :=
  fr.atomData.map fun a => (d.symbolToAtomicNumber a.symbol).toUInt32.toInt32

structure FrameArrays (F : Type) where
  time : F
  edges : List F
  positions : List (Vec3 F)
  velocities : Option (List (Vec3 F))
  forces : Option (List (Vec3 F))

structure SoaSource (F : Type) where
  positions : List (Vec3 F)
  velocities : Option (List (Vec3 F))
  forces : Option (List (Vec3 F))

def soaSource (c : ConCorpus F) (k : FrameKey) (fr : ConFrame F) : SoaSource F :=
  match getCookedSoa c k with
  | some cooked => ⟨cooked.positions, cooked.velocities, cooked.forces⟩
  | none => ⟨atomPositions fr, atomVelocities fr, atomForces fr⟩

def forceRows (energyU lengthU : String) (rows : Option (List (Vec3 F))) :
    Result (Option (List (Vec3 F))) :=
  match rows with
  | none => .ok none
  | some rows => do
    let fscale ← forceScaleToEngine d energyU lengthU
    return some (rows.map (·.scale fscale))

def frameAt (c : ConCorpus F) (first : ConFrame F) (row : FrameKey × Nat) : Result (ConFrame F) :=
  if row.2 = 0 then .ok first else getFrame d c row.1

def collectFrame (c : ConCorpus F) (opts : H5mdCollectOpts) (first : ConFrame F) (row : FrameKey × Nat) :
    Result (FrameArrays F) := do
  let fr ← frameAt d c first row
  let lengthU := headerUnit d fr.header "length" h5mdLengthCore
  let energyU := headerUnit d fr.header "energy" "eV"
  let lenScale ← uc d lengthU h5mdLengthCore
  let time ← frameTimePs d fr.header row.1.frameIdx opts.velocityTimeUnit
  if fr.atomData.length ≠ first.atomData.length then
    .error (.message "H5MD export needs fixed natoms in the trajectory")
  else if boundaryFromPbc (d.pbc fr.header) ≠ boundaryFromPbc (d.pbc first.header) then
    .error (.message "H5MD export needs fixed box/boundary in the trajectory")
  else if speciesOf d fr ≠ speciesOf d first then
    .error (.message "H5MD export needs fixed species Z in the trajectory")
  else
    let src := soaSource c row.1 fr
    let velTime ← velocityTimeUnitFor d fr.header src.velocities.isSome opts.velocityTimeUnit
    let velScale := lenScale / (← timeScaleToPs d velTime)
    let forces ← forceRows d energyU lengthU src.forces
    return {
      time := time
      edges := (edges33FromHeader fr.header).map (· * lenScale)
      positions := src.positions.map (·.scale lenScale)
      velocities := src.velocities.map fun rows => rows.map (·.scale velScale)
      forces := forces }

def putRowAt (buf : List F) (row : Vec3 F × Nat) : List F :=
  ((buf.set row.2 row.1.x).set (row.2 + 1) row.1.y).set (row.2 + 2) row.1.z

def fillRows (natoms : Nat) (frames : List (Option (List (Vec3 F)))) : Option (List F) :=
  if frames.any Option.isSome then
    some (frames.zipIdx.foldl (fun buf fo =>
      ((fo.1.getD []).zipIdx.map fun row => (row.1, fo.2 * natoms * 3 + row.2 * 3)).foldl putRowAt buf)
      (List.replicate (frames.length * natoms * 3) zeroF64))
  else none

def collectH5mdWith (c : ConCorpus F) (trajId : UInt64) (opts : H5mdCollectOpts) :
    Result (H5mdArrays F) := do
  let keys ← select c (Select.trajectory {} trajId)
  match keys with
  | [] => .error (.message "no frames for traj")
  | key :: _ =>
    let first ← getFrame d c key
    let rows ← keys.zipIdx.mapM (collectFrame d c opts first)
    let natoms := first.atomData.length
    return {
      nFrames := keys.length
      natoms := natoms
      positions := rows.flatMap fun r => r.positions.flatMap Vec3.toList
      edges := rows.flatMap FrameArrays.edges
      speciesZ := speciesOf d first
      forces := fillRows natoms (rows.map FrameArrays.forces)
      velocities := fillRows natoms (rows.map FrameArrays.velocities)
      velocityUnit := h5mdVelocityAttr
      boundary := boundaryFromPbc (d.pbc first.header)
      times := rows.map FrameArrays.time
      timeUnit := h5mdTimeAttr
      lengthUnit := h5mdLengthAttr
      forceUnit := h5mdForceAttr }

def collectH5md (c : ConCorpus F) (trajId : UInt64) : Result (H5mdArrays F) :=
  collectH5mdWith d c trajId {}

end Collect

section Transparency

variable {F : Type} [Float64 F] {d : Crates F} {c : ConCorpus F} {L : Texts}

def withoutCooked (c : ConCorpus F) : ConCorpus F := { c with framesSoa := ∅ }

structure Transparent (d : Crates F) (c : ConCorpus F) : Prop where
  positions : ∀ k, getPositions d c k = getPositions d (withoutCooked c) k
  forces : ∀ k, getForces d c k = getForces d (withoutCooked c) k
  velocities : ∀ k, getVelocities d c k = getVelocities d (withoutCooked c) k
  pack : ∀ k, packFrame d c k = packFrame d (withoutCooked c) k
  h5md : ∀ t opts, collectH5mdWith d c t opts = collectH5mdWith d (withoutCooked c) t opts

theorem getFrame_withoutCooked (k : FrameKey) : getFrame d (withoutCooked c) k = getFrame d c k := rfl

@[simp] theorem cookedBytes_withoutCooked (k : FrameKey) : getCookedSoaBytes (withoutCooked c) k = none := by
  simp [getCookedSoaBytes, withoutCooked]

@[simp] theorem cooked_withoutCooked (k : FrameKey) : getCookedSoa (withoutCooked c) k = none := by
  simp [getCookedSoa]

-- Either a frame is not cooked, or its blob is the encoding of what its text parses to.
theorem CookedExact.cases (h : CookedExact d c) (k : FrameKey) :
    (getCookedSoaBytes c k = none ∧ getCookedSoa c k = none) ∨
      ∃ f b, getFrame d c k = .ok f ∧ CookedSoa.encodeFrame f = .ok b ∧ getCookedSoaBytes c k = some b ∧
        (CookedSoa.tryDecode b : Option (CookedSoa F)) = some (.ofFrame f) ∧
        getCookedSoa c k = some (.ofFrame f) := by
  cases hb : getCookedSoaBytes c k with
  | none => exact .inl ⟨rfl, by simp [getCookedSoa, hb]⟩
  | some b =>
    obtain ⟨s, f, hs, hf, he⟩ := h k b hb
    have hdec : (CookedSoa.tryDecode b : Option (CookedSoa F)) = some (.ofFrame f) :=
      toOption_eq_some.mpr (CookedSoa.decode_encodeFrame he)
    exact .inr ⟨f, b, getFrame_eq_ok.mpr ⟨s, hs, hf⟩, he, rfl, hdec, by simp [getCookedSoa, hb, hdec]⟩

theorem CookedExact.getPositions (h : CookedExact d c) (k : FrameKey) :
    getPositions d c k = getPositions d (withoutCooked c) k := by
  simp only [ReadconDb.getPositions, cooked_withoutCooked, getFrame_withoutCooked]
  rcases h.cases k with ⟨_, hc⟩ | ⟨f, b, hf, _, _, _, hc⟩
  · rw [hc]
  · rw [hc, hf]
    rfl

theorem CookedExact.getForces (h : CookedExact d c) (k : FrameKey) :
    getForces d c k = getForces d (withoutCooked c) k := by
  simp only [ReadconDb.getForces, cooked_withoutCooked, getFrame_withoutCooked, Option.bind_none]
  rcases h.cases k with ⟨_, hc⟩ | ⟨f, b, hf, _, _, _, hc⟩
  · rw [hc]
    rfl
  · rw [hc, hf]
    cases hforces : atomForces f with
    | none => simp [CookedSoa.ofFrame, hforces, bind, Except.bind]
    | some rows => simp [CookedSoa.ofFrame, hforces, bind, Except.bind, pure, Except.pure]

theorem CookedExact.getVelocities (h : CookedExact d c) (k : FrameKey) :
    getVelocities d c k = getVelocities d (withoutCooked c) k := by
  simp only [ReadconDb.getVelocities, cooked_withoutCooked, getFrame_withoutCooked, Option.bind_none]
  rcases h.cases k with ⟨_, hc⟩ | ⟨f, b, hf, _, _, _, hc⟩
  · rw [hc]
    rfl
  · rw [hc, hf]
    cases hvel : atomVelocities f with
    | none => simp [CookedSoa.ofFrame, hvel, bind, Except.bind]
    | some rows => simp [CookedSoa.ofFrame, hvel, bind, Except.bind, pure, Except.pure]

theorem CookedExact.packFrame (h : CookedExact d c) (k : FrameKey) :
    packFrame d c k = packFrame d (withoutCooked c) k := by
  simp only [ReadconDb.packFrame, cookedBytes_withoutCooked, getFrame_withoutCooked, Option.filter_none]
  rcases h.cases k with ⟨hb, _⟩ | ⟨f, b, hf, he, hb, hdec, _⟩
  · rw [hb]
    rfl
  · rw [hb, hf, Option.filter_some, if_pos (by simp [hdec])]
    exact he.symm

theorem CookedExact.soaSource (h : CookedExact d c) {k : FrameKey} {f : ConFrame F}
    (hf : getFrame d c k = .ok f) : soaSource c k f = soaSource (withoutCooked c) k f := by
  simp only [ReadconDb.soaSource, cooked_withoutCooked]
  rcases h.cases k with ⟨_, hc⟩ | ⟨g, b, hg, _, _, _, hc⟩
  · rw [hc]
  · rw [hf] at hg
    rw [hc, Except.ok.inj hg]
    rfl

theorem CookedExact.collectFrame (h : CookedExact d c) (opts : H5mdCollectOpts) {first : ConFrame F}
    {row : FrameKey × Nat} (hfirst : row.2 = 0 → getFrame d c row.1 = .ok first) :
    collectFrame d c opts first row = collectFrame d (withoutCooked c) opts first row := by
  have hread : frameAt d c first row = getFrame d c row.1 := by
    by_cases h0 : row.2 = 0
    · rw [frameAt, if_pos h0, hfirst h0]
    · rw [frameAt, if_neg h0]
  have hread' : frameAt d (withoutCooked c) first row = getFrame d c row.1 := hread
  simp only [ReadconDb.collectFrame, hread, hread']
  cases hf : getFrame d c row.1 with
  | error e => rfl
  | ok f => simp only [bind, Except.bind, h.soaSource hf]

theorem mapM_congr_mem {α β : Type} {f g : α → Result β} {xs : List α} (h : ∀ x ∈ xs, f x = g x) :
    xs.mapM f = xs.mapM g := by
  induction xs with
  | nil => rfl
  | cons x xs ih =>
    rw [List.mapM_cons, List.mapM_cons, h x (by simp), ih fun y hy => h y (by simp [hy])]

theorem CookedExact.collectH5md (h : CookedExact d c) (t : UInt64) (opts : H5mdCollectOpts) :
    collectH5mdWith d c t opts = collectH5mdWith d (withoutCooked c) t opts := by
  have hsel : select (withoutCooked c) (Select.trajectory {} t) = select c (Select.trajectory {} t) := rfl
  simp only [collectH5mdWith, hsel, getFrame_withoutCooked]
  cases hs : select c (Select.trajectory {} t) with
  | error e => rfl
  | ok keys =>
    cases keys with
    | nil => rfl
    | cons key keys =>
      simp only [bind, Except.bind]
      cases hf : getFrame d c key with
      | error e => rfl
      | ok first =>
        have hrows : (key :: keys).zipIdx.mapM (ReadconDb.collectFrame d c opts first) =
            (key :: keys).zipIdx.mapM (ReadconDb.collectFrame d (withoutCooked c) opts first) := by
          refine mapM_congr_mem fun row hrow => h.collectFrame opts fun h0 => ?_
          have hkey := List.mem_zipIdx' hrow
          simp only [h0, List.getElem_cons_zero] at hkey
          rw [hkey.2, hf]
        simp only [hrows]

theorem CookedExact.transparent (h : CookedExact d c) : Transparent d c :=
  ⟨h.getPositions, h.getForces, h.getVelocities, h.packFrame, h.collectH5md⟩

theorem cooked_transparent (hz : ZstdLossless d) (h : Reached d (fun c op _ => op.Fits d c) c L) :
    Transparent d c :=
  (reached_sound hz (fun _ _ _ ha => ha.2) (reached_bounded hz (fun _ _ _ ha => ha) h)).cooked.transparent

def tinyCooked : ConCorpus Bits × Texts := tinyNext (.cook ⟨0, 0⟩) tinyStore

theorem tinyCooked_reached : Reached tiny (fun c op _ => op.Fits tiny c) tinyCooked.1 tinyCooked.2 :=
  tinyNext_reached (tinyStore_reached.mono fun _ _ _ ha => ha.2) trivial

theorem tiny_cooked_transparent : Transparent tiny tinyCooked.1 :=
  cooked_transparent tiny_lossless tinyCooked_reached

end Transparency

section Tiny

variable {c : ConCorpus Bits}

theorem cook_exec {key : FrameKey} {f : ConFrame Bits} {b : Bytes} (hf : getFrame tiny c key = .ok f)
    (hb : CookedSoa.encodeFrame f = .ok b) :
    (Op.cook key).exec tiny .granted c =
      (.ok b.length, { c with framesSoa := c.framesSoa.insert key.toBytes.val b }) := by
  have hplan : cookPlan tiny c key = .ok b := by
    simp only [cookPlan, hf, bind, Except.bind, hb]
  simp only [Op.exec, cookFrame, hplan, call, write, Verdicts.granted, cookCommit, counted, Except.map]
  rfl

theorem tiny_cooks : ∃ b, CookedSoa.encodeFrame hydrogen.1 = .ok b ∧
    (CookedSoa.tryDecode b : Option (CookedSoa Bits)) = some (.ofFrame hydrogen.1) := by
  cases hb : CookedSoa.encodeFrame hydrogen.1 with
  | error e =>
    have hne : (CookedSoa.encodeFrame hydrogen.1).toOption ≠ none := by decide +kernel
    simp [hb, Except.toOption] at hne
  | ok b => exact ⟨b, rfl, toOption_eq_some.mpr (CookedSoa.decode_encodeFrame hb)⟩

theorem tiny_positions_differ : atomPositions hydrogen.1 ≠ atomPositions helium.1 := by decide +kernel

def Op.Switches {F : Type} : Op F → Prop
  | .setCompress _ => True
  | _ => False

theorem tiny_cooked_first : ∃ c L, Reached tiny (fun _ op _ => ¬ op.Switches) c L ∧
    countOf c.trajMeta[(0 : UInt64)]? = 1 ∧ getCookedSoa c ⟨0, 0⟩ = some (.ofFrame hydrogen.1) := by
  have hempty : countOf (ConCorpus.empty Bits).trajMeta[(0 : UInt64)]? = 0 := by simp [ConCorpus.empty, countOf]
  obtain ⟨q, m, hq, hstore, hm, hexec⟩ := extendFrames_one (fun _ => ⟨_, rfl⟩) hempty
    (serialize_hydrogen tiny.defaultFormat) ""
  obtain ⟨b, hb, hdec⟩ := tiny_cooks
  have hframe : getFrame tiny (restamp (putIndexPuts (ConCorpus.empty Bits) q) 0 m) ⟨0, 0⟩ = .ok hydrogen.1 := by
    refine getFrame_eq_ok.mpr ⟨hydrogen.2, ?_, Catalog.parsed_entry hydrogen_mem⟩
    rw [textAt_restamp]
    exact put_text tiny_lossless hq hstore
  have hfirst : Reached tiny (fun _ op _ => ¬ op.Switches) _ _ :=
    Reached.step (.extendFrames 0 [hydrogen.1] "") .granted .empty id
  have hcook := hfirst.step (.cook ⟨0, 0⟩) .granted id
  rw [hexec, cook_exec hframe hb] at hcook
  refine ⟨_, _, hcook, ?_, ?_⟩
  · rw [restamp, get_insert, if_pos rfl, countOf, Option.map_some, hm]
    rfl
  · rw [getCookedSoa, getCookedSoaBytes, get_insert, if_pos rfl]
    exact hdec

-- The frame that lands on a cooked one leaves its blob behind.
theorem tiny_cooked_stale : ∃ c L, Reached tiny (fun _ op _ => ¬ op.Switches) c L ∧ ¬ Transparent tiny c := by
  obtain ⟨c, L, hrun, hone, hblob⟩ := tiny_cooked_first
  obtain ⟨c₁, c₂, rfl, rfl, htext, _, _, hsoa⟩ := tiny_overwrites hone _ rfl
  have hlast := (hrun.step (.extendFrames 0 (List.replicate (2 ^ 32 - 1) helium.1) "") .granted id).step
    (.extendFrames 0 [helium.1] "") .granted id
  refine ⟨_, _, hlast, fun ht => tiny_positions_differ ?_⟩
  have hpos := ht.positions ⟨0, 0⟩
  have hlive := getFrame_eq_ok.mpr ⟨helium.2, htext, tiny_parsed_helium⟩
  rw [getCookedSoa, getCookedSoaBytes, ← hsoa] at hblob
  rw [getPositions, getPositions, cooked_withoutCooked, getFrame_withoutCooked, hlive, getCookedSoa,
    getCookedSoaBytes, hblob] at hpos
  exact Except.ok.inj hpos

end Tiny

end ReadconDb
