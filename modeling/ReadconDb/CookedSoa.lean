import ReadconDb.Corpus

namespace ReadconDb

open ByteString Outcome OrderedTable

def cookedMagic : Bytes := [0x52, 0x43, 0x53, 0x4F]
def cookedVersion : UInt32 := 1
def dtypeF64 : UInt8 := 0

def flagForces : UInt32 := 1
def flagVelocities : UInt32 := 2

def headerLen : Nat := 24

structure CookedSoa (F : Type) where
  natoms : UInt32
  positions : List (Vec3 F)
  forces : Option (List (Vec3 F))
  velocities : Option (List (Vec3 F))

section Numerics

variable {F : Type} [Float64 F]

def f64Bytes (x : F) : Bytes := leBytes 8 (Float64.toBits x).toNat

def vec3Bytes (v : Vec3 F) : Bytes := v.toList.flatMap f64Bytes

def readF64 (b : Bytes) : F := Float64.ofBits (UInt64.ofNat (leNat b))

def readVec3Block : Nat → Bytes → Result (List (Vec3 F))
  | 0, _ => .ok []
  | n + 1, b =>
    if b.length < 24 then .error (.message "cooked SoA short block")
    else do
      let row : Vec3 F :=
        ⟨readF64 (b.take 8), readF64 ((b.drop 8).take 8), readF64 ((b.drop 16).take 8)⟩
      let rows ← readVec3Block n (b.drop 24)
      return row :: rows

def readOptionalBlock (present : Bool) (n : Nat) (b : Bytes) : Result (Option (List (Vec3 F))) :=
  if present then some <$> readVec3Block n b else .ok none

def zeroVec3 : Vec3 F := ⟨zeroF64, zeroF64, zeroF64⟩

def atomPositions (frame : ConFrame F) : List (Vec3 F) :=
  frame.atomData.map fun a => ⟨a.x, a.y, a.z⟩

def atomForces (frame : ConFrame F) : Option (List (Vec3 F)) :=
  if frame.atomData.any (fun a => a.force.isSome) then
    some (frame.atomData.map fun a => a.force.getD zeroVec3)
  else none

def atomVelocities (frame : ConFrame F) : Option (List (Vec3 F)) :=
  if frame.atomData.any (fun a => a.velocity.isSome) then
    some (frame.atomData.map fun a => a.velocity.getD zeroVec3)
  else none

def vec3Block (rows : Option (List (Vec3 F))) : Bytes := (rows.getD []).flatMap vec3Bytes

namespace CookedSoa

def flagsOf (frame : ConFrame F) : UInt32 :=
  (if (atomForces frame).isSome then flagForces else 0) |||
    (if (atomVelocities frame).isSome then flagVelocities else 0)

def encodeFrame (frame : ConFrame F) : Result Bytes :=
  if frame.atomData.length > 2 ^ 32 - 1 then .error (.message "too many atoms for cooked SoA")
  else
    .ok (cookedMagic ++ leBytes 4 cookedVersion.toNat ++ leBytes 4 frame.atomData.length ++
      leBytes 4 (flagsOf frame).toNat ++ [dtypeF64, 0, 0, 0] ++ leBytes 4 0 ++
      (vec3Block (some (atomPositions frame)) ++ vec3Block (atomForces frame) ++
        vec3Block (atomVelocities frame)))

def decodeBody (natoms flags : UInt32) (body : Bytes) : Result (CookedSoa F) :=
  let n := natoms.toNat
  let blockBytes := n * 3 * 8
  let hasF := flags &&& flagForces != 0
  let hasV := flags &&& flagVelocities != 0
  if body.length < blockBytes + (if hasF then blockBytes else 0) + (if hasV then blockBytes else 0) then
    .error (.message "cooked SoA truncated body")
  else do
    let positions ← readVec3Block n (body.take blockBytes)
    let rest := body.drop blockBytes
    let forces ← readOptionalBlock hasF n (rest.take blockBytes)
    let rest := if hasF then rest.drop blockBytes else rest
    let velocities ← readOptionalBlock hasV n (rest.take blockBytes)
    return ⟨natoms, positions, forces, velocities⟩

def decode (bytes : Bytes) : Result (CookedSoa F) :=
  if bytes.length < headerLen then .error (.message "cooked SoA truncated header")
  else if bytes.take 4 ≠ cookedMagic then .error (.message "cooked SoA bad magic")
  else
    let version := UInt32.ofNat (leNat ((bytes.drop 4).take 4))
    if version ≠ cookedVersion then
      .error (.message ("cooked SoA unsupported version " ++ toString version))
    else
      let natoms := UInt32.ofNat (leNat ((bytes.drop 8).take 4))
      let flags := UInt32.ofNat (leNat ((bytes.drop 12).take 4))
      let dtype := (bytes.drop 16).headD 0
      if dtype ≠ dtypeF64 then
        .error (.message ("cooked SoA unsupported dtype " ++ toString dtype))
      else decodeBody natoms flags (bytes.drop headerLen)

def tryDecode (bytes : Bytes) : Option (CookedSoa F) := (decode bytes).toOption

def ofFrame (frame : ConFrame F) : CookedSoa F :=
  ⟨UInt32.ofNat frame.atomData.length, atomPositions frame, atomForces frame, atomVelocities frame⟩

theorem length_vec3Bytes (v : Vec3 F) : (vec3Bytes v).length = 24 := by
  simp [vec3Bytes, Vec3.toList, f64Bytes]

theorem length_block (vs : List (Vec3 F)) : (vs.flatMap vec3Bytes).length = vs.length * 3 * 8 := by
  induction vs with
  | nil => rfl
  | cons v vs ih =>
    rw [List.flatMap_cons, List.length_append, length_vec3Bytes, ih, List.length_cons]
    omega

theorem readF64_f64Bytes (x : F) : readF64 (f64Bytes x) = x := by
  have hx : (Float64.toBits x).toNat % 256 ^ 8 = (Float64.toBits x).toNat :=
    Nat.mod_eq_of_lt (Float64.toBits x).toNat_lt
  rw [readF64, f64Bytes, leNat_leBytes, hx, UInt64.ofNat_toNat, Float64.ofBits_toBits]

theorem readVec3Block_append (vs : List (Vec3 F)) (rest : Bytes) :
    readVec3Block vs.length (vs.flatMap vec3Bytes ++ rest) = .ok vs := by
  induction vs with
  | nil => rfl
  | cons v vs ih =>
    have hsplit : (v :: vs).flatMap vec3Bytes ++ rest =
        f64Bytes v.x ++ (f64Bytes v.y ++ (f64Bytes v.z ++ (vs.flatMap vec3Bytes ++ rest))) := by
      simp [vec3Bytes, Vec3.toList]
    have hl (x : F) : (f64Bytes x).length = 8 := by simp [f64Bytes]
    have hx (x : F) (tail : Bytes) : (f64Bytes x ++ tail).take 8 = f64Bytes x := by
      rw [← hl x, List.take_left]
    have ht (x : F) (tail : Bytes) : (f64Bytes x ++ tail).drop 8 = tail := by
      rw [← hl x, List.drop_left]
    have h16 : ((v :: vs).flatMap vec3Bytes ++ rest).drop 16 =
        f64Bytes v.z ++ (vs.flatMap vec3Bytes ++ rest) := by
      rw [hsplit, show 16 = 8 + 8 from rfl, ← List.drop_drop, ht, ht]
    have h24 : ((v :: vs).flatMap vec3Bytes ++ rest).drop 24 = vs.flatMap vec3Bytes ++ rest := by
      rw [show 24 = 16 + 8 from rfl, ← List.drop_drop, h16, ht]
    have hlen : ¬ ((v :: vs).flatMap vec3Bytes ++ rest).length < 24 := by
      rw [List.length_append, length_block, List.length_cons]
      omega
    rw [List.length_cons, readVec3Block, if_neg hlen, h24, ih, h16, hx, hsplit, hx, ht, hx]
    simp only [readF64_f64Bytes]
    rfl

theorem flags_forces (frame : ConFrame F) :
    (flagsOf frame &&& flagForces != 0) = (atomForces frame).isSome := by
  rw [flagsOf]
  cases (atomForces frame).isSome <;> cases (atomVelocities frame).isSome <;> rfl

theorem flags_velocities (frame : ConFrame F) :
    (flagsOf frame &&& flagVelocities != 0) = (atomVelocities frame).isSome := by
  rw [flagsOf]
  cases (atomForces frame).isSome <;> cases (atomVelocities frame).isSome <;> rfl

theorem length_atomForces {frame : ConFrame F} {rows : List (Vec3 F)}
    (h : atomForces frame = some rows) : rows.length = frame.atomData.length := by
  simp only [atomForces, Option.ite_none_right_eq_some, Option.some.injEq] at h
  rw [← h.2, List.length_map]

theorem length_atomVelocities {frame : ConFrame F} {rows : List (Vec3 F)}
    (h : atomVelocities frame = some rows) : rows.length = frame.atomData.length := by
  simp only [atomVelocities, Option.ite_none_right_eq_some, Option.some.injEq] at h
  rw [← h.2, List.length_map]

theorem readOptionalBlock_append (rows : Option (List (Vec3 F))) (n : Nat) (rest : Bytes)
    (h : ∀ vs, rows = some vs → vs.length = n) :
    readOptionalBlock rows.isSome n ((vec3Block rows ++ rest).take (n * 3 * 8)) = .ok rows := by
  cases rows with
  | none => rfl
  | some vs =>
    have hn := h vs rfl
    have hb := readVec3Block_append vs []
    rw [List.append_nil, hn] at hb
    have hl : (vs.flatMap vec3Bytes).length = n * 3 * 8 := by rw [length_block, hn]
    rw [readOptionalBlock, Option.isSome_some, if_pos rfl, vec3Block, Option.getD_some, ← hl, List.take_left, hb]
    rfl

theorem length_vec3Block (rows : Option (List (Vec3 F))) (n : Nat)
    (h : ∀ vs, rows = some vs → vs.length = n) :
    (vec3Block rows).length = if rows.isSome then n * 3 * 8 else 0 := by
  cases rows with
  | none => rfl
  | some vs => rw [vec3Block, Option.getD_some, length_block, h vs rfl, Option.isSome_some, if_pos rfl]

theorem decodeBody_encode (frame : ConFrame F) (hn : frame.atomData.length < 2 ^ 32) :
    decodeBody (UInt32.ofNat frame.atomData.length) (flagsOf frame)
      (vec3Block (some (atomPositions frame)) ++ vec3Block (atomForces frame) ++
        vec3Block (atomVelocities frame)) = .ok (ofFrame frame) := by
  have hnat : (UInt32.ofNat frame.atomData.length).toNat = frame.atomData.length := by
    rw [UInt32.toNat_ofNat', Nat.mod_eq_of_lt hn]
  have hp : (atomPositions frame).length = frame.atomData.length := by simp [atomPositions]
  have hlp : (vec3Block (some (atomPositions frame))).length = frame.atomData.length * 3 * 8 := by
    rw [vec3Block, Option.getD_some, length_block, hp]
  have hf : ∀ vs, atomForces frame = some vs → vs.length = frame.atomData.length :=
    fun vs => length_atomForces
  have hv : ∀ vs, atomVelocities frame = some vs → vs.length = frame.atomData.length :=
    fun vs => length_atomVelocities
  have hlf := length_vec3Block _ _ hf
  have hlv := length_vec3Block _ _ hv
  have hpos := readVec3Block_append (atomPositions frame) []
  rw [List.append_nil, hp] at hpos
  simp only [decodeBody, hnat, flags_forces, flags_velocities]
  rw [if_neg (by rw [List.length_append, List.length_append, hlp, hlf, hlv]; omega),
    List.append_assoc, ← hlp, List.take_left, List.drop_left, hlp]
  have hrest : (if (atomForces frame).isSome then
        (vec3Block (atomForces frame) ++ vec3Block (atomVelocities frame)).drop
          (frame.atomData.length * 3 * 8)
      else vec3Block (atomForces frame) ++ vec3Block (atomVelocities frame)) =
      vec3Block (atomVelocities frame) ++ [] := by
    rw [List.append_nil]
    cases hs : (atomForces frame).isSome with
    | false =>
      rw [hs, if_neg (by simp)] at hlf
      simp [List.eq_nil_of_length_eq_zero hlf]
    | true =>
      rw [hs, if_pos rfl] at hlf
      rw [if_pos rfl, ← hlf, List.drop_left]
  rw [hrest, readOptionalBlock_append _ _ _ hf, readOptionalBlock_append _ _ _ hv]
  simp only [vec3Block, Option.getD_some, hpos]
  rfl

def cookedHeader (natoms flags : UInt32) : Bytes :=
  cookedMagic ++ leBytes 4 cookedVersion.toNat ++ leBytes 4 natoms.toNat ++ leBytes 4 flags.toNat ++
    [dtypeF64, 0, 0, 0] ++ leBytes 4 0

theorem length_cookedHeader (natoms flags : UInt32) : (cookedHeader natoms flags).length = headerLen := by
  simp [cookedHeader, cookedMagic, headerLen]

theorem encodeFrame_eq {frame : ConFrame F} (hn : frame.atomData.length < 2 ^ 32) :
    encodeFrame frame = .ok (cookedHeader (UInt32.ofNat frame.atomData.length) (flagsOf frame) ++
      (vec3Block (some (atomPositions frame)) ++ vec3Block (atomForces frame) ++
        vec3Block (atomVelocities frame))) := by
  rw [encodeFrame, if_neg (by omega), cookedHeader, UInt32.toNat_ofNat', Nat.mod_eq_of_lt hn]

theorem decode_header (natoms flags : UInt32) (body : Bytes) :
    decode (cookedHeader natoms flags ++ body) = (decodeBody natoms flags body : Result (CookedSoa F)) := by
  have h4 (n : UInt32) : leNat (leBytes 4 n.toNat) = n.toNat := by
    rw [leNat_leBytes]
    exact Nat.mod_eq_of_lt n.toNat_lt
  have hdrop (n k : Nat) (hk : 4 ≤ k) : (leBytes 4 n).drop k = [] :=
    List.drop_of_length_le (by simpa using hk)
  have hlen : ¬ (cookedHeader natoms flags ++ body).length < headerLen := by
    rw [List.length_append, length_cookedHeader]
    omega
  rw [decode, if_neg hlen]
  simp [cookedHeader, headerLen, List.take_append, List.drop_append, cookedMagic, hdrop, h4]

theorem decode_encodeFrame {frame : ConFrame F} {b : Bytes} (h : encodeFrame frame = .ok b) :
    decode b = .ok (ofFrame frame) := by
  by_cases hn : frame.atomData.length < 2 ^ 32
  · rw [encodeFrame_eq hn] at h
    obtain rfl := Except.ok.inj h
    rw [decode_header, decodeBody_encode frame hn]
  · rw [encodeFrame, if_pos (by omega)] at h
    cases h

end CookedSoa

section Getters

variable (d : Crates F) (c : ConCorpus F)

def getCookedSoaBytes (key : FrameKey) : Option Bytes := c.framesSoa[key.toBytes.val]?

def getCookedSoa (key : FrameKey) : Option (CookedSoa F) :=
  (getCookedSoaBytes c key).bind CookedSoa.tryDecode

def packFrame (key : FrameKey) : Result Bytes :=
  match (getCookedSoaBytes c key).filter fun b => (CookedSoa.tryDecode b : Option (CookedSoa F)).isSome with
  | some b => .ok b
  | none => do CookedSoa.encodeFrame (← getFrame d c key)

def getPositions (key : FrameKey) : Result (List (Vec3 F)) :=
  match getCookedSoa c key with
  | some cooked => .ok cooked.positions
  | none => do return atomPositions (← getFrame d c key)

def getForces (key : FrameKey) : Result (Option (List (Vec3 F))) :=
  match (getCookedSoa c key).bind CookedSoa.forces with
  | some forces => .ok (some forces)
  | none => do return atomForces (← getFrame d c key)

def getVelocities (key : FrameKey) : Result (Option (List (Vec3 F))) :=
  match (getCookedSoa c key).bind CookedSoa.velocities with
  | some velocities => .ok (some velocities)
  | none => do return atomVelocities (← getFrame d c key)

end Getters

end Numerics

end ReadconDb
