import ReadconDb.Catalog
import ReadconDb.CookedSoa
import ReadconDb.Library.Reading
import ReadconDb.Library.Slicing

set_option linter.unusedSectionVars false

namespace ReadconDb

open ByteString Outcome Slicing Reading

section Checks

variable {F : Type} [Float64 F]

def checkedMul (a b : Nat) : Checked Error Nat :=
  if a * b ≤ usizeMax then lift (.ok (a * b)) else lift (.error (.message "overflow"))

def checkedAdd (a b : Nat) : Checked Error Nat :=
  if a + b ≤ usizeMax then lift (.ok (a + b)) else lift (.error (.message "overflow"))

def needWith (present : Bool) (need blockBytes : Nat) : Checked Error Nat :=
  if present then checkedAdd need blockBytes else lift (.ok need)

def coordChecked (bytes : Bytes) (start : Nat) : Checked Error (F × Nat) := do
  let stop ← plus (usizeMax + 1) start 8
  if stop > bytes.length then lift (.error (.message "cooked SoA short block"))
  else do
    let eight ← slice bytes start stop
    if eight.length = 8 then lift (.ok (readF64 eight, stop)) else panicked

def rowChecked (bytes : Bytes) (i : Nat) : Checked Error (Vec3 F × Nat) := do
  let (x, i) ← coordChecked bytes i
  let (y, i) ← coordChecked bytes i
  let (z, i) ← coordChecked bytes i
  return (⟨x, y, z⟩, i)

def readVec3BlockChecked (bytes : Bytes) : Nat → Nat → List (Vec3 F) → Checked Error (List (Vec3 F))
  | 0, _, out => lift (.ok out)
  | n + 1, i, out => do
    let (row, i) ← rowChecked bytes i
    readVec3BlockChecked bytes n i (out ++ [row])

def blockChecked (bytes : Bytes) (off blockBytes n : Nat) : Checked Error (List (Vec3 F) × Nat) := do
  let stop ← plus (usizeMax + 1) off blockBytes
  let block ← slice bytes off stop
  let rows ← readVec3BlockChecked block n 0 []
  return (rows, stop)

def optionalChecked (present : Bool) (bytes : Bytes) (off blockBytes n : Nat) :
    Checked Error (Option (List (Vec3 F)) × Nat) :=
  if present then do
    let (rows, off) ← blockChecked bytes off blockBytes n
    return (some rows, off)
  else return (none, off)

namespace CookedSoa

-- From the header's counts on, every offset into the whole value.
def bodyChecked (natoms flags : UInt32) (bytes : Bytes) : Checked Error (CookedSoa F) := do
  let n := natoms.toNat
  let hasF := flags &&& flagForces != 0
  let hasV := flags &&& flagVelocities != 0
  let block ← checkedMul n 3
  let blockBytes ← checkedMul block 8
  let need ← plus (usizeMax + 1) headerLen blockBytes
  let need ← needWith hasF need blockBytes
  let need ← needWith hasV need blockBytes
  if bytes.length < need then lift (.error (.message "cooked SoA truncated body"))
  else do
    let (positions, off) ← blockChecked bytes headerLen blockBytes n
    let (forces, off) ← optionalChecked hasF bytes off blockBytes n
    let (velocities, _) ← optionalChecked hasV bytes off blockBytes n
    return ⟨natoms, positions, forces, velocities⟩

def decodeChecked (bytes : Bytes) : Checked Error (CookedSoa F) :=
  if bytes.length < headerLen then lift (.error (.message "cooked SoA truncated header"))
  else do
    let magic ← slice bytes 0 4
    if magic ≠ cookedMagic then lift (.error (.message "cooked SoA bad magic"))
    else do
      let version ← readU32 bytes 4 8
      if UInt32.ofNat version ≠ cookedVersion then
        lift (.error (.message ("cooked SoA unsupported version " ++ toString (UInt32.ofNat version))))
      else do
        let natoms ← readU32 bytes 8 12
        let flags ← readU32 bytes 12 16
        let dtype ← index bytes 16
        if dtype ≠ dtypeF64 then lift (.error (.message ("cooked SoA unsupported dtype " ++ toString dtype)))
        else bodyChecked (UInt32.ofNat natoms) (UInt32.ofNat flags) bytes

end CookedSoa

variable {bytes : Bytes}

theorem coord_checked (hb : bytes.length ≤ isizeMax) {i : Nat} (hi : i ≤ bytes.length) :
    (coordChecked bytes i : Checked Error (F × Nat)) =
      if (bytes.drop i).length < 8 then lift (.error (.message "cooked SoA short block"))
      else lift (.ok (readF64 ((bytes.drop i).take 8), i + 8)) := by
  have hcap : bytes.length + 8 < usizeMax + 1 := by
    simp only [isizeMax, usizeMax] at hb ⊢
    omega
  have hlen : (bytes.drop i).length = bytes.length - i := List.length_drop
  rw [coordChecked, plus_ok (by omega), lift_ok_bind, hlen]
  by_cases hshort : bytes.length - i < 8
  · rw [if_pos (by omega), if_pos hshort]
  · have height : ((bytes.drop i).take 8).length = 8 := by
      rw [List.length_take]
      omega
    rw [if_neg (by omega), if_neg hshort, slice_ok (Nat.le_add_right i 8) (by omega), lift_ok_bind,
      Nat.add_sub_cancel_left, if_pos height]

theorem row_checked (hb : bytes.length ≤ isizeMax) {i : Nat} (hi : i ≤ bytes.length) :
    (rowChecked bytes i : Checked Error (Vec3 F × Nat)) =
      if (bytes.drop i).length < 24 then lift (.error (.message "cooked SoA short block"))
      else lift (.ok (⟨readF64 ((bytes.drop i).take 8), readF64 (((bytes.drop i).drop 8).take 8),
        readF64 (((bytes.drop i).drop 16).take 8)⟩, i + 24)) := by
  have hlen (k : Nat) : (bytes.drop k).length = bytes.length - k := List.length_drop
  have hx := coord_checked (F := F) hb hi
  rw [rowChecked, hx, hlen]
  by_cases h8 : bytes.length - i < 8
  · rw [if_pos h8, if_pos (by omega)]
    rfl
  · have hy := coord_checked (F := F) hb (i := i + 8) (by omega)
    rw [if_neg h8, lift_ok_bind]
    simp only [hy, hlen]
    by_cases h16 : bytes.length - (i + 8) < 8
    · rw [if_pos h16, if_pos (by omega)]
      rfl
    · have hz := coord_checked (F := F) hb (i := i + 8 + 8) (by omega)
      rw [if_neg h16, lift_ok_bind]
      simp only [hz, hlen]
      by_cases h24 : bytes.length - (i + 8 + 8) < 8
      · rw [if_pos h24, if_pos (by omega)]
        rfl
      · rw [if_neg h24, lift_ok_bind, if_neg (by omega), List.drop_drop, List.drop_drop]
        rfl

theorem readVec3Block_checked (hb : bytes.length ≤ isizeMax) {n i : Nat} (hi : i ≤ bytes.length)
    (out : List (Vec3 F)) :
    readVec3BlockChecked bytes n i out = lift ((fun rows => out ++ rows) <$> readVec3Block n (bytes.drop i)) := by
  induction n generalizing i out with
  | zero =>
    show lift (.ok out) = lift (.ok (out ++ []))
    rw [List.append_nil]
  | succ n ih =>
    rw [readVec3BlockChecked, readVec3Block, row_checked hb hi]
    have hlen : (bytes.drop i).length = bytes.length - i := List.length_drop
    by_cases hshort : (bytes.drop i).length < 24
    · rw [if_pos hshort, if_pos hshort]
      rfl
    · rw [if_neg hshort, if_neg hshort, lift_ok_bind]
      simp only [ih (i := i + 24) (by omega), List.drop_drop]
      cases (readVec3Block n (bytes.drop (i + 24)) : Result (List (Vec3 F))) with
      | error e => rfl
      | ok rows => simp [Functor.map, Except.map, bind, Except.bind, pure, Except.pure]

theorem block_checked (hb : bytes.length ≤ isizeMax) {off blockBytes n : Nat} (ho : off + blockBytes ≤ bytes.length) :
    (blockChecked bytes off blockBytes n : Checked Error (List (Vec3 F) × Nat)) =
      lift ((fun rows => (rows, off + blockBytes)) <$> readVec3Block n ((bytes.drop off).take blockBytes)) := by
  have hcap : bytes.length < usizeMax + 1 := by
    simp only [isizeMax, usizeMax] at hb ⊢
    omega
  have hblock : ((bytes.drop off).take blockBytes).length ≤ isizeMax := by
    rw [List.length_take, List.length_drop]
    omega
  rw [blockChecked, plus_ok (by omega), lift_ok_bind, slice_ok (Nat.le_add_right off blockBytes) ho, lift_ok_bind,
    Nat.add_sub_cancel_left, readVec3Block_checked hblock (Nat.zero_le _), List.drop_zero]
  cases (readVec3Block n ((bytes.drop off).take blockBytes) : Result (List (Vec3 F))) <;> rfl

theorem optional_checked (hb : bytes.length ≤ isizeMax) {present : Bool} {off blockBytes n : Nat}
    (ho : off + (if present then blockBytes else 0) ≤ bytes.length) :
    (optionalChecked present bytes off blockBytes n : Checked Error (Option (List (Vec3 F)) × Nat)) =
      lift ((fun rows => (rows, off + if present then blockBytes else 0)) <$>
        readOptionalBlock present n ((bytes.drop off).take blockBytes)) := by
  cases present with
  | false => rfl
  | true =>
    rw [if_pos rfl] at ho
    simp only [optionalChecked, readOptionalBlock, if_true]
    rw [block_checked hb ho]
    cases (readVec3Block n ((bytes.drop off).take blockBytes) : Result (List (Vec3 F))) <;> rfl

end Checks

section Decode

variable {F : Type} [Float64 F] {bytes : Bytes}

theorem index_headD {b : Bytes} {i : Nat} (h : i < b.length) (x : UInt8) :
    (index b i : Checked Error UInt8) = lift (.ok ((b.drop i).headD x)) := by
  have hget : b[i]? = some ((b.drop i).headD x) := by
    rw [List.headD_eq_head?_getD, List.head?_drop, List.getElem?_eq_getElem h]
    rfl
  exact index_ok hget

namespace CookedSoa

theorem blockBytes_checked (natoms : UInt32) (f : Nat → Checked Error (CookedSoa F)) :
    (checkedMul natoms.toNat 3 >>= fun block => checkedMul block 8 >>= f) = f (natoms.toNat * 3 * 8) := by
  have hn := natoms.toNat_lt
  rw [checkedMul, if_pos (by simp only [usizeMax]; omega), lift_ok_bind, checkedMul,
    if_pos (by simp only [usizeMax]; omega), lift_ok_bind]

theorem need_checked {need blockBytes : Nat} (h : need + blockBytes ≤ usizeMax) (present : Bool) :
    needWith present need blockBytes = lift (.ok (need + if present then blockBytes else 0)) := by
  cases present with
  | false => rfl
  | true => simp only [needWith, if_true, checkedAdd, if_pos h]

theorem body_checked (hb : bytes.length ≤ isizeMax) (hlen : headerLen ≤ bytes.length) (natoms flags : UInt32) :
    (bodyChecked natoms flags bytes : Checked Error (CookedSoa F)) =
      lift (decodeBody natoms flags (bytes.drop headerLen)) := by
  have hn := natoms.toNat_lt
  have hbody : (bytes.drop headerLen).length = bytes.length - headerLen := List.length_drop
  rw [bodyChecked, blockBytes_checked, decodeBody, hbody]
  generalize hblock : natoms.toNat * 3 * 8 = blockBytes
  have hsmall : blockBytes < 2 ^ 37 := by omega
  generalize (flags &&& flagForces != 0) = hasF
  generalize (flags &&& flagVelocities != 0) = hasV
  have hf : (if hasF then blockBytes else 0) ≤ blockBytes := by split <;> omega
  have hv : (if hasV then blockBytes else 0) ≤ blockBytes := by split <;> omega
  have hhead : headerLen = 24 := rfl
  have hmax : usizeMax = 2 ^ 64 - 1 := rfl
  have himax : isizeMax = 2 ^ 63 - 1 := rfl
  rw [plus_ok (by omega), lift_ok_bind, need_checked (by omega), lift_ok_bind,
    need_checked (by omega), lift_ok_bind]
  by_cases hshort : bytes.length < headerLen + blockBytes + (if hasF then blockBytes else 0) + if hasV then blockBytes else 0
  · have hshort' : bytes.length - headerLen < blockBytes + (if hasF then blockBytes else 0) + if hasV then blockBytes else 0 := by
      omega
    rw [if_pos hshort, if_pos hshort']
  · have hshort' : ¬ bytes.length - headerLen <
        blockBytes + (if hasF then blockBytes else 0) + if hasV then blockBytes else 0 := by omega
    rw [if_neg hshort, if_neg hshort', block_checked hb (by omega)]
    have hrest : (if hasF then ((bytes.drop headerLen).drop blockBytes).drop blockBytes else (bytes.drop headerLen).drop blockBytes) =
        bytes.drop (headerLen + blockBytes + if hasF then blockBytes else 0) := by
      cases hasF with
      | false => simp only [Bool.false_eq_true, if_false, Nat.add_zero, List.drop_drop]
      | true => simp only [if_true, List.drop_drop]
    simp only [hrest]
    cases (readVec3Block natoms.toNat ((bytes.drop headerLen).take blockBytes) : Result (List (Vec3 F))) with
    | error e => rfl
    | ok positions =>
      rw [List.drop_drop]
      show (optionalChecked hasF bytes (headerLen + blockBytes) blockBytes natoms.toNat >>= _) = _
      rw [optional_checked hb (by omega)]
      cases (readOptionalBlock hasF natoms.toNat ((bytes.drop (headerLen + blockBytes)).take blockBytes) :
          Result (Option (List (Vec3 F)))) with
      | error e => rfl
      | ok forces =>
        show (optionalChecked hasV bytes (headerLen + blockBytes + if hasF then blockBytes else 0) blockBytes
          natoms.toNat >>= _) = _
        rw [optional_checked hb (by omega)]
        cases (readOptionalBlock hasV natoms.toNat
            ((bytes.drop (headerLen + blockBytes + if hasF then blockBytes else 0)).take blockBytes) :
            Result (Option (List (Vec3 F)))) <;> rfl

theorem decode_checked (hb : bytes.length ≤ isizeMax) :
    (decodeChecked bytes : Checked Error (CookedSoa F)) = lift (decode bytes) := by
  rw [decodeChecked, decode]
  by_cases hlen : bytes.length < headerLen
  · rw [if_pos hlen, if_pos hlen]
  · have hlen' : 24 ≤ bytes.length := not_lt.mp hlen
    rw [if_neg hlen, if_neg hlen, slice_ok (by omega) (by omega), lift_ok_bind, List.drop_zero]
    by_cases hmagic : bytes.take 4 ≠ cookedMagic
    · rw [if_pos hmagic, if_pos hmagic]
    · rw [if_neg hmagic, if_neg hmagic, readU32_ok 4 (by omega), lift_ok_bind]
      simp only
      split
      · rfl
      · rw [readU32_ok 8 (by omega), lift_ok_bind, readU32_ok 12 (by omega), lift_ok_bind,
          index_headD (by omega) 0, lift_ok_bind]
        split
        · rfl
        · exact body_checked hb hlen' _ _

theorem decode_prefix {frame : ConFrame F} {b pre : Bytes} (h : encodeFrame frame = .ok b) (hp : pre <+: b)
    (hne : pre ≠ b) : ∃ e, (decode pre : Result (CookedSoa F)) = .error e := by
  by_cases hn : frame.atomData.length < 2 ^ 32
  · rw [encodeFrame_eq hn] at h
    obtain rfl := Except.ok.inj h
    have hhead := length_cookedHeader (UInt32.ofNat frame.atomData.length) (flagsOf frame)
    have hlt := strict_length hp hne
    by_cases hshort : pre.length < headerLen
    · exact ⟨_, by rw [decode, if_pos hshort]⟩
    · obtain ⟨body, rfl, _⟩ := prefix_after hp (by omega)
      have hnat : (UInt32.ofNat frame.atomData.length).toNat = frame.atomData.length := by
        rw [UInt32.toNat_ofNat', Nat.mod_eq_of_lt hn]
      have hpos : (vec3Block (some (atomPositions frame))).length = frame.atomData.length * 3 * 8 := by
        rw [vec3Block, Option.getD_some, length_block, atomPositions, List.length_map]
      have hf := length_vec3Block (atomForces frame) _ fun vs => length_atomForces
      have hv := length_vec3Block (atomVelocities frame) _ fun vs => length_atomVelocities
      simp only [List.length_append, hhead, hpos, hf, hv] at hlt
      refine ⟨.message "cooked SoA truncated body", ?_⟩
      rw [decode_header, decodeBody, hnat, flags_forces, flags_velocities]
      exact if_pos (by omega)
  · rw [encodeFrame, if_pos (by omega)] at h
    cases h

end CookedSoa

end Decode

section Batch

def batchMagic : Bytes := [0x52, 0x43, 0x53, 0x42]
def batchVersion : UInt32 := 1

def encodeBlob (b : Bytes) : Result Bytes :=
  if b.length > 2 ^ 32 - 1 then .error (.message "RCSO blob exceeds u32 length") else .ok (leBytes 4 b.length ++ b)

def encodeBatch (blobs : List Bytes) : Result Bytes :=
  if blobs.length > 2 ^ 32 - 1 then .error (.message "too many frames in pack batch")
  else do
    let records ← blobs.mapM encodeBlob
    return batchMagic ++ leBytes 4 batchVersion.toNat ++ leBytes 4 blobs.length ++ records.flatten

def batchLoop (bytes : Bytes) : Nat → Nat → List Bytes → Checked Error (List Bytes)
  | 0, _, out => lift (.ok out)
  | n + 1, off, out => do
    let stop ← plus (usizeMax + 1) off 4
    if stop > bytes.length then lift (.error (.message "RCSB truncated length"))
    else do
      let ln ← readU32 bytes off stop
      let last ← plus (usizeMax + 1) stop ln
      if last > bytes.length then lift (.error (.message "RCSB truncated blob"))
      else do
        let blob ← slice bytes stop last
        batchLoop bytes n last (out ++ [blob])

-- The count is reserved before any of it is checked against the bytes that follow.
def decodeBatch (granted : Nat → Bool) (bytes : Bytes) : Checked Error (List Bytes) :=
  if bytes.length < 12 then lift (.error (.message "RCSB truncated header"))
  else do
    let magic ← slice bytes 0 4
    if magic ≠ batchMagic then lift (.error (.message "RCSB bad magic"))
    else do
      let version ← readU32 bytes 4 8
      if UInt32.ofNat version ≠ batchVersion then
        lift (.error (.message ("RCSB unsupported version " ++ toString (UInt32.ofNat version))))
      else do
        let n ← readU32 bytes 8 12
        reserve granted n
        batchLoop bytes n 12 []

def readBlob : Reader Error Bytes := do
  let ln ← word (.message "RCSB truncated length") 4
  take (.message "RCSB truncated blob") ln

theorem spells_blob {b : Bytes} (hb : b.length < 2 ^ 32) : Spells readBlob (leBytes 4 b.length ++ b) b :=
  (spells_word hb).bind (spells_take rfl)

variable {bytes : Bytes}

theorem batchLoop_eq (hb : bytes.length ≤ isizeMax) {n off : Nat} (ho : off ≤ bytes.length) (out : List Bytes) :
    batchLoop bytes n off out = lift ((fun s => out ++ s.1) <$> times readBlob n (bytes.drop off)) := by
  have hcap : bytes.length + 2 ^ 32 < usizeMax + 1 := by
    simp only [isizeMax, usizeMax] at hb ⊢
    omega
  induction n generalizing off out with
  | zero =>
    show lift (.ok out) = lift (.ok (out ++ []))
    rw [List.append_nil]
  | succ n ih =>
    have hlen : (bytes.drop off).length = bytes.length - off := List.length_drop
    rw [batchLoop, plus_ok (by omega), lift_ok_bind]
    show _ = lift ((fun s : List Bytes × Bytes => out ++ s.1) <$> (readBlob (bytes.drop off) >>= _))
    by_cases h4 : bytes.length < off + 4
    · have hread : readBlob (bytes.drop off) = .error (.message "RCSB truncated length") := by
        show (take _ 4 (bytes.drop off) >>= _) >>= _ = _
        rw [take, if_pos (by omega)]
        rfl
      rw [if_pos h4, hread]
      rfl
    · have hn := leNat_lt ((bytes.drop off).take 4)
      have hfour : ((bytes.drop off).take 4).length = 4 := by
        rw [List.length_take]
        omega
      rw [hfour] at hn
      have hlen4 : (bytes.drop (off + 4)).length = bytes.length - (off + 4) := List.length_drop
      have hword : readBlob (bytes.drop off) =
          take (.message "RCSB truncated blob") (leNat ((bytes.drop off).take 4)) (bytes.drop (off + 4)) := by
        show (take _ 4 (bytes.drop off) >>= _) >>= _ = _
        rw [take, if_neg (by omega), List.drop_drop]
        rfl
      rw [if_neg h4, readU32_ok _ (by omega), lift_ok_bind, plus_ok (by omega), lift_ok_bind, hword, take]
      by_cases hrest : bytes.length < off + 4 + leNat ((bytes.drop off).take 4)
      · rw [if_pos hrest, if_pos (by omega)]
        rfl
      · rw [if_neg hrest, if_neg (by omega), slice_ok (Nat.le_add_right _ _) (by omega), lift_ok_bind,
          Nat.add_sub_cancel_left, ih (by omega), List.drop_drop]
        show _ = lift ((fun s : List Bytes × Bytes => out ++ s.1) <$> (times readBlob n _ >>= _))
        cases times readBlob n (bytes.drop (off + 4 + leNat ((bytes.drop off).take 4))) with
        | error e => rfl
        | ok s => simp [Functor.map, Except.map, bind, Except.bind, pure, StateT.pure, Except.pure]

def batchRead (bytes : Bytes) : Result (List Bytes) :=
  if bytes.length < 12 then .error (.message "RCSB truncated header")
  else if bytes.take 4 ≠ batchMagic then .error (.message "RCSB bad magic")
  else if UInt32.ofNat (leNat ((bytes.drop 4).take 4)) ≠ batchVersion then
    .error (.message ("RCSB unsupported version " ++ toString (UInt32.ofNat (leNat ((bytes.drop 4).take 4)))))
  else Prod.fst <$> times readBlob (leNat ((bytes.drop 8).take 4)) (bytes.drop 12)

-- The count that `decode_batch` reserves room for, if it comes that far.
def reservedCount (bytes : Bytes) : Option Nat :=
  if bytes.length < 12 ∨ bytes.take 4 ≠ batchMagic ∨
    UInt32.ofNat (leNat ((bytes.drop 4).take 4)) ≠ batchVersion then none
  else some (leNat ((bytes.drop 8).take 4))

theorem decodeBatch_cases (granted : Nat → Bool) (hb : bytes.length ≤ isizeMax) : decodeBatch granted bytes =
    within granted (reservedCount bytes) (lift (batchRead bytes)) := by
  have hnone (h : reservedCount bytes = none) (x : Checked Error (List Bytes)) :
      within granted (reservedCount bytes) x = x := by
    rw [h]
    rfl
  rw [decodeBatch, batchRead]
  by_cases hlen : bytes.length < 12
  · rw [if_pos hlen, if_pos hlen, hnone (if_pos (.inl hlen))]
  · rw [if_neg hlen, if_neg hlen, slice_ok (by omega) (by omega), lift_ok_bind, List.drop_zero]
    by_cases hmagic : bytes.take 4 ≠ batchMagic
    · rw [if_pos hmagic, if_pos hmagic, hnone (if_pos (.inr (.inl hmagic)))]
    · rw [if_neg hmagic, if_neg hmagic, readU32_ok 4 (by omega), lift_ok_bind]
      by_cases hversion : UInt32.ofNat (leNat ((bytes.drop 4).take 4)) ≠ batchVersion
      · rw [if_pos hversion, if_pos hversion, hnone (if_pos (.inr (.inr hversion)))]
      · have hcount : reservedCount bytes = some (leNat ((bytes.drop 8).take 4)) :=
          if_neg (not_or.mpr ⟨hlen, not_or.mpr ⟨hmagic, hversion⟩⟩)
        rw [if_neg hversion, if_neg hversion, readU32_ok 8 (by omega), lift_ok_bind, hcount,
          batchLoop_eq hb (by omega)]
        rfl

theorem decodeBatch_eq {granted : Nat → Bool} (hg : (reservedCount bytes).all granted = true)
    (hb : bytes.length ≤ isizeMax) : decodeBatch granted bytes = lift (batchRead bytes) :=
  (decodeBatch_cases granted hb).trans (within_granted hg _)

def batchHeader (n : Nat) : Bytes := batchMagic ++ leBytes 4 batchVersion.toNat ++ leBytes 4 n

theorem length_batchHeader (n : Nat) : (batchHeader n).length = 12 := by simp [batchHeader, batchMagic]

theorem batchRead_header {n : Nat} (hn : n < 2 ^ 32) (body : Bytes) :
    batchRead (batchHeader n ++ body) = Prod.fst <$> times readBlob n body := by
  have hcount : leNat (leBytes 4 n) = n := by
    rw [leNat_leBytes]
    exact Nat.mod_eq_of_lt hn
  have hversion : UInt32.ofNat (leNat (leBytes 4 1)) = 1 := rfl
  have hdrop (m k : Nat) (hk : 4 ≤ k) : (leBytes 4 m).drop k = [] := List.drop_of_length_le (by simpa using hk)
  rw [batchRead, if_neg (by rw [List.length_append, length_batchHeader]; omega)]
  simp [batchHeader, List.take_append, List.drop_append, batchMagic, hdrop, hcount, hversion, batchVersion]

theorem reservedCount_header {granted : Nat → Bool} {m : Nat} (hm : m < 2 ^ 32) (hg : granted m = true)
    (body : Bytes) : (reservedCount (batchHeader m ++ body)).all granted = true := by
  rw [reservedCount]
  split
  · rfl
  · have hcount : leNat (leBytes 4 m) = m := by
      rw [leNat_leBytes]
      exact Nat.mod_eq_of_lt hm
    simp [batchHeader, batchMagic, hcount, hg]

theorem encodeBlob_ok {b : Bytes} (hb : b.length < 2 ^ 32) : encodeBlob b = .ok (leBytes 4 b.length ++ b) :=
  if_neg (by omega)

theorem encodeBatch_ok {blobs : List Bytes} {bytes : Bytes} (h : encodeBatch blobs = .ok bytes) :
    blobs.length < 2 ^ 32 ∧ (∀ b ∈ blobs, b.length < 2 ^ 32) ∧
      bytes = batchHeader blobs.length ++ blobs.flatMap fun b => leBytes 4 b.length ++ b := by
  rw [encodeBatch] at h
  split at h
  · cases h
  · next hn =>
    obtain ⟨records, hrecords, h⟩ := bind_eq_ok.mp h
    have hlen : ∀ b ∈ blobs, b.length < 2 ^ 32 := by
      intro b hmem
      obtain ⟨r, _, hr⟩ := forall₂_mem_left (mapM_eq_ok.mp hrecords) hmem
      rw [encodeBlob] at hr
      split at hr
      · cases hr
      · omega
    rw [mapM_ok_of_forall fun b hmem => encodeBlob_ok (hlen b hmem)] at hrecords
    obtain rfl := Except.ok.inj hrecords
    refine ⟨by omega, hlen, ?_⟩
    rw [← pure_eq_ok.mp h, batchHeader, List.flatMap_def]

theorem encodeBatch_total {blobs : List Bytes} (hn : blobs.length < 2 ^ 32) (hb : ∀ b ∈ blobs, b.length < 2 ^ 32) :
    ∃ bytes, encodeBatch blobs = .ok bytes := by
  rw [encodeBatch, if_neg (by omega), mapM_ok_of_forall fun b hmem => encodeBlob_ok (hb b hmem)]
  exact ⟨_, rfl⟩

theorem decodeBatch_encodeBatch {granted : Nat → Bool} {blobs : List Bytes} (hg : granted blobs.length = true)
    (h : encodeBatch blobs = .ok bytes) (hb : bytes.length ≤ isizeMax) :
    decodeBatch granted bytes = lift (.ok blobs) := by
  obtain ⟨hn, hlen, rfl⟩ := encodeBatch_ok h
  rw [decodeBatch_eq (reservedCount_header hn hg _) hb, batchRead_header hn,
    (spells_times fun b hmem => spells_blob (hlen b hmem)).reads_all]
  rfl

theorem decodeBatch_prefix {granted : Nat → Bool} {blobs : List Bytes} {pre : Bytes}
    (hg : granted blobs.length = true) (h : encodeBatch blobs = .ok bytes) (hb : bytes.length ≤ isizeMax)
    (hp : pre <+: bytes) (hne : pre ≠ bytes) : ∃ e, decodeBatch granted pre = lift (.error e) := by
  have hlt := strict_length hp hne
  obtain ⟨hn, hlen, rfl⟩ := encodeBatch_ok h
  by_cases hshort : pre.length < 12
  · exact ⟨.message "RCSB truncated header", by rw [decodeBatch, if_pos hshort]⟩
  · obtain ⟨body, rfl, hbody⟩ := prefix_after hp (by rw [length_batchHeader]; omega)
    obtain ⟨e, he⟩ := (spells_times fun b hmem => spells_blob (hlen b hmem)).stops body hbody
      fun heq => hne (by rw [heq])
    refine ⟨e, ?_⟩
    rw [decodeBatch_eq (reservedCount_header hn hg _) (by omega), batchRead_header hn, he]
    rfl

end Batch

section Exact

variable {F : Type} [Float64 F]

structure CodecExact (F : Type) [Float64 F] : Prop where
  frame : ∀ frame : ConFrame F, frame.atomData.length < 2 ^ 32 → ∃ b, CookedSoa.encodeFrame frame = .ok b ∧
    CookedSoa.decode b = .ok ⟨UInt32.ofNat frame.atomData.length, atomPositions frame, atomForces frame,
      atomVelocities frame⟩
  framePrefix : ∀ (frame : ConFrame F) b pre, CookedSoa.encodeFrame frame = .ok b → pre <+: b → pre ≠ b →
    ∃ e, (CookedSoa.decode pre : Result (CookedSoa F)) = .error e
  frameNever : ∀ bytes : Bytes, bytes.length ≤ isizeMax →
    (CookedSoa.decodeChecked bytes : Checked Error (CookedSoa F)) = lift (CookedSoa.decode bytes)
  batch : ∀ blobs : List Bytes, blobs.length < 2 ^ 32 → (∀ b ∈ blobs, b.length < 2 ^ 32) →
    ∃ bytes, encodeBatch blobs = .ok bytes ∧ (bytes.length ≤ isizeMax → ∀ granted : Nat → Bool,
      granted blobs.length = true → decodeBatch granted bytes = lift (.ok blobs))
  batchPrefix : ∀ blobs bytes pre, encodeBatch blobs = .ok bytes → bytes.length ≤ isizeMax → pre <+: bytes →
    pre ≠ bytes → ∀ granted : Nat → Bool, granted blobs.length = true →
      ∃ e, decodeBatch granted pre = lift (.error e)
  batchNever : ∀ (granted : Nat → Bool) (bytes : Bytes), bytes.length ≤ isizeMax →
    (NeverPanics (decodeBatch granted bytes) ↔ (reservedCount bytes).all granted = true)

theorem cooked_codecs_exact (F : Type) [Float64 F] : CodecExact F where
  frame frame hn := by
    refine ⟨_, CookedSoa.encodeFrame_eq hn, ?_⟩
    exact CookedSoa.decode_encodeFrame (CookedSoa.encodeFrame_eq hn)
  framePrefix frame b pre := CookedSoa.decode_prefix
  frameNever bytes := CookedSoa.decode_checked
  batch blobs hn hb := by
    obtain ⟨bytes, hbytes⟩ := encodeBatch_total hn hb
    exact ⟨bytes, hbytes, fun hlen granted hg => decodeBatch_encodeBatch hg hbytes hlen⟩
  batchPrefix blobs bytes pre h hb hp hne granted hg := decodeBatch_prefix hg h hb hp hne
  batchNever granted bytes hb := by
    rw [decodeBatch_cases granted hb]
    exact within_never

end Exact

end ReadconDb
