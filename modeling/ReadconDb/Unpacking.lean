import ReadconDb.PackQuery

set_option linter.unusedSectionVars false

namespace ReadconDb

open ByteString Outcome Slicing Slots Blocks

section Model

-- The status and what was written, or none where the call panics: `out` says that there is something to write to.
-- The room that an envelope's count asks for is taken as granted.
def rkrdbUnpackBatchNframes (buf : Option Bytes) (out : Bool) : Option (Int32 × Option UInt32) :=
  match buf with
  | none => some (rkrdbNull, none)
  | some bytes =>
    if !out then some (rkrdbNull, none)
    else
      match decodeBatch (fun _ => true) bytes with
      | none => none
      | some (.ok parts) => some (rkrdbOk, some (UInt32.ofNat parts.length))
      | some (.error _) => some (rkrdbErr, none)

variable (F : Type) [Float64 F]

def rkrdbUnpackPositions (buf : Option Bytes) (out : Bool) (capacityAtoms : UInt32) :
    Option (Int32 × Option (UInt32 × List F)) :=
  match buf with
  | none => some (rkrdbNull, none)
  | some bytes =>
    if !out then some (rkrdbNull, none)
    else
      match CookedSoa.decodeChecked (F := F) bytes with
      | none => none
      | some (.error _) => some (rkrdbErr, none)
      | some (.ok cooked) =>
        if cooked.natoms > capacityAtoms then some (rkrdbErr, none)
        else some (rkrdbOk, some (cooked.natoms, cooked.positions.flatMap Vec3.toList))

def rkrdbUnpackBatchItem (buf : Option Bytes) (index : UInt32) (out : Bool) (capacityAtoms : UInt32) :
    Option (Int32 × Option (UInt32 × List F)) :=
  match buf with
  | none => some (rkrdbNull, none)
  | some bytes =>
    if !out then some (rkrdbNull, none)
    else
      match decodeBatch (fun _ => true) bytes with
      | none => none
      | some (.error _) => some (rkrdbErr, none)
      | some (.ok parts) =>
        match parts[index.toNat]? with
        | none => some (rkrdbNotFound, none)
        | some item => rkrdbUnpackPositions F (some item) out capacityAtoms

end Model

section Frames

variable {F : Type} [Float64 F] {d : Crates F} {c : ConCorpus F} {key : FrameKey} {keys : List FrameKey} {bytes : Bytes}

theorem readVec3Block_length {n : Nat} {b : Bytes} {rows : List (Vec3 F)} (h : readVec3Block n b = .ok rows) :
    rows.length = n := by
  induction n generalizing b rows with
  | zero =>
    cases h
    rfl
  | succ n ih =>
    rw [readVec3Block] at h
    split at h
    · cases h
    · obtain ⟨rest, hrest, h⟩ := bind_eq_ok.mp h
      cases h
      rw [List.length_cons, ih hrest]

theorem guarded_ok {E A : Type} {P : Prop} [Decidable P] {e : E} {x : Except E A} {a : A}
    (h : (if P then .error e else x) = .ok a) : x = .ok a := by
  split at h
  · cases h
  · exact h

theorem decodeBody_natoms {natoms flags : UInt32} {cooked : CookedSoa F}
    (h : CookedSoa.decodeBody natoms flags bytes = .ok cooked) : cooked.positions.length = cooked.natoms.toNat := by
  rw [CookedSoa.decodeBody] at h
  obtain ⟨positions, hpositions, h⟩ := bind_eq_ok.mp (guarded_ok h)
  obtain ⟨forces, _, h⟩ := bind_eq_ok.mp h
  obtain ⟨velocities, _, h⟩ := bind_eq_ok.mp h
  cases h
  exact readVec3Block_length hpositions

theorem decode_natoms {cooked : CookedSoa F} (h : CookedSoa.decode bytes = .ok cooked) :
    cooked.positions.length = cooked.natoms.toNat := by
  rw [CookedSoa.decode] at h
  have hmagic := guarded_ok h
  have hversion := guarded_ok hmagic
  have hdtype := guarded_ok hversion
  exact decodeBody_natoms (guarded_ok hdtype)

theorem packFrame_positions (h : packFrame d c key = .ok bytes) :
    ∃ cooked : CookedSoa F, CookedSoa.decode bytes = .ok cooked ∧ getPositions d c key = .ok cooked.positions := by
  rw [packFrame] at h
  cases hrow : getCookedSoaBytes c key with
  | none =>
    rw [hrow] at h
    obtain ⟨frame, hframe, henc⟩ := bind_eq_ok.mp h
    refine ⟨_, CookedSoa.decode_encodeFrame henc, ?_⟩
    rw [getPositions, getCookedSoa, hrow]
    exact bind_eq_ok.mpr ⟨frame, hframe, rfl⟩
  | some row =>
    cases hdec : (CookedSoa.decode row : Result (CookedSoa F)) with
    | ok cooked =>
      have htry : (CookedSoa.tryDecode row : Option (CookedSoa F)) = some cooked := by
        rw [CookedSoa.tryDecode, hdec]
        rfl
      rw [hrow, Option.filter_some, htry] at h
      cases h
      refine ⟨cooked, hdec, ?_⟩
      rw [getPositions, getCookedSoa, hrow, Option.bind_some, htry]
    | error e =>
      have htry : (CookedSoa.tryDecode row : Option (CookedSoa F)) = none := by
        rw [CookedSoa.tryDecode, hdec]
        rfl
      rw [hrow, Option.filter_some, htry] at h
      obtain ⟨frame, hframe, henc⟩ := bind_eq_ok.mp h
      refine ⟨_, CookedSoa.decode_encodeFrame henc, ?_⟩
      rw [getPositions, getCookedSoa, hrow, Option.bind_some, htry]
      exact bind_eq_ok.mpr ⟨frame, hframe, rfl⟩

end Frames

section Unpack

theorem le_isizeMax {n : Nat} (h : n < 2 ^ 32) : n ≤ isizeMax := by
  have hmax : isizeMax = 2 ^ 63 - 1 := rfl
  omega

variable {F : Type} [Float64 F] {d : Crates F} {c : ConCorpus F} {keys : List FrameKey} {bytes : Bytes}

def unpacked (ps : List (Vec3 F)) (capacity : UInt32) : Int32 × Option (UInt32 × List F) :=
  if ps.length ≤ capacity.toNat then (rkrdbOk, some (UInt32.ofNat ps.length, ps.flatMap Vec3.toList))
  else (rkrdbErr, none)

structure Unpacks (d : Crates F) (c : ConCorpus F) (keys : List FrameKey) (bytes : Bytes) : Prop where
  count : rkrdbUnpackBatchNframes (some bytes) true = some (rkrdbOk, some (UInt32.ofNat keys.length))
  fits : keys.length < 2 ^ 32
  items : ∀ (i : UInt32) (key : FrameKey), keys[i.toNat]? = some key → ∃ ps, getPositions d c key = .ok ps ∧
    ∀ capacity, rkrdbUnpackBatchItem F (some bytes) i true capacity = some (unpacked ps capacity)
  past : ∀ (i : UInt32) (capacity : UInt32), keys.length ≤ i.toNat →
    rkrdbUnpackBatchItem F (some bytes) i true capacity = some (rkrdbNotFound, none)

theorem unpack_positions {cooked : CookedSoa F} (hb : bytes.length ≤ isizeMax)
    (h : CookedSoa.decode bytes = .ok cooked) (capacity : UInt32) :
    rkrdbUnpackPositions F (some bytes) true capacity = some (unpacked cooked.positions capacity) := by
  have hnatoms := decode_natoms h
  have hdecoded : (CookedSoa.decodeChecked bytes : Checked Error (CookedSoa F)) = lift (.ok cooked) := by
    rw [CookedSoa.decode_checked hb, h]
  have hroom : cooked.natoms > capacity ↔ ¬ cooked.positions.length ≤ capacity.toNat := by
    rw [hnatoms, gt_iff_lt, UInt32.lt_iff_toNat_lt, not_le]
  rw [rkrdbUnpackPositions, hdecoded]
  show (if cooked.natoms > capacity then some (rkrdbErr, none)
    else some (rkrdbOk, some (cooked.natoms, cooked.positions.flatMap Vec3.toList))) = _
  by_cases hfit : cooked.positions.length ≤ capacity.toNat
  · rw [if_neg fun hover => hroom.mp hover hfit, unpacked, if_pos hfit, hnatoms, UInt32.ofNat_toNat]
  · rw [if_pos (hroom.mpr hfit), unpacked, if_neg hfit]

theorem packFrames_unpacks (hb : bytes.length ≤ isizeMax) (h : packFrames d c keys = .ok bytes) :
    Unpacks d c keys bytes := by
  obtain ⟨blobs, hblobs, henc⟩ := bind_eq_ok.mp h
  have hpacked := mapM_eq_ok.mp hblobs
  have hlen : blobs.length = keys.length := hpacked.length_eq.symm
  obtain ⟨hn, hshorts, _⟩ := encodeBatch_ok henc
  have hdecoded : decodeBatch (fun _ => true) bytes = lift (.ok blobs) := decodeBatch_encodeBatch rfl henc hb
  have hitemAt (i capacity : UInt32) : rkrdbUnpackBatchItem F (some bytes) i true capacity =
      match blobs[i.toNat]? with
      | none => some (rkrdbNotFound, none)
      | some item => rkrdbUnpackPositions F (some item) true capacity := by
    rw [rkrdbUnpackBatchItem, hdecoded]
    rfl
  refine ⟨?_, hlen ▸ hn, fun i key hkey => ?_, fun i capacity hi => ?_⟩
  · rw [rkrdbUnpackBatchNframes, hdecoded, ← hlen]
    rfl
  · obtain ⟨hi, rfl⟩ := List.getElem?_eq_some_iff.mp hkey
    have hin : i.toNat < blobs.length := by omega
    have hpack := hpacked.get hi hin
    obtain ⟨cooked, hcooked, hpositions⟩ := packFrame_positions hpack
    refine ⟨cooked.positions, hpositions, fun capacity => ?_⟩
    have hshort : (blobs[i.toNat]).length ≤ isizeMax := le_isizeMax (hshorts _ (List.getElem_mem hin))
    rw [hitemAt i capacity, List.getElem?_eq_getElem hin]
    exact unpack_positions hshort hcooked capacity
  · have hnone : blobs[i.toNat]? = none := List.getElem?_eq_none (by omega)
    rw [hitemAt i capacity, hnone]

end Unpack

section Broadcast

theorem rkrdbErr_neg : rkrdbErr < 0 := by decide

theorem rkrdbNull_neg : rkrdbNull < 0 := by decide

variable {F : Type} [Float64 F] {pack : ConCorpus F → Result Bytes} {p : Process F} {id : Nat} {malloc : Nat → Bool}

-- A size that came out wrong leaves the buffer too small.
theorem sizedPack_ok (h : ¬ (sizedPack malloc p fun p buf => packThrough pack p id buf).1 < 0) :
    ∃ c bytes, liveCorpus p id = some c ∧ pack c = .ok bytes ∧ bytes.length < 2 ^ 31 ∧
      (sizedPack malloc p fun p buf => packThrough pack p id buf) = (asCInt bytes.length, some bytes) := by
  cases hc : liveCorpus p id with
  | none =>
    simp only [sizedPack, packThrough_dead pack hc, if_pos rkrdbNull_neg] at h
    exact absurd rkrdbNull_neg h
  | some c =>
    obtain ⟨hd, hask, hlive⟩ := packThrough_live pack hc none
    cases hp : pack c with
    | error e =>
      rw [hp] at hask
      simp only [sizedPack, hask, packReply, if_pos rkrdbErr_neg] at h
      exact absurd rkrdbErr_neg h
    | ok bytes =>
      obtain ⟨hd', hwrite, _⟩ := packThrough_live pack hlive (some (asCInt bytes.length).toInt.toNat)
      rw [hp] at hask hwrite
      have hasked : (packThrough pack p id none).1 = (asCInt bytes.length, none) := hask
      have hlt := (asCInt bytes.length).toInt_lt
      refine ⟨c, bytes, rfl, hp, ?_⟩
      simp only [sizedPack, hasked, hwrite, packReply] at h ⊢
      have hnonneg : ¬ asCInt bytes.length < 0 := fun hneg => by
        rw [if_pos hneg] at h
        exact h hneg
      rw [if_neg hnonneg] at h ⊢
      have halloc : ¬ (!malloc (asCInt bytes.length).toInt.toNat) = true := fun hfull => by
        rw [if_pos hfull] at h
        exact h rkrdbErr_neg
      rw [if_neg halloc] at h ⊢
      have hroom : ¬ (asCInt bytes.length).toInt.toNat < bytes.length := fun hsmall => by
        simp only [if_pos hsmall, if_pos rkrdbErr_neg] at h
        exact h rkrdbErr_neg
      simp only [if_neg hroom, if_neg hnonneg, and_true]
      omega

variable {allocates : List Bool} {bytes : Bytes}

theorem bcast_refused {n : Int32} {buf : Option Bytes} (hneg : n < 0) :
    (rkrdbOk, some bytes) ∉ rkrdbMpiBcastBlob (n, buf) allocates := by
  simp [rkrdbMpiBcastBlob, if_pos hneg]

theorem bcast_packed (h : (rkrdbOk, some bytes) ∈
    rkrdbMpiBcastBlob (sizedPack malloc p fun p buf => packThrough pack p id buf) allocates) :
    (∃ c, liveCorpus p id = some c ∧ pack c = .ok bytes ∧ bytes.length < 2 ^ 31) ∧
      ∀ r ∈ rkrdbMpiBcastBlob (sizedPack malloc p fun p buf => packThrough pack p id buf) allocates,
        r = (rkrdbOk, some bytes) := by
  have hsame (reply : Int32 × Option Bytes) : ∀ r ∈ reply :: allocates.map fun _ => reply, r = reply := by
    simp
  by_cases hneg : (sizedPack malloc p fun p buf => packThrough pack p id buf).1 < 0
  · exact absurd h (bcast_refused hneg)
  · obtain ⟨c, packed, hc, hp, hlen, hroot⟩ := sizedPack_ok hneg
    have hbuf : (if asCInt packed.length == 0 then some [] else some packed) = some packed := by
      split
      · next hz => rw [List.eq_nil_of_length_eq_zero ((asCInt_zero hlen).mp (beq_iff_eq.mp hz))]
      · rfl
    rw [hroot, rkrdbMpiBcastBlob] at h ⊢
    simp only [if_neg (asCInt_nonneg hlen), hbuf] at h ⊢
    split at h
    · have hne : rkrdbOk ≠ rkrdbErr := by decide
      exact absurd (congrArg Prod.fst (hsame _ _ h)) hne
    · next hall =>
      obtain rfl := Option.some.inj (congrArg Prod.snd (hsame _ _ h))
      rw [if_neg hall]
      exact ⟨⟨c, hc, hp, hlen⟩, hsame _⟩

variable {d : Crates F} {corpusDir : Option (Option (Process F × Nat))} {trajIds : Option (List UInt64)}
  {frameIdxs : Option (List UInt32)} {nkeys : UInt32}

theorem bcast_frames_unpack
    (h : (rkrdbOk, some bytes) ∈ rkrdbBcastPackedFrames d corpusDir trajIds frameIdxs nkeys malloc allocates) :
    (∃ p id ts is c, corpusDir = some (some (p, id)) ∧ trajIds = some ts ∧ frameIdxs = some is ∧
      liveCorpus p id = some c ∧ Unpacks d c (keysOf ts is nkeys) bytes) ∧
    ∀ r ∈ rkrdbBcastPackedFrames d corpusDir trajIds frameIdxs nkeys malloc allocates, r = (rkrdbOk, some bytes) := by
  unfold rkrdbBcastPackedFrames at h ⊢
  cases corpusDir with
  | none => exact absurd h (bcast_refused rkrdbNull_neg)
  | some opened =>
    by_cases hargs : (trajIds.isNone || frameIdxs.isNone || nkeys == 0) = true
    · simp only [if_pos hargs] at h
      exact absurd h (bcast_refused rkrdbNull_neg)
    · simp only [if_neg hargs] at h ⊢
      cases opened with
      | none => exact absurd h (bcast_refused rkrdbErr_neg)
      | some root =>
        obtain ⟨p, id⟩ := root
        simp only [Bool.or_eq_true, not_or, Option.isNone_iff_eq_none, beq_iff_eq] at hargs
        obtain ⟨⟨hts, his⟩, hn⟩ := hargs
        obtain ⟨ts, rfl⟩ := Option.ne_none_iff_exists'.mp hts
        obtain ⟨is, rfl⟩ := Option.ne_none_iff_exists'.mp his
        have hpack : (fun p buf => rkrdbPackFrames d p id (some ts) (some is) nkeys buf) =
            fun p buf => packThrough (fun c => packFrames d c (keysOf ts is nkeys)) p id buf := by
          funext p buf
          rw [rkrdbPackFrames, if_neg hn]
          rfl
        simp only [hpack] at h ⊢
        obtain ⟨⟨c, hc, hpacked, hlen⟩, hall⟩ := bcast_packed h
        have hshort : bytes.length ≤ isizeMax := le_isizeMax (hlen.trans (by decide))
        exact ⟨⟨p, id, ts, is, c, rfl, rfl, rfl, hc, packFrames_unpacks hshort hpacked⟩, hall⟩

end Broadcast

section Scatter

variable {F : Type} [Float64 F] {d : Crates F} {mpi : Mpi} {opened : Result (ConCorpus F)} {keys : List FrameKey}
  {size : Nat}

-- `MPI_Scatterv` as it is documented: each rank gets its count of bytes from its displacement on.
structure Mpi.Scatters (mpi : Mpi) : Prop where
  ranks : ∀ all p, (mpi.scatterv all p).length = p.counts.length
  sends : ∀ (all : Bytes) (p : Partition) (r n s : Nat), p.counts[r]?.map Int32.toInt = some (n : Int) →
    p.displs[r]?.map Int32.toInt = some (s : Int) → s + n ≤ all.length →
      (mpi.scatterv all p)[r]? = some (piece all s (s + n))

theorem scatterCall_inv {packed : Result (List Bytes)} {all : Bytes} {call : Partition}
    (h : scatterCall size packed = .ok (all, call)) :
    ∃ blocks, packed = .ok blocks ∧ all = blocks.flatten ∧ call = partitionOf (blocks.map lenI32) := by
  obtain ⟨vs, hvs, h⟩ := bind_eq_ok.mp h
  cases vs with
  | nil => cases collective_eq_ok.mp hvs
  | cons blocks rest =>
    obtain ⟨hpacked, _⟩ := List.cons.inj (collective_eq_ok.mp hvs)
    cases h
    exact ⟨blocks, hpacked, rfl, rfl⟩

theorem scatterv_blocks (hm : mpi.Scatters) {blocks : List Bytes} (hfit : (lensOf blocks).sum < 2 ^ 31) {r : Nat}
    {b : Bytes} (hb : blocks[r]? = some b) :
    (mpi.scatterv blocks.flatten (partitionOf (blocks.map lenI32)))[r]? = some b := by
  obtain ⟨hcounts, hdispls⟩ := ((all_exact_iff (lensOf blocks)).mpr hfit).1
  obtain ⟨hr, hget⟩ := List.getElem?_eq_some_iff.mp hb
  have hlen : r < (lensOf blocks).length := by rwa [lensOf, List.length_map]
  have hends : ((lensOf blocks).take r).sum + b.length ≤ blocks.flatten.length := by
    have hnext := sum_take_succ (lensOf blocks) hlen
    have hle := sum_take_le (lensOf blocks) (r + 1)
    have hat : (lensOf blocks)[r] = b.length := by simp [lensOf, hget]
    rw [List.length_flatten]
    exact (hat ▸ hnext) ▸ hle
  rw [map_lenI32, hm.sends blocks.flatten _ r b.length ((lensOf blocks).take r).sum ?_ ?_ hends]
  · exact congrArg some (piece_flatten hb)
  · rw [← List.getElem?_map, hcounts, List.getElem?_map, lensOf, List.getElem?_map, hb]
    rfl
  · rw [← List.getElem?_map, hdispls, List.getElem?_map, List.getElem?_range hlen]
    rfl

theorem scattered_frames_unpack (hm : mpi.Scatters) (hs : 0 < size) {out : List ((Nat × Nat) × Bytes)}
    (hfit : ∀ blocks, packBlocks d opened keys size = .ok blocks → (lensOf blocks).sum < 2 ^ 31)
    (h : scatterPackedFrames d mpi opened keys size = .ok out) :
    ∃ c, opened = .ok c ∧ out.length = size ∧
      (∀ rank < size, ∃ mine, out[rank]? = some (blockRange keys.length size rank, mine) ∧
        Unpacks d c (blockOf keys size rank) mine) ∧
      (List.range size).flatMap (blockOf keys size) = keys := by
  simp only [scatterPackedFrames, bcastKeys_eq] at h
  obtain ⟨⟨all, call⟩, hcall, h⟩ := bind_eq_ok.mp h
  obtain ⟨blocks, hpacked, rfl, rfl⟩ := scatterCall_inv hcall
  have hblocks := hfit blocks hpacked
  obtain ⟨c, hopened, hpacks⟩ := bind_eq_ok.mp hpacked
  have hsize : blocks.length = size := (mapM_length hpacks).trans List.length_range
  cases h
  refine ⟨c, hopened, ?_, fun rank hrank => ?_, ?_⟩
  · rw [List.length_mapIdx, hm.ranks, partitionOf, List.length_map, hsize]
  · have hin : rank < blocks.length := by omega
    have hpack := (mapM_eq_ok.mp hpacks).get (by rwa [List.length_range]) hin
    rw [List.get_eq_getElem, List.getElem_range] at hpack
    have hle : blocks[rank].length ≤ (lensOf blocks).sum := mem_le_sum (List.mem_map_of_mem (List.getElem_mem hin))
    refine ⟨blocks[rank], ?_, packFrames_unpacks (le_isizeMax (by omega)) hpack⟩
    rw [List.getElem?_mapIdx, scatterv_blocks hm hblocks (List.getElem?_eq_getElem hin)]
    rfl
  · rw [List.flatMap_def]
    exact blocks_flatten keys hs

end Scatter

section Tiny

theorem tiny_bcast_unpacks : tinyTwo.framesSoa.keys = [(⟨1, 0⟩ : FrameKey).toBytes.val] ∧ ∃ bytes,
    (rkrdbOk, some bytes) ∈ rkrdbBcastPackedFrames tiny (some (some (twoProcess, 0))) (some [0, 1]) (some [0, 0]) 2
      (fun _ => true) [true] ∧ Unpacks tiny tinyTwo [⟨0, 0⟩, ⟨1, 0⟩] bytes := by
  have hreplies : (rkrdbBcastPackedFrames tiny (some (some (twoProcess, 0))) (some [0, 1]) (some [0, 0]) 2
      (fun _ => true) [true]).head?.map (fun r => (r.1, r.2.isSome)) = some (rkrdbOk, true) := by decide +kernel
  obtain ⟨⟨status, buf⟩, hhead, hreply⟩ := Option.map_eq_some_iff.mp hreplies
  obtain ⟨bytes, rfl⟩ := Option.isSome_iff_exists.mp (congrArg Prod.snd hreply)
  obtain rfl : status = rkrdbOk := congrArg Prod.fst hreply
  have hmem := List.mem_of_head? hhead
  obtain ⟨⟨p, id, ts, is, c, hdir, hts, his, hc, hunpacks⟩, _⟩ := bcast_frames_unpack hmem
  obtain ⟨rfl, rfl⟩ := Prod.mk.inj (Option.some.inj (Option.some.inj hdir))
  obtain rfl := Option.some.inj hts
  obtain rfl := Option.some.inj his
  obtain rfl := Option.some.inj (two_live.symm.trans hc)
  exact ⟨tinyTwo_cooked, bytes, hmem, hunpacks⟩

def serialMpi : Mpi where
  scatterv all p := p.counts.mapIdx fun r n =>
    piece all ((p.displs[r]?).getD 0).toInt.toNat (((p.displs[r]?).getD 0).toInt.toNat + n.toInt.toNat)
  gatherv blocks _ _ := blocks.flatten

theorem serialMpi_scatters : serialMpi.Scatters where
  ranks all p := by rw [serialMpi, List.length_mapIdx]
  sends all p r n s hn hs _ := by
    obtain ⟨count, hcount, hn⟩ := Option.map_eq_some_iff.mp hn
    obtain ⟨displ, hdispl, hs⟩ := Option.map_eq_some_iff.mp hs
    simp only [serialMpi, List.getElem?_mapIdx, hcount, hdispl, Option.map_some, Option.getD_some, hn, hs,
      Int.toNat_natCast]

-- Each rank has one of the two frames, the second rank the cooked one.
theorem tiny_scatter_unpacks : ∃ out, scatterPackedFrames tiny serialMpi (.ok tinyTwo) [⟨0, 0⟩, ⟨1, 0⟩] 2 = .ok out ∧
    ∀ rank < 2, ∃ mine, out[rank]? = some (blockRange 2 2 rank, mine) ∧
      Unpacks tiny tinyTwo (blockOf [⟨0, 0⟩, ⟨1, 0⟩] 2 rank) mine := by
  have hsizes : (packBlocks tiny (.ok tinyTwo) [⟨0, 0⟩, ⟨1, 0⟩] 2).toOption.map (fun bs => (lensOf bs).sum) = some 128 := by
    decide +kernel
  have hruns : (scatterPackedFrames tiny serialMpi (.ok tinyTwo) [⟨0, 0⟩, ⟨1, 0⟩] 2).toOption.isSome = true := by
    decide +kernel
  obtain ⟨out, hok⟩ : ∃ out, scatterPackedFrames tiny serialMpi (.ok tinyTwo) [⟨0, 0⟩, ⟨1, 0⟩] 2 = .ok out := by
    cases hrun : scatterPackedFrames tiny serialMpi (.ok tinyTwo) [⟨0, 0⟩, ⟨1, 0⟩] 2 with
    | error es =>
      rw [hrun] at hruns
      cases hruns
    | ok out => exact ⟨out, rfl⟩
  have hfit : ∀ blocks, packBlocks tiny (.ok tinyTwo) [⟨0, 0⟩, ⟨1, 0⟩] 2 = .ok blocks → (lensOf blocks).sum < 2 ^ 31 := by
    intro blocks hblocks
    rw [hblocks] at hsizes
    have hsum : (lensOf blocks).sum = 128 := Option.some.inj hsizes
    omega
  obtain ⟨c, hopened, _, hranks, _⟩ := scattered_frames_unpack serialMpi_scatters Nat.two_pos hfit hok
  obtain rfl : tinyTwo = c := Except.ok.inj hopened
  exact ⟨out, hok, hranks⟩

end Tiny

end ReadconDb
