import ReadconDb.Maintenance
import ReadconDb.MpiRead
import ReadconDb.Library.Extents

set_option linter.unusedSectionVars false

namespace ReadconDb

open ByteString Outcome Blocks

section Rounds

@[irreducible] def chunk : Nat := 1073741824

structure WriteAt where
  offset : Int64
  buf : Bytes
  count : Int32

def WriteAt.data (w : WriteAt) : Bytes := w.buf.take w.count.toInt.toNat

-- The codes the calls return on each rank, and the bytes that stand in a file grown over them.
structure MpiFile where
  openCode : Nat → Int32
  setSizeCode : Int64 → Nat → Int32
  writeCode : WriteAt → Nat → Nat → Int32
  closeCode : Nat → Int32
  grown : Nat → UInt8

structure MpiFile.Documented (io : MpiFile) : Prop where
  size : ∀ n rank, io.setSizeCode n rank = 0 → 0 ≤ n.toInt
  offset : ∀ w k rank, io.writeCode w k rank = 0 → 0 ≤ w.offset.toInt

def rcOf (what : String) (r : Int32) : Result Unit :=
  if r = 0 then .ok () else .error (.message (what ++ " returned " ++ toString r))

def cString (path : String) : Result Unit :=
  match (utf8 path).findIdx? (· = 0) with
  | none => .ok ()
  | some pos => .error (.message ("nul byte found in provided data at position: " ++ toString pos))

-- Offsets of the blocks: `MPI_Exscan` leaves rank 0's undefined, and the code sets it.
def blockOffsets (undef : UInt64) (lens : List UInt64) : List UInt64 :=
  let scanned :=
    match (scan 0 lens).map Prod.fst with
    | [] => []
    | _ :: offs => undef :: offs
  scanned.mapIdx fun rank off => if rank = 0 then 0 else off

def divCeil (n m : Nat) : Nat := n / m + if 0 < n % m then 1 else 0

def writeRound (k : Nat) (off : UInt64) (bytes : Bytes) : WriteAt :=
  let lo := min (k * chunk) bytes.length
  let hi := min ((k + 1) * chunk) bytes.length
  { offset := (off + UInt64.ofNat lo).toInt64
    buf := if lo < hi then bytes.drop lo else [0]
    count := Int32.ofNat (hi - lo) }

def roundsOf (blocks : List Bytes) : Nat := (blocks.map fun b => divCeil b.length chunk).foldl max 0

def callsOf (ranks : List (UInt64 × Bytes)) : List WriteAt :=
  (List.range (roundsOf (ranks.map Prod.snd))).flatMap fun k => ranks.map fun r => writeRound k r.1 r.2

def toWrite (w : WriteAt) : Extents.Write UInt8 := { offset := w.offset.toInt.toNat, data := w.data }

abbrev FileBytes := Nat → Option UInt8

def ofBytes (b : Bytes) : FileBytes := fun i => b[i]?

def eachRank (size : Nat) (what : String) (code : Nat → Int32) : List (Result Unit) :=
  (List.range size).map fun rank => rcOf what (code rank)

def writeRounds (io : MpiFile) (rounds rank : Nat) (r : UInt64 × Bytes) : Result Unit :=
  (List.range rounds).foldl (fun res k =>
    match res with
    | .ok () => rcOf "MPI_File_write_at_all" (io.writeCode (writeRound k r.1 r.2) k rank)
    | .error e => .error e) (.ok ())

-- On an error the file is left as the calls made it.
def writeMpiio (io : MpiFile) (path : String) (ranks : List (UInt64 × Bytes)) (total : UInt64) : Spmd FileBytes := do
  let _ ← collective (List.replicate ranks.length (cString path))
  let _ ← collective (eachRank ranks.length "MPI_File_open" io.openCode)
  let _ ← collective (eachRank ranks.length "MPI_File_set_size" (io.setSizeCode total.toInt64))
  let _ ← collective (ranks.mapIdx (writeRounds io (roundsOf (ranks.map Prod.snd))))
  let _ ← collective (eachRank ranks.length "MPI_File_close" io.closeCode)
  return ((callsOf ranks).map toWrite).foldl Extents.put fun i => if i < total.toNat then some (io.grown i) else none

end Rounds

section Export

variable {F : Type} [Float64 F] (d : Crates F)

inductive WriteMode where
  | mpiIo
  | gather
  deriving DecidableEq, Repr

-- `write_frame_extxyz` into memory: it cannot fail there.
variable (xyz : ConFrame F → String → Bytes)

def renderFrame (c : ConCorpus F) (energyKey : String) (k : FrameKey) : Result Bytes := do
  return xyz (← getFrame d c k) energyKey

def destExists (path : String) : Error := .message ("export_extxyz dest exists: " ++ path)

def formatBlock (opened : Result Unit) (c : ConCorpus F) (energyKey : String) (keys : List FrameKey) : Result Bytes := do
  opened
  let parts ← keys.mapM (renderFrame d xyz c energyKey)
  return parts.flatten

structure SerialIo where
  create : Result Unit
  write : Nat → Result Unit
  flush : Result Unit

def exportExtxyz (sio : SerialIo) (c : ConCorpus F) (keys : List FrameKey) (path : String) (dest : Option Bytes)
    (energyKey : String) : Result Nat × Option Bytes :=
  match dest with
  | some b => (.error (destExists path), some b)
  | none =>
    match sio.create with
    | .error e => (.error e, none)
    | .ok () =>
      let written : Result Bytes := do
        let parts ← keys.zipIdx.mapM fun ki => do
          let fr ← getFrame d c ki.1
          sio.write ki.2
          return xyz fr energyKey
        sio.flush
        return parts.flatten
      match written with
      | .ok b => (.ok keys.length, some b)
      | .error e => (.error e, none)

-- What the ranks go by: the MPI library, each rank's open of the corpus, and rank 0's file in `Gather` mode.
structure Job where
  mpi : Mpi
  io : MpiFile
  opened : Nat → Result Unit
  written : Result Unit
  undef : UInt64

def ranksOf (undef : UInt64) (blocks : List Bytes) : List (UInt64 × Bytes) :=
  (blockOffsets undef (blocks.map fun b => UInt64.ofNat b.length)).zip blocks

def exportExtxyzCollective (job : Job) (c : ConCorpus F) (keys : List FrameKey) (size : Nat) (path : String)
    (dest : Option Bytes) (energyKey : String) (mode : WriteMode) : Spmd (Nat × FileBytes) := do
  let keys := bcastKeys keys
  let absent : Result Unit := if dest.isSome then .error (destExists path) else .ok ()
  let _ ← collective (absent :: List.replicate (size - 1) (.ok ()))
  let blocks ← collective ((List.range size).map fun rank =>
    formatBlock d xyz (job.opened rank) c energyKey (blockOf keys size rank))
  let total := (blocks.map fun b => UInt64.ofNat b.length).foldl (· + ·) 0
  let file ←
    match mode with
    | .mpiIo => writeMpiio job.io path (ranksOf job.undef blocks) total
    | .gather => ofBytes <$> writeGather job.mpi job.written blocks
  return (keys.length, file)

end Export

section Codes

theorem rcOf_ok {what : String} {r : Int32} : rcOf what r = .ok () ↔ r = 0 := by
  rw [rcOf]
  split
  · next h => simp [h]
  · next h => simp [h]

theorem all_ok_iff {rs : List (Result Unit)} : (∃ vs, collective rs = .ok vs) ↔ ∀ r ∈ rs, r = .ok () := by
  constructor
  · rintro ⟨vs, h⟩ r hr
    rw [collective_eq_ok.mp h] at hr
    obtain ⟨v, _, rfl⟩ := List.mem_map.mp hr
    rfl
  · intro h
    refine ⟨List.replicate rs.length (), collective_eq_ok.mpr ?_⟩
    rw [List.map_replicate]
    exact List.eq_replicate_iff.mpr ⟨rfl, h⟩

theorem eachRank_ok {size : Nat} {what : String} {code : Nat → Int32} :
    (∀ r ∈ eachRank size what code, r = .ok ()) ↔ ∀ rank < size, code rank = 0 := by
  simp only [eachRank, List.forall_mem_map, List.mem_range, rcOf_ok]

theorem writeRounds_ok {io : MpiFile} {rounds rank : Nat} {r : UInt64 × Bytes} :
    writeRounds io rounds rank r = .ok () ↔ ∀ k < rounds, io.writeCode (writeRound k r.1 r.2) k rank = 0 := by
  induction rounds with
  | zero => simp [writeRounds]
  | succ n ih =>
    have hstep : writeRounds io (n + 1) rank r =
        match writeRounds io n rank r with
        | .ok () => rcOf "MPI_File_write_at_all" (io.writeCode (writeRound n r.1 r.2) n rank)
        | .error e => .error e := by
      rw [writeRounds, List.range_succ, List.foldl_append]
      rfl
    rw [hstep]
    simp only [Nat.lt_succ_iff_lt_or_eq, or_imp, forall_and, forall_eq]
    cases hw : writeRounds io n rank r with
    | ok u =>
      rw [hw] at ih
      simp only [true_iff] at ih
      simp only [rcOf_ok]
      exact ⟨fun h => ⟨ih, h⟩, fun h => h.2⟩
    | error e =>
      rw [hw] at ih
      simp only [reduceCtorEq, false_iff] at ih ⊢
      exact fun h => ih h.1

structure MpiFile.Succeeds (io : MpiFile) (ranks : List (UInt64 × Bytes)) (total : UInt64) : Prop where
  opened : ∀ rank < ranks.length, io.openCode rank = 0
  sized : ∀ rank < ranks.length, io.setSizeCode total.toInt64 rank = 0
  wrote : ∀ rank, ∀ h : rank < ranks.length, ∀ k < roundsOf (ranks.map Prod.snd),
    io.writeCode (writeRound k ranks[rank].1 ranks[rank].2) k rank = 0
  closed : ∀ rank < ranks.length, io.closeCode rank = 0

def mpiioFile (io : MpiFile) (ranks : List (UInt64 × Bytes)) (total : UInt64) : FileBytes :=
  ((callsOf ranks).map toWrite).foldl Extents.put fun i => if i < total.toNat then some (io.grown i) else none

theorem writeMpiio_iff {io : MpiFile} {path : String} {ranks : List (UInt64 × Bytes)} {total : UInt64} {file : FileBytes}
    (hr : ranks ≠ []) :
    writeMpiio io path ranks total = .ok file ↔
      cString path = .ok () ∧ io.Succeeds ranks total ∧ file = mpiioFile io ranks total := by
  have hpath : (∀ r ∈ List.replicate ranks.length (cString path), r = .ok ()) ↔ cString path = .ok () := by
    rw [List.forall_mem_replicate]
    simp [hr]
  have hwrote : (∀ r ∈ ranks.mapIdx (writeRounds io (roundsOf (ranks.map Prod.snd))), r = .ok ()) ↔
      ∀ rank, ∀ h : rank < ranks.length, ∀ k < roundsOf (ranks.map Prod.snd),
        io.writeCode (writeRound k ranks[rank].1 ranks[rank].2) k rank = 0 := by
    simp only [List.mem_mapIdx, forall_exists_index]
    constructor
    · intro h rank hlt
      exact writeRounds_ok.mp (h _ rank hlt rfl)
    · rintro h r rank hlt rfl
      exact writeRounds_ok.mpr (h rank hlt)
  simp only [writeMpiio, bind_eq_ok, exists_and_right]
  rw [all_ok_iff, all_ok_iff, all_ok_iff, all_ok_iff, all_ok_iff, eachRank_ok, eachRank_ok, eachRank_ok, hpath, hwrote]
  constructor
  · rintro ⟨hp, ho, hs, hw, hc, hfile⟩
    exact ⟨hp, ⟨ho, hs, hw, hc⟩, (Except.ok.inj hfile).symm⟩
  · rintro ⟨hp, ⟨ho, hs, hw, hc⟩, rfl⟩
    exact ⟨hp, ho, hs, hw, hc, rfl⟩

end Codes

section Places

theorem toInt64_ofNat {n : Nat} : (UInt64.ofNat n).toInt64.toInt = (n : Int).bmod (2 ^ 64) := by
  rw [UInt64.toInt64_ofNat', Int64.toInt_ofNat']
  rfl

theorem toInt64_low {n : Nat} (h : n < 2 ^ 63) : (UInt64.ofNat n).toInt64.toInt = n := by
  rw [toInt64_ofNat, Int.bmod_def]
  omega

theorem nonneg_low {n : Nat} (h : 0 ≤ (UInt64.ofNat n).toInt64.toInt) : n % (2 * 2 ^ 63) < 2 ^ 63 := by
  rw [toInt64_ofNat, Int.bmod_def] at h
  omega

def startOf (blocks : List Bytes) (rank : Nat) : Nat := ((lensOf blocks).take rank).sum

theorem startOf_succ {blocks : List Bytes} {rank : Nat} (h : rank < blocks.length) :
    startOf blocks (rank + 1) = startOf blocks rank + blocks[rank].length := by
  have hl : rank < (lensOf blocks).length := by simpa [lensOf] using h
  rw [startOf, sum_take_succ _ hl, startOf]
  simp [lensOf]

theorem startOf_mono (blocks : List Bytes) : Monotone (startOf blocks) := fun _ _ h => sum_take_mono _ h

theorem startOf_length (blocks : List Bytes) : startOf blocks blocks.length = blocks.flatten.length := by
  rw [startOf, List.take_of_length_le (by simp [lensOf]), List.length_flatten]
  rfl

theorem blockOffsets_eq (undef : UInt64) (lens : List Nat) :
    blockOffsets undef (lens.map UInt64.ofNat) = (List.range lens.length).map fun r => UInt64.ofNat (lens.take r).sum := by
  have hscan := scan_hom UInt64.ofNat_add 0 lens
  simp only [Nat.zero_add] at hscan
  have hmap : (scan 0 (lens.map UInt64.ofNat)).map Prod.fst =
      (List.range lens.length).map fun r => UInt64.ofNat (lens.take r).sum := by
    rw [show (0 : UInt64) = UInt64.ofNat 0 from rfl, hscan, List.map_map]
    rfl
  rw [blockOffsets, hmap]
  apply List.ext_getElem
  · cases lens with
    | nil => rfl
    | cons n ns => simp [List.range_succ_eq_map]
  · intro r h _
    cases lens with
    | nil => simp at h
    | cons n ns =>
      cases r with
      | zero => simp [List.range_succ_eq_map]
      | succ r => simp [List.range_succ_eq_map]

theorem ranksOf_length (undef : UInt64) (blocks : List Bytes) : (ranksOf undef blocks).length = blocks.length := by
  have h := blockOffsets_eq undef (lensOf blocks)
  rw [lensOf, List.map_map] at h
  rw [ranksOf, List.length_zip]
  change min (blockOffsets undef (blocks.map (UInt64.ofNat ∘ List.length))).length blocks.length = blocks.length
  rw [h]
  simp

theorem ranksOf_get (undef : UInt64) (blocks : List Bytes) {rank : Nat} (h : rank < (ranksOf undef blocks).length)
    (h' : rank < blocks.length) : (ranksOf undef blocks)[rank] = (UInt64.ofNat (startOf blocks rank), blocks[rank]) := by
  have hoffs := blockOffsets_eq undef (lensOf blocks)
  rw [lensOf, List.map_map] at hoffs
  have hmap : (blocks.map fun b => UInt64.ofNat b.length) = blocks.map (UInt64.ofNat ∘ List.length) := rfl
  simp only [ranksOf, hmap, hoffs, List.getElem_zip, List.getElem_map, List.getElem_range, startOf, lensOf]

theorem ranksOf_snd (undef : UInt64) (blocks : List Bytes) : (ranksOf undef blocks).map Prod.snd = blocks := by
  have hlen := ranksOf_length undef blocks
  apply List.ext_getElem
  · rw [List.length_map, hlen]
  · intro r h h'
    rw [List.length_map] at h
    rw [List.getElem_map, ranksOf_get undef blocks h h']

theorem mem_ranksOf {undef : UInt64} {blocks : List Bytes} {r : UInt64 × Bytes} (h : r ∈ ranksOf undef blocks) :
    ∃ rank, ∃ hr : rank < blocks.length, r = (UInt64.ofNat (startOf blocks rank), blocks[rank]) := by
  obtain ⟨rank, hr, rfl⟩ := List.mem_iff_getElem.mp h
  have hr' : rank < blocks.length := by rwa [ranksOf_length] at hr
  exact ⟨rank, hr', ranksOf_get undef blocks hr hr'⟩

theorem total_eq (blocks : List Bytes) :
    (blocks.map fun b => UInt64.ofNat b.length).foldl (· + ·) 0 = UInt64.ofNat blocks.flatten.length := by
  have hfold (lens : List Nat) (s : Nat) :
      (lens.map UInt64.ofNat).foldl (· + ·) (UInt64.ofNat s) = UInt64.ofNat (s + lens.sum) := by
    induction lens generalizing s with
    | nil => rfl
    | cons n ns ih =>
      rw [List.map_cons, List.foldl_cons, ← UInt64.ofNat_add, ih, List.sum_cons, Nat.add_assoc]
  have h := hfold (lensOf blocks) 0
  rw [lensOf, List.map_map, Nat.zero_add, ← List.length_flatten] at h
  exact h

theorem le_roundsOf {blocks : List Bytes} {b : Bytes} (h : b ∈ blocks) : divCeil b.length chunk ≤ roundsOf blocks := by
  have hfold (ns : List Nat) (s n : Nat) (hn : n ≤ s ∨ n ∈ ns) : n ≤ ns.foldl max s := by
    induction ns generalizing s with
    | nil => simpa using hn
    | cons m ns ih =>
      apply ih
      rcases hn with hn | hn
      · exact .inl (le_max_of_le_left hn)
      · rcases List.mem_cons.mp hn with rfl | hn
        · exact .inl (le_max_right s n)
        · exact .inr hn
  exact hfold _ 0 _ (.inr (List.mem_map_of_mem h))

theorem lt_divCeil {k n m : Nat} (hm : 0 < m) (h : k * m < n) : k < divCeil n m := by
  have hdiv := Nat.div_add_mod n m
  have hle : k ≤ n / m := (Nat.le_div_iff_mul_le hm).mpr h.le
  rw [divCeil]
  split
  · omega
  · next hr =>
    by_contra hk
    obtain rfl : k = n / m := by omega
    rw [Nat.mul_comm] at h
    omega

theorem divCeil_covers {n k m : Nat} (hm : 0 < m) (h : divCeil n m ≤ k) : n ≤ k * m := by
  by_contra hk
  have hlt := lt_divCeil hm (by omega : k * m < n)
  omega

theorem chunk_pos : 0 < chunk := by
  rw [chunk]
  decide

theorem chunk_le : chunk ≤ 2 ^ 63 := by
  rw [chunk]
  norm_num

end Places

section Covered

variable {blocks : List Bytes} {undef : UInt64} {io : MpiFile}

theorem next_round (k : Nat) : (k + 1) * chunk = k * chunk + chunk := by rw [Nat.add_mul, Nat.one_mul]

theorem within {s n i a b : Nat} (hlo : s ≤ i) (hhi : i < s + n) (ha : a ≤ i - s) (hb : i - s < b) :
    s + min a n ≤ i ∧ i < s + min b n := by
  omega

theorem exists_round (n : Nat) : ∃ k, k * chunk ≤ n ∧ n < (k + 1) * chunk := by
  refine ⟨n / chunk, Nat.div_mul_le_self n chunk, ?_⟩
  rw [← Nat.div_lt_iff_lt_mul chunk_pos]
  exact Nat.lt_succ_self _

theorem round_count (k : Nat) (b : Bytes) :
    (Int32.ofNat (min ((k + 1) * chunk) b.length - min (k * chunk) b.length)).toInt =
      ((min ((k + 1) * chunk) b.length - min (k * chunk) b.length : Nat) : Int) := by
  have hk := next_round k
  have hc : chunk < 2 ^ 31 := by
    rw [chunk]
    norm_num
  apply toInt_ofNat_iff.mpr
  omega

theorem writeRound_data (k : Nat) (off : UInt64) (b : Bytes) :
    (writeRound k off b).data = piece b (min (k * chunk) b.length) (min ((k + 1) * chunk) b.length) := by
  have hcount : (writeRound k off b).count.toInt.toNat =
      min ((k + 1) * chunk) b.length - min (k * chunk) b.length := by
    change (Int32.ofNat (min ((k + 1) * chunk) b.length - min (k * chunk) b.length)).toInt.toNat = _
    rw [round_count, Int.toNat_natCast]
  rw [WriteAt.data, hcount, piece]
  change List.take _ (if min (k * chunk) b.length < min ((k + 1) * chunk) b.length then _ else _) = _
  split
  · rfl
  · next h =>
    have hz : min ((k + 1) * chunk) b.length - min (k * chunk) b.length = 0 := by omega
    rw [hz, List.take_zero, List.take_zero]

def placeOf (blocks : List Bytes) (rank k : Nat) (h : rank < blocks.length) : Nat :=
  startOf blocks rank + min (k * chunk) blocks[rank].length

theorem writeRound_offset {rank : Nat} (h : rank < blocks.length) (k : Nat) :
    (writeRound k (UInt64.ofNat (startOf blocks rank)) blocks[rank]).offset =
      (UInt64.ofNat (placeOf blocks rank k h)).toInt64 := by
  rw [writeRound, placeOf, UInt64.ofNat_add]

theorem placeOf_le {rank : Nat} (h : rank < blocks.length) (k : Nat) : placeOf blocks rank k h ≤ blocks.flatten.length := by
  have hs := startOf_succ h
  have hm := startOf_mono blocks (Nat.succ_le_of_lt h)
  rw [startOf_length] at hm
  simp only [Nat.succ_eq_add_one] at hm
  rw [placeOf]
  omega

theorem MpiFile.Succeeds.low (hio : io.Succeeds (ranksOf undef blocks) (UInt64.ofNat blocks.flatten.length))
    (hdoc : io.Documented)    (hne : blocks ≠ []) : blocks.flatten.length < 2 ^ 63 := by
  have hpos : 0 < blocks.length := List.length_pos_iff.mpr hne
  have htotal : blocks.flatten.length % (2 * 2 ^ 63) < 2 ^ 63 := by
    apply nonneg_low
    apply hdoc.size _ 0
    exact hio.sized 0 (by rwa [ranksOf_length])
  have hplace {rank : Nat} (h : rank < blocks.length) {k : Nat} (hk : k < roundsOf blocks) :
      placeOf blocks rank k h % (2 * 2 ^ 63) < 2 ^ 63 := by
    apply nonneg_low
    have hr : rank < (ranksOf undef blocks).length := by rwa [ranksOf_length]
    have hcode := hio.wrote rank hr k (by rwa [ranksOf_snd])
    rw [ranksOf_get undef blocks hr h] at hcode
    have hoff := hdoc.offset _ _ _ hcode
    rwa [writeRound_offset h] at hoff
  -- Where the next block starts shows in the next rank's first call, or in the size.
  have hnext (rank : Nat) (hr : rank ≤ blocks.length) : startOf blocks rank % (2 * 2 ^ 63) < 2 ^ 63 := by
    rcases hr.lt_or_eq with hlt | rfl
    · rcases Nat.eq_zero_or_pos (roundsOf blocks) with hz | hk
      · have hempty : ∀ b ∈ blocks, b.length = 0 := by
          intro b hb
          have hcov := divCeil_covers chunk_pos (le_roundsOf hb)
          rw [hz] at hcov
          omega
        have hzero : startOf blocks rank = 0 := by
          rw [startOf, List.sum_eq_zero_iff]
          intro n hn
          obtain ⟨b, hb, rfl⟩ := List.mem_map.mp (List.mem_of_mem_take hn)
          exact hempty b hb
        rw [hzero]
        decide
      · have h := hplace hlt hk
        rwa [placeOf, Nat.zero_mul, Nat.zero_min, Nat.add_zero] at h
    · rwa [startOf_length]
  have hstart (rank : Nat) (hr : rank ≤ blocks.length) : startOf blocks rank < 2 ^ 63 := by
    induction rank with
    | zero => simp [startOf]
    | succ rank ih =>
      have hlt : rank < blocks.length := hr
      have hend : blocks[rank].length ≤ roundsOf blocks * chunk :=
        divCeil_covers chunk_pos (le_roundsOf (List.getElem_mem hlt))
      have hfirst : placeOf blocks rank 0 hlt < 2 ^ 63 := by
        rw [placeOf, Nat.zero_mul, Nat.zero_min, Nat.add_zero]
        exact ih hlt.le
      have hstep (k : Nat) : placeOf blocks rank (k + 1) hlt ≤ placeOf blocks rank k hlt + chunk := by
        rw [placeOf, placeOf, next_round]
        omega
      have hshows (k : Nat) : placeOf blocks rank k hlt % (2 * 2 ^ 63) < 2 ^ 63 := by
        by_cases hk : k < roundsOf blocks
        · exact hplace hlt hk
        · have hsat : blocks[rank].length ≤ k * chunk := hend.trans (Nat.mul_le_mul_right _ (by omega))
          have heq : placeOf blocks rank k hlt = startOf blocks (rank + 1) := by
            rw [placeOf, Nat.min_eq_right hsat, startOf_succ hlt]
          rw [heq]
          exact hnext _ hr
      have hwalk := no_wrap (fun k => placeOf blocks rank k hlt) hfirst chunk_le hstep hshows (roundsOf blocks)
      rw [startOf_succ hlt]
      rwa [placeOf, Nat.min_eq_right hend] at hwalk
  have h := hstart blocks.length le_rfl
  rwa [startOf_length] at h

theorem toWrite_length (k : Nat) (off : UInt64) (b : Bytes) : (toWrite (writeRound k off b)).data.length =
    min ((k + 1) * chunk) b.length - min (k * chunk) b.length := by
  change (writeRound k off b).data.length = _
  rw [writeRound_data, length_piece (Nat.min_le_right _ _)]

section Low

variable (hlow : blocks.flatten.length < 2 ^ 63)
include hlow

theorem toWrite_offset {rank : Nat} (h : rank < blocks.length) (k : Nat) :
    (toWrite (writeRound k (UInt64.ofNat (startOf blocks rank)) blocks[rank])).offset = placeOf blocks rank k h := by
  have hp := placeOf_le h k
  rw [toWrite, writeRound_offset h, toInt64_low (hp.trans_lt hlow), Int.toNat_natCast]

theorem toWrite_covers {rank : Nat} (h : rank < blocks.length) (k i : Nat) :
    (toWrite (writeRound k (UInt64.ofNat (startOf blocks rank)) blocks[rank])).Covers i ↔
      placeOf blocks rank k h ≤ i ∧ i < placeOf blocks rank (k + 1) h := by
  have hstop : placeOf blocks rank k h +
      (min ((k + 1) * chunk) blocks[rank].length - min (k * chunk) blocks[rank].length) =
        placeOf blocks rank (k + 1) h := by
    have hk := next_round k
    rw [placeOf, placeOf]
    omega
  rw [Extents.Write.Covers, Extents.Write.stop, toWrite_offset hlow h, toWrite_length, hstop]

theorem toWrite_of {rank : Nat} (h : rank < blocks.length) (k : Nat) :
    (toWrite (writeRound k (UInt64.ofNat (startOf blocks rank)) blocks[rank])).Of blocks.flatten := by
  intro j hj
  rw [toWrite_length] at hj
  have hin : min (k * chunk) blocks[rank].length + j < blocks[rank].length := by omega
  rw [toWrite_offset hlow h, placeOf, Nat.add_assoc]
  refine Eq.trans ?_ (flatten_at blocks h hin).symm
  change (writeRound k (UInt64.ofNat (startOf blocks rank)) blocks[rank]).data[j]? = _
  rw [writeRound_data, piece, List.getElem?_take_of_lt hj, List.getElem?_drop]

theorem covers_block {rank : Nat} (h : rank < blocks.length) {k i : Nat}
    (hc : (toWrite (writeRound k (UInt64.ofNat (startOf blocks rank)) blocks[rank])).Covers i) :
    startOf blocks rank ≤ i ∧ i < startOf blocks (rank + 1) := by
  obtain ⟨hlo, hhi⟩ := (toWrite_covers hlow h k i).mp hc
  rw [placeOf] at hlo hhi
  rw [startOf_succ h]
  omega

end Low

theorem mem_callsOf {w : WriteAt} : w ∈ callsOf (ranksOf undef blocks) ↔ ∃ k < roundsOf blocks, ∃ rank,
    ∃ h : rank < blocks.length, w = writeRound k (UInt64.ofNat (startOf blocks rank)) blocks[rank] := by
  simp only [callsOf, ranksOf_snd, List.mem_flatMap, List.mem_range, List.mem_map]
  constructor
  · rintro ⟨k, hk, r, hr, rfl⟩
    obtain ⟨rank, h, rfl⟩ := mem_ranksOf hr
    exact ⟨k, hk, rank, h, rfl⟩
  · rintro ⟨k, hk, rank, h, rfl⟩
    have hr : rank < (ranksOf undef blocks).length := by rwa [ranksOf_length]
    refine ⟨k, hk, (ranksOf undef blocks)[rank], List.getElem_mem hr, ?_⟩
    rw [ranksOf_get undef blocks hr h]

theorem calls_of (hlow : blocks.flatten.length < 2 ^ 63) :
    ∀ w ∈ (callsOf (ranksOf undef blocks)).map toWrite, w.Of blocks.flatten := by
  intro w hw
  obtain ⟨call, hcall, rfl⟩ := List.mem_map.mp hw
  obtain ⟨k, _, rank, h, rfl⟩ := mem_callsOf.mp hcall
  exact toWrite_of hlow h k

theorem calls_cover_iff (hlow : blocks.flatten.length < 2 ^ 63) (i : Nat) :
    (∃ w ∈ (callsOf (ranksOf undef blocks)).map toWrite, w.Covers i) ↔ i < blocks.flatten.length := by
  constructor
  · rintro ⟨w, hw, hi⟩
    obtain ⟨call, hcall, rfl⟩ := List.mem_map.mp hw
    obtain ⟨k, _, rank, h, rfl⟩ := mem_callsOf.mp hcall
    have hp := placeOf_le h (k + 1)
    have := ((toWrite_covers hlow h k i).mp hi).2
    omega
  · intro hi
    have hsum : i < (lensOf blocks).sum := by rwa [lensOf, ← List.length_flatten]
    obtain ⟨rank, hr, hlo, hhi⟩ := exists_block (lensOf blocks) hsum
    have h : rank < blocks.length := by simpa [lensOf] using hr
    change startOf blocks rank ≤ i at hlo
    change i < startOf blocks (rank + 1) at hhi
    rw [startOf_succ h] at hhi
    obtain ⟨k, hklo, hkhi⟩ := exists_round (i - startOf blocks rank)
    have hcov : placeOf blocks rank k h ≤ i ∧ i < placeOf blocks rank (k + 1) h := within hlo hhi hklo hkhi
    have hk : k < roundsOf blocks := by
      have hlt : k * chunk < blocks[rank].length := hklo.trans_lt (Nat.sub_lt_left_of_lt_add hlo hhi)
      exact (lt_divCeil chunk_pos hlt).trans_le (le_roundsOf (List.getElem_mem h))
    exact ⟨_, List.mem_map_of_mem (mem_callsOf.mpr ⟨k, hk, rank, h, rfl⟩), (toWrite_covers hlow h k i).mpr hcov⟩

theorem calls_apart (hlow : blocks.flatten.length < 2 ^ 63) :
    ((callsOf (ranksOf undef blocks)).map toWrite).Pairwise Extents.Apart := by
  have hranks : (ranksOf undef blocks).Pairwise fun r q =>
      ∀ k l, Extents.Apart (toWrite (writeRound k r.1 r.2)) (toWrite (writeRound l q.1 q.2)) := by
    rw [List.pairwise_iff_getElem]
    intro rank rank' hr hr' hlt k l i ⟨hi, hi'⟩
    have h : rank < blocks.length := by rwa [ranksOf_length] at hr
    have h' : rank' < blocks.length := by rwa [ranksOf_length] at hr'
    rw [ranksOf_get undef blocks hr h] at hi
    rw [ranksOf_get undef blocks hr' h'] at hi'
    have hb := covers_block hlow h hi
    have hb' := covers_block hlow h' hi'
    have hm := startOf_mono blocks (Nat.succ_le_of_lt hlt)
    exact absurd (hb.2.trans_le (hm.trans hb'.1)) (lt_irrefl i)
  have hrounds {rank : Nat} (h : rank < blocks.length) {k l : Nat} (hkl : k < l) :
      Extents.Apart (toWrite (writeRound k (UInt64.ofNat (startOf blocks rank)) blocks[rank]))
        (toWrite (writeRound l (UInt64.ofNat (startOf blocks rank)) blocks[rank])) := by
    intro i ⟨hi, hi'⟩
    have hb := ((toWrite_covers hlow h k i).mp hi).2
    have hb' := ((toWrite_covers hlow h l i).mp hi').1
    have hm : placeOf blocks rank (k + 1) h ≤ placeOf blocks rank l h :=
      Nat.add_le_add_left (min_le_min_right _ (Nat.mul_le_mul_right chunk hkl)) _
    exact absurd (hb.trans_le (hm.trans hb')) (lt_irrefl i)
  rw [List.pairwise_map, callsOf, List.pairwise_flatMap]
  constructor
  · intro k _
    rw [List.pairwise_map]
    exact hranks.imp fun h => h k k
  · refine List.pairwise_lt_range.imp ?_
    intro k l hkl w hw v hv
    obtain ⟨r, hr, rfl⟩ := List.mem_map.mp hw
    obtain ⟨q, hq, rfl⟩ := List.mem_map.mp hv
    by_cases heq : r = q
    · subst heq
      obtain ⟨rank, h, rfl⟩ := mem_ranksOf hr
      exact hrounds h hkl
    · have hsymm : Std.Symm fun r q : UInt64 × Bytes =>
          ∀ k l, Extents.Apart (toWrite (writeRound k r.1 r.2)) (toWrite (writeRound l q.1 q.2)) :=
        ⟨fun _ _ h k l => Std.Symm.symm _ _ (h l k)⟩
      exact hranks.forall hr hq heq k l

theorem calls_once (hlow : blocks.flatten.length < 2 ^ 63) (i : Nat) :
    ((callsOf (ranksOf undef blocks)).map toWrite).countP (fun w => w.Covers i) =
      if i < blocks.flatten.length then 1 else 0 := by
  split
  · next hi => exact Extents.covered_once (calls_apart hlow) ((calls_cover_iff hlow i).mpr hi)
  · next hi =>
    rw [List.countP_eq_zero]
    intro w hw hc
    exact hi ((calls_cover_iff hlow i).mp ⟨w, hw, by simpa using hc⟩)

theorem mpiioFile_eq (hlow : blocks.flatten.length < 2 ^ 63) :
    mpiioFile io (ranksOf undef blocks) (UInt64.ofNat blocks.flatten.length) = ofBytes blocks.flatten := by
  have htotal : (UInt64.ofNat blocks.flatten.length).toNat = blocks.flatten.length := by
    rw [UInt64.toNat_ofNat', Nat.mod_eq_of_lt (by omega)]
  funext i
  rw [mpiioFile, Extents.puts_of (calls_of hlow)]
  simp only [calls_cover_iff hlow i, htotal]
  split
  · rfl
  · next hi => rw [ofBytes, List.getElem?_eq_none (by omega)]

end Covered

section Serial

variable {F : Type} [Float64 F] {d : Crates F} {xyz : ConFrame F → String → Bytes} {job : Job} {c : ConCorpus F}
  {keys : List FrameKey} {size : Nat} {path energyKey : String} {parts : List Bytes}

def blocksOf (parts : List Bytes) (size : Nat) : List Bytes :=
  (List.range size).map fun rank =>
    (piece parts (blockRange parts.length size rank).1 (blockRange parts.length size rank).2).flatten

theorem blocksOf_flatten (parts : List Bytes) (hs : 0 < size) : (blocksOf parts size).flatten = parts.flatten := by
  have h := congrArg List.flatten (blocks_flatten parts hs)
  rw [List.flatten_flatten, List.map_map] at h
  exact h

theorem blocksOf_ne_nil (hs : 0 < size) : blocksOf parts size ≠ [] := by
  rw [← List.length_pos_iff, blocksOf, List.length_map, List.length_range]
  exact hs

theorem mapM_piece {A B : Type} {f : A → Result B} {xs : List A} {ys : List B} (h : xs.mapM f = .ok ys) (lo hi : Nat) :
    (piece xs lo hi).mapM f = .ok (piece ys lo hi) :=
  mapM_eq_ok.mpr (List.forall₂_take _ (List.forall₂_drop _ (mapM_eq_ok.mp h)))

theorem formatBlock_eq (hparts : keys.mapM (renderFrame d xyz c energyKey) = .ok parts) (rank : Nat) :
    formatBlock d xyz (.ok ()) c energyKey (blockOf keys size rank) =
      .ok (piece parts (blockRange parts.length size rank).1 (blockRange parts.length size rank).2).flatten := by
  have hlen : parts.length = keys.length := mapM_length hparts
  rw [formatBlock, blockOf, hlen, mapM_piece hparts]
  rfl

theorem mem_blockOf (hs : 0 < size) {k : FrameKey} (hk : k ∈ keys) : ∃ rank < size, k ∈ blockOf keys size rank := by
  rw [← blocks_flatten keys hs, List.mem_flatten] at hk
  obtain ⟨block, hblock, hk⟩ := hk
  obtain ⟨rank, hrank, rfl⟩ := List.mem_map.mp hblock
  exact ⟨rank, List.mem_range.mp hrank, hk⟩

theorem formatBlock_ok {opened : Result Unit} {ks : List FrameKey} {b : Bytes}
    (h : formatBlock d xyz opened c energyKey ks = .ok b) :
    opened = .ok () ∧ ∀ k ∈ ks, ∃ part, renderFrame d xyz c energyKey k = .ok part := by
  obtain ⟨u, hu, h⟩ := bind_eq_ok.mp h
  obtain ⟨ps, hps, _⟩ := bind_eq_ok.mp h
  refine ⟨hu, fun k hk => ?_⟩
  obtain ⟨part, _, hpart⟩ := forall₂_mem_left (mapM_eq_ok.mp hps) hk
  exact ⟨part, hpart⟩

theorem blocks_iff (hs : 0 < size) {blocks : List Bytes} :
    collective ((List.range size).map fun rank =>
      formatBlock d xyz (job.opened rank) c energyKey (blockOf keys size rank)) = .ok blocks ↔
    (∀ rank < size, job.opened rank = .ok ()) ∧
      ∃ parts, keys.mapM (renderFrame d xyz c energyKey) = .ok parts ∧ blocks = blocksOf parts size := by
  rw [collective_eq_ok]
  have hform (hopen : ∀ rank < size, job.opened rank = .ok ()) {parts : List Bytes}
      (hparts : keys.mapM (renderFrame d xyz c energyKey) = .ok parts) :
      ((List.range size).map fun rank => formatBlock d xyz (job.opened rank) c energyKey (blockOf keys size rank)) =
        (blocksOf parts size).map Except.ok := by
    rw [blocksOf, List.map_map]
    apply List.map_congr_left
    intro rank hrank
    rw [hopen rank (List.mem_range.mp hrank), formatBlock_eq hparts]
    rfl
  constructor
  · intro h
    have hall : ∀ rank < size, ∃ b, formatBlock d xyz (job.opened rank) c energyKey (blockOf keys size rank) = .ok b := by
      intro rank hrank
      have hmem := List.mem_map_of_mem
        (f := fun rank => formatBlock d xyz (job.opened rank) c energyKey (blockOf keys size rank))
        (List.mem_range.mpr hrank)
      rw [h] at hmem
      obtain ⟨b, _, hb⟩ := List.mem_map.mp hmem
      exact ⟨b, hb.symm⟩
    have hopen : ∀ rank < size, job.opened rank = .ok () := by
      intro rank hrank
      obtain ⟨b, hb⟩ := hall rank hrank
      exact (formatBlock_ok hb).1
    obtain ⟨parts, hparts⟩ : ∃ parts, keys.mapM (renderFrame d xyz c energyKey) = .ok parts := by
      apply mapM_total
      intro k hk
      obtain ⟨rank, hrank, hk⟩ := mem_blockOf hs hk
      obtain ⟨b, hb⟩ := hall rank hrank
      exact (formatBlock_ok hb).2 k hk
    rw [hform hopen hparts] at h
    exact ⟨hopen, parts, hparts, (List.map_injective_iff.mpr (fun _ _ => Except.ok.inj) h).symm⟩
  · rintro ⟨hopen, parts, hparts, rfl⟩
    exact hform hopen hparts

structure Job.Succeeds (job : Job) (size : Nat) (blocks : List Bytes) : Prop where
  opened : ∀ rank < size, job.opened rank = .ok ()
  calls : job.io.Succeeds (ranksOf job.undef blocks) (UInt64.ofNat blocks.flatten.length)

theorem export_iff (hs : 0 < size) {dest : Option Bytes} {n : Nat} {file : FileBytes} :
    exportExtxyzCollective d xyz job c keys size path dest energyKey .mpiIo = .ok (n, file) ↔
      dest = none ∧ cString path = .ok () ∧ n = keys.length ∧
        ∃ parts, keys.mapM (renderFrame d xyz c energyKey) = .ok parts ∧ job.Succeeds size (blocksOf parts size) ∧
          file = mpiioFile job.io (ranksOf job.undef (blocksOf parts size))
            (UInt64.ofNat (blocksOf parts size).flatten.length) := by
  have hdest : (∃ vs, collective ((if dest.isSome then .error (destExists path) else .ok () : Result Unit) ::
      List.replicate (size - 1) (.ok ())) = .ok vs) ↔ dest = none := by
    rw [all_ok_iff]
    cases dest with
    | none => simp
    | some b => simp
  simp only [exportExtxyzCollective, bcastKeys_eq, bind_eq_ok, exists_and_right, hdest, blocks_iff hs, total_eq, pure_eq_ok,
    Prod.mk.injEq]
  constructor
  · rintro ⟨hd, blocks, ⟨hopen, parts, hparts, rfl⟩, file', hfile, rfl, rfl⟩
    have hne : ranksOf job.undef (blocksOf parts size) ≠ [] := by
      rw [← List.length_pos_iff, ranksOf_length]
      exact List.length_pos_iff.mpr (blocksOf_ne_nil hs)
    obtain ⟨hpath, hio, rfl⟩ := (writeMpiio_iff hne).mp hfile
    exact ⟨hd, hpath, rfl, parts, hparts, ⟨hopen, hio⟩, rfl⟩
  · rintro ⟨hd, hpath, rfl, parts, hparts, ⟨hopen, hio⟩, rfl⟩
    have hne : ranksOf job.undef (blocksOf parts size) ≠ [] := by
      rw [← List.length_pos_iff, ranksOf_length]
      exact List.length_pos_iff.mpr (blocksOf_ne_nil hs)
    exact ⟨hd, _, ⟨hopen, parts, hparts, rfl⟩, _, (writeMpiio_iff hne).mpr ⟨hpath, hio, rfl⟩, rfl, rfl⟩

structure SerialIo.Succeeds (sio : SerialIo) : Prop where
  create : sio.create = .ok ()
  write : ∀ i, sio.write i = .ok ()
  flush : sio.flush = .ok ()

theorem serial_writes {sio : SerialIo} (hsio : sio.Succeeds)
    (hparts : keys.mapM (renderFrame d xyz c energyKey) = .ok parts) :
    exportExtxyz d xyz sio c keys path none energyKey = (.ok keys.length, some parts.flatten) := by
  have hsame : (fun ki : FrameKey × Nat => (do
      let fr ← getFrame d c ki.1
      sio.write ki.2
      return xyz fr energyKey : Result Bytes)) = renderFrame d xyz c energyKey ∘ Prod.fst := by
    funext ki
    simp only [hsio.write, renderFrame, Function.comp_apply]
    rfl
  have hall : keys.zipIdx.mapM (renderFrame d xyz c energyKey ∘ Prod.fst) = .ok parts := by
    rw [← List.mapM_map, List.zipIdx_map_fst]
    exact hparts
  simp only [exportExtxyz, hsio.create, hsame, hall, hsio.flush]
  rfl

structure WritesSerial (d : Crates F) (xyz : ConFrame F → String → Bytes) (job : Job) (c : ConCorpus F)
    (keys : List FrameKey) (size : Nat) (path energyKey : String) : Prop where
  succeeds : ∀ parts, keys.mapM (renderFrame d xyz c energyKey) = .ok parts → cString path = .ok () →
    job.Succeeds size (blocksOf parts size) →
      exportExtxyzCollective d xyz job c keys size path none energyKey .mpiIo = .ok (keys.length, ofBytes parts.flatten)
  exact : ∀ dest n file, exportExtxyzCollective d xyz job c keys size path dest energyKey .mpiIo = .ok (n, file) →
    ∃ parts, keys.mapM (renderFrame d xyz c energyKey) = .ok parts ∧ n = keys.length ∧ file = ofBytes parts.flatten ∧
      (∀ sio : SerialIo, sio.Succeeds → exportExtxyz d xyz sio c keys path none energyKey = (.ok n, some parts.flatten)) ∧
      ∀ i, ((callsOf (ranksOf job.undef (blocksOf parts size))).map toWrite).countP (fun w => w.Covers i) =
        if i < parts.flatten.length then 1 else 0

theorem collective_export_serial (hdoc : job.io.Documented) (hs : 0 < size) :
    WritesSerial d xyz job c keys size path energyKey where
  succeeds parts hparts hpath hjob := by
    have hlow := hjob.calls.low hdoc (blocksOf_ne_nil hs)
    refine (export_iff hs).mpr ⟨rfl, hpath, rfl, parts, hparts, hjob, ?_⟩
    rw [mpiioFile_eq hlow, blocksOf_flatten parts hs]
  exact dest n file h := by
    obtain ⟨_, _, rfl, parts, hparts, hjob, rfl⟩ := (export_iff hs).mp h
    have hlow := hjob.calls.low hdoc (blocksOf_ne_nil hs)
    refine ⟨parts, hparts, rfl, ?_, fun sio hsio => serial_writes hsio hparts, fun i => ?_⟩
    · rw [mpiioFile_eq hlow, blocksOf_flatten parts hs]
    · rw [calls_once hlow, blocksOf_flatten parts hs]

end Serial

section Tiny

def tinyIo : MpiFile where
  openCode _ := 0
  setSizeCode n _ := if 0 ≤ n.toInt then 0 else 1
  writeCode w _ _ := if 0 ≤ w.offset.toInt then 0 else 1
  closeCode _ := 0
  grown _ := 0

def tinyJob : Job where
  mpi := { scatterv := fun _ _ => [], gatherv := fun blocks _ _ => blocks.flatten }
  io := tinyIo
  opened _ := .ok ()
  written := .ok ()
  undef := 7

def tinyXyz (fr : ConFrame Bits) (_ : String) : Bytes := utf8 (toString fr.atomData.length ++ "\n")

theorem tinyIo_documented : tinyIo.Documented where
  size n rank h := by
    by_contra hn
    simp [tinyIo, hn] at h
  offset w k rank h := by
    by_contra hn
    simp [tinyIo, hn] at h

theorem tinyIo_succeeds {blocks : List Bytes} (undef : UInt64) (hlow : blocks.flatten.length < 2 ^ 63) :
    tinyIo.Succeeds (ranksOf undef blocks) (UInt64.ofNat blocks.flatten.length) where
  opened _ _ := rfl
  sized rank _ := by
    have h := toInt64_low hlow
    exact if_pos (by rw [h]; exact Int.natCast_nonneg _)
  wrote rank hr k _ := by
    have h : rank < blocks.length := by rwa [ranksOf_length] at hr
    have hoff := toInt64_low ((placeOf_le h k).trans_lt hlow)
    rw [ranksOf_get undef blocks hr h]
    exact if_pos (by rw [writeRound_offset h, hoff]; exact Int.natCast_nonneg _)
  closed _ _ := rfl

theorem tiny_collective_export :
    exportExtxyzCollective tiny tinyXyz tinyJob tinyOne.1 [⟨0, 0⟩, ⟨0, 0⟩] 3 "out.xyz" none "energy" .mpiIo =
      .ok (2, ofBytes (utf8 "1\n1\n")) := by
  have hrender : renderFrame tiny tinyXyz tinyOne.1 "energy" ⟨0, 0⟩ = .ok (tinyXyz hydrogen.1 "energy") := by
    rw [renderFrame, tinyOne_frame]
    rfl
  have hparts : [(⟨0, 0⟩ : FrameKey), ⟨0, 0⟩].mapM (renderFrame tiny tinyXyz tinyOne.1 "energy") =
      .ok [tinyXyz hydrogen.1 "energy", tinyXyz hydrogen.1 "energy"] := by
    rw [List.mapM_cons, List.mapM_cons, hrender]
    rfl
  have hjob : tinyJob.Succeeds 3 (blocksOf [tinyXyz hydrogen.1 "energy", tinyXyz hydrogen.1 "energy"] 3) := by
    refine ⟨fun _ _ => rfl, tinyIo_succeeds _ ?_⟩
    rw [blocksOf_flatten _ (by decide)]
    decide
  have hwrites : WritesSerial tiny tinyXyz tinyJob tinyOne.1 [⟨0, 0⟩, ⟨0, 0⟩] 3 "out.xyz" "energy" :=
    collective_export_serial tinyIo_documented (by decide)
  rw [hwrites.succeeds _ hparts (by decide) hjob]
  rfl

end Tiny

end ReadconDb
