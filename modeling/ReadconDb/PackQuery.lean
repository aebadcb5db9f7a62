import ReadconDb.Maintenance
import ReadconDb.MpiRead
import ReadconDb.Library.Slots

set_option linter.unusedSectionVars false

namespace ReadconDb

open ByteString Outcome Slots

section Status

def rkrdbOk : Int32 := 0
def rkrdbErr : Int32 := -1
def rkrdbNotFound : Int32 := -2
def rkrdbNull : Int32 := -3

def asCInt (n : Nat) : Int32 := Int32.ofNat n

end Status

section Handles

-- `corpus` names an environment: handles of one directory, and calls under way, share it.
structure Handle where
  corpus : Nat
  lastKeys : List FrameKey
  lastError : String
  velocityTimeUnit : Option String
  deriving DecidableEq

structure Process (F : Type) where
  envs : Nat → ConCorpus F
  handles : Slots Handle

variable {F : Type} {A : Type}

def pushHandle (p : Process F) (corpus : Nat) : Nat × Process F :=
  (firstFree p.handles, { p with handles := push p.handles ⟨corpus, [], "", none⟩ })

def setErr (h : Handle) (text : String) : Handle := { h with lastError := text }

def withHandle (p : Process F) (id : Nat) (missing : A) (f : ConCorpus F → Handle → A × Handle) : A × Process F :=
  match slot p.handles id with
  | none => (missing, p)
  | some h => ((f (p.envs h.corpus) h).1, { p with handles := write p.handles id (f (p.envs h.corpus) h).2 })

end Handles

section Pack

variable {F : Type} [Float64 F] (d : Crates F)

-- The status, and what was written to the buffer: `buf` is its length, or none for a null pointer.
def packReply (packed : Result Bytes) (buf : Option Nat) (h : Handle) : (Int32 × Option Bytes) × Handle :=
  match packed with
  | .error e => ((rkrdbErr, none), setErr h e.display)
  | .ok bytes =>
    match buf with
    | none => ((asCInt bytes.length, none), h)
    | some buflen =>
      if buflen < bytes.length then ((rkrdbErr, none), setErr h "buffer too small")
      else ((asCInt bytes.length, some bytes), h)

def rkrdbPackFrame (p : Process F) (id : Nat) (trajId : UInt64) (frameIdx : UInt32) (buf : Option Nat) :
    (Int32 × Option Bytes) × Process F :=
  withHandle p id (rkrdbNull, none) fun c h => packReply (packFrame d c ⟨trajId, frameIdx⟩) buf h

def keysOf (trajIds : List UInt64) (frameIdxs : List UInt32) (nkeys : UInt32) : List FrameKey :=
  ((trajIds.take nkeys.toNat).zip (frameIdxs.take nkeys.toNat)).map fun k => ⟨k.1, k.2⟩

def rkrdbPackFrames (p : Process F) (id : Nat) (trajIds : Option (List UInt64)) (frameIdxs : Option (List UInt32))
    (nkeys : UInt32) (buf : Option Nat) : (Int32 × Option Bytes) × Process F :=
  match trajIds, frameIdxs with
  | some trajIds, some frameIdxs =>
    if nkeys = 0 then ((rkrdbNull, none), p)
    else
      withHandle p id (rkrdbNull, none) fun c h => packReply (packFrames d c (keysOf trajIds frameIdxs nkeys)) buf h
  | _, _ => ((rkrdbNull, none), p)

-- The root of a broadcast asks for the size, allocates that much and packs into it.
def sizedPack (malloc : Nat → Bool) (p : Process F) (pack : Process F → Option Nat → (Int32 × Option Bytes) × Process F) :
    Int32 × Option Bytes :=
  let asked := pack p none
  let need := asked.1.1
  if need < 0 then (need, none)
  else if !malloc need.toInt.toNat then (rkrdbErr, none)
  else
    let packed := (pack asked.2 (some need.toInt.toNat)).1
    if packed.1 < 0 then (packed.1, none) else packed

-- What each rank returns, and the buffer it is handed: the root's comes first.
def rkrdbMpiBcastBlob (root : Int32 × Option Bytes) (allocates : List Bool) : List (Int32 × Option Bytes) :=
  let (nbytes, buf) := root
  let all (reply : Int32 × Option Bytes) := reply :: allocates.map fun _ => reply
  if nbytes < 0 then all (nbytes, none)
  else if !(nbytes == 0 || buf.isSome) || !(allocates.all fun a => nbytes == 0 || a) then all (rkrdbErr, none)
  else all (rkrdbOk, if nbytes == 0 then some [] else buf)

-- `corpusDir` is none for a null pointer, and holds what `rkrdb_open_readonly` opened.
def rkrdbBcastPackedFrame (corpusDir : Option (Option (Process F × Nat))) (trajId : UInt64) (frameIdx : UInt32)
    (malloc : Nat → Bool) (allocates : List Bool) : List (Int32 × Option Bytes) :=
  rkrdbMpiBcastBlob (match corpusDir with
    | none => (rkrdbNull, none)
    | some none => (rkrdbErr, none)
    | some (some (p, id)) => sizedPack malloc p fun p buf => rkrdbPackFrame d p id trajId frameIdx buf) allocates

def rkrdbBcastPackedFrames (corpusDir : Option (Option (Process F × Nat))) (trajIds : Option (List UInt64))
    (frameIdxs : Option (List UInt32)) (nkeys : UInt32) (malloc : Nat → Bool) (allocates : List Bool) :
    List (Int32 × Option Bytes) :=
  rkrdbMpiBcastBlob (match corpusDir with
    | none => (rkrdbNull, none)
    | some opened =>
      if trajIds.isNone || frameIdxs.isNone || nkeys == 0 then (rkrdbNull, none)
      else
        match opened with
        | none => (rkrdbErr, none)
        | some (p, id) => sizedPack malloc p fun p buf => rkrdbPackFrames d p id trajIds frameIdxs nkeys buf) allocates

end Pack

section Sizes

variable {F : Type} [Float64 F] (d : Crates F) (c : ConCorpus F)

def packedBlocks (frame : ConFrame F) : Nat :=
  1 + (if (atomForces frame).isSome then 1 else 0) + if (atomVelocities frame).isSome then 1 else 0

def rcsoSize (key : FrameKey) : Nat :=
  match (getCookedSoaBytes c key).filter fun b => (CookedSoa.tryDecode b : Option (CookedSoa F)).isSome with
  | some b => b.length
  | none =>
    match getFrame d c key with
    | .ok frame => headerLen + frame.atomData.length * 24 * packedBlocks frame
    | .error _ => 0

def envelopeSize (keys : List FrameKey) : Nat := 12 + (keys.map fun k => 4 + rcsoSize d c k).sum

variable {d c}

theorem encodeFrame_length {frame : ConFrame F} {b : Bytes} (h : CookedSoa.encodeFrame frame = .ok b) :
    b.length = headerLen + frame.atomData.length * 24 * packedBlocks frame := by
  by_cases hn : frame.atomData.length < 2 ^ 32
  · rw [CookedSoa.encodeFrame_eq hn] at h
    obtain rfl := Except.ok.inj h
    have hpos : (vec3Block (some (atomPositions frame))).length = frame.atomData.length * 24 := by
      rw [vec3Block, Option.getD_some, CookedSoa.length_block]
      simp [atomPositions, Nat.mul_assoc]
    have hfor := CookedSoa.length_vec3Block (atomForces frame) frame.atomData.length fun _ => CookedSoa.length_atomForces
    have hvel := CookedSoa.length_vec3Block (atomVelocities frame) frame.atomData.length fun _ =>
      CookedSoa.length_atomVelocities
    rw [List.length_append, CookedSoa.length_cookedHeader, List.length_append, List.length_append, hpos, hfor, hvel,
      packedBlocks]
    cases (atomForces frame).isSome <;> cases (atomVelocities frame).isSome <;> simp <;> omega
  · rw [CookedSoa.encodeFrame, if_pos (by omega)] at h
    cases h

theorem packFrame_length {key : FrameKey} {b : Bytes} (h : packFrame d c key = .ok b) :
    b.length = rcsoSize d c key := by
  rw [packFrame] at h
  rw [rcsoSize]
  cases hb : (getCookedSoaBytes c key).filter fun b => (CookedSoa.tryDecode b : Option (CookedSoa F)).isSome with
  | some row =>
    rw [hb] at h
    exact congrArg List.length (Except.ok.inj h).symm
  | none =>
    rw [hb] at h
    obtain ⟨frame, hframe, henc⟩ := bind_eq_ok.mp h
    simp only [hframe]
    exact encodeFrame_length henc

theorem packFrames_length {keys : List FrameKey} {bytes : Bytes} (h : packFrames d c keys = .ok bytes) :
    bytes.length = envelopeSize d c keys := by
  obtain ⟨blobs, hblobs, henc⟩ := bind_eq_ok.mp h
  obtain ⟨hn, hlen, rfl⟩ := encodeBatch_ok henc
  have hsizes : blobs.map (fun b => 4 + b.length) = keys.map fun k => 4 + rcsoSize d c k := by
    have hall := mapM_eq_ok.mp hblobs
    clear henc h hblobs hn hlen
    induction hall with
    | nil => rfl
    | cons hk _ ih => rw [List.map_cons, List.map_cons, ih, packFrame_length hk]
  rw [List.length_append, length_batchHeader, List.length_flatMap, envelopeSize, ← hsizes]
  simp

end Sizes

section Truth

variable {F : Type} [Float64 F] {d : Crates F}

structure SizeTold (packed : Option (Result Bytes)) (r : Int32) : Prop where
  size : ∀ bytes, packed = some (.ok bytes) → r.toInt = bytes.length
  failed : ∀ e, packed = some (.error e) → r = rkrdbErr
  refused : packed = none → r = rkrdbNull

def told (packed : Option (Result Bytes)) : Int32 × Option Bytes :=
  match packed with
  | some (.ok bytes) => (rkrdbOk, some bytes)
  | some (.error _) => (rkrdbErr, none)
  | none => (rkrdbNull, none)

def Fits (size : Nat) (packed : Option (Result Bytes)) : Prop := (∃ bytes, packed = some (.ok bytes)) → size < 2 ^ 31

def liveCorpus (p : Process F) (id : Nat) : Option (ConCorpus F) := (slot p.handles id).map fun h => p.envs h.corpus

theorem withHandle_dead {A : Type} {p : Process F} {id : Nat} {missing : A} {f : ConCorpus F → Handle → A × Handle}
    (h : liveCorpus p id = none) : withHandle p id missing f = (missing, p) := by
  rw [liveCorpus, Option.map_eq_none_iff] at h
  rw [withHandle, h]

theorem withHandle_live {A : Type} {p : Process F} {id : Nat} {c : ConCorpus F} (h : liveCorpus p id = some c)
    (missing : A) {f : ConCorpus F → Handle → A × Handle} (hf : ∀ c hd, (f c hd).2.corpus = hd.corpus) :
    ∃ hd, (withHandle p id missing f).1 = (f c hd).1 ∧ liveCorpus (withHandle p id missing f).2 id = some c := by
  rw [liveCorpus, Option.map_eq_some_iff] at h
  obtain ⟨hd, hslot, rfl⟩ := h
  refine ⟨hd, by rw [withHandle, hslot], ?_⟩
  simp only [liveCorpus, withHandle, hslot, slot_write hslot, if_pos, Option.map_some, hf]

theorem packReply_corpus (packed : Result Bytes) (buf : Option Nat) (h : Handle) :
    (packReply packed buf h).2.corpus = h.corpus := by
  cases packed with
  | error e => rfl
  | ok bytes =>
    cases buf with
    | none => rfl
    | some buflen =>
      rw [packReply]
      split <;> rfl

def packThrough (pack : ConCorpus F → Result Bytes) (p : Process F) (id : Nat) (buf : Option Nat) :
    (Int32 × Option Bytes) × Process F :=
  withHandle p id (rkrdbNull, none) fun c h => packReply (pack c) buf h

theorem packThrough_dead (pack : ConCorpus F → Result Bytes) {p : Process F} {id : Nat} (h : liveCorpus p id = none)
    (buf : Option Nat) : packThrough pack p id buf = ((rkrdbNull, none), p) := withHandle_dead h

theorem packThrough_live (pack : ConCorpus F → Result Bytes) {p : Process F} {id : Nat} {c : ConCorpus F}
    (h : liveCorpus p id = some c) (buf : Option Nat) :
    ∃ hd, (packThrough pack p id buf).1 = (packReply (pack c) buf hd).1 ∧
      liveCorpus (packThrough pack p id buf).2 id = some c :=
  withHandle_live h _ fun c hd => packReply_corpus (pack c) buf hd

theorem size_told_iff (pack : ConCorpus F → Result Bytes) (p : Process F) (id : Nat) :
    SizeTold ((liveCorpus p id).map pack) (packThrough pack p id none).1.1 ↔
      ∀ bytes, (liveCorpus p id).map pack = some (.ok bytes) → bytes.length < 2 ^ 31 := by
  cases hc : liveCorpus p id with
  | none =>
    rw [packThrough_dead pack hc]
    exact ⟨fun _ bytes h => (by cases h), fun _ => ⟨fun _ h => (by cases h), fun _ h => (by cases h), fun _ => rfl⟩⟩
  | some c =>
    obtain ⟨hd, hreply, _⟩ := packThrough_live pack hc none
    rw [hreply, Option.map_some]
    cases hp : pack c with
    | error e =>
      exact ⟨fun _ bytes h => (by cases h), fun _ => ⟨fun _ h => (by cases h), fun _ _ => rfl, fun h => (by cases h)⟩⟩
    | ok bytes =>
      constructor
      · rintro h _ ⟨⟩
        exact toInt_ofNat_iff.mp (h.size bytes rfl)
      · intro h
        refine ⟨?_, fun _ h => (by cases h), fun h => (by cases h)⟩
        rintro _ ⟨⟩
        exact toInt_ofNat_iff.mpr (h bytes rfl)

theorem asCInt_nonneg {n : Nat} (h : n < 2 ^ 31) : ¬ asCInt n < 0 := by
  rw [Int32.lt_iff_toInt_lt, asCInt, toInt_ofNat_iff.mpr h]
  exact Int.not_lt.mpr (Int.natCast_nonneg n)

theorem asCInt_zero {n : Nat} (h : n < 2 ^ 31) : asCInt n = 0 ↔ n = 0 := by
  rw [← Int32.toInt_inj, asCInt, toInt_ofNat_iff.mpr h]
  exact Int.natCast_eq_zero

def exactRoot (packed : Option (Result Bytes)) : Int32 × Option Bytes :=
  match packed with
  | some (.ok bytes) => (asCInt bytes.length, some bytes)
  | some (.error _) => (rkrdbErr, none)
  | none => (rkrdbNull, none)

theorem bcast_told {packed : Option (Result Bytes)} (h : ∀ bytes, packed = some (.ok bytes) → bytes.length < 2 ^ 31)
    (n : Nat) : rkrdbMpiBcastBlob (exactRoot packed) (List.replicate n true) = List.replicate (n + 1) (told packed) := by
  cases packed with
  | none => simp [rkrdbMpiBcastBlob, exactRoot, told, rkrdbNull, List.replicate_succ]
  | some r =>
    cases r with
    | error e => simp [rkrdbMpiBcastBlob, exactRoot, told, rkrdbErr, List.replicate_succ]
    | ok bytes =>
      have hb := h bytes rfl
      have hall : (List.replicate n true).all (fun a => asCInt bytes.length == 0 || a) = true := by
        rw [List.all_eq_true]
        intro a ha
        rw [(List.mem_replicate.mp ha).2, Bool.or_true]
      have hbuf : (if asCInt bytes.length == 0 then some [] else some bytes) = some bytes := by
        by_cases hz : bytes.length = 0
        · rw [List.eq_nil_of_length_eq_zero hz]
          exact ite_self _
        · rw [if_neg fun he => hz ((asCInt_zero hb).mp (beq_iff_eq.mp he))]
      simp only [rkrdbMpiBcastBlob, exactRoot, told, if_neg (asCInt_nonneg hb), hall, Option.isSome_some, Bool.or_true,
        Bool.not_true, Bool.or_self, Bool.false_eq_true, if_false, List.map_replicate, ← List.replicate_succ]
      exact congrArg (fun buf => List.replicate (n + 1) (rkrdbOk, buf)) hbuf

theorem sizedPack_exact (pack : ConCorpus F → Result Bytes) (p : Process F) (id : Nat)
    (h : ∀ bytes, (liveCorpus p id).map pack = some (.ok bytes) → bytes.length < 2 ^ 31) :
    sizedPack (fun _ => true) p (fun p buf => packThrough pack p id buf) = exactRoot ((liveCorpus p id).map pack) := by
  cases hc : liveCorpus p id with
  | none =>
    rw [sizedPack, packThrough_dead pack hc]
    rfl
  | some c =>
    obtain ⟨hd, hask, hlive⟩ := packThrough_live pack hc none
    rw [Option.map_some]
    cases hp : pack c with
    | error e =>
      rw [hp] at hask
      rw [sizedPack, hask]
      rfl
    | ok bytes =>
      have hb := h bytes (by rw [hc, Option.map_some, hp])
      have hsize : (asCInt bytes.length).toInt.toNat = bytes.length := by
        rw [asCInt, toInt_ofNat_iff.mpr hb, Int.toNat_natCast]
      obtain ⟨hd', hwrite, _⟩ := packThrough_live pack hlive (some bytes.length)
      rw [hp] at hask hwrite
      simp only [packReply, Nat.lt_irrefl, if_false] at hask hwrite
      simp only [sizedPack, hask, hsize, hwrite, if_neg (asCInt_nonneg hb), exactRoot, Bool.not_true, Bool.false_eq_true,
        if_false]

theorem packed_size {pack : ConCorpus F → Result Bytes} {size : ConCorpus F → Nat}
    (hs : ∀ c bytes, pack c = .ok bytes → bytes.length = size c) (oc : Option (ConCorpus F)) :
    (∀ bytes, oc.map pack = some (.ok bytes) → bytes.length < 2 ^ 31) ↔
      ∀ c, oc = some c → (∃ bytes, pack c = .ok bytes) → size c < 2 ^ 31 := by
  constructor
  · rintro h c rfl ⟨bytes, hb⟩
    rw [← hs c bytes hb]
    exact h bytes (congrArg some hb)
  · intro h bytes hb
    obtain ⟨c, hc, hp⟩ := Option.map_eq_some_iff.mp hb
    rw [hs c bytes hp]
    exact h c hc ⟨bytes, hp⟩

def framePacked (d : Crates F) (p : Process F) (id : Nat) (trajId : UInt64) (frameIdx : UInt32) : Option (Result Bytes) :=
  (liveCorpus p id).map fun c => packFrame d c ⟨trajId, frameIdx⟩

def framesPacked (d : Crates F) (p : Process F) (id : Nat) (trajIds : Option (List UInt64))
    (frameIdxs : Option (List UInt32)) (nkeys : UInt32) : Option (Result Bytes) :=
  match trajIds, frameIdxs with
  | some trajIds, some frameIdxs =>
    if nkeys = 0 then none else (liveCorpus p id).map fun c => packFrames d c (keysOf trajIds frameIdxs nkeys)
  | _, _ => none

structure SizeTruthful (packed : Option (Result Bytes)) (query : Int32) (bcast : Nat → List (Int32 × Option Bytes)) :
    Prop where
  query : SizeTold packed query
  bcast : ∀ n, bcast n = List.replicate (n + 1) (told packed)

def FrameTruthful (d : Crates F) (p : Process F) (id : Nat) (trajId : UInt64) (frameIdx : UInt32) : Prop :=
  SizeTruthful (framePacked d p id trajId frameIdx) (rkrdbPackFrame d p id trajId frameIdx none).1.1 fun n =>
    rkrdbBcastPackedFrame d (some (some (p, id))) trajId frameIdx (fun _ => true) (List.replicate n true)

def FramesTruthful (d : Crates F) (p : Process F) (id : Nat) (trajIds : Option (List UInt64))
    (frameIdxs : Option (List UInt32)) (nkeys : UInt32) : Prop :=
  SizeTruthful (framesPacked d p id trajIds frameIdxs nkeys) (rkrdbPackFrames d p id trajIds frameIdxs nkeys none).1.1
    fun n => rkrdbBcastPackedFrames d (some (some (p, id))) trajIds frameIdxs nkeys (fun _ => true)
      (List.replicate n true)

def FrameFits (d : Crates F) (p : Process F) (id : Nat) (key : FrameKey) : Prop :=
  ∀ c, liveCorpus p id = some c → (∃ bytes, packFrame d c key = .ok bytes) → rcsoSize d c key < 2 ^ 31

def FramesFit (d : Crates F) (p : Process F) (id : Nat) (keys : List FrameKey) : Prop :=
  ∀ c, liveCorpus p id = some c → (∃ bytes, packFrames d c keys = .ok bytes) → envelopeSize d c keys < 2 ^ 31

theorem truthful_iff (pack : ConCorpus F → Result Bytes) (p : Process F) (id : Nat) :
    SizeTruthful ((liveCorpus p id).map pack) (packThrough pack p id none).1.1 (fun n => rkrdbMpiBcastBlob
        (sizedPack (fun _ => true) p fun p buf => packThrough pack p id buf) (List.replicate n true)) ↔
      ∀ bytes, (liveCorpus p id).map pack = some (.ok bytes) → bytes.length < 2 ^ 31 := by
  constructor
  · exact fun h => (size_told_iff pack p id).mp h.query
  · intro h
    exact ⟨(size_told_iff pack p id).mpr h, fun n => by rw [sizedPack_exact pack p id h, bcast_told h]⟩

theorem frame_truthful_iff (p : Process F) (id : Nat) (trajId : UInt64) (frameIdx : UInt32) :
    FrameTruthful d p id trajId frameIdx ↔ FrameFits d p id ⟨trajId, frameIdx⟩ :=
  (truthful_iff (fun c => packFrame d c ⟨trajId, frameIdx⟩) p id).trans
    (packed_size (fun _ _ => packFrame_length) _)

theorem refused_truthful :
    SizeTruthful none rkrdbNull fun n => rkrdbMpiBcastBlob (rkrdbNull, none) (List.replicate n true) where
  query := ⟨fun _ h => (by cases h), fun _ h => (by cases h), fun _ => rfl⟩
  bcast n := by
    have hnone : ∀ bytes : Bytes, (none : Option (Result Bytes)) = some (.ok bytes) → bytes.length < 2 ^ 31 := by simp
    exact bcast_told hnone n

theorem frames_truthful_iff (p : Process F) (id : Nat) (ts : List UInt64) (is : List UInt32) {nkeys : UInt32}
    (hn : nkeys ≠ 0) : FramesTruthful d p id (some ts) (some is) nkeys ↔ FramesFit d p id (keysOf ts is nkeys) := by
  have hpack (p : Process F) (buf : Option Nat) : rkrdbPackFrames d p id (some ts) (some is) nkeys buf =
      packThrough (fun c => packFrames d c (keysOf ts is nkeys)) p id buf := if_neg hn
  have hiff := truthful_iff (fun c => packFrames d c (keysOf ts is nkeys)) p id
  simp only [← hpack] at hiff
  rw [FramesTruthful, framesPacked, if_neg hn]
  simp only [rkrdbBcastPackedFrames, Option.isNone_some, Bool.false_or, beq_iff_eq, if_neg hn]
  exact hiff.trans (packed_size (fun _ _ => packFrames_length) _)

theorem size_query_truthful_iff (p : Process F) (id : Nat) :
    (∀ trajId frameIdx, FrameTruthful d p id trajId frameIdx ↔ FrameFits d p id ⟨trajId, frameIdx⟩) ∧
      ∀ trajIds frameIdxs nkeys, FramesTruthful d p id trajIds frameIdxs nkeys ↔
        ∀ ts, trajIds = some ts → ∀ is, frameIdxs = some is → nkeys ≠ 0 → FramesFit d p id (keysOf ts is nkeys) := by
  refine ⟨frame_truthful_iff p id, fun trajIds frameIdxs nkeys => ?_⟩
  cases trajIds with
  | none => exact iff_of_true refused_truthful fun ts h => by cases h
  | some ts =>
    cases frameIdxs with
    | none => exact iff_of_true refused_truthful fun _ _ is h => by cases h
    | some is =>
      by_cases hn : nkeys = 0
      · subst hn
        exact iff_of_true refused_truthful fun _ _ _ _ h => absurd rfl h
      · rw [frames_truthful_iff p id ts is hn]
        constructor
        · rintro h _ ⟨⟩ _ ⟨⟩ _
          exact h
        · exact fun h => h ts rfl is rfl hn

end Truth

section Tiny

def tinyProcess : Process Bits := ⟨fun _ => tinyOne.1, [some ⟨0, [], "", none⟩]⟩

theorem tiny_live : liveCorpus tinyProcess 0 = some tinyOne.1 := by
  simp only [liveCorpus, tinyProcess, slot_cons_zero, Option.map_some]

-- Two frames, the second one cooked.
def tinyTwo : ConCorpus Bits :=
  let c := (tinyNext (.appendStr 1 helium.2 "tiny.con") tinyOne).1
  ((MaintenanceCall.cook ⟨1, 0⟩).exec tiny c none c).2

theorem tinyTwo_cooked : tinyTwo.framesSoa.keys = [(⟨1, 0⟩ : FrameKey).toBytes.val] := by decide +kernel

def twoProcess : Process Bits := ⟨fun _ => tinyTwo, [some ⟨0, [], "", none⟩]⟩

theorem two_live : liveCorpus twoProcess 0 = some tinyTwo := by
  simp only [liveCorpus, twoProcess, slot_cons_zero, Option.map_some]

theorem tinyOne_packs : ∃ b, packFrame tiny tinyOne.1 ⟨0, 0⟩ = .ok b ∧ b.length = 48 := by
  have hlen : (packFrame tiny tinyOne.1 ⟨0, 0⟩).toOption.map List.length = some 48 := by decide +kernel
  obtain ⟨b, hb, hl⟩ := Option.map_eq_some_iff.mp hlen
  exact ⟨b, toOption_eq_some.mp hb, hl⟩

theorem tiny_envelope {n : Nat} (hn : n < 2 ^ 32) :
    (∃ bytes, packFrames tiny tinyOne.1 (List.replicate n ⟨0, 0⟩) = .ok bytes) ∧
      envelopeSize tiny tinyOne.1 (List.replicate n ⟨0, 0⟩) = 12 + n * 52 := by
  obtain ⟨b, hb, hl⟩ := tinyOne_packs
  have hall : (List.replicate n (FrameKey.mk 0 0)).mapM (packFrame tiny tinyOne.1) = .ok (List.replicate n b) := by
    rw [mapM_ok_of_forall (g := fun _ => b) fun k hk => (List.mem_replicate.mp hk).2 ▸ hb, List.map_replicate]
  have hshort : ∀ x ∈ List.replicate n b, x.length < 2 ^ 32 := fun x hx => by
    rw [(List.mem_replicate.mp hx).2, hl]
    decide
  obtain ⟨bytes, hbytes⟩ := encodeBatch_total (by rwa [List.length_replicate]) hshort
  constructor
  · exact ⟨bytes, bind_eq_ok.mpr ⟨_, hall, hbytes⟩⟩
  · rw [envelopeSize, List.map_replicate, List.sum_replicate, ← packFrame_length hb, hl]
    rfl

theorem keysOf_replicate (nkeys : UInt32) (t : UInt64) (i : UInt32) :
    keysOf (List.replicate nkeys.toNat t) (List.replicate nkeys.toNat i) nkeys = List.replicate nkeys.toNat ⟨t, i⟩ := by
  simp [keysOf, List.zip_replicate']

theorem tiny_query {nkeys : UInt32} (hn : nkeys ≠ 0) : (rkrdbPackFrames tiny tinyProcess 0
    (some (List.replicate nkeys.toNat 0)) (some (List.replicate nkeys.toNat 0)) nkeys none).1.1 =
      asCInt (12 + nkeys.toNat * 52) := by
  obtain ⟨⟨bytes, hbytes⟩, hsize⟩ := tiny_envelope nkeys.toNat_lt
  obtain ⟨hd, hreply, _⟩ := packThrough_live (fun c => packFrames tiny c (List.replicate nkeys.toNat ⟨0, 0⟩)) tiny_live none
  rw [hbytes] at hreply
  rw [← hsize, ← packFrames_length hbytes, rkrdbPackFrames, if_neg hn, keysOf_replicate]
  exact congrArg Prod.fst hreply

-- The same frame often enough that the size starts again at nothing.
theorem tiny_size_wraps :
    (rkrdbPackFrames tiny tinyProcess 0 (some (List.replicate (82595525 : UInt32).toNat 0))
        (some (List.replicate (82595525 : UInt32).toNat 0)) 82595525 none).1.1 = 16 ∧
      ¬ FramesTruthful tiny tinyProcess 0 (some (List.replicate (82595525 : UInt32).toNat 0))
        (some (List.replicate (82595525 : UInt32).toNat 0)) 82595525 := by
  have hn : (82595525 : UInt32) ≠ 0 := by decide
  constructor
  · rw [tiny_query hn]
    rfl
  · intro h
    obtain ⟨hpacks, hsize⟩ := tiny_envelope (82595525 : UInt32).toNat_lt
    rw [frames_truthful_iff _ _ _ _ hn, keysOf_replicate] at h
    have hfits := h tinyOne.1 tiny_live hpacks
    have hcount : (82595525 : UInt32).toNat = 82595525 := rfl
    rw [hsize, hcount] at hfits
    omega

end Tiny

end ReadconDb
