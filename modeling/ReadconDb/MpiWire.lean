import ReadconDb.Catalog
import ReadconDb.Library.Reading

set_option linter.unusedSectionVars false

namespace ReadconDb

open ByteString Outcome Reading

section Encode

def putU32 (b : Bytes) : Result Bytes :=
  if b.length ≤ 2 ^ 32 - 1 then .ok (leBytes 4 b.length ++ b)
  else .error (.message ("encoded key length " ++ toString b.length ++ " exceeds u32::MAX"))

def putList (xs : List Bytes) : Result Bytes :=
  if xs.length ≤ 2 ^ 32 - 1 then do
    let parts ← xs.mapM putU32
    return leBytes 4 xs.length ++ parts.flatten
  else .error (.message ("encoded key list length " ++ toString xs.length ++ " exceeds u32::MAX"))

def encodeKeys (p : PreparedIndexPuts) : Result Bytes := do
  let symbols ← putList p.symbolKeys
  let elemCounts ← putList p.elemCountKeys
  let formula ← putList p.formulaK.toList
  let energy ← putList (p.energyK.toList.map Subtype.val)
  let fmax ← putList (p.fmaxK.toList.map Subtype.val)
  let mass ← putList (p.massK.toList.map Subtype.val)
  let volume ← putList (p.volumeK.toList.map Subtype.val)
  let pbc ← putList (p.pbcK.toList.map Subtype.val)
  let flags ← putList (p.flagKeys.map Subtype.val)
  let metas ← putList (p.metaKeys.map Subtype.val)
  return p.hash.val ++ (p.natomsK.val ++ (symbols ++ (elemCounts ++ (formula ++ (energy ++ (fmax ++ (mass ++
    (volume ++ (pbc ++ (flags ++ metas))))))))))

variable {F : Type} [Float64 F] (d : Crates F)

def encodeFrameKeys (fk : FrameKey) (frame : ConFrame F) (blob : String) :
    Result (ContentHash × Bytes × Bytes) := do
  let p ← buildIndexPuts d fk frame blob true
  let v ← encodeKeys p
  return (p.hash, v, p.stored)

end Encode

namespace Rd

def truncated : Error := .message "truncated MPI frame record"

def take (n : Nat) : Reader Error Bytes := Reading.take truncated n

def takeArr (n : Nat) : Reader Error (Arr n) := fun b =>
  if h : b.length < n then .error truncated
  else .ok (⟨b.take n, by rw [List.length_take]; omega⟩, b.drop n)

def u32 : Reader Error Nat := word truncated 4

def list : Reader Error (List Bytes) := do
  let n ← u32
  times (do
    let l ← u32
    take l) n

def toArr (n : Nat) (x : Bytes) : Result (Arr n) :=
  if h : x.length = n then .ok ⟨x, h⟩ else .error (.message "bad MPI key width")

def fixed (n : Nat) : Reader Error (List (Arr n)) := do
  let xs ← list
  StateT.lift (xs.mapM (toArr n))

end Rd

open Rd in
def readPrepared (fk : FrameKey) (stored : Bytes) : Reader Error PreparedIndexPuts := do
  let hash ← takeArr 16
  let natomsK ← takeArr 16
  let symbolKeys ← list
  let elemCountKeys ← list
  let formulaK ← list
  let energyK ← fixed 20
  let fmaxK ← fixed 20
  let massK ← fixed 20
  let volumeK ← fixed 20
  let pbcK ← fixed 13
  let flagKeys ← fixed 13
  let metaKeys ← fixed 21
  return { fk, stored, hash, natomsK, symbolKeys, elemCountKeys, formulaK := formulaK.getLast?
           energyK := energyK.getLast?, fmaxK := fmaxK.getLast?, massK := massK.getLast?
           volumeK := volumeK.getLast?, pbcK := pbcK.getLast?, flagKeys, metaKeys }

section Session

variable {F : Type} [Float64 F]

structure IngestSession (F : Type) where
  corpus : ConCorpus F
  txn : Option (ConCorpus F)

def putPrepared (s : IngestSession F) (prepared : List PreparedIndexPuts) : Result Unit × IngestSession F :=
  match s.txn with
  | none => (.error (.message "ingest session is closed"), s)
  | some c => (.ok (), { s with txn := some (prepared.foldl putIndexPuts c) })

def readRow (row : FrameKey × Bytes × Bytes) : Result PreparedIndexPuts :=
  Prod.fst <$> readPrepared row.1 row.2.2 row.2.1

def putEncoded (s : IngestSession F) (rows : List (FrameKey × Bytes × Bytes)) : Result Unit × IngestSession F :=
  match rows.mapM readRow with
  | .error e => (.error e, s)
  | .ok prepared => putPrepared s prepared

end Session

section Spelled

def listBytes (xs : List Bytes) : Bytes := leBytes 4 xs.length ++ xs.flatMap fun x => leBytes 4 x.length ++ x

structure ListFits (xs : List Bytes) : Prop where
  count : xs.length < 2 ^ 32
  widths : ∀ x ∈ xs, x.length < 2 ^ 32

theorem putList_iff {xs : List Bytes} {b : Bytes} : putList xs = .ok b ↔ ListFits xs ∧ b = listBytes xs := by
  have hput {x : Bytes} (hx : x.length < 2 ^ 32) : putU32 x = .ok (leBytes 4 x.length ++ x) := if_pos (by omega)
  rw [putList]
  constructor
  · intro h
    split at h
    · next hn =>
      obtain ⟨parts, hparts, h⟩ := bind_eq_ok.mp h
      have hw : ∀ x ∈ xs, x.length < 2 ^ 32 := by
        intro x hx
        obtain ⟨part, _, hpart⟩ := forall₂_mem_left (mapM_eq_ok.mp hparts) hx
        rw [putU32] at hpart
        split at hpart
        · omega
        · cases hpart
      rw [mapM_ok_of_forall fun x hx => hput (hw x hx)] at hparts
      obtain rfl := Except.ok.inj hparts
      refine ⟨⟨by omega, hw⟩, ?_⟩
      rw [← pure_eq_ok.mp h, listBytes, List.flatMap_def]
    · cases h
  · rintro ⟨⟨hn, hw⟩, rfl⟩
    rw [if_pos (by omega), mapM_ok_of_forall fun x hx => hput (hw x hx), listBytes, List.flatMap_def]
    rfl

theorem spells_list {xs : List Bytes} (h : ListFits xs) : Spells Rd.list (listBytes xs) xs := by
  apply (spells_word h.count).bind
  apply spells_times
  intro x hx
  exact (spells_word (h.widths x hx)).bind (spells_take rfl)

theorem spells_takeArr {n : Nat} (x : Arr n) : Spells (Rd.takeArr n) x.val x where
  reads rest := by
    obtain ⟨b, rfl⟩ := x
    rw [Rd.takeArr, dif_neg (by simp)]
    simp only [List.take_left, List.drop_left]
  stops pre hpre hne := by
    have hlt := strict_length hpre hne
    rw [x.property] at hlt
    exact ⟨_, dif_pos hlt⟩

theorem toArr_val {n : Nat} (xs : List (Arr n)) : (xs.map Subtype.val).mapM (Rd.toArr n) = .ok xs := by
  rw [mapM_eq_ok, List.forall₂_map_left_iff, List.forall₂_same]
  intro x _
  rw [Rd.toArr, dif_pos x.property]

theorem spells_fixed {n : Nat} {xs : List (Arr n)} (h : ListFits (xs.map Subtype.val)) :
    Spells (Rd.fixed n) (listBytes (xs.map Subtype.val)) xs := by
  apply (spells_list h).ends
  rw [toArr_val]
  exact Spells.pure xs

structure KeysFit (p : PreparedIndexPuts) : Prop where
  symbols : ListFits p.symbolKeys
  elemCounts : ListFits p.elemCountKeys
  formula : ∀ k, p.formulaK = some k → k.length < 2 ^ 32
  flags : p.flagKeys.length < 2 ^ 32
  metas : p.metaKeys.length < 2 ^ 32

theorem listFits_arr {n : Nat} (hn : n < 2 ^ 32) {xs : List (Arr n)} :
    ListFits (xs.map Subtype.val) ↔ xs.length < 2 ^ 32 := by
  constructor
  · intro h
    have hcount := h.count
    rwa [List.length_map] at hcount
  · intro h
    refine ⟨by rwa [List.length_map], fun x hx => ?_⟩
    obtain ⟨y, _, rfl⟩ := List.mem_map.mp hx
    rwa [y.property]

theorem length_toList_le {A : Type} (o : Option A) : o.toList.length ≤ 1 := by cases o <;> simp

theorem listFits_option {n : Nat} (hn : n < 2 ^ 32) (o : Option (Arr n)) : ListFits (o.toList.map Subtype.val) :=
  (listFits_arr hn).mpr ((length_toList_le o).trans_lt (by decide))

def keyBytes (p : PreparedIndexPuts) : Bytes :=
  p.hash.val ++ (p.natomsK.val ++ (listBytes p.symbolKeys ++ (listBytes p.elemCountKeys ++
    (listBytes p.formulaK.toList ++ (listBytes (p.energyK.toList.map Subtype.val) ++
      (listBytes (p.fmaxK.toList.map Subtype.val) ++ (listBytes (p.massK.toList.map Subtype.val) ++
        (listBytes (p.volumeK.toList.map Subtype.val) ++ (listBytes (p.pbcK.toList.map Subtype.val) ++
          (listBytes (p.flagKeys.map Subtype.val) ++ listBytes (p.metaKeys.map Subtype.val)))))))))))

theorem encodeKeys_iff {p : PreparedIndexPuts} {enc : Bytes} :
    encodeKeys p = .ok enc ↔ KeysFit p ∧ enc = keyBytes p := by
  simp only [encodeKeys, bind_eq_ok, putList_iff, pure_eq_ok]
  constructor
  · rintro ⟨_, ⟨hs, rfl⟩, _, ⟨he, rfl⟩, _, ⟨hf, rfl⟩, _, ⟨_, rfl⟩, _, ⟨_, rfl⟩, _, ⟨_, rfl⟩, _, ⟨_, rfl⟩, _, ⟨_, rfl⟩,
      _, ⟨hg, rfl⟩, _, ⟨hm, rfl⟩, rfl⟩
    refine ⟨⟨hs, he, fun k hk => hf.widths k (by rw [hk]; simp), ?_, ?_⟩, rfl⟩
    · exact (listFits_arr (by decide)).mp hg
    · exact (listFits_arr (by decide)).mp hm
  · rintro ⟨⟨hs, he, hf, hg, hm⟩, rfl⟩
    have hform : ListFits p.formulaK.toList := by
      refine ⟨(length_toList_le _).trans_lt (by decide), fun k hk => hf k ?_⟩
      simpa using hk
    exact ⟨_, ⟨hs, rfl⟩, _, ⟨he, rfl⟩, _, ⟨hform, rfl⟩, _, ⟨listFits_option (by decide) _, rfl⟩,
      _, ⟨listFits_option (by decide) _, rfl⟩, _, ⟨listFits_option (by decide) _, rfl⟩,
      _, ⟨listFits_option (by decide) _, rfl⟩, _, ⟨listFits_option (by decide) _, rfl⟩,
      _, ⟨(listFits_arr (by decide)).mpr hg, rfl⟩, _, ⟨(listFits_arr (by decide)).mpr hm, rfl⟩, rfl⟩

theorem spells_prepared {p : PreparedIndexPuts} (h : KeysFit p) (stored : Bytes) :
    Spells (readPrepared p.fk stored) (keyBytes p) { p with stored := stored } := by
  have hform : ListFits p.formulaK.toList := by
    refine ⟨(length_toList_le _).trans_lt (by decide), fun k hk => h.formula k ?_⟩
    simpa using hk
  apply (spells_takeArr p.hash).bind
  apply (spells_takeArr p.natomsK).bind
  apply (spells_list h.symbols).bind
  apply (spells_list h.elemCounts).bind
  apply (spells_list hform).bind
  apply (spells_fixed (listFits_option (by decide) p.energyK)).bind
  apply (spells_fixed (listFits_option (by decide) p.fmaxK)).bind
  apply (spells_fixed (listFits_option (by decide) p.massK)).bind
  apply (spells_fixed (listFits_option (by decide) p.volumeK)).bind
  apply (spells_fixed (listFits_option (by decide) p.pbcK)).bind
  apply (spells_fixed ((listFits_arr (by decide)).mpr h.flags)).bind
  apply (spells_fixed ((listFits_arr (by decide)).mpr h.metas)).ends
  have hlast {A : Type} (o : Option A) : o.toList.getLast? = o := by cases o <;> rfl
  simp only [hlast]
  exact Spells.pure _

end Spelled

section Records

def pushU64 (n : UInt64) : Bytes := leBytes 8 n.toNat

def pushRecord (frame : UInt64) (enc stored : Bytes) : Bytes :=
  pushU64 frame ++ (pushU64 (UInt64.ofNat enc.length) ++ (enc ++ (pushU64 (UInt64.ofNat stored.length) ++ stored)))

def recordBytes (encLen storedLen : Nat) (sendBlob : Bool) : UInt64 :=
  let blob := if sendBlob then UInt64.ofNat storedLen else 0
  8 + 8 + UInt64.ofNat encLen + 8 + blob

def readU64 : Reader Error UInt64 := do
  let head ← take (.message "truncated MPI frame record") 8
  return UInt64.ofNat (leNat head)

def readBytes : Reader Error Bytes := do
  let n ← readU64
  take (.message "truncated MPI frame record") n.toNat

def readRecord : Reader Error (UInt64 × Bytes × Bytes) := do
  let frame ← readU64
  let enc ← readBytes
  let stored ← readBytes
  return (frame, enc, stored)

theorem spells_u64 (n : UInt64) : Spells readU64 (pushU64 n) n := by
  have hn : n.toNat % 256 ^ 8 = n.toNat := Nat.mod_eq_of_lt n.toNat_lt
  apply (spells_take (length_leBytes 8 n.toNat)).ends
  rw [leNat_leBytes, hn, UInt64.ofNat_toNat]
  exact Spells.pure n

theorem spells_bytes {b : Bytes} (hb : b.length < 2 ^ 64) :
    Spells readBytes (pushU64 (UInt64.ofNat b.length) ++ b) b := by
  have hn : (UInt64.ofNat b.length).toNat = b.length := by rw [UInt64.toNat_ofNat', Nat.mod_eq_of_lt hb]
  apply (spells_u64 _).bind
  rw [hn]
  exact spells_take rfl

theorem spells_record {frame : UInt64} {enc stored : Bytes} (he : enc.length < 2 ^ 64) (hs : stored.length < 2 ^ 64) :
    Spells readRecord (pushRecord frame enc stored) (frame, enc, stored) := by
  have hpush : pushRecord frame enc stored = pushU64 frame ++ ((pushU64 (UInt64.ofNat enc.length) ++ enc) ++
      (pushU64 (UInt64.ofNat stored.length) ++ stored)) := by
    rw [pushRecord, List.append_assoc]
  rw [hpush]
  apply (spells_u64 frame).bind
  apply (spells_bytes he).bind
  apply (spells_bytes hs).ends
  exact Spells.pure _

theorem recordBytes_push {frame : UInt64} {enc stored : Bytes} {sendBlob : Bool}
    (h : (pushRecord frame enc (if sendBlob then stored else [])).length < 2 ^ 64) :
    (recordBytes enc.length stored.length sendBlob).toNat =
      (pushRecord frame enc (if sendBlob then stored else [])).length := by
  have hlen : (pushRecord frame enc (if sendBlob then stored else [])).length =
      24 + enc.length + if sendBlob then stored.length else 0 := by
    cases sendBlob with
    | false =>
      simp [pushRecord, pushU64]
      omega
    | true =>
      simp [pushRecord, pushU64]
      omega
  rw [hlen] at h ⊢
  have hblob : (if sendBlob then UInt64.ofNat stored.length else 0) =
      UInt64.ofNat (if sendBlob then stored.length else 0) := by
    cases sendBlob <;> rfl
  have hsum : recordBytes enc.length stored.length sendBlob =
      UInt64.ofNat (24 + enc.length + if sendBlob then stored.length else 0) := by
    rw [recordBytes, hblob, UInt64.ofNat_add, UInt64.ofNat_add, UInt64.add_assoc (8 + 8),
      UInt64.add_comm (UInt64.ofNat enc.length) 8, ← UInt64.add_assoc (8 + 8)]
    rfl
  rw [hsum, UInt64.toNat_ofNat', Nat.mod_eq_of_lt h]

end Records

section Exact

variable {F : Type} [Float64 F]

structure MpiExact (d : Crates F) : Prop where
  encoded : ∀ fk frame blob hash enc stored, encodeFrameKeys d fk frame blob = .ok (hash, enc, stored) →
    ∃ p, buildIndexPuts d fk frame blob true = .ok p ∧ encodeKeys p = .ok enc ∧ p.hash = hash ∧ p.stored = stored
  fits : ∀ p, (∃ enc, encodeKeys p = .ok enc) ↔ KeysFit p
  reads : ∀ p enc stored, encodeKeys p = .ok enc → readRow (p.fk, enc, stored) = .ok { p with stored := stored }
  staged : ∀ (s : IngestSession F) (rows : List (PreparedIndexPuts × Bytes)),
    (∀ row ∈ rows, encodeKeys row.1 = .ok row.2) →
      putEncoded s (rows.map fun row => (row.1.fk, row.2, row.1.stored)) = putPrepared s (rows.map Prod.fst)
  truncated : ∀ (s : IngestSession F) rows p enc pre fk stored, encodeKeys p = .ok enc → pre <+: enc → pre ≠ enc →
    (fk, pre, stored) ∈ rows → ∃ e, putEncoded s rows = (.error e, s)
  parsed : ∀ (recs : List (UInt64 × Bytes × Bytes)) rest,
    (∀ r ∈ recs, r.2.1.length < 2 ^ 64 ∧ r.2.2.length < 2 ^ 64) →
      times readRecord recs.length (recs.flatMap (fun r => pushRecord r.1 r.2.1 r.2.2) ++ rest) = .ok (recs, rest)
  counted : ∀ frame enc stored sendBlob, (pushRecord frame enc (if sendBlob then stored else [])).length < 2 ^ 64 →
    (recordBytes enc.length stored.length sendBlob).toNat =
      (pushRecord frame enc (if sendBlob then stored else [])).length

theorem readRow_encoded {p : PreparedIndexPuts} {enc : Bytes} (h : encodeKeys p = .ok enc) (stored : Bytes) :
    readRow (p.fk, enc, stored) = .ok { p with stored := stored } := by
  obtain ⟨hfit, rfl⟩ := encodeKeys_iff.mp h
  rw [readRow, (spells_prepared hfit stored).reads_all]
  rfl

-- The frame's key is not in the record: a cut one fails under any key.
theorem readRow_truncated {p : PreparedIndexPuts} {enc pre : Bytes} (h : encodeKeys p = .ok enc) (hp : pre <+: enc)
    (hne : pre ≠ enc) (fk : FrameKey) (stored : Bytes) : ∃ e, readRow (fk, pre, stored) = .error e := by
  obtain ⟨hfit, rfl⟩ := encodeKeys_iff.mp h
  have hfit' : KeysFit { p with fk := fk } := ⟨hfit.symbols, hfit.elemCounts, hfit.formula, hfit.flags, hfit.metas⟩
  obtain ⟨e, he⟩ := (spells_prepared hfit' stored).stops pre hp hne
  exact ⟨e, by rw [readRow, he]; rfl⟩

theorem mpi_records_exact (d : Crates F) : MpiExact d where
  encoded fk frame blob hash enc stored h := by
    obtain ⟨p, hp, h⟩ := bind_eq_ok.mp h
    obtain ⟨v, hv, h⟩ := bind_eq_ok.mp h
    cases pure_eq_ok.mp h
    exact ⟨p, hp, hv, rfl, rfl⟩
  fits p := by
    constructor
    · rintro ⟨enc, h⟩
      exact (encodeKeys_iff.mp h).1
    · exact fun h => ⟨_, encodeKeys_iff.mpr ⟨h, rfl⟩⟩
  reads p enc stored h := readRow_encoded h stored
  staged s rows h := by
    have hread : (rows.map fun row => (row.1.fk, row.2, row.1.stored)).mapM readRow = .ok (rows.map Prod.fst) := by
      rw [mapM_eq_ok, List.forall₂_map_left_iff, List.forall₂_map_right_iff, List.forall₂_same]
      exact fun row hrow => readRow_encoded (h row hrow) row.1.stored
    rw [putEncoded, hread]
  truncated s rows p enc pre fk stored h hp hne hrow := by
    obtain ⟨e, he⟩ := readRow_truncated h hp hne fk stored
    cases hrows : rows.mapM readRow with
    | error e' => exact ⟨e', by rw [putEncoded, hrows]⟩
    | ok prepared =>
      obtain ⟨q, _, hq⟩ := forall₂_mem_left (mapM_eq_ok.mp hrows) hrow
      rw [he] at hq
      cases hq
  parsed recs rest h := (spells_times fun r hr => spells_record (h r hr).1 (h r hr).2).reads rest
  counted frame enc stored sendBlob := recordBytes_push

end Exact

end ReadconDb
