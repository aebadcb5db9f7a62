import ReadconDb.Rooted
import ReadconDb.Sharding
import ReadconDb.Library.Framing

set_option linter.unusedSectionVars false

namespace ReadconDb

open ByteString Outcome OrderedTable Framing

inductive TableName where
  | frames
  | trajMeta
  | idxNatoms
  | idxSymbol
  | idxEnergy
  | idxFlags
  | idxElemCount
  | idxFormula
  | idxFmax
  | idxMass
  | idxVolume
  | idxPbc
  | idxMeta
  | frameByHash
  | hashByFrame
  | framesSoa
  | idxTopo
  | topoByFrame
  deriving DecidableEq, Repr

namespace TableName

def dumpOrder : List TableName :=
  [frames, trajMeta, idxNatoms, idxSymbol, idxEnergy, idxFlags, idxElemCount, idxFormula, idxFmax, idxMass,
    idxVolume, idxPbc, idxMeta, frameByHash, hashByFrame, framesSoa, idxTopo, topoByFrame]

instance : Fintype TableName := Fintype.ofList dumpOrder fun n => by cases n <;> decide

def asStr : TableName → String
  | frames => "frames"
  | trajMeta => "traj_meta"
  | idxNatoms => "idx_natoms"
  | idxSymbol => "idx_symbol"
  | idxEnergy => "idx_energy"
  | idxFlags => "idx_flags"
  | idxElemCount => "idx_elem_count"
  | idxFormula => "idx_formula"
  | idxFmax => "idx_fmax"
  | idxMass => "idx_mass"
  | idxVolume => "idx_volume"
  | idxPbc => "idx_pbc"
  | idxMeta => "idx_meta"
  | frameByHash => "frame_by_hash"
  | hashByFrame => "hash_by_frame"
  | framesSoa => "frames_soa"
  | idxTopo => "idx_topo"
  | topoByFrame => "topo_by_frame"

def asBytes (n : TableName) : Bytes := utf8 n.asStr

theorem asBytes_injective : Function.Injective asBytes := by
  intro m n h
  have hall : ∀ m n : TableName, m.asStr = n.asStr → m = n := by decide +kernel
  exact hall m n (utf8_inj h)

-- The names that may come after a table in the dump; only the last two tables are optional.
def followers : TableName → List TableName
  | frames => [trajMeta]
  | trajMeta => [idxNatoms]
  | idxNatoms => [idxSymbol]
  | idxSymbol => [idxEnergy]
  | idxEnergy => [idxFlags]
  | idxFlags => [idxElemCount]
  | idxElemCount => [idxFormula]
  | idxFormula => [idxFmax]
  | idxFmax => [idxMass]
  | idxMass => [idxVolume]
  | idxVolume => [idxPbc]
  | idxPbc => [idxMeta]
  | idxMeta => [frameByHash]
  | frameByHash => [hashByFrame]
  | hashByFrame => [framesSoa]
  | framesSoa => [idxTopo, topoByFrame]
  | idxTopo => [topoByFrame]
  | topoByFrame => []

inductive KeyLayout where
  | fixed (n : Nat)
  | separated
  deriving DecidableEq, Repr

def keyLayout : TableName → KeyLayout
  | frames | hashByFrame | framesSoa | topoByFrame => .fixed 12
  | trajMeta => .fixed 8
  | idxNatoms | frameByHash => .fixed 16
  | idxEnergy | idxFmax | idxMass | idxVolume => .fixed 20
  | idxFlags | idxPbc => .fixed 13
  | idxMeta => .fixed 21
  | idxSymbol | idxElemCount | idxFormula | idxTopo => .separated

def KeyLayout.Holds : KeyLayout → Bytes → Prop
  | .fixed n, k => k.length = n
  | .separated, k => ∃ s suffix, k = utf8 s ++ 0xff :: suffix

theorem layout_ne_followers {n : TableName} {k : Bytes} (h : (keyLayout n).Holds k) :
    ∀ m ∈ followers n, k ≠ asBytes m := by
  rintro m hm rfl
  cases hl : keyLayout n with
  | fixed w =>
    have hlen : ∀ n : TableName, ∀ m ∈ followers n, keyLayout n ≠ .fixed (asBytes m).length := by decide +kernel
    rw [hl] at h
    exact hlen n m hm (hl.trans (congrArg KeyLayout.fixed h.symm))
  | separated =>
    rw [hl] at h
    obtain ⟨s, suffix, he⟩ := h
    apply sep_not_mem_utf8 m.asStr
    change 0xff ∈ asBytes m
    rw [he]
    simp

end TableName

@[ext] structure Databases where
  frames : Table Bytes
  trajMeta : Table Bytes
  idxNatoms : Table Bytes
  idxSymbol : Table Bytes
  idxEnergy : Table Bytes
  idxFlags : Table Bytes
  idxElemCount : Table Bytes
  idxFormula : Table Bytes
  idxFmax : Table Bytes
  idxMass : Table Bytes
  idxVolume : Table Bytes
  idxPbc : Table Bytes
  idxMeta : Table Bytes
  frameByHash : Table Bytes
  hashByFrame : Table Bytes
  framesSoa : Table Bytes
  idxTopo : Option (Table Bytes)
  topoByFrame : Option (Table Bytes)

-- A `Vec` holds at most `isize::MAX` bytes; growing one past that panics.
def intoVec (b : Bytes) : Except String Bytes :=
  if b.length < 2 ^ 63 then .ok b else .error "capacity overflow"

theorem intoVec_eq_ok {b v : Bytes} : intoVec b = .ok v ↔ b = v ∧ v.length < 2 ^ 63 := by
  rw [intoVec]
  split
  · next hlt =>
    rw [Except.ok.injEq]
    exact ⟨fun h => ⟨h, h ▸ hlt⟩, And.left⟩
  · next hge =>
    simp only [reduceCtorEq, false_iff, not_and]
    exact fun h => h ▸ hge

namespace Databases

variable (t : Databases)

def required : List (TableName × Table Bytes) :=
  [(.frames, t.frames), (.trajMeta, t.trajMeta), (.idxNatoms, t.idxNatoms), (.idxSymbol, t.idxSymbol),
    (.idxEnergy, t.idxEnergy), (.idxFlags, t.idxFlags), (.idxElemCount, t.idxElemCount),
    (.idxFormula, t.idxFormula), (.idxFmax, t.idxFmax), (.idxMass, t.idxMass), (.idxVolume, t.idxVolume),
    (.idxPbc, t.idxPbc), (.idxMeta, t.idxMeta), (.frameByHash, t.frameByHash), (.hashByFrame, t.hashByFrame),
    (.framesSoa, t.framesSoa)]

def tables : List (TableName × Table Bytes) :=
  t.required ++ (t.idxTopo.map (Prod.mk TableName.idxTopo)).toList ++
    (t.topoByFrame.map (Prod.mk TableName.topoByFrame)).toList

def canonicalDump : Except String Bytes :=
  intoVec (t.tables.flatMap fun e =>
    frame 8 e.1.asBytes ++ e.2.toList.flatMap fun kv => frame 8 kv.1 ++ frame 8 kv.2)

def KeysLaid : Prop := ∀ e ∈ t.tables, ∀ k ∈ e.2, e.1.keyLayout.Holds k

def sections : List (Sect TableName) := t.tables.map fun e => (e.1, e.2.toList)

def dumpParts : List Bytes := t.sections.flatMap (parts TableName.asBytes)

variable {t : Databases}

theorem dumpBytes_eq : (t.tables.flatMap fun e =>
    frame 8 e.1.asBytes ++ e.2.toList.flatMap fun kv => frame 8 kv.1 ++ frame 8 kv.2) =
      t.dumpParts.flatMap (frame 8) := by
  rw [dumpParts, sections, List.flatMap_map, List.flatMap_assoc]
  apply List.flatMap_congr
  intro e _
  simp [parts, rowParts, List.flatMap_assoc]

theorem canonicalDump_eq_ok {b : Bytes} :
    t.canonicalDump = .ok b ↔ t.dumpParts.flatMap (frame 8) = b ∧ b.length < 2 ^ 63 := by
  rw [canonicalDump, dumpBytes_eq, intoVec_eq_ok]

theorem names_chain : (t.tables.map Prod.fst).IsChain fun m n => n ∈ m.followers := by
  rw [tables, required]
  cases t.idxTopo <;> cases t.topoByFrame <;>
    simp only [List.map_append, List.map_cons, List.map_nil, Option.map_none, Option.map_some, Option.toList_none,
      Option.toList_some] <;> decide

theorem sections_sealed (h : t.KeysLaid) : Sealed TableName.asBytes TableName.followers t.sections := by
  apply sealed_of_chain
  · intro sect hs row hrow
    obtain ⟨e, he, rfl⟩ := List.mem_map.mp hs
    apply TableName.layout_ne_followers
    apply h e he
    exact key_mem_toList.mp (List.mem_map_of_mem hrow)
  · have hnames : t.sections.map Prod.fst = t.tables.map Prod.fst := by
      rw [sections, List.map_map]
      rfl
    rw [hnames]
    exact names_chain

theorem tables_injective : Function.Injective tables := by
  intro a b h
  cases a with | mk f m i1 i2 i3 i4 i5 i6 i7 i8 i9 i10 i11 h1 h2 soa topo byFrame
  cases b with | mk f' m' j1 j2 j3 j4 j5 j6 j7 j8 j9 j10 j11 g1 g2 soa' topo' byFrame'
  cases topo <;> cases topo' <;> cases byFrame <;> cases byFrame' <;> simp_all [tables, required]

theorem sections_injective : Function.Injective sections := by
  intro a b h
  apply tables_injective
  refine List.map_injective_iff.mpr ?_ h
  intro e e' he
  obtain ⟨hname, hrows⟩ := Prod.mk.inj he
  exact Prod.ext hname (Std.ExtTreeMap.toList_inj.mp hrows)

theorem canonicalDump_inj {a b : Databases} {v : Bytes} (ha : a.KeysLaid) (hb : b.KeysLaid)
    (hav : a.canonicalDump = .ok v) (hbv : b.canonicalDump = .ok v) : a = b := by
  obtain ⟨ha', hlen⟩ := canonicalDump_eq_ok.mp hav
  obtain ⟨hb', _⟩ := canonicalDump_eq_ok.mp hbv
  have hfits {parts : List Bytes} (h : parts.flatMap (frame 8) = v) : ∀ part ∈ parts, part.length < 256 ^ 8 := by
    apply fits_of_flatMap
    rw [h]
    omega
  apply sections_injective
  apply sections_inj TableName.asBytes_injective (sections_sealed ha) (sections_sealed hb)
  apply frame_selfDelimiting.flatMap (by simp [frame, leBytes]) (hfits ha') (hfits hb')
  rw [ha', hb']

end Databases

-- The environments under one root, read by shard; a shard without `data.mdb` is `none`. Opening a shard creates its
-- topology tables, so the dumps of the program are among these: shards without the two tables are allowed as well.
structure ShardedDatabases where
  nShards : UInt32
  shards : UInt32 → Option Databases

namespace ShardedDatabases

variable (s : ShardedDatabases)

def withData : List (UInt32 × Databases) :=
  (List.range s.nShards.toNat).filterMap fun i => (s.shards (UInt32.ofNat i)).map (Prod.mk (UInt32.ofNat i))

def record (e : UInt32 × Bytes) : Bytes := leBytes 4 e.1.toNat ++ frame 8 e.2

def canonicalDump : Except String Bytes := do
  let dumps ← s.withData.mapM fun e => do
    let dump ← e.2.canonicalDump
    return (e.1, dump)
  intoVec (dumps.flatMap record)

def KeysLaid : Prop := ∀ sid t, s.shards sid = some t → t.KeysLaid

variable {s : ShardedDatabases}

theorem ofNat_lt {n : UInt32} {i : Nat} (h : i < n.toNat) : UInt32.ofNat i < n := by
  rw [UInt32.lt_iff_toNat_lt, UInt32.toNat_ofNat', Nat.mod_eq_of_lt (h.trans n.toNat_lt)]
  exact h

theorem mem_withData {e : UInt32 × Databases} : e ∈ s.withData ↔ e.1 < s.nShards ∧ s.shards e.1 = some e.2 := by
  rw [withData, List.mem_filterMap]
  constructor
  · rintro ⟨i, hi, he⟩
    obtain ⟨t, ht, rfl⟩ := Option.map_eq_some_iff.mp he
    exact ⟨ofNat_lt (List.mem_range.mp hi), ht⟩
  · rintro ⟨hlt, ht⟩
    refine ⟨e.1.toNat, List.mem_range.mpr (UInt32.lt_iff_toNat_lt.mp hlt), ?_⟩
    rw [UInt32.ofNat_toNat, ht, Option.map_some]

theorem record_selfDelimiting : SelfDelimiting (fun e : UInt32 × Bytes => e.2.length < 256 ^ 8) record := by
  rintro ⟨i, d⟩ ⟨j, d'⟩ hd hd' a b he
  simp only [record, List.append_assoc] at he
  obtain ⟨hid, hrest⟩ := List.append_inj he (by rw [length_leBytes, length_leBytes])
  obtain ⟨rfl, hab⟩ := frame_selfDelimiting d d' hd hd' a b hrest
  have hi : i.toNat = j.toNat := leBytes_inj i.toNat_lt j.toNat_lt hid
  exact ⟨by rw [UInt32.toNat_inj.mp hi], hab⟩

def DumpOf (e : UInt32 × Databases) (r : UInt32 × Bytes) : Prop := r.1 = e.1 ∧ e.2.canonicalDump = .ok r.2

theorem canonicalDump_eq_ok {v : Bytes} : s.canonicalDump = .ok v ↔
    ∃ dumps, List.Forall₂ DumpOf s.withData dumps ∧ dumps.flatMap record = v ∧ v.length < 2 ^ 63 := by
  have hone (e : UInt32 × Databases) (r : UInt32 × Bytes) :
      (do let dump ← e.2.canonicalDump; return (e.1, dump) : Except String (UInt32 × Bytes)) = .ok r ↔
        DumpOf e r := by
    rw [bind_eq_ok]
    constructor
    · rintro ⟨dump, hd, hr⟩
      obtain rfl := pure_eq_ok.mp hr
      exact ⟨rfl, hd⟩
    · rintro ⟨hid, hd⟩
      exact ⟨r.2, hd, pure_eq_ok.mpr (Prod.ext hid.symm rfl)⟩
  rw [canonicalDump, bind_eq_ok]
  simp only [mapM_eq_ok, hone, intoVec_eq_ok]

theorem dumps_inj {es es' : List (UInt32 × Databases)} {dumps : List (UInt32 × Bytes)}
    (h : List.Forall₂ DumpOf es dumps) (h' : List.Forall₂ DumpOf es' dumps)
    (hl : ∀ e ∈ es, e.2.KeysLaid) (hl' : ∀ e ∈ es', e.2.KeysLaid) : es = es' := by
  induction h generalizing es' with
  | nil =>
    cases h'
    rfl
  | @cons e r es dumps hd _ ih =>
    cases h' with
    | @cons e' _ es' _ hd' h' =>
      have he : e.2 = e'.2 := Databases.canonicalDump_inj (hl e (by simp)) (hl' e' (by simp)) hd.2 hd'.2
      rw [Prod.ext (hd.1.symm.trans hd'.1) he,
        ih h' (fun x hx => hl x (by simp [hx])) (fun x hx => hl' x (by simp [hx]))]

theorem canonicalDump_inj {s s' : ShardedDatabases} {v : Bytes} (hs : s.KeysLaid) (hs' : s'.KeysLaid)
    (hsv : s.canonicalDump = .ok v) (hsv' : s'.canonicalDump = .ok v) : s.withData = s'.withData := by
  obtain ⟨dumps, hd, hv, hlen⟩ := canonicalDump_eq_ok.mp hsv
  obtain ⟨dumps', hd', hv', _⟩ := canonicalDump_eq_ok.mp hsv'
  have hfits {es : List (UInt32 × Databases)} {rs : List (UInt32 × Bytes)} (h : List.Forall₂ DumpOf es rs) :
      ∀ r ∈ rs, r.2.length < 256 ^ 8 := by
    intro r hr
    obtain ⟨e, _, he⟩ := forall₂_mem_right h hr
    have hlt := (Databases.canonicalDump_eq_ok.mp he.2).2
    omega
  have hsame : dumps = dumps' := by
    apply record_selfDelimiting.flatMap (by simp [record, leBytes]) (hfits hd) (hfits hd')
    rw [hv, hv']
  rw [← hsame] at hd'
  apply dumps_inj hd hd'
  · intro e he
    exact hs e.1 e.2 (mem_withData.mp he).2
  · intro e he
    exact hs' e.1 e.2 (mem_withData.mp he).2

theorem withData_inj {s s' : ShardedDatabases} (hn : s.nShards = s'.nShards) :
    s.withData = s'.withData ↔ ∀ sid < s.nShards, s.shards sid = s'.shards sid := by
  constructor
  · intro h sid hlt
    ext t
    have hs := mem_withData (s := s) (e := (sid, t))
    have hs' := mem_withData (s := s') (e := (sid, t))
    rw [h, hs', ← hn] at hs
    simpa [hlt] using hs.symm
  · intro h
    rw [withData, withData, ← hn]
    apply List.filterMap_congr
    intro i hi
    rw [h _ (ofNat_lt (List.mem_range.mp hi))]

end ShardedDatabases

theorem canonical_dump_injective :
    (∀ (a b : Databases) (x y : Bytes), a.KeysLaid → b.KeysLaid → a.canonicalDump = .ok x →
      b.canonicalDump = .ok y → (x = y ↔ a = b)) ∧
    ∀ (s s' : ShardedDatabases) (x y : Bytes), s.KeysLaid → s'.KeysLaid → s.nShards = s'.nShards →
      s.canonicalDump = .ok x → s'.canonicalDump = .ok y →
        (x = y ↔ ∀ sid < s.nShards, s.shards sid = s'.shards sid) := by
  refine ⟨fun a b x y ha hb hx hy => ?_, fun s s' x y hs hs' hn hx hy => ?_⟩
  · constructor
    · rintro rfl
      exact Databases.canonicalDump_inj ha hb hx hy
    · rintro rfl
      exact Except.ok.inj (hx.symm.trans hy)
  · rw [← ShardedDatabases.withData_inj hn]
    constructor
    · rintro rfl
      exact ShardedDatabases.canonicalDump_inj hs hs' hx hy
    · intro h
      rw [ShardedDatabases.canonicalDump, h] at hx
      exact Except.ok.inj (hx.symm.trans hy)

def blankTables : Databases := ⟨∅, ∅, ∅, ∅, ∅, ∅, ∅, ∅, ∅, ∅, ∅, ∅, ∅, ∅, ∅, ∅, some ∅, some ∅⟩

def oneRow : Databases := { blankTables with frames := (∅ : Table Bytes).insert (FrameKey.mk 1 0).toBytes.val [7] }

def oneShard (sid : UInt32) : ShardedDatabases := ⟨2, fun i => if i = sid then some oneRow else none⟩

theorem blankTables_laid : blankTables.KeysLaid := by
  intro e he k hk
  have hempty : e.2 = ∅ := by
    simp only [Databases.tables, Databases.required, blankTables, Option.map_some, Option.toList_some,
      List.cons_append, List.nil_append, List.mem_cons, List.not_mem_nil, or_false] at he
    aesop
  simp [hempty] at hk

theorem oneRow_laid : oneRow.KeysLaid := by
  intro e he k hk
  rcases List.mem_cons.mp he with rfl | he
  · rcases (mem_insert_iff _ _ _ _).mp hk with rfl | hk
    · exact FrameKey.length_toBytes _
    · simp at hk
  · exact blankTables_laid e (List.mem_cons_of_mem _ he) k hk

theorem oneShard_laid (sid : UInt32) : (oneShard sid).KeysLaid := by
  intro i t ht
  simp only [oneShard] at ht
  split at ht
  · exact Option.some.inj ht ▸ oneRow_laid
  · cases ht

theorem canonical_dumps_differ :
    (∃ x y, blankTables.canonicalDump = .ok x ∧ oneRow.canonicalDump = .ok y ∧ x ≠ y) ∧
      ∃ x y, (oneShard 0).canonicalDump = .ok x ∧ (oneShard 1).canonicalDump = .ok y ∧ x ≠ y := by
  have hok {e : Except String Bytes} (h : e.toOption.isSome = true) : ∃ v, e = .ok v := by
    cases e with
    | error _ => cases h
    | ok v => exact ⟨v, rfl⟩
  constructor
  · obtain ⟨x, hx⟩ := hok (e := blankTables.canonicalDump) (by decide +kernel)
    obtain ⟨y, hy⟩ := hok (e := oneRow.canonicalDump) (by decide +kernel)
    refine ⟨x, y, hx, hy, fun he => ?_⟩
    have hsame := (canonical_dump_injective.1 blankTables oneRow x y blankTables_laid oneRow_laid hx hy).mp he
    have hframes : (∅ : Table Bytes) = oneRow.frames := congrArg Databases.frames hsame
    have hm : (FrameKey.mk 1 0).toBytes.val ∈ (∅ : Table Bytes) := by
      rw [hframes]
      exact (mem_insert_iff _ _ _ _).mpr (.inl rfl)
    simp at hm
  · obtain ⟨x, hx⟩ := hok (e := (oneShard 0).canonicalDump) (by decide +kernel)
    obtain ⟨y, hy⟩ := hok (e := (oneShard 1).canonicalDump) (by decide +kernel)
    refine ⟨x, y, hx, hy, fun he => ?_⟩
    have hsame := (canonical_dump_injective.2 (oneShard 0) (oneShard 1) x y (oneShard_laid 0) (oneShard_laid 1) rfl
      hx hy).mp he
    have hfirst := hsame 0 (by decide)
    simp [oneShard] at hfirst

section Corpora

variable {F : Type}

def unitRows (t : Table Unit) : Table Bytes := t.map fun _ _ => []

-- `metaJson` is serde_json's text of a trajectory record.
def ConCorpus.databases (metaJson : TrajMeta F → String) (c : ConCorpus F) : Databases where
  frames := c.frames
  trajMeta := putAll (fun e => beBytes 8 e.1.toNat) (fun e => utf8 (metaJson e.2)) ∅ c.trajMeta.toList
  idxNatoms := unitRows (c.idx .idxNatoms)
  idxSymbol := unitRows (c.idx .idxSymbol)
  idxEnergy := unitRows (c.idx .idxEnergy)
  idxFlags := unitRows (c.idx .idxFlags)
  idxElemCount := unitRows (c.idx .idxElemCount)
  idxFormula := unitRows (c.idx .idxFormula)
  idxFmax := unitRows (c.idx .idxFmax)
  idxMass := unitRows (c.idx .idxMass)
  idxVolume := unitRows (c.idx .idxVolume)
  idxPbc := unitRows (c.idx .idxPbc)
  idxMeta := unitRows (c.idx .idxMeta)
  frameByHash := c.frameByHash
  hashByFrame := c.hashByFrame
  framesSoa := c.framesSoa
  idxTopo := c.idxTopo.map unitRows
  topoByFrame := c.topoByFrame

def ShardedConCorpus.databases (metaJson : TrajMeta F → String) (s : ShardedConCorpus F) : ShardedDatabases where
  nShards := s.nShards
  shards sid := (s.shards sid).map (ConCorpus.databases metaJson)

@[simp] theorem mem_unitRows {t : Table Unit} {b : Bytes} : b ∈ unitRows t ↔ b ∈ t := Std.ExtTreeMap.mem_map

variable [Float64 F] {d : Crates F} {c next : ConCorpus F}

structure Sized (c : ConCorpus F) : Prop where
  cooked : ∀ b ∈ c.framesSoa, b.length = 12
  posted : ∀ h ∈ c.frameByHash, h.length = 16

theorem postHash_keys {A : Type} (f : A → ContentHash) (g : A → Bytes) (xs : List A) {post : Table Bytes} {h : Bytes}
    (hm : h ∈ xs.foldl (fun t x => postHash t (f x).val (g x)) post) (hp : ∀ h ∈ post, h.length = 16) :
    h.length = 16 := by
  induction xs generalizing post with
  | nil => exact hp h hm
  | cons x xs ih =>
    refine ih hm fun h hm => ?_
    simp only [postHash] at hm
    split at hm
    · exact ((mem_insert_iff _ _ _ _).mp hm).elim (fun he => he ▸ (f x).property) (hp h)
    · exact hp h hm

theorem Sized.puts {ps : List PreparedIndexPuts} (h : Sized c) : Sized (ps.foldl putIndexPuts c) where
  cooked := by
    rw [puts_framesSoa]
    exact h.cooked
  posted v hv := by
    rw [puts_frameByHash] at hv
    exact postHash_keys PreparedIndexPuts.hash fkBytes ps hv h.posted

theorem repoint_keys {fwd : Table Bytes} (stale : List ContentHash) {post : Table Bytes} {h : Bytes}
    (hm : h ∈ stale.foldl (repointDigest fwd) post) (hp : ∀ h ∈ post, h.length = 16) : h.length = 16 := by
  induction stale generalizing post with
  | nil => exact hp h hm
  | cons digest stale ih =>
    refine ih hm fun h hm => ?_
    unfold repointDigest at hm
    split at hm
    · exact hp h hm
    · split at hm
      · exact hp h hm
      · split at hm
        · exact ((mem_insert_iff _ _ _ _).mp hm).elim (fun he => he ▸ digest.property) (hp h)
        · exact hp h ((mem_erase_iff _ _ _).mp hm).2

theorem Sized.change (h : Sized c) (hc : Change d c next) : Sized next := by
  cases hc with
  | ingest t source hd => exact ⟨h.puts.cooked, h.puts.posted⟩
  | @units t units plan old new hu =>
    refine Sized.puts ⟨fun b hb => ?_, fun v hv => ?_⟩
    · have hb' : b ∈ (deleteAllIndexPuts c plan.oldPuts).2.framesSoa := hb
      rw [deletes_framesSoa, mem_dropAll] at hb'
      exact h.cooked b hb'.1
    · refine repoint_keys (deleteAllIndexPuts c plan.oldPuts).1 hv fun v hv => ?_
      rw [deletes_frameByHash] at hv
      exact h.posted v hv
  | repack hr => exact ⟨h.cooked, h.posted⟩
  | reindex hp hn =>
    obtain ⟨rs, _, _, hcore⟩ := reindexCommit_ok hn
    refine ⟨?_, fun v hv => ?_⟩
    · rw [reindexCommit_framesSoa hn]
      exact h.cooked
    · rw [hcore.frameByHash, reindexed_frameByHash] at hv
      refine postHash_keys Prod.snd (fun kv => kv.1.toBytes.val) (rs.map (rowHash d)) hv fun w hw => ?_
      simp [cleared, clearTopo, clearSecondary] at hw
  | cook hp =>
    refine ⟨fun b hb => ?_, h.posted⟩
    exact ((mem_insert_iff _ _ _ _).mp hb).elim (fun he => he ▸ FrameKey.length_toBytes _) (h.cooked b)
  | dropCooked key => exact ⟨fun b hb => h.cooked b ((mem_erase_iff _ _ _).mp hb).2, h.posted⟩
  | compress b => exact ⟨h.cooked, h.posted⟩
  | annotate hp hn =>
    obtain ⟨_, _, _, _, _, _, _, rfl⟩ := annotateCommit_ok hn
    exact ⟨h.cooked, h.posted⟩

theorem History.sized {allow : ConCorpus F → Action F → Prop} (hz : ZstdLossless d) (h : History d allow c) :
    Sized c := by
  have hempty : Sized (ConCorpus.empty F) := ⟨by simp [ConCorpus.empty], by simp [ConCorpus.empty]⟩
  exact h.preserves hz hempty fun _ _ hs hc => hs.change hc

def Index.table : Index → TableName
  | .idxNatoms => .idxNatoms
  | .idxSymbol => .idxSymbol
  | .idxElemCount => .idxElemCount
  | .idxFormula => .idxFormula
  | .idxEnergy => .idxEnergy
  | .idxFmax => .idxFmax
  | .idxMass => .idxMass
  | .idxVolume => .idxVolume
  | .idxPbc => .idxPbc
  | .idxFlags => .idxFlags
  | .idxMeta => .idxMeta

theorem separated_holds (s : String) (suffix : Bytes) :
    TableName.KeyLayout.separated.Holds (sepPrefix s ++ suffix) :=
  ⟨s, suffix, by rw [sepPrefix, List.append_assoc, List.singleton_append]⟩

theorem LaidFor.holds {i : Index} {k : FrameKey} {b : Bytes} (h : LaidFor k i b) : i.table.keyLayout.Holds b := by
  cases i with
  | idxNatoms =>
    obtain ⟨n, rfl⟩ := h
    exact (natomsKey n k).property
  | idxSymbol | idxFormula =>
    obtain ⟨s, rfl⟩ := h
    exact separated_holds s _
  | idxElemCount =>
    obtain ⟨s, n, rfl⟩ := h
    exact separated_holds s _
  | idxEnergy | idxFmax | idxMass | idxVolume =>
    obtain ⟨o, rfl⟩ := h
    simp [Index.table, TableName.keyLayout, TableName.KeyLayout.Holds, binKey]
  | idxPbc =>
    obtain ⟨mask, rfl⟩ := h
    exact (pbcKey mask k).property
  | idxFlags =>
    obtain ⟨flag, rfl⟩ := h
    exact (flagKey flag k).property
  | idxMeta =>
    obtain ⟨ch, o, rfl⟩ := h
    simp [Index.table, TableName.keyLayout, TableName.KeyLayout.Holds, channelKey, binKey]

theorem Sized.keysLaid {metaJson : TrajMeta F → String} (hs : Sized c) (hr : Rooted c) :
    (c.databases metaJson).KeysLaid := by
  have hkey : ∀ b ∈ c.frames, b.length = 12 := by
    intro b hb
    obtain ⟨k, rfl⟩ := hr.keys b hb
    exact FrameKey.length_toBytes k
  have hidx (i : Index) : ∀ b ∈ unitRows (c.idx i), i.table.keyLayout.Holds b := by
    intro b hb
    obtain ⟨k, hk⟩ := hr.laid.idx i b (mem_unitRows.mp hb)
    exact hk.holds
  intro e he k hk
  simp only [Databases.tables, Databases.required, ConCorpus.databases, List.mem_append, List.mem_cons,
    List.not_mem_nil, or_false, Option.mem_toList, Option.map_eq_some_iff] at he
  rcases he with ((rfl | rfl | rfl | rfl | rfl | rfl | rfl | rfl | rfl | rfl | rfl | rfl | rfl | rfl | rfl | rfl) |
    ⟨_, ⟨idx, hi, rfl⟩, rfl⟩) | ⟨byFrame, hb, rfl⟩
  · exact hkey k hk
  · rcases (mem_putAll _ _ _ _ _).mp hk with hk | ⟨e, _, rfl⟩
    · simp at hk
    · exact length_beBytes 8 _
  · exact hidx .idxNatoms k hk
  · exact hidx .idxSymbol k hk
  · exact hidx .idxEnergy k hk
  · exact hidx .idxFlags k hk
  · exact hidx .idxElemCount k hk
  · exact hidx .idxFormula k hk
  · exact hidx .idxFmax k hk
  · exact hidx .idxMass k hk
  · exact hidx .idxVolume k hk
  · exact hidx .idxPbc k hk
  · exact hidx .idxMeta k hk
  · exact hs.posted k hk
  · exact hkey k ((hr.hashed k).mp hk)
  · exact hs.cooked k hk
  · obtain ⟨j, hex, _, rfl⟩ := hr.topo idx hi k (mem_unitRows.mp hk)
    exact separated_holds hex _
  · exact hkey k (hr.labelled byFrame hb k hk)

theorem History.keysLaid {allow : ConCorpus F → Action F → Prop} {metaJson : TrajMeta F → String}
    (hz : ZstdLossless d) (h : History d allow c) : (c.databases metaJson).KeysLaid :=
  (h.sized hz).keysLaid (h.rooted hz)

theorem unitRows_injective : Function.Injective unitRows := by
  intro a b h
  apply ext_unit
  intro k
  rw [← mem_unitRows, h, mem_unitRows]

theorem get_trajRows {metaJson : TrajMeta F → String} (t : UInt64) :
    (c.databases metaJson).trajMeta[beBytes 8 t.toNat]? = (c.trajMeta[t]?).map fun m => utf8 (metaJson m) := by
  have hinj (e e' : UInt64 × TrajMeta F) (h : beBytes 8 e.1.toNat = beBytes 8 e'.1.toNat) : e.1 = e'.1 :=
    UInt64.toNat_inj.mp (beBytes_inj e.1.toNat_lt e'.1.toNat_lt h)
  have hnodup : (c.trajMeta.toList.map fun e => beBytes 8 e.1.toNat).Nodup := by
    have hkeys := keys_nodup c.trajMeta
    rw [List.Nodup, List.pairwise_map] at hkeys ⊢
    exact hkeys.imp fun hne he => hne (hinj _ _ he)
  ext v
  rw [show (c.databases metaJson).trajMeta = putAll (fun e => beBytes 8 e.1.toNat) (fun e => utf8 (metaJson e.2)) ∅
    c.trajMeta.toList from rfl, get_putAll_eq_some _ _ _ hnodup, Option.map_eq_some_iff]
  constructor
  · rintro (⟨e, he, hk, hv⟩ | ⟨_, hv⟩)
    · obtain rfl := hinj e (t, e.2) hk
      exact ⟨e.2, Std.ExtTreeMap.mem_toList_iff_getElem?_eq_some.mp he, hv⟩
    · simp at hv
  · rintro ⟨m, hm, hv⟩
    exact .inl ⟨(t, m), Std.ExtTreeMap.mem_toList_iff_getElem?_eq_some.mpr hm, rfl, hv⟩

theorem databases_inj {metaJson : TrajMeta F → String} (hj : Function.Injective metaJson) {c c' : ConCorpus F}
    (h : c.databases metaJson = c'.databases metaJson) : { c with compressFrames := c'.compressFrames } = c' := by
  have hmeta : c.trajMeta = c'.trajMeta := by
    apply Std.ExtTreeMap.ext_getElem?
    intro t
    have hrows : (c.databases metaJson).trajMeta[beBytes 8 t.toNat]? =
      (c.trajMeta[t]?).map fun m => utf8 (metaJson m) := get_trajRows t
    rw [h, get_trajRows] at hrows
    exact (Option.map_injective (fun m m' he => hj (utf8_inj he)) hrows).symm
  have hidx : c.idx = c'.idx := by
    funext i
    apply unitRows_injective
    cases i with
    | idxNatoms => exact congrArg Databases.idxNatoms h
    | idxSymbol => exact congrArg Databases.idxSymbol h
    | idxElemCount => exact congrArg Databases.idxElemCount h
    | idxFormula => exact congrArg Databases.idxFormula h
    | idxEnergy => exact congrArg Databases.idxEnergy h
    | idxFmax => exact congrArg Databases.idxFmax h
    | idxMass => exact congrArg Databases.idxMass h
    | idxVolume => exact congrArg Databases.idxVolume h
    | idxPbc => exact congrArg Databases.idxPbc h
    | idxFlags => exact congrArg Databases.idxFlags h
    | idxMeta => exact congrArg Databases.idxMeta h
  have htopo : c.idxTopo = c'.idxTopo := Option.map_injective unitRows_injective (congrArg Databases.idxTopo h)
  have hframes : c.frames = c'.frames := congrArg Databases.frames h
  have hposts : c.frameByHash = c'.frameByHash := congrArg Databases.frameByHash h
  have hhashes : c.hashByFrame = c'.hashByFrame := congrArg Databases.hashByFrame h
  have hsoa : c.framesSoa = c'.framesSoa := congrArg Databases.framesSoa h
  have hlabels : c.topoByFrame = c'.topoByFrame := congrArg Databases.topoByFrame h
  cases c
  cases c'
  simp_all

-- Equal digests certify equal corpora, however each was built.
theorem History.dump_inj {allow allow' : ConCorpus F → Action F → Prop} {metaJson : TrajMeta F → String}
    (hz : ZstdLossless d) (hj : Function.Injective metaJson) {c c' : ConCorpus F} (h : History d allow c)
    (h' : History d allow' c') {v : Bytes} (hv : (c.databases metaJson).canonicalDump = .ok v)
    (hv' : (c'.databases metaJson).canonicalDump = .ok v) : { c with compressFrames := c'.compressFrames } = c' :=
  databases_inj hj (Databases.canonicalDump_inj (h.keysLaid hz) (h'.keysLaid hz) hv hv')

theorem ShardedConCorpus.keysLaid {metaJson : TrajMeta F → String} {s : ShardedConCorpus F} (hz : ZstdLossless d)
    (h : ∀ sid c, s.shards sid = some c → History d AnyCall c) : (s.databases metaJson).KeysLaid := by
  intro sid t ht
  obtain ⟨c, hc, rfl⟩ := Option.map_eq_some_iff.mp ht
  exact (h sid c hc).keysLaid hz

end Corpora

end ReadconDb
