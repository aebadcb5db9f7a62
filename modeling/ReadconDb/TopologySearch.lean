import ReadconDb.Rooted
import ReadconDb.Library.SortedList

set_option linter.unusedSectionVars false

namespace ReadconDb

open ByteString Outcome OrderedTable SortedList

section Model

variable {F : Type} [Float64 F] (seams : Seams F) (c : ConCorpus F)

namespace TopologyParams

def cutoffOrErr (p : TopologyParams F) : Result F :=
  match p.cutoff with
  | some cutoff => .ok cutoff
  | none => .error (.message "recorded topology parameters lack cutoff")

def graphOrDefault (p : TopologyParams F) : String := p.graph.getD "cutoff"

def hopsOrDefault (p : TopologyParams F) : UInt32 := p.hops.getD 2

end TopologyParams

def notAnnotated : Error :=
  .message "no recorded topology parameters on this corpus; run annotate-topology first"

def topoHits (idx : Table Unit) (hex : String) : List FrameKey :=
  (prefixIter idx (topoPrefix hex)).filterMap fun k =>
    if k.length < 12 then none else FrameKey.fromBytes (k.drop (k.length - 12))

-- The keys found are collected in a `BTreeSet`.
def lookupTopoKeys (hexes : List String) : Result (List FrameKey) :=
  match c.idxTopo with
  | none => .ok []
  | some idx => do
    let hits ← hexes.mapM fun hex => do return topoHits idx (← normalizeTopoHex hex)
    return hits.flatten.dedup.mergeSort

def findByTopologyText (text : String) : Result (List FrameKey) := do
  match ← collectedTopoParams c with
  | none => .error notAnnotated
  | some rec =>
    let cutoff ← rec.cutoffOrErr
    seams.resolved
    let recs ← fingerprintConBytes seams (utf8 text) cutoff rec.graphOrDefault rec.hopsOrDefault
    lookupTopoKeys c (recs.map FingerprintRecord.key)

end Model

section Lookup

variable {F : Type} [Float64 F] {c : ConCorpus F}

theorem mem_topoHits {idx : Table Unit} (ht : ∀ b ∈ idx, ∃ k hex, b = topoKey hex k) {hex : String} {k : FrameKey} :
    k ∈ topoHits idx hex ↔ topoKey hex k ∈ idx := by
  have hscan : k ∈ topoHits idx hex ↔ k ∈ scanPrefix (fun _ => true) idx (topoPrefix hex) := by
    simp [topoHits, scanPrefix, collect]
  exact hscan.trans ((mem_scanPrefix ht).trans (by simp [topoKey]))

theorem lookupTopoKeys_ok {idx : Table Unit} (hi : c.idxTopo = some idx) (hl : Laid c) {hexes : List String}
    (hh : ∀ hex ∈ hexes, IsTopoHex hex) : ∃ keys, lookupTopoKeys c hexes = .ok keys ∧ keys.Pairwise (· < ·) ∧
      ∀ k, k ∈ keys ↔ ∃ hex ∈ hexes, topoKey hex k ∈ idx := by
  have hhits : (hexes.mapM fun hex => do return topoHits idx (← normalizeTopoHex hex)) =
      .ok (hexes.map (topoHits idx)) := by
    refine mapM_ok_of_forall fun hex hmem => ?_
    rw [hh hex hmem]
    rfl
  refine ⟨(hexes.map (topoHits idx)).flatten.dedup.mergeSort, ?_, mergeSort_pairwise (List.nodup_dedup _), fun k => ?_⟩
  · rw [lookupTopoKeys, hi]
    simp only [hhits]
    rfl
  · rw [List.mem_mergeSort, List.mem_dedup, List.mem_flatten]
    simp only [List.mem_map, exists_exists_and_eq_and, mem_topoHits (hl.topo idx hi)]

theorem select_topo {idx : Table Unit} (hi : c.idxTopo = some idx) (hl : Laid c) {hex : String} (hh : IsTopoHex hex) :
    ∃ keys, select c { topoKey := some hex } = .ok keys ∧ ∀ k, k ∈ keys ↔ topoKey hex k ∈ idx := by
  rcases select_cases hl { topoKey := some hex } with ⟨raw, e, hraw, _, he, _⟩ | ⟨keys, _, hpicked, hok⟩
  · obtain rfl := Option.some.inj hraw
    rw [IsTopoHex.eq_1, he] at hh
    cases hh
  · refine ⟨keys, hok, fun k => ?_⟩
    rw [hpicked]
    constructor
    · intro hk
      obtain ⟨idx', hex', hi', hhex', hb⟩ := hk.topo hex rfl
      obtain rfl := Option.some.inj (hi.symm.trans hi')
      rw [IsTopoHex.eq_1, hhex', Except.ok.injEq] at hh
      exact hh ▸ hb
    · intro hb
      exact {
        hash := fun _ h => by cases h
        natoms := fun h => by simp at h
        symbols := fun _ h => by simp at h
        formula := fun _ h => by cases h
        topo := fun raw hraw => ⟨idx, hex, hi, Option.some.inj hraw ▸ hh, hb⟩
        countExact := fun _ h => by simp at h
        countMin := fun _ h => by simp at h
        scalar := fun ch h => by cases ch <;> simp [given, Scalar.lo, Scalar.hi] at h
        pbc := fun _ h => by cases h
        forces := fun h => by cases h
        velocities := fun h => by cases h
        energy := fun h => by cases h
        traj := fun _ h => by cases h
        stored := fun hfree => by cases congrArg Select.topoKey hfree }

end Lookup

section Params

variable {F : Type} [Float64 F] {c : ConCorpus F}

theorem collectParams_some {seen : Option (TopologyParams F)} {metas : List (UInt64 × TrajMeta F)} {p : TopologyParams F}
    (h : collectParams seen metas = .ok (some p)) :
    seen = some p ∨ ∃ row ∈ metas, row.2.hasTopo = true ∧ row.2.topoParams = p := by
  induction metas generalizing seen with
  | nil => exact .inl (Except.ok.inj h)
  | cons row metas ih =>
    obtain ⟨t, m⟩ := row
    have hlater (hl : ∃ row ∈ metas, row.2.hasTopo = true ∧ row.2.topoParams = p) :
        ∃ row ∈ (t, m) :: metas, row.2.hasTopo = true ∧ row.2.topoParams = p := by
      obtain ⟨row, hr, hp⟩ := hl
      exact ⟨row, List.mem_cons_of_mem _ hr, hp⟩
    unfold collectParams at h
    split at h
    · exact (ih h).imp_right hlater
    · next hm =>
      have hstamped : m.hasTopo = true := by simpa using hm
      split at h
      · rcases ih h with hp | hl
        · exact .inr ⟨(t, m), List.mem_cons_self, hstamped, Option.some.inj hp⟩
        · exact .inr (hlater hl)
      · split at h
        · exact (ih h).imp_right hlater
        · cases h

theorem collectParams_none {seen : Option (TopologyParams F)} {metas : List (UInt64 × TrajMeta F)}
    (h : collectParams seen metas = .ok none) : seen = none ∧ ∀ row ∈ metas, row.2.hasTopo = false := by
  induction metas generalizing seen with
  | nil => exact ⟨Except.ok.inj h, by simp⟩
  | cons row metas ih =>
    obtain ⟨t, m⟩ := row
    unfold collectParams at h
    split at h
    · next hm =>
      obtain ⟨hseen, hrest⟩ := ih h
      exact ⟨hseen, List.forall_mem_cons.mpr ⟨by simpa using hm, hrest⟩⟩
    · split at h
      · cases (ih h).1
      · split at h
        · cases (ih h).1
        · cases h

-- What is recorded is what every annotated trajectory has.
theorem TopoKept.recorded (h : TopoKept c) {p : TopologyParams F} (hp : collectedTopoParams c = .ok (some p)) :
    (∃ (t : UInt64) (m : TrajMeta F), c.trajMeta[t]? = some m ∧ m.hasTopo = true) ∧
      ∀ (t : UInt64) (m : TrajMeta F), c.trajMeta[t]? = some m → m.hasTopo = true → m.topoParams = p := by
  obtain ⟨q, hq⟩ := h.record
  rcases collectParams_some hp with hseen | ⟨⟨t, m⟩, hrow, hm, rfl⟩
  · cases hseen
  · have hstored : c.trajMeta[t]? = some m := Std.ExtTreeMap.mem_toList_iff_getElem?_eq_some.mp hrow
    refine ⟨⟨t, m, hstored, hm⟩, fun u n hn hhas => ?_⟩
    rw [hq.same u n hn hhas, hq.same t m hstored hm]

end Params

section Search

variable {F : Type} [Float64 F] {d : Crates F} {c : ConCorpus F} {seams : Seams F} {text : String}

theorem TopoIndexed.mem_iff {idx : Table Unit} {byFrame : Table Bytes} (h : TopoIndexed idx byFrame) {hex : String}
    {k : FrameKey} : topoKey hex k ∈ idx ↔ byFrame[k.toBytes.val]? = some (utf8 hex) := by
  rw [h.exact]
  constructor
  · rintro ⟨j, hex', hj, he⟩
    obtain ⟨rfl, rfl⟩ := topoKey_inj he
    exact hj
  · exact fun hk => ⟨k, hex, hk, rfl⟩

structure Searches (seams : Seams F) (c : ConCorpus F) (text : String) (recs : List FingerprintRecord) : Prop where
  stamped : ∃ (t : UInt64) (m : TrajMeta F), c.trajMeta[t]? = some m ∧ m.hasTopo = true
  resolved : seams.resolved = .ok ()
  alike : ∀ (t : UInt64) (m : TrajMeta F), c.trajMeta[t]? = some m → m.hasTopo = true →
    ∃ cutoff, m.topoCutoff = some cutoff ∧
      fingerprintConBytes seams (utf8 text) cutoff m.topoParams.graphOrDefault m.topoParams.hopsOrDefault = .ok recs

structure FindsTopology (c : ConCorpus F) (recs : List FingerprintRecord) (keys : List FrameKey) : Prop where
  sorted : keys.Pairwise (· < ·)
  stored : ∀ k ∈ keys, k.toBytes.val ∈ c.frames
  exact : ∃ byFrame, c.topoByFrame = some byFrame ∧
    ∀ k, k ∈ keys ↔ ∃ r ∈ recs, byFrame[k.toBytes.val]? = some (utf8 r.key)
  selected : ∀ k, k ∈ keys ↔ ∃ r ∈ recs, ∃ picked, select c { topoKey := some r.key } = .ok picked ∧ k ∈ picked

theorem FindsTopology.unique {recs : List FingerprintRecord} {keys keys' : List FrameKey}
    (h : FindsTopology c recs keys) (h' : FindsTopology c recs keys') : keys = keys' := by
  refine h.sorted.eq_of_mem_iff h'.sorted fun k => ?_
  rw [h.selected, h'.selected]

theorem lookup_finds (hr : Rooted c) (hk : TopoKept c) {recs : List FingerprintRecord}
    (hh : ∀ r ∈ recs, IsTopoHex r.key) : ∃ keys, lookupTopoKeys c (recs.map FingerprintRecord.key) = .ok keys ∧
      FindsTopology c recs keys := by
  obtain ⟨idx, byFrame, hi, hb, hindexed⟩ := hk.tables
  have hhexes : ∀ hex ∈ recs.map FingerprintRecord.key, IsTopoHex hex := List.forall_mem_map.mpr hh
  obtain ⟨keys, hkeys, hsorted, hmem⟩ := lookupTopoKeys_ok hi hr.laid hhexes
  have hfound (k : FrameKey) : k ∈ keys ↔ ∃ r ∈ recs, topoKey r.key k ∈ idx := by
    rw [hmem]
    simp only [List.mem_map, exists_exists_and_eq_and]
  refine ⟨keys, hkeys, hsorted, fun k hk => ?_, ⟨byFrame, hb, fun k => ?_⟩, fun k => ?_⟩
  · obtain ⟨r, _, hposted⟩ := (hfound k).mp hk
    exact hr.mentioned (.topo idx r.key hi hposted)
  · rw [hfound]
    exact exists_congr fun r => and_congr_right fun _ => hindexed.mem_iff
  · rw [hfound]
    refine exists_congr fun r => and_congr_right fun hmemr => ?_
    obtain ⟨picked, hok, hpicked⟩ := select_topo hi hr.laid (hh r hmemr)
    constructor
    · exact fun hposted => ⟨picked, hok, (hpicked k).mpr hposted⟩
    · rintro ⟨picked', hok', hkp⟩
      obtain rfl := Except.ok.inj (hok.symm.trans hok')
      exact (hpicked k).mp hkp

theorem topology_search_iff (hz : ZstdLossless d) (hj : JsonExact d) (he : EqRefl F) (h : History d AnyCall c)
    (seams : Seams F) (text : String) (keys : List FrameKey) :
    findByTopologyText seams c text = .ok keys ↔
      ∃ recs, Searches seams c text recs ∧ FindsTopology c recs keys := by
  have hkept := h.topoKept hz hj
  have hrooted := h.rooted hz
  constructor
  · intro hfind
    obtain ⟨recorded, hcollected, hfind⟩ := bind_eq_ok.mp hfind
    cases recorded with
    | none => cases hfind
    | some p =>
      obtain ⟨cutoff, hcutoff, hfind⟩ := bind_eq_ok.mp hfind
      obtain ⟨⟨⟩, hresolved, hfind⟩ := bind_eq_ok.mp hfind
      obtain ⟨recs, hrecs, hfind⟩ := bind_eq_ok.mp hfind
      obtain ⟨hstamped, hsame⟩ := hkept.recorded hcollected
      obtain ⟨keys', hkeys', hfinds⟩ := lookup_finds hrooted hkept (fingerprintConBytes_keys hrecs)
      obtain rfl := Except.ok.inj (hkeys'.symm.trans hfind)
      refine ⟨recs, ⟨hstamped, hresolved, fun t m hm hhas => ?_⟩, hfinds⟩
      obtain rfl := hsame t m hm hhas
      refine ⟨cutoff, ?_, hrecs⟩
      rw [TopologyParams.cutoffOrErr] at hcutoff
      split at hcutoff
      · next x hx => exact hx.trans (congrArg some (Except.ok.inj hcutoff))
      · cases hcutoff
  · rintro ⟨recs, hsearch, hfinds⟩
    obtain ⟨t, m, hm, hhas⟩ := hsearch.stamped
    obtain ⟨recorded, hcollected⟩ := hkept.collected he
    cases recorded with
    | none =>
      have hnone := (collectParams_none hcollected).2 (t, m) (Std.ExtTreeMap.mem_toList_iff_getElem?_eq_some.mpr hm)
      rw [hhas] at hnone
      cases hnone
    | some p =>
      obtain rfl := (hkept.recorded hcollected).2 t m hm hhas
      obtain ⟨cutoff, hcutoff, hrecs⟩ := hsearch.alike t m hm hhas
      obtain ⟨keys', hkeys', hfinds'⟩ := lookup_finds hrooted hkept (fingerprintConBytes_keys hrecs)
      obtain rfl := hfinds.unique hfinds'
      have hrequired : m.topoParams.cutoffOrErr = .ok cutoff := by
        rw [TopologyParams.cutoffOrErr, TrajMeta.topoParams, hcutoff]
      exact bind_eq_ok.mpr ⟨_, hcollected, bind_eq_ok.mpr ⟨_, hrequired, bind_eq_ok.mpr ⟨_, hsearch.resolved,
        bind_eq_ok.mpr ⟨_, hrecs, hkeys'⟩⟩⟩⟩

end Search

section Tiny

theorem tiny_topology_search : findByTopologyText tinySeams tinyAnnotated hydrogen.2 = .ok [⟨0, 0⟩] ∧
    ∃ recs, Searches tinySeams tinyAnnotated hydrogen.2 recs ∧ FindsTopology tinyAnnotated recs [⟨0, 0⟩] := by
  have hkeys : (findByTopologyText tinySeams tinyAnnotated hydrogen.2).toOption = some [⟨0, 0⟩] := by decide +kernel
  have hfound : findByTopologyText tinySeams tinyAnnotated hydrogen.2 = .ok [⟨0, 0⟩] := toOption_eq_some.mp hkeys
  exact ⟨hfound, (topology_search_iff tiny_lossless tiny_json bits_eqRefl tinyAnnotated_history tinySeams hydrogen.2
    [⟨0, 0⟩]).mp hfound⟩

end Tiny

end ReadconDb
