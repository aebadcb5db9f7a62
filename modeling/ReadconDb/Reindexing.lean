import ReadconDb.Repack

set_option linter.unusedSectionVars false

namespace ReadconDb

open ByteString Outcome OrderedTable TwoPhase ReverseIndex

section Projection

variable {F : Type} [Float64 F] {d : Crates F}

-- `FrameIndexProjection::from_frame` and the functions of `index_proj` read a frame alike.
structure ProjectionAgrees (d : Crates F) : Prop where
  nAtoms : ∀ f, (d.fromFrame f).nAtoms = UInt32.ofNat f.atomData.length
  speciesCounts : ∀ f, (d.fromFrame f).speciesCounts = d.frameSpeciesCounts f
  formula : ∀ f, (d.fromFrame f).formula = d.compositionFormula (d.frameSpeciesCounts f)
  energy : ∀ f, (d.fromFrame f).energy = d.finiteEnergy f
  hasForces : ∀ f, (d.fromFrame f).hasForces = d.frameHasForces f
  fmax : ∀ f, d.frameHasForces f = true → (d.fromFrame f).fmax = d.frameFmax f
  hasVelocities : ∀ f, (d.fromFrame f).hasVelocities = d.frameHasVelocities f
  totalMass : ∀ f, (d.fromFrame f).totalMass = d.frameTotalMass f
  cellVolume : ∀ f, (d.fromFrame f).cellVolume = d.frameCellVolume f
  pbc : ∀ f, (d.fromFrame f).pbc = d.pbc f.header

theorem mem_scalarRow {i j : Index} {key : F → FrameKey → Option (Arr 20)} {x : Option F}
    {k : FrameKey} {b : Bytes} :
    (j, b) ∈ scalarRow i key x k ↔ j = i ∧ b ∈ (x.bind fun x => key x k).toList.map Subtype.val := by
  simp only [scalarRow, List.mem_map, Prod.mk.injEq]
  constructor
  · rintro ⟨key, hk, rfl, rfl⟩
    exact ⟨rfl, key, hk, rfl⟩
  · rintro ⟨rfl, key, hk, rfl⟩
    exact ⟨key, hk, rfl, rfl⟩

theorem mem_reindexRows (hp : ProjectionAgrees d) (k : FrameKey) (f : ConFrame F) (i : Index) (b : Bytes) :
    (i, b) ∈ reindexRows d k f ↔ (i, b) ∈ frameRows d k f := by
  have hflip (c : Bytes) : b = c ↔ c = b := eq_comm
  rw [frameRows, mem_rows]
  simp only [reindexRows, List.mem_cons, List.mem_append, List.mem_flatMap, List.mem_ite_nil_right,
    List.mem_ite_nil_left, mem_scalarRow, List.mem_map, Prod.mk.injEq, List.not_mem_nil, or_false]
  cases i with
  | idxNatoms => simp [ScreeningKeys.keys, screeningKeys, hp.nAtoms]
  | idxSymbol => simp [ScreeningKeys.keys, screeningKeys, hp.speciesCounts, mem_firstSymbols, hflip]
  | idxElemCount => simp [ScreeningKeys.keys, screeningKeys, hp.speciesCounts, hflip]
  | idxFormula => simp [ScreeningKeys.keys, screeningKeys, hp.formula, hflip]
  | idxEnergy => simp [ScreeningKeys.keys, screeningKeys, hp.energy]
  | idxFmax =>
    cases hf : d.frameHasForces f with
    | false => simp [ScreeningKeys.keys, screeningKeys, hp.hasForces, hf]
    | true => simp [ScreeningKeys.keys, screeningKeys, hp.hasForces, hp.fmax f hf, hf]
  | idxMass => simp [ScreeningKeys.keys, screeningKeys, hp.totalMass]
  | idxVolume => simp [ScreeningKeys.keys, screeningKeys, hp.cellVolume]
  | idxPbc =>
    cases hb : d.pbc f.header with
    | none => simp [ScreeningKeys.keys, screeningKeys, hp.pbc, hb]
    | some p =>
      have hkey := (hflip (pbcKey (pbcMaskFromBools p) k).val).symm
      simpa [ScreeningKeys.keys, screeningKeys, hp.pbc, hb] using hkey
  | idxFlags =>
    cases he : (d.finiteEnergy f).isSome <;> cases hf : d.frameHasForces f <;>
      cases hv : d.frameHasVelocities f <;>
      simp [ScreeningKeys.keys, screeningKeys, hp.energy, hp.hasForces, hp.hasVelocities, he, hf, hv]
  | idxMeta => simp [ScreeningKeys.keys, screeningKeys]

end Projection

section Reindex

variable {F : Type} [Float64 F] {d : Crates F} {c live next : ConCorpus F}

def reindexPut (d : Crates F) (c : ConCorpus F) (r : FrameRow F) : ConCorpus F :=
  { c with
    hashByFrame := c.hashByFrame.insert r.1.toBytes.val (hashFrameBytes d (utf8 r.2.2)).val
    frameByHash := postHash c.frameByHash (hashFrameBytes d (utf8 r.2.2)).val r.1.toBytes.val
    idx := (reindexRows d r.1 r.2.1).foldl putRow c.idx }

theorem reindexFrame_eq_ok {k : FrameKey} : reindexFrame d c k = .ok next ↔
    ∃ s f, textAt d c k = some s ∧ parsed d s = some f ∧ next = reindexPut d c (k, f, s) := by
  rw [reindexFrame, bind_eq_ok]
  simp only [bind_eq_ok, firstFrame_eq_ok, pure_eq_ok, textAt, toOption_eq_some]
  constructor
  · rintro ⟨s, hs, f, hf, rfl⟩
    exact ⟨s, f, hs, hf, rfl⟩
  · rintro ⟨s, f, hs, hf, rfl⟩
    exact ⟨s, hs, f, hf, rfl⟩

structure Reads (d : Crates F) (c : ConCorpus F) (keys : List FrameKey) (rs : List (FrameRow F)) : Prop where
  keys : rs.map Prod.fst = keys
  text : ∀ r ∈ rs, textAt d c r.1 = some r.2.2
  parsed : Parses d rs

theorem foldlM_reindexFrame_eq_ok {keys : List FrameKey} :
    keys.foldlM (reindexFrame d) c = .ok next ↔
      ∃ rs, Reads d c keys rs ∧ next = rs.foldl (reindexPut d) c := by
  induction keys generalizing c with
  | nil =>
    rw [List.foldlM_nil, pure_eq_ok]
    constructor
    · rintro rfl
      exact ⟨[], ⟨rfl, by simp, fun r hr => by cases hr⟩, rfl⟩
    · rintro ⟨rs, hr, rfl⟩
      rw [List.map_eq_nil_iff.mp hr.keys]
      rfl
  | cons k keys ih =>
    rw [foldlM_cons_ok]
    simp only [ih]
    have hview (r : FrameRow F) (j : FrameKey) : textAt d (reindexPut d c r) j = textAt d c j :=
      textAt_of_frames_eq rfl j
    constructor
    · rintro ⟨c', hc', rs, hr, rfl⟩
      obtain ⟨s, f, hs, hf, rfl⟩ := reindexFrame_eq_ok.mp hc'
      refine ⟨(k, f, s) :: rs, ⟨by rw [List.map_cons, hr.keys], ?_, ?_⟩, rfl⟩
      · intro r hm
        rcases List.mem_cons.mp hm with rfl | hm
        · exact hs
        · rw [← hview (k, f, s), hr.text r hm]
      · intro r hm
        rcases List.mem_cons.mp hm with rfl | hm
        · exact hf
        · exact hr.parsed r hm
    · rintro ⟨rs, hr, rfl⟩
      cases rs with
      | nil => cases hr.keys
      | cons r rs =>
        have hkeys := hr.keys
        rw [List.map_cons, List.cons.injEq] at hkeys
        refine ⟨reindexPut d c r, reindexFrame_eq_ok.mpr ⟨r.2.2, r.2.1, ?_, hr.parsed r (by simp), ?_⟩,
          rs, ⟨hkeys.2, fun q hq => ?_, fun q hq => hr.parsed q (by simp [hq])⟩, rfl⟩
        · rw [← hkeys.1, hr.text r (by simp)]
        · rw [← hkeys.1]
        · rw [hview, hr.text q (by simp [hq])]

section Rebuilt

variable (c : ConCorpus F) (rs : List (FrameRow F))

@[simp] theorem reindexed_frames : (rs.foldl (reindexPut d) c).frames = c.frames := by
  induction rs generalizing c with
  | nil => rfl
  | cons r rs ih => rw [List.foldl_cons, ih]; rfl

@[simp] theorem reindexed_trajMeta : (rs.foldl (reindexPut d) c).trajMeta = c.trajMeta := by
  induction rs generalizing c with
  | nil => rfl
  | cons r rs ih => rw [List.foldl_cons, ih]; rfl

@[simp] theorem reindexed_framesSoa : (rs.foldl (reindexPut d) c).framesSoa = c.framesSoa := by
  induction rs generalizing c with
  | nil => rfl
  | cons r rs ih => rw [List.foldl_cons, ih]; rfl

@[simp] theorem reindexed_compress :
    (rs.foldl (reindexPut d) c).compressFrames = c.compressFrames := by
  induction rs generalizing c with
  | nil => rfl
  | cons r rs ih => rw [List.foldl_cons, ih]; rfl

@[simp] theorem reindexed_idxTopo : (rs.foldl (reindexPut d) c).idxTopo = c.idxTopo := by
  induction rs generalizing c with
  | nil => rfl
  | cons r rs ih => rw [List.foldl_cons, ih]; rfl

@[simp] theorem reindexed_topoByFrame : (rs.foldl (reindexPut d) c).topoByFrame = c.topoByFrame := by
  induction rs generalizing c with
  | nil => rfl
  | cons r rs ih => rw [List.foldl_cons, ih]; rfl

def rowHash (d : Crates F) (r : FrameRow F) : FrameKey × ContentHash := (r.1, hashFrameBytes d (utf8 r.2.2))

theorem reindexed_hashByFrame : (rs.foldl (reindexPut d) c).hashByFrame =
    putAll (fun kv => kv.1.toBytes.val) (fun kv => kv.2.val) c.hashByFrame (rs.map (rowHash d)) := by
  induction rs generalizing c with
  | nil => rfl
  | cons r rs ih => rw [List.foldl_cons, ih]; rfl

theorem reindexed_frameByHash : (rs.foldl (reindexPut d) c).frameByHash =
    (rs.map (rowHash d)).foldl (fun t kv => postHash t kv.2.val kv.1.toBytes.val) c.frameByHash := by
  induction rs generalizing c with
  | nil => rfl
  | cons r rs ih => rw [List.foldl_cons, ih]; rfl

theorem mem_reindexed_idx (i : Index) (b : Bytes) :
    b ∈ (rs.foldl (reindexPut d) c).idx i ↔ b ∈ c.idx i ∨ ∃ r ∈ rs, (i, b) ∈ reindexRows d r.1 r.2.1 := by
  induction rs generalizing c with
  | nil => simp
  | cons r rs ih =>
    rw [List.foldl_cons, ih]
    simp only [reindexPut, mem_putRows, List.mem_cons, exists_eq_or_imp]
    tauto

end Rebuilt

def frameKeys (c : ConCorpus F) : List FrameKey := c.frames.keys.filterMap FrameKey.fromBytes

theorem Reads.nodup {rs : List (FrameRow F)} (hr : Reads d c (frameKeys c) rs) :
    (rs.map Prod.fst).Nodup := by
  rw [hr.keys]
  exact frameKeys_nodup

theorem Reads.mem_iff {rs : List (FrameRow F)} (hr : Reads d c (frameKeys c) rs) {k : FrameKey}
    {s : String} : textAt d c k = some s ↔ ∃ f, (k, f, s) ∈ rs := by
  constructor
  · intro hs
    obtain ⟨row, hrow⟩ := rowOf_of_textAt hs
    have hm : k ∈ rs.map Prod.fst := by
      rw [hr.keys]
      exact mem_frameKeys.mpr ((mem_iff_get _ _).mpr ⟨row, hrow⟩)
    obtain ⟨⟨j, f, u⟩, hq, rfl⟩ := List.mem_map.mp hm
    have hu := hr.text _ hq
    rw [hs, Option.some.injEq] at hu
    exact ⟨f, hu ▸ hq⟩
  · rintro ⟨f, hf⟩
    exact hr.text (k, f, s) hf

def cleared (c : ConCorpus F) : ConCorpus F := clearTopo (clearSecondary c)

theorem hashExact_reindexed {rs : List (FrameRow F)} (hr : Reads d c (frameKeys c) rs) :
    HashExact d (rs.foldl (reindexPut d) (cleared c)) := by
  have hfst : (rs.map (rowHash d)).map Prod.fst = rs.map Prod.fst := by
    rw [List.map_map]
    rfl
  have hview (k : FrameKey) : textAt d (rs.foldl (reindexPut d) (cleared c)) k = textAt d c k :=
    textAt_of_frames_eq (by rw [reindexed_frames]; rfl) k
  have hkeys : ((rs.map (rowHash d)).map fun kv => kv.1.toBytes.val).Nodup :=
    keyBytes_nodup (hfst ▸ hr.nodup)
  constructor
  · intro b h
    rw [reindexed_hashByFrame, get_putAll_eq_some _ _ _ hkeys]
    simp only [hview, hr.mem_iff]
    constructor
    · rintro (⟨kv, hm, rfl, rfl⟩ | ⟨_, hnone⟩)
      · obtain ⟨r, hq, rfl⟩ := List.mem_map.mp hm
        exact ⟨r.1, r.2.2, rfl, ⟨r.2.1, hq⟩, rfl⟩
      · simp [cleared, clearTopo, clearSecondary] at hnone
    · rintro ⟨k, s, rfl, ⟨f, hm⟩, rfl⟩
      exact .inl ⟨rowHash d (k, f, s), List.mem_map_of_mem hm, rfl, rfl⟩
  · rw [reindexed_hashByFrame, reindexed_frameByHash]
    exact linked_posts linked_empty (hfst ▸ hr.nodup) (by simp)

theorem indexExact_reindexed (hp : ProjectionAgrees d) {rs : List (FrameRow F)}
    (hr : Reads d c (frameKeys c) rs) : IndexExact d (rs.foldl (reindexPut d) (cleared c)) := by
  have hview (k : FrameKey) : textAt d (rs.foldl (reindexPut d) (cleared c)) k = textAt d c k :=
    textAt_of_frames_eq (by rw [reindexed_frames]; rfl) k
  intro i b
  rw [mem_reindexed_idx]
  simp only [hview, hr.mem_iff, mem_reindexRows hp]
  constructor
  · rintro (hb | ⟨r, hm, hb⟩)
    · simp [cleared, clearTopo, clearSecondary] at hb
    · exact ⟨r.1, r.2.2, r.2.1, ⟨r.2.1, hm⟩, hr.parsed r hm, hb⟩
  · rintro ⟨k, s, f, ⟨g, hm⟩, hf, hb⟩
    have hg := hr.parsed _ hm
    rw [hf, Option.some.injEq] at hg
    exact .inr ⟨(k, g, s), hm, hg ▸ hb⟩

structure SameCore (a b : ConCorpus F) : Prop where
  compress : a.compressFrames = b.compressFrames
  frames : a.frames = b.frames
  trajMeta : a.trajMeta = b.trajMeta
  idx : a.idx = b.idx
  frameByHash : a.frameByHash = b.frameByHash
  hashByFrame : a.hashByFrame = b.hashByFrame
  framesSoa : a.framesSoa = b.framesSoa
  topoByFrame : a.topoByFrame = b.topoByFrame

theorem SameCore.refl (a : ConCorpus F) : SameCore a a := ⟨rfl, rfl, rfl, rfl, rfl, rfl, rfl, rfl⟩

theorem sameCore_rebuild (h : rebuildIdxTopoFromStored c = .ok next) : SameCore next c := by
  obtain ⟨tables, _, h⟩ := bind_eq_ok.mp h
  obtain ⟨idx, _, h⟩ := bind_eq_ok.mp h
  rw [pure_eq_ok] at h
  subst h
  exact ⟨rfl, rfl, rfl, rfl, rfl, rfl, rfl, rfl⟩

variable {recorded : Option (TopologyParams F)} {n : UInt32}

theorem reindexCommit_ok (h : reindexCommit d recorded live = .ok (n, next)) :
    ∃ rs, Reads d live (frameKeys live) rs ∧ n = UInt32.ofNat rs.length ∧
      SameCore next (rs.foldl (reindexPut d) (cleared live)) := by
  obtain ⟨mid, hm, h⟩ := bind_eq_ok.mp h
  obtain ⟨last, hl, h⟩ := bind_eq_ok.mp h
  rw [pure_eq_ok, Prod.mk.injEq] at h
  obtain ⟨rfl, rfl⟩ := h
  obtain ⟨rs, hr, rfl⟩ := foldlM_reindexFrame_eq_ok.mp hm
  have hview (k : FrameKey) : textAt d (cleared live) k = textAt d live k := textAt_of_frames_eq rfl k
  refine ⟨rs, ⟨hr.keys, fun r hq => (hview r.1).symm.trans (hr.text r hq), hr.parsed⟩, ?_, ?_⟩
  · rw [← List.length_map Prod.fst, hr.keys]
  · rw [rebuildIfRecorded] at hl
    split at hl
    · exact sameCore_rebuild hl
    · rw [Except.ok.injEq] at hl
      exact hl ▸ .refl _

theorem SameCore.textAt {a b : ConCorpus F} (h : SameCore a b) (k : FrameKey) :
    textAt d a k = textAt d b k := textAt_of_frames_eq h.frames k

theorem reindexCommit_frames (h : reindexCommit d recorded live = .ok (n, next)) :
    next.frames = live.frames := by
  obtain ⟨rs, _, _, hc⟩ := reindexCommit_ok h
  rw [hc.frames, reindexed_frames]
  rfl

theorem reindexCommit_trajMeta (h : reindexCommit d recorded live = .ok (n, next)) :
    next.trajMeta = live.trajMeta := by
  obtain ⟨rs, _, _, hc⟩ := reindexCommit_ok h
  rw [hc.trajMeta, reindexed_trajMeta]
  rfl

theorem reindexCommit_framesSoa (h : reindexCommit d recorded live = .ok (n, next)) :
    next.framesSoa = live.framesSoa := by
  obtain ⟨rs, _, _, hc⟩ := reindexCommit_ok h
  rw [hc.framesSoa, reindexed_framesSoa]
  rfl

theorem hashExact_reindexCommit (h : reindexCommit d recorded live = .ok (n, next)) :
    HashExact d next := by
  obtain ⟨rs, hr, _, hc⟩ := reindexCommit_ok h
  exact (hashExact_reindexed hr).of_view hc.textAt hc.hashByFrame hc.frameByHash

theorem indexExact_reindexCommit (hp : ProjectionAgrees d)
    (h : reindexCommit d recorded live = .ok (n, next)) : IndexExact d next := by
  obtain ⟨rs, hr, _, hc⟩ := reindexCommit_ok h
  exact (indexExact_reindexed hp hr).of_view hc.textAt hc.idx

theorem Refines.reindexCommit {L : Texts} (hl : Refines d live L)
    (h : reindexCommit d recorded live = .ok (n, next)) : Refines d next L :=
  hl.of_view (readable_of_frames_eq (reindexCommit_frames h) hl.readable)
    (fun k => textAt_of_frames_eq (reindexCommit_frames h) k) (reindexCommit_trajMeta h)

theorem CookedExact.reindexCommit (hl : CookedExact d live)
    (h : reindexCommit d recorded live = .ok (n, next)) : CookedExact d next :=
  hl.of_view (fun k => textAt_of_frames_eq (reindexCommit_frames h) k) (reindexCommit_framesSoa h)

end Reindex

end ReadconDb
