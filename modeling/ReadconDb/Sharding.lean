import ReadconDb.Catalog
import ReadconDb.Selection
import ReadconDb.Library.SortedList

set_option linter.unusedSectionVars false

namespace ReadconDb

open ByteString Outcome OrderedTable

-- A shard whose directory has no `data.mdb` is `none`.
structure ShardedConCorpus (F : Type) where
  nShards : UInt32
  shards : UInt32 → Option (ConCorpus F)

def shardForTraj (trajId : UInt64) (nShards : UInt32) : UInt32 := (trajId % nShards.toUInt64).toUInt32

namespace ShardedConCorpus

variable {F : Type} (s : ShardedConCorpus F)

def shardIds : List UInt32 := (List.range s.nShards.toNat).map UInt32.ofNat

def withData : List (UInt32 × ConCorpus F) :=
  s.shardIds.filterMap fun sid => (s.shards sid).map (Prod.mk sid)

def select [Float64 F] (sel : Select F) : Result (List FrameKey) := do
  let parts ← s.withData.mapM fun e => ReadconDb.select e.2 sel
  return sel.cut parts.flatten.mergeSort

theorem mem_withData {e : UInt32 × ConCorpus F} :
    e ∈ s.withData ↔ e.1 < s.nShards ∧ s.shards e.1 = some e.2 := by
  rw [withData, List.mem_filterMap]
  constructor
  · rintro ⟨sid, hsid, he⟩
    obtain ⟨i, hi, rfl⟩ := List.mem_map.mp hsid
    obtain ⟨c, hc, rfl⟩ := Option.map_eq_some_iff.mp he
    have hlt : i < s.nShards.toNat := List.mem_range.mp hi
    refine ⟨?_, hc⟩
    rw [UInt32.lt_iff_toNat_lt, UInt32.toNat_ofNat', Nat.mod_eq_of_lt (hlt.trans s.nShards.toNat_lt)]
    exact hlt
  · rintro ⟨hlt, hc⟩
    refine ⟨e.1, List.mem_map.mpr ⟨e.1.toNat, ?_, UInt32.ofNat_toNat⟩, ?_⟩
    · exact List.mem_range.mpr (UInt32.lt_iff_toNat_lt.mp hlt)
    · rw [hc, Option.map_some]

theorem withData_pairwise : s.withData.Pairwise fun e e' => e.1 ≠ e'.1 := by
  have hids : s.shardIds.Pairwise (· ≠ ·) := by
    refine List.Pairwise.map _ (R := fun i j => i ≠ j ∧ i < 2 ^ 32 ∧ j < 2 ^ 32) ?_ ?_
    · rintro i j ⟨hne, hi, hj⟩ he
      have hn := congrArg UInt32.toNat he
      rw [UInt32.toNat_ofNat', UInt32.toNat_ofNat', Nat.mod_eq_of_lt hi, Nat.mod_eq_of_lt hj] at hn
      exact hne hn
    · refine (List.nodup_range).imp_of_mem fun hi hj hne => ⟨hne, ?_, ?_⟩
      · exact (List.mem_range.mp hi).trans s.nShards.toNat_lt
      · exact (List.mem_range.mp hj).trans s.nShards.toNat_lt
  refine List.Pairwise.filterMap _ ?_ hids
  intro i j hne e he e' he'
  obtain ⟨_, _, rfl⟩ := Option.map_eq_some_iff.mp he
  obtain ⟨_, _, rfl⟩ := Option.map_eq_some_iff.mp he'
  exact hne

end ShardedConCorpus

section Union

variable {F : Type} [Float64 F]

structure Routed (s : ShardedConCorpus F) : Prop where
  laid : ∀ sid c, s.shards sid = some c → Laid c
  home : ∀ sid c k, s.shards sid = some c → Mentions c k → shardForTraj k.trajId s.nShards = sid

structure UnionOf (parts : List (ConCorpus F)) (whole : ConCorpus F) : Prop where
  frames : ∀ b, b ∈ whole.frames ↔ ∃ c ∈ parts, b ∈ c.frames
  idx : ∀ i b, b ∈ whole.idx i ↔ ∃ c ∈ parts, b ∈ c.idx i
  noTopo : whole.idxTopo = none ↔ ∀ c ∈ parts, c.idxTopo = none
  topo : ∀ idx, whole.idxTopo = some idx →
    ∀ b, b ∈ idx ↔ ∃ c ∈ parts, ∃ own, c.idxTopo = some own ∧ b ∈ own

def ShardedConCorpus.parts (s : ShardedConCorpus F) : List (ConCorpus F) := s.withData.map Prod.snd

variable {s : ShardedConCorpus F} {whole c : ConCorpus F} {sel : Select F} {k : FrameKey}

theorem UnionOf.laid (hu : UnionOf s.parts whole) (hr : Routed s) : Laid whole := by
  have hlaid : ∀ c ∈ s.parts, Laid c := by
    intro c hc
    obtain ⟨e, he, rfl⟩ := List.mem_map.mp hc
    exact hr.laid e.1 e.2 (s.mem_withData.mp he).2
  constructor
  · intro b hb
    obtain ⟨c, hc, hb⟩ := (hu.frames b).mp hb
    exact (hlaid c hc).frames b hb
  · intro i b hb
    obtain ⟨c, hc, hb⟩ := (hu.idx i b).mp hb
    exact (hlaid c hc).idx i b hb
  · intro idx hi b hb
    obtain ⟨c, hc, own, ho, hb⟩ := (hu.topo idx hi b).mp hb
    exact (hlaid c hc).topo own ho b hb

theorem UnionOf.mentions (hu : UnionOf s.parts whole) (h : Mentions whole k) : ∃ c ∈ s.parts, Mentions c k := by
  cases h with
  | frame hb =>
    obtain ⟨c, hc, hb⟩ := (hu.frames _).mp hb
    exact ⟨c, hc, .frame hb⟩
  | index i b hb hk =>
    obtain ⟨c, hc, hb⟩ := (hu.idx i b).mp hb
    exact ⟨c, hc, .index i b hb hk⟩
  | topo idx hex hi hb =>
    obtain ⟨c, hc, own, ho, hb⟩ := (hu.topo idx hi _).mp hb
    exact ⟨c, hc, .topo own hex ho hb⟩

theorem Routed.same (hr : Routed s) {c c' : ConCorpus F} (hc : c ∈ s.parts) (hc' : c' ∈ s.parts)
    (h : Mentions c k) (h' : Mentions c' k) : c = c' := by
  obtain ⟨e, he, rfl⟩ := List.mem_map.mp hc
  obtain ⟨e', he', rfl⟩ := List.mem_map.mp hc'
  have hs := (s.mem_withData.mp he).2
  have hs' := (s.mem_withData.mp he').2
  rw [← hr.home _ _ _ hs h, hr.home _ _ _ hs' h', hs', Option.some.injEq] at hs
  exact hs.symm

-- A frame's rows all lie in the shard of its trajectory, so its marks there are its marks in the union.
theorem UnionOf.marked (hu : UnionOf s.parts whole) (hr : Routed s) (hc : c ∈ s.parts) (hk : Mentions c k)
    (hh : sel.contentHash = none) : Marked whole sel k ↔ Marked c sel k := by
  have hi (i : Index) (b : Bytes) (hb : LaidFor k i b) : b ∈ whole.idx i ↔ b ∈ c.idx i := by
    rw [hu.idx]
    constructor
    · rintro ⟨c', hc', hm⟩
      exact hr.same hc hc' hk (.index i b hm hb) ▸ hm
    · exact fun hm => ⟨c, hc, hm⟩
  have htopo (hex : String) : (∃ idx, whole.idxTopo = some idx ∧ topoKey hex k ∈ idx) ↔
      ∃ idx, c.idxTopo = some idx ∧ topoKey hex k ∈ idx := by
    constructor
    · rintro ⟨idx, hw, hm⟩
      obtain ⟨c', hc', own, ho, hm⟩ := (hu.topo idx hw _).mp hm
      exact ⟨own, hr.same hc hc' hk (.topo own hex ho hm) ▸ ho, hm⟩
    · rintro ⟨own, ho, hm⟩
      cases hw : whole.idxTopo with
      | none =>
        rw [hu.noTopo.mp hw c hc] at ho
        cases ho
      | some idx => exact ⟨idx, rfl, (hu.topo idx hw _).mpr ⟨c, hc, own, ho, hm⟩⟩
  have htopo' (raw : String) : (∃ idx hex, whole.idxTopo = some idx ∧ normalizeTopoHex raw = .ok hex ∧
      topoKey hex k ∈ idx) ↔ ∃ idx hex, c.idxTopo = some idx ∧ normalizeTopoHex raw = .ok hex ∧
        topoKey hex k ∈ idx := by
    constructor
    · rintro ⟨idx, hex, hw, hn, hm⟩
      obtain ⟨own, ho, hm⟩ := (htopo hex).mp ⟨idx, hw, hm⟩
      exact ⟨own, hex, ho, hn, hm⟩
    · rintro ⟨own, hex, ho, hn, hm⟩
      obtain ⟨idx, hw, hm⟩ := (htopo hex).mpr ⟨own, ho, hm⟩
      exact ⟨idx, hex, hw, hn, hm⟩
  have hn (n : UInt32) := hi .idxNatoms (natomsKey n k).val ⟨n, rfl⟩
  have hs (sym : String) := hi .idxSymbol (symbolKey sym k) ⟨sym, rfl⟩
  have hf (formula : String) := hi .idxFormula (formulaKey formula k) ⟨formula, rfl⟩
  have hec (sym : String) (n : UInt32) := hi .idxElemCount (elemCountKey sym n k) ⟨sym, n, rfl⟩
  have hsc (ch : Scalar) (o : UInt64) := hi ch.index (ch.key o k) (scalar_laid ch o k)
  have hp (p : Bool × Bool × Bool) := hi .idxPbc (pbcKey (pbcMaskFromBools p) k).val ⟨_, rfl⟩
  have hfl (flag : UInt8) := hi .idxFlags (flagKey flag k).val ⟨flag, rfl⟩
  constructor
  · rintro ⟨_, mn, ms, mf, mt, me, mm, mc, mp, m1, m2, m3⟩
    simp only [hn, hs, hf, hec, hsc, hp, hfl, htopo'] at mn ms mf mt me mm mc mp m1 m2 m3
    exact ⟨by simp [hh], mn, ms, mf, mt, me, mm, mc, mp, m1, m2, m3⟩
  · rintro ⟨_, mn, ms, mf, mt, me, mm, mc, mp, m1, m2, m3⟩
    simp only [← hn, ← hs, ← hf, ← hec, ← hsc, ← hp, ← hfl, ← htopo'] at mn ms mf mt me mm mc mp m1 m2 m3
    exact ⟨by simp [hh], mn, ms, mf, mt, me, mm, mc, mp, m1, m2, m3⟩

theorem UnionOf.picked (hu : UnionOf s.parts whole) (hr : Routed s) (hh : sel.contentHash = none) :
    Picked whole sel k ↔ ∃ c ∈ s.parts, Picked c sel k := by
  have hframe {c : ConCorpus F} (hc : c ∈ s.parts) (hk : Mentions c k) :
      k.toBytes.val ∈ whole.frames ↔ k.toBytes.val ∈ c.frames := by
    rw [hu.frames]
    constructor
    · rintro ⟨c', hc', hb⟩
      exact hr.same hc hc' hk (.frame hb) ▸ hb
    · exact fun hb => ⟨c, hc, hb⟩
  constructor
  · intro h
    obtain ⟨c, hc, hk⟩ := hu.mentions (h.mentions hh)
    exact ⟨c, hc,
      { toMarked := (hu.marked hr hc hk hh).mp h.toMarked
        traj := h.traj
        stored := fun hf => (hframe hc hk).mp (h.stored hf) }⟩
  · rintro ⟨c, hc, h⟩
    have hk := h.mentions hh
    exact
      { toMarked := (hu.marked hr hc hk hh).mpr h.toMarked
        traj := h.traj
        stored := fun hf => (hframe hc hk).mpr (h.stored hf) }

def Lists (sel : Select F) (c : ConCorpus F) (ks : List FrameKey) : Prop :=
  ks.Pairwise (· < ·) ∧ (∀ k, k ∈ ks ↔ Picked c sel k) ∧ ReadconDb.select c sel = .ok (sel.cut ks)

theorem select_lists (hl : Laid c) {out : List FrameKey} (h : ReadconDb.select c sel = .ok out) :
    ∃ ks, Lists sel c ks ∧ sel.cut ks = out := by
  rcases select_cases hl sel with ⟨_, e, _, _, _, he⟩ | ⟨ks, hks, hm, hs⟩
  · rw [he] at h
    cases h
  · exact ⟨ks, ⟨hks, hm, hs⟩, Except.ok.inj (hs.symm.trans h)⟩

theorem cut_merge {parts : List (List FrameKey)} {whole : List FrameKey} (hw : whole.Pairwise (· < ·))
    (hp : ∀ p ∈ parts, p.Pairwise (· < ·)) (hd : parts.Pairwise List.Disjoint)
    (hm : ∀ k, k ∈ whole ↔ ∃ p ∈ parts, k ∈ p) : sel.cut (parts.map sel.cut).flatten.mergeSort = sel.cut whole := by
  have hsub (p : List FrameKey) : (sel.cut p).Sublist p := by
    rw [Select.cut]
    split
    · exact .refl p
    · exact List.take_sublist _ _
  have hnodup : (parts.map sel.cut).flatten.Nodup := by
    rw [List.nodup_flatten]
    constructor
    · intro p hp'
      obtain ⟨q, hq, rfl⟩ := List.mem_map.mp hp'
      exact ((hp q hq).nodup).sublist (hsub q)
    · refine hd.map _ fun p q hpq => ?_
      exact List.disjoint_of_subset_left (hsub p).subset (List.disjoint_of_subset_right (hsub q).subset hpq)
  have hmerge := SortedList.mergeSort_pairwise hnodup
  have hmem (k : FrameKey) : k ∈ (parts.map sel.cut).flatten.mergeSort ↔ ∃ p ∈ parts, k ∈ sel.cut p := by
    rw [List.mem_mergeSort, List.mem_flatten]
    simp
  rw [Select.cut] at *
  cases hlim : sel.limit with
  | none =>
    simp only [Select.cut, hlim] at hmem hmerge ⊢
    exact hmerge.eq_of_mem_iff hw fun k => (hmem k).trans (hm k).symm
  | some lim =>
    simp only [Select.cut, hlim] at hmem hmerge ⊢
    exact SortedList.take_merge lim hw hp hm hmerge hmem

theorem sharded_select_same (hr : Routed s) (hu : UnionOf s.parts whole) (hh : sel.contentHash = none)
    {out : List FrameKey} (h : s.select sel = .ok out) : ReadconDb.select whole sel = .ok out := by
  obtain ⟨outs, houts, h⟩ := bind_eq_ok.mp h
  rw [pure_eq_ok] at h
  subst h
  have hlaid : ∀ e ∈ s.withData, Laid e.2 := fun e he => hr.laid e.1 e.2 (s.mem_withData.mp he).2
  have hsel := (List.forall₂_and_left _ _).mpr ⟨hlaid, mapM_eq_ok.mp houts⟩
  obtain ⟨parts, hlists, hcuts⟩ := forall₂_split (P := fun e ks => Lists sel e.2 ks) (Q := fun ks out => sel.cut ks = out)
    (fun _ _ h => select_lists h.1 h.2) hsel
  obtain rfl : parts.map sel.cut = outs := List.forall₂_eq_eq_eq ▸ (List.forall₂_map_left_iff.mpr hcuts)
  have hpart : ∀ p ∈ parts, ∃ e ∈ s.withData, Lists sel e.2 p := fun p hp => forall₂_mem_right hlists hp
  have hmem (k : FrameKey) : Picked whole sel k ↔ ∃ p ∈ parts, k ∈ p := by
    rw [hu.picked hr hh]
    constructor
    · rintro ⟨c, hc, hk⟩
      obtain ⟨e, he, rfl⟩ := List.mem_map.mp hc
      obtain ⟨p, hp, hl⟩ := forall₂_mem_left hlists he
      exact ⟨p, hp, (hl.2.1 k).mpr hk⟩
    · rintro ⟨p, hp, hk⟩
      obtain ⟨e, he, hl⟩ := hpart p hp
      exact ⟨e.2, List.mem_map_of_mem he, (hl.2.1 k).mp hk⟩
  have hdisjoint : parts.Pairwise List.Disjoint := by
    refine forall₂_pairwise (S := List.Disjoint) (fun e e' p p' hne hl hl' k hk hk' => ?_)
      ((List.forall₂_and_left _ _).mpr ⟨fun e he => (s.mem_withData.mp he).2, hlists⟩) s.withData_pairwise
    have hm := ((hl.2.2.1 k).mp hk).mentions hh
    have hm' := ((hl'.2.2.1 k).mp hk').mentions hh
    exact hne ((hr.home _ _ _ hl.1 hm).symm.trans (hr.home _ _ _ hl'.1 hm'))
  rcases select_cases (hu.laid hr) sel with ⟨raw, e, hk, ht, hn, he⟩ | ⟨ks, hks, hkm, hs⟩
  · obtain ⟨c, hc, hct⟩ : ∃ c ∈ s.parts, c.idxTopo.isSome := by
      by_contra hno
      have hnone : whole.idxTopo = none := hu.noTopo.mpr fun c hc => by
        by_contra hct
        exact hno ⟨c, hc, Option.isSome_iff_ne_none.mpr hct⟩
      rw [hnone] at ht
      cases ht
    obtain ⟨x, hx, rfl⟩ := List.mem_map.mp hc
    obtain ⟨p, _, hl⟩ := forall₂_mem_left hlists hx
    have hsel := hl.2.2
    rw [select_refused hk hct hn] at hsel
    cases hsel
  · rw [hs, Except.ok.injEq, eq_comm]
    refine cut_merge hks (fun p hp => ?_) hdisjoint fun k => (hkm k).trans (hmem k)
    obtain ⟨e, _, hl⟩ := hpart p hp
    exact hl.1

def oneAtomEach (ks : List FrameKey) : Index → Table Unit :=
  Function.update (fun _ => ∅) .idxNatoms (putAll (fun k => (natomsKey 1 k).val) (fun _ => ()) ∅ ks)

def shelf (F : Type) (ks : List FrameKey) : ConCorpus F :=
  { ConCorpus.empty F with
    frames := putAll (fun k : FrameKey => k.toBytes.val) (fun _ => []) ∅ ks
    idx := oneAtomEach ks }

theorem mem_shelf_frames {ks : List FrameKey} {b : Bytes} :
    b ∈ (shelf F ks).frames ↔ ∃ k ∈ ks, b = k.toBytes.val := by
  rw [shelf, mem_putAll]
  simp [eq_comm]

theorem mem_shelf_idx {ks : List FrameKey} {i : Index} {b : Bytes} :
    b ∈ (shelf F ks).idx i ↔ i = .idxNatoms ∧ ∃ k ∈ ks, b = (natomsKey 1 k).val := by
  by_cases hi : i = .idxNatoms
  · subst hi
    simp only [shelf, oneAtomEach]
    rw [Function.update_self, mem_putAll]
    simp [eq_comm]
  · simp only [shelf, oneAtomEach]
    rw [Function.update_of_ne hi]
    simp [hi]

theorem shelf_laid (ks : List FrameKey) : Laid (shelf F ks) where
  frames b hb := by
    obtain ⟨k, _, rfl⟩ := mem_shelf_frames.mp hb
    exact ⟨k, rfl⟩
  idx i b hb := by
    obtain ⟨rfl, k, _, rfl⟩ := mem_shelf_idx.mp hb
    exact ⟨k, 1, rfl⟩
  topo idx hi b hb := by
    obtain rfl : ∅ = idx := Option.some.inj hi
    simp at hb

theorem Mentions.shelf {ks : List FrameKey} (h : Mentions (shelf F ks) k) : k ∈ ks := by
  cases h with
  | frame hb =>
    obtain ⟨j, hj, he⟩ := mem_shelf_frames.mp hb
    exact FrameKey.toBytes_inj.mp he ▸ hj
  | index i b hb hk =>
    obtain ⟨rfl, j, hj, rfl⟩ := mem_shelf_idx.mp hb
    exact hk.inj ⟨1, rfl⟩ ▸ hj
  | topo idx hex hi hb =>
    obtain rfl : ∅ = idx := Option.some.inj hi
    simp at hb

def shelves : ShardedConCorpus F where
  nShards := 3
  shards sid := if sid = 0 then some (shelf F [⟨3, 0⟩, ⟨0, 1⟩]) else if sid = 1 then some (shelf F [⟨1, 0⟩]) else none

theorem shelves_parts : (shelves : ShardedConCorpus F).parts = [shelf F [⟨3, 0⟩, ⟨0, 1⟩], shelf F [⟨1, 0⟩]] := rfl

theorem shelves_routed : Routed (shelves : ShardedConCorpus F) where
  laid sid c h := by
    simp only [shelves] at h
    split at h
    · exact Option.some.inj h ▸ shelf_laid _
    · split at h
      · exact Option.some.inj h ▸ shelf_laid _
      · cases h
  home sid c k h hk := by
    simp only [shelves] at h
    split at h
    · next hs =>
      obtain rfl := Option.some.inj h
      have hm := hk.shelf
      simp only [List.mem_cons, List.not_mem_nil, or_false] at hm
      subst hs
      rcases hm with rfl | rfl
      · show shardForTraj 3 3 = 0
        decide
      · show shardForTraj 0 3 = 0
        decide
    · split at h
      · next hs =>
        obtain rfl := Option.some.inj h
        obtain rfl := List.mem_singleton.mp hk.shelf
        subst hs
        show shardForTraj 1 3 = 1
        decide
      · cases h

theorem shelves_union : UnionOf (shelves : ShardedConCorpus F).parts (shelf F [⟨0, 1⟩, ⟨1, 0⟩, ⟨3, 0⟩]) where
  frames b := by
    simp only [shelves_parts, List.mem_cons, List.not_mem_nil, or_false, exists_eq_or_imp, exists_eq_left,
      mem_shelf_frames]
    tauto
  idx i b := by
    simp only [shelves_parts, List.mem_cons, List.not_mem_nil, or_false, exists_eq_or_imp, exists_eq_left,
      mem_shelf_idx]
    tauto
  noTopo := by
    rw [shelves_parts]
    simp [shelf, ConCorpus.empty]
  topo idx hi b := by
    obtain rfl : ∅ = idx := Option.some.inj hi
    rw [shelves_parts]
    simp [shelf, ConCorpus.empty]

theorem ShardedConCorpus.select_total (s : ShardedConCorpus F) (sel : Select F) (h : sel.topoKey = none) :
    ∃ out, s.select sel = .ok out := by
  have hone (c : ConCorpus F) : ∃ out, ReadconDb.select c sel = .ok out := by
    rcases predicateSets_cases c sel with ⟨raw, _, hk, _⟩ | ⟨sets, hs⟩
    · rw [h] at hk
      cases hk
    · exact ⟨_, select_of_sets hs⟩
  choose out hout using hone
  exact ⟨_, bind_eq_ok.mpr ⟨_, mapM_ok_of_forall fun e _ => hout e.2, rfl⟩⟩

def firstTwo : Select Bits := { natomsMin := some 1, limit := some 2 }

theorem shelves_select_same : ∃ out, shelves.select firstTwo = .ok out ∧
    ReadconDb.select (shelf Bits [⟨0, 1⟩, ⟨1, 0⟩, ⟨3, 0⟩]) firstTwo = .ok out := by
  obtain ⟨out, h⟩ := shelves.select_total firstTwo rfl
  exact ⟨out, h, sharded_select_same shelves_routed shelves_union rfl h⟩

end Union

end ReadconDb
