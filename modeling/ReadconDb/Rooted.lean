import ReadconDb.Selection
import ReadconDb.TopologyHistory

set_option linter.unusedSectionVars false

namespace ReadconDb

open ByteString Outcome OrderedTable TwoPhase

theorem lower_eq_range {s : Finset Nat} (h : ∀ i j, j ∈ s → i ≤ j → i ∈ s) : s = Finset.range s.card := by
  refine Finset.eq_of_subset_of_card_le (fun n hn => ?_) (by simp)
  have hsub : Finset.range (n + 1) ⊆ s := fun i hi => h i n hn (by simpa using hi)
  have hcard := Finset.card_le_card hsub
  rw [Finset.card_range] at hcard
  exact Finset.mem_range.mpr hcard

section Rows

variable {F : Type} [Float64 F] {d : Crates F}

theorem mem_framed_keys {A : Type} {t : UInt64} {idx : UInt32} {as : List A} {k : FrameKey} :
    k ∈ (framed t idx as).map Prod.fst ↔ k.trajId = t ∧ ∃ j < as.length, k.frameIdx = idx + UInt32.ofNat j := by
  induction as generalizing idx with
  | nil => simp [framed]
  | cons a as ih =>
    rw [framed, List.map_cons, List.mem_cons, ih]
    have hsucc (j : Nat) : idx + 1 + UInt32.ofNat j = idx + UInt32.ofNat (j + 1) := by
      rw [UInt32.ofNat_add, UInt32.add_assoc, UInt32.add_comm 1]
      rfl
    constructor
    · rintro (rfl | ⟨rfl, j, hj, he⟩)
      · exact ⟨rfl, 0, by simp, by simp⟩
      · exact ⟨rfl, j + 1, by simpa using hj, by rw [he, hsucc]⟩
    · rintro ⟨rfl, j, hj, he⟩
      cases j with
      | zero => exact .inl (FrameKey.ext rfl (by simpa using he))
      | succ j => exact .inr ⟨rfl, j, by simpa using hj, by rw [he, hsucc]⟩

theorem reindexRows_laid {k : FrameKey} {f : ConFrame F} {i : Index} {b : Bytes}
    (h : (i, b) ∈ reindexRows d k f) : LaidFor k i b := by
  have hbin {x : Option F} (h : b ∈ (x.bind fun x => energyBinKey x k).toList.map Subtype.val) :
      ∃ o, b = binKey o k := by
    obtain ⟨_, o, _, _, hb⟩ := mem_bin_keys.mp h
    exact ⟨o, hb⟩
  simp only [reindexRows, List.mem_cons, List.mem_append, List.mem_flatMap, List.mem_ite_nil_right,
    List.mem_ite_nil_left, mem_scalarRow, List.mem_map, Prod.mk.injEq, List.not_mem_nil, or_false] at h
  rcases h with (⟨rfl, rfl⟩ | ⟨sc, _, ⟨rfl, rfl⟩ | ⟨rfl, rfl⟩⟩) | ⟨_, rfl, rfl⟩ | ⟨rfl, key, hk, rfl⟩ |
    ⟨_, rfl, rfl⟩ | ⟨_, ⟨rfl, rfl⟩ | ⟨rfl, key, hk, rfl⟩⟩ | ⟨_, rfl, rfl⟩ | ⟨rfl, key, hk, rfl⟩ |
    ⟨rfl, key, hk, rfl⟩ | ⟨mask, _, rfl, rfl⟩ | ⟨key, hk, rfl, rfl⟩
  · exact ⟨_, rfl⟩
  · exact ⟨_, _, rfl⟩
  · exact ⟨_, rfl⟩
  · exact ⟨_, rfl⟩
  · exact hbin (List.mem_map_of_mem hk)
  · exact ⟨_, rfl⟩
  · exact ⟨_, rfl⟩
  · exact hbin (List.mem_map_of_mem hk)
  · exact ⟨_, rfl⟩
  · exact hbin (List.mem_map_of_mem hk)
  · exact hbin (List.mem_map_of_mem hk)
  · exact ⟨_, rfl⟩
  · obtain ⟨ch, _, o, _, _, hb⟩ := mem_meta_keys.mp (List.mem_map_of_mem hk)
    exact ⟨ch, o, hb⟩

end Rows

section Rooted

variable {F : Type} [Float64 F] {d : Crates F} {c next : ConCorpus F}

structure Rooted (c : ConCorpus F) : Prop where
  keys : ∀ b ∈ c.frames, ∃ k : FrameKey, b = k.toBytes.val
  closed : ∀ t i j, (FrameKey.mk t j).toBytes.val ∈ c.frames → i ≤ j → (FrameKey.mk t i).toBytes.val ∈ c.frames
  counted : ∀ (t : UInt64) (i : UInt32), i < countOf c.trajMeta[t]? → (FrameKey.mk t i).toBytes.val ∈ c.frames
  hashed : ∀ b, b ∈ c.hashByFrame ↔ b ∈ c.frames
  digests : ∀ b v : Bytes, c.hashByFrame[b]? = some v → v.length = 16
  indexed : ∀ i, ∀ b ∈ c.idx i, ∃ k, k.toBytes.val ∈ c.frames ∧ LaidFor k i b
  labelled : ∀ byFrame, c.topoByFrame = some byFrame → ∀ b ∈ byFrame, b ∈ c.frames
  topo : ∀ idx, c.idxTopo = some idx → ∀ b ∈ idx, ∃ k hex, k.toBytes.val ∈ c.frames ∧ b = topoKey hex k
  posted : ∀ h b : Bytes, c.frameByHash[h]? = some b → b ∈ c.frames

theorem rooted_empty : Rooted (ConCorpus.empty F) where
  keys b hb := by simp [ConCorpus.empty] at hb
  closed t i j hj := by simp [ConCorpus.empty] at hj
  counted t i hi := by simp [ConCorpus.empty, countOf] at hi
  hashed b := by simp [ConCorpus.empty]
  digests b v hv := by simp [ConCorpus.empty] at hv
  indexed i b hb := by simp [ConCorpus.empty] at hb
  labelled byFrame hb b hm := by
    obtain rfl := Option.some.inj hb
    simp at hm
  topo idx hi b hm := by
    obtain rfl := Option.some.inj hi
    simp at hm
  posted h b hb := by simp [ConCorpus.empty] at hb

theorem postHash_values (kvs : List (Bytes × Bytes)) {post : Table Bytes} {h b : Bytes}
    (hb : (kvs.foldl (fun t kv => postHash t kv.1 kv.2) post)[h]? = some b) :
    post[h]? = some b ∨ ∃ kv ∈ kvs, kv.2 = b := by
  induction kvs generalizing post with
  | nil => exact .inl hb
  | cons kv kvs ih =>
    rcases ih hb with hb | ⟨kv', hm, he⟩
    · simp only [postHash] at hb
      split at hb
      · rw [get_insert] at hb
        split at hb
        · exact .inr ⟨kv, by simp, Option.some.inj hb⟩
        · exact .inl hb
      · exact .inl hb
    · exact .inr ⟨kv', by simp [hm], he⟩

theorem postHash_map {α : Type} (f g : α → Bytes) (xs : List α) (t : Table Bytes) :
    (xs.map fun x => (f x, g x)).foldl (fun t (kv : Bytes × Bytes) => postHash t kv.1 kv.2) t =
      xs.foldl (fun t x => postHash t (f x) (g x)) t := List.foldl_map

theorem puts_posted {ps : List PreparedIndexPuts} {h b : Bytes}
    (hb : (ps.foldl putIndexPuts c).frameByHash[h]? = some b) :
    c.frameByHash[h]? = some b ∨ ∃ p ∈ ps, fkBytes p = b := by
  rw [puts_frameByHash, ← postHash_map] at hb
  refine (postHash_values _ hb).imp_right fun ⟨kv, hm, he⟩ => ?_
  obtain ⟨p, hp, rfl⟩ := List.mem_map.mp hm
  exact ⟨p, hp, he⟩

section Puts

variable {ps : List PreparedIndexPuts} {rs : List (FrameRow F)}

theorem mem_puts_frames {b : Bytes} :
    b ∈ (ps.foldl putIndexPuts c).frames ↔ b ∈ c.frames ∨ ∃ p ∈ ps, fkBytes p = b := by
  rw [puts_frames, mem_putAll]

theorem Rooted.puts_rows (hd : List.Forall₂ (PutFor d) rs ps) {i : Index} {b : Bytes}
    (hb : b ∈ (ps.foldl putIndexPuts c).idx i) : b ∈ c.idx i ∨ ∃ p ∈ ps, LaidFor p.fk i b := by
  rw [mem_puts_idx] at hb
  refine hb.imp_right fun ⟨p, hp, hrow⟩ => ⟨p, hp, ?_⟩
  obtain ⟨r, _, hpr⟩ := derived_mem_right hd hp
  rw [hpr.rows_eq] at hrow
  rw [hpr.fk]
  exact screeningKeys_laid ((mem_rows _ _ _).mp hrow)

theorem puts_digests {b : Bytes} (h : ∀ v : Bytes, c.hashByFrame[b]? = some v → v.length = 16) {v : Bytes}
    (hv : (ps.foldl putIndexPuts c).hashByFrame[b]? = some v) : v.length = 16 := by
  rw [puts_hashByFrame] at hv
  exact putAll_values fkBytes (fun p => p.hash.val) (P := fun v => v.length = 16) h (fun p _ => p.hash.property) hv

end Puts


theorem from_start {start i : UInt32} (h : start ≤ i) : i = start + UInt32.ofNat (i.toNat - start.toNat) := by
  rw [UInt32.le_iff_toNat_le] at h
  have hi := i.toNat_lt
  rw [← UInt32.toNat_inj, UInt32.toNat_add, UInt32.toNat_ofNat']
  omega

-- Numbers given one after the other from `start` leave no gap, even if they pass `u32::MAX`.
theorem no_gap {start i j : UInt32} {n : Nat} (hs : start ≤ i) (hi : i ≤ j)
    (hj : ∃ a < n, j = start + UInt32.ofNat a) : ∃ a < n, i = start + UInt32.ofNat a := by
  obtain ⟨a, ha, rfl⟩ := hj
  refine ⟨i.toNat - start.toNat, ?_, from_start hs⟩
  rw [UInt32.le_iff_toNat_le] at hs hi
  rw [UInt32.toNat_add, UInt32.toNat_ofNat'] at hi
  have hlt := i.toNat_lt
  omega

theorem no_gap_end {start i : UInt32} {n : Nat} (hs : start ≤ i) (hi : i < start + UInt32.ofNat n) :
    ∃ a < n, i = start + UInt32.ofNat a := by
  refine ⟨i.toNat - start.toNat, ?_, from_start hs⟩
  rw [UInt32.le_iff_toNat_le] at hs
  rw [UInt32.lt_iff_toNat_lt, UInt32.toNat_add, UInt32.toNat_ofNat'] at hi
  have hlt := i.toNat_lt
  omega

theorem Rooted.ingest (h : Rooted c) {t : UInt64} {m : TrajMeta F} {xs : List (ConFrame F × String)}
    {ps : List PreparedIndexPuts} (hd : List.Forall₂ (PutFor d) (framed t (countOf c.trajMeta[t]?) xs) ps)
    (hm : m.nFrames = countOf c.trajMeta[t]? + UInt32.ofNat xs.length) :
    Rooted (restamp (ps.foldl putIndexPuts c) t m) := by
  have hfks := derived_fks hd
  have hkeys (k : FrameKey) : (∃ p ∈ ps, fkBytes p = k.toBytes.val) ↔
      k.trajId = t ∧ ∃ j < xs.length, k.frameIdx = countOf c.trajMeta[t]? + UInt32.ofNat j := by
    rw [← mem_framed_keys, ← hfks, List.mem_map]
    simp only [fkBytes, FrameKey.toBytes_inj]
  have hmem (k : FrameKey) : k.toBytes.val ∈ (ps.foldl putIndexPuts c).frames ↔ k.toBytes.val ∈ c.frames ∨
      k.trajId = t ∧ ∃ j < xs.length, k.frameIdx = countOf c.trajMeta[t]? + UInt32.ofNat j := by
    rw [mem_puts_frames, hkeys]
  have hnew : ∀ p ∈ ps, fkBytes p ∈ (ps.foldl putIndexPuts c).frames :=
    fun p hp => mem_puts_frames.mpr (.inr ⟨p, hp, rfl⟩)
  have hold : ∀ b ∈ c.frames, b ∈ (ps.foldl putIndexPuts c).frames := fun b hb => mem_puts_frames.mpr (.inl hb)
  exact
    { keys := fun b hb => by
        rcases mem_puts_frames.mp hb with hb | ⟨p, _, rfl⟩
        · exact h.keys b hb
        · exact ⟨p.fk, rfl⟩
      closed := fun u i j hj hij => by
        refine (hmem _).mpr ?_
        rcases (hmem _).mp hj with hj | ⟨rfl, hj⟩
        · exact .inl (h.closed u i j hj hij)
        · by_cases hi : countOf c.trajMeta[u]? ≤ i
          · exact .inr ⟨rfl, no_gap hi hij hj⟩
          · exact .inl (h.counted u i (UInt32.not_le.mp hi))
      counted := fun u i hi => by
        refine (hmem _).mpr ?_
        rw [restamp, get_insert] at hi
        split at hi
        · next hu =>
          subst hu
          by_cases hs : countOf c.trajMeta[t]? ≤ i
          · rw [countOf, Option.map_some, Option.getD_some, hm] at hi
            exact .inr ⟨rfl, no_gap_end hs hi⟩
          · exact .inl (h.counted t i (UInt32.not_le.mp hs))
        · rw [puts_trajMeta] at hi
          exact .inl (h.counted u i hi)
      hashed := fun b => by
        rw [restamp, mem_puts_frames, puts_hashByFrame, mem_putAll, h.hashed]
      digests := fun b v hv => puts_digests (h.digests b) hv
      indexed := fun i b hb => by
        rcases Rooted.puts_rows hd hb with hb | ⟨p, hp, hl⟩
        · obtain ⟨k, hk, hl⟩ := h.indexed i b hb
          exact ⟨k, hold _ hk, hl⟩
        · exact ⟨p.fk, hnew p hp, hl⟩
      labelled := fun byFrame hb b hm => by
        rw [restamp, puts_topoByFrame] at hb
        exact hold b (h.labelled byFrame hb b hm)
      topo := fun idx hi b hm => by
        rw [restamp, puts_idxTopo] at hi
        obtain ⟨k, hex, hk, he⟩ := h.topo idx hi b hm
        exact ⟨k, hex, hold _ hk, he⟩
      posted := fun v b hb => by
        rcases puts_posted hb with hb | ⟨p, hp, rfl⟩
        · exact hold b (h.posted v b hb)
        · exact hnew p hp }

theorem framesAfter_derived {t : UInt64} {idx : UInt32} {xs : List (ConFrame F × String)}
    {ps : List PreparedIndexPuts} (hd : List.Forall₂ (PutFor d) (framed t idx xs) ps) :
    framesAfter ps idx = idx + UInt32.ofNat xs.length := framesAfter_prepared (derived_fks hd)

theorem repointDigest_values {fwd post : Table Bytes} {digest : ContentHash} {v b : Bytes}
    (hb : (repointDigest fwd post digest)[v]? = some b) : post[v]? = some b ∨ b ∈ fwd := by
  rw [repointDigest] at hb
  split at hb
  · exact .inl hb
  · split at hb
    · exact .inl hb
    · split at hb
      · next other hs =>
        rw [get_insert] at hb
        split at hb
        · exact .inr (Option.some.inj hb ▸ (mem_iff_get _ _).mpr ⟨_, survivor_some hs⟩)
        · exact .inl hb
      · rw [get_erase] at hb
        split at hb
        · cases hb
        · exact .inl hb

theorem repoint_values {fwd : Table Bytes} (stale : List ContentHash) {post : Table Bytes} {v b : Bytes}
    (hb : (stale.foldl (repointDigest fwd) post)[v]? = some b) : post[v]? = some b ∨ b ∈ fwd := by
  induction stale generalizing post with
  | nil => exact .inl hb
  | cons digest stale ih => exact (ih hb).elim repointDigest_values .inr

section Units

variable {t : UInt64} {units : Value F} {plan : UnitsPlan} {old : List (FrameRow F)}
  {new : List (ConFrame F × String)}

theorem Rooted.covered (h : Rooted c) (hv : Covers d c t old) (hs : (old.map Prod.fst).Pairwise (· < ·)) (i : UInt32) :
    (FrameKey.mk t i).toBytes.val ∈ c.frames ↔ i.toNat < old.length := by
  have hkey (i : UInt32) : (FrameKey.mk t i).toBytes.val ∈ c.frames ↔ ∃ r ∈ old, r.1 = FrameKey.mk t i := by
    constructor
    · intro hm
      obtain ⟨row, hrow⟩ := (mem_iff_get _ _).mp hm
      exact hv.all ⟨t, i⟩ row rfl hrow
    · rintro ⟨r, hr, he⟩
      exact (mem_iff_get _ _).mpr (rowOf_of_textAt (he ▸ hv.text r hr))
  have hidx (r : FrameRow F) (hr : r ∈ old) : r.1 = FrameKey.mk t r.1.frameIdx := FrameKey.ext (hv.traj r hr) rfl
  have hn : (old.map fun r => r.1.frameIdx.toNat).Nodup := by
    rw [List.Nodup, List.pairwise_map]
    rw [List.pairwise_map] at hs
    refine hs.imp_of_mem fun {a b} ha hb hab he => ne_of_lt hab ?_
    rw [hidx a ha, hidx b hb, UInt32.toNat_inj.mp he]
  have hclosed := lower_eq_range (s := (old.map fun r => r.1.frameIdx.toNat).toFinset) fun i j hj hij => by
    obtain ⟨r, hr, rfl⟩ := List.mem_map.mp (List.mem_toFinset.mp hj)
    have hle : UInt32.ofNat i ≤ r.1.frameIdx := by
      have hlt := r.1.frameIdx.toNat_lt
      rw [UInt32.le_iff_toNat_le, UInt32.toNat_ofNat', Nat.mod_eq_of_lt (by omega)]
      exact hij
    obtain ⟨q, hq, he⟩ := (hkey _).mp (h.closed t _ _ ((hkey _).mpr ⟨r, hr, hidx r hr⟩) hle)
    refine List.mem_toFinset.mpr (List.mem_map.mpr ⟨q, hq, ?_⟩)
    have hlt := r.1.frameIdx.toNat_lt
    rw [he]
    show (UInt32.ofNat i).toNat = i
    rw [UInt32.toNat_ofNat', Nat.mod_eq_of_lt (by omega)]
  rw [List.toFinset_card_of_nodup hn, List.length_map] at hclosed
  rw [hkey, ← Finset.mem_range, ← hclosed, List.mem_toFinset, List.mem_map]
  constructor
  · rintro ⟨r, hr, he⟩
    exact ⟨r, hr, by rw [he]⟩
  · rintro ⟨r, hr, he⟩
    exact ⟨r, hr, by rw [hidx r hr, UInt32.toNat_inj.mp he]⟩

theorem Rooted.units_frames (h : Rooted c) (hu : UnitsSpec d c t units plan old new) (b : Bytes) :
    (b ∈ c.frames ∧ ∀ p ∈ plan.oldPuts, fkBytes p ≠ b) ∨ (∃ p ∈ plan.prepared, fkBytes p = b) ↔ b ∈ c.frames := by
  have hlen : new.length = old.length := hu.rewritten.length_eq.symm
  have hnew (k : FrameKey) : (∃ p ∈ plan.prepared, fkBytes p = k.toBytes.val) ↔
      k.trajId = t ∧ k.frameIdx.toNat < old.length := by
    have hfks := hu.prepared.fks
    have hp : (∃ p ∈ plan.prepared, fkBytes p = k.toBytes.val) ↔ k ∈ (framed t 0 new).map Prod.fst := by
      rw [← hfks, List.mem_map]
      simp only [fkBytes, FrameKey.toBytes_inj]
    rw [hp, mem_framed_keys, hlen]
    refine and_congr_right fun _ => ?_
    constructor
    · rintro ⟨j, hj, he⟩
      have hb := hu.bound
      rw [he, UInt32.zero_add, UInt32.toNat_ofNat', Nat.mod_eq_of_lt (by omega)]
      exact hj
    · intro hj
      exact ⟨_, hj, by rw [UInt32.zero_add, UInt32.ofNat_toNat]⟩
  constructor
  · rintro (hb | ⟨p, hp, rfl⟩)
    · exact hb.1
    · obtain ⟨ht, hlt⟩ := (hnew p.fk).mp ⟨p, hp, rfl⟩
      have hk : p.fk = FrameKey.mk t p.fk.frameIdx := FrameKey.ext ht rfl
      rw [fkBytes, hk]
      exact (h.covered hu.covers hu.sorted _).mpr hlt
  · intro hb
    by_cases hall : ∃ p ∈ plan.oldPuts, fkBytes p = b
    · obtain ⟨p, hp, rfl⟩ := hall
      have ht := hu.covers.puts_traj hu.derived p hp
      have hk : p.fk = FrameKey.mk t p.fk.frameIdx := FrameKey.ext ht rfl
      refine .inr ((hnew p.fk).mpr ⟨ht, ?_⟩)
      rw [fkBytes, hk] at hb
      exact (h.covered hu.covers hu.sorted _).mp hb
    · exact .inl ⟨hb, fun p hp he => hall ⟨p, hp, he⟩⟩

theorem Rooted.setUnits (h : Rooted c) (hu : UnitsSpec d c t units plan old new) :
    Rooted (plan.prepared.foldl putIndexPuts (clearedUnits c plan)) := by
  have hframes (b : Bytes) : b ∈ (plan.prepared.foldl putIndexPuts (clearedUnits c plan)).frames ↔ b ∈ c.frames := by
    rw [mem_puts_frames, ← h.units_frames hu b]
    refine or_congr_left ?_
    rw [show (clearedUnits c plan).frames = (deleteAllIndexPuts c plan.oldPuts).2.frames from rfl, deletes_frames,
      mem_dropAll]
  have hmeta : (plan.prepared.foldl putIndexPuts (clearedUnits c plan)).trajMeta = c.trajMeta := by
    rw [puts_trajMeta]
    exact deletes_trajMeta _ _
  have hcleared (b : Bytes) : b ∈ (clearedUnits c plan).hashByFrame ↔
      b ∈ c.frames ∧ ∀ p ∈ plan.oldPuts, fkBytes p ≠ b := by
    rw [show (clearedUnits c plan).hashByFrame = (deleteAllIndexPuts c plan.oldPuts).2.hashByFrame from rfl,
      deletes_hashByFrame, mem_dropAll, h.hashed]
  exact
    { keys := fun b hb => h.keys b ((hframes b).mp hb)
      closed := fun u i j hj hij => (hframes _).mpr (h.closed u i j ((hframes _).mp hj) hij)
      counted := fun u i hi => (hframes _).mpr (h.counted u i (hmeta ▸ hi))
      hashed := fun b => by
        rw [hframes, puts_hashByFrame, mem_putAll, hcleared, h.units_frames hu]
      digests := fun b v hv => by
        refine puts_digests (fun w hw => ?_) hv
        rw [show (clearedUnits c plan).hashByFrame = (deleteAllIndexPuts c plan.oldPuts).2.hashByFrame from rfl,
          deletes_hashByFrame, get_dropAll_eq_some] at hw
        exact h.digests b w hw.2
      indexed := fun i b hb => by
        rcases Rooted.puts_rows hu.prepared.derived hb with hb | ⟨p, hp, hl⟩
        · have hb' : b ∈ (deleteAllIndexPuts c plan.oldPuts).2.idx i := hb
          rw [mem_deletes_idx] at hb'
          obtain ⟨k, hk, hl⟩ := h.indexed i b hb'.1
          exact ⟨k, (hframes _).mpr hk, hl⟩
        · exact ⟨p.fk, mem_puts_frames.mpr (.inr ⟨p, hp, rfl⟩), hl⟩
      labelled := fun byFrame hb b hm => by
        rw [puts_topoByFrame] at hb
        have hb' : (deleteAllIndexPuts c plan.oldPuts).2.topoByFrame = some byFrame := hb
        rw [deletes_topoByFrame] at hb'
        exact (hframes b).mpr (h.labelled byFrame hb' b hm)
      topo := fun idx hi b hm => by
        rw [puts_idxTopo] at hi
        have hi' : (deleteAllIndexPuts c plan.oldPuts).2.idxTopo = some idx := hi
        rw [deletes_idxTopo] at hi'
        obtain ⟨k, hex, hk, he⟩ := h.topo idx hi' b hm
        exact ⟨k, hex, (hframes _).mpr hk, he⟩
      posted := fun v b hb => by
        rcases puts_posted hb with hb | ⟨p, hp, rfl⟩
        · rcases repoint_values _ hb with hb | hb
          · rw [deletes_frameByHash] at hb
            exact (hframes b).mpr (h.posted v b hb)
          · exact (hframes b).mpr ((hcleared b).mp hb).1
        · exact mem_puts_frames.mpr (.inr ⟨p, hp, rfl⟩) }

end Units

theorem Rooted.of_frames (h : Rooted c) (hf : ∀ b, b ∈ next.frames ↔ b ∈ c.frames)
    (hm : ∀ t : UInt64, countOf next.trajMeta[t]? = countOf c.trajMeta[t]?) (hh : next.hashByFrame = c.hashByFrame)
    (hi : next.idx = c.idx) (hp : next.frameByHash = c.frameByHash)
    (hl : ∀ byFrame, next.topoByFrame = some byFrame → ∀ b ∈ byFrame, b ∈ c.frames)
    (ht : ∀ idx, next.idxTopo = some idx → ∀ b ∈ idx, ∃ k hex, k.toBytes.val ∈ c.frames ∧ b = topoKey hex k) :
    Rooted next where
  keys b hb := h.keys b ((hf b).mp hb)
  closed t i j hj hij := (hf _).mpr (h.closed t i j ((hf _).mp hj) hij)
  counted t i hi := (hf _).mpr (h.counted t i (hm t ▸ hi))
  hashed b := by rw [hf, hh, h.hashed]
  digests b v hv := h.digests b v (hh ▸ hv)
  indexed i b hb := by
    obtain ⟨k, hk, hl⟩ := h.indexed i b (hi ▸ hb)
    exact ⟨k, (hf _).mpr hk, hl⟩
  labelled byFrame hb b hm := (hf b).mpr (hl byFrame hb b hm)
  topo idx hi b hm := by
    obtain ⟨k, hex, hk, he⟩ := ht idx hi b hm
    exact ⟨k, hex, (hf _).mpr hk, he⟩
  posted v b hb := (hf b).mpr (h.posted v b (hp ▸ hb))

theorem Rooted.repack (h : Rooted c) {t : UInt64} {changed : List (FrameKey × Bytes)}
    {ks : List (FrameKey × String)} {packed : List Bytes} (hr : RepackSpec d c t changed ks packed) :
    Rooted { c with frames := putAll (fun row => row.1.toBytes.val) Prod.snd c.frames changed } := by
  refine h.of_frames (fun b => ?_) (fun _ => rfl) rfl rfl rfl h.labelled h.topo
  rw [mem_putAll]
  refine or_iff_left_of_imp fun ⟨kv, hkv, he⟩ => ?_
  obtain ⟨j, hj, hjk⟩ := hr.within kv hkv
  obtain ⟨row, hrow⟩ := rowOf_of_textAt (hr.text j hj)
  rw [← he, ← hjk]
  exact (mem_iff_get _ _).mpr ⟨row, hrow⟩

structure Named (frames : Table Bytes) (tables : Table Unit × Table Bytes) : Prop where
  byFrame : ∀ b ∈ tables.2, b ∈ frames
  idx : ∀ b ∈ tables.1, ∃ k hex, (FrameKey.toBytes k).val ∈ frames ∧ b = topoKey hex k

theorem Named.put {frames : Table Bytes} {tables tables' : Table Unit × Table Bytes} {e : FrameKey × String}
    (h : Named frames tables) (he : e.1.toBytes.val ∈ frames) (hp : putTopoEntry tables e = .ok tables') :
    Named frames tables' := by
  obtain ⟨dropped, hd, hp⟩ := bind_eq_ok.mp hp
  obtain rfl := pure_eq_ok.mp hp
  have hsub : ∀ b ∈ dropped, b ∈ tables.1 := by
    intro b hb
    unfold dropOldTopo at hd
    split at hd
    · exact Except.ok.inj hd ▸ hb
    · obtain ⟨old, _, hd⟩ := bind_eq_ok.mp hd
      obtain rfl := pure_eq_ok.mp hd
      exact ((mem_erase_iff _ _ _).mp hb).2
  constructor
  · intro b hb
    exact ((mem_insert_iff _ _ _ _).mp hb).elim (fun hb => hb ▸ he) (h.byFrame b)
  · intro b hb
    rcases (mem_insert_iff _ _ _ _).mp hb with rfl | hb
    · exact ⟨e.1, e.2, he, rfl⟩
    · exact h.idx b (hsub b hb)

theorem Rooted.annotate (h : Rooted c) {seams : Seams F} {opts : AnnotateTopologyOpts F} {plan : AnnotatePlan F}
    {n : UInt32} (hp : annotatePlan d seams c opts = .ok (some plan))
    (hc : annotateCommit d opts (some plan) c = .ok (n, next)) : Rooted next := by
  have hrows := annotatePlan_rows hp
  obtain ⟨hmetas, _⟩ := annotatePlan_ok hp
  obtain ⟨idx, byFrame, idx', byFrame', hi, hb, hfold, rfl⟩ := annotateCommit_ok hc
  have hnamed : Named c.frames (idx', byFrame') := by
    refine foldlM_preserves (I := Named c.frames) (fun tables e tables' he hall hput => hall.put ?_ hput)
      ⟨h.labelled byFrame hb, h.topo idx hi⟩ hfold
    obtain ⟨m, hm, hlt⟩ := hrows e he
    refine h.counted e.1.trajId e.1.frameIdx ?_
    rw [hm]
    exact hlt
  have hsame (row : UInt64 × TrajMeta F) (hrow : row ∈ plan.metas) :
      (c.trajMeta[row.1]?).map TrajMeta.nFrames = some row.2.nFrames := by
    rw [hmetas] at hrow
    rw [Std.ExtTreeMap.mem_toList_iff_getElem?_eq_some.mp hrow]
    rfl
  have hcounts (t : UInt64) : ((plan.metas.foldl (stampMeta d opts plan.method) c.trajMeta)[t]?).map TrajMeta.nFrames =
      (c.trajMeta[t]?).map TrajMeta.nFrames := stampMetas_nFrames hsame t
  refine h.of_frames (fun _ => Iff.rfl) (fun t => ?_) rfl rfl rfl ?_ ?_
  · rw [countOf, countOf, hcounts]
  · intro last hl
    obtain rfl := Option.some.inj hl
    exact hnamed.byFrame
  · intro last hl
    obtain rfl := Option.some.inj hl
    exact hnamed.idx

theorem rebuildRow_named {frames : Table Bytes} {idx idx' : Table Unit} {row : Bytes × Bytes}
    (h : ∀ b ∈ idx, ∃ k hex, (FrameKey.toBytes k).val ∈ frames ∧ b = topoKey hex k) (hr : row.1 ∈ frames)
    (hp : rebuildRow idx row = .ok idx') :
    ∀ b ∈ idx', ∃ k hex, (FrameKey.toBytes k).val ∈ frames ∧ b = topoKey hex k := by
  rw [rebuildRow] at hp
  split at hp
  · exact Except.ok.inj hp ▸ h
  · next k hk =>
    obtain ⟨text, _, hp⟩ := bind_eq_ok.mp hp
    obtain ⟨hex, _, hp⟩ := bind_eq_ok.mp hp
    obtain rfl := pure_eq_ok.mp hp
    intro b hb
    rcases (mem_insert_iff _ _ _ _).mp hb with rfl | hb
    · exact ⟨k, hex, by rw [FrameKey.toBytes_of_fromBytes hk]; exact hr, rfl⟩
    · exact h b hb

theorem Rooted.rebuilt (h : Rooted c) {recorded : Option (TopologyParams F)} {n : UInt32}
    (hc : reindexCommit d recorded c = .ok (n, next)) (idx : Table Unit) (hi : next.idxTopo = some idx) :
    ∀ b ∈ idx, ∃ k hex, k.toBytes.val ∈ c.frames ∧ b = topoKey hex k := by
  obtain ⟨mid, hm, hc⟩ := bind_eq_ok.mp hc
  obtain ⟨last, hl, hc⟩ := bind_eq_ok.mp hc
  obtain ⟨_, rfl⟩ := Prod.mk.inj (pure_eq_ok.mp hc)
  obtain ⟨rs, _, rfl⟩ := foldlM_reindexFrame_eq_ok.mp hm
  have hempty (start : Table Unit) (hs : (rs.foldl (reindexPut d) (clearTopo (clearSecondary c))).idxTopo = some start) :
      start = ∅ := by
    rw [reindexed_idxTopo, clearTopo, Option.map_eq_some_iff] at hs
    obtain ⟨_, _, rfl⟩ := hs
    rfl
  have hby : (rs.foldl (reindexPut d) (clearTopo (clearSecondary c))).topoByFrame = c.topoByFrame := by
    rw [reindexed_topoByFrame]
    rfl
  rw [rebuildIfRecorded] at hl
  split at hl
  · obtain ⟨⟨start, byFrame⟩, ht, hl⟩ := bind_eq_ok.mp hl
    obtain ⟨idx', hf, hl⟩ := bind_eq_ok.mp hl
    obtain rfl := pure_eq_ok.mp hl
    obtain rfl := Option.some.inj hi
    rw [requireTopoDbs] at ht
    split at ht
    · next hidx hbyf =>
      obtain ⟨rfl, rfl⟩ := Prod.mk.inj (Except.ok.inj ht)
      refine foldlM_preserves (I := fun idx : Table Unit => ∀ b ∈ idx, ∃ k hex,
        (FrameKey.toBytes k).val ∈ c.frames ∧ b = topoKey hex k) (fun idx row idx' hrow hn hr => ?_) ?_ hf
      · refine rebuildRow_named hn (h.labelled _ (hby ▸ hbyf) _ ?_) hr
        exact key_mem_toList.mp (List.mem_map_of_mem hrow)
      · rw [hempty _ hidx]
        simp
    · cases ht
  · obtain rfl := Except.ok.inj hl
    rw [hempty _ hi]
    simp

theorem Rooted.reindex (h : Rooted c) {recorded : Option (TopologyParams F)} {n : UInt32}
    (hc : reindexCommit d recorded c = .ok (n, next)) : Rooted next := by
  obtain ⟨rs, hr, _, hcore⟩ := reindexCommit_ok hc
  have hframes : next.frames = c.frames := reindexCommit_frames hc
  have hrow (b : Bytes) : (∃ r ∈ rs, r.1.toBytes.val = b) ↔ b ∈ c.frames := by
    constructor
    · rintro ⟨r, hm, rfl⟩
      have hk : r.1 ∈ rs.map Prod.fst := List.mem_map_of_mem hm
      rw [hr.keys] at hk
      exact mem_frameKeys.mp hk
    · intro hb
      obtain ⟨k, rfl⟩ := h.keys b hb
      have hk : k ∈ rs.map Prod.fst := hr.keys ▸ mem_frameKeys.mpr hb
      obtain ⟨r, hm, rfl⟩ := List.mem_map.mp hk
      exact ⟨r, hm, rfl⟩
  have hhash : next.hashByFrame = putAll (fun kv => kv.1.toBytes.val) (fun kv => kv.2.val) ∅
      (rs.map (rowHash d)) := by
    rw [hcore.hashByFrame, reindexed_hashByFrame]
    rfl
  exact
    { keys := fun b hb => h.keys b (hframes ▸ hb)
      closed := by
        rw [hframes]
        exact h.closed
      counted := by
        rw [hframes, reindexCommit_trajMeta hc]
        exact h.counted
      hashed := fun b => by
        rw [hframes, hhash, mem_putAll, ← hrow b]
        simp [rowHash]
      digests := fun b v hv => by
        rw [hhash] at hv
        exact putAll_values (fun kv : FrameKey × ContentHash => kv.1.toBytes.val) (fun kv => kv.2.val)
          (P := fun v => v.length = 16) (by simp) (fun kv _ => kv.2.property) hv
      indexed := fun i b hb => by
        rw [hcore.idx, mem_reindexed_idx] at hb
        rcases hb with hb | ⟨r, hm, hb⟩
        · simp [cleared, clearTopo, clearSecondary] at hb
        · exact ⟨r.1, hframes ▸ (hrow _).mp ⟨r, hm, rfl⟩, reindexRows_laid hb⟩
      labelled := by
        rw [hcore.topoByFrame, reindexed_topoByFrame, hframes]
        exact h.labelled
      topo := fun idx hi => by
        rw [hframes]
        exact h.rebuilt hc idx hi
      posted := fun v b hb => by
        rw [hcore.frameByHash, reindexed_frameByHash] at hb
        rw [← postHash_map (fun kv : FrameKey × ContentHash => kv.2.val) fun kv => kv.1.toBytes.val] at hb
        rcases postHash_values _ hb with hb | ⟨kv, hm, rfl⟩
        · simp [cleared, clearTopo, clearSecondary] at hb
        · simp only [List.map_map, List.mem_map, Function.comp_apply] at hm
          obtain ⟨r, hm, rfl⟩ := hm
          exact hframes ▸ (hrow _).mp ⟨r, hm, rfl⟩ }

theorem Rooted.change (h : Rooted c) (hc : Change d c next) : Rooted next := by
  cases hc with
  | ingest t source hd => exact h.ingest hd (framesAfter_derived hd)
  | units hu => exact h.setUnits hu
  | repack hr => exact h.repack hr
  | reindex hp hn => exact h.reindex hn
  | cook hp => exact h.of_frames (fun _ => Iff.rfl) (fun _ => rfl) rfl rfl rfl h.labelled h.topo
  | dropCooked key => exact h.of_frames (fun _ => Iff.rfl) (fun _ => rfl) rfl rfl rfl h.labelled h.topo
  | compress b => exact h.of_frames (fun _ => Iff.rfl) (fun _ => rfl) rfl rfl rfl h.labelled h.topo
  | annotate hp hn => exact h.annotate hp hn

theorem Rooted.laid (h : Rooted c) : Laid c where
  frames := h.keys
  idx i b hb := by
    obtain ⟨k, _, hl⟩ := h.indexed i b hb
    exact ⟨k, hl⟩
  topo idx hi b hb := by
    obtain ⟨k, hex, _, he⟩ := h.topo idx hi b hb
    exact ⟨k, hex, he⟩

theorem Rooted.mentioned (h : Rooted c) {k : FrameKey} (hm : Mentions c k) : k.toBytes.val ∈ c.frames := by
  cases hm with
  | frame hk => exact hk
  | index i b hb hk =>
    obtain ⟨j, hj, hl⟩ := h.indexed i b hb
    exact hk.inj hl ▸ hj
  | topo idx hex hi hb =>
    obtain ⟨j, hex', hj, he⟩ := h.topo idx hi _ hb
    exact (topoKey_inj he).2 ▸ hj

theorem History.rooted {allow : ConCorpus F → Action F → Prop} (hz : ZstdLossless d) (h : History d allow c) :
    Rooted c := h.preserves hz rooted_empty fun _ _ hs hc => hs.change hc

end Rooted

end ReadconDb
