import ReadconDb.Upkeep

set_option linter.unusedSectionVars false

namespace ReadconDb

open ByteString Outcome OrderedTable TwoPhase ReverseIndex

section Order

variable {F : Type} {c : ConCorpus F}

theorem mem_listFrameKeys {k : FrameKey} : k ∈ listFrameKeys c ↔ k.toBytes.val ∈ c.frames := by
  rw [listFrameKeys, List.mem_mergeSort]
  have hm := mem_frameKeys (c := c) (k := k)
  rw [← hm, List.mem_filterMap, List.mem_filterMap]
  simp only [fromBytes_eq_some, exists_eq_right', ← key_mem_toList, Std.ExtTreeMap.mem_keys]
  constructor
  · rintro ⟨kv, hkv, he⟩
    exact he ▸ List.mem_map_of_mem hkv
  · intro hk
    obtain ⟨kv, hkv, he⟩ := List.mem_map.mp hk
    exact ⟨kv, hkv, he.symm⟩

theorem listFrameKeys_lt : (listFrameKeys c).Pairwise (· < ·) := by
  have hn : (listFrameKeys c).Nodup := by
    rw [listFrameKeys, (List.mergeSort_perm _ _).nodup_iff]
    have hk := keys_nodup c.frames
    rw [List.Nodup, List.pairwise_map] at hk
    rw [List.Nodup, List.pairwise_filterMap]
    refine hk.imp fun hab j hj k hk he => hab ?_
    rw [fromBytes_eq_some] at hj hk
    rw [← hj, ← hk, he]
  have hs : (listFrameKeys c).Pairwise (· ≤ ·) := by
    have hp : (listFrameKeys c).Pairwise fun j k => decide (j ≤ k) = true :=
      List.pairwise_mergeSort
        (fun _ _ _ hab hbc => by simpa using le_trans (by simpa using hab) (by simpa using hbc))
        (fun a b => by simpa using le_total a b) _
    exact hp.imp fun h => by simpa using h
  exact (hs.and hn).imp fun h => lt_of_le_of_ne h.1 h.2

end Order

section Repack

variable {F : Type} [Float64 F] {d : Crates F} {snap live next : ConCorpus F} {t : UInt64}
  {changed : List (FrameKey × Bytes)} {n : UInt32}

structure RepackSpec (d : Crates F) (snap : ConCorpus F) (t : UInt64)
    (changed : List (FrameKey × Bytes)) (ks : List (FrameKey × String)) (packed : List Bytes) :
    Prop where
  traj : ∀ k ∈ ks, k.1.trajId = t
  text : ∀ k ∈ ks, textAt d snap k.1 = some k.2
  all : ∀ k row, k.trajId = t → rowOf snap k = some row → ∃ j ∈ ks, j.1 = k
  nodup : (changed.map Prod.fst).Nodup
  decodes : Decodes d (ks.map slotText) packed
  rows : List.Forall₂ (fun k row => (k.1, row) ∈ changed ∨
    (k.1 ∉ changed.map Prod.fst ∧ rowOf snap k.1 = some row)) ks packed
  within : ∀ kv ∈ changed, ∃ j ∈ ks, j.1 = kv.1

def changedRows (keys : List FrameKey) (packed old : List Bytes) : List (FrameKey × Bytes) :=
  ((keys.zip packed).zip old).filterMap fun row => if row.1.2 ≠ row.2 then some row.1 else none

theorem changedRows_cons (k : FrameKey) (keys : List FrameKey) (row : Bytes) (packed : List Bytes)
    (o : Bytes) (old : List Bytes) : changedRows (k :: keys) (row :: packed) (o :: old) =
      if row ≠ o then (k, row) :: changedRows keys packed old else changedRows keys packed old := by
  by_cases h : row = o <;> simp [changedRows, h]

theorem changedRows_spec {keys : List FrameKey} {packed old : List Bytes} (hn : keys.Nodup)
    (ho : List.Forall₂ (fun k b => rowOf snap k = some b) keys old)
    (hl : keys.length = packed.length) :
    List.Forall₂ (fun k row => (k, row) ∈ changedRows keys packed old ∨
      (k ∉ (changedRows keys packed old).map Prod.fst ∧ rowOf snap k = some row)) keys packed ∧
      ((changedRows keys packed old).map Prod.fst).Sublist keys := by
  induction ho generalizing packed with
  | nil =>
    obtain rfl := List.eq_nil_of_length_eq_zero hl.symm
    exact ⟨.nil, by simp [changedRows]⟩
  | @cons k o keys old hk _ ih =>
    cases packed with
    | nil => cases hl
    | cons row packed =>
      rw [List.nodup_cons] at hn
      obtain ⟨hrows, hsub⟩ := ih hn.2 (by simpa using hl)
      have hnot : k ∉ (changedRows keys packed old).map Prod.fst := fun hm => hn.1 (hsub.subset hm)
      rw [changedRows_cons]
      split
      · refine ⟨.cons (.inl (by simp)) ?_, by simpa using hsub⟩
        refine (forall₂_with_mem hrows).imp fun j row' hj => ?_
        have hne : j ≠ k := fun he => hn.1 (he ▸ hj.1)
        rcases hj.2 with hm | ⟨hm, hr⟩
        · exact .inl (by simp [hm])
        · exact .inr ⟨by simpa [hne] using hm, hr⟩
      · next he =>
        rw [ne_eq, not_not] at he
        exact ⟨.cons (.inr ⟨hnot, he ▸ hk⟩) hrows, hsub.cons k⟩

theorem repackPlan_ok (hz : ZstdLossless d) (h : repackPlan d snap t = .ok changed) :
    ∃ ks packed, RepackSpec d snap t changed ks packed := by
  rw [repackPlan] at h
  obtain ⟨texts, ht, h⟩ := bind_eq_ok.mp h
  obtain ⟨old, ho, h⟩ := bind_eq_ok.mp h
  obtain ⟨packed, hp, h⟩ := bind_eq_ok.mp h
  rw [pure_eq_ok] at h
  have hlt := (listFrameKeys_lt (c := snap)).sublist (List.filter_sublist (p := fun k => k.trajId == t))
  have hmem (k : FrameKey) : k ∈ (listFrameKeys snap).filter (fun k => k.trajId == t) ↔
      k.toBytes.val ∈ snap.frames ∧ k.trajId = t := by
    rw [List.mem_filter, mem_listFrameKeys, beq_iff_eq]
  generalize (listFrameKeys snap).filter (fun k => k.trajId == t) = keys at *
  have hnodup : keys.Nodup := hlt.imp fun h => ne_of_lt h
  obtain ⟨ks, hks, hslots⟩ := forall₂_split
    (P := fun key (k : FrameKey × String) => k.1 = key ∧ textAt d snap key = some k.2)
    (Q := fun k slot => slotText k = slot) (by
      intro key slot hs
      obtain ⟨s, htext, hs⟩ := bind_eq_ok.mp hs
      rw [pure_eq_ok] at hs
      exact ⟨(key, s), ⟨rfl, toOption_eq_some.mpr htext⟩, hs⟩) (mapM_eq_ok.mp ht)
  have hfst : keys = ks.map Prod.fst := by
    rw [← List.forall₂_eq_eq_eq, List.forall₂_map_right_iff]
    exact hks.imp fun _ _ hk => hk.1.symm
  have htexts : ks.map slotText = texts := by
    rw [← List.forall₂_eq_eq_eq, List.forall₂_map_left_iff]
    exact hslots
  subst hfst
  have htraj : ∀ k ∈ ks, k.1.trajId = t := fun k hk => ((hmem k.1).mp (List.mem_map_of_mem hk)).2
  have hd : Decodes d (ks.map slotText) packed := by
    refine packAligned_decodes hz ?_ (htexts ▸ hp)
    rw [List.pairwise_map] at hlt ⊢
    refine hlt.imp_of_mem fun ha hb hab => ?_
    exact frameIdx_lt (by rw [htraj _ ha, htraj _ hb]) hab
  have hold : List.Forall₂ (fun k b => rowOf snap k = some b) (ks.map Prod.fst) old :=
    (mapM_eq_ok.mp ho).imp fun _ _ hb => storedIn_eq_ok.mp hb
  have hlen : (ks.map Prod.fst).length = packed.length := by
    rw [← hd.1, List.length_map, List.length_map]
  obtain ⟨hrows, hsub⟩ := changedRows_spec hnodup hold hlen
  rw [changedRows, h, List.forall₂_map_left_iff] at hrows
  rw [changedRows, h] at hsub
  exact ⟨ks, packed,
    { traj := htraj
      text := fun k hk => by
        rw [List.forall₂_map_left_iff, List.forall₂_same] at hks
        exact (hks k hk).2
      all := fun k row hk hrow => by
        have hm := (hmem k).mpr ⟨(mem_iff_get _ _).mpr ⟨row, hrow⟩, hk⟩
        obtain ⟨j, hj, he⟩ := List.mem_map.mp hm
        exact ⟨j, hj, he⟩
      nodup := hnodup.sublist hsub
      decodes := hd
      rows := hrows
      within := fun kv hkv => by
        obtain ⟨j, hj, he⟩ := List.mem_map.mp (hsub.subset (List.mem_map_of_mem hkv))
        exact ⟨j, hj, he⟩ }⟩

def SkippedRows (t : UInt64) (changed : List (FrameKey × Bytes)) (snap live : ConCorpus F) : Prop :=
  ∀ k : FrameKey, k.trajId = t → k ∉ changed.map Prod.fst → rowOf live k = rowOf snap k

theorem repackCommit_ok (h : repackCommit changed live = .ok (n, next)) :
    n = UInt32.ofNat changed.length ∧ next = { live with
      frames := putAll (fun row => row.1.toBytes.val) Prod.snd live.frames changed } := by
  simp only [repackCommit, Except.ok.injEq, Prod.mk.injEq] at h
  exact ⟨h.1.symm, h.2.symm⟩

variable {ks : List (FrameKey × String)} {packed : List Bytes}

theorem rowOf_repack_other (h : repackCommit changed live = .ok (n, next)) {k : FrameKey}
    (hk : k ∉ changed.map Prod.fst) : rowOf next k = rowOf live k := by
  rw [(repackCommit_ok h).2, rowOf, get_putAll_of_not_mem]
  · rfl
  · intro kv hkv he
    exact hk (FrameKey.toBytes_inj.mp he ▸ List.mem_map_of_mem hkv)

theorem rowOf_repack_changed (hn : (changed.map Prod.fst).Nodup)
    (h : repackCommit changed live = .ok (n, next)) {kv : FrameKey × Bytes} (hkv : kv ∈ changed) :
    rowOf next kv.1 = some kv.2 := by
  rw [(repackCommit_ok h).2, rowOf]
  exact get_putAll_of_mem (fun row : FrameKey × Bytes => row.1.toBytes.val) Prod.snd _
    (keyBytes_nodup hn) hkv

theorem repack_rows (hr : RepackSpec d snap t changed ks packed) (hs : SkippedRows t changed snap live)
    (h : repackCommit changed live = .ok (n, next)) :
    List.Forall₂ (fun k row => rowOf next k.1 = some row) ks packed := by
  refine (forall₂_with_mem hr.rows).imp fun k row hk => ?_
  rcases hk.2 with hc | ⟨hno, hrow⟩
  · have hrow := rowOf_repack_changed hr.nodup h hc
    exact hrow
  · rw [rowOf_repack_other h hno, hs k.1 (hr.traj k hk.1) hno, hrow]

theorem textAt_repack_of_all (hr : RepackSpec d snap t changed ks packed)
    (hall : ∀ k row, k.trajId = t → rowOf live k = some row → ∃ j ∈ ks, j.1 = k)
    (hsame : SameTexts d t snap live) (hs : SkippedRows t changed snap live)
    (h : repackCommit changed live = .ok (n, next)) (k : FrameKey) :
    textAt d next k = textAt d live k := by
  have hother (j : FrameKey) (hj : ∀ i ∈ ks, i.1 ≠ j) : rowOf next j = rowOf live j := by
    refine rowOf_repack_other h fun hm => ?_
    obtain ⟨kv, hkv, rfl⟩ := List.mem_map.mp hm
    obtain ⟨i, hi, he⟩ := hr.within kv hkv
    exact hj i hi he
  by_cases hk : k.trajId = t
  · by_cases hin : ∃ j ∈ ks, j.1 = k
    · obtain ⟨j, hj, rfl⟩ := hin
      rw [textAt_rows hr.traj hr.decodes (repack_rows hr hs h) hj, hsame j.1 hk, hr.text j hj]
    · have hnone : rowOf live k = none :=
        Option.eq_none_iff_forall_ne_some.mpr fun row hrow => hin (hall k row hk hrow)
      have hno {s : ConCorpus F} (hs : rowOf s k = none) : textAt d s k = none := by
        rw [Option.eq_none_iff_forall_ne_some]
        intro text htext
        obtain ⟨row, hrow⟩ := rowOf_of_textAt htext
        rw [hs] at hrow
        cases hrow
      rw [hno hnone, hno (hother k (fun i hi he => hin ⟨i, hi, he⟩) |>.trans hnone)]
  · refine textAt_congr fun i => hother _ fun j hj he => hk ?_
    rw [← hr.traj j hj, he]

theorem textAt_repack (hr : RepackSpec d snap t changed ks packed) (hl : Readable d live)
    (hsame : SameTexts d t snap live) (hs : SkippedRows t changed snap live)
    (h : repackCommit changed live = .ok (n, next)) (k : FrameKey) :
    textAt d next k = textAt d live k := by
  refine textAt_repack_of_all hr (fun j row hj hrow => ?_) hsame hs h k
  obtain ⟨s, hs⟩ := hl.text_of_row hrow
  rw [hsame j hj] at hs
  obtain ⟨row', hrow'⟩ := rowOf_of_textAt hs
  exact hr.all j row' hj hrow'

theorem Readable.repackCommit (hl : Readable d live) (hr : RepackSpec d snap t changed ks packed)
    (hsame : SameTexts d t snap live) (hs : SkippedRows t changed snap live)
    (h : repackCommit changed live = .ok (n, next)) : Readable d next where
  decodes b hb := by
    have hview := textAt_repack hr hl hsame hs h
    rw [(repackCommit_ok h).2, mem_putAll] at hb
    rcases hb with hb | ⟨kv, hkv, rfl⟩
    · obtain ⟨k, s, rfl, hk⟩ := hl.decodes b hb
      exact ⟨k, s, rfl, by rw [hview, hk]⟩
    · obtain ⟨j, hj, he⟩ := hr.within kv hkv
      refine ⟨kv.1, j.2, rfl, ?_⟩
      rw [hview, ← he, hsame j.1 (hr.traj j hj), hr.text j hj]

end Repack

section Cook

variable {F : Type} [Float64 F] {d : Crates F} {snap live next : ConCorpus F} {key : FrameKey}
  {bytes : Bytes} {n : Nat}

theorem cookPlan_ok (h : cookPlan d snap key = .ok bytes) :
    ∃ s f, textAt d snap key = some s ∧ parsed d s = some f ∧ CookedSoa.encodeFrame f = .ok bytes := by
  obtain ⟨f, hf, h⟩ := bind_eq_ok.mp h
  obtain ⟨s, hs, hp⟩ := getFrame_eq_ok.mp hf
  exact ⟨s, f, hs, hp, h⟩

theorem cookCommit_ok (h : cookCommit key bytes live = .ok (n, next)) :
    n = bytes.length ∧ next = { live with framesSoa := live.framesSoa.insert key.toBytes.val bytes } := by
  simp only [cookCommit, Except.ok.injEq, Prod.mk.injEq] at h
  exact ⟨h.1.symm, h.2.symm⟩

theorem CookedExact.cookCommit (hk : CookedExact d live) (hp : cookPlan d snap key = .ok bytes)
    (hsame : textAt d live key = textAt d snap key) (h : cookCommit key bytes live = .ok (n, next)) :
    CookedExact d next := by
  obtain ⟨s, f, hs, hf, he⟩ := cookPlan_ok hp
  rw [(cookCommit_ok h).2]
  intro k b hb
  have hview (k : FrameKey) : textAt d { live with framesSoa := live.framesSoa.insert key.toBytes.val bytes } k =
      textAt d live k := textAt_of_frames_eq rfl k
  rw [get_insert] at hb
  split at hb
  · next hkey =>
    obtain rfl := FrameKey.toBytes_inj.mp hkey
    obtain rfl := Option.some.inj hb
    exact ⟨s, f, by rw [hview, hsame, hs], hf, he⟩
  · obtain ⟨s', f', hs', hrest⟩ := hk k b hb
    exact ⟨s', f', by rw [hview, hs'], hrest⟩

theorem CookedExact.erase (hk : CookedExact d live) (key : FrameKey) :
    CookedExact d { live with framesSoa := live.framesSoa.erase key.toBytes.val } := by
  intro k b hb
  rw [get_erase] at hb
  split at hb
  · cases hb
  · obtain ⟨s, f, hs, hrest⟩ := hk k b hb
    exact ⟨s, f, (textAt_of_frames_eq rfl k).trans hs, hrest⟩

end Cook

end ReadconDb
