import ReadconDb.Maintenance

set_option linter.unusedSectionVars false

namespace ReadconDb

open ByteString Outcome OrderedTable TwoPhase

section Hex

theorem hexdigit_of_lt : ∀ n < 128, isAsciiHexdigit (Char.ofNat n) = true →
    isAsciiHexdigit (Char.ofNat n).toLower = true ∧ (Char.ofNat n).toLower.toLower = (Char.ofNat n).toLower ∧
      isWhitespace (Char.ofNat n).toLower = false := by
  decide

theorem hexdigit_lower {c : Char} (h : isAsciiHexdigit c = true) : isAsciiHexdigit c.toLower = true ∧
    c.toLower.toLower = c.toLower ∧ isWhitespace c.toLower = false := by
  have hlt : c.toNat < 128 := by
    simp only [isAsciiHexdigit, Char.isDigit, Bool.or_eq_true, Bool.and_eq_true, decide_eq_true_eq,
      Char.le_def, UInt32.le_iff_toNat_le] at h
    have hn : c.toNat = c.val.toNat := rfl
    rcases h with (⟨_, h⟩ | ⟨_, h⟩) | ⟨_, h⟩
    · have h9 : '9'.val.toNat = 57 := rfl
      omega
    · have hf : 'f'.val.toNat = 102 := rfl
      omega
    · have hf : 'F'.val.toNat = 70 := rfl
      omega
  have hc := hexdigit_of_lt c.toNat hlt
  rw [Char.ofNat_toNat] at hc
  exact hc h

theorem dropWhile_none {A : Type} {p : A → Bool} {xs : List A} (h : ∀ x ∈ xs, p x = false) :
    xs.dropWhile p = xs := by
  cases xs with
  | nil => rfl
  | cons x xs => rw [List.dropWhile_cons, h x (by simp), if_neg Bool.false_ne_true]

theorem trim_eq_self {s : String} (h : ∀ c ∈ s.toList, isWhitespace c = false) : trim s = s := by
  have hrev : ∀ c ∈ s.toList.reverse, isWhitespace c = false := fun c hc => h c (List.mem_reverse.mp hc)
  rw [trim, dropWhile_none h, dropWhile_none hrev, List.reverse_reverse, String.ofList_toList]

def IsTopoHex (hex : String) : Prop := normalizeTopoHex hex = .ok hex

theorem normalizeTopoHex_isTopoHex {raw hex : String} (h : normalizeTopoHex raw = .ok hex) : IsTopoHex hex := by
  rw [normalizeTopoHex] at h
  split at h
  · cases h
  · next hraw =>
    rw [Bool.not_eq_true, Bool.or_eq_false_iff, Bool.not_eq_false', List.all_eq_true] at hraw
    obtain rfl := Except.ok.inj h
    have hchars : (toAsciiLowercase (trim raw)).toList = (trim raw).toList.map Char.toLower := by
      rw [toAsciiLowercase, String.toList_ofList]
    have hall : ∀ c ∈ (toAsciiLowercase (trim raw)).toList,
        isAsciiHexdigit c = true ∧ c.toLower = c ∧ isWhitespace c = false := by
      rw [hchars]
      intro c hc
      obtain ⟨c', hc', rfl⟩ := List.mem_map.mp hc
      exact hexdigit_lower (hraw.2 c' hc')
    have htrim := trim_eq_self fun c hc => (hall c hc).2.2
    have hlower : toAsciiLowercase (toAsciiLowercase (trim raw)) = toAsciiLowercase (trim raw) := by
      conv_lhs => rw [toAsciiLowercase]
      rw [List.map_congr_left (g := id) fun c hc => (hall c hc).2.1, List.map_id, String.ofList_toList]
    have hne : toAsciiLowercase (trim raw) ≠ "" := by
      intro h0
      have hnil := congrArg String.toList h0
      rw [hchars, String.toList_empty, List.map_eq_nil_iff] at hnil
      have hempty : trim raw = "" := String.toList_inj.mp (hnil.trans String.toList_empty.symm)
      simp [hempty] at hraw
    rw [IsTopoHex, normalizeTopoHex, htrim, hlower, if_neg]
    simp only [Bool.or_eq_true, decide_eq_true_eq, hne, false_or, Bool.not_eq_true', Bool.not_eq_false,
      List.all_eq_true]
    exact fun c hc => (hall c hc).1

theorem topoKey_inj {hex hex' : String} {k k' : FrameKey} (h : topoKey hex k = topoKey hex' k') :
    hex = hex' ∧ k = k' := by
  have hlen : k.toBytes.val.length = k'.toBytes.val.length := by
    rw [FrameKey.length_toBytes, FrameKey.length_toBytes]
  obtain ⟨hp, hk⟩ := append_suffix_inj hlen h
  exact ⟨(utf8_sep_inj hp).1, FrameKey.toBytes_inj.mp hk⟩

end Hex

section Tables

structure TopoIndexed (idx : Table Unit) (byFrame : Table Bytes) : Prop where
  recorded : ∀ b v : Bytes, byFrame[b]? = some v →
    ∃ (k : FrameKey) (hex : String), b = k.toBytes.val ∧ v = utf8 hex ∧ IsTopoHex hex
  exact : ∀ b, b ∈ idx ↔
    ∃ (k : FrameKey) (hex : String), byFrame[k.toBytes.val]? = some (utf8 hex) ∧ b = topoKey hex k

theorem topoIndexed_empty : TopoIndexed ∅ ∅ where
  recorded b v hv := by simp at hv
  exact b := by simp

theorem ofTopoBytes_utf8 {hex old : String} (h : ofTopoBytes (utf8 hex) = .ok old) : old = hex := by
  rw [ofTopoBytes, ofUtf8_utf8] at h
  exact (Except.ok.inj h).symm

variable {idx idx' : Table Unit} {byFrame byFrame' : Table Bytes}

theorem TopoIndexed.dropOld (h : TopoIndexed idx byFrame) {k : FrameKey}
    (hd : dropOldTopo idx k byFrame[k.toBytes.val]? = .ok idx') (b : Bytes) :
    b ∈ idx' ↔ ∃ (j : FrameKey) (hex : String), j ≠ k ∧ byFrame[j.toBytes.val]? = some (utf8 hex) ∧
      b = topoKey hex j := by
  cases hv : byFrame[k.toBytes.val]? with
  | none =>
    rw [hv] at hd
    obtain rfl := Except.ok.inj hd
    rw [h.exact]
    constructor
    · rintro ⟨j, hex, hj, rfl⟩
      refine ⟨j, hex, fun he => ?_, hj, rfl⟩
      rw [he, hv] at hj
      cases hj
    · rintro ⟨j, hex, _, hj, rfl⟩
      exact ⟨j, hex, hj, rfl⟩
  | some v =>
    obtain ⟨k', hex, _, rfl, _⟩ := h.recorded _ _ hv
    rw [hv] at hd
    obtain ⟨old, ho, herase⟩ := bind_eq_ok.mp hd
    obtain rfl := ofTopoBytes_utf8 ho
    rw [← pure_eq_ok.mp herase, mem_erase_iff, h.exact]
    constructor
    · rintro ⟨hne, j, hex, hj, rfl⟩
      refine ⟨j, hex, fun he => hne ?_, hj, rfl⟩
      subst he
      rw [hj, Option.some.injEq] at hv
      rw [utf8_inj hv]
    · rintro ⟨j, hex, hne, hj, rfl⟩
      exact ⟨fun he => hne (topoKey_inj he).2.symm, j, hex, hj, rfl⟩

theorem TopoIndexed.put (h : TopoIndexed idx byFrame) {k : FrameKey} {hex : String} (hx : IsTopoHex hex)
    (hp : putTopoEntry (idx, byFrame) (k, hex) = .ok (idx', byFrame')) : TopoIndexed idx' byFrame' := by
  obtain ⟨dropped, hd, hp⟩ := bind_eq_ok.mp hp
  rw [pure_eq_ok, Prod.mk.injEq] at hp
  obtain ⟨rfl, rfl⟩ := hp
  have hdrop := h.dropOld hd
  constructor
  · intro b v hv
    rw [get_insert] at hv
    split at hv
    · next hb => exact ⟨k, hex, hb.symm, (Option.some.inj hv).symm, hx⟩
    · exact h.recorded b v hv
  · intro b
    rw [mem_insert_iff, hdrop]
    constructor
    · rintro (rfl | ⟨j, hex', hne, hj, rfl⟩)
      · exact ⟨k, hex, by rw [get_insert, if_pos rfl], rfl⟩
      · refine ⟨j, hex', ?_, rfl⟩
        rw [get_insert, if_neg fun he => hne (FrameKey.toBytes_inj.mp he).symm, hj]
    · rintro ⟨j, hex', hj, rfl⟩
      rw [get_insert] at hj
      split at hj
      · next he =>
        obtain rfl := FrameKey.toBytes_inj.mp he
        exact .inl (by rw [utf8_inj (Option.some.inj hj)])
      · next he => exact .inr ⟨j, hex', fun hjk => he (hjk ▸ rfl), hj, rfl⟩

theorem TopoIndexed.rebuild (h : TopoIndexed idx byFrame)
    (hr : byFrame.toList.foldlM rebuildRow ∅ = .ok idx') : TopoIndexed idx' byFrame := by
  refine ⟨h.recorded, fun b => ?_⟩
  have hrows : ∀ row ∈ byFrame.toList, ∃ (k : FrameKey) (hex : String), row = (k.toBytes.val, utf8 hex) ∧
      IsTopoHex hex := by
    intro row hrow
    obtain ⟨k, hex, hk, hv, hx⟩ := h.recorded row.1 row.2 (Std.ExtTreeMap.mem_toList_iff_getElem?_eq_some.mp hrow)
    exact ⟨k, hex, Prod.ext hk hv, hx⟩
  have hall : ∀ (rows : List (Bytes × Bytes)) (start : Table Unit),
      (∀ row ∈ rows, ∃ (k : FrameKey) (hex : String), row = (k.toBytes.val, utf8 hex) ∧ IsTopoHex hex) →
      rows.foldlM rebuildRow start = .ok idx' →
      (b ∈ idx' ↔ b ∈ start ∨ ∃ (k : FrameKey) (hex : String), (k.toBytes.val, utf8 hex) ∈ rows ∧
        b = topoKey hex k) := by
    intro rows
    induction rows with
    | nil =>
      intro start _ hs
      obtain rfl := pure_eq_ok.mp hs
      simp
    | cons row rows ih =>
      intro start hrows hs
      obtain ⟨mid, hm, hrest⟩ := foldlM_cons_ok.mp hs
      obtain ⟨k, hex, rfl, hx⟩ := hrows row (by simp)
      have hmid : mid = start.insert (topoKey hex k) () := by
        rw [rebuildRow, FrameKey.fromBytes_toBytes, ofTopoBytes, ofUtf8_utf8] at hm
        simp only [bind, Except.bind] at hm
        rw [hx] at hm
        exact (Except.ok.inj hm).symm
      rw [ih mid (fun r hr => hrows r (by simp [hr])) hrest, hmid, mem_insert_iff]
      constructor
      · rintro ((rfl | hb) | ⟨j, hex', hj, rfl⟩)
        · exact .inr ⟨k, hex, by simp, rfl⟩
        · exact .inl hb
        · exact .inr ⟨j, hex', by simp [hj], rfl⟩
      · rintro (hb | ⟨j, hex', hj, rfl⟩)
        · exact .inl (.inr hb)
        · rcases List.mem_cons.mp hj with he | hj
          · rw [Prod.mk.injEq] at he
            rw [FrameKey.toBytes_inj.mp he.1, utf8_inj he.2]
            exact .inl (.inl rfl)
          · exact .inr ⟨j, hex', hj, rfl⟩
  rw [hall _ _ hrows hr]
  simp only [Std.ExtTreeMap.not_mem_empty, false_or, Std.ExtTreeMap.mem_toList_iff_getElem?_eq_some]

end Tables

section Plans

variable {F : Type} [Float64 F] {d : Crates F} {seams : Seams F} {snap live next : ConCorpus F}
  {opts : AnnotateTopologyOpts F} {plan : AnnotatePlan F} {n : UInt32}

theorem parseFingerprintText_key {text key method : String} (h : parseFingerprintText text = .ok (key, method)) :
    IsTopoHex key := by
  rw [parseFingerprintText] at h
  split at h
  · cases h
  · cases h
  · obtain ⟨hex, hx, h⟩ := bind_eq_ok.mp h
    rw [pure_eq_ok, Prod.mk.injEq] at h
    exact h.1 ▸ normalizeTopoHex_isTopoHex hx

theorem parseFingerprintJsonLine_key {line : String} {rec : FingerprintRecord}
    (h : parseFingerprintJsonLine seams line = .ok rec) : IsTopoHex rec.key := by
  rw [parseFingerprintJsonLine] at h
  split at h
  · cases h
  · split at h
    · cases h
    · split at h
      · cases h
      · obtain ⟨⟨key, method⟩, ht, h⟩ := bind_eq_ok.mp h
        rw [pure_eq_ok] at h
        exact h ▸ parseFingerprintText_key ht

theorem fingerprintConBytes_keys {b : Bytes} {cutoff : F} {graph : String} {hops : UInt32}
    {recs : List FingerprintRecord} (h : fingerprintConBytes seams b cutoff graph hops = .ok recs) :
    ∀ rec ∈ recs, IsTopoHex rec.key := by
  obtain ⟨out, _, h⟩ := bind_eq_ok.mp h
  obtain ⟨recs', hm, h⟩ := bind_eq_ok.mp h
  split at h
  · cases h
  · obtain rfl := Except.ok.inj h
    intro rec hrec
    obtain ⟨line, _, hl⟩ := forall₂_mem_right (mapM_eq_ok.mp hm) hrec
    exact parseFingerprintJsonLine_key hl

def Hexes (acc : Pending) : Prop := ∀ e ∈ acc.2, IsTopoHex e.2

theorem Hexes.addRecord {t : UInt64} {acc acc' : Pending} {row : FingerprintRecord × Nat} (h : Hexes acc)
    (hx : IsTopoHex row.1.key) (ha : addRecord t acc row = .ok acc') : Hexes acc' := by
  rw [ReadconDb.addRecord] at ha
  split at ha
  · cases ha
  · obtain rfl := Except.ok.inj ha
    intro e he
    rcases List.mem_append.mp he with he | he
    · exact h e he
    · rw [List.mem_singleton.mp he]
      exact hx

theorem Hexes.annotateTraj {acc acc' : Pending} {row : UInt64 × TrajMeta F} (h : Hexes acc)
    (ha : annotateTraj d seams snap opts acc row = .ok acc') : Hexes acc' := by
  rw [ReadconDb.annotateTraj] at ha
  split at ha
  · exact Except.ok.inj ha ▸ h
  · obtain ⟨blob, _, ha⟩ := bind_eq_ok.mp ha
    obtain ⟨recs, hr, ha⟩ := bind_eq_ok.mp ha
    split at ha
    · cases ha
    · refine foldlM_preserves (I := Hexes) (fun b x b' hx hb hf => hb.addRecord ?_ hf) h ha
      exact fingerprintConBytes_keys hr _ (List.fst_mem_of_mem_zipIdx hx)

theorem annotatePlan_ok (h : annotatePlan d seams snap opts = .ok (some plan)) :
    plan.metas = listTrajMetas snap ∧ ∀ e ∈ plan.pending, IsTopoHex e.2 := by
  obtain ⟨_, _, h⟩ := bind_eq_ok.mp h
  obtain ⟨_, _, h⟩ := bind_eq_ok.mp h
  obtain ⟨recorded, _, h⟩ := bind_eq_ok.mp h
  obtain ⟨_, _, h⟩ := bind_eq_ok.mp h
  obtain ⟨⟨runMethod, pending⟩, hp, h⟩ := bind_eq_ok.mp h
  obtain ⟨_, _, h⟩ := bind_eq_ok.mp h
  rw [pure_eq_ok] at h
  obtain ⟨method, _, rfl⟩ := Option.map_eq_some_iff.mp h
  have hnone : Hexes (none, []) := by simp [Hexes]
  exact ⟨rfl, foldlM_preserves (I := Hexes) (fun _ _ _ _ hb hf => hb.annotateTraj hf) hnone hp⟩

-- The trajectories that were read still have the frames they had then.
def SameCounts (snap live : ConCorpus F) : Prop :=
  ∀ (t : UInt64) (m : TrajMeta F), snap.trajMeta[t]? = some m →
    (live.trajMeta[t]?).map TrajMeta.nFrames = some m.nFrames

theorem stampMetas_nFrames {metas : List (UInt64 × TrajMeta F)} {method : String}
    {start : Std.ExtTreeMap UInt64 (TrajMeta F) compare}
    (h : ∀ row ∈ metas, (start[row.1]?).map TrajMeta.nFrames = some row.2.nFrames) (t : UInt64) :
    ((metas.foldl (stampMeta d opts method) start)[t]?).map TrajMeta.nFrames =
      (start[t]?).map TrajMeta.nFrames := by
  induction metas generalizing start with
  | nil => rfl
  | cons row metas ih =>
    have hput (u : UInt64) : ((stampMeta d opts method start row)[u]?).map TrajMeta.nFrames =
        (start[u]?).map TrajMeta.nFrames := by
      rw [stampMeta, get_insert]
      split
      · next he =>
        subst he
        exact (h row (by simp)).symm
      · rfl
    rw [List.foldl_cons, ih, hput]
    intro row' hrow'
    rw [hput]
    exact h row' (by simp [hrow'])

theorem annotateCommit_ok (h : annotateCommit d opts (some plan) live = .ok (n, next)) :
    ∃ idx byFrame idx' byFrame', live.idxTopo = some idx ∧ live.topoByFrame = some byFrame ∧
      plan.pending.foldlM putTopoEntry (idx, byFrame) = .ok (idx', byFrame') ∧
      next = { live with
        idxTopo := some idx'
        topoByFrame := some byFrame'
        trajMeta := plan.metas.foldl (stampMeta d opts plan.method) live.trajMeta } := by
  obtain ⟨⟨idx, byFrame⟩, hr, h⟩ := bind_eq_ok.mp h
  obtain ⟨⟨idx', byFrame'⟩, hf, h⟩ := bind_eq_ok.mp h
  rw [pure_eq_ok, Prod.mk.injEq] at h
  rw [requireTopoDbs] at hr
  split at hr
  · next hi hb =>
    rw [Except.ok.injEq, Prod.mk.injEq] at hr
    exact ⟨idx, byFrame, idx', byFrame', hr.1 ▸ hi, hr.2 ▸ hb, hf, h.2.symm⟩
  · cases hr

theorem collectParams_isSome {seen r : Option (TopologyParams F)} {metas : List (UInt64 × TrajMeta F)}
    (h : collectParams seen metas = .ok r) (hs : seen.isSome ∨ ∃ row ∈ metas, row.2.hasTopo = true) :
    r.isSome = true := by
  induction metas generalizing seen with
  | nil =>
    obtain rfl := Except.ok.inj h
    simpa using hs
  | cons row metas ih =>
    obtain ⟨t, m⟩ := row
    unfold collectParams at h
    split at h
    · next hno =>
      refine ih h (hs.imp_right fun ⟨row', hm, ht⟩ => ⟨row', ?_, ht⟩)
      rcases List.mem_cons.mp hm with rfl | hm
      · simp [ht] at hno
      · exact hm
    · split at h
      · exact ih h (.inl rfl)
      · split at h
        · exact ih h (.inl rfl)
        · cases h

end Plans

inductive TopologyCall (F : Type) where
  | ingest (call : IngestCall F)
  | annotate (seams : Seams F) (opts : AnnotateTopologyOpts F)
  | reindex

section Calls

variable {F : Type} [Float64 F] (d : Crates F)

namespace TopologyCall

def exec (call : TopologyCall F) (snap : ConCorpus F) (refused : Option Error) (live : ConCorpus F) :
    Result UInt32 × ConCorpus F :=
  match call with
  | .ingest call => call.exec d snap refused live
  | .annotate seams opts => annotateTopology d seams refused snap live opts
  | .reindex => ReadconDb.reindex d refused snap live

-- A write of an annotation finds the frame counts it read, that of a reindex the parameters of every annotated frame.
def Current (snap live : ConCorpus F) : TopologyCall F → Prop
  | .ingest call => call.Fits d snap
  | .annotate seams opts => ∀ plan, annotatePlan d seams snap opts = .ok (some plan) → SameCounts snap live
  | .reindex => ∀ recorded, collectedTopoParams snap = .ok recorded → live.topoByFrame = some ∅ ∨
      ∃ (t : UInt64) (m : TrajMeta F), snap.trajMeta[t]? = some m ∧ m.hasTopo = true

end TopologyCall

def storedFrames (c : ConCorpus F) (t : UInt64) : List FrameKey :=
  (listFrameKeys c).filter fun k => k.trajId == t

structure TopologySound (d : Crates F) (c : ConCorpus F) : Prop where
  sound : ∃ L, Sound d c L
  topo : ∃ idx byFrame, c.idxTopo = some idx ∧ c.topoByFrame = some byFrame ∧ TopoIndexed idx byFrame

structure FramesKept (d : Crates F) (earlier later : ConCorpus F) : Prop where
  counts : ∀ t : UInt64, countOf earlier.trajMeta[t]? ≤ countOf later.trajMeta[t]?
  texts : ∀ (k : FrameKey) (s : String), getFrameText d earlier k = .ok s → getFrameText d later k = .ok s

structure TopologyExact (c : ConCorpus F) : Prop where
  counted : ∀ t : UInt64, (storedFrames c t).length = (countOf c.trajMeta[t]?).toNat
  posted : ∃ idx byFrame, c.idxTopo = some idx ∧ c.topoByFrame = some byFrame ∧ ∀ b, b ∈ idx ↔
    ∃ (k : FrameKey) (hex : String), byFrame[k.toBytes.val]? = some (utf8 hex) ∧ b = topoKey hex k

variable {d} {snap live next c : ConCorpus F} {L : Texts} {n : UInt32}

theorem FramesKept.refl (c : ConCorpus F) : FramesKept d c c := ⟨fun _ => UInt32.le_refl _, fun _ _ h => h⟩

theorem FramesKept.trans {a b c : ConCorpus F} (h : FramesKept d a b) (h' : FramesKept d b c) : FramesKept d a c :=
  ⟨fun t => UInt32.le_trans (h.counts t) (h'.counts t), fun k s hs => h'.texts k s (h.texts k s hs)⟩

theorem Refines.storedFrames_length (h : Refines d c L) (t : UInt64) :
    (storedFrames c t).length = (ReadconDb.countOf c.trajMeta[t]?).toNat := by
  have hsmall := h.small t
  have hcount := h.countOf t
  have hperm : (storedFrames c t).Perm
      ((List.range (L.count t)).map fun i => FrameKey.mk t (UInt32.ofNat i)) := by
    refine (List.perm_ext_iff_of_nodup ?_ ?_).mpr fun k => ?_
    · exact (listFrameKeys_lt.imp fun h => ne_of_lt h).filter _
    · refine (List.nodup_range.map_on ?_)
      intro i hi j hj he
      have hij := congrArg UInt32.toNat (FrameKey.mk.inj he).2
      rw [List.mem_range] at hi hj
      rwa [UInt32.toNat_ofNat', UInt32.toNat_ofNat', Nat.mod_eq_of_lt (by omega), Nat.mod_eq_of_lt (by omega)] at hij
    · rw [storedFrames, List.mem_filter, mem_listFrameKeys, beq_iff_eq, List.mem_map]
      have hstored : k.toBytes.val ∈ c.frames ↔ k.frameIdx.toNat < L.count k.trajId := by
        rw [rowOf_isSome_iff h.readable]
        simp only [h.text]
        exact Ledger.entry_isSome_iff
      rw [hstored]
      constructor
      · rintro ⟨hlt, rfl⟩
        exact ⟨k.frameIdx.toNat, List.mem_range.mpr hlt, by rw [UInt32.ofNat_toNat]⟩
      · rintro ⟨i, hi, rfl⟩
        rw [List.mem_range] at hi
        rw [UInt32.toNat_ofNat', Nat.mod_eq_of_lt (by omega)]
        exact ⟨hi, rfl⟩
  rw [hperm.length_eq, List.length_map, List.length_range, hcount]

theorem TopologySound.exact (h : TopologySound d c) : TopologyExact c := by
  obtain ⟨L, hL⟩ := h.sound
  obtain ⟨idx, byFrame, hi, hb, ht⟩ := h.topo
  exact ⟨hL.refines.storedFrames_length, idx, byFrame, hi, hb, ht.exact⟩

theorem FramesKept.of_extend (h : Sound d live L) {t : UInt64} {xs : List String}
    (h' : Sound d next (L.extend t xs)) : FramesKept d live next where
  counts u := by
    rw [UInt32.le_iff_toNat_le, h.refines.countOf, h'.refines.countOf]
    by_cases hu : u = t
    · subst hu
      rw [Ledger.count_extend_self]
      omega
    · rw [Ledger.count, Ledger.count, Ledger.extend, Ledger.write_other _ _ hu]
  texts k s hs := by
    have ht : textAt d live k = some s := toOption_eq_some.mpr hs
    rw [h.refines.text] at ht
    refine toOption_eq_some.mp ((h'.refines.text k).trans ?_)
    by_cases hk : k.trajId = t
    · rw [← hk, Ledger.entry_extend_self]
      exact .inl ht
    · rw [Ledger.extend, Ledger.entry_write_other _ _ hk, ht]

theorem FramesKept.of_frames (hf : next.frames = live.frames)
    (hm : ∀ t : UInt64, (next.trajMeta[t]?).map TrajMeta.nFrames = (live.trajMeta[t]?).map TrajMeta.nFrames) :
    FramesKept d live next where
  counts t := by
    rw [countOf, countOf, hm]
    exact UInt32.le_refl _
  texts k s hs := by
    have hview := textAt_of_frames_eq (d := d) hf k
    exact toOption_eq_some.mp (hview.trans (toOption_eq_some.mpr hs))

theorem IngestCall.exec_topo (call : IngestCall F) (refused : Option Error) :
    (call.exec d snap refused live).2.idxTopo = live.idxTopo ∧
      (call.exec d snap refused live).2.topoByFrame = live.topoByFrame := by
  cases call with
  | appendStr t contents source =>
    refine call_preserves (I := fun s : ConCorpus F => s.idxTopo = live.idxTopo ∧ s.topoByFrame = live.topoByFrame)
      ⟨rfl, rfl⟩ fun _ _ _ _ hc => ?_
    obtain ⟨_, _, m, _, rfl⟩ := commitPrepared_ok hc
    exact ⟨puts_idxTopo _ _, puts_topoByFrame _ _⟩
  | appendFrames t frames source fmt =>
    refine call_preserves (I := fun s : ConCorpus F => s.idxTopo = live.idxTopo ∧ s.topoByFrame = live.topoByFrame)
      ⟨rfl, rfl⟩ fun _ _ _ _ hc => ?_
    obtain ⟨_, _, m, _, rfl⟩ := commitPrepared_ok hc
    exact ⟨puts_idxTopo _ _, puts_topoByFrame _ _⟩
  | extendFrames t frames hint =>
    refine call_preserves (I := fun s : ConCorpus F => s.idxTopo = live.idxTopo ∧ s.topoByFrame = live.topoByFrame)
      ⟨rfl, rfl⟩ fun _ _ _ _ hc => ?_
    obtain ⟨_, _, m, _, rfl⟩ := commitExtend_ok hc
    exact ⟨puts_idxTopo _ _, puts_topoByFrame _ _⟩

theorem TopologySound.ingest (hz : ZstdLossless d) (h : TopologySound d live) (call : IngestCall F)
    (refused : Option Error) (hf : call.Fits d snap) :
    TopologySound d (call.exec d snap refused live).2 ∧ FramesKept d live (call.exec d snap refused live).2 := by
  obtain ⟨L, hL⟩ := h.sound
  have htopo : (call.exec d snap refused live).2.idxTopo = live.idxTopo ∧
      (call.exec d snap refused live).2.topoByFrame = live.topoByFrame := call.exec_topo refused
  obtain ⟨idx, byFrame, hi, hb, ht⟩ := h.topo
  rcases call.exec_cases hz hL refused hf with ⟨e, he⟩ | ⟨n, next, he, _, _, hs⟩
  · rw [he]
    exact ⟨h, .refl live⟩
  · rw [he] at htopo ⊢
    exact ⟨⟨⟨_, hs⟩, idx, byFrame, htopo.1.trans hi, htopo.2.trans hb, ht⟩, .of_extend hL hs⟩

theorem Sound.of_counts (h : Sound d live L) (hf : next.frames = live.frames)
    (hm : ∀ t : UInt64, (next.trajMeta[t]?).map TrajMeta.nFrames = (live.trajMeta[t]?).map TrajMeta.nFrames)
    (hb : next.hashByFrame = live.hashByFrame) (hp : next.frameByHash = live.frameByHash)
    (hk : next.framesSoa = live.framesSoa) : Sound d next L := by
  have hview (k : FrameKey) := textAt_of_frames_eq (d := d) hf k
  exact
    { refines :=
        { readable := readable_of_frames_eq hf h.refines.readable
          counts := fun t => (hm t).trans (h.refines.counts t)
          small := h.refines.small
          text := fun k => (hview k).trans (h.refines.text k) }
      hash := h.hash.of_view hview hb hp
      cooked := h.cooked.of_view hview hk }

theorem TopologySound.annotate (h : TopologySound d live) {seams : Seams F} {opts : AnnotateTopologyOpts F}
    (refused : Option Error) (hc : (TopologyCall.annotate seams opts).Current d snap live) :
    TopologySound d (annotateTopology d seams refused snap live opts).2 ∧
      FramesKept d live (annotateTopology d seams refused snap live opts).2 := by
  refine call_preserves (I := fun s => TopologySound d s ∧ FramesKept d live s) ⟨h, .refl live⟩
    fun plan n next hp hn => ?_
  cases plan with
  | none =>
    obtain ⟨_, rfl⟩ := Prod.mk.inj (Except.ok.inj hn)
    exact ⟨h, .refl live⟩
  | some plan =>
    obtain ⟨hmetas, hhex⟩ := annotatePlan_ok hp
    obtain ⟨idx, byFrame, idx', byFrame', hi, hb, hfold, rfl⟩ := annotateCommit_ok hn
    obtain ⟨L, hL⟩ := h.sound
    obtain ⟨_, _, hi', hb', ht⟩ := h.topo
    rw [hi, Option.some.injEq] at hi'
    rw [hb, Option.some.injEq] at hb'
    subst hi' hb'
    have hrows : ∀ row ∈ plan.metas, (live.trajMeta[row.1]?).map TrajMeta.nFrames = some row.2.nFrames := by
      intro row hrow
      rw [hmetas] at hrow
      exact hc plan hp row.1 row.2 (Std.ExtTreeMap.mem_toList_iff_getElem?_eq_some.mp hrow)
    have hcounts (t : UInt64) :
        ((plan.metas.foldl (stampMeta d opts plan.method) live.trajMeta)[t]?).map TrajMeta.nFrames =
          (live.trajMeta[t]?).map TrajMeta.nFrames := stampMetas_nFrames hrows t
    have hdone : TopoIndexed idx' byFrame' := by
      refine foldlM_preserves (I := fun tables : Table Unit × Table Bytes => TopoIndexed tables.1 tables.2)
        (fun tables e tables' he hb hf => hb.put (hhex e he) hf) ht hfold
    exact ⟨⟨⟨L, hL.of_counts rfl hcounts rfl rfl rfl⟩, idx', byFrame', rfl, rfl, hdone⟩, .of_frames rfl hcounts⟩

theorem rebuildIdxTopo_ok {idx : Table Unit} {byFrame : Table Bytes} (hi : c.idxTopo = some idx)
    (hb : c.topoByFrame = some byFrame) (h : rebuildIdxTopoFromStored c = .ok next) :
    ∃ idx', byFrame.toList.foldlM rebuildRow idx = .ok idx' ∧ next = { c with idxTopo := some idx' } := by
  obtain ⟨tables, ht, h⟩ := bind_eq_ok.mp h
  rw [requireTopoDbs, hi, hb] at ht
  obtain rfl := Except.ok.inj ht
  obtain ⟨idx', hf, h⟩ := bind_eq_ok.mp h
  rw [pure_eq_ok] at h
  exact ⟨idx', hf, h.symm⟩

theorem reindexCommit_topo {recorded : Option (TopologyParams F)} {idx : Table Unit} {byFrame : Table Bytes}
    (hi : live.idxTopo = some idx) (hb : live.topoByFrame = some byFrame) (ht : TopoIndexed idx byFrame)
    (hc : byFrame = ∅ ∨ recorded.isSome = true) (h : reindexCommit d recorded live = .ok (n, next)) :
    ∃ idx', next.idxTopo = some idx' ∧ next.topoByFrame = some byFrame ∧ TopoIndexed idx' byFrame := by
  obtain ⟨mid, hm, h⟩ := bind_eq_ok.mp h
  obtain ⟨last, hl, h⟩ := bind_eq_ok.mp h
  rw [pure_eq_ok, Prod.mk.injEq] at h
  obtain ⟨_, rfl⟩ := h
  obtain ⟨rs, _, rfl⟩ := foldlM_reindexFrame_eq_ok.mp hm
  have hidx : (rs.foldl (reindexPut d) (clearTopo (clearSecondary live))).idxTopo = some ∅ := by
    rw [reindexed_idxTopo]
    simp [clearTopo, clearSecondary, hi]
  have hby : (rs.foldl (reindexPut d) (clearTopo (clearSecondary live))).topoByFrame = some byFrame := by
    rw [reindexed_topoByFrame]
    exact hb
  rw [rebuildIfRecorded] at hl
  split at hl
  · obtain ⟨idx', hf, rfl⟩ := rebuildIdxTopo_ok hidx hby hl
    exact ⟨idx', rfl, hby, ht.rebuild hf⟩
  · next hno =>
    obtain rfl := Except.ok.inj hl
    obtain rfl := hc.resolve_right hno
    exact ⟨∅, hidx, hby, topoIndexed_empty⟩

theorem TopologySound.reindex (h : TopologySound d live) (refused : Option Error)
    (hc : TopologyCall.reindex.Current d snap live) :
    TopologySound d (ReadconDb.reindex d refused snap live).2 ∧
      FramesKept d live (ReadconDb.reindex d refused snap live).2 := by
  refine call_preserves (I := fun s => TopologySound d s ∧ FramesKept d live s) ⟨h, .refl live⟩
    fun recorded n next hp hn => ?_
  obtain ⟨L, hL⟩ := h.sound
  obtain ⟨idx, byFrame, hi, hb, ht⟩ := h.topo
  have hrec : byFrame = ∅ ∨ recorded.isSome = true := by
    refine (hc recorded hp).imp (fun he => ?_) fun ⟨t, m, hm, htopo⟩ => ?_
    · rwa [hb, Option.some.injEq] at he
    · exact collectParams_isSome hp (.inr ⟨(t, m), Std.ExtTreeMap.mem_toList_iff_getElem?_eq_some.mpr hm, htopo⟩)
  obtain ⟨idx', hi', hb', ht'⟩ := reindexCommit_topo hi hb ht hrec hn
  have hsound : Sound d next L :=
    ⟨hL.refines.reindexCommit hn, hashExact_reindexCommit hn, hL.cooked.reindexCommit hn⟩
  refine ⟨⟨⟨L, hsound⟩, idx', byFrame, hi', hb', ht'⟩, .of_frames (reindexCommit_frames hn) fun t => ?_⟩
  rw [reindexCommit_trajMeta hn]

theorem TopologySound.finish (hz : ZstdLossless d) (h : TopologySound d live) (call : TopologyCall F)
    (refused : Option Error) (hc : call.Current d snap live) :
    TopologySound d (call.exec d snap refused live).2 ∧ FramesKept d live (call.exec d snap refused live).2 := by
  cases call with
  | ingest call => exact h.ingest hz call refused hc
  | annotate seams opts => exact h.annotate refused hc
  | reindex => exact h.reindex refused hc

theorem topology_keeps_frames (hz : ZstdLossless d) {start : ConCorpus F} (hs : TopologySound d start)
    {g g' : Config (ConCorpus F) (TopologyCall F) UInt32 Error}
    (h : Run (TopologyCall.exec d) (fun call snap live => call.Current d snap live) start g)
    (h' : Relation.ReflTransGen (Step (TopologyCall.exec d) fun call snap live => call.Current d snap live) g g') :
    TopologyExact g'.shared ∧ FramesKept d g.shared g'.shared := by
  have hstep : ∀ (call : TopologyCall F) (snap : ConCorpus F) (refused : Option Error) (live : ConCorpus F),
      TopologySound d live → call.Current d snap live →
      TopologySound d (call.exec d snap refused live).2 ∧ FramesKept d live (call.exec d snap refused live).2 :=
    fun call _ refused _ hi hc => hi.finish hz call refused hc
  have hkeep := Run.grows hstep .refl (fun h₁ h₂ => h₁.trans h₂) hs h h'
  exact ⟨hkeep.1.exact, hkeep.2⟩

-- An append makes a trajectory of its own, which no annotation in flight has read.
theorem append_sameCounts {t : UInt64} {contents source : String} (refused : Option Error) :
    SameCounts live ((IngestCall.appendStr t contents source).exec d snap refused live).2 := by
  refine call_preserves (I := SameCounts live) (fun u m hm => by rw [hm]; rfl) fun _ _ _ _ hc u m hm => ?_
  obtain ⟨hnone, _, m', _, rfl⟩ := commitPrepared_ok hc
  have hne : t ≠ u := by
    rintro rfl
    rw [hm] at hnone
    cases hnone
  rw [restamp, get_insert, if_neg hne, puts_trajMeta, hm]
  rfl

end Calls

section Tiny

def tinySeams : Seams Bits where
  resolved := .ok ()
  stdout _ _ _ _ := .ok "\x7b\"command\":\"fingerprint\",\"frame\":0,\"status\":0,\"text\":\"key A1F0 method nauty\"\x7d\n"
  jsonLine _ := .ok ⟨some "fingerprint", some 0, 0, "key A1F0 method nauty"⟩

def tinyAnnotate : TopologyCall Bits := .annotate tinySeams { cutoff := .one }

def tinySecond : TopologyCall Bits := .ingest (.appendStr 1 helium.2 "tiny.con")

theorem tinyOne_topology : TopologySound tiny tinyOne.1 where
  sound := ⟨_, reached_sound tiny_lossless (fun _ _ _ ha => ha.2)
    (reached_bounded tiny_lossless (fun _ _ _ ha => ha.2) tinyOne_reached)⟩
  topo := ⟨∅, ∅, (reached_unannotated tinyOne_reached).1, (reached_unannotated tinyOne_reached).2,
    topoIndexed_empty⟩

theorem tinySecond_current : tinySecond.Current tiny tinyOne.1 tinyOne.1 := by
  have hparse : tiny.conFrames helium.2 = [.ok helium] := Catalog.conFrames_last helium_mem
  show (tiny.conFrames helium.2).length < 2 ^ 32
  rw [hparse]
  decide

theorem tiny_topology_keeps_frames : ∃ g : Config (ConCorpus Bits) (TopologyCall Bits) UInt32 Error,
    g.log.map Prod.fst = [tinySecond, tinyAnnotate] ∧ TopologyExact g.shared ∧
      ∃ g₀, FramesKept tiny g₀ g.shared := by
  obtain ⟨g, g', hrun, hlast, hlog, _⟩ := Run.overlap (TopologyCall.exec tiny)
    (fun call snap live => call.Current tiny snap live) tinyOne.1 tinySecond tinyAnnotate tinySecond_current
    (fun _ _ => append_sameCounts none)
  have hkeep := topology_keeps_frames tiny_lossless tinyOne_topology hrun hlast
  exact ⟨g', hlog, hkeep.1, g.shared, hkeep.2⟩

def tinyThird : TopologyCall Bits := .ingest (.extendFrames 0 [helium.1] "")

theorem tiny_annotate_regresses {c c' : ConCorpus Bits} (hc : c = (tinyThird.exec tiny tinyOne.1 none tinyOne.1).2)
    (hc' : c' = (tinyAnnotate.exec tiny tinyOne.1 none (tinyThird.exec tiny tinyOne.1 none tinyOne.1).2).2) :
    ¬ FramesKept tiny c c' := by
  have hless : ¬ countOf (tinyThird.exec tiny tinyOne.1 none tinyOne.1).2.trajMeta[(0 : UInt64)]? ≤
      countOf (tinyAnnotate.exec tiny tinyOne.1 none
        (tinyThird.exec tiny tinyOne.1 none tinyOne.1).2).2.trajMeta[(0 : UInt64)]? := by decide +kernel
  intro h
  have hcounts := h.counts 0
  rw [hc, hc'] at hcounts
  exact hless hcounts

-- An annotation that writes back the frame count of before an extend.
theorem tiny_topology_loses_frames : ∃ start g g', TopologySound tiny start ∧
    Run (TopologyCall.exec tiny) (fun _ _ _ => True) start g ∧
      Relation.ReflTransGen (Step (TopologyCall.exec tiny) fun _ _ _ => True) g g' ∧
        ¬ (TopologyExact g'.shared ∧ FramesKept tiny g.shared g'.shared) := by
  obtain ⟨g, g', hrun, hlast, _, hg, hg'⟩ := Run.overlap (TopologyCall.exec tiny) (fun _ _ _ => True) tinyOne.1
    tinyThird tinyAnnotate trivial trivial
  exact ⟨_, g, g', tinyOne_topology, hrun, hlast, fun h => tiny_annotate_regresses hg hg' h.2⟩

end Tiny

end ReadconDb
