import ReadconDb.Wraparound

set_option linter.unusedSectionVars false

namespace ReadconDb

open ByteString Outcome OrderedTable TwoPhase ReverseIndex

section ReadBack

variable {F : Type} [Float64 F] {d : Crates F} {c : ConCorpus F} {L : Texts}

structure ReadsBack (d : Crates F) (c : ConCorpus F) (L : Texts) : Prop where
  keys : ∀ b, b ∈ c.frames ↔ ∃ (k : FrameKey) (m : TrajMeta F), b = k.toBytes.val ∧
    c.trajMeta[k.trajId]? = some m ∧ k.frameIdx < m.nFrames
  text : ∀ (k : FrameKey) (m : TrajMeta F), c.trajMeta[k.trajId]? = some m → k.frameIdx < m.nFrames →
    ∃ s, L.entry k.trajId k.frameIdx.toNat = some s ∧ getFrameText d c k = .ok s

theorem Refines.lt_nFrames_iff (h : Refines d c L) (k : FrameKey) :
    (∃ m : TrajMeta F, c.trajMeta[k.trajId]? = some m ∧ k.frameIdx < m.nFrames) ↔
      k.frameIdx.toNat < L.count k.trajId := by
  have hcount := h.countOf k.trajId
  constructor
  · rintro ⟨m, hm, hlt⟩
    rw [← hcount, hm]
    exact UInt32.lt_iff_toNat_lt.mp hlt
  · intro hlt
    cases hm : c.trajMeta[k.trajId]? with
    | none =>
      rw [hm] at hcount
      simp only [ReadconDb.countOf, Option.map_none, Option.getD_none, UInt32.toNat_zero] at hcount
      omega
    | some m =>
      rw [hm] at hcount
      exact ⟨m, rfl, UInt32.lt_iff_toNat_lt.mpr (hcount ▸ hlt)⟩

theorem Refines.readsBack (h : Refines d c L) : ReadsBack d c L where
  keys b := by
    constructor
    · intro hb
      obtain ⟨k, s, rfl, hs⟩ := h.readable.decodes b hb
      rw [h.text] at hs
      obtain ⟨m, hm, hlt⟩ := (h.lt_nFrames_iff k).mpr (Ledger.entry_isSome_iff.mp ⟨s, hs⟩)
      exact ⟨k, m, rfl, hm, hlt⟩
    · rintro ⟨k, m, rfl, hm, hlt⟩
      obtain ⟨s, hs⟩ := Ledger.entry_isSome_iff.mpr ((h.lt_nFrames_iff k).mp ⟨m, hm, hlt⟩)
      rw [← h.text] at hs
      exact (rowOf_isSome_iff h.readable).mpr ⟨s, hs⟩
  text k m hm hlt := by
    obtain ⟨s, hs⟩ := Ledger.entry_isSome_iff.mpr ((h.lt_nFrames_iff k).mp ⟨m, hm, hlt⟩)
    refine ⟨s, hs, ?_⟩
    rw [← h.text] at hs
    exact toOption_eq_some.mp hs

theorem frames_read_back (hz : ZstdLossless d) (h : Reached d (fun _ _ L => Bounded L) c L) :
    ReadsBack d c L := (reached_sound hz (fun _ _ _ hb => hb) h).refines.readsBack

def tinyAppend : Op Bits := .appendStr 0 (hydrogen.2 ++ helium.2) "tiny.con"

theorem tinyAppend_fits (c : ConCorpus Bits) : tinyAppend.Fits tiny c := by
  have hparse : tiny.conFrames (hydrogen.2 ++ helium.2) = [.ok hydrogen, .ok helium] := by
    rw [tiny, Catalog.conFrames_append hydrogen_mem hydrogen_endsLine, Catalog.conFrames_last helium_mem]
  show (tiny.conFrames (hydrogen.2 ++ helium.2)).length < 2 ^ 32
  rw [hparse]
  decide

def tinyUnits : Op Bits := .setUnits 0 (.object [("length", .string "nm")])

def tinyNext (op : Op Bits) (s : ConCorpus Bits × Texts) : ConCorpus Bits × Texts :=
  ((op.exec tiny .granted s.1).2, op.assign tiny (op.exec tiny .granted s.1).1 s.2)

theorem tinyNext_reached {allow : ConCorpus Bits → Op Bits → Texts → Prop} {s : ConCorpus Bits × Texts}
    (h : Reached tiny allow s.1 s.2) {op : Op Bits} (ha : allow s.1 op (tinyNext op s).2) :
    Reached tiny allow (tinyNext op s).1 (tinyNext op s).2 := .step op .granted h ha

def tinyEmpty : ConCorpus Bits × Texts := (ConCorpus.empty Bits, Ledger.blank)

def tinyStore : ConCorpus Bits × Texts := tinyNext tinyUnits (tinyNext tinyAppend tinyEmpty)

theorem tinyStore_reached : Reached tiny (fun c op _ => op.Exact tiny ∧ op.Fits tiny c)
    tinyStore.1 tinyStore.2 :=
  tinyNext_reached (tinyNext_reached (s := tinyEmpty) .empty ⟨trivial, tinyAppend_fits _⟩) ⟨trivial, trivial⟩

theorem tiny_frames_read_back : ReadsBack tiny tinyStore.1 tinyStore.2 :=
  frames_read_back tiny_lossless
    ((reached_bounded tiny_lossless (fun _ _ _ ha => ha.2) tinyStore_reached).mono fun _ _ _ ha => ha.2)

end ReadBack

section Screening

variable {F : Type} [Float64 F] {d : Crates F} {c : ConCorpus F} {L : Texts}

theorem topo_call {A P : Type} {size : A → Nat} {plan : Result P} {refused : Option Error}
    {commit : P → ConCorpus F → Result (A × ConCorpus F)} {Q : ConCorpus F → Prop} (h : Q c)
    (hok : ∀ p r next, commit p c = .ok (r, next) → Q next) :
    Q (counted size (call plan refused commit c)).2 :=
  counted_ind (Q := fun out => Q out.2) (fun _ => h) fun p r next _ hc => hok p r next hc

-- No call of these runs annotates a frame, so there is no topology posting for `reindex` to clear.
def Unannotated (c : ConCorpus F) : Prop := c.idxTopo = some ∅ ∧ c.topoByFrame = some ∅

theorem Unannotated.commitPrepared (h : Unannotated c) {t : UInt64} {source : String}
    {ps : List PreparedIndexPuts} {r : UInt32} {next : ConCorpus F}
    (hc : ReadconDb.commitPrepared d t source false ps c = .ok (r, next)) : Unannotated next := by
  obtain ⟨_, _, m, _, rfl⟩ := commitPrepared_ok hc
  simpa [Unannotated, restamp] using h

theorem Unannotated.commitExtend (h : Unannotated c) {t : UInt64} {hint : String}
    {prior : Option (TrajMeta F)} {ps : List PreparedIndexPuts} {r : UInt32} {next : ConCorpus F}
    (hc : ReadconDb.commitExtend d t hint prior ps c = .ok (r, next)) : Unannotated next := by
  obtain ⟨_, _, m, _, rfl⟩ := commitExtend_ok hc
  simpa [Unannotated, restamp] using h

theorem Unannotated.commitUnits (h : Unannotated c) {plan : UnitsPlan} {r : UInt32} {next : ConCorpus F}
    (hc : ReadconDb.commitUnits plan c = .ok (r, next)) : Unannotated next := by
  rw [(commitUnits_ok hc).2]
  simpa [Unannotated, clearedUnits, repointFrameByHash] using h

theorem Unannotated.reindexCommit (h : Unannotated c) {recorded : Option (TopologyParams F)} {r : UInt32}
    {next : ConCorpus F} (hc : ReadconDb.reindexCommit d recorded c = .ok (r, next)) : Unannotated next := by
  obtain ⟨mid, hm, hc⟩ := bind_eq_ok.mp hc
  obtain ⟨last, hl, hc⟩ := bind_eq_ok.mp hc
  rw [pure_eq_ok, Prod.mk.injEq] at hc
  obtain ⟨_, rfl⟩ := hc
  obtain ⟨rs, _, rfl⟩ := foldlM_reindexFrame_eq_ok.mp hm
  have hmid : Unannotated (rs.foldl (reindexPut d) (clearTopo (clearSecondary c))) := by
    simp [Unannotated, clearTopo, clearSecondary, h.1, h.2]
  rw [rebuildIfRecorded] at hl
  split at hl
  · rw [rebuildIdxTopoFromStored, requireTopoDbs, hmid.1, hmid.2] at hl
    have hnil : (∅ : Table Bytes).toList = [] := Std.ExtTreeMap.toList_eq_nil_iff.mpr rfl
    simp only [bind, Except.bind, hnil, List.foldlM_nil, pure, Except.pure, Except.ok.injEq] at hl
    rw [← hl]
    exact ⟨rfl, rfl⟩
  · exact Except.ok.inj hl ▸ hmid

theorem Unannotated.step (h : Unannotated c) (op : Op F) (v : Verdicts) : Unannotated (op.exec d v c).2 := by
  have hrepack (s : ConCorpus F) (hs : Unannotated s) (refused : Option Error) (t : UInt64) :
      Unannotated (repackTraj d refused s s t).2 :=
    call_preserves (I := Unannotated) hs fun _ _ _ _ hc => (repackCommit_ok hc).2 ▸ hs
  have hcook (s : ConCorpus F) (hs : Unannotated s) (refused : Option Error) (key : FrameKey) :
      Unannotated (cookFrame d refused s s key).2 :=
    call_preserves (I := Unannotated) hs fun _ _ _ _ hc => (cookCommit_ok hc).2 ▸ hs
  cases op with
  | appendStr t contents source => exact topo_call h fun _ _ _ hc => h.commitPrepared hc
  | appendFrames t frames source fmt => exact topo_call h fun _ _ _ hc => h.commitPrepared hc
  | extendFrames t frames hint => exact topo_call h fun _ _ _ hc => h.commitExtend hc
  | setUnits t units => exact topo_call h fun _ _ _ hc => h.commitUnits hc
  | migrate => exact each_preserves (I := Unannotated) (fun t s hs => hrepack s hs (v.traj t) t) 0 _ h
  | reindex => exact topo_call h fun _ _ _ hc => h.reindexCommit hc
  | cook key => exact hcook c h v.txn key
  | recook => exact each_preserves (I := Unannotated) (fun key s hs => hcook s hs (v.frame key) key) 0 _ h
  | deleteCooked key =>
    rcases deleteCookedSoa_cases v.txn c key with he | he
    · exact he.symm ▸ h
    · exact he.symm ▸ h
  | setCompress compress => exact h

theorem reached_unannotated {allow : ConCorpus F → Op F → Texts → Prop} (h : Reached d allow c L) :
    Unannotated c := by
  induction h with
  | empty => exact ⟨rfl, rfl⟩
  | step op v _ _ ih => exact ih.step op v

structure SameButNames (a b : ConCorpus F) : Prop where
  compress : a.compressFrames = b.compressFrames
  frames : a.frames = b.frames
  trajMeta : a.trajMeta = b.trajMeta
  idx : a.idx = b.idx
  hashByFrame : a.hashByFrame = b.hashByFrame
  framesSoa : a.framesSoa = b.framesSoa
  idxTopo : a.idxTopo = b.idxTopo
  topoByFrame : a.topoByFrame = b.topoByFrame
  posted : ∀ h, h ∈ a.frameByHash ↔ h ∈ b.frameByHash
  names : ∀ h b : Bytes, a.frameByHash[h]? = some b → a.hashByFrame[b]? = some h

theorem HashExact.posted_iff (h : HashExact d c) (v : Bytes) :
    v ∈ c.frameByHash ↔ ∃ b : Bytes, c.hashByFrame[b]? = some v := by
  constructor
  · intro hv
    obtain ⟨b, hb⟩ := (mem_iff_get _ _).mp hv
    exact ⟨b, (h.linked v).names b hb⟩
  · rintro ⟨b, hb⟩
    exact (h.linked v).posted b hb

theorem reindexCommit_idx (hp : ProjectionAgrees d) (hi : IndexExact d c) {recorded : Option (TopologyParams F)}
    {r : UInt32} {next : ConCorpus F} (hc : reindexCommit d recorded c = .ok (r, next)) : next.idx = c.idx := by
  funext i
  refine ext_unit fun b => ?_
  rw [indexExact_reindexCommit hp hc i b, hi i b]
  simp only [textAt_of_frames_eq (d := d) (reindexCommit_frames hc)]

theorem reindexCommit_same (hp : ProjectionAgrees d) (hh : HashExact d c) (hi : IndexExact d c)
    (hu : Unannotated c) {recorded : Option (TopologyParams F)} {r : UInt32} {next : ConCorpus F}
    (hc : reindexCommit d recorded c = .ok (r, next)) : SameButNames next c := by
  have hview (k : FrameKey) := textAt_of_frames_eq (d := d) (reindexCommit_frames hc) k
  have hh' := hashExact_reindexCommit hc
  have hu' := hu.reindexCommit hc
  have hhash : next.hashByFrame = c.hashByFrame := by
    refine Std.ExtTreeMap.ext_getElem? fun b => Option.ext fun v => ?_
    rw [hh'.rows, hh.rows]
    simp only [hview]
  obtain ⟨rs, _, _, hcore⟩ := reindexCommit_ok hc
  exact
    { compress := by rw [hcore.compress, reindexed_compress]; rfl
      frames := reindexCommit_frames hc
      trajMeta := reindexCommit_trajMeta hc
      idx := reindexCommit_idx hp hi hc
      hashByFrame := hhash
      framesSoa := reindexCommit_framesSoa hc
      idxTopo := by rw [hu'.1, hu.1]
      topoByFrame := by rw [hu'.2, hu.2]
      posted := fun v => by rw [hh'.posted_iff, hh.posted_iff, hhash]
      names := fun v b hb => (hh'.linked v).names b hb }

theorem SameButNames.refl (hh : HashExact d c) : SameButNames c c :=
  ⟨rfl, rfl, rfl, rfl, rfl, rfl, rfl, rfl, fun _ => Iff.rfl, fun v b hb => (hh.linked v).names b hb⟩

theorem screening_exact (hz : ZstdLossless d) (hw : RoundTrips d) (hs : SpansReparse d)
    (hp : ProjectionAgrees d) (h : Reached d (fun c op _ => op.Exact d ∧ op.Fits d c) c L)
    (refused : Option Error) :
    IndexExact d c ∧ SameButNames (reindex d refused c c).2 c := by
  have hb := reached_bounded hz (fun _ _ _ ha => ha.2) h
  have hsound := reached_sound hz (fun _ _ _ ha => ha.2) hb
  have hi := reached_screens hz hw hs hp (fun _ _ _ ha => ⟨ha.1.1, ha.2⟩) hb
  refine ⟨hi, call_preserves (I := fun s => SameButNames s c) (.refl hsound.hash) ?_⟩
  exact fun _ _ _ _ hc => reindexCommit_same hp hsound.hash hi (reached_unannotated h) hc

theorem tiny_screening_exact :
    IndexExact tiny tinyStore.1 ∧ SameButNames (reindex tiny none tinyStore.1 tinyStore.1).2 tinyStore.1 :=
  screening_exact tiny_lossless tiny_roundTrips tiny_spansReparse tiny_agrees tinyStore_reached none

theorem tiny_spans {es : List (Entry Bits)} (he : ∀ e ∈ es, e = hydrogen ∨ e = helium) :
    spans tiny (String.join (es.map Prod.snd)) = es.map Except.ok := by
  have hall : ∀ e ∈ es, e ∈ tinyCatalog.entries ∧ e.EndsLine := by
    intro e hm
    rcases he e hm with rfl | rfl
    · exact ⟨hydrogen_mem, hydrogen_endsLine⟩
    · exact ⟨helium_mem, helium_endsLine⟩
  rw [spans, tiny, Catalog.conFrames_entries hall, List.map_map]
  rfl

theorem tiny_symbols : (Index.idxSymbol, symbolKey "H" ⟨0, 0⟩) ∈ frameRows tiny ⟨0, 0⟩ hydrogen.1 ∧
    (Index.idxSymbol, symbolKey "H" ⟨0, 0⟩) ∉ frameRows tiny ⟨0, 0⟩ helium.1 := by
  rw [frameRows, frameRows, mem_rows, mem_rows]
  decide +kernel

theorem tiny_parsed_helium : parsed tiny helium.2 = some helium.1 :=
  Catalog.parsed_entry helium_mem

-- One file of `2 ^ 32 + 1` frames: the last falls on the first and leaves its rows behind.
theorem tiny_screening_stale : ∃ c L, Reached tiny (fun _ op _ => op.Exact tiny) c L ∧ ¬ IndexExact tiny c := by
  obtain ⟨n, hn⟩ : ∃ n, UInt32.ofNat (n + 1) = 0 := ⟨2 ^ 32 - 1, by decide⟩
  have hes : ∀ e ∈ hydrogen :: (List.replicate n helium ++ [helium]), e = hydrogen ∨ e = helium := by
    intro e he
    simp only [List.mem_cons, List.mem_append, List.mem_replicate, List.not_mem_nil, or_false] at he
    tauto
  have hc : (setCompressFrames (ConCorpus.empty Bits) false).trajMeta[(0 : UInt64)]? = none := by
    simp [setCompressFrames, ConCorpus.empty]
  obtain ⟨m, _, hexec⟩ := appendStr_raw rfl hc (tiny_spans hes) "tiny.con"
  have hstart : Reached tiny (fun _ op _ => op.Exact tiny)
      (setCompressFrames (ConCorpus.empty Bits) false) Ledger.blank :=
    .step (.setCompress false) .granted .empty trivial
  have hrun := Reached.step (.appendStr 0 (String.join
    ((hydrogen :: (List.replicate n helium ++ [helium])).map Prod.snd)) "tiny.con") .granted hstart trivial
  rw [hexec, framed_wrap 0 hydrogen helium hn, List.map_cons, List.map_append, List.map_singleton] at hrun
  refine ⟨_, _, hrun, overwritten_stale tiny_lossless tiny_symbols.1 (fun f hf => ?_) m⟩
  rw [tiny_parsed_helium, Option.some.injEq] at hf
  exact hf ▸ tiny_symbols.2

end Screening

section Hashes

variable {F : Type} [Float64 F] {d : Crates F} {c : ConCorpus F} {L : Texts}

structure HashTablesCoherent (d : Crates F) (c : ConCorpus F) : Prop where
  domain : ∀ b, b ∈ c.hashByFrame ↔ b ∈ c.frames
  current : ∀ b ∈ c.frames, ∃ (k : FrameKey) (s : String), b = k.toBytes.val ∧ getFrameText d c k = .ok s ∧
    c.hashByFrame[b]? = some (hashFrameBytes d (utf8 s)).val
  postings : ∀ h, h ∈ c.frameByHash ↔ ∃ b : Bytes, c.hashByFrame[b]? = some h
  names : ∀ h b : Bytes, c.frameByHash[h]? = some b → c.hashByFrame[b]? = some h

theorem HashExact.coherent (h : HashExact d c) (hr : Readable d c) : HashTablesCoherent d c where
  domain b := by
    constructor
    · intro hb
      obtain ⟨v, hv⟩ := (mem_iff_get _ _).mp hb
      obtain ⟨k, s, rfl, hs, _⟩ := (h.rows b v).mp hv
      exact (rowOf_isSome_iff hr).mpr ⟨s, hs⟩
    · intro hb
      obtain ⟨k, s, rfl, hs⟩ := hr.decodes b hb
      exact (mem_iff_get _ _).mpr ⟨_, (h.rows _ _).mpr ⟨k, s, rfl, hs, rfl⟩⟩
  current b hb := by
    obtain ⟨k, s, rfl, hs⟩ := hr.decodes b hb
    exact ⟨k, s, rfl, toOption_eq_some.mp hs, (h.rows _ _).mpr ⟨k, s, rfl, hs, rfl⟩⟩
  postings v := h.posted_iff v
  names v b hb := (h.linked v).names b hb

theorem hash_tables_coherent (hz : ZstdLossless d) (h : Reached d (fun c op _ => op.Fits d c) c L) :
    HashTablesCoherent d c := by
  have hb := reached_bounded hz (fun _ _ _ ha => ha) h
  have hsound := reached_sound hz (fun _ _ _ ha => ha.2) hb
  exact hsound.hash.coherent hsound.refines.readable

theorem tiny_hash_tables_coherent : HashTablesCoherent tiny tinyStore.1 :=
  hash_tables_coherent tiny_lossless (tinyStore_reached.mono fun _ _ _ ha => ha.2)

def Op.IsIngest : Op F → Prop
  | .appendStr _ _ _ | .appendFrames _ _ _ _ | .extendFrames _ _ _ => True
  | _ => False

theorem tiny_hashes_differ : (hashFrameBytes tiny (utf8 hydrogen.2)).val ≠
    (hashFrameBytes tiny (utf8 helium.2)).val := by decide +kernel

theorem tiny_hash_tables_torn : ∃ c L, Reached tiny (fun _ op _ => op.IsIngest) c L ∧
    ¬ HashTablesCoherent tiny c := by
  have hx : [hydrogen.1].map (serialize tiny tiny.defaultFormat) = [hydrogen].map Except.ok := by
    rw [List.map_singleton, serialize_hydrogen]
    rfl
  have hempty : (ConCorpus.empty Bits).trajMeta[(0 : UInt64)]? = none := by simp [ConCorpus.empty]
  obtain ⟨qs, m, hqs, hm, hexec⟩ := appendFrames_total (tiny_packs (by simp)) hempty hx "tiny.con"
  have hone : countOf ((Op.appendFrames 0 [hydrogen.1] "tiny.con" tiny.defaultFormat).exec tiny .granted
      (ConCorpus.empty Bits)).2.trajMeta[(0 : UInt64)]? = 1 := by
    rw [hexec, restamp, get_insert, if_pos rfl, countOf, Option.map_some, hm]
    rfl
  have hposted : ((Op.appendFrames 0 [hydrogen.1] "tiny.con" tiny.defaultFormat).exec tiny .granted
      (ConCorpus.empty Bits)).2.frameByHash[(hashFrameBytes tiny (utf8 hydrogen.2)).val]? =
        some (FrameKey.mk 0 0).toBytes.val := by
    rw [hexec]
    cases hqs with
    | @cons r p rs ps hp hrest =>
      have hpost := first_post_stays (c := ConCorpus.empty Bits) (p := p) ps (by simp [ConCorpus.empty])
      rw [hp.hash, fkBytes, hp.fk] at hpost
      exact hpost
  obtain ⟨c₁, c₂, rfl, rfl, _, hhash, hkept, _⟩ := tiny_overwrites hone _ rfl
  have hfirst : Reached tiny (fun _ op _ => op.IsIngest) _ _ := Reached.step
    (.appendFrames 0 [hydrogen.1] "tiny.con" tiny.defaultFormat) .granted .empty trivial
  have hsecond := hfirst.step (.extendFrames 0 (List.replicate (2 ^ 32 - 1) helium.1) "") .granted trivial
  have hthird := hsecond.step (.extendFrames 0 [helium.1] "") .granted trivial
  refine ⟨_, _, hthird, fun hc => tiny_hashes_differ ?_⟩
  have hnames := hc.names _ _ (hkept _ _ hposted)
  rw [hhash, Option.some.injEq] at hnames
  exact hnames.symm

end Hashes

end ReadconDb
