import ReadconDb.History

set_option linter.unusedSectionVars false

namespace ReadconDb

open ByteString Outcome OrderedTable TwoPhase

section Topology

variable {F : Type} [Float64 F] {d : Crates F} {c next : ConCorpus F}

-- A number that serde_json writes is read back as itself, which takes its feature `float_roundtrip`; what is no number
-- is written as `null`.
def JsonExact (d : Crates F) : Prop := ∀ x, d.jsonF64 x = if isFinite x then some x else none

def EqRefl (F : Type) [Float64 F] : Prop := ∀ x : F, isFinite x = true → Float64.eq x x = true

structure OneRecord (metas : Std.ExtTreeMap UInt64 (TrajMeta F) compare) (p : TopologyParams F) : Prop where
  finite : ∀ x, p.cutoff = some x → isFinite x = true
  same : ∀ (t : UInt64) (m : TrajMeta F), metas[t]? = some m → m.hasTopo = true → m.topoParams = p

structure TopoKept (c : ConCorpus F) : Prop where
  tables : ∃ idx byFrame, c.idxTopo = some idx ∧ c.topoByFrame = some byFrame ∧ TopoIndexed idx byFrame
  record : ∃ p, OneRecord c.trajMeta p
  stamped : c.topoByFrame = some ∅ ∨ ∃ (t : UInt64) (m : TrajMeta F), c.trajMeta[t]? = some m ∧ m.hasTopo = true

theorem topoKept_empty : TopoKept (ConCorpus.empty F) where
  tables := ⟨∅, ∅, rfl, rfl, topoIndexed_empty⟩
  record := ⟨⟨none, none, none, none⟩, by simp, fun t m hm => by simp [ConCorpus.empty] at hm⟩
  stamped := .inl rfl

section Metas

variable {m : TrajMeta F} {p : TopologyParams F} {metas : Std.ExtTreeMap UInt64 (TrajMeta F) compare}

theorem stored_cutoff (hj : JsonExact d) {x : F} (h : (m.stored d).topoCutoff = some x) : isFinite x = true := by
  obtain ⟨y, _, hy⟩ := Option.bind_eq_some_iff.mp h
  rw [hj] at hy
  split at hy
  · next hf => exact Option.some.inj hy ▸ hf
  · cases hy

theorem stored_params (hj : JsonExact d) (hf : ∀ x, m.topoCutoff = some x → isFinite x = true) :
    (m.stored d).topoParams = m.topoParams := by
  have hcut : m.topoCutoff.bind d.jsonF64 = m.topoCutoff := by
    cases h : m.topoCutoff with
    | none => rfl
    | some x => rw [Option.bind_some, hj, if_pos (hf x h)]
  rw [TrajMeta.stored, TrajMeta.topoParams, TrajMeta.topoParams, hcut]

theorem hasTopo_eq_false (h : m.hasTopo = false) : m.topoParams = ⟨none, none, none, none⟩ := by
  simpa [TrajMeta.hasTopo, TrajMeta.topoParams, TopologyParams.isEmpty, and_assoc] using h

theorem OneRecord.cutoff (h : OneRecord metas p) {t : UInt64} (hm : metas[t]? = some m) :
    ∀ x, m.topoCutoff = some x → isFinite x = true := by
  intro x hx
  cases ht : m.hasTopo with
  | true =>
    have hp := h.same t m hm ht
    exact h.finite x (by rw [← hp]; exact hx)
  | false =>
    have hnone := congrArg TopologyParams.cutoff (hasTopo_eq_false ht)
    rw [TrajMeta.topoParams, hx] at hnone
    cases hnone

-- An ingest writes back the parameters it found, or none.
theorem ingest_params (hj : JsonExact d) (h : OneRecord metas p) (t : UInt64) (source : String) (n : UInt32) :
    (TrajMeta.stored d { (metas[t]?).getD { source := source } with nFrames := n }).topoParams =
      ((metas[t]?).getD { source := source }).topoParams := by
  cases hm : metas[t]? with
  | none => rfl
  | some m =>
    have hf := h.cutoff hm
    exact stored_params (m := { m with nFrames := n }) hj hf

theorem OneRecord.ingest (hj : JsonExact d) (h : OneRecord metas p) (t : UInt64) (source : String) (n : UInt32) :
    OneRecord (metas.insert t (TrajMeta.stored d { (metas[t]?).getD { source := source } with nFrames := n })) p where
  finite := h.finite
  same u m hm ht := by
    rw [get_insert] at hm
    split at hm
    · next hu =>
      subst hu
      obtain rfl := Option.some.inj hm
      have hp := ingest_params hj h t source n
      rw [TrajMeta.hasTopo, hp] at ht
      rw [hp]
      cases hm' : metas[t]? with
      | none =>
        rw [hm'] at ht
        cases ht
      | some m' =>
        rw [hm'] at ht
        exact h.same t m' hm' ht
    · exact h.same u m hm ht

theorem ingest_keeps_stamp (hj : JsonExact d) (h : OneRecord metas p) (t : UInt64) (source : String) (n : UInt32)
    (hs : ∃ (u : UInt64) (m : TrajMeta F), metas[u]? = some m ∧ m.hasTopo = true) :
    ∃ (u : UInt64) (m : TrajMeta F), (metas.insert t
      (TrajMeta.stored d { (metas[t]?).getD { source := source } with nFrames := n }))[u]? = some m ∧
        m.hasTopo = true := by
  obtain ⟨u, m, hm, ht⟩ := hs
  by_cases hu : t = u
  · subst hu
    refine ⟨t, _, by rw [get_insert, if_pos rfl], ?_⟩
    rw [TrajMeta.hasTopo, ingest_params hj h, hm]
    exact ht
  · exact ⟨u, m, by rw [get_insert, if_neg hu, hm], ht⟩

def stampedParams (d : Crates F) (opts : AnnotateTopologyOpts F) (method : String) : TopologyParams F :=
  ⟨(some opts.cutoff).bind d.jsonF64, some opts.graph, some opts.hops, some method⟩

theorem stampMetas_params {opts : AnnotateTopologyOpts F} {method : String} (rows : List (UInt64 × TrajMeta F))
    {start : Std.ExtTreeMap UInt64 (TrajMeta F) compare} {t : UInt64}
    (h : (rows.foldl (stampMeta d opts method) start)[t]? = some m) :
    m.topoParams = stampedParams d opts method ∨ (t ∉ rows.map Prod.fst ∧ start[t]? = some m) := by
  induction rows generalizing start with
  | nil => exact .inr ⟨by simp, h⟩
  | cons row rows ih =>
    rcases ih h with hp | ⟨hno, hm⟩
    · exact .inl hp
    · rw [stampMeta, get_insert] at hm
      split at hm
      · exact .inl (Option.some.inj hm ▸ rfl)
      · next hne => exact .inr ⟨by simp [hno, Ne.symm hne], hm⟩

theorem stampMetas_mem {opts : AnnotateTopologyOpts F} {method : String} (rows : List (UInt64 × TrajMeta F))
    {start : Std.ExtTreeMap UInt64 (TrajMeta F) compare} {t : UInt64}
    (h : t ∈ start ∨ t ∈ rows.map Prod.fst) : ∃ m, (rows.foldl (stampMeta d opts method) start)[t]? = some m := by
  induction rows generalizing start with
  | nil =>
    obtain ⟨m, hm⟩ := (mem_iff_get _ _).mp (h.resolve_right (by simp))
    exact ⟨m, hm⟩
  | cons row rows ih =>
    refine ih ?_
    rw [stampMeta, mem_insert_iff]
    rw [List.map_cons, List.mem_cons] at h
    tauto

end Metas

theorem collectParams_agree {seen : Option (TopologyParams F)} {metas : List (UInt64 × TrajMeta F)}
    {p : TopologyParams F} (hp : p.agrees p = true) (hs : seen = none ∨ seen = some p)
    (h : ∀ row ∈ metas, row.2.hasTopo = true → row.2.topoParams = p) : ∃ r, collectParams seen metas = .ok r := by
  induction metas generalizing seen with
  | nil => exact ⟨seen, rfl⟩
  | cons row metas ih =>
    obtain ⟨t, m⟩ := row
    have hrest : ∀ row ∈ metas, row.2.hasTopo = true → row.2.topoParams = p := fun row hr => h row (by simp [hr])
    unfold collectParams
    by_cases ht : m.hasTopo = true
    · have hm := h (t, m) (by simp) ht
      rw [if_neg (by simp [ht])]
      rcases hs with rfl | rfl
      · rw [hm]
        exact ih (.inr rfl) hrest
      · simp only [hm, hp, if_true]
        exact ih (.inr rfl) hrest
    · rw [if_pos (by simp [ht])]
      exact ih hs hrest

theorem agrees_self (he : EqRefl F) {p : TopologyParams F} (hf : ∀ x, p.cutoff = some x → isFinite x = true) :
    p.agrees p = true := by
  have hc : TopologyParams.sameCutoff p.cutoff p.cutoff = true := by
    cases hx : p.cutoff with
    | none => rfl
    | some x => exact he x (hf x hx)
  simp [TopologyParams.agrees, hc]

theorem TopoKept.collected (h : TopoKept c) (he : EqRefl F) : ∃ r, collectedTopoParams c = .ok r := by
  obtain ⟨p, hp⟩ := h.record
  refine collectParams_agree (agrees_self he hp.finite) (.inl rfl) fun row hr => ?_
  exact hp.same row.1 row.2 (Std.ExtTreeMap.mem_toList_iff_getElem?_eq_some.mp hr)

theorem TopoIndexed.ext {idx idx' : Table Unit} {byFrame : Table Bytes} (h : TopoIndexed idx byFrame)
    (h' : TopoIndexed idx' byFrame) : idx' = idx :=
  ext_unit fun b => by rw [h.exact, h'.exact]

theorem TopoKept.reindex (h : TopoKept c) {recorded : Option (TopologyParams F)} {n : UInt32}
    (hp : collectedTopoParams c = .ok recorded) (hc : reindexCommit d recorded c = .ok (n, next)) :
    next.idxTopo = c.idxTopo ∧ next.topoByFrame = c.topoByFrame ∧ next.trajMeta = c.trajMeta := by
  obtain ⟨idx, byFrame, hi, hb, ht⟩ := h.tables
  have hrec : byFrame = ∅ ∨ recorded.isSome = true := by
    refine h.stamped.imp (fun he => ?_) fun ⟨t, m, hm, htopo⟩ => ?_
    · rwa [hb, Option.some.injEq] at he
    · exact collectParams_isSome hp (.inr ⟨(t, m), Std.ExtTreeMap.mem_toList_iff_getElem?_eq_some.mpr hm, htopo⟩)
  obtain ⟨idx', hi', hb', ht'⟩ := reindexCommit_topo hi hb ht hrec hc
  refine ⟨?_, by rw [hb', hb], reindexCommit_trajMeta hc⟩
  rw [hi', hi, ht.ext ht']

theorem TopoKept.of_eq (h : TopoKept c) (hi : next.idxTopo = c.idxTopo) (hb : next.topoByFrame = c.topoByFrame)
    (hm : next.trajMeta = c.trajMeta) : TopoKept next where
  tables := by rw [hi, hb]; exact h.tables
  record := by rw [hm]; exact h.record
  stamped := by rw [hb, hm]; exact h.stamped

def Rowed (c : ConCorpus F) (acc : Pending) : Prop :=
  ∀ e ∈ acc.2, ∃ m : TrajMeta F, c.trajMeta[e.1.trajId]? = some m ∧ e.1.frameIdx < m.nFrames

theorem Rowed.addRecord {t : UInt64} {m : TrajMeta F} {acc acc' : Pending} {row : FingerprintRecord × Nat}
    (h : Rowed c acc) (hm : c.trajMeta[t]? = some m) (hi : row.2 < m.nFrames.toNat)
    (ha : addRecord t acc row = .ok acc') : Rowed c acc' := by
  rw [ReadconDb.addRecord] at ha
  split at ha
  · cases ha
  · obtain rfl := Except.ok.inj ha
    intro e he
    rcases List.mem_append.mp he with he | he
    · exact h e he
    · rw [List.mem_singleton.mp he]
      refine ⟨m, hm, ?_⟩
      have hlt := m.nFrames.toNat_lt
      rw [UInt32.lt_iff_toNat_lt, UInt32.toNat_ofNat', Nat.mod_eq_of_lt (by omega)]
      exact hi

theorem Rowed.annotateTraj {seams : Seams F} {opts : AnnotateTopologyOpts F} {acc acc' : Pending}
    {row : UInt64 × TrajMeta F} (h : Rowed c acc) (hm : c.trajMeta[row.1]? = some row.2)
    (ha : annotateTraj d seams c opts acc row = .ok acc') : Rowed c acc' := by
  rw [ReadconDb.annotateTraj] at ha
  split at ha
  · exact Except.ok.inj ha ▸ h
  · obtain ⟨blob, _, ha⟩ := bind_eq_ok.mp ha
    obtain ⟨recs, hr, ha⟩ := bind_eq_ok.mp ha
    split at ha
    · cases ha
    · next hlen =>
      refine foldlM_preserves (I := Rowed c) (fun b x b' hx hb hf => hb.addRecord hm ?_ hf) h ha
      rw [← not_not.mp hlen]
      simpa using List.snd_lt_of_mem_zipIdx hx

theorem annotatePlan_rows {seams : Seams F} {opts : AnnotateTopologyOpts F} {plan : AnnotatePlan F}
    (h : annotatePlan d seams c opts = .ok (some plan)) :
    ∀ e ∈ plan.pending, ∃ m, c.trajMeta[e.1.trajId]? = some m ∧ e.1.frameIdx < m.nFrames := by
  obtain ⟨_, _, h⟩ := bind_eq_ok.mp h
  obtain ⟨_, _, h⟩ := bind_eq_ok.mp h
  obtain ⟨recorded, _, h⟩ := bind_eq_ok.mp h
  obtain ⟨_, _, h⟩ := bind_eq_ok.mp h
  obtain ⟨⟨runMethod, pending⟩, hp, h⟩ := bind_eq_ok.mp h
  obtain ⟨_, _, h⟩ := bind_eq_ok.mp h
  rw [pure_eq_ok] at h
  obtain ⟨method, _, rfl⟩ := Option.map_eq_some_iff.mp h
  have hnone : Rowed c (none, []) := by simp [Rowed]
  refine foldlM_preserves (I := Rowed c) (fun _ row _ hrow hb hf => hb.annotateTraj ?_ hf) hnone hp
  exact Std.ExtTreeMap.mem_toList_iff_getElem?_eq_some.mp hrow

theorem TopoKept.annotate (hj : JsonExact d) (h : TopoKept c) {seams : Seams F} {opts : AnnotateTopologyOpts F}
    {plan : AnnotatePlan F} {n : UInt32} (hp : annotatePlan d seams c opts = .ok (some plan))
    (hc : annotateCommit d opts (some plan) c = .ok (n, next)) : TopoKept next := by
  obtain ⟨hmetas, hhex⟩ := annotatePlan_ok hp
  have hrows := annotatePlan_rows hp
  obtain ⟨idx, byFrame, idx', byFrame', hi, hb, hfold, rfl⟩ := annotateCommit_ok hc
  obtain ⟨_, _, hi', hb', ht⟩ := h.tables
  rw [hi, Option.some.injEq] at hi'
  rw [hb, Option.some.injEq] at hb'
  subst hi' hb'
  have hmem (t : UInt64) : t ∈ plan.metas.map Prod.fst ↔ t ∈ c.trajMeta := by
    rw [hmetas]
    exact key_mem_toList
  have hparams (t : UInt64) (m : TrajMeta F)
      (hm : (plan.metas.foldl (stampMeta d opts plan.method) c.trajMeta)[t]? = some m) :
      m.topoParams = stampedParams d opts plan.method := by
    refine (stampMetas_params plan.metas hm).resolve_right fun ⟨hno, hold⟩ => hno ?_
    exact (hmem t).mpr ((mem_iff_get _ _).mpr ⟨m, hold⟩)
  have hdone : TopoIndexed idx' byFrame' :=
    foldlM_preserves (I := fun tables : Table Unit × Table Bytes => TopoIndexed tables.1 tables.2)
      (fun tables e tables' he hb hf => hb.put (hhex e he) hf) ht hfold
  have hsome (hne : ∃ t : UInt64, t ∈ c.trajMeta) : ∃ (t : UInt64) (m : TrajMeta F),
      (plan.metas.foldl (stampMeta d opts plan.method) c.trajMeta)[t]? = some m ∧ m.hasTopo = true := by
    obtain ⟨t, ht⟩ := hne
    obtain ⟨m, hm⟩ : ∃ m, (plan.metas.foldl (stampMeta d opts plan.method) c.trajMeta)[t]? = some m :=
      stampMetas_mem plan.metas (.inl ht)
    refine ⟨t, m, hm, ?_⟩
    rw [TrajMeta.hasTopo, hparams t m hm]
    simp [stampedParams, TopologyParams.isEmpty]
  refine ⟨⟨idx', byFrame', rfl, rfl, hdone⟩, ⟨stampedParams d opts plan.method, ?_, fun t m hm _ => hparams t m hm⟩, ?_⟩
  · intro x hx
    exact stored_cutoff (m := { topoCutoff := some opts.cutoff }) hj hx
  · rcases h.stamped with hempty | ⟨t, m, hm, _⟩
    · cases hpend : plan.pending with
      | nil =>
        rw [hpend] at hfold
        obtain ⟨rfl, rfl⟩ := Prod.mk.inj (pure_eq_ok.mp hfold)
        exact .inl (hb ▸ hempty)
      | cons e rest =>
        obtain ⟨m, hm, _⟩ := hrows e (by simp [hpend])
        exact .inr (hsome ⟨_, (mem_iff_get _ _).mpr ⟨m, hm⟩⟩)
    · exact .inr (hsome ⟨t, (mem_iff_get _ _).mpr ⟨m, hm⟩⟩)

theorem TopoKept.change (hj : JsonExact d) (h : TopoKept c) (hc : Change d c next) : TopoKept next := by
  cases hc with
  | @ingest t source xs ps hd =>
    obtain ⟨p, hp⟩ := h.record
    exact
      { tables := by simpa [restamp] using h.tables
        record := ⟨p, by simpa [restamp] using hp.ingest hj t source _⟩
        stamped := by
          refine h.stamped.imp (fun he => by simpa [restamp] using he) fun hs => ?_
          simpa only [restamp, puts_trajMeta] using ingest_keeps_stamp hj hp t source _ hs }
  | units hu =>
    refine h.of_eq ?_ ?_ ?_
    · rw [puts_idxTopo]
      exact deletes_idxTopo _ _
    · rw [puts_topoByFrame]
      exact deletes_topoByFrame _ _
    · rw [puts_trajMeta]
      exact deletes_trajMeta _ _
  | repack hr => exact h.of_eq rfl rfl rfl
  | reindex hp hn =>
    obtain ⟨hi, hb, hm⟩ := h.reindex hp hn
    exact h.of_eq hi hb hm
  | cook hp => exact h.of_eq rfl rfl rfl
  | dropCooked key => exact h.of_eq rfl rfl rfl
  | compress b => exact h.of_eq rfl rfl rfl
  | annotate hp hn => exact h.annotate hj hp hn

theorem History.topoKept {allow : ConCorpus F → Action F → Prop} (hz : ZstdLossless d) (hj : JsonExact d)
    (h : History d allow c) : TopoKept c :=
  h.preserves hz topoKept_empty fun _ _ hs hc => hs.change hj hc

structure TopologyConsistent (d : Crates F) (c : ConCorpus F) : Prop where
  inverse : ∃ idx byFrame, c.idxTopo = some idx ∧ c.topoByFrame = some byFrame ∧
    (∀ b v : Bytes, byFrame[b]? = some v → ∃ (k : FrameKey) (hex : String), b = k.toBytes.val ∧ v = utf8 hex) ∧
    ∀ b, b ∈ idx ↔ ∃ (k : FrameKey) (hex : String), byFrame[k.toBytes.val]? = some (utf8 hex) ∧ b = topoKey hex k
  unmixed : ∀ (t u : UInt64) (m n : TrajMeta F), c.trajMeta[t]? = some m → c.trajMeta[u]? = some n →
    m.hasTopo = true → n.hasTopo = true → m.topoParams = n.topoParams
  agreed : ∃ recorded, collectedTopoParams c = .ok recorded
  reindexed : ∀ refused : Option Error, (reindex d refused c c).2.idxTopo = c.idxTopo
  refused : ∀ (seams : Seams F) (opts : AnnotateTopologyOpts F) (refused : Option Error) (e : Error),
    (annotateTopology d seams refused c c opts).1 = .error e → (annotateTopology d seams refused c c opts).2 = c

theorem TopoKept.consistent (h : TopoKept c) (he : EqRefl F) : TopologyConsistent d c where
  inverse := by
    obtain ⟨idx, byFrame, hi, hb, ht⟩ := h.tables
    refine ⟨idx, byFrame, hi, hb, fun b v hv => ?_, ht.exact⟩
    obtain ⟨k, hex, hk, hv, _⟩ := ht.recorded b v hv
    exact ⟨k, hex, hk, hv⟩
  unmixed t u m n hm hn htm htn := by
    obtain ⟨p, hp⟩ := h.record
    rw [hp.same t m hm htm, hp.same u n hn htn]
  agreed := h.collected he
  reindexed refused :=
    call_preserves (I := fun s : ConCorpus F => s.idxTopo = c.idxTopo) rfl fun _ _ _ hp hc => (h.reindex hp hc).1
  refused seams opts refused e herr := by
    rcases call_cases (annotatePlan d seams c opts) refused (annotateCommit d opts) c with
      ⟨e', he'⟩ | ⟨p, r, next, _, _, _, hok⟩
    · rw [annotateTopology, he']
    · rw [annotateTopology, hok] at herr
      cases herr

theorem topology_consistent (hz : ZstdLossless d) (hj : JsonExact d) (he : EqRefl F) (h : History d AnyCall c) :
    TopologyConsistent d c := (h.topoKept hz hj).consistent he

end Topology

section Tiny

theorem tiny_json : JsonExact tiny := fun _ => rfl

theorem bits_eqRefl : EqRefl Bits := fun _ _ => decide_eq_true rfl

def tinyAction (a : Action Bits) (c : ConCorpus Bits) : ConCorpus Bits := (a.exec tiny .granted c).2

theorem tinyAction_history {allow : ConCorpus Bits → Action Bits → Prop} {c : ConCorpus Bits}
    (h : History tiny allow c) {a : Action Bits} (ha : allow c a) : History tiny allow (tinyAction a c) :=
  .step a .granted h ha

-- A frame is annotated, the trajectory extended, and another one added.
def tinyAnnotated : ConCorpus Bits :=
  [.store (.appendStr 0 hydrogen.2 "tiny.con"), .annotate tinySeams { cutoff := .one },
    .store (.extendFrames 0 [helium.1] ""), .store (.appendStr 1 helium.2 "tiny.con")].foldl
      (fun c a => tinyAction a c) (ConCorpus.empty Bits)

theorem tinyAnnotated_history : History tiny AnyCall tinyAnnotated :=
  tinyAction_history (tinyAction_history (tinyAction_history (tinyAction_history .empty trivial) trivial) trivial)
    trivial

theorem tiny_topology_consistent : TopologyConsistent tiny tinyAnnotated :=
  topology_consistent tiny_lossless tiny_json bits_eqRefl tinyAnnotated_history

end Tiny

end ReadconDb
