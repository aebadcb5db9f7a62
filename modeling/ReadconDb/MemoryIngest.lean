import ReadconDb.Predicates
import ReadconDb.Rooted
import ReadconDb.Store

set_option linter.unusedSectionVars false

namespace ReadconDb

open ByteString Outcome OrderedTable TwoPhase

section Ingest

variable {F : Type} [Float64 F] {d : Crates F} {c next : ConCorpus F} {L : Texts} {f : ConFrame F}

-- An earlier call that names a float format of its own keeps what is indexed of its frames.
def Action.Reads (d : Crates F) : Action F → Prop
  | .store op => op.Reads d
  | _ => True

theorem default_reads (hw : RoundTrips d) (hd : d.defaultFormat = .roundTrip) {x : ConFrame F × String}
    (hx : serialize d d.defaultFormat f = .ok x) : ReadsAs d x := .of_parsed (parsed_serialize hw (hd ▸ hx))

theorem IndexExact.op (hz : ZstdLossless d) (hw : RoundTrips d) (hs : SpansReparse d) (hp : ProjectionAgrees d)
    (h : Sound d c L) (hi : IndexExact d c) {op : Op F} (hf : op.Fits d c) (hr : op.Reads d) (v : Verdicts) :
    IndexExact d (op.exec d v c).2 :=
  screens_step hz hw hs hp h hi op hr v (bounded_assign h hf _)

theorem IndexExact.annotate (hi : IndexExact d c) {seams : Seams F} {opts : AnnotateTopologyOpts F}
    (refused : Option Error) : IndexExact d (annotateTopology d seams refused c c opts).2 := by
  refine call_preserves (I := fun s => IndexExact d s) hi fun plan n next hp hc => ?_
  cases plan with
  | none =>
    obtain ⟨_, rfl⟩ := Prod.mk.inj (Except.ok.inj hc)
    exact hi
  | some plan =>
    obtain ⟨idx, byFrame, idx', byFrame', _, _, _, rfl⟩ := annotateCommit_ok hc
    exact hi.of_view (fun k => textAt_of_frames_eq rfl k) rfl

theorem History.indexExact (hz : ZstdLossless d) (hw : RoundTrips d) (hd : d.defaultFormat = .roundTrip)
    (hs : SpansReparse d) (hp : ProjectionAgrees d) (h : History d (fun c a => a.Fits d c ∧ a.Reads d) c) :
    IndexExact d c := by
  induction h with
  | empty => exact indexExact_empty
  | @step c a v hc ha ih =>
    obtain ⟨L, hL⟩ := (hc.mono fun _ _ ha => ha.1).sound hz
    cases a with
    | store op => exact ih.op hz hw hs hp hL ha.1 ha.2 v
    | appendPath t file units =>
      rcases append_path_op v ha.1 with he | ⟨op, hop, hf, he⟩
      · exact he.symm ▸ ih
      · rw [he]
        refine ih.op hz hw hs hp hL hf ?_ v
        cases hop with
        | text ht => exact trivial
        | frames hu hfr => exact fun f _ x hx => default_reads hw hd hx
    | extendPath t file units =>
      rcases extend_path_op v ha.1 with he | ⟨frames, hfr, hf, he⟩
      · exact he.symm ▸ ih
      · rw [he]
        exact ih.op hz hw hs hp hL hf (fun f _ x hx => default_reads hw hd hx) v
    | annotate seams opts => exact ih.annotate v.txn

-- The secondary keys of each frame stored since `c` are those that `reindex` derives from its text.
def KeysStored (d : Crates F) (c next : ConCorpus F) : Prop :=
  ∀ k : FrameKey, k.toBytes.val ∈ next.frames → k.toBytes.val ∉ c.frames →
    ∃ s g, textAt d next k = some s ∧ parsed d s = some g ∧
      ∀ i b, LaidFor k i b → (b ∈ next.idx i ↔ (i, b) ∈ reindexRows d k g)

structure IndexesStored (d : Crates F) (c next : ConCorpus F) : Prop where
  keys : KeysStored d c next
  reindexed : ∀ refused, (reindex d refused next next).2.idx = next.idx
  units : ∀ t units refused i, ∀ b ∈ (setTrajectoryUnits d refused next next t units).2.idx i,
    ∃ k s g, textAt d (setTrajectoryUnits d refused next next t units).2 k = some s ∧ parsed d s = some g ∧
      (i, b) ∈ reindexRows d k g

inductive FromMemory (d : Crates F) (frames : List (ConFrame F)) : Op F → Prop where
  | append (t : UInt64) (source : String) : FromMemory d frames (.appendFrames t frames source d.defaultFormat)
  | extend (t : UInt64) (hint : String) : FromMemory d frames (.extendFrames t frames hint)

section Committed

variable {t : UInt64} {xs : List (ConFrame F × String)} {ps : List PreparedIndexPuts} {m : TrajMeta F}

-- What a successful ingest from memory made of the tables.
structure Committed (d : Crates F) (c : ConCorpus F) (t : UInt64) (xs : List (ConFrame F × String))
    (ps : List PreparedIndexPuts) (m : TrajMeta F) : Prop where
  prepared : Prepared d (framed t (countOf c.trajMeta[t]?) xs) ps
  count : m.nFrames = countOf c.trajMeta[t]? + UInt32.ofNat xs.length
  fits : (countOf c.trajMeta[t]?).toNat + xs.length < 2 ^ 32

theorem Committed.fresh (hc : Committed d c t xs ps m) (hS : Sound d c L) :
    ∀ r ∈ framed t (countOf c.trajMeta[t]?) xs, rowOf c r.1 = none :=
  hS.refines.fresh (hS.refines.countOf t) hc.fits.le

theorem Committed.stored (hc : Committed d c t xs ps m) {k : FrameKey} :
    k.toBytes.val ∈ (restamp (ps.foldl putIndexPuts c) t m).frames ↔
      k.toBytes.val ∈ c.frames ∨ ∃ r ∈ framed t (countOf c.trajMeta[t]?) xs, r.1 = k := by
  refine mem_puts_frames.trans (or_congr_right ?_)
  constructor
  · rintro ⟨p, hp, he⟩
    obtain ⟨r, hr, hpr⟩ := derived_mem_right hc.prepared.derived hp
    exact ⟨r, hr, hpr.fk.symm.trans (FrameKey.toBytes_inj.mp he)⟩
  · rintro ⟨r, hr, rfl⟩
    obtain ⟨p, hp, hpr⟩ := derived_mem hc.prepared.derived hr
    exact ⟨p, hp, by rw [fkBytes, hpr.fk]⟩

theorem Committed.row (hc : Committed d c t xs ps m) (hS : Sound d c L) (hR : Rooted c) {r : FrameRow F}
    (hr : r ∈ framed t (countOf c.trajMeta[t]?) xs) {i : Index} {b : Bytes} (hl : LaidFor r.1 i b) :
    b ∈ (restamp (ps.foldl putIndexPuts c) t m).idx i ↔ (i, b) ∈ frameRows d r.1 r.2.1 := by
  refine (mem_puts_idx c ps i b).trans ?_
  constructor
  · rintro (hb | ⟨p, hp, hb⟩)
    · obtain ⟨k, hk, hkl⟩ := hR.indexed i b hb
      obtain ⟨row, hrow⟩ := (mem_iff_get _ _).mp hk
      have hnone := hc.fresh hS r hr
      rw [← hkl.inj hl] at hnone
      rw [rowOf, hrow] at hnone
      cases hnone
    · obtain ⟨q, hq, hpr⟩ := derived_mem_right hc.prepared.derived hp
      rw [hpr.rows_eq] at hb
      have hk : q.1 = r.1 := (screeningKeys_laid ((mem_rows _ _ _).mp hb)).inj hl
      exact List.inj_on_of_nodup_map (framed_nodup hc.fits.le) hq hr hk ▸ hb
  · intro hb
    obtain ⟨p, hp, hpr⟩ := derived_mem hc.prepared.derived hr
    exact .inr ⟨p, hp, hpr.rows_eq ▸ hb⟩

theorem Committed.keys (hc : Committed d c t xs ps m) (hS : Sound d c L) (hR : Rooted c) (hp : ProjectionAgrees d)
    (hx : ∀ x ∈ xs, ReadsAs d x) : KeysStored d c (restamp (ps.foldl putIndexPuts c) t m) := by
  intro k hk hno
  obtain ⟨r, hr, rfl⟩ := (hc.stored.mp hk).resolve_left hno
  have htext : textAt d (restamp (ps.foldl putIndexPuts c) t m) r.1 = some r.2.2 := by
    rw [textAt_restamp, textAt_puts_new hc.prepared (fun _ => framed_traj) (framed_nodup hc.fits.le) hr]
  have hmem : r.2 ∈ xs := by
    rw [← framed_snd t (countOf c.trajMeta[t]?) xs]
    exact List.mem_map_of_mem hr
  obtain ⟨g, hg, hrows⟩ := hx r.2 hmem
  refine ⟨r.2.2, g, htext, hg, fun i b hl => ?_⟩
  rw [hc.row hS hR hr hl, mem_reindexRows hp, hrows]

theorem Committed.sound (hc : Committed d c t xs ps m) (hS : Sound d c L) :
    Sound d (restamp (ps.foldl putIndexPuts c) t m) (L.extend t (xs.map Prod.snd)) :=
  hS.puts hc.prepared (hS.refines.countOf t) hc.fits hc.count

theorem Committed.indexExact (hc : Committed d c t xs ps m) (hS : Sound d c L) (hi : IndexExact d c)
    (hx : ∀ x ∈ xs, ReadsAs d x) : IndexExact d (restamp (ps.foldl putIndexPuts c) t m) :=
  hi.ingest hS hc.prepared hx (hS.refines.countOf t) hc.fits m

end Committed

theorem FromMemory.committed (hz : ZstdLossless d) {frames : List (ConFrame F)} {op : Op F}
    (hm : FromMemory d frames op) (hf : op.Fits d c) {v : Verdicts} {n : Nat} (hc : op.exec d v c = (.ok n, next)) :
    ∃ t xs ps m, frames.map (serialize d d.defaultFormat) = xs.map Except.ok ∧ Committed d c t xs ps m ∧
      next = restamp (ps.foldl putIndexPuts c) t m := by
  have hlen {xs : List (ConFrame F × String)} (hx : frames.map (serialize d d.defaultFormat) = xs.map Except.ok) :
      xs.length = frames.length := by simpa using (congrArg List.length hx).symm
  have hcall {A P : Type} {size : A → Nat} {plan : Result P} {refused : Option Error}
      {commit : P → ConCorpus F → Result (A × ConCorpus F)}
      (h : counted size (call plan refused commit c) = (.ok n, next)) :
      ∃ p r, plan = .ok p ∧ commit p c = .ok (r, next) := by
    rcases call_cases plan refused commit c with ⟨e, he⟩ | ⟨p, r, last, _, hp, hl, he⟩
    · rw [he] at h
      cases (Prod.mk.inj h).1
    · rw [he] at h
      exact ⟨p, r, hp, (Prod.mk.inj h).2 ▸ hl⟩
  cases hm with
  | append t source =>
    obtain ⟨ps, r, hp, hcommit⟩ := hcall hc
    obtain ⟨xs, hx, hg⟩ := prepareAppendFrames_ok hz hp
    obtain ⟨hnone, hr, m, hmn, rfl⟩ := commitPrepared_ok hcommit
    have hzero : countOf c.trajMeta[t]? = 0 := by rw [hnone]; rfl
    have hfit : xs.length < 2 ^ 32 := (hlen hx).trans_lt hf
    refine ⟨t, xs, ps, m, hx, ⟨?_, ?_, ?_⟩, rfl⟩
    · rw [hzero]
      exact hg.2 (by simpa using hfit.le)
    · rw [hzero, hmn, hr, hg.framesAfter]
    · rw [hzero]
      simpa using hfit
  | extend t hint =>
    obtain ⟨plan, r, hp, hcommit⟩ := hcall hc
    obtain ⟨hprior, xs, hx, hg⟩ := prepareExtend_ok hz hp
    obtain ⟨hsame, hr, m, hmn, rfl⟩ := commitExtend_ok hcommit
    rw [hprior] at hg
    have hfit : (countOf c.trajMeta[t]?).toNat + xs.length < 2 ^ 32 := by
      rw [hlen hx]
      exact hf
    refine ⟨t, xs, plan.2, m, hx, ⟨hg.2 hfit.le, ?_, hfit⟩, rfl⟩
    rw [hmn, hr, hprior, hg.framesAfter]

theorem IndexExact.reindexed (hp : ProjectionAgrees d) (hi : IndexExact d c) (refused : Option Error) :
    (reindex d refused c c).2.idx = c.idx :=
  call_preserves (I := fun s => s.idx = c.idx) rfl fun _ _ _ _ hc => reindexCommit_idx hp hi hc

theorem IndexExact.no_stale (hp : ProjectionAgrees d) (hi : IndexExact d c) {i : Index} {b : Bytes} (hb : b ∈ c.idx i) :
    ∃ k s g, textAt d c k = some s ∧ parsed d s = some g ∧ (i, b) ∈ reindexRows d k g := by
  obtain ⟨k, s, g, hs, hg, hrow⟩ := (hi i b).mp hb
  exact ⟨k, s, g, hs, hg, (mem_reindexRows hp k g i b).mpr hrow⟩

theorem memory_ingest_indexes_stored (hz : ZstdLossless d) (hw : RoundTrips d) (hd : d.defaultFormat = .roundTrip)
    (hs : SpansReparse d) (hp : ProjectionAgrees d) (h : History d (fun c a => a.Fits d c) c)
    {frames : List (ConFrame F)} {op : Op F} (hm : FromMemory d frames op) (hf : op.Fits d c) {v : Verdicts} {n : Nat}
    (hc : op.exec d v c = (.ok n, next)) :
    KeysStored d c next ∧ (History d (fun c a => a.Fits d c ∧ a.Reads d) c → IndexesStored d c next) := by
  obtain ⟨L, hS⟩ := h.sound hz
  have hR : Rooted c := h.rooted hz
  obtain ⟨t, xs, ps, m, hx, hcommit, rfl⟩ := hm.committed hz hf hc
  have hreads : ∀ x ∈ xs, ReadsAs d x := serialized_reads (fun f _ x hser => default_reads hw hd hser) hx
  have hkeys := hcommit.keys hS hR hp hreads
  refine ⟨hkeys, fun hexact => ?_⟩
  have hi := hcommit.indexExact hS (hexact.indexExact hz hw hd hs hp) hreads
  have hsound := hcommit.sound hS
  exact
    { keys := hkeys
      reindexed := hi.reindexed hp
      units := fun t units refused i b hb => by
        refine IndexExact.no_stale hp ?_ hb
        refine call_preserves (I := fun s => IndexExact d s) hi fun plan r last hplan hlast => ?_
        obtain ⟨old, new, hu⟩ := prepareUnits_ok hz hplan
        exact hi.commitUnits hw hsound.refines.readable hu (SameTexts.refl d t _) hlast }

end Ingest

section Tiny

theorem tiny_ingest_indexes_stored : ∃ next,
    (Op.appendFrames 0 [hydrogen.1, helium.1] "tiny.con" tiny.defaultFormat).exec tiny .granted (ConCorpus.empty Bits) =
        (.ok 2, next) ∧ KeysStored tiny (ConCorpus.empty Bits) next ∧
      IndexesStored tiny (ConCorpus.empty Bits) next := by
  have hx : [hydrogen.1, helium.1].map (serialize tiny tiny.defaultFormat) = [hydrogen, helium].map Except.ok := by
    simp only [List.map_cons, List.map_nil, serialize_hydrogen, serialize_helium]
  have hempty : (ConCorpus.empty Bits).trajMeta[(0 : UInt64)]? = none := by simp [ConCorpus.empty]
  obtain ⟨qs, m, _, _, hexec⟩ := appendFrames_total (tiny_packs (by simp)) hempty hx "tiny.con"
  have hfits : (Op.appendFrames 0 [hydrogen.1, helium.1] "tiny.con" tiny.defaultFormat).Fits tiny
      (ConCorpus.empty Bits) := show [hydrogen.1, helium.1].length < 2 ^ 32 by decide
  obtain ⟨hkeys, hall⟩ := memory_ingest_indexes_stored tiny_lossless tiny_roundTrips rfl tiny_spansReparse tiny_agrees
    .empty (.append 0 "tiny.con") hfits hexec
  exact ⟨_, hexec, hkeys, hall .empty⟩

-- The last of `2 ^ 32 + 1` frames falls on the first, and leaves its keys behind.
theorem tiny_ingest_wraps : ∃ frames next, frames = hydrogen.1 :: List.replicate (2 ^ 32) helium.1 ∧
    (Op.appendFrames 0 frames "tiny.con" tiny.defaultFormat).exec tiny .granted
        (setCompressFrames (ConCorpus.empty Bits) false) = (.ok 1, next) ∧
      ¬ KeysStored tiny (setCompressFrames (ConCorpus.empty Bits) false) next := by
  obtain ⟨n, hlast⟩ : ∃ n, n + 1 = 2 ^ 32 := ⟨2 ^ 32 - 1, by decide⟩
  have hn : UInt32.ofNat (n + 1) = 0 := by rw [hlast]; decide
  have hx : (hydrogen.1 :: (List.replicate n helium.1 ++ [helium.1])).map (serialize tiny tiny.defaultFormat) =
      (hydrogen :: (List.replicate n helium ++ [helium])).map Except.ok := by
    simp only [List.map_cons, List.map_append, List.map_nil, List.map_replicate, serialize_hydrogen, serialize_helium]
  have hempty : (setCompressFrames (ConCorpus.empty Bits) false).trajMeta[(0 : UInt64)]? = none := by
    simp [setCompressFrames, ConCorpus.empty]
  obtain ⟨m, hexec⟩ := appendFrames_raw rfl hempty hx "tiny.con"
  have hone : (UInt32.ofNat (hydrogen :: (List.replicate n helium ++ [helium])).length).toNat = 1 := by
    rw [List.length_cons, List.length_append, List.length_replicate, List.length_singleton, UInt32.ofNat_add, hn]
    rfl
  rw [hone, framed_wrap 0 hydrogen helium hn, List.map_cons, List.map_append, List.map_singleton] at hexec
  refine ⟨_, _, by rw [← hlast, List.replicate_succ'], hexec, fun hkeys => ?_⟩
  obtain ⟨s, g, hs, hg, hrows⟩ := hkeys ⟨0, 0⟩
    (mem_puts_frames.mpr (.inr ⟨rawPut tiny (⟨0, 0⟩, helium), by simp, rfl⟩)) (by simp [setCompressFrames, ConCorpus.empty])
  rw [overwritten_text tiny_lossless, Option.some.injEq] at hs
  rw [← hs, tiny_parsed_helium, Option.some.injEq] at hg
  subst hg
  have hlaid : LaidFor ⟨0, 0⟩ .idxSymbol (symbolKey "H" ⟨0, 0⟩) := ⟨"H", rfl⟩
  have hstale := (hrows _ _ hlaid).mp (overwritten_row tiny_symbols.1 m)
  exact tiny_symbols.2 ((mem_reindexRows tiny_agrees _ _ _ _).mp hstale)

end Tiny

end ReadconDb
