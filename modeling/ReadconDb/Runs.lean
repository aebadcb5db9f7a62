import ReadconDb.Writers

set_option linter.unusedSectionVars false

namespace ReadconDb

open ByteString Outcome OrderedTable TwoPhase ReverseIndex

inductive Op (F : Type) where
  | appendStr (trajId : UInt64) (fileContents source : String)
  | appendFrames (trajId : UInt64) (frames : List (ConFrame F)) (source : String) (floatFormat : FloatFormat)
  | extendFrames (trajId : UInt64) (frames : List (ConFrame F)) (sourceHint : String)
  | setUnits (trajId : UInt64) (units : Value F)
  | migrate
  | reindex
  | cook (key : FrameKey)
  | recook
  | deleteCooked (key : FrameKey)
  | setCompress (compress : Bool)

structure Verdicts where
  txn : Option Error
  traj : UInt64 → Option Error
  frame : FrameKey → Option Error

def Verdicts.granted : Verdicts := ⟨none, fun _ => none, fun _ => none⟩

section Runs

variable {F : Type} [Float64 F] (d : Crates F)

def counted {A : Type} (size : A → Nat) (out : Result A × ConCorpus F) : Result Nat × ConCorpus F :=
  (out.1.map size, out.2)

def Op.exec (op : Op F) (v : Verdicts) (c : ConCorpus F) : Result Nat × ConCorpus F :=
  match op with
  | .appendStr t contents source =>
    counted UInt32.toNat (appendTrajectoryStr d v.txn c c t contents source)
  | .appendFrames t frames source fmt =>
    counted UInt32.toNat (appendTrajectoryFramesWithFloatFormat d v.txn c c t frames source fmt)
  | .extendFrames t frames hint => counted UInt32.toNat (extendTrajectoryFrames d v.txn c c t frames hint)
  | .setUnits t units => counted UInt32.toNat (setTrajectoryUnits d v.txn c c t units)
  | .migrate => counted UInt32.toNat (migrateFrames d v.traj c)
  | .reindex => counted UInt32.toNat (ReadconDb.reindex d v.txn c c)
  | .cook key => counted id (cookFrame d v.txn c c key)
  | .recook => counted UInt32.toNat (recookAll d v.frame c)
  | .deleteCooked key => counted (fun _ => 0) (deleteCookedSoa v.txn c key)
  | .setCompress compress => (.ok 0, setCompressFrames c compress)

def Op.assign (op : Op F) (out : Result Nat) (L : Texts) : Texts :=
  match out, op with
  | .error _, _ => L
  | .ok _, .appendStr t contents _ => L.write t (spanTexts d contents)
  | .ok _, .appendFrames t frames _ fmt => L.write t (frameTexts d fmt frames)
  | .ok _, .extendFrames t frames _ => L.extend t (frameTexts d d.defaultFormat frames)
  | .ok _, .setUnits t units => L.write t (((L t).getD []).filterMap (rewrittenText d units))
  | .ok _, _ => L

inductive Reached (allow : ConCorpus F → Op F → Texts → Prop) : ConCorpus F → Texts → Prop where
  | empty : Reached allow (ConCorpus.empty F) Ledger.blank
  | step {c : ConCorpus F} {L : Texts} (op : Op F) (v : Verdicts) (h : Reached allow c L)
      (ha : allow c op (op.assign d (op.exec d v c).1 L)) :
      Reached allow (op.exec d v c).2 (op.assign d (op.exec d v c).1 L)

def Bounded (L : Texts) : Prop := ∀ t, L.count t < 2 ^ 32

-- The numbers a call gives its frames, and the count it leaves, fit in a `u32`.
def Op.Fits (c : ConCorpus F) : Op F → Prop
  | .appendStr _ contents _ => (d.conFrames contents).length < 2 ^ 32
  | .appendFrames _ frames _ _ => frames.length < 2 ^ 32
  | .extendFrames t frames _ => (countOf c.trajMeta[t]?).toNat + frames.length < 2 ^ 32
  | _ => True

-- The calls whose stored texts parse back to the very frames they were made for.
def Op.Exact : Op F → Prop
  | .appendFrames _ _ _ fmt => fmt = .roundTrip
  | .extendFrames _ _ _ => d.defaultFormat = .roundTrip
  | _ => True

-- The calls whose stored texts parse back to frames that are indexed alike.
def Op.Reads : Op F → Prop
  | .appendFrames _ frames _ fmt => ∀ f ∈ frames, ∀ x, serialize d fmt f = .ok x → ReadsAs d x
  | .extendFrames _ frames _ => ∀ f ∈ frames, ∀ x, serialize d d.defaultFormat f = .ok x → ReadsAs d x
  | _ => True

variable {d}

theorem Reached.mono {allow allow' : ConCorpus F → Op F → Texts → Prop}
    (hle : ∀ c op L, allow c op L → allow' c op L) {c : ConCorpus F} {L : Texts}
    (h : Reached d allow c L) : Reached d allow' c L := by
  induction h with
  | empty => exact .empty
  | step op v _ ha ih => exact .step op v ih (hle _ _ _ ha)

variable {c next : ConCorpus F} {L : Texts} {t : UInt64}

theorem okTexts_length_le (items : List (Result (ConFrame F × String))) :
    (okTexts items).length ≤ items.length := List.length_filterMap_le _ _

theorem rewritten_texts {units : Value F} {plan : UnitsPlan} {old : List (FrameRow F)}
    {new : List (ConFrame F × String)} (h : Sound d c L) (hu : UnitsSpec d c t units plan old new) :
    new.map Prod.snd = ((L t).getD []).filterMap (rewrittenText d units) := by
  have hold := h.refines.covered_texts hu.covers hu.sorted
  have hpar := hu.parses
  have hrw := hu.rewritten
  rw [← hold]
  clear hold hu
  induction hrw with
  | nil => rfl
  | @cons r x old new hr _ ih =>
    have hp := hpar r (by simp)
    have htext : rewrittenText d units r.2.2 = some x.2 := by
      rw [rewrittenText, hp]
      simp [toOption_eq_some.mpr hr.1, toOption_eq_some.mpr hr.2]
    rw [List.map_cons, List.map_cons, List.filterMap_cons, htext, ih fun q hq => hpar q (by simp [hq])]

def Op.Safe (d : Crates F) (op : Op F) (L : Texts) (out : Result Nat × ConCorpus F) : Prop :=
  Bounded (op.assign d out.1 L) → Sound d out.2 (op.assign d out.1 L)

theorem counted_ind {A P : Type} {Q : Result Nat × ConCorpus F → Prop} {size : A → Nat} {plan : Result P}
    {refused : Option Error} {commit : P → ConCorpus F → Result (A × ConCorpus F)}
    (herr : ∀ e, Q (.error e, c))
    (hok : ∀ p r next, plan = .ok p → commit p c = .ok (r, next) → Q (.ok (size r), next)) :
    Q (counted size (call plan refused commit c)) := by
  rcases call_cases plan refused commit c with ⟨e, he⟩ | ⟨p, r, next, _, hp, hc, he⟩
  · rw [he]
    exact herr e
  · rw [he]
    exact hok p r next hp hc

theorem counted_ok {A : Type} {size : A → Nat} {out : Result A × ConCorpus F} {k : Nat}
    (h : (counted size out).1 = .ok k) : ∃ a, out.1 = .ok a ∧ size a = k := map_eq_ok.mp h

theorem safe_call {A P : Type} {op : Op F} {size : A → Nat} {plan : Result P} {refused : Option Error}
    {commit : P → ConCorpus F → Result (A × ConCorpus F)} (h : Sound d c L)
    (hok : ∀ p r next, plan = .ok p → commit p c = .ok (r, next) → op.Safe d L (.ok (size r), next)) :
    op.Safe d L (counted size (call plan refused commit c)) :=
  counted_ind (Q := op.Safe d L) (fun _ _ => h) hok

theorem safe_append_str (hz : ZstdLossless d) (h : Sound d c L) (v : Verdicts) (contents source : String) :
    (Op.appendStr t contents source).Safe d L ((Op.appendStr t contents source).exec d v c) := by
  refine safe_call h fun ps r next hp hc hb => ?_
  obtain ⟨xs, hxs, hg⟩ := prepareAppendStr_ok hz hp
  have htexts : spanTexts d contents = xs.map Prod.snd := by rw [spanTexts, hxs, okTexts_ok]
  have hn := hb t
  simp only [Op.assign, htexts, Ledger.count, Ledger.write_self, Option.getD_some, List.length_map] at hn ⊢
  exact (h.commitPrepared hg hn hc).2.2

theorem safe_append_frames (hz : ZstdLossless d) (h : Sound d c L) (v : Verdicts)
    (frames : List (ConFrame F)) (source : String) (fmt : FloatFormat) :
    (Op.appendFrames t frames source fmt).Safe d L ((Op.appendFrames t frames source fmt).exec d v c) := by
  refine safe_call h fun ps r next hp hc hb => ?_
  obtain ⟨xs, hxs, hg⟩ := prepareAppendFrames_ok hz hp
  have htexts : frameTexts d fmt frames = xs.map Prod.snd := by rw [frameTexts, hxs, okTexts_ok]
  have hn := hb t
  simp only [Op.assign, htexts, Ledger.count, Ledger.write_self, Option.getD_some, List.length_map] at hn ⊢
  exact (h.commitPrepared hg hn hc).2.2

theorem safe_extend_frames (hz : ZstdLossless d) (h : Sound d c L) (v : Verdicts)
    (frames : List (ConFrame F)) (hint : String) :
    (Op.extendFrames t frames hint).Safe d L ((Op.extendFrames t frames hint).exec d v c) := by
  refine safe_call h fun plan r next hp hc hb => ?_
  obtain ⟨hprior, xs, hxs, hg⟩ := prepareExtend_ok hz hp
  have htexts : frameTexts d d.defaultFormat frames = xs.map Prod.snd := by
    rw [frameTexts, hxs, okTexts_ok]
  have hn := hb t
  simp only [Op.assign, htexts, Ledger.count_extend_self, List.length_map] at hn ⊢
  exact (h.commitExtend hg hn hc).2

theorem safe_set_units (hz : ZstdLossless d) (h : Sound d c L) (v : Verdicts) (units : Value F) :
    (Op.setUnits t units).Safe d L ((Op.setUnits t units).exec d v c) := by
  refine safe_call h fun plan r next hp hc _ => ?_
  obtain ⟨old, new, hu⟩ := prepareUnits_ok hz hp
  have hsame := SameTexts.refl d t c
  have htexts := rewritten_texts h hu
  simp only [Op.assign, ← htexts]
  exact
    { refines := h.refines.commitUnits hu hsame hc
      hash := h.hash.commitUnits h.refines.readable hu hsame hc
      cooked := h.cooked.commitUnits h.refines.readable hu hsame hc }

theorem Sound.of_tables {c' : ConCorpus F} (h : Sound d c L) (hf : c'.frames = c.frames)
    (hm : c'.trajMeta = c.trajMeta) (hb : c'.hashByFrame = c.hashByFrame)
    (hp : c'.frameByHash = c.frameByHash) (hk : CookedExact d c') : Sound d c' L :=
  have hview (k : FrameKey) := textAt_of_frames_eq (d := d) hf k
  ⟨h.refines.of_view (readable_of_frames_eq hf h.refines.readable) hview hm, h.hash.of_view hview hb hp, hk⟩

theorem Sound.repack (hz : ZstdLossless d) (h : Sound d c L) (refused : Option Error) (t : UInt64) :
    Sound d (repackTraj d refused c c t).2 L := by
  refine call_preserves (I := fun s => Sound d s L) h fun changed r next hp hc => ?_
  obtain ⟨ks, packed, hr⟩ := repackPlan_ok hz hp
  have hskip : SkippedRows t changed c c := fun _ _ _ => rfl
  have hview := textAt_repack hr h.refines.readable (SameTexts.refl d t c) hskip hc
  have hread := h.refines.readable.repackCommit hr (SameTexts.refl d t c) hskip hc
  rw [(repackCommit_ok hc).2] at *
  exact ⟨h.refines.of_view hread hview rfl, h.hash.of_view hview rfl rfl, h.cooked.of_view hview rfl⟩

theorem Sound.migrate (hz : ZstdLossless d) (h : Sound d c L) (refused : UInt64 → Option Error) :
    Sound d (migrateFrames d refused c).2 L :=
  each_preserves (I := fun s => Sound d s L) (fun t _ hs => hs.repack hz (refused t) t) 0 _ h

theorem Sound.cook (h : Sound d c L) (refused : Option Error) (key : FrameKey) :
    Sound d (cookFrame d refused c c key).2 L := by
  refine call_preserves (I := fun s => Sound d s L) h fun bytes r next hp hc => ?_
  have hcooked := h.cooked.cookCommit hp rfl hc
  rw [(cookCommit_ok hc).2] at *
  exact h.of_tables rfl rfl rfl rfl hcooked

theorem Sound.recook (h : Sound d c L) (refused : FrameKey → Option Error) :
    Sound d (recookAll d refused c).2 L :=
  each_preserves (I := fun s => Sound d s L) (fun key _ hs => hs.cook (refused key) key) 0 _ h

def dropCooked (c : ConCorpus F) (key : FrameKey) : ConCorpus F :=
  { c with framesSoa := c.framesSoa.erase key.toBytes.val }

theorem deleteCookedSoa_cases (refused : Option Error) (c : ConCorpus F) (key : FrameKey) :
    (deleteCookedSoa refused c key).2 = c ∨ (deleteCookedSoa refused c key).2 = dropCooked c key := by
  cases refused with
  | some e => exact .inl rfl
  | none => exact .inr rfl

theorem Sound.deleteCooked (h : Sound d c L) (refused : Option Error) (key : FrameKey) :
    Sound d (deleteCookedSoa refused c key).2 L := by
  rcases deleteCookedSoa_cases refused c key with he | he
  · rw [he]
    exact h
  · rw [he]
    exact h.of_tables rfl rfl rfl rfl (h.cooked.erase key)

theorem Sound.setCompress (h : Sound d c L) (compress : Bool) : Sound d (setCompressFrames c compress) L :=
  h.of_tables rfl rfl rfl rfl (h.cooked.of_view (fun k => textAt_of_frames_eq rfl k) rfl)

theorem safe_reindex (h : Sound d c L) (v : Verdicts) : Op.reindex.Safe d L (Op.reindex.exec d v c) := by
  refine safe_call h fun recorded r next _ hc _ => ?_
  exact ⟨h.refines.reindexCommit hc, hashExact_reindexCommit hc, h.cooked.reindexCommit hc⟩

theorem assign_other {op : Op F} (h : ∀ L, op.assign d (.ok 0) L = L) (out : Result Nat) (L : Texts) :
    op.assign d out L = L := by
  cases out with
  | error e => rfl
  | ok n =>
    have hL := h L
    cases op <;> exact hL

theorem safe_step (hz : ZstdLossless d) (h : Sound d c L) (op : Op F) (v : Verdicts) :
    op.Safe d L (op.exec d v c) := by
  cases op with
  | appendStr t contents source => exact safe_append_str hz h v contents source
  | appendFrames t frames source fmt => exact safe_append_frames hz h v frames source fmt
  | extendFrames t frames hint => exact safe_extend_frames hz h v frames hint
  | setUnits t units => exact safe_set_units hz h v units
  | migrate =>
    intro _
    rw [assign_other fun _ => rfl]
    exact h.migrate hz v.traj
  | reindex => exact safe_reindex h v
  | cook key =>
    intro _
    rw [assign_other fun _ => rfl]
    exact h.cook v.txn key
  | recook =>
    intro _
    rw [assign_other fun _ => rfl]
    exact h.recook v.frame
  | deleteCooked key =>
    intro _
    rw [assign_other fun _ => rfl]
    exact h.deleteCooked v.txn key
  | setCompress compress =>
    intro _
    rw [assign_other fun _ => rfl]
    exact h.setCompress compress

theorem reached_sound (hz : ZstdLossless d) {allow : ConCorpus F → Op F → Texts → Prop}
    (hb : ∀ c op L, allow c op L → Bounded L) (h : Reached d allow c L) : Sound d c L := by
  induction h with
  | empty => exact sound_empty
  | step op v _ ha ih => exact safe_step hz ih op v (hb _ _ _ ha)

section Screening

def Op.Screens (d : Crates F) (op : Op F) (L : Texts) (out : Result Nat × ConCorpus F) : Prop :=
  Bounded (op.assign d out.1 L) → IndexExact d out.2

theorem screens_call {A P : Type} {op : Op F} {size : A → Nat} {plan : Result P} {refused : Option Error}
    {commit : P → ConCorpus F → Result (A × ConCorpus F)} (hi : IndexExact d c)
    (hok : ∀ p r next, plan = .ok p → commit p c = .ok (r, next) → op.Screens d L (.ok (size r), next)) :
    op.Screens d L (counted size (call plan refused commit c)) :=
  counted_ind (Q := op.Screens d L) (fun _ _ => hi) hok

theorem screens_append_str (hz : ZstdLossless d) (hs : SpansReparse d) (h : Sound d c L)
    (hi : IndexExact d c) (v : Verdicts) (contents source : String) :
    (Op.appendStr t contents source).Screens d L ((Op.appendStr t contents source).exec d v c) := by
  refine screens_call hi fun ps r next hp hc hb => ?_
  obtain ⟨xs, hxs, hg⟩ := prepareAppendStr_ok hz hp
  have htexts : spanTexts d contents = xs.map Prod.snd := by rw [spanTexts, hxs, okTexts_ok]
  have hn := hb t
  simp only [Op.assign, htexts, Ledger.count, Ledger.write_self, Option.getD_some, List.length_map] at hn
  exact hi.commitPrepared h hg (spans_parse hs hxs) hn hc

theorem Op.Exact.reads (hw : RoundTrips d) {op : Op F} (h : op.Exact d) : op.Reads d := by
  have hparse {fmt : FloatFormat} (hf : fmt = .roundTrip) {f : ConFrame F} {x : ConFrame F × String}
      (hx : serialize d fmt f = .ok x) : ReadsAs d x := .of_parsed (parsed_serialize hw (hf ▸ hx))
  cases op with
  | appendFrames t frames source fmt => exact fun f _ x hx => hparse h hx
  | extendFrames t frames hint => exact fun f _ x hx => hparse h hx
  | _ => exact trivial

theorem screens_append_frames (hz : ZstdLossless d) (h : Sound d c L)
    (hi : IndexExact d c) (v : Verdicts) (frames : List (ConFrame F)) (source : String) (fmt : FloatFormat)
    (hx : (Op.appendFrames t frames source fmt).Reads d) :
    (Op.appendFrames t frames source fmt).Screens d L ((Op.appendFrames t frames source fmt).exec d v c) := by
  refine screens_call hi fun ps r next hp hc hb => ?_
  obtain ⟨xs, hxs, hg⟩ := prepareAppendFrames_ok hz hp
  have htexts : frameTexts d fmt frames = xs.map Prod.snd := by rw [frameTexts, hxs, okTexts_ok]
  have hn := hb t
  simp only [Op.assign, htexts, Ledger.count, Ledger.write_self, Option.getD_some, List.length_map] at hn
  exact hi.commitPrepared h hg (serialized_reads hx hxs) hn hc

theorem screens_extend_frames (hz : ZstdLossless d) (h : Sound d c L)
    (hi : IndexExact d c) (v : Verdicts) (frames : List (ConFrame F)) (hint : String)
    (hx : (Op.extendFrames t frames hint).Reads d) :
    (Op.extendFrames t frames hint).Screens d L ((Op.extendFrames t frames hint).exec d v c) := by
  refine screens_call hi fun plan r next hp hc hb => ?_
  obtain ⟨hprior, xs, hxs, hg⟩ := prepareExtend_ok hz hp
  have htexts : frameTexts d d.defaultFormat frames = xs.map Prod.snd := by
    rw [frameTexts, hxs, okTexts_ok]
  have hn := hb t
  simp only [Op.assign, htexts, Ledger.count_extend_self, List.length_map] at hn
  exact hi.commitExtend h hg (serialized_reads hx hxs) hn hc

theorem screens_set_units (hz : ZstdLossless d) (hw : RoundTrips d) (h : Sound d c L)
    (hi : IndexExact d c) (v : Verdicts) (units : Value F) :
    (Op.setUnits t units).Screens d L ((Op.setUnits t units).exec d v c) := by
  refine screens_call hi fun plan r next hp hc _ => ?_
  obtain ⟨old, new, hu⟩ := prepareUnits_ok hz hp
  exact hi.commitUnits hw h.refines.readable hu (SameTexts.refl d t c) hc

theorem screens_repack (hz : ZstdLossless d) (h : Sound d c L) (hi : IndexExact d c)
    (refused : Option Error) (t : UInt64) : IndexExact d (repackTraj d refused c c t).2 := by
  refine call_preserves (I := fun s => IndexExact d s) hi fun changed r next hp hc => ?_
  obtain ⟨ks, packed, hr⟩ := repackPlan_ok hz hp
  have hskip : SkippedRows t changed c c := fun _ _ _ => rfl
  have hview := textAt_repack hr h.refines.readable (SameTexts.refl d t c) hskip hc
  rw [(repackCommit_ok hc).2] at *
  exact hi.of_view hview rfl

theorem screens_migrate (hz : ZstdLossless d) (h : Sound d c L) (hi : IndexExact d c)
    (refused : UInt64 → Option Error) : IndexExact d (migrateFrames d refused c).2 := by
  have hall : Sound d (migrateFrames d refused c).2 L ∧ IndexExact d (migrateFrames d refused c).2 :=
    each_preserves (I := fun s => Sound d s L ∧ IndexExact d s)
      (fun t _ hs => ⟨hs.1.repack hz (refused t) t, screens_repack hz hs.1 hs.2 (refused t) t⟩) 0 _ ⟨h, hi⟩
  exact hall.2

theorem screens_cook (hi : IndexExact d c) (refused : Option Error) (key : FrameKey) :
    IndexExact d (cookFrame d refused c c key).2 := by
  refine call_preserves (I := fun s => IndexExact d s) hi fun bytes r next _ hc => ?_
  rw [(cookCommit_ok hc).2]
  exact hi.of_view (fun k => textAt_of_frames_eq rfl k) rfl

theorem screens_step (hz : ZstdLossless d) (hw : RoundTrips d) (hs : SpansReparse d)
    (hp : ProjectionAgrees d) (h : Sound d c L) (hi : IndexExact d c) (op : Op F) (hx : op.Reads d)
    (v : Verdicts) : op.Screens d L (op.exec d v c) := by
  cases op with
  | appendStr t contents source => exact screens_append_str hz hs h hi v contents source
  | appendFrames t frames source fmt => exact screens_append_frames hz h hi v frames source fmt hx
  | extendFrames t frames hint => exact screens_extend_frames hz h hi v frames hint hx
  | setUnits t units => exact screens_set_units hz hw h hi v units
  | migrate => exact fun _ => screens_migrate hz h hi v.traj
  | reindex => exact screens_call hi fun _ _ _ _ hc _ => indexExact_reindexCommit hp hc
  | cook key => exact fun _ => screens_cook hi v.txn key
  | recook =>
    exact fun _ => each_preserves (I := fun s => IndexExact d s)
      (fun key _ hs => screens_cook hs (v.frame key) key) 0 _ hi
  | deleteCooked key =>
    intro _
    rcases deleteCookedSoa_cases v.txn c key with he | he
    · exact he.symm ▸ hi
    · exact he.symm ▸ hi.of_view (fun k => textAt_of_frames_eq rfl k) rfl
  | setCompress compress => exact fun _ => hi.of_view (fun k => textAt_of_frames_eq rfl k) rfl

theorem reached_screens (hz : ZstdLossless d) (hw : RoundTrips d) (hs : SpansReparse d)
    (hp : ProjectionAgrees d) {allow : ConCorpus F → Op F → Texts → Prop}
    (hb : ∀ c op L, allow c op L → op.Exact d ∧ Bounded L) (h : Reached d allow c L) : IndexExact d c := by
  induction h with
  | empty => exact indexExact_empty
  | step op v hr ha ih =>
    have hsound := reached_sound hz (fun c op L ha => (hb c op L ha).2) hr
    exact screens_step hz hw hs hp hsound ih op ((hb _ _ _ ha).1.reads hw) v (hb _ _ _ ha).2

end Screening

section Fits

theorem bounded_write (hb : Bounded L) {xs : List String} (hn : xs.length < 2 ^ 32) :
    Bounded (L.write t xs) := by
  intro u
  by_cases hu : u = t
  · subst hu
    rwa [Ledger.count, Ledger.write_self, Option.getD_some]
  · rw [Ledger.count, Ledger.write_other _ _ hu]
    exact hb u

theorem length_spanTexts_le (contents : String) :
    (spanTexts d contents).length ≤ (d.conFrames contents).length := by
  have hle := okTexts_length_le (spans d contents)
  rwa [spans, List.length_map] at hle

theorem length_frameTexts_le (fmt : FloatFormat) (frames : List (ConFrame F)) :
    (frameTexts d fmt frames).length ≤ frames.length := by
  have hle := okTexts_length_le (frames.map (serialize d fmt))
  rwa [List.length_map] at hle

theorem bounded_assign (h : Sound d c L) {op : Op F} (hf : op.Fits d c) (out : Result Nat) :
    Bounded (op.assign d out L) := by
  have hb : Bounded L := h.refines.small
  cases out with
  | error e => exact hb
  | ok n =>
    cases op with
    | appendStr t contents source =>
      exact bounded_write hb ((length_spanTexts_le contents).trans_lt hf)
    | appendFrames t frames source fmt =>
      exact bounded_write hb ((length_frameTexts_le fmt frames).trans_lt hf)
    | extendFrames t frames hint =>
      have hlen := length_frameTexts_le (d := d) d.defaultFormat frames
      have hcount := h.refines.countOf t
      have hfit : (countOf c.trajMeta[t]?).toNat + frames.length < 2 ^ 32 := hf
      refine bounded_write hb ?_
      rw [List.length_append]
      have hL : ((L t).getD []).length = L.count t := rfl
      omega
    | setUnits t units =>
      refine bounded_write hb (lt_of_le_of_lt (List.length_filterMap_le _ _) ?_)
      exact hb t
    | migrate | reindex | cook | recook | deleteCooked | setCompress => exact hb

theorem reached_bounded (hz : ZstdLossless d) {allow : ConCorpus F → Op F → Texts → Prop}
    (hf : ∀ c op L, allow c op L → op.Fits d c) (h : Reached d allow c L) :
    Reached d (fun c op L => allow c op L ∧ Bounded L) c L := by
  induction h with
  | empty => exact .empty
  | step op v _ ha ih =>
    have hs := reached_sound hz (fun _ _ _ ha => ha.2) ih
    exact .step op v ih ⟨ha, bounded_assign hs (hf _ _ _ ha) _⟩

end Fits

section Paths

variable {d : Crates F} {c : ConCorpus F} {L : Texts} {t : UInt64}

-- The call above that `append_trajectory_path` comes to, by what it reads of the file.
inductive AppendsPath (d : Crates F) (t : UInt64) (file : ConFile) (units : Option (Value F)) : Op F → Prop where
  | text {text : String} (h : file.contents = .ok text) : AppendsPath d t file units (.appendStr t text file.display)
  | frames {frames : List (ConFrame F)} (hu : units.isSome = true) (h : framesWithUnits d file units = .ok frames) :
      AppendsPath d t file units (.appendFrames t frames file.display d.defaultFormat)

theorem append_path_cases (v : Verdicts) (file : ConFile) (units : Option (Value F)) :
    (∃ e, appendTrajectoryPathUnits d v.txn c c t file units = (.error e, c)) ∨
      ∃ op : Op F, AppendsPath d t file units op ∧
        counted UInt32.toNat (appendTrajectoryPathUnits d v.txn c c t file units) = op.exec d v c := by
  cases units with
  | none =>
    rw [appendTrajectoryPathUnits]
    cases hc : file.contents with
    | error e => exact .inl ⟨e, rfl⟩
    | ok text => exact .inr ⟨_, .text hc, rfl⟩
  | some u =>
    rw [appendTrajectoryPathUnits]
    cases hf : framesWithUnits d file (some u) with
    | error e => exact .inl ⟨e, rfl⟩
    | ok frames => exact .inr ⟨_, .frames rfl hf, rfl⟩

theorem extend_path_cases (v : Verdicts) (file : ConFile) (units : Option (Value F)) :
    (∃ e, extendTrajectoryPathUnits d v.txn c c t file units = (.error e, c)) ∨
      ∃ frames, framesWithUnits d file units = .ok frames ∧
        counted UInt32.toNat (extendTrajectoryPathUnits d v.txn c c t file units) =
          (Op.extendFrames t frames file.display).exec d v c := by
  rw [extendTrajectoryPathUnits]
  cases hf : framesWithUnits d file units with
  | error e => exact .inl ⟨e, rfl⟩
  | ok frames => exact .inr ⟨frames, rfl, rfl⟩

end Paths

end Runs

end ReadconDb
