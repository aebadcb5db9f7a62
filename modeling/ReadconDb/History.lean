import ReadconDb.Annotation

set_option linter.unusedSectionVars false

namespace ReadconDb

open ByteString Outcome OrderedTable TwoPhase

inductive Action (F : Type) where
  | store (op : Op F)
  | appendPath (trajId : UInt64) (file : ConFile) (units : Option (Value F))
  | extendPath (trajId : UInt64) (file : ConFile) (units : Option (Value F))
  | annotate (seams : Seams F) (opts : AnnotateTopologyOpts F)

section Actions

variable {F : Type} [Float64 F] (d : Crates F)

def Action.exec (a : Action F) (v : Verdicts) (c : ConCorpus F) : Result Nat × ConCorpus F :=
  match a with
  | .store op => op.exec d v c
  | .appendPath t file units => counted UInt32.toNat (appendTrajectoryPathUnits d v.txn c c t file units)
  | .extendPath t file units => counted UInt32.toNat (extendTrajectoryPathUnits d v.txn c c t file units)
  | .annotate seams opts => counted UInt32.toNat (annotateTopology d seams v.txn c c opts)

inductive History (allow : ConCorpus F → Action F → Prop) : ConCorpus F → Prop where
  | empty : History allow (ConCorpus.empty F)
  | step {c : ConCorpus F} (a : Action F) (v : Verdicts) (h : History allow c) (ha : allow c a) :
      History allow (a.exec d v c).2

def AnyCall : ConCorpus F → Action F → Prop := fun _ _ => True

inductive Change (c : ConCorpus F) : ConCorpus F → Prop where
  | ingest (t : UInt64) (source : String) {xs : List (ConFrame F × String)} {ps : List PreparedIndexPuts}
      (hd : List.Forall₂ (PutFor d) (framed t (countOf c.trajMeta[t]?) xs) ps) :
      Change c (restamp (ps.foldl putIndexPuts c) t
        (TrajMeta.stored d { (c.trajMeta[t]?).getD { source := source } with
          nFrames := framesAfter ps (countOf c.trajMeta[t]?) }))
  | units {t : UInt64} {units : Value F} {plan : UnitsPlan} {old : List (FrameRow F)}
      {new : List (ConFrame F × String)} (hu : UnitsSpec d c t units plan old new) :
      Change c (plan.prepared.foldl putIndexPuts (clearedUnits c plan))
  | repack {t : UInt64} {changed : List (FrameKey × Bytes)} {ks : List (FrameKey × String)}
      {packed : List Bytes} (hr : RepackSpec d c t changed ks packed) :
      Change c { c with frames := putAll (fun row => row.1.toBytes.val) Prod.snd c.frames changed }
  | reindex {recorded : Option (TopologyParams F)} {n : UInt32} {next : ConCorpus F}
      (hp : collectedTopoParams c = .ok recorded) (hc : reindexCommit d recorded c = .ok (n, next)) :
      Change c next
  | cook {key : FrameKey} {bytes : Bytes} (hp : cookPlan d c key = .ok bytes) :
      Change c { c with framesSoa := c.framesSoa.insert key.toBytes.val bytes }
  | dropCooked (key : FrameKey) : Change c (dropCooked c key)
  | compress (compress : Bool) : Change c (setCompressFrames c compress)
  | annotate {seams : Seams F} {opts : AnnotateTopologyOpts F} {plan : AnnotatePlan F} {n : UInt32}
      {next : ConCorpus F} (hp : annotatePlan d seams c opts = .ok (some plan))
      (hc : annotateCommit d opts (some plan) c = .ok (n, next)) : Change c next

def Changes : ConCorpus F → ConCorpus F → Prop := Relation.ReflTransGen (Change d)

variable {d} {c c' next : ConCorpus F} {t : UInt64}

theorem derived_of_prepare {compress : Bool} {idx : UInt32} {items : List (Result (ConFrame F × String))}
    {ps qs : List PreparedIndexPuts} (h : prepareItems d t compress idx items = .ok ps)
    (hg : groupIf d compress ps = .ok qs) :
    ∃ xs, items = xs.map Except.ok ∧ List.Forall₂ (PutFor d) (framed t idx xs) qs := by
  obtain ⟨xs, hxs, hb⟩ := prepareItems_ok h
  have hd : List.Forall₂ (PutFor d) (framed t idx xs) ps := hb.imp fun _ _ hp => (buildIndexPuts_ok hp).2
  refine ⟨xs, hxs, ?_⟩
  rw [groupIf] at hg
  split at hg
  · rw [groupPrepared] at hg
    split at hg
    · exact Except.ok.inj hg ▸ hd
    · obtain ⟨texts, _, hg⟩ := bind_eq_ok.mp hg
      obtain ⟨packed, _, hg⟩ := bind_eq_ok.mp hg
      rw [pure_eq_ok] at hg
      exact hg ▸ assignStored_derived hd packed
  · exact Except.ok.inj hg ▸ hd

theorem append_change {source : String} {n : UInt32} {xs : List (ConFrame F × String)}
    {ps : List PreparedIndexPuts} (hd : List.Forall₂ (PutFor d) (framed t 0 xs) ps)
    (hc : commitPrepared d t source false ps c = .ok (n, next)) : Change d c next := by
  have hnone := (commitPrepared_ok hc).1
  have hcount : countOf c.trajMeta[t]? = 0 := by rw [hnone]; rfl
  have hchange := Change.ingest t source (c := c) (hcount.symm ▸ hd)
  simp only [commitPrepared, hnone, Except.ok.injEq, Prod.mk.injEq] at hc
  rw [hnone] at hchange
  rw [← hc.2]
  exact hchange

theorem extend_change {hint : String} {n : UInt32} {plan : Option (TrajMeta F) × List PreparedIndexPuts}
    {xs : List (ConFrame F × String)} (hp : plan.1 = c.trajMeta[t]?)
    (hd : List.Forall₂ (PutFor d) (framed t (countOf plan.1) xs) plan.2)
    (hc : commitExtend d t hint plan.1 plan.2 c = .ok (n, next)) : Change d c next := by
  rw [hp] at hd hc
  have hchange := Change.ingest t hint hd
  simp only [commitExtend, ne_eq, not_true_eq_false, if_false, Except.ok.injEq, Prod.mk.injEq, Option.or_self] at hc
  rw [← hc.2]
  exact hchange

theorem changes_call {A P : Type} {size : A → Nat} {plan : Result P} {refused : Option Error}
    {commit : P → ConCorpus F → Result (A × ConCorpus F)}
    (hok : ∀ p r next, plan = .ok p → commit p c = .ok (r, next) → Changes d c next) :
    Changes d c (counted size (call plan refused commit c)).2 :=
  counted_ind (Q := fun out => Changes d c out.2) (fun _ => .refl) hok

theorem repack_changes (hz : ZstdLossless d) (refused : Option Error) (t : UInt64) (c : ConCorpus F) :
    Changes d c (repackTraj d refused c c t).2 := by
  refine call_preserves (I := Changes d c) .refl fun changed r next hp hc => ?_
  obtain ⟨ks, packed, hr⟩ := repackPlan_ok hz hp
  rw [(repackCommit_ok hc).2]
  exact .single (.repack hr)

theorem cook_changes (refused : Option Error) (key : FrameKey) (c : ConCorpus F) :
    Changes d c (cookFrame d refused c c key).2 := by
  refine call_preserves (I := Changes d c) .refl fun bytes r next hp hc => ?_
  rw [(cookCommit_ok hc).2]
  exact .single (.cook hp)

theorem migrate_changes (hz : ZstdLossless d) (refused : UInt64 → Option Error) (c : ConCorpus F) :
    Changes d c (migrateFrames d refused c).2 := by
  rw [migrateFrames]
  apply each_preserves (I := Changes d c)
  · exact fun t s hs => hs.trans (repack_changes hz (refused t) t s)
  · exact .refl

theorem recook_changes (refused : FrameKey → Option Error) (c : ConCorpus F) :
    Changes d c (recookAll d refused c).2 := by
  rw [recookAll]
  apply each_preserves (I := Changes d c)
  · exact fun key s hs => hs.trans (cook_changes (refused key) key s)
  · exact .refl

theorem op_changes (hz : ZstdLossless d) (op : Op F) (v : Verdicts) (c : ConCorpus F) :
    Changes d c (op.exec d v c).2 := by
  cases op with
  | appendStr t contents source =>
    refine changes_call fun ps r next hp hc => .single ?_
    obtain ⟨prepared, hi, hg⟩ := bind_eq_ok.mp hp
    obtain ⟨xs, _, hd⟩ := derived_of_prepare hi hg
    exact append_change hd hc
  | appendFrames t frames source fmt =>
    refine changes_call fun ps r next hp hc => .single ?_
    obtain ⟨prepared, hi, hg⟩ := bind_eq_ok.mp hp
    obtain ⟨xs, _, hd⟩ := derived_of_prepare hi hg
    exact append_change hd hc
  | extendFrames t frames hint =>
    refine changes_call fun plan r next hp hc => .single ?_
    obtain ⟨prepared, hi, hp⟩ := bind_eq_ok.mp hp
    obtain ⟨qs, hg, hp⟩ := bind_eq_ok.mp hp
    obtain rfl := pure_eq_ok.mp hp
    obtain ⟨xs, _, hd⟩ := derived_of_prepare hi hg
    exact extend_change rfl hd hc
  | setUnits t units =>
    refine changes_call fun plan r next hp hc => .single ?_
    obtain ⟨old, new, hu⟩ := prepareUnits_ok hz hp
    rw [(commitUnits_ok hc).2]
    exact .units hu
  | migrate => exact migrate_changes hz v.traj c
  | reindex => exact changes_call fun recorded r next hp hc => .single (.reindex hp hc)
  | cook key => exact cook_changes v.txn key c
  | recook => exact recook_changes v.frame c
  | deleteCooked key =>
    rcases deleteCookedSoa_cases v.txn c key with he | he
    · exact he.symm ▸ .refl
    · exact he.symm ▸ .single (.dropCooked key)
  | setCompress compress => exact .single (.compress compress)

theorem annotate_changes (seams : Seams F) (opts : AnnotateTopologyOpts F) (refused : Option Error)
    (c : ConCorpus F) : Changes d c (annotateTopology d seams refused c c opts).2 := by
  refine call_preserves (I := Changes d c) .refl fun plan r next hp hc => ?_
  cases plan with
  | none =>
    obtain ⟨_, rfl⟩ := Prod.mk.inj (Except.ok.inj hc)
    exact .refl
  | some plan => exact .single (.annotate hp hc)

-- Each call is a chain of commits, of which a failed call may have made the first ones.
theorem Action.changes (hz : ZstdLossless d) (a : Action F) (v : Verdicts) (c : ConCorpus F) :
    Changes d c (a.exec d v c).2 := by
  cases a with
  | store op => exact op_changes hz op v c
  | appendPath t file units =>
    rcases append_path_cases (d := d) (c := c) (t := t) v file units with ⟨e, he⟩ | ⟨op, _, he⟩
    · rw [exec, he]
      exact .refl
    · rw [exec, he]
      exact op_changes hz op v c
  | extendPath t file units =>
    rcases extend_path_cases (d := d) (c := c) (t := t) v file units with ⟨e, he⟩ | ⟨frames, _, he⟩
    · rw [exec, he]
      exact .refl
    · rw [exec, he]
      exact op_changes hz _ v c
  | annotate seams opts => exact annotate_changes seams opts v.txn c

theorem Changes.preserves {I : ConCorpus F → Prop} (step : ∀ s s', I s → Change d s s' → I s')
    (h : Changes d c c') (hc : I c) : I c' := by
  induction h with
  | refl => exact hc
  | tail _ hs ih => exact step _ _ ih hs

theorem History.preserves {allow : ConCorpus F → Action F → Prop} {I : ConCorpus F → Prop} (hz : ZstdLossless d)
    (start : I (ConCorpus.empty F)) (step : ∀ s s', I s → Change d s s' → I s') (h : History d allow c) : I c := by
  induction h with
  | empty => exact start
  | step a v _ _ ih => exact (a.changes hz v _).preserves step ih

theorem History.mono {allow allow' : ConCorpus F → Action F → Prop} (hle : ∀ c a, allow c a → allow' c a)
    (h : History d allow c) : History d allow' c := by
  induction h with
  | empty => exact .empty
  | step a v _ ha ih => exact .step a v ih (hle _ _ ha)

section Counted

variable {L : Texts}

def Action.Fits (d : Crates F) (c : ConCorpus F) : Action F → Prop
  | .store op => op.Fits d c
  | .appendPath _ file _ => ∀ text, file.contents = .ok text → (d.conFrames text).length < 2 ^ 32
  | .extendPath t file _ => ∀ text, file.contents = .ok text →
      (countOf c.trajMeta[t]?).toNat + (d.conFrames text).length < 2 ^ 32
  | .annotate _ _ => True

theorem framesWithUnits_ok {file : ConFile} {units : Option (Value F)} {frames : List (ConFrame F)}
    (h : framesWithUnits d file units = .ok frames) :
    ∃ text, file.contents = .ok text ∧ frames.length = (d.conFrames text).length := by
  obtain ⟨text, ht, h⟩ := bind_eq_ok.mp h
  obtain ⟨units', _, h⟩ := bind_eq_ok.mp h
  exact ⟨text, ht, mapM_length h⟩

theorem append_path_op (v : Verdicts) {file : ConFile} {units : Option (Value F)}
    (hf : (Action.appendPath t file units).Fits d c) :
    ((Action.appendPath t file units).exec d v c).2 = c ∨ ∃ op : Op F, AppendsPath d t file units op ∧ op.Fits d c ∧
      (Action.appendPath t file units).exec d v c = op.exec d v c := by
  rcases append_path_cases v file units with ⟨e, he⟩ | ⟨op, hop, he⟩
  · refine .inl ?_
    rw [Action.exec, he]
    rfl
  · refine .inr ⟨op, hop, ?_, he⟩
    cases hop with
    | text ht => exact hf _ ht
    | frames hu hfr =>
      obtain ⟨text, ht, hl⟩ := framesWithUnits_ok hfr
      exact hl.trans_lt (hf text ht)

theorem extend_path_op (v : Verdicts) {file : ConFile} {units : Option (Value F)}
    (hf : (Action.extendPath t file units).Fits d c) :
    ((Action.extendPath t file units).exec d v c).2 = c ∨ ∃ frames, framesWithUnits d file units = .ok frames ∧
      (Op.extendFrames t frames file.display).Fits d c ∧
      (Action.extendPath t file units).exec d v c = (Op.extendFrames t frames file.display).exec d v c := by
  rcases extend_path_cases v file units with ⟨e, he⟩ | ⟨frames, hfr, he⟩
  · refine .inl ?_
    rw [Action.exec, he]
    rfl
  · refine .inr ⟨frames, hfr, ?_, he⟩
    obtain ⟨text, ht, hl⟩ := framesWithUnits_ok hfr
    have hlt := hf text ht
    rw [← hl] at hlt
    exact hlt

theorem Sound.op (hz : ZstdLossless d) (h : Sound d c L) {op : Op F} (hf : op.Fits d c) (v : Verdicts) :
    ∃ L', Sound d (op.exec d v c).2 L' :=
  ⟨_, safe_step hz h op v (bounded_assign h hf _)⟩

theorem Sound.annotate (h : Sound d c L) {seams : Seams F} {opts : AnnotateTopologyOpts F}
    (refused : Option Error) : Sound d (annotateTopology d seams refused c c opts).2 L := by
  refine call_preserves (I := fun s => Sound d s L) h fun plan n next hp hc => ?_
  cases plan with
  | none =>
    obtain ⟨_, rfl⟩ := Prod.mk.inj (Except.ok.inj hc)
    exact h
  | some plan =>
    obtain ⟨hmetas, _⟩ := annotatePlan_ok hp
    obtain ⟨idx, byFrame, idx', byFrame', _, _, _, rfl⟩ := annotateCommit_ok hc
    refine h.of_counts rfl (fun t => ?_) rfl rfl rfl
    refine stampMetas_nFrames (fun row hrow => ?_) t
    rw [hmetas] at hrow
    rw [Std.ExtTreeMap.mem_toList_iff_getElem?_eq_some.mp hrow]
    rfl

theorem History.sound (hz : ZstdLossless d) (h : History d (fun c a => a.Fits d c) c) : ∃ L, Sound d c L := by
  induction h with
  | empty => exact ⟨_, sound_empty⟩
  | @step c a v _ ha ih =>
    obtain ⟨L, hL⟩ := ih
    cases a with
    | store op => exact hL.op hz ha v
    | appendPath t file units =>
      rcases append_path_op v ha with he | ⟨op, _, hf, he⟩
      · exact ⟨L, he.symm ▸ hL⟩
      · rw [he]
        exact hL.op hz hf v
    | extendPath t file units =>
      rcases extend_path_op v ha with he | ⟨frames, _, hf, he⟩
      · exact ⟨L, he.symm ▸ hL⟩
      · rw [he]
        exact hL.op hz hf v
    | annotate seams opts => exact ⟨L, hL.annotate v.txn⟩

end Counted

end Actions

end ReadconDb
