import ReadconDb.ConcurrentIngest

set_option linter.unusedSectionVars false

namespace ReadconDb

open ByteString Outcome OrderedTable TwoPhase

inductive MaintenanceCall (F : Type) where
  | setUnits (trajId : UInt64) (units : Value F)
  | repack (trajId : UInt64)
  | cook (key : FrameKey)

section Maintenance

variable {F : Type} [Float64 F] (d : Crates F)

namespace MaintenanceCall

def exec (call : MaintenanceCall F) (snap : ConCorpus F) (refused : Option Error) (live : ConCorpus F) :
    Result Nat × ConCorpus F :=
  match call with
  | .setUnits t units => counted UInt32.toNat (setTrajectoryUnits d refused snap live t units)
  | .repack t => counted UInt32.toNat (repackTraj d refused snap live t)
  | .cook key => counted id (cookFrame d refused snap live key)

-- No frame of the call has had its text changed between the read and the write, and a repack finds the rows
-- it leaves as they are.
def Undisturbed (snap live : ConCorpus F) : MaintenanceCall F → Prop
  | .setUnits t _ => SameTexts d t snap live
  | .repack t => SameTexts d t snap live ∧
      ∀ changed, repackPlan d snap t = .ok changed → SkippedRows t changed snap live
  | .cook key => textAt d live key = textAt d snap key

end MaintenanceCall

structure Consistent (d : Crates F) (c : ConCorpus F) : Prop where
  readable : Readable d c
  index : IndexExact d c
  hash : HashExact d c
  cooked : CookedExact d c

variable {d} {c snap live next : ConCorpus F} {n : Nat}

theorem Consistent.commitUnits (hz : ZstdLossless d) (hw : RoundTrips d) (h : Consistent d live) {t : UInt64}
    {units : Value F} {plan : UnitsPlan} {r : UInt32} (hp : prepareUnits d snap t units = .ok plan)
    (hs : SameTexts d t snap live) (hc : commitUnits plan live = .ok (r, next)) : Consistent d next := by
  obtain ⟨old, new, hu⟩ := prepareUnits_ok hz hp
  exact
    { readable := h.readable.commitUnits hu hs hc
      index := h.index.commitUnits hw h.readable hu hs hc
      hash := h.hash.commitUnits h.readable hu hs hc
      cooked := h.cooked.commitUnits h.readable hu hs hc }

theorem Consistent.repackCommit (hz : ZstdLossless d) (h : Consistent d live) {t : UInt64}
    {changed : List (FrameKey × Bytes)} {r : UInt32} (hp : repackPlan d snap t = .ok changed)
    (hs : SameTexts d t snap live) (hk : SkippedRows t changed snap live)
    (hc : repackCommit changed live = .ok (r, next)) : Consistent d next := by
  obtain ⟨ks, packed, hr⟩ := repackPlan_ok hz hp
  have hview := textAt_repack hr h.readable hs hk hc
  have hread := h.readable.repackCommit hr hs hk hc
  rw [(repackCommit_ok hc).2] at *
  exact ⟨hread, h.index.of_view hview rfl, h.hash.of_view hview rfl rfl, h.cooked.of_view hview rfl⟩

theorem Consistent.cookCommit (h : Consistent d live) {key : FrameKey} {bytes : Bytes}
    (hp : cookPlan d snap key = .ok bytes) (hs : textAt d live key = textAt d snap key)
    (hc : cookCommit key bytes live = .ok (n, next)) : Consistent d next := by
  have hcooked := h.cooked.cookCommit hp hs hc
  rw [(cookCommit_ok hc).2] at *
  have hview (k : FrameKey) : textAt d { live with framesSoa := live.framesSoa.insert key.toBytes.val bytes } k =
      textAt d live k := textAt_of_frames_eq rfl k
  exact ⟨readable_of_frames_eq (c := live) rfl h.readable, h.index.of_view hview rfl, h.hash.of_view hview rfl rfl, hcooked⟩

theorem cookFrame_frames (refused : Option Error) (key : FrameKey) :
    (cookFrame d refused snap live key).2.frames = live.frames := by
  refine call_preserves (I := fun s : ConCorpus F => s.frames = live.frames) rfl fun _ _ _ _ hc => ?_
  rw [(cookCommit_ok hc).2]

theorem exec_cook_text (refused : Option Error) (key k : FrameKey) :
    textAt d ((MaintenanceCall.cook key).exec d snap refused live).2 k = textAt d live k :=
  textAt_of_frames_eq (cookFrame_frames refused key) k

theorem Consistent.finish (hz : ZstdLossless d) (hw : RoundTrips d) (h : Consistent d live)
    (call : MaintenanceCall F) (refused : Option Error) (hu : call.Undisturbed d snap live) :
    Consistent d (call.exec d snap refused live).2 := by
  cases call with
  | setUnits t units =>
    exact call_preserves (I := Consistent d) h fun _ _ _ hp hc => h.commitUnits hz hw hp hu hc
  | repack t =>
    exact call_preserves (I := Consistent d) h fun changed _ _ hp hc =>
      h.repackCommit hz hp hu.1 (hu.2 changed hp) hc
  | cook key =>
    exact call_preserves (I := Consistent d) h fun _ _ _ hp hc => h.cookCommit hp hu hc

theorem maintenance_keeps_consistent (hz : ZstdLossless d) (hw : RoundTrips d) {start : ConCorpus F}
    (hs : Consistent d start) {g : Config (ConCorpus F) (MaintenanceCall F) Nat Error}
    (h : Run (MaintenanceCall.exec d) (fun call snap live => call.Undisturbed d snap live) start g) :
    Consistent d g.shared :=
  Run.preserves (fun call _ refused _ hi _ hu => hi.finish hz hw call refused hu) hs h

theorem Reached.consistent (hz : ZstdLossless d) (hw : RoundTrips d) (hs : SpansReparse d)
    (hp : ProjectionAgrees d) {L : Texts} (h : Reached d (fun c op _ => op.Exact d ∧ op.Fits d c) c L) :
    Consistent d c := by
  have hb := reached_bounded hz (fun _ _ _ ha => ha.2) h
  have hsound := reached_sound hz (fun _ _ _ ha => ha.2) hb
  have hi := reached_screens hz hw hs hp (fun _ _ _ ha => ⟨ha.1.1, ha.2⟩) hb
  exact ⟨hsound.refines.readable, hi, hsound.hash, hsound.cooked⟩

end Maintenance

section Tiny

def tinyOne : ConCorpus Bits × Texts := tinyNext (.appendStr 0 hydrogen.2 "tiny.con") tinyEmpty

theorem tinyOne_reached : Reached tiny (fun c op _ => op.Exact tiny ∧ op.Fits tiny c) tinyOne.1 tinyOne.2 := by
  have hparse : tiny.conFrames hydrogen.2 = [.ok hydrogen] := Catalog.conFrames_last hydrogen_mem
  have hfits : (tiny.conFrames hydrogen.2).length < 2 ^ 32 := by
    rw [hparse]
    decide
  exact tinyNext_reached (s := tinyEmpty) .empty ⟨trivial, hfits⟩

theorem tinyOne_consistent : Consistent tiny tinyOne.1 :=
  tinyOne_reached.consistent tiny_lossless tiny_roundTrips tiny_spansReparse tiny_agrees

def tinyMetric : MaintenanceCall Bits := .setUnits 0 (.object [("length", .string "nm")])

def tinyUpkeep : List (MaintenanceCall Bits) := [.cook ⟨0, 0⟩, tinyMetric]

theorem tinyUpkeep_run : ∃ g, Run (MaintenanceCall.exec tiny)
    (fun call snap live => call.Undisturbed tiny snap live) tinyOne.1 g ∧ g.log.map Prod.fst = tinyUpkeep := by
  have hsame : tinyMetric.Undisturbed tiny tinyOne.1
      ((MaintenanceCall.cook ⟨0, 0⟩).exec tiny tinyOne.1 none tinyOne.1).2 := by
    intro k _
    rw [exec_cook_text]
  obtain ⟨_, g, hrun, hlast, hlog, _⟩ := Run.overlap (MaintenanceCall.exec tiny)
    (fun call snap live => call.Undisturbed tiny snap live) tinyOne.1 (.cook ⟨0, 0⟩) tinyMetric rfl hsame
  exact ⟨g, hrun.trans hlast, hlog⟩

theorem tiny_maintenance_consistent : ∃ g : Config (ConCorpus Bits) (MaintenanceCall Bits) Nat Error,
    g.log.map Prod.fst = tinyUpkeep ∧ Consistent tiny g.shared := by
  obtain ⟨g, hrun, hlog⟩ := tinyUpkeep_run
  exact ⟨g, hlog, maintenance_keeps_consistent tiny_lossless tiny_roundTrips tinyOne_consistent hrun⟩

theorem tinyOne_texts : tinyOne.2 0 = some [hydrogen.2] := by decide +kernel

theorem reached_text {c : ConCorpus Bits} {L : Texts}
    (h : Reached tiny (fun c op _ => op.Exact tiny ∧ op.Fits tiny c) c L) (k : FrameKey) :
    textAt tiny c k = L.entry k.trajId k.frameIdx.toNat :=
  (reached_sound tiny_lossless (fun _ _ _ ha => ha.2) (reached_bounded tiny_lossless (fun _ _ _ ha => ha.2) h)).refines.text k

theorem tinyOne_frame : getFrame tiny tinyOne.1 ⟨0, 0⟩ = .ok hydrogen.1 := by
  have hentry : tinyOne.2.entry 0 0 = some hydrogen.2 := by
    rw [Ledger.entry, tinyOne_texts]
    rfl
  have htext : textAt tiny tinyOne.1 ⟨0, 0⟩ = some hydrogen.2 := (reached_text tinyOne_reached ⟨0, 0⟩).trans hentry
  exact getFrame_eq_ok.mpr ⟨hydrogen.2, htext, Catalog.parsed_entry hydrogen_mem⟩

theorem tinyMetric_rewrites : rewrittenText tiny (.object [("length", .string "nm")]) hydrogen.2 = some hydrogenNm.2 := by
  have hparsed : parsed tiny hydrogen.2 = some hydrogen.1 := Catalog.parsed_entry hydrogen_mem
  have hrewrite : (rewriteFrame tiny (.object [("length", .string "nm")]) hydrogen.1).toOption = some hydrogenNm.1 := by
    decide +kernel
  have hserialize : (serialize tiny .roundTrip hydrogenNm.1).toOption = some hydrogenNm :=
    congrArg Except.toOption (Catalog.serialize_entry (by decide +kernel) .roundTrip)
  rw [rewrittenText, hparsed]
  simp only [Option.bind_eq_bind, Option.bind_some, hrewrite, hserialize]
  rfl

theorem tinyMetric_text : textAt tiny (tinyMetric.exec tiny tinyOne.1 none tinyOne.1).2 ⟨0, 0⟩ = some hydrogenNm.2 := by
  have hdone : (tinyMetric.exec tiny tinyOne.1 none tinyOne.1).1.toOption.isSome = true := by decide +kernel
  have hreached := tinyOne_reached.step (.setUnits 0 (.object [("length", .string "nm")])) .granted ⟨trivial, trivial⟩
  have htext := reached_text hreached ⟨0, 0⟩
  cases hout : (tinyMetric.exec tiny tinyOne.1 none tinyOne.1).1 with
  | error e =>
    rw [hout] at hdone
    cases hdone
  | ok n =>
    have hop : ((Op.setUnits 0 (.object [("length", .string "nm")])).exec tiny .granted tinyOne.1).1 = .ok n := hout
    rw [hop] at htext
    refine htext.trans ?_
    rw [Op.assign, Ledger.entry_write_self, tinyOne_texts, Option.getD_some, List.filterMap_cons, tinyMetric_rewrites]
    rfl

-- The blob of the text that a unit change has replaced meanwhile.
theorem tiny_cooked_overlap : ¬ CookedExact tiny ((MaintenanceCall.cook ⟨0, 0⟩).exec tiny tinyOne.1 none
    (tinyMetric.exec tiny tinyOne.1 none tinyOne.1).2).2 := by
  intro h
  have hencoded : (CookedSoa.encodeFrame hydrogen.1).toOption ≠ none ∧
      (CookedSoa.encodeFrame hydrogen.1).toOption ≠ (CookedSoa.encodeFrame hydrogenNm.1).toOption := by decide +kernel
  cases hb : CookedSoa.encodeFrame hydrogen.1 with
  | error e => exact hencoded.1 (congrArg Except.toOption hb)
  | ok b =>
    have hplan : cookPlan tiny tinyOne.1 ⟨0, 0⟩ = .ok b := by
      simp only [cookPlan, tinyOne_frame, bind, Except.bind, hb]
    have hrow : ((MaintenanceCall.cook ⟨0, 0⟩).exec tiny tinyOne.1 none
        (tinyMetric.exec tiny tinyOne.1 none tinyOne.1).2).2.framesSoa[(FrameKey.mk 0 0).toBytes.val]? = some b := by
      simp only [MaintenanceCall.exec, cookFrame, hplan, call, write, cookCommit, counted]
      exact (get_insert _ _ _ _).trans (if_pos rfl)
    obtain ⟨s, f, hs, hf, hblob⟩ := h ⟨0, 0⟩ b hrow
    rw [exec_cook_text, tinyMetric_text, Option.some.injEq] at hs
    have hparsed : parsed tiny hydrogenNm.2 = some hydrogenNm.1 := Catalog.parsed_entry hydrogenNm_mem
    rw [← hs, hparsed, Option.some.injEq] at hf
    rw [← hf] at hblob
    exact hencoded.2 (congrArg Except.toOption (hb.trans hblob.symm))

theorem tiny_maintenance_overlaps : ∃ start g, Consistent tiny start ∧
    Run (MaintenanceCall.exec tiny) (fun _ _ _ => True) start g ∧ ¬ Consistent tiny g.shared := by
  obtain ⟨_, g, hrun, hlast, _, _, hg⟩ := Run.overlap (MaintenanceCall.exec tiny) (fun _ _ _ => True) tinyOne.1 tinyMetric
    (.cook ⟨0, 0⟩) trivial trivial
  refine ⟨_, g, tinyOne_consistent, hrun.trans hlast, fun h => tiny_cooked_overlap ?_⟩
  rw [← hg]
  exact h.cooked

end Tiny

end ReadconDb
