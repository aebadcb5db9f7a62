import ReadconDb.ExportH5md

set_option linter.unusedSectionVars false

namespace ReadconDb

open ByteString Outcome OrderedTable TwoPhase

inductive IngestCall (F : Type) where
  | appendStr (trajId : UInt64) (fileContents source : String)
  | appendFrames (trajId : UInt64) (frames : List (ConFrame F)) (source : String) (floatFormat : FloatFormat)
  | extendFrames (trajId : UInt64) (frames : List (ConFrame F)) (sourceHint : String)

section Ingest

variable {F : Type} [Float64 F] (d : Crates F)

namespace IngestCall

def trajId : IngestCall F → UInt64
  | .appendStr t _ _ | .appendFrames t _ _ _ | .extendFrames t _ _ => t

def texts : IngestCall F → List String
  | .appendStr _ contents _ => spanTexts d contents
  | .appendFrames _ frames _ fmt => frameTexts d fmt frames
  | .extendFrames _ frames _ => frameTexts d d.defaultFormat frames

def IsAppend : IngestCall F → Prop
  | .appendStr _ _ _ | .appendFrames _ _ _ _ => True
  | .extendFrames _ _ _ => False

def exec (call : IngestCall F) (snap : ConCorpus F) (refused : Option Error) (live : ConCorpus F) :
    Result UInt32 × ConCorpus F :=
  match call with
  | .appendStr t contents source => appendTrajectoryStr d refused snap live t contents source
  | .appendFrames t frames source fmt =>
    appendTrajectoryFramesWithFloatFormat d refused snap live t frames source fmt
  | .extendFrames t frames hint => extendTrajectoryFrames d refused snap live t frames hint

def Fits (snap : ConCorpus F) : IngestCall F → Prop
  | .appendStr _ contents _ => (d.conFrames contents).length < 2 ^ 32
  | .appendFrames _ frames _ _ => frames.length < 2 ^ 32
  | .extendFrames t frames _ => (countOf snap.trajMeta[t]?).toNat + frames.length < 2 ^ 32

end IngestCall

abbrev IngestLog (F : Type) := List (IngestCall F × Result UInt32)

def commitOf (entry : IngestCall F × Result UInt32) : Option (UInt64 × List String) :=
  match entry.2 with
  | .ok _ => some (entry.1.trajId, entry.1.texts d)
  | .error _ => none

def commits (log : IngestLog F) : List (UInt64 × List String) := log.filterMap (commitOf d)

def commitsOn (log : IngestLog F) (t : UInt64) : List (List String) := Ledger.parts t (commits d log)

def Returned (past : IngestLog F) (entry : IngestCall F × Result UInt32) : Prop :=
  ∀ n, entry.2 = .ok n →
    (entry.1.IsAppend → commitsOn d past entry.1.trajId = []) ∧
      n.toNat = (commitsOn d (past ++ [entry]) entry.1.trajId).flatten.length

structure NothingLost (log : IngestLog F) (c : ConCorpus F) : Prop where
  keys : ∀ b, b ∈ c.frames ↔
    ∃ k : FrameKey, b = k.toBytes.val ∧ k.frameIdx.toNat < (commitsOn d log k.trajId).flatten.length
  texts : ∀ k : FrameKey,
    (getFrameText d c k).toOption = (commitsOn d log k.trajId).flatten[k.frameIdx.toNat]?
  counts : ∀ t, (c.trajMeta[t]?).map (fun m => m.nFrames.toNat) =
    if commitsOn d log t = [] then none else some (commitsOn d log t).flatten.length
  returned : AtEach (Returned d) log

end Ingest

section Runs

variable {F : Type} [Float64 F] {d : Crates F} {snap live : ConCorpus F} {L : Texts}

-- A call commits on what is live, whatever it read before.
theorem IngestCall.exec_cases (hz : ZstdLossless d) (h : Sound d live L) (call : IngestCall F)
    (refused : Option Error) (hf : call.Fits d snap) :
    (∃ e, call.exec d snap refused live = (.error e, live)) ∨
      ∃ n next, call.exec d snap refused live = (.ok n, next) ∧ (call.IsAppend → L call.trajId = none) ∧
        n.toNat = L.count call.trajId + (call.texts d).length ∧
        Sound d next (L.extend call.trajId (call.texts d)) := by
  have happend {t : UInt64} {source : String} {xs : List (ConFrame F × String)} {ps : List PreparedIndexPuts}
      {n : UInt32} {next : ConCorpus F} (hg : Ingests d t 0 xs ps) (hn : xs.length < 2 ^ 32)
      (hc : commitPrepared d t source false ps live = .ok (n, next)) :
      L t = none ∧ n.toNat = L.count t + (xs.map Prod.snd).length ∧
        Sound d next (L.extend t (xs.map Prod.snd)) := by
    obtain ⟨hL, rfl, hs⟩ := h.commitPrepared hg hn hc
    refine ⟨hL, ?_, (Ledger.extend_blank_at hL _).symm ▸ hs⟩
    rw [Ledger.count, hL, UInt32.toNat_ofNat', Nat.mod_eq_of_lt hn]
    simp
  cases call with
  | appendStr t contents source =>
    rcases call_cases (prepareAppendStr d snap t contents) refused (commitPrepared d t source false) live with
      he | ⟨ps, n, next, _, hp, hc, he⟩
    · exact .inl he
    · obtain ⟨xs, hxs, hg⟩ := prepareAppendStr_ok hz hp
      have htexts : (IngestCall.appendStr t contents source).texts d = xs.map Prod.snd := by
        rw [IngestCall.texts, spanTexts, hxs, okTexts_ok]
      have hlen : (d.conFrames contents).length = xs.length := by
        simpa [spans] using congrArg List.length hxs
      obtain ⟨hL, hn, hs⟩ := happend hg (hlen ▸ hf) hc
      rw [htexts]
      exact .inr ⟨n, next, he, fun _ => hL, hn, hs⟩
  | appendFrames t frames source fmt =>
    rcases call_cases (prepareAppendFrames d snap t frames fmt) refused (commitPrepared d t source false) live with
      he | ⟨ps, n, next, _, hp, hc, he⟩
    · exact .inl he
    · obtain ⟨xs, hxs, hg⟩ := prepareAppendFrames_ok hz hp
      have htexts : (IngestCall.appendFrames t frames source fmt).texts d = xs.map Prod.snd := by
        rw [IngestCall.texts, frameTexts, hxs, okTexts_ok]
      have hlen : frames.length = xs.length := by simpa using congrArg List.length hxs
      obtain ⟨hL, hn, hs⟩ := happend hg (hlen ▸ hf) hc
      rw [htexts]
      exact .inr ⟨n, next, he, fun _ => hL, hn, hs⟩
  | extendFrames t frames hint =>
    rcases call_cases (prepareExtend d snap t frames) refused
      (fun plan => commitExtend d t hint plan.1 plan.2) live with he | ⟨plan, n, next, _, hp, hc, he⟩
    · exact .inl he
    · obtain ⟨hprior, xs, hxs, hg⟩ := prepareExtend_ok hz hp
      have htexts : (IngestCall.extendFrames t frames hint).texts d = xs.map Prod.snd := by
        rw [IngestCall.texts, frameTexts, hxs, okTexts_ok]
      have hlen : frames.length = xs.length := by simpa using congrArg List.length hxs
      have hsame := (commitExtend_ok hc).1
      have hfit : (countOf snap.trajMeta[t]?).toNat + frames.length < 2 ^ 32 := hf
      rw [hlen, ← hprior, ← hsame, h.refines.countOf] at hfit
      obtain ⟨rfl, hs⟩ := h.commitExtend hg hfit hc
      rw [htexts]
      refine .inr ⟨_, next, he, False.elim, ?_, hs⟩
      rw [UInt32.toNat_ofNat', Nat.mod_eq_of_lt hfit, List.length_map]
      rfl

def ledgerOf (d : Crates F) (log : IngestLog F) : Texts := Ledger.extendAll Ledger.blank (commits d log)

theorem commits_error (log : IngestLog F) (call : IngestCall F) (e : Error) :
    commits d (log ++ [(call, .error e)]) = commits d log := by
  simp [commits, commitOf, List.filterMap_append]

theorem commits_ok (log : IngestLog F) (call : IngestCall F) (n : UInt32) :
    commits d (log ++ [(call, .ok n)]) = commits d log ++ [(call.trajId, call.texts d)] := by
  simp [commits, commitOf, List.filterMap_append]

theorem ledgerOf_none_iff (log : IngestLog F) (t : UInt64) :
    ledgerOf d log t = none ↔ commitsOn d log t = [] := by
  rw [ledgerOf, Ledger.extendAll_blank, commitsOn]
  split <;> simp_all

theorem count_ledgerOf (log : IngestLog F) (t : UInt64) :
    (ledgerOf d log).count t = (commitsOn d log t).flatten.length := by
  rw [Ledger.count, ledgerOf, Ledger.extendAll_blank_getD, commitsOn]

structure Ingested (d : Crates F) (log : IngestLog F) (c : ConCorpus F) : Prop where
  sound : Sound d c (ledgerOf d log)
  returned : AtEach (Returned d) log

theorem ingested_empty (compress : Bool) : Ingested d [] (setCompressFrames (ConCorpus.empty F) compress) where
  sound := sound_empty.setCompress compress
  returned := atEach_nil

theorem Ingested.finish (hz : ZstdLossless d) {log : IngestLog F} (h : Ingested d log live)
    (call : IngestCall F) (refused : Option Error) (hf : call.Fits d snap) :
    Ingested d (log ++ [(call, (call.exec d snap refused live).1)]) (call.exec d snap refused live).2 := by
  rcases call.exec_cases hz h.sound refused hf with ⟨e, he⟩ | ⟨n, next, he, hfirst, hn, hs⟩
  · rw [he]
    refine ⟨?_, h.returned.snoc fun n hn => by cases hn⟩
    rw [ledgerOf, commits_error]
    exact h.sound
  · rw [he]
    refine ⟨?_, h.returned.snoc fun n' hn' => ?_⟩
    · rw [ledgerOf, commits_ok, Ledger.extendAll_snoc]
      exact hs
    · obtain rfl := Except.ok.inj hn'
      refine ⟨fun ha => (ledgerOf_none_iff log _).mp (hfirst ha), ?_⟩
      rw [hn, count_ledgerOf, commitsOn, commitsOn, commits_ok, Ledger.parts_append,
        Ledger.parts_singleton_self, List.flatten_append, List.flatten_singleton, List.length_append]

theorem Ingested.nothingLost {log : IngestLog F} {c : ConCorpus F} (h : Ingested d log c) :
    NothingLost d log c where
  keys b := by
    rw [h.sound.refines.readsBack.keys]
    constructor
    · rintro ⟨k, m, rfl, hm, hlt⟩
      have hk := (h.sound.refines.lt_nFrames_iff k).mp ⟨m, hm, hlt⟩
      exact ⟨k, rfl, count_ledgerOf log k.trajId ▸ hk⟩
    · rintro ⟨k, rfl, hk⟩
      rw [← count_ledgerOf] at hk
      obtain ⟨m, hm, hlt⟩ := (h.sound.refines.lt_nFrames_iff k).mpr hk
      exact ⟨k, m, rfl, hm, hlt⟩
  texts k := by
    have ht := h.sound.refines.text k
    rw [Ledger.entry_eq, ledgerOf, Ledger.extendAll_blank_getD] at ht
    exact ht
  counts t := by
    have hc := h.sound.refines.counts t
    have hsmall := h.sound.refines.small t
    rw [Ledger.count, ledgerOf, Ledger.extendAll_blank_getD] at hsmall
    rw [ledgerOf, Ledger.extendAll_blank] at hc
    have hmap : (c.trajMeta[t]?).map (fun m => m.nFrames.toNat) =
        ((c.trajMeta[t]?).map TrajMeta.nFrames).map UInt32.toNat := by rw [Option.map_map]; rfl
    rw [hmap, hc, commitsOn]
    split
    · rfl
    · rw [Option.map_some, Option.map_some, UInt32.toNat_ofNat', Nat.mod_eq_of_lt hsmall]
  returned := h.returned

theorem concurrent_ingest_loses_nothing (hz : ZstdLossless d) (compress : Bool)
    {g : Config (ConCorpus F) (IngestCall F) UInt32 Error}
    (h : Run (IngestCall.exec d) (fun call snap _ => call.Fits d snap)
      (setCompressFrames (ConCorpus.empty F) compress) g) :
    NothingLost d g.log g.shared := by
  have hstep : ∀ log call snap refused live, Ingested d log live → (∃ past, Ingested d past snap) → True →
      IngestCall.Fits d snap call →
      Ingested d (log ++ [(call, (call.exec d snap refused live).1)]) (call.exec d snap refused live).2 ∧ True :=
    fun _ call _ refused _ hi _ _ hf => ⟨hi.finish hz call refused hf, trivial⟩
  exact (Run.invariant (fun _ => trivial) (fun _ _ => trivial) hstep (ingested_empty compress) h).1.nothingLost

end Runs

section Tiny

def tinyRace : List (IngestCall Bits) :=
  [.appendStr 0 (hydrogen.2 ++ helium.2) "tiny.con", .extendFrames 0 [helium.1] ""]

theorem tinyRace_run : ∃ g, Run (IngestCall.exec tiny) (fun call snap _ => call.Fits tiny snap)
    (setCompressFrames (ConCorpus.empty Bits) true) g ∧ g.log.map Prod.fst = tinyRace := by
  have hfits : (IngestCall.extendFrames 0 [helium.1] "").Fits tiny
      (setCompressFrames (ConCorpus.empty Bits) true) := by
    simp [IngestCall.Fits, setCompressFrames, ConCorpus.empty, countOf]
  obtain ⟨_, g, hrun, hlast, hlog, _⟩ := Run.overlap (IngestCall.exec tiny) (fun call snap _ => call.Fits tiny snap)
    (setCompressFrames (ConCorpus.empty Bits) true) (.appendStr 0 (hydrogen.2 ++ helium.2) "tiny.con")
    (.extendFrames 0 [helium.1] "") (tinyAppend_fits (ConCorpus.empty Bits)) hfits
  exact ⟨g, hrun.trans hlast, hlog⟩

theorem tiny_ingest_loses_nothing : ∃ g : Config (ConCorpus Bits) (IngestCall Bits) UInt32 Error,
    g.log.map Prod.fst = tinyRace ∧ NothingLost tiny g.log g.shared := by
  obtain ⟨g, hrun, hlog⟩ := tinyRace_run
  exact ⟨g, hlog, concurrent_ingest_loses_nothing tiny_lossless true hrun⟩

-- A call that stores `2 ^ 32` frames reports that the trajectory has none.
theorem tiny_ingest_miscounts : ∃ g, Run (IngestCall.exec tiny) (fun _ _ _ => True)
    (setCompressFrames (ConCorpus.empty Bits) true) g ∧ ¬ NothingLost tiny g.log g.shared := by
  obtain ⟨n, hn⟩ : ∃ n, n = 2 ^ 32 := ⟨_, rfl⟩
  have hx := serialize_heliums tiny.defaultFormat n
  have hempty : (setCompressFrames (ConCorpus.empty Bits) true).trajMeta[(0 : UInt64)]? = none := by
    simp [ConCorpus.empty, setCompressFrames]
  obtain ⟨qs, m, _, _, hexec⟩ := appendFrames_total (tiny_packs fun x hx => .inr (List.eq_of_mem_replicate hx))
    hempty hx "tiny.con"
  have hstart : Run (IngestCall.exec tiny) (fun _ _ _ => True) (setCompressFrames (ConCorpus.empty Bits) true) _ :=
    Relation.ReflTransGen.refl
  have hrun := Run.finish [] (hstart.start (.appendFrames 0 (List.replicate n helium.1) "tiny.con"
    tiny.defaultFormat)) none trivial
  refine ⟨_, hrun, fun hl => ?_⟩
  obtain ⟨r, hr, hcount⟩ := counted_ok (congrArg Prod.fst hexec)
  have hdone : ((IngestCall.appendFrames 0 (List.replicate n helium.1) "tiny.con" tiny.defaultFormat).exec tiny
      (setCompressFrames (ConCorpus.empty Bits) true) none (setCompressFrames (ConCorpus.empty Bits) true)).1 =
        .ok r := hr
  have hret := (hl.returned [] _ [] rfl r hdone).2
  have htexts : frameTexts tiny tiny.defaultFormat (List.replicate n helium.1) = List.replicate n helium.2 := by
    rw [frameTexts, hx, okTexts_ok, List.map_replicate]
  have hlen : (commitsOn tiny ([] ++ [(IngestCall.appendFrames 0 (List.replicate n helium.1) "tiny.con"
      tiny.defaultFormat, .ok r)]) 0).flatten.length = n := by
    rw [commitsOn, commits_ok]
    simp [commits, IngestCall.trajId, IngestCall.texts, htexts]
  have hzero : (UInt32.ofNat (List.replicate n helium).length).toNat = 0 := by
    rw [List.length_replicate, hn]
    decide
  rw [hdone, hcount, hzero] at hret
  have hcontra : 0 = n := hret.trans hlen
  omega

end Tiny

end ReadconDb
