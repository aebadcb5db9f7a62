import ReadconDb.Joining
import ReadconDb.Migration
import ReadconDb.Library.Splicing

set_option linter.unusedSectionVars false

namespace ReadconDb

open ByteString Outcome OrderedTable TwoPhase Ownership Splicing

def EndsLine (s : String) : Prop := s.toList.getLast? = some '\n'

section Lines

variable {F : Type} [Float64 F] (d : Crates F)

def cuts (text : String) : Option (List String) := ((spans d text).mapM id).toOption.map (List.map Prod.snd)

-- readcon-core reads and writes frames line by line, and cuts a text where its frames end.
structure LineBased (d : Crates F) : Prop extends Splices (cuts d) String.join EndsLine where
  written : ∀ {f : ConFrame F} {x : ConFrame F × String}, serialize d d.defaultFormat f = .ok x →
    Piece (cuts d) x.2 ∧ EndsLine x.2

def trajTexts (c : ConCorpus F) (t : UInt64) : List String := (storedFrames c t).filterMap (textAt d c)

def numbered (ss : List String) : List (UInt32 × String) := (framed 0 0 ss).map slotText

-- Each text but the last closes its line, and none that shares a group is too long for a `u32`.
structure Spliceable (ss : List String) : Prop where
  lines : ∀ s ∈ ss.dropLast, EndsLine s
  packs : ∀ run ∈ (numbered ss).splitBy sameGroup, 2 ≤ run.length → ShortTexts run

def Joinable (c : ConCorpus F) : Prop := ∀ t, Spliceable (trajTexts d c t)

def Op.Builds : Op F → Prop
  | .appendStr _ _ _ | .extendFrames _ _ _ => True
  | _ => False

-- A corpus built by appends and extensions, with no more frames to a trajectory than a `u32` can number.
abbrev Built (c : ConCorpus F) (L : Texts) : Prop := Reached d (fun c op _ => op.Builds ∧ op.Fits d c) c L

variable {d} {c : ConCorpus F} {L : Texts} {t : UInt64}

theorem cuts_eq_some {text : String} {ss : List String} :
    cuts d text = some ss ↔ ∃ xs : List (ConFrame F × String), spans d text = xs.map Except.ok ∧ xs.map Prod.snd = ss := by
  have hitems (xs : List (ConFrame F × String)) : (spans d text).mapM id = .ok xs ↔ spans d text = xs.map Except.ok := by
    rw [mapM_eq_ok, ← List.forall₂_eq_eq_eq, List.forall₂_map_right_iff]
    rfl
  rw [cuts, Option.map_eq_some_iff]
  simp only [toOption_eq_some, hitems]

theorem Built.bounded (hz : ZstdLossless d) (h : Built d c L) : Sound d c L :=
  reached_sound hz (fun _ _ _ ha => ha.2) (reached_bounded hz (fun _ _ _ ha => ha.2) h)

theorem numbered_texts (t : UInt64) (xs : List (ConFrame F × String)) :
    ((framed t 0 xs).map rowText).map slotText = numbered (xs.map Prod.snd) := by
  have hall (idx : UInt32) : ((framed t idx xs).map rowText).map slotText = (framed 0 idx (xs.map Prod.snd)).map slotText := by
    induction xs generalizing idx with
    | nil => rfl
    | cons x xs ih => rw [List.map_cons, framed, framed, List.map_cons, List.map_cons, List.map_cons, ih]; rfl
  exact hall 0

theorem Built.grown (hz : ZstdLossless d) (hl : LineBased d) (h : Built d c L) {ss : List String} (hs : L t = some ss) :
    Grown (cuts d) EndsLine ss := by
  induction h generalizing t ss with
  | empty => cases hs
  | @step c L op v _ ha ih =>
    cases hout : (op.exec d v c).1 with
    | error e =>
      rw [hout] at hs
      exact ih hs
    | ok n =>
      rw [hout] at hs
      cases op with
      | appendStr u contents source =>
        by_cases hu : t = u
        · subst hu
          have htexts : spanTexts d contents = ss := by
            rw [Op.assign, Ledger.write_self] at hs
            exact Option.some.inj hs
          obtain ⟨_, hok, _⟩ := counted_ok hout
          rcases call_cases (prepareAppendStr d c t contents) v.txn (commitPrepared d t source false) c with
            ⟨e, he⟩ | ⟨ps, r, next, _, hp, _, _⟩
          · rw [appendTrajectoryStr, he] at hok
            cases hok
          · obtain ⟨xs, hxs, _⟩ := prepareAppendStr_ok hz hp
            apply grown_parse (t := contents)
            rw [cuts_eq_some]
            refine ⟨xs, hxs, ?_⟩
            rw [← htexts, spanTexts, hxs, okTexts_ok]
        · rw [Op.assign, Ledger.write_other _ _ hu] at hs
          exact ih hs
      | extendFrames u frames hint =>
        by_cases hu : t = u
        · subst hu
          have hmore : ∀ s ∈ frameTexts d d.defaultFormat frames, Piece (cuts d) s ∧ EndsLine s := by
            intro s hm
            obtain ⟨item, hi, hitem⟩ := List.mem_filterMap.mp hm
            obtain ⟨f, _, rfl⟩ := List.mem_map.mp hi
            obtain ⟨x, hx, rfl⟩ := Option.map_eq_some_iff.mp hitem
            exact hl.written (toOption_eq_some.mp hx)
          rw [Op.assign, Ledger.extend, Ledger.write_self, Option.some.injEq] at hs
          subst hs
          cases hL : L t with
          | none =>
            rw [Option.getD_none, List.nil_append]
            exact hl.grown_closed hmore
          | some ss =>
            rw [Option.getD_some]
            exact (ih hL).append hmore
        · rw [Op.assign, Ledger.extend, Ledger.write_other _ _ hu] at hs
          exact ih hs
      | _ => exact ha.1.elim

theorem stored_framed (h : Refines d c L) (t : UInt64) :
    storedFrames c t = (framed t 0 ((L t).getD [])).map Prod.fst := by
  have hn : (0 : UInt32).toNat + ((L t).getD []).length ≤ 2 ^ 32 := by
    rw [UInt32.toNat_zero, Nat.zero_add]
    exact (h.small t).le
  have hsorted : ((framed t 0 ((L t).getD [])).map Prod.fst).Pairwise (· < ·) := by
    rw [List.pairwise_map]
    refine (framed_lt hn).imp_of_mem fun {r s} hr hs hlt => ?_
    show FrameKey.lexKey r.1 < FrameKey.lexKey s.1
    rw [FrameKey.lexKey, FrameKey.lexKey, Prod.Lex.toLex_lt_toLex, framed_traj hr, framed_traj hs]
    exact .inr ⟨rfl, UInt32.lt_iff_toNat_lt.mp hlt⟩
  refine (storedFrames_lt (c := c)).sortedLT.eq_of_mem_iff hsorted.sortedLT fun k => ?_
  rw [mem_storedFrames, rowOf_isSome_iff h.readable, h.text, List.mem_map]
  constructor
  · rintro ⟨⟨s, hs⟩, rfl⟩
    rw [Ledger.entry_eq] at hs
    exact ⟨(k, s), (mem_framed hn).mpr ⟨rfl, Nat.zero_le _, hs⟩, rfl⟩
  · rintro ⟨r, hr, rfl⟩
    obtain ⟨ht, _, hs⟩ := (mem_framed hn).mp hr
    refine ⟨⟨r.2, ?_⟩, ht⟩
    rw [Ledger.entry_eq, ht]
    exact hs

theorem framed_text (h : Refines d c L) {r : FrameKey × String} (hr : r ∈ framed t 0 ((L t).getD [])) :
    textAt d c r.1 = some r.2 := by
  have hn : (0 : UInt32).toNat + ((L t).getD []).length ≤ 2 ^ 32 := by
    rw [UInt32.toNat_zero, Nat.zero_add]
    exact (h.small t).le
  obtain ⟨ht, _, hs⟩ := (mem_framed hn).mp hr
  rw [h.text, Ledger.entry_eq, ht]
  exact hs

theorem trajTexts_eq (h : Refines d c L) (t : UInt64) : trajTexts d c t = (L t).getD [] := by
  have hsome : (framed t 0 ((L t).getD [])).filterMap (fun r => textAt d c r.1) =
      (framed t 0 ((L t).getD [])).filterMap fun r => some r.2 :=
    List.filterMap_congr fun r hr => framed_text h hr
  rw [trajTexts, stored_framed h, List.filterMap_map]
  refine hsome.trans ?_
  rw [List.filterMap_eq_map', framed_snd]

theorem textAt_trajTexts (h : Refines d c L) (k : FrameKey) :
    textAt d c k = (trajTexts d c k.trajId)[k.frameIdx.toNat]? := by
  rw [h.text, Ledger.entry_eq, trajTexts_eq h]

end Lines

section Copies

variable {F : Type} [Float64 F] {d : Crates F} {c : ConCorpus F} {L : Texts} {t : UInt64}

structure Compresses (d : Crates F) : Prop where
  lossless : ZstdLossless d
  encodes : ∀ b, ∃ z, d.zstdEncode b = .ok z

theorem prepareAppendStr_total (hg : Compresses d) {contents : String} {ss : List String} (hs : cuts d contents = some ss)
    (hp : ∀ run ∈ (numbered ss).splitBy sameGroup, 2 ≤ run.length → ShortTexts run) (c : ConCorpus F) (t : UInt64) :
    ∃ qs, prepareAppendStr d c t contents = .ok qs := by
  obtain ⟨xs, hxs, rfl⟩ := cuts_eq_some.mp hs
  obtain ⟨ps, hps⟩ := prepareItems_total hg.encodes xs t 0 c.compressFrames
  obtain ⟨ys, hys, hb⟩ := prepareItems_ok hps
  obtain rfl : xs = ys := List.map_injective_iff.mpr (fun _ _ h => Except.ok.inj h) hys
  rw [prepareAppendStr, prepareTrajectoryStr, hxs, hps]
  simp only [bind, Except.bind]
  rw [groupIf]
  split
  · rw [groupPrepared]
    split
    · exact ⟨ps, rfl⟩
    · obtain ⟨rows, hrows⟩ := (packAligned_total_iff hg.encodes).mpr hp
      rw [loaded_texts hg.lossless hb, numbered_texts]
      simp only [bind, Except.bind, hrows]
      exact ⟨_, rfl⟩
  · exact ⟨ps, rfl⟩

theorem spanTexts_of_cuts {contents : String} {ss : List String} (hs : cuts d contents = some ss) :
    spanTexts d contents = ss ∧ (d.conFrames contents).length = ss.length := by
  obtain ⟨xs, hxs, rfl⟩ := cuts_eq_some.mp hs
  have hlen := congrArg List.length hxs
  rw [spans, List.length_map, List.length_map] at hlen
  exact ⟨by rw [spanTexts, hxs, okTexts_ok], by rw [hlen, List.length_map]⟩

theorem Built.appended (h : Built d c L) {contents source : String} {ss : List String} (hs : cuts d contents = some ss)
    (hn : ss.length < 2 ^ 32) {nf : UInt32} {next : ConCorpus F}
    (hok : appendTrajectoryStr d none c c t contents source = (.ok nf, next)) : Built d next (L.write t ss) := by
  obtain ⟨htexts, hlen⟩ := spanTexts_of_cuts hs
  have hrun := Reached.step (.appendStr t contents source) Verdicts.granted h ⟨trivial, hlen.trans_lt hn⟩
  simp only [Op.exec, Verdicts.granted, hok, ReadconDb.counted, Except.map, Op.assign, htexts] at hrun
  exact hrun

theorem Built.append (h : Built d c L) (hg : Compresses d) (ht : L t = none) {contents : String} {ss : List String}
    (hs : cuts d contents = some ss) (hn : ss.length < 2 ^ 32)
    (hp : ∀ run ∈ (numbered ss).splitBy sameGroup, 2 ≤ run.length → ShortTexts run) (source : String) :
    ∃ nf next, appendTrajectoryStr d none c c t contents source = (.ok nf, next) ∧ Built d next (L.write t ss) := by
  obtain ⟨qs, hplan⟩ := prepareAppendStr_total hg hs hp c t
  have hnone := ((h.bounded hg.lossless).refines.meta_none_iff t).mpr ht
  obtain ⟨nf, next, hok⟩ : ∃ nf next, appendTrajectoryStr d none c c t contents source = (.ok nf, next) := by
    simp only [appendTrajectoryStr, hplan, call, write, commitPrepared, hnone]
    exact ⟨_, _, rfl⟩
  exact ⟨nf, next, hok, h.appended hs hn hok⟩

theorem concat_texts (c : ConCorpus F) {ks : List FrameKey} (hk : ∀ k ∈ ks, ∃ s, textAt d c k = some s) :
    concatTexts d c ks = .ok (String.join (ks.filterMap (textAt d c))) := by
  have hall (acc : String) : ks.foldlM (fun concat fk => do return concat ++ (← getFrameText d c fk)) acc =
      (.ok (acc ++ String.join (ks.filterMap (textAt d c))) : Result String) := by
    induction ks generalizing acc with
    | nil => simp [pure, Except.pure]
    | cons k ks ih =>
      obtain ⟨s, hs⟩ := hk k (by simp)
      have hrest := ih (fun k' hk' => hk k' (by simp [hk'])) (acc ++ s)
      rw [List.foldlM_cons, toOption_eq_some.mp hs, List.filterMap_cons, hs]
      simp only [String.join_cons, ← String.append_assoc]
      exact hrest
  rw [concatTexts, hall, String.empty_append]

def jobTexts (d : Crates F) (job : CopyJob F) : List String := trajTexts d job.corpus job.trajId

structure Copyable (d : Crates F) (job : CopyJob F) : Prop where
  texts : concatTexts d job.corpus job.keys.mergeSort = .ok (String.join (jobTexts d job))
  cut : cuts d (String.join (jobTexts d job)) = some (jobTexts d job)
  counted : (jobTexts d job).length < 2 ^ 32
  packs : ∀ run ∈ (numbered (jobTexts d job)).splitBy sameGroup, 2 ≤ run.length → ShortTexts run

theorem byTraj_stored {e : UInt64 × List FrameKey} (he : e ∈ byTraj (listFrameKeys c)) :
    e.2 ≠ [] ∧ e.2.mergeSort = storedFrames c e.1 := by
  obtain ⟨hne, hfks⟩ := mem_byTraj.mp he
  have hsort : (storedFrames c e.1).mergeSort = storedFrames c e.1 := by
    apply List.mergeSort_of_pairwise
    refine (storedFrames_lt (c := c)).imp fun hlt => ?_
    exact decide_eq_true hlt.le
  rw [hfks]
  exact ⟨hfks ▸ hne, hsort⟩

theorem mem_envJobs {source : String} {job : CopyJob F} (h : job ∈ envJobs source c) :
    job.corpus = c ∧ storedFrames c job.trajId ≠ [] ∧ job.keys.mergeSort = storedFrames c job.trajId := by
  obtain ⟨x, hx, rfl⟩ := List.mem_map.mp h
  obtain ⟨hne, hsort⟩ := byTraj_stored hx
  exact ⟨rfl, (mem_byTraj.mp hx).2 ▸ hne, hsort⟩

theorem job_texts (h : Refines d c L) {source : String} {job : CopyJob F} (hm : job ∈ envJobs source c) :
    concatTexts d job.corpus job.keys.mergeSort = .ok (String.join (jobTexts d job)) := by
  obtain ⟨hc, _, hsort⟩ := mem_envJobs hm
  rw [hsort, jobTexts, hc, trajTexts]
  apply concat_texts
  intro k hk
  exact (rowOf_isSome_iff h.readable).mp (mem_storedFrames.mp hk).1

theorem copyable (hg : Compresses d) (hl : LineBased d) (h : Built d c L) (hj : Joinable d c) {source : String}
    {job : CopyJob F} (hm : job ∈ envJobs source c) : Copyable d job := by
  have hr := (h.bounded hg.lossless).refines
  have hjob : jobTexts d job = trajTexts d c job.trajId := by rw [jobTexts, (mem_envJobs hm).1]
  have htexts := trajTexts_eq hr job.trajId
  constructor
  · exact job_texts hr hm
  · rw [hjob]
    cases hL : L job.trajId with
    | none =>
      rw [htexts, hL]
      exact hl.parse_nil
    | some ss =>
      have hgrown := h.grown hg.lossless hl hL
      rw [hL, Option.getD_some] at htexts
      rw [htexts]
      apply (hgrown.reparses_iff hl.toSplices).mpr
      exact htexts ▸ (hj job.trajId).lines
  · rw [hjob, htexts]
    exact hr.small job.trajId
  · rw [hjob]
    exact (hj job.trajId).packs

variable {repeated : UInt64 → Error}

structure Filled (d : Crates F) (st : Copying F) (L : Texts) : Prop where
  built : Built d st.2.2 L
  compress : st.2.2.compressFrames = true
  seen : ∀ t ∈ st.1, L t ≠ none

theorem filled_start : Filled d (∅, 0, ConCorpus.empty F) Ledger.blank := ⟨.empty, rfl, by simp⟩

theorem Filled.write {st st' : Copying F} (h : Filled d st L) (hseen : st'.1 = insert t st.1)
    (hcomp : st'.2.2.compressFrames = st.2.2.compressFrames) {ss : List String}
    (hb : Built d st'.2.2 (L.write t ss)) : Filled d st' (L.write t ss) where
  built := hb
  compress := hcomp.trans h.compress
  seen u hu := by
    rw [hseen, Finset.mem_insert] at hu
    by_cases hut : u = t
    · rw [hut, Ledger.write_self]
      exact Option.some_ne_none _
    · rw [Ledger.write_other _ _ hut]
      exact h.seen u (hu.resolve_left hut)

theorem append_compress {contents source : String} {nf : UInt32} {next : ConCorpus F}
    (h : appendTrajectoryStr d none c c t contents source = (.ok nf, next)) : next.compressFrames = c.compressFrames := by
  rcases call_cases (prepareAppendStr d c t contents) none (commitPrepared d t source false) c with
    ⟨e, he⟩ | ⟨ps, r, out, _, _, hc, he⟩
  · rw [appendTrajectoryStr, he] at h
    cases (Prod.mk.inj h).1
  · rw [appendTrajectoryStr, he] at h
    obtain ⟨_, _, m, _, rfl⟩ := commitPrepared_ok hc
    rw [← (Prod.mk.inj h).2, restamp, puts_compress]

theorem copyJob_filled (hg : Compresses d) {job : CopyJob F} (hc : Copyable d job) {st : Copying F} (h : Filled d st L)
    (hnone : L job.trajId = none) : ∃ st', copyJob d (fun _ => none) repeated st job = .ok st' ∧
      Filled d st' (L.write job.trajId (jobTexts d job)) := by
  obtain ⟨nf, next, hok, hnext⟩ := h.built.append hg hnone hc.cut hc.counted hc.packs job.source
  refine ⟨(insert job.trajId st.1, st.2.1 + nf, next), ?_, h.write rfl (append_compress hok) hnext⟩
  rw [copyJob, visit, if_neg fun hm => h.seen _ hm hnone, copyTraj, hc.texts]
  simp only [bind, Except.bind, hok]
  rfl

end Copies

section Gathering

variable {F P : Type} [Float64 F] {d : Crates F} {parts : List (ConCorpus F)} {whole : ConCorpus F} {L : Texts}
  {envs : List (Env P F)} {repeated : UInt64 → Error}

structure Gathers (d : Crates F) (parts : List (ConCorpus F)) (whole : ConCorpus F) : Prop where
  keys : ∀ b, b ∈ whole.frames ↔ ∃ c ∈ parts, b ∈ c.frames
  texts : ∀ c ∈ parts, ∀ k : FrameKey, k.toBytes.val ∈ c.frames →
    ∃ s, getFrameText d c k = .ok s ∧ getFrameText d whole k = .ok s

theorem Gathers.of_view (hp : ∀ c ∈ parts, Readable d c) (hw : Readable d whole)
    (hview : ∀ k s, textAt d whole k = some s ↔ ∃ c ∈ parts, textAt d c k = some s) : Gathers d parts whole where
  keys b := by
    constructor
    · intro hb
      obtain ⟨k, s, rfl, hs⟩ := hw.decodes b hb
      obtain ⟨c, hc, hcs⟩ := (hview k s).mp hs
      exact ⟨c, hc, (rowOf_isSome_iff (hp c hc)).mpr ⟨s, hcs⟩⟩
    · rintro ⟨c, hc, hb⟩
      obtain ⟨k, s, rfl, hs⟩ := (hp c hc).decodes b hb
      exact (rowOf_isSome_iff hw).mpr ⟨s, (hview k s).mpr ⟨c, hc, hs⟩⟩
  texts c hc k hk := by
    obtain ⟨s, hs⟩ := (rowOf_isSome_iff (hp c hc)).mp hk
    have hsame := (hview k s).mpr ⟨c, hc, hs⟩
    exact ⟨s, toOption_eq_some.mp hs, toOption_eq_some.mp hsame⟩

theorem Gathers.view (h : Gathers d parts whole) (hp : ∀ c ∈ parts, Readable d c) (hw : Readable d whole) (k : FrameKey)
    (s : String) : textAt d whole k = some s ↔ ∃ c ∈ parts, textAt d c k = some s := by
  constructor
  · intro hs
    obtain ⟨c, hc, hk⟩ := (h.keys _).mp ((rowOf_isSome_iff hw).mpr ⟨s, hs⟩)
    obtain ⟨s', hc', hw'⟩ := h.texts c hc k hk
    rw [textAt, toOption_eq_some, hw', Except.ok.injEq] at hs
    exact ⟨c, hc, toOption_eq_some.mpr (hs ▸ hc')⟩
  · rintro ⟨c, hc, hs⟩
    obtain ⟨s', hc', hw'⟩ := h.texts c hc k ((rowOf_isSome_iff (hp c hc)).mpr ⟨s, hs⟩)
    rw [textAt, toOption_eq_some, hc', Except.ok.injEq] at hs
    exact toOption_eq_some.mpr (hs ▸ hw')

theorem env_job_of_stored {e : Env P F} {k : FrameKey} (h : k.toBytes.val ∈ e.corpus.frames) :
    ∃ job ∈ e.jobs, job.trajId = k.trajId ∧ job.corpus = e.corpus := by
  have hk : k ∈ storedFrames e.corpus k.trajId := mem_storedFrames.mpr ⟨h, rfl⟩
  have hmem : (k.trajId, storedFrames e.corpus k.trajId) ∈ byTraj (listFrameKeys e.corpus) :=
    mem_byTraj.mpr ⟨List.ne_nil_of_mem hk, rfl⟩
  exact ⟨_, List.mem_map_of_mem hmem, rfl, rfl⟩

theorem entry_of_jobs (hz : ZstdLossless d) (hb : ∀ e ∈ envs, ∃ L, Built d e.corpus L)
    (hL : ∀ t ss, L t = some ss ↔ ∃ job ∈ envs.flatMap Env.jobs, job.trajId = t ∧ jobTexts d job = ss) (k : FrameKey)
    (s : String) : L.entry k.trajId k.frameIdx.toNat = some s ↔ ∃ e ∈ envs, textAt d e.corpus k = some s := by
  have hentry {e : Env P F} (he : e ∈ envs) :
      textAt d e.corpus k = (trajTexts d e.corpus k.trajId)[k.frameIdx.toNat]? := by
    obtain ⟨Le, hLe⟩ := hb e he
    exact textAt_trajTexts (hLe.bounded hz).refines k
  constructor
  · intro hs
    obtain ⟨ss, hss, hi⟩ := Option.bind_eq_some_iff.mp hs
    obtain ⟨job, hj, ht, rfl⟩ := (hL _ _).mp hss
    obtain ⟨e, he, hje⟩ := List.mem_flatMap.mp hj
    rw [jobTexts, (mem_envJobs hje).1, ht] at hi
    exact ⟨e, he, (hentry he).trans hi⟩
  · rintro ⟨e, he, hs⟩
    obtain ⟨Le, hLe⟩ := hb e he
    have hstored := (rowOf_isSome_iff (hLe.bounded hz).refines.readable).mpr ⟨s, hs⟩
    obtain ⟨job, hj, ht, hc⟩ := env_job_of_stored hstored
    have hss := (hL k.trajId _).mpr ⟨job, List.mem_flatMap.mpr ⟨e, he, hj⟩, ht, rfl⟩
    rw [hentry he] at hs
    rw [Ledger.entry, hss, Option.bind_some, jobTexts, hc, ht]
    exact hs

structure CopiedFrom (d : Crates F) (envs : List (Env P F)) (whole : ConCorpus F) : Prop where
  built : ∃ L, Built d whole L
  gathers : Gathers d (envs.map Env.corpus) whole
  joinable : Joinable d whole

theorem spliceable_nil : Spliceable [] where
  lines := by simp
  packs := by simp [numbered, framed]

variable (repeated) in
theorem copies_gather (hg : Compresses d) (hl : LineBased d) (hb : ∀ e ∈ envs, ∃ L, Built d e.corpus L)
    (hplaces : (envs.map Env.place).Nodup) (hno : ¬ Collides envs) (hj : ∀ e ∈ envs, Joinable d e.corpus) :
    ∃ st, (envs.flatMap Env.jobs).foldlM (copyJob d (fun _ => none) repeated) (∅, 0, ConCorpus.empty F) = .ok st ∧
      CopiedFrom d envs st.2.2 := by
  have hcopy : ∀ job ∈ envs.flatMap Env.jobs, Copyable d job := by
    intro job hm
    obtain ⟨e, he, hje⟩ := List.mem_flatMap.mp hm
    obtain ⟨L, hL⟩ := hb e he
    exact copyable hg hl hL (hj e he) hje
  obtain ⟨st, L, hrun, hfilled, hwrote⟩ := Ledger.foldlM_writes (f := copyJob d (fun _ => none) repeated)
    (fun job hm st L hst hnone => copyJob_filled hg (hcopy job hm) hst hnone) (jobs_nodup hplaces hno) filled_start
    fun _ _ => rfl
  have hblank (t : UInt64) (ss : List String) :
      L t = some ss ↔ ∃ job ∈ envs.flatMap Env.jobs, job.trajId = t ∧ jobTexts d job = ss := by
    rw [hwrote]
    exact or_iff_right (by simp [Ledger.blank])
  have hr := (hfilled.built.bounded hg.lossless).refines
  refine ⟨st, hrun, ⟨L, hfilled.built⟩, .of_view ?_ hr.readable fun k s => ?_, fun t => ?_⟩
  · intro c hc
    obtain ⟨e, he, rfl⟩ := List.mem_map.mp hc
    obtain ⟨Le, hLe⟩ := hb e he
    exact (hLe.bounded hg.lossless).refines.readable
  · rw [hr.text, entry_of_jobs hg.lossless hb hblank]
    simp
  · rw [trajTexts_eq hr]
    cases ht : L t with
    | none => exact spliceable_nil
    | some ss =>
      obtain ⟨job, hm, rfl, rfl⟩ := (hblank t ss).mp ht
      obtain ⟨e, he, hje⟩ := List.mem_flatMap.mp hm
      rw [Option.getD_some, jobTexts, (mem_envJobs hje).1]
      exact hj e he job.trajId

end Gathering

section Exactness

variable {F P : Type} [Float64 F] {d : Crates F} {c next whole : ConCorpus F} {L : Texts} {t : UInt64}
  {envs : List (Env P F)} {repeated : UInt64 → Error}

structure Appended (d : Crates F) (c : ConCorpus F) (t : UInt64) (contents : String) (ss : List String)
    (next : ConCorpus F) : Prop where
  cut : cuts d contents = some ss
  frames : ∀ b, b ∈ next.frames ↔ b ∈ c.frames ∨ ∃ k ∈ (framed t 0 ss).map Prod.fst, k.toBytes.val = b
  packs : c.compressFrames = true → ∀ run ∈ (numbered ss).splitBy sameGroup, 2 ≤ run.length → ShortTexts run

theorem runs_few {ss : List String} (h : ss.length < 2) {run : List (UInt32 × String)}
    (hr : run ∈ (numbered ss).splitBy sameGroup) : run.length < 2 := by
  have hsub : run.Sublist (numbered ss) := by
    have hflat := List.sublist_flatten_of_mem hr
    rwa [List.flatten_splitBy] at hflat
  have hlen : (numbered ss).length = ss.length := by rw [numbered, List.length_map, framed_length]
  exact (hlen ▸ hsub.length_le).trans_lt h

theorem framed_fst {A B : Type} (t : UInt64) (idx : UInt32) {as : List A} {bs : List B} (h : as.length = bs.length) :
    (framed t idx as).map Prod.fst = (framed t idx bs).map Prod.fst := by
  induction as generalizing idx bs with
  | nil =>
    obtain rfl := List.eq_nil_of_length_eq_zero h.symm
    rfl
  | cons a as ih =>
    cases bs with
    | nil => cases h
    | cons b bs => rw [framed, framed, List.map_cons, List.map_cons, ih (idx + 1) (Nat.succ.inj h)]

theorem appended (hg : Compresses d) {contents source : String} {nf : UInt32}
    (h : appendTrajectoryStr d none c c t contents source = (.ok nf, next)) : ∃ ss, Appended d c t contents ss next := by
  rcases call_cases (prepareAppendStr d c t contents) none (commitPrepared d t source false) c with
    ⟨e, he⟩ | ⟨qs, r, out, _, hp, hc, he⟩
  · rw [appendTrajectoryStr, he] at h
    cases (Prod.mk.inj h).1
  · rw [appendTrajectoryStr, he] at h
    obtain rfl := (Prod.mk.inj h).2
    obtain ⟨ps, hps, hgroup⟩ := bind_eq_ok.mp hp
    obtain ⟨xs, hxs, hb⟩ := prepareItems_ok hps
    obtain ⟨_, _, m, _, rfl⟩ := commitPrepared_ok hc
    have hfks : qs.map PreparedIndexPuts.fk = (framed t 0 (xs.map Prod.snd)).map Prod.fst := by
      rw [groupIf_fks hgroup, derived_fks (hb.imp fun _ _ hp => (buildIndexPuts_ok hp).2)]
      exact framed_fst t 0 (List.length_map _).symm
    refine ⟨xs.map Prod.snd, cuts_eq_some.mpr ⟨xs, hxs, rfl⟩, fun b => ?_, fun hcomp => ?_⟩
    · rw [restamp, mem_puts_frames, ← hfks]
      simp only [List.mem_map, exists_exists_and_eq_and, fkBytes]
    · rw [groupIf, if_pos hcomp, groupPrepared] at hgroup
      split at hgroup
      · next hfew =>
        have hlen := hb.length_eq
        rw [framed_length] at hlen
        intro run hrun h2
        exact absurd (runs_few (by rw [List.length_map]; omega) hrun) (by omega)
      · rw [loaded_texts hg.lossless hb, numbered_texts] at hgroup
        obtain ⟨texts, ht, hgroup⟩ := bind_eq_ok.mp hgroup
        obtain rfl := Except.ok.inj ht
        obtain ⟨rows, hrows, _⟩ := bind_eq_ok.mp hgroup
        exact (packAligned_total_iff hg.encodes).mp ⟨rows, hrows⟩

-- A trajectory's last number shows whether its numbers have wrapped.
theorem Appended.counted {contents : String} {ss : List String} (h : Appended d c t contents ss next)
    (hsmall : ∀ k : FrameKey, k.toBytes.val ∈ next.frames → k.frameIdx.toNat + 1 < 2 ^ 32) : ss.length < 2 ^ 32 := by
  by_contra hle
  have hmem : (⟨t, UInt32.ofNat (2 ^ 32 - 1)⟩ : FrameKey) ∈ (framed t 0 ss).map Prod.fst :=
    mem_framed_keys.mpr ⟨rfl, 2 ^ 32 - 1, by omega, (UInt32.zero_add _).symm⟩
  have hlast := hsmall _ ((h.frames _).mpr (.inr ⟨_, hmem, rfl⟩))
  rw [show (⟨t, UInt32.ofNat (2 ^ 32 - 1)⟩ : FrameKey).frameIdx.toNat = 2 ^ 32 - 1 from rfl] at hlast
  omega

structure Pasted (d : Crates F) (job : CopyJob F) (ss : List String) : Prop where
  cut : ∃ concat, concatTexts d job.corpus job.keys.mergeSort = .ok concat ∧ cuts d concat = some ss
  packs : ∀ run ∈ (numbered ss).splitBy sameGroup, 2 ≤ run.length → ShortTexts run

theorem copyJob_appended (hg : Compresses d) {job : CopyJob F} {st st' : Copying F}
    (h : copyJob d (fun _ => none) repeated st job = .ok st') : ∃ concat nf ss,
      concatTexts d job.corpus job.keys.mergeSort = .ok concat ∧
        appendTrajectoryStr d none st.2.2 st.2.2 job.trajId concat job.source = (.ok nf, st'.2.2) ∧
          Appended d st.2.2 job.trajId concat ss st'.2.2 := by
  obtain ⟨concat, hconcat, h⟩ := bind_eq_ok.mp (visit_ok h).2
  split at h
  · cases h
  · next nf out hout =>
    obtain ⟨ss, hss⟩ := appended hg hout
    have hst : st'.2.2 = out := by rw [← pure_eq_ok.mp h]
    exact ⟨concat, nf, ss, hconcat, hst ▸ hout, hst ▸ hss⟩

theorem copies_grow (hg : Compresses d) {jobs : List (CopyJob F)} {st st' : Copying F}
    (h : jobs.foldlM (copyJob d (fun _ => none) repeated) st = .ok st') {b : Bytes} (hb : b ∈ st.2.2.frames) :
    b ∈ st'.2.2.frames := by
  refine foldlM_preserves (I := fun s : Copying F => b ∈ s.2.2.frames) (fun s job s' _ hs hc => ?_) hb h
  obtain ⟨_, _, ss, _, _, happ⟩ := copyJob_appended hg hc
  exact (happ.frames b).mpr (.inl hs)

theorem copies_pasted (hg : Compresses d) {jobs : List (CopyJob F)} (hd : (jobs.map CopyJob.trajId).Nodup) {st : Copying F}
    (h : jobs.foldlM (copyJob d (fun _ => none) repeated) (∅, 0, ConCorpus.empty F) = .ok st)
    (hsmall : ∀ k : FrameKey, k.toBytes.val ∈ st.2.2.frames → k.frameIdx.toNat + 1 < 2 ^ 32) :
    ∃ L, Filled d st L ∧ ∀ job ∈ jobs, ∃ ss, L job.trajId = some ss ∧ Pasted d job ss := by
  obtain ⟨L, hL, _, hall⟩ := Ledger.foldlM_wrote (P := Pasted d) hd filled_start h
    fun job before mid L rest hst hmid hrest => by
      obtain ⟨concat, nf, ss, hconcat, hok, happ⟩ := copyJob_appended hg hmid
      have hn := happ.counted fun k hk => hsmall k (copies_grow hg hrest hk)
      exact ⟨ss, hst.write (visit_ok hmid).1 (append_compress hok) (hst.built.appended happ.cut hn hok),
        ⟨concat, hconcat, happ.cut⟩, happ.packs hst.compress⟩
  exact ⟨L, hL, hall⟩

theorem ext_of_lt {ss ss' : List String} {n : Nat} (h : ss.length < n) (h' : ss'.length < n)
    (hi : ∀ i < n, ss[i]? = ss'[i]?) : ss = ss' := by
  refine List.ext_getElem? fun i => ?_
  by_cases hlt : i < n
  · exact hi i hlt
  · rw [List.getElem?_eq_none (by omega), List.getElem?_eq_none (by omega)]

theorem gathered_text (hgather : Gathers d (envs.map Env.corpus) whole)
    (hread : ∀ c ∈ envs.map Env.corpus, ∃ L, Refines d c L) (hw : Readable d whole)
    (hplaces : (envs.map Env.place).Nodup) (hno : ¬ Collides envs) {e : Env P F} (he : e ∈ envs) {k : FrameKey}
    (hk : k.toBytes.val ∈ e.corpus.frames) (i : UInt32) :
    textAt d whole ⟨k.trajId, i⟩ = textAt d e.corpus ⟨k.trajId, i⟩ := by
  have hparts : ∀ c ∈ envs.map Env.corpus, Readable d c := by
    intro c hc
    obtain ⟨L, hL⟩ := hread c hc
    exact hL.readable
  ext s
  rw [hgather.view hparts hw]
  constructor
  · rintro ⟨c, hc, hs⟩
    obtain ⟨e', he', rfl⟩ := List.mem_map.mp hc
    have hk' := (rowOf_isSome_iff (hparts _ hc)).mpr ⟨s, hs⟩
    by_cases hp : e.place = e'.place
    · rwa [List.inj_on_of_nodup_map hplaces he he' hp]
    · exact absurd ⟨e, he, e', he', hp, k, mem_listFrameKeys.mpr hk, _, mem_listFrameKeys.mpr hk', rfl⟩ hno
  · exact fun hs => ⟨e.corpus, List.mem_map_of_mem he, hs⟩

theorem Pasted.spliceable {Le : Texts} (hl : LineBased d) (hLe : Refines d c Le) {source : String} {job : CopyJob F}
    (hm : job ∈ envJobs source c) {ss : List String} (h : Pasted d job ss) (hn : ss.length < 2 ^ 32)
    (hsame : ∀ i : UInt32, ss[i.toNat]? = textAt d c ⟨job.trajId, i⟩) : Spliceable (trajTexts d c job.trajId) := by
  obtain ⟨⟨concat, hconcat, hcut⟩, hpacks⟩ := h
  rw [job_texts hLe hm, Except.ok.injEq] at hconcat
  have htexts : ss = trajTexts d c job.trajId := by
    refine ext_of_lt hn ?_ fun i hi => ?_
    · rw [trajTexts_eq hLe]
      exact hLe.small job.trajId
    · have hidx : (UInt32.ofNat i).toNat = i := by rw [UInt32.toNat_ofNat', Nat.mod_eq_of_lt hi]
      have hi' := hsame (UInt32.ofNat i)
      rw [textAt_trajTexts hLe, hidx] at hi'
      exact hi'
  rw [← hconcat, jobTexts, (mem_envJobs hm).1, ← htexts] at hcut
  rw [← htexts]
  exact ⟨hl.closes hcut, hpacks⟩

theorem joinable_of_jobs (source : String) (h : ∀ job ∈ envJobs source c, Spliceable (trajTexts d c job.trajId)) :
    Joinable d c := by
  intro t
  by_cases hempty : storedFrames c t = []
  · rw [trajTexts, hempty]
    exact spliceable_nil
  · obtain ⟨k, hk⟩ := List.exists_mem_of_ne_nil _ hempty
    obtain ⟨hstored, rfl⟩ := mem_storedFrames.mp hk
    obtain ⟨job, hj, ht, _⟩ := env_job_of_stored (e := (⟨(), source, c⟩ : Env Unit F)) hstored
    exact ht ▸ h job hj

theorem Refines.small_key {Le : Texts} (h : Refines d c Le) {k : FrameKey} (hk : k.toBytes.val ∈ c.frames) :
    k.frameIdx.toNat + 1 < 2 ^ 32 := by
  obtain ⟨s, hs⟩ := (rowOf_isSome_iff h.readable).mp hk
  rw [h.text] at hs
  have hlt := Ledger.entry_isSome_iff.mp ⟨s, hs⟩
  have hcount := h.small k.trajId
  omega

theorem joinable_of_copied (hg : Compresses d) (hl : LineBased d) (hb : ∀ e ∈ envs, ∃ L, Built d e.corpus L)
    (hplaces : (envs.map Env.place).Nodup) (hno : ¬ Collides envs) {st : Copying F}
    (hrun : (envs.flatMap Env.jobs).foldlM (copyJob d (fun _ => none) repeated) (∅, 0, ConCorpus.empty F) = .ok st)
    (hgather : Gathers d (envs.map Env.corpus) st.2.2) : ∀ e ∈ envs, Joinable d e.corpus := by
  have hread : ∀ c ∈ envs.map Env.corpus, ∃ L, Refines d c L := by
    intro c hc
    obtain ⟨e, he, rfl⟩ := List.mem_map.mp hc
    obtain ⟨L, hL⟩ := hb e he
    exact ⟨L, (hL.bounded hg.lossless).refines⟩
  obtain ⟨L, hL, hpasted⟩ := copies_pasted hg (jobs_nodup hplaces hno) hrun fun k hk => by
    obtain ⟨c, hc, hck⟩ := (hgather.keys _).mp hk
    obtain ⟨Le, hLe⟩ := hread c hc
    exact hLe.small_key hck
  have hw := (hL.built.bounded hg.lossless).refines
  intro e he
  obtain ⟨Le, hLe⟩ := hread e.corpus (List.mem_map_of_mem he)
  refine joinable_of_jobs e.source fun job hj => ?_
  obtain ⟨ss, hss, hp⟩ := hpasted job (List.mem_flatMap.mpr ⟨e, he, hj⟩)
  have hn := hw.small job.trajId
  rw [Ledger.count, hss, Option.getD_some] at hn
  refine hp.spliceable hl hLe hj hn fun i => ?_
  have hwhole := hw.text ⟨job.trajId, i⟩
  rw [Ledger.entry, hss, Option.bind_some] at hwhole
  obtain ⟨k, hk⟩ := List.exists_mem_of_ne_nil _ (mem_envJobs hj).2.1
  obtain ⟨hstored, ht⟩ := mem_storedFrames.mp hk
  rw [← hwhole, ← ht]
  exact gathered_text hgather hread hw.readable hplaces hno he hstored i

end Exactness

end ReadconDb
