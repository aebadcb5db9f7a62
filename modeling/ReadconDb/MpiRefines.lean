import ReadconDb.MpiSerial
import ReadconDb.MpiSessions

set_option linter.unusedSectionVars false

namespace ReadconDb

open ByteString Outcome Blocks Slicing Draining

section Ranks

variable {F : Type} [Float64 F] {d : Crates F} {io : EngineIo F} {nOf : UInt64 → Option UInt32} {x : Exchange}

theorem stage_length {ranks ranks' : List (RankState F)} {rows : List (List (UInt32 × Held))}
    (h : stage d io nOf ranks rows = .ok ranks') (hlen : rows.length = ranks.length) : ranks'.length = ranks.length := by
  rw [stage] at h
  cases ht : together (List.zipWith (stageRank d io nOf) ranks rows) with
  | none =>
    rw [ht] at h
    cases h
  | some out =>
    rw [ht] at h
    have hall := congrArg List.length (together_ok (ht.trans (congrArg some h)))
    rw [List.length_zipWith, List.length_map] at hall
    omega

theorem stageAll_length {stuck : Option (Nat × Nat)} {bs : List (Nat × Nat)} {ranks ranks' : List (RankState F)}
    (h : (stageAll x (stage d io nOf) stuck ranks bs).2 = .ok ranks') (hlen : ranks.length = x.size) :
    ranks'.length = x.size := by
  induction bs generalizing ranks with
  | nil =>
    obtain ⟨rfl, _⟩ := stageAll_ok h
    cases h
    exact hlen
  | cons b bs ih =>
    rw [stageAll] at h
    split at h
    · cases h
    · next mids hmids =>
      have hrows : (rowsOf x b).length = ranks.length := by
        rw [rowsOf, List.length_map, List.length_range, hlen]
      exact ih h ((stage_length hmids hrows).trans hlen)

end Ranks

section Runs

variable {F : Type} [Float64 F] {d : Crates F} {files : Files} {io : EngineIo F} {size : Nat} {route : Route}
  {run : BatchRun F} {input : List (UInt64 × String)} {tables : UInt32 → ConCorpus F}

-- The code's own loop, or that loop under some other limit on what may be sent.
def GoesThrough (run : BatchRun F) (batch : Nat) : Prop := run = batchRun batch ∨ ∃ fits, run = batchRunWithin fits batch

theorem GoesThrough.stages {batch : Nat} (h : GoesThrough run batch) {x : Exchange} (hx : x.Sound) (hres : x.Resident)
    {put : List (RankState F) → List (List (UInt32 × Held)) → Spmd (List (RankState F))} {ranks ranks' : List (RankState F)}
    (hrun : run x put ranks = .ok ranks') :
    ∃ bs, Consecutive 0 bs x.n ∧ (∀ b ∈ bs, b.2 ≤ x.n) ∧ (stageAll x put none ranks bs).2 = .ok ranks' := by
  obtain ⟨fits, hfits⟩ : ∃ fits : Nat → Nat → Bool, run x put ranks =
      (stageAll x put (cover fits (max batch 1) x.n_le 0).2 ranks (cover fits (max batch 1) x.n_le 0).1).2 := by
    rcases h with rfl | ⟨fits, rfl⟩
    · exact ⟨x.fits, by rw [batchRun, runBatches_eq hx hres]⟩
    · exact ⟨fits x, rfl⟩
  rw [hfits] at hrun
  obtain ⟨hstuck, _⟩ := stageAll_ok hrun
  obtain ⟨⟨stop, hcons, hends⟩, hall⟩ := cover_ends fits (max batch 1) x.n_le (Nat.zero_le x.n)
  rw [hstuck] at hends hrun
  cases hends
  exact ⟨_, hcons, fun b hb => (hall b hb).2.2, hrun⟩

structure RankRun (d : Crates F) (nOf : UInt64 → Option UInt32) (tcs : List (FileTab × UInt32)) (size : Nat) (route : Route)
    (tables : UInt32 → ConCorpus F) (x : Exchange) (bs : List (Nat × Nat)) (rank : Nat) (s : RankState F) : Prop where
  opened : ∀ e, e ∈ s.opened ↔ ∃ t ∈ x.tabs, route.to size t.trajId = (rank, e)
  unclaimed : ∀ t ∈ x.tabs, (route.to size t.trajId).1 = rank →
    (tables (route.to size t.trajId).2).trajMeta[t.trajId]? = none
  holds : ∀ e ∈ s.opened, ∃ out prepared,
    feed (drainReady d nOf) ((batchesAt x rank bs).map (fun batch : UInt32 → List Held => batch e) ++ [[]]) [] = lift (.ok (out, [])) ∧
      (out.map heldRecord).mapM readRow = .ok prepared ∧
      s.At e (tables e) ((tcs.filter fun tc => route.to size tc.1.trajId = (rank, e)).foldl (stampFile d)
        (prepared.foldl putIndexPuts (tables e))) []

structure StagedRun (d : Crates F) (files : Files) (size : Nat) (route : Route) (input : List (UInt64 × String))
    (tables : UInt32 → ConCorpus F) (counts : List UInt32) (ranks : List (RankState F)) (x : Exchange)
    (bs : List (Nat × Nat)) : Prop where
  prepared : PreparedOf d files size route input x
  sound : x.Sound
  consecutive : Consecutive 0 bs x.n
  within : ∀ b ∈ bs, b.2 ≤ x.n
  counted : x.tabs.mapM (fun t => fitU32 t.n) = .ok counts
  length : ranks.length = size
  runs : ∀ rank < size, ∃ s, ranks[rank]? = some s ∧
    RankRun d (nOfTabs x.tabs counts) (x.tabs.zip counts) size route tables x bs rank s

theorem scanned_ok {tabs : List FileTab} (h : scanned d files size input = lift (.ok tabs)) :
    scanFiles d files input = .ok tabs := by
  rw [scanned] at h
  split at h
  · cases h
  · split at h
    · cases h
    · next tabs' htabs =>
      cases h
      exact htabs

theorem unreported_ok {A : Type} {r : Spmd A} {a : A} (h : unreported r = lift (.ok a)) : r = .ok a := by
  cases r with
  | ok b => exact lift_inj h
  | error es =>
    cases es with
    | nil => cases h
    | cons e es => cases h

theorem staged_run (hs : 0 < size) {batch : Nat} (hrun : GoesThrough run batch) {counts : List UInt32}
    {ranks : List (RankState F)} (h : staged d files io size route run input tables = lift (.ok (counts, ranks))) :
    ∃ x bs, StagedRun d files size route input tables counts ranks x bs := by
  obtain ⟨tabs, htabs, h⟩ := checked_bind_ok h
  obtain ⟨counts', hcounts, h⟩ := checked_bind_ok h
  obtain ⟨begun, hbegun, h⟩ := checked_bind_ok h
  obtain ⟨x, hprep, h⟩ := checked_bind_ok h
  obtain ⟨looped, hloop, h⟩ := checked_bind_ok h
  obtain ⟨tailed, htail, h⟩ := checked_bind_ok h
  obtain ⟨final, hfinal, h⟩ := checked_bind_ok h
  cases h
  have hparts := prepare_parts hprep
  obtain ⟨hx, hres⟩ := prepare_sound hs hprep
  obtain rfl := Except.ok.inj ((scanned_ok htabs).symm.trans hparts.scanned)
  obtain ⟨bs, hcons, hin, hstaged⟩ := hrun.stages hx hres (unreported_ok hloop)
  have hbegins := lift_inj hbegun
  have hmetas := collective_eq_ok.mp (lift_inj hfinal)
  have htails := together_ok htail
  have hlooped : looped.length = size := by
    rw [← hparts.sized]
    exact stageAll_length hstaged ((beginAll_length hbegins).trans hparts.sized.symm)
  have hlength : ranks.length = size := by
    have hlen := congrArg List.length hmetas
    have hlen' := congrArg List.length htails
    rw [List.length_mapIdx, List.length_map] at hlen
    rw [List.length_map, List.length_map] at hlen'
    omega
  refine ⟨x, bs, hparts, hx, hcons, hin, lift_inj (alike_ok hcounts), hlength, fun rank hrank => ?_⟩
  obtain ⟨b, hb, hbegin⟩ := beginAll_begun hbegins hrank
  obtain ⟨l, hl, hstages⟩ := stageAll_rank hstaged (hparts.sized ▸ hrank) hb hbegin.keyed
  have hat := congrArg (fun ys => ys[rank]?) htails
  simp only [List.getElem?_map, hl, Option.map_some] at hat
  obtain ⟨t, ht, htailed⟩ := Option.map_eq_some_iff.mp hat.symm
  obtain ⟨htailing, hempty⟩ := tailRank_stages hstages.keyed htailed.symm
  have hat' := congrArg (fun ys => ys[rank]?) hmetas
  simp only [List.getElem?_mapIdx, List.getElem?_map, ht, Option.map_some] at hat'
  obtain ⟨s, hsome, hmeta⟩ := Option.map_eq_some_iff.mp hat'.symm
  obtain ⟨hopened, hstamp⟩ := putMetas_at hmeta.symm
  have hall := hstages.snoc htailing
  have hsame : s.opened = b.opened := hopened.trans hall.opened
  refine ⟨s, hsome, fun e => hsame ▸ hbegin.opened e, hbegin.unclaimed, fun e he => ?_⟩
  obtain ⟨c', buf', out, hc', hfeed, prepared, hread, rfl⟩ := hall.feeds (hbegin.at_ e (hsame ▸ he))
  obtain rfl : buf' = [] := hc'.buf.symm.trans (hempty e)
  refine ⟨out, prepared, ?_, hread, hstamp hc'⟩
  rw [List.map_append] at hfeed
  exact hfeed

end Runs

section Environments

variable {F : Type} [Float64 F] {d : Crates F} {files : Files} {size : Nat} {route : Route}
  {input : List (UInt64 × String)} {tables : UInt32 → ConCorpus F} {counts : List UInt32} {ranks : List (RankState F)}
  {x : Exchange} {bs : List (Nat × Nat)}

theorem batch_rows (h : PreparedOf d files size route input x) (hx : x.Sound)
    (hread : ∀ f ∈ input, ∃ text, Ingestible d files f.2 text) (hnc : NoCollision d files input) {q : Nat} {e : UInt32}
    (howner : ∀ g < x.n, x.env g = e → x.owner g = q) {b : Nat × Nat} (hb : b.2 ≤ x.n) :
    rowsFor e ((x.owned b.1 b.2 q).map (x.heldOf b.1)) =
      ((List.range' b.1 (b.2 - b.1)).filter fun g => x.env g = e).map x.heldAt := by
  have hfilter : (x.owned b.1 b.2 q).filter ((fun r : UInt32 × Held => decide (r.1 = e)) ∘ x.heldOf b.1) =
      (List.range' b.1 (b.2 - b.1)).filter fun g => x.env g = e := by
    rw [Exchange.owned, List.filter_filter]
    refine List.filter_congr fun g hg => ?_
    rw [List.mem_range'_1] at hg
    by_cases he : x.env g = e
    · simp [Exchange.heldOf, he, howner g (by omega) he]
    · simp [Exchange.heldOf, he]
  rw [rowsFor, List.filter_map, hfilter, List.map_map]
  refine List.map_congr_left fun g hg => ?_
  have hin := (List.mem_filter.mp hg).1
  rw [List.mem_range'_1] at hin
  rw [Function.comp_apply, Exchange.heldOf, h.payload_stored hx hread hnc b.1 (by omega)]
  rfl

theorem batches_rows (h : PreparedOf d files size route input x) (hx : x.Sound)
    (hread : ∀ f ∈ input, ∃ text, Ingestible d files f.2 text) (hnc : NoCollision d files input) {q : Nat} {e : UInt32}
    (howner : ∀ g < x.n, x.env g = e → x.owner g = q) (hcons : Consecutive 0 bs x.n) (hin : ∀ b ∈ bs, b.2 ≤ x.n) :
    ((batchesAt x q bs).map (fun batch : UInt32 → List Held => batch e) ++ [[]]).flatten =
      ((x.tabs.filter fun t => (route.to size t.trajId).2 = e).map (x.trajectory d files)).flatMap Trajectory.rows := by
  rw [List.flatten_append, List.flatten_singleton, List.append_nil, batchesAt, List.map_map, ← List.flatMap_def,
    ← h.env_rows hx, List.range_eq_range', ← Nat.sub_zero x.n, ← hcons.flatten, List.filter_flatMap,
    List.map_flatMap]
  exact List.flatMap_congr fun b hb => batch_rows h hx hread hnc howner (hin b hb)

theorem counts_eq {tabs : List FileTab} (h : tabs.mapM (fun t => fitU32 t.n) = .ok counts) :
    counts = tabs.map fun t => UInt32.ofNat t.n := by
  have hall := mapM_eq_ok.mp h
  rw [← List.forall₂_eq_eq_eq, List.forall₂_map_right_iff]
  exact hall.flip.imp fun _ _ hn => fitU32_ok hn

theorem zip_counts {tabs : List FileTab} : tabs.zip (tabs.map fun t => UInt32.ofNat t.n) =
    tabs.map fun t => (t, UInt32.ofNat t.n) := List.map_prod_left_eq_zip.symm

theorem nOfTabs_eq {tabs : List FileTab} (hdistinct : (tabs.map FileTab.trajId).Nodup) {t : FileTab} (ht : t ∈ tabs) :
    nOfTabs tabs (tabs.map fun t => UInt32.ofNat t.n) t.trajId = some (UInt32.ofNat t.n) := by
  rw [nOfTabs, zip_counts, List.find?_map, Option.map_map]
  have hfind : tabs.find? (fun t' => t'.trajId == t.trajId) = some t := by
    cases hf : tabs.find? fun t' => t'.trajId == t.trajId with
    | none =>
      have hno := List.find?_eq_none.mp hf t ht
      simp at hno
    | some t' =>
      have hid : t'.trajId = t.trajId := by simpa using List.find?_some hf
      rw [List.inj_on_of_nodup_map hdistinct (List.mem_of_find?_eq_some hf) ht hid]
  exact congrArg _ hfind

theorem PreparedOf.ids_distinct (h : PreparedOf d files size route input x) : (x.tabs.map FileTab.trajId).Nodup := by
  have hinput := (scanFiles_inOrder d files h.scanned).2.1
  have hdistinct := h.distinct
  rw [← hinput, List.map_map] at hdistinct
  exact hdistinct

theorem Writable.loads (hz : ZstdLossless d) {t : FileTab} (hw : Writable d files x t) :
    ∀ f ∈ x.sents d files t, loadFrame d f.stored = .ok f.text := by
  intro f hf
  rw [← framed_snd t.trajId 0 (x.sents d files t)] at hf
  obtain ⟨kf, hkf, rfl⟩ := List.mem_map.mp hf
  obtain ⟨p, _, hs⟩ := forall₂_mem_right hw.sends hkf
  exact load_store hz hs.packs

theorem mapM_flatMap_ok {A B C : Type} {g : A → Result B} {f : C → List A} {h : C → List B} {cs : List C}
    (hall : ∀ c ∈ cs, (f c).mapM g = .ok (h c)) : (cs.flatMap f).mapM g = .ok (cs.flatMap h) := by
  induction cs with
  | nil => rfl
  | cons c cs ih =>
    rw [List.flatMap_cons, List.flatMap_cons]
    exact mapM_append_ok (hall c List.mem_cons_self) (ih fun c' hc' => hall c' (List.mem_cons_of_mem _ hc'))

theorem StagedRun.env_written (h : StagedRun d files size route input tables counts ranks x bs) (hz : ZstdLossless d)
    (hread : ∀ f ∈ input, ∃ text, Ingestible d files f.2 text) (hnc : NoCollision d files input) {rank : Nat}
    (hrank : rank < size) {s : RankState F} (hsome : ranks[rank]? = some s) {e : UInt32} (he : e ∈ s.opened) :
    (∀ t ∈ x.tabs, (route.to size t.trajId).2 = e →
      packAligned d (x.trajectory d files t).texts = .ok (packedFor d (x.trajectory d files t))) ∧
    s.At e (tables e)
      ((x.tabs.filter fun t => (route.to size t.trajId).2 = e).foldl (writeFile d files x) (tables e)) [] := by
  obtain ⟨s', hs', hrun⟩ := h.runs rank hrank
  obtain rfl := Option.some.inj (hs'.symm.trans hsome)
  obtain ⟨t₀, ht₀, hto⟩ := (hrun.opened e).mp he
  have hto' : (route.to size t₀.trajId).2 = e := congrArg Prod.snd hto
  have hone {id : UInt64} (hid : (route.to size id).2 = e) : route.to size id = (rank, e) :=
    Prod.ext ((route.to_owner (hid.trans hto'.symm)).trans (congrArg Prod.fst hto)) hid
  have howner : ∀ g < x.n, x.env g = e → x.owner g = rank := by
    intro g hg henv
    obtain ⟨ht, hlo, hhi⟩ := h.sound.tabAt_spec hg
    have hrouted := h.prepared.routed h.sound ht (List.mem_range'_1.mpr ⟨hlo, hhi⟩)
    have hid : (route.to size (x.tabAt g).trajId).2 = e := (congrArg Prod.snd hrouted).symm.trans henv
    exact (congrArg Prod.fst hrouted).trans (congrArg Prod.fst (hone hid))
  obtain ⟨out, prepared, hfeed, hreadback, hat⟩ := hrun.holds e he
  have hdrained := drainReady_byTurns.feed_once (by simp) hfeed
  rw [List.nil_append, batches_rows h.prepared h.sound hread hnc howner h.consecutive h.within] at hdrained
  have hwritable (t : FileTab) (ht : t ∈ x.tabs) := h.prepared.writable h.sound hread ht
  have hdistinct := h.prepared.ids_distinct
  obtain rfl := counts_eq h.counted
  have hmine (t : FileTab) (ht : t ∈ x.tabs.filter fun t => (route.to size t.trajId).2 = e) : t ∈ x.tabs :=
    List.mem_of_mem_filter ht
  obtain ⟨hpacked, rfl⟩ := drained_trajectories
    (by
      rw [List.map_map]
      exact hdistinct.sublist (List.filter_sublist.map _))
    (List.forall_mem_map.mpr fun t ht => by
      have hn := nOfTabs_eq hdistinct (hmine t ht)
      rw [Trajectory.count]
      show nOfTabs x.tabs _ t.trajId = some (UInt32.ofNat (x.sents d files t).length)
      rw [x.sents_length, hn])
    (List.forall_mem_map.mpr fun t ht => by
      show (x.sents d files t).length < 2 ^ 32
      rw [x.sents_length]
      exact h.sound.numbered t (hmine t ht))
    (List.forall_mem_map.mpr fun t ht => (hwritable t (hmine t ht)).loads hz) hdrained
  refine ⟨fun t ht hid => hpacked _ (List.mem_map_of_mem (List.mem_filter.mpr ⟨ht, by simpa using hid⟩)), ?_⟩
  have hrows : prepared = (x.tabs.filter fun t => (route.to size t.trajId).2 = e).flatMap (fileRows d files x) := by
    rw [List.nil_append, List.flatMap_map, List.map_flatMap] at hreadback
    have hall := mapM_flatMap_ok (g := readRow)
      (f := fun t => (repacked (packedFor d) (x.trajectory d files t)).map heldRecord)
      (h := fileRows d files x)
      fun t ht => rows_read (hwritable t (hmine t ht)).sends _
    exact Except.ok.inj (hreadback.symm.trans hall)
  have hstamps : ((x.tabs.zip (x.tabs.map fun t => UInt32.ofNat t.n)).filter fun tc =>
      route.to size tc.1.trajId = (rank, e)) =
        (x.tabs.filter fun t => (route.to size t.trajId).2 = e).map fun t => (t, UInt32.ofNat t.n) := by
    rw [zip_counts, List.filter_map]
    refine congrArg _ (List.filter_congr fun t _ => ?_)
    rw [Function.comp_apply, decide_eq_decide]
    exact ⟨congrArg Prod.snd, hone⟩
  rw [hstamps, List.foldl_map, hrows] at hat
  rw [writeFiles_eq]
  exact hat

theorem StagedRun.serial (h : StagedRun d files size route input tables counts ranks x bs) (hz : ZstdLossless d)
    (hread : ∀ f ∈ input, ∃ text, Ingestible d files f.2 text) (hnc : NoCollision d files input)
    (hc : ∀ e, (tables e).compressFrames = true) : serialIngest d files size route input tables =
      (.ok counts,
        fun e => (x.tabs.filter fun t => (route.to size t.trajId).2 = e).foldl (writeFile d files x) (tables e)) := by
  have hrank (t : FileTab) : (route.to size t.trajId).1 < size := route.to_lt (h.prepared.sized ▸ h.sound.pos) t.trajId
  have hinput := (scanFiles_inOrder d files h.prepared.scanned).2.1
  rw [counts_eq h.counted, ← hinput]
  refine serialIngest_ok hz h.prepared.ids_distinct (fun t ht => h.prepared.writable h.sound hread ht) (fun t ht => ?_) hc
    fun t ht => ?_
  · obtain ⟨s, hsome, hrun⟩ := h.runs _ (hrank t)
    have hin : (route.to size t.trajId).2 ∈ s.opened := (hrun.opened _).mpr ⟨t, ht, rfl⟩
    exact (h.env_written hz hread hnc (hrank t) hsome hin).1 t ht rfl
  · obtain ⟨s, _, hrun⟩ := h.runs _ (hrank t)
    exact hrun.unclaimed t ht rfl

theorem StagedRun.commits (h : StagedRun d files size route input tables counts ranks x bs) (hz : ZstdLossless d)
    (hread : ∀ f ∈ input, ∃ text, Ingestible d files f.2 text) (hnc : NoCollision d files input) (io : EngineIo F)
    (e : UInt32) :
    ((commitAll io ranks tables).2 e = tables e ∨ (commitAll io ranks tables).2 e =
      (x.tabs.filter fun t => (route.to size t.trajId).2 = e).foldl (writeFile d files x) (tables e)) ∧
    ((∀ r ∈ (commitAll io ranks tables).1, r = .ok ()) → (commitAll io ranks tables).2 e =
      (x.tabs.filter fun t => (route.to size t.trajId).2 = e).foldl (writeFile d files x) (tables e)) := by
  have hsize {r : Nat} {s : RankState F} (hs : ranks[r]? = some s) : r < size := by
    rw [← h.length]
    exact (List.getElem?_eq_some_iff.mp hs).1
  have hopened {r : Nat} {s : RankState F} (hs : ranks[r]? = some s) (e : UInt32) :
      e ∈ s.opened ↔ ∃ t ∈ x.tabs, route.to size t.trajId = (r, e) := by
    obtain ⟨s', hs', hrun⟩ := h.runs r (hsize hs)
    obtain rfl := Option.some.inj (hs'.symm.trans hs)
    exact hrun.opened e
  by_cases howned : ∃ (q : Nat) (s : RankState F), ranks[q]? = some s ∧ e ∈ s.opened
  · obtain ⟨q, s, hs, he⟩ := howned
    obtain ⟨t, _, hto⟩ := (hopened hs e).mp he
    obtain ⟨hleft, hdone, _⟩ := @commitAll_each _ _ io ranks q e _ _ _
      (fun s' hs' he' => (h.env_written hz hread hnc (hsize hs') hs' he').2)
      (fun r s' hs' hne he' => by
        obtain ⟨t', _, hto'⟩ := (hopened hs' e).mp he'
        have hsame := route.to_owner ((congrArg Prod.snd hto').trans (congrArg Prod.snd hto).symm)
        rw [hto, hto'] at hsame
        exact hne hsame) tables
    exact ⟨hleft, fun hall => hdone hall ⟨s, hs, he⟩⟩
  · have hnone : ∀ s ∈ ranks, e ∉ s.opened := by
      intro s hs he
      obtain ⟨q, hq⟩ := List.mem_iff_getElem?.mp hs
      exact howned ⟨q, s, hq, he⟩
    have hempty : (x.tabs.filter fun t => (route.to size t.trajId).2 = e) = [] := by
      rw [List.filter_eq_nil_iff]
      intro t ht hid
      have hrank := route.to_lt (h.prepared.sized ▸ h.sound.pos) t.trajId
      obtain ⟨s, hs, hrun⟩ := h.runs _ hrank
      exact howned ⟨_, s, hs, (hrun.opened e).mpr ⟨t, ht, Prod.ext rfl (by simpa using hid)⟩⟩
    obtain ⟨_, _, hkeep⟩ := @commitAll_each _ _ io ranks ranks.length e (tables e) (tables e) []
      (by simp) (fun r s hs _ => hnone s (List.mem_of_getElem? hs)) tables
    rw [hempty, hkeep hnone]
    exact ⟨.inl rfl, fun _ => rfl⟩

end Environments

section Refinement

variable {F : Type} [Float64 F] {d : Crates F} {files : Files} {io : EngineIo F} {size : Nat} {route : Route}
  {run : BatchRun F} {input : List (UInt64 × String)} {tables : UInt32 → ConCorpus F}

theorem engine_cases (hs : 0 < size) {batch : Nat} (hrun : GoesThrough run batch) :
    ((∀ counts, (engine d files io size route run input tables).1 ≠ lift (.ok counts)) ∧
      (engine d files io size route run input tables).2 = tables) ∨
    ∃ counts ranks x bs, StagedRun d files size route input tables counts ranks x bs ∧
      engine d files io size route run input tables =
        (lift ((fun _ => counts) <$> collective (commitAll io ranks tables).1), (commitAll io ranks tables).2) := by
  rw [engine]
  cases hst : staged d files io size route run input tables with
  | none => exact .inl ⟨fun _ h => (by cases h), rfl⟩
  | some r =>
    cases r with
    | error es => exact .inl ⟨fun _ h => (by cases h), rfl⟩
    | ok done =>
      obtain ⟨counts, ranks⟩ := done
      obtain ⟨x, bs, hrun'⟩ := staged_run hs hrun hst
      exact .inr ⟨counts, ranks, x, bs, hrun', rfl⟩

-- A file that can be read fits the address space, and cut at its frame starts it parses as it does whole.
structure SlicesParse (d : Crates F) (files : Files) (input : List (UInt64 × String)) : Prop where
  cuts : ∀ f ∈ input, ∀ text, readToString files f.2 = .ok text → CutsParse d text
  small : ∀ f ∈ input, ∀ text, readToString files f.2 = .ok text → (utf8 text).length < 2 ^ 64
  few : ∀ f ∈ input, ∀ text, readToString files f.2 = .ok text → (d.frameStartOffsets text).length + 1 < 2 ^ 64

theorem SlicesParse.ingestible (h : SlicesParse d files input) {tabs : List FileTab}
    (hscan : scanFiles d files input = .ok tabs) : ∀ f ∈ input, ∃ text, Ingestible d files f.2 text := by
  rw [scanFiles] at hscan
  split at hscan
  · cases hscan
  · next words hwords =>
    intro f hf
    obtain ⟨ws, _, hws⟩ := forall₂_mem_left (mapM_eq_ok.mp hwords) hf
    rw [fileWords] at hws
    split at hws
    · cases hws
    · next text htext => exact ⟨text, htext, h.cuts f hf text htext, h.small f hf text htext, h.few f hf text htext⟩

theorem mpi_ingest_refines_serial (hz : ZstdLossless d) (hs : 0 < size) (hp : SlicesParse d files input)
    (hnc : NoCollision d files input)
    (hc : ∀ e, (tables e).compressFrames = true) {batch : Nat} (hrun : GoesThrough run batch) {counts : List UInt32}
    {after : UInt32 → ConCorpus F} (h : engine d files io size route run input tables = (lift (.ok counts), after)) :
    serialIngest d files size route input tables = (.ok counts, after) := by
  rcases @engine_cases F _ d files io size route run input tables hs batch hrun with
    ⟨hfail, _⟩ | ⟨counts', ranks, x, bs, hstaged, heq⟩
  · exact absurd (congrArg Prod.fst h) (hfail counts)
  · have hread := hp.ingestible hstaged.prepared.scanned
    rw [heq] at h
    obtain ⟨hcounts, rfl⟩ := Prod.mk.inj h
    cases hall : collective (commitAll io ranks tables).1 with
    | error es =>
      rw [hall] at hcounts
      cases hcounts
    | ok vs =>
      rw [hall] at hcounts
      cases hcounts
      rw [hstaged.serial hz hread hnc hc]
      refine Prod.ext rfl (funext fun e => ?_)
      refine ((hstaged.commits hz hread hnc io e).2 fun r hr => ?_).symm
      rw [collective_eq_ok.mp hall] at hr
      obtain ⟨_, _, rfl⟩ := List.mem_map.mp hr
      rfl

-- Also when the ingest fails: no environment is left with a part of its files.
theorem mpi_ingest_all_or_nothing (hz : ZstdLossless d) (hs : 0 < size) (hp : SlicesParse d files input)
    (hnc : NoCollision d files input)
    (hc : ∀ e, (tables e).compressFrames = true) {batch : Nat} (hrun : GoesThrough run batch) :
    (engine d files io size route run input tables).2 = tables ∨
      (∃ counts, (serialIngest d files size route input tables).1 = .ok counts) ∧
        ∀ e, (engine d files io size route run input tables).2 e = tables e ∨
          (engine d files io size route run input tables).2 e = (serialIngest d files size route input tables).2 e := by
  rcases @engine_cases F _ d files io size route run input tables hs batch hrun with
    ⟨_, hkeep⟩ | ⟨counts, ranks, x, bs, hstaged, heq⟩
  · exact .inl hkeep
  · have hread := hp.ingestible hstaged.prepared.scanned
    rw [hstaged.serial hz hread hnc hc, heq]
    exact .inr ⟨⟨counts, rfl⟩, fun e => (hstaged.commits hz hread hnc io e).1⟩

end Refinement

section Tiny

def quietIo : EngineIo Bits where
  opened _ := none
  grown _ _ := none
  begun _ := none
  put _ _ _ := none
  putMeta _ _ _ := none
  committed _ := none
  order ids := ids
  reorders := List.Perm.refl

-- Both trajectories belong to shard 1, and so to rank 1; its second frame is the first one again, from rank 0.
def twinInput : List (UInt64 × String) := [(7, "a.con"), (9, "b.con")]

-- One trajectory in each shard.
def partedInput : List (UInt64 × String) := [(7, "a.con"), (8, "b.con")]

def bareTables (_ : UInt32) : ConCorpus Bits := ConCorpus.empty Bits

theorem tinyFiles_read {path text : String} (h : readToString tinyFiles path = .ok text) : text = hydrogen.2 := by
  have hfile := readToString_ok h
  rw [tinyFiles] at hfile
  split at hfile
  · have hsame := congrArg ofUtf8 (Except.ok.inj hfile)
    rw [ofUtf8_utf8, ofUtf8_utf8] at hsame
    exact (Option.some.inj hsame).symm
  · cases hfile

theorem hydrogen_frames : tiny.conFrames hydrogen.2 = [.ok hydrogen] := Catalog.conFrames_last hydrogen_mem

theorem hydrogen_starts : tiny.frameStartOffsets hydrogen.2 = [0] := by decide +kernel

theorem hydrogen_cuts : CutsParse tiny hydrogen.2 where
  within o ho := by
    rw [hydrogen_starts, List.mem_singleton] at ho
    omega
  counted := by
    rw [hydrogen_starts, hydrogen_frames]
    rfl
  same i start stop s hstart hstop hs := by
    rw [cutsOf, hydrogen_starts] at hstop
    rw [hydrogen_starts] at hstart
    cases i with
    | zero =>
      obtain rfl := Option.some.inj hstart
      obtain rfl := Option.some.inj hstop
      rw [piece_all, ofUtf8_utf8] at hs
      obtain rfl := Option.some.inj hs
      rw [hydrogen_frames]
      rfl
    | succ i => simp at hstart

theorem hydrogen_short : (utf8 hydrogen.2).length < 2 ^ 64 := by decide +kernel

variable (input : List (UInt64 × String))

theorem tinyFiles_slices : SlicesParse tiny tinyFiles input where
  cuts _ _ _ h := tinyFiles_read h ▸ hydrogen_cuts
  small _ _ _ h := tinyFiles_read h ▸ hydrogen_short
  few _ _ _ h := by
    rw [tinyFiles_read h, hydrogen_starts]
    decide

theorem tinyFiles_noCollision : NoCollision tiny tinyFiles input := by
  have hone {blob : String} (h : InputText tiny tinyFiles input blob) : blob = hydrogen.2 := by
    obtain ⟨f, _, text, frame, hread, hmem⟩ := h
    obtain rfl := tinyFiles_read hread
    rw [hydrogen_frames, List.mem_singleton] at hmem
    exact congrArg Prod.snd (Except.ok.inj hmem)
  intro blob blob' h h' _
  rw [hone h, hone h']

theorem answered_pair {E A B : Type} {p : Checked E A × B} {a : A} (h : answered p.1 = some a) :
    ∃ b, p = (lift (.ok a), b) := ⟨p.2, Prod.ext (answered_eq h) rfl⟩

theorem twins_refine_serial : ∃ after,
    engine tiny tinyFiles quietIo 2 (.sharded 2) (batchRun 4096) twinInput bareTables = (lift (.ok [1, 1]), after) ∧
      serialIngest tiny tinyFiles 2 (.sharded 2) twinInput bareTables = (.ok [1, 1], after) := by
  have hrun : answered (engine tiny tinyFiles quietIo 2 (.sharded 2) (batchRun 4096) twinInput bareTables).1 =
      some [1, 1] := by
    decide +kernel
  obtain ⟨after, hengine⟩ := answered_pair hrun
  exact ⟨after, hengine, mpi_ingest_refines_serial tiny_lossless (by decide) (tinyFiles_slices _)
    (tinyFiles_noCollision _) (fun _ => rfl) (.inl rfl) hengine⟩

-- The commit of environment 1 fails.
def fullIo : EngineIo Bits :=
  { quietIo with committed := fun e => if e = 1 then some (.heed "MDB_MAP_FULL: Environment mapsize limit reached") else none }

def fullTables : UInt32 → ConCorpus Bits :=
  (engine tiny tinyFiles fullIo 2 (.sharded 2) (batchRun 4096) input bareTables).2

theorem parted_keys : ((fullTables partedInput) 0).frames.keys = [(⟨8, 0⟩ : FrameKey).toBytes.val] ∧
    ((fullTables partedInput) 1).frames.keys = [] := by
  decide +kernel

-- Environment 0 commits and environment 1 does not.
theorem parted_all_or_nothing :
    (((fullTables partedInput) 0).frames.keys = [(⟨8, 0⟩ : FrameKey).toBytes.val] ∧
      ((fullTables partedInput) 1).frames.keys = []) ∧
    ((engine tiny tinyFiles fullIo 2 (.sharded 2) (batchRun 4096) partedInput bareTables).2 = bareTables ∨
      (∃ counts, (serialIngest tiny tinyFiles 2 (.sharded 2) partedInput bareTables).1 = .ok counts) ∧
        ∀ e, (engine tiny tinyFiles fullIo 2 (.sharded 2) (batchRun 4096) partedInput bareTables).2 e = bareTables e ∨
          (engine tiny tinyFiles fullIo 2 (.sharded 2) (batchRun 4096) partedInput bareTables).2 e =
            (serialIngest tiny tinyFiles 2 (.sharded 2) partedInput bareTables).2 e) :=
  ⟨parted_keys, mpi_ingest_all_or_nothing tiny_lossless (by decide) (tinyFiles_slices _) (tinyFiles_noCollision _)
    (fun _ => rfl) (.inl rfl)⟩

end Tiny

end ReadconDb
