import ReadconDb.MpiRows

set_option linter.unusedSectionVars false

namespace ReadconDb

open ByteString Outcome Blocks Slicing Draining

section Maps

variable {F : Type} [Float64 F] {d : Crates F} {io : EngineIo F} {nOf : UInt64 → Option UInt32} {s s' : RankState F}

structure RankState.At (s : RankState F) (e : UInt32) (base c : ConCorpus F) (buf : List Held) : Prop where
  session : s.sessions e = some ⟨base, some c⟩
  buf : (s.bufs e).getD [] = buf

structure RankState.Keyed (s : RankState F) : Prop where
  nodup : s.ids.Nodup
  keys : ∀ e, s.bufs e ≠ none → e ∈ s.ids

structure Flushes (d : Crates F) (nOf : UInt64 → Option UInt32) (c : ConCorpus F) (buf : List Held) (c' : ConCorpus F)
    (buf' out : List Held) : Prop where
  drains : drainReady d nOf buf [] = lift (.ok (out, buf'))
  puts : ∃ prepared, (out.map heldRecord).mapM readRow = .ok prepared ∧ c' = prepared.foldl putIndexPuts c

theorem flushes_empty (c : ConCorpus F) : Flushes d nOf c [] c [] [] :=
  ⟨drainReady_nil [], [], rfl, rfl⟩

structure FlushesOnly (d : Crates F) (nOf : UInt64 → Option UInt32) (s : RankState F) (id : UInt32) (s' : RankState F) :
    Prop where
  sameIds : s'.ids = s.ids
  opened : s'.opened = s.opened
  others : ∀ e, e ≠ id → s'.sessions e = s.sessions e ∧ s'.bufs e = s.bufs e
  keys : ∀ e, s'.bufs e ≠ none → s.bufs e ≠ none
  flushes : ∀ base c buf, s.At id base c buf →
    ∃ c' buf' out, s'.At id base c' buf' ∧ Flushes d nOf c buf c' buf' out

theorem putRows_ok {id : UInt32} {base c : ConCorpus F} {rows : List (FrameKey × Bytes × Bytes)}
    {next : IngestSession F} (h : putRows io id ⟨base, some c⟩ rows = .ok next) :
    ∃ prepared, rows.mapM readRow = .ok prepared ∧ next = ⟨base, some (prepared.foldl putIndexPuts c)⟩ := by
  rw [putRows, putEncoded] at h
  cases hrows : rows.mapM readRow with
  | error e =>
    rw [hrows] at h
    cases h
  | ok prepared =>
    rw [hrows] at h
    simp only [putPrepared] at h
    split at h
    · cases h
    · exact ⟨prepared, rfl, (Except.ok.inj h).symm⟩

theorem flushReady_only {id : UInt32} (h : flushReady d io nOf s id = lift (.ok s')) : FlushesOnly d nOf s id s' := by
  rw [flushReady] at h
  split at h
  · next hnone =>
    cases h
    refine ⟨rfl, rfl, fun _ _ => ⟨rfl, rfl⟩, fun _ hb => hb, fun base c buf hat => ?_⟩
    have hbuf := hat.buf
    rw [hnone] at hbuf
    subst hbuf
    exact ⟨c, [], [], hat, flushes_empty c⟩
  · next buf hsome =>
    obtain ⟨⟨ready, left⟩, hdrain, h⟩ := checked_bind_ok h
    have hkeys : ∀ e, Function.update s.bufs id (some left) e ≠ none → s.bufs e ≠ none := by
      intro e he
      by_cases heq : e = id
      · rw [heq, hsome]
        exact Option.some_ne_none _
      · rwa [Function.update_of_ne heq] at he
    simp only at h
    split at h
    · next hempty =>
      cases h
      obtain rfl := List.isEmpty_iff.mp hempty
      refine ⟨rfl, rfl, fun e he => ⟨rfl, Function.update_of_ne he _ _⟩, hkeys, fun base c buf' hat => ?_⟩
      have hbuf := hat.buf
      rw [hsome] at hbuf
      subst hbuf
      exact ⟨c, left, [], ⟨hat.session, by simp⟩, hdrain, [], rfl, rfl⟩
    · split at h
      · cases h
      · next session hsession =>
        obtain ⟨next, hput, h⟩ := checked_bind_ok h
        cases h
        refine ⟨rfl, rfl, fun e he => ⟨Function.update_of_ne he _ _, Function.update_of_ne he _ _⟩, hkeys,
          fun base c buf' hat => ?_⟩
        have hbuf := hat.buf
        rw [hsome] at hbuf
        subst hbuf
        obtain rfl := Option.some.inj (hsession.symm.trans hat.session)
        obtain ⟨prepared, hread, rfl⟩ := putRows_ok (lift_inj hput)
        exact ⟨_, left, ready, ⟨by simp, by simp⟩, hdrain, prepared, hread, rfl⟩

theorem RankState.At.keep {e : UInt32} {base c : ConCorpus F} {buf : List Held} (h : s.At e base c buf)
    (hs : s'.sessions e = s.sessions e) (hb : s'.bufs e = s.bufs e) : s'.At e base c buf :=
  ⟨by rw [hs, h.session], by rw [hb, h.buf]⟩

structure FlushesEach (d : Crates F) (nOf : UInt64 → Option UInt32) (ids : List UInt32) (s s' : RankState F) : Prop where
  sameIds : s'.ids = s.ids
  opened : s'.opened = s.opened
  others : ∀ e ∉ ids, s'.sessions e = s.sessions e ∧ s'.bufs e = s.bufs e
  keys : ∀ e, s'.bufs e ≠ none → s.bufs e ≠ none
  flushes : ∀ e ∈ ids, ∀ base c buf, s.At e base c buf → ∃ c' buf' out, s'.At e base c' buf' ∧ Flushes d nOf c buf c' buf' out

theorem flush_each {step : RankState F → UInt32 → Checked Error (RankState F)}
    (hstep : ∀ {s s' : RankState F} {id}, step s id = lift (.ok s') → FlushesOnly d nOf s id s') {ids : List UInt32}
    (hn : ids.Nodup) (h : ids.foldlM step s = lift (.ok s')) : FlushesEach d nOf ids s s' := by
  induction ids generalizing s with
  | nil =>
    cases h
    exact ⟨rfl, rfl, fun _ _ => ⟨rfl, rfl⟩, fun _ he => he, by simp⟩
  | cons id ids ih =>
    obtain ⟨hfirst, hrest⟩ := List.nodup_cons.mp hn
    rw [List.foldlM_cons] at h
    obtain ⟨mid, hmid, h⟩ := checked_bind_ok h
    have hone := hstep hmid
    have hall := ih hrest h
    refine ⟨hall.sameIds.trans hone.sameIds, hall.opened.trans hone.opened, ?_, fun e he => hone.keys e (hall.keys e he), ?_⟩
    · intro e he
      obtain ⟨hne, hnot⟩ := not_or.mp (fun hor => he (List.mem_cons.mpr hor))
      obtain ⟨hs, hb⟩ := hall.others e hnot
      obtain ⟨hs', hb'⟩ := hone.others e hne
      exact ⟨hs.trans hs', hb.trans hb'⟩
    · intro e he base c buf hat
      rcases List.mem_cons.mp he with rfl | hin
      · obtain ⟨c', buf', out, hat', hflush⟩ := hone.flushes base c buf hat
        obtain ⟨hs, hb⟩ := hall.others e hfirst
        exact ⟨c', buf', out, hat'.keep hs hb, hflush⟩
      · have hne : e ≠ id := by
          rintro rfl
          exact hfirst hin
        obtain ⟨hs, hb⟩ := hone.others e hne
        exact hall.flushes e hin base c buf (hat.keep hs hb)

theorem RankState.Keyed.after {ids : List UInt32} (h : s.Keyed) (hf : FlushesEach d nOf ids s s') : s'.Keyed :=
  ⟨hf.sameIds ▸ h.nodup, fun e he => hf.sameIds ▸ h.keys e (hf.keys e he)⟩

-- An environment without a buffer has nothing to flush.
theorem FlushesEach.at (hf : FlushesEach d nOf (io.order s.ids) s s') (h : s.Keyed) {e : UInt32} {base c : ConCorpus F}
    {buf : List Held} (hat : s.At e base c buf) :
    ∃ c' buf' out, s'.At e base c' buf' ∧ Flushes d nOf c buf c' buf' out := by
  by_cases he : e ∈ io.order s.ids
  · exact hf.flushes e he base c buf hat
  · have hnone : s.bufs e = none := by
      by_contra hb
      exact he ((io.reorders s.ids).mem_iff.mpr (h.keys e hb))
    obtain ⟨hs, hb⟩ := hf.others e he
    have hbuf := hat.buf
    rw [hnone] at hbuf
    subst hbuf
    exact ⟨c, [], [], hat.keep hs hb, flushes_empty c⟩

theorem flushTail_only {id : UInt32} (h : flushTail d io nOf s id = lift (.ok s')) :
    FlushesOnly d nOf s id s' ∧ (s'.bufs id).getD [] = [] := by
  rw [flushTail] at h
  obtain ⟨mid, hmid, h⟩ := checked_bind_ok h
  split at h
  · next hempty =>
    cases h
    exact ⟨flushReady_only hmid, List.isEmpty_iff.mp hempty⟩
  · cases h

theorem tails_empty {ids : List UInt32} (hn : ids.Nodup) (h : ids.foldlM (flushTail d io nOf) s = lift (.ok s')) :
    ∀ e ∈ ids, (s'.bufs e).getD [] = [] := by
  induction ids generalizing s with
  | nil => simp
  | cons id ids ih =>
    obtain ⟨hfirst, hrest⟩ := List.nodup_cons.mp hn
    rw [List.foldlM_cons] at h
    obtain ⟨mid, hmid, h⟩ := checked_bind_ok h
    have hall := flush_each (fun hs => (flushTail_only hs).1) hrest h
    intro e he
    rcases List.mem_cons.mp he with rfl | he
    · rw [(hall.others e hfirst).2]
      exact (flushTail_only hmid).2
    · exact ih hrest h e he

end Maps

section Staging

variable {F : Type} [Float64 F] {d : Crates F} {io : EngineIo F} {nOf : UInt64 → Option UInt32} {s s' : RankState F}

def rowsFor (e : UInt32) (rows : List (UInt32 × Held)) : List Held := (rows.filter fun r => r.1 = e).map Prod.snd

theorem pushRow_keyed (h : s.Keyed) (row : UInt32 × Held) : (pushRow s row).Keyed where
  nodup := by
    rw [pushRow]
    split
    · exact h.nodup
    · next hnot => exact List.nodup_append.mpr ⟨h.nodup, List.nodup_singleton _, by
        intro a ha b hb hab
        rw [List.mem_singleton.mp hb] at hab
        exact hnot (hab ▸ ha)⟩
  keys e he := by
    have hmem : e = row.1 ∨ e ∈ s.ids := by
      by_cases heq : e = row.1
      · exact .inl heq
      · have hsame : (pushRow s row).bufs e = s.bufs e := Function.update_of_ne heq _ _
        exact .inr (h.keys e (hsame ▸ he))
    rw [pushRow]
    split
    · next hin =>
      rcases hmem with rfl | hmem
      · exact hin
      · exact hmem
    · rcases hmem with rfl | hmem
      · simp
      · exact List.mem_append_left _ hmem

theorem pushRow_at {e : UInt32} {base c : ConCorpus F} {buf : List Held} (h : s.At e base c buf) (row : UInt32 × Held) :
    (pushRow s row).At e base c (buf ++ rowsFor e [row]) where
  session := h.session
  buf := by
    by_cases heq : row.1 = e
    · subst heq
      simp [pushRow, rowsFor, h.buf]
    · simp [pushRow, rowsFor, heq, Function.update_of_ne (Ne.symm heq), h.buf]

theorem pushRows_spec (rows : List (UInt32 × Held)) :
    (s.Keyed → (rows.foldl pushRow s).Keyed) ∧ (rows.foldl pushRow s).opened = s.opened ∧
      ∀ {e base c buf}, s.At e base c buf → (rows.foldl pushRow s).At e base c (buf ++ rowsFor e rows) := by
  induction rows generalizing s with
  | nil => exact ⟨id, rfl, fun h => by simpa [rowsFor] using h⟩
  | cons row rows ih =>
    obtain ⟨hkeyed, hopened, hat⟩ := ih (s := pushRow s row)
    refine ⟨fun h => hkeyed (pushRow_keyed h row), hopened, fun {e base c buf} h => ?_⟩
    have hsplit : rowsFor e (row :: rows) = rowsFor e [row] ++ rowsFor e rows := by
      rw [rowsFor, rowsFor, rowsFor, ← List.map_append, ← List.filter_append]
      rfl
    have hnext := hat (pushRow_at h row)
    rw [List.append_assoc, ← hsplit] at hnext
    exact hnext

structure Stages (d : Crates F) (nOf : UInt64 → Option UInt32) (batch : UInt32 → List Held) (s s' : RankState F) : Prop where
  keyed : s'.Keyed
  opened : s'.opened = s.opened
  flushes : ∀ {e base c buf}, s.At e base c buf →
    ∃ c' buf' out, s'.At e base c' buf' ∧ Flushes d nOf c (buf ++ batch e) c' buf' out

theorem stageRank_stages (h : s.Keyed) {rows : List (UInt32 × Held)} (hs : stageRank d io nOf s rows = lift (.ok s')) :
    Stages d nOf (fun e => rowsFor e rows) s s' := by
  obtain ⟨hkeyed, hopened, hat⟩ := pushRows_spec (s := s) rows
  have hn : (io.order (rows.foldl pushRow s).ids).Nodup := (io.reorders _).nodup_iff.mpr (hkeyed h).nodup
  have heach := flush_each flushReady_only hn hs
  exact ⟨(hkeyed h).after heach, heach.opened.trans hopened, fun hbuf => heach.at (hkeyed h) (hat hbuf)⟩

structure StagesAll (d : Crates F) (nOf : UInt64 → Option UInt32) (batches : List (UInt32 → List Held))
    (s s' : RankState F) : Prop where
  keyed : s'.Keyed
  opened : s'.opened = s.opened
  feeds : ∀ {e base c buf}, s.At e base c buf → ∃ c' buf' out, s'.At e base c' buf' ∧
    feed (drainReady d nOf) (batches.map fun batch => batch e) buf = lift (.ok (out, buf')) ∧
      ∃ prepared, (out.map heldRecord).mapM readRow = .ok prepared ∧ c' = prepared.foldl putIndexPuts c

theorem stagesAll_nil (h : s.Keyed) : StagesAll d nOf [] s s where
  keyed := h
  opened := rfl
  feeds hat := ⟨_, _, [], hat, rfl, [], rfl, rfl⟩

theorem StagesAll.cons {batch : UInt32 → List Held} {batches : List (UInt32 → List Held)} {mid : RankState F}
    (hone : Stages d nOf batch s mid) (hall : StagesAll d nOf batches mid s') : StagesAll d nOf (batch :: batches) s s' where
  keyed := hall.keyed
  opened := hall.opened.trans hone.opened
  feeds hat := by
    obtain ⟨c₁, buf₁, out, hat₁, hdrains, prepared, hread, rfl⟩ := hone.flushes hat
    obtain ⟨c₂, buf₂, more, hat₂, hfeed, prepared', hread', rfl⟩ := hall.feeds hat₁
    refine ⟨_, buf₂, out ++ more, hat₂, ?_, prepared ++ prepared', ?_, ?_⟩
    · rw [List.map_cons, feed, hdrains, lift_ok_bind]
      simp only [hfeed, lift_ok_bind, pure_eq_lift]
    · rw [List.map_append]
      exact mapM_append_ok hread hread'
    · rw [List.foldl_append]

variable {x : Exchange}

theorem stage_rank {ranks ranks' : List (RankState F)} {rows : List (List (UInt32 × Held))}
    (h : stage d io nOf ranks rows = .ok ranks') {q : Nat} {r : List (UInt32 × Held)} (hq : ranks[q]? = some s)
    (hr : rows[q]? = some r) : ∃ s', ranks'[q]? = some s' ∧ stageRank d io nOf s r = lift (.ok s') := by
  rw [stage] at h
  have htogether : together (List.zipWith (stageRank d io nOf) ranks rows) = lift (.ok ranks') := by
    cases ht : together (List.zipWith (stageRank d io nOf) ranks rows) with
    | none =>
      rw [ht] at h
      cases h
    | some out =>
      rw [ht] at h
      exact congrArg some h
  have hget := congrArg (fun ys => ys[q]?) (together_ok htogether)
  simp only [List.getElem?_zipWith, hq, hr, List.getElem?_map] at hget
  obtain ⟨s', hs', heq⟩ := Option.map_eq_some_iff.mp hget.symm
  exact ⟨s', hs', heq.symm⟩

def batchesAt (x : Exchange) (q : Nat) (bs : List (Nat × Nat)) : List (UInt32 → List Held) :=
  bs.map fun b e => rowsFor e ((x.owned b.1 b.2 q).map (x.heldOf b.1))

theorem stageAll_rank {stuck : Option (Nat × Nat)} {bs : List (Nat × Nat)} {ranks ranks' : List (RankState F)}
    (h : (stageAll x (stage d io nOf) stuck ranks bs).2 = .ok ranks') {q : Nat} (hqs : q < x.size) (hq : ranks[q]? = some s)
    (hk : s.Keyed) : ∃ s', ranks'[q]? = some s' ∧ StagesAll d nOf (batchesAt x q bs) s s' := by
  induction bs generalizing ranks s with
  | nil =>
    obtain ⟨rfl, _⟩ := stageAll_ok h
    cases h
    exact ⟨s, hq, stagesAll_nil hk⟩
  | cons b bs ih =>
    rw [stageAll] at h
    split at h
    · cases h
    · next mids hmids =>
      have hrow : (rowsOf x b)[q]? = some ((x.owned b.1 b.2 q).map (x.heldOf b.1)) := by
        rw [rowsOf, List.getElem?_map, List.getElem?_range hqs, Option.map_some]
      obtain ⟨mid, hmid, hstage⟩ := stage_rank hmids hq hrow
      have hone := stageRank_stages hk hstage
      obtain ⟨s', hs', hall⟩ := ih h hmid hone.keyed
      exact ⟨s', hs', .cons hone hall⟩

-- The tail is one more batch, and an empty one.
theorem tailRank_stages (h : s.Keyed) (ht : tailRank d io nOf s = lift (.ok s')) :
    Stages d nOf (fun _ => []) s s' ∧ ∀ e, (s'.bufs e).getD [] = [] := by
  have hn : (io.order s.ids).Nodup := (io.reorders _).nodup_iff.mpr h.nodup
  have heach := flush_each (fun hs => (flushTail_only hs).1) hn ht
  refine ⟨⟨h.after heach, heach.opened, fun hbuf => ?_⟩, fun e => ?_⟩
  · rw [List.append_nil]
    exact heach.at h hbuf
  · by_cases he : e ∈ io.order s.ids
    · exact tails_empty hn ht e he
    · have hnone : s.bufs e = none := by
        by_contra hb
        exact he ((io.reorders s.ids).mem_iff.mpr (h.keys e hb))
      rw [(heach.others e he).2, hnone]
      rfl

theorem StagesAll.snoc {batch : UInt32 → List Held} {batches : List (UInt32 → List Held)} {mid : RankState F}
    (hall : StagesAll d nOf batches s mid) (hone : Stages d nOf batch mid s') :
    StagesAll d nOf (batches ++ [batch]) s s' where
  keyed := hone.keyed
  opened := hone.opened.trans hall.opened
  feeds hat := by
    obtain ⟨c₁, buf₁, out, hat₁, hfeed, prepared, hread, rfl⟩ := hall.feeds hat
    obtain ⟨c₂, buf₂, more, hat₂, hdrains, prepared', hread', rfl⟩ := hone.flushes hat₁
    refine ⟨_, buf₂, out ++ more, hat₂, ?_, prepared ++ prepared', ?_, ?_⟩
    · rw [List.map_append]
      exact feed_snoc hfeed hdrains
    · rw [List.map_append]
      exact mapM_append_ok hread hread'
    · rw [List.foldl_append]

end Staging

end ReadconDb
