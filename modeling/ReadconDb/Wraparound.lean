import ReadconDb.Catalog
import ReadconDb.Packing

set_option linter.unusedSectionVars false

namespace ReadconDb

open ByteString Outcome OrderedTable TwoPhase

section Wrap

variable {F : Type} [Float64 F] {d : Crates F} {c : ConCorpus F} {t : UInt64}

theorem framed_append {A : Type} (t : UInt64) (idx : UInt32) (as bs : List A) :
    framed t idx (as ++ bs) = framed t idx as ++ framed t (idx + UInt32.ofNat as.length) bs := by
  induction as generalizing idx with
  | nil => simp [framed]
  | cons a as ih =>
    have hs : idx + UInt32.ofNat (a :: as).length = idx + 1 + UInt32.ofNat as.length := by
      rw [List.length_cons, UInt32.ofNat_add, UInt32.add_assoc, UInt32.add_comm 1]
      rfl
    rw [List.cons_append, framed, ih, framed, hs, List.cons_append]

-- After `2 ^ 32` frames the number is 0 again, and the last frame falls on the first.
theorem framed_wrap {A : Type} (t : UInt64) (x y : A) {n : Nat} (hn : UInt32.ofNat (n + 1) = 0) :
    framed t 0 (x :: (List.replicate n y ++ [y])) =
      (⟨t, 0⟩, x) :: (framed t 1 (List.replicate n y) ++ [(⟨t, 0⟩, y)]) := by
  have hw : (0 : UInt32) + 1 + UInt32.ofNat (List.replicate n y).length = 0 := by
    rw [List.length_replicate, UInt32.zero_add, UInt32.add_comm, ← hn, UInt32.ofNat_add]
    rfl
  rw [framed, framed_append, hw]
  rfl

theorem post_kept {post : Table Bytes} {h b : Bytes} (hb : post[h]? = some b) (h' b' : Bytes) :
    (postHash post h' b')[h]? = some b := by
  rw [postHash]
  split
  · next hn =>
    rw [get_insert, if_neg, hb]
    rintro rfl
    rw [hb] at hn
    cases hn
  · exact hb

theorem posts_kept (ps : List PreparedIndexPuts) {c : ConCorpus F} {h b : Bytes}
    (hb : c.frameByHash[h]? = some b) : (ps.foldl putIndexPuts c).frameByHash[h]? = some b := by
  induction ps generalizing c with
  | nil => exact hb
  | cons p ps ih => exact ih (post_kept hb _ _)

theorem first_post_stays {p : PreparedIndexPuts} (ps : List PreparedIndexPuts)
    (hp : c.frameByHash[p.hash.val]? = none) :
    ((p :: ps).foldl putIndexPuts c).frameByHash[p.hash.val]? = some (fkBytes p) := by
  refine posts_kept ps ?_
  simp only [putIndexPuts, postHash, hp]
  rw [get_insert, if_pos rfl]
  rfl

theorem last_put_stands (ps : List PreparedIndexPuts) (q : PreparedIndexPuts) :
    ((ps ++ [q]).foldl putIndexPuts c).hashByFrame[fkBytes q]? = some q.hash.val ∧
      ((ps ++ [q]).foldl putIndexPuts c).frames[fkBytes q]? = some q.stored := by
  rw [List.foldl_append, List.foldl_cons, List.foldl_nil]
  constructor <;> simp only [putIndexPuts, fkBytes] <;> rw [get_insert, if_pos rfl]

theorem put_text (hz : ZstdLossless d) {k : FrameKey} {x : ConFrame F × String} {q : PreparedIndexPuts}
    {compress : Bool} (hq : PutFor d (k, x) q) (hs : storeFrame d x.2 compress = .ok q.stored) :
    textAt d (putIndexPuts c q) k = some x.2 := by
  have hlast := (last_put_stands (c := c) [] q).2
  rw [fkBytes, hq.fk] at hlast
  exact textAt_eq_some.mpr ⟨q.stored, hlast, decode_store hz hs _⟩

-- Compression never stands in the way: zstd takes any bytes, and no text is longer than a `u32` counts.
structure Packs (d : Crates F) (xs : List (ConFrame F × String)) : Prop where
  lossless : ZstdLossless d
  encodes : ∀ b, ∃ z, d.zstdEncode b = .ok z
  short : ∀ x ∈ xs, (utf8 x.2).length < 2 ^ 32

theorem prepareItems_total (he : ∀ b, ∃ z, d.zstdEncode b = .ok z) (xs : List (ConFrame F × String))
    (t : UInt64) (idx : UInt32) (compress : Bool) :
    ∃ ps, prepareItems d t compress idx (xs.map Except.ok) = .ok ps := by
  induction xs generalizing idx with
  | nil => exact ⟨[], rfl⟩
  | cons x xs ih =>
    obtain ⟨ps, hps⟩ := ih (idx + 1)
    obtain ⟨stored, hs⟩ := storeFrame_total he x.2 compress
    rw [List.map_cons, prepareItems, hps]
    simp only [buildIndexPuts, hs, bind, Except.bind]
    exact ⟨_, rfl⟩

theorem prepare_total {xs : List (ConFrame F × String)} (hp : Packs d xs) (t : UInt64) (idx : UInt32)
    (compress : Bool) : ∃ ps qs, prepareItems d t compress idx (xs.map Except.ok) = .ok ps ∧
      groupIf d compress ps = .ok qs ∧ List.Forall₂ (PutFor d) (framed t idx xs) qs := by
  obtain ⟨ps, hps⟩ := prepareItems_total hp.encodes xs t idx compress
  obtain ⟨ys, hys, hb⟩ := prepareItems_ok hps
  obtain rfl : xs = ys := List.map_injective_iff.mpr (fun _ _ h => Except.ok.inj h) hys
  have hd : List.Forall₂ (PutFor d) (framed t idx xs) ps := hb.imp fun _ _ h => (buildIndexPuts_ok h).2
  cases compress with
  | false => exact ⟨ps, ps, hps, rfl, hd⟩
  | true =>
    by_cases hl : ps.length < 2
    · exact ⟨ps, ps, hps, by rw [groupIf, if_pos rfl, groupPrepared, if_pos hl], hd⟩
    · have hload := loaded_texts hp.lossless hb
      have hshort : ∀ f ∈ ((framed t idx xs).map rowText).map slotText, (utf8 f.2).length < 2 ^ 32 := by
        intro f hf
        rw [List.map_map, List.mem_map] at hf
        obtain ⟨r, hr, rfl⟩ := hf
        refine hp.short r.2 ?_
        rw [← framed_snd t idx xs]
        exact List.mem_map_of_mem hr
      obtain ⟨rows, hrows⟩ := packAligned_total hp.encodes hshort
      refine ⟨ps, assignStored ps rows, hps, ?_, assignStored_derived hd rows⟩
      rw [groupIf, if_pos rfl, groupPrepared, if_neg hl, hload]
      simp only [bind, Except.bind, hrows]
      rfl

theorem prepareAppendFrames_total {frames : List (ConFrame F)} {fmt : FloatFormat}
    {xs : List (ConFrame F × String)} (hp : Packs d xs) (hx : frames.map (serialize d fmt) = xs.map Except.ok) :
    ∃ qs, prepareAppendFrames d c t frames fmt = .ok qs ∧ List.Forall₂ (PutFor d) (framed t 0 xs) qs := by
  obtain ⟨ps, qs, hps, hqs, hd⟩ := prepare_total hp t 0 c.compressFrames
  refine ⟨qs, ?_, hd⟩
  rw [prepareAppendFrames, prepareTrajectoryFramesFormatted, hx, hps]
  exact hqs

theorem appendFrames_total {frames : List (ConFrame F)} {fmt : FloatFormat}
    {xs : List (ConFrame F × String)} (hp : Packs d xs) (ht : c.trajMeta[t]? = none)
    (hx : frames.map (serialize d fmt) = xs.map Except.ok) (source : String) :
    ∃ (qs : List PreparedIndexPuts) (m : TrajMeta F), List.Forall₂ (PutFor d) (framed t 0 xs) qs ∧
      m.nFrames = UInt32.ofNat xs.length ∧
      (Op.appendFrames t frames source fmt).exec d Verdicts.granted c =
        (.ok (UInt32.ofNat xs.length).toNat, restamp (qs.foldl putIndexPuts c) t m) := by
  obtain ⟨qs, hplan, hd⟩ := prepareAppendFrames_total (c := c) (t := t) hp hx
  have hafter := framesAfter_prepared (derived_fks hd)
  rw [UInt32.zero_add] at hafter
  simp only [Op.exec, appendTrajectoryFramesWithFloatFormat, hplan, call, write, Verdicts.granted,
    commitPrepared, ht, hafter, counted, Except.map]
  exact ⟨qs, _, hd, rfl, rfl⟩

def rawPut (d : Crates F) (r : FrameRow F) : PreparedIndexPuts :=
  { screeningKeys r.1 (d.fromFrame r.2.1) with
    fk := r.1, stored := utf8 r.2.2, hash := hashFrameBytes d (utf8 r.2.2) }

theorem prepareItems_raw (t : UInt64) (idx : UInt32) (xs : List (ConFrame F × String)) :
    prepareItems d t false idx (xs.map Except.ok) = .ok ((framed t idx xs).map (rawPut d)) := by
  induction xs generalizing idx with
  | nil => rfl
  | cons x xs ih =>
    rw [List.map_cons, prepareItems, ih]
    rfl

theorem framesAfter_raw (t : UInt64) (xs : List (ConFrame F × String)) :
    framesAfter ((framed t 0 xs).map (rawPut d)) 0 = UInt32.ofNat xs.length := by
  have hfks : ((framed t 0 xs).map (rawPut d)).map PreparedIndexPuts.fk = (framed t 0 xs).map Prod.fst := by
    rw [List.map_map]
    rfl
  rw [framesAfter_prepared hfks, UInt32.zero_add]

theorem appendFrames_raw (hc : c.compressFrames = false) (ht : c.trajMeta[t]? = none) {frames : List (ConFrame F)}
    {fmt : FloatFormat} {xs : List (ConFrame F × String)} (hx : frames.map (serialize d fmt) = xs.map Except.ok)
    (source : String) : ∃ m : TrajMeta F, (Op.appendFrames t frames source fmt).exec d Verdicts.granted c =
      (.ok (UInt32.ofNat xs.length).toNat,
        restamp (((framed t 0 xs).map (rawPut d)).foldl putIndexPuts c) t m) := by
  have hplan : prepareAppendFrames d c t frames fmt = .ok ((framed t 0 xs).map (rawPut d)) := by
    rw [prepareAppendFrames, prepareTrajectoryFramesFormatted, hc, hx, prepareItems_raw]
    rfl
  simp only [Op.exec, appendTrajectoryFramesWithFloatFormat, hplan, call, write, Verdicts.granted, commitPrepared, ht,
    framesAfter_raw, counted, Except.map]
  exact ⟨_, rfl⟩

theorem appendStr_raw (hc : c.compressFrames = false) (ht : c.trajMeta[t]? = none) {contents : String}
    {xs : List (ConFrame F × String)} (hx : spans d contents = xs.map Except.ok) (source : String) :
    ∃ m : TrajMeta F, m.nFrames = UInt32.ofNat xs.length ∧
      (Op.appendStr t contents source).exec d Verdicts.granted c =
        (.ok (UInt32.ofNat xs.length).toNat,
          restamp (((framed t 0 xs).map (rawPut d)).foldl putIndexPuts c) t m) := by
  have hplan : prepareAppendStr d c t contents = .ok ((framed t 0 xs).map (rawPut d)) := by
    rw [prepareAppendStr, prepareTrajectoryStr, hc, hx, prepareItems_raw]
    rfl
  simp only [Op.exec, appendTrajectoryStr, hplan, call, write, Verdicts.granted, commitPrepared, ht,
    framesAfter_raw, counted, Except.map]
  exact ⟨_, rfl, rfl⟩

theorem extendFrames_total {frames : List (ConFrame F)} {xs : List (ConFrame F × String)}
    (hp : Packs d xs) {start : UInt32} (hs : countOf c.trajMeta[t]? = start)
    (hx : frames.map (serialize d d.defaultFormat) = xs.map Except.ok) (hint : String) :
    ∃ (qs : List PreparedIndexPuts) (m : TrajMeta F), List.Forall₂ (PutFor d) (framed t start xs) qs ∧
      m.nFrames = start + UInt32.ofNat xs.length ∧
      (Op.extendFrames t frames hint).exec d Verdicts.granted c =
        (.ok (start + UInt32.ofNat xs.length).toNat, restamp (qs.foldl putIndexPuts c) t m) := by
  subst hs
  obtain ⟨ps, qs, hps, hqs, hd⟩ := prepare_total hp t (countOf c.trajMeta[t]?) c.compressFrames
  have hafter := framesAfter_prepared (derived_fks hd)
  have hplan : prepareExtend d c t frames = .ok (c.trajMeta[t]?, qs) := by
    rw [prepareExtend, prepareTrajectoryFramesFormatted, hx, hps]
    simp only [bind, Except.bind, hqs]
    rfl
  simp only [Op.exec, extendTrajectoryFrames, hplan, call, write, Verdicts.granted, commitExtend,
    hafter, counted, Except.map, ne_eq, not_true_eq_false, if_false]
  exact ⟨qs, _, hd, rfl, rfl⟩

section Overwritten

variable {k : FrameKey} {x y : ConFrame F × String} {ps : List PreparedIndexPuts} {i : Index} {b : Bytes}

-- The rows of a frame outlive it when another is put under its key.
theorem overwritten_row (hx : (i, b) ∈ frameRows d k x.1) (m : TrajMeta F) :
    b ∈ (restamp ((rawPut d (k, x) :: (ps ++ [rawPut d (k, y)])).foldl putIndexPuts c) t m).idx i := by
  have hrow : (i, b) ∈ (rawPut d (k, x)).rows := hx
  exact (mem_puts_idx c (rawPut d (k, x) :: (ps ++ [rawPut d (k, y)])) i b).mpr
    (.inr ⟨rawPut d (k, x), by simp, hrow⟩)

theorem overwritten_text (hz : ZstdLossless d) (m : TrajMeta F) :
    textAt d (restamp ((rawPut d (k, x) :: (ps ++ [rawPut d (k, y)])).foldl putIndexPuts c) t m) k = some y.2 := by
  have hlast := last_put_stands (c := c) (rawPut d (k, x) :: ps) (rawPut d (k, y))
  have hstore : storeFrame d y.2 false = .ok (utf8 y.2) := rfl
  rw [textAt_restamp]
  exact textAt_eq_some.mpr ⟨utf8 y.2, hlast.2, decode_store hz hstore _⟩

theorem overwritten_stale (hz : ZstdLossless d) (hx : (i, b) ∈ frameRows d k x.1)
    (hy : ∀ f, parsed d y.2 = some f → (i, b) ∉ frameRows d k f) (m : TrajMeta F) :
    ¬ IndexExact d (restamp ((rawPut d (k, x) :: (ps ++ [rawPut d (k, y)])).foldl putIndexPuts c) t m) := by
  intro hi
  obtain ⟨j, s, f, hs, hf, hb⟩ := (hi i b).mp (overwritten_row hx m)
  obtain rfl : j = k := suffix_key_inj (frameRows_suffix hb) (frameRows_suffix hx)
  rw [overwritten_text hz, Option.some.injEq] at hs
  exact hy f (hs ▸ hf) hb

end Overwritten

theorem extendFrames_one {x : ConFrame F × String} {f : ConFrame F}
    (he : ∀ b, ∃ z, d.zstdEncode b = .ok z) {start : UInt32} (hs : countOf c.trajMeta[t]? = start)
    (hx : serialize d d.defaultFormat f = .ok x) (hint : String) :
    ∃ (q : PreparedIndexPuts) (m : TrajMeta F), PutFor d (⟨t, start⟩, x) q ∧
      storeFrame d x.2 c.compressFrames = .ok q.stored ∧ m.nFrames = start + 1 ∧
      (Op.extendFrames t [f] hint).exec d Verdicts.granted c =
        (.ok (start + 1).toNat, restamp (putIndexPuts c q) t m) := by
  subst hs
  obtain ⟨ps, hps⟩ := prepareItems_total he [x] t (countOf c.trajMeta[t]?) c.compressFrames
  obtain ⟨ys, hys, hb⟩ := prepareItems_ok hps
  obtain rfl : [x] = ys := List.map_injective_iff.mpr (fun _ _ h => Except.ok.inj h) hys
  cases hb with
  | @cons r q rs ps hq hrest =>
    cases hrest
    obtain ⟨hstore, hput⟩ := buildIndexPuts_ok hq
    have hgroup : groupIf d c.compressFrames [q] = .ok [q] := by
      cases c.compressFrames <;> rfl
    have hplan : prepareExtend d c t [f] = .ok (c.trajMeta[t]?, [q]) := by
      rw [prepareExtend, prepareTrajectoryFramesFormatted, List.map_singleton, hx]
      rw [List.map_singleton] at hps
      simp only [bind, Except.bind, hps, hgroup]
      rfl
    have hafter : framesAfter [q] (countOf c.trajMeta[t]?) = countOf c.trajMeta[t]? + 1 := by
      simp only [framesAfter, List.getLast?_singleton, hput.fk]
    simp only [Op.exec, extendTrajectoryFrames, hplan, call, write, Verdicts.granted, commitExtend,
      hafter, counted, Except.map, ne_eq, not_true_eq_false, if_false]
    exact ⟨q, _, hput, hstore, rfl, rfl⟩

end Wrap

section Tiny

variable {c : ConCorpus Bits}

theorem tiny_packs {xs : List (Entry Bits)} (h : ∀ x ∈ xs, x = hydrogen ∨ x = helium) : Packs tiny xs where
  lossless := tiny_lossless
  encodes b := ⟨_, rfl⟩
  short x hx := by
    rcases h x hx with rfl | rfl
    · decide +kernel
    · decide +kernel

-- One frame is stored; `2 ^ 32 - 1` more bring the count back to 0; the next one lands on the first.
theorem tiny_overwrites (hc : countOf c.trajMeta[(0 : UInt64)]? = 1) (frames : List (ConFrame Bits))
    (hf : frames = List.replicate (2 ^ 32 - 1) helium.1) :
    ∃ c₁ c₂ : ConCorpus Bits,
      ((Op.extendFrames 0 frames "").exec tiny Verdicts.granted c).2 = c₁ ∧
      ((Op.extendFrames 0 [helium.1] "").exec tiny Verdicts.granted c₁).2 = c₂ ∧
      textAt tiny c₂ ⟨0, 0⟩ = some helium.2 ∧
      c₂.hashByFrame[(FrameKey.mk 0 0).toBytes.val]? = some (hashFrameBytes tiny (utf8 helium.2)).val ∧
      (∀ h b : Bytes, c.frameByHash[h]? = some b → c₂.frameByHash[h]? = some b) ∧
      c₂.framesSoa = c.framesSoa := by
  have hx : frames.map (serialize tiny tiny.defaultFormat) =
      (List.replicate (2 ^ 32 - 1) helium).map Except.ok := by rw [hf, serialize_heliums]
  have hp : Packs tiny (List.replicate (2 ^ 32 - 1) helium) :=
    tiny_packs fun x hx => .inr (List.eq_of_mem_replicate hx)
  obtain ⟨qs, m, _, hm, h₁⟩ := extendFrames_total hp hc hx ""
  have hzero : (1 : UInt32) + UInt32.ofNat (List.replicate (2 ^ 32 - 1) helium).length = 0 := by
    rw [List.length_replicate]
    decide
  have hc₁ : countOf (restamp (qs.foldl putIndexPuts c) 0 m).trajMeta[(0 : UInt64)]? = 0 := by
    rw [restamp, get_insert, if_pos rfl, countOf, Option.map_some, hm, hzero]
    rfl
  obtain ⟨q, m', hq, hstore, _, h₂⟩ := extendFrames_one hp.encodes hc₁
    (serialize_helium tiny.defaultFormat) ""
  have hkey : fkBytes q = (FrameKey.mk 0 0).toBytes.val := by rw [fkBytes, hq.fk]
  have hlast := last_put_stands (c := restamp (qs.foldl putIndexPuts c) 0 m) [] q
  rw [hkey, hq.hash] at hlast
  refine ⟨restamp (qs.foldl putIndexPuts c) 0 m,
    restamp (putIndexPuts (restamp (qs.foldl putIndexPuts c) 0 m) q) 0 m', by rw [h₁], by rw [h₂],
    ?_, hlast.1, ?_, ?_⟩
  · rw [textAt_restamp]
    exact put_text tiny_lossless hq hstore
  · exact fun h b hb => post_kept (posts_kept qs hb) _ _
  · exact puts_framesSoa c qs

end Tiny

end ReadconDb
