import ReadconDb.Readback

namespace ReadconDb

open ByteString Outcome OrderedTable TwoPhase

theorem mem_putRow (idx : Index → Table Unit) (row : Index × Bytes) (i : Index) (b : Bytes) :
    b ∈ putRow idx row i ↔ b ∈ idx i ∨ row = (i, b) := by
  obtain ⟨j, k⟩ := row
  by_cases hi : i = j
  · subst hi
    rw [putRow, Function.update_self, mem_insert_iff]
    simp [or_comm]
  · rw [putRow, Function.update_of_ne hi]
    simp [Ne.symm hi]

theorem mem_deleteRow (idx : Index → Table Unit) (row : Index × Bytes) (i : Index) (b : Bytes) :
    b ∈ deleteRow idx row i ↔ b ∈ idx i ∧ row ≠ (i, b) := by
  obtain ⟨j, k⟩ := row
  by_cases hi : i = j
  · subst hi
    rw [deleteRow, Function.update_self, mem_erase_iff]
    simp [and_comm]
  · rw [deleteRow, Function.update_of_ne hi]
    simp [Ne.symm hi]

theorem mem_putRows (rows : List (Index × Bytes)) (idx : Index → Table Unit) (i : Index) (b : Bytes) :
    b ∈ rows.foldl putRow idx i ↔ b ∈ idx i ∨ (i, b) ∈ rows := by
  induction rows generalizing idx with
  | nil => simp
  | cons row rows ih =>
    rw [List.foldl_cons, ih, mem_putRow, List.mem_cons, or_assoc, eq_comm]

theorem mem_deleteRows (rows : List (Index × Bytes)) (idx : Index → Table Unit) (i : Index)
    (b : Bytes) : b ∈ rows.foldl deleteRow idx i ↔ b ∈ idx i ∧ (i, b) ∉ rows := by
  induction rows generalizing idx with
  | nil => simp
  | cons row rows ih =>
    rw [List.foldl_cons, ih, mem_deleteRow, List.mem_cons, not_or, and_assoc, ne_eq, eq_comm]

section Puts

variable {F : Type} (c : ConCorpus F) (ps : List PreparedIndexPuts)

def fkBytes (p : PreparedIndexPuts) : Bytes := p.fk.toBytes.val

theorem puts_fold {V : Type} (f : ConCorpus F → V) (g : V → PreparedIndexPuts → V)
    (hf : ∀ c p, f (putIndexPuts c p) = g (f c) p) : f (ps.foldl putIndexPuts c) = ps.foldl g (f c) :=
  (List.foldl_hom f fun c p => (hf c p).symm).symm

theorem puts_kept {V : Type} (f : ConCorpus F → V) (hf : ∀ c p, f (putIndexPuts c p) = f c) :
    f (ps.foldl putIndexPuts c) = f c := by
  rw [puts_fold c ps f (fun v _ => v) hf]
  exact List.foldl_fixed ps

@[simp] theorem puts_compress : (ps.foldl putIndexPuts c).compressFrames = c.compressFrames :=
  puts_kept c ps ConCorpus.compressFrames fun _ _ => rfl

@[simp] theorem puts_trajMeta : (ps.foldl putIndexPuts c).trajMeta = c.trajMeta :=
  puts_kept c ps ConCorpus.trajMeta fun _ _ => rfl

@[simp] theorem puts_framesSoa : (ps.foldl putIndexPuts c).framesSoa = c.framesSoa :=
  puts_kept c ps ConCorpus.framesSoa fun _ _ => rfl

@[simp] theorem puts_idxTopo : (ps.foldl putIndexPuts c).idxTopo = c.idxTopo :=
  puts_kept c ps ConCorpus.idxTopo fun _ _ => rfl

@[simp] theorem puts_topoByFrame : (ps.foldl putIndexPuts c).topoByFrame = c.topoByFrame :=
  puts_kept c ps ConCorpus.topoByFrame fun _ _ => rfl

theorem puts_frames : (ps.foldl putIndexPuts c).frames =
    putAll fkBytes PreparedIndexPuts.stored c.frames ps :=
  puts_fold c ps ConCorpus.frames _ fun _ _ => rfl

theorem puts_hashByFrame : (ps.foldl putIndexPuts c).hashByFrame =
    putAll fkBytes (fun p => p.hash.val) c.hashByFrame ps :=
  puts_fold c ps ConCorpus.hashByFrame _ fun _ _ => rfl

theorem puts_frameByHash : (ps.foldl putIndexPuts c).frameByHash =
    ps.foldl (fun t p => postHash t p.hash.val (fkBytes p)) c.frameByHash :=
  puts_fold c ps ConCorpus.frameByHash _ fun _ _ => rfl

theorem mem_puts_idx (i : Index) (b : Bytes) :
    b ∈ (ps.foldl putIndexPuts c).idx i ↔ b ∈ c.idx i ∨ ∃ p ∈ ps, (i, b) ∈ p.rows := by
  induction ps generalizing c with
  | nil => simp
  | cons p ps ih =>
    rw [List.foldl_cons, ih]
    simp only [putIndexPuts, mem_putRows, List.mem_cons, exists_eq_or_imp]
    tauto

theorem deleteAllIndexPuts_cons (p : PreparedIndexPuts) :
    (deleteAllIndexPuts c (p :: ps)).2 = (deleteAllIndexPuts (deleteIndexPuts c p) ps).2 := rfl

theorem deletes_eq : (deleteAllIndexPuts c ps).2 = ps.foldl deleteIndexPuts c := by
  induction ps generalizing c with
  | nil => rfl
  | cons p ps ih => rw [deleteAllIndexPuts_cons, ih, List.foldl_cons]

theorem deletes_fold {V : Type} (f : ConCorpus F → V) (g : V → PreparedIndexPuts → V)
    (hf : ∀ c p, f (deleteIndexPuts c p) = g (f c) p) : f (deleteAllIndexPuts c ps).2 = ps.foldl g (f c) := by
  rw [deletes_eq]
  exact (List.foldl_hom f fun c p => (hf c p).symm).symm

theorem deletes_kept {V : Type} (f : ConCorpus F → V) (hf : ∀ c p, f (deleteIndexPuts c p) = f c) :
    f (deleteAllIndexPuts c ps).2 = f c := by
  rw [deletes_fold c ps f (fun v _ => v) hf]
  exact List.foldl_fixed ps

@[simp] theorem deletes_compress : (deleteAllIndexPuts c ps).2.compressFrames = c.compressFrames :=
  deletes_kept c ps ConCorpus.compressFrames fun _ _ => rfl

@[simp] theorem deletes_trajMeta : (deleteAllIndexPuts c ps).2.trajMeta = c.trajMeta :=
  deletes_kept c ps ConCorpus.trajMeta fun _ _ => rfl

@[simp] theorem deletes_idxTopo : (deleteAllIndexPuts c ps).2.idxTopo = c.idxTopo :=
  deletes_kept c ps ConCorpus.idxTopo fun _ _ => rfl

@[simp] theorem deletes_topoByFrame : (deleteAllIndexPuts c ps).2.topoByFrame = c.topoByFrame :=
  deletes_kept c ps ConCorpus.topoByFrame fun _ _ => rfl

@[simp] theorem deletes_frameByHash : (deleteAllIndexPuts c ps).2.frameByHash = c.frameByHash :=
  deletes_kept c ps ConCorpus.frameByHash fun _ _ => rfl

theorem deletes_frames : (deleteAllIndexPuts c ps).2.frames = dropAll fkBytes c.frames ps :=
  deletes_fold c ps ConCorpus.frames _ fun _ _ => rfl

theorem deletes_hashByFrame :
    (deleteAllIndexPuts c ps).2.hashByFrame = dropAll fkBytes c.hashByFrame ps :=
  deletes_fold c ps ConCorpus.hashByFrame _ fun _ _ => rfl

theorem deletes_framesSoa :
    (deleteAllIndexPuts c ps).2.framesSoa = dropAll fkBytes c.framesSoa ps :=
  deletes_fold c ps ConCorpus.framesSoa _ fun _ _ => rfl

theorem mem_deletes_idx (i : Index) (b : Bytes) :
    b ∈ (deleteAllIndexPuts c ps).2.idx i ↔ b ∈ c.idx i ∧ ∀ p ∈ ps, (i, b) ∉ p.rows := by
  induction ps generalizing c with
  | nil => simp [deleteAllIndexPuts]
  | cons p ps ih =>
    rw [deleteAllIndexPuts_cons, ih]
    simp only [deleteIndexPuts, mem_deleteRows, List.mem_cons, forall_eq_or_imp, and_assoc]

theorem mem_stale {h : ContentHash} :
    h ∈ (deleteAllIndexPuts c ps).1 ↔ ∃ p ∈ ps, p.hash = h ∧ posted c p = true := by
  induction ps generalizing c with
  | nil => simp [deleteAllIndexPuts]
  | cons p ps ih =>
    have hs := ih (c := deleteIndexPuts c p)
    have hp (q : PreparedIndexPuts) : posted (deleteIndexPuts c p) q = posted c q := rfl
    simp only [hp] at hs
    rw [deleteAllIndexPuts]
    simp only [List.mem_cons, exists_eq_or_imp]
    split
    · next hpos =>
      have hc : h = p.hash ↔ p.hash = h := eq_comm
      rw [List.mem_cons, hs, hc]
      simp [hpos]
    · next hpos => simp [hs, hpos]

end Puts

section Views

variable {F : Type} {d : Crates F} {c : ConCorpus F} {ps : List PreparedIndexPuts} {t : UInt64}

structure Readable (d : Crates F) (c : ConCorpus F) : Prop where
  decodes : ∀ b ∈ c.frames, ∃ k s, b = k.toBytes.val ∧ textAt d c k = some s

theorem Readable.text_of_row (hr : Readable d c) {k : FrameKey} {row : Bytes}
    (h : rowOf c k = some row) : ∃ s, textAt d c k = some s := by
  have hm : k.toBytes.val ∈ c.frames := (mem_iff_get _ _).mpr ⟨row, h⟩
  obtain ⟨j, s, hj, hs⟩ := hr.decodes _ hm
  rw [FrameKey.toBytes_inj.mp hj]
  exact ⟨s, hs⟩

theorem rowOf_isSome_iff (hr : Readable d c) {k : FrameKey} :
    k.toBytes.val ∈ c.frames ↔ ∃ s, textAt d c k = some s := by
  constructor
  · intro hm
    obtain ⟨row, hrow⟩ := (mem_iff_get _ _).mp hm
    exact hr.text_of_row hrow
  · rintro ⟨s, hs⟩
    exact (mem_iff_get _ _).mpr (rowOf_of_textAt hs)

theorem fkBytes_ne {p : PreparedIndexPuts} {k : FrameKey} (h : p.fk ≠ k) : fkBytes p ≠ k.toBytes.val :=
  fun he => h (FrameKey.toBytes_inj.mp he)

theorem keyBytes_nodup {A : Type} {f : A → FrameKey} {xs : List A} (h : (xs.map f).Nodup) :
    (xs.map fun x => (f x).toBytes.val).Nodup := by
  rw [List.Nodup, List.pairwise_map] at h ⊢
  exact h.imp fun hne he => hne (FrameKey.toBytes_inj.mp he)

theorem fkBytes_nodup {ps : List PreparedIndexPuts} (h : (ps.map PreparedIndexPuts.fk).Nodup) :
    (ps.map fkBytes).Nodup := keyBytes_nodup h

theorem rowOf_puts_of_not_mem {k : FrameKey} (h : ∀ p ∈ ps, p.fk ≠ k) :
    rowOf (ps.foldl putIndexPuts c) k = rowOf c k := by
  rw [rowOf, puts_frames, get_putAll_of_not_mem _ _ _ _ fun p hp => fkBytes_ne (h p hp)]
  rfl

theorem rowOf_puts_of_mem (hn : (ps.map PreparedIndexPuts.fk).Nodup) {p : PreparedIndexPuts}
    (hp : p ∈ ps) : rowOf (ps.foldl putIndexPuts c) p.fk = some p.stored := by
  rw [rowOf, puts_frames]
  exact get_putAll_of_mem fkBytes PreparedIndexPuts.stored c.frames (fkBytes_nodup hn) hp

-- Deleting a whole trajectory: no group of another trajectory loses its head.
theorem textAt_deletes (hall : ∀ p ∈ ps, p.fk.trajId = t)
    (hcov : ∀ k row, k.trajId = t → rowOf c k = some row → ∃ p ∈ ps, p.fk = k) (k : FrameKey) :
    textAt d (deleteAllIndexPuts c ps).2 k = if k.trajId = t then none else textAt d c k := by
  have hdrop (j : FrameKey) (hj : j.trajId = t) : rowOf (deleteAllIndexPuts c ps).2 j = none := by
    rw [rowOf, deletes_frames]
    cases hrow : rowOf c j with
    | none =>
      rw [Option.eq_none_iff_forall_ne_some]
      intro b hb
      have hm := (mem_iff_get _ _).mpr ⟨b, hb⟩
      rw [mem_dropAll, mem_iff_get] at hm
      obtain ⟨⟨b', hb'⟩, _⟩ := hm
      rw [rowOf, hb'] at hrow
      cases hrow
    | some row =>
      obtain ⟨p, hp, rfl⟩ := hcov j row hj hrow
      exact get_dropAll_of_mem fkBytes c.frames hp
  split
  · next hk =>
    rw [Option.eq_none_iff_forall_ne_some]
    intro s hs
    obtain ⟨b, hb⟩ := rowOf_of_textAt hs
    rw [hdrop k hk] at hb
    cases hb
  · next hk =>
    refine textAt_congr fun i => ?_
    rw [rowOf, deletes_frames, get_dropAll_of_not_mem]
    · rfl
    · intro p hp
      refine fkBytes_ne fun he => hk ?_
      rw [← hall p hp, he]

theorem readable_deletes (hc : Readable d c) (hall : ∀ p ∈ ps, p.fk.trajId = t)
    (hcov : ∀ k row, k.trajId = t → rowOf c k = some row → ∃ p ∈ ps, p.fk = k) :
    Readable d (deleteAllIndexPuts c ps).2 where
  decodes b hb := by
    rw [deletes_frames, mem_dropAll] at hb
    obtain ⟨hb, hne⟩ := hb
    obtain ⟨k, s, rfl, hs⟩ := hc.decodes b hb
    refine ⟨k, s, rfl, ?_⟩
    rw [textAt_deletes hall hcov, if_neg, hs]
    intro hk
    obtain ⟨row, hrow⟩ := rowOf_of_textAt hs
    obtain ⟨p, hp, rfl⟩ := hcov k row hk hrow
    exact hne p hp rfl

variable [Float64 F] {rs : List (FrameRow F)}

theorem fk_not_mem {ps : List PreparedIndexPuts} {rs : List (FrameRow F)} (hp : Prepared d rs ps)
    {k : FrameKey} (h : k ∉ rs.map Prod.fst) : ∀ p ∈ ps, p.fk ≠ k := by
  rintro p hm rfl
  rw [← hp.fks] at h
  exact h (List.mem_map_of_mem hm)

theorem textAt_puts_new (hp : Prepared d rs ps) (ht : ∀ r ∈ rs, r.1.trajId = t)
    (hn : (rs.map Prod.fst).Nodup) {r : FrameRow F} (hr : r ∈ rs) :
    textAt d (ps.foldl putIndexPuts c) r.1 = some r.2.2 := by
  have hnp : (ps.map PreparedIndexPuts.fk).Nodup := hp.fks ▸ hn
  have htraj : ∀ k ∈ rs.map rowText, k.1.trajId = t := by
    intro k hk
    obtain ⟨r, hr, rfl⟩ := List.mem_map.mp hk
    exact ht r hr
  have hrows : List.Forall₂ (fun k row => rowOf (ps.foldl putIndexPuts c) k.1 = some row)
      (rs.map rowText) (ps.map PreparedIndexPuts.stored) := by
    rw [List.forall₂_map_left_iff, List.forall₂_map_right_iff]
    have hmem := List.forall₂_iff_get.mp hp.derived
    refine List.forall₂_iff_get.mpr ⟨hmem.1, fun i h₁ h₂ => ?_⟩
    have hfk := (hmem.2 i h₁ h₂).fk
    rw [rowText, ← hfk]
    exact rowOf_puts_of_mem hnp (List.get_mem ps ⟨i, h₂⟩)
  have hin : rowText r ∈ rs.map rowText := List.mem_map_of_mem hr
  have htext := textAt_rows htraj hp.decodes hrows hin
  exact htext

theorem textAt_puts (hc : Readable d c) (hp : Prepared d rs ps) (ht : ∀ r ∈ rs, r.1.trajId = t)
    (hn : (rs.map Prod.fst).Nodup) (hf : ∀ r ∈ rs, rowOf c r.1 = none) {k : FrameKey} {s : String} :
    textAt d (ps.foldl putIndexPuts c) k = some s ↔
      textAt d c k = some s ∨ ∃ r ∈ rs, rowText r = (k, s) := by
  by_cases hm : k ∈ rs.map Prod.fst
  · obtain ⟨r, hr, rfl⟩ := List.mem_map.mp hm
    have hnone : textAt d c r.1 ≠ some s := fun h => by
      obtain ⟨b, hb⟩ := rowOf_of_textAt h
      rw [hf r hr] at hb
      cases hb
    rw [textAt_puts_new hp ht hn hr]
    constructor
    · intro h
      exact .inr ⟨r, hr, by rw [rowText, Option.some.inj h]⟩
    · rintro (h | ⟨r', hr', he⟩)
      · exact absurd h hnone
      · rw [rowText, Prod.mk.injEq] at he
        have hrr := List.inj_on_of_nodup_map hn hr' hr he.1
        rw [← hrr, he.2]
  · have hnot : ¬ ∃ r ∈ rs, rowText r = (k, s) := by
      rintro ⟨r, hr, he⟩
      rw [rowText, Prod.mk.injEq] at he
      exact hm (he.1 ▸ List.mem_map_of_mem hr)
    have hold (i : UInt32) (b : Bytes) (hb : rowOf c ⟨k.trajId, i⟩ = some b) :
        rowOf (ps.foldl putIndexPuts c) ⟨k.trajId, i⟩ = some b := by
      rw [rowOf_puts_of_not_mem (fk_not_mem hp fun hmem => ?_), hb]
      obtain ⟨r, hr, he⟩ := List.mem_map.mp hmem
      rw [← he, hf r hr] at hb
      cases hb
    constructor
    · intro h
      obtain ⟨b, hb⟩ := rowOf_of_textAt h
      rw [rowOf_puts_of_not_mem (fk_not_mem hp hm)] at hb
      obtain ⟨s', hs'⟩ := hc.text_of_row hb
      rw [textAt_mono hold hs', Option.some.injEq] at h
      exact .inl (h ▸ hs')
    · rintro (h | h)
      · exact textAt_mono hold h
      · exact absurd h hnot

theorem readable_puts (hc : Readable d c) (hp : Prepared d rs ps) (ht : ∀ r ∈ rs, r.1.trajId = t)
    (hn : (rs.map Prod.fst).Nodup) (hf : ∀ r ∈ rs, rowOf c r.1 = none) :
    Readable d (ps.foldl putIndexPuts c) where
  decodes b hb := by
    rw [puts_frames, mem_putAll] at hb
    rcases hb with hb | ⟨p, hpm, rfl⟩
    · obtain ⟨k, s, rfl, hs⟩ := hc.decodes b hb
      exact ⟨k, s, rfl, (textAt_puts hc hp ht hn hf).mpr (.inl hs)⟩
    · have hm : p.fk ∈ rs.map Prod.fst := hp.fks ▸ List.mem_map_of_mem hpm
      obtain ⟨r, hr, he⟩ := List.mem_map.mp hm
      refine ⟨p.fk, r.2.2, rfl, (textAt_puts hc hp ht hn hf).mpr (.inr ⟨r, hr, ?_⟩)⟩
      rw [rowText, he]

end Views

end ReadconDb
