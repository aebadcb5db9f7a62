import ReadconDb.Effects
import ReadconDb.Layout
import ReadconDb.Library.ReverseIndex

set_option linter.unusedSectionVars false

namespace ReadconDb

open ByteString Outcome OrderedTable TwoPhase ReverseIndex

section Rows

variable {F : Type} [Float64 F] {d : Crates F}

def parsed (d : Crates F) (text : String) : Option (ConFrame F) :=
  match (d.conFrames text).head? with
  | some (.ok item) => some item.1
  | _ => none

theorem firstFrame_eq_ok {missing text : String} {f : ConFrame F} :
    firstFrame d missing text = .ok f ↔ parsed d text = some f := by
  rw [firstFrame, parsed]
  cases (d.conFrames text).head? with
  | none => simp
  | some item => cases item <;> simp

def frameRows (d : Crates F) (k : FrameKey) (f : ConFrame F) : List (Index × Bytes) :=
  (screeningKeys k (d.fromFrame f)).rows

theorem mem_rows (p : ScreeningKeys) (i : Index) (b : Bytes) : (i, b) ∈ p.rows ↔ b ∈ p.keys i := by
  have hi : i ∈ ScreeningKeys.putOrder := by cases i <;> decide
  rw [ScreeningKeys.rows, List.mem_flatMap]
  constructor
  · rintro ⟨j, _, hj⟩
    obtain ⟨a, ha, he⟩ := List.mem_map.mp hj
    rw [Prod.mk.injEq] at he
    exact he.1 ▸ he.2 ▸ ha
  · exact fun hb => ⟨i, hi, List.mem_map_of_mem hb⟩

theorem frameRows_suffix {k : FrameKey} {f : ConFrame F} {i : Index} {b : Bytes}
    (h : (i, b) ∈ frameRows d k f) : k.toBytes.val <:+ b :=
  (screeningKeys_laid ((mem_rows _ _ _).mp h)).suffix

end Rows

section Coherence

variable {F : Type} [Float64 F] {d : Crates F} {c : ConCorpus F}

structure HashExact (d : Crates F) (c : ConCorpus F) : Prop where
  rows : ∀ b h, c.hashByFrame[b]? = some h ↔
    ∃ k s, b = k.toBytes.val ∧ textAt d c k = some s ∧ h = (hashFrameBytes d (utf8 s)).val
  linked : Linked c.hashByFrame c.frameByHash

def IndexExact (d : Crates F) (c : ConCorpus F) : Prop :=
  ∀ i b, b ∈ c.idx i ↔
    ∃ k s f, textAt d c k = some s ∧ parsed d s = some f ∧ (i, b) ∈ frameRows d k f

def CookedExact (d : Crates F) (c : ConCorpus F) : Prop :=
  ∀ (k : FrameKey) b, c.framesSoa[k.toBytes.val]? = some b →
    ∃ s f, textAt d c k = some s ∧ parsed d s = some f ∧ CookedSoa.encodeFrame f = .ok b

-- The frame that parses from a text is indexed as the frame the text was made for.
def ReadsAs (d : Crates F) (x : ConFrame F × String) : Prop :=
  ∃ g, parsed d x.2 = some g ∧ ∀ k i b, (i, b) ∈ frameRows d k g ↔ (i, b) ∈ frameRows d k x.1

theorem ReadsAs.of_parsed {x : ConFrame F × String} (h : parsed d x.2 = some x.1) : ReadsAs d x :=
  ⟨x.1, h, fun _ _ _ => Iff.rfl⟩

def Parses (d : Crates F) (rs : List (FrameRow F)) : Prop := ∀ r ∈ rs, parsed d r.2.2 = some r.2.1

variable {rs : List (FrameRow F)} {ps : List PreparedIndexPuts} {t : UInt64}

theorem derived_mem {r : FrameRow F} (h : List.Forall₂ (PutFor d) rs ps) (hr : r ∈ rs) :
    ∃ p ∈ ps, PutFor d r p := by
  induction h with
  | nil => cases hr
  | cons hp _ ih =>
    rcases List.mem_cons.mp hr with rfl | hr
    · exact ⟨_, by simp, hp⟩
    · obtain ⟨p, hm, hp⟩ := ih hr
      exact ⟨p, by simp [hm], hp⟩

theorem derived_mem_right {p : PreparedIndexPuts} (h : List.Forall₂ (PutFor d) rs ps) (hp : p ∈ ps) :
    ∃ r ∈ rs, PutFor d r p := by
  induction h with
  | nil => cases hp
  | cons hr _ ih =>
    rcases List.mem_cons.mp hp with rfl | hp
    · exact ⟨_, by simp, hr⟩
    · obtain ⟨r, hm, hr⟩ := ih hp
      exact ⟨r, by simp [hm], hr⟩

theorem derived_fks (h : List.Forall₂ (PutFor d) rs ps) :
    ps.map PreparedIndexPuts.fk = rs.map Prod.fst := by
  rw [← List.forall₂_eq_eq_eq, List.forall₂_map_left_iff, List.forall₂_map_right_iff]
  exact List.Forall₂.flip (h.imp fun _ _ hp => hp.fk)

theorem PutFor.rows_eq {r : FrameRow F} {p : PreparedIndexPuts} (h : PutFor d r p) :
    p.rows = frameRows d r.1 r.2.1 := by
  rw [frameRows, ← h.keys]

theorem linked_posts {fwd post : Table Bytes} (hl : Linked fwd post)
    {kvs : List (FrameKey × ContentHash)} (hn : (kvs.map Prod.fst).Nodup)
    (hf : ∀ kv ∈ kvs, fwd[kv.1.toBytes.val]? = none) :
    Linked (putAll (fun kv => kv.1.toBytes.val) (fun kv => kv.2.val) fwd kvs)
      (kvs.foldl (fun t kv => postHash t kv.2.val kv.1.toBytes.val) post) := by
  induction kvs generalizing fwd post with
  | nil => exact hl
  | cons kv kvs ih =>
    rw [List.map_cons, List.nodup_cons] at hn
    rw [List.foldl_cons, putAll_cons]
    refine ih ?_ hn.2 fun j hj => ?_
    · have hk := hf kv (by simp)
      rw [postHash]
      split
      · exact hl.put_new hk
      · next b hb => exact hl.put_posted hk ((mem_iff_get _ _).mpr ⟨b, hb⟩)
    · rw [get_insert, if_neg]
      · exact hf j (by simp [hj])
      · intro he
        exact hn.1 (FrameKey.toBytes_inj.mp he ▸ List.mem_map_of_mem hj)

def posting (p : PreparedIndexPuts) : FrameKey × ContentHash := (p.fk, p.hash)

theorem linked_puts {ps : List PreparedIndexPuts} {c : ConCorpus F}
    (hl : Linked c.hashByFrame c.frameByHash) (hn : (ps.map PreparedIndexPuts.fk).Nodup)
    (hf : ∀ p ∈ ps, c.hashByFrame[fkBytes p]? = none) :
    Linked (ps.foldl putIndexPuts c).hashByFrame (ps.foldl putIndexPuts c).frameByHash := by
  have hm : (ps.map posting).map Prod.fst = ps.map PreparedIndexPuts.fk := by
    rw [List.map_map]
    rfl
  have hp := linked_posts hl (hm ▸ hn) (by
    intro kv hkv
    obtain ⟨p, hp, rfl⟩ := List.mem_map.mp hkv
    exact hf p hp)
  rw [putAll, List.foldl_map, List.foldl_map] at hp
  rw [puts_hashByFrame, puts_frameByHash]
  exact hp

theorem HashExact.fresh (hh : HashExact d c) {k : FrameKey} (hk : rowOf c k = none) :
    c.hashByFrame[k.toBytes.val]? = none := by
  rw [Option.eq_none_iff_forall_ne_some]
  intro h hs
  obtain ⟨j, s, hj, htext, _⟩ := (hh.rows _ _).mp hs
  obtain ⟨b, hb⟩ := rowOf_of_textAt htext
  rw [← FrameKey.toBytes_inj.mp hj, hk] at hb
  cases hb

theorem HashExact.puts (hc : Readable d c) (hh : HashExact d c) (hp : Prepared d rs ps)
    (ht : ∀ r ∈ rs, r.1.trajId = t) (hn : (rs.map Prod.fst).Nodup)
    (hf : ∀ r ∈ rs, rowOf c r.1 = none) : HashExact d (ps.foldl putIndexPuts c) where
  rows b h := by
    have hnp : (ps.map PreparedIndexPuts.fk).Nodup := hp.fks ▸ hn
    rw [puts_hashByFrame, get_putAll_eq_some _ _ _ (fkBytes_nodup hnp), hh.rows]
    simp only [textAt_puts hc hp ht hn hf]
    constructor
    · rintro (⟨p, hpm, rfl, rfl⟩ | ⟨_, k, s, rfl, hs, rfl⟩)
      · obtain ⟨r, hr, hpr⟩ := derived_mem_right hp.derived hpm
        refine ⟨r.1, r.2.2, by rw [fkBytes, hpr.fk], .inr ⟨r, hr, rfl⟩, by rw [hpr.hash]⟩
      · exact ⟨k, s, rfl, .inl hs, rfl⟩
    · rintro ⟨k, s, rfl, hs | ⟨r, hr, he⟩, rfl⟩
      · refine .inr ⟨fun p hpm => fkBytes_ne fun he => ?_, k, s, rfl, hs, rfl⟩
        obtain ⟨r, hr, hpr⟩ := derived_mem_right hp.derived hpm
        obtain ⟨row, hrow⟩ := rowOf_of_textAt hs
        rw [← he, hpr.fk, hf r hr] at hrow
        cases hrow
      · obtain ⟨p, hpm, hpr⟩ := derived_mem hp.derived hr
        rw [rowText, Prod.mk.injEq] at he
        exact .inl ⟨p, hpm, by rw [fkBytes, hpr.fk, he.1], by rw [hpr.hash, he.2]⟩
  linked := by
    refine linked_puts hh.linked (hp.fks ▸ hn) fun p hpm => ?_
    obtain ⟨r, hr, hpr⟩ := derived_mem_right hp.derived hpm
    exact hh.fresh (by rw [hpr.fk]; exact hf r hr)

theorem IndexExact.puts (hc : Readable d c) (hi : IndexExact d c) (hp : Prepared d rs ps)
    (hpar : ∀ r ∈ rs, ReadsAs d r.2) (ht : ∀ r ∈ rs, r.1.trajId = t) (hn : (rs.map Prod.fst).Nodup)
    (hf : ∀ r ∈ rs, rowOf c r.1 = none) : IndexExact d (ps.foldl putIndexPuts c) := by
  intro i b
  rw [mem_puts_idx, hi i b]
  simp only [textAt_puts hc hp ht hn hf]
  constructor
  · rintro (⟨k, s, f, hs, hfr, hb⟩ | ⟨p, hpm, hb⟩)
    · exact ⟨k, s, f, .inl hs, hfr, hb⟩
    · obtain ⟨r, hr, hpr⟩ := derived_mem_right hp.derived hpm
      obtain ⟨g, hg, hrows⟩ := hpar r hr
      exact ⟨r.1, r.2.2, g, .inr ⟨r, hr, rfl⟩, hg, (hrows _ _ _).mpr (hpr.rows_eq ▸ hb)⟩
  · rintro ⟨k, s, f, hs | ⟨r, hr, he⟩, hfr, hb⟩
    · exact .inl ⟨k, s, f, hs, hfr, hb⟩
    · obtain ⟨p, hpm, hpr⟩ := derived_mem hp.derived hr
      rw [rowText, Prod.mk.injEq] at he
      obtain ⟨g, hg, hrows⟩ := hpar r hr
      rw [he.2, hfr, Option.some.injEq] at hg
      refine .inr ⟨p, hpm, ?_⟩
      rw [hpr.rows_eq]
      exact (hrows _ _ _).mp (he.1 ▸ hg ▸ hb)

theorem CookedExact.puts (hc : Readable d c) (hk : CookedExact d c) (hp : Prepared d rs ps)
    (ht : ∀ r ∈ rs, r.1.trajId = t) (hn : (rs.map Prod.fst).Nodup)
    (hf : ∀ r ∈ rs, rowOf c r.1 = none) : CookedExact d (ps.foldl putIndexPuts c) := by
  intro k b hb
  rw [puts_framesSoa] at hb
  obtain ⟨s, f, hs, hrest⟩ := hk k b hb
  exact ⟨s, f, (textAt_puts hc hp ht hn hf).mpr (.inl hs), hrest⟩

structure Covers (d : Crates F) (c : ConCorpus F) (t : UInt64) (rs : List (FrameRow F)) : Prop where
  traj : ∀ r ∈ rs, r.1.trajId = t
  text : ∀ r ∈ rs, textAt d c r.1 = some r.2.2
  all : ∀ k row, k.trajId = t → rowOf c k = some row → ∃ r ∈ rs, r.1 = k

theorem Covers.puts_traj (hv : Covers d c t rs) (hd : List.Forall₂ (PutFor d) rs ps) :
    ∀ p ∈ ps, p.fk.trajId = t := by
  intro p hp
  obtain ⟨r, hr, hpr⟩ := derived_mem_right hd hp
  rw [hpr.fk]
  exact hv.traj r hr

theorem Covers.puts_all (hv : Covers d c t rs) (hd : List.Forall₂ (PutFor d) rs ps) :
    ∀ k row, k.trajId = t → rowOf c k = some row → ∃ p ∈ ps, p.fk = k := by
  intro k row hk hrow
  obtain ⟨r, hr, rfl⟩ := hv.all k row hk hrow
  obtain ⟨p, hp, hpr⟩ := derived_mem hd hr
  exact ⟨p, hp, hpr.fk⟩

theorem textAt_cleared (hv : Covers d c t rs) (hd : List.Forall₂ (PutFor d) rs ps) (k : FrameKey)
    {s : String} : textAt d (deleteAllIndexPuts c ps).2 k = some s ↔
      k.trajId ≠ t ∧ textAt d c k = some s := by
  rw [textAt_deletes (hv.puts_traj hd) (hv.puts_all hd)]
  split
  · next hk => simp [hk]
  · next hk => simp [hk]

theorem Covers.parsed_rows (hv : Covers d c t rs) (hpar : Parses d rs) {k : FrameKey} {s : String}
    {f : ConFrame F} (hk : k.trajId = t) (hs : textAt d c k = some s) (hf : parsed d s = some f) :
    (k, f, s) ∈ rs := by
  obtain ⟨row, hrow⟩ := rowOf_of_textAt hs
  obtain ⟨⟨j, g, u⟩, hr, rfl⟩ := hv.all k row hk hrow
  have htext := hv.text _ hr
  rw [hs, Option.some.injEq] at htext
  have hpars := hpar _ hr
  simp only at htext hpars
  rw [← htext, hf, Option.some.injEq] at hpars
  rw [hpars, htext]
  exact hr

theorem IndexExact.deletes (hi : IndexExact d c) (hv : Covers d c t rs) (hpar : Parses d rs)
    (hd : List.Forall₂ (PutFor d) rs ps) : IndexExact d (deleteAllIndexPuts c ps).2 := by
  intro i b
  rw [mem_deletes_idx, hi i b]
  simp only [textAt_cleared hv hd]
  constructor
  · rintro ⟨⟨k, s, f, hs, hf, hb⟩, hno⟩
    refine ⟨k, s, f, ⟨fun hk => ?_, hs⟩, hf, hb⟩
    obtain ⟨p, hp, hpr⟩ := derived_mem hd (hv.parsed_rows hpar hk hs hf)
    exact hno p hp (hpr.rows_eq ▸ hb)
  · rintro ⟨k, s, f, ⟨hk, hs⟩, hf, hb⟩
    refine ⟨⟨k, s, f, hs, hf, hb⟩, fun p hp hbp => hk ?_⟩
    obtain ⟨r, hr, hpr⟩ := derived_mem_right hd hp
    rw [hpr.rows_eq] at hbp
    rw [← suffix_key_inj (frameRows_suffix hbp) (frameRows_suffix hb)]
    exact hv.traj r hr

theorem CookedExact.deletes (hk : CookedExact d c) (hv : Covers d c t rs)
    (hd : List.Forall₂ (PutFor d) rs ps) : CookedExact d (deleteAllIndexPuts c ps).2 := by
  intro k b hb
  rw [deletes_framesSoa, get_dropAll_eq_some] at hb
  obtain ⟨s, f, hs, hrest⟩ := hk k b hb.2
  refine ⟨s, f, (textAt_cleared hv hd k).mpr ⟨fun ht => ?_, hs⟩, hrest⟩
  obtain ⟨row, hrow⟩ := rowOf_of_textAt hs
  obtain ⟨p, hp, rfl⟩ := hv.puts_all hd k row ht hrow
  exact hb.1 p hp rfl

theorem HashExact.cleared_rows (hh : HashExact d c) (hv : Covers d c t rs)
    (hd : List.Forall₂ (PutFor d) rs ps) (b h : Bytes) :
    (deleteAllIndexPuts c ps).2.hashByFrame[b]? = some h ↔
      ∃ k s, b = k.toBytes.val ∧ textAt d (deleteAllIndexPuts c ps).2 k = some s ∧
        h = (hashFrameBytes d (utf8 s)).val := by
  rw [deletes_hashByFrame, get_dropAll_eq_some, hh.rows]
  simp only [textAt_cleared hv hd]
  constructor
  · rintro ⟨hno, k, s, rfl, hs, rfl⟩
    refine ⟨k, s, rfl, ⟨fun hk => ?_, hs⟩, rfl⟩
    obtain ⟨row, hrow⟩ := rowOf_of_textAt hs
    obtain ⟨p, hp, rfl⟩ := hv.puts_all hd k row hk hrow
    exact hno p hp rfl
  · rintro ⟨k, s, rfl, ⟨hk, hs⟩, rfl⟩
    refine ⟨fun p hp => fkBytes_ne fun he => hk ?_, k, s, rfl, hs, rfl⟩
    rw [← he]
    exact hv.puts_traj hd p hp

theorem survivor_some {t : Table Bytes} {digest : ContentHash} {k : FrameKey}
    (h : survivor t digest = some k) : t[k.toBytes.val]? = some digest.val := by
  obtain ⟨kv, hm, hkv⟩ := List.exists_of_findSome?_eq_some h
  split at hkv
  · next hd =>
    rw [FrameKey.toBytes_of_fromBytes hkv, ← hd]
    exact Std.ExtTreeMap.mem_toList_iff_getElem?_eq_some.mp hm
  · cases hkv

theorem survivor_none {t : Table Bytes} {digest : ContentHash} (h : survivor t digest = none)
    (k : FrameKey) : t[k.toBytes.val]? ≠ some digest.val := by
  intro hk
  have hm := Std.ExtTreeMap.mem_toList_iff_getElem?_eq_some.mpr hk
  have hno := List.findSome?_eq_none_iff.mp h _ hm
  rw [if_pos rfl, FrameKey.fromBytes_toBytes] at hno
  cases hno

-- Between the deletes and the repairs a posting may name a frame that is gone, and no more.
structure Repairable (fwd post : Table Bytes) : Prop where
  key : ∀ (b h : Bytes), fwd[b]? = some h → ∃ k : FrameKey, b = k.toBytes.val
  name : ∀ (h b : Bytes), post[h]? = some b → ∃ k : FrameKey, b = k.toBytes.val
  right : ∀ (h b h' : Bytes), post[h]? = some b → fwd[b]? = some h' → h' = h
  posted : ∀ (b h : Bytes), fwd[b]? = some h → h ∈ post

theorem Repairable.insert {fwd post : Table Bytes} (hr : Repairable fwd post) {k : FrameKey} {h : Bytes}
    (hk : fwd[k.toBytes.val]? = some h) : Repairable fwd (post.insert h k.toBytes.val) where
  key := hr.key
  name h' b hb := by
    rw [get_insert] at hb
    split at hb
    · exact ⟨k, (Option.some.inj hb).symm⟩
    · exact hr.name h' b hb
  right h' b h'' hb hf := by
    rw [get_insert] at hb
    split at hb
    · next he =>
      rw [← Option.some.inj hb, hk, Option.some.injEq] at hf
      rw [← hf, he]
    · exact hr.right h' b h'' hb hf
  posted b h' hb := (mem_insert_iff _ _ _ _).mpr (.inr (hr.posted b h' hb))

theorem Repairable.erase {fwd post : Table Bytes} (hr : Repairable fwd post) {h : Bytes}
    (hno : ∀ b : Bytes, fwd[b]? ≠ some h) : Repairable fwd (post.erase h) where
  key := hr.key
  name h' b hb := by
    rw [get_erase] at hb
    split at hb
    · cases hb
    · exact hr.name h' b hb
  right h' b h'' hb hf := by
    rw [get_erase] at hb
    split at hb
    · cases hb
    · exact hr.right h' b h'' hb hf
  posted b h' hb := by
    refine (mem_erase_iff _ _ _).mpr ⟨?_, hr.posted b h' hb⟩
    rintro rfl
    exact hno b hb

theorem survivor_none_all {fwd post : Table Bytes} (hr : Repairable fwd post) {digest : ContentHash}
    (h : survivor fwd digest = none) (b : Bytes) : fwd[b]? ≠ some digest.val := by
  intro hb
  obtain ⟨k, rfl⟩ := hr.key b _ hb
  exact survivor_none h k hb

theorem repairable_repoint {fwd post : Table Bytes} (hr : Repairable fwd post) (digest : ContentHash) :
    Repairable fwd (repointDigest fwd post digest) := by
  rw [repointDigest]
  split
  · exact hr
  · split
    · exact hr
    · split
      · next other hs => exact hr.insert (survivor_some hs)
      · next hs => exact hr.erase (survivor_none_all hr hs)

theorem linkedAt_repoint {fwd post : Table Bytes} (hr : Repairable fwd post) (digest : ContentHash) :
    LinkedAt fwd (repointDigest fwd post digest) digest.val := by
  rw [repointDigest]
  cases hp : post[digest.val]? with
  | none =>
    refine ⟨fun k hk => ?_, fun k hk => hr.posted k _ hk⟩
    simp [hp] at hk
  | some b =>
    obtain ⟨j, rfl⟩ := hr.name _ _ hp
    simp only [Option.bind_some, FrameKey.fromBytes_toBytes]
    split
    · next hsome =>
      obtain ⟨h', hh'⟩ := Option.isSome_iff_exists.mp hsome
      refine ⟨fun k hk => ?_, fun k hk => hr.posted k _ hk⟩
      rw [hp, Option.some.injEq] at hk
      rw [← hk, hh', hr.right _ _ h' hp hh']
    · split
      · next other hs => exact linkedAt_insert_self (survivor_some hs)
      · next hs => exact linkedAt_erase_self (survivor_none_all hr hs)

theorem linkedAt_repoint_other {fwd post : Table Bytes} (hr : Repairable fwd post)
    (digest : ContentHash) {v : Bytes} (h : LinkedAt fwd post v) :
    LinkedAt fwd (repointDigest fwd post digest) v := by
  by_cases hv : digest.val = v
  · exact hv ▸ linkedAt_repoint hr digest
  · rw [repointDigest]
    split
    · exact h
    · split
      · exact h
      · split
        · exact h.insert_other hv
        · exact h.erase_other hv

theorem HashExact.key (hh : HashExact d c) {b h : Bytes} (hb : c.hashByFrame[b]? = some h) :
    ∃ k : FrameKey, b = k.toBytes.val := by
  obtain ⟨k, _, hk, _⟩ := (hh.rows b h).mp hb
  exact ⟨k, hk⟩

theorem HashExact.repairable (hh : HashExact d c) :
    Repairable (deleteAllIndexPuts c ps).2.hashByFrame (deleteAllIndexPuts c ps).2.frameByHash := by
  have hsub (b h : Bytes) (hb : (deleteAllIndexPuts c ps).2.hashByFrame[b]? = some h) :
      c.hashByFrame[b]? = some h := by
    rw [deletes_hashByFrame, get_dropAll_eq_some] at hb
    exact hb.2
  rw [deletes_frameByHash]
  exact
    { key := fun b h hb => hh.key (hsub b h hb)
      name := fun h b hb => hh.key ((hh.linked h).names b hb)
      right := fun h b h' hb hf => by
        have hf := hsub b h' hf
        rw [(hh.linked h).names b hb, Option.some.injEq] at hf
        exact hf.symm
      posted := fun b h hb => (hh.linked h).posted b (hsub b h hb) }

theorem HashExact.deletes (hh : HashExact d c) (hv : Covers d c t rs)
    (hd : List.Forall₂ (PutFor d) rs ps) :
    HashExact d (repointFrameByHash (deleteAllIndexPuts c ps).2 (deleteAllIndexPuts c ps).1) where
  rows b h := by
    have htext (k : FrameKey) : textAt d
        (repointFrameByHash (deleteAllIndexPuts c ps).2 (deleteAllIndexPuts c ps).1) k =
          textAt d (deleteAllIndexPuts c ps).2 k := textAt_of_frames_eq rfl k
    simp only [htext]
    exact hh.cleared_rows hv hd b h
  linked := by
    refine repair_all
      (fun post digest (hr : Repairable (deleteAllIndexPuts c ps).2.hashByFrame post) =>
        repairable_repoint hr digest)
      (fun post digest hr => linkedAt_repoint hr digest)
      (fun post digest v hr hl => linkedAt_repoint_other hr digest hl) _ hh.repairable ?_
    intro v hv'
    rw [deletes_frameByHash]
    refine hh.linked.thin (fun k w hk => ?_) fun k hk => ?_
    · rw [deletes_hashByFrame, get_dropAll_eq_some] at hk
      exact hk.2
    · have hfwd := (hh.linked v).names k hk
      rw [deletes_hashByFrame, get_dropAll_eq_some]
      refine ⟨fun p hp he => ?_, hfwd⟩
      obtain ⟨r, hr, hpr⟩ := derived_mem_right hd hp
      obtain ⟨j, s, hj, hs, rfl⟩ := (hh.rows k v).mp hfwd
      have hjr : j = r.1 := by
        rw [← hpr.fk]
        exact FrameKey.toBytes_inj.mp (hj.symm.trans he.symm)
      rw [hjr, hv.text r hr, Option.some.injEq] at hs
      refine hv' p.hash ((mem_stale c ps).mpr ⟨p, hp, rfl, ?_⟩) (by rw [hpr.hash, hs])
      rw [posted, hpr.hash, hs, hk, ← he]
      simp [fkBytes, FrameKey.fromBytes_toBytes]

end Coherence

end ReadconDb
