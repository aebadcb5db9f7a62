import ReadconDb.Refinement

set_option linter.unusedSectionVars false

namespace ReadconDb

open ByteString Outcome OrderedTable TwoPhase ReverseIndex

section Keys

variable {F : Type} {d : Crates F} {c : ConCorpus F}

theorem fromBytes_eq_some {b : Bytes} {k : FrameKey} :
    FrameKey.fromBytes b = some k ↔ k.toBytes.val = b := by
  constructor
  · exact FrameKey.toBytes_of_fromBytes
  · rintro rfl
    exact FrameKey.fromBytes_toBytes k

theorem mem_frameKeys {k : FrameKey} :
    k ∈ c.frames.keys.filterMap FrameKey.fromBytes ↔ k.toBytes.val ∈ c.frames := by
  rw [List.mem_filterMap]
  simp only [fromBytes_eq_some, exists_eq_right', Std.ExtTreeMap.mem_keys]

theorem frameKeys_nodup : (c.frames.keys.filterMap FrameKey.fromBytes).Nodup := by
  refine List.Nodup.filterMap ?_ Std.ExtTreeMap.nodup_keys
  intro a b k ha hb
  rw [Option.mem_def, fromBytes_eq_some] at ha hb
  rw [← ha, hb]

variable [Float64 F]

theorem select_trajectory (t : UInt64) :
    select c (Select.trajectory {} t) =
      .ok ((allFrames c (Select.trajectory {} t)).sort) := by
  simp [select, predicateSets, topoSets, natomsSets, nameSets, countSets, binSets, scanOrd, given,
    pbcSets, metaSets, scanChannel, flagSets, flagSet, Select.trajectory, intersectAll, intersectFrom,
    bind, Except.bind, pure, Except.pure]

theorem mem_select_trajectory {t : UInt64} {k : FrameKey} :
    k ∈ (allFrames c (Select.trajectory {} t)).sort ↔ k.trajId = t ∧ k.toBytes.val ∈ c.frames := by
  rw [Finset.mem_sort, allFrames, List.mem_toFinset, List.mem_filter, mem_frameKeys]
  have ht : inTraj (Select.trajectory ({} : Select F) t) k = true ↔ k.trajId = t := by
    rw [inTraj, Select.trajectory]
    exact beq_iff_eq.trans eq_comm
  rw [ht, and_comm]

theorem traj_length_le {ks : List FrameKey} {t : UInt64} (hn : ks.Nodup) (ht : ∀ k ∈ ks, k.trajId = t) :
    ks.length ≤ 2 ^ 32 := by
  have hi : (ks.map fun k => k.frameIdx.toNat).Nodup := by
    refine List.Nodup.map_on (fun j hj k hk he => ?_) hn
    exact FrameKey.ext (by rw [ht j hj, ht k hk]) (UInt32.toNat_inj.mp he)
  have hs : (ks.map fun k => k.frameIdx.toNat).toFinset ⊆ Finset.range (2 ^ 32) := by
    intro n hn
    obtain ⟨k, _, rfl⟩ := List.mem_map.mp (List.mem_toFinset.mp hn)
    exact Finset.mem_range.mpr (UInt32.toNat_lt _)
  have hc := Finset.card_le_card hs
  rwa [List.toFinset_card_of_nodup hi, List.length_map, Finset.card_range] at hc

theorem getFrame_eq_ok {k : FrameKey} {f : ConFrame F} :
    getFrame d c k = .ok f ↔ ∃ s, textAt d c k = some s ∧ parsed d s = some f := by
  rw [getFrame, bind_eq_ok]
  simp only [firstFrame_eq_ok, textAt, toOption_eq_some]

theorem serialize_fst {fmt : FloatFormat} {f : ConFrame F} {x : ConFrame F × String}
    (h : serialize d fmt f = .ok x) : x.1 = f := by
  rw [serialize] at h
  split at h
  · cases h
  · split at h
    · cases h
    · exact (Except.ok.inj h) ▸ rfl

end Keys

section Units

variable {F : Type} [Float64 F] {d : Crates F} {snap live next : ConCorpus F} {t : UInt64}
  {units : Value F} {plan : UnitsPlan}

structure UnitsSpec (d : Crates F) (snap : ConCorpus F) (t : UInt64) (units : Value F)
    (plan : UnitsPlan) (old : List (FrameRow F)) (new : List (ConFrame F × String)) : Prop where
  covers : Covers d snap t old
  parses : Parses d old
  sorted : (old.map Prod.fst).Pairwise (· < ·)
  nonempty : old ≠ []
  derived : List.Forall₂ (PutFor d) old plan.oldPuts
  rewritten : List.Forall₂ (fun r x => rewriteFrame d units r.2.1 = .ok x.1 ∧
    serialize d .roundTrip x.1 = .ok x) old new
  prepared : Prepared d (framed t 0 new) plan.prepared
  bound : new.length ≤ 2 ^ 32

theorem UnitsSpec.nodup {old : List (FrameRow F)} {new : List (ConFrame F × String)}
    (hu : UnitsSpec d snap t units plan old new) : (old.map Prod.fst).Nodup := hu.sorted.imp ne_of_lt

theorem readForUnits_ok {key : FrameKey} {row : PreparedIndexPuts × ConFrame F}
    (h : readForUnits d snap units key = .ok row) :
    ∃ r : FrameRow F, (r.1 = key ∧ textAt d snap key = some r.2.2 ∧ parsed d r.2.2 = some r.2.1) ∧
      PutFor d r row.1 ∧ rewriteFrame d units r.2.1 = .ok row.2 := by
  obtain ⟨blob, hb, h⟩ := bind_eq_ok.mp h
  obtain ⟨fr, hf, h⟩ := bind_eq_ok.mp h
  obtain ⟨old, ho, h⟩ := bind_eq_ok.mp h
  obtain ⟨new, hn, h⟩ := bind_eq_ok.mp h
  rw [pure_eq_ok] at h
  subst h
  obtain ⟨s, hs, hp⟩ := getFrame_eq_ok.mp hf
  have hblob : textAt d snap key = some blob := toOption_eq_some.mpr hb
  rw [hs, Option.some.injEq] at hblob
  subst hblob
  exact ⟨(key, fr, s), ⟨rfl, hs, hp⟩, (buildIndexPuts_ok ho).2, hn⟩

theorem prepareUnits_ok (hz : ZstdLossless d) (h : prepareUnits d snap t units = .ok plan) :
    ∃ old new, UnitsSpec d snap t units plan old new := by
  rw [prepareUnits, select_trajectory] at h
  obtain ⟨keys, hk, h⟩ := bind_eq_ok.mp h
  obtain rfl := (Except.ok.inj hk).symm
  split at h
  · cases h
  · next hne =>
    obtain ⟨rows, hr, h⟩ := bind_eq_ok.mp h
    obtain ⟨ps, hp, h⟩ := bind_eq_ok.mp h
    obtain ⟨qs, hq, h⟩ := bind_eq_ok.mp h
    rw [pure_eq_ok] at h
    subst h
    obtain ⟨old, hold, hrows⟩ := forall₂_split (fun _ _ hr => readForUnits_ok hr) (mapM_eq_ok.mp hr)
    have hfst : old.map Prod.fst = (allFrames snap (Select.trajectory {} t)).sort := by
      rw [← List.forall₂_eq_eq_eq, List.forall₂_map_left_iff]
      exact List.Forall₂.flip (hold.imp fun _ _ hr => hr.1)
    have hmem (k : FrameKey) : k ∈ old.map Prod.fst ↔ k.trajId = t ∧ k.toBytes.val ∈ snap.frames := by
      rw [hfst, mem_select_trajectory]
    have hnodup : (old.map Prod.fst).Nodup := hfst ▸ Finset.sort_nodup _ _
    have hlen : old.length ≤ 2 ^ 32 := by
      rw [← List.length_map Prod.fst]
      exact traj_length_le hnodup fun k hk => ((hmem k).mp hk).1
    have hprops : ∀ r ∈ old, textAt d snap r.1 = some r.2.2 ∧ parsed d r.2.2 = some r.2.1 := by
      intro r hr
      obtain ⟨i, hi⟩ := List.get_of_mem hr
      have hget := (List.forall₂_iff_get.mp hold).2 i (by rw [hold.length_eq]; exact i.isLt) i.isLt
      rw [hi] at hget
      exact ⟨hget.1 ▸ hget.2.1, hget.2.2⟩
    have hlen2 : rows.length = old.length := hrows.length_eq.symm
    obtain ⟨new, hnew, hprep⟩ := prepareItems_prepared hz hp hq (by simpa [hlen2] using hlen)
    have hser : List.Forall₂ (fun (row : PreparedIndexPuts × ConFrame F) x =>
        serialize d .roundTrip row.2 = .ok x) rows new := by
      rw [← List.forall₂_eq_eq_eq, List.forall₂_map_right_iff, List.map_map,
        List.forall₂_map_left_iff] at hnew
      exact hnew
    refine ⟨old, new, ?_⟩
    exact
      { covers :=
          { traj := fun r hr => ((hmem r.1).mp (List.mem_map_of_mem hr)).1
            text := fun r hr => (hprops r hr).1
            all := fun k row hk hrow => by
              have hm := (hmem k).mpr ⟨hk, (mem_iff_get _ _).mpr ⟨row, hrow⟩⟩
              obtain ⟨r, hr, he⟩ := List.mem_map.mp hm
              exact ⟨r, hr, he⟩ }
        parses := fun r hr => (hprops r hr).2
        sorted := hfst ▸ (Finset.sortedLT_sort _).pairwise
        nonempty := by
          rintro rfl
          exact hne hfst.symm
        derived := by
          rw [List.forall₂_map_right_iff]
          exact hrows.imp fun _ _ hr => hr.1
        rewritten := by
          refine forall₂_join (fun r row x hr hx => ?_) hrows hser
          rw [serialize_fst hx]
          exact ⟨hr.2, hx⟩
        prepared := hprep
        bound := by
          rw [← hser.length_eq, hlen2]
          exact hlen }

-- The texts of `t` have not moved between the read and the commit.
def SameTexts (d : Crates F) (t : UInt64) (snap live : ConCorpus F) : Prop :=
  ∀ k, k.trajId = t → textAt d live k = textAt d snap k

theorem SameTexts.refl (d : Crates F) (t : UInt64) (c : ConCorpus F) : SameTexts d t c c := fun _ _ => rfl

theorem Covers.of_same {rs : List (FrameRow F)} (hv : Covers d snap t rs) (hl : Readable d live)
    (hs : SameTexts d t snap live) : Covers d live t rs where
  traj := hv.traj
  text r hr := by rw [hs _ (hv.traj r hr), hv.text r hr]
  all k row hk hrow := by
    obtain ⟨s, htext⟩ := hl.text_of_row hrow
    rw [hs k hk] at htext
    obtain ⟨row', hrow'⟩ := rowOf_of_textAt htext
    exact hv.all k row' hk hrow'

def clearedUnits (live : ConCorpus F) (plan : UnitsPlan) : ConCorpus F :=
  repointFrameByHash (deleteAllIndexPuts live plan.oldPuts).2 (deleteAllIndexPuts live plan.oldPuts).1

theorem commitUnits_ok {n : UInt32} (h : commitUnits plan live = .ok (n, next)) :
    n = UInt32.ofNat plan.oldPuts.length ∧
      next = plan.prepared.foldl putIndexPuts (clearedUnits live plan) := by
  simp only [commitUnits, Except.ok.injEq, Prod.mk.injEq] at h
  exact ⟨h.1.symm, h.2.symm⟩

variable {old : List (FrameRow F)} {new : List (ConFrame F × String)} {n : UInt32}

theorem textAt_clearedUnits (hu : UnitsSpec d snap t units plan old new) (hl : Readable d live)
    (hs : SameTexts d t snap live) (k : FrameKey) {s : String} :
    textAt d (clearedUnits live plan) k = some s ↔ k.trajId ≠ t ∧ textAt d live k = some s := by
  have hview : textAt d (clearedUnits live plan) k =
      textAt d (deleteAllIndexPuts live plan.oldPuts).2 k := textAt_of_frames_eq rfl k
  rw [hview]
  exact textAt_cleared (hu.covers.of_same hl hs) hu.derived k

theorem readable_clearedUnits (hu : UnitsSpec d snap t units plan old new) (hl : Readable d live)
    (hs : SameTexts d t snap live) : Readable d (clearedUnits live plan) := by
  have hv := hu.covers.of_same hl hs
  have hr := readable_deletes hl (hv.puts_traj hu.derived) (hv.puts_all hu.derived)
  exact readable_of_frames_eq (show (clearedUnits live plan).frames =
    (deleteAllIndexPuts live plan.oldPuts).2.frames from rfl) hr

theorem fresh_clearedUnits (hu : UnitsSpec d snap t units plan old new) (hl : Readable d live)
    (hs : SameTexts d t snap live) : ∀ r ∈ framed t 0 new, rowOf (clearedUnits live plan) r.1 = none := by
  intro r hr
  rw [Option.eq_none_iff_forall_ne_some]
  intro b hb
  obtain ⟨s, htext⟩ := (readable_clearedUnits hu hl hs).text_of_row hb
  exact ((textAt_clearedUnits hu hl hs r.1).mp htext).1 (framed_traj hr)

theorem new_nodup (hu : UnitsSpec d snap t units plan old new) :
    ((framed t 0 new).map Prod.fst).Nodup := framed_nodup (by simpa using hu.bound)

theorem textAt_units (hu : UnitsSpec d snap t units plan old new) (hl : Readable d live)
    (hs : SameTexts d t snap live) (h : commitUnits plan live = .ok (n, next)) {k : FrameKey}
    {s : String} : textAt d next k = some s ↔
      (k.trajId ≠ t ∧ textAt d live k = some s) ∨ ∃ r ∈ framed t 0 new, rowText r = (k, s) := by
  rw [(commitUnits_ok h).2, textAt_puts (readable_clearedUnits hu hl hs) hu.prepared
    (fun _ => framed_traj) (new_nodup hu) (fresh_clearedUnits hu hl hs), textAt_clearedUnits hu hl hs]

theorem Readable.commitUnits (hl : Readable d live) (hu : UnitsSpec d snap t units plan old new)
    (hs : SameTexts d t snap live) (h : commitUnits plan live = .ok (n, next)) : Readable d next := by
  rw [(commitUnits_ok h).2]
  exact readable_puts (readable_clearedUnits hu hl hs) hu.prepared (fun _ => framed_traj)
    (new_nodup hu) (fresh_clearedUnits hu hl hs)

theorem HashExact.commitUnits (hh : HashExact d live) (hl : Readable d live)
    (hu : UnitsSpec d snap t units plan old new) (hs : SameTexts d t snap live)
    (h : commitUnits plan live = .ok (n, next)) : HashExact d next := by
  rw [(commitUnits_ok h).2]
  exact HashExact.puts (readable_clearedUnits hu hl hs)
    (hh.deletes (hu.covers.of_same hl hs) hu.derived) hu.prepared (fun _ => framed_traj)
    (new_nodup hu) (fresh_clearedUnits hu hl hs)

def RoundTrips (d : Crates F) : Prop :=
  ∀ {f : ConFrame F} {b : Bytes} {s : String}, d.writeFrame .roundTrip f = .ok b → ofUtf8 b = some s →
    parsed d s = some f

theorem parsed_serialize (hw : RoundTrips d) {f : ConFrame F} {x : ConFrame F × String}
    (h : serialize d .roundTrip f = .ok x) : parsed d x.2 = some x.1 := by
  rw [serialize] at h
  split at h
  · cases h
  · next b hb =>
    split at h
    · cases h
    · next s hs => exact (Except.ok.inj h) ▸ hw hb hs

theorem UnitsSpec.new_parses (hu : UnitsSpec d snap t units plan old new) (hw : RoundTrips d) :
    Parses d (framed t 0 new) := by
  intro r hr
  have hx : r.2 ∈ new := by
    rw [← framed_snd t 0 new]
    exact List.mem_map_of_mem hr
  obtain ⟨i, hi⟩ := List.get_of_mem hx
  have hrel := List.forall₂_iff_get.mp hu.rewritten
  have hget := (hrel.2 i (by rw [hrel.1]; exact i.isLt) i.isLt).2
  rw [hi] at hget
  exact parsed_serialize hw hget

theorem IndexExact.commitUnits (hi : IndexExact d live) (hw : RoundTrips d) (hl : Readable d live)
    (hu : UnitsSpec d snap t units plan old new) (hs : SameTexts d t snap live)
    (h : commitUnits plan live = .ok (n, next)) : IndexExact d next := by
  rw [(commitUnits_ok h).2]
  have hd := hi.deletes (hu.covers.of_same hl hs) hu.parses hu.derived
  have hc : IndexExact d (clearedUnits live plan) :=
    hd.of_view (fun k => textAt_of_frames_eq rfl k) rfl
  exact hc.puts (readable_clearedUnits hu hl hs) hu.prepared (fun r hr => .of_parsed (hu.new_parses hw r hr))
    (fun _ => framed_traj) (new_nodup hu) (fresh_clearedUnits hu hl hs)

theorem CookedExact.commitUnits (hk : CookedExact d live) (hl : Readable d live)
    (hu : UnitsSpec d snap t units plan old new) (hs : SameTexts d t snap live)
    (h : commitUnits plan live = .ok (n, next)) : CookedExact d next := by
  rw [(commitUnits_ok h).2]
  have hd := hk.deletes (hu.covers.of_same hl hs) hu.derived
  have hc : CookedExact d (clearedUnits live plan) :=
    hd.of_view (fun k => textAt_of_frames_eq rfl k) rfl
  exact hc.puts (readable_clearedUnits hu hl hs) hu.prepared (fun _ => framed_traj) (new_nodup hu)
    (fresh_clearedUnits hu hl hs)

theorem commitUnits_trajMeta (h : commitUnits plan live = .ok (n, next)) :
    next.trajMeta = live.trajMeta := by
  rw [(commitUnits_ok h).2, puts_trajMeta]
  exact deletes_trajMeta live plan.oldPuts

theorem frameIdx_lt {j k : FrameKey} (ht : j.trajId = k.trajId) (h : j < k) :
    j.frameIdx < k.frameIdx := by
  have hl : FrameKey.lexKey j < FrameKey.lexKey k := h
  rw [FrameKey.lexKey, FrameKey.lexKey, Prod.Lex.toLex_lt_toLex, ht] at hl
  rw [UInt32.lt_iff_toNat_lt]
  rcases hl with hl | ⟨_, hl⟩
  · exact absurd hl (lt_irrefl _)
  · exact hl

theorem Refines.covered_idxs {L : Texts} (h : Refines d live L) (hv : Covers d live t old)
    (hs : (old.map Prod.fst).Pairwise (· < ·)) :
    (old.map fun r => r.1.frameIdx.toNat) = List.range (L.count t) := by
  have hlt : (old.map fun r => r.1.frameIdx.toNat).SortedLT := by
    rw [List.sortedLT_iff_pairwise, List.pairwise_map]
    rw [List.pairwise_map] at hs
    refine hs.imp_of_mem fun ha hb hab => ?_
    rw [← UInt32.lt_iff_toNat_lt]
    exact frameIdx_lt (by rw [hv.traj _ ha, hv.traj _ hb]) hab
  refine hlt.eq_of_mem_iff (List.sortedLT_range _) fun i => ?_
  rw [List.mem_map, List.mem_range]
  constructor
  · rintro ⟨r, hr, rfl⟩
    have htext := hv.text r hr
    rw [h.text, hv.traj r hr] at htext
    exact Ledger.entry_isSome_iff.mp ⟨_, htext⟩
  · intro hlt
    have hi : (UInt32.ofNat i).toNat = i := by
      rw [UInt32.toNat_ofNat', Nat.mod_eq_of_lt (hlt.trans (h.small t))]
    obtain ⟨s, hs⟩ := Ledger.entry_isSome_iff.mpr hlt
    have htext : textAt d live ⟨t, UInt32.ofNat i⟩ = some s := by rw [h.text, hi, hs]
    obtain ⟨row, hrow⟩ := rowOf_of_textAt htext
    obtain ⟨r, hr, he⟩ := hv.all _ row rfl hrow
    exact ⟨r, hr, by rw [he]; exact hi⟩

theorem Refines.covered_count {L : Texts} (h : Refines d live L) (hv : Covers d live t old)
    (hs : (old.map Prod.fst).Pairwise (· < ·)) : old.length = L.count t := by
  rw [← List.length_map fun r : FrameRow F => r.1.frameIdx.toNat, h.covered_idxs hv hs, List.length_range]

theorem Refines.covered_texts {L : Texts} (h : Refines d live L) (hv : Covers d live t old)
    (hs : (old.map Prod.fst).Pairwise (· < ·)) : old.map (fun r => r.2.2) = (L t).getD [] := by
  have hsome : (old.map fun r => some r.2.2) = (old.map fun r => L.entry t r.1.frameIdx.toNat) := by
    refine List.map_congr_left fun r hr => ?_
    rw [← hv.text r hr, h.text, hv.traj r hr]
  have hentry : (old.map fun r => L.entry t r.1.frameIdx.toNat) =
      (old.map fun r => r.1.frameIdx.toNat).map (L.entry t) := by
    rw [List.map_map]
    rfl
  have hsplit : (old.map fun r => some r.2.2) = (old.map fun r => r.2.2).map some := by
    rw [List.map_map]
    rfl
  rw [hentry, h.covered_idxs hv hs, Ledger.entries, hsplit] at hsome
  exact List.map_injective_iff.mpr (Option.some_injective _) hsome

theorem Refines.commitUnits {L : Texts} (h : Refines d live L) (hu : UnitsSpec d snap t units plan old new)
    (hs : SameTexts d t snap live) (hc : commitUnits plan live = .ok (n, next)) :
    Refines d next (L.write t (new.map Prod.snd)) := by
  have hv := hu.covers.of_same h.readable hs
  have hlen : new.length = L.count t := by
    rw [← hu.rewritten.length_eq]
    exact h.covered_count hv hu.sorted
  have hbound : (0 : UInt32).toNat + new.length ≤ 2 ^ 32 := by simpa using hu.bound
  have hne : L t ≠ none := by
    intro hnone
    have h0 : L.count t = 0 := by simp [Ledger.count, hnone]
    have hold : old = [] := List.eq_nil_of_length_eq_zero (by rw [hu.rewritten.length_eq, hlen, h0])
    exact hu.nonempty hold
  exact
    { readable := h.readable.commitUnits hu hs hc
      counts := fun u => by
        rw [commitUnits_trajMeta hc, h.counts]
        by_cases hut : u = t
        · subst hut
          rw [Ledger.write_self, Option.map_some, List.length_map, hlen, Ledger.count]
          cases hL : L u with
          | none => exact absurd hL hne
          | some xs => rfl
        · rw [Ledger.write_other _ _ hut]
      small := fun u => by
        by_cases hut : u = t
        · subst hut
          have := h.small u
          rw [Ledger.count, Ledger.write_self, Option.getD_some, List.length_map]
          omega
        · rw [Ledger.count, Ledger.write_other _ _ hut]
          exact h.small u
      text := fun k => by
        ext s
        rw [textAt_units hu h.readable hs hc]
        by_cases hk : k.trajId = t
        · rw [hk, Ledger.entry_write_self, List.getElem?_map]
          simp only [ne_eq, not_true_eq_false, false_and, false_or]
          constructor
          · rintro ⟨r, hr, he⟩
            rw [rowText, Prod.mk.injEq] at he
            obtain ⟨_, _, hx⟩ := (mem_framed hbound).mp hr
            rw [he.1] at hx
            simp only [UInt32.toNat_zero, Nat.sub_zero] at hx
            rw [hx, Option.map_some, he.2]
          · intro hmap
            obtain ⟨x, hx, rfl⟩ := Option.map_eq_some_iff.mp hmap
            exact ⟨(k, x), (mem_framed hbound).mpr ⟨hk, by simp, by simpa using hx⟩, rfl⟩
        · rw [Ledger.entry_write_other _ _ hk, ← h.text]
          constructor
          · rintro (⟨_, hs⟩ | ⟨r, hr, he⟩)
            · exact hs
            · rw [rowText, Prod.mk.injEq] at he
              exact absurd (he.1 ▸ framed_traj hr) hk
          · exact fun hs => .inl ⟨hk, hs⟩ }

end Units

end ReadconDb
