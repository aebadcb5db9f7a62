import ReadconDb.Rooted
import ReadconDb.Wraparound

set_option linter.unusedSectionVars false

namespace ReadconDb

open ByteString Outcome OrderedTable TwoPhase

section Packed

variable {F : Type} [Float64 F] (d : Crates F)

def keyedText (c : ConCorpus F) (key : FrameKey) : Result (UInt32 × String) := do
  return (key.frameIdx, ← getFrameText d c key)

def packedRows (c : ConCorpus F) (t : UInt64) : Result (List Bytes) := do
  packAligned d (← (storedFrames c t).mapM (keyedText d c))

-- Every frame of the trajectory reads, and no group holds a text of 2^32 bytes or more.
def Packable (c : ConCorpus F) (t : UInt64) : Prop :=
  ∃ texts, (storedFrames c t).mapM (keyedText d c) = .ok texts ∧
    ∀ run ∈ texts.splitBy sameGroup, 2 ≤ run.length → ShortTexts run

def CanonicalAt (c : ConCorpus F) (t : UInt64) : Prop :=
  ∃ rows, packedRows d c t = .ok rows ∧ (storedFrames c t).mapM (storedIn c) = .ok rows

structure SameFrames (c c' : ConCorpus F) : Prop where
  keys : ∀ b, b ∈ c'.frames ↔ b ∈ c.frames
  texts : ∀ k s, getFrameText d c' k = .ok s ↔ getFrameText d c k = .ok s

variable {d} {c c' next : ConCorpus F} {t : UInt64}

theorem SameFrames.refl (c : ConCorpus F) : SameFrames d c c := ⟨fun _ => Iff.rfl, fun _ _ => Iff.rfl⟩

theorem SameFrames.trans {a b c : ConCorpus F} (h : SameFrames d a b) (h' : SameFrames d b c) : SameFrames d a c :=
  ⟨fun k => (h'.keys k).trans (h.keys k), fun k s => (h'.texts k s).trans (h.texts k s)⟩

theorem listFrameKeys_congr (h : ∀ b, b ∈ c'.frames ↔ b ∈ c.frames) : listFrameKeys c' = listFrameKeys c := by
  have hmem (k : FrameKey) : k ∈ listFrameKeys c' ↔ k ∈ listFrameKeys c := by
    rw [mem_listFrameKeys, mem_listFrameKeys, h]
  exact listFrameKeys_lt.sortedLT.eq_of_mem_iff listFrameKeys_lt.sortedLT hmem

theorem storedFrames_congr (h : ∀ b, b ∈ c'.frames ↔ b ∈ c.frames) (t : UInt64) :
    storedFrames c' t = storedFrames c t := by
  rw [storedFrames, storedFrames, listFrameKeys_congr h]

theorem mem_storedFrames {k : FrameKey} : k ∈ storedFrames c t ↔ k.toBytes.val ∈ c.frames ∧ k.trajId = t := by
  rw [storedFrames, List.mem_filter, mem_listFrameKeys, beq_iff_eq]

theorem keyedText_eq_ok {k : FrameKey} {row : UInt32 × String} :
    keyedText d c k = .ok row ↔ ∃ s, getFrameText d c k = .ok s ∧ (k.frameIdx, s) = row := by
  rw [keyedText, bind_eq_ok]
  simp only [pure_eq_ok]

theorem packedRows_congr (hk : storedFrames c' t = storedFrames c t)
    (ht : ∀ k s, getFrameText d c k = .ok s → getFrameText d c' k = .ok s) {rows : List Bytes}
    (h : packedRows d c t = .ok rows) : packedRows d c' t = .ok rows := by
  obtain ⟨texts, hm, hp⟩ := bind_eq_ok.mp h
  refine bind_eq_ok.mpr ⟨texts, ?_, hp⟩
  rw [hk, mapM_eq_ok]
  refine (mapM_eq_ok.mp hm).imp fun k row hrow => ?_
  obtain ⟨s, hs, he⟩ := keyedText_eq_ok.mp hrow
  exact keyedText_eq_ok.mpr ⟨s, ht k s hs, he⟩

theorem CanonicalAt.keep (h : CanonicalAt d c t) (hs : SameFrames d c c')
    (hr : ∀ k : FrameKey, k.trajId = t → rowOf c' k = rowOf c k) : CanonicalAt d c' t := by
  obtain ⟨rows, hp, ho⟩ := h
  have hk := storedFrames_congr hs.keys t
  refine ⟨rows, packedRows_congr hk (fun k s => (hs.texts k s).mpr) hp, ?_⟩
  rw [hk, mapM_eq_ok]
  refine (forall₂_with_mem (mapM_eq_ok.mp ho)).imp fun k row hrow => ?_
  rw [storedIn_eq_ok, hr k (mem_storedFrames.mp hrow.1).2]
  exact storedIn_eq_ok.mp hrow.2

theorem repackPlan_eq_ok {changed : List (FrameKey × Bytes)} : repackPlan d c t = .ok changed ↔
    ∃ packed old, packedRows d c t = .ok packed ∧ (storedFrames c t).mapM (storedIn c) = .ok old ∧
      changed = changedRows (storedFrames c t) packed old := by
  constructor
  · intro h
    obtain ⟨texts, ht, h⟩ := bind_eq_ok.mp h
    obtain ⟨old, ho, h⟩ := bind_eq_ok.mp h
    obtain ⟨packed, hp, h⟩ := bind_eq_ok.mp h
    exact ⟨packed, old, bind_eq_ok.mpr ⟨texts, ht, hp⟩, ho, (pure_eq_ok.mp h).symm⟩
  · rintro ⟨packed, old, hp, ho, rfl⟩
    obtain ⟨texts, ht, hp⟩ := bind_eq_ok.mp hp
    exact bind_eq_ok.mpr ⟨texts, ht, bind_eq_ok.mpr ⟨old, ho, bind_eq_ok.mpr ⟨packed, hp, rfl⟩⟩⟩

theorem storedFrames_lt : (storedFrames c t).Pairwise (· < ·) := listFrameKeys_lt.sublist List.filter_sublist

theorem packedRows_length (hz : ZstdLossless d) {rows : List Bytes} (h : packedRows d c t = .ok rows) :
    rows.length = (storedFrames c t).length := by
  obtain ⟨texts, ht, hp⟩ := bind_eq_ok.mp h
  have hlt : texts.Pairwise fun f g => f.1 < g.1 := by
    refine forall₂_pairwise (fun j k row row' hlt hj hk => ?_) (forall₂_with_mem (mapM_eq_ok.mp ht)) storedFrames_lt
    obtain ⟨s, _, rfl⟩ := keyedText_eq_ok.mp hj.2
    obtain ⟨s', _, rfl⟩ := keyedText_eq_ok.mp hk.2
    exact frameIdx_lt ((mem_storedFrames.mp hj.1).2.trans (mem_storedFrames.mp hk.1).2.symm) hlt
  rw [← (packAligned_decodes hz hlt hp).1, mapM_length ht]

theorem changedRows_self (keys : List FrameKey) (rows : List Bytes) : changedRows keys rows rows = [] := by
  induction keys generalizing rows with
  | nil => rfl
  | cons k keys ih =>
    cases rows with
    | nil => rfl
    | cons row rows => rw [changedRows_cons, if_neg (by simp), ih]

structure Repacked (d : Crates F) (t : UInt64) (c next : ConCorpus F) : Prop where
  same : SameFrames d c next
  canonical : CanonicalAt d next t
  elsewhere : ∀ k : FrameKey, k.trajId ≠ t → rowOf next k = rowOf c k
  others : next = { c with frames := next.frames }

theorem repack_done (hz : ZstdLossless d) {changed : List (FrameKey × Bytes)} {n : UInt32}
    (hp : repackPlan d c t = .ok changed) (hc : repackCommit changed c = .ok (n, next)) : Repacked d t c next := by
  obtain ⟨ks, _, hr⟩ := repackPlan_ok hz hp
  obtain ⟨packed, old, hrows, ho, he⟩ := repackPlan_eq_ok.mp hp
  have hnext := (repackCommit_ok hc).2
  have htext := textAt_repack_of_all hr hr.all (SameTexts.refl d t c) (fun _ _ _ => rfl) hc
  have hkeys (b : Bytes) : b ∈ next.frames ↔ b ∈ c.frames := by
    rw [hnext, mem_putAll]
    refine or_iff_left_of_imp fun ⟨kv, hkv, he⟩ => ?_
    obtain ⟨j, hj, hjk⟩ := hr.within kv hkv
    obtain ⟨row, hrow⟩ := rowOf_of_textAt (hr.text j hj)
    rw [← he, ← hjk]
    exact (mem_iff_get _ _).mpr ⟨row, hrow⟩
  have hsame : SameFrames d c next := by
    refine ⟨hkeys, fun k s => ?_⟩
    rw [← toOption_eq_some, ← toOption_eq_some]
    exact iff_of_eq (congrArg (· = some s) (htext k))
  have hold : List.Forall₂ (fun k b => rowOf c k = some b) (storedFrames c t) old :=
    (mapM_eq_ok.mp ho).imp fun _ _ hb => storedIn_eq_ok.mp hb
  have hspec := (changedRows_spec (storedFrames_lt.imp fun h => ne_of_lt h) hold (packedRows_length hz hrows).symm).1
  rw [← he] at hspec
  have hstored : List.Forall₂ (fun k row => storedIn next k = .ok row) (storedFrames c t) packed := by
    refine hspec.imp fun k row hrow => storedIn_eq_ok.mpr ?_
    rcases hrow with hm | ⟨hno, hold⟩
    · have hrow := rowOf_repack_changed hr.nodup hc hm
      exact hrow
    · rw [rowOf_repack_other hc hno, hold]
  exact
    { same := hsame
      canonical := by
        have hk := storedFrames_congr hkeys t
        refine ⟨packed, packedRows_congr hk (fun k s => (hsame.texts k s).mpr) hrows, ?_⟩
        rw [hk, mapM_eq_ok]
        exact hstored
      elsewhere := fun k hk => by
        refine rowOf_repack_other hc fun hm => hk ?_
        obtain ⟨kv, hkv, rfl⟩ := List.mem_map.mp hm
        obtain ⟨j, hj, he⟩ := hr.within kv hkv
        rw [← he, hr.traj j hj]
      others := by rw [hnext] }

theorem repack_still (h : CanonicalAt d c t) (refused : Option Error) :
    repackTraj d refused c c t = (.ok 0, c) := by
  obtain ⟨rows, hp, ho⟩ := h
  have hplan : repackPlan d c t = .ok [] :=
    repackPlan_eq_ok.mpr ⟨rows, rows, hp, ho, (changedRows_self _ _).symm⟩
  simp only [repackTraj, hplan, writesNothing, call, write, repackCommit, if_true, putAll, List.foldl_nil,
    List.length_nil]
  rfl

theorem repack_ok_cases {refused : Option Error} {n : UInt32} (hz : ZstdLossless d)
    (h : repackTraj d refused c c t = (.ok n, next)) : Repacked d t c next := by
  rcases call_cases (repackPlan d c t) (if writesNothing (repackPlan d c t) then none else refused)
    (repackCommit (F := F)) c with ⟨e, he⟩ | ⟨p, r, s, _, hp, hc, he⟩
  · rw [repackTraj, he] at h
    cases (Prod.mk.inj h).1
  · rw [repackTraj, he] at h
    obtain ⟨_, rfl⟩ := Prod.mk.inj h
    exact repack_done hz hp hc

theorem migrate_same (hz : ZstdLossless d) (refused : UInt64 → Option Error) (c : ConCorpus F) :
    SameFrames d c (migrateFrames d refused c).2 ∧
      (migrateFrames d refused c).2 = { c with frames := (migrateFrames d refused c).2.frames } := by
  have hrepack (t : UInt64) (s : ConCorpus F) (hs : SameFrames d c s ∧ s = { c with frames := s.frames }) :
      SameFrames d c (repackTraj d (refused t) s s t).2 ∧
        (repackTraj d (refused t) s s t).2 = { c with frames := (repackTraj d (refused t) s s t).2.frames } := by
    refine call_preserves (I := fun s' : ConCorpus F => SameFrames d c s' ∧ s' = { c with frames := s'.frames }) hs
      fun changed n next hp hc => ?_
    have hdone := repack_done hz hp hc
    refine ⟨hs.1.trans hdone.same, ?_⟩
    rw [hdone.others, hs.2]
  exact each_preserves (I := fun s : ConCorpus F => SameFrames d c s ∧ s = { c with frames := s.frames }) hrepack 0 _
    ⟨.refl c, rfl⟩

theorem canonicalAt_of_empty (h : storedFrames c t = []) : CanonicalAt d c t :=
  ⟨[], by rw [packedRows, h]; rfl, by rw [h]; rfl⟩

theorem mem_storedTrajs : t ∈ storedTrajs c ↔ ∃ k ∈ listFrameKeys c, k.trajId = t := by
  rw [storedTrajs, List.mem_dedup, List.mem_map]

theorem migrate_canonicalAt (hz : ZstdLossless d) {refused : UInt64 → Option Error} {n : UInt32}
    (h : migrateFrames d refused c = (.ok n, c')) (t : UInt64) : CanonicalAt d c' t := by
  have hsame := (migrate_same hz refused c).1
  rw [h] at hsame
  by_cases ht : t ∈ storedTrajs c
  · refine (each_ok (I := fun _ => True) (P := fun t s => CanonicalAt d s t) (fun t s r s' _ hr => ?_) trivial h).1 t ht
    have hdone := repack_ok_cases hz hr
    refine ⟨trivial, hdone.canonical, fun u hu => ?_⟩
    by_cases hut : u = t
    · exact hut ▸ hdone.canonical
    · exact hu.keep hdone.same fun k hk => hdone.elsewhere k (hk ▸ hut)
  · apply canonicalAt_of_empty
    rw [storedFrames_congr hsame.keys, List.eq_nil_iff_forall_not_mem]
    intro k hk
    obtain ⟨hs, he⟩ := mem_storedFrames.mp hk
    exact ht (mem_storedTrajs.mpr ⟨k, mem_listFrameKeys.mpr hs, he⟩)

theorem migrate_still (h : ∀ t, CanonicalAt d c t) (refused : UInt64 → Option Error) :
    migrateFrames d refused c = (.ok 0, c) :=
  each_still 0 (fun t _ => repack_still (h t) (refused t)) (fun n => UInt32.add_zero n)

theorem packedRows_total_iff (he : ∀ b, ∃ z, d.zstdEncode b = .ok z) :
    (∃ rows, packedRows d c t = .ok rows) ↔ Packable d c t := by
  constructor
  · rintro ⟨rows, hrows⟩
    obtain ⟨texts, ht, hp⟩ := bind_eq_ok.mp hrows
    exact ⟨texts, ht, (packAligned_total_iff he).mp ⟨rows, hp⟩⟩
  · rintro ⟨texts, ht, hs⟩
    obtain ⟨rows, hp⟩ := (packAligned_total_iff he).mpr hs
    exact ⟨rows, bind_eq_ok.mpr ⟨texts, ht, hp⟩⟩

theorem migrate_one {changed : List (FrameKey × Bytes)} (ht : storedTrajs c = [t]) (hp : repackPlan d c t = .ok changed) :
    migrateFrames d (fun _ => none) c = (.ok (0 + UInt32.ofNat changed.length),
      { c with frames := putAll (fun row => row.1.toBytes.val) Prod.snd c.frames changed }) := by
  simp only [migrateFrames, ht, each, repackTraj, hp, ite_self, call, write, repackCommit]

theorem repack_total {rows : List Bytes} (hp : packedRows d c t = .ok rows) :
    ∃ n next, repackTraj d none c c t = (.ok n, next) := by
  have hstored : ∀ k ∈ storedFrames c t, ∃ row, storedIn c k = .ok row := by
    intro k hk
    obtain ⟨row, hrow⟩ := (mem_iff_get _ _).mp (mem_storedFrames.mp hk).1
    exact ⟨row, storedIn_eq_ok.mpr hrow⟩
  obtain ⟨old, ho⟩ := mapM_total hstored
  have hplan := repackPlan_eq_ok.mpr ⟨rows, old, hp, ho, rfl⟩
  rw [repackTraj, hplan, ite_self]
  exact ⟨_, _, rfl⟩

theorem migrate_ok_iff (hz : ZstdLossless d) (he : ∀ b, ∃ z, d.zstdEncode b = .ok z) {refused : UInt64 → Option Error}
    (hr : ∀ t ∈ storedTrajs c, refused t = none) :
    (∃ n c', migrateFrames d refused c = (.ok n, c')) ↔ ∀ t ∈ storedTrajs c, Packable d c t := by
  constructor
  · rintro ⟨n, c', h⟩ t _
    have hsame := (migrate_same hz refused c).1
    rw [h] at hsame
    obtain ⟨rows, hp, _⟩ := migrate_canonicalAt hz h t
    refine (packedRows_total_iff he).mp ⟨rows, ?_⟩
    exact packedRows_congr (storedFrames_congr hsame.keys t).symm (fun k s => (hsame.texts k s).mp) hp
  · intro h
    refine each_total (I := SameFrames d c) (fun t ht s hs => ?_) 0 (.refl c)
    obtain ⟨rows, hp⟩ := (packedRows_total_iff he).mpr (h t ht)
    have hp' := packedRows_congr (storedFrames_congr hs.keys t) (fun k s => (hs.texts k s).mpr) hp
    obtain ⟨n, next, hn⟩ := repack_total hp'
    exact ⟨n, next, by rw [hr t ht, hn], hs.trans (repack_ok_cases hz hn).same⟩

theorem CanonicalAt.text (h : CanonicalAt d c t) {k : FrameKey} (hk : k ∈ storedFrames c t) :
    ∃ s, getFrameText d c k = .ok s := by
  obtain ⟨rows, hp, _⟩ := h
  obtain ⟨texts, hm, _⟩ := bind_eq_ok.mp hp
  obtain ⟨row, _, hrow⟩ := forall₂_mem_left (mapM_eq_ok.mp hm) hk
  obtain ⟨s, hs, _⟩ := keyedText_eq_ok.mp hrow
  exact ⟨s, hs⟩

theorem stored_iff_text (h : ∀ t, CanonicalAt d c t) {k : FrameKey} :
    k.toBytes.val ∈ c.frames ↔ ∃ s, getFrameText d c k = .ok s := by
  constructor
  · exact fun hk => (h k.trajId).text (mem_storedFrames.mpr ⟨hk, rfl⟩)
  · rintro ⟨s, hs⟩
    exact (mem_iff_get _ _).mpr (rowOf_of_textAt (toOption_eq_some.mpr hs))

theorem frames_of_canonical (hc : ∀ b ∈ c.frames, ∃ k : FrameKey, b = k.toBytes.val)
    (hc' : ∀ b ∈ c'.frames, ∃ k : FrameKey, b = k.toBytes.val) (h : ∀ t, CanonicalAt d c t)
    (h' : ∀ t, CanonicalAt d c' t) (ht : ∀ k s, getFrameText d c' k = .ok s ↔ getFrameText d c k = .ok s) :
    c'.frames = c.frames := by
  have hstored (k : FrameKey) : k.toBytes.val ∈ c'.frames ↔ k.toBytes.val ∈ c.frames := by
    rw [stored_iff_text h, stored_iff_text h']
    simp only [ht]
  have hkeys (b : Bytes) : b ∈ c'.frames ↔ b ∈ c.frames := by
    constructor
    · intro hb
      obtain ⟨k, rfl⟩ := hc' b hb
      exact (hstored k).mp hb
    · intro hb
      obtain ⟨k, rfl⟩ := hc b hb
      exact (hstored k).mpr hb
  have hrow (k : FrameKey) (hk : k.toBytes.val ∈ c.frames) : storedIn c' k = storedIn c k := by
    obtain ⟨rows, hp, ho⟩ := h k.trajId
    obtain ⟨rows', hp', ho'⟩ := h' k.trajId
    have hcongr := storedFrames_congr hkeys k.trajId
    rw [packedRows_congr hcongr (fun j s => (ht j s).mpr) hp, Except.ok.injEq] at hp'
    rw [hcongr, ← hp'] at ho'
    exact mapM_agree ho' ho k (mem_storedFrames.mpr ⟨hk, rfl⟩)
  refine Std.ExtTreeMap.ext_getElem? fun b => ?_
  by_cases hb : b ∈ c.frames
  · obtain ⟨k, rfl⟩ := hc b hb
    obtain ⟨row, hr⟩ := (mem_iff_get _ _).mp hb
    have hstore := (hrow k hb).trans (storedIn_eq_ok.mpr hr)
    exact (storedIn_eq_ok.mp hstore).trans hr.symm
  · rw [Std.ExtTreeMap.getElem?_eq_none hb, Std.ExtTreeMap.getElem?_eq_none fun hb' => hb ((hkeys b).mp hb')]

structure Canonicalizes (d : Crates F) (refused : UInt64 → Option Error) (c : ConCorpus F) : Prop where
  texts : ∀ k s, getFrameText d (migrateFrames d refused c).2 k = .ok s ↔ getFrameText d c k = .ok s
  others : (migrateFrames d refused c).2 = { c with frames := (migrateFrames d refused c).2.frames }
  unique : ∀ (n n' : UInt32) (c₁ c' c₁' : ConCorpus F) (refused' : UInt64 → Option Error), History d AnyCall c₁ →
    (∀ k s, getFrameText d c₁ k = .ok s ↔ getFrameText d c k = .ok s) → migrateFrames d refused c = (.ok n, c') →
      migrateFrames d refused' c₁ = (.ok n', c₁') → c₁'.frames = c'.frames
  again : ∀ (n : UInt32) (c' : ConCorpus F) (refused' : UInt64 → Option Error),
    migrateFrames d refused c = (.ok n, c') → migrateFrames d refused' c' = (.ok 0, c')
  succeeds : (∀ b, ∃ z, d.zstdEncode b = .ok z) → (∀ t ∈ storedTrajs c, refused t = none) →
    ((∃ n c', migrateFrames d refused c = (.ok n, c')) ↔ ∀ t ∈ storedTrajs c, Packable d c t)

theorem migrate_canonicalizes (hz : ZstdLossless d) (h : History d AnyCall c) (refused : UInt64 → Option Error) :
    Canonicalizes d refused c where
  texts := (migrate_same hz refused c).1.texts
  others := (migrate_same hz refused c).2
  unique n n' c₁ c' c₁' refused' h₁ ht hm hm₁ := by
    have hs := (migrate_same hz refused c).1
    have hs₁ := (migrate_same hz refused' c₁).1
    rw [hm] at hs
    rw [hm₁] at hs₁
    refine frames_of_canonical (fun b hb => ?_) (fun b hb => ?_) (migrate_canonicalAt hz hm)
      (migrate_canonicalAt hz hm₁) fun k s => ?_
    · exact (h.rooted hz).keys b ((hs.keys b).mp hb)
    · exact (h₁.rooted hz).keys b ((hs₁.keys b).mp hb)
    · rw [hs.texts, hs₁.texts, ht]
  again n c' refused' hm := migrate_still (migrate_canonicalAt hz hm) refused'
  succeeds he hr := migrate_ok_iff hz he hr

end Packed

section Tiny

def squeezed (a : Action Bits) (c : ConCorpus Bits) : ConCorpus Bits := (a.exec squeezing .granted c).2

theorem squeezed_history {c : ConCorpus Bits} (h : History squeezing AnyCall c) (a : Action Bits) :
    History squeezing AnyCall (squeezed a c) := .step a .granted h trivial

theorem squeezed_store (op : Op Bits) (c : ConCorpus Bits) :
    squeezed (.store op) c = (op.exec squeezing .granted c).2 := rfl

def pairText : String := String.join ([hydrogen, helium].map Prod.snd)

-- Two frames stored as they came, compression being off; packed, they are a group and a redirect.
def rawPair : ConCorpus Bits :=
  squeezed (.store (.appendStr 0 pairText "tiny.con")) (squeezed (.store (.setCompress false)) (ConCorpus.empty Bits))

theorem rawPair_history : History squeezing AnyCall rawPair :=
  squeezed_history (squeezed_history .empty _) _

def pairTable : Table Bytes :=
  ((∅ : Table Bytes).insert (FrameKey.mk 0 0).toBytes.val (utf8 hydrogen.2)).insert (FrameKey.mk 0 1).toBytes.val
    (utf8 helium.2)

theorem rawPair_frames : rawPair.frames = pairTable := by
  have hall : ∀ e ∈ [hydrogen, helium], e ∈ tinyCatalog.entries ∧ e.EndsLine := by
    simp [hydrogen_mem, helium_mem, hydrogen_endsLine, helium_endsLine]
  have hspans : spans squeezing pairText = [hydrogen, helium].map Except.ok := by
    rw [spans, squeezing, pairText, Catalog.conFrames_entries hall, List.map_map]
    rfl
  have hempty : (setCompressFrames (ConCorpus.empty Bits) false).trajMeta[(0 : UInt64)]? = none := by
    simp [setCompressFrames, ConCorpus.empty]
  obtain ⟨m, _, hexec⟩ := appendStr_raw rfl hempty hspans "tiny.con"
  have hfirst : framed 0 0 [hydrogen, helium] = [(⟨0, 0⟩, hydrogen), (⟨0, 1⟩, helium)] := rfl
  rw [hfirst] at hexec
  have hplain : ((Op.setCompress false).exec squeezing .granted (ConCorpus.empty Bits)).2 =
    setCompressFrames (ConCorpus.empty Bits) false := rfl
  rw [rawPair, squeezed_store, squeezed_store, hplain, hexec, restamp, puts_frames]
  rfl

theorem rawPair_rows : rowOf rawPair ⟨0, 0⟩ = some (utf8 hydrogen.2) ∧ rowOf rawPair ⟨0, 1⟩ = some (utf8 helium.2) := by
  have hne : (FrameKey.mk 0 1).toBytes.val ≠ (FrameKey.mk 0 0).toBytes.val := by decide
  rw [rowOf, rowOf, rawPair_frames, pairTable]
  simp only [get_insert, if_neg hne, if_true, and_self]

theorem rawPair_keys : storedFrames rawPair 0 = [⟨0, 0⟩, ⟨0, 1⟩] := by
  have hlt : [(⟨0, 0⟩ : FrameKey), ⟨0, 1⟩].Pairwise (· < ·) := by decide
  refine storedFrames_lt.sortedLT.eq_of_mem_iff hlt.sortedLT fun k => ?_
  rw [mem_storedFrames, rawPair_frames, pairTable]
  simp only [mem_insert_iff, Std.ExtTreeMap.not_mem_empty, or_false, FrameKey.toBytes_inj, List.mem_cons, List.not_mem_nil]
  constructor
  · rintro ⟨rfl | rfl, _⟩ <;> simp
  · rintro (rfl | rfl) <;> simp

theorem rawPair_trajs : storedTrajs rawPair = [0] := by
  have hkeys : listFrameKeys rawPair = storedFrames rawPair 0 := by
    refine (List.filter_eq_self.mpr fun k hk => ?_).symm
    have hk := mem_listFrameKeys.mp hk
    rw [rawPair_frames, pairTable] at hk
    simp only [mem_insert_iff, Std.ExtTreeMap.not_mem_empty, or_false, FrameKey.toBytes_inj] at hk
    rcases hk with rfl | rfl <;> rfl
  rw [storedTrajs, hkeys, rawPair_keys]
  decide

theorem rawPair_texts : (storedFrames rawPair 0).mapM (keyedText squeezing rawPair) =
    .ok [(0, hydrogen.2), (1, helium.2)] := by
  have htext {k : FrameKey} {s : String} (hrow : rowOf rawPair k = some (utf8 s)) :
      keyedText squeezing rawPair k = .ok (k.frameIdx, s) :=
    keyedText_eq_ok.mpr ⟨s, getFrameText_eq_ok.mpr ⟨_, hrow, decode_store squeezing_lossless
      (show storeFrame squeezing s false = .ok (utf8 s) from rfl) _⟩, rfl⟩
  rw [rawPair_keys, mapM_eq_ok]
  exact .cons (htext rawPair_rows.1) (.cons (htext rawPair_rows.2) .nil)

def packedPair : List (FrameKey × Bytes) :=
  [(⟨0, 0⟩, groupTag ++ leBytes 4 2 ++ tinyZstd ++ [1]), (⟨0, 1⟩, encodeRedirect 0 1)]

theorem rawPair_plan : repackPlan squeezing rawPair 0 = .ok packedPair := by
  have hpacked : packAligned squeezing [(0, hydrogen.2), (1, helium.2)] = .ok (packedPair.map Prod.snd) := by
    have hrows : (packAligned squeezing [(0, hydrogen.2), (1, helium.2)]).toOption = some (packedPair.map Prod.snd) := by
      decide +kernel
    exact toOption_eq_some.mp hrows
  have hold : (storedFrames rawPair 0).mapM (storedIn rawPair) = .ok [utf8 hydrogen.2, utf8 helium.2] := by
    rw [rawPair_keys, mapM_eq_ok]
    exact .cons (storedIn_eq_ok.mpr rawPair_rows.1) (.cons (storedIn_eq_ok.mpr rawPair_rows.2) .nil)
  refine repackPlan_eq_ok.mpr ⟨_, _, bind_eq_ok.mpr ⟨_, rawPair_texts, hpacked⟩, hold, ?_⟩
  rw [rawPair_keys]
  decide +kernel

theorem rawPair_migrates : migrateFrames squeezing (fun _ => none) rawPair =
    (.ok 2, { rawPair with frames := putAll (fun row => row.1.toBytes.val) Prod.snd rawPair.frames packedPair }) :=
  migrate_one rawPair_trajs rawPair_plan

def kindAt (c : ConCorpus Bits) (k : FrameKey) : Option (Bool × Bool) :=
  (rowOf c k).map fun row => (isGroup row, isRedirect row)

theorem rawPair_kinds : kindAt rawPair ⟨0, 0⟩ = some (false, false) ∧ kindAt rawPair ⟨0, 1⟩ = some (false, false) := by
  rw [kindAt, kindAt, rawPair_rows.1, rawPair_rows.2]
  decide +kernel

theorem packedPair_kinds (c : ConCorpus Bits) :
    kindAt { c with frames := putAll (fun row => row.1.toBytes.val) Prod.snd c.frames packedPair } ⟨0, 0⟩ =
        some (true, false) ∧
      kindAt { c with frames := putAll (fun row => row.1.toBytes.val) Prod.snd c.frames packedPair } ⟨0, 1⟩ =
        some (false, true) := by
  have hne : (FrameKey.mk 0 1).toBytes.val ≠ (FrameKey.mk 0 0).toBytes.val := by decide
  simp only [kindAt, rowOf, packedPair, putAll_cons, putAll_nil, get_insert, if_neg hne, if_true]
  decide

theorem tiny_migrate_canonicalizes : Canonicalizes squeezing (fun _ => none) rawPair ∧
    (kindAt rawPair ⟨0, 0⟩ = some (false, false) ∧ kindAt rawPair ⟨0, 1⟩ = some (false, false)) ∧
      (migrateFrames squeezing (fun _ => none) rawPair).1 = .ok 2 ∧
        kindAt (migrateFrames squeezing (fun _ => none) rawPair).2 ⟨0, 0⟩ = some (true, false) ∧
          kindAt (migrateFrames squeezing (fun _ => none) rawPair).2 ⟨0, 1⟩ = some (false, true) := by
  refine ⟨migrate_canonicalizes squeezing_lossless rawPair_history _, rawPair_kinds, ?_⟩
  rw [rawPair_migrates]
  exact ⟨rfl, packedPair_kinds rawPair⟩

end Tiny

end ReadconDb
