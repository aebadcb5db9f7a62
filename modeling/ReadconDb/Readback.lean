import ReadconDb.Maintain

namespace ReadconDb

open ByteString Outcome OrderedTable TwoPhase

section Framed

variable {A : Type}

def framed (t : UInt64) (idx : UInt32) : List A → List (FrameKey × A)
  | [] => []
  | a :: as => (⟨t, idx⟩, a) :: framed t (idx + 1) as

theorem framed_snd (t : UInt64) (idx : UInt32) (as : List A) :
    (framed t idx as).map Prod.snd = as := by
  induction as generalizing idx with
  | nil => rfl
  | cons a as ih => rw [framed, List.map_cons, ih]

theorem framed_length (t : UInt64) (idx : UInt32) (as : List A) :
    (framed t idx as).length = as.length := by
  rw [← List.length_map Prod.snd, framed_snd]

theorem framed_traj {t : UInt64} {idx : UInt32} {as : List A} {r : FrameKey × A}
    (h : r ∈ framed t idx as) : r.1.trajId = t := by
  induction as generalizing idx with
  | nil => cases h
  | cons a as ih =>
    rcases List.mem_cons.mp h with rfl | h
    · rfl
    · exact ih h

theorem succ_toNat {idx : UInt32} (h : idx.toNat + 1 < 2 ^ 32) : (idx + 1).toNat = idx.toNat + 1 := by
  rw [UInt32.toNat_add]
  exact Nat.mod_eq_of_lt h

theorem mem_framed {t : UInt64} {idx : UInt32} {as : List A}
    (hs : idx.toNat + as.length ≤ 2 ^ 32) {k : FrameKey} {a : A} :
    (k, a) ∈ framed t idx as ↔
      k.trajId = t ∧ idx.toNat ≤ k.frameIdx.toNat ∧ as[k.frameIdx.toNat - idx.toNat]? = some a := by
  induction as generalizing idx with
  | nil => simp [framed]
  | cons b as ih =>
    rw [List.length_cons] at hs
    rw [framed, List.mem_cons]
    have hk : k = ⟨t, idx⟩ ↔ k.trajId = t ∧ k.frameIdx.toNat = idx.toNat := by
      rw [FrameKey.ext_iff, UInt32.toNat_inj]
    have hrest : (k, a) ∈ framed t (idx + 1) as ↔
        k.trajId = t ∧ idx.toNat + 1 ≤ k.frameIdx.toNat ∧
          as[k.frameIdx.toNat - (idx.toNat + 1)]? = some a := by
      by_cases hb : idx.toNat + 1 < 2 ^ 32
      · have hsucc := succ_toNat hb
        rw [ih (by omega), hsucc]
      · have has : as = [] := List.eq_nil_of_length_eq_zero (by omega)
        simp [has, framed]
    rw [Prod.mk.injEq, hk, hrest]
    constructor
    · rintro (⟨⟨ht, hi⟩, rfl⟩ | ⟨ht, hi, ha⟩)
      · simp [ht, hi]
      · refine ⟨ht, by omega, ?_⟩
        rwa [show k.frameIdx.toNat - idx.toNat = (k.frameIdx.toNat - (idx.toNat + 1)) + 1 by omega,
          List.getElem?_cons_succ]
    · rintro ⟨ht, hi, ha⟩
      by_cases he : k.frameIdx.toNat = idx.toNat
      · rw [he, Nat.sub_self, List.getElem?_cons_zero] at ha
        exact .inl ⟨⟨ht, he⟩, (Option.some.inj ha).symm⟩
      · rw [show k.frameIdx.toNat - idx.toNat = (k.frameIdx.toNat - (idx.toNat + 1)) + 1 by omega,
          List.getElem?_cons_succ] at ha
        exact .inr ⟨ht, by omega, ha⟩

theorem framed_lt {t : UInt64} {idx : UInt32} {as : List A} (hs : idx.toNat + as.length ≤ 2 ^ 32) :
    (framed t idx as).Pairwise fun r s => r.1.frameIdx < s.1.frameIdx := by
  induction as generalizing idx with
  | nil => exact .nil
  | cons a as ih =>
    rw [List.length_cons] at hs
    by_cases hb : idx.toNat + 1 < 2 ^ 32
    · have hsucc := succ_toNat hb
      refine .cons (fun r hr => ?_) (ih (by omega))
      have hm := (mem_framed (by omega)).mp hr
      rw [UInt32.lt_iff_toNat_lt]
      show idx.toNat < r.1.frameIdx.toNat
      omega
    · have has : as = [] := List.eq_nil_of_length_eq_zero (by omega)
      simp [has, framed]

theorem framed_nodup {t : UInt64} {idx : UInt32} {as : List A}
    (hs : idx.toNat + as.length ≤ 2 ^ 32) : ((framed t idx as).map Prod.fst).Nodup := by
  rw [List.Nodup, List.pairwise_map]
  refine (framed_lt hs).imp ?_
  intro r s hlt he
  rw [he] at hlt
  exact absurd hlt (UInt32.lt_irrefl _)

end Framed

section Prepare

variable {F : Type} [Float64 F] {d : Crates F}

abbrev FrameRow (F : Type) := FrameKey × ConFrame F × String

def rowText (r : FrameRow F) : FrameKey × String := (r.1, r.2.2)

def slotText (r : FrameKey × String) : UInt32 × String := (r.1.frameIdx, r.2)

structure PutFor (d : Crates F) (r : FrameRow F) (p : PreparedIndexPuts) : Prop where
  fk : p.fk = r.1
  hash : p.hash = hashFrameBytes d (utf8 r.2.2)
  keys : p.toScreeningKeys = screeningKeys r.1 (d.fromFrame r.2.1)

structure Prepared (d : Crates F) (rs : List (FrameRow F)) (ps : List PreparedIndexPuts) : Prop where
  derived : List.Forall₂ (PutFor d) rs ps
  decodes : Decodes d ((rs.map rowText).map slotText) (ps.map PreparedIndexPuts.stored)

theorem buildIndexPuts_ok {fk : FrameKey} {frame : ConFrame F} {text : String} {compress : Bool}
    {p : PreparedIndexPuts} (h : buildIndexPuts d fk frame text compress = .ok p) :
    storeFrame d text compress = .ok p.stored ∧ PutFor d (fk, frame, text) p := by
  obtain ⟨stored, hs, h⟩ := bind_eq_ok.mp h
  rw [pure_eq_ok] at h
  subst h
  exact ⟨hs, rfl, rfl, rfl⟩

theorem prepareItems_ok {t : UInt64} {compress : Bool} {idx : UInt32}
    {items : List (Result (ConFrame F × String))} {ps : List PreparedIndexPuts}
    (h : prepareItems d t compress idx items = .ok ps) :
    ∃ xs, items = xs.map Except.ok ∧
      List.Forall₂ (fun r p => buildIndexPuts d r.1 r.2.1 r.2.2 compress = .ok p) (framed t idx xs) ps := by
  induction items generalizing idx ps with
  | nil =>
    obtain rfl := (Except.ok.inj h).symm
    exact ⟨[], rfl, .nil⟩
  | cons item items ih =>
    obtain ⟨x, hx, h⟩ := bind_eq_ok.mp h
    obtain ⟨p, hp, h⟩ := bind_eq_ok.mp h
    obtain ⟨rest, hr, h⟩ := bind_eq_ok.mp h
    rw [pure_eq_ok] at h
    subst h
    obtain ⟨xs, hxs, hf⟩ := ih hr
    exact ⟨x :: xs, by rw [hx, hxs]; rfl, .cons hp hf⟩

theorem prepared_of_build (hz : ZstdLossless d) {compress : Bool} {rs : List (FrameRow F)}
    {ps : List PreparedIndexPuts}
    (h : List.Forall₂ (fun r p => buildIndexPuts d r.1 r.2.1 r.2.2 compress = .ok p) rs ps) :
    Prepared d rs ps where
  derived := h.imp fun _ _ hb => (buildIndexPuts_ok hb).2
  decodes := by
    refine decodes_singles hz compress ?_
    rw [List.map_map, List.forall₂_map_left_iff, List.forall₂_map_right_iff]
    exact h.imp fun _ _ hb => (buildIndexPuts_ok hb).1

theorem assignStored_stored {ps : List PreparedIndexPuts} {rows : List Bytes}
    (h : ps.length = rows.length) : (assignStored ps rows).map PreparedIndexPuts.stored = rows := by
  induction ps generalizing rows with
  | nil =>
    obtain rfl := List.eq_nil_of_length_eq_zero h.symm
    rfl
  | cons p ps ih =>
    cases rows with
    | nil => cases h
    | cons row rows => rw [assignStored, List.map_cons, ih (by simpa using h)]

theorem assignStored_derived {rs : List (FrameRow F)} {ps : List PreparedIndexPuts}
    (h : List.Forall₂ (PutFor d) rs ps) (rows : List Bytes) :
    List.Forall₂ (PutFor d) rs (assignStored ps rows) := by
  induction h generalizing rows with
  | nil => exact .nil
  | cons hp hps ih =>
    cases rows with
    | nil => exact .cons hp hps
    | cons row rows => exact .cons ⟨hp.fk, hp.hash, hp.keys⟩ (ih rows)

theorem assignStored_fks (ps : List PreparedIndexPuts) (rows : List Bytes) :
    (assignStored ps rows).map PreparedIndexPuts.fk = ps.map PreparedIndexPuts.fk := by
  induction ps generalizing rows with
  | nil => cases rows <;> rfl
  | cons p ps ih =>
    cases rows with
    | nil => rfl
    | cons row rows => rw [assignStored, List.map_cons, List.map_cons, ih]

theorem loaded_texts (hz : ZstdLossless d) {compress : Bool} {rs : List (FrameRow F)}
    {ps : List PreparedIndexPuts}
    (h : List.Forall₂ (fun r p => buildIndexPuts d r.1 r.2.1 r.2.2 compress = .ok p) rs ps) :
    (ps.mapM fun p => do return (p.fk.frameIdx, ← loadFrame d p.stored) : Result (List (UInt32 × String)))
      = .ok ((rs.map rowText).map slotText) := by
  rw [mapM_eq_ok, List.map_map, List.forall₂_map_right_iff]
  refine List.Forall₂.flip (h.imp fun r p hb => ?_)
  obtain ⟨hs, hp⟩ := buildIndexPuts_ok hb
  simp only [flip]
  rw [load_store hz hs, hp.fk]
  rfl

theorem groupIf_prepared (hz : ZstdLossless d) {compress : Bool} {rs : List (FrameRow F)}
    {ps qs : List PreparedIndexPuts} (hlt : rs.Pairwise fun r s => r.1.frameIdx < s.1.frameIdx)
    (hb : List.Forall₂ (fun r p => buildIndexPuts d r.1 r.2.1 r.2.2 compress = .ok p) rs ps)
    (h : groupIf d compress ps = .ok qs) : Prepared d rs qs := by
  have hp := prepared_of_build hz hb
  simp only [groupIf, groupPrepared] at h
  split at h
  · split at h
    · exact Except.ok.inj h ▸ hp
    · rw [loaded_texts hz hb] at h
      obtain ⟨texts, ht, h⟩ := bind_eq_ok.mp h
      obtain rfl := Except.ok.inj ht
      obtain ⟨packed, hpk, h⟩ := bind_eq_ok.mp h
      rw [pure_eq_ok] at h
      subst h
      have hd := packAligned_decodes hz (by rw [List.map_map, List.pairwise_map]; exact hlt) hpk
      refine ⟨assignStored_derived hp.derived packed, ?_⟩
      have hl : ps.length = packed.length := by
        rw [← hp.derived.length_eq, ← hd.1, List.length_map, List.length_map]
      rwa [assignStored_stored hl]
  · exact Except.ok.inj h ▸ hp

theorem prepareItems_prepared (hz : ZstdLossless d) {t : UInt64} {compress : Bool} {idx : UInt32}
    {items : List (Result (ConFrame F × String))} {ps qs : List PreparedIndexPuts}
    (h : prepareItems d t compress idx items = .ok ps) (hg : groupIf d compress ps = .ok qs)
    (hs : idx.toNat + items.length ≤ 2 ^ 32) :
    ∃ xs, items = xs.map Except.ok ∧ Prepared d (framed t idx xs) qs := by
  obtain ⟨xs, hxs, hb⟩ := prepareItems_ok h
  refine ⟨xs, hxs, groupIf_prepared hz (framed_lt ?_) hb hg⟩
  rwa [hxs, List.length_map] at hs

theorem Prepared.fks {rs : List (FrameRow F)} {ps : List PreparedIndexPuts} (h : Prepared d rs ps) :
    ps.map PreparedIndexPuts.fk = rs.map Prod.fst := by
  rw [← List.forall₂_eq_eq_eq, List.forall₂_map_left_iff, List.forall₂_map_right_iff]
  exact List.Forall₂.flip (h.derived.imp fun _ _ hp => hp.fk)

end Prepare

section Texts

variable {F : Type} {d : Crates F} {c c' : ConCorpus F}

def rowOf (c : ConCorpus F) (k : FrameKey) : Option Bytes := c.frames[k.toBytes.val]?

def textAt (d : Crates F) (c : ConCorpus F) (k : FrameKey) : Option String :=
  (getFrameText d c k).toOption

theorem toOption_eq_some {A : Type} {x : Result A} {a : A} : x.toOption = some a ↔ x = .ok a := by
  cases x <;> simp [Except.toOption]

theorem storedIn_eq_ok {k : FrameKey} {b : Bytes} : storedIn c k = .ok b ↔ rowOf c k = some b := by
  rw [storedIn, rowOf]
  cases c.frames[k.toBytes.val]? <;> simp

theorem getFrameText_eq_ok {k : FrameKey} {s : String} :
    getFrameText d c k = .ok s ↔ ∃ b, rowOf c k = some b ∧
      decodeFrame d b (fun idx => storedIn c ⟨k.trajId, idx⟩) = .ok s := by
  rw [getFrameText, bind_eq_ok]
  simp only [storedIn_eq_ok]

theorem textAt_eq_some {k : FrameKey} {s : String} :
    textAt d c k = some s ↔ ∃ b, rowOf c k = some b ∧
      decodeFrame d b (fun idx => storedIn c ⟨k.trajId, idx⟩) = .ok s := by
  rw [textAt, toOption_eq_some, getFrameText_eq_ok]

theorem decodeFrame_mono {stored : Bytes} {fetch fetch' : UInt32 → Result Bytes} {s : String}
    (hf : ∀ i b, fetch i = .ok b → fetch' i = .ok b) (h : decodeFrame d stored fetch = .ok s) :
    decodeFrame d stored fetch' = .ok s := by
  rw [decodeFrame] at h ⊢
  split at h
  · next hr =>
    rw [if_pos hr]
    obtain ⟨hs, hp, h⟩ := bind_eq_ok.mp h
    obtain ⟨b, hb, h⟩ := bind_eq_ok.mp h
    exact bind_eq_ok.mpr ⟨hs, hp, bind_eq_ok.mpr ⟨b, hf _ _ hb, h⟩⟩
  · next hr =>
    rw [if_neg hr]
    exact h

theorem textAt_mono {k : FrameKey} {s : String}
    (hf : ∀ i b, rowOf c ⟨k.trajId, i⟩ = some b → rowOf c' ⟨k.trajId, i⟩ = some b)
    (h : textAt d c k = some s) : textAt d c' k = some s := by
  rw [textAt_eq_some] at h ⊢
  obtain ⟨b, hb, hs⟩ := h
  refine ⟨b, hf k.frameIdx b hb, decodeFrame_mono ?_ hs⟩
  intro i b hi
  rw [storedIn_eq_ok] at hi ⊢
  exact hf i b hi

theorem textAt_congr {k : FrameKey} (hf : ∀ i, rowOf c' ⟨k.trajId, i⟩ = rowOf c ⟨k.trajId, i⟩) :
    textAt d c' k = textAt d c k := by
  ext s
  constructor
  · exact textAt_mono fun i b hb => by rwa [← hf i]
  · exact textAt_mono fun i b hb => by rwa [hf i]

theorem textAt_of_frames_eq (hf : c'.frames = c.frames) (k : FrameKey) :
    textAt d c' k = textAt d c k :=
  textAt_congr fun i => by rw [rowOf, rowOf, hf]

theorem rowOf_of_textAt {k : FrameKey} {s : String} (h : textAt d c k = some s) :
    ∃ b, rowOf c k = some b := by
  obtain ⟨b, hb, _⟩ := textAt_eq_some.mp h
  exact ⟨b, hb⟩

theorem textAt_rows {t : UInt64} {ks : List (FrameKey × String)} {rows : List Bytes}
    (ht : ∀ k ∈ ks, k.1.trajId = t) (hd : Decodes d (ks.map slotText) rows)
    (hr : List.Forall₂ (fun k row => rowOf c k.1 = some row) ks rows) {k : FrameKey × String}
    (hk : k ∈ ks) : textAt d c k.1 = some k.2 := by
  have hkey : ∀ k ∈ ks, FrameKey.mk t k.1.frameIdx = k.1 := fun k hk => by rw [← ht k hk]
  have hfetch : List.Forall₂ (fun f row => storedIn c ⟨t, f.1⟩ = .ok row) (ks.map slotText) rows := by
    rw [List.forall₂_map_left_iff]
    refine ((List.forall₂_and_left _ _).mpr ⟨fun k hk => hkey k hk, hr⟩).imp ?_
    intro k row h
    rw [storedIn_eq_ok]
    exact h.1.symm ▸ h.2
  have htext := hd.2 (fun idx => storedIn c ⟨t, idx⟩) hfetch
  rw [List.forall₂_map_left_iff] at htext
  have hall : List.Forall₂ (fun (k : FrameKey × String) _ => textAt d c k.1 = some k.2) ks rows := by
    rw [List.forall₂_iff_get] at htext hr ⊢
    refine ⟨hr.1, fun i h₁ h₂ => ?_⟩
    have hrow := hr.2 i h₁ h₂
    have hdec := htext.2 i h₁ h₂
    rw [textAt_eq_some]
    refine ⟨_, hrow, ?_⟩
    rw [ht _ (List.get_mem ks ⟨i, h₁⟩)]
    exact hdec
  obtain ⟨i, hi⟩ := List.get_of_mem hk
  rw [List.forall₂_iff_get] at hall
  have hget := hall.2 i i.isLt (hall.1 ▸ i.isLt)
  rw [← hi]
  exact hget

end Texts

end ReadconDb
