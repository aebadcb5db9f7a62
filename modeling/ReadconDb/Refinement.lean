import ReadconDb.Coherence
import ReadconDb.Library.Ledger

set_option linter.unusedSectionVars false

namespace ReadconDb

open ByteString Outcome OrderedTable TwoPhase ReverseIndex

abbrev Texts := Ledger UInt64 String

section Refinement

variable {F : Type} [Float64 F] {d : Crates F} {c : ConCorpus F} {L : Texts}

structure Refines (d : Crates F) (c : ConCorpus F) (L : Texts) : Prop where
  readable : Readable d c
  counts : ∀ t, (c.trajMeta[t]?).map TrajMeta.nFrames = (L t).map fun xs => UInt32.ofNat xs.length
  small : ∀ t, L.count t < 2 ^ 32
  text : ∀ k, textAt d c k = L.entry k.trajId k.frameIdx.toNat

theorem refines_empty : Refines d (ConCorpus.empty F) Ledger.blank where
  readable := ⟨fun b hb => by simp [ConCorpus.empty] at hb⟩
  counts t := by simp [ConCorpus.empty, Ledger.blank]
  small t := by simp [Ledger.count, Ledger.blank]
  text k := by
    rw [Ledger.entry, Ledger.blank, Option.bind_none, Option.eq_none_iff_forall_ne_some]
    intro s hs
    obtain ⟨b, hb⟩ := rowOf_of_textAt hs
    simp [rowOf, ConCorpus.empty] at hb

theorem Refines.countOf (h : Refines d c L) (t : UInt64) :
    (ReadconDb.countOf c.trajMeta[t]?).toNat = L.count t := by
  have hs := h.small t
  rw [ReadconDb.countOf, h.counts, Ledger.count] at *
  cases hL : L t with
  | none => simp
  | some xs =>
    rw [hL] at hs
    simp only [Option.map_some, Option.getD_some, UInt32.toNat_ofNat'] at hs ⊢
    exact Nat.mod_eq_of_lt hs

theorem Refines.row_none (h : Refines d c L) {k : FrameKey}
    (hk : L.count k.trajId ≤ k.frameIdx.toNat) : rowOf c k = none := by
  rw [Option.eq_none_iff_forall_ne_some]
  intro b hb
  obtain ⟨s, hs⟩ := h.readable.text_of_row hb
  rw [h.text, Ledger.entry_none_of_le hk] at hs
  cases hs

theorem Refines.meta_none_iff (h : Refines d c L) (t : UInt64) :
    c.trajMeta[t]? = none ↔ L t = none := by
  have ht := h.counts t
  cases hm : c.trajMeta[t]? <;> cases hL : L t <;> simp [hm, hL] at ht ⊢

theorem framesAfter_prepared {A : Type} {t : UInt64} {idx : UInt32} {as : List A}
    {ps : List PreparedIndexPuts} (h : ps.map PreparedIndexPuts.fk = (framed t idx as).map Prod.fst) :
    framesAfter ps idx = idx + UInt32.ofNat as.length := by
  induction as generalizing idx ps with
  | nil =>
    rw [framed, List.map_nil, List.map_eq_nil_iff] at h
    simp [h, framesAfter]
  | cons a as ih =>
    cases ps with
    | nil => simp [framed] at h
    | cons p ps =>
      rw [framed, List.map_cons, List.map_cons, List.cons.injEq] at h
      have hi := ih h.2
      have hs : idx + UInt32.ofNat (a :: as).length = idx + 1 + UInt32.ofNat as.length := by
        rw [List.length_cons, UInt32.ofNat_add, UInt32.add_assoc, UInt32.add_comm 1]
        rfl
      cases ps with
      | nil =>
        have has : as = [] := by
          cases as with
          | nil => rfl
          | cons b bs => simp [framed] at h
        simp [framesAfter, h.1, has]
      | cons q qs =>
        rw [hs, ← hi, framesAfter, framesAfter, List.getLast?_cons_cons]
        cases hl : (q :: qs).getLast? with
        | none => cases List.getLast?_eq_none_iff.mp hl
        | some last => rfl

def restamp (c : ConCorpus F) (t : UInt64) (m : TrajMeta F) : ConCorpus F :=
  { c with trajMeta := c.trajMeta.insert t m }

theorem textAt_restamp (t : UInt64) (m : TrajMeta F) (k : FrameKey) :
    textAt d (restamp c t m) k = textAt d c k := textAt_of_frames_eq rfl k

theorem readable_of_frames_eq {c' : ConCorpus F} (hf : c'.frames = c.frames) (h : Readable d c) :
    Readable d c' where
  decodes b hb := by
    rw [hf] at hb
    obtain ⟨k, s, rfl, hs⟩ := h.decodes b hb
    exact ⟨k, s, rfl, by rw [textAt_of_frames_eq hf, hs]⟩

theorem readable_restamp (h : Readable d c) (t : UInt64) (m : TrajMeta F) :
    Readable d (restamp c t m) :=
  readable_of_frames_eq (show (restamp c t m).frames = c.frames from rfl) h

theorem HashExact.of_view {c' : ConCorpus F} (h : HashExact d c)
    (hv : ∀ k, textAt d c' k = textAt d c k) (hb : c'.hashByFrame = c.hashByFrame)
    (hp : c'.frameByHash = c.frameByHash) : HashExact d c' where
  rows b v := by
    rw [hb, h.rows]
    simp only [hv]
  linked := by
    rw [hb, hp]
    exact h.linked

theorem IndexExact.of_view {c' : ConCorpus F} (h : IndexExact d c)
    (hv : ∀ k, textAt d c' k = textAt d c k) (hi : c'.idx = c.idx) : IndexExact d c' := by
  intro i b
  rw [hi, h i b]
  simp only [hv]

theorem CookedExact.of_view {c' : ConCorpus F} (h : CookedExact d c)
    (hv : ∀ k, textAt d c' k = textAt d c k) (hs : c'.framesSoa = c.framesSoa) : CookedExact d c' := by
  intro k b hb
  rw [hs] at hb
  obtain ⟨s, f, ht, hrest⟩ := h k b hb
  exact ⟨s, f, by rw [hv, ht], hrest⟩

theorem Refines.of_view {c' : ConCorpus F} (h : Refines d c L) (hr : Readable d c')
    (hv : ∀ k, textAt d c' k = textAt d c k) (hm : c'.trajMeta = c.trajMeta) : Refines d c' L where
  readable := hr
  counts t := by rw [hm, h.counts]
  small := h.small
  text k := by rw [hv, h.text]

variable {xs : List (ConFrame F × String)} {ps : List PreparedIndexPuts} {t : UInt64} {idx : UInt32}

theorem Refines.fresh (h : Refines d c L) (hs : idx.toNat = L.count t)
    (hn : idx.toNat + xs.length ≤ 2 ^ 32) : ∀ r ∈ framed t idx xs, rowOf c r.1 = none := by
  intro r hr
  obtain ⟨ht, hi, _⟩ := (mem_framed hn).mp hr
  exact h.row_none (by rw [ht]; omega)

theorem Refines.puts (h : Refines d c L) (hp : Prepared d (framed t idx xs) ps)
    (hs : idx.toNat = L.count t) (hn : idx.toNat + xs.length < 2 ^ 32) {m : TrajMeta F}
    (hm : m.nFrames = idx + UInt32.ofNat xs.length) :
    Refines d (restamp (ps.foldl putIndexPuts c) t m) (L.extend t (xs.map Prod.snd)) where
  readable := readable_restamp
    (readable_puts h.readable hp (fun _ => framed_traj) (framed_nodup hn.le) (h.fresh hs hn.le)) t m
  counts u := by
    simp only [restamp, puts_trajMeta]
    rw [get_insert]
    split
    · next hu =>
      subst hu
      rw [Ledger.extend, Ledger.write_self, Option.map_some, Option.map_some, hm, List.length_append,
        List.length_map, UInt32.ofNat_add]
      have hidx : idx = UInt32.ofNat (L.count t) := by rw [← hs, UInt32.ofNat_toNat]
      rw [hidx, Ledger.count]
    · next hu =>
      rw [h.counts, Ledger.extend, Ledger.write_other _ _ (Ne.symm hu)]
  small u := by
    by_cases hu : u = t
    · subst hu
      rw [Ledger.count_extend_self, List.length_map]
      omega
    · rw [Ledger.count, Ledger.extend, Ledger.write_other _ _ hu]
      exact h.small u
  text k := by
    ext s
    rw [textAt_restamp, textAt_puts h.readable hp (fun _ => framed_traj) (framed_nodup hn.le)
      (h.fresh hs hn.le), h.text]
    by_cases hk : k.trajId = t
    · rw [hk, Ledger.entry_extend_self, ← hs, List.getElem?_map]
      refine or_congr_right ?_
      constructor
      · rintro ⟨r, hr, he⟩
        rw [rowText, Prod.mk.injEq] at he
        obtain ⟨_, hi, hx⟩ := (mem_framed hn.le).mp hr
        rw [he.1] at hi hx
        exact ⟨hi, by rw [hx, Option.map_some, he.2]⟩
      · rintro ⟨hi, hmap⟩
        obtain ⟨x, hx, rfl⟩ := Option.map_eq_some_iff.mp hmap
        exact ⟨(k, x), (mem_framed hn.le).mpr ⟨hk, hi, hx⟩, rfl⟩
    · rw [Ledger.extend, Ledger.entry_write_other _ _ hk]
      refine or_iff_left ?_
      rintro ⟨r, hr, he⟩
      rw [rowText, Prod.mk.injEq] at he
      exact hk (he.1 ▸ framed_traj hr)

theorem commitPrepared_ok {source : String} {n : UInt32} {next : ConCorpus F}
    (h : commitPrepared d t source false ps c = .ok (n, next)) :
    c.trajMeta[t]? = none ∧ n = framesAfter ps 0 ∧
      ∃ m, m.nFrames = n ∧ next = restamp (ps.foldl putIndexPuts c) t m := by
  cases hm : c.trajMeta[t]? with
  | some m => simp [commitPrepared, hm] at h
  | none =>
    simp only [commitPrepared, hm, Except.ok.injEq, Prod.mk.injEq] at h
    obtain ⟨rfl, rfl⟩ := h
    exact ⟨rfl, rfl, _, rfl, rfl⟩

theorem commitExtend_ok {hint : String} {prior : Option (TrajMeta F)} {n : UInt32}
    {next : ConCorpus F} (h : commitExtend d t hint prior ps c = .ok (n, next)) :
    ReadconDb.countOf c.trajMeta[t]? = ReadconDb.countOf prior ∧
      n = framesAfter ps (ReadconDb.countOf prior) ∧
      ∃ m, m.nFrames = n ∧ next = restamp (ps.foldl putIndexPuts c) t m := by
  simp only [commitExtend] at h
  split at h
  · cases h
  · next hno =>
    simp only [Except.ok.injEq, Prod.mk.injEq] at h
    obtain ⟨rfl, rfl⟩ := h
    exact ⟨not_not.mp hno, rfl, _, rfl, rfl⟩

end Refinement

end ReadconDb
