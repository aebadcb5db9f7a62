import ReadconDb.Reindexing

set_option linter.unusedSectionVars false

namespace ReadconDb

open ByteString Outcome OrderedTable TwoPhase ReverseIndex

section Texts

variable {F : Type} [Float64 F] (d : Crates F)

def okTexts (items : List (Result (ConFrame F × String))) : List String :=
  items.filterMap fun item => item.toOption.map Prod.snd

def spanTexts (fileContents : String) : List String := okTexts (spans d fileContents)

def frameTexts (floatFormat : FloatFormat) (frames : List (ConFrame F)) : List String :=
  okTexts (frames.map (serialize d floatFormat))

def rewrittenText (units : Value F) (text : String) : Option String := do
  let fr ← parsed d text
  let fr ← (rewriteFrame d units fr).toOption
  let x ← (serialize d .roundTrip fr).toOption
  return x.2

omit [Float64 F] in
theorem okTexts_ok (xs : List (ConFrame F × String)) : okTexts (xs.map Except.ok) = xs.map Prod.snd := by
  rw [okTexts, List.filterMap_map, ← List.filterMap_eq_map]
  rfl

end Texts

section Ingest

variable {F : Type} [Float64 F] {d : Crates F} {snap live next : ConCorpus F} {L : Texts} {t : UInt64}
  {xs : List (ConFrame F × String)} {ps qs : List PreparedIndexPuts} {idx n : UInt32}

structure Sound (d : Crates F) (c : ConCorpus F) (L : Texts) : Prop where
  refines : Refines d c L
  hash : HashExact d c
  cooked : CookedExact d c

theorem sound_empty : Sound d (ConCorpus.empty F) Ledger.blank where
  refines := refines_empty
  hash :=
    { rows := fun b h => by
        constructor
        · intro hb
          simp [ConCorpus.empty] at hb
        · rintro ⟨k, s, _, hs, _⟩
          obtain ⟨row, hrow⟩ := rowOf_of_textAt hs
          simp [rowOf, ConCorpus.empty] at hrow
      linked := linked_empty }
  cooked k b hb := by simp [ConCorpus.empty] at hb

theorem indexExact_empty : IndexExact d (ConCorpus.empty F) := by
  intro i b
  constructor
  · intro hb
    simp [ConCorpus.empty] at hb
  · rintro ⟨k, s, f, hs, _⟩
    obtain ⟨row, hrow⟩ := rowOf_of_textAt hs
    simp [rowOf, ConCorpus.empty] at hrow

-- What the commits rely on: the puts of `xs`, numbered from `idx`, if the numbers do not wrap.
def Ingests (d : Crates F) (t : UInt64) (idx : UInt32) (xs : List (ConFrame F × String))
    (ps : List PreparedIndexPuts) : Prop :=
  ps.map PreparedIndexPuts.fk = (framed t idx xs).map Prod.fst ∧
    (idx.toNat + xs.length ≤ 2 ^ 32 → Prepared d (framed t idx xs) ps)

theorem groupIf_fks {compress : Bool} (h : groupIf d compress ps = .ok qs) :
    qs.map PreparedIndexPuts.fk = ps.map PreparedIndexPuts.fk := by
  simp only [groupIf, groupPrepared] at h
  split at h
  · split at h
    · rw [Except.ok.inj h]
    · obtain ⟨texts, _, h⟩ := bind_eq_ok.mp h
      obtain ⟨packed, _, h⟩ := bind_eq_ok.mp h
      rw [pure_eq_ok] at h
      rw [← h, assignStored_fks]
  · rw [Except.ok.inj h]

theorem ingests_of_prepare (hz : ZstdLossless d) {compress : Bool}
    {items : List (Result (ConFrame F × String))} (h : prepareItems d t compress idx items = .ok ps)
    (hg : groupIf d compress ps = .ok qs) : ∃ xs, items = xs.map Except.ok ∧ Ingests d t idx xs qs := by
  obtain ⟨xs, hxs, hb⟩ := prepareItems_ok h
  refine ⟨xs, hxs, ?_, fun hn => groupIf_prepared hz (framed_lt hn) hb hg⟩
  rw [groupIf_fks hg]
  exact derived_fks (hb.imp fun _ _ hp => (buildIndexPuts_ok hp).2)

theorem prepareAppendStr_ok (hz : ZstdLossless d) {fileContents : String}
    (h : prepareAppendStr d snap t fileContents = .ok ps) :
    ∃ xs, spans d fileContents = xs.map Except.ok ∧ Ingests d t 0 xs ps := by
  obtain ⟨prepared, hp, hg⟩ := bind_eq_ok.mp h
  exact ingests_of_prepare hz hp hg

theorem prepareAppendFrames_ok (hz : ZstdLossless d) {frames : List (ConFrame F)} {fmt : FloatFormat}
    (h : prepareAppendFrames d snap t frames fmt = .ok ps) :
    ∃ xs, frames.map (serialize d fmt) = xs.map Except.ok ∧ Ingests d t 0 xs ps := by
  obtain ⟨prepared, hp, hg⟩ := bind_eq_ok.mp h
  exact ingests_of_prepare hz hp hg

theorem prepareExtend_ok (hz : ZstdLossless d) {frames : List (ConFrame F)}
    {plan : Option (TrajMeta F) × List PreparedIndexPuts} (h : prepareExtend d snap t frames = .ok plan) :
    plan.1 = snap.trajMeta[t]? ∧ ∃ xs, frames.map (serialize d d.defaultFormat) = xs.map Except.ok ∧
      Ingests d t (countOf plan.1) xs plan.2 := by
  obtain ⟨prepared, hp, h⟩ := bind_eq_ok.mp h
  obtain ⟨grouped, hg, h⟩ := bind_eq_ok.mp h
  rw [pure_eq_ok] at h
  subst h
  exact ⟨rfl, ingests_of_prepare hz hp hg⟩

theorem Sound.puts (h : Sound d live L) (hp : Prepared d (framed t idx xs) ps)
    (hs : idx.toNat = L.count t) (hn : idx.toNat + xs.length < 2 ^ 32) {m : TrajMeta F}
    (hm : m.nFrames = idx + UInt32.ofNat xs.length) :
    Sound d (restamp (ps.foldl putIndexPuts live) t m) (L.extend t (xs.map Prod.snd)) where
  refines := h.refines.puts hp hs hn hm
  hash := (h.hash.puts h.refines.readable hp (fun _ => framed_traj) (framed_nodup hn.le)
    (h.refines.fresh hs hn.le)).of_view (textAt_restamp t m) rfl rfl
  cooked := (h.cooked.puts h.refines.readable hp (fun _ => framed_traj) (framed_nodup hn.le)
    (h.refines.fresh hs hn.le)).of_view (textAt_restamp t m) rfl

theorem IndexExact.ingest (hi : IndexExact d live) (h : Sound d live L)
    (hp : Prepared d (framed t idx xs) ps) (hx : ∀ x ∈ xs, ReadsAs d x)
    (hs : idx.toNat = L.count t) (hn : idx.toNat + xs.length < 2 ^ 32) (m : TrajMeta F) :
    IndexExact d (restamp (ps.foldl putIndexPuts live) t m) := by
  have hpar : ∀ r ∈ framed t idx xs, ReadsAs d r.2 := fun r hr => by
    refine hx r.2 ?_
    rw [← framed_snd t idx xs]
    exact List.mem_map_of_mem hr
  exact (hi.puts h.refines.readable hp hpar (fun _ => framed_traj) (framed_nodup hn.le)
    (h.refines.fresh hs hn.le)).of_view (textAt_restamp t m) rfl

theorem Ingests.framesAfter (hg : Ingests d t idx xs ps) :
    ReadconDb.framesAfter ps idx = idx + UInt32.ofNat xs.length := framesAfter_prepared hg.1

theorem Sound.commitPrepared (h : Sound d live L) (hg : Ingests d t 0 xs ps) {source : String}
    (hn : xs.length < 2 ^ 32) (hc : commitPrepared d t source false ps live = .ok (n, next)) :
    L t = none ∧ n = UInt32.ofNat xs.length ∧ Sound d next (L.write t (xs.map Prod.snd)) := by
  obtain ⟨hnone, hr, m, hm, rfl⟩ := commitPrepared_ok hc
  have hL := (h.refines.meta_none_iff t).mp hnone
  have hcount : L.count t = 0 := by simp [Ledger.count, hL]
  rw [hg.framesAfter, UInt32.zero_add] at hr
  refine ⟨hL, hr, ?_⟩
  rw [← Ledger.extend_blank_at hL]
  exact h.puts (hg.2 (by simpa using hn.le)) (by simp [hcount]) (by simpa using hn)
    (by rw [hm, hr, UInt32.zero_add])

theorem Sound.commitExtend (h : Sound d live L) {prior : Option (TrajMeta F)}
    (hg : Ingests d t (countOf prior) xs ps) {hint : String} (hn : L.count t + xs.length < 2 ^ 32)
    (hc : commitExtend d t hint prior ps live = .ok (n, next)) :
    n = UInt32.ofNat (L.count t + xs.length) ∧ Sound d next (L.extend t (xs.map Prod.snd)) := by
  obtain ⟨hsame, hr, m, hm, rfl⟩ := commitExtend_ok hc
  have hcount : (countOf prior).toNat = L.count t := by rw [← hsame, h.refines.countOf]
  rw [hg.framesAfter] at hr
  rw [← hcount] at hn
  refine ⟨?_, h.puts (hg.2 hn.le) hcount hn (by rw [hm, hr])⟩
  rw [hr, UInt32.ofNat_add, ← hcount, UInt32.ofNat_toNat]

theorem IndexExact.commitPrepared (hi : IndexExact d live) (h : Sound d live L) (hg : Ingests d t 0 xs ps)
    {source : String} (hx : ∀ x ∈ xs, ReadsAs d x) (hn : xs.length < 2 ^ 32)
    (hc : commitPrepared d t source false ps live = .ok (n, next)) : IndexExact d next := by
  obtain ⟨hnone, hr, m, hm, rfl⟩ := commitPrepared_ok hc
  have hcount : L.count t = 0 := by simp [Ledger.count, (h.refines.meta_none_iff t).mp hnone]
  exact hi.ingest h (hg.2 (by simpa using hn.le)) hx (by simp [hcount]) (by simpa using hn) m

theorem IndexExact.commitExtend (hi : IndexExact d live) (h : Sound d live L) {prior : Option (TrajMeta F)}
    (hg : Ingests d t (countOf prior) xs ps) {hint : String} (hx : ∀ x ∈ xs, ReadsAs d x)
    (hn : L.count t + xs.length < 2 ^ 32)
    (hc : commitExtend d t hint prior ps live = .ok (n, next)) : IndexExact d next := by
  obtain ⟨hsame, hr, m, hm, rfl⟩ := commitExtend_ok hc
  have hcount : (countOf prior).toNat = L.count t := by rw [← hsame, h.refines.countOf]
  rw [← hcount] at hn
  exact hi.ingest h (hg.2 hn.le) hx hcount hn m

end Ingest

section Spans

variable {F : Type} [Float64 F] {d : Crates F} {xs : List (ConFrame F × String)}

def SpansReparse (d : Crates F) : Prop :=
  ∀ {text s : String} {f : ConFrame F}, .ok (f, s) ∈ d.conFrames text → parsed d s = some f

theorem spans_parse (hs : SpansReparse d) {fileContents : String}
    (h : spans d fileContents = xs.map Except.ok) : ∀ x ∈ xs, ReadsAs d x := by
  intro x hx
  have hm : Except.ok x ∈ spans d fileContents := h ▸ List.mem_map_of_mem hx
  obtain ⟨item, hi, he⟩ := List.mem_map.mp hm
  cases item with
  | error e => cases he
  | ok y => exact .of_parsed (Except.ok.inj he ▸ hs hi)

theorem serialized_reads {frames : List (ConFrame F)} {fmt : FloatFormat}
    (hr : ∀ f ∈ frames, ∀ x, serialize d fmt f = .ok x → ReadsAs d x)
    (h : frames.map (serialize d fmt) = xs.map Except.ok) : ∀ x ∈ xs, ReadsAs d x := by
  intro x hx
  have hm : Except.ok x ∈ frames.map (serialize d fmt) := h ▸ List.mem_map_of_mem hx
  obtain ⟨f, hf, he⟩ := List.mem_map.mp hm
  exact hr f hf x he

end Spans

end ReadconDb
