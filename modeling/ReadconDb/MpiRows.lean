import ReadconDb.MpiEngine

set_option linter.unusedSectionVars false

namespace ReadconDb

open ByteString Outcome Blocks Slicing Binning

section Prepared

variable {F : Type} [Float64 F] {d : Crates F} {files : Files}

structure PreparedOf (d : Crates F) (files : Files) (size : Nat) (route : Route) (input : List (UInt64 × String))
    (x : Exchange) : Prop where
  distinct : (input.map Prod.fst).Nodup
  scanned : scanFiles d files input = .ok x.tabs
  sized : x.size = size
  envs : x.envOf = envsOf size route x.tabs
  parsed : ∀ rank l, x.locals[rank]? = some l → parseLocal d files x.tabs (blockRange x.n size rank) = lift (.ok l)
  winners : ∃ allH, gatherHashes x.n size x.locals = lift (.ok allH) ∧
    x.firstOf = firstFrom [] 0 (winnerKeys x.envOf allH x.n)

theorem prepare_parts {size : Nat} {route : Route} {input : List (UInt64 × String)} {x : Exchange}
    (h : prepare d files size route input = lift (.ok x)) : PreparedOf d files size route input x := by
  rw [prepare] at h
  split at h
  · cases h
  · next hdup =>
    split at h
    · cases h
    · next tabs htabs =>
      obtain ⟨counts, _, h⟩ := checked_bind_ok h
      obtain ⟨locals, hlocals, h⟩ := checked_bind_ok h
      obtain ⟨allH, hall, h⟩ := checked_bind_ok h
      cases h
      have hparsed := together_ok hlocals
      exact {
        distinct := not_not.mp hdup
        scanned := htabs
        sized := rfl
        envs := rfl
        parsed := by
          intro rank l hl
          have hlt : rank < size := by
            have hlen := congrArg List.length hparsed
            rw [List.length_map, List.length_range, List.length_map] at hlen
            rw [hlen]
            exact (List.getElem?_eq_some_iff.mp hl).1
          have hget := congrArg (fun ys => ys[rank]?) hparsed
          simp only [List.getElem?_map, List.getElem?_range hlt, hl, Option.map_some] at hget
          obtain ⟨l', hparse, halloc⟩ := checked_bind_ok (Option.some.inj hget)
          rw [allocated] at halloc
          split at halloc
          · cases halloc
            exact hparse
          · cases halloc
        winners := ⟨allH, alike_ok hall, rfl⟩ }

end Prepared

section Spans

theorem InOrder.spans {g : Nat} {tabs : List FileTab} (h : InOrder g tabs) :
    (tabs.flatMap fun t => List.range' t.g0 t.n) = List.range' g (framesIn tabs) := by
  induction h with
  | nil g => rfl
  | @cons g t rest hg _ ih =>
    subst hg
    have hn : framesIn (t :: rest) = t.n + framesIn rest := by rw [framesIn, List.map_cons, List.sum_cons, framesIn]
    rw [List.flatMap_cons, ih, hn]
    exact List.range'_append_1

theorem InOrder.from_le {g : Nat} {tabs : List FileTab} (h : InOrder g tabs) : ∀ t ∈ tabs, g ≤ t.g0 := by
  induction h with
  | nil g => simp
  | @cons g t rest hg _ ih =>
    intro t' ht'
    rcases List.mem_cons.mp ht' with rfl | ht'
    · exact hg.ge
    · exact (Nat.le_add_right _ _).trans (ih t' ht')

theorem InOrder.one_file {g : Nat} {tabs : List FileTab} (h : InOrder g tabs) {t t' : FileTab} (ht : t ∈ tabs)
    (ht' : t' ∈ tabs) {i : Nat} (hi : t.g0 ≤ i ∧ i < t.g0 + t.n) (hi' : t'.g0 ≤ i ∧ i < t'.g0 + t'.n) : t = t' := by
  induction h with
  | nil g => simp at ht
  | @cons g first rest hg hrest ih =>
    have hlater := hrest.from_le
    rcases List.mem_cons.mp ht with rfl | hin
    · rcases List.mem_cons.mp ht' with rfl | hin'
      · rfl
      · have hle := hlater t' hin'
        omega
    · rcases List.mem_cons.mp ht' with rfl | hin'
      · have hle := hlater t hin
        omega
      · exact ih hin hin'

theorem filter_spans {p : Nat → Bool} {q : FileTab → Bool} {tabs : List FileTab}
    (h : ∀ t ∈ tabs, ∀ g ∈ List.range' t.g0 t.n, p g = q t) :
    (tabs.flatMap fun t => List.range' t.g0 t.n).filter p = (tabs.filter q).flatMap fun t => List.range' t.g0 t.n := by
  induction tabs with
  | nil => rfl
  | cons t tabs ih =>
    have hmine := h t List.mem_cons_self
    rw [List.flatMap_cons, List.filter_append, ih fun t' ht' => h t' (List.mem_cons_of_mem _ ht')]
    cases hq : q t with
    | true =>
      rw [List.filter_cons_of_pos hq, List.flatMap_cons, List.filter_eq_self.mpr fun g hg => (hmine g hg).trans hq]
    | false =>
      rw [List.filter_cons_of_neg (by simp [hq]), List.filter_eq_nil_iff.mpr fun g hg => by simp [hmine g hg, hq],
        List.nil_append]

end Spans

section Rows

variable {F : Type} [Float64 F] {d : Crates F} {files : Files} {size : Nat} {route : Route}
  {input : List (UInt64 × String)} {x : Exchange}

theorem Exchange.Sound.tabAt_eq (hx : x.Sound) {t : FileTab} (ht : t ∈ x.tabs) {g : Nat} (hlo : t.g0 ≤ g)
    (hhi : g < t.g0 + t.n) (hg : g < x.n) : x.tabAt g = t := by
  obtain ⟨hmem, hlo', hhi'⟩ := hx.tabAt_spec hg
  exact hx.order.one_file hmem ht ⟨hlo', hhi'⟩ ⟨hlo, hhi⟩

theorem Exchange.Sound.in_range (hx : x.Sound) {t : FileTab} (ht : t ∈ x.tabs) {g : Nat} (hg : g ∈ List.range' t.g0 t.n) :
    t.g0 ≤ g ∧ g < t.g0 + t.n ∧ g < x.n := by
  have hall : g ∈ x.tabs.flatMap fun t => List.range' t.g0 t.n := List.mem_flatMap.mpr ⟨t, ht, hg⟩
  rw [hx.order.spans, List.mem_range'_1] at hall
  rw [List.mem_range'_1] at hg
  exact ⟨hg.1, hg.2, by rw [Exchange.n]; omega⟩

theorem PreparedOf.routed (h : PreparedOf d files size route input x) (hx : x.Sound) {t : FileTab} (ht : t ∈ x.tabs)
    {g : Nat} (hg : g ∈ List.range' t.g0 t.n) : (x.owner g, x.env g) = route.to size t.trajId := by
  have henvs : x.envOf = (List.range x.n).map fun g => route.to size (x.tabAt g).trajId := by
    rw [h.envs, List.range_eq_range', Exchange.n, ← hx.order.spans, List.map_flatMap, envsOf]
    refine List.flatMap_congr fun t' ht' => ?_
    refine (List.eq_replicate_iff.mpr ⟨?_, ?_⟩).symm
    · rw [List.length_map, List.length_range']
    · intro r hr
      obtain ⟨g', hg', rfl⟩ := List.mem_map.mp hr
      obtain ⟨hlo, hhi, hn⟩ := hx.in_range ht' hg'
      rw [hx.tabAt_eq ht' hlo hhi hn]
  obtain ⟨hlo, hhi, hn⟩ := hx.in_range ht hg
  have hat : (x.envOf[g]?).getD (0, 0) = route.to size t.trajId := by
    rw [henvs, List.getElem?_map, List.getElem?_range hn, Option.map_some, Option.getD_some, hx.tabAt_eq ht hlo hhi hn]
  rw [Exchange.owner, Exchange.env, hat]

structure FrameMade (d : Crates F) (x : Exchange) (t : FileTab) (text : String) (g : Nat) : Prop where
  made : ∃ frame blob hash, (d.conFrames text)[g - t.g0]? = some (.ok (frame, blob)) ∧
    encodeFrameKeys d ⟨t.trajId, UInt32.ofNat (g - t.g0)⟩ frame blob = .ok (hash, x.encOf g, x.storedOf g) ∧
    x.hashOf g = hash.val

theorem PreparedOf.scans (h : PreparedOf d files size route input x)
    (hread : ∀ f ∈ input, ∃ text, Ingestible d files f.2 text) {t : FileTab} (ht : t ∈ x.tabs) :
    ∃ text, Scanned d files t text := scanFiles_scanned hread h.scanned t ht

theorem PreparedOf.rows (h : PreparedOf d files size route input x) (hx : x.Sound)
    (hread : ∀ f ∈ input, ∃ text, Ingestible d files f.2 text) {t : FileTab} (ht : t ∈ x.tabs) {text : String}
    (htext : Scanned d files t text) {g : Nat} (hg : g ∈ List.range' t.g0 t.n) : FrameMade d x t text g := by
  have hscan : ∀ t ∈ x.tabs, ∃ text, Scanned d files t text := fun t ht => h.scans hread ht
  have hparsed := h.parsed
  rw [← h.sized] at hparsed
  obtain ⟨rows, hrows, hh, he, hs⟩ := locals_rows hx.order hscan hx.pos hx.ranks hparsed
  obtain ⟨hlo, hhi, hn⟩ := hx.in_range ht hg
  have hlen : rows.length = framesIn x.tabs := by rw [← hrows.length_eq, List.length_range]
  have hlt : g < rows.length := by rwa [hlen]
  obtain ⟨t', ht', text', hlo', hhi', htext', frame, blob, hframe, hrow⟩ :=
    (List.forall₂_iff_get.mp hrows).2 g (by rwa [List.length_range]) hlt
  simp only [List.get_eq_getElem, List.getElem_range] at hlo' hhi' hframe hrow
  obtain rfl := hx.order.one_file ht' ht ⟨hlo', hhi'⟩ ⟨hlo, hhi⟩
  obtain rfl : text' = text := Except.ok.inj (htext'.ingestible.read.symm.trans htext.ingestible.read)
  have hget := List.getElem?_eq_getElem hlt
  have henc : x.encOf g = rows[g].2.1 := by rw [Exchange.encOf, he, List.getElem?_map, hget]; rfl
  have hstored : x.storedOf g = rows[g].2.2 := by rw [Exchange.storedOf, hs, List.getElem?_map, hget]; rfl
  have hhash : x.hashOf g = rows[g].1.val := by rw [Exchange.hashOf, hh, List.getElem?_map, hget]; rfl
  exact ⟨frame, blob, rows[g].1, hframe, by rw [henc, hstored, hrow], hhash⟩

end Rows

section Winners

variable {F : Type} [Float64 F] {d : Crates F} {files : Files} {size : Nat} {route : Route}
  {input : List (UInt64 × String)} {x : Exchange}

theorem gathered (hx : x.Sound) {allH : Bytes} (h : gatherHashes x.n x.size x.locals = lift (.ok allH)) :
    allH = x.hashesOf (List.range x.n) := by
  rw [gatherHashes] at h
  split at h
  · next hn =>
    cases h
    rw [hn]
    rfl
  · split at h
    · cases h
    · rw [gatherFrom_ok hx (Nat.zero_le _), Nat.sub_zero, ← List.range_eq_range'] at h
      exact (Except.ok.inj (lift_inj h)).symm

theorem hash_piece (hx : x.Sound) {g : Nat} (hg : g < x.n) :
    piece (x.hashesOf (List.range x.n)) (g * 16) (g * 16 + 16) = x.hashOf g := by
  have hat : ((List.range x.n).map x.hashOf)[g]? = some (x.hashOf g) := by
    rw [List.getElem?_map, List.getElem?_range hg, Option.map_some]
  have hsum : ((((List.range x.n).map x.hashOf).map List.length).take g).sum = g * 16 := by
    have hlens : ((List.range x.n).map x.hashOf).map List.length = List.replicate x.n 16 := by
      refine List.eq_replicate_iff.mpr ⟨by simp, fun n hn => ?_⟩
      obtain ⟨_, hb, rfl⟩ := List.mem_map.mp hn
      obtain ⟨i, hi, rfl⟩ := List.mem_map.mp hb
      exact hx.hash_length (List.mem_range.mp hi)
    rw [hlens, List.take_replicate, min_eq_left hg.le, List.sum_replicate, smul_eq_mul]
  have hpiece := piece_flatten hat
  rw [hsum, hx.hash_length hg, ← List.flatMap_def] at hpiece
  exact hpiece

theorem PreparedOf.winner_hash (h : PreparedOf d files size route input x) (hx : x.Sound) {g : Nat} (hg : g < x.n) :
    x.hashOf (x.winner g) = x.hashOf g := by
  obtain ⟨allH, hall, hfirst⟩ := h.winners
  rw [← h.sized] at hall
  obtain rfl := gathered hx hall
  have hwin : x.winner g = firstAt (winnerKeys x.envOf (x.hashesOf (List.range x.n)) x.n) g := by
    rw [Exchange.winner, hfirst, firstAt]
  have hpiece := (@firstAt_winnerKeys x.envOf (x.hashesOf (List.range x.n)) x.n g hg).2
  rw [← hwin, hash_piece hx hg, hash_piece hx ((hx.winner_le g hg).trans_lt hg)] at hpiece
  exact hpiece

def InputText (d : Crates F) (files : Files) (input : List (UInt64 × String)) (blob : String) : Prop :=
  ∃ f ∈ input, ∃ text frame, readToString files f.2 = .ok text ∧ .ok (frame, blob) ∈ d.conFrames text

-- Two frames of the input with one digest are one text.
def NoCollision (d : Crates F) (files : Files) (input : List (UInt64 × String)) : Prop :=
  ∀ blob blob', InputText d files input blob → InputText d files input blob' →
    hashFrameBytes d (utf8 blob) = hashFrameBytes d (utf8 blob') → blob = blob'

theorem PreparedOf.named (h : PreparedOf d files size route input x) {t : FileTab} (ht : t ∈ x.tabs) :
    (t.trajId, t.path) ∈ input := by
  obtain ⟨_, hinput, _⟩ := scanFiles_inOrder d files h.scanned
  rw [← hinput]
  exact List.mem_map_of_mem (f := fun t : FileTab => (t.trajId, t.path)) ht

-- The value stored for a frame is made of its text alone.
structure StoredText (d : Crates F) (files : Files) (input : List (UInt64 × String)) (x : Exchange) (g : Nat)
    (blob : String) : Prop where
  input : InputText d files input blob
  stored : storeFrame d blob true = .ok (x.storedOf g)
  hash : x.hashOf g = (hashFrameBytes d (utf8 blob)).val

theorem buildIndexPuts_parts {fk : FrameKey} {frame : ConFrame F} {text : String} {p : PreparedIndexPuts}
    (h : buildIndexPuts d fk frame text true = .ok p) :
    p.fk = fk ∧ storeFrame d text true = .ok p.stored ∧ p.hash = hashFrameBytes d (utf8 text) := by
  obtain ⟨stored, hstored, h⟩ := bind_eq_ok.mp h
  obtain rfl := pure_eq_ok.mp h
  exact ⟨rfl, hstored, rfl⟩

theorem PreparedOf.stored_text (h : PreparedOf d files size route input x) (hx : x.Sound)
    (hread : ∀ f ∈ input, ∃ text, Ingestible d files f.2 text) {g : Nat} (hg : g < x.n) :
    ∃ blob, StoredText d files input x g blob := by
  obtain ⟨ht, hlo, hhi⟩ := hx.tabAt_spec hg
  obtain ⟨text, htext⟩ := h.scans hread ht
  obtain ⟨frame, blob, hash, hframe, hrow, hhash⟩ := (h.rows hx hread ht htext (List.mem_range'_1.mpr ⟨hlo, hhi⟩)).made
  obtain ⟨p, hp, _, rfl, hstored⟩ := (mpi_records_exact d).encoded _ _ _ _ _ _ hrow
  obtain ⟨_, hstore, hdigest⟩ := buildIndexPuts_parts hp
  exact ⟨blob, ⟨_, h.named ht, text, frame, htext.ingestible.read, List.mem_of_getElem? hframe⟩, hstored ▸ hstore,
    hdigest ▸ hhash⟩

theorem PreparedOf.payload_stored (h : PreparedOf d files size route input x) (hx : x.Sound)
    (hread : ∀ f ∈ input, ∃ text, Ingestible d files f.2 text) (hnc : NoCollision d files input) (b0 : Nat) {g : Nat}
    (hg : g < x.n) : x.payloadOf b0 g = x.storedOf g := by
  rw [Exchange.payloadOf]
  split
  · rfl
  · obtain ⟨blob, hblob⟩ := h.stored_text hx hread hg
    obtain ⟨blob', hblob'⟩ := h.stored_text hx hread ((hx.winner_le g hg).trans_lt hg)
    have hash := h.winner_hash hx hg
    rw [hblob.hash, hblob'.hash] at hash
    obtain rfl := hnc _ _ hblob'.input hblob.input (Subtype.val_injective hash)
    exact Except.ok.inj (hblob'.stored.symm.trans hblob.stored)

end Winners

section Serial

variable {F : Type} [Float64 F] {d : Crates F} {files : Files} {size : Nat} {route : Route}
  {input : List (UInt64 × String)} {x : Exchange}

structure Sends (d : Crates F) (p : PreparedIndexPuts) (kf : FrameKey × Sent) : Prop where
  key : p.fk = kf.1
  keys : encodeKeys p = .ok kf.2.enc
  stored : p.stored = kf.2.stored
  packs : storeFrame d kf.2.text true = .ok kf.2.stored

theorem prepareItems_sends {id : UInt64} {items : List (Result (ConFrame F × String))} {idx : UInt32} {fs : List Sent}
    (h : List.Forall₂ (fun item kf => ∃ frame hash, item = .ok (frame, kf.2.text) ∧
      encodeFrameKeys d kf.1 frame kf.2.text = .ok (hash, kf.2.enc, kf.2.stored)) items (framed id idx fs)) :
    ∃ ps, prepareItems d id true idx items = .ok ps ∧ List.Forall₂ (Sends d) ps (framed id idx fs) := by
  induction fs generalizing items idx with
  | nil =>
    rw [framed] at h
    cases h
    exact ⟨[], rfl, .nil⟩
  | cons f fs ih =>
    rw [framed] at h
    cases h with
    | @cons item _ items _ hitem hitems =>
      obtain ⟨frame, hash, rfl, hrow⟩ := hitem
      obtain ⟨ps, hps, hsends⟩ := ih hitems
      obtain ⟨p, hp, henc, _, hstored⟩ := (mpi_records_exact d).encoded _ _ _ _ _ _ hrow
      obtain ⟨hfk, hstore, _⟩ := buildIndexPuts_parts hp
      refine ⟨p :: ps, ?_, .cons ⟨hfk, henc, hstored, hstored ▸ hstore⟩ hsends⟩
      have hp' : buildIndexPuts d ⟨id, idx⟩ frame f.text true = .ok p := hp
      rw [prepareItems, read_ok_bind]
      simp only
      rw [hp', read_ok_bind, hps]
      rfl

def blobAt (d : Crates F) (text : String) (i : Nat) : String :=
  match (d.conFrames text)[i]? with
  | some (.ok (_, blob)) => blob
  | _ => ""

def fileText (files : Files) (path : String) : String :=
  match readToString files path with
  | .ok text => text
  | .error _ => ""

def Exchange.sents (x : Exchange) (d : Crates F) (files : Files) (t : FileTab) : List Sent :=
  (List.range t.n).map fun i => ⟨x.encOf (t.g0 + i), x.storedOf (t.g0 + i), blobAt d (fileText files t.path) i⟩

def Exchange.trajectory (x : Exchange) (d : Crates F) (files : Files) (t : FileTab) : Trajectory :=
  ⟨t.trajId, x.sents d files t⟩

theorem Exchange.sents_length (x : Exchange) (t : FileTab) : (x.sents d files t).length = t.n := by
  rw [Exchange.sents, List.length_map, List.length_range]

theorem Scanned.text_eq {t : FileTab} {text : String} (h : Scanned d files t text) : fileText files t.path = text := by
  rw [fileText, h.ingestible.read]

theorem Scanned.count_eq {t : FileTab} {text : String} (h : Scanned d files t text) : (d.conFrames text).length = t.n := by
  rw [FileTab.n, h.offs, ← h.ingestible.cuts.counted]
  simp [cutsOf]

theorem PreparedOf.serial (h : PreparedOf d files size route input x) (hx : x.Sound)
    (hread : ∀ f ∈ input, ∃ text, Ingestible d files f.2 text) {t : FileTab} (ht : t ∈ x.tabs) :
    ∃ ps, prepareTrajectoryStr d t.trajId (fileText files t.path) true = .ok ps ∧
      List.Forall₂ (Sends d) ps (framed t.trajId 0 (x.sents d files t)) := by
  obtain ⟨text, htext⟩ := h.scans hread ht
  rw [htext.text_eq]
  apply prepareItems_sends
  have hlen : (x.sents d files t).length = t.n := x.sents_length t
  rw [List.forall₂_iff_get]
  refine ⟨by rw [spans, List.length_map, htext.count_eq, framed_length, hlen], fun i hi hi' => ?_⟩
  rw [framed_length, hlen] at hi'
  have hg : t.g0 + i ∈ List.range' t.g0 t.n := List.mem_range'_1.mpr (by omega)
  obtain ⟨frame, blob, hash, hframe, hrow, _⟩ := (h.rows hx hread ht htext hg).made
  rw [Nat.add_sub_cancel_left] at hframe hrow
  have hsent : (x.sents d files t)[i]? = some ⟨x.encOf (t.g0 + i), x.storedOf (t.g0 + i), blob⟩ := by
    rw [Exchange.sents, List.getElem?_map, List.getElem?_range hi', Option.map_some, blobAt, htext.text_eq, hframe]
  have hkey : (framed t.trajId 0 (x.sents d files t))[i]? =
      some (⟨t.trajId, UInt32.ofNat i⟩, ⟨x.encOf (t.g0 + i), x.storedOf (t.g0 + i), blob⟩) := by
    rw [framed_getElem?, hsent, Option.map_some, UInt32.zero_add]
  have hitem : (spans d text)[i]? = some (.ok (frame, blob)) := by
    rw [spans, List.getElem?_map, hframe]
    rfl
  obtain ⟨_, hkey⟩ := List.getElem?_eq_some_iff.mp hkey
  obtain ⟨_, hitem⟩ := List.getElem?_eq_some_iff.mp hitem
  simp only [List.get_eq_getElem, hkey, hitem]
  exact ⟨frame, hash, rfl, hrow⟩

def Exchange.heldAt (x : Exchange) (g : Nat) : Held :=
  ⟨⟨(x.tabAt g).trajId, UInt32.ofNat (g - (x.tabAt g).g0)⟩, x.encOf g, x.storedOf g⟩

theorem Exchange.Sound.file_rows (hx : x.Sound) {t : FileTab} (ht : t ∈ x.tabs) :
    (List.range' t.g0 t.n).map x.heldAt = (x.trajectory d files t).rows := by
  rw [Trajectory.rows, Exchange.trajectory, heldRows]
  apply List.ext_getElem?
  intro i
  rw [List.getElem?_map, List.getElem?_map, framed_getElem?]
  by_cases hi : i < t.n
  · have hg : t.g0 + i ∈ List.range' t.g0 t.n := List.mem_range'_1.mpr (by omega)
    obtain ⟨hlo, hhi, hn⟩ := hx.in_range ht hg
    rw [List.getElem?_range' hi, Exchange.sents, List.getElem?_map, List.getElem?_range hi, Nat.one_mul]
    simp only [Option.map_some, heldRow, Exchange.heldAt, hx.tabAt_eq ht hlo hhi hn, Nat.add_sub_cancel_left, UInt32.zero_add]
  · rw [List.getElem?_eq_none (by rw [List.length_range']; omega),
      List.getElem?_eq_none (by rw [x.sents_length]; omega)]
    rfl

theorem PreparedOf.env_rows (h : PreparedOf d files size route input x) (hx : x.Sound) (e : UInt32) :
    ((List.range x.n).filter fun g => x.env g = e).map x.heldAt =
      ((x.tabs.filter fun t => (route.to size t.trajId).2 = e).map (x.trajectory d files)).flatMap Trajectory.rows := by
  have hsame : ∀ t ∈ x.tabs, ∀ g ∈ List.range' t.g0 t.n,
      decide (x.env g = e) = decide ((route.to size t.trajId).2 = e) := by
    intro t ht g hg
    rw [← h.routed hx ht hg]
  rw [Exchange.n, List.range_eq_range', ← hx.order.spans, filter_spans hsame, List.map_flatMap, List.flatMap_map]
  refine List.flatMap_congr fun t ht => ?_
  exact hx.file_rows (List.mem_of_mem_filter ht)

end Serial

end ReadconDb
