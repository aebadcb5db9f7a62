import ReadconDb.MpiGather

set_option linter.unusedSectionVars false

namespace ReadconDb

open ByteString Outcome Blocks Slicing

section Scanned

variable {F : Type} [Float64 F] (d : Crates F) (files : Files)

def cutsOf (text : String) : List Nat := d.frameStartOffsets text ++ [(utf8 text).length]

structure CutsParse (text : String) : Prop where
  within : ∀ o ∈ d.frameStartOffsets text, o ≤ (utf8 text).length
  counted : (d.frameStartOffsets text).length = (d.conFrames text).length
  same : ∀ i start stop s, (d.frameStartOffsets text)[i]? = some start → (cutsOf d text)[i + 1]? = some stop →
    ofUtf8 (piece (utf8 text) start stop) = some s → (d.conFrames s).head? = (d.conFrames text)[i]?

-- A file that the ingest can read, and that the address space holds.
structure Ingestible (path : String) (text : String) : Prop where
  read : readToString files path = .ok text
  cuts : CutsParse d text
  small : (utf8 text).length < 2 ^ 64
  few : (d.frameStartOffsets text).length + 1 < 2 ^ 64

structure Scanned (t : FileTab) (text : String) : Prop where
  ingestible : Ingestible d files t.path text
  offs : t.offs = (cutsOf d text).map UInt64.ofNat

variable {d files}

theorem fileWords_ok {path text : String} {ws : List UInt64} (hr : readToString files path = .ok text)
    (h : fileWords d files path = .ok ws) :
    ws = UInt64.ofNat ((d.frameStartOffsets text).length + 1) :: (cutsOf d text).map UInt64.ofNat := by
  rw [fileWords, hr] at h
  cases h
  rw [cutsOf, List.map_append]
  rfl

theorem scanTabs_scanned {words before : List UInt64} {input : List (UInt64 × String)} {per : List (List UInt64)}
    {g0 : Nat} {tabs : List FileTab} (hread : ∀ f ∈ input, ∃ text, Ingestible d files f.2 text)
    (hper : List.Forall₂ (fun f ws => fileWords d files f.2 = .ok ws) input per) (hw : words = before ++ per.flatten)
    (h : scanTabs words input before.length g0 = .ok tabs) : ∀ t ∈ tabs, ∃ text, Scanned d files t text := by
  induction hper generalizing before g0 tabs with
  | nil =>
    rw [scanTabs] at h
    split at h
    · cases h
      simp
    · cases h
  | @cons f ws input per hf hper ih =>
    obtain ⟨id, path⟩ := f
    obtain ⟨text, htext⟩ := hread _ List.mem_cons_self
    have hws := fileWords_ok htext.read hf
    have hk : (UInt64.ofNat ((d.frameStartOffsets text).length + 1)).toNat = (d.frameStartOffsets text).length + 1 := by
      rw [UInt64.toNat_ofNat', Nat.mod_eq_of_lt htext.few]
    have hlen : ws.length = (d.frameStartOffsets text).length + 2 := by
      rw [hws]
      simp [cutsOf]
    have hhead : words[before.length]? = some (UInt64.ofNat ((d.frameStartOffsets text).length + 1)) := by
      rw [hw, List.flatten_cons, List.getElem?_append_right le_rfl, Nat.sub_self, hws]
      rfl
    have hpiece : piece words (before.length + 1) (before.length + 1 + ((d.frameStartOffsets text).length + 1)) =
        (cutsOf d text).map UInt64.ofNat := by
      have hdrop : words.drop (before.length + 1) = (cutsOf d text).map UInt64.ofNat ++ per.flatten := by
        rw [hw, List.flatten_cons, hws, List.drop_append, List.drop_of_length_le (by omega), Nat.add_sub_cancel_left]
        rfl
      have hcuts : ((cutsOf d text).map UInt64.ofNat).length = (d.frameStartOffsets text).length + 1 := by simp [cutsOf]
      rw [piece, hdrop, Nat.add_sub_cancel_left, ← hcuts, List.take_left]
    have hnext : before.length + 1 + ((d.frameStartOffsets text).length + 1) = (before ++ ws).length := by
      rw [List.length_append, hlen]
      omega
    rw [scanTabs, hhead] at h
    simp only [hk] at h
    split at h
    · cases h
    · split at h
      · cases h
      · split at h
        · cases h
        · split at h
          · cases h
          · obtain ⟨rest, hrest, h⟩ := bind_eq_ok.mp h
            cases h
            rw [hnext] at hrest
            have hall := ih (fun f hf => hread f (List.mem_cons_of_mem _ hf))
              (by rw [hw, List.flatten_cons, List.append_assoc]) hrest
            intro t ht
            rcases List.mem_cons.mp ht with rfl | ht
            · exact ⟨text, htext, hpiece⟩
            · exact hall t ht

theorem scanFiles_scanned {input : List (UInt64 × String)} {tabs : List FileTab}
    (hread : ∀ f ∈ input, ∃ text, Ingestible d files f.2 text) (h : scanFiles d files input = .ok tabs) :
    ∀ t ∈ tabs, ∃ text, Scanned d files t text := by
  rw [scanFiles] at h
  split at h
  · cases h
  · next words hwords =>
    have hstart : words.flatten = [] ++ words.flatten := rfl
    rw [bcastWords_eq] at h
    exact scanTabs_scanned hread (mapM_eq_ok.mp hwords) hstart h

end Scanned

section Parsed

variable {F : Type} [Float64 F] {d : Crates F} {files : Files}

def ParsedRow (d : Crates F) (t : FileTab) (text : String) (i : Nat) (row : ContentHash × Bytes × Bytes) : Prop :=
  ∃ frame blob, (d.conFrames text)[i]? = some (.ok (frame, blob)) ∧
    encodeFrameKeys d ⟨t.trajId, UInt32.ofNat i⟩ frame blob = .ok row

theorem readToString_ok {path text : String} (h : readToString files path = .ok text) : files path = .ok (utf8 text) := by
  rw [readToString] at h
  obtain ⟨b, hb, h⟩ := bind_eq_ok.mp h
  split at h
  · next text' ht =>
    cases h
    rw [hb, utf8_of_ofUtf8 ht]
  · cases h

theorem piece_piece {A : Type} {xs : List A} {lo hi a b : Nat} (ha : lo ≤ a) (hb : b ≤ hi) :
    piece (piece xs lo hi) (a - lo) (b - lo) = piece xs a b := by
  rw [piece, piece, piece, List.drop_take, List.take_take, List.drop_drop, Nat.add_sub_cancel' ha]
  congr 1
  omega

theorem cut_toNat {text : String} {t : FileTab} (h : Scanned d files t text) {i : Nat} {o : UInt64} (ho : t.offs[i]? = some o) :
    ∃ c, (cutsOf d text)[i]? = some c ∧ o.toNat = c ∧ c ≤ (utf8 text).length := by
  rw [h.offs, List.getElem?_map] at ho
  obtain ⟨c, hc, rfl⟩ := Option.map_eq_some_iff.mp ho
  have hle : c ≤ (utf8 text).length := by
    rcases List.mem_append.mp (List.mem_of_getElem? hc) with hm | hm
    · exact h.ingestible.cuts.within c hm
    · rw [List.mem_singleton.mp hm]
  refine ⟨c, hc, ?_, hle⟩
  rw [UInt64.toNat_ofNat', Nat.mod_eq_of_lt (hle.trans_lt h.ingestible.small)]

theorem slice_some {b s : Bytes} {lo hi : Nat} (h : (slice b lo hi : Checked Error Bytes) = lift (.ok s)) :
    lo ≤ hi ∧ hi ≤ b.length ∧ s = piece b lo hi := by
  rw [slice] at h
  split at h
  · next hin =>
    cases h
    exact ⟨hin.1, hin.2, rfl⟩
  · cases h

theorem fitU32_ok {n : Nat} {k : UInt32} (h : fitU32 n = .ok k) : k = UInt32.ofNat n := by
  rw [fitU32] at h
  split at h
  · exact (Except.ok.inj h).symm
  · cases h

-- A frame is cut out of the file at the same bytes, whatever stretch of it the rank has read.
theorem parseFrame_row {t : FileTab} {text : String} (h : Scanned d files t text) {lo hi : UInt64} (hle : lo ≤ hi)
    {bytes : Bytes} (hread : readSpan files t.path lo.toNat (hi - lo).toNat = .ok bytes) {i : Nat} (hi' : i < t.n)
    {row : ContentHash × Bytes × Bytes} (hrow : parseFrame d t lo bytes i = lift (.ok row)) : ParsedRow d t text i row := by
  have hbytes : bytes = piece (utf8 text) lo.toNat hi.toNat ∧ hi.toNat ≤ (utf8 text).length := by
    rw [readSpan, readToString_ok h.ingestible.read] at hread
    simp only at hread
    have hspan : lo.toNat + (hi - lo).toNat = hi.toNat := by
      rw [UInt64.toNat_sub_of_le _ _ hle]
      exact Nat.add_sub_cancel' (UInt64.le_iff_toNat_le.mp hle)
    rw [hspan] at hread
    split at hread
    · next hlen =>
      split at hread
      · exact ⟨(Except.ok.inj hread).symm, hlen⟩
      · cases hread
    · cases hread
  obtain ⟨rfl, hhi⟩ := hbytes
  rw [parseFrame] at hrow
  obtain ⟨start, hstart, hrow⟩ := checked_bind_ok hrow
  obtain ⟨stop, hstop, hrow⟩ := checked_bind_ok hrow
  obtain ⟨s, hs, hrow⟩ := checked_bind_ok hrow
  obtain ⟨c, hc, hcnat, _⟩ := cut_toNat h (index_some hstart)
  obtain ⟨c', hc', hcnat', _⟩ := cut_toNat h (index_some hstop)
  have hcut : ofUtf8 (piece (utf8 text) c c') = some s := by
    rw [strSlice] at hs
    obtain ⟨cut, hslice, hs⟩ := checked_bind_ok hs
    obtain ⟨hab, hb, rfl⟩ := slice_some hslice
    rw [length_piece hhi] at hb
    -- A difference that wrapped would reach past the stretch.
    have hlo64 := lo.toNat_lt
    have hhi64 := hi.toNat_lt
    have hstart64 := start.toNat_lt
    have hstop64 := stop.toNat_lt
    rw [UInt64.toNat_sub, UInt64.toNat_sub] at hab
    rw [UInt64.toNat_sub] at hb
    have hle' := UInt64.le_iff_toNat_le.mp hle
    have hcs : lo.toNat ≤ start.toNat ∧ lo.toNat ≤ stop.toNat ∧ stop.toNat ≤ hi.toNat := by omega
    have hdiff : (start - lo).toNat = start.toNat - lo.toNat ∧ (stop - lo).toNat = stop.toNat - lo.toNat :=
      ⟨UInt64.toNat_sub_of_le _ _ (UInt64.le_iff_toNat_le.mpr hcs.1),
        UInt64.toNat_sub_of_le _ _ (UInt64.le_iff_toNat_le.mpr hcs.2.1)⟩
    rw [hdiff.1, hdiff.2, piece_piece hcs.1 hcs.2.2, hcnat, hcnat'] at hs
    split at hs
    · split at hs
      · next s' hs' =>
        cases hs
        exact hs'
      · cases hs
    · cases hs
  have hstarts : (d.frameStartOffsets text)[i]? = some c := by
    have hlen : t.offs.length = (d.frameStartOffsets text).length + 1 := by
      rw [h.offs]
      simp [cutsOf]
    rw [cutsOf, List.getElem?_append_left (by rw [FileTab.n, hlen] at hi'; omega)] at hc
    exact hc
  have hsame := h.ingestible.cuts.same i c c' s hstarts hc' hcut
  split at hrow
  · cases hrow
  · cases hrow
  · next frame blob hhead =>
    obtain ⟨idx, hidx, hrow⟩ := checked_bind_ok hrow
    rw [fitU32_ok (lift_inj hidx)] at hrow
    exact ⟨frame, blob, hsame.symm.trans hhead, lift_inj hrow⟩

structure GlobalRow (d : Crates F) (files : Files) (tabs : List FileTab) (g : Nat) (row : ContentHash × Bytes × Bytes) :
    Prop where
  parsed : ∃ t ∈ tabs, ∃ text, t.g0 ≤ g ∧ g < t.g0 + t.n ∧ Scanned d files t text ∧ ParsedRow d t text (g - t.g0) row

structure Local.Columns (l : Local) (rows : List (ContentHash × Bytes × Bytes)) : Prop where
  hashes : l.hashes = rows.map fun r => r.1
  enc : l.enc = rows.map fun r => r.2.1
  stored : l.stored = rows.map fun r => r.2.2

theorem addRows_columns {l : Local} {rows more : List (ContentHash × Bytes × Bytes)} (h : l.Columns rows) :
    (addRows l more).Columns (rows ++ more) where
  hashes := by simp [addRows, h.hashes]
  enc := by simp [addRows, h.enc]
  stored := by simp [addRows, h.stored]

theorem checked_mapM_ok {A B : Type} {f : A → Checked Error B} {xs : List A} {ys : List B}
    (h : xs.mapM f = lift (.ok ys)) : List.Forall₂ (fun x y => f x = lift (.ok y)) xs ys := by
  induction xs generalizing ys with
  | nil =>
    cases h
    exact .nil
  | cons x xs ih =>
    rw [List.mapM_cons] at h
    obtain ⟨y, hy, h⟩ := checked_bind_ok h
    obtain ⟨ys', hys, h⟩ := checked_bind_ok h
    cases h
    exact .cons hy (ih hys)

theorem forall₂_of_mem {A B : Type} {R S : A → B → Prop} {xs : List A} {ys : List B} (h : List.Forall₂ R xs ys)
    (hi : ∀ x ∈ xs, ∀ y, R x y → S x y) : List.Forall₂ S xs ys := by
  rw [List.forall₂_iff_zip] at h ⊢
  exact ⟨h.1, fun hm => hi _ (List.of_mem_zip hm).1 _ (h.2 hm)⟩

theorem parseFrom_rows {tabs : List FileTab} (horder : InOrder 0 tabs) (hscan : ∀ t ∈ tabs, ∃ text, Scanned d files t text)
    {stop : Nat} (hstop : stop ≤ framesIn tabs) {fuel g : Nat} {out l : Local} {rows : List (ContentHash × Bytes × Bytes)}
    (hg : g ≤ stop) (hf : stop - g ≤ fuel) (hout : out.Columns rows)
    (h : parseFrom d files tabs stop fuel g out = lift (.ok l)) :
    ∃ more, List.Forall₂ (GlobalRow d files tabs) (List.range' g (stop - g)) more ∧ l.Columns (rows ++ more) := by
  induction fuel generalizing g rows out with
  | zero =>
    cases h
    have hz : stop - g = 0 := by omega
    rw [hz]
    exact ⟨[], .nil, by rwa [List.append_nil]⟩
  | succ fuel ih =>
    rw [parseFrom] at h
    split at h
    · next hle =>
      cases h
      have hz : stop - g = 0 := by omega
      rw [hz]
      exact ⟨[], .nil, by rwa [List.append_nil]⟩
    · next hlt =>
      obtain ⟨t, ht, h⟩ := checked_bind_ok h
      obtain ⟨a, ha, h⟩ := checked_bind_ok h
      obtain ⟨room, hroom, h⟩ := checked_bind_ok h
      obtain ⟨lo, _, h⟩ := checked_bind_ok h
      obtain ⟨hi, _, h⟩ := checked_bind_ok h
      split at h
      · cases h
      · next hback =>
        have hle : lo ≤ hi := UInt64.not_lt.mp hback
        obtain ⟨text, hread, h⟩ := checked_bind_ok h
        obtain ⟨parsed, hparsed, hrest⟩ := checked_bind_ok h
        obtain ⟨t', ht', hlo, hhi⟩ := fileOf_inOrder horder (Nat.zero_le g) (by omega)
        obtain rfl : t = t' := Option.some.inj ((index_some ht).symm.trans ht')
        obtain ⟨_, rfl⟩ := minus_some ha
        obtain ⟨_, rfl⟩ := minus_some hroom
        have hmem := List.mem_of_getElem? ht'
        obtain ⟨s, hs⟩ := hscan t hmem
        obtain ⟨more, hmore, hcols⟩ := ih (by omega) (by omega) (addRows_columns hout) hrest
        refine ⟨parsed ++ more, ?_, by rwa [List.append_assoc] at hcols⟩
        have hturn : List.Forall₂ (GlobalRow d files tabs) (List.range' g (min (stop - t.g0) t.n - (g - t.g0))) parsed := by
          have hshift : List.range' g (min (stop - t.g0) t.n - (g - t.g0)) =
              (List.range' (g - t.g0) (min (stop - t.g0) t.n - (g - t.g0))).map (t.g0 + ·) := by
            rw [List.map_add_range', Nat.add_sub_cancel' hlo]
          rw [hshift, List.forall₂_map_left_iff]
          refine forall₂_of_mem (checked_mapM_ok hparsed) fun i hi row hrow => ?_
          rw [List.mem_range'_1] at hi
          refine ⟨t, hmem, s, by omega, by omega, hs, ?_⟩
          rw [Nat.add_sub_cancel_left]
          exact parseFrame_row hs hle (lift_inj hread) (by omega) hrow
        have hsplit : List.range' g (stop - g) = List.range' g (min (stop - t.g0) t.n - (g - t.g0)) ++
            List.range' (t.g0 + min (stop - t.g0) t.n) (stop - (t.g0 + min (stop - t.g0) t.n)) := by
          have hstart : t.g0 + min (stop - t.g0) t.n = g + (min (stop - t.g0) t.n - (g - t.g0)) := by omega
          rw [hstart, List.range'_append_1]
          congr 1
          omega
        rw [hsplit]
        exact List.rel_append hturn hmore

theorem locals_rows {tabs : List FileTab} (horder : InOrder 0 tabs) (hscan : ∀ t ∈ tabs, ∃ text, Scanned d files t text)
    {size : Nat} (hs : 0 < size) {locals : List Local} (hlen : locals.length = size)
    (hparse : ∀ rank l, locals[rank]? = some l →
      parseLocal d files tabs (blockRange (framesIn tabs) size rank) = lift (.ok l)) :
    ∃ rows, List.Forall₂ (GlobalRow d files tabs) (List.range (framesIn tabs)) rows ∧
      locals.flatMap Local.hashes = rows.map (fun r => r.1) ∧ locals.flatMap Local.enc = rows.map (fun r => r.2.1) ∧
      locals.flatMap Local.stored = rows.map (fun r => r.2.2) := by
  have hfirst (k : Nat) (hk : k ≤ size) : ∃ rows,
      List.Forall₂ (GlobalRow d files tabs) (List.range (blockRange (framesIn tabs) size k).1) rows ∧
      (locals.take k).flatMap Local.hashes = rows.map (fun r => r.1) ∧
      (locals.take k).flatMap Local.enc = rows.map (fun r => r.2.1) ∧
      (locals.take k).flatMap Local.stored = rows.map (fun r => r.2.2) := by
    induction k with
    | zero => exact ⟨[], by rw [blockRange_zero]; exact .nil, rfl, rfl, rfl⟩
    | succ k ih =>
      obtain ⟨rows, hrows, hh, he, hst⟩ := ih (by omega)
      have hlt : k < locals.length := by omega
      have hl := List.getElem?_eq_getElem hlt
      have hmono := blockRange_start_le (framesIn tabs) size k
      have hempty : Local.Columns ⟨(blockRange (framesIn tabs) size k).1, [], [], []⟩ [] := ⟨rfl, rfl, rfl⟩
      obtain ⟨more, hmore, hcols⟩ := parseFrom_rows horder hscan (blockRange_le _ (by omega)) hmono le_rfl hempty
        (hparse k _ hl)
      have hrange : List.range (blockRange (framesIn tabs) size (k + 1)).1 =
          List.range (blockRange (framesIn tabs) size k).1 ++
            List.range' (blockRange (framesIn tabs) size k).1
              ((blockRange (framesIn tabs) size k).2 - (blockRange (framesIn tabs) size k).1) := by
        rw [← blockRange_stop, List.range_eq_range', List.range_eq_range']
        have happ := List.range'_append_1 (s := 0) (m := (blockRange (framesIn tabs) size k).1)
          (n := (blockRange (framesIn tabs) size k).2 - (blockRange (framesIn tabs) size k).1)
        rw [Nat.zero_add, Nat.add_sub_cancel' hmono] at happ
        exact happ.symm
      have htake : locals.take (k + 1) = locals.take k ++ [locals[k]] := by
        rw [List.take_add_one, hl]
        rfl
      refine ⟨rows ++ more, ?_, ?_, ?_, ?_⟩
      · rw [hrange]
        exact List.rel_append hrows hmore
      · rw [htake, List.flatMap_append, hh, List.map_append]
        simpa using hcols.hashes
      · rw [htake, List.flatMap_append, he, List.map_append]
        simpa using hcols.enc
      · rw [htake, List.flatMap_append, hst, List.map_append]
        simpa using hcols.stored
  obtain ⟨rows, hrows, hh, he, hst⟩ := hfirst size le_rfl
  rw [blockRange_size _ hs] at hrows
  rw [List.take_of_length_le hlen.le] at hh he hst
  exact ⟨rows, hrows, hh, he, hst⟩

end Parsed

section Gathered

variable {x : Exchange}

def Exchange.hashOf (x : Exchange) (g : Nat) : Bytes :=
  (((x.locals.flatMap Local.hashes)[g]?).map Subtype.val).getD []

theorem Exchange.Sound.hash_at (hx : x.Sound) {rank g : Nat} {l : Local} (hl : x.locals[rank]? = some l)
    (hlo : (blockRange x.n x.size rank).1 ≤ g) (hhi : g < (blockRange x.n x.size rank).2) :
    ∃ h : ContentHash, l.hashes[g - l.first]? = some h ∧ x.hashOf g = h.val := by
  have hat := hx.at_global Local.hashes (fun r l' h => (hx.holds r l' h).hashes) hl hlo hhi
  have hlen := (hx.holds rank l hl).hashes
  have hlt : g - l.first < l.hashes.length := by
    rw [hlen, hx.first rank l hl]
    omega
  have hget := List.getElem?_eq_getElem hlt
  exact ⟨_, hget, by rw [Exchange.hashOf, hat, hget]; rfl⟩

theorem Exchange.Sound.block_of (hx : x.Sound) {g : Nat} (hg : g < x.n) : ∃ rank l, x.locals[rank]? = some l ∧
    (blockRange x.n x.size rank).1 ≤ g ∧ g < (blockRange x.n x.size rank).2 := by
  have hall := rankSpans_flatten hx.pos (Nat.zero_le x.n) le_rfl
  have hmem : g ∈ (List.range x.size).flatMap fun rank => rankSpan x.n x.size rank 0 x.n := by
    rw [hall, List.mem_range'_1]
    omega
  obtain ⟨rank, hrank, hspan⟩ := List.mem_flatMap.mp hmem
  have hlt : rank < x.locals.length := by
    rw [hx.ranks]
    exact List.mem_range.mp hrank
  obtain ⟨⟨hlo, hhi⟩, _⟩ := mem_rankSpan.mp hspan
  exact ⟨rank, _, List.getElem?_eq_getElem hlt, hlo, hhi⟩

theorem Exchange.Sound.hash_length (hx : x.Sound) {g : Nat} (hg : g < x.n) : (x.hashOf g).length = 16 := by
  obtain ⟨rank, l, hl, hlo, hhi⟩ := hx.block_of hg
  obtain ⟨h, _, hval⟩ := hx.hash_at hl hlo hhi
  rw [hval]
  exact h.2

def Exchange.hashesOf (x : Exchange) (gs : List Nat) : Bytes := gs.flatMap x.hashOf

theorem sendHashes_eq (hx : x.Sound) {rank g0 g1 : Nat} {l : Local} (hl : x.locals[rank]? = some l) :
    sendHashes x.n x.size g0 g1 rank l = lift (.ok (x.hashesOf (rankSpan x.n x.size rank g0 g1))) := by
  have hall (gs : List Nat) (hgs : ∀ g ∈ gs, (blockRange x.n x.size rank).1 ≤ g ∧ g < (blockRange x.n x.size rank).2) :
      ∃ hs : List ContentHash, (gs.mapM fun g => do
        let i ← minus g l.first
        index l.hashes i : Checked Error (List ContentHash)) = lift (.ok hs) ∧ hs.flatMap Subtype.val = x.hashesOf gs := by
    induction gs with
    | nil => exact ⟨[], rfl, rfl⟩
    | cons g gs ih =>
      obtain ⟨hs, hmap, hval⟩ := ih fun g' hg' => hgs g' (List.mem_cons_of_mem _ hg')
      obtain ⟨hlo, hhi⟩ := hgs g List.mem_cons_self
      obtain ⟨h, hget, hh⟩ := hx.hash_at hl hlo hhi
      have hfirst : l.first ≤ g := by rwa [hx.first rank l hl]
      refine ⟨h :: hs, ?_, ?_⟩
      · rw [List.mapM_cons, minus_ok hfirst, lift_ok_bind, index_ok hget, lift_ok_bind, hmap]
        rfl
      · rw [List.flatMap_cons, hval, ← hh]
        rfl
  obtain ⟨hs, hmap, hval⟩ := hall (rankSpan x.n x.size rank g0 g1) fun g hg => (mem_rankSpan.mp hg).1
  rw [sendHashes, hmap, lift_ok_bind, hval]
  rfl

theorem hashesOf_length (hx : x.Sound) {gs : List Nat} (hgs : ∀ g ∈ gs, g < x.n) :
    (x.hashesOf gs).length = gs.length * 16 := by
  induction gs with
  | nil => rfl
  | cons g gs ih =>
    have hrest := ih fun g' hg' => hgs g' (List.mem_cons_of_mem _ hg')
    have hone := hx.hash_length (hgs g List.mem_cons_self)
    rw [Exchange.hashesOf, List.flatMap_cons, List.length_append, hone, List.length_cons, Nat.succ_mul, Nat.add_comm]
    exact congrArg (· + 16) hrest

theorem allgatherv_eq {sends : List Bytes} (hfit : (lengthsOf sends).sum < 2 ^ 31) :
    allgatherv sends (packedOf sends).1 (packedOf sends).2 (lengthsOf sends).sum = sends.flatten := by
  have hwrites : sends.mapIdx (fun r s =>
      ({ offset := i32At (packedOf sends).2 r, data := piece s 0 (i32At (packedOf sends).1 r) } : Extents.Write UInt8)) =
      Extents.Write.ofBlocks sends := by
    rw [Extents.Write.ofBlocks]
    apply List.ext_getElem?
    intro r
    rw [List.getElem?_mapIdx, List.getElem?_mapIdx]
    cases hs : sends[r]? with
    | none => rfl
    | some s =>
      obtain ⟨hcount, hdispl⟩ := i32At_lengths hfit hs
      rw [Option.map_some, Option.map_some, hcount, hdispl, piece_all]
      rfl
  have htotal : (lengthsOf sends).sum = sends.flatten.length := List.length_flatten.symm
  simp only [allgatherv, hwrites, htotal]
  apply List.ext_getElem
  · simp
  · intro i h _
    have hi : i < sends.flatten.length := by simpa using h
    rw [List.getElem_map, List.getElem_range, Extents.puts_blocks sends _ hi, List.getElem?_eq_getElem hi, Option.getD_some]

theorem gatherEnd_small (n g0 : Nat) : (gatherEnd n g0 - g0) * 16 < 2 ^ 31 := by
  have hchunk : hashGatherChunkFrames = 134217727 := by decide
  rw [gatherEnd, hchunk]
  omega

theorem checked_mapM_map {A B : Type} {f : A → B} (xs : List A) :
    (xs.map fun a => (lift (.ok (f a)) : Checked Error B)).mapM id = lift (.ok (xs.map f)) := by
  induction xs with
  | nil => rfl
  | cons a xs ih =>
    rw [List.map_cons, List.mapM_cons, id_eq, lift_ok_bind, ih]
    rfl

theorem gatherFrom_ok (hx : x.Sound) {g0 : Nat} (hg : g0 ≤ x.n) :
    gatherFrom x.n x.size x.locals g0 = lift (.ok (x.hashesOf (List.range' g0 (x.n - g0)))) := by
  induction hk : x.n - g0 using Nat.strong_induction_on generalizing g0 with
  | h k ih =>
    rw [gatherFrom]
    by_cases hlt : g0 < x.n
    · obtain ⟨hlo, hhi⟩ := gatherEnd_within x.n hlt
      have hsmall := gatherEnd_small x.n g0
      have hrest := ih (x.n - gatherEnd x.n g0) (by omega) hhi rfl
      rw [dif_pos hlt]
      generalize gatherEnd x.n g0 = g1 at hlo hhi hsmall hrest
      have hsends : (x.locals.mapIdx (sendHashes x.n x.size g0 g1)).mapM id =
          lift (.ok ((List.range x.size).map fun rank => x.hashesOf (rankSpan x.n x.size rank g0 g1))) := by
        have hranks : x.locals.mapIdx (sendHashes x.n x.size g0 g1) =
            (List.range x.locals.length).map fun rank => lift (.ok (x.hashesOf (rankSpan x.n x.size rank g0 g1))) :=
          mapIdx_eq_range fun rank l hl => sendHashes_eq hx hl
        rw [hranks, hx.ranks, checked_mapM_map]
      have hspans := rankSpans_flatten hx.pos hlo.le hhi
      have hflat : ((List.range x.size).map fun rank => x.hashesOf (rankSpan x.n x.size rank g0 g1)).flatten =
          x.hashesOf (List.range' g0 (g1 - g0)) := by
        rw [← hspans, Exchange.hashesOf, List.flatMap_assoc, List.flatMap_def]
        rfl
      have hlen : (lengthsOf ((List.range x.size).map fun rank => x.hashesOf (rankSpan x.n x.size rank g0 g1))).sum =
          (g1 - g0) * 16 := by
        rw [lengthsOf, ← List.length_flatten, hflat, hashesOf_length hx fun g hg => by
          rw [List.mem_range'_1] at hg
          omega, List.length_range']
      have hfit : (lengthsOf ((List.range x.size).map fun rank => x.hashesOf (rankSpan x.n x.size rank g0 g1))).sum < 2 ^ 31 := by
        rw [hlen]
        exact hsmall
      have hspan (rank : Nat) : (x.hashesOf (rankSpan x.n x.size rank g0 g1)).length =
          (rankSpan x.n x.size rank g0 g1).length * 16 := by
        refine hashesOf_length hx fun g hg => ?_
        have hin := (mem_rankSpan.mp hg).2
        omega
      have hcounts : chunkCounts x.n x.size g0 g1 =
          .ok (packedOf ((List.range x.size).map fun rank => x.hashesOf (rankSpan x.n x.size rank g0 g1))).1 := by
        rw [← (packs_lengths hfit).1, chunkCounts, List.map_map, List.mapM_map]
        refine congrArg (fun f => List.mapM f (List.range x.size)) (funext fun rank => ?_)
        rw [Function.comp_apply, Function.comp_apply, hspan rank]
        have hle : (rankSpan x.n x.size rank g0 g1).length ≤ g1 - g0 := by
          rw [rankSpan_eq, List.length_range']
          omega
        have hmax : usizeMax = 2 ^ 64 - 1 := rfl
        exact if_neg (by omega)
      dsimp only
      rw [hcounts, lift_ok_bind, (packs_lengths hfit).2]
      simp only [lift_ok_bind]
      rw [hsends]
      simp only [lift_ok_bind, hrest, pure_eq_lift, ← hlen, allgatherv_eq hfit, hflat]
      have happ := List.range'_append_1 (s := g0) (m := g1 - g0) (n := x.n - g1)
      rw [Nat.add_sub_cancel' hlo.le, (by omega : g1 - g0 + (x.n - g1) = k)] at happ
      rw [Exchange.hashesOf, Exchange.hashesOf, ← List.flatMap_append, happ]
      rfl
    · rw [dif_neg hlt]
      have hz : k = 0 := by omega
      subst hz
      rfl

end Gathered

end ReadconDb
