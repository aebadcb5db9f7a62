import ReadconDb.MpiBatch

set_option linter.unusedSectionVars false

namespace ReadconDb

open ByteString Outcome Blocks Slicing Binning

section Spans

theorem mem_rankSpan {n size rank b0 b1 g : Nat} : g ∈ rankSpan n size rank b0 b1 ↔
    ((blockRange n size rank).1 ≤ g ∧ g < (blockRange n size rank).2) ∧ b0 ≤ g ∧ g < b1 := by
  rw [rankSpan, List.mem_range'_1]
  omega

theorem rankSpans_flatten {n size b0 b1 : Nat} (hs : 0 < size) (hb : b0 ≤ b1) (hn : b1 ≤ n) :
    (List.range size).flatMap (fun rank => rankSpan n size rank b0 b1) = List.range' b0 (b1 - b0) := by
  have hmono : Monotone fun rank => max b0 (min (blockRange n size rank).1 b1) := by
    intro r q h
    exact max_le_max le_rfl (min_le_min_right b1 (blockRange_mono n size h))
  have hspan (rank : Nat) : rankSpan n size rank b0 b1 =
      piece (List.range n) (max b0 (min (blockRange n size rank).1 b1)) (max b0 (min (blockRange n size (rank + 1)).1 b1)) := by
    have hstep := blockRange_mono n size (Nat.le_succ rank)
    have hstop := blockRange_stop n size rank
    simp only [Nat.succ_eq_add_one] at hstep
    rw [piece_range (by omega), rankSpan, hstop]
    by_cases h : max (blockRange n size rank).1 b0 < min (blockRange n size (rank + 1)).1 b1
    · have hlo : max (blockRange n size rank).1 b0 = max b0 (min (blockRange n size rank).1 b1) := by omega
      have hhi : min (blockRange n size (rank + 1)).1 b1 = max b0 (min (blockRange n size (rank + 1)).1 b1) := by omega
      rw [← hlo, ← hhi]
    · have hz : min (blockRange n size (rank + 1)).1 b1 - max (blockRange n size rank).1 b0 = 0 := by omega
      have hz' : max b0 (min (blockRange n size (rank + 1)).1 b1) - max b0 (min (blockRange n size rank).1 b1) = 0 := by
        omega
      rw [hz, hz', List.range'_zero, List.range'_zero]
  simp only [hspan, List.flatMap_def]
  rw [pieces_flatten hmono, blockRange_zero, blockRange_size n hs, piece_range (by omega), Nat.zero_min]
  have h0 : max b0 0 = b0 := Nat.max_zero b0
  have h1 : max b0 (min n b1) = b1 := by omega
  rw [h0, h1]

end Spans

section Sound

-- What the steps before the batches leave: each rank holds its block, an environment has one owner, a winner comes
-- first and has its frame's environment.
structure Exchange.Sound (x : Exchange) : Prop where
  pos : 0 < x.size
  ranks : x.locals.length = x.size
  first : ∀ rank (l : Local), x.locals[rank]? = some l → l.first = (blockRange x.n x.size rank).1
  holds : ∀ rank (l : Local), x.locals[rank]? = some l →
    l.Holds ((blockRange x.n x.size rank).2 - (blockRange x.n x.size rank).1)
  envs : x.envOf.length = x.n
  owners : ∀ g < x.n, x.owner g < x.size
  oneOwner : ∀ g < x.n, ∀ g' < x.n, x.env g = x.env g' → x.owner g = x.owner g'
  winners : x.firstOf.length = x.n
  winner_le : ∀ g < x.n, x.winner g ≤ g
  winner_winner : ∀ g < x.n, x.winner (x.winner g) = x.winner g
  winner_env : ∀ g < x.n, x.env (x.winner g) = x.env g
  order : InOrder 0 x.tabs
  numbered : ∀ t ∈ x.tabs, t.n < 2 ^ 32

-- The vectors of a rank, 24 bytes each and their contents, stand in one address space.
def Local.bytes (l : Local) : Nat := (l.enc.map fun b => 24 + b.length).sum + (l.stored.map fun b => 24 + b.length).sum

def Exchange.Resident (x : Exchange) : Prop := ∀ l ∈ x.locals, l.bytes < 2 ^ 64

def Exchange.encOf (x : Exchange) (g : Nat) : Bytes := ((x.locals.flatMap Local.enc)[g]?).getD []
def Exchange.storedOf (x : Exchange) (g : Nat) : Bytes := ((x.locals.flatMap Local.stored)[g]?).getD []

variable {x : Exchange}

theorem Exchange.Sound.at_global {A : Type} (hx : x.Sound) (f : Local → List A)
    (hf : ∀ rank l, x.locals[rank]? = some l →
      (f l).length = (blockRange x.n x.size rank).2 - (blockRange x.n x.size rank).1)
    {rank g : Nat} {l : Local} (hl : x.locals[rank]? = some l)
    (hlo : (blockRange x.n x.size rank).1 ≤ g) (hhi : g < (blockRange x.n x.size rank).2) :
    (x.locals.flatMap f)[g]? = (f l)[g - l.first]? := by
  have hstarts (r : Nat) (hr : r ≤ x.size) : (((x.locals.map f).map List.length).take r).sum = (blockRange x.n x.size r).1 := by
    induction r with
    | zero => simp [blockRange_zero]
    | succ r ih =>
      have hlt : r < x.locals.length := by
        rw [hx.ranks]
        exact hr
      have hget := List.getElem?_eq_getElem hlt
      have hlen := hf r _ hget
      have hmono := blockRange_mono x.n x.size (Nat.le_succ r)
      rw [sum_take_succ _ (by simpa using hlt), ih (by omega)]
      simp only [List.getElem_map, hlen, blockRange_stop, Nat.succ_eq_add_one] at hmono ⊢
      omega
  have hrank : rank < x.locals.length := (List.getElem?_eq_some_iff.mp hl).1
  have hsize : rank < x.size := by rwa [← hx.ranks]
  have hlen := hf rank l hl
  have hfirst := hx.first rank l hl
  have hget : (x.locals.map f)[rank]? = some (f l) := by rw [List.getElem?_map, hl, Option.map_some]
  have hat := flatten_get hget (by omega : g - (blockRange x.n x.size rank).1 < (f l).length)
  rw [hstarts rank hsize.le, Nat.add_sub_cancel' hlo, ← List.flatMap_def] at hat
  rw [hat, hfirst]

theorem Exchange.Sound.encAt_eq (hx : x.Sound) {rank g : Nat} {l : Local} (hl : x.locals[rank]? = some l)
    (hlo : (blockRange x.n x.size rank).1 ≤ g) (hhi : g < (blockRange x.n x.size rank).2) : l.encAt g = x.encOf g := by
  rw [Local.encAt, Exchange.encOf, hx.at_global Local.enc (fun r l' h => (hx.holds r l' h).enc) hl hlo hhi]

theorem Exchange.Sound.storedAt_eq (hx : x.Sound) {rank g : Nat} {l : Local} (hl : x.locals[rank]? = some l)
    (hlo : (blockRange x.n x.size rank).1 ≤ g) (hhi : g < (blockRange x.n x.size rank).2) :
    l.storedAt g = x.storedOf g := by
  rw [Local.storedAt, Exchange.storedOf, hx.at_global Local.stored (fun r l' h => (hx.holds r l' h).stored) hl hlo hhi]

end Sound

section Messages

variable {x : Exchange} {b0 b1 : Nat}

theorem addCounts_ok {dest w : Nat → Nat} {n : Nat → UInt64} {gs : List Nat} (hn : ∀ g ∈ gs, (n g).toNat = w g)
    (cs : List Nat) (hd : ∀ g ∈ gs, dest g < cs.length) (hfit : ∀ q c, cs[q]? = some c → c + load dest w gs q < 2 ^ 64) :
    gs.foldlM (fun scounts g => addCount (dest g) (n g) scounts) (cs.map UInt64.ofNat) =
      .ok ((cs.mapIdx fun q c => c + load dest w gs q).map UInt64.ofNat) := by
  induction gs generalizing cs with
  | nil =>
    have hsame : (cs.mapIdx fun q c => c + load dest w [] q) = cs := by
      apply List.ext_getElem
      · simp
      · intro q _ _
        simp [load]
    rw [hsame]
    rfl
  | cons g gs ih =>
    have hlt := hd g List.mem_cons_self
    have hget : cs[dest g]? = some cs[dest g] := List.getElem?_eq_getElem hlt
    have hbound := hfit _ _ hget
    rw [load_cons, if_pos rfl] at hbound
    have hheld : (((cs.map UInt64.ofNat)[dest g]?).getD 0).toNat = cs[dest g] := by
      rw [List.getElem?_map, hget, Option.map_some, Option.getD_some, UInt64.toNat_ofNat', Nat.mod_eq_of_lt (by omega)]
    have hset : (cs.map UInt64.ofNat).set (dest g) (((cs.map UInt64.ofNat)[dest g]?).getD 0 + n g) =
        (cs.set (dest g) (cs[dest g] + w g)).map UInt64.ofNat := by
      rw [List.map_set]
      congr 1
      rw [← UInt64.toNat_inj, UInt64.toNat_add, hheld, hn g List.mem_cons_self, UInt64.toNat_ofNat']
    have hstep : addCount (dest g) (n g) (cs.map UInt64.ofNat) =
        .ok ((cs.set (dest g) (cs[dest g] + w g)).map UInt64.ofNat) := by
      simp only [addCount]
      rw [if_pos (by rw [hheld, hn g List.mem_cons_self]; omega), hset]
    have hsets (q c : Nat) (hq : (cs.set (dest g) (cs[dest g] + w g))[q]? = some c) :
        ∃ c', cs[q]? = some c' ∧ c + load dest w gs q = c' + load dest w (g :: gs) q := by
      rw [load_cons]
      by_cases hqd : dest g = q
      · subst hqd
        rw [List.getElem?_set_self hlt] at hq
        cases hq
        exact ⟨_, hget, by rw [if_pos rfl, Nat.add_assoc]⟩
      · rw [List.getElem?_set_ne hqd] at hq
        exact ⟨c, hq, by rw [if_neg hqd, Nat.zero_add]⟩
    rw [List.foldlM_cons, hstep]
    change gs.foldlM _ _ = _
    rw [ih (fun g' hg' => hn g' (List.mem_cons_of_mem g hg')) _
      (fun g' hg' => by rw [List.length_set]; exact hd g' (List.mem_cons_of_mem g hg')) fun q c hq => by
        obtain ⟨c', hc', heq⟩ := hsets q c hq
        rw [heq]
        exact hfit q c' hc']
    congr 2
    apply List.ext_getElem?
    intro q
    rw [List.getElem?_mapIdx, List.getElem?_mapIdx]
    cases hq : (cs.set (dest g) (cs[dest g] + w g))[q]? with
    | none =>
      have hnone : cs[q]? = none := by
        rw [List.getElem?_eq_none_iff] at hq ⊢
        rwa [List.length_set] at hq
      rw [hnone]
      rfl
    | some c =>
      obtain ⟨c', hc', heq⟩ := hsets q c hq
      rw [hc', Option.map_some, Option.map_some, heq]

theorem length_pushRecord (frame : UInt64) (enc stored : Bytes) :
    (pushRecord frame enc stored).length = 24 + enc.length + stored.length := by
  simp only [pushRecord, pushU64, List.length_append, length_leBytes]
  omega

theorem range_at {xs : List Bytes} {first lo k : Nat} (hlo : first ≤ lo) (hk : lo - first + k ≤ xs.length)
    (f : Bytes → Nat) : ((List.range' lo k).map fun g => f ((xs[g - first]?).getD [])) =
      (piece xs (lo - first) (lo - first + k)).map f := by
  apply List.ext_getElem
  · rw [List.length_map, List.length_map, List.length_range', length_piece hk]
    omega
  · intro i h _
    have hi : i < k := by simpa using h
    have hsub : lo + i - first = lo - first + i := by omega
    have hlt : lo - first + i < xs.length := by omega
    simp [piece, hsub, List.getElem?_eq_getElem hlt]

theorem piece_sum_le (xs : List Bytes) (lo hi : Nat) (f : Bytes → Nat) : ((piece xs lo hi).map f).sum ≤ (xs.map f).sum := by
  have hsub : (piece xs lo hi).Sublist xs := (List.take_sublist _ _).trans (List.drop_sublist _ _)
  exact (hsub.map f).sum_le_sum (by simp)

theorem rankSpan_eq {n size rank : Nat} : rankSpan n size rank b0 b1 =
    List.range' (max (blockRange n size rank).1 b0) (min (blockRange n size rank).2 b1 - max (blockRange n size rank).1 b0) :=
  rfl

theorem Exchange.Sound.records_fit (hx : x.Sound) (b0 b1 : Nat) {rank : Nat} {l : Local}
    (hl : x.locals[rank]? = some l) (hres : l.bytes < 2 ^ 64) :
    ((rankSpan x.n x.size rank b0 b1).map fun g => (recordOf x b0 l g).length).sum < 2 ^ 64 := by
  refine lt_of_le_of_lt ?_ hres
  have hrec (g : Nat) : (recordOf x b0 l g).length ≤ (24 + (l.encAt g).length) + (24 + (l.storedAt g).length) := by
    rw [recordOf, length_pushRecord]
    split
    · omega
    · rw [List.length_nil]
      omega
  have hsum (gs : List Nat) : (gs.map fun g => (recordOf x b0 l g).length).sum ≤
      (gs.map fun g => 24 + (l.encAt g).length).sum + (gs.map fun g => 24 + (l.storedAt g).length).sum := by
    induction gs with
    | nil => simp
    | cons g gs ih =>
      have hg := hrec g
      simp only [List.map_cons, List.sum_cons]
      omega
  have hpart (xs : List Bytes) (hlen : xs.length = (blockRange x.n x.size rank).2 - (blockRange x.n x.size rank).1) :
      ((rankSpan x.n x.size rank b0 b1).map fun g => 24 + ((xs[g - l.first]?).getD []).length).sum ≤
        (xs.map fun b => 24 + b.length).sum := by
    rw [rankSpan_eq, hx.first rank l hl]
    by_cases hz : min (blockRange x.n x.size rank).2 b1 - max (blockRange x.n x.size rank).1 b0 = 0
    · rw [hz]
      exact Nat.zero_le _
    · rw [range_at (le_max_left _ _) (by omega) fun b => 24 + b.length]
      exact piece_sum_le xs _ _ _
  refine (hsum _).trans (Nat.add_le_add ?_ ?_)
  · exact hpart l.enc (hx.holds rank l hl).enc
  · exact hpart l.stored (hx.holds rank l hl).stored

def messageLen (x : Exchange) (b0 b1 rank : Nat) (l : Local) (q : Nat) : Nat :=
  (bin x.owner (recordOf x b0 l) (rankSpan x.n x.size rank b0 b1) q).length

theorem Exchange.Sound.planCounts_eq (hx : x.Sound) (hb : b1 ≤ x.n) {rank : Nat} {l : Local}
    (hl : x.locals[rank]? = some l) (hres : l.bytes < 2 ^ 64) :
    planCounts x b0 b1 rank l = .ok ((List.range x.size).map fun q => UInt64.ofNat (messageLen x b0 b1 rank l q)) := by
  have hin {g : Nat} (hg : g ∈ rankSpan x.n x.size rank b0 b1) : g < x.n := (mem_rankSpan.mp hg).2.2.trans_le hb
  have hfits := hx.records_fit b0 b1 hl hres
  have hload (q : Nat) : load x.owner (fun g => (recordOf x b0 l g).length) (rankSpan x.n x.size rank b0 b1) q =
      messageLen x b0 b1 rank l q := load_eq_length _ (fun _ _ => rfl) q
  have hcounts : ∀ g ∈ rankSpan x.n x.size rank b0 b1,
      (recordBytes (l.encAt g).length (l.storedAt g).length (sendStoredBytes (x.winner g) g b0)).toNat =
        (recordOf x b0 l g).length := by
    intro g hg
    have hlt : (recordOf x b0 l g).length < 2 ^ 64 :=
      (mem_le_sum (List.mem_map_of_mem (f := fun g => (recordOf x b0 l g).length) hg)).trans_lt hfits
    exact recordBytes_push hlt
  have howner : ∀ g ∈ rankSpan x.n x.size rank b0 b1, x.owner g < (List.replicate x.size 0).length := by
    intro g hg
    rw [List.length_replicate]
    exact hx.owners g (hin hg)
  have hroom : ∀ q c, (List.replicate x.size 0)[q]? = some c →
      c + load x.owner (fun g => (recordOf x b0 l g).length) (rankSpan x.n x.size rank b0 b1) q < 2 ^ 64 := by
    intro q c hc
    obtain rfl : 0 = c := by
      rw [List.getElem?_replicate] at hc
      split at hc
      · exact Option.some.inj hc
      · cases hc
    rw [Nat.zero_add]
    exact (load_le _ q).trans_lt hfits
  have hall := addCounts_ok hcounts (List.replicate x.size 0) howner hroom
  rw [List.map_replicate] at hall
  rw [planCounts]
  refine hall.trans ?_
  congr 1
  apply List.ext_getElem
  · simp
  · intro q _ _
    simp [hload]

theorem buildMessages_eq (x : Exchange) (b0 b1 rank : Nat) (l : Local) : buildMessages x b0 b1 rank l =
    (List.range x.size).map fun q => bin x.owner (recordOf x b0 l) (rankSpan x.n x.size rank b0 b1) q := by
  rw [buildMessages, foldl_modify]
  apply List.ext_getElem
  · simp
  · intro q _ _
    simp

end Messages

section Delivery

variable {x : Exchange} {b0 b1 : Nat}

def countsOf (x : Exchange) (b0 b1 : Nat) : List (List UInt64) :=
  x.locals.mapIdx fun rank l => (List.range x.size).map fun q => UInt64.ofNat (messageLen x b0 b1 rank l q)

def messagesOf (x : Exchange) (b0 b1 : Nat) : List (List Bytes) := x.locals.mapIdx (buildMessages x b0 b1)

theorem agreed_ok {A : Type} {common : Error} {rs : List (Result A)} {vs : List A} (h : rs = vs.map Except.ok) :
    agreed common rs = .ok vs := by
  have hm : rs.mapM id = .ok vs := by
    rw [mapM_eq_ok, h, List.forall₂_map_left_iff, List.forall₂_same]
    exact fun _ _ => rfl
  rw [agreed, hm]

theorem plan_eq (hx : x.Sound) (hres : x.Resident) (hb : b1 ≤ x.n) : plan x b0 b1 = .ok (countsOf x b0 b1) := by
  rw [plan]
  apply agreed_ok
  rw [countsOf, map_mapIdx]
  apply List.ext_getElem?
  intro rank
  rw [List.getElem?_mapIdx, List.getElem?_mapIdx]
  cases hl : x.locals[rank]? with
  | none => rfl
  | some l => rw [Option.map_some, Option.map_some, hx.planCounts_eq hb hl (hres l (List.mem_of_getElem? hl))]

theorem messages_lengths (x : Exchange) (b0 b1 : Nat) :
    (messagesOf x b0 b1).map (fun row => row.map fun m => UInt64.ofNat m.length) = countsOf x b0 b1 := by
  rw [messagesOf, countsOf, map_mapIdx]
  congr 1
  funext rank l
  rw [buildMessages_eq, List.map_map]
  rfl

def messagesTo (x : Exchange) (b0 b1 q : Nat) : List Bytes :=
  x.locals.mapIdx fun rank l => bin x.owner (recordOf x b0 l) (rankSpan x.n x.size rank b0 b1) q

theorem messagesOf_row {rank : Nat} {row : List Bytes} (h : (messagesOf x b0 b1)[rank]? = some row) :
    row.length = x.size ∧ ∀ q < x.size, row[q]? = (messagesTo x b0 b1 q)[rank]? := by
  rw [messagesOf, List.getElem?_mapIdx] at h
  obtain ⟨l, hl, rfl⟩ := Option.map_eq_some_iff.mp h
  rw [buildMessages_eq]
  refine ⟨by simp, fun q hq => ?_⟩
  rw [messagesTo, List.getElem?_mapIdx, hl, List.getElem?_map, List.getElem?_range hq]
  rfl

theorem columns_eq (x : Exchange) (b0 b1 : Nat) : columns x.size (countsOf x b0 b1) =
    (List.range x.size).map fun q => (messagesTo x b0 b1 q).map fun m => UInt64.ofNat m.length := by
  rw [columns]
  apply List.map_congr_left
  intro q hq
  rw [countsOf, messagesTo, map_mapIdx, map_mapIdx]
  congr 1
  funext rank l
  rw [List.getElem?_map, List.getElem?_range (List.mem_range.mp hq)]
  rfl

def lengthsOf (ms : List Bytes) : List Nat := ms.map List.length

def packedOf (ms : List Bytes) : List Int32 × List Int32 :=
  ((lengthsOf ms).map Int32.ofNat,
    (List.range ms.length).map fun r => Int32.ofNat ((lengthsOf ms).take r).sum)

theorem packs_lengths {ms : List Bytes} (h : (lengthsOf ms).sum < 2 ^ 31) :
    (ms.map fun m => UInt64.ofNat m.length).mapM mpiI32 = .ok (packedOf ms).1 ∧
      prefixI32 (packedOf ms).1 = .ok (packedOf ms).2 := by
  constructor
  · rw [mapM_eq_ok, List.forall₂_map_left_iff, packedOf, lengthsOf, List.map_map, List.forall₂_map_right_iff,
      List.forall₂_same]
    intro m hm
    exact mpiI32_ok ((mem_le_sum (List.mem_map_of_mem hm)).trans_lt h)
  · have hlen : ms.length = (lengthsOf ms).length := by rw [lengthsOf, List.length_map]
    rw [packedOf, hlen]
    exact prefixI32_ok h

theorem packCounts_ok {row col : List Bytes} (hr : (lengthsOf row).sum < 2 ^ 31) (hc : (lengthsOf col).sum < 2 ^ 31) :
    packCounts (row.map (fun m => UInt64.ofNat m.length), col.map fun m => UInt64.ofNat m.length) =
      .ok (packedOf row, packedOf col) := by
  obtain ⟨hsc, hsd⟩ := packs_lengths hr
  obtain ⟨hrc, hrd⟩ := packs_lengths hc
  rw [packCounts, hsc, hrc]
  change (prefixI32 (packedOf row).1 >>= fun sd => prefixI32 (packedOf col).1 >>= fun rd =>
    (pure (((packedOf row).1, sd), (packedOf col).1, rd) : Result _)) = _
  rw [hsd, hrd]
  rfl

theorem i32At_lengths {ms : List Bytes} (h : (lengthsOf ms).sum < 2 ^ 31) {r : Nat} {m : Bytes} (hm : ms[r]? = some m) :
    i32At (packedOf ms).1 r = m.length ∧ i32At (packedOf ms).2 r = ((lengthsOf ms).take r).sum := by
  have hr := (List.getElem?_eq_some_iff.mp hm).1
  have hlen : m.length < 2 ^ 31 := (mem_le_sum (List.mem_map_of_mem (List.mem_of_getElem? hm))).trans_lt h
  have hstart : ((lengthsOf ms).take r).sum < 2 ^ 31 := (sum_take_le _ r).trans_lt h
  constructor
  · rw [i32At, packedOf, lengthsOf, List.map_map, List.getElem?_map, hm, Option.map_some, Option.getD_some,
      Function.comp_apply, toInt_ofNat_iff.mpr hlen, Int.toNat_natCast]
  · rw [i32At, packedOf, List.getElem?_map, List.getElem?_range hr, Option.map_some, Option.getD_some,
      toInt_ofNat_iff.mpr hstart, Int.toNat_natCast]

theorem alltoallv_eq {rows : List (List Bytes)} {col : List Bytes} {q : Nat}
    (hrows : ∀ row ∈ rows, (lengthsOf row).sum < 2 ^ 31) (hcol : (lengthsOf col).sum < 2 ^ 31)
    (hlen : rows.length = col.length) (hq : ∀ (r : Nat) (row : List Bytes), rows[r]? = some row → row[q]? = col[r]? ∧ row[q]? ≠ none) :
    alltoallv (rows.map fun row => (row.flatten, packedOf row)) (packedOf col).2 (lengthsOf col).sum q = col.flatten := by
  have hwrites : (rows.map fun row => (row.flatten, packedOf row)).mapIdx (fun r s =>
      ({ offset := i32At (packedOf col).2 r, data := piece s.1 (i32At s.2.2 q) (i32At s.2.2 q + i32At s.2.1 q) } :
        Extents.Write UInt8)) = Extents.Write.ofBlocks col := by
    rw [Extents.Write.ofBlocks]
    apply List.ext_getElem?
    intro r
    rw [List.getElem?_mapIdx, List.getElem?_mapIdx, List.getElem?_map]
    cases hrow : rows[r]? with
    | none =>
      have hnone : col[r]? = none := by
        rw [List.getElem?_eq_none_iff] at hrow ⊢
        omega
      rw [hnone]
      rfl
    | some row =>
      obtain ⟨heq, hsome⟩ := hq r row hrow
      obtain ⟨m, hm⟩ := Option.ne_none_iff_exists'.mp hsome
      have hfit := hrows row (List.mem_of_getElem? hrow)
      obtain ⟨hcount, hdispl⟩ := i32At_lengths hfit hm
      have hmc : col[r]? = some m := heq.symm.trans hm
      rw [hmc]
      simp only [Option.map_some, hcount, hdispl, (i32At_lengths hcol hmc).2]
      congr 2
      exact piece_flatten hm
  have htotal : (lengthsOf col).sum = col.flatten.length := List.length_flatten.symm
  simp only [alltoallv, hwrites, htotal]
  apply List.ext_getElem
  · simp
  · intro i h _
    have hi : i < col.flatten.length := by simpa using h
    rw [List.getElem_map, List.getElem_range, Extents.puts_blocks col _ hi, List.getElem?_eq_getElem hi, Option.getD_some]

def columnsOf (x : Exchange) (b0 b1 : Nat) : List (List Bytes) := (List.range x.size).map (messagesTo x b0 b1)

def lengthsU64 (ms : List Bytes) : List UInt64 := ms.map fun m => UInt64.ofNat m.length

theorem sumU64_lengths {ms : List Bytes} (h : (lengthsOf ms).sum < 2 ^ 31) :
    (sumU64 (lengthsU64 ms)).toNat = (lengthsOf ms).sum := by
  have hfold (ns : List Nat) (s : Nat) :
      (ns.map UInt64.ofNat).foldl (· + ·) (UInt64.ofNat s) = UInt64.ofNat (s + ns.sum) := by
    induction ns generalizing s with
    | nil => rfl
    | cons n ns ih => rw [List.map_cons, List.foldl_cons, ← UInt64.ofNat_add, ih, List.sum_cons, Nat.add_assoc]
  have hsum := hfold (lengthsOf ms) 0
  rw [lengthsOf, List.map_map, Nat.zero_add] at hsum
  change ((ms.map (UInt64.ofNat ∘ List.length)).foldl (· + ·) (UInt64.ofNat 0)).toNat = _
  rw [hsum, UInt64.toNat_ofNat', Nat.mod_eq_of_lt (by rw [lengthsOf] at h; omega), lengthsOf]

theorem countsOf_zip (x : Exchange) (b0 b1 : Nat) :
    (countsOf x b0 b1).zip (columns x.size (countsOf x b0 b1)) =
      ((messagesOf x b0 b1).zip (columnsOf x b0 b1)).map fun p => (lengthsU64 p.1, lengthsU64 p.2) := by
  have hcols : columns x.size (countsOf x b0 b1) = (columnsOf x b0 b1).map lengthsU64 := by
    rw [columns_eq, columnsOf, List.map_map]
    rfl
  rw [hcols, ← messages_lengths]
  exact List.zip_map

theorem Exchange.Sound.messages_small (hx : x.Sound) (hres : x.Resident) {rank q : Nat} {m : Bytes}
    (hm : (messagesTo x b0 b1 q)[rank]? = some m) : m.length < 2 ^ 64 := by
  rw [messagesTo, List.getElem?_mapIdx] at hm
  obtain ⟨l, hl, rfl⟩ := Option.map_eq_some_iff.mp hm
  have hfits := hx.records_fit b0 b1 hl (hres l (List.mem_of_getElem? hl))
  rw [← load_eq_length _ (fun _ _ => rfl) q]
  exact (load_le _ q).trans_lt hfits

theorem messagesTo_length (x : Exchange) (b0 b1 q : Nat) : (messagesTo x b0 b1 q).length = x.locals.length :=
  List.length_mapIdx

theorem fitsAll_iff (hx : x.Sound) (hres : x.Resident) : fitsAll x.size (countsOf x b0 b1) = true ↔
    ∀ p ∈ (messagesOf x b0 b1).zip (columnsOf x b0 b1), (lengthsOf p.1).sum < 2 ^ 31 ∧ (lengthsOf p.2).sum < 2 ^ 31 := by
  have hsum {ms : List Bytes} (hsmall : ∀ m ∈ ms, m.length < 2 ^ 64) :
      fitsI32 (lengthsU64 ms) = true ↔ (lengthsOf ms).sum < 2 ^ 31 := by
    have hsame : (lengthsU64 ms).map UInt64.toNat = lengthsOf ms := by
      rw [lengthsU64, List.map_map]
      apply List.map_congr_left
      intro m hm
      rw [Function.comp_apply, UInt64.toNat_ofNat', Nat.mod_eq_of_lt (hsmall m hm)]
    rw [fitsI32_iff, hsame]
  rw [fitsAll, countsOf_zip, List.all_map]
  simp only [List.all_eq_true, Function.comp_apply, Bool.and_eq_true]
  refine forall₂_congr fun p hp => ?_
  obtain ⟨rank, hrank⟩ := List.mem_iff_getElem?.mp hp
  obtain ⟨hrow, hcol⟩ := List.getElem?_zip_eq_some.mp hrank
  have hsmallrow : ∀ m ∈ p.1, m.length < 2 ^ 64 := by
    intro m hm
    obtain ⟨q, hq⟩ := List.mem_iff_getElem?.mp hm
    obtain ⟨hlen, hget⟩ := messagesOf_row hrow
    have hqs : q < x.size := by
      rw [← hlen]
      exact (List.getElem?_eq_some_iff.mp hq).1
    rw [hget q hqs] at hq
    exact hx.messages_small hres hq
  have hsmallcol : ∀ m ∈ p.2, m.length < 2 ^ 64 := by
    intro m hm
    obtain ⟨r, hr⟩ := List.mem_iff_getElem?.mp hm
    rw [columnsOf, List.getElem?_map] at hcol
    obtain ⟨q, _, hq⟩ := Option.map_eq_some_iff.mp hcol
    rw [← hq] at hr
    exact hx.messages_small hres hr
  rw [hsum hsmallrow, hsum hsmallcol]

theorem deliver_eq (hx : x.Sound) (hres : x.Resident) (hfit : fitsAll x.size (countsOf x b0 b1) = true) :
    deliver x b0 b1 (countsOf x b0 b1) = .ok ((columnsOf x b0 b1).map List.flatten) := by
  have hpairs := (fitsAll_iff hx hres).mp hfit
  have hrows : (messagesOf x b0 b1).length = x.size := by rw [messagesOf, List.length_mapIdx, hx.ranks]
  have hcols : (columnsOf x b0 b1).length = x.size := by rw [columnsOf, List.length_map, List.length_range]
  have hchecked : agreed (.message "MPI batch length does not match the planned count")
      (((messagesOf x b0 b1).zip (countsOf x b0 b1)).map fun o =>
        if (o.1.map fun m => UInt64.ofNat m.length) = o.2 then (.ok () : Result Unit)
        else .error (.message "MPI batch length does not match the planned count")) =
      .ok (List.replicate x.size ()) := by
    apply agreed_ok
    rw [List.map_replicate, ← messages_lengths, List.eq_replicate_iff]
    constructor
    · simp [hrows]
    · intro r hr
      obtain ⟨o, ho, rfl⟩ := List.mem_map.mp hr
      obtain ⟨rank, hrank⟩ := List.mem_iff_getElem?.mp ho
      obtain ⟨h1, h2⟩ := List.getElem?_zip_eq_some.mp hrank
      rw [List.getElem?_map, h1] at h2
      exact if_pos (Option.some.inj h2)
  have hpacked : agreed failedElsewhere (((countsOf x b0 b1).zip (columns x.size (countsOf x b0 b1))).map packCounts) =
      .ok (((messagesOf x b0 b1).zip (columnsOf x b0 b1)).map fun p => (packedOf p.1, packedOf p.2)) := by
    apply agreed_ok
    rw [countsOf_zip, List.map_map, List.map_map]
    apply List.map_congr_left
    intro p hp
    exact packCounts_ok (hpairs p hp).1 (hpairs p hp).2
  have hsends : (((messagesOf x b0 b1).zip (((messagesOf x b0 b1).zip (columnsOf x b0 b1)).map fun p =>
      (packedOf p.1, packedOf p.2))).map fun o => (o.1.flatten, o.2.1)) =
        (messagesOf x b0 b1).map fun row => (row.flatten, packedOf row) := by
    apply List.ext_getElem
    · simp [hrows, hcols]
    · intro r _ _
      simp
  have hcolumns : columns x.size (countsOf x b0 b1) = (columnsOf x b0 b1).map lengthsU64 := by
    rw [columns_eq, columnsOf, List.map_map]
    rfl
  rw [deliver]
  simp only
  rw [← messagesOf, hchecked, hpacked, hcolumns]
  change Except.ok _ = Except.ok _
  rw [hsends]
  congr 1
  apply List.ext_getElem?
  intro q
  rw [List.getElem?_mapIdx, List.getElem?_map]
  cases hq : (columnsOf x b0 b1)[q]? with
  | none =>
    have hnone : ((((messagesOf x b0 b1).zip (columnsOf x b0 b1)).map fun p => (packedOf p.1, packedOf p.2)).zip
        ((columnsOf x b0 b1).map lengthsU64))[q]? = none := by
      rw [List.getElem?_eq_none_iff] at hq ⊢
      simp
      omega
    rw [hnone]
    rfl
  | some col =>
    have hqs : q < x.size := by
      rw [← hcols]
      exact (List.getElem?_eq_some_iff.mp hq).1
    obtain ⟨row, hrow⟩ : ∃ row, (messagesOf x b0 b1)[q]? = some row := by
      rw [← hrows] at hqs
      exact ⟨_, List.getElem?_eq_getElem hqs⟩
    have hpair : ((messagesOf x b0 b1).zip (columnsOf x b0 b1))[q]? = some (row, col) :=
      List.getElem?_zip_eq_some.mpr ⟨hrow, hq⟩
    have hget : ((((messagesOf x b0 b1).zip (columnsOf x b0 b1)).map fun p => (packedOf p.1, packedOf p.2)).zip
        ((columnsOf x b0 b1).map lengthsU64))[q]? = some ((packedOf row, packedOf col), lengthsU64 col) := by
      apply List.getElem?_zip_eq_some.mpr
      rw [List.getElem?_map, hpair, List.getElem?_map, hq]
      exact ⟨rfl, rfl⟩
    have hcolfit := (hpairs (row, col) (List.mem_of_getElem? hpair)).2
    have hcol : col = messagesTo x b0 b1 q := by
      rw [columnsOf, List.getElem?_map, List.getElem?_range hqs] at hq
      exact (Option.some.inj hq).symm
    rw [hget, Option.map_some, Option.map_some]
    congr 1
    rw [sumU64_lengths hcolfit]
    apply alltoallv_eq _ hcolfit
    · rw [hrows, hcol, messagesTo_length, hx.ranks]
    · intro r row' hr
      obtain ⟨hlen, hsame⟩ := messagesOf_row hr
      have hsome := hsame q hqs
      rw [hcol]
      refine ⟨hsome, ?_⟩
      rw [List.getElem?_eq_getElem (by omega)]
      exact Option.some_ne_none _
    · intro row' hrow'
      obtain ⟨r, hr⟩ := List.mem_iff_getElem?.mp hrow'
      obtain ⟨col', hcol'⟩ : ∃ col', (columnsOf x b0 b1)[r]? = some col' := by
        have hrs := (List.getElem?_eq_some_iff.mp hr).1
        rw [hrows, ← hcols] at hrs
        exact ⟨_, List.getElem?_eq_getElem hrs⟩
      exact (hpairs (row', col') (List.mem_of_getElem? (List.getElem?_zip_eq_some.mpr ⟨hr, hcol'⟩))).1

end Delivery

section Decoding

variable {x : Exchange} {b0 b1 : Nat}

def Exchange.record (x : Exchange) (b0 g : Nat) : Bytes :=
  pushRecord (UInt64.ofNat g) (x.encOf g) (if sendStoredBytes (x.winner g) g b0 then x.storedOf g else [])

def Exchange.owned (x : Exchange) (b0 b1 q : Nat) : List Nat :=
  (List.range' b0 (b1 - b0)).filter fun g => x.owner g = q

theorem received_eq (hx : x.Sound) (hb : b0 ≤ b1) (hn : b1 ≤ x.n) (q : Nat) :
    (messagesTo x b0 b1 q).flatten = (x.owned b0 b1 q).flatMap (x.record b0) := by
  have hrank : ∀ rank (l : Local), x.locals[rank]? = some l →
      bin x.owner (recordOf x b0 l) (rankSpan x.n x.size rank b0 b1) q =
        bin x.owner (x.record b0) (rankSpan x.n x.size rank b0 b1) q := by
    intro rank l hl
    refine bin_congr (fun _ _ => rfl) (fun g hg => ?_) q
    obtain ⟨⟨hlo, hhi⟩, _, _⟩ := mem_rankSpan.mp hg
    rw [recordOf, hx.encAt_eq hl hlo hhi, hx.storedAt_eq hl hlo hhi, Exchange.record]
  rw [messagesTo, mapIdx_eq_range hrank, hx.ranks, ← List.flatMap_def, ← bin_flatMap, rankSpans_flatten hx.pos hb hn]
  rfl

def Exchange.payloadOf (x : Exchange) (b0 g : Nat) : Bytes :=
  if x.winner g < b0 then x.storedOf g else x.storedOf (x.winner g)

def Exchange.heldOf (x : Exchange) (b0 g : Nat) : UInt32 × Held :=
  (x.env g, ⟨⟨(x.tabAt g).trajId, UInt32.ofNat (g - (x.tabAt g).g0)⟩, x.encOf g, x.payloadOf b0 g⟩)

theorem Exchange.Sound.tabAt_spec (hx : x.Sound) {g : Nat} (hg : g < x.n) :
    x.tabAt g ∈ x.tabs ∧ (x.tabAt g).g0 ≤ g ∧ g < (x.tabAt g).g0 + (x.tabAt g).n := by
  obtain ⟨t, ht, hlo, hhi⟩ := fileOf_inOrder hx.order (Nat.zero_le g) (by rwa [Nat.zero_add])
  have heq : x.tabAt g = t := by rw [Exchange.tabAt, ht, Option.getD_some]
  rw [heq]
  exact ⟨List.mem_of_getElem? ht, hlo, hhi⟩

theorem Exchange.Sound.fitU32_ok (hx : x.Sound) {g : Nat} (hg : g < x.n) :
    fitU32 (g - (x.tabAt g).g0) = .ok (UInt32.ofNat (g - (x.tabAt g).g0)) := by
  obtain ⟨hmem, hlo, hhi⟩ := hx.tabAt_spec hg
  have hn := hx.numbered _ hmem
  exact if_pos (by omega)

theorem Exchange.getD_small {xs : List (List Bytes)} (h : ∀ b ∈ xs.flatten, b.length < 2 ^ 64) (g : Nat) :
    ((xs.flatten[g]?).getD []).length < 2 ^ 64 := by
  cases hg : xs.flatten[g]? with
  | none => simp
  | some b => exact h b (List.mem_of_getElem? hg)

theorem Exchange.Resident.small (hres : x.Resident) (g : Nat) :
    (x.encOf g).length < 2 ^ 64 ∧ (x.storedOf g).length < 2 ^ 64 := by
  have hone {xs : List Bytes} {b : Bytes} (hb : b ∈ xs) : b.length ≤ (xs.map fun b => 24 + b.length).sum :=
    (Nat.le_add_left _ _).trans (mem_le_sum (List.mem_map_of_mem (f := fun b : Bytes => 24 + b.length) hb))
  constructor
  · rw [Exchange.encOf, List.flatMap_def]
    refine Exchange.getD_small (fun b hb => ?_) g
    obtain ⟨l, hl, hb⟩ := List.mem_flatMap.mp (List.flatMap_def ▸ hb)
    exact ((hone hb).trans (Nat.le_add_right _ _)).trans_lt (hres l hl)
  · rw [Exchange.storedOf, List.flatMap_def]
    refine Exchange.getD_small (fun b hb => ?_) g
    obtain ⟨l, hl, hb⟩ := List.mem_flatMap.mp (List.flatMap_def ▸ hb)
    exact ((hone hb).trans (Nat.le_add_left _ _)).trans_lt (hres l hl)

theorem mem_reuseOf {w : Nat} : w ∈ reuseOf x b0 b1 ↔
    ∃ g, (b0 ≤ g ∧ g < b1) ∧ x.winner g ≠ g ∧ b0 ≤ x.winner g ∧ x.winner g = w := by
  simp only [reuseOf, List.mem_map, List.mem_filter, List.mem_range'_1, decide_eq_true_eq]
  constructor
  · rintro ⟨g, ⟨hr, hne, hle⟩, rfl⟩
    exact ⟨g, by omega, hne, hle, rfl⟩
  · rintro ⟨g, hr, hne, hle, rfl⟩
    exact ⟨g, ⟨by omega, hne, hle⟩, rfl⟩

def KeptWinners (x : Exchange) (reuse : List Nat) (done : List Nat) (kept : List (Nat × Bytes)) : Prop :=
  ∀ w ∈ done, x.winner w = w → w ∈ reuse → kept.lookup w = some (x.storedOf w)

-- A duplicate sent without bytes comes after its winner.
theorem Exchange.Sound.winner_done (hx : x.Sound) (hn : b1 ≤ x.n) {q g : Nat} {done rest : List Nat}
    (hall : x.owned b0 b1 q = done ++ g :: rest) (hw : b0 ≤ x.winner g) (hne : x.winner g ≠ g) :
    x.winner g ∈ done ∧ x.winner g ∈ reuseOf x b0 b1 := by
  have hg : g ∈ x.owned b0 b1 q := by simp [hall]
  rw [Exchange.owned, List.mem_filter, List.mem_range'_1, decide_eq_true_eq] at hg
  have hgn : g < x.n := by omega
  have hlt : x.winner g < g := lt_of_le_of_ne (hx.winner_le g hgn) hne
  have howner : x.owner (x.winner g) = q := by
    rw [hx.oneOwner _ (by omega) g hgn (hx.winner_env g hgn)]
    exact hg.2
  have hmem : x.winner g ∈ x.owned b0 b1 q := by
    rw [Exchange.owned, List.mem_filter, List.mem_range'_1, decide_eq_true_eq]
    exact ⟨by omega, howner⟩
  have hsorted : (x.owned b0 b1 q).Pairwise (· < ·) := (List.pairwise_lt_range' ..).filter _
  rw [hall] at hmem hsorted
  constructor
  · rcases List.mem_append.mp hmem with h | h
    · exact h
    · have hafter := (List.pairwise_cons.mp (List.pairwise_append.mp hsorted).2.1).1
      rcases List.mem_cons.mp h with h | h
      · exact absurd h hne
      · exact absurd (hafter _ h) (by omega)
  · exact mem_reuseOf.mpr ⟨g, by omega, hne, hw, rfl⟩

theorem payload_ok (hx : x.Sound) (hn : b1 ≤ x.n) {q g : Nat} {done rest : List Nat}
    (hall : x.owned b0 b1 q = done ++ g :: rest) {kept : List (Nat × Bytes)} (hkept : KeptWinners x (reuseOf x b0 b1) done kept) :
    ∃ kept', payload x b0 (reuseOf x b0 b1) kept g
      (if sendStoredBytes (x.winner g) g b0 then x.storedOf g else []) = .ok (x.payloadOf b0 g, kept') ∧
        KeptWinners x (reuseOf x b0 b1) (done ++ [g]) kept' := by
  have hg : g ∈ x.owned b0 b1 q := by simp [hall]
  rw [Exchange.owned, List.mem_filter, List.mem_range'_1] at hg
  by_cases hself : x.winner g = g
  · have hsend : sendStoredBytes (x.winner g) g b0 = true := by simp [sendStoredBytes, hself]
    have hown : x.payloadOf b0 g = x.storedOf g := by
      rw [Exchange.payloadOf, hself]
      split
      · rfl
      · rfl
    refine ⟨if g ∈ reuseOf x b0 b1 then (g, x.storedOf g) :: kept else kept, ?_, ?_⟩
    · rw [payload, if_pos hsend, if_pos hself, hown]
    · intro w hw hww hre
      by_cases hwg : w = g
      · subst hwg
        rw [if_pos hre, List.lookup_cons_self]
      · have hdone : w ∈ done := by
          rcases List.mem_append.mp hw with h | h
          · exact h
          · exact absurd (List.mem_singleton.mp h) hwg
        have hold := hkept w hdone hww hre
        split
        · have hb : (w == g) = false := by simpa using hwg
          rw [List.lookup_cons, hb]
          exact hold
        · exact hold
  · have hnew : KeptWinners x (reuseOf x b0 b1) (done ++ [g]) kept := by
      intro w hw hww hre
      rcases List.mem_append.mp hw with h | h
      · exact hkept w h hww hre
      · obtain rfl := List.mem_singleton.mp h
        exact absurd hww hself
    refine ⟨kept, ?_, hnew⟩
    by_cases hearly : x.winner g < b0
    · have hsend : sendStoredBytes (x.winner g) g b0 = true := by simp [sendStoredBytes, hearly]
      rw [payload, if_pos hsend, if_neg hself, if_pos hearly, Exchange.payloadOf, if_pos hearly]
    · obtain ⟨hdone, hre⟩ := hx.winner_done hn hall (Nat.not_lt.mp hearly) hself
      have hlook := hkept _ hdone (hx.winner_winner g (by omega)) hre
      rw [payload, if_neg hself, if_neg hearly, hlook, Exchange.payloadOf, if_neg hearly]

theorem read_ok_bind {A B : Type} (a : A) (f : A → Result B) : ((.ok a : Result A) >>= f) = f a := rfl

theorem decodeFrom_record {reuse : List Nat} {kept kept' : List (Nat × Bytes)} (frame : UInt64) {enc raw stored : Bytes}
    {idx : UInt32} (henc : enc.length < 2 ^ 64) (hraw : raw.length < 2 ^ 64) (hg : frame.toNat < x.firstOf.length)
    (hpay : payload x b0 reuse kept frame.toNat raw = .ok (stored, kept'))
    (hidx : fitU32 (frame.toNat - (x.tabAt frame.toNat).g0) = .ok idx) (fuel : Nat) (rest : Bytes) :
    decodeFrom x b0 reuse (fuel + 1) (pushRecord frame enc raw ++ rest) kept = do
      let tail ← decodeFrom x b0 reuse fuel rest kept'
      return (x.env frame.toNat, ⟨⟨(x.tabAt frame.toNat).trajId, idx⟩, enc, stored⟩) :: tail := by
  have hbytes : pushRecord frame enc raw ++ rest = pushU64 frame ++ ((pushU64 (UInt64.ofNat enc.length) ++ enc) ++
      ((pushU64 (UInt64.ofNat raw.length) ++ raw) ++ rest)) := by
    rw [pushRecord]
    simp only [List.append_assoc]
  have hne : pushRecord frame enc raw ++ rest ≠ [] := by
    intro h
    have hlen := congrArg List.length (List.append_eq_nil_iff.mp h).1
    rw [length_pushRecord, List.length_nil] at hlen
    omega
  rw [decodeFrom, if_neg hne, hbytes, (spells_u64 frame).reads, read_ok_bind]
  simp only
  rw [if_neg (Nat.not_le.mpr hg), (spells_bytes henc).reads, read_ok_bind]
  simp only
  rw [(spells_bytes hraw).reads, read_ok_bind]
  simp only
  rw [hpay, read_ok_bind]
  simp only
  rw [hidx, read_ok_bind]

theorem decodeFrom_ok (hx : x.Sound) (hres : x.Resident) (hn : b1 ≤ x.n) {q : Nat} {gs done : List Nat}
    (hall : x.owned b0 b1 q = done ++ gs) {kept : List (Nat × Bytes)} (hkept : KeptWinners x (reuseOf x b0 b1) done kept)
    {fuel : Nat} (hf : gs.length ≤ fuel) :
    decodeFrom x b0 (reuseOf x b0 b1) fuel (gs.flatMap (x.record b0)) kept = .ok (gs.map (x.heldOf b0)) := by
  induction gs generalizing done kept fuel with
  | nil =>
    cases fuel with
    | zero => rfl
    | succ fuel => rfl
  | cons g gs ih =>
    cases fuel with
    | zero => exact absurd hf (by simp)
    | succ fuel =>
      have hg : g ∈ x.owned b0 b1 q := by simp [hall]
      rw [Exchange.owned, List.mem_filter, List.mem_range'_1] at hg
      have hgn : g < x.n := by omega
      have hgword : (UInt64.ofNat g).toNat = g := by
        have hmax := x.counted
        rw [Exchange.n] at hgn
        rw [usizeMax] at hmax
        rw [UInt64.toNat_ofNat', Nat.mod_eq_of_lt (by omega)]
      obtain ⟨henc, hstored⟩ := hres.small g
      obtain ⟨kept', hpay, hkept'⟩ := payload_ok hx hn hall hkept
      have hrest := ih (by rw [hall, List.append_assoc]; rfl) hkept' (by simpa using hf)
      have hraw : (if sendStoredBytes (x.winner g) g b0 then x.storedOf g else []).length < 2 ^ 64 := by
        split
        · exact hstored
        · simp
      have hturn := decodeFrom_record (UInt64.ofNat g) henc hraw (by rw [hgword, hx.winners]; exact hgn)
        (by rw [hgword]; exact hpay) (by rw [hgword]; exact hx.fitU32_ok hgn) fuel (gs.flatMap (x.record b0))
      rw [List.flatMap_cons]
      rw [hrest, hgword] at hturn
      exact hturn

theorem decodeBatch_ok (hx : x.Sound) (hres : x.Resident) (hn : b1 ≤ x.n) (q : Nat) :
    x.decodeBatch b0 b1 ((x.owned b0 b1 q).flatMap (x.record b0)) = .ok ((x.owned b0 b1 q).map (x.heldOf b0)) := by
  have hfuel (gs : List Nat) : gs.length ≤ (gs.flatMap (x.record b0)).length := by
    induction gs with
    | nil => simp
    | cons g gs ih =>
      rw [List.flatMap_cons, List.length_append, Exchange.record, length_pushRecord, List.length_cons]
      omega
  exact decodeFrom_ok hx hres hn (List.nil_append _).symm (fun w hw => absurd hw (by simp)) (hfuel _)

end Decoding

end ReadconDb
