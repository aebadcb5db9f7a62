import ReadconDb.Keys
import ReadconDb.Library.Outcome

namespace ReadconDb

open ByteString Outcome

def frameTag : Bytes := [0xFD, 0x01]
def redirTag : Bytes := [0xFD, 0x02]
def groupTag : Bytes := [0xFD, 0x03]

def groupLen : Nat := 64
def redirLen : Nat := 10

def isTagged (stored : Bytes) : Bool := frameTag.isPrefixOf stored
def isRedirect (stored : Bytes) : Bool := redirTag.isPrefixOf stored
def isGroup (stored : Bytes) : Bool := groupTag.isPrefixOf stored

def corrupt : Error := .message "corrupt frame value"

section Codec

variable {F : Type} (d : Crates F)

def storeFrame (text : String) (compress : Bool) : Result Bytes :=
  if !compress then .ok (utf8 text)
  else
    match d.zstdEncode (utf8 text) with
    | .error e => .error (.message ("zstd encode: " ++ e))
    | .ok compressed =>
      if compressed.length + frameTag.length ≥ (utf8 text).length then .ok (utf8 text)
      else .ok (frameTag ++ compressed)

def loadFrame (stored : Bytes) : Result String :=
  if isGroup stored || isRedirect stored then
    .error (.message "corrupt frame value: grouped value needs decode_frame")
  else if isTagged stored then
    match d.zstdDecode (stored.drop frameTag.length) with
    | .error e => .error (.message ("corrupt frame value: " ++ e))
    | .ok plain =>
      match ofUtf8 plain with
      | none => .error (.message "corrupt frame value: invalid utf-8 sequence")
      | some text => .ok text
  else
    match ofUtf8 stored with
    | none => .error corrupt
    | some text => .ok text

def groupPayload (run : List (UInt32 × String)) : Bytes :=
  run.flatMap fun f => leBytes 4 (utf8 f.2).length ++ utf8 f.2

def encodeGroup (run : List (UInt32 × String)) : Result Bytes :=
  if run.any (fun f => decide ((utf8 f.2).length > 2 ^ 32 - 1)) then
    .error (.message "frame longer than u32")
  else
    match d.zstdEncode (groupPayload run) with
    | .error e => .error (.message ("zstd encode: " ++ e))
    | .ok compressed => .ok (groupTag ++ leBytes 4 run.length ++ compressed)

def encodeRedirect (head slot : UInt32) : Bytes :=
  redirTag ++ leBytes 4 head.toNat ++ leBytes 4 slot.toNat

def parseRedirect (stored : Bytes) : Result (UInt32 × UInt32) :=
  if stored.length ≠ redirLen then .error corrupt
  else
    let head := UInt32.ofNat (leNat ((stored.drop 2).take 4))
    let slot := UInt32.ofNat (leNat ((stored.drop 6).take 4))
    if slot = 0 then .error corrupt else .ok (head, slot)

def splitPayload (plain : Bytes) : Result (List String) :=
  if _h : plain.length = 0 then .ok []
  else if plain.length < 4 then .error corrupt
  else if (plain.drop 4).length < leNat (plain.take 4) then .error corrupt
  else
    match ofUtf8 ((plain.drop 4).take (leNat (plain.take 4))) with
    | none => .error corrupt
    | some text => do
      let more ← splitPayload ((plain.drop 4).drop (leNat (plain.take 4)))
      return text :: more
  termination_by plain.length
  decreasing_by simp; omega

def decodeGroup (stored : Bytes) : Result (List String) :=
  if stored.length < 6 + 4 then .error corrupt
  else
    let n := leNat ((stored.drop 2).take 4)
    if n < 2 then .error corrupt
    else
      match d.zstdDecode (stored.drop 6) with
      | .error e => .error (.message ("corrupt frame value: " ++ e))
      | .ok plain => do
        let out ← splitPayload plain
        if out.length ≠ n then .error corrupt else .ok out

def openGroupOrSingle (stored : Bytes) : Result (List String) :=
  if isGroup stored then decodeGroup d stored
  else do return [← loadFrame d stored]

def decodeFrame (stored : Bytes) (fetchHead : UInt32 → Result Bytes) : Result String :=
  if isRedirect stored then do
    let (head, slot) ← parseRedirect stored
    let headBytes ← fetchHead head
    if isRedirect headBytes then .error corrupt
    else
      let texts ← openGroupOrSingle d headBytes
      match texts[slot.toNat]? with
      | some text => .ok text
      | none => .error corrupt
  else do
    let texts ← openGroupOrSingle d stored
    match texts.head? with
    | some text => .ok text
    | none => .error corrupt

def sameGroup (f g : UInt32 × String) : Bool := f.1.toNat / groupLen == g.1.toNat / groupLen

def redirects (head : UInt32) (len : Nat) : List Bytes :=
  (List.range' 1 (len - 1)).map fun slot => encodeRedirect head (UInt32.ofNat slot)

def packRun (run : List (UInt32 × String)) : Result (List Bytes) := do
  let singles ← run.mapM fun f => storeFrame d f.2 true
  match run with
  | first :: _ :: _ =>
    let grouped ← encodeGroup d run
    if grouped.length + redirLen * (run.length - 1) < (singles.map List.length).sum then
      return grouped :: redirects first.1 run.length
    else
      return singles
  | _ => return singles

def packAligned (frames : List (UInt32 × String)) : Result (List Bytes) := do
  let packed ← (frames.splitBy sameGroup).mapM (packRun d)
  return packed.flatten

end Codec

section Laws

variable {F : Type} {d : Crates F}

def zstdMagic : Bytes := [0x28, 0xB5, 0x2F, 0xFD]

structure ZstdLossless (d : Crates F) : Prop where
  undoes : ∀ {plain packed}, d.zstdEncode plain = .ok packed → d.zstdDecode packed = .ok plain
  magic : ∀ {plain packed}, d.zstdEncode plain = .ok packed → zstdMagic <+: packed

theorem ZstdLossless.length_le (hz : ZstdLossless d) {plain packed : Bytes}
    (h : d.zstdEncode plain = .ok packed) : 4 ≤ packed.length :=
  (hz.magic h).length_le

theorem tag_not_prefix_utf8 (s : String) (t : UInt8) : [0xFD, t].isPrefixOf (utf8 s) = false := by
  cases h : utf8 s with
  | nil => rfl
  | cons b bs =>
    have hb : b < 0xF8 := utf8_byte_lt (by rw [h]; simp)
    have hne : ((0xFD : UInt8) == b) = false := by
      rw [beq_eq_false_iff_ne]
      rintro rfl
      exact absurd hb (by decide)
    simp [List.isPrefixOf, hne]

theorem storeFrame_cases {text : String} {compress : Bool} {stored : Bytes}
    (h : storeFrame d text compress = .ok stored) :
    stored = utf8 text ∨
      ∃ packed, d.zstdEncode (utf8 text) = .ok packed ∧ stored = frameTag ++ packed := by
  simp only [storeFrame] at h
  split at h
  · exact .inl (Except.ok.inj h).symm
  · split at h
    · cases h
    · next packed hp =>
      split at h
      · exact .inl (Except.ok.inj h).symm
      · exact .inr ⟨packed, hp, (Except.ok.inj h).symm⟩

theorem store_not_grouped {text : String} {compress : Bool} {stored : Bytes}
    (h : storeFrame d text compress = .ok stored) :
    isGroup stored = false ∧ isRedirect stored = false := by
  rcases storeFrame_cases h with rfl | ⟨packed, _, rfl⟩
  · exact ⟨tag_not_prefix_utf8 text 0x03, tag_not_prefix_utf8 text 0x02⟩
  · constructor <;> rfl

theorem load_store (hz : ZstdLossless d) {text : String} {compress : Bool} {stored : Bytes}
    (h : storeFrame d text compress = .ok stored) : loadFrame d stored = .ok text := by
  obtain ⟨hg, hr⟩ := store_not_grouped h
  rw [loadFrame, hg, hr]
  rcases storeFrame_cases h with rfl | ⟨packed, hp, rfl⟩
  · have ht : isTagged (utf8 text) = false := tag_not_prefix_utf8 text 0x01
    simp [ht]
  · have ht : isTagged (frameTag ++ packed) = true := by simp [isTagged]
    simp [ht, hz.undoes hp]

theorem open_store (hz : ZstdLossless d) {text : String} {compress : Bool} {stored : Bytes}
    (h : storeFrame d text compress = .ok stored) : openGroupOrSingle d stored = .ok [text] := by
  simp only [openGroupOrSingle, (store_not_grouped h).1, load_store hz h]
  rfl

theorem decode_store (hz : ZstdLossless d) {text : String} {compress : Bool} {stored : Bytes}
    (h : storeFrame d text compress = .ok stored) (fetch : UInt32 → Result Bytes) :
    decodeFrame d stored fetch = .ok text := by
  simp only [decodeFrame, (store_not_grouped h).2, open_store hz h]
  rfl

theorem splitPayload_groupPayload {run : List (UInt32 × String)}
    (hlen : ∀ f ∈ run, (utf8 f.2).length < 2 ^ 32) :
    splitPayload (groupPayload run) = .ok (run.map Prod.snd) := by
  induction run with
  | nil => simp [splitPayload, groupPayload]
  | cons f run ih =>
    have hf := hlen f (by simp)
    have hn : leNat (leBytes 4 (utf8 f.2).length) = (utf8 f.2).length := by
      rw [leNat_leBytes]
      exact Nat.mod_eq_of_lt hf
    have hp : groupPayload (f :: run) =
        leBytes 4 (utf8 f.2).length ++ (utf8 f.2 ++ groupPayload run) := by simp [groupPayload]
    have ht : (groupPayload (f :: run)).take 4 = leBytes 4 (utf8 f.2).length := by
      rw [hp, List.take_append_of_le_length (by simp), List.take_of_length_le (by simp)]
    have hd : (groupPayload (f :: run)).drop 4 = utf8 f.2 ++ groupPayload run := by
      rw [hp, List.drop_append_of_le_length (by simp), List.drop_of_length_le (by simp),
        List.nil_append]
    have h4 : 4 ≤ (groupPayload (f :: run)).length := by rw [hp]; simp
    rw [splitPayload, dif_neg (by omega), if_neg (by omega), ht, hd, hn, if_neg (by simp)]
    simp only [List.take_left, List.drop_left, ofUtf8_utf8,
      ih (fun g hg => hlen g (by simp [hg]))]
    rfl

theorem encodeGroup_ok {run : List (UInt32 × String)} {grouped : Bytes}
    (h : encodeGroup d run = .ok grouped) :
    (∀ f ∈ run, (utf8 f.2).length < 2 ^ 32) ∧
      ∃ packed, d.zstdEncode (groupPayload run) = .ok packed ∧
        grouped = groupTag ++ leBytes 4 run.length ++ packed := by
  simp only [encodeGroup] at h
  split at h
  · cases h
  · next hl =>
    split at h
    · cases h
    · next packed hp =>
      refine ⟨?_, packed, hp, (Except.ok.inj h).symm⟩
      intro f hf
      simp only [List.any_eq_true, decide_eq_true_eq, not_exists, not_and, not_lt] at hl
      have := hl f hf
      omega

theorem decodeGroup_encodeGroup (hz : ZstdLossless d) {run : List (UInt32 × String)}
    {grouped : Bytes} (h : encodeGroup d run = .ok grouped) (h2 : 2 ≤ run.length)
    (hr : run.length < 2 ^ 32) :
    decodeGroup d grouped = .ok (run.map Prod.snd) := by
  obtain ⟨hl, packed, hpk, rfl⟩ := encodeGroup_ok h
  have hn : leNat (leBytes 4 run.length) = run.length := by
    rw [leNat_leBytes]
    exact Nat.mod_eq_of_lt hr
  have hlen : (groupTag ++ leBytes 4 run.length ++ packed).length = 6 + packed.length := by
    simp [groupTag]
    omega
  have hd2 : ((groupTag ++ leBytes 4 run.length ++ packed).drop 2).take 4 = leBytes 4 run.length := by
    simp [groupTag]
  have hd6 : (groupTag ++ leBytes 4 run.length ++ packed).drop 6 = packed := by
    simp [groupTag]
  have hp := hz.length_le hpk
  rw [decodeGroup, if_neg (by omega)]
  simp only [hd2, hd6, hn, hz.undoes hpk]
  rw [if_neg (by omega), splitPayload_groupPayload hl]
  simp [bind, Except.bind]

theorem encodeGroup_isGroup {run : List (UInt32 × String)} {grouped : Bytes}
    (h : encodeGroup d run = .ok grouped) : isGroup grouped = true ∧ isRedirect grouped = false := by
  obtain ⟨_, packed, _, rfl⟩ := encodeGroup_ok h
  constructor
  · simp [isGroup, groupTag, List.isPrefixOf]
  · rfl

theorem parse_encodeRedirect (head slot : UInt32) (hs : slot ≠ 0) :
    isRedirect (encodeRedirect head slot) = true ∧
      parseRedirect (encodeRedirect head slot) = .ok (head, slot) := by
  have le4 (n : UInt32) : UInt32.ofNat (leNat (leBytes 4 n.toNat)) = n := by
    have hn : n.toNat % 256 ^ 4 = n.toNat := Nat.mod_eq_of_lt n.toNat_lt
    rw [leNat_leBytes, hn, UInt32.ofNat_toNat]
  have hh : ((encodeRedirect head slot).drop 2).take 4 = leBytes 4 head.toNat := by
    simp [encodeRedirect, redirTag]
  have hl : ((encodeRedirect head slot).drop 6).take 4 = leBytes 4 slot.toNat := by
    simp [encodeRedirect, redirTag]
  constructor
  · simp [encodeRedirect, redirTag, isRedirect, List.isPrefixOf]
  · rw [parseRedirect, if_neg (by simp [encodeRedirect, redirTag, redirLen]), hh, hl, le4, le4,
      if_neg hs]

-- `fetch` answers a redirect's head; it is only asked for indices of the list itself.
def Decodes (d : Crates F) (frames : List (UInt32 × String)) (rows : List Bytes) : Prop :=
  frames.length = rows.length ∧
    ∀ fetch : UInt32 → Result Bytes,
      List.Forall₂ (fun f row => fetch f.1 = .ok row) frames rows →
      List.Forall₂ (fun f row => decodeFrame d row fetch = .ok f.2) frames rows

theorem decodes_singles (hz : ZstdLossless d) (compress : Bool) {frames : List (UInt32 × String)}
    {rows : List Bytes}
    (h : List.Forall₂ (fun f row => storeFrame d f.2 compress = .ok row) frames rows) :
    Decodes d frames rows :=
  ⟨h.length_eq, fun fetch _ => h.imp fun _ _ hs => decode_store hz hs fetch⟩

theorem decodes_append {fs gs : List (UInt32 × String)} {rs ss : List Bytes}
    (hf : Decodes d fs rs) (hg : Decodes d gs ss) : Decodes d (fs ++ gs) (rs ++ ss) := by
  refine ⟨by rw [List.length_append, List.length_append, hf.1, hg.1], fun fetch h => ?_⟩
  have ht := List.forall₂_take fs.length h
  have hd := List.forall₂_drop fs.length h
  rw [List.take_left, hf.1, List.take_left] at ht
  rw [List.drop_left, hf.1, List.drop_left] at hd
  exact List.rel_append (hf.2 fetch ht) (hg.2 fetch hd)

theorem length_redirects (head : UInt32) (len : Nat) : (redirects head len).length = len - 1 := by
  simp [redirects]

theorem decode_redirect (hz : ZstdLossless d) {run : List (UInt32 × String)} {grouped : Bytes}
    (h : encodeGroup d run = .ok grouped) (h2 : 2 ≤ run.length) (hr : run.length < 2 ^ 32)
    {fetch : UInt32 → Result Bytes} {head : UInt32} (hf : fetch head = .ok grouped)
    {slot : Nat} {f : UInt32 × String} (h1 : 1 ≤ slot) (hs : run[slot]? = some f) :
    decodeFrame d (encodeRedirect head (UInt32.ofNat slot)) fetch = .ok f.2 := by
  have hlt : slot < run.length := (List.getElem?_eq_some_iff.mp hs).1
  have ht : (UInt32.ofNat slot).toNat = slot := by
    rw [UInt32.toNat_ofNat', Nat.mod_eq_of_lt (by omega)]
  have hne : UInt32.ofNat slot ≠ 0 := by
    intro h0
    have := congrArg UInt32.toNat h0
    rw [ht] at this
    simp at this
    omega
  obtain ⟨hi, hp⟩ := parse_encodeRedirect head (UInt32.ofNat slot) hne
  obtain ⟨hg, hng⟩ := encodeGroup_isGroup h
  simp [decodeFrame, hi, hp, bind, Except.bind, hf, hng, openGroupOrSingle, hg,
    decodeGroup_encodeGroup hz h h2 hr, ht, hs]

theorem decodes_group (hz : ZstdLossless d) {first : UInt32 × String} {rest : List (UInt32 × String)}
    {grouped : Bytes} (h : encodeGroup d (first :: rest) = .ok grouped) (h2 : rest ≠ [])
    (hr : (first :: rest).length < 2 ^ 32) :
    Decodes d (first :: rest) (grouped :: redirects first.1 (first :: rest).length) := by
  have hlen : 2 ≤ (first :: rest).length := by
    have := List.length_pos_iff.mpr h2
    simp
    omega
  refine ⟨by simp [length_redirects], fun fetch hfetch => ?_⟩
  obtain ⟨hhead, _⟩ := List.forall₂_cons.mp hfetch
  obtain ⟨hg, hng⟩ := encodeGroup_isGroup h
  refine .cons ?_ ?_
  · simp only [decodeFrame, hng, openGroupOrSingle, hg, decodeGroup_encodeGroup hz h hlen hr]
    rfl
  · rw [List.forall₂_iff_get]
    refine ⟨by simp [length_redirects], fun i hi hi' => ?_⟩
    have hs : (first :: rest)[i + 1]? = some (rest.get ⟨i, hi⟩) := by simp
    have hrow : (redirects first.1 (first :: rest).length).get ⟨i, hi'⟩ =
        encodeRedirect first.1 (UInt32.ofNat (i + 1)) := by
      simp [redirects, Nat.add_comm]
    rw [hrow]
    exact decode_redirect hz h hlen hr hhead (by omega) hs

theorem packRun_decodes (hz : ZstdLossless d) {run : List (UInt32 × String)} {rows : List Bytes}
    (h : packRun d run = .ok rows) (hr : run.length < 2 ^ 32) : Decodes d run rows := by
  rw [packRun] at h
  obtain ⟨singles, hs, h⟩ := bind_eq_ok.mp h
  have hsing : Decodes d run singles := decodes_singles hz true (mapM_eq_ok.mp hs)
  split at h
  · next first second rest =>
    obtain ⟨grouped, hg, h⟩ := bind_eq_ok.mp h
    split at h
    · rw [pure_eq_ok] at h
      subst h
      exact decodes_group hz hg (by simp) hr
    · rw [pure_eq_ok] at h
      exact h ▸ hsing
  · rw [pure_eq_ok] at h
    exact h ▸ hsing

theorem run_length_le {run : List (UInt32 × String)} (hs : run.Pairwise (fun f g => f.1 < g.1))
    (hg : run.IsChain (fun f g => sameGroup f g)) : run.length ≤ groupLen := by
  have hn : (run.map (fun f => f.1.toNat)).Nodup := by
    rw [List.Nodup, List.pairwise_map]
    refine hs.imp fun h => ?_
    rw [UInt32.lt_iff_toNat_lt] at h
    omega
  have hsub : (run.map (fun f => f.1.toNat)).toFinset ⊆
      Finset.Ico ((run.map (fun f => f.1.toNat / groupLen)).headD 0 * groupLen)
        ((run.map (fun f => f.1.toNat / groupLen)).headD 0 * groupLen + groupLen) := by
    cases run with
    | nil => simp
    | cons first rest =>
      have ht : Trans (fun f g => sameGroup f g = true) (fun f g => sameGroup f g = true)
          (fun f g => sameGroup f g = true) := ⟨fun hab hbc => by simp_all [sameGroup]⟩
      have hall := (List.pairwise_cons.mp (List.isChain_iff_pairwise.mp hg)).1
      intro n hmem
      rw [List.mem_toFinset, List.mem_map] at hmem
      obtain ⟨f, hf, rfl⟩ := hmem
      have hfg : first.1.toNat / groupLen = f.1.toNat / groupLen := by
        rcases List.mem_cons.mp hf with rfl | hf
        · rfl
        · simpa [sameGroup] using hall f hf
      rw [List.map_cons, List.headD_cons, Finset.mem_Ico, hfg]
      have hdm := Nat.div_add_mod f.1.toNat groupLen
      have hlt := Nat.mod_lt f.1.toNat (show 0 < groupLen by decide)
      rw [Nat.mul_comm]
      omega
  have hc := Finset.card_le_card hsub
  rwa [List.toFinset_card_of_nodup hn, List.length_map, Nat.card_Ico, Nat.add_sub_cancel_left] at hc

theorem decodes_flatten {runs : List (List (UInt32 × String))} {packed : List (List Bytes)}
    (h : List.Forall₂ (fun run rows => Decodes d run rows) runs packed) :
    Decodes d runs.flatten packed.flatten := by
  induction h with
  | nil => exact ⟨rfl, fun _ _ => .nil⟩
  | cons hr _ ih => exact decodes_append hr ih

theorem packAligned_decodes (hz : ZstdLossless d) {frames : List (UInt32 × String)}
    {rows : List Bytes} (hs : frames.Pairwise (fun f g => f.1 < g.1))
    (h : packAligned d frames = .ok rows) : Decodes d frames rows := by
  rw [packAligned] at h
  obtain ⟨packed, hp, h⟩ := bind_eq_ok.mp h
  rw [pure_eq_ok] at h
  subst h
  have hruns : List.Forall₂ (fun run rows => Decodes d run rows) (frames.splitBy sameGroup) packed := by
    refine (forall₂_with_mem (mapM_eq_ok.mp hp)).imp fun run rows hrun => packRun_decodes hz hrun.2 ?_
    have hsub : run.Sublist frames := by
      have hf := List.sublist_flatten_of_mem hrun.1
      rwa [List.flatten_splitBy] at hf
    have hle := run_length_le (hs.sublist hsub) (List.isChain_of_mem_splitBy hrun.1)
    exact lt_of_le_of_lt hle (by decide)
  have hflat := decodes_flatten hruns
  rwa [List.flatten_splitBy] at hflat

end Laws

end ReadconDb
