import ReadconDb.Catalog
import ReadconDb.Packing
import ReadconDb.Library.Slicing

set_option linter.unusedSectionVars false

namespace ReadconDb

open ByteString Outcome Slicing

section Back

variable {F : Type} {d : Crates F} {frames : List (UInt32 × String)}

structure PackedBack (d : Crates F) (frames : List (UInt32 × String)) (rows : List Bytes) : Prop where
  length : rows.length = frames.length
  decodes : ∀ fetchHead : UInt32 → Result Bytes,
    (∀ (j : Nat) f row, frames[j]? = some f → rows[j]? = some row → fetchHead f.1 = .ok row) →
      ∀ (j : Nat) f row, frames[j]? = some f → rows[j]? = some row → decodeFrame d row fetchHead = .ok f.2
  size : ∃ singles, frames.mapM (fun f => storeFrame d f.2 true) = .ok singles ∧ storedBytes rows ≤ storedBytes singles

theorem forall₂_getElem?_iff {A B : Type} {P : A → B → Prop} {as : List A} {bs : List B} (hl : as.length = bs.length) :
    List.Forall₂ P as bs ↔ ∀ (j : Nat) (a : A) (b : B), as[j]? = some a → bs[j]? = some b → P a b := by
  rw [List.forall₂_iff_get]
  constructor
  · rintro ⟨_, h⟩ j a b ha hb
    obtain ⟨hj, rfl⟩ := List.getElem?_eq_some_iff.mp ha
    obtain ⟨hj', rfl⟩ := List.getElem?_eq_some_iff.mp hb
    exact h j hj hj'
  · exact fun h => ⟨hl, fun j hj hj' => h j _ _ (List.getElem?_eq_getElem hj) (List.getElem?_eq_getElem hj')⟩

theorem packedBack_of_ok (hz : ZstdLossless d) (hs : frames.Pairwise fun f g => f.1 < g.1) {rows : List Bytes}
    (h : packAligned d frames = .ok rows) : PackedBack d frames rows := by
  obtain ⟨hlen, hdec⟩ := packAligned_decodes hz hs h
  exact
    { length := hlen.symm
      decodes := fun fetchHead hf =>
        (forall₂_getElem?_iff hlen).mp (hdec fetchHead ((forall₂_getElem?_iff hlen).mpr hf))
      size := packAligned_size h }

theorem packed_frames_decode_back (hz : ZstdLossless d) (he : ∀ b, ∃ z, d.zstdEncode b = .ok z)
    (hs : frames.Pairwise fun f g => f.1 < g.1) (hl : ∀ f ∈ frames, (utf8 f.2).length < 2 ^ 32) :
    (∃ rows, packAligned d frames = .ok rows ∧ PackedBack d frames rows) ∧
      (∀ text : String, isTagged (utf8 text) = false ∧ isRedirect (utf8 text) = false ∧ isGroup (utf8 text) = false) ∧
      ∀ text compress, ∃ stored, storeFrame d text compress = .ok stored ∧ loadFrame d stored = .ok text := by
  refine ⟨?_, fun text => ⟨tag_not_prefix_utf8 text 0x01, tag_not_prefix_utf8 text 0x02, tag_not_prefix_utf8 text 0x03⟩,
    fun text compress => ?_⟩
  · obtain ⟨rows, hrows⟩ := packAligned_total he hl
    exact ⟨rows, hrows, packedBack_of_ok hz hs hrows⟩
  · obtain ⟨stored, hstored⟩ := storeFrame_total he text compress
    exact ⟨stored, hstored, load_store hz hstored⟩

end Back

-- A frame alone in its block, then two that share the next one.
def tinySparse : List (UInt32 × String) := [(3, "a"), (64, hydrogen.2), (65, helium.2)]

theorem tinySparse_rows : (packAligned squeezing tinySparse).toOption.map
    (fun rows => rows.map fun row => (isGroup row, isRedirect row)) =
      some [(false, false), (true, false), (false, true)] := by decide +kernel

theorem tinySparse_decodes_back :
    ((packAligned squeezing tinySparse).toOption.map (fun rows => rows.map fun row => (isGroup row, isRedirect row)) =
      some [(false, false), (true, false), (false, true)]) ∧
      (∃ rows, packAligned squeezing tinySparse = .ok rows ∧ PackedBack squeezing tinySparse rows) ∧
      (∀ text : String, isTagged (utf8 text) = false ∧ isRedirect (utf8 text) = false ∧ isGroup (utf8 text) = false) ∧
      ∀ text compress, ∃ stored, storeFrame squeezing text compress = .ok stored ∧ loadFrame squeezing stored = .ok text :=
  ⟨tinySparse_rows,
    packed_frames_decode_back squeezing_lossless (fun _ => ⟨_, rfl⟩) (by decide) (by decide +kernel)⟩

section Checks

variable {F : Type} (d : Crates F)

def loadFrameChecked (stored : Bytes) : Checked Error String :=
  if isGroup stored || isRedirect stored then
    lift (.error (.message "corrupt frame value: grouped value needs decode_frame"))
  else if isTagged stored then do
    let packed ← slice stored frameTag.length stored.length
    match d.zstdDecode packed with
    | .error e => lift (.error (.message ("corrupt frame value: " ++ e)))
    | .ok plain =>
      match ofUtf8 plain with
      | none => lift (.error (.message "corrupt frame value: invalid utf-8 sequence"))
      | some text => lift (.ok text)
  else
    match ofUtf8 stored with
    | none => lift (.error corrupt)
    | some text => lift (.ok text)

def parseRedirectChecked (stored : Bytes) : Checked Error (UInt32 × UInt32) :=
  if stored.length ≠ redirLen then lift (.error corrupt)
  else do
    let head ← readU32 stored 2 6
    let slot ← readU32 stored 6 10
    if UInt32.ofNat slot = 0 then lift (.error corrupt)
    else lift (.ok (UInt32.ofNat head, UInt32.ofNat slot))

def groupLoop (plain : Bytes) (i : Nat) (out : List String) : Checked Error (List String × Nat) :=
  if _h : i < plain.length then do
    let left ← minus plain.length i
    if left < 4 then lift (.error corrupt)
    else do
      let len ← readU32 plain i (i + 4)
      let rest ← minus plain.length (i + 4)
      if rest < len then lift (.error corrupt)
      else do
        let b ← slice plain (i + 4) (i + 4 + len)
        match ofUtf8 b with
        | none => lift (.error corrupt)
        | some text => groupLoop plain (i + 4 + len) (out ++ [text])
  else lift (.ok (out, i))
  termination_by plain.length - i

variable (granted : Nat → Bool)

-- The count is reserved as it stands, before the payload is looked at.
def decodeGroupChecked (stored : Bytes) : Checked Error (List String) :=
  if stored.length < 6 + 4 then lift (.error corrupt)
  else do
    let n ← readU32 stored 2 6
    if n < 2 then lift (.error corrupt)
    else do
      let packed ← slice stored 6 stored.length
      match d.zstdDecode packed with
      | .error e => lift (.error (.message ("corrupt frame value: " ++ e)))
      | .ok plain => do
        reserve granted n
        let (out, i) ← groupLoop plain 0 []
        if out.length ≠ n ∨ i ≠ plain.length then lift (.error corrupt) else lift (.ok out)

def openGroupOrSingleChecked (stored : Bytes) : Checked Error (List String) :=
  if isGroup stored then decodeGroupChecked d granted stored
  else do return [← loadFrameChecked d stored]

def decodeFrameChecked (stored : Bytes) (fetchHead : UInt32 → Result Bytes) : Checked Error String :=
  if isRedirect stored then do
    let (head, slot) ← parseRedirectChecked stored
    let headBytes ← lift (fetchHead head)
    if isRedirect headBytes then lift (.error corrupt)
    else do
      let texts ← openGroupOrSingleChecked d granted headBytes
      match texts[slot.toNat]? with
      | some text => lift (.ok text)
      | none => lift (.error corrupt)
  else do
    let texts ← openGroupOrSingleChecked d granted stored
    match texts.head? with
    | some text => lift (.ok text)
    | none => lift (.error corrupt)

-- The count that is reserved room for, where a decoder comes that far.
def groupRoom (stored : Bytes) : Option Nat :=
  if stored.length < 6 + 4 ∨ leNat ((stored.drop 2).take 4) < 2 then none
  else (d.zstdDecode (stored.drop 6)).toOption.map fun _ => leNat ((stored.drop 2).take 4)

def openRoom (stored : Bytes) : Option Nat := if isGroup stored then groupRoom d stored else none

def frameRoom (stored : Bytes) (fetchHead : UInt32 → Result Bytes) : Option Nat :=
  if isRedirect stored then
    match parseRedirect stored >>= fun (head, _) => fetchHead head with
    | .error _ => none
    | .ok headBytes => if isRedirect headBytes then none else openRoom d headBytes
  else openRoom d stored

variable {d granted}

theorem loadFrame_checked (stored : Bytes) : loadFrameChecked d stored = lift (loadFrame d stored) := by
  rw [loadFrameChecked, loadFrame]
  split
  · rfl
  · split
    · next ht =>
      have hlen : frameTag.length ≤ stored.length := (List.isPrefixOf_iff_prefix.mp ht).length_le
      have htake : (stored.drop frameTag.length).take (stored.length - frameTag.length) = stored.drop frameTag.length :=
        List.take_of_length_le (by rw [List.length_drop])
      rw [slice_ok hlen le_rfl, lift_ok_bind, htake]
      cases d.zstdDecode (stored.drop frameTag.length) with
      | error e => rfl
      | ok plain =>
        simp only
        cases ofUtf8 plain <;> rfl
    · cases ofUtf8 stored <;> rfl

theorem parseRedirect_checked (stored : Bytes) : parseRedirectChecked stored = lift (parseRedirect stored) := by
  rw [parseRedirectChecked, parseRedirect]
  split
  · rfl
  · next hlen =>
    have hten : stored.length = 10 := not_not.mp hlen
    rw [readU32_ok 2 (by omega), readU32_ok 6 (by omega)]
    simp only [lift_ok_bind]
    split
    · rfl
    · rfl

theorem groupLoop_end (plain : Bytes) (out : List String) :
    groupLoop plain plain.length out =
      lift ((fun more => (out ++ more, plain.length)) <$> splitPayload (plain.drop plain.length)) := by
  rw [groupLoop, dif_neg (lt_irrefl _), splitPayload, dif_pos (by simp)]
  simp [Functor.map, Except.map]

theorem groupLoop_eq {plain : Bytes} {n i : Nat} (hn : plain.length - i ≤ n) (hi : i ≤ plain.length)
    (out : List String) :
    groupLoop plain i out = lift ((fun more => (out ++ more, plain.length)) <$> splitPayload (plain.drop i)) := by
  induction n generalizing i out with
  | zero =>
    obtain rfl : i = plain.length := by omega
    exact groupLoop_end plain out
  | succ n ih =>
    rcases hi.eq_or_lt with rfl | hlt
    · exact groupLoop_end plain out
    · have hlen : (plain.drop i).length = plain.length - i := List.length_drop
      rw [groupLoop, splitPayload, dif_pos hlt, dif_neg (by omega), minus_ok hi, lift_ok_bind, hlen]
      split
      · rfl
      · next h4 =>
        have hd : (plain.drop i).drop 4 = plain.drop (i + 4) := List.drop_drop
        have hl4 : (plain.drop (i + 4)).length = plain.length - (i + 4) := List.length_drop
        rw [readU32_ok _ (by omega), lift_ok_bind, minus_ok (by omega), lift_ok_bind, hd, hl4]
        split
        · rfl
        · next hrest =>
          rw [slice_ok (Nat.le_add_right _ _) (by omega), lift_ok_bind, Nat.add_sub_cancel_left]
          cases ofUtf8 ((plain.drop (i + 4)).take (leNat ((plain.drop i).take 4))) with
          | none => rfl
          | some text =>
            have hnext := ih (i := i + 4 + leNat ((plain.drop i).take 4)) (by omega) (by omega) (out ++ [text])
            simp only [hnext, List.drop_drop]
            cases splitPayload (plain.drop (i + 4 + leNat ((plain.drop i).take 4))) with
            | error e => rfl
            | ok more => simp [Functor.map, Except.map, bind, Except.bind, pure, Except.pure]

theorem decodeGroup_checked (stored : Bytes) : decodeGroupChecked d granted stored =
    within granted (groupRoom d stored) (lift (decodeGroup d stored)) := by
  rw [decodeGroupChecked, decodeGroup, groupRoom]
  split
  · next hlen =>
    rw [if_pos (.inl hlen)]
    rfl
  · next hlen =>
    rw [readU32_ok 2 (by omega), lift_ok_bind]
    simp only
    split
    · next htwo =>
      rw [if_pos (.inr htwo)]
      rfl
    · next htwo =>
      have htake : (stored.drop 6).take (stored.length - 6) = stored.drop 6 :=
        List.take_of_length_le (by rw [List.length_drop])
      rw [slice_ok (by omega) le_rfl, lift_ok_bind, htake, if_neg (not_or.mpr ⟨hlen, htwo⟩)]
      cases d.zstdDecode (stored.drop 6) with
      | error e => rfl
      | ok plain =>
        refine congrArg (within granted (some _)) ?_
        simp only [groupLoop_eq le_rfl (Nat.zero_le plain.length), List.drop_zero, List.nil_append]
        cases splitPayload plain with
        | error e => rfl
        | ok out =>
          simp only [Functor.map, Except.map, lift_ok_bind, not_true_eq_false, ne_eq, or_false]
          split <;> simp [bind, Except.bind, *]

theorem openGroupOrSingle_checked (stored : Bytes) : openGroupOrSingleChecked d granted stored =
    within granted (openRoom d stored) (lift (openGroupOrSingle d stored)) := by
  rw [openGroupOrSingleChecked, openGroupOrSingle, openRoom]
  split
  · exact decodeGroup_checked stored
  · rw [loadFrame_checked]
    cases loadFrame d stored <;> rfl

theorem decodeFrame_checked (stored : Bytes) (fetchHead : UInt32 → Result Bytes) :
    decodeFrameChecked d granted stored fetchHead =
      within granted (frameRoom d stored fetchHead) (lift (decodeFrame d stored fetchHead)) := by
  have hopen (b : Bytes) {f : List String → Checked Error String} {g : List String → Result String}
      (hf : ∀ texts, f texts = lift (g texts)) : (openGroupOrSingleChecked d granted b >>= f) =
        within granted (openRoom d b) (lift (openGroupOrSingle d b >>= g)) := by
    rw [openGroupOrSingle_checked, within_bind]
    exact congrArg (within granted _) (lift_bind_lift fun texts _ => hf texts)
  rw [decodeFrameChecked, decodeFrame, frameRoom]
  split
  · rw [parseRedirect_checked]
    cases parseRedirect stored with
    | error e => rfl
    | ok where_ =>
      obtain ⟨head, slot⟩ := where_
      have hhead {A : Type} (f : UInt32 × UInt32 → Result A) : (Except.ok (head, slot) >>= f) = f (head, slot) := rfl
      rw [hhead, hhead, lift_ok_bind]
      dsimp only
      cases fetchHead head with
      | error e => rfl
      | ok headBytes =>
        have hbytes {A : Type} (f : Bytes → Result A) : (Except.ok headBytes >>= f) = f headBytes := rfl
        simp only [hbytes, lift_ok_bind]
        split
        · rfl
        · refine hopen headBytes fun texts => ?_
          cases texts[slot.toNat]? <;> rfl
  · refine hopen stored fun texts => ?_
    cases texts.head? <;> rfl

end Checks

section Grammar

variable {F : Type} {d : Crates F}

def textsPayload (texts : List String) : Bytes := texts.flatMap fun text => leBytes 4 (utf8 text).length ++ utf8 text

theorem groupPayload_texts (run : List (UInt32 × String)) : groupPayload run = textsPayload (run.map Prod.snd) := by
  rw [groupPayload, textsPayload, List.flatMap_map]

structure GroupValue (d : Crates F) (stored : Bytes) (texts : List String) : Prop where
  framed : ∃ packed, stored = groupTag ++ leBytes 4 texts.length ++ packed ∧
    d.zstdDecode packed = .ok (textsPayload texts)
  several : 2 ≤ texts.length
  counted : texts.length < 2 ^ 32
  short : ∀ text ∈ texts, (utf8 text).length < 2 ^ 32

-- No zstd frame is shorter than its magic number, skippable frames included.
structure ZstdMinimum (d : Crates F) : Prop where
  short : ∀ {packed plain}, d.zstdDecode packed = .ok plain → packed.length < 4 → plain = []

theorem split_textsPayload {texts : List String} (hs : ∀ text ∈ texts, (utf8 text).length < 2 ^ 32) :
    splitPayload (textsPayload texts) = .ok texts := by
  have hrun : ∀ f ∈ texts.map fun text => ((0 : UInt32), text), (utf8 f.2).length < 2 ^ 32 := by
    intro f hf
    obtain ⟨text, htext, rfl⟩ := List.mem_map.mp hf
    exact hs text htext
  have hsplit := splitPayload_groupPayload hrun
  rw [groupPayload_texts, List.map_map] at hsplit
  simpa using hsplit

theorem splitPayload_inv {plain : Bytes} {texts : List String} (h : splitPayload plain = .ok texts) :
    plain = textsPayload texts ∧ ∀ text ∈ texts, (utf8 text).length < 2 ^ 32 := by
  induction plain using splitPayload.induct generalizing texts with
  | case1 plain hnil =>
    rw [splitPayload, dif_pos hnil] at h
    obtain rfl := Except.ok.inj h
    exact ⟨List.eq_nil_of_length_eq_zero hnil, by simp⟩
  | case2 plain hne hlt =>
    rw [splitPayload, dif_neg hne, if_pos hlt] at h
    cases h
  | case3 plain hne hlt hrest =>
    rw [splitPayload, dif_neg hne, if_neg hlt, if_pos hrest] at h
    cases h
  | case4 plain hne hlt hrest hbad =>
    rw [splitPayload, dif_neg hne, if_neg hlt, if_neg hrest, hbad] at h
    cases h
  | case5 plain hne hlt hrest text htext ih =>
    rw [splitPayload, dif_neg hne, if_neg hlt, if_neg hrest, htext] at h
    obtain ⟨more, hmore, h⟩ := bind_eq_ok.mp h
    obtain rfl := pure_eq_ok.mp h
    obtain ⟨hp, hs⟩ := ih hmore
    have hfour : (plain.take 4).length = 4 := by
      rw [List.length_take]
      omega
    have hutf := utf8_of_ofUtf8 htext
    have hlen : (utf8 text).length = leNat (plain.take 4) := by
      rw [hutf, List.length_take]
      omega
    have hword : leBytes 4 (leNat (plain.take 4)) = plain.take 4 := by
      have hback := leBytes_leNat (plain.take 4)
      rwa [hfour] at hback
    have hfits : leNat (plain.take 4) < 2 ^ 32 := by
      have hlt' := leNat_lt (plain.take 4)
      rwa [hfour] at hlt'
    refine ⟨?_, List.forall_mem_cons.mpr ⟨hlen ▸ hfits, hs⟩⟩
    calc plain = plain.take 4 ++ ((plain.drop 4).take (leNat (plain.take 4)) ++
          (plain.drop 4).drop (leNat (plain.take 4))) := by rw [List.take_append_drop, List.take_append_drop]
      _ = leBytes 4 (utf8 text).length ++ (utf8 text ++ textsPayload more) := by rw [hlen, hword, hutf, ← hp]
      _ = textsPayload (text :: more) := by simp [textsPayload]

theorem decodeGroup_inv {stored : Bytes} {texts : List String} (hg : isGroup stored = true)
    (h : decodeGroup d stored = .ok texts) : GroupValue d stored texts := by
  rw [decodeGroup] at h
  split at h
  · cases h
  · next hlen =>
    simp only at h
    split at h
    · cases h
    · next htwo =>
      split at h
      · cases h
      · next plain hplain =>
        obtain ⟨out, hout, h⟩ := bind_eq_ok.mp h
        split at h
        · cases h
        · next hn =>
          obtain rfl := Except.ok.inj h
          obtain ⟨rfl, hs⟩ := splitPayload_inv hout
          obtain ⟨tail, rfl⟩ := List.isPrefixOf_iff_prefix.mp hg
          have hcount : out.length = leNat (tail.take 4) := not_not.mp hn
          have hfour : (tail.take 4).length = 4 := by
            rw [List.length_append, groupTag] at hlen
            rw [List.length_take]
            simp at hlen
            omega
          have hword : leBytes 4 out.length = tail.take 4 := by
            have hback := leBytes_leNat (tail.take 4)
            rwa [hfour, ← hcount] at hback
          have hfits := leNat_lt (tail.take 4)
          rw [hfour, ← hcount] at hfits
          exact
            { framed := ⟨tail.drop 4, by rw [hword, List.append_assoc, List.take_append_drop], hplain⟩
              several := hcount ▸ not_lt.mp htwo
              counted := hfits
              short := hs }

theorem decodeGroup_of_value (hz : ZstdMinimum d) {stored : Bytes} {texts : List String} (h : GroupValue d stored texts) :
    isGroup stored = true ∧ decodeGroup d stored = .ok texts := by
  obtain ⟨⟨packed, rfl, hpacked⟩, h2, hc, hs⟩ := h
  have hne : textsPayload texts ≠ [] := by
    cases texts with
    | nil => simp at h2
    | cons text texts => simp [textsPayload, leBytes]
  have hfour : 4 ≤ packed.length := not_lt.mp fun hlt => hne (hz.short hpacked hlt)
  have hn : leNat (leBytes 4 texts.length) = texts.length := by
    rw [leNat_leBytes]
    exact Nat.mod_eq_of_lt hc
  have hlen : (groupTag ++ leBytes 4 texts.length ++ packed).length = 6 + packed.length := by
    simp [groupTag]
    omega
  have hword : ((groupTag ++ leBytes 4 texts.length ++ packed).drop 2).take 4 = leBytes 4 texts.length := by
    simp [groupTag]
  have hrest : (groupTag ++ leBytes 4 texts.length ++ packed).drop 6 = packed := by simp [groupTag]
  constructor
  · simp [isGroup, groupTag, List.isPrefixOf]
  · rw [decodeGroup, if_neg (by omega)]
    simp only [hword, hrest, hn, hpacked]
    rw [if_neg (by omega), split_textsPayload hs]
    simp [bind, Except.bind]

theorem parseRedirect_iff {stored : Bytes} {head slot : UInt32} :
    (isRedirect stored = true ∧ parseRedirect stored = .ok (head, slot)) ↔
      stored = encodeRedirect head slot ∧ slot ≠ 0 := by
  constructor
  · rintro ⟨hr, h⟩
    rw [parseRedirect] at h
    split at h
    · cases h
    · next hlen =>
      simp only at h
      split at h
      · cases h
      · next hne =>
        obtain ⟨tail, rfl⟩ := List.isPrefixOf_iff_prefix.mp hr
        obtain ⟨rfl, rfl⟩ := Prod.mk.inj (Except.ok.inj h)
        refine ⟨?_, hne⟩
        have htail : tail.length = 8 := by
          simp [redirTag, redirLen] at hlen
          omega
        have hword (b : Bytes) (hb : b.length = 4) : leBytes 4 (UInt32.ofNat (leNat b)).toNat = b := by
          have hlt : leNat b < 2 ^ 32 := by
            have hlt' := leNat_lt b
            rwa [hb] at hlt'
          have hback := leBytes_leNat b
          rw [UInt32.toNat_ofNat', Nat.mod_eq_of_lt hlt]
          rwa [hb] at hback
        have hd2 : ((redirTag ++ tail).drop 2).take 4 = tail.take 4 := by simp [redirTag]
        have hd6 : ((redirTag ++ tail).drop 6).take 4 = tail.drop 4 := by
          simp [redirTag, htail]
        rw [encodeRedirect, hd2, hd6, hword _ (by rw [List.length_take]; omega),
          hword _ (by rw [List.length_drop]; omega), List.append_assoc, List.take_append_drop]
  · rintro ⟨rfl, hs⟩
    exact parse_encodeRedirect head slot hs

-- A redirect opens exactly where its head is there, is no redirect and has the slot.
theorem decodeFrame_redirect_iff {stored : Bytes} {fetchHead : UInt32 → Result Bytes} {text : String}
    (hr : isRedirect stored = true) :
    decodeFrame d stored fetchHead = .ok text ↔
      ∃ head slot headBytes texts, stored = encodeRedirect head slot ∧ slot ≠ 0 ∧ fetchHead head = .ok headBytes ∧
        isRedirect headBytes = false ∧ openGroupOrSingle d headBytes = .ok texts ∧
          texts[slot.toNat]? = some text := by
  rw [decodeFrame, if_pos hr]
  constructor
  · intro h
    obtain ⟨⟨head, slot⟩, hp, h⟩ := bind_eq_ok.mp h
    obtain ⟨headBytes, hf, h⟩ := bind_eq_ok.mp h
    obtain ⟨hs, hne⟩ := parseRedirect_iff.mp ⟨hr, hp⟩
    split at h
    · cases h
    · next hhead =>
      obtain ⟨texts, ho, h⟩ := bind_eq_ok.mp h
      split at h
      · next found hfound =>
        obtain rfl := Except.ok.inj h
        exact ⟨head, slot, headBytes, texts, hs, hne, hf, Bool.not_eq_true _ ▸ hhead, ho, hfound⟩
      · cases h
  · rintro ⟨head, slot, headBytes, texts, rfl, hne, hf, hhead, ho, hfound⟩
    simp [(parse_encodeRedirect head slot hne).2, hf, hhead, ho, hfound, bind, Except.bind]

structure DecodesExactly (d : Crates F) : Prop where
  returns : ∀ granted stored fetchHead, (frameRoom d stored fetchHead).all granted = true →
    decodeFrameChecked d granted stored fetchHead = lift (decodeFrame d stored fetchHead)
  stops : ∀ granted stored fetchHead, NeverPanics (decodeFrameChecked d granted stored fetchHead) ↔
    (frameRoom d stored fetchHead).all granted = true
  group : ∀ stored texts, isGroup stored = true ∧ decodeGroup d stored = .ok texts ↔ GroupValue d stored texts
  reencodes : ∀ stored run, isGroup stored = true → decodeGroup d stored = .ok (run.map Prod.snd) →
    d.zstdDecode (stored.drop 6) = .ok (groupPayload run)
  redirect : ∀ stored head slot, isRedirect stored = true ∧ parseRedirect stored = .ok (head, slot) ↔
    stored = encodeRedirect head slot ∧ slot ≠ 0
  opens : ∀ stored fetchHead text, isRedirect stored = true → (decodeFrame d stored fetchHead = .ok text ↔
    ∃ head slot headBytes texts, stored = encodeRedirect head slot ∧ slot ≠ 0 ∧ fetchHead head = .ok headBytes ∧
      isRedirect headBytes = false ∧ openGroupOrSingle d headBytes = .ok texts ∧ texts[slot.toNat]? = some text)
  headMissing : ∀ stored head slot fetchHead e, isRedirect stored = true → parseRedirect stored = .ok (head, slot) →
    fetchHead head = .error e → decodeFrame d stored fetchHead = .error e
  headRedirects : ∀ stored head slot fetchHead headBytes, isRedirect stored = true →
    parseRedirect stored = .ok (head, slot) → fetchHead head = .ok headBytes → isRedirect headBytes = true →
      decodeFrame d stored fetchHead = .error corrupt
  slotMissing : ∀ stored head slot fetchHead headBytes texts, isRedirect stored = true →
    parseRedirect stored = .ok (head, slot) → fetchHead head = .ok headBytes → isRedirect headBytes = false →
      openGroupOrSingle d headBytes = .ok texts → texts.length ≤ slot.toNat →
        decodeFrame d stored fetchHead = .error corrupt

theorem decoder_accepts_grammar (hz : ZstdMinimum d) : DecodesExactly d where
  returns granted stored fetchHead hg := (decodeFrame_checked stored fetchHead).trans (within_granted hg _)
  stops granted stored fetchHead := by
    rw [decodeFrame_checked]
    exact within_never
  group stored texts := ⟨fun h => decodeGroup_inv h.1 h.2, decodeGroup_of_value hz⟩
  reencodes stored run hg h := by
    obtain ⟨packed, rfl, hpacked⟩ := (decodeGroup_inv hg h).framed
    rw [groupPayload_texts, ← hpacked]
    simp [groupTag]
  redirect stored head slot := parseRedirect_iff
  opens stored fetchHead text hr := decodeFrame_redirect_iff hr
  headMissing stored head slot fetchHead e hr hp hf := by simp [decodeFrame, hr, hp, hf, bind, Except.bind]
  headRedirects stored head slot fetchHead headBytes hr hp hf hh := by
    simp [decodeFrame, hr, hp, hf, hh, bind, Except.bind]
  slotMissing stored head slot fetchHead headBytes texts hr hp hf hh ho hs := by
    simp [decodeFrame, hr, hp, hf, hh, ho, List.getElem?_eq_none hs, bind, Except.bind]

theorem tiny_minimum : ZstdMinimum tiny where
  short {packed plain} h hlt := by
    simp only [tiny, Catalog.crates, tinyBase] at h
    split at h
    · next hmagic =>
      have hle := (List.isPrefixOf_iff_prefix.mp hmagic).length_le
      have hfour : tinyZstd.length = 4 := rfl
      omega
    · cases h

theorem tiny_decodes_exactly : DecodesExactly tiny := decoder_accepts_grammar tiny_minimum

end Grammar

end ReadconDb
