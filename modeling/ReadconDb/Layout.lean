import ReadconDb.Select

set_option linter.unusedSectionVars false

namespace ReadconDb

open ByteString Outcome OrderedTable

def binKey (ordered : UInt64) (fk : FrameKey) : Bytes := beBytes 8 ordered.toNat ++ fk.toBytes.val

def channelKey (channel : UInt8) (ordered : UInt64) (fk : FrameKey) : Bytes := channel :: binKey ordered fk

theorem binKey_inj {m n : UInt64} {j k : FrameKey} (h : binKey m j = binKey n k) : m = n := by
  have hb := (List.append_inj h (by simp)).1
  have hn := beBytes_inj m.toNat_lt n.toNat_lt hb
  exact UInt64.toNat_inj.mp hn

def LaidFor (k : FrameKey) : Index → Bytes → Prop
  | .idxNatoms, b => ∃ n, b = (natomsKey n k).val
  | .idxSymbol, b => ∃ sym, b = symbolKey sym k
  | .idxElemCount, b => ∃ sym n, b = elemCountKey sym n k
  | .idxFormula, b => ∃ formula, b = formulaKey formula k
  | .idxEnergy, b | .idxFmax, b | .idxMass, b | .idxVolume, b => ∃ o, b = binKey o k
  | .idxPbc, b => ∃ mask, b = (pbcKey mask k).val
  | .idxFlags, b => ∃ flag, b = (flagKey flag k).val
  | .idxMeta, b => ∃ ch o, b = channelKey ch o k

structure Laid {F : Type} (c : ConCorpus F) : Prop where
  frames : ∀ b ∈ c.frames, ∃ k, b = (FrameKey.toBytes k).val
  idx : ∀ i, ∀ b ∈ c.idx i, ∃ k, LaidFor k i b
  topo : ∀ idx, c.idxTopo = some idx → ∀ b ∈ idx, ∃ k hex, b = topoKey hex k

section Keys

variable {F : Type} [Float64 F]

theorem energyBinKey_eq {x : F} {k : FrameKey} {key : Arr 20} :
    energyBinKey x k = some key ↔ ∃ o, orderedF64Bits x = some o ∧ key.val = binKey o k := by
  rw [energyBinKey, Option.map_eq_some_iff]
  simp only [Subtype.ext_iff, binKey, eq_comm]

theorem metaScalarKey_eq {ch : UInt8} {x : F} {k : FrameKey} {key : Arr 21} :
    metaScalarKey ch x k = some key ↔ ∃ o, orderedF64Bits x = some o ∧ key.val = channelKey ch o k := by
  rw [metaScalarKey, Option.map_eq_some_iff]
  simp only [Subtype.ext_iff, channelKey, binKey, eq_comm]

theorem mem_firstSymbols {sym : String} {counts : List (String × UInt32)} {seen : List String} :
    sym ∈ firstSymbols seen counts ↔ sym ∉ seen ∧ ∃ n, (sym, n) ∈ counts := by
  induction counts generalizing seen with
  | nil => simp [firstSymbols]
  | cons sc counts ih =>
    obtain ⟨s, n⟩ := sc
    rw [firstSymbols]
    split
    · next hs =>
      rw [ih]
      refine and_congr_right fun hsym => ?_
      have hne : sym ≠ s := fun he => hsym (he ▸ hs)
      simp [hne]
    · next hs =>
      rw [List.mem_cons, ih]
      by_cases he : sym = s
      · subst he
        simp [hs]
      · simp [he]

theorem mem_bin_keys {x : Option F} {k : FrameKey} {b : Bytes} :
    b ∈ (x.bind fun x => energyBinKey x k).toList.map Subtype.val ↔
      ∃ v o, x = some v ∧ orderedF64Bits v = some o ∧ b = binKey o k := by
  simp only [List.mem_map, Option.mem_toList, Option.bind_eq_some_iff, energyBinKey_eq]
  constructor
  · rintro ⟨key, ⟨v, hv, o, ho, hk⟩, rfl⟩
    exact ⟨v, o, hv, ho, hk⟩
  · rintro ⟨v, o, hv, ho, rfl⟩
    exact ⟨⟨binKey o k, by simp [binKey]⟩, ⟨v, hv, o, ho, rfl⟩, rfl⟩

theorem mem_meta_keys {k : FrameKey} {channels : List (UInt8 × Option F)} {b : Bytes} :
    b ∈ (metaKeysOf k channels).map Subtype.val ↔
      ∃ ch v o, (ch, some v) ∈ channels ∧ orderedF64Bits v = some o ∧ b = channelKey ch o k := by
  simp only [metaKeysOf, List.mem_map, List.mem_filterMap, Option.bind_eq_some_iff, metaScalarKey_eq]
  constructor
  · rintro ⟨key, ⟨⟨ch, x⟩, hm, v, hv, o, ho, hk⟩, rfl⟩
    simp only at hv
    exact ⟨ch, v, o, hv ▸ hm, ho, hk⟩
  · rintro ⟨ch, v, o, hm, ho, rfl⟩
    exact ⟨⟨channelKey ch o k, by simp [channelKey, binKey]⟩, ⟨_, hm, v, rfl, o, ho, rfl⟩, rfl⟩

theorem screeningKeys_laid {k : FrameKey} {proj : FrameIndexProjection F} {i : Index} {b : Bytes}
    (h : b ∈ (screeningKeys k proj).keys i) : LaidFor k i b := by
  have hbin {x : Option F} (h : b ∈ (x.bind fun x => energyBinKey x k).toList.map Subtype.val) :
      ∃ o, b = binKey o k := by
    obtain ⟨_, o, _, _, hb⟩ := mem_bin_keys.mp h
    exact ⟨o, hb⟩
  cases i with
  | idxNatoms => exact ⟨_, List.mem_singleton.mp h⟩
  | idxSymbol =>
    obtain ⟨sym, _, rfl⟩ := List.mem_map.mp h
    exact ⟨sym, rfl⟩
  | idxElemCount =>
    obtain ⟨sc, _, rfl⟩ := List.mem_map.mp h
    exact ⟨sc.1, sc.2, rfl⟩
  | idxFormula =>
    simp only [ScreeningKeys.keys, screeningKeys, Option.mem_toList] at h
    split at h
    · cases h
    · exact ⟨_, (Option.some.inj h).symm⟩
  | idxEnergy => exact hbin h
  | idxFmax =>
    simp only [ScreeningKeys.keys, screeningKeys] at h
    split at h
    · exact hbin h
    · cases h
  | idxMass => exact hbin h
  | idxVolume => exact hbin h
  | idxPbc =>
    simp only [ScreeningKeys.keys, screeningKeys, List.mem_map, Option.mem_toList,
      Option.map_eq_some_iff] at h
    obtain ⟨_, ⟨p, _, rfl⟩, rfl⟩ := h
    exact ⟨_, rfl⟩
  | idxFlags =>
    obtain ⟨key, hk, rfl⟩ := List.mem_map.mp h
    simp only [screeningKeys, List.mem_append] at hk
    rcases hk with (hk | hk) | hk <;> split at hk <;> simp at hk
    · exact ⟨_, congrArg Subtype.val hk⟩
    · exact ⟨_, congrArg Subtype.val hk⟩
    · exact ⟨_, congrArg Subtype.val hk⟩
  | idxMeta =>
    obtain ⟨ch, _, o, _, _, hb⟩ := mem_meta_keys.mp h
    exact ⟨ch, o, hb⟩

end Keys

theorem LaidFor.suffix {k : FrameKey} {i : Index} {b : Bytes} (h : LaidFor k i b) : k.toBytes.val <:+ b := by
  cases i with
  | idxNatoms =>
    obtain ⟨n, rfl⟩ := h
    exact List.suffix_append _ _
  | idxSymbol | idxFormula =>
    obtain ⟨s, rfl⟩ := h
    exact List.suffix_append _ _
  | idxElemCount =>
    obtain ⟨s, n, rfl⟩ := h
    exact (List.suffix_append _ _).trans (List.suffix_append _ _)
  | idxEnergy | idxFmax | idxMass | idxVolume =>
    obtain ⟨o, rfl⟩ := h
    exact List.suffix_append _ _
  | idxPbc | idxFlags =>
    obtain ⟨tag, rfl⟩ := h
    exact List.suffix_cons _ _
  | idxMeta =>
    obtain ⟨ch, o, rfl⟩ := h
    exact (List.suffix_append _ _).trans (List.suffix_cons _ _)

-- Every key ends in the twelve bytes of its frame, so no two frames share one.
theorem suffix_key_inj {j k : FrameKey} {b : Bytes} (hj : j.toBytes.val <:+ b)
    (hk : k.toBytes.val <:+ b) : j = k := by
  have hl : j.toBytes.val.length = k.toBytes.val.length := by
    rw [FrameKey.length_toBytes, FrameKey.length_toBytes]
  exact FrameKey.toBytes_inj.mp ((List.suffix_of_suffix_length_le hj hk hl.le).eq_of_length hl)

theorem LaidFor.inj {j k : FrameKey} {i : Index} {b : Bytes} (hj : LaidFor j i b) (hk : LaidFor k i b) : j = k :=
  suffix_key_inj hj.suffix hk.suffix

theorem sepPrefix_inj {s t : String} {a b : Bytes} (h : sepPrefix s ++ a = sepPrefix t ++ b) :
    s = t ∧ a = b := by
  rw [sepPrefix, sepPrefix, List.append_assoc, List.append_assoc] at h
  exact utf8_sep_inj h

theorem sepPrefix_isPrefixOf {s t : String} {b : Bytes} :
    (sepPrefix s).isPrefixOf (sepPrefix t ++ b) = true ↔ s = t := by
  rw [List.isPrefixOf_iff_prefix]
  constructor
  · rintro ⟨rest, h⟩
    exact (sepPrefix_inj h).1
  · rintro rfl
    exact List.prefix_append _ _

section Scans

variable {keep : FrameKey → Bool} {t : Table Unit} {k : FrameKey}

theorem mem_collect {ks : List Bytes} {read : Bytes → Option FrameKey} :
    k ∈ collect keep ks read ↔ keep k = true ∧ ∃ b ∈ ks, read b = some k := by
  rw [collect, List.mem_toFinset, List.mem_filter, List.mem_filterMap, and_comm]

theorem mem_prefixIter {pref b : Bytes} : b ∈ prefixIter t pref ↔ b ∈ t ∧ pref.isPrefixOf b = true := by
  rw [prefixIter, List.mem_filter, Std.ExtTreeMap.mem_keys]

theorem drop_suffix_key (a : Bytes) (k : FrameKey) :
    (a ++ k.toBytes.val).drop ((a ++ k.toBytes.val).length - 12) = k.toBytes.val := by
  rw [List.length_append, FrameKey.length_toBytes, Nat.add_sub_cancel, List.drop_left]

theorem take_key (k : FrameKey) : k.toBytes.val.take 12 = k.toBytes.val :=
  List.take_of_length_le (FrameKey.length_toBytes k).le

theorem mem_scanPrefix {s : String} (ht : ∀ b ∈ t, ∃ j s', b = sepPrefix s' ++ FrameKey.toBytes j) :
    k ∈ scanPrefix keep t (sepPrefix s) ↔ keep k = true ∧ sepPrefix s ++ k.toBytes.val ∈ t := by
  rw [scanPrefix, mem_collect]
  refine and_congr_right fun _ => ?_
  constructor
  · rintro ⟨b, hb, hk⟩
    obtain ⟨hb, hpre⟩ := mem_prefixIter.mp hb
    obtain ⟨j, s', rfl⟩ := ht b hb
    obtain rfl := sepPrefix_isPrefixOf.mp hpre
    rw [if_neg (by simp), drop_suffix_key, FrameKey.fromBytes_toBytes, Option.some.injEq] at hk
    exact hk ▸ hb
  · intro hb
    refine ⟨_, mem_prefixIter.mpr ⟨hb, sepPrefix_isPrefixOf.mpr rfl⟩, ?_⟩
    rw [if_neg (by simp), drop_suffix_key, FrameKey.fromBytes_toBytes]

theorem mem_scanTagged {tag : UInt8} (ht : ∀ b ∈ t, ∃ j tag', b = tag' :: (FrameKey.toBytes j).val) :
    k ∈ scanTagged keep t tag ↔ keep k = true ∧ tag :: k.toBytes.val ∈ t := by
  rw [scanTagged, mem_collect]
  refine and_congr_right fun _ => ?_
  constructor
  · rintro ⟨b, hb, hk⟩
    obtain ⟨hb, hpre⟩ := mem_prefixIter.mp hb
    obtain ⟨j, tag', rfl⟩ := ht b hb
    obtain rfl : tag = tag' := by simpa [List.isPrefixOf] using hpre
    rw [if_neg (by simp), List.drop_one, List.tail_cons, take_key, FrameKey.fromBytes_toBytes,
      Option.some.injEq] at hk
    exact hk ▸ hb
  · intro hb
    refine ⟨_, mem_prefixIter.mpr ⟨hb, by simp [List.isPrefixOf]⟩, ?_⟩
    rw [if_neg (by simp), List.drop_one, List.tail_cons, take_key, FrameKey.fromBytes_toBytes]

theorem parseElemCountKey_key (sym : String) (n : UInt32) (k : FrameKey) :
    parseElemCountKey (elemCountKey sym n k) sym = some (n, k) := by
  have hn : beNat (beBytes 4 n.toNat) = n.toNat := by
    rw [beNat_beBytes]
    exact Nat.mod_eq_of_lt n.toNat_lt
  have hpre : (elemCountSymbolPrefix sym).isPrefixOf (elemCountKey sym n k) = true :=
    sepPrefix_isPrefixOf.mpr rfl
  have hlen : ¬ (elemCountKey sym n k).length < (elemCountSymbolPrefix sym).length + 4 + 12 := by
    simp only [elemCountKey, elemCountSymbolPrefix, List.length_append, length_beBytes, FrameKey.length_toBytes]
    omega
  have hcount : ((elemCountKey sym n k).drop (elemCountSymbolPrefix sym).length).take 4 = beBytes 4 n.toNat := by
    rw [elemCountKey, elemCountSymbolPrefix, List.drop_left]
    exact List.take_left' (length_beBytes 4 _)
  have hkey : ((elemCountKey sym n k).drop ((elemCountSymbolPrefix sym).length + 4)).take 12 = k.toBytes.val := by
    rw [elemCountKey, elemCountSymbolPrefix, ← List.drop_drop, List.drop_left,
      List.drop_left' (length_beBytes 4 _), take_key]
  simp [parseElemCountKey, hpre, hlen, hcount, hkey, hn, FrameKey.fromBytes_toBytes]

theorem mem_scanElemCount {sym : String} {accept : UInt32 → Bool}
    (ht : ∀ b ∈ t, ∃ j sym' n, b = elemCountKey sym' n j) :
    k ∈ scanElemCount keep t sym accept ↔ keep k = true ∧ ∃ n, accept n = true ∧ elemCountKey sym n k ∈ t := by
  rw [scanElemCount, mem_collect]
  refine and_congr_right fun _ => ?_
  constructor
  · rintro ⟨b, hb, hk⟩
    obtain ⟨hb, hpre⟩ := mem_prefixIter.mp hb
    obtain ⟨j, sym', n, rfl⟩ := ht b hb
    obtain rfl := sepPrefix_isPrefixOf.mp hpre
    rw [parseElemCountKey_key, Option.bind_some] at hk
    split at hk
    · next ha => exact ⟨n, ha, Option.some.inj hk ▸ hb⟩
    · cases hk
  · rintro ⟨n, ha, hb⟩
    refine ⟨_, mem_prefixIter.mpr ⟨hb, sepPrefix_isPrefixOf.mpr rfl⟩, ?_⟩
    rw [parseElemCountKey_key, Option.bind_some, if_pos ha]

section Bins

variable {w lo hi : Nat}

theorem take_bin (n : Nat) (k : FrameKey) : (beBytes w n ++ k.toBytes.val).take w = beBytes w n :=
  List.take_left' (length_beBytes w n)

theorem drop_bin (n : Nat) (k : FrameKey) : (beBytes w n ++ k.toBytes.val).drop w = k.toBytes.val :=
  List.drop_left' (length_beBytes w n)

theorem length_bin (n : Nat) (k : FrameKey) : (beBytes w n ++ k.toBytes.val).length = w + 12 := by
  rw [List.length_append, length_beBytes, FrameKey.length_toBytes]

def Bins (w : Nat) (t : Table Unit) : Prop :=
  ∀ b ∈ t, ∃ j n, n < 256 ^ w ∧ b = beBytes w n ++ (FrameKey.toBytes j).val

-- The keys come in byte order, so nothing past the first value above `hi` is in range.
theorem Bins.takeWhile (ht : Bins w t) :
    t.keys.takeWhile (fun k => k.length < w + 12 || beNat (k.take w) ≤ hi) =
      t.keys.filter (fun k => k.length < w + 12 || beNat (k.take w) ≤ hi) := by
  refine takeWhile_eq_filter (Std.ExtTreeMap.ordered_keys.imp_of_mem fun {a b} ha hb hlt => ?_)
  have hlen : ∀ c ∈ t.keys, c.length = w + 12 := by
    intro c hc
    obtain ⟨j, n, _, rfl⟩ := ht c (Std.ExtTreeMap.mem_keys.mp hc)
    exact length_bin n j
  have hla := hlen a ha
  have hlb := hlen b hb
  have hle := beNat_take_le (w := w) hlt (by omega) (by omega)
  simp only [hla, hlb, lt_irrefl, decide_false, Bool.false_or, decide_eq_true_eq]
  exact hle.trans

theorem mem_scanBins (ht : Bins w t) : k ∈ scanBins keep w lo hi t ↔
    keep k = true ∧ ∃ n, n < 256 ^ w ∧ lo ≤ n ∧ n ≤ hi ∧ beBytes w n ++ k.toBytes.val ∈ t := by
  rw [scanBins, ht.takeWhile, mem_collect]
  refine and_congr_right fun _ => ?_
  constructor
  · rintro ⟨b, hb, hk⟩
    obtain ⟨hb, hhi⟩ := List.mem_filter.mp hb
    rw [Std.ExtTreeMap.mem_keys] at hb
    obtain ⟨j, n, hn, rfl⟩ := ht b hb
    simp only [length_bin, take_bin, drop_bin, beNat_beBytes, Nat.mod_eq_of_lt hn, lt_irrefl, decide_false,
      Bool.false_or, decide_eq_true_eq, if_false] at hhi hk
    split at hk
    · next hlo =>
      rw [take_key, FrameKey.fromBytes_toBytes, Option.some.injEq] at hk
      exact ⟨n, hn, hlo, hhi, hk ▸ hb⟩
    · cases hk
  · rintro ⟨n, hn, hlo, hhi, hb⟩
    refine ⟨_, List.mem_filter.mpr ⟨Std.ExtTreeMap.mem_keys.mpr hb, ?_⟩, ?_⟩
    · simp [beNat_beBytes, Nat.mod_eq_of_lt hn, hhi]
    · simp [beNat_beBytes, Nat.mod_eq_of_lt hn, hlo, take_key, FrameKey.fromBytes_toBytes]

theorem mem_scanMeta {ch : UInt8} (ht : ∀ b ∈ t, ∃ j ch' o, b = channelKey ch' o j) :
    k ∈ scanMeta keep t ch lo hi ↔
      keep k = true ∧ ∃ o : UInt64, lo ≤ o.toNat ∧ o.toNat ≤ hi ∧ channelKey ch o k ∈ t := by
  have hbits (o : UInt64) : beNat (beBytes 8 o.toNat) = o.toNat := by
    rw [beNat_beBytes]
    exact Nat.mod_eq_of_lt o.toNat_lt
  have hlen (ch : UInt8) (o : UInt64) (j : FrameKey) : (channelKey ch o j).length = 21 := by
    rw [channelKey, List.length_cons, binKey, length_bin]
  have htake (ch : UInt8) (o : UInt64) (j : FrameKey) :
      ((channelKey ch o j).drop 1).take 8 = beBytes 8 o.toNat := take_bin _ _
  have hdrop (ch : UInt8) (o : UInt64) (j : FrameKey) : (channelKey ch o j).drop 9 = j.toBytes.val :=
    drop_bin _ _
  rw [scanMeta, mem_collect]
  refine and_congr_right fun _ => ?_
  constructor
  · rintro ⟨b, hb, hk⟩
    obtain ⟨hb, hpre⟩ := mem_prefixIter.mp hb
    obtain ⟨j, ch', o, rfl⟩ := ht b hb
    obtain rfl : ch = ch' := by simpa [List.isPrefixOf, channelKey] using hpre
    rw [hlen, htake, hdrop, hbits, take_key, FrameKey.fromBytes_toBytes, if_neg (by decide)] at hk
    split at hk
    · cases hk
    · next hhi =>
      split at hk
      · next hlo => exact ⟨o, hlo, not_lt.mp hhi, Option.some.inj hk ▸ hb⟩
      · cases hk
  · rintro ⟨o, hlo, hhi, hb⟩
    refine ⟨_, mem_prefixIter.mpr ⟨hb, by simp [List.isPrefixOf, channelKey]⟩, ?_⟩
    rw [hlen, htake, hdrop, hbits, take_key, FrameKey.fromBytes_toBytes, if_neg (by decide),
      if_neg (not_lt.mpr hhi), if_pos hlo]

end Bins

end Scans

end ReadconDb
