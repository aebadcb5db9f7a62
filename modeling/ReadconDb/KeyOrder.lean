import ReadconDb.Ranges
import ReadconDb.Library.Lexicographic

set_option linter.unusedSectionVars false

namespace ReadconDb

open ByteString Lexicographic

section Fields

def compareKeys (j k : FrameKey) : Ordering :=
  (compare j.trajId.toNat k.trajId.toNat).then (compare j.frameIdx.toNat k.frameIdx.toNat)

theorem compare_toBytes (j k : FrameKey) : compare j.toBytes.val k.toBytes.val = compareKeys j k := by
  have ht := compare_beBytes (w := 8) j.trajId.toNat_lt k.trajId.toNat_lt
  have hf := compare_beBytes (w := 4) j.frameIdx.toNat_lt k.frameIdx.toNat_lt
  rw [FrameKey.toBytes, FrameKey.toBytes, compare_append (by simp), ht, hf, compareKeys]

theorem compare_field {w m n : Nat} (hm : m < 256 ^ w) (hn : n < 256 ^ w) (j k : FrameKey) :
    compare (beBytes w m ++ j.toBytes.val) (beBytes w n ++ k.toBytes.val) = (compare m n).then (compareKeys j k) := by
  rw [compare_append (by simp), compare_beBytes hm hn, compare_toBytes]

theorem compare_tag (a b : UInt8) (s t : Bytes) :
    compare (a :: s) (b :: t) = (compare a.toNat b.toNat).then (compare s t) := by
  have hcons : compare ([a] ++ s) ([b] ++ t) = (compare [a] [b]).then (compare s t) :=
    compare_append (show [a].length = [b].length from rfl)
  rw [compare_singleton] at hcons
  exact hcons

theorem compare_binKey (x y : UInt64) (j k : FrameKey) :
    compare (binKey (Binary64.code x) j) (binKey (Binary64.code y) k) = (compareScalars x y).then (compareKeys j k) := by
  rw [binKey, binKey, compare_field (Binary64.code x).toNat_lt (Binary64.code y).toNat_lt, compare_code]

theorem mask_eq {a : UInt8} (h : a < 8) : a &&& 7 = a := by
  have hand : (a &&& 7).toNat = a.toNat % 2 ^ 3 := by
    rw [UInt8.toNat_and]
    exact Nat.and_two_pow_sub_one_eq_mod a.toNat 3
  have hlt : a.toNat < 8 := UInt8.lt_iff_toNat_lt.mp h
  rw [← UInt8.toNat_inj, hand]
  exact Nat.mod_eq_of_lt hlt

end Fields

section Keys

variable (F : Type) [Float64 F]

structure KeysOrdered : Prop where
  frame : ∀ j k : FrameKey, compare j.toBytes.val k.toBytes.val = compareKeys j k
  natoms : ∀ (m n : UInt32) (j k : FrameKey),
    compare (natomsKey m j).val (natomsKey n k).val = (compare m.toNat n.toNat).then (compareKeys j k)
  flag : ∀ (a b : UInt8) (j k : FrameKey),
    compare (flagKey a j).val (flagKey b k).val = (compare a.toNat b.toNat).then (compareKeys j k)
  pbc : ∀ (a b : UInt8) (j k : FrameKey), a < 8 → b < 8 →
    compare (pbcKey a j).val (pbcKey b k).val = (compare a.toNat b.toNat).then (compareKeys j k)
  scalar : ∀ key ∈ [energyBinKey (F := F), fmaxBinKey, massBinKey, volumeBinKey], ∀ (x y : F) (j k : FrameKey),
    isFinite x = true → isFinite y = true → ∃ a b, key x j = some a ∧ key y k = some b ∧
      compare a.val b.val = (compareScalars (Float64.toBits x) (Float64.toBits y)).then (compareKeys j k)
  channel : ∀ (a b : UInt8) (x y : F) (j k : FrameKey), isFinite x = true → isFinite y = true →
    ∃ s t, metaScalarKey a x j = some s ∧ metaScalarKey b y k = some t ∧ compare s.val t.val =
      (compare a.toNat b.toNat).then ((compareScalars (Float64.toBits x) (Float64.toBits y)).then (compareKeys j k))

def EndsIn (b : Bytes) (k : FrameKey) : Prop := FrameKey.fromBytes (b.drop (b.length - 12)) = some k

structure KeysInjective : Prop where
  frame : ∀ j k : FrameKey, j.toBytes.val = k.toBytes.val → j = k
  natoms : ∀ m n j k, (natomsKey m j).val = (natomsKey n k).val → m = n ∧ j = k
  flag : ∀ a b j k, (flagKey a j).val = (flagKey b k).val → a = b ∧ j = k
  pbc : ∀ a b j k, a < 8 → b < 8 → (pbcKey a j).val = (pbcKey b k).val → a = b ∧ j = k
  scalar : ∀ key ∈ [energyBinKey (F := F), fmaxBinKey, massBinKey, volumeBinKey], ∀ (x y : F) (j k : FrameKey) (b : Arr 20),
    key x j = some b → key y k = some b → x = y ∧ j = k
  channel : ∀ (s t : UInt8) (x y : F) (j k : FrameKey) (b : Arr 21),
    metaScalarKey s x j = some b → metaScalarKey t y k = some b → s = t ∧ x = y ∧ j = k
  text : ∀ key ∈ [symbolKey, formulaKey, topoKey], ∀ s t j k, key s j = key t k → s = t ∧ j = k
  elemCount : ∀ s t m n j k, elemCountKey s m j = elemCountKey t n k → s = t ∧ m = n ∧ j = k

structure KeysEnd : Prop where
  frame : ∀ k : FrameKey, EndsIn k.toBytes.val k
  natoms : ∀ n k, EndsIn (natomsKey n k).val k
  flag : ∀ a k, EndsIn (flagKey a k).val k
  pbc : ∀ a k, EndsIn (pbcKey a k).val k
  scalar : ∀ key ∈ [energyBinKey (F := F), fmaxBinKey, massBinKey, volumeBinKey], ∀ (x : F) (k : FrameKey) (b : Arr 20),
    key x k = some b → EndsIn b.val k
  channel : ∀ (a : UInt8) (x : F) (k : FrameKey) (b : Arr 21), metaScalarKey a x k = some b → EndsIn b.val k
  text : ∀ key ∈ [symbolKey, formulaKey, topoKey], ∀ s k, EndsIn (key s k) k
  elemCount : ∀ s n k, EndsIn (elemCountKey s n k) k

-- A scan for one string meets the keys of no other.
structure KeysSeparate : Prop where
  text : ∀ p ∈ [(symbolPrefix, symbolKey), (formulaPrefix, formulaKey), (topoPrefix, topoKey)], ∀ s t k,
    (p.1 t).isPrefixOf (p.2 s k) = true ↔ s = t
  elemCount : ∀ s t n k, (elemCountSymbolPrefix t).isPrefixOf (elemCountKey s n k) = true ↔ s = t
  parsed : ∀ s t n k, parseElemCountKey (elemCountKey s n k) t = if s = t then some (n, k) else none

variable {F}

theorem scalar_builder {key : F → FrameKey → Option (Arr 20)}
    (h : key ∈ [energyBinKey (F := F), fmaxBinKey, massBinKey, volumeBinKey]) : key = energyBinKey := by
  simp only [List.mem_cons, List.not_mem_nil, or_false] at h
  rcases h with rfl | rfl | rfl | rfl
  · rfl
  · rfl
  · rfl
  · rfl

theorem text_builder {key : String → FrameKey → Bytes} (h : key ∈ [symbolKey, formulaKey, topoKey]) :
    key = fun s k => sepPrefix s ++ k.toBytes.val := by
  simp only [List.mem_cons, List.not_mem_nil, or_false] at h
  rcases h with rfl | rfl | rfl
  · rfl
  · rfl
  · rfl

theorem orderedF64Bits_inj {x y : F} {o : UInt64} (hx : orderedF64Bits x = some o) (hy : orderedF64Bits y = some o) :
    x = y := by
  have hfx := orderedF64Bits_isSome.mp ⟨o, hx⟩
  have hfy := orderedF64Bits_isSome.mp ⟨o, hy⟩
  rw [orderedF64Bits_eq hfx] at hx
  rw [orderedF64Bits_eq hfy] at hy
  exact toBits_inj (code_inj (Option.some.inj (hx.trans hy.symm)))

theorem endsIn_append (a : Bytes) (k : FrameKey) : EndsIn (a ++ k.toBytes.val) k := by
  rw [EndsIn, drop_suffix_key, FrameKey.fromBytes_toBytes]

theorem append_key_inj {a b : Bytes} {j k : FrameKey} (h : a ++ j.toBytes.val = b ++ k.toBytes.val) : a = b ∧ j = k := by
  have hl : j.toBytes.val.length = k.toBytes.val.length := by rw [FrameKey.length_toBytes, FrameKey.length_toBytes]
  obtain ⟨ha, hk⟩ := List.append_inj' h hl
  exact ⟨ha, FrameKey.toBytes_inj.mp hk⟩

theorem tag_inj {a b : UInt8} {j k : FrameKey} (h : a :: j.toBytes.val = b :: k.toBytes.val) : a = b ∧ j = k := by
  obtain ⟨ha, hk⟩ := List.cons.inj h
  exact ⟨ha, FrameKey.toBytes_inj.mp hk⟩

variable (F)

theorem keysInjective : KeysInjective F where
  frame j k h := FrameKey.toBytes_inj.mp h
  natoms m n j k h := by
    obtain ⟨hb, hk⟩ := append_key_inj h
    exact ⟨UInt32.toNat_inj.mp (beBytes_inj m.toNat_lt n.toNat_lt hb), hk⟩
  flag a b j k h := tag_inj h
  pbc a b j k ha hb h := by
    rw [pbcKey, pbcKey, mask_eq ha, mask_eq hb] at h
    exact tag_inj h
  scalar key hkey x y j k b hx hy := by
    obtain rfl := scalar_builder hkey
    obtain ⟨o, ho, hb⟩ := energyBinKey_eq.mp hx
    obtain ⟨o', ho', hb'⟩ := energyBinKey_eq.mp hy
    have heq := hb.symm.trans hb'
    obtain rfl := binKey_inj heq
    exact ⟨orderedF64Bits_inj ho ho', (append_key_inj heq).2⟩
  channel s t x y j k b hx hy := by
    obtain ⟨o, ho, hb⟩ := metaScalarKey_eq.mp hx
    obtain ⟨o', ho', hb'⟩ := metaScalarKey_eq.mp hy
    obtain ⟨hs, heq⟩ := List.cons.inj (hb.symm.trans hb')
    obtain rfl := binKey_inj heq
    exact ⟨hs, orderedF64Bits_inj ho ho', (append_key_inj heq).2⟩
  text key hkey s t j k h := by
    rw [text_builder hkey] at h
    obtain ⟨hs, hk⟩ := sepPrefix_inj h
    exact ⟨hs, FrameKey.toBytes_inj.mp hk⟩
  elemCount s t m n j k h := by
    obtain ⟨hs, hrest⟩ := sepPrefix_inj h
    obtain ⟨hb, hk⟩ := append_key_inj hrest
    exact ⟨hs, UInt32.toNat_inj.mp (beBytes_inj m.toNat_lt n.toNat_lt hb), hk⟩

theorem keysEnd : KeysEnd F where
  frame k := endsIn_append [] k
  natoms n k := endsIn_append _ k
  flag a k := endsIn_append [a] k
  pbc a k := endsIn_append [a &&& 7] k
  scalar key hkey x k b h := by
    obtain rfl := scalar_builder hkey
    obtain ⟨o, _, hb⟩ := energyBinKey_eq.mp h
    rw [hb]
    exact endsIn_append _ k
  channel a x k b h := by
    obtain ⟨o, _, hb⟩ := metaScalarKey_eq.mp h
    rw [hb]
    exact endsIn_append (a :: beBytes 8 o.toNat) k
  text key hkey s k := by
    rw [text_builder hkey]
    exact endsIn_append _ k
  elemCount s n k := by
    rw [elemCountKey, ← List.append_assoc]
    exact endsIn_append _ k

theorem keysSeparate : KeysSeparate where
  text p hp s t k := by
    have hp' : p.1 t = sepPrefix t ∧ p.2 s k = sepPrefix s ++ k.toBytes.val := by
      simp only [List.mem_cons, List.not_mem_nil, or_false] at hp
      rcases hp with rfl | rfl | rfl
      · exact ⟨rfl, rfl⟩
      · exact ⟨rfl, rfl⟩
      · exact ⟨rfl, rfl⟩
    rw [hp'.1, hp'.2, sepPrefix_isPrefixOf, eq_comm]
  elemCount s t n k := by rw [elemCountSymbolPrefix, elemCountKey, sepPrefix_isPrefixOf, eq_comm]
  parsed s t n k := by
    split
    · next h =>
      subst h
      exact parseElemCountKey_key s n k
    · next h =>
      have hpre : (elemCountSymbolPrefix t).isPrefixOf (elemCountKey s n k) = false := by
        rw [elemCountSymbolPrefix, elemCountKey, Bool.eq_false_iff, ne_eq, sepPrefix_isPrefixOf, eq_comm]
        exact h
      simp [parseElemCountKey, hpre]

theorem keysOrdered : KeysOrdered F where
  frame := compare_toBytes
  natoms m n j k := compare_field m.toNat_lt n.toNat_lt j k
  flag a b j k := by rw [flagKey, flagKey, compare_tag, compare_toBytes]
  pbc a b j k ha hb := by rw [pbcKey, pbcKey, mask_eq ha, mask_eq hb, compare_tag, compare_toBytes]
  scalar key hkey x y j k hx hy := by
    obtain rfl := scalar_builder hkey
    rw [energyBinKey, energyBinKey, orderedF64Bits_eq hx, orderedF64Bits_eq hy]
    exact ⟨_, _, rfl, rfl, compare_binKey _ _ j k⟩
  channel a b x y j k hx hy := by
    rw [metaScalarKey, metaScalarKey, orderedF64Bits_eq hx, orderedF64Bits_eq hy]
    refine ⟨_, _, rfl, rfl, ?_⟩
    rw [compare_tag]
    exact congrArg _ (compare_binKey _ _ j k)

theorem index_keys_order_and_separate : KeysOrdered F ∧ KeysInjective F ∧ KeysEnd F ∧ KeysSeparate :=
  ⟨keysOrdered F, keysInjective F, keysEnd F, keysSeparate⟩

end Keys

end ReadconDb
