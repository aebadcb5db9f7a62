import ReadconDb.Library.Binary64
import ReadconDb.Predicates

set_option linter.unusedSectionVars false

namespace ReadconDb

open ByteString Outcome OrderedTable

section Ranges

variable {F : Type} [Float64 F]

def IeeeLe (x y : F) : Prop := Binary64.Le (Float64.toBits x) (Float64.toBits y)

def negZero : F := Float64.ofBits Binary64.negZero

def Scalar.range (lo hi : Option F) : Scalar → Select F
  | .energy => { energyMin := lo, energyMax := hi }
  | .fmax => { fmaxMin := lo, fmaxMax := hi }
  | .mass => { massMin := lo, massMax := hi }
  | .volume => { volumeMin := lo, volumeMax := hi }
  | .time => { timeMin := lo, timeMax := hi }
  | .timestep => { timestepMin := lo, timestepMax := hi }
  | .frameIndex => { frameIndexMin := lo, frameIndexMax := hi }
  | .nebBead => { nebBeadMin := lo, nebBeadMax := hi }
  | .nebBand => { nebBandMin := lo, nebBandMax := hi }
  | .charge => { chargeMin := lo, chargeMax := hi }
  | .magmom => { magmomMin := lo, magmomMax := hi }

-- A bound that is a NaN or the wrong infinity has no code, and the scan goes on as if it were not there.
def LowerIgnored (lo : Option F) : Prop := ∃ l, lo = some l ∧ isFinite l = false ∧ l ≠ negInfinity
def UpperIgnored (hi : Option F) : Prop := ∃ h, hi = some h ∧ isFinite h = false ∧ h ≠ infinity

-- The two zeros have two codes, and an fmax range without a lower bound starts at the positive one.
def LowerMissed (ch : Scalar) (lo hi : Option F) (x : F) : Prop :=
  (lo = some zeroF64 ∧ x = negZero) ∨ (ch = .fmax ∧ lo = none ∧ hi.isSome = true ∧ isSignNegative x = true)
def UpperMissed (hi : Option F) (x : F) : Prop := hi = some negZero ∧ x = zeroF64

def Below (lo : Option F) (x : F) : Prop := ∃ l, lo = some l ∧ isFinite l = true ∧ ¬ OrdLe l x
def Above (hi : Option F) (x : F) : Prop := ∃ h, hi = some h ∧ isFinite h = true ∧ ¬ OrdLe x h

structure RangeMeant (ch : Scalar) (lo hi : Option F) (x : F) : Prop where
  lower : LowerIgnored lo → Above hi x
  upper : UpperIgnored hi → Below (ch.start lo) x
  lowerZero : LowerMissed ch lo hi x → ¬ ∀ h, hi = some h → IeeeLe x h
  upperZero : UpperMissed hi x → ¬ ∀ l, lo = some l → IeeeLe l x

variable {x y : F} {o : UInt64} {lo hi : Option F} {ch : Scalar}

theorem isFinite_iff : isFinite x = true ↔ Binary64.Finite (Float64.toBits x) := Binary64.finite_iff _

theorem toBits_inj (h : Float64.toBits x = Float64.toBits y) : x = y := by
  rw [← Float64.ofBits_toBits x, h, Float64.ofBits_toBits]

theorem eq_ofBits_iff {b : UInt64} : x = Float64.ofBits b ↔ Float64.toBits x = b := by
  constructor
  · rintro rfl
    exact Float64.toBits_ofBits b
  · exact fun h => toBits_inj (h.trans (Float64.toBits_ofBits b).symm)

theorem eq_ofBits_iff_toNat {b : UInt64} : x = Float64.ofBits b ↔ (Float64.toBits x).toNat = b.toNat := by
  rw [eq_ofBits_iff, UInt64.toNat_inj]

theorem orderedF64Bits_eq (hx : isFinite x = true) :
    orderedF64Bits x = some (Binary64.code (Float64.toBits x)) := by
  rw [orderedF64Bits, hx]
  rfl

theorem ordLe_iff (hx : isFinite x = true) (hy : isFinite y = true) :
    OrdLe x y ↔ Binary64.rank (Float64.toBits x) ≤ Binary64.rank (Float64.toBits y) ∧
      ¬ (x = zeroF64 ∧ y = negZero) := by
  have hzero : x = zeroF64 ↔ Float64.toBits x = Binary64.posZero := eq_ofBits_iff
  have hneg : y = negZero ↔ Float64.toBits y = Binary64.negZero := eq_ofBits_iff
  rw [ordLe_right (orderedF64Bits_eq hy), orderedF64Bits_eq hx, hzero, hneg, ← Binary64.code_le]
  simp

theorem not_nan (hx : isFinite x = true) : ¬ Binary64.Nan (Float64.toBits x) := by
  have h := isFinite_iff.mp hx
  rw [Binary64.Finite] at h
  rw [Binary64.Nan]
  omega

theorem ieeeLe_iff (hx : isFinite x = true) (hy : isFinite y = true) :
    IeeeLe x y ↔ Binary64.rank (Float64.toBits x) ≤ Binary64.rank (Float64.toBits y) :=
  ⟨fun h => h.rank, fun h => ⟨not_nan hx, not_nan hy, h⟩⟩

theorem rank_lt (hx : isFinite x = true) :
    -Binary64.infinite < Binary64.rank (Float64.toBits x) ∧ Binary64.rank (Float64.toBits x) < Binary64.infinite := by
  have h := isFinite_iff.mp hx
  rw [Binary64.Finite] at h
  rw [Binary64.rank]
  split <;> omega

theorem ieeeLe_of_not_finite {l : F} (hx : isFinite x = true) (hl : isFinite l = false) :
    (IeeeLe l x ↔ l = negInfinity) ∧ (IeeeLe x l ↔ l = infinity) := by
  have hfl : ¬ Binary64.Finite (Float64.toBits l) := by
    rw [← isFinite_iff, hl]
    simp
  have hneg : l = negInfinity ↔ (Float64.toBits l).toNat = 2 ^ 63 + Binary64.infinite := eq_ofBits_iff_toNat
  have hpos : l = infinity ↔ (Float64.toBits l).toNat = Binary64.infinite := eq_ofBits_iff_toNat
  have hrank := rank_lt hx
  have hxn := not_nan hx
  have hm := Binary64.magnitude_lt (Float64.toBits l)
  have hbits := Binary64.toNat_eq (Float64.toBits l)
  have hle : IeeeLe l x ↔ ¬ Binary64.Nan (Float64.toBits l) ∧
      Binary64.rank (Float64.toBits l) ≤ Binary64.rank (Float64.toBits x) :=
    ⟨fun h => ⟨h.left, h.rank⟩, fun h => ⟨h.1, hxn, h.2⟩⟩
  have hge : IeeeLe x l ↔ ¬ Binary64.Nan (Float64.toBits l) ∧
      Binary64.rank (Float64.toBits x) ≤ Binary64.rank (Float64.toBits l) :=
    ⟨fun h => ⟨h.right, h.rank⟩, fun h => ⟨hxn, h.1, h.2⟩⟩
  rw [hle, hge, hneg, hpos, Binary64.Nan, Binary64.rank.eq_1 (Float64.toBits l)]
  rw [Binary64.Finite] at hfl
  have hinf : Binary64.infinite = 9218868437227405312 := rfl
  cases hn : Binary64.negative (Float64.toBits l) <;> simp only [hn, if_true, if_false, Bool.false_eq_true] at hbits ⊢ <;>
    constructor <;> omega

theorem lower_ignored (hx : isFinite x = true) (h : LowerIgnored lo) :
    ¬ Below (ch.start lo) x ∧ ¬ ∀ l, lo = some l → IeeeLe l x := by
  obtain ⟨l, rfl, hl, hne⟩ := h
  constructor
  · rintro ⟨l', he, hf, _⟩
    rw [start_some, Option.some.injEq] at he
    rw [← he, hl] at hf
    cases hf
  · exact fun hall => hne ((ieeeLe_of_not_finite hx hl).1.mp (hall l rfl))

theorem upper_ignored (hx : isFinite x = true) (h : UpperIgnored hi) :
    ¬ Above hi x ∧ ¬ ∀ h, hi = some h → IeeeLe x h := by
  obtain ⟨h, rfl, hh, hne⟩ := h
  constructor
  · rintro ⟨h', he, hf, _⟩
    rw [← Option.some.inj he, hh] at hf
    cases hf
  · exact fun hall => hne ((ieeeLe_of_not_finite hx hh).2.mp (hall h rfl))

theorem zero_finite : isFinite (zeroF64 : F) = true ∧ isFinite (negZero : F) = true := by
  constructor
  · rw [isFinite_iff, zeroF64, Float64.toBits_ofBits, ← Binary64.finite_iff]
    decide
  · rw [isFinite_iff, negZero, Float64.toBits_ofBits, ← Binary64.finite_iff]
    decide

theorem zero_rank : Binary64.rank (Float64.toBits (zeroF64 : F)) = 0 ∧
    Binary64.rank (Float64.toBits (negZero : F)) = 0 := by
  constructor
  · rw [zeroF64, Float64.toBits_ofBits]
    decide
  · rw [negZero, Float64.toBits_ofBits]
    decide

theorem zero_ordLe (hx : isFinite x = true) : OrdLe zeroF64 x ↔ isSignNegative x = false := by
  have hm := Binary64.magnitude_lt (Float64.toBits x)
  have hbits := Binary64.toNat_eq (Float64.toBits x)
  have hneg : x = negZero ↔ (Float64.toBits x).toNat = 2 ^ 63 := eq_ofBits_iff_toNat
  have hsign : isSignNegative x = Binary64.negative (Float64.toBits x) := rfl
  rw [ordLe_iff zero_finite.1 hx, zero_rank.1, hneg, hsign, Binary64.rank]
  cases hn : Binary64.negative (Float64.toBits x) <;> simp only [hn, if_true, if_false, Bool.false_eq_true] at hbits ⊢ <;>
    simp <;> omega

theorem lower_missed (hg : given lo hi = true) (h : LowerMissed ch lo hi x) (hx : isFinite x = true) :
    Below (ch.start lo) x ∧ ∀ l, lo = some l → IeeeLe l x := by
  rcases h with ⟨rfl, rfl⟩ | ⟨rfl, rfl, _, hs⟩
  · refine ⟨⟨zeroF64, start_some, zero_finite.1, ?_⟩, ?_⟩
    · rw [ordLe_iff zero_finite.1 hx]
      simp
    · rintro l hl
      rw [← Option.some.inj hl, ieeeLe_iff zero_finite.1 hx, zero_rank.1, zero_rank.2]
  · refine ⟨⟨zeroF64, rfl, zero_finite.1, ?_⟩, nofun⟩
    rw [zero_ordLe hx, hs]
    simp

theorem upper_missed (h : UpperMissed hi x) (hx : isFinite x = true) :
    Above hi x ∧ ∀ h, hi = some h → IeeeLe x h := by
  obtain ⟨rfl, rfl⟩ := h
  refine ⟨⟨negZero, rfl, zero_finite.2, ?_⟩, ?_⟩
  · rw [ordLe_iff zero_finite.1 zero_finite.2]
    simp
  · rintro h hh
    rw [← Option.some.inj hh, ieeeLe_iff hx zero_finite.2, zero_rank.1, zero_rank.2]

theorem lower_meant (hg : given lo hi = true) (hi' : ¬ LowerIgnored lo) (hm : ¬ LowerMissed ch lo hi x)
    (hx : isFinite x = true) : ¬ Below (ch.start lo) x ↔ ∀ l, lo = some l → IeeeLe l x := by
  cases lo with
  | none =>
    simp only [reduceCtorEq, false_implies, implies_true, iff_true]
    rintro ⟨l, hl, hf, hno⟩
    cases ch
    case fmax =>
      obtain rfl : zeroF64 = l := Option.some.inj hl
      rw [zero_ordLe hx, Bool.not_eq_false] at hno
      exact hm (.inr ⟨rfl, rfl, by simpa [given] using hg, hno⟩)
    all_goals cases hl
  | some l =>
    cases hf : isFinite l with
    | false =>
      have hinf : l = negInfinity := by
        by_contra hne
        exact hi' ⟨l, rfl, hf, hne⟩
      have hle := (ieeeLe_of_not_finite hx hf).1.mpr hinf
      simp [Below, start_some, hf, hle]
    | true =>
      have hzero : ¬ (l = zeroF64 ∧ x = negZero) := fun h => hm (.inl ⟨h.1 ▸ rfl, h.2⟩)
      simp [Below, start_some, hf, ordLe_iff hf hx, ieeeLe_iff hf hx, hzero]

theorem upper_meant (hi' : ¬ UpperIgnored hi) (hm : ¬ UpperMissed hi x) (hx : isFinite x = true) :
    ¬ Above hi x ↔ ∀ h, hi = some h → IeeeLe x h := by
  cases hi with
  | none => simp [Above]
  | some h =>
    cases hf : isFinite h with
    | false =>
      have hinf : h = infinity := by
        by_contra hne
        exact hi' ⟨h, rfl, hf, hne⟩
      have hle := (ieeeLe_of_not_finite hx hf).2.mpr hinf
      simp [Above, hf, hle]
    | true =>
      have hzero : ¬ (x = zeroF64 ∧ h = negZero) := fun hh => hm ⟨hh.2 ▸ rfl, hh.1⟩
      simp [Above, hf, ordLe_iff hx hf, ieeeLe_iff hx hf, hzero]

theorem scan_lower (hx : orderedF64Bits x = some o) :
    loBits lo (ch.floor : F) ≤ o.toNat ↔ ¬ Below (ch.start lo) x := by
  simp only [Below, ordLe_right hx, not_exists, not_and]
  cases lo with
  | none =>
    rw [loBits_none]
    refine forall_congr' fun l => forall_congr' fun hl => ?_
    cases ch
    case fmax =>
      obtain rfl : zeroF64 = l := Option.some.inj hl
      simp [zero_finite.1]
    all_goals cases hl
  | some l =>
    cases hf : isFinite l with
    | false => simp [loBits_zero rfl hf, start_some, hf]
    | true =>
      rw [loBits_some hf, start_some]
      simp [hf]

theorem scan_upper (hx : orderedF64Bits x = some o) : o.toNat ≤ hiBits hi ↔ ¬ Above hi x := by
  simp only [Above, ordLe_left hx, not_exists, not_and]
  cases hi with
  | none => simpa using hiBits_top (by simp)
  | some h =>
    cases hf : isFinite h with
    | false => simpa [hf] using hiBits_top (by simpa using hf)
    | true =>
      rw [hiBits_some hf]
      simp [hf]

theorem two_ends {low low' high high' wide wide' tight tight' : Prop} (hw : wide → low ∧ ¬ low')
    (ht : tight → ¬ low ∧ low') (hl : ¬ wide → ¬ tight → (low ↔ low')) (hw' : wide' → high ∧ ¬ high')
    (ht' : tight' → ¬ high ∧ high') (hh : ¬ wide' → ¬ tight' → (high ↔ high')) :
    ((low ∧ high) ↔ low' ∧ high') ↔
      (wide → ¬ high) ∧ (wide' → ¬ low) ∧ (tight → ¬ high') ∧ (tight' → ¬ low') := by
  by_cases a : wide
  · grind
  · by_cases b : tight
    · grind
    · have := hl a b
      grind

theorem range_meant (hg : given lo hi = true) (hx : isFinite x = true) :
    ((¬ Below (ch.start lo) x ∧ ¬ Above hi x) ↔
      (∀ l, lo = some l → IeeeLe l x) ∧ ∀ h, hi = some h → IeeeLe x h) ↔ RangeMeant ch lo hi x := by
  rw [two_ends (lower_ignored hx) (fun h => (lower_missed hg h hx).imp_left not_not_intro) (fun h h' => lower_meant hg h h' hx)
    (upper_ignored hx) (fun h => (upper_missed h hx).imp_left not_not_intro) fun h h' => upper_meant h h' hx]
  simp only [not_not]
  exact ⟨fun h => ⟨h.1, h.2.1, h.2.2.1, h.2.2.2⟩, fun h => ⟨h.lower, h.upper, h.lowerZero, h.upperZero⟩⟩

section Picks

variable {d : Crates F} {stored : FrameKey → Option (ConFrame F)} {label : FrameKey → Option String}
  {c : ConCorpus F} {k : FrameKey} {f : ConFrame F}

theorem range_bounds (ch ch' : Scalar) (lo hi : Option F) :
    ch'.lo (ch.range lo hi) = (if ch' = ch then lo else none) ∧
      ch'.hi (ch.range lo hi) = if ch' = ch then hi else none := by
  cases ch <;> cases ch' <;> exact ⟨rfl, rfl⟩

theorem range_picked (ht : Tabled d stored label c) (hk : stored k = some f) (hx : ch.of (d.fromFrame f) = some x)
    (ho : orderedF64Bits x = some o) : Picked c (ch.range lo hi) k ↔
      (given lo hi = true → loBits lo ch.floor ≤ o.toNat ∧ o.toNat ≤ hiBits hi) := by
  have hrow (o' : UInt64) : ch.key o' k ∈ c.idx ch.index ↔ o' = o := by
    rw [ht.row hk (scalar_laid ch o' k), scalar_row, hx]
    simp [ho, eq_comm]
  have hstored : k.toBytes.val ∈ c.frames := (ht.frames _).mpr ⟨k, f, hk, rfl⟩
  constructor
  · intro h hg
    have hsc := h.scalar ch
    rw [(range_bounds ch ch lo hi).1, (range_bounds ch ch lo hi).2, if_pos rfl, if_pos rfl] at hsc
    obtain ⟨o', hlo, hhi, hb⟩ := hsc hg
    obtain rfl := (hrow o').mp hb
    exact ⟨hlo, hhi⟩
  · intro h
    have hscalar (ch' : Scalar) : given (ch'.lo (ch.range lo hi)) (ch'.hi (ch.range lo hi)) = true → ∃ o : UInt64,
        loBits (ch'.lo (ch.range lo hi)) ch'.floor ≤ o.toNat ∧ o.toNat ≤ hiBits (ch'.hi (ch.range lo hi)) ∧
          ch'.key o k ∈ c.idx ch'.index := by
      rw [(range_bounds ch ch' lo hi).1, (range_bounds ch ch' lo hi).2]
      split
      · next he =>
        subst he
        exact fun hg => ⟨o, (h hg).1, (h hg).2, (hrow o).mpr rfl⟩
      · intro hg
        cases hg
    refine ⟨⟨?_, ?_, ?_, ?_, ?_, ?_, ?_, hscalar, ?_, ?_, ?_, ?_⟩, ?_, fun _ => hstored⟩ <;>
      cases ch <;> simp [Scalar.range]

theorem range_selects (ht : Tabled d stored label c) (hk : stored k = some f)
    (hx : ch.of (d.fromFrame f) = some x) (hf : isFinite x = true) (lo hi : Option F) :
    ∃ out, select c (ch.range lo hi) = .ok out ∧
      (k ∈ out ↔ (given lo hi = true → ¬ Below (ch.start lo) x ∧ ¬ Above hi x)) := by
  rcases select_cases ht.laid (ch.range lo hi) with ⟨_, _, h, _⟩ | ⟨ks, _, hm, hs⟩
  · cases ch <;> cases h
  · have hcut : (ch.range lo hi).cut ks = ks := by cases ch <;> rfl
    have ho := orderedF64Bits_eq hf
    refine ⟨ks, hcut ▸ hs, ?_⟩
    rw [hm, range_picked ht hk hx ho, scan_lower ho, scan_upper ho]

theorem range_is_ieee (ht : Tabled d stored label c) (hk : stored k = some f)
    (hx : ch.of (d.fromFrame f) = some x) (hf : isFinite x = true) (lo hi : Option F) :
    ∃ out, select c (ch.range lo hi) = .ok out ∧
      ((k ∈ out ↔ (∀ l, lo = some l → IeeeLe l x) ∧ ∀ h, hi = some h → IeeeLe x h) ↔ RangeMeant ch lo hi x) := by
  obtain ⟨out, hs, hm⟩ := range_selects ht hk hx hf lo hi
  refine ⟨out, hs, ?_⟩
  rw [hm]
  cases hg : given lo hi with
  | true =>
    simp only [forall_const]
    exact range_meant hg hf
  | false =>
    obtain ⟨rfl, rfl⟩ : lo = none ∧ hi = none := by
      cases lo <;> cases hi <;> simp [given] at hg ⊢
    have hmeant : RangeMeant ch none none x := by
      refine ⟨?_, ?_, ?_, ?_⟩ <;> simp [LowerIgnored, UpperIgnored, LowerMissed, UpperMissed]
    simp [hmeant]

end Picks

end Ranges

section Tiny

def energyFrame (e : Bits) : ConFrame Bits := tinyFrame "H" .one .one .massOfH [("energy", .number (.float e))]

def energyCorpus (e : Bits) : ConCorpus Bits := alone tiny ⟨0, 0⟩ (energyFrame e) "energy"

theorem energyFrame_energy (e : Bits) : Scalar.energy.of (tiny.fromFrame (energyFrame e)) = some e := rfl

theorem tiny_range_is_ieee : ∃ out, select (energyCorpus .one) (Scalar.energy.range (some .zero) none) = .ok out ∧
    ((⟨0, 0⟩ ∈ out ↔ (∀ l, some Bits.zero = some l → IeeeLe l Bits.one) ∧ ∀ h, none = some h → IeeeLe Bits.one h) ↔
      RangeMeant .energy (some .zero) none Bits.one) :=
  range_is_ieee (alone_tabled tiny ⟨0, 0⟩ (energyFrame .one) "energy") (if_pos rfl) (energyFrame_energy .one) (by decide)
    (some .zero) none

-- An infinite lower bound is met by every energy, and positive zero is not met by negative zero.
theorem tiny_range_not_ieee :
    (∃ out, select (energyCorpus .one) (Scalar.energy.range (some infinity) none) = .ok out ∧
      ⟨0, 0⟩ ∈ out ∧ ¬ IeeeLe infinity Bits.one) ∧
    ∃ out, select (energyCorpus negZero) (Scalar.energy.range (some zeroF64) none) = .ok out ∧
      ⟨0, 0⟩ ∉ out ∧ IeeeLe zeroF64 (negZero : Bits) := by
  constructor
  · obtain ⟨out, hs, hm⟩ := range_selects (alone_tabled tiny ⟨0, 0⟩ (energyFrame .one) "energy") (if_pos rfl)
      (energyFrame_energy .one) (by decide) (some infinity) none
    have hinf : isFinite (infinity : Bits) = false := by decide
    refine ⟨out, hs, hm.mpr fun _ => ⟨?_, nofun⟩, fun h => ?_⟩
    · rintro ⟨l, hl, hf, _⟩
      obtain rfl : infinity = l := Option.some.inj hl
      rw [hinf] at hf
      cases hf
    · exact absurd ((ieeeLe_of_not_finite (by decide) hinf).1.mp h) (by decide)
  · obtain ⟨out, hs, hm⟩ := range_selects (alone_tabled tiny ⟨0, 0⟩ (energyFrame negZero) "energy") (if_pos rfl)
      (energyFrame_energy negZero) zero_finite.2 (some zeroF64) none
    have hedge : LowerMissed .energy (some zeroF64) none (negZero : Bits) := .inl ⟨rfl, rfl⟩
    have hmiss := lower_missed rfl hedge zero_finite.2
    exact ⟨out, hs, fun h => (hm.mp h rfl).1 hmiss.1, hmiss.2 _ rfl⟩

end Tiny

end ReadconDb
