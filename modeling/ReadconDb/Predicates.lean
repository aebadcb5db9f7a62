import ReadconDb.Catalog
import ReadconDb.Coherence
import ReadconDb.Selection

set_option linter.unusedSectionVars false

namespace ReadconDb

open ByteString Outcome OrderedTable

section Values

variable {F : Type} [Float64 F]

def Scalar.of (p : FrameIndexProjection F) : Scalar → Option F
  | .energy => p.energy
  | .fmax => if p.hasForces then p.fmax else none
  | .mass => p.totalMass
  | .volume => p.cellVolume
  | .time => p.time
  | .timestep => p.timestep
  | .frameIndex => p.frameIndex
  | .nebBead => p.nebBead
  | .nebBand => p.nebBand
  | .charge => p.charge
  | .magmom => p.magmom

def OrdLe (x y : F) : Prop := ∃ m n, orderedF64Bits x = some m ∧ orderedF64Bits y = some n ∧ m ≤ n

-- An fmax range without a lower bound starts at zero, every other at the lowest double.
def Scalar.start (lo : Option F) : Scalar → Option F
  | .fmax => lo.or (some zeroF64)
  | _ => lo

def InRange (lo hi : Option F) (x : F) : Prop :=
  (∀ l, lo = some l → OrdLe l x) ∧ ∀ h, hi = some h → OrdLe x h

structure Accepts (sel : Select F) (k : FrameKey) (p : FrameIndexProjection F) (label : Option String) : Prop where
  traj : ∀ t, sel.trajId = some t → k.trajId = t
  natomsMin : ∀ n, sel.natomsMin = some n → n ≤ p.nAtoms
  natomsMax : ∀ n, sel.natomsMax = some n → p.nAtoms ≤ n
  symbols : ∀ sym ∈ sel.symbolsAll, ∃ n, (sym, n) ∈ p.speciesCounts
  formula : ∀ formula, sel.exactFormula = some formula → p.formula ≠ "" ∧ p.formula = formula
  topo : ∀ raw, sel.topoKey = some raw → ∃ hex, normalizeTopoHex raw = .ok hex ∧ label = some hex
  countExact : ∀ e ∈ sel.elementCountExact, e ∈ p.speciesCounts
  countMin : ∀ e ∈ sel.elementCountMin, ∃ n, e.2 ≤ n ∧ (e.1, n) ∈ p.speciesCounts
  scalar : ∀ ch : Scalar, given (ch.lo sel) (ch.hi sel) = true →
    ∃ x, ch.of p = some x ∧ isFinite x = true ∧ InRange (ch.start (ch.lo sel)) (ch.hi sel) x
  pbc : ∀ pbc, sel.pbcExact = some pbc → p.pbc = some pbc
  forces : sel.requireForces = true → p.hasForces = true
  velocities : sel.requireVelocities = true → p.hasVelocities = true
  energy : sel.requireEnergy = true → p.energy.isSome = true

theorem orderedF64Bits_isSome {x : F} : (∃ o, orderedF64Bits x = some o) ↔ isFinite x = true := by
  rw [orderedF64Bits]
  cases h : isFinite x <;> simp

theorem pbcMask_inj {p q : Bool × Bool × Bool} (h : pbcMaskFromBools p &&& 7 = pbcMaskFromBools q &&& 7) : p = q := by
  obtain ⟨a, b, c⟩ := p
  obtain ⟨x, y, z⟩ := q
  revert h
  cases a <;> cases b <;> cases c <;> cases x <;> cases y <;> cases z <;> decide

section Rows

variable {k : FrameKey} {p : FrameIndexProjection F}

theorem natoms_row {n : UInt32} :
    (natomsKey n k).val ∈ (screeningKeys k p).keys .idxNatoms ↔ p.nAtoms = n := by
  rw [ScreeningKeys.keys, List.mem_singleton]
  constructor
  · intro h
    have hb := (List.append_inj h (by simp)).1
    have hn := beBytes_inj n.toNat_lt p.nAtoms.toNat_lt hb
    exact (UInt32.toNat_inj.mp hn).symm
  · rintro rfl
    rfl

theorem symbol_row {sym : String} :
    symbolKey sym k ∈ (screeningKeys k p).keys .idxSymbol ↔ ∃ n, (sym, n) ∈ p.speciesCounts := by
  have hm : sym ∈ firstSymbols [] p.speciesCounts ↔ ∃ n, (sym, n) ∈ p.speciesCounts := by
    rw [mem_firstSymbols]
    simp
  rw [← hm]
  simp only [ScreeningKeys.keys, screeningKeys, List.mem_map]
  constructor
  · rintro ⟨s, hs, he⟩
    exact (sepPrefix_inj he).1 ▸ hs
  · exact fun hs => ⟨sym, hs, rfl⟩

theorem elemCount_row {sym : String} {n : UInt32} :
    elemCountKey sym n k ∈ (screeningKeys k p).keys .idxElemCount ↔ (sym, n) ∈ p.speciesCounts := by
  simp only [ScreeningKeys.keys, screeningKeys, List.mem_map]
  constructor
  · rintro ⟨⟨s, m⟩, hs, he⟩
    obtain ⟨rfl, hrest⟩ := sepPrefix_inj he
    have hb := (List.append_inj hrest (by simp)).1
    have hn := beBytes_inj m.toNat_lt n.toNat_lt hb
    exact UInt32.toNat_inj.mp hn ▸ hs
  · exact fun hs => ⟨_, hs, rfl⟩

theorem formula_row {formula : String} :
    formulaKey formula k ∈ (screeningKeys k p).keys .idxFormula ↔ p.formula ≠ "" ∧ p.formula = formula := by
  simp only [ScreeningKeys.keys, screeningKeys, Option.mem_toList]
  by_cases h : p.formula = ""
  · simp [h]
  · simp only [h, if_false, Option.some.injEq, ne_eq, not_false_eq_true, true_and]
    constructor
    · exact fun he => (sepPrefix_inj he).1
    · rintro rfl
      rfl

theorem pbc_row {pbc : Bool × Bool × Bool} :
    (pbcKey (pbcMaskFromBools pbc) k).val ∈ (screeningKeys k p).keys .idxPbc ↔ p.pbc = some pbc := by
  simp only [ScreeningKeys.keys, screeningKeys, List.mem_map, Option.mem_toList, Option.map_eq_some_iff]
  constructor
  · rintro ⟨_, ⟨q, hq, rfl⟩, he⟩
    rw [hq, pbcMask_inj (List.cons.inj he).1]
  · exact fun hp => ⟨_, ⟨pbc, hp, rfl⟩, rfl⟩

theorem flag_rows {flag : UInt8} : (flagKey flag k).val ∈ (screeningKeys k p).keys .idxFlags ↔
    (p.energy.isSome = true ∧ flag = flagHasEnergy) ∨ (p.hasForces = true ∧ flag = flagHasForces) ∨
      (p.hasVelocities = true ∧ flag = flagHasVelocities) := by
  simp only [ScreeningKeys.keys, screeningKeys, List.map_append, List.mem_append, or_assoc]
  cases p.energy.isSome <;> cases p.hasForces <;> cases p.hasVelocities <;> simp [flagKey]

theorem scalar_row {ch : Scalar} {o : UInt64} :
    ch.key o k ∈ (screeningKeys k p).keys ch.index ↔ ∃ x, ch.of p = some x ∧ orderedF64Bits x = some o := by
  have hbin {x : Option F} : binKey o k ∈ (x.bind fun x => energyBinKey x k).toList.map Subtype.val ↔
      ∃ v, x = some v ∧ orderedF64Bits v = some o := by
    rw [mem_bin_keys]
    constructor
    · rintro ⟨v, o', hv, ho, he⟩
      exact ⟨v, hv, binKey_inj he ▸ ho⟩
    · rintro ⟨v, hv, ho⟩
      exact ⟨v, o, hv, ho, rfl⟩
  have hmeta {c : UInt8} : channelKey c o k ∈ (screeningKeys k p).keys .idxMeta ↔
      ∃ v, (c, some v) ∈ metaChannels p ∧ orderedF64Bits v = some o := by
    rw [ScreeningKeys.keys, screeningKeys, mem_meta_keys]
    constructor
    · rintro ⟨c', v, o', hm, ho, he⟩
      obtain ⟨rfl, hkey⟩ := List.cons.inj he
      exact ⟨v, hm, binKey_inj hkey ▸ ho⟩
    · rintro ⟨v, hm, ho⟩
      exact ⟨c, v, o, hm, ho, rfl⟩
  cases ch
  case energy | mass | volume => exact hbin
  case fmax =>
    simp only [Scalar.index, Scalar.key, Scalar.of, ScreeningKeys.keys, screeningKeys, fmaxBinKey]
    cases p.hasForces with
    | false => simp
    | true => exact hbin
  all_goals
    refine hmeta.trans ?_
    simp [metaChannels, metaTime, metaTimestep, metaFrameIndex, metaNebBead, metaNebBand, metaCharge, metaMagmom,
      Scalar.of, eq_comm]

end Rows

section Bounds

variable {ch : Scalar} {lo hi : Option F} {x : F} {o : UInt64}

theorem ordLe_right {l : F} (hx : orderedF64Bits x = some o) :
    OrdLe l x ↔ ∃ m, orderedF64Bits l = some m ∧ m ≤ o := by
  simp [OrdLe, hx]

theorem ordLe_left {h : F} (hx : orderedF64Bits x = some o) :
    OrdLe x h ↔ ∃ n, orderedF64Bits h = some n ∧ o ≤ n := by
  simp [OrdLe, hx]

theorem negInfinity_bits : orderedF64Bits (negInfinity : F) = none := by
  have hexp : ((0xFFF0000000000000 : UInt64) >>> 52) &&& 0x7FF = 0x7FF := by decide
  simp [orderedF64Bits, isFinite, negInfinity, Float64.toBits_ofBits, hexp]

theorem infinity_bits : orderedF64Bits (infinity : F) = none := by
  have hexp : ((0x7FF0000000000000 : UInt64) >>> 52) &&& 0x7FF = 0x7FF := by decide
  simp [orderedF64Bits, isFinite, infinity, Float64.toBits_ofBits, hexp]

theorem zeroF64_bits : orderedF64Bits (zeroF64 : F) = some 0x8000000000000000 := by
  have hbit : (1 : UInt64) <<< 63 = 0x8000000000000000 := by decide
  simp [orderedF64Bits, isFinite, isSignNegative, zeroF64, Float64.toBits_ofBits, hbit]

theorem bits_eq_none {l : F} (h : isFinite l = false) : orderedF64Bits l = none := by
  rw [orderedF64Bits, h]
  rfl

theorem loBits_none : loBits none (ch.floor : F) ≤ o.toNat ↔
    ∀ l : F, ch.start none = some l → ∃ m, orderedF64Bits l = some m ∧ m ≤ o := by
  cases ch
  case fmax =>
    simp only [loBits, Scalar.floor, Scalar.start, Option.getD_none, Option.none_or, Option.some.injEq, forall_eq',
      zeroF64_bits, Option.getD_some, exists_eq_left', UInt64.le_iff_toNat_le]
  all_goals simp [loBits, Scalar.floor, Scalar.start, negInfinity_bits]

theorem loBits_some {l floor : F} (h : isFinite l = true) :
    loBits (some l) floor ≤ o.toNat ↔ ∃ m, orderedF64Bits l = some m ∧ m ≤ o := by
  obtain ⟨m, hm⟩ := orderedF64Bits_isSome.mpr h
  simp [loBits, hm, UInt64.le_iff_toNat_le]

theorem hiBits_some {h : F} (hf : isFinite h = true) :
    o.toNat ≤ hiBits (some h) ↔ ∃ n, orderedF64Bits h = some n ∧ o ≤ n := by
  obtain ⟨n, hn⟩ := orderedF64Bits_isSome.mpr hf
  simp [hiBits, hn, UInt64.le_iff_toNat_le]

theorem hiBits_top {hi : Option F} (h : ∀ x, hi = some x → isFinite x = false) : o.toNat ≤ hiBits hi := by
  have hnone : orderedF64Bits (hi.getD infinity) = none := by
    cases hi with
    | none => exact infinity_bits
    | some x => exact bits_eq_none (h x rfl)
  have htop : ((2 ^ 64 - 1 : UInt64)).toNat = 2 ^ 64 - 1 := by decide +kernel
  rw [hiBits, hnone, Option.getD_none, htop]
  have hlt := o.toNat_lt
  omega

theorem loBits_zero {lo : Option F} {floor : F} {l : F} (hl : lo = some l) (h : isFinite l = false) :
    loBits lo floor ≤ o.toNat := by
  rw [loBits, hl, Option.getD_some, bits_eq_none h]
  exact Nat.zero_le _

theorem start_some {l : F} : ch.start (some l) = some l := by cases ch <;> rfl

theorem in_range_iff (hlo : ∀ l, lo = some l → isFinite l = true) (hhi : ∀ h, hi = some h → isFinite h = true)
    (hx : orderedF64Bits x = some o) :
    loBits lo ch.floor ≤ o.toNat ∧ o.toNat ≤ hiBits hi ↔ InRange (ch.start lo) hi x := by
  refine and_congr ?_ ?_
  · simp only [ordLe_right hx]
    cases lo with
    | none => exact loBits_none
    | some l =>
      rw [loBits_some (hlo l rfl), start_some]
      simp
  · simp only [ordLe_left hx]
    cases hi with
    | none => simpa using hiBits_top (by simp)
    | some h =>
      rw [hiBits_some (hhi h rfl)]
      simp

end Bounds

section Conjunction

structure Tabled (d : Crates F) (stored : FrameKey → Option (ConFrame F)) (label : FrameKey → Option String)
    (c : ConCorpus F) : Prop where
  frames : ∀ b, b ∈ c.frames ↔ ∃ k f, stored k = some f ∧ b = k.toBytes.val
  idx : ∀ i b, b ∈ c.idx i ↔ ∃ k f, stored k = some f ∧ (i, b) ∈ frameRows d k f
  labels : ∀ k hex, label k = some hex → ∃ f, stored k = some f
  topo : ∀ idx, c.idxTopo = some idx → ∀ b, b ∈ idx ↔ ∃ k hex, label k = some hex ∧ b = topoKey hex k
  noTopo : c.idxTopo = none → ∀ k, label k = none

def FiniteBounds (sel : Select F) : Prop :=
  ∀ ch : Scalar, ∀ x, ch.lo sel = some x ∨ ch.hi sel = some x → isFinite x = true

variable {d : Crates F} {stored : FrameKey → Option (ConFrame F)} {label : FrameKey → Option String}
  {c : ConCorpus F} {sel : Select F} {k : FrameKey} {f : ConFrame F}

theorem topoKey_inj' {s t : String} {j k : FrameKey} (h : topoKey s j = topoKey t k) : s = t ∧ j = k := by
  obtain ⟨hs, hk⟩ := sepPrefix_inj h
  exact ⟨hs, FrameKey.toBytes_inj.mp hk⟩

theorem Tabled.laid (ht : Tabled d stored label c) : Laid c where
  frames b hb := by
    obtain ⟨k, f, _, rfl⟩ := (ht.frames b).mp hb
    exact ⟨k, rfl⟩
  idx i b hb := by
    obtain ⟨k, f, _, hrow⟩ := (ht.idx i b).mp hb
    exact ⟨k, screeningKeys_laid ((mem_rows _ _ _).mp hrow)⟩
  topo idx hi b hb := by
    obtain ⟨k, hex, _, rfl⟩ := (ht.topo idx hi b).mp hb
    exact ⟨k, hex, rfl⟩

theorem Tabled.mentions (ht : Tabled d stored label c) (h : Mentions c k) : ∃ f, stored k = some f := by
  cases h with
  | frame hb =>
    obtain ⟨j, f, hf, he⟩ := (ht.frames _).mp hb
    exact ⟨f, FrameKey.toBytes_inj.mp he ▸ hf⟩
  | index i b hb hk =>
    obtain ⟨j, f, hf, hrow⟩ := (ht.idx i b).mp hb
    exact ⟨f, hk.inj (screeningKeys_laid ((mem_rows _ _ _).mp hrow)) ▸ hf⟩
  | topo idx hex hi hb =>
    obtain ⟨j, hex', hl, he⟩ := (ht.topo idx hi _).mp hb
    exact (topoKey_inj' he).2 ▸ ht.labels j hex' hl

theorem Tabled.row (ht : Tabled d stored label c) (hk : stored k = some f) {i : Index} {b : Bytes}
    (hb : LaidFor k i b) : b ∈ c.idx i ↔ b ∈ (screeningKeys k (d.fromFrame f)).keys i := by
  rw [ht.idx]
  constructor
  · rintro ⟨j, g, hg, hrow⟩
    obtain rfl := hb.inj (screeningKeys_laid ((mem_rows _ _ _).mp hrow))
    rw [hk, Option.some.injEq] at hg
    exact (mem_rows _ _ _).mp (hg ▸ hrow)
  · exact fun hrow => ⟨k, f, hk, (mem_rows _ _ _).mpr hrow⟩

theorem Tabled.label_row (ht : Tabled d stored label c) {hex : String} :
    (∃ idx, c.idxTopo = some idx ∧ topoKey hex k ∈ idx) ↔ label k = some hex := by
  constructor
  · rintro ⟨idx, hi, hb⟩
    obtain ⟨j, hex', hl, he⟩ := (ht.topo idx hi _).mp hb
    obtain ⟨rfl, rfl⟩ := topoKey_inj' he
    exact hl
  · intro hl
    cases hi : c.idxTopo with
    | none =>
      rw [ht.noTopo hi k] at hl
      cases hl
    | some idx => exact ⟨idx, rfl, (ht.topo idx hi _).mpr ⟨k, hex, hl, rfl⟩⟩

theorem Tabled.marked (ht : Tabled d stored label c) (hk : stored k = some f) (hh : sel.contentHash = none)
    (hb : FiniteBounds sel) : Picked c sel k ↔ Accepts sel k (d.fromFrame f) (label k) := by
  have hn (n : UInt32) : (natomsKey n k).val ∈ c.idx .idxNatoms ↔ (d.fromFrame f).nAtoms = n :=
    (ht.row (i := .idxNatoms) hk ⟨n, rfl⟩).trans natoms_row
  have hs (sym : String) : symbolKey sym k ∈ c.idx .idxSymbol ↔ ∃ n, (sym, n) ∈ (d.fromFrame f).speciesCounts :=
    (ht.row (i := .idxSymbol) hk ⟨sym, rfl⟩).trans symbol_row
  have hf (formula : String) : formulaKey formula k ∈ c.idx .idxFormula ↔
      (d.fromFrame f).formula ≠ "" ∧ (d.fromFrame f).formula = formula :=
    (ht.row (i := .idxFormula) hk ⟨formula, rfl⟩).trans formula_row
  have he (sym : String) (n : UInt32) : elemCountKey sym n k ∈ c.idx .idxElemCount ↔
      (sym, n) ∈ (d.fromFrame f).speciesCounts :=
    (ht.row (i := .idxElemCount) hk ⟨sym, n, rfl⟩).trans elemCount_row
  have hp (p : Bool × Bool × Bool) : (pbcKey (pbcMaskFromBools p) k).val ∈ c.idx .idxPbc ↔
      (d.fromFrame f).pbc = some p := (ht.row (i := .idxPbc) hk ⟨_, rfl⟩).trans pbc_row
  have hfl (flag : UInt8) := (ht.row (i := .idxFlags) hk ⟨flag, rfl⟩).trans (flag_rows (p := d.fromFrame f))
  have hsc (ch : Scalar) : (∃ o : UInt64, loBits (ch.lo sel) ch.floor ≤ o.toNat ∧ o.toNat ≤ hiBits (ch.hi sel) ∧
      ch.key o k ∈ c.idx ch.index) ↔ ∃ x, ch.of (d.fromFrame f) = some x ∧ isFinite x = true ∧
        InRange (ch.start (ch.lo sel)) (ch.hi sel) x := by
    have hr {x : F} {o : UInt64} (hx : orderedF64Bits x = some o) :
        loBits (ch.lo sel) ch.floor ≤ o.toNat ∧ o.toNat ≤ hiBits (ch.hi sel) ↔
          InRange (ch.start (ch.lo sel)) (ch.hi sel) x :=
      in_range_iff (fun l hl => hb ch l (.inl hl)) (fun h hh => hb ch h (.inr hh)) hx
    constructor
    · rintro ⟨o, hlo, hhi, hrow⟩
      obtain ⟨x, hx, ho⟩ := ((ht.row hk (scalar_laid ch o k)).trans scalar_row).mp hrow
      exact ⟨x, hx, orderedF64Bits_isSome.mp ⟨o, ho⟩, (hr ho).mp ⟨hlo, hhi⟩⟩
    · rintro ⟨x, hx, hfin, hin⟩
      obtain ⟨o, ho⟩ := orderedF64Bits_isSome.mpr hfin
      obtain ⟨hlo, hhi⟩ := (hr ho).mpr hin
      exact ⟨o, hlo, hhi, ((ht.row hk (scalar_laid ch o k)).trans scalar_row).mpr ⟨x, hx, ho⟩⟩
  have hlab (raw : String) : (∃ idx hex, c.idxTopo = some idx ∧ normalizeTopoHex raw = .ok hex ∧
      topoKey hex k ∈ idx) ↔ ∃ hex, normalizeTopoHex raw = .ok hex ∧ label k = some hex := by
    constructor
    · rintro ⟨idx, hex, hi, hn, hb⟩
      exact ⟨hex, hn, ht.label_row.mp ⟨idx, hi, hb⟩⟩
    · rintro ⟨hex, hn, hl⟩
      obtain ⟨idx, hi, hb⟩ := ht.label_row.mpr hl
      exact ⟨idx, hex, hi, hn, hb⟩
  have hflags : flagHasForces ≠ flagHasEnergy ∧ flagHasForces ≠ flagHasVelocities ∧
      flagHasVelocities ≠ flagHasEnergy ∧ flagHasVelocities ≠ flagHasForces ∧
      flagHasEnergy ≠ flagHasForces ∧ flagHasEnergy ≠ flagHasVelocities := by decide
  constructor
  · intro h
    obtain ⟨⟨_, mn, ms, mf, mt, me, mm, mc, mp, m1, m2, m3⟩, mtraj, _⟩ := h
    simp only [hn, hs, hf, he, hp, hfl, hsc, hlab, hflags, and_true, and_false, or_false, false_or] at mn ms mf mt me mm mc mp m1 m2 m3
    refine ⟨mtraj, fun m hm => ?_, fun m hm => ?_, ms, mf, mt, me, mm, mc, mp, m1, m2, m3⟩
    · obtain ⟨n, hlo, _, rfl⟩ := mn (by simp [hm])
      simpa [hm] using hlo
    · obtain ⟨n, _, hhi, rfl⟩ := mn (by simp [hm])
      simpa [hm] using hhi
  · rintro ⟨atraj, amin, amax, asym, aform, atopo, aexact, acount, ascalar, apbc, a1, a2, a3⟩
    refine ⟨⟨by simp [hh], fun _ => ?_, fun sym hm => (hs sym).mpr (asym sym hm), fun g hg => (hf g).mpr (aform g hg),
      fun raw hr => (hlab raw).mpr (atopo raw hr), fun e hm => (he _ _).mpr (aexact e hm), fun e hm => ?_,
      fun ch hg => (hsc ch).mpr (ascalar ch hg), fun p hm => (hp p).mpr (apbc p hm), fun hr => (hfl _).mpr ?_,
      fun hr => (hfl _).mpr ?_, fun hr => (hfl _).mpr ?_⟩, atraj, fun _ => ?_⟩
    · refine ⟨_, ?_, ?_, (hn _).mpr rfl⟩
      · cases hm : sel.natomsMin with
        | none => exact UInt32.zero_le
        | some m => exact amin m hm
      · cases hm : sel.natomsMax with
        | none =>
          have hlt := (d.fromFrame f).nAtoms.toNat_lt
          have htop : ((2 ^ 32 - 1 : UInt32)).toNat = 2 ^ 32 - 1 := by decide
          rw [Option.getD_none, UInt32.le_iff_toNat_le, htop]
          omega
        | some m => exact amax m hm
    · obtain ⟨n, hle, hm⟩ := acount e hm
      exact ⟨n, hle, (he _ _).mpr hm⟩
    · exact .inr (.inl ⟨a1 hr, rfl⟩)
    · exact .inr (.inr ⟨a2 hr, rfl⟩)
    · exact .inl ⟨a3 hr, rfl⟩
    · exact (ht.frames _).mpr ⟨k, f, hk, rfl⟩

theorem Tabled.picked (ht : Tabled d stored label c) (hh : sel.contentHash = none) (hb : FiniteBounds sel) :
    Picked c sel k ↔ ∃ f, stored k = some f ∧ Accepts sel k (d.fromFrame f) (label k) := by
  constructor
  · intro h
    obtain ⟨f, hf⟩ := ht.mentions (h.mentions hh)
    exact ⟨f, hf, (ht.marked hf hh hb).mp h⟩
  · rintro ⟨f, hf, h⟩
    exact (ht.marked hf hh hb).mpr h

theorem select_conjunction (ht : Tabled d stored label c) (hh : sel.contentHash = none) (hb : FiniteBounds sel) :
    (∃ raw e, sel.topoKey = some raw ∧ c.idxTopo.isSome ∧ normalizeTopoHex raw = .error e ∧
      select c sel = .error e) ∨
    ∃ ks : List FrameKey, ks.Pairwise (· < ·) ∧
      (∀ k, k ∈ ks ↔ ∃ f, stored k = some f ∧ Accepts sel k (d.fromFrame f) (label k)) ∧
      select c sel = .ok (sel.cut ks) := by
  rcases select_cases ht.laid sel with hr | ⟨ks, hks, hm, hs⟩
  · exact .inl hr
  · exact .inr ⟨ks, hks, fun k => (hm k).trans (ht.picked hh hb), hs⟩

def puts (d : Crates F) (k : FrameKey) (f : ConFrame F) (text : String) : PreparedIndexPuts :=
  { screeningKeys k (d.fromFrame f) with
    fk := k, stored := utf8 text, hash := hashFrameBytes d (utf8 text) }

theorem Tabled.empty (d : Crates F) : Tabled d (fun _ => none) (fun _ => none) (ConCorpus.empty F) where
  frames b := by simp [ConCorpus.empty]
  idx i b := by simp [ConCorpus.empty]
  labels k hex h := by cases h
  topo idx hi b := by
    obtain rfl : ∅ = idx := Option.some.inj hi
    simp
  noTopo h := by cases h

theorem Tabled.put (ht : Tabled d stored label c) (hk : stored k = none) (f : ConFrame F) (text : String) :
    Tabled d (fun j => if j = k then some f else stored j) label (putIndexPuts c (puts d k f text)) := by
  have hstored (j : FrameKey) (g : ConFrame F) :
      (if j = k then some f else stored j) = some g ↔ (j = k ∧ f = g) ∨ stored j = some g := by
    by_cases hj : j = k
    · simp [hj, hk]
    · simp [hj]
  exact
    { frames := fun b => by
        simp only [putIndexPuts, mem_insert_iff, ht.frames, hstored]
        constructor
        · rintro (rfl | ⟨j, g, hg, rfl⟩)
          · exact ⟨k, f, .inl ⟨rfl, rfl⟩, rfl⟩
          · exact ⟨j, g, .inr hg, rfl⟩
        · rintro ⟨j, g, ⟨rfl, rfl⟩ | hg, rfl⟩
          · exact .inl rfl
          · exact .inr ⟨j, g, hg, rfl⟩
      idx := fun i b => by
        simp only [putIndexPuts, mem_putRows, ht.idx, hstored]
        constructor
        · rintro (⟨j, g, hg, hrow⟩ | hrow)
          · exact ⟨j, g, .inr hg, hrow⟩
          · exact ⟨k, f, .inl ⟨rfl, rfl⟩, hrow⟩
        · rintro ⟨j, g, ⟨rfl, rfl⟩ | hg, hrow⟩
          · exact .inr hrow
          · exact .inl ⟨j, g, hg, hrow⟩
      labels := fun j hex hl => by
        obtain ⟨g, hg⟩ := ht.labels j hex hl
        exact ⟨g, (hstored j g).mpr (.inr hg)⟩
      topo := ht.topo
      noTopo := ht.noTopo }

def alone (d : Crates F) (k : FrameKey) (f : ConFrame F) (text : String) : ConCorpus F :=
  putIndexPuts (ConCorpus.empty F) (puts d k f text)

theorem alone_tabled (d : Crates F) (k : FrameKey) (f : ConFrame F) (text : String) :
    Tabled d (fun j => if j = k then some f else none) (fun _ => none) (alone d k f text) :=
  (Tabled.empty d).put rfl f text

end Conjunction

end Values

section Tiny

def tinyAlone : ConCorpus Bits := alone tiny ⟨0, 0⟩ hydrogen.1 hydrogen.2

def fourFrames (k : FrameKey) : Option (ConFrame Bits) :=
  if k = ⟨2, 0⟩ then some hydrogen.1
  else if k = ⟨1, 0⟩ then some hydrogen.1
  else if k = ⟨0, 1⟩ then some helium.1
  else if k = ⟨0, 0⟩ then some hydrogen.1
  else none

def tinyFour : ConCorpus Bits :=
  [((⟨0, 0⟩ : FrameKey), hydrogen), (⟨0, 1⟩, helium), (⟨1, 0⟩, hydrogen), (⟨2, 0⟩, hydrogen)].foldl
    (fun c row => putIndexPuts c (puts tiny row.1 row.2.1 row.2.2)) (ConCorpus.empty Bits)

theorem tinyFour_tabled : Tabled tiny fourFrames (fun _ => none) tinyFour :=
  ((((Tabled.empty tiny).put rfl hydrogen.1 hydrogen.2).put (by decide) helium.1 helium.2).put (by decide)
    hydrogen.1 hydrogen.2).put (by decide) hydrogen.1 hydrogen.2

-- Three of the four frames have hydrogen, two are asked for.
def twoHydrogens : Select Bits := { symbolsAll := ["H"], natomsMax := some 1, limit := some 2 }

theorem twoHydrogens_finite : FiniteBounds twoHydrogens := by
  rintro ch x (h | h) <;> cases ch <;> cases h

theorem hydrogen_accepted (k : FrameKey) : Accepts twoHydrogens k (tiny.fromFrame hydrogen.1) none where
  traj t h := by cases h
  natomsMin n h := by cases h
  natomsMax n h := by
    obtain rfl := Option.some.inj h
    decide +kernel
  symbols sym h := by
    obtain rfl := List.mem_singleton.mp h
    exact ⟨1, by decide +kernel⟩
  formula s h := by cases h
  topo raw h := by cases h
  countExact e h := by cases h
  countMin e h := by cases h
  scalar ch h := by cases ch <;> cases h
  pbc p h := by cases h
  forces h := by cases h
  velocities h := by cases h
  energy h := by cases h

theorem helium_refused (k : FrameKey) : ¬ Accepts twoHydrogens k (tiny.fromFrame helium.1) none := by
  intro h
  obtain ⟨n, hn⟩ := h.symbols "H" (by simp [twoHydrogens])
  have hcounts : (tiny.fromFrame helium.1).speciesCounts = [("He", 1)] := by decide +kernel
  rw [hcounts, List.mem_singleton, Prod.mk.injEq] at hn
  exact absurd hn.1 (by decide)

theorem fourFrames_accepted (k : FrameKey) : (∃ f, fourFrames k = some f ∧
    Accepts twoHydrogens k (tiny.fromFrame f) none) ↔ k ∈ ([⟨0, 0⟩, ⟨1, 0⟩, ⟨2, 0⟩] : List FrameKey) := by
  simp only [List.mem_cons, List.not_mem_nil, or_false]
  constructor
  · rintro ⟨f, hf, ha⟩
    simp only [fourFrames] at hf
    split_ifs at hf with h₁ h₂ h₃ h₄
    · exact .inr (.inr h₁)
    · exact .inr (.inl h₂)
    · exact absurd (Option.some.inj hf ▸ ha) (helium_refused k)
    · exact .inl h₄
  · rintro (rfl | rfl | rfl)
    · exact ⟨hydrogen.1, by simp [fourFrames], hydrogen_accepted _⟩
    · exact ⟨hydrogen.1, by simp [fourFrames], hydrogen_accepted _⟩
    · exact ⟨hydrogen.1, by simp [fourFrames], hydrogen_accepted _⟩

theorem tiny_select_conjunction : ∃ ks : List FrameKey, ks.Pairwise (· < ·) ∧
    (∀ k, k ∈ ks ↔ ∃ f, fourFrames k = some f ∧ Accepts twoHydrogens k (tiny.fromFrame f) none) ∧
    select tinyFour twoHydrogens = .ok (twoHydrogens.cut ks) ∧ twoHydrogens.cut ks = [⟨0, 0⟩, ⟨1, 0⟩] := by
  rcases select_conjunction tinyFour_tabled rfl twoHydrogens_finite with ⟨_, _, h, _⟩ | ⟨ks, hlt, hm, hs⟩
  · cases h
  · have hks : ks = [⟨0, 0⟩, ⟨1, 0⟩, ⟨2, 0⟩] :=
      hlt.sortedLT.eq_of_mem_iff (List.Pairwise.sortedLT (by decide)) fun k => (hm k).trans (fourFrames_accepted k)
    exact ⟨ks, hlt, hm, hs, by rw [hks]; rfl⟩

def atLeastNoHelium : Select Bits := { elementCountMin := [("He", 0)] }

-- A frame without helium has at least none of it, and is not returned.
theorem tiny_select_misses : ∃ stored label, Tabled tiny stored label tinyAlone ∧ stored ⟨0, 0⟩ = some hydrogen.1 ∧
    (∀ n, ("He", n) ∉ (tiny.fromFrame hydrogen.1).speciesCounts) ∧ select tinyAlone atLeastNoHelium = .ok [] ∧
    ∃ e, select tinyAlone { topoKey := some "xyz" } = .error e := by
  have htab : Tabled tiny _ _ tinyAlone := alone_tabled tiny ⟨0, 0⟩ hydrogen.1 hydrogen.2
  have hcounts : (tiny.fromFrame hydrogen.1).speciesCounts = [("H", 1)] := by decide +kernel
  have hno : ∀ n, ("He", n) ∉ (tiny.fromFrame hydrogen.1).speciesCounts := by
    intro n hn
    rw [hcounts, List.mem_singleton, Prod.mk.injEq] at hn
    exact absurd hn.1 (by decide)
  have hfinite : FiniteBounds atLeastNoHelium := by
    rintro ch x (h | h) <;> cases ch <;> cases h
  refine ⟨_, _, htab, if_pos rfl, hno, ?_, ?_⟩
  · rcases select_cases htab.laid atLeastNoHelium with ⟨_, _, h, _⟩ | ⟨ks, _, hm, hs⟩
    · cases h
    · have hnil : ks = [] := by
        refine List.eq_nil_iff_forall_not_mem.mpr fun k hk => ?_
        obtain ⟨f, hf, ha⟩ := (htab.picked rfl hfinite).mp ((hm k).mp hk)
        obtain ⟨_, hf⟩ := Option.ite_none_right_eq_some.mp hf
        obtain ⟨n, _, hn⟩ := ha.countMin ("He", 0) (by simp [atLeastNoHelium])
        exact hno n (Option.some.inj hf ▸ hn)
      rw [hs, hnil]
      rfl
  · obtain ⟨e, he⟩ : ∃ e, normalizeTopoHex "xyz" = .error e := ⟨_, by rw [normalizeTopoHex, if_pos (by decide +kernel)]⟩
    exact ⟨e, select_refused rfl rfl he⟩

end Tiny

end ReadconDb
