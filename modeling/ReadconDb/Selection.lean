import ReadconDb.Layout

set_option linter.unusedSectionVars false

namespace ReadconDb

open ByteString Outcome OrderedTable

section Intersection

variable {k : FrameKey}

theorem mem_intersectFrom (acc : Finset FrameKey) (rest : List (Finset FrameKey)) :
    k ∈ intersectFrom acc rest ↔ k ∈ acc ∧ ∀ s ∈ rest, k ∈ s := by
  induction rest generalizing acc with
  | nil => simp [intersectFrom]
  | cons s rest ih =>
    rw [intersectFrom]
    split
    · next he => simp [he]
    · split
      · rw [ih, Finset.mem_inter, List.forall_mem_cons]
        tauto
      · rw [ih, Finset.mem_inter, List.forall_mem_cons]
        tauto

theorem mem_intersectAll {sets : List (Finset FrameKey)} (h : sets ≠ []) :
    k ∈ intersectAll sets ↔ ∀ s ∈ sets, k ∈ s := by
  have hp := List.mergeSort_perm sets fun s t => decide (s.card ≤ t.card)
  rw [intersectAll]
  split
  · next he =>
    rw [he] at hp
    exact absurd (List.nil_perm.mp hp) h
  · next acc rest he =>
    rw [he] at hp
    have hall : (k ∈ acc ∧ ∀ s ∈ rest, k ∈ s) ↔ ∀ s ∈ acc :: rest, k ∈ s :=
      (List.forall_mem_cons (p := fun s => k ∈ s)).symm
    rw [mem_intersectFrom, hall]
    exact ⟨fun ha s hs => ha s (hp.mem_iff.mpr hs), fun ha s hs => ha s (hp.mem_iff.mp hs)⟩

end Intersection

inductive Scalar where
  | energy
  | fmax
  | mass
  | volume
  | time
  | timestep
  | frameIndex
  | nebBead
  | nebBand
  | charge
  | magmom
  deriving DecidableEq

namespace Scalar

section Fields

variable {F : Type} [Float64 F]

def lo (sel : Select F) : Scalar → Option F
  | energy => sel.energyMin
  | fmax => sel.fmaxMin
  | mass => sel.massMin
  | volume => sel.volumeMin
  | time => sel.timeMin
  | timestep => sel.timestepMin
  | frameIndex => sel.frameIndexMin
  | nebBead => sel.nebBeadMin
  | nebBand => sel.nebBandMin
  | charge => sel.chargeMin
  | magmom => sel.magmomMin

def hi (sel : Select F) : Scalar → Option F
  | energy => sel.energyMax
  | fmax => sel.fmaxMax
  | mass => sel.massMax
  | volume => sel.volumeMax
  | time => sel.timeMax
  | timestep => sel.timestepMax
  | frameIndex => sel.frameIndexMax
  | nebBead => sel.nebBeadMax
  | nebBand => sel.nebBandMax
  | charge => sel.chargeMax
  | magmom => sel.magmomMax

def floor : Scalar → F
  | fmax => zeroF64
  | _ => negInfinity

end Fields

def index : Scalar → Index
  | energy => .idxEnergy
  | fmax => .idxFmax
  | mass => .idxMass
  | volume => .idxVolume
  | _ => .idxMeta

def key : Scalar → UInt64 → FrameKey → Bytes
  | energy | fmax | mass | volume => binKey
  | time => channelKey metaTime
  | timestep => channelKey metaTimestep
  | frameIndex => channelKey metaFrameIndex
  | nebBead => channelKey metaNebBead
  | nebBand => channelKey metaNebBand
  | charge => channelKey metaCharge
  | magmom => channelKey metaMagmom

end Scalar

section Marks

variable {F : Type} [Float64 F]

structure Marked (c : ConCorpus F) (sel : Select F) (k : FrameKey) : Prop where
  hash : ∀ h, sel.contentHash = some h → c.frameByHash[h.val]?.bind FrameKey.fromBytes = some k
  natoms : (sel.natomsMin.isSome || sel.natomsMax.isSome) = true → ∃ n, sel.natomsMin.getD 0 ≤ n ∧
    n ≤ sel.natomsMax.getD (2 ^ 32 - 1) ∧ (natomsKey n k).val ∈ c.idx .idxNatoms
  symbols : ∀ sym ∈ sel.symbolsAll, symbolKey sym k ∈ c.idx .idxSymbol
  formula : ∀ formula, sel.exactFormula = some formula → formulaKey formula k ∈ c.idx .idxFormula
  topo : ∀ raw, sel.topoKey = some raw → ∃ idx hex, c.idxTopo = some idx ∧ normalizeTopoHex raw = .ok hex ∧
    topoKey hex k ∈ idx
  countExact : ∀ e ∈ sel.elementCountExact, elemCountKey e.1 e.2 k ∈ c.idx .idxElemCount
  countMin : ∀ e ∈ sel.elementCountMin, ∃ n, e.2 ≤ n ∧ elemCountKey e.1 n k ∈ c.idx .idxElemCount
  scalar : ∀ ch : Scalar, given (ch.lo sel) (ch.hi sel) = true → ∃ o : UInt64,
    loBits (ch.lo sel) ch.floor ≤ o.toNat ∧ o.toNat ≤ hiBits (ch.hi sel) ∧ ch.key o k ∈ c.idx ch.index
  pbc : ∀ p, sel.pbcExact = some p → (pbcKey (pbcMaskFromBools p) k).val ∈ c.idx .idxPbc
  forces : sel.requireForces = true → (flagKey flagHasForces k).val ∈ c.idx .idxFlags
  velocities : sel.requireVelocities = true → (flagKey flagHasVelocities k).val ∈ c.idx .idxFlags
  energy : sel.requireEnergy = true → (flagKey flagHasEnergy k).val ∈ c.idx .idxFlags

def Select.Free (sel : Select F) : Prop := sel = { trajId := sel.trajId, limit := sel.limit }

structure Picked (c : ConCorpus F) (sel : Select F) (k : FrameKey) : Prop extends Marked c sel k where
  traj : ∀ t, sel.trajId = some t → k.trajId = t
  stored : sel.Free → k.toBytes.val ∈ c.frames

def Select.cut (sel : Select F) (ks : List FrameKey) : List FrameKey :=
  match sel.limit with
  | none => ks
  | some lim => ks.take lim

variable {c : ConCorpus F} {sel : Select F} {k : FrameKey}

theorem inTraj_iff : inTraj sel k = true ↔ ∀ t, sel.trajId = some t → k.trajId = t := by
  rw [inTraj]
  cases sel.trajId with
  | none => simp
  | some t =>
    rw [beq_iff_eq]
    constructor
    · rintro rfl _ h
      exact Option.some.inj h
    · exact fun h => (h t rfl).symm

theorem mem_retainTraj {s : Finset FrameKey} : k ∈ retainTraj sel s ↔ k ∈ s ∧ inTraj sel k = true := by
  rw [retainTraj, inTraj]
  cases sel.trajId with
  | none => simp
  | some t => rw [Finset.mem_filter, beq_iff_eq, beq_iff_eq, eq_comm (a := t)]

theorem mem_hashSet {h : ContentHash} : k ∈ hashSet c sel h ↔
    inTraj sel k = true ∧ c.frameByHash[h.val]?.bind FrameKey.fromBytes = some k := by
  rw [hashSet]
  cases c.frameByHash[h.val]?.bind FrameKey.fromBytes with
  | none => simp
  | some fk =>
    dsimp only
    by_cases hk : inTraj sel fk = true
    · rw [if_pos hk, Finset.mem_singleton, Option.some.injEq]
      constructor
      · rintro rfl
        exact ⟨hk, rfl⟩
      · exact fun h => h.2.symm
    · rw [if_neg hk, Option.some.injEq]
      constructor
      · intro h
        cases h
      · rintro ⟨hj, rfl⟩
        exact absurd hj hk

section Pieces

variable (hl : Laid c) (hin : inTraj sel k = true)
include hl hin

theorem mem_natomsSets : (∀ s ∈ natomsSets c sel, k ∈ s) ↔
    ((sel.natomsMin.isSome || sel.natomsMax.isSome) = true → ∃ n, sel.natomsMin.getD 0 ≤ n ∧
      n ≤ sel.natomsMax.getD (2 ^ 32 - 1) ∧ (natomsKey n k).val ∈ c.idx .idxNatoms) := by
  have ht : Bins 4 (c.idx .idxNatoms) := by
    intro b hb
    obtain ⟨j, n, rfl⟩ := hl.idx _ b hb
    exact ⟨j, n.toNat, n.toNat_lt, rfl⟩
  rw [natomsSets]
  split
  · next hg =>
    rw [List.forall_mem_singleton, mem_scanBins ht]
    simp only [hin, hg, true_and, forall_const]
    constructor
    · rintro ⟨n, hn, hlo, hhi, hb⟩
      have hof : (UInt32.ofNat n).toNat = n := by
        rw [UInt32.toNat_ofNat']
        exact Nat.mod_eq_of_lt hn
      refine ⟨UInt32.ofNat n, ?_, ?_, ?_⟩
      · rw [UInt32.le_iff_toNat_le, hof]
        exact hlo
      · rw [UInt32.le_iff_toNat_le, hof]
        exact hhi
      · rw [natomsKey, hof]
        exact hb
    · rintro ⟨n, hlo, hhi, hb⟩
      exact ⟨n.toNat, n.toNat_lt, UInt32.le_iff_toNat_le.mp hlo, UInt32.le_iff_toNat_le.mp hhi, hb⟩
  · next hg => simp [hg]

theorem mem_nameSets : (∀ s ∈ nameSets c sel, k ∈ s) ↔
    (∀ sym ∈ sel.symbolsAll, symbolKey sym k ∈ c.idx .idxSymbol) ∧
      ∀ formula, sel.exactFormula = some formula → formulaKey formula k ∈ c.idx .idxFormula := by
  have hsym (sym : String) : k ∈ scanPrefix (inTraj sel) (c.idx .idxSymbol) (symbolPrefix sym) ↔
      inTraj sel k = true ∧ symbolKey sym k ∈ c.idx .idxSymbol :=
    mem_scanPrefix fun b hb => hl.idx .idxSymbol b hb
  have hform (formula : String) :
      k ∈ scanPrefix (inTraj sel) (c.idx .idxFormula) (formulaPrefix formula) ↔
        inTraj sel k = true ∧ formulaKey formula k ∈ c.idx .idxFormula :=
    mem_scanPrefix fun b hb => hl.idx .idxFormula b hb
  rw [nameSets, List.forall_mem_append, List.forall_mem_map, List.forall_mem_map]
  simp only [hsym, hform, hin, true_and, Option.mem_toList]

theorem mem_countSets : (∀ s ∈ countSets c sel, k ∈ s) ↔
    (∀ e ∈ sel.elementCountExact, elemCountKey e.1 e.2 k ∈ c.idx .idxElemCount) ∧
      ∀ e ∈ sel.elementCountMin, ∃ n, e.2 ≤ n ∧ elemCountKey e.1 n k ∈ c.idx .idxElemCount := by
  have hcount (sym : String) (accept : UInt32 → Bool) :
      k ∈ scanElemCount (inTraj sel) (c.idx .idxElemCount) sym accept ↔
        inTraj sel k = true ∧ ∃ n, accept n = true ∧ elemCountKey sym n k ∈ c.idx .idxElemCount :=
    mem_scanElemCount fun b hb => hl.idx .idxElemCount b hb
  rw [countSets, List.forall_mem_append, List.forall_mem_map, List.forall_mem_map]
  simp only [hcount, hin, true_and, beq_iff_eq, exists_eq_left, ge_iff_le, decide_eq_true_eq]

theorem mem_topoSets {sets : List (Finset FrameKey)} (h : topoSets c sel = .ok sets) :
    (∀ s ∈ sets, k ∈ s) ↔ ∀ raw, sel.topoKey = some raw → ∃ idx hex, c.idxTopo = some idx ∧
      normalizeTopoHex raw = .ok hex ∧ topoKey hex k ∈ idx := by
  rw [topoSets] at h
  cases hk : sel.topoKey with
  | none =>
    rw [hk] at h
    obtain rfl := Except.ok.inj h
    simp
  | some raw =>
    rw [hk] at h
    cases ht : c.idxTopo with
    | none =>
      rw [ht] at h
      obtain rfl := Except.ok.inj h
      simp
    | some idx =>
      rw [ht] at h
      obtain ⟨hex, hhex, h⟩ := bind_eq_ok.mp h
      obtain rfl := pure_eq_ok.mp h
      have hscan : k ∈ scanPrefix (inTraj sel) idx (sepPrefix hex) ↔ inTraj sel k = true ∧ topoKey hex k ∈ idx :=
        mem_scanPrefix (hl.topo idx ht)
      simp only [List.forall_mem_singleton, topoPrefix, hscan, hin, true_and, Option.some.injEq, forall_eq']
      constructor
      · exact fun hb => ⟨idx, hex, rfl, hhex, hb⟩
      · rintro ⟨_, hex', rfl, hhex', hb⟩
        rw [hhex, Except.ok.injEq] at hhex'
        exact hhex' ▸ hb

theorem mem_pbcSets : (∀ s ∈ pbcSets c sel, k ∈ s) ↔
    ∀ p, sel.pbcExact = some p → (pbcKey (pbcMaskFromBools p) k).val ∈ c.idx .idxPbc := by
  have ht : ∀ b ∈ c.idx .idxPbc, ∃ j tag', b = tag' :: (FrameKey.toBytes j).val := by
    intro b hb
    obtain ⟨j, mask, rfl⟩ := hl.idx _ b hb
    exact ⟨j, _, rfl⟩
  have hmask (p : Bool × Bool × Bool) : pbcMaskFromBools p &&& 0x07 = pbcMaskFromBools p := by
    obtain ⟨x, y, z⟩ := p
    cases x <;> cases y <;> cases z <;> rfl
  rw [pbcSets, List.forall_mem_map]
  simp only [mem_scanTagged ht, hin, true_and, Option.mem_toList, pbcKey, hmask]

theorem mem_flagSet (required : Bool) (flag : UInt8) : (∀ s ∈ flagSet c sel required flag, k ∈ s) ↔
    (required = true → (flagKey flag k).val ∈ c.idx .idxFlags) := by
  have ht : ∀ b ∈ c.idx .idxFlags, ∃ j tag', b = tag' :: (FrameKey.toBytes j).val := by
    intro b hb
    obtain ⟨j, flag', rfl⟩ := hl.idx _ b hb
    exact ⟨j, flag', rfl⟩
  cases required with
  | false => simp [flagSet]
  | true => simp [flagSet, mem_scanTagged ht, hin, flagKey]

theorem mem_scanOrd {i : Index} (hi : ∀ j b, LaidFor j i b → ∃ o, b = binKey o j) (lo hi' : Option F)
    (otherwise : F) : (∀ s ∈ scanOrd sel (c.idx i) lo hi' otherwise, k ∈ s) ↔
      (given lo hi' = true → ∃ o : UInt64, loBits lo otherwise ≤ o.toNat ∧ o.toNat ≤ hiBits hi' ∧
        binKey o k ∈ c.idx i) := by
  have ht : Bins 8 (c.idx i) := by
    intro b hb
    obtain ⟨j, hj⟩ := hl.idx _ b hb
    obtain ⟨o, rfl⟩ := hi j b hj
    exact ⟨j, o.toNat, o.toNat_lt, rfl⟩
  rw [scanOrd]
  split
  · next hg =>
    rw [List.forall_mem_singleton, mem_scanBins ht]
    simp only [hin, hg, true_and, forall_const]
    constructor
    · rintro ⟨n, hn, hlo, hhi, hb⟩
      have hof : (UInt64.ofNat n).toNat = n := by
        rw [UInt64.toNat_ofNat']
        exact Nat.mod_eq_of_lt hn
      refine ⟨UInt64.ofNat n, hof.symm ▸ hlo, hof.symm ▸ hhi, ?_⟩
      rw [binKey, hof]
      exact hb
    · rintro ⟨o, hlo, hhi, hb⟩
      exact ⟨o.toNat, o.toNat_lt, hlo, hhi, hb⟩
  · next hg => simp [hg]

theorem mem_scanChannel (ch : UInt8) (lo hi : Option F) : (∀ s ∈ scanChannel c sel ch lo hi, k ∈ s) ↔
    (given lo hi = true → ∃ o : UInt64, loBits lo negInfinity ≤ o.toNat ∧ o.toNat ≤ hiBits hi ∧
      channelKey ch o k ∈ c.idx .idxMeta) := by
  rw [scanChannel]
  split
  · next hg =>
    rw [List.forall_mem_singleton, mem_scanMeta fun b hb => hl.idx .idxMeta b hb]
    simp only [hin, hg, true_and, forall_const]
  · next hg => simp [hg]

theorem mem_binSets : (∀ s ∈ binSets c sel, k ∈ s) ↔
    ∀ ch ∈ [Scalar.energy, .fmax, .mass, .volume], given (ch.lo sel) (ch.hi sel) = true → ∃ o : UInt64,
      loBits (ch.lo sel) ch.floor ≤ o.toNat ∧ o.toNat ≤ hiBits (ch.hi sel) ∧ ch.key o k ∈ c.idx ch.index := by
  simp only [binSets, List.forall_mem_append, mem_scanOrd hl hin (i := .idxEnergy) fun _ _ h => h,
    mem_scanOrd hl hin (i := .idxFmax) fun _ _ h => h, mem_scanOrd hl hin (i := .idxMass) fun _ _ h => h,
    mem_scanOrd hl hin (i := .idxVolume) fun _ _ h => h, List.forall_mem_cons, List.not_mem_nil,
    false_implies, implies_true, and_true, and_assoc]
  rfl

theorem mem_metaSets : (∀ s ∈ metaSets c sel, k ∈ s) ↔
    ∀ ch ∈ [Scalar.time, .timestep, .frameIndex, .nebBead, .nebBand, .charge, .magmom],
      given (ch.lo sel) (ch.hi sel) = true → ∃ o : UInt64, loBits (ch.lo sel) ch.floor ≤ o.toNat ∧
        o.toNat ≤ hiBits (ch.hi sel) ∧ ch.key o k ∈ c.idx ch.index := by
  simp only [metaSets, List.forall_mem_append, mem_scanChannel hl hin, List.forall_mem_cons,
    List.not_mem_nil, false_implies, implies_true, and_true, and_assoc]
  rfl

end Pieces

theorem mem_predicateSets (hl : Laid c) (hin : inTraj sel k = true) {sets : List (Finset FrameKey)}
    (h : predicateSets c sel = .ok sets) : (∀ s ∈ sets, k ∈ s) ↔ Marked c sel k := by
  obtain ⟨topo, ht, h⟩ := bind_eq_ok.mp h
  obtain rfl := pure_eq_ok.mp h
  have hhash : (∀ s ∈ sel.contentHash.toList.map (hashSet c sel), k ∈ s) ↔
      ∀ h, sel.contentHash = some h → c.frameByHash[h.val]?.bind FrameKey.fromBytes = some k := by
    rw [List.forall_mem_map]
    simp only [mem_hashSet, hin, true_and, Option.mem_toList]
  simp only [List.forall_mem_append, hhash, mem_natomsSets hl hin, mem_nameSets hl hin,
    mem_topoSets hl hin ht, mem_countSets hl hin, mem_binSets hl hin, mem_pbcSets hl hin,
    mem_metaSets hl hin, flagSets, mem_flagSet hl hin]
  constructor
  · rintro ⟨⟨⟨⟨⟨⟨⟨⟨hhash, hn⟩, hs, hf⟩, ht⟩, hce, hcm⟩, hb⟩, hp⟩, hm⟩, ⟨hff, hfv⟩, hfe⟩
    refine ⟨hhash, hn, hs, hf, ht, hce, hcm, fun ch => ?_, hp, hff, hfv, hfe⟩
    cases ch
    case energy | fmax | mass | volume => exact hb _ (by simp)
    all_goals exact hm _ (by simp)
  · rintro ⟨hhash, hn, hs, hf, ht, hce, hcm, hsc, hp, hff, hfv, hfe⟩
    exact ⟨⟨⟨⟨⟨⟨⟨⟨hhash, hn⟩, hs, hf⟩, ht⟩, hce, hcm⟩, fun ch _ => hsc ch⟩, hp⟩, fun ch _ => hsc ch⟩,
      ⟨hff, hfv⟩, hfe⟩

theorem scanOrd_eq_nil {t : Table Unit} {lo hi : Option F} {otherwise : F} :
    scanOrd sel t lo hi otherwise = [] ↔ lo = none ∧ hi = none := by
  cases lo <;> cases hi <;> simp [scanOrd, given]

theorem scanChannel_eq_nil {ch : UInt8} {lo hi : Option F} :
    scanChannel c sel ch lo hi = [] ↔ lo = none ∧ hi = none := by
  cases lo <;> cases hi <;> simp [scanChannel, given]

theorem topoSets_eq_nil {sets : List (Finset FrameKey)} (h : topoSets c sel = .ok sets) :
    sets = [] ↔ sel.topoKey = none := by
  rw [topoSets] at h
  split at h
  · next hk =>
    obtain rfl := Except.ok.inj h
    simp [hk]
  · next hk =>
    split at h
    · obtain rfl := Except.ok.inj h
      simp [hk]
    · obtain ⟨hex, _, h⟩ := bind_eq_ok.mp h
      obtain rfl := pure_eq_ok.mp h
      simp [hk]

theorem flagSet_eq_nil {required : Bool} {flag : UInt8} : flagSet c sel required flag = [] ↔ required = false := by
  cases required <;> simp [flagSet]

theorem natomsSets_eq_nil : natomsSets c sel = [] ↔ sel.natomsMin = none ∧ sel.natomsMax = none := by
  rw [natomsSets]
  cases sel.natomsMin <;> cases sel.natomsMax <;> simp

theorem predicateSets_eq_nil {sets : List (Finset FrameKey)} (h : predicateSets c sel = .ok sets) :
    sets = [] ↔ sel.Free := by
  obtain ⟨topo, ht, h⟩ := bind_eq_ok.mp h
  obtain rfl := pure_eq_ok.mp h
  simp only [List.append_eq_nil_iff, topoSets_eq_nil ht, natomsSets_eq_nil, nameSets, countSets, binSets, pbcSets,
    metaSets, flagSets, scanOrd_eq_nil, scanChannel_eq_nil, flagSet_eq_nil, List.map_eq_nil_iff,
    Option.toList_eq_nil_iff]
  obtain ⟨⟩ := sel
  simp only [Select.Free, Select.mk.injEq, true_and]
  tauto

def candidates (c : ConCorpus F) (sel : Select F) (sets : List (Finset FrameKey)) : Finset FrameKey :=
  intersectAll (if sets = [] then [allFrames c sel] else sets.map (retainTraj sel))

theorem mem_allFrames :
    k ∈ allFrames c sel ↔ k.toBytes.val ∈ c.frames ∧ inTraj sel k = true := by
  rw [allFrames, List.mem_toFinset, List.mem_filter, List.mem_filterMap]
  refine and_congr_left fun _ => ?_
  constructor
  · rintro ⟨b, hb, hk⟩
    rw [FrameKey.toBytes_of_fromBytes hk]
    exact Std.ExtTreeMap.mem_keys.mp hb
  · exact fun hb => ⟨_, Std.ExtTreeMap.mem_keys.mpr hb, FrameKey.fromBytes_toBytes k⟩

theorem mem_candidates (hl : Laid c) {sets : List (Finset FrameKey)} (h : predicateSets c sel = .ok sets) :
    k ∈ candidates c sel sets ↔ Picked c sel k := by
  have hfree := predicateSets_eq_nil h
  have hmark := fun hin : inTraj sel k = true => mem_predicateSets hl hin h
  rw [candidates]
  split
  · next he =>
    rw [mem_intersectAll (by simp), List.forall_mem_singleton, mem_allFrames]
    constructor
    · rintro ⟨hb, hin⟩
      have hall : ∀ s ∈ sets, k ∈ s := by simp [he]
      exact { toMarked := (hmark hin).mp hall, traj := inTraj_iff.mp hin, stored := fun _ => hb }
    · exact fun hp => ⟨hp.stored (hfree.mp he), inTraj_iff.mpr hp.traj⟩
  · next he =>
    rw [mem_intersectAll (by simpa using he), List.forall_mem_map]
    simp only [mem_retainTraj]
    constructor
    · intro hall
      obtain ⟨s, hs⟩ := List.exists_mem_of_ne_nil sets he
      have hin := (hall s hs).2
      exact
        { toMarked := (hmark hin).mp fun s hs => (hall s hs).1
          traj := inTraj_iff.mp hin
          stored := fun hf => absurd (hfree.mpr hf) he }
    · intro hp s hs
      have hin := inTraj_iff.mpr hp.traj
      exact ⟨(hmark hin).mpr hp.toMarked s hs, hin⟩

theorem select_of_sets {sets : List (Finset FrameKey)} (h : predicateSets c sel = .ok sets) :
    select c sel = .ok (sel.cut (candidates c sel sets).sort) := by
  rw [select, h]
  rfl

theorem predicateSets_cases (c : ConCorpus F) (sel : Select F) :
    (∃ raw e, sel.topoKey = some raw ∧ c.idxTopo.isSome ∧ normalizeTopoHex raw = .error e ∧
      predicateSets c sel = .error e) ∨
    ∃ sets, predicateSets c sel = .ok sets := by
  have hsets : ∀ topo, topoSets c sel = .ok topo → ∃ sets, predicateSets c sel = .ok sets := by
    intro topo ht
    exact ⟨_, bind_eq_ok.mpr ⟨topo, ht, rfl⟩⟩
  cases hk : sel.topoKey with
  | none => exact .inr (hsets [] (by rw [topoSets, hk]))
  | some raw =>
    cases ht : c.idxTopo with
    | none => exact .inr (hsets [∅] (by rw [topoSets, hk, ht]))
    | some idx =>
      cases hn : normalizeTopoHex raw with
      | error e =>
        refine .inl ⟨raw, e, rfl, rfl, hn, ?_⟩
        rw [predicateSets, topoSets, hk, ht]
        simp only [hn]
        rfl
      | ok hex => exact .inr (hsets _ (by rw [topoSets, hk, ht]; simp only [hn]; rfl))

theorem select_refused {raw : String} {e : Error} (hk : sel.topoKey = some raw) (ht : c.idxTopo.isSome)
    (hn : normalizeTopoHex raw = .error e) : select c sel = .error e := by
  obtain ⟨idx, hi⟩ := Option.isSome_iff_exists.mp ht
  rw [select, predicateSets, topoSets, hk, hi]
  simp only [hn]
  rfl

theorem select_eq {ks : List FrameKey} (hk : ks.Pairwise (· < ·))
    (h : (predicateSets c sel).toOption.map (candidates c sel) = some ks.toFinset) : select c sel = .ok (sel.cut ks) := by
  cases hs : predicateSets c sel with
  | error e =>
    rw [hs] at h
    cases h
  | ok sets =>
    rw [hs] at h
    have hc : candidates c sel sets = ks.toFinset := Option.some.inj h
    have hsort : (candidates c sel sets).sort = ks := by
      refine (Finset.sortedLT_sort _).eq_of_mem_iff hk.sortedLT fun k => ?_
      rw [Finset.mem_sort, hc, List.mem_toFinset]
    rw [select_of_sets hs, hsort]

theorem select_cases (hl : Laid c) (sel : Select F) :
    (∃ raw e, sel.topoKey = some raw ∧ c.idxTopo.isSome ∧ normalizeTopoHex raw = .error e ∧
      select c sel = .error e) ∨
    ∃ ks : List FrameKey, ks.Pairwise (· < ·) ∧ (∀ k, k ∈ ks ↔ Picked c sel k) ∧
      select c sel = .ok (sel.cut ks) := by
  rcases predicateSets_cases c sel with ⟨raw, e, hk, ht, hn, he⟩ | ⟨sets, hs⟩
  · refine .inl ⟨raw, e, hk, ht, hn, ?_⟩
    rw [select, he]
    rfl
  · refine .inr ⟨_, (Finset.sortedLT_sort _).pairwise, fun k => ?_, select_of_sets hs⟩
    rw [Finset.mem_sort, mem_candidates hl hs]

inductive Mentions (c : ConCorpus F) (k : FrameKey) : Prop where
  | frame (h : k.toBytes.val ∈ c.frames)
  | index (i : Index) (b : Bytes) (h : b ∈ c.idx i) (hb : LaidFor k i b)
  | topo (idx : Table Unit) (hex : String) (hi : c.idxTopo = some idx) (h : topoKey hex k ∈ idx)

theorem scalar_laid (ch : Scalar) (o : UInt64) (k : FrameKey) : LaidFor k ch.index (ch.key o k) := by
  cases ch
  case energy | fmax | mass | volume => exact ⟨o, rfl⟩
  all_goals exact ⟨_, o, rfl⟩

theorem Marked.mentions (h : Marked c sel k) (hh : sel.contentHash = none) (hf : ¬ sel.Free) : Mentions c k := by
  by_contra hno
  have hi (i : Index) (b : Bytes) (hb : LaidFor k i b) : b ∉ c.idx i := fun hm => hno (.index i b hm hb)
  have hscalar (ch : Scalar) : ch.lo sel = none ∧ ch.hi sel = none := by
    by_contra hg
    have hg : given (ch.lo sel) (ch.hi sel) = true := by
      rw [given]
      cases hlo : ch.lo sel <;> cases hhi : ch.hi sel <;> simp [hlo, hhi] at hg ⊢
    obtain ⟨o, _, _, hb⟩ := h.scalar ch hg
    exact hi _ _ (scalar_laid ch o k) hb
  have hnat : sel.natomsMin = none ∧ sel.natomsMax = none := by
    by_contra hg
    have hg : (sel.natomsMin.isSome || sel.natomsMax.isSome) = true := by
      cases hlo : sel.natomsMin <;> cases hhi : sel.natomsMax <;> simp [hlo, hhi] at hg ⊢
    obtain ⟨n, _, _, hb⟩ := h.natoms hg
    exact hi .idxNatoms _ ⟨n, rfl⟩ hb
  have hsym : sel.symbolsAll = [] := List.eq_nil_iff_forall_not_mem.mpr fun sym hs =>
    hi .idxSymbol _ ⟨sym, rfl⟩ (h.symbols sym hs)
  have hform : sel.exactFormula = none := Option.eq_none_iff_forall_ne_some.mpr fun f hs =>
    hi .idxFormula _ ⟨f, rfl⟩ (h.formula f hs)
  have hexact : sel.elementCountExact = [] := List.eq_nil_iff_forall_not_mem.mpr fun e hs =>
    hi .idxElemCount _ ⟨e.1, e.2, rfl⟩ (h.countExact e hs)
  have hmin : sel.elementCountMin = [] := List.eq_nil_iff_forall_not_mem.mpr fun e hs => by
    obtain ⟨n, _, hb⟩ := h.countMin e hs
    exact hi .idxElemCount _ ⟨e.1, n, rfl⟩ hb
  have htopo : sel.topoKey = none := Option.eq_none_iff_forall_ne_some.mpr fun raw hs => by
    obtain ⟨idx, hex, ht, _, hb⟩ := h.topo raw hs
    exact hno (.topo idx hex ht hb)
  have hpbc : sel.pbcExact = none := Option.eq_none_iff_forall_ne_some.mpr fun p hs =>
    hi .idxPbc _ ⟨_, rfl⟩ (h.pbc p hs)
  have hflag (flag : UInt8) : (flagKey flag k).val ∉ c.idx .idxFlags := hi .idxFlags _ ⟨flag, rfl⟩
  have hforces : sel.requireForces = false := Bool.eq_false_iff.mpr fun hs => hflag _ (h.forces hs)
  have hvel : sel.requireVelocities = false := Bool.eq_false_iff.mpr fun hs => hflag _ (h.velocities hs)
  have hen : sel.requireEnergy = false := Bool.eq_false_iff.mpr fun hs => hflag _ (h.energy hs)
  have he := hscalar .energy
  have hfm := hscalar .fmax
  have hma := hscalar .mass
  have hvo := hscalar .volume
  have hti := hscalar .time
  have hts := hscalar .timestep
  have hfi := hscalar .frameIndex
  have hnb := hscalar .nebBead
  have hnd := hscalar .nebBand
  have hch := hscalar .charge
  have hmm := hscalar .magmom
  apply hf
  obtain ⟨⟩ := sel
  simp only [Scalar.lo, Scalar.hi] at he hfm hma hvo hti hts hfi hnb hnd hch hmm
  simp_all only [Select.Free]

theorem Picked.mentions (h : Picked c sel k) (hh : sel.contentHash = none) : Mentions c k := by
  by_cases hf : sel.Free
  · exact .frame (h.stored hf)
  · exact h.toMarked.mentions hh hf

end Marks

end ReadconDb
