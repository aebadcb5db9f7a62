import ReadconDb.PackQuery
import ReadconDb.Selection

set_option linter.unusedSectionVars false

namespace ReadconDb

open ByteString Outcome Slots

section Queries

variable {F : Type} [Float64 F]

-- A C string that is null, not UTF-8 or empty names nothing.
def named (s : Option String) : Option String := s.filter (· ≠ "")

def selectBasic (trajId : Int64) (symbol : Option String) (natomsMin natomsMax limit : UInt32) : Select F where
  trajId := if trajId < 0 then none else some trajId.toUInt64
  natomsMin := some natomsMin
  natomsMax := some natomsMax
  symbolsAll := (named symbol).toList
  limit := if limit > 0 then some limit.toNat else none

def selectMeta (trajId : Int64) (symbol : Option String) (natomsMin natomsMax : UInt32) (energyMin energyMax : F)
    (useEnergyRange : Int32) (flags limit : UInt32) : Select F :=
  { selectBasic trajId symbol natomsMin natomsMax limit with
    energyMin := if useEnergyRange ≠ 0 then some energyMin else none
    energyMax := if useEnergyRange ≠ 0 then some energyMax else none
    requireForces := flags &&& 1 ≠ 0
    requireVelocities := flags &&& 2 ≠ 0
    requireEnergy := flags &&& 4 ≠ 0 }

def selectCampaign (trajId : Int64) (symbol : Option String) (natomsMin natomsMax : UInt32) (formula : Option String)
    (energyMin energyMax : F) (useEnergyRange : Int32) (fmaxMin fmaxMax : F) (useFmaxRange : Int32)
    (elemSym : Option String) (elemCount : UInt32) (elemExact : Int32) (flags limit : UInt32) : Select F :=
  { selectMeta trajId symbol natomsMin natomsMax energyMin energyMax useEnergyRange flags limit with
    exactFormula := named formula
    fmaxMin := if useFmaxRange ≠ 0 then some fmaxMin else none
    fmaxMax := if useFmaxRange ≠ 0 then some fmaxMax else none
    elementCountExact := if elemExact ≠ 0 then (named elemSym).toList.map fun sym => (sym, elemCount) else []
    elementCountMin := if elemExact ≠ 0 then [] else (named elemSym).toList.map fun sym => (sym, elemCount) }

end Queries

section Calls

variable {F : Type} [Float64 F] (d : Crates F) (p : Process F) (id : Nat)

def runSelect (sel : Select F) : Int32 × Process F :=
  withHandle p id rkrdbNull fun c h =>
    match select c sel with
    | .ok keys => (rkrdbOk, { h with lastKeys := keys })
    | .error e => (rkrdbErr, setErr h e.display)

def rkrdbSelectBasic (trajId : Int64) (symbol : Option String) (natomsMin natomsMax limit : UInt32) :
    Int32 × Process F := runSelect p id (selectBasic trajId symbol natomsMin natomsMax limit)

def rkrdbSelectHash (hash16 : Option ContentHash) : Int32 × Process F :=
  match hash16 with
  | none => (rkrdbNull, p)
  | some hash => runSelect p id { contentHash := some hash }

def rkrdbSelectMeta (trajId : Int64) (symbol : Option String) (natomsMin natomsMax : UInt32) (energyMin energyMax : F)
    (useEnergyRange : Int32) (flags limit : UInt32) : Int32 × Process F :=
  runSelect p id (selectMeta trajId symbol natomsMin natomsMax energyMin energyMax useEnergyRange flags limit)

def rkrdbSelectCampaign (trajId : Int64) (symbol : Option String) (natomsMin natomsMax : UInt32)
    (formula : Option String) (energyMin energyMax : F) (useEnergyRange : Int32) (fmaxMin fmaxMax : F)
    (useFmaxRange : Int32) (elemSym : Option String) (elemCount : UInt32) (elemExact : Int32) (flags limit : UInt32) :
    Int32 × Process F :=
  runSelect p id (selectCampaign trajId symbol natomsMin natomsMax formula energyMin energyMax useEnergyRange fmaxMin
    fmaxMax useFmaxRange elemSym elemCount elemExact flags limit)

inductive SelectCall : Select F → Int32 × Process F → Prop where
  | basic (trajId : Int64) (symbol : Option String) (natomsMin natomsMax limit : UInt32) :
      SelectCall (selectBasic trajId symbol natomsMin natomsMax limit)
        (rkrdbSelectBasic p id trajId symbol natomsMin natomsMax limit)
  | hash (hash : ContentHash) : SelectCall { contentHash := some hash } (rkrdbSelectHash p id (some hash))
  | metadata (trajId : Int64) (symbol : Option String) (natomsMin natomsMax : UInt32) (energyMin energyMax : F)
      (useEnergyRange : Int32) (flags limit : UInt32) :
      SelectCall (selectMeta trajId symbol natomsMin natomsMax energyMin energyMax useEnergyRange flags limit)
        (rkrdbSelectMeta p id trajId symbol natomsMin natomsMax energyMin energyMax useEnergyRange flags limit)
  | campaign (trajId : Int64) (symbol : Option String) (natomsMin natomsMax : UInt32) (formula : Option String)
      (energyMin energyMax : F) (useEnergyRange : Int32) (fmaxMin fmaxMax : F) (useFmaxRange : Int32)
      (elemSym : Option String) (elemCount : UInt32) (elemExact : Int32) (flags limit : UInt32) :
      SelectCall (selectCampaign trajId symbol natomsMin natomsMax formula energyMin energyMax useEnergyRange fmaxMin
          fmaxMax useFmaxRange elemSym elemCount elemExact flags limit)
        (rkrdbSelectCampaign p id trajId symbol natomsMin natomsMax formula energyMin energyMax useEnergyRange fmaxMin
          fmaxMax useFmaxRange elemSym elemCount elemExact flags limit)

def rkrdbResultCount : Int32 := (withHandle p id rkrdbNull fun _ h => (asCInt h.lastKeys.length, h)).1

def rkrdbResultKey (i : Nat) : Int32 × Option FrameKey :=
  (withHandle p id (rkrdbNull, none) fun _ h =>
    (match h.lastKeys[i]? with
      | some k => (rkrdbOk, some k)
      | none => (rkrdbNotFound, none), h)).1

def rkrdbClose : Int32 × Process F :=
  if id < p.handles.length then (rkrdbOk, { p with handles := clear p.handles id }) else (rkrdbNull, p)

def setErrId (text : String) : Process F :=
  (withHandle p id () fun _ h => ((), setErr h text)).2

-- `unit` is none for a null pointer, and holds none for bytes that are no UTF-8.
def rkrdbSetVelocityTimeUnit (unit : Option (Option String)) : Int32 × Process F :=
  match unit with
  | none => withHandle p id rkrdbNull fun _ h => (rkrdbOk, { h with velocityTimeUnit := none })
  | some none => (rkrdbErr, p)
  | some (some s) =>
    match d.unitConversionFactor s "ps" with
    | .error _ => (rkrdbErr, setErrId p id "velocity_time_unit is not a time unit")
    | .ok _ => withHandle p id rkrdbNull fun _ h => (rkrdbOk, { h with velocityTimeUnit := some s })

def writeThrough {A : Type} (corpus : Nat) (f : ConCorpus F → Result A × ConCorpus F) : Int32 × Process F :=
  let written := f (p.envs corpus)
  let after : Process F := { p with envs := Function.update p.envs corpus written.2 }
  match written.1 with
  | .ok _ => (rkrdbOk, after)
  | .error e => (rkrdbErr, setErrId after id e.display)

-- Reindexing and cooking hold the table of handles while they write.
def withCorpus {A : Type} (f : ConCorpus F → Result A × ConCorpus F) : Int32 × Process F :=
  match slot p.handles id with
  | none => (rkrdbNull, p)
  | some h => writeThrough p id h.corpus f

end Calls

section Runs

variable {F : Type} [Float64 F] (d : Crates F)

structure Clients (F : Type) where
  process : Process F
  ingests : List (Nat × Nat)

inductive CallEvent (F : Type) where
  | opened (id : Nat)
  | closed (id : Nat)
  | selected (id : Nat) (sel : Select F) (status : Int32)
  | other

inductive CallStep (s : Clients F) : CallEvent F → Clients F → Prop where
  | opened (corpus : Nat) :
      CallStep s (.opened (pushHandle s.process corpus).1) { s with process := (pushHandle s.process corpus).2 }
  | closed (id : Nat) : CallStep s (.closed id) { s with process := (rkrdbClose s.process id).2 }
  | selected {sel : Select F} {out : Int32 × Process F} (id : Nat) (h : SelectCall s.process id sel out) :
      CallStep s (.selected id sel out.1) { s with process := out.2 }
  | timeUnit (id : Nat) (unit : Option (Option String)) :
      CallStep s .other { s with process := (rkrdbSetVelocityTimeUnit d s.process id unit).2 }
  | packed (id : Nat) (pack : ConCorpus F → Result Bytes) (buf : Option Nat) :
      CallStep s .other { s with process := (packThrough pack s.process id buf).2 }
  | maintained {A : Type} (id : Nat) (f : ConCorpus F → Result A × ConCorpus F) :
      CallStep s .other { s with process := (withCorpus s.process id f).2 }
  | ingestBegun {h : Handle} (id : Nat) (hs : slot s.process.handles id = some h) :
      CallStep s .other { s with ingests := (id, h.corpus) :: s.ingests }
  -- The table is not held meanwhile: the id may be another handle's by now.
  | ingestDone {A : Type} {id corpus : Nat} (h : (id, corpus) ∈ s.ingests) (f : ConCorpus F → Result A × ConCorpus F) :
      CallStep s .other
        { process := (writeThrough s.process id corpus f).2, ingests := s.ingests.erase (id, corpus) }

inductive CallRun (s : Clients F) : List (CallEvent F) → Clients F → Prop where
  | start : CallRun s [] s
  | step {es : List (CallEvent F)} {e : CallEvent F} {t u : Clients F} (h : CallRun s es t) (he : CallStep d t e u) :
      CallRun s (es ++ [e]) u

end Runs

section Results

variable {F : Type} [Float64 F] {d : Crates F} {p : Process F} {id j : Nat}

def held (p : Process F) (id : Nat) : Option (Nat × List FrameKey) :=
  (slot p.handles id).map fun h => (h.corpus, h.lastKeys)

theorem slot_withHandle {A : Type} {missing : A} {f : ConCorpus F → Handle → A × Handle} :
    slot (withHandle p j missing f).2.handles id =
      if id = j then (slot p.handles j).map fun h => (f (p.envs h.corpus) h).2 else slot p.handles id := by
  rw [withHandle]
  cases hs : slot p.handles j with
  | none =>
    by_cases hj : id = j
    · rw [if_pos hj, hj, hs]
      rfl
    · rw [if_neg hj]
  | some h => rw [slot_write hs, Option.map_some]

theorem held_withHandle {A : Type} {missing : A} {f : ConCorpus F → Handle → A × Handle}
    (hf : ∀ c h, (f c h).2.corpus = h.corpus ∧ (f c h).2.lastKeys = h.lastKeys) :
    held (withHandle p j missing f).2 id = held p id := by
  rw [held, slot_withHandle, held]
  by_cases hj : id = j
  · rw [if_pos hj, hj, Option.map_map]
    refine congrArg (fun g => (slot p.handles j).map g) (funext fun h => ?_)
    exact Prod.ext (hf _ h).1 (hf _ h).2
  · rw [if_neg hj]

theorem held_setErrId (text : String) : held (setErrId p j text) id = held p id :=
  held_withHandle fun _ _ => ⟨rfl, rfl⟩

theorem held_writeThrough {A : Type} {corpus : Nat} {f : ConCorpus F → Result A × ConCorpus F} :
    held (writeThrough p j corpus f).2 id = held p id := by
  rw [writeThrough]
  split
  · rfl
  · rw [held_setErrId]
    rfl

theorem held_packThrough (pack : ConCorpus F → Result Bytes) (buf : Option Nat) :
    held (packThrough pack p j buf).2 id = held p id := by
  refine held_withHandle fun c h => ?_
  unfold packReply
  split
  · exact ⟨rfl, rfl⟩
  · split
    · exact ⟨rfl, rfl⟩
    · split
      · exact ⟨rfl, rfl⟩
      · exact ⟨rfl, rfl⟩

theorem held_timeUnit (unit : Option (Option String)) :
    held (rkrdbSetVelocityTimeUnit d p j unit).2 id = held p id := by
  unfold rkrdbSetVelocityTimeUnit
  split
  · exact held_withHandle fun _ _ => ⟨rfl, rfl⟩
  · rfl
  · split
    · exact held_setErrId _
    · exact held_withHandle fun _ _ => ⟨rfl, rfl⟩

theorem held_pushHandle {x : Nat × List FrameKey} (h : held p id = some x) (corpus : Nat) :
    held (pushHandle p corpus).2 id = some x := by
  obtain ⟨hd, hs, rfl⟩ := Option.map_eq_some_iff.mp h
  have hne : id ≠ firstFree p.handles := by
    rintro rfl
    rw [slot_firstFree] at hs
    cases hs
  rw [held, pushHandle, slot_push, if_neg hne, hs]
  rfl

theorem held_close (hj : j ≠ id) : held (rkrdbClose p j).2 id = held p id := by
  rw [rkrdbClose]
  split
  · rw [held, slot_clear, if_neg hj.symm]
    rfl
  · rfl

theorem SelectCall.runs {sel : Select F} {out : Int32 × Process F} (h : SelectCall p id sel out) :
    out = runSelect p id sel := by
  cases h with
  | basic => rfl
  | hash => rfl
  | metadata => rfl
  | campaign => rfl

theorem held_select {sel : Select F} (hk : j = id → (runSelect p j sel).1 ≠ rkrdbOk) :
    held (runSelect p j sel).2 id = held p id := by
  by_cases hj : j = id
  · subst hj
    cases hs : slot p.handles j with
    | none => rw [runSelect, withHandle, hs]
    | some h =>
      cases hsel : select (p.envs h.corpus) sel with
      | ok keys =>
        refine absurd ?_ (hk rfl)
        rw [runSelect, withHandle, hs]
        simp only [hsel]
      | error e =>
        rw [held, runSelect, slot_withHandle, if_pos rfl, hs, held, hs]
        simp only [Option.map_some, hsel]
        rfl
  · rw [held, runSelect, slot_withHandle, if_neg fun h => hj h.symm]
    rfl

-- The calls that leave the result set of `id` alone: a selection through it that fails is one.
def CallEvent.Keeps (id : Nat) : CallEvent F → Prop
  | .closed j => j ≠ id
  | .selected j _ status => j = id → status ≠ rkrdbOk
  | _ => True

theorem CallStep.keeps {s s' : Clients F} {e : CallEvent F} (h : CallStep d s e s') (hk : e.Keeps id)
    {x : Nat × List FrameKey} (hx : held s.process id = some x) : held s'.process id = some x := by
  cases h with
  | opened corpus => exact held_pushHandle hx corpus
  | closed j => exact (held_close hk).trans hx
  | selected j hsel =>
    obtain rfl := hsel.runs
    exact (held_select hk).trans hx
  | timeUnit j unit => exact (held_timeUnit unit).trans hx
  | packed j pack buf => exact (held_packThrough pack buf).trans hx
  | maintained j f =>
    show held (withCorpus s.process j f).2 id = some x
    rw [withCorpus]
    split
    · exact hx
    · exact held_writeThrough.trans hx
  | ingestBegun j hs => exact hx
  | ingestDone hin f => exact held_writeThrough.trans hx

theorem CallRun.keeps {s s' : Clients F} {es : List (CallEvent F)} (h : CallRun d s es s')
    (hk : ∀ e ∈ es, e.Keeps id) {x : Nat × List FrameKey} (hx : held s.process id = some x) :
    held s'.process id = some x := by
  induction h with
  | start => exact hx
  | step h he ih =>
    rw [List.forall_mem_append] at hk
    exact he.keeps (hk.2 _ (List.mem_singleton_self _)) (ih hk.1)

theorem selection_pages {s s' : Clients F} {es : List (CallEvent F)} {sel : Select F} {out : Int32 × Process F}
    (hcall : SelectCall s.process id sel out) (hsel : out.1 = rkrdbOk) (hrun : CallRun d { s with process := out.2 } es s')
    (hk : ∀ e ∈ es, e.Keeps id) :
    ∃ c keys, liveCorpus s.process id = some c ∧ select c sel = .ok keys ∧
      rkrdbResultCount s'.process id = asCInt keys.length ∧
      (keys.length < 2 ^ 31 → (rkrdbResultCount s'.process id).toInt = keys.length) ∧
      ∀ i, rkrdbResultKey s'.process id i = match keys[i]? with
        | some k => (rkrdbOk, some k)
        | none => (rkrdbNotFound, none) := by
  obtain rfl := hcall.runs
  cases hs : slot s.process.handles id with
  | none =>
    have hne : rkrdbNull ≠ rkrdbOk := by decide
    rw [runSelect, withHandle, hs] at hsel
    exact absurd hsel hne
  | some h =>
    cases hkeys : select (s.process.envs h.corpus) sel with
    | error e =>
      have hne : rkrdbErr ≠ rkrdbOk := by decide
      rw [runSelect, withHandle, hs] at hsel
      simp only [hkeys] at hsel
      exact absurd hsel hne
    | ok keys =>
      have hheld : held (runSelect s.process id sel).2 id = some (h.corpus, keys) := by
        rw [held, runSelect, slot_withHandle, if_pos rfl, hs]
        simp only [Option.map_some, hkeys]
      obtain ⟨h', hs', hsame⟩ := Option.map_eq_some_iff.mp (hrun.keeps hk hheld)
      have hlast : h'.lastKeys = keys := congrArg Prod.snd hsame
      have hcount : rkrdbResultCount s'.process id = asCInt keys.length := by
        rw [rkrdbResultCount, withHandle, hs']
        simp only [hlast]
      refine ⟨s.process.envs h.corpus, keys, ?_, hkeys, hcount, fun hfew => ?_, fun i => ?_⟩
      · rw [liveCorpus, hs, Option.map_some]
      · rw [hcount, asCInt, toInt_ofNat_iff.mpr hfew]
      · rw [rkrdbResultKey, withHandle, hs']
        simp only [hlast]

end Results

section Tiny

theorem tiny_selects : select tinyTwo (selectBasic (-1) none 0 4294967295 0) = .ok [⟨0, 0⟩, ⟨1, 0⟩] := by
  have hkeys : select tinyTwo (selectBasic (-1) none 0 4294967295 0) =
      .ok ((selectBasic (-1) none 0 4294967295 0).cut [⟨0, 0⟩, ⟨1, 0⟩]) := select_eq (by decide) (by decide +kernel)
  exact hkeys

def twoSelected : Process Bits := ⟨fun _ => tinyTwo, [some ⟨0, [⟨0, 0⟩, ⟨1, 0⟩], "", none⟩]⟩

theorem tiny_reply : rkrdbSelectBasic twoProcess 0 (-1) none 0 4294967295 0 = (rkrdbOk, twoSelected) := by
  have hslot : slot twoProcess.handles 0 = some ⟨0, [], "", none⟩ := by
    simp only [twoProcess, slot_cons_zero]
  have henv : twoProcess.envs 0 = tinyTwo := by
    simp only [twoProcess]
  rw [rkrdbSelectBasic, runSelect, withHandle, hslot]
  simp only [henv, tiny_selects]
  simp only [twoProcess, twoSelected, write, List.set_cons_zero]

-- An ingest into the same directory begins before the selection is read, and ends after the directory is opened again.
theorem tiny_selection_pages : ∃ s', CallRun tiny
    ⟨(rkrdbSelectBasic twoProcess 0 (-1) none 0 4294967295 0).2, []⟩ [.other, .opened 1, .other] s' ∧
      rkrdbResultCount s'.process 0 = 2 ∧ rkrdbResultKey s'.process 0 0 = (rkrdbOk, some ⟨0, 0⟩) ∧
        rkrdbResultKey s'.process 0 1 = (rkrdbOk, some ⟨1, 0⟩) := by
  have hslot : slot twoSelected.handles 0 = some ⟨0, [⟨0, 0⟩, ⟨1, 0⟩], "", none⟩ := by
    simp only [twoSelected, slot_cons_zero]
  have hbegun := CallStep.ingestBegun (d := tiny) (s := ⟨twoSelected, []⟩) 0 hslot
  have hopened := CallStep.opened (d := tiny) (s := ⟨twoSelected, [(0, 0)]⟩) 0
  have hdone := CallStep.ingestDone (d := tiny) (s := ⟨(pushHandle twoSelected 0).2, [(0, 0)]⟩)
    (List.mem_singleton_self (0, 0)) fun c => appendTrajectoryStr tiny none c c 2 helium.2 "tiny.con"
  obtain ⟨s', hrun⟩ : ∃ s', CallRun tiny ⟨(rkrdbSelectBasic twoProcess 0 (-1) none 0 4294967295 0).2, []⟩
      [.other, .opened 1, .other] s' := by
    rw [tiny_reply]
    exact ⟨_, .step (.step (.step .start hbegun) hopened) hdone⟩
  have hcall : SelectCall (Clients.mk twoProcess []).process 0 (selectBasic (-1) none 0 4294967295 0)
      (rkrdbSelectBasic twoProcess 0 (-1) none 0 4294967295 0) := .basic _ _ _ _ _
  obtain ⟨c, keys, hc, hkeys, hcount, _, hpages⟩ := selection_pages hcall (congrArg Prod.fst tiny_reply) hrun
    (by simp [CallEvent.Keeps])
  obtain rfl : tinyTwo = c := Option.some.inj (two_live.symm.trans hc)
  obtain rfl : [⟨0, 0⟩, ⟨1, 0⟩] = keys := Except.ok.inj (tiny_selects.symm.trans hkeys)
  exact ⟨s', hrun, hcount, hpages 0, hpages 1⟩

end Tiny

end ReadconDb
