import ReadconDb.Rooted
import ReadconDb.Library.Binning

set_option linter.unusedSectionVars false

namespace ReadconDb

open ByteString Outcome OrderedTable TwoPhase

structure Row (F : Type) where
  positions : List F
  forces : List F
  energy : F

inductive Msg (F : Type) where
  | row (row : Row F)
  | flush (ack : Nat)

structure BuilderCrate (F : Type) where
  Builder : Type
  new : Vec3 F → Vec3 F → Builder
  preboxHeader : Builder → String → Builder
  setEnergy : Builder → F → Builder
  addAtom : Builder → String → Vec3 F → Bool × Bool × Bool → UInt64 → F → Builder
  setForcesFromFlat : Builder → List F → Except String Builder
  build : Builder → Except String (ConFrame F)
  atomicNumberToSymbol : UInt64 → String

-- `channel` is what the worker has not received yet, `acks` the flush channels it has sent on.
structure ObservationArchive (F : Type) where
  tx : Bool
  channel : List (Msg F)
  acks : List Nat
  committed : UInt64
  dropped : UInt64
  appended : UInt64
  z : List UInt32
  cell : Vec3 F

section Model

variable {F : Type} [Float64 F] (d : Crates F) (api : BuilderCrate F)

def rowAtoms (row : Row F) : Nat → List UInt32 → api.Builder → api.Builder
  | _, [], builder => builder
  | i, zi :: zs, builder =>
    let at' (j : Nat) : F := row.positions.getD j zeroF64
    rowAtoms row (i + 1) zs (api.addAtom builder (api.atomicNumberToSymbol zi.toUInt64)
      ⟨at' (3 * i), at' (3 * i + 1), at' (3 * i + 2)⟩ (false, false, false) (UInt64.ofNat i)
      (Float64.ofInt zi.toNat))

def rowFrame (z : List UInt32) (cell : Vec3 F) (row : Row F) : Result (ConFrame F) := do
  let ninety : F := Float64.ofInt 90
  let builder := api.preboxHeader (api.new cell ⟨ninety, ninety, ninety⟩) "observation archive"
  let builder := rowAtoms api row 0 z (api.setEnergy builder row.energy)
  let builder ← (api.setForcesFromFlat builder row.forces).mapError fun e => .message ("archive forces: " ++ e)
  (api.build builder).mapError fun e => .message ("archive build: " ++ e)

def commitRow (refused : Option Error) (corpus : ConCorpus F) (traj : UInt64) (z : List UInt32) (cell : Vec3 F)
    (row : Row F) : Result Unit × ConCorpus F :=
  match rowFrame api z cell row with
  | .error e => (.error e, corpus)
  | .ok frame =>
    let (out, next) := appendTrajectoryFramesWithFloatFormat d refused corpus corpus traj [frame]
      "observation-archive" .roundTrip
    (out.map fun _ => (), next)

def openArchive (corpus : ConCorpus F) (z : List UInt32) (cell : Vec3 F) : ObservationArchive F :=
  let existing := UInt64.ofNat (listFrameKeys corpus).length
  { tx := true, channel := [], acks := [], committed := existing, dropped := 0, appended := existing, z := z,
    cell := cell }

namespace ObservationArchive

variable (a : ObservationArchive F)

def natoms : Nat := a.z.length

def accepts (row : Row F) : Bool :=
  row.positions.length == 3 * a.natoms && row.forces.length == 3 * a.natoms && a.tx

def send (m : Msg F) : ObservationArchive F := { a with channel := a.channel ++ [m] }

end ObservationArchive

inductive Event (F : Type) where
  | opened (z : List UInt32) (cell : Vec3 F)
  | sent (m : Msg F)
  | counted
  | refused (row : Row F)
  | committed (traj : UInt64) (row : Row F)
  | dropped (row : Row F)
  | acked (flush : Nat)
  | flushed (flush : Nat)
  | closing
  | closed

def worker (refused : Option Error) (corpus : ConCorpus F) (a : ObservationArchive F) :
    Option (Event F × ConCorpus F × ObservationArchive F) :=
  match a.channel with
  | [] => none
  | .row row :: rest =>
    let traj := a.committed
    match commitRow d api refused corpus traj a.z a.cell row with
    | (.ok _, next) => some (.committed traj row, next, { a with channel := rest, committed := traj + 1 })
    | (.error _, next) => some (.dropped row, next, { a with channel := rest, dropped := a.dropped + 1 })
  | .flush ack :: rest => some (.acked ack, corpus, { a with channel := rest, acks := ack :: a.acks })

-- The directory, the process that has it open, and the calls under way on it:
-- `appending` counts those between the send and the `fetch_add`, `flushing` those that wait for an ack.
structure ArchiveSystem (F : Type) where
  corpus : ConCorpus F
  archive : Option (ObservationArchive F)
  appending : Nat
  flushing : List Nat
  flushes : Nat

def ArchiveSystem.start (F : Type) : ArchiveSystem F := ⟨ConCorpus.empty F, none, 0, [], 0⟩

-- The map of an environment has at most `usize::MAX` bytes: LMDB refuses a row past it with `MDB_MAP_FULL`.
def MapHolds (c : ConCorpus F) : Prop := (listFrameKeys c).length < 2 ^ 64

inductive Step (s : ArchiveSystem F) : Event F → ArchiveSystem F → Prop where
  | opened (z : List UInt32) (cell : Vec3 F) (h : s.archive = none) :
      Step s (.opened z cell) { s with
        corpus := setCompressFrames s.corpus true, archive := some (openArchive s.corpus z cell) }
  | appendSend {a : ObservationArchive F} (row : Row F) (h : s.archive = some a) (ha : a.accepts row = true) :
      Step s (.sent (.row row)) { s with
        archive := some (a.send (.row row)), appending := s.appending + 1 }
  | appendCount {a : ObservationArchive F} {n : Nat} (h : s.archive = some a) (hn : s.appending = n + 1) :
      Step s .counted { s with archive := some { a with appended := a.appended + 1 }, appending := n }
  | appendRefused {a : ObservationArchive F} (row : Row F) (h : s.archive = some a) (ha : a.accepts row = false) :
      Step s (.refused row) s
  | flushSend {a : ObservationArchive F} (h : s.archive = some a) (ht : a.tx = true) :
      Step s (.sent (.flush s.flushes)) { s with
        archive := some (a.send (.flush s.flushes)), flushing := s.flushes :: s.flushing, flushes := s.flushes + 1 }
  | flushReturn {a : ObservationArchive F} {t : Nat} (h : s.archive = some a) (hw : t ∈ s.flushing)
      (ha : t ∈ a.acks) : Step s (.flushed t) { s with flushing := s.flushing.erase t }
  | worker {a a' : ObservationArchive F} {refused : Option Error} {e : Event F} {next : ConCorpus F}
      (h : s.archive = some a) (hw : worker d api refused s.corpus a = some (e, next, a')) (hm : MapHolds next) :
      Step s e { s with corpus := next, archive := some a' }
  -- `drop` has the archive to itself, so no call is under way.
  | closing {a : ObservationArchive F} (h : s.archive = some a) (hc : s.appending = 0) (hf : s.flushing = []) :
      Step s .closing { s with archive := some { a with tx := false } }
  | closed {a : ObservationArchive F} (h : s.archive = some a) (ht : a.tx = false) (hd : a.channel = []) :
      Step s .closed { s with archive := none }

inductive Run : List (Event F) → ArchiveSystem F → Prop where
  | start : Run [] (.start F)
  | step {es : List (Event F)} {e : Event F} {s s' : ArchiveSystem F} (h : Run es s) (he : Step d api s e s') :
      Run (es ++ [e]) s'

end Model

section Log

variable {F : Type}

def msgRow : Msg F → Option (Row F)
  | .row row => some row
  | .flush _ => none

def rowsIn (ms : List (Msg F)) : List (Row F) := ms.filterMap msgRow

def Event.sentMsg : Event F → Option (Msg F)
  | .sent m => some m
  | _ => none

def Event.takenMsg : Event F → Option (Msg F)
  | .committed _ row | .dropped row => some (.row row)
  | .acked t => some (.flush t)
  | _ => none

def Event.outcome : Event F → Option (Row F × Option UInt64)
  | .committed traj row => some (row, some traj)
  | .dropped row => some (row, none)
  | _ => none

def sentMsgs (es : List (Event F)) : List (Msg F) := es.filterMap Event.sentMsg

def takenMsgs (es : List (Event F)) : List (Msg F) := es.filterMap Event.takenMsg

def accepted (es : List (Event F)) : List (Row F) := rowsIn (sentMsgs es)

def outcomes (es : List (Event F)) : List (Row F × Option UInt64) := es.filterMap Event.outcome

def commitIds (es : List (Event F)) : List UInt64 := (outcomes es).filterMap Prod.snd

def thisRun (es : List (Event F)) : List (Event F) :=
  es.foldl (fun run e => match e with
    | .opened _ _ => []
    | e => run ++ [e]) []

def droppedRows (es : List (Event F)) : List (Row F) :=
  (outcomes es).filterMap fun o => if o.2.isNone then some o.1 else none

def ArchiveSystem.queued (s : ArchiveSystem F) : List (Msg F) := (s.archive.map fun a => a.channel).getD []

structure LosslessLedger (es : List (Event F)) (s : ArchiveSystem F) : Prop where
  keys : ∀ b, b ∈ s.corpus.frames ↔ ∃ i : UInt64, i.toNat < (commitIds es).length ∧ b = (FrameKey.mk i 0).toBytes.val
  numbered : (commitIds es).map UInt64.toNat = List.range (commitIds es).length
  settled : accepted es = (outcomes es).map Prod.fst ++ rowsIn s.queued
  committed : ∀ a, s.archive = some a → a.committed.toNat = (commitIds es).length
  free : ∀ a, s.archive = some a → a.committed ∉ s.corpus.trajMeta
  dropped : ∀ a, s.archive = some a → a.dropped = UInt64.ofNat (droppedRows (thisRun es)).length
  accounts : ∀ a, s.archive = some a → s.appending = 0 →
    a.appended = a.committed + a.dropped + UInt64.ofNat (rowsIn a.channel).length
  flushed : ∀ pre post t, es = pre ++ .sent (.flush t) :: (post ++ [.flushed t]) →
    accepted pre <+: (outcomes es).map Prod.fst

end Log

section Commit

variable {F : Type} [Float64 F] {d : Crates F} {api : BuilderCrate F} {c next : ConCorpus F} {traj : UInt64}

structure Numbered (c : ConCorpus F) (n : Nat) : Prop where
  keys : ∀ b, b ∈ c.frames ↔ ∃ i : UInt64, i.toNat < n ∧ b = (FrameKey.mk i 0).toBytes.val
  metas : ∀ t : UInt64, t ∈ c.trajMeta ↔ t.toNat < n

theorem commitRow_cases (api : BuilderCrate F) (c : ConCorpus F) (traj : UInt64) (refused : Option Error) (z : List UInt32) (cell : Vec3 F) (row : Row F) :
    (∃ e, commitRow d api refused c traj z cell row = (.error e, c)) ∨
      ∃ next, commitRow d api refused c traj z cell row = (.ok (), next) ∧ traj ∉ c.trajMeta ∧
        (∀ b, b ∈ next.frames ↔ b ∈ c.frames ∨ b = (FrameKey.mk traj 0).toBytes.val) ∧
        ∀ t, t ∈ next.trajMeta ↔ t ∈ c.trajMeta ∨ t = traj := by
  rw [commitRow]
  cases rowFrame api z cell row with
  | error e => exact .inl ⟨e, rfl⟩
  | ok frame =>
    rcases call_cases (prepareAppendFrames d c traj [frame] .roundTrip) refused
      (commitPrepared d traj "observation-archive" false) c with ⟨e, he⟩ | ⟨ps, n, next, _, hp, hc, he⟩
    · refine .inl ⟨e, ?_⟩
      simp only [appendTrajectoryFramesWithFloatFormat, he, Except.map]
    · refine .inr ⟨next, ?_, ?_⟩
      · simp only [appendTrajectoryFramesWithFloatFormat, he, Except.map]
      · obtain ⟨prepared, hprep, hg⟩ := bind_eq_ok.mp hp
        obtain ⟨xs, hxs, hd⟩ := derived_of_prepare hprep hg
        obtain ⟨hnone, _, m, _, rfl⟩ := commitPrepared_ok hc
        have hlen : xs.length = 1 := by simpa using (congrArg List.length hxs).symm
        obtain ⟨x, rfl⟩ := List.length_eq_one_iff.mp hlen
        have hfks : ps.map PreparedIndexPuts.fk = [FrameKey.mk traj 0] := derived_fks hd
        obtain ⟨p, rfl, hfk⟩ := List.map_eq_singleton_iff.mp hfks
        refine ⟨?_, fun b => ?_, fun t => ?_⟩
        · rw [mem_iff_get, hnone]
          simp
        · rw [restamp, mem_puts_frames]
          simp [fkBytes, hfk, eq_comm]
        · rw [restamp, mem_insert_iff, puts_trajMeta, or_comm, eq_comm]

theorem commitRow_total {z : List UInt32} {cell : Vec3 F} {row : Row F} {frame : ConFrame F}
    {ps : List PreparedIndexPuts} (hf : rowFrame api z cell row = .ok frame)
    (hp : prepareAppendFrames d c traj [frame] .roundTrip = .ok ps) (ht : traj ∉ c.trajMeta) :
    ∃ next, commitRow d api none c traj z cell row = (.ok (), next) := by
  have hnone : c.trajMeta[traj]? = none := Std.ExtTreeMap.getElem?_eq_none ht
  simp only [commitRow, hf, appendTrajectoryFramesWithFloatFormat, hp, call, write, commitPrepared, hnone, Except.map]
  exact ⟨_, rfl⟩

theorem Numbered.commit (h : Numbered c traj.toNat)
    (hf : ∀ b, b ∈ next.frames ↔ b ∈ c.frames ∨ b = (FrameKey.mk traj 0).toBytes.val)
    (ht : ∀ t, t ∈ next.trajMeta ↔ t ∈ c.trajMeta ∨ t = traj) : Numbered next (traj.toNat + 1) where
  keys b := by
    rw [hf, h.keys]
    constructor
    · rintro (⟨i, hi, rfl⟩ | rfl)
      · exact ⟨i, by omega, rfl⟩
      · exact ⟨traj, by omega, rfl⟩
    · rintro ⟨i, hi, rfl⟩
      rcases Nat.lt_succ_iff_lt_or_eq.mp hi with hi | hi
      · exact .inl ⟨i, hi, rfl⟩
      · exact .inr (by rw [UInt64.toNat_inj.mp hi])
  metas t := by
    rw [ht, h.metas, ← UInt64.toNat_inj]
    omega

theorem Numbered.length_keys {n : Nat} (h : Numbered c n) (hn : n ≤ 2 ^ 64) : (listFrameKeys c).length = n := by
  have hid (i : Nat) (hi : i < n) : (UInt64.ofNat i).toNat = i := by
    rw [UInt64.toNat_ofNat', Nat.mod_eq_of_lt (by omega)]
  have hnodup : ((List.range n).map fun i => FrameKey.mk (UInt64.ofNat i) 0).Nodup := by
    refine List.Nodup.map_on (fun i hi j hj he => ?_) List.nodup_range
    have hij := congrArg (fun k => k.trajId.toNat) he
    simp only [hid i (List.mem_range.mp hi), hid j (List.mem_range.mp hj)] at hij
    exact hij
  have hmem (k : FrameKey) : k ∈ listFrameKeys c ↔ k ∈ (List.range n).map fun i => FrameKey.mk (UInt64.ofNat i) 0 := by
    rw [mem_listFrameKeys, h.keys, List.mem_map]
    constructor
    · rintro ⟨i, hi, he⟩
      exact ⟨i.toNat, List.mem_range.mpr hi, by rw [UInt64.ofNat_toNat, FrameKey.toBytes_inj.mp he]⟩
    · rintro ⟨i, hi, rfl⟩
      have hlt := List.mem_range.mp hi
      exact ⟨UInt64.ofNat i, by rwa [hid i hlt], rfl⟩
  have hperm := (List.perm_ext_iff_of_nodup (listFrameKeys_lt.imp fun hlt => ne_of_lt hlt) hnodup).mpr hmem
  rw [hperm.length_eq, List.length_map, List.length_range]

end Commit

section Runs

variable {F : Type} [Float64 F] {d : Crates F} {api : BuilderCrate F} {es : List (Event F)} {e : Event F}
  {s s' : ArchiveSystem F}

@[simp] theorem sentMsgs_append : sentMsgs (es ++ [e]) = sentMsgs es ++ e.sentMsg.toList := by
  cases h : e.sentMsg <;> simp [sentMsgs, List.filterMap_append, h]

@[simp] theorem takenMsgs_append : takenMsgs (es ++ [e]) = takenMsgs es ++ e.takenMsg.toList := by
  cases h : e.takenMsg <;> simp [takenMsgs, List.filterMap_append, h]

@[simp] theorem outcomes_append : outcomes (es ++ [e]) = outcomes es ++ e.outcome.toList := by
  cases h : e.outcome <;> simp [outcomes, List.filterMap_append, h]

theorem rowsIn_append (ms ms' : List (Msg F)) : rowsIn (ms ++ ms') = rowsIn ms ++ rowsIn ms' :=
  List.filterMap_append

theorem rowsIn_taken : rowsIn (takenMsgs es) = (outcomes es).map Prod.fst := by
  induction es using List.reverseRecOn with
  | nil => rfl
  | append_singleton es e ih =>
    rw [takenMsgs_append, rowsIn_append, ih, outcomes_append, List.map_append]
    cases e <;> rfl

structure Kept (es : List (Event F)) (s : ArchiveSystem F) : Prop where
  fifo : Fifo.Holds (sentMsgs es) (takenMsgs es) s.queued
  numbered : Numbered s.corpus (commitIds es).length
  room : (commitIds es).length < 2 ^ 64
  ids : (commitIds es).map UInt64.toNat = List.range (commitIds es).length
  committed : ∀ a, s.archive = some a → a.committed.toNat = (commitIds es).length
  dropped : ∀ a, s.archive = some a → a.dropped = UInt64.ofNat (droppedRows (thisRun es)).length
  accounts : ∀ a, s.archive = some a →
    a.appended + UInt64.ofNat s.appending = a.committed + a.dropped + UInt64.ofNat (rowsIn a.channel).length
  alone : (∀ a, s.archive = some a → a.tx = false) → s.appending = 0
  fresh : ∀ t, .flush t ∈ sentMsgs es → t < s.flushes
  acked : ∀ a, s.archive = some a → ∀ t ∈ a.acks, .flush t ∈ takenMsgs es

@[simp] theorem commitIds_append : commitIds (es ++ [e]) = commitIds es ++ (e.outcome.bind Prod.snd).toList := by
  rw [commitIds, outcomes_append, List.filterMap_append, commitIds]
  cases e <;> rfl

theorem droppedRows_append :
    droppedRows (es ++ [e]) = droppedRows es ++ (e.outcome.bind fun o => if o.2.isNone then some o.1 else none).toList := by
  rw [droppedRows, outcomes_append, List.filterMap_append, droppedRows]
  cases e <;> rfl

theorem thisRun_append (h : ∀ z cell, e ≠ .opened z cell) : thisRun (es ++ [e]) = thisRun es ++ [e] := by
  rw [thisRun, List.foldl_append, thisRun]
  cases e <;> first | rfl | exact absurd rfl (h _ _)

theorem unsettled_counts (ho : e.outcome = none) (hr : ∀ z cell, e ≠ .opened z cell) :
    commitIds (es ++ [e]) = commitIds es ∧ droppedRows (thisRun (es ++ [e])) = droppedRows (thisRun es) := by
  constructor
  · rw [commitIds_append, ho]
    exact List.append_nil _
  · rw [thisRun_append hr, droppedRows_append, ho]
    exact List.append_nil _

theorem ofNat_succ (n : Nat) : UInt64.ofNat (n + 1) = UInt64.ofNat n + 1 := by
  rw [UInt64.ofNat_add]
  rfl

theorem Kept.opened (h : Kept es s) (z : List UInt32) (cell : Vec3 F) (hs : s.archive = none) :
    Kept (es ++ [.opened z cell]) { s with
      corpus := setCompressFrames s.corpus true, archive := some (openArchive s.corpus z cell) } := by
  have hids : commitIds (es ++ [.opened z cell]) = commitIds es := by simp [Event.outcome]
  have hrun : thisRun (es ++ [.opened z cell]) = [] := by rw [thisRun, List.foldl_append]; rfl
  have hq : s.queued = [] := by rw [ArchiveSystem.queued, hs]; rfl
  have hidle : s.appending = 0 := h.alone fun a ha => by rw [hs] at ha; cases ha
  constructor
  · have hf := h.fifo
    rw [hq] at hf
    change Fifo.Holds _ _ []
    simpa [Event.sentMsg, Event.takenMsg] using hf
  · rw [hids]
    exact ⟨h.numbered.keys, h.numbered.metas⟩
  · rw [hids]
    exact h.room
  · rw [hids]
    exact h.ids
  · rintro a ⟨⟩
    rw [hids, openArchive, h.numbered.length_keys h.room.le]
    exact Nat.mod_eq_of_lt h.room
  · rintro a ⟨⟩
    rw [hrun]
    rfl
  · rintro a ⟨⟩
    simp [openArchive, hidle, rowsIn]
  · exact fun _ => hidle
  · intro t ht
    exact h.fresh t (by simpa [Event.sentMsg] using ht)
  · rintro a ⟨⟩ t ht
    simp [openArchive] at ht

theorem Kept.unsettled {a a' : ObservationArchive F} (h : Kept es s) (hs : s.archive = some a)
    (hs' : s'.archive = some a') (ho : e.outcome = none) (hr : ∀ z cell, e ≠ .opened z cell)
    (hc : s'.corpus = s.corpus) (hcommitted : a'.committed = a.committed) (hdropped : a'.dropped = a.dropped)
    (hf : Fifo.Holds (sentMsgs (es ++ [e])) (takenMsgs (es ++ [e])) a'.channel)
    (ha : a'.appended + UInt64.ofNat s'.appending = a'.committed + a'.dropped + UInt64.ofNat (rowsIn a'.channel).length)
    (hn : a'.tx = false → s'.appending = 0) (ht : ∀ t, .flush t ∈ sentMsgs (es ++ [e]) → t < s'.flushes)
    (hk : ∀ t ∈ a'.acks, .flush t ∈ takenMsgs (es ++ [e])) : Kept (es ++ [e]) s' := by
  obtain ⟨hids, hrun⟩ := unsettled_counts ho hr
  constructor
  · rwa [ArchiveSystem.queued, hs']
  · rw [hids, hc]
    exact h.numbered
  · rw [hids]
    exact h.room
  · rw [hids]
    exact h.ids
  · intro b hb
    obtain rfl := Option.some.inj (hs'.symm.trans hb)
    rw [hids, hcommitted, h.committed a hs]
  · intro b hb
    obtain rfl := Option.some.inj (hs'.symm.trans hb)
    rw [hrun, hdropped, h.dropped a hs]
  · intro b hb
    obtain rfl := Option.some.inj (hs'.symm.trans hb)
    exact ha
  · exact fun hall => hn (hall a' hs')
  · exact ht
  · intro b hb
    obtain rfl := Option.some.inj (hs'.symm.trans hb)
    exact hk

theorem Kept.send {a : ObservationArchive F} (h : Kept es s) (hs : s.archive = some a) (m : Msg F) :
    Fifo.Holds (sentMsgs (es ++ [.sent m])) (takenMsgs (es ++ [.sent m])) (a.send m).channel := by
  have hf := h.fifo
  rw [ArchiveSystem.queued, hs] at hf
  simpa [Event.sentMsg, Event.takenMsg, ObservationArchive.send] using hf.send

theorem Kept.appendSend {a : ObservationArchive F} (h : Kept es s) (row : Row F) (hs : s.archive = some a)
    (ha : a.accepts row = true) : Kept (es ++ [.sent (.row row)]) { s with
      archive := some (a.send (.row row)), appending := s.appending + 1 } := by
  have htx : a.tx = true := by
    simp only [ObservationArchive.accepts, Bool.and_eq_true] at ha
    exact ha.2
  have hacc := h.accounts a hs
  refine h.unsettled hs rfl rfl (by simp) rfl rfl rfl (h.send hs _) ?_ ?_ ?_ ?_
  · simp only [ObservationArchive.send, rowsIn_append, List.length_append]
    rw [show (rowsIn [Msg.row row]).length = 1 from rfl, ofNat_succ, ofNat_succ, ← UInt64.add_assoc, hacc,
      UInt64.add_assoc]
  · intro hf
    exact absurd (htx.symm.trans hf) (by decide)
  · intro t ht
    exact h.fresh t (by simpa [Event.sentMsg] using ht)
  · intro t ht
    simpa [Event.takenMsg] using h.acked a hs t ht

theorem Kept.appendCount {a : ObservationArchive F} {n : Nat} (h : Kept es s) (hs : s.archive = some a)
    (hn : s.appending = n + 1) : Kept (es ++ [.counted]) { s with
      archive := some { a with appended := a.appended + 1 }, appending := n } := by
  have hacc := h.accounts a hs
  have hf := h.fifo
  rw [ArchiveSystem.queued, hs] at hf
  refine h.unsettled hs rfl rfl (by simp) rfl rfl rfl ?_ ?_ ?_ ?_ ?_
  · simpa [Event.sentMsg, Event.takenMsg] using hf
  · rw [hn, ofNat_succ, UInt64.add_comm (UInt64.ofNat n), ← UInt64.add_assoc] at hacc
    exact hacc
  · intro hclosed
    have hidle := h.alone fun b hb => by
      obtain rfl := Option.some.inj (hs.symm.trans hb)
      exact hclosed
    omega
  · intro t ht
    exact h.fresh t (by simpa [Event.sentMsg] using ht)
  · intro t ht
    simpa [Event.takenMsg] using h.acked a hs t ht

theorem Kept.flushSend {a : ObservationArchive F} (h : Kept es s) (hs : s.archive = some a) (ht : a.tx = true) :
    Kept (es ++ [.sent (.flush s.flushes)]) { s with
      archive := some (a.send (.flush s.flushes)), flushing := s.flushes :: s.flushing, flushes := s.flushes + 1 } := by
  have hacc := h.accounts a hs
  refine h.unsettled hs rfl rfl (by simp) rfl rfl rfl (h.send hs _) ?_ ?_ ?_ ?_
  · rw [ObservationArchive.send, rowsIn_append, show rowsIn [Msg.flush (F := F) s.flushes] = [] from rfl, List.append_nil]
    exact hacc
  · intro hf
    exact absurd (ht.symm.trans hf) (by decide)
  · intro t hm
    simp only [sentMsgs_append, Event.sentMsg, Option.toList_some, List.mem_append, List.mem_singleton,
      Msg.flush.injEq] at hm
    exact hm.elim (fun hm => (h.fresh t hm).trans (Nat.lt_succ_self _)) fun he => he ▸ Nat.lt_succ_self _
  · intro t hm
    simpa [Event.takenMsg] using h.acked a hs t hm

theorem Kept.silent {a a' : ObservationArchive F} (h : Kept es s) (hs : s.archive = some a)
    (hs' : s'.archive = some a') (hsent : e.sentMsg = none) (htaken : e.takenMsg = none) (ho : e.outcome = none)
    (hr : ∀ z cell, e ≠ .opened z cell) (hc : s'.corpus = s.corpus) (hn : s'.appending = s.appending)
    (hf : s'.flushes = s.flushes) (ha : a' = { a with tx := a'.tx }) (hx : a'.tx = false → s.appending = 0) :
    Kept (es ++ [e]) s' := by
  have hq := h.fifo
  rw [ArchiveSystem.queued, hs] at hq
  have hsents : sentMsgs (es ++ [e]) = sentMsgs es := by simp [hsent]
  have htakens : takenMsgs (es ++ [e]) = takenMsgs es := by simp [htaken]
  rw [ha] at hs'
  refine h.unsettled hs hs' ho hr hc rfl rfl ?_ ?_ ?_ ?_ ?_
  · rw [hsents, htakens]
    exact hq
  · rw [hn]
    exact h.accounts a hs
  · rw [hn]
    exact hx
  · rw [hsents, hf]
    exact h.fresh
  · rw [htakens]
    exact h.acked a hs

theorem Kept.idle {a : ObservationArchive F} (h : Kept es s) (hs : s.archive = some a) (ht : a.tx = false) :
    s.appending = 0 := h.alone fun b hb => by
  obtain rfl := Option.some.inj (hs.symm.trans hb)
  exact ht

theorem Kept.closed {a : ObservationArchive F} (h : Kept es s) (hs : s.archive = some a) (ht : a.tx = false)
    (hd : a.channel = []) : Kept (es ++ [.closed]) { s with archive := none } := by
  have hq := h.fifo
  rw [ArchiveSystem.queued, hs, Option.map_some, Option.getD_some, hd] at hq
  have hids : commitIds (es ++ [.closed]) = commitIds es := (unsettled_counts rfl (by simp)).1
  have hsents : sentMsgs (es ++ [.closed]) = sentMsgs es := by simp [Event.sentMsg]
  have htakens : takenMsgs (es ++ [.closed]) = takenMsgs es := by simp [Event.takenMsg]
  constructor
  · rw [hsents, htakens]
    exact hq
  · rw [hids]
    exact h.numbered
  · rw [hids]
    exact h.room
  · rw [hids]
    exact h.ids
  · rintro b ⟨⟩
  · rintro b ⟨⟩
  · rintro b ⟨⟩
  · exact fun _ => h.idle hs ht
  · rw [hsents]
    exact h.fresh
  · rintro b ⟨⟩

theorem Kept.ack {a : ObservationArchive F} {t : Nat} {rest : List (Msg F)} (h : Kept es s) (hs : s.archive = some a)
    (hc : a.channel = .flush t :: rest) : Kept (es ++ [.acked t]) { s with
      archive := some { a with channel := rest, acks := t :: a.acks } } := by
  have hq := h.fifo
  have hacc := h.accounts a hs
  rw [ArchiveSystem.queued, hs, Option.map_some, Option.getD_some, hc] at hq
  refine h.unsettled hs rfl rfl (by simp) rfl rfl rfl ?_ ?_ (fun ht => h.idle hs ht) ?_ ?_
  · simpa [Event.sentMsg, Event.takenMsg] using hq.take
  · rw [hc] at hacc
    exact hacc
  · intro u hu
    exact h.fresh u (by simpa [Event.sentMsg] using hu)
  · intro u hu
    rw [takenMsgs_append]
    rcases List.mem_cons.mp hu with rfl | hu
    · simp [Event.takenMsg]
    · exact List.mem_append_left _ (h.acked a hs u hu)

theorem Kept.settle {a a' : ObservationArchive F} {next : ConCorpus F} {row : Row F} {rest : List (Msg F)}
    (h : Kept es s) (hs : s.archive = some a) (hc : a.channel = .row row :: rest) (hsent : e.sentMsg = none)
    (htaken : e.takenMsg = some (.row row)) (hch : a'.channel = rest) (hack : a'.acks = a.acks) (htx : a'.tx = a.tx)
    (hnum : Numbered next (commitIds (es ++ [e])).length) (hroom : (commitIds (es ++ [e])).length < 2 ^ 64)
    (hids : (commitIds (es ++ [e])).map UInt64.toNat = List.range (commitIds (es ++ [e])).length)
    (hcommitted : a'.committed.toNat = (commitIds (es ++ [e])).length)
    (hdropped : a'.dropped = UInt64.ofNat (droppedRows (thisRun (es ++ [e]))).length)
    (happ : a'.appended = a.appended) (hsum : a'.committed + a'.dropped = a.committed + a.dropped + 1) :
    Kept (es ++ [e]) { s with corpus := next, archive := some a' } := by
  have hq := h.fifo
  have hacc := h.accounts a hs
  rw [ArchiveSystem.queued, hs, Option.map_some, Option.getD_some, hc] at hq
  have hsents : sentMsgs (es ++ [e]) = sentMsgs es := by simp [hsent]
  constructor
  · rw [hsents, takenMsgs_append, htaken, ArchiveSystem.queued, Option.map_some, Option.getD_some, hch]
    exact hq.take
  · exact hnum
  · exact hroom
  · exact hids
  · rintro b ⟨⟩
    exact hcommitted
  · rintro b ⟨⟩
    exact hdropped
  · rintro b ⟨⟩
    rw [hc, show rowsIn (Msg.row row :: rest) = row :: rowsIn rest from rfl, List.length_cons, ofNat_succ] at hacc
    rw [happ, hch, hacc, hsum, UInt64.add_assoc, UInt64.add_assoc, UInt64.add_comm 1, UInt64.add_assoc]
  · intro hall
    exact h.idle hs (htx ▸ hall a' rfl)
  · rw [hsents]
    exact h.fresh
  · rintro b ⟨⟩ t ht
    rw [takenMsgs_append]
    exact List.mem_append_left _ (h.acked a hs t (hack ▸ ht))

theorem Kept.commit {a : ObservationArchive F} {next : ConCorpus F} {row : Row F} {rest : List (Msg F)}
    (h : Kept es s) (hs : s.archive = some a) (hc : a.channel = .row row :: rest) (hm : MapHolds next)
    (hf : ∀ b, b ∈ next.frames ↔ b ∈ s.corpus.frames ∨ b = (FrameKey.mk a.committed 0).toBytes.val)
    (ht : ∀ t, t ∈ next.trajMeta ↔ t ∈ s.corpus.trajMeta ∨ t = a.committed) :
    Kept (es ++ [.committed a.committed row]) { s with
      corpus := next, archive := some { a with channel := rest, committed := a.committed + 1 } } := by
  have hn := h.committed a hs
  have hids : commitIds (es ++ [.committed a.committed row]) = commitIds es ++ [a.committed] := by
    simp [Event.outcome]
  have hlen : (commitIds (es ++ [.committed a.committed row])).length = a.committed.toNat + 1 := by
    rw [hids, List.length_append, List.length_singleton, hn]
  have hnum : Numbered next (a.committed.toNat + 1) := Numbered.commit (hn ▸ h.numbered) hf ht
  have hroom : a.committed.toNat + 1 < 2 ^ 64 := by
    rw [MapHolds, hnum.length_keys a.committed.toNat_lt] at hm
    exact hm
  refine h.settle hs hc rfl rfl rfl rfl rfl ?_ ?_ ?_ ?_ ?_ rfl ?_
  · rw [hlen]
    exact hnum
  · rw [hlen]
    exact hroom
  · rw [hlen, hids, List.map_append, h.ids, ← hn, List.range_succ]
    rfl
  · rw [hlen, UInt64.toNat_add, UInt64.toNat_one, Nat.mod_eq_of_lt hroom]
  · rw [thisRun_append (by simp), droppedRows_append, h.dropped a hs]
    simp [Event.outcome]
  · rw [UInt64.add_assoc, UInt64.add_comm 1, ← UInt64.add_assoc]

theorem Kept.drop {a : ObservationArchive F} {row : Row F} {rest : List (Msg F)} (h : Kept es s)
    (hs : s.archive = some a) (hc : a.channel = .row row :: rest) : Kept (es ++ [.dropped row]) { s with
      archive := some { a with channel := rest, dropped := a.dropped + 1 } } := by
  have hids : commitIds (es ++ [.dropped row]) = commitIds es := by simp [Event.outcome]
  change Kept _ { s with
    corpus := s.corpus, archive := some { a with channel := rest, dropped := a.dropped + 1 } }
  refine h.settle hs hc rfl rfl rfl rfl rfl ?_ ?_ ?_ ?_ ?_ rfl ?_
  · rw [hids]
    exact h.numbered
  · rw [hids]
    exact h.room
  · rw [hids]
    exact h.ids
  · rw [hids]
    exact h.committed a hs
  · rw [thisRun_append (by simp), droppedRows_append, List.length_append, h.dropped a hs]
    exact (ofNat_succ _).symm
  · exact (UInt64.add_assoc _ _ _).symm

theorem worker_cases {a a' : ObservationArchive F} {refused : Option Error} {c next : ConCorpus F}
    (hw : worker d api refused c a = some (e, next, a')) :
    (∃ row rest, a.channel = .row row :: rest ∧ e = .committed a.committed row ∧
      a' = { a with channel := rest, committed := a.committed + 1 } ∧
      (∀ b, b ∈ next.frames ↔ b ∈ c.frames ∨ b = (FrameKey.mk a.committed 0).toBytes.val) ∧
      ∀ t, t ∈ next.trajMeta ↔ t ∈ c.trajMeta ∨ t = a.committed) ∨
    (∃ row rest, a.channel = .row row :: rest ∧ e = .dropped row ∧
      a' = { a with channel := rest, dropped := a.dropped + 1 } ∧ next = c) ∨
    ∃ t rest, a.channel = .flush t :: rest ∧ e = .acked t ∧
      a' = { a with channel := rest, acks := t :: a.acks } ∧ next = c := by
  rw [worker] at hw
  split at hw
  · cases hw
  · next row rest hc =>
    rcases commitRow_cases (d := d) api c a.committed refused a.z a.cell row with
      ⟨err, he⟩ | ⟨out, he, _, hf, ht⟩
    · simp only [he, Option.some.injEq, Prod.mk.injEq] at hw
      obtain ⟨rfl, rfl, rfl⟩ := hw
      exact .inr (.inl ⟨row, rest, hc, rfl, rfl, rfl⟩)
    · simp only [he, Option.some.injEq, Prod.mk.injEq] at hw
      obtain ⟨rfl, rfl, rfl⟩ := hw
      exact .inl ⟨row, rest, hc, rfl, rfl, hf, ht⟩
  · next t rest hc =>
    simp only [Option.some.injEq, Prod.mk.injEq] at hw
    obtain ⟨rfl, rfl, rfl⟩ := hw
    exact .inr (.inr ⟨t, rest, hc, rfl, rfl, rfl⟩)

theorem worker_takes {a a' : ObservationArchive F} {refused : Option Error} {c next : ConCorpus F}
    (hw : worker d api refused c a = some (e, next, a')) : e.takenMsg ≠ none := by
  rcases worker_cases hw with ⟨_, _, _, rfl, _⟩ | ⟨_, _, _, rfl, _⟩ | ⟨_, _, _, rfl, _⟩ <;> simp [Event.takenMsg]

theorem Kept.worker {a a' : ObservationArchive F} {refused : Option Error} {next : ConCorpus F} (h : Kept es s)
    (hs : s.archive = some a) (hw : ReadconDb.worker d api refused s.corpus a = some (e, next, a')) (hm : MapHolds next) :
    Kept (es ++ [e]) { s with corpus := next, archive := some a' } := by
  rcases worker_cases hw with ⟨row, rest, hc, rfl, rfl, hf, ht⟩ | ⟨row, rest, hc, rfl, rfl, rfl⟩ |
    ⟨t, rest, hc, rfl, rfl, rfl⟩
  · exact h.commit hs hc hm hf ht
  · exact h.drop hs hc
  · exact h.ack hs hc

theorem Kept.step (h : Kept es s) (he : Step d api s e s') : Kept (es ++ [e]) s' := by
  cases he with
  | opened z cell hs => exact h.opened z cell hs
  | appendSend row hs ha => exact h.appendSend row hs ha
  | appendCount hs hn => exact h.appendCount hs hn
  | appendRefused row hs ha => exact h.silent hs hs rfl rfl rfl (by simp) rfl rfl rfl rfl (h.idle hs)
  | flushSend hs ht => exact h.flushSend hs ht
  | flushReturn hs hw ha => exact h.silent hs hs rfl rfl rfl (by simp) rfl rfl rfl rfl (h.idle hs)
  | worker hs hw hm => exact h.worker hs hw hm
  | closing hs hc hf => exact h.silent hs rfl rfl rfl rfl (by simp) rfl rfl rfl rfl fun _ => hc
  | closed hs ht hd => exact h.closed hs ht hd

theorem Run.kept (h : Run d api es s) : Kept es s := by
  induction h with
  | start =>
    constructor
    · rfl
    · exact ⟨by simp [ArchiveSystem.start, ConCorpus.empty, commitIds, outcomes],
        by simp [ArchiveSystem.start, ConCorpus.empty, commitIds, outcomes]⟩
    · exact Nat.two_pow_pos 64
    · rfl
    · rintro a ⟨⟩
    · rintro a ⟨⟩
    · rintro a ⟨⟩
    · exact fun _ => rfl
    · simp [sentMsgs]
    · rintro a ⟨⟩
  | step _ he ih => exact ih.step he

theorem Run.before {es' : List (Event F)} (h : Run d api (es ++ es') s) : ∃ s', Run d api es s' := by
  induction es' using List.reverseRecOn generalizing s with
  | nil => exact ⟨s, by simpa using h⟩
  | append_singleton es' e ih =>
    rw [← List.append_assoc] at h
    generalize hl : es ++ es' ++ [e] = l at h
    cases h with
    | start => simp at hl
    | step hrun _ =>
      obtain ⟨rfl, _⟩ := List.append_inj' hl rfl
      exact ih hrun

theorem Run.last (h : Run d api (es ++ [e]) s') : ∃ s, Run d api es s ∧ Step d api s e s' := by
  generalize hl : es ++ [e] = l at h
  cases h with
  | start => simp at hl
  | step hrun he =>
    obtain ⟨rfl, hee⟩ := List.append_inj' hl rfl
    obtain rfl := List.singleton_inj.mp hee
    exact ⟨_, hrun, he⟩

-- The worker acks a flush only once it has settled all that was queued before it.
theorem Run.flushed {pre post : List (Event F)} {t : Nat}
    (h : Run d api (pre ++ .sent (.flush t) :: (post ++ [.flushed t])) s) :
    accepted pre <+: (outcomes (pre ++ .sent (.flush t) :: (post ++ [.flushed t]))).map Prod.fst := by
  have hsplit : pre ++ .sent (.flush t) :: (post ++ [.flushed t]) =
      (pre ++ .sent (.flush t) :: post) ++ [.flushed t] := by simp
  have hfresh : Msg.flush t ∉ sentMsgs pre := by
    obtain ⟨s₁, h₁⟩ : ∃ s₁, Run d api (pre ++ [.sent (.flush t)]) s₁ := Run.before (by simpa using h)
    obtain ⟨s₀, h₀, he⟩ := h₁.last
    intro hm
    have hlt := h₀.kept.fresh t hm
    cases he with
    | flushSend hs ht => omega
    | worker hs hw hm => exact worker_takes hw rfl
  have htaken : Msg.flush t ∈ takenMsgs (pre ++ .sent (.flush t) :: (post ++ [.flushed t])) := by
    rw [hsplit] at h ⊢
    obtain ⟨s₀, h₀, he⟩ := h.last
    rw [takenMsgs_append]
    cases he with
    | flushReturn hs hw ha => exact List.mem_append_left _ (h₀.kept.acked _ hs t ha)
    | worker hs hw hm => exact absurd rfl (worker_takes hw)
  have hsent : sentMsgs (pre ++ .sent (.flush t) :: (post ++ [.flushed t])) =
      sentMsgs pre ++ .flush t :: sentMsgs (post ++ [.flushed t]) := by
    simp [sentMsgs, List.filterMap_append, Event.sentMsg]
  rw [← rowsIn_taken]
  exact (h.kept.fifo.before hsent htaken hfresh).filterMap _

theorem Kept.free {a : ObservationArchive F} (h : Kept es s) (hs : s.archive = some a) :
    a.committed ∉ s.corpus.trajMeta := by
  rw [h.numbered.metas, h.committed a hs]
  exact lt_irrefl _

theorem archive_lossless (h : Run d api es s) : LosslessLedger es s where
  keys := h.kept.numbered.keys
  numbered := h.kept.ids
  settled := by
    rw [accepted, h.kept.fifo, rowsIn_append, rowsIn_taken]
  committed := h.kept.committed
  free _ hs := h.kept.free hs
  dropped := h.kept.dropped
  accounts a hs hn := by
    have hacc := h.kept.accounts a hs
    rw [hn] at hacc
    exact (UInt64.add_zero _).symm.trans hacc
  flushed pre post t he := by
    subst he
    exact h.flushed

-- No row ever collides with one stored before: what LMDB takes, the worker commits.
theorem Run.commits {a : ObservationArchive F} {row : Row F} {rest : List (Msg F)} {frame : ConFrame F}
    {ps : List PreparedIndexPuts} (h : Run d api es s) (hs : s.archive = some a) (hc : a.channel = .row row :: rest)
    (hf : rowFrame api a.z a.cell row = .ok frame)
    (hp : prepareAppendFrames d s.corpus a.committed [frame] .roundTrip = .ok ps)
    (hroom : (commitIds es).length + 1 < 2 ^ 64) :
    ∃ next, Run d api (es ++ [.committed a.committed row]) { s with
      corpus := next, archive := some { a with channel := rest, committed := a.committed + 1 } } := by
  obtain ⟨next, hn⟩ := commitRow_total hf hp (h.kept.free hs)
  have hw : ReadconDb.worker d api none s.corpus a = some (.committed a.committed row, next,
      { a with channel := rest, committed := a.committed + 1 }) := by
    rw [ReadconDb.worker, hc]
    simp only [hn]
  refine ⟨next, h.step (.worker hs hw ?_)⟩
  rcases worker_cases hw with ⟨_, _, _, _, _, hframes, hmetas⟩ | ⟨_, _, _, he, _⟩ | ⟨_, _, _, he, _⟩
  · have hnum := h.kept.numbered
    rw [← h.kept.committed a hs] at hnum hroom
    rw [MapHolds, (hnum.commit hframes hmetas).length_keys hroom.le]
    exact hroom
  · cases he
  · cases he

end Runs

section Tiny

def tinyArchived : Entry Bits :=
  ({ tinyFrame "H" .one .ten .one [("con_spec_version", .number (.posInt 2)), ("energy", .number (.float .one))] with
      atomData := [⟨"H", .one, .zero, .zero, none, some ⟨.zero, .zero, .zero⟩, none⟩]
      forces := [⟨.zero, .zero, .zero⟩] },
    "observation archive\n\x7b\"con_spec_version\":2,\"energy\":1.0,\"sections\":[\"forces\"]\x7d\n" ++
    "10.0 10.0 10.0\n90.0 90.0 90.0\n0 0\n0 0 0\n1\n1\n1.0\nH\nCoordinates of Component 1\n1.0 0.0 0.0 0 0\n" ++
    "\nH\nForces of Component 1\n0.0 0.0 0.0 0 0\n")

def archivedCatalog : Catalog Bits where
  entries := [tinyArchived]
  nonempty := by
    intro e he
    rw [List.mem_singleton.mp he]
    decide +kernel
  distinct := List.nodup_singleton _
  separate := by
    intro e he e' he' _ _
    rw [List.mem_singleton.mp he, List.mem_singleton.mp he']

def archiving : Crates Bits := archivedCatalog.crates tinyBase

structure TinyBuilder where
  atoms : List (String × Vec3 Bits)
  energy : Option Bits
  forces : List Bits
  deriving DecidableEq

-- Builds the one frame of the catalog, and no other.
def tinyApi : BuilderCrate Bits where
  Builder := TinyBuilder
  new _ _ := ⟨[], none, []⟩
  preboxHeader b _ := b
  setEnergy b e := { b with energy := some e }
  addAtom b sym x _ _ _ := { b with atoms := b.atoms ++ [(sym, x)] }
  setForcesFromFlat b fs := if fs.length = 3 * b.atoms.length then .ok { b with forces := fs } else .error "force length"
  build b :=
    if b = ⟨[("H", ⟨.one, .zero, .zero⟩)], some .one, [.zero, .zero, .zero]⟩ then .ok tinyArchived.1
    else .error "frame not in the catalog"
  atomicNumberToSymbol z := if z = 1 then "H" else "X"

def tinyBox : Vec3 Bits := ⟨.ten, .ten, .ten⟩

def tinyRow : Row Bits := ⟨[.one, .zero, .zero], [.zero, .zero, .zero], .one⟩

theorem tinyRow_frame : rowFrame tinyApi [1] tinyBox tinyRow = .ok tinyArchived.1 := by decide +kernel

theorem tinyRow_prepares (c : ConCorpus Bits) (t : UInt64) :
    ∃ ps, prepareAppendFrames archiving c t [tinyArchived.1] .roundTrip = .ok ps := by
  have hpacks : Packs archiving [tinyArchived] :=
    { lossless := tinyBase_lossless archivedCatalog
      encodes := fun b => ⟨_, rfl⟩
      short := fun x hx => by
        rw [List.mem_singleton.mp hx]
        decide +kernel }
  have hx : [tinyArchived.1].map (serialize archiving .roundTrip) = [tinyArchived].map Except.ok := by
    rw [List.map_singleton, List.map_singleton, archiving, Catalog.serialize_entry (by decide +kernel)]
  obtain ⟨ps, hps, _⟩ := prepareAppendFrames_total (c := c) (t := t) hpacks hx
  exact ⟨ps, hps⟩

theorem tinyRow_refused {es : List (Event Bits)} {s : ArchiveSystem Bits} {a : ObservationArchive Bits}
    {rest : List (Msg Bits)} (h : Run archiving tinyApi es s) (hs : s.archive = some a)
    (hc : a.channel = .row tinyRow :: rest) (hz : a.z = [1]) (hb : a.cell = tinyBox) :
    Run archiving tinyApi (es ++ [.dropped tinyRow]) { s with
      archive := some { a with channel := rest, dropped := a.dropped + 1 } } := by
  obtain ⟨ps, hps⟩ := tinyRow_prepares s.corpus a.committed
  have hw : worker archiving tinyApi (some (.heed "MDB_MAP_FULL")) s.corpus a =
      some (.dropped tinyRow, s.corpus, { a with channel := rest, dropped := a.dropped + 1 }) := by
    simp only [worker, hc, hz, hb, commitRow, tinyRow_frame, appendTrajectoryFramesWithFloatFormat, hps, call, write,
      Except.map]
  apply h.step (.worker hs hw _)
  rw [MapHolds, h.kept.numbered.length_keys h.kept.room.le]
  exact h.kept.room

theorem tiny_session {es : List (Event Bits)} {s : ArchiveSystem Bits} (h : Run archiving tinyApi es s)
    (hs : s.archive = none) (hroom : (commitIds es).length + 1 < 2 ^ 64) :
    ∃ es' s' id, Run archiving tinyApi es' s' ∧ commitIds es' = commitIds es ++ [id] ∧ s'.appending = 0 ∧
      s'.flushing = s.flushing ∧ ∃ a, s'.archive = some a ∧ a.channel = [] := by
  have hidle : s.appending = 0 := h.kept.alone fun a ha => by
    rw [hs] at ha
    cases ha
  have h₁ := h.step (.opened [1] tinyBox hs)
  have h₂ := h₁.step (.appendSend tinyRow rfl rfl)
  have h₃ := h₂.step (.appendCount rfl rfl)
  obtain ⟨_, hps⟩ := tinyRow_prepares (setCompressFrames s.corpus true) (openArchive s.corpus [1] tinyBox).committed
  have hids₃ : commitIds (es ++ [.opened [1] tinyBox] ++ [.sent (.row tinyRow)] ++ [.counted]) = commitIds es := by
    simp only [commitIds_append, Event.outcome, Option.bind_none, Option.toList_none, List.append_nil]
  obtain ⟨c, h₄⟩ := h₃.commits rfl rfl tinyRow_frame hps (hids₃.symm ▸ hroom)
  have h₅ := h₄.step (.appendSend tinyRow rfl rfl)
  have h₆ := tinyRow_refused h₅ rfl rfl rfl rfl
  have h₇ := h₆.step (.appendCount rfl rfl)
  refine ⟨_, _, (openArchive s.corpus [1] tinyBox).committed, h₇, ?_, hidle, rfl, _, rfl, rfl⟩
  simp only [commitIds_append, Event.outcome, Option.bind_none, Option.bind_some, Option.toList_none,
    Option.toList_some, List.append_nil]
  rfl

theorem tiny_close {es : List (Event Bits)} {s : ArchiveSystem Bits} {a : ObservationArchive Bits}
    (h : Run archiving tinyApi es s) (hs : s.archive = some a) (hc : a.channel = []) (hn : s.appending = 0)
    (hf : s.flushing = []) :
    ∃ es' s', Run archiving tinyApi es' s' ∧ commitIds es' = commitIds es ∧ s'.archive = none ∧ s'.flushing = [] := by
  have h₁ := h.step (.closing hs hn hf)
  have h₂ := h₁.step (.closed rfl rfl hc)
  have hids : commitIds (es ++ [.closing] ++ [.closed]) = commitIds es := by
    simp only [commitIds_append, Event.outcome, Option.bind_none, Option.toList_none, List.append_nil]
  exact ⟨_, _, h₂, hids, rfl, hf⟩

theorem tiny_archive_lossless : ∃ es s, Run archiving tinyApi es s ∧ LosslessLedger es s ∧ s.archive ≠ none ∧
    (commitIds es).map UInt64.toNat = [0, 1] := by
  obtain ⟨es₁, s₁, id₁, h₁, hids₁, hn₁, hf₁, a₁, hs₁, hc₁⟩ := tiny_session .start rfl (by decide)
  obtain ⟨es₂, s₂, h₂, hids₂, hs₂, hf₂⟩ := tiny_close h₁ hs₁ hc₁ hn₁ hf₁
  have hone : commitIds es₂ = [id₁] := hids₂.trans hids₁
  obtain ⟨es₃, s₃, id₃, h₃, hids₃, _, _, a₃, hs₃, _⟩ := tiny_session h₂ hs₂ (by simp [hone])
  have hall := archive_lossless h₃
  refine ⟨es₃, s₃, h₃, hall, by simp [hs₃], ?_⟩
  rw [hall.numbered, hids₃, hone]
  rfl

end Tiny

end ReadconDb
