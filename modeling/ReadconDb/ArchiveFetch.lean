import ReadconDb.Archive
import ReadconDb.Library.Scatter

set_option linter.unusedSectionVars false

namespace ReadconDb

open ByteString Outcome OrderedTable TwoPhase Scatter

section Fetch

variable {F : Type} [Float64 F] (d : Crates F)

def archiveRow (index : UInt64) (what : String) : String := "archive row " ++ toString index ++ what

def scatterRows (index : UInt64) (n : Nat) :
    List (UInt64 × Vec3 F × Vec3 F) → List F × List F → Result (List F × List F)
  | [], out => .ok out
  | (atomId, x, f) :: stored, (positions, forces) =>
    let orig := atomId.toNat
    if n ≤ orig then .error (.parse (archiveRow index (": atom id " ++ toString orig ++ " out of range")))
    else scatterRows index n stored (copyFrom positions (3 * orig) x.toList, copyFrom forces (3 * orig) f.toList)

def fetch (corpus : ConCorpus F) (natoms : Nat) (index : UInt64) : Result (List F × List F × F) := do
  let frame ← getFrame d corpus ⟨index, 0⟩
  if frame.atomIds.length ≠ natoms then
    .error (.message (archiveRow index (": expected " ++ toString natoms ++ " atoms, found " ++
      toString frame.atomIds.length)))
  else if frame.positions.length ≠ natoms ∨ frame.forces.length ≠ natoms then
    .error (.parse (archiveRow index (": expected " ++ toString natoms ++ " position and force rows, found " ++
      toString frame.positions.length ++ " and " ++ toString frame.forces.length)))
  else do
    let zeros : List F := List.replicate (3 * natoms) zeroF64
    let (positions, forces) ← scatterRows index natoms (frame.atomIds.zip (frame.positions.zip frame.forces))
      (zeros, zeros)
    match d.energy frame.header with
    | none => .error (.message (archiveRow index " has no energy"))
    | some energy => .ok (positions, forces, energy)

end Fetch

section Flat

variable {F : Type}

def vec3s : List F → List (Vec3 F)
  | a :: b :: c :: rest => ⟨a, b, c⟩ :: vec3s rest
  | _ => []

def flat (rows : List (Vec3 F)) : List F := (rows.map Vec3.toList).flatten

theorem flat_vec3s {n : Nat} {xs : List F} (h : xs.length = 3 * n) : flat (vec3s xs) = xs ∧ (vec3s xs).length = n := by
  induction n generalizing xs with
  | zero =>
    obtain rfl := List.eq_nil_of_length_eq_zero h
    exact ⟨rfl, rfl⟩
  | succ n ih =>
    match xs, h with
    | a :: b :: c :: rest, h =>
      have hl : rest.length = 3 * n := by simp only [List.length_cons] at h; omega
      obtain ⟨hflat, hlen⟩ := ih hl
      constructor
      · rw [vec3s, flat, List.map_cons, List.flatten_cons]
        exact congrArg (fun xs => a :: b :: c :: xs) hflat
      · rw [vec3s, List.length_cons, hlen]

theorem vec3s_getElem {n : Nat} {xs : List F} (h : xs.length = 3 * n) {i : Nat} (hi : i < n) (z : F) :
    (vec3s xs)[i]? = some ⟨xs.getD (3 * i) z, xs.getD (3 * i + 1) z, xs.getD (3 * i + 2) z⟩ := by
  induction n generalizing xs i with
  | zero => cases hi
  | succ n ih =>
    match xs, h with
    | a :: b :: c :: rest, h =>
      cases i with
      | zero => rfl
      | succ i =>
        have hl : rest.length = 3 * n := by simp only [List.length_cons] at h; omega
        have hrest := ih hl (Nat.lt_of_succ_lt_succ hi)
        have hget (j : Nat) : (a :: b :: c :: rest).getD (3 * (i + 1) + j) z = rest.getD (3 * i + j) z := by
          rw [show 3 * (i + 1) + j = 3 * i + j + 1 + 1 + 1 from by omega]
          simp only [List.getD_cons_succ]
        rw [vec3s, List.getElem?_cons_succ, hrest, hget 1, hget 2]
        exact congrArg some (congrArg (fun x => Vec3.mk x _ _) (hget 0).symm)

theorem copyFrom_flat (rows : List (Vec3 F)) (v : Vec3 F) {i : Nat} (hi : i < rows.length) :
    copyFrom (flat rows) (3 * i) v.toList = flat (rows.set i v) := by
  have hw : ∀ r ∈ rows.map Vec3.toList, r.length = 3 := by
    intro r hr
    obtain ⟨u, _, rfl⟩ := List.mem_map.mp hr
    rfl
  rw [flat, copyFrom_flatten hw (show v.toList.length = 3 from rfl) (by rwa [List.length_map]), flat, List.map_set]

theorem flat_replicate (n : Nat) (v : F) : flat (List.replicate n ⟨v, v, v⟩) = List.replicate (3 * n) v := by
  induction n with
  | zero => rfl
  | succ n ih =>
    rw [List.replicate_succ, flat, List.map_cons, List.flatten_cons]
    exact (congrArg (fun xs => v :: v :: v :: xs) ih).trans (by rw [Nat.mul_add, ← List.replicate_succ]; rfl)

end Flat

section Laws

variable {F : Type} [Float64 F] (d : Crates F)

structure Added (F : Type) where
  atoms : List (UInt64 × Vec3 F)
  forces : List (Vec3 F)
  energy : Option F
  deriving DecidableEq

def Added.rows (a : Added F) : List (UInt64 × Vec3 F × Vec3 F) :=
  (a.atoms.zip a.forces).map fun q => (q.1.1, q.1.2, q.2)

-- The rows of a frame: every atom once, with its position and its force, in the frame's own order.
structure Carries (a : Added F) (g : ConFrame F) : Prop where
  energy : d.energy g.header = a.energy
  ids : g.atomIds.length = a.atoms.length
  positions : g.positions.length = a.atoms.length
  forces : g.forces.length = a.atoms.length
  rows : (g.atomIds.zip (g.positions.zip g.forces)).Perm a.rows

-- What readcon-core promises of its builder, and of the text and the frame it makes of it.
structure BuilderLaws (api : BuilderCrate F) where
  added : api.Builder → Added F
  new : ∀ cell angles, added (api.new cell angles) = ⟨[], [], none⟩
  preboxHeader : ∀ b s, added (api.preboxHeader b s) = added b
  setEnergy : ∀ b e, added (api.setEnergy b e) = { added b with energy := some e }
  addAtom : ∀ b symbol x fixed id mass, added (api.addAtom b symbol x fixed id mass) =
    { added b with atoms := (added b).atoms ++ [(id, x)] }
  setForcesFromFlat : ∀ {b b' fs}, api.setForcesFromFlat b fs = .ok b' → fs.length = 3 * (added b).atoms.length →
    added b' = { added b with forces := vec3s fs }
  build : ∀ {b frame x}, api.build b = .ok frame → serialize d .roundTrip frame = .ok x →
    (added b).forces.length = (added b).atoms.length →
    ∃ g, firstFrame d "empty blob" x.2 = .ok g ∧ Carries d (added b) g

variable {d} {api : BuilderCrate F} {z : List UInt32} {cell : Vec3 F} {row : Row F}

theorem BuilderLaws.rowAtoms (laws : BuilderLaws d api) (i : Nat) (b : api.Builder) :
    laws.added (rowAtoms api row i z b) = { laws.added b with
      atoms := (laws.added b).atoms ++ (List.range' i z.length).map fun j => (UInt64.ofNat j,
        ⟨row.positions.getD (3 * j) zeroF64, row.positions.getD (3 * j + 1) zeroF64,
          row.positions.getD (3 * j + 2) zeroF64⟩) } := by
  induction z generalizing i b with
  | nil => simp [ReadconDb.rowAtoms]
  | cons zi zs ih =>
    rw [ReadconDb.rowAtoms, ih, laws.addAtom]
    simp [List.range'_succ]

theorem BuilderLaws.rowFrame (laws : BuilderLaws d api) (hp : row.positions.length = 3 * z.length)
    (hf : row.forces.length = 3 * z.length) {frame : ConFrame F} (hr : rowFrame api z cell row = .ok frame)
    {x : ConFrame F × String} (hx : serialize d .roundTrip frame = .ok x) :
    ∃ g, firstFrame d "empty blob" x.2 = .ok g ∧ Carries d
      ⟨((List.range z.length).map UInt64.ofNat).zip (vec3s row.positions), vec3s row.forces, some row.energy⟩ g := by
  have hatoms : ((List.range' 0 z.length).map fun j => (UInt64.ofNat j, (⟨row.positions.getD (3 * j) zeroF64,
      row.positions.getD (3 * j + 1) zeroF64, row.positions.getD (3 * j + 2) zeroF64⟩ : Vec3 F))) =
      ((List.range z.length).map UInt64.ofNat).zip (vec3s row.positions) := by
    apply List.ext_getElem
    · simp [(flat_vec3s hp).2]
    · intro i hi hi'
      have hlt : i < z.length := by simpa using hi
      have hget := vec3s_getElem hp hlt (zeroF64 : F)
      rw [List.getElem?_eq_getElem (by rw [(flat_vec3s hp).2]; exact hlt)] at hget
      simp [Option.some.inj hget]
  obtain ⟨b, hb, hr⟩ := bind_eq_ok.mp hr
  have hset := mapError_eq_ok.mp hb
  have hbefore := @BuilderLaws.rowAtoms _ _ _ _ z row laws 0 (api.setEnergy (api.preboxHeader (api.new cell
    ⟨Float64.ofInt 90, Float64.ofInt 90, Float64.ofInt 90⟩) "observation archive") row.energy)
  rw [laws.setEnergy, laws.preboxHeader, laws.new, List.nil_append, hatoms] at hbefore
  have hlen : (((List.range z.length).map UInt64.ofNat).zip (vec3s row.positions)).length = z.length := by
    simp [(flat_vec3s hp).2]
  have hadded := laws.setForcesFromFlat hset (by rw [hbefore, hlen]; exact hf)
  rw [hbefore] at hadded
  obtain ⟨g, hg, hc⟩ := laws.build (mapError_eq_ok.mp hr) hx (by rw [hadded, hlen]; exact (flat_vec3s hf).2)
  rw [hadded] at hc
  exact ⟨g, hg, hc⟩

end Laws

section Returns

variable {F : Type} [Float64 F] {d : Crates F} {api : BuilderCrate F}

theorem scatterRows_ok (index : UInt64) {n : Nat} {stored : List (UInt64 × Vec3 F × Vec3 F)}
    (h : ∀ q ∈ stored, q.1.toNat < n) {xs fs : List (Vec3 F)} (hx : xs.length = n) (hf : fs.length = n) :
    scatterRows index n stored (flat xs, flat fs) = .ok
      (flat (place (stored.map fun q => (q.1.toNat, q.2.1)) xs), flat (place (stored.map fun q => (q.1.toNat, q.2.2)) fs)) := by
  induction stored generalizing xs fs with
  | nil => rfl
  | cons q qs ih =>
    obtain ⟨id, x, f⟩ := q
    have hid : id.toNat < n := h (id, x, f) List.mem_cons_self
    have hlenx : (xs.set id.toNat x).length = n := List.length_set.trans hx
    have hlenf : (fs.set id.toNat f).length = n := List.length_set.trans hf
    have hrest := ih (fun p hp => h p (List.mem_cons_of_mem _ hp)) hlenx hlenf
    simp only [scatterRows, if_neg (Nat.not_le.mpr hid)]
    rw [copyFrom_flat xs x (hx ▸ hid), copyFrom_flat fs f (hf ▸ hid), hrest]
    rfl

theorem callerRows {n : Nat} {xs fs : List (Vec3 F)} {e : Option F} (hn : n < 2 ^ 64) (hx : xs.length = n)
    (hf : fs.length = n) :
    ((Added.mk (((List.range n).map UInt64.ofNat).zip xs) fs e).rows.map fun q => (q.1.toNat, q.2.1)) =
        (List.range xs.length).zip xs ∧
      ((Added.mk (((List.range n).map UInt64.ofNat).zip xs) fs e).rows.map fun q => (q.1.toNat, q.2.2)) =
        (List.range fs.length).zip fs := by
  have hid (i : Nat) (hi : i < n) : (UInt64.ofNat i).toNat = i := by
    rw [UInt64.toNat_ofNat', Nat.mod_eq_of_lt (hi.trans hn)]
  constructor
  · apply List.ext_getElem
    · simp [Added.rows, hx, hf]
    · intro i hi hi'
      have hlt : i < n := by simpa [hx] using hi'
      simp [Added.rows, hid i hlt]
  · apply List.ext_getElem
    · simp [Added.rows, hx, hf]
    · intro i hi hi'
      have hlt : i < n := by simpa [hf] using hi'
      simp [Added.rows, hid i hlt]

def Holds (d : Crates F) (text : String) (n : Nat) (row : Row F) : Prop :=
  ∃ g, firstFrame d "empty blob" text = .ok g ∧ Carries d
    ⟨((List.range n).map UInt64.ofNat).zip (vec3s row.positions), vec3s row.forces, some row.energy⟩ g

theorem Holds.fetch {c : ConCorpus F} {index : UInt64} {text : String} {n : Nat} {row : Row F}
    (h : Holds d text n row) (ht : textAt d c ⟨index, 0⟩ = some text) (hn : n < 2 ^ 64)
    (hp : row.positions.length = 3 * n) (hf : row.forces.length = 3 * n) :
    fetch d c n index = .ok (row.positions, row.forces, row.energy) := by
  obtain ⟨g, hg, hc⟩ := h
  obtain ⟨hflatx, hlenx⟩ := flat_vec3s hp
  obtain ⟨hflatf, hlenf⟩ := flat_vec3s hf
  have hsize : (((List.range n).map UInt64.ofNat).zip (vec3s row.positions)).length = n := by simp [hlenx]
  have hids := hc.ids.trans hsize
  have hpos := hc.positions.trans hsize
  have hfor := hc.forces.trans hsize
  obtain ⟨hcallx, hcallf⟩ := callerRows (e := some row.energy) hn hlenx hlenf
  have hbound : ∀ q ∈ g.atomIds.zip (g.positions.zip g.forces), q.1.toNat < n := by
    intro q hq
    have hmem := List.mem_map_of_mem (f := fun q => (q.1.toNat, q.2.1)) (hc.rows.mem_iff.mp hq)
    rw [hcallx, hlenx] at hmem
    exact List.mem_range.mp (List.of_mem_zip hmem).1
  have hxs : place _ (List.replicate n ⟨zeroF64, zeroF64, zeroF64⟩) = vec3s row.positions :=
    place_perm (hcallx ▸ hc.rows.map fun q : UInt64 × Vec3 F × Vec3 F => (q.1.toNat, q.2.1)) (by rw [List.length_replicate, hlenx])
  have hfs : place _ (List.replicate n ⟨zeroF64, zeroF64, zeroF64⟩) = vec3s row.forces :=
    place_perm (hcallf ▸ hc.rows.map fun q : UInt64 × Vec3 F × Vec3 F => (q.1.toNat, q.2.2)) (by rw [List.length_replicate, hlenf])
  have hscatter := scatterRows_ok index hbound (List.length_replicate (n := n) (a := ⟨zeroF64, zeroF64, zeroF64⟩))
    (List.length_replicate (n := n) (a := ⟨zeroF64, zeroF64, zeroF64⟩))
  rw [hxs, hfs, hflatx, hflatf, flat_replicate] at hscatter
  have hframe : getFrame d c ⟨index, 0⟩ = .ok g := by
    rw [getFrame, getFrameText_eq_ok.mpr (textAt_eq_some.mp ht)]
    exact hg
  simp only [ReadconDb.fetch, hframe, bind, Except.bind, hids, hpos, hfor, ne_eq, not_true_eq_false, or_self, if_false,
    hscatter, hc.energy]

theorem Holds.fetch_other {c : ConCorpus F} {index : UInt64} {text : String} {m n : Nat} {row : Row F}
    (h : Holds d text n row) (ht : textAt d c ⟨index, 0⟩ = some text) (hp : row.positions.length = 3 * n)
    (hm : m ≠ n) : ReadconDb.fetch d c m index = .error (.message (archiveRow index
      (": expected " ++ toString m ++ " atoms, found " ++ toString n))) := by
  obtain ⟨g, hg, hc⟩ := h
  have hids : g.atomIds.length = n := hc.ids.trans (by simp [(flat_vec3s hp).2])
  have hframe : getFrame d c ⟨index, 0⟩ = .ok g := by
    rw [getFrame, getFrameText_eq_ok.mpr (textAt_eq_some.mp ht)]
    exact hg
  simp only [ReadconDb.fetch, hframe, bind, Except.bind, hids]
  exact if_pos (Ne.symm hm)

theorem commitRow_sound (hz : ZstdLossless d) {c next : ConCorpus F} {L : Texts} (h : Sound d c L)
    {refused : Option Error} {traj : UInt64} {z : List UInt32} {cell : Vec3 F} {row : Row F}
    (hc : commitRow d api refused c traj z cell row = (.ok (), next)) :
    ∃ frame x, rowFrame api z cell row = .ok frame ∧ serialize d .roundTrip frame = .ok x ∧ L traj = none ∧
      Sound d next (L.write traj [x.2]) := by
  rw [commitRow] at hc
  cases hr : rowFrame api z cell row with
  | error e =>
    rw [hr] at hc
    cases hc
  | ok frame =>
    simp only [hr] at hc
    rcases call_cases (prepareAppendFrames d c traj [frame] .roundTrip) refused
      (commitPrepared d traj "observation-archive" false) c with ⟨e, he⟩ | ⟨ps, n, c', _, hp, hcommit, he⟩
    · simp only [appendTrajectoryFramesWithFloatFormat, he, Except.map] at hc
      cases hc
    · simp only [appendTrajectoryFramesWithFloatFormat, he, Except.map, Prod.mk.injEq, true_and] at hc
      subst hc
      obtain ⟨xs, hxs, hg⟩ := prepareAppendFrames_ok hz hp
      obtain ⟨x, rfl, hx⟩ := List.map_eq_singleton_iff.mp hxs.symm
      obtain ⟨hnone, _, hs⟩ := h.commitPrepared hg (by simp) hcommit
      exact ⟨frame, x, rfl, hx.symm, hnone, hs⟩

theorem archived_rows_return (hz : ZstdLossless d) (laws : BuilderLaws d api) {c next : ConCorpus F}
    (h : History d (fun c a => a.Fits d c) c) {refused : Option Error} {traj : UInt64} {z : List UInt32} {cell : Vec3 F}
    {row : Row F} (hn : z.length < 2 ^ 64) (hp : row.positions.length = 3 * z.length)
    (hf : row.forces.length = 3 * z.length) (hc : commitRow d api refused c traj z cell row = (.ok (), next)) :
    fetch d next z.length traj = .ok (row.positions, row.forces, row.energy) := by
  obtain ⟨L, hs⟩ := h.sound hz
  obtain ⟨frame, x, hr, hx, _, hnext⟩ := commitRow_sound hz hs hc
  obtain ⟨g, hg, hcarries⟩ := laws.rowFrame hp hf hr hx
  refine Holds.fetch ⟨g, hg, hcarries⟩ ?_ hn hp hf
  rw [hnext.refines.text]
  exact Ledger.entry_write_self L traj [x.2] 0

end Returns

section Runs

variable {F : Type} [Float64 F] {d : Crates F} {api : BuilderCrate F} {es : List (Event F)} {e : Event F}
  {s s' : ArchiveSystem F}

def composition (es : List (Event F)) : List UInt32 :=
  es.foldl (fun z e => match e with
    | .opened z _ => z
    | _ => z) []

theorem composition_append (h : ∀ z cell, e ≠ .opened z cell) : composition (es ++ [e]) = composition es := by
  rw [composition, List.foldl_append, composition]
  cases e <;> first | rfl | exact absurd rfl (h _ _)

theorem composition_opened (z : List UInt32) (cell : Vec3 F) : composition (es ++ [.opened z cell]) = z := by
  rw [composition, List.foldl_append]
  rfl

def Row.Sized (row : Row F) (n : Nat) : Prop := row.positions.length = 3 * n ∧ row.forces.length = 3 * n

def StoresRow (d : Crates F) (L : Texts) (traj : UInt64) (n : Nat) (row : Row F) : Prop :=
  row.Sized n ∧ ∃ text, L traj = some [text] ∧ Holds d text n row

structure Stored (d : Crates F) (es : List (Event F)) (s : ArchiveSystem F) : Prop where
  composed : ∀ a, s.archive = some a → a.z = composition es
  sized : ∀ a, s.archive = some a → ∀ row ∈ rowsIn a.channel, row.Sized a.natoms
  rows : ∃ L, Sound d s.corpus L ∧ ∀ pre traj row post, es = pre ++ .committed traj row :: post →
    StoresRow d L traj (composition pre).length row

theorem last_event {pre post : List (Event F)} {x : Event F} (h : es ++ [e] = pre ++ x :: post) :
    (pre = es ∧ x = e) ∨ ∃ post', es = pre ++ x :: post' := by
  rcases List.eq_nil_or_concat post with rfl | ⟨post', y, rfl⟩
  · obtain ⟨rfl, he⟩ := List.append_inj' h rfl
    exact .inl ⟨rfl, (List.singleton_inj.mp he).symm⟩
  · rw [List.concat_eq_append, ← List.cons_append, ← List.append_assoc] at h
    exact .inr ⟨post', (List.append_inj' h rfl).1⟩

theorem Stored.quiet {a a' : ObservationArchive F} (h : Stored d es s) (hs : s.archive = some a)
    (hs' : s'.archive = some a') (hc : s'.corpus = s.corpus) (hz : a'.z = a.z)
    (hr : ∀ row ∈ rowsIn a'.channel, row ∈ rowsIn a.channel ∨ row.Sized a.natoms)
    (he : ∀ traj row, e ≠ .committed traj row) (ho : ∀ z cell, e ≠ .opened z cell) : Stored d (es ++ [e]) s' := by
  constructor
  · intro b hb
    obtain rfl := Option.some.inj (hs'.symm.trans hb)
    rw [composition_append ho, hz, h.composed a hs]
  · intro b hb row hrow
    obtain rfl := Option.some.inj (hs'.symm.trans hb)
    rw [ObservationArchive.natoms, hz]
    rcases hr row hrow with hrow | hrow
    · exact h.sized a hs row hrow
    · exact hrow
  · obtain ⟨L, hL, hrows⟩ := h.rows
    refine ⟨L, hc ▸ hL, fun pre traj row post hp => ?_⟩
    rcases last_event hp with ⟨_, hlast⟩ | ⟨post', hp⟩
    · exact absurd hlast.symm (he traj row)
    · exact hrows pre traj row post' hp

theorem Stored.opened (h : Stored d es s) (z : List UInt32) (cell : Vec3 F) :
    Stored d (es ++ [.opened z cell]) { s with
      corpus := setCompressFrames s.corpus true, archive := some (openArchive s.corpus z cell) } := by
  constructor
  · rintro a ⟨⟩
    rw [composition_opened]
    rfl
  · rintro a ⟨⟩ row hrow
    cases hrow
  · obtain ⟨L, hL, hrows⟩ := h.rows
    refine ⟨L, hL.setCompress true, fun pre traj row post hp => ?_⟩
    rcases last_event hp with ⟨_, hlast⟩ | ⟨post', hp⟩
    · cases hlast
    · exact hrows pre traj row post' hp

theorem Stored.closed (h : Stored d es s) : Stored d (es ++ [.closed]) { s with archive := none } := by
  constructor
  · rintro a ⟨⟩
  · rintro a ⟨⟩
  · obtain ⟨L, hL, hrows⟩ := h.rows
    refine ⟨L, hL, fun pre traj row post hp => ?_⟩
    rcases last_event hp with ⟨_, hlast⟩ | ⟨post', hp⟩
    · cases hlast
    · exact hrows pre traj row post' hp

theorem Stored.commit (hz : ZstdLossless d) (laws : BuilderLaws d api) {a a' : ObservationArchive F}
    {refused : Option Error} {next : ConCorpus F} {row : Row F} {rest : List (Msg F)} (h : Stored d es s)
    (hs : s.archive = some a) (hch : a.channel = .row row :: rest) (ha : a'.z = a.z) (hr : a'.channel = rest)
    (hc : commitRow d api refused s.corpus a.committed a.z a.cell row = (.ok (), next)) :
    Stored d (es ++ [.committed a.committed row]) { s with corpus := next, archive := some a' } := by
  have hsized := h.sized a hs
  rw [hch] at hsized
  have hrow : row.Sized a.natoms := hsized row List.mem_cons_self
  constructor
  · rintro b ⟨⟩
    rw [composition_append (by simp), ha, h.composed a hs]
  · rintro b ⟨⟩ q hq
    rw [ObservationArchive.natoms, ha]
    exact hsized q (List.mem_cons_of_mem _ (hr ▸ hq))
  · obtain ⟨L, hL, hrows⟩ := h.rows
    obtain ⟨frame, x, hframe, hx, hnone, hnext⟩ := commitRow_sound hz hL hc
    refine ⟨_, hnext, fun pre traj q post hp => ?_⟩
    rcases last_event hp with ⟨rfl, hlast⟩ | ⟨post', hp⟩
    · obtain ⟨rfl, rfl⟩ := Event.committed.inj hlast
      rw [← h.composed a hs]
      exact ⟨hrow, x.2, Ledger.write_self L a.committed [x.2], laws.rowFrame hrow.1 hrow.2 hframe hx⟩
    · obtain ⟨hq, text, htext, hholds⟩ := hrows pre traj q post' hp
      have hne : traj ≠ a.committed := by
        rintro rfl
        rw [hnone] at htext
        cases htext
      exact ⟨hq, text, (Ledger.write_other L [x.2] hne).trans htext, hholds⟩

theorem worker_commits {a a' : ObservationArchive F} {refused : Option Error} {c next : ConCorpus F} {row : Row F}
    {rest : List (Msg F)} (hc : a.channel = .row row :: rest) {traj : UInt64}
    (hw : worker d api refused c a = some (.committed traj row, next, a')) :
    commitRow d api refused c a.committed a.z a.cell row = (.ok (), next) := by
  rw [worker, hc] at hw
  cases hr : commitRow d api refused c a.committed a.z a.cell row with
  | mk out c' =>
    cases out with
    | error err => simp [hr] at hw
    | ok u =>
      simp only [hr, Option.some.injEq, Prod.mk.injEq] at hw
      rw [hw.2.1]

theorem Stored.worker (hz : ZstdLossless d) (laws : BuilderLaws d api) {a a' : ObservationArchive F}
    {refused : Option Error} {next : ConCorpus F} (h : Stored d es s) (hs : s.archive = some a)
    (hw : ReadconDb.worker d api refused s.corpus a = some (e, next, a')) :
    Stored d (es ++ [e]) { s with corpus := next, archive := some a' } := by
  have hrest {m : Msg F} {rest : List (Msg F)} (hc : a.channel = m :: rest) :
      ∀ row ∈ rowsIn rest, row ∈ rowsIn a.channel := by
    intro row hrow
    rw [hc, rowsIn, List.filterMap_cons]
    cases m with
    | row _ => exact List.mem_cons_of_mem _ hrow
    | flush _ => exact hrow
  rcases worker_cases hw with ⟨row, rest, hc, rfl, rfl, _⟩ | ⟨row, rest, hc, rfl, rfl, rfl⟩ | ⟨t, rest, hc, rfl, rfl, rfl⟩
  · exact h.commit hz laws hs hc rfl rfl (worker_commits hc hw)
  · exact h.quiet hs rfl rfl rfl (fun row hrow => .inl (hrest hc row hrow)) (by simp) (by simp)
  · exact h.quiet hs rfl rfl rfl (fun row hrow => .inl (hrest hc row hrow)) (by simp) (by simp)

theorem Stored.step (hz : ZstdLossless d) (laws : BuilderLaws d api) (h : Stored d es s) (he : Step d api s e s') :
    Stored d (es ++ [e]) s' := by
  cases he with
  | opened z cell hs => exact h.opened z cell
  | appendSend row hs ha =>
    refine h.quiet hs rfl rfl rfl (fun q hq => ?_) (by simp) (by simp)
    rw [ObservationArchive.send, rowsIn_append] at hq
    rcases List.mem_append.mp hq with hq | hq
    · exact .inl hq
    · obtain rfl := List.mem_singleton.mp hq
      simp only [ObservationArchive.accepts, Bool.and_eq_true, beq_iff_eq] at ha
      exact .inr ha.1
  | appendCount hs hn => exact h.quiet hs rfl rfl rfl (fun _ hq => .inl hq) (by simp) (by simp)
  | appendRefused row hs ha => exact h.quiet hs hs rfl rfl (fun _ hq => .inl hq) (by simp) (by simp)
  | flushSend hs ht =>
    refine h.quiet hs rfl rfl rfl (fun q hq => ?_) (by simp) (by simp)
    rw [ObservationArchive.send, rowsIn_append] at hq
    rcases List.mem_append.mp hq with hq | hq
    · exact .inl hq
    · cases hq
  | flushReturn hs hw ha => exact h.quiet hs hs rfl rfl (fun _ hq => .inl hq) (by simp) (by simp)
  | worker hs hw hm => exact h.worker hz laws hs hw
  | closing hs hc hf => exact h.quiet hs rfl rfl rfl (fun _ hq => .inl hq) (by simp) (by simp)
  | closed hs ht hd => exact h.closed

theorem Run.stored (hz : ZstdLossless d) (laws : BuilderLaws d api) (h : Run d api es s) : Stored d es s := by
  induction h with
  | start =>
    constructor
    · rintro a ⟨⟩
    · rintro a ⟨⟩
    · refine ⟨_, sound_empty, fun pre traj row post hp => ?_⟩
      simp at hp
  | step _ he ih => exact ih.step hz laws he

-- `fetch` goes by the atom count of the archive that is open, not of the one that committed the row.
theorem committed_rows_stay (hz : ZstdLossless d) (laws : BuilderLaws d api) (h : Run d api es s)
    {a : ObservationArchive F} (_ : s.archive = some a) {pre post : List (Event F)} {traj : UInt64} {row : Row F}
    (he : es = pre ++ .committed traj row :: post) (hn : (composition pre).length < 2 ^ 64) :
    fetch d s.corpus a.natoms traj =
      if a.natoms = (composition pre).length then .ok (row.positions, row.forces, row.energy)
      else .error (.message (archiveRow traj (": expected " ++ toString a.natoms ++ " atoms, found " ++
        toString (composition pre).length))) := by
  obtain ⟨L, hL, hrows⟩ := (h.stored hz laws).rows
  obtain ⟨hsized, text, htext, hholds⟩ := hrows pre traj row post he
  have hstored : textAt d s.corpus ⟨traj, 0⟩ = some text := by
    rw [hL.refines.text, Ledger.entry, htext]
    rfl
  split
  · next hsame =>
    rw [hsame]
    exact hholds.fetch hstored hn hsized.1 hsized.2
  · next hother => exact hholds.fetch_other hstored hsized.1 hother

end Runs

section Tiny

-- Oxygen between two hydrogens: the frame and its text put the hydrogens first.
def waterFrame : ConFrame Bits :=
  { tinyFrame "H" .zero .ten .one [("con_spec_version", .number (.posInt 2)), ("energy", .number (.float .ten))] with
    atomData := [⟨"H", .one, .zero, .zero, none, some ⟨.zero, .zero, .one⟩, none⟩,
      ⟨"H", .tenth, .zero, .zero, none, some ⟨.zero, .ten, .zero⟩, none⟩,
      ⟨"O", .zero, .tenth, .zero, none, some ⟨.tenth, .zero, .zero⟩, none⟩]
    atomIds := [0, 2, 1]
    positions := [⟨.one, .zero, .zero⟩, ⟨.tenth, .zero, .zero⟩, ⟨.zero, .tenth, .zero⟩]
    forces := [⟨.zero, .zero, .one⟩, ⟨.zero, .ten, .zero⟩, ⟨.tenth, .zero, .zero⟩] }

def water : Entry Bits :=
  (waterFrame,
    "observation archive\n\x7b\"con_spec_version\":2,\"energy\":10.0,\"sections\":[\"forces\"]\x7d\n" ++
    "10.0 10.0 10.0\n90.0 90.0 90.0\n0 0\n0 0 0\n2\n2 1\n1.0 8.0\nH\nCoordinates of Component 1\n" ++
    "1.0 0.0 0.0 0 0\n0.1 0.0 0.0 0 2\nO\nCoordinates of Component 2\n0.0 0.1 0.0 0 1\n" ++
    "\nH\nForces of Component 1\n0.0 0.0 1.0 0 0\n0.0 10.0 0.0 0 2\nO\nForces of Component 2\n0.1 0.0 0.0 0 1\n")

theorem water_nonempty : ∀ e ∈ [water], e.chars ≠ [] := by
  intro e he
  rw [List.mem_singleton.mp he, Entry.chars, water, String.toList_append]
  refine List.append_ne_nil_of_left_ne_nil ?_ _
  simp only [String.toList_append]
  refine List.append_ne_nil_of_right_ne_nil _ ?_
  decide +kernel

theorem water_separate : ∀ e ∈ [water], ∀ e' ∈ [water], e.EndsLine → e.chars <+: e'.chars → e.chars = e'.chars := by
  intro e he e' he' _ _
  rw [List.mem_singleton.mp he, List.mem_singleton.mp he']

theorem water_distinct : ([water].map Entry.chars).Nodup := List.nodup_singleton _

def waterCatalog : Catalog Bits := ⟨[water], water_nonempty, water_distinct, water_separate⟩

def watery : Crates Bits := waterCatalog.crates tinyBase

def waterAdded : Added Bits :=
  ⟨[(0, ⟨.one, .zero, .zero⟩), (1, ⟨.zero, .tenth, .zero⟩), (2, ⟨.tenth, .zero, .zero⟩)],
    [⟨.zero, .zero, .one⟩, ⟨.tenth, .zero, .zero⟩, ⟨.zero, .ten, .zero⟩], some .ten⟩

def waterApi : BuilderCrate Bits where
  Builder := Added Bits
  new _ _ := ⟨[], [], none⟩
  preboxHeader b _ := b
  setEnergy b e := { b with energy := some e }
  addAtom b _ x _ id _ := { b with atoms := b.atoms ++ [(id, x)] }
  setForcesFromFlat b fs := if fs.length = 3 * b.atoms.length then .ok { b with forces := vec3s fs } else .error "force length"
  build b := if b = waterAdded then .ok waterFrame else .error "frame not in the catalog"
  atomicNumberToSymbol z := if z = 1 then "H" else if z = 8 then "O" else "X"

theorem water_serializes : serialize watery .roundTrip waterFrame = .ok water :=
  Catalog.serialize_entry (k := waterCatalog) (d := tinyBase) (e := water) (by decide +kernel) .roundTrip

def waterLaws : BuilderLaws watery waterApi where
  added := id
  new _ _ := rfl
  preboxHeader _ _ := rfl
  setEnergy _ _ := rfl
  addAtom _ _ _ _ _ _ := rfl
  setForcesFromFlat {b b' fs} h hl := by
    simp only [waterApi, id] at h hl
    rw [if_pos hl] at h
    exact (Except.ok.inj h).symm
  build {b frame x} h hx _ := by
    simp only [waterApi] at h
    split at h
    · next hb =>
      obtain rfl := Except.ok.inj h
      obtain rfl := Except.ok.inj (water_serializes.symm.trans hx)
      refine ⟨waterFrame, ?_, ?_⟩
      · have hread : watery.conFrames water.2 = [.ok water] :=
          Catalog.conFrames_last (k := waterCatalog) List.mem_cons_self
        rw [firstFrame, hread]
        rfl
      · rw [hb]
        exact ⟨by decide, by decide, by decide, by decide, by decide⟩
    · cases h

def waterRow : Row Bits :=
  ⟨[.one, .zero, .zero, .zero, .tenth, .zero, .tenth, .zero, .zero],
    [.zero, .zero, .one, .tenth, .zero, .zero, .zero, .ten, .zero], .ten⟩

theorem waterRow_prepares (c : ConCorpus Bits) (t : UInt64) :
    ∃ ps, prepareAppendFrames watery c t [waterFrame] .roundTrip = .ok ps := by
  have hpacks : Packs watery [water] :=
    { lossless := tinyBase_lossless waterCatalog
      encodes := fun b => ⟨_, rfl⟩
      short := fun x hx => by
        rw [List.mem_singleton.mp hx]
        decide +kernel }
  have hx : [waterFrame].map (serialize watery .roundTrip) = [water].map Except.ok := by
    rw [List.map_singleton, List.map_singleton, water_serializes]
  obtain ⟨ps, hps, _⟩ := prepareAppendFrames_total (c := c) (t := t) hpacks hx
  exact ⟨ps, hps⟩

theorem waterRow_frame : rowFrame waterApi [1, 8, 1] tinyBox waterRow = .ok waterFrame := by decide +kernel

theorem water_returns : ∃ next, commitRow watery waterApi none (ConCorpus.empty Bits) 7 [1, 8, 1] tinyBox waterRow =
    (.ok (), next) ∧ fetch watery next 3 7 = .ok (waterRow.positions, waterRow.forces, waterRow.energy) := by
  obtain ⟨ps, hps⟩ := waterRow_prepares (ConCorpus.empty Bits) 7
  obtain ⟨next, hn⟩ := commitRow_total waterRow_frame hps (by simp [ConCorpus.empty])
  exact ⟨next, hn, archived_rows_return (tinyBase_lossless waterCatalog) waterLaws .empty (by decide) (by decide)
    (by decide) hn⟩

-- The directory is closed and opened again for another composition of three atoms.
theorem water_stays : ∃ es s a index, Run watery waterApi es s ∧ s.archive = some a ∧ a.z = [1, 1, 8] ∧
    fetch watery s.corpus a.natoms index = .ok (waterRow.positions, waterRow.forces, waterRow.energy) := by
  have h₀ : Run watery waterApi [] (.start Bits) := .start
  have h₁ := h₀.step (.opened [1, 8, 1] tinyBox rfl)
  have h₂ := h₁.step (.appendSend waterRow rfl rfl)
  have h₃ := h₂.step (.appendCount rfl rfl)
  obtain ⟨_, hps⟩ := waterRow_prepares (setCompressFrames (ConCorpus.empty Bits) true)
    (openArchive (ConCorpus.empty Bits) [1, 8, 1] tinyBox).committed
  obtain ⟨c, h₄⟩ := h₃.commits rfl rfl waterRow_frame hps (by
    simp only [commitIds_append, Event.outcome, Option.bind_none, Option.toList_none, List.append_nil]
    decide)
  have h₅ := h₄.step (.closing rfl rfl rfl)
  have h₆ := h₅.step (.closed rfl rfl rfl)
  have h₇ := h₆.step (.opened [1, 1, 8] tinyBox rfl)
  have hsplit (pre : List (Event Bits)) (x a b e : Event Bits) :
      pre ++ [x] ++ [a] ++ [b] ++ [e] = pre ++ x :: [a, b, e] := by simp
  have hfetch := committed_rows_stay (tinyBase_lossless waterCatalog) waterLaws h₇ rfl (hsplit _ _ _ _ _) (by decide)
  exact ⟨_, _, _, _, h₇, rfl, rfl, hfetch.trans (if_pos rfl)⟩

end Tiny

end ReadconDb
