import ReadconDb.MpiStaging

set_option linter.unusedSectionVars false

namespace ReadconDb

open ByteString Outcome Blocks Slicing Draining

section Serial

variable {F : Type} [Float64 F] (d : Crates F) (files : Files) (size : Nat) (route : Route)

def conFile (path : String) : ConFile := ⟨path, (readToString files path).mapError Error.io⟩

def serialIngest : List (UInt64 × String) → (UInt32 → ConCorpus F) → Result (List UInt32) × (UInt32 → ConCorpus F)
  | [], tables => (.ok [], tables)
  | f :: rest, tables =>
    let env := (route.to size f.1).2
    let done := appendTrajectoryPath d none (tables env) (tables env) f.1 (conFile files f.2)
    let tables := Function.update tables env done.2
    match done.1 with
    | .error e => (.error e, tables)
    | .ok n =>
      let more := serialIngest rest tables
      ((n :: ·) <$> more.1, more.2)

end Serial

section Writes

variable {F : Type} [Float64 F] (d : Crates F) (files : Files) (x : Exchange)

def serialPuts (t : FileTab) : List PreparedIndexPuts :=
  match prepareTrajectoryStr d t.trajId (fileText files t.path) true with
  | .ok ps => ps
  | .error _ => []

def fileRows (t : FileTab) : List PreparedIndexPuts :=
  assignStored (serialPuts d files t) (packedFor d (x.trajectory d files t))

def fileMeta (t : FileTab) : TrajMeta F := TrajMeta.stored d { nFrames := UInt32.ofNat t.n, source := t.path }

def writeMeta (c : ConCorpus F) (t : FileTab) : ConCorpus F :=
  { c with trajMeta := c.trajMeta.insert t.trajId (fileMeta d t) }

def writeFile (c : ConCorpus F) (t : FileTab) : ConCorpus F := writeMeta d ((fileRows d files x t).foldl putIndexPuts c) t

variable {d files x}

theorem puts_meta (ps : List PreparedIndexPuts) (c : ConCorpus F) (t : FileTab) :
    ps.foldl putIndexPuts (writeMeta d c t) = writeMeta d (ps.foldl putIndexPuts c) t := by
  induction ps generalizing c with
  | nil => rfl
  | cons p ps ih => exact ih (putIndexPuts c p)

theorem writeFiles_eq (tabs : List FileTab) (c : ConCorpus F) :
    tabs.foldl (writeFile d files x) c =
      tabs.foldl (writeMeta d) ((tabs.flatMap (fileRows d files x)).foldl putIndexPuts c) := by
  induction tabs generalizing c with
  | nil => rfl
  | cons t tabs ih =>
    rw [List.foldl_cons, ih, List.flatMap_cons, List.foldl_append, List.foldl_cons, writeFile, puts_meta]

end Writes

section Groups

variable {F : Type} [Float64 F] {d : Crates F}

theorem packAligned_one {f : UInt32 × String} {rows : List Bytes} (h : packAligned d [f] = .ok rows) :
    ∃ stored, storeFrame d f.2 true = .ok stored ∧ rows = [stored] := by
  obtain ⟨packed, hp, h⟩ := bind_eq_ok.mp h
  obtain rfl := pure_eq_ok.mp h
  have hsplit : [f].splitBy sameGroup = [[f]] := rfl
  rw [hsplit, List.mapM_cons, List.mapM_nil] at hp
  obtain ⟨run, hrun, hp⟩ := bind_eq_ok.mp hp
  cases hp
  rw [packRun, List.mapM_cons, List.mapM_nil] at hrun
  obtain ⟨singles, hs, hrun⟩ := bind_eq_ok.mp hrun
  obtain ⟨stored, hstore, hs⟩ := bind_eq_ok.mp hs
  cases hs
  cases hrun
  exact ⟨stored, hstore, rfl⟩

theorem sends_texts (hz : ZstdLossless d) {ps : List PreparedIndexPuts} {id : UInt64} {start : UInt32} {fs : List Sent}
    (h : List.Forall₂ (Sends d) ps (framed id start fs)) :
    ps.mapM (fun p => do return (p.fk.frameIdx, ← loadFrame d p.stored)) = .ok (sentTexts id start fs) := by
  rw [mapM_eq_ok, sentTexts, List.forall₂_map_right_iff]
  refine h.imp fun p kf hs => ?_
  rw [hs.stored, load_store hz hs.packs, hs.key]
  rfl

-- Grouping at commit is grouping each aligned run as it comes in.
theorem groupPrepared_packed (hz : ZstdLossless d) {ps : List PreparedIndexPuts} {t : Trajectory} {rows : List Bytes}
    (h : List.Forall₂ (Sends d) ps (framed t.id 0 t.frames)) (hp : packAligned d t.texts = .ok rows) :
    groupPrepared d ps = .ok (assignStored ps rows) := by
  rw [groupPrepared]
  split
  · next hfew =>
    cases ps with
    | nil => rfl
    | cons p ps =>
      obtain rfl : ps = [] := by
        rw [List.length_cons] at hfew
        exact List.eq_nil_of_length_eq_zero (by omega)
      have hone := h.length_eq
      rw [framed_length] at hone
      obtain ⟨f, hf⟩ := List.length_eq_one_iff.mp hone.symm
      rw [hf] at h
      obtain ⟨hsends, _⟩ := List.forall₂_cons.mp h
      rw [Trajectory.texts, hf] at hp
      obtain ⟨stored, hstore, rfl⟩ := packAligned_one hp
      have hsame : stored = p.stored := by
        rw [hsends.stored]
        exact Except.ok.inj (hstore.symm.trans hsends.packs)
      rw [hsame]
      rfl
  · rw [sends_texts hz h]
    show (packAligned d t.texts >>= _) = _
    rw [hp]
    rfl

theorem rows_read {ps : List PreparedIndexPuts} {id : UInt64} {start : UInt32} {fs : List Sent}
    (h : List.Forall₂ (Sends d) ps (framed id start fs)) (packed : List Bytes) :
    ((withStored (heldRows id start fs) packed).map heldRecord).mapM readRow = .ok (assignStored ps packed) := by
  have hrow {p : PreparedIndexPuts} {kf : FrameKey × Sent} (hs : Sends d p kf) (stored : Bytes) :
      readRow (kf.1, kf.2.enc, stored) = .ok { p with stored := stored } := by
    rw [← hs.key]
    exact readRow_encoded hs.keys stored
  have hall {kfs : List (FrameKey × Sent)} {ps : List PreparedIndexPuts} (h : List.Forall₂ (Sends d) ps kfs)
      (packed : List Bytes) : List.Forall₂ (fun r p => readRow (heldRecord r) = .ok p)
        (withStored (kfs.map heldRow) packed) (assignStored ps packed) := by
    induction h generalizing packed with
    | nil =>
      cases packed
      · exact .nil
      · exact .nil
    | @cons p kf ps kfs hs _ ih =>
      cases packed with
      | nil =>
        have hplain := ih []
        have hself : withStored (kfs.map heldRow) [] = kfs.map heldRow := by cases kfs <;> rfl
        have hself' : assignStored ps [] = ps := by cases ps <;> rfl
        rw [hself, hself'] at hplain
        have hone := hrow hs p.stored
        rw [hs.stored] at hone
        refine .cons ?_ hplain
        rw [← hs.stored] at hone
        rwa [heldRow, heldRecord, ← hs.stored]
      | cons stored packed => exact .cons (hrow hs stored) (ih packed)
  rw [mapM_eq_ok, List.forall₂_map_left_iff, heldRows]
  exact hall h packed

end Groups

section Serially

variable {F : Type} [Float64 F] {d : Crates F} {files : Files} {size : Nat} {route : Route}
  {input : List (UInt64 × String)} {x : Exchange}

theorem framesAfter_sends {ps : List PreparedIndexPuts} {id : UInt64} {fs : List Sent}
    (h : ps.map PreparedIndexPuts.fk = (framed id 0 fs).map Prod.fst) : framesAfter ps 0 = UInt32.ofNat fs.length := by
  have hlen := congrArg List.length h
  rw [List.length_map, List.length_map, framed_length] at hlen
  rw [framesAfter, List.getLast?_eq_getElem?]
  by_cases hn : fs.length = 0
  · rw [List.getElem?_eq_none (by omega), hn]
    rfl
  · have hlt : fs.length - 1 < fs.length := by omega
    have hlast := congrArg (fun ks => ks[fs.length - 1]?) h
    simp only [List.getElem?_map, framed_getElem?, List.getElem?_eq_getElem hlt, UInt32.zero_add, Option.map_some] at hlast
    obtain ⟨p, hp, hfk⟩ := Option.map_eq_some_iff.mp hlast
    rw [hlen, hp]
    simp only [hfk]
    rw [show (1 : UInt32) = UInt32.ofNat 1 from rfl, ← UInt32.ofNat_add, Nat.sub_add_cancel (by omega)]

structure Writable (d : Crates F) (files : Files) (x : Exchange) (t : FileTab) : Prop where
  read : readToString files t.path = .ok (fileText files t.path)
  prepared : prepareTrajectoryStr d t.trajId (fileText files t.path) true = .ok (serialPuts d files t)
  sends : List.Forall₂ (Sends d) (serialPuts d files t) (framed t.trajId 0 (x.sents d files t))

theorem PreparedOf.writable (h : PreparedOf d files size route input x) (hx : x.Sound)
    (hread : ∀ f ∈ input, ∃ text, Ingestible d files f.2 text) {t : FileTab} (ht : t ∈ x.tabs) : Writable d files x t := by
  obtain ⟨text, htext⟩ := h.scans hread ht
  obtain ⟨ps, hps, hsends⟩ := h.serial hx hread ht
  have hputs : serialPuts d files t = ps := by rw [serialPuts, hps]
  exact ⟨htext.text_eq.symm ▸ htext.ingestible.read, hputs ▸ hps, hputs ▸ hsends⟩

theorem appendPath_ok (hz : ZstdLossless d) {t : FileTab} (hw : Writable d files x t)
    (hp : packAligned d (x.trajectory d files t).texts = .ok (packedFor d (x.trajectory d files t))) {c : ConCorpus F}
    (hc : c.compressFrames = true) (hnew : c.trajMeta[t.trajId]? = none) :
    appendTrajectoryPath d none c c t.trajId (conFile files t.path) = (.ok (UInt32.ofNat t.n), writeFile d files x c t) := by
  have hgroup : groupPrepared d (serialPuts d files t) = .ok (fileRows d files x t) :=
    groupPrepared_packed (t := x.trajectory d files t) hz hw.sends hp
  have hplan : prepareAppendStr d c t.trajId (fileText files t.path) = .ok (fileRows d files x t) := by
    rw [prepareAppendStr, hc, hw.prepared]
    exact hgroup
  have hfks : (fileRows d files x t).map PreparedIndexPuts.fk = (framed t.trajId 0 (x.sents d files t)).map Prod.fst := by
    have hsame := hw.sends.imp fun p kf (hs : Sends d p kf) => hs.key
    rw [fileRows, assignStored_fks, ← List.forall₂_eq_eq_eq, List.forall₂_map_left_iff, List.forall₂_map_right_iff]
    exact hsame
  have hcount : framesAfter (fileRows d files x t) 0 = UInt32.ofNat t.n := by
    rw [framesAfter_sends hfks, x.sents_length]
  have hcontents : (conFile files t.path).contents = .ok (fileText files t.path) := by rw [conFile, hw.read]; rfl
  rw [appendTrajectoryPath, appendTrajectoryPathUnits, hcontents]
  simp only
  rw [appendTrajectoryStr, hplan]
  simp only [TwoPhase.call, TwoPhase.write, commitPrepared, hnew, hcount]
  rw [writeFile, writeMeta, puts_trajMeta]
  rfl

theorem writeFile_keeps (c : ConCorpus F) (t : FileTab) : (writeFile d files x c t).compressFrames = c.compressFrames ∧
    ∀ id, id ≠ t.trajId → (writeFile d files x c t).trajMeta[id]? = c.trajMeta[id]? := by
  refine ⟨puts_compress _ _, fun id hid => ?_⟩
  have hmeta : (writeFile d files x c t).trajMeta = c.trajMeta.insert t.trajId (fileMeta d t) := by
    rw [writeFile, writeMeta, puts_trajMeta]
  rw [hmeta, Std.ExtTreeMap.getElem?_insert]
  simp [Ne.symm hid]

theorem serialIngest_ok (hz : ZstdLossless d) {tabs : List FileTab} (hdistinct : (tabs.map FileTab.trajId).Nodup)
    (hw : ∀ t ∈ tabs, Writable d files x t)
    (hp : ∀ t ∈ tabs, packAligned d (x.trajectory d files t).texts = .ok (packedFor d (x.trajectory d files t)))
    {tables : UInt32 → ConCorpus F} (hc : ∀ e, (tables e).compressFrames = true)
    (hnew : ∀ t ∈ tabs, (tables (route.to size t.trajId).2).trajMeta[t.trajId]? = none) :
    serialIngest d files size route (tabs.map fun t => (t.trajId, t.path)) tables =
      (.ok (tabs.map fun t => UInt32.ofNat t.n),
        fun e => (tabs.filter fun t => (route.to size t.trajId).2 = e).foldl (writeFile d files x) (tables e)) := by
  induction tabs generalizing tables with
  | nil => rfl
  | cons t tabs ih =>
    rw [List.map_cons, List.nodup_cons] at hdistinct
    obtain ⟨hfirst, hrest⟩ := hdistinct
    have hmine := appendPath_ok hz (hw t List.mem_cons_self) (hp t List.mem_cons_self)
      (hc (route.to size t.trajId).2) (hnew t List.mem_cons_self)
    have hother : ∀ t' ∈ tabs, t'.trajId ≠ t.trajId := by
      intro t' ht' heq
      exact hfirst (heq ▸ List.mem_map_of_mem ht')
    rw [List.map_cons, serialIngest]
    simp only [hmine]
    rw [ih hrest (fun t' ht' => hw t' (List.mem_cons_of_mem _ ht')) (fun t' ht' => hp t' (List.mem_cons_of_mem _ ht'))]
    · refine Prod.ext rfl (funext fun e => ?_)
      by_cases he : (route.to size t.trajId).2 = e
      · subst he
        simp
      · simp [he, Function.update_of_ne (Ne.symm he)]
    · intro e
      by_cases he : e = (route.to size t.trajId).2
      · subst he
        rw [Function.update_self, (writeFile_keeps _ _).1]
        exact hc _
      · rw [Function.update_of_ne he]
        exact hc e
    · intro t' ht'
      have hold := hnew t' (List.mem_cons_of_mem _ ht')
      by_cases he : (route.to size t'.trajId).2 = (route.to size t.trajId).2
      · rw [he, Function.update_self, (writeFile_keeps _ _).2 _ (hother t' ht'), ← he]
        exact hold
      · rw [Function.update_of_ne he]
        exact hold

end Serially

end ReadconDb
