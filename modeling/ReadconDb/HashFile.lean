import ReadconDb.Dedup

set_option linter.unusedSectionVars false

namespace ReadconDb

open ByteString Outcome OrderedTable TwoPhase

section HashFile

variable {F : Type} [Float64 F] (d : Crates F)

def hashConText (text : String) : Result ContentHash := do
  let frame ← firstFrame d "no frame" text
  match d.writeFrame d.defaultFormat frame with
  | .error e => .error (.parse ("re-serialize: " ++ e))
  | .ok bytes => return hashFrameBytes d bytes

-- The default writer gives the frame's own text back, byte for byte.
def Reproduces (x : ConFrame F × String) : Prop := d.writeFrame d.defaultFormat x.1 = .ok (utf8 x.2)

def WritesCollision (x : ConFrame F × String) : Prop :=
  ∃ bytes, d.writeFrame d.defaultFormat x.1 = .ok bytes ∧ bytes ≠ utf8 x.2 ∧
    d.xxh3_128 bytes = d.xxh3_128 (utf8 x.2)

-- The digest printed for the file is the one stored for the frame it was ingested as, and it finds a frame
-- that has it: that one, unless some frame was posted under the digest before.
def OfflineAgrees (live next : ConCorpus F) (t : UInt64) (text : String) : Prop :=
  ∃ h, hashConText d text = .ok h ∧ frameHash d next ⟨t, 0⟩ = .ok h ∧
    findByHash next h = if h.val ∈ live.frameByHash then findByHash live h else some ⟨t, 0⟩

end HashFile

section Agreement

variable {F : Type} [Float64 F] {d : Crates F} {snap live next : ConCorpus F} {refused : Option Error} {t : UInt64}
  {text source : String} {x : ConFrame F × String} {n : UInt32}

theorem hashFrameBytes_inj {a b : Bytes} : hashFrameBytes d a = hashFrameBytes d b ↔ d.xxh3_128 a = d.xxh3_128 b := by
  constructor
  · intro h
    have hbytes : leBytes 16 (d.xxh3_128 a).toNat = leBytes 16 (d.xxh3_128 b).toNat := congrArg Subtype.val h
    exact BitVec.eq_of_toNat_eq (leBytes_inj (d.xxh3_128 a).isLt (d.xxh3_128 b).isLt hbytes)
  · intro h
    rw [hashFrameBytes, hashFrameBytes]
    simp only [h]

theorem prepareSingle_ok (hx : d.conFrames text = [.ok x]) {ps : List PreparedIndexPuts}
    (h : prepareAppendStr d snap t text = .ok ps) : ∃ p, ps = [p] ∧ PutFor d (⟨t, 0⟩, x) p := by
  obtain ⟨prepared, hp, hg⟩ := bind_eq_ok.mp h
  have hspans : spans d text = [.ok x] := by
    rw [spans, hx]
    rfl
  rw [prepareTrajectoryStr, hspans] at hp
  obtain ⟨xs, hxs, hb⟩ := prepareItems_ok hp
  obtain rfl : xs = [x] := by
    cases xs with
    | nil => cases hxs
    | cons y ys =>
      rw [List.map_cons, List.cons.injEq, Except.ok.injEq, eq_comm, List.nil_eq, List.map_eq_nil_iff] at hxs
      rw [hxs.1, hxs.2]
  cases hb with
  | @cons _ p _ _ hput hrest =>
    cases hrest
    have hput := (buildIndexPuts_ok hput).2
    refine ⟨p, ?_, hput⟩
    have hshort : groupPrepared d [p] = .ok [p] := if_pos (by simp)
    rw [groupIf, hshort, ite_self] at hg
    exact (Except.ok.inj hg).symm

theorem appendSingle_ok (hx : d.conFrames text = [.ok x])
    (hc : appendTrajectoryStr d refused snap live t text source = (.ok n, next)) :
    ∃ p m, PutFor d (⟨t, 0⟩, x) p ∧ next = restamp (putIndexPuts live p) t m := by
  rcases call_cases (prepareAppendStr d snap t text) refused (commitPrepared d t source false) live with
    ⟨e, he⟩ | ⟨ps, k, after, _, hp, hcommit, he⟩
  · cases he.symm.trans hc
  · obtain ⟨_, rfl⟩ := Prod.mk.inj (he.symm.trans hc)
    obtain ⟨p, rfl, hput⟩ := prepareSingle_ok hx hp
    obtain ⟨_, _, m, _, hnext⟩ := commitPrepared_ok hcommit
    exact ⟨p, m, hput, hnext⟩

theorem frameHash_single (hx : d.conFrames text = [.ok x])
    (hc : appendTrajectoryStr d refused snap live t text source = (.ok n, next)) :
    frameHash d next ⟨t, 0⟩ = .ok (hashFrameBytes d (utf8 x.2)) := by
  obtain ⟨p, m, hput, rfl⟩ := appendSingle_ok hx hc
  have hrow : (restamp (putIndexPuts live p) t m).hashByFrame[(FrameKey.mk t 0).toBytes.val]? =
      some (hashFrameBytes d (utf8 x.2)).val := by
    rw [restamp, putIndexPuts, hput.fk, hput.hash]
    exact (get_insert _ _ _ _).trans (if_pos rfl)
  rw [frameHash, hrow]
  simp only [ContentHash.fromBytes, (hashFrameBytes d (utf8 x.2)).property, dite_true]

theorem findByHash_single (hx : d.conFrames text = [.ok x])
    (hc : appendTrajectoryStr d refused snap live t text source = (.ok n, next)) :
    findByHash next (hashFrameBytes d (utf8 x.2)) =
      if (hashFrameBytes d (utf8 x.2)).val ∈ live.frameByHash then findByHash live (hashFrameBytes d (utf8 x.2))
      else some ⟨t, 0⟩ := by
  obtain ⟨p, m, hput, rfl⟩ := appendSingle_ok hx hc
  have hpost : (restamp (putIndexPuts live p) t m).frameByHash =
      postHash live.frameByHash (hashFrameBytes d (utf8 x.2)).val (FrameKey.mk t 0).toBytes.val := by
    rw [restamp, putIndexPuts, hput.fk, hput.hash]
  rw [findByHash, hpost, postHash, findByHash]
  cases hlive : live.frameByHash[(hashFrameBytes d (utf8 x.2)).val]? with
  | none =>
    rw [if_neg fun hm => ?_, get_insert, if_pos rfl]
    · exact FrameKey.fromBytes_toBytes _
    · obtain ⟨b, hb⟩ := (mem_iff_get _ _).mp hm
      rw [hlive] at hb
      cases hb
  | some b =>
    rw [if_pos ((mem_iff_get _ _).mpr ⟨b, hlive⟩), hlive]

theorem hashConText_single (hx : d.conFrames text = [.ok x]) {h : ContentHash} :
    hashConText d text = .ok h ↔ ∃ bytes, d.writeFrame d.defaultFormat x.1 = .ok bytes ∧ hashFrameBytes d bytes = h := by
  have hfirst : firstFrame d "no frame" text = .ok x.1 := by
    rw [firstFrame, hx]
    rfl
  rw [hashConText, hfirst]
  cases hw : d.writeFrame d.defaultFormat x.1 with
  | error e => simp [bind, Except.bind, hw]
  | ok bytes => simp [bind, Except.bind, hw]

theorem offlineAgrees_iff (hx : d.conFrames text = [.ok x])
    (hc : appendTrajectoryStr d refused snap live t text source = (.ok n, next)) :
    OfflineAgrees d live next t text ↔ Reproduces d x ∨ WritesCollision d x := by
  constructor
  · rintro ⟨h, hfile, hstored, _⟩
    obtain ⟨bytes, hw, rfl⟩ := (hashConText_single hx).mp hfile
    rw [frameHash_single hx hc, Except.ok.injEq] at hstored
    by_cases hb : bytes = utf8 x.2
    · exact .inl (hw.trans (congrArg Except.ok hb))
    · exact .inr ⟨bytes, hw, hb, (hashFrameBytes_inj.mp hstored).symm⟩
  · intro h
    obtain ⟨bytes, hw, hhash⟩ : ∃ bytes, d.writeFrame d.defaultFormat x.1 = .ok bytes ∧
        hashFrameBytes d bytes = hashFrameBytes d (utf8 x.2) := by
      rcases h with hw | ⟨bytes, hw, _, hcollide⟩
      · exact ⟨_, hw, rfl⟩
      · exact ⟨bytes, hw, hashFrameBytes_inj.mpr hcollide⟩
    exact ⟨_, (hashConText_single hx).mpr ⟨bytes, hw, hhash⟩, frameHash_single hx hc, findByHash_single hx hc⟩

theorem offline_hash_agrees_iff (hx : d.conFrames text = [.ok x])
    (hc : appendTrajectoryStr d refused snap live t text source = (.ok n, next)) :
    (OfflineAgrees d live next t text ↔ Reproduces d x ∨ WritesCollision d x) ∧
      (¬ WritesCollision d x → (OfflineAgrees d live next t text ↔ Reproduces d x)) := by
  have h := offlineAgrees_iff hx hc
  exact ⟨h, fun hno => h.trans (or_iff_left hno)⟩

def plainShelf : ConCorpus Bits := setCompressFrames (ConCorpus.empty Bits) false

theorem plainShelf_append {y : Entry Bits} (hy : tiny.conFrames y.2 = [.ok y]) (source : String) :
    ∃ n next, appendTrajectoryStr tiny none plainShelf plainShelf 0 y.2 source = (.ok n, next) := by
  have hspans : spans tiny y.2 = [y].map Except.ok := by
    rw [spans, hy]
    rfl
  have hplan : prepareAppendStr tiny plainShelf 0 y.2 = .ok ((framed 0 0 [y]).map (rawPut tiny)) := by
    rw [prepareAppendStr, prepareTrajectoryStr, hspans]
    show (prepareItems tiny 0 false 0 ([y].map Except.ok) >>= groupIf tiny false) = _
    rw [prepareItems_raw]
    rfl
  have hnew : plainShelf.trajMeta[(0 : UInt64)]? = none := by simp [plainShelf, setCompressFrames, ConCorpus.empty]
  simp only [appendTrajectoryStr, hplan, call, write, commitPrepared, hnew]
  exact ⟨_, _, rfl⟩

theorem hydrogen_written {y : Entry Bits} (hy : y.1 = hydrogen.1) :
    tiny.writeFrame tiny.defaultFormat y.1 = .ok (utf8 hydrogen.2) := by
  have hfind : (tinyCatalog.entries.find? fun e => e.1 = hydrogen.1) = some hydrogen := by decide +kernel
  rw [hy]
  simp only [tiny, Catalog.crates, hfind]

theorem hydrogen_offline_agrees : ∃ n next,
    appendTrajectoryStr tiny none plainShelf plainShelf 0 hydrogen.2 "hydrogen.con" = (.ok n, next) ∧
    OfflineAgrees tiny plainShelf next 0 hydrogen.2 := by
  have hx : tiny.conFrames hydrogen.2 = [.ok hydrogen] := Catalog.conFrames_last hydrogen_mem
  obtain ⟨n, next, hc⟩ := plainShelf_append hx "hydrogen.con"
  have hwritten : tiny.writeFrame tiny.defaultFormat hydrogen.1 = .ok (utf8 hydrogen.2) := hydrogen_written rfl
  have hno : ¬ WritesCollision tiny hydrogen := by
    rintro ⟨bytes, hw, hne, _⟩
    exact hne (Except.ok.inj (hw.symm.trans hwritten))
  exact ⟨n, next, hc, ((offline_hash_agrees_iff hx hc).2 hno).mpr hwritten⟩

-- A file that does not close its last line: the writer closes it, and the digests part.
theorem bare_offline_differs : ∃ n next, tiny.conFrames hydrogenBare.2 = [.ok hydrogenBare] ∧
    appendTrajectoryStr tiny none plainShelf plainShelf 0 hydrogenBare.2 "bare.con" = (.ok n, next) ∧
    ¬ OfflineAgrees tiny plainShelf next 0 hydrogenBare.2 := by
  have hx : tiny.conFrames hydrogenBare.2 = [.ok hydrogenBare] := Catalog.conFrames_last hydrogenBare_mem
  obtain ⟨n, next, hc⟩ := plainShelf_append hx "bare.con"
  refine ⟨n, next, hx, hc, ?_⟩
  rintro ⟨h, hfile, hstored, _⟩
  obtain ⟨bytes, hw, rfl⟩ := (hashConText_single hx).mp hfile
  obtain rfl := Except.ok.inj ((hydrogen_written rfl).symm.trans hw)
  rw [frameHash_single hx hc, Except.ok.injEq, hashFrameBytes_inj] at hstored
  have hdigests : tiny.xxh3_128 (utf8 hydrogenBare.2) ≠ tiny.xxh3_128 (utf8 hydrogen.2) := by decide +kernel
  exact hdigests hstored

end Agreement

end ReadconDb
