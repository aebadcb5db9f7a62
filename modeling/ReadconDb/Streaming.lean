import ReadconDb.Wraparound
import ReadconDb.Library.Draining

set_option linter.unusedSectionVars false

namespace ReadconDb

open ByteString Outcome Slicing Draining

structure Held where
  fk : FrameKey
  enc : Bytes
  stored : Bytes

section Drain

variable {F : Type} (d : Crates F)

def withStored : List Held → List Bytes → List Held
  | r :: rows, stored :: packed => { r with stored := stored } :: withStored rows packed
  | rows, _ => rows

def heldText (r : Held) : Result (UInt32 × String) := do return (r.fk.frameIdx, ← loadFrame d r.stored)

def packHeld (rows : List Held) : Result (List Held) := do
  let texts ← rows.mapM (heldText d)
  let packed ← packAligned d texts
  return withStored rows packed

-- The group that starts at `start`, as the source computes it in `u32`.
def groupEnd (start n : UInt32) : UInt32 := min (start + UInt32.ofNat groupLen) n

def groupNeed (start n : UInt32) : Nat := (groupEnd start n - start).toNat

def drainReady (nOf : UInt64 → Option UInt32) (buf ready : List Held) : Checked Error (List Held × List Held) :=
  match buf with
  | [] => lift (.ok (ready, []))
  | first :: rest =>
    match nOf first.fk.trajId with
    | none => lift (.error (.message ("missing traj " ++ toString first.fk.trajId)))
    | some n =>
      let start := first.fk.frameIdx / UInt32.ofNat groupLen * UInt32.ofNat groupLen
      if first.fk.frameIdx ≠ start then lift (.error (.message "frame group does not start on an aligned index"))
      else if (first :: rest).length < groupNeed start n then lift (.ok (ready, first :: rest))
      else if _h : groupNeed start n = 0 then panicked
      else do
        let last ← index (first :: rest) (groupNeed start n - 1)
        if last.fk.trajId ≠ first.fk.trajId ∨ last.fk.frameIdx + 1 ≠ groupEnd start n then
          lift (.ok (ready, first :: rest))
        else do
          let group ← lift (packHeld d ((first :: rest).take (groupNeed start n)))
          drainReady nOf ((first :: rest).drop (groupNeed start n)) (ready ++ group)
  termination_by buf.length
  decreasing_by
    have hneed : groupNeed (first.fk.frameIdx / UInt32.ofNat groupLen * UInt32.ofNat groupLen) n ≠ 0 := _h
    simp only [List.length_drop, List.length_cons]
    omega

end Drain

section Groups

variable {F : Type} {d : Crates F} {nOf : UInt64 → Option UInt32}

theorem drainReady_nil (ready : List Held) : drainReady d nOf [] ready = lift (.ok (ready, [])) := by
  rw [drainReady]

theorem drainReady_aligned {first : Held} {rest : List Held} {n : UInt32} (hn : nOf first.fk.trajId = some n)
    (ha : first.fk.frameIdx.toNat % groupLen = 0) (ready : List Held) :
    drainReady d nOf (first :: rest) ready =
      if (first :: rest).length < groupNeed first.fk.frameIdx n then lift (.ok (ready, first :: rest))
      else if groupNeed first.fk.frameIdx n = 0 then panicked
      else (do
        let last ← index (first :: rest) (groupNeed first.fk.frameIdx n - 1)
        if last.fk.trajId ≠ first.fk.trajId ∨ last.fk.frameIdx + 1 ≠ groupEnd first.fk.frameIdx n then
          lift (.ok (ready, first :: rest))
        else do
          let group ← lift (packHeld d ((first :: rest).take (groupNeed first.fk.frameIdx n)))
          drainReady d nOf ((first :: rest).drop (groupNeed first.fk.frameIdx n)) (ready ++ group)) := by
  have hstart : first.fk.frameIdx / UInt32.ofNat groupLen * UInt32.ofNat groupLen = first.fk.frameIdx := by
    rw [← UInt32.toNat_inj, UInt32.toNat_mul, UInt32.toNat_div]
    have hlt := first.fk.frameIdx.toNat_lt
    have hlen : (UInt32.ofNat groupLen).toNat = groupLen := rfl
    have hdiv := Nat.div_add_mod first.fk.frameIdx.toNat groupLen
    rw [hlen, Nat.mul_comm, ← Nat.add_zero (groupLen * _), ← ha, hdiv, Nat.mod_eq_of_lt hlt]
  rw [drainReady, hn]
  simp only [hstart, ne_eq, not_true_eq_false, if_false]
  split
  · rfl
  · split
    · rfl
    · rfl

structure Sent where
  enc : Bytes
  stored : Bytes
  text : String

def heldRow (kf : FrameKey × Sent) : Held := ⟨kf.1, kf.2.enc, kf.2.stored⟩

def heldRows (id : UInt64) (start : UInt32) (fs : List Sent) : List Held := (framed id start fs).map heldRow

def sentTexts (id : UInt64) (start : UInt32) (fs : List Sent) : List (UInt32 × String) :=
  (framed id start fs).map fun kf => (kf.1.frameIdx, kf.2.text)

theorem length_heldRows (id : UInt64) (start : UInt32) (fs : List Sent) : (heldRows id start fs).length = fs.length := by
  rw [heldRows, List.length_map, framed_length]

theorem heldRows_append (id : UInt64) (start : UInt32) (fs gs : List Sent) :
    heldRows id start (fs ++ gs) = heldRows id start fs ++ heldRows id (start + UInt32.ofNat fs.length) gs := by
  rw [heldRows, framed_append, List.map_append]
  rfl

theorem sentTexts_append (id : UInt64) (start : UInt32) (fs gs : List Sent) :
    sentTexts id start (fs ++ gs) = sentTexts id start fs ++ sentTexts id (start + UInt32.ofNat fs.length) gs := by
  rw [sentTexts, framed_append, List.map_append]
  rfl

theorem framed_getElem? {A : Type} (t : UInt64) (idx : UInt32) (as : List A) (i : Nat) :
    (framed t idx as)[i]? = as[i]?.map fun a => (⟨t, idx + UInt32.ofNat i⟩, a) := by
  induction as generalizing idx i with
  | nil => rfl
  | cons a as ih =>
    cases i with
    | zero => simp [framed]
    | succ i =>
      have hs : idx + 1 + UInt32.ofNat i = idx + UInt32.ofNat (i + 1) := by
        rw [UInt32.ofNat_add, UInt32.add_assoc, UInt32.add_comm 1]
        rfl
      rw [framed, List.getElem?_cons_succ, ih, hs, List.getElem?_cons_succ]

theorem heldRows_getElem? (id : UInt64) (start : UInt32) {fs : List Sent} {i : Nat} (hi : i < fs.length) :
    ∃ f, (heldRows id start fs)[i]? = some (heldRow (⟨id, start + UInt32.ofNat i⟩, f)) := by
  refine ⟨fs.get ⟨i, hi⟩, ?_⟩
  rw [heldRows, List.getElem?_map, framed_getElem?, List.getElem?_eq_getElem hi]
  rfl

theorem heldRows_cons (id : UInt64) (start : UInt32) {fs : List Sent} (hne : fs ≠ []) :
    ∃ first rest, heldRows id start fs = first :: rest ∧ first.fk = ⟨id, start⟩ := by
  cases fs with
  | nil => exact absurd rfl hne
  | cons f fs => exact ⟨_, _, rfl, rfl⟩

theorem groupEnd_toNat {start n : UInt32} (hroom : start.toNat + groupLen < 2 ^ 32) :
    (groupEnd start n).toNat = min (start.toNat + groupLen) n.toNat := by
  have hsum : (start + UInt32.ofNat groupLen).toNat = start.toNat + groupLen := by
    rw [UInt32.toNat_add]
    exact Nat.mod_eq_of_lt hroom
  rw [← hsum]
  show (if start + UInt32.ofNat groupLen ≤ n then start + UInt32.ofNat groupLen else n).toNat = _
  split
  · next h => rw [min_eq_left (UInt32.le_iff_toNat_le.mp h)]
  · next h =>
    rw [UInt32.le_iff_toNat_le] at h
    rw [min_eq_right (by omega)]

theorem groupNeed_eq {start n : UInt32} (hroom : start.toNat + groupLen < 2 ^ 32) (hlt : start < n) :
    groupNeed start n = min (start.toNat + groupLen) n.toNat - start.toNat := by
  have hend := groupEnd_toNat (n := n) hroom
  have hle : start ≤ groupEnd start n := by
    rw [UInt32.le_iff_toNat_le, hend]
    rw [UInt32.lt_iff_toNat_lt] at hlt
    omega
  rw [groupNeed, UInt32.toNat_sub_of_le _ _ hle, hend]

structure WholeGroup (d : Crates F) (nOf : UInt64 → Option UInt32) (id : UInt64) (start n : UInt32) (fs : List Sent)
    (out : List Held) : Prop where
  counted : nOf id = some n
  aligned : start.toNat % groupLen = 0
  room : start.toNat + groupLen < 2 ^ 32
  nonempty : fs ≠ []
  whole : fs.length = min (start.toNat + groupLen) n.toNat - start.toNat
  packs : packHeld d (heldRows id start fs) = .ok out

theorem WholeGroup.lt {id : UInt64} {start n : UInt32} {fs : List Sent} {out : List Held}
    (h : WholeGroup d nOf id start n fs out) : start < n := by
  have hpos := List.length_pos_iff.mpr h.nonempty
  have hwhole := h.whole
  rw [UInt32.lt_iff_toNat_lt]
  omega

theorem WholeGroup.last {id : UInt64} {start n : UInt32} {fs : List Sent} {out : List Held}
    (h : WholeGroup d nOf id start n fs out) : start + UInt32.ofNat (fs.length - 1) + 1 = groupEnd start n := by
  have hpos := List.length_pos_iff.mpr h.nonempty
  have hwhole := h.whole
  have hroom := h.room
  have hn := n.toNat_lt
  have hsmall : (UInt32.ofNat (fs.length - 1)).toNat = fs.length - 1 := by
    rw [UInt32.toNat_ofNat', Nat.mod_eq_of_lt (by omega)]
  have hone : (1 : UInt32).toNat = 1 := rfl
  rw [← UInt32.toNat_inj, groupEnd_toNat hroom, UInt32.toNat_add, UInt32.toNat_add, hsmall, hone]
  omega

theorem WholeGroup.emits {id : UInt64} {start n : UInt32} {fs : List Sent} {out : List Held}
    (h : WholeGroup d nOf id start n fs out) : Emits (drainReady d nOf) (heldRows id start fs) out where
  nonempty := by
    obtain ⟨first, rest, hrows, _⟩ := heldRows_cons id start h.nonempty
    rw [hrows]
    exact List.cons_ne_nil _ _
  emits rest ready := by
    have hneed := (groupNeed_eq h.room h.lt).trans h.whole.symm
    have hpos := List.length_pos_iff.mpr h.nonempty
    have hlen := length_heldRows id start fs
    obtain ⟨f, hlast⟩ := heldRows_getElem? id start (Nat.sub_lt hpos one_pos)
    have hlast' : (heldRows id start fs ++ rest)[fs.length - 1]? =
        some (heldRow (⟨id, start + UInt32.ofNat (fs.length - 1)⟩, f)) := by
      rw [List.getElem?_append_left (by omega), hlast]
    have htake : (heldRows id start fs ++ rest).take fs.length = heldRows id start fs := by rw [← hlen, List.take_left]
    have hdrop : (heldRows id start fs ++ rest).drop fs.length = rest := by rw [← hlen, List.drop_left]
    have hlong : ¬ (heldRows id start fs ++ rest).length < fs.length := by
      rw [List.length_append, hlen]
      omega
    obtain ⟨first, tail, hrows, hfk⟩ := heldRows_cons id start h.nonempty
    rw [hrows, List.cons_append] at hlast' htake hdrop hlong ⊢
    rw [drainReady_aligned (n := n) (by rw [hfk]; exact h.counted) (by rw [hfk]; exact h.aligned), hfk]
    simp only [hneed, htake, hdrop]
    rw [if_neg hlong, if_neg (by omega), index_ok hlast', lift_ok_bind, if_neg (by simp [heldRow, h.last]), ← hrows,
      h.packs, lift_ok_bind]
  waits part ready hp hne hpart := by
    have hneed := (groupNeed_eq h.room h.lt).trans h.whole.symm
    have hlt := Reading.strict_length hp hne
    rw [length_heldRows] at hlt
    obtain ⟨first, tail, hrows, hfk⟩ := heldRows_cons id start h.nonempty
    cases part with
    | nil => exact absurd rfl hpart
    | cons r part =>
      rw [hrows] at hp
      obtain ⟨rfl, _⟩ := List.cons_prefix_cons.mp hp
      rw [drainReady_aligned (n := n) (by rw [hfk]; exact h.counted) (by rw [hfk]; exact h.aligned), hfk, hneed,
        if_pos hlt]

end Groups

section Trajectory

variable {F : Type} {d : Crates F} {nOf : UInt64 → Option UInt32}

theorem heldTexts_ok {id : UInt64} {start : UInt32} {fs : List Sent} (hload : ∀ f ∈ fs, loadFrame d f.stored = .ok f.text) :
    (heldRows id start fs).mapM (heldText d) = .ok (sentTexts id start fs) := by
  rw [mapM_eq_ok, heldRows, sentTexts, List.forall₂_map_left_iff, List.forall₂_map_right_iff, List.forall₂_same]
  intro kf hkf
  have hmem : kf.2 ∈ fs := by
    rw [← framed_snd id start fs]
    exact List.mem_map_of_mem hkf
  rw [heldText, heldRow, hload kf.2 hmem]
  rfl

theorem packHeld_ok {id : UInt64} {start : UInt32} {fs : List Sent} {packed : List Bytes}
    (hload : ∀ f ∈ fs, loadFrame d f.stored = .ok f.text) (hp : packAligned d (sentTexts id start fs) = .ok packed) :
    packHeld d (heldRows id start fs) = .ok (withStored (heldRows id start fs) packed) := by
  rw [packHeld, heldTexts_ok hload]
  show (packAligned d (sentTexts id start fs) >>= _) = _
  rw [hp]
  rfl

theorem withStored_append {rows rows' : List Held} {packed packed' : List Bytes} (h : packed.length = rows.length) :
    withStored (rows ++ rows') (packed ++ packed') = withStored rows packed ++ withStored rows' packed' := by
  induction rows generalizing packed with
  | nil =>
    obtain rfl := List.eq_nil_of_length_eq_zero h
    simp [withStored]
  | cons r rows ih =>
    cases packed with
    | nil => simp at h
    | cons stored packed =>
      rw [List.cons_append, List.cons_append, withStored, ih (by simpa using h), withStored, List.cons_append]

theorem sentTexts_cut {id : UInt64} {start : UInt32} {fs gs : List Sent}
    (ha : (start.toNat + fs.length) % groupLen = 0) (hroom : start.toNat + fs.length < 2 ^ 32) :
    ∀ x ∈ (sentTexts id start fs).getLast?, ∀ y ∈ (sentTexts id (start + UInt32.ofNat fs.length) gs).head?,
      sameGroup x y = false := by
  have hl : groupLen = 64 := rfl
  rw [hl] at ha
  intro x hx y hy
  have hnext : (start + UInt32.ofNat fs.length).toNat = start.toNat + fs.length := by
    rw [UInt32.toNat_add, UInt32.toNat_ofNat', Nat.mod_eq_of_lt (by omega : fs.length < 2 ^ 32), Nat.mod_eq_of_lt hroom]
  have hy' : y.1 = start + UInt32.ofNat fs.length := by
    cases gs with
    | nil => cases hy
    | cons g gs =>
      obtain rfl := Option.some.inj hy
      rfl
  obtain ⟨kf, hkf, rfl⟩ := List.mem_map.mp (List.mem_of_getLast? hx)
  obtain ⟨k, f⟩ := kf
  obtain ⟨_, hlow, hget⟩ := (mem_framed (by omega)).mp hkf
  have hhigh := (List.getElem?_eq_some_iff.mp hget).1
  rw [sameGroup, beq_eq_false_iff_ne, hy', hnext, hl]
  show k.frameIdx.toNat / 64 ≠ _
  omega

theorem trajectory_groups {id : UInt64} {n : UInt32} (hn : nOf id = some n) {m : Nat} (start : UInt32)
    {fs : List Sent} {packed : List Bytes} (hm : fs.length ≤ m) (ha : start.toNat % groupLen = 0)
    (hstop : start.toNat + fs.length ≤ 2 ^ 32 - groupLen) (hle : start.toNat + fs.length ≤ n.toNat)
    (hwhole : (start.toNat + fs.length) % groupLen = 0 ∨ start.toNat + fs.length = n.toNat)
    (hload : ∀ f ∈ fs, loadFrame d f.stored = .ok f.text) (hp : packAligned d (sentTexts id start fs) = .ok packed) :
    ∃ groups : List (List Held × List Held), (∀ g ∈ groups, Emits (drainReady d nOf) g.1 g.2) ∧
      inputs groups = heldRows id start fs ∧ outputs groups = withStored (heldRows id start fs) packed := by
  have hl : groupLen = 64 := rfl
  induction m generalizing start fs packed with
  | zero =>
    obtain rfl := List.eq_nil_of_length_eq_zero (Nat.le_zero.mp hm)
    refine ⟨[], by simp, rfl, ?_⟩
    cases packed <;> rfl
  | succ m ih =>
    by_cases hne : fs = []
    · subst hne
      refine ⟨[], by simp, rfl, ?_⟩
      cases packed <;> rfl
    · have hpos := List.length_pos_iff.mpr hne
      rw [hl] at ha hstop hwhole
      by_cases hone : fs.length ≤ 64
      · have hgroup : WholeGroup d nOf id start n fs (withStored (heldRows id start fs) packed) :=
          { counted := hn
            aligned := ha
            room := by omega
            nonempty := hne
            whole := by omega
            packs := packHeld_ok hload hp }
        refine ⟨[(heldRows id start fs, withStored (heldRows id start fs) packed)], ?_, ?_, ?_⟩
        · simpa using hgroup.emits
        · simp [inputs]
        · simp [outputs]
      · have hsplit : fs.take 64 ++ fs.drop 64 = fs := List.take_append_drop 64 fs
        have htake : (fs.take 64).length = 64 := by
          rw [List.length_take]
          omega
        have hdrop : (fs.drop 64).length = fs.length - 64 := List.length_drop
        have hnext : (start + UInt32.ofNat (fs.take 64).length).toNat = start.toNat + 64 := by
          have h64 : (UInt32.ofNat 64).toNat = 64 := rfl
          rw [htake, UInt32.toNat_add, h64, Nat.mod_eq_of_lt (by omega)]
        rw [← hsplit, sentTexts_append] at hp
        obtain ⟨front, back, hfront, hback, rfl⟩ := packAligned_cut
          (sentTexts_cut (by rw [hl]; omega) (by omega)) hp
        have hgroup : WholeGroup d nOf id start n (fs.take 64) (withStored (heldRows id start (fs.take 64)) front) :=
          { counted := hn
            aligned := ha
            room := by omega
            nonempty := List.length_pos_iff.mp (by omega)
            whole := by omega
            packs := packHeld_ok (fun f hf => hload f (List.mem_of_mem_take hf)) hfront }
        obtain ⟨groups, hall, hin, hout⟩ := ih _ (by omega) (by rw [hl]; omega) (by rw [hl]; omega) (by omega)
          (by rw [hl]; omega)
          (fun f hf => hload f (List.mem_of_mem_drop hf)) hback
        have hlen : front.length = (heldRows id start (fs.take 64)).length := by
          rw [packAligned_length hfront, length_heldRows, sentTexts, List.length_map, framed_length]
        have hrows := heldRows_append id start (fs.take 64) (fs.drop 64)
        rw [hsplit] at hrows
        refine ⟨(heldRows id start (fs.take 64), withStored (heldRows id start (fs.take 64)) front) :: groups, ?_, ?_, ?_⟩
        · exact List.forall_mem_cons.mpr ⟨hgroup.emits, hall⟩
        · rw [hrows, ← hin]
          simp [inputs]
        · rw [hrows, withStored_append hlen, ← hout]
          simp [outputs]

end Trajectory

section Streams

variable {F : Type} {d : Crates F}

structure Trajectory where
  id : UInt64
  frames : List Sent

namespace Trajectory

def rows (t : Trajectory) : List Held := heldRows t.id 0 t.frames

def texts (t : Trajectory) : List (UInt32 × String) := sentTexts t.id 0 t.frames

def count (t : Trajectory) : UInt32 := UInt32.ofNat t.frames.length

end Trajectory

def nOf (trajs : List Trajectory) (id : UInt64) : Option UInt32 := (trajs.find? fun t => t.id == id).map Trajectory.count

structure Incoming (d : Crates F) (trajs : List Trajectory) (packed : Trajectory → List Bytes) : Prop where
  distinct : (trajs.map Trajectory.id).Nodup
  counted : ∀ t ∈ trajs, t.frames.length < 2 ^ 32
  loads : ∀ t ∈ trajs, ∀ f ∈ t.frames, loadFrame d f.stored = .ok f.text
  packs : ∀ t ∈ trajs, packAligned d t.texts = .ok (packed t)

def repacked (packed : Trajectory → List Bytes) (t : Trajectory) : List Held := withStored t.rows (packed t)

def StreamsAsPacked (d : Crates F) (trajs : List Trajectory) (packed : Trajectory → List Bytes) : Prop :=
  ∀ batches : List (List Held), batches.flatten = trajs.flatMap Trajectory.rows →
    feed (drainReady d (nOf trajs)) batches [] = lift (.ok (trajs.flatMap (repacked packed), []))

variable {trajs : List Trajectory} {packed : Trajectory → List Bytes}

theorem Incoming.nOf_eq (h : Incoming d trajs packed) {t : Trajectory} (ht : t ∈ trajs) :
    nOf trajs t.id = some t.count := by
  have hfind : trajs.find? (fun t' => t'.id == t.id) = some t := by
    cases hf : trajs.find? fun t' => t'.id == t.id with
    | none =>
      have hno := List.find?_eq_none.mp hf t ht
      simp at hno
    | some t' =>
      have hid : t'.id = t.id := by simpa using List.find?_some hf
      rw [List.inj_on_of_nodup_map h.distinct (List.mem_of_find?_eq_some hf) ht hid]
  rw [nOf, hfind]
  rfl

theorem Incoming.count_toNat (h : Incoming d trajs packed) {t : Trajectory} (ht : t ∈ trajs) :
    t.count.toNat = t.frames.length := by
  rw [Trajectory.count, UInt32.toNat_ofNat', Nat.mod_eq_of_lt (h.counted t ht)]

theorem groups_of_each {nOf : UInt64 → Option UInt32} {ts : List Trajectory} {f : Trajectory → List Held}
    (h : ∀ t ∈ ts, ∃ groups : List (List Held × List Held), (∀ g ∈ groups, Emits (drainReady d nOf) g.1 g.2) ∧
      inputs groups = t.rows ∧ outputs groups = f t) :
    ∃ groups : List (List Held × List Held), (∀ g ∈ groups, Emits (drainReady d nOf) g.1 g.2) ∧
      inputs groups = ts.flatMap Trajectory.rows ∧ outputs groups = ts.flatMap f := by
  induction ts with
  | nil => exact ⟨[], by simp, rfl, rfl⟩
  | cons t ts ih =>
    obtain ⟨front, hf, hin, hout⟩ := h t (by simp)
    obtain ⟨back, hb, hin', hout'⟩ := ih fun t' ht' => h t' (by simp [ht'])
    refine ⟨front ++ back, ?_, ?_, ?_⟩
    · intro g hg
      rcases List.mem_append.mp hg with hg | hg
      · exact hf g hg
      · exact hb g hg
    · rw [inputs_append, hin, hin', List.flatMap_cons]
    · rw [outputs_append, hout, hout', List.flatMap_cons]

theorem Incoming.groups (h : Incoming d trajs packed) {t : Trajectory} (ht : t ∈ trajs)
    (hsmall : t.frames.length ≤ 2 ^ 32 - groupLen) :
    ∃ groups : List (List Held × List Held), (∀ g ∈ groups, Emits (drainReady d (nOf trajs)) g.1 g.2) ∧
      inputs groups = t.rows ∧ outputs groups = repacked packed t := by
  have hzero : (0 : UInt32).toNat = 0 := rfl
  have hcount := h.count_toNat ht
  apply trajectory_groups (h.nOf_eq ht) 0 le_rfl rfl
  · rw [hzero, Nat.zero_add]
    exact hsmall
  · rw [hzero, Nat.zero_add, hcount]
  · exact .inr (by rw [hzero, Nat.zero_add, hcount])
  · exact h.loads t ht
  · exact h.packs t ht

theorem streams_of_small (h : Incoming d trajs packed) (hsmall : ∀ t ∈ trajs, t.frames.length ≤ 2 ^ 32 - groupLen) :
    StreamsAsPacked d trajs packed := by
  intro batches hb
  obtain ⟨groups, hall, hin, hout⟩ := groups_of_each fun t ht => h.groups ht (hsmall t ht)
  rw [← hout]
  exact feed_groups drainReady_nil hall (waiting_nil hall) (by rw [List.nil_append, hb, hin])

-- In the last group below `2 ^ 32` the sum `start + 64` is 0, and no buffer is ever long enough.
theorem last_group_stuck {nOf : UInt64 → Option UInt32} {id : UInt64} {start n : UInt32} {fs : List Sent}
    {rest : List Held} (hn : nOf id = some n) (hstart : start.toNat = 2 ^ 32 - groupLen) (hne : fs ≠ [])
    (hlen : fs.length < groupLen) (hrest : ∀ r ∈ rest, r.fk.trajId ≠ id) (ready : List Held) :
    drainReady d nOf (heldRows id start fs ++ rest) ready = lift (.ok (ready, heldRows id start fs ++ rest)) := by
  have hl : groupLen = 64 := rfl
  obtain rfl : start = UInt32.ofNat (2 ^ 32 - 64) := by
    rw [← UInt32.toNat_inj, hstart]
    rfl
  have hend : groupEnd (UInt32.ofNat (2 ^ 32 - 64)) n = 0 := by
    show (if UInt32.ofNat (2 ^ 32 - 64) + UInt32.ofNat groupLen ≤ n then _ else n) = 0
    exact if_pos (UInt32.zero_le)
  have hneed : groupNeed (UInt32.ofNat (2 ^ 32 - 64)) n = 64 := by
    rw [groupNeed, hend]
    rfl
  have haligned : (UInt32.ofNat (2 ^ 32 - 64)).toNat % groupLen = 0 := by decide
  have hrows := length_heldRows id (UInt32.ofNat (2 ^ 32 - 64)) fs
  obtain ⟨first, tail, hcons, hfk⟩ := heldRows_cons id (UInt32.ofNat (2 ^ 32 - 64)) hne
  by_cases hshort : (heldRows id (UInt32.ofNat (2 ^ 32 - 64)) fs ++ rest).length < 64
  · rw [hcons, List.cons_append] at hshort ⊢
    rw [drainReady_aligned (n := n) (by rw [hfk]; exact hn) (by rw [hfk]; exact haligned), hfk, hneed, if_pos hshort]
  · have hindex : ∃ last ∈ rest, (heldRows id (UInt32.ofNat (2 ^ 32 - 64)) fs ++ rest)[63]? = some last := by
      rw [List.length_append] at hshort
      rw [List.getElem?_append_right (by omega), List.getElem?_eq_getElem (by omega)]
      exact ⟨_, List.getElem_mem _, rfl⟩
    obtain ⟨last, hmem, hlast⟩ := hindex
    have htraj := hrest last hmem
    rw [hcons, List.cons_append] at hshort hlast ⊢
    rw [drainReady_aligned (n := n) (by rw [hfk]; exact hn) (by rw [hfk]; exact haligned), hfk]
    simp only [hneed]
    rw [if_neg hshort, if_neg (by decide), index_ok hlast, lift_ok_bind, if_pos (.inl htraj)]

theorem Incoming.wholePart (h : Incoming d trajs packed) {t : Trajectory} (ht : t ∈ trajs)
    (hlarge : 2 ^ 32 - 64 < t.frames.length) :
    ∃ groups : List (List Held × List Held), (∀ g ∈ groups, Emits (drainReady d (nOf trajs)) g.1 g.2) ∧
      inputs groups = heldRows t.id 0 (t.frames.take (2 ^ 32 - 64)) ∧
      t.rows = inputs groups ++ heldRows t.id (UInt32.ofNat (2 ^ 32 - 64)) (t.frames.drop (2 ^ 32 - 64)) := by
  have hl : groupLen = 64 := rfl
  have hzero : (0 : UInt32).toNat = 0 := rfl
  have htake : (t.frames.take (2 ^ 32 - 64)).length = 2 ^ 32 - 64 := by
    rw [List.length_take]
    omega
  have hsplit := List.take_append_drop (2 ^ 32 - 64) t.frames
  have htexts := sentTexts_append t.id 0 (t.frames.take (2 ^ 32 - 64)) (t.frames.drop (2 ^ 32 - 64))
  have hrows := heldRows_append t.id 0 (t.frames.take (2 ^ 32 - 64)) (t.frames.drop (2 ^ 32 - 64))
  rw [hsplit] at htexts hrows
  have hp := h.packs t ht
  rw [Trajectory.texts, htexts] at hp
  obtain ⟨front, back, hfront, _, _⟩ := packAligned_cut
    (sentTexts_cut (by rw [htake]; rfl) (by rw [htake]; decide)) hp
  obtain ⟨groups, hall, hin, _⟩ := trajectory_groups (h.nOf_eq ht) 0 le_rfl rfl (by rw [htake]; decide)
    (by rw [htake, h.count_toNat ht, hzero]; omega) (.inl (by rw [htake]; rfl))
    (fun f hf => h.loads t ht f (List.mem_of_mem_take hf)) hfront
  refine ⟨groups, hall, hin, ?_⟩
  rw [hin, Trajectory.rows, hrows, htake, UInt32.zero_add]

theorem not_streams_of_large (h : Incoming d trajs packed) {t : Trajectory} (ht : t ∈ trajs)
    (hlarge : 2 ^ 32 - groupLen < t.frames.length) : ¬ StreamsAsPacked d trajs packed := by
  have hl : groupLen = 64 := rfl
  intro hstream
  have hfind : ∃ bad, trajs.find? (fun t => decide (2 ^ 32 - groupLen < t.frames.length)) = some bad := by
    rw [← Option.isSome_iff_exists, List.find?_isSome]
    exact ⟨t, ht, by simpa using hlarge⟩
  obtain ⟨bad, hbad⟩ := hfind
  obtain ⟨hb, before, later, hsplit, hbefore⟩ := List.find?_eq_some_iff_append.mp hbad
  have hb' : 2 ^ 32 - 64 < bad.frames.length := by simpa [hl] using hb
  have hmem : bad ∈ trajs := by
    rw [hsplit]
    simp
  have hlt := h.counted bad hmem
  obtain ⟨front, hfront, hin, _⟩ := groups_of_each (f := repacked packed) fun t (ht : t ∈ before) =>
    h.groups (hsplit ▸ List.mem_append_left _ ht) (by simpa [hl] using hbefore t ht)
  obtain ⟨whole, hwhole, hstart, hrows⟩ := h.wholePart hmem hb'
  have hlater : ∀ r ∈ later.flatMap Trajectory.rows, r.fk.trajId ≠ bad.id := by
    intro r hr heq
    obtain ⟨t', ht', hrow⟩ := List.mem_flatMap.mp hr
    obtain ⟨kf, hkf, rfl⟩ := List.mem_map.mp hrow
    have hid : t'.id = bad.id := (framed_traj hkf).symm.trans heq
    have hnodup := h.distinct
    rw [hsplit, List.map_append, List.nodup_append] at hnodup
    exact (List.nodup_cons.mp hnodup.2.1).1 (hid ▸ List.mem_map_of_mem ht')
  have htail : bad.frames.drop (2 ^ 32 - 64) ≠ [] := by
    rw [← List.length_pos_iff, List.length_drop]
    omega
  have hall : trajs.flatMap Trajectory.rows = inputs (front ++ whole) ++
      (heldRows bad.id (UInt32.ofNat (2 ^ 32 - 64)) (bad.frames.drop (2 ^ 32 - 64)) ++
        later.flatMap Trajectory.rows) := by
    rw [hsplit, List.flatMap_append, List.flatMap_cons, hrows, inputs_append, hin]
    simp only [List.append_assoc]
  have hemits : ∀ g ∈ front ++ whole, Emits (drainReady d (nOf trajs)) g.1 g.2 :=
    fun g hg => (List.mem_append.mp hg).elim (hfront g) (hwhole g)
  have hdrain := drain_groups hemits
    (heldRows bad.id (UInt32.ofNat (2 ^ 32 - 64)) (bad.frames.drop (2 ^ 32 - 64)) ++ later.flatMap Trajectory.rows) []
  rw [last_group_stuck (h.nOf_eq hmem) rfl htail (by rw [List.length_drop, hl]; omega) hlater, ← hall] at hdrain
  have hrun := hstream [trajs.flatMap Trajectory.rows] (by simp)
  rw [feed, List.nil_append, hdrain, lift_ok_bind] at hrun
  simp only [feed, lift_ok_bind, pure_eq_lift] at hrun
  have hempty := (Prod.mk.inj (Except.ok.inj (lift_inj hrun))).2
  have hlen := congrArg List.length (List.append_eq_nil_iff.mp hempty).1
  rw [length_heldRows] at hlen
  exact htail (List.eq_nil_of_length_eq_zero hlen)

-- `start + 64` is an unchecked `u32` sum: it is 0 at the last multiple of 64.
theorem streaming_packs_iff (h : Incoming d trajs packed) :
    StreamsAsPacked d trajs packed ↔ ∀ t ∈ trajs, t.frames.length ≤ 2 ^ 32 - groupLen := by
  constructor
  · intro hs t ht
    by_contra hlarge
    exact not_streams_of_large h ht (by omega) hs
  · exact streams_of_small h

end Streams

section Tiny

def tinySent : Sent := ⟨[], utf8 "a", "a"⟩

theorem tiny_incoming {t : Trajectory} (hcount : t.frames.length < 2 ^ 32) (hall : ∀ f ∈ t.frames, f = tinySent) :
    ∃ rows, Incoming tiny [t] fun _ => rows := by
  have htexts : ∀ f ∈ t.texts, (utf8 f.2).length < 2 ^ 32 := by
    intro f hf
    obtain ⟨kf, hkf, rfl⟩ := List.mem_map.mp hf
    have hmem : kf.2 ∈ t.frames := by
      rw [← framed_snd t.id 0 t.frames]
      exact List.mem_map_of_mem hkf
    rw [hall kf.2 hmem]
    show (utf8 "a").length < 2 ^ 32
    decide
  obtain ⟨rows, hrows⟩ := packAligned_total (d := tiny) (fun _ => ⟨_, rfl⟩) htexts
  refine ⟨rows, List.nodup_singleton _, ?_, ?_, ?_⟩
  · simpa using hcount
  · intro t' ht' f hf
    rw [List.mem_singleton.mp ht'] at hf
    have hstore : storeFrame tiny "a" false = .ok tinySent.stored := rfl
    rw [hall f hf]
    exact load_store tiny_lossless hstore
  · intro t' ht'
    rw [List.mem_singleton.mp ht']
    exact hrows

def tinyShort : Trajectory := ⟨0, List.replicate 65 tinySent⟩

def tinyLong : Trajectory := ⟨0, List.replicate (2 ^ 32 - 63) tinySent⟩

theorem tinyShort_streams : ∃ rows, StreamsAsPacked tiny [tinyShort] fun _ => rows := by
  obtain ⟨rows, hrows⟩ := tiny_incoming (t := tinyShort) (by rw [tinyShort, List.length_replicate]; decide)
    fun f hf => List.eq_of_mem_replicate hf
  refine ⟨rows, (streaming_packs_iff hrows).mpr fun t ht => ?_⟩
  rw [List.mem_singleton.mp ht, tinyShort, List.length_replicate]
  decide

theorem tinyLong_stuck : ∃ rows, Incoming tiny [tinyLong] (fun _ => rows) ∧ ¬ StreamsAsPacked tiny [tinyLong] fun _ => rows := by
  have hlen : tinyLong.frames.length = 2 ^ 32 - 63 := List.length_replicate
  obtain ⟨rows, hrows⟩ := tiny_incoming (t := tinyLong) (by rw [hlen]; decide) fun f hf => List.eq_of_mem_replicate hf
  refine ⟨rows, hrows, not_streams_of_large hrows (List.mem_singleton.mpr rfl) ?_⟩
  rw [hlen]
  decide

end Tiny

end ReadconDb
