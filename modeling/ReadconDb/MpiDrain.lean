import ReadconDb.Streaming

set_option linter.unusedSectionVars false

namespace ReadconDb

open ByteString Outcome Slicing Draining

section Turns

variable {F : Type} (d : Crates F) (nOf : UInt64 → Option UInt32)

def turnReady (buf : List Held) : Checked Error (Option (List Held × List Held)) :=
  match buf with
  | [] => lift (.ok none)
  | first :: rest =>
    match nOf first.fk.trajId with
    | none => lift (.error (.message ("missing traj " ++ toString first.fk.trajId)))
    | some n =>
      let start := first.fk.frameIdx / UInt32.ofNat groupLen * UInt32.ofNat groupLen
      if first.fk.frameIdx ≠ start then lift (.error (.message "frame group does not start on an aligned index"))
      else if (first :: rest).length < groupNeed start n then lift (.ok none)
      else if groupNeed start n = 0 then panicked
      else do
        let last ← index (first :: rest) (groupNeed start n - 1)
        if last.fk.trajId ≠ first.fk.trajId ∨ last.fk.frameIdx + 1 ≠ groupEnd start n then lift (.ok none)
        else do
          let group ← lift (packHeld d ((first :: rest).take (groupNeed start n)))
          lift (.ok (some (group, (first :: rest).drop (groupNeed start n))))

variable {d nOf}

structure Turned (d : Crates F) (nOf : UInt64 → Option UInt32) (first : Held) (rest : List Held) (n : UInt32)
    (group left : List Held) : Prop where
  counted : nOf first.fk.trajId = some n
  aligned : first.fk.frameIdx = first.fk.frameIdx / UInt32.ofNat groupLen * UInt32.ofNat groupLen
  enough : groupNeed first.fk.frameIdx n ≤ (first :: rest).length
  some : groupNeed first.fk.frameIdx n ≠ 0
  last : ∃ last, (first :: rest)[groupNeed first.fk.frameIdx n - 1]? = .some last ∧ last.fk.trajId = first.fk.trajId ∧
    last.fk.frameIdx + 1 = groupEnd first.fk.frameIdx n
  packs : packHeld d ((first :: rest).take (groupNeed first.fk.frameIdx n)) = .ok group
  left : left = (first :: rest).drop (groupNeed first.fk.frameIdx n)

theorem turnReady_some {buf group left : List Held} : turnReady d nOf buf = lift (.ok (some (group, left))) ↔
    ∃ first rest n, buf = first :: rest ∧ Turned d nOf first rest n group left := by
  cases buf with
  | nil =>
    constructor
    · intro h
      cases h
    · rintro ⟨first, rest, n, h, _⟩
      cases h
  | cons first rest =>
    constructor
    · intro h
      rw [turnReady] at h
      split at h
      · cases h
      · next n hn =>
        simp only at h
        split at h
        · cases h
        · next ha =>
          have ha' := not_not.mp ha
          rw [← ha'] at h
          split at h
          · cases h
          · next hlong =>
            split at h
            · cases h
            · next hsome =>
              obtain ⟨last, hlast, h⟩ := checked_bind_ok h
              split at h
              · cases h
              · next hsame =>
                obtain ⟨hid, hend⟩ := not_or.mp hsame
                obtain ⟨out, hout, h⟩ := checked_bind_ok h
                cases h
                refine ⟨first, rest, n, rfl, hn, ha', Nat.not_lt.mp hlong, hsome, ⟨last, ?_, not_not.mp hid, not_not.mp hend⟩,
                  lift_inj hout, rfl⟩
                rw [index] at hlast
                split at hlast
                · next hget =>
                  cases hlast
                  exact hget
                · cases hlast
    · rintro ⟨first', rest', n, heq, h⟩
      cases heq
      obtain ⟨last, hlast, hid, hend⟩ := h.last
      rw [turnReady, h.counted]
      simp only [← h.aligned]
      rw [if_neg (not_not.mpr rfl), if_neg (Nat.not_lt.mpr h.enough), if_neg h.some, index_ok hlast, lift_ok_bind,
        if_neg (not_or.mpr ⟨not_not.mpr hid, not_not.mpr hend⟩), h.packs, lift_ok_bind, h.left]

theorem drainReady_byTurns : ByTurns (turnReady d nOf) (drainReady d nOf) where
  eq buf ready := by
    cases buf with
    | nil =>
      rw [drainReady_nil]
      rfl
    | cons first rest =>
      rw [drainReady, turnReady]
      cases nOf first.fk.trajId with
      | none => rfl
      | some n =>
        simp only
        split
        · rfl
        · split
          · rfl
          · split
            · rfl
            · rw [bind_assoc]
              refine congrArg (index (first :: rest) _ >>= ·) (funext fun last => ?_)
              split
              · rfl
              · rw [bind_assoc]
                rfl
  shorter h := by
    obtain ⟨first, rest, n, rfl, ht⟩ := turnReady_some.mp h
    have hsome := ht.some
    rw [ht.left, List.length_drop, List.length_cons]
    omega
  longer h more := by
    obtain ⟨first, rest, n, rfl, ht⟩ := turnReady_some.mp h
    have henough := ht.enough
    have hsome := ht.some
    obtain ⟨last, hlast, hid, hend⟩ := ht.last
    refine turnReady_some.mpr ⟨first, rest ++ more, n, rfl, ht.counted, ht.aligned, ?_, ht.some, ⟨last, ?_, hid, hend⟩, ?_, ?_⟩
    · rw [← List.cons_append, List.length_append]
      omega
    · rw [← List.cons_append, List.getElem?_append_left (by omega)]
      exact hlast
    · rw [← List.cons_append, List.take_append_of_le_length henough]
      exact ht.packs
    · rw [← List.cons_append, List.drop_append_of_le_length henough, ht.left]

end Turns

section Whole

variable {F : Type} {d : Crates F} {nOf : UInt64 → Option UInt32}

theorem drained_trajectory {id : UInt64} {n : UInt32} (hn : nOf id = some n) (start : UInt32) {fs : List Sent}
    (ha : start.toNat % groupLen = 0) (hall : start.toNat + fs.length = n.toNat)
    (hload : ∀ f ∈ fs, loadFrame d f.stored = .ok f.text) {rest : List Held} (hrest : ∀ r ∈ rest, r.fk.trajId ≠ id)
    {ready out : List Held} (hd : drainReady d nOf (heldRows id start fs ++ rest) ready = lift (.ok (out, []))) :
    ∃ packed, packAligned d (sentTexts id start fs) = .ok packed ∧
      drainReady d nOf rest (ready ++ withStored (heldRows id start fs) packed) = lift (.ok (out, [])) := by
  have hl : groupLen = 64 := rfl
  have hn32 := n.toNat_lt
  rw [hl] at ha
  induction hk : fs.length using Nat.strong_induction_on generalizing start fs ready with
  | h k ih =>
    by_cases hne : fs = []
    · subst hne
      refine ⟨[], rfl, ?_⟩
      rw [show withStored (heldRows id start []) [] = [] from rfl, List.append_nil]
      exact hd
    · have hpos := List.length_pos_iff.mpr hne
      have hlt : start < n := by
        rw [UInt32.lt_iff_toNat_lt]
        omega
      by_cases hroom : start.toNat + 64 < 2 ^ 32
      · have hneed := groupNeed_eq (by rwa [hl]) hlt
        obtain ⟨first, tail, hrows, hfk⟩ := heldRows_cons id start hne
        have hlen := length_heldRows id start fs
        rw [drainReady_byTurns.eq] at hd
        obtain ⟨next, hturn, hd⟩ := checked_bind_ok hd
        cases next with
        | none =>
          have hleft := (Prod.mk.inj (Except.ok.inj (lift_inj hd))).2
          rw [hrows] at hleft
          cases hleft
        | some next =>
          obtain ⟨group, left⟩ := next
          obtain ⟨first', rest', n', hbuf, ht⟩ := turnReady_some.mp hturn
          rw [hrows, List.cons_append] at hbuf
          obtain ⟨rfl, rfl⟩ := List.cons.inj hbuf
          have hcounted := ht.counted
          rw [hfk] at hcounted
          obtain rfl : n = n' := Option.some.inj (hn.symm.trans hcounted)
          have hpacks := ht.packs
          have hleft := ht.left
          rw [← List.cons_append, ← hrows, hfk] at hpacks hleft
          simp only [hneed] at hpacks hleft
          generalize hm : min (start.toNat + groupLen) n.toNat - start.toNat = m at hpacks hleft
          rw [hl] at hm
          have hmle : m ≤ fs.length := by omega
          have hsplit : fs.take m ++ fs.drop m = fs := List.take_append_drop m fs
          have htake : (fs.take m).length = m := by
            rw [List.length_take]
            omega
          have hdrop : (fs.drop m).length = fs.length - m := List.length_drop
          have hparts := heldRows_append id start (fs.take m) (fs.drop m)
          have htexts := sentTexts_append id start (fs.take m) (fs.drop m)
          rw [hsplit, htake] at hparts htexts
          have hfront : (heldRows id start (fs.take m)).length = m := by rw [length_heldRows, htake]
          have hnext : (start + UInt32.ofNat m).toNat = start.toNat + m := by
            rw [UInt32.toNat_add, UInt32.toNat_ofNat', Nat.mod_eq_of_lt (by omega : m < 2 ^ 32), Nat.mod_eq_of_lt (by omega)]
          rw [List.take_append_of_le_length (by omega), hparts, List.take_left' hfront] at hpacks
          rw [List.drop_append_of_le_length (by omega), hparts, List.drop_left' hfront] at hleft
          obtain ⟨front, hpack, hgroup⟩ : ∃ front, packAligned d (sentTexts id start (fs.take m)) = .ok front ∧
              group = withStored (heldRows id start (fs.take m)) front := by
            have hloads : (heldRows id start (fs.take m)).mapM (heldText d) = .ok (sentTexts id start (fs.take m)) :=
              heldTexts_ok fun f hf => hload f (List.mem_of_mem_take hf)
            rw [packHeld] at hpacks
            obtain ⟨texts, ht, hpacks⟩ := bind_eq_ok.mp hpacks
            obtain rfl := Except.ok.inj (ht.symm.trans hloads)
            obtain ⟨packed, hp, hpacks⟩ := bind_eq_ok.mp hpacks
            exact ⟨packed, hp, (pure_eq_ok.mp hpacks).symm⟩
          subst hleft hgroup
          by_cases hlast : m = fs.length
          · have hnil : fs.drop m = [] := by rw [hlast, List.drop_length]
            rw [hnil] at hd htexts hparts
            refine ⟨front, ?_, ?_⟩
            · rw [htexts]
              simpa [sentTexts, framed] using hpack
            · rw [hparts]
              simpa [heldRows, framed] using hd
          · obtain ⟨back, hback, hd⟩ := ih (fs.drop m).length (by omega) (start + UInt32.ofNat m)
              (by omega) (by omega)
              (fun f hf => hload f (List.mem_of_mem_drop hf)) hd rfl
            refine ⟨front ++ back, ?_, ?_⟩
            · rw [htexts]
              refine packAligned_join ?_ hpack hback
              have hcut := @sentTexts_cut id start (fs.take m) (fs.drop m)
                (by rw [hl, htake]; omega) (by rw [htake]; omega)
              rwa [htake] at hcut
            · have hfits : front.length = (heldRows id start (fs.take m)).length := by
                rw [packAligned_length hpack, length_heldRows, sentTexts, List.length_map, framed_length]
              rw [hparts, withStored_append hfits, ← List.append_assoc]
              exact hd
      · -- The last group below `2 ^ 32` never comes out.
        rw [last_group_stuck hn (by rw [hl]; omega) hne (by rw [hl]; omega) hrest] at hd
        have hleft := (Prod.mk.inj (Except.ok.inj (lift_inj hd))).2
        have hlen := congrArg List.length (List.append_eq_nil_iff.mp hleft).1
        rw [length_heldRows] at hlen
        exact absurd (List.eq_nil_of_length_eq_zero hlen) hne

def packedFor (d : Crates F) (t : Trajectory) : List Bytes :=
  match packAligned d t.texts with
  | .ok rows => rows
  | .error _ => []

theorem drained_trajectories {ts : List Trajectory} (hdistinct : (ts.map Trajectory.id).Nodup)
    (hn : ∀ t ∈ ts, nOf t.id = some t.count) (hcount : ∀ t ∈ ts, t.frames.length < 2 ^ 32)
    (hload : ∀ t ∈ ts, ∀ f ∈ t.frames, loadFrame d f.stored = .ok f.text) {ready out : List Held}
    (hd : drainReady d nOf (ts.flatMap Trajectory.rows) ready = lift (.ok (out, []))) :
    (∀ t ∈ ts, packAligned d t.texts = .ok (packedFor d t)) ∧ out = ready ++ ts.flatMap (repacked (packedFor d)) := by
  induction ts generalizing ready with
  | nil =>
    rw [List.flatMap_nil, drainReady_nil] at hd
    obtain ⟨rfl, _⟩ := Prod.mk.inj (Except.ok.inj (lift_inj hd))
    exact ⟨by simp, by simp⟩
  | cons t ts ih =>
    rw [List.map_cons, List.nodup_cons] at hdistinct
    have hothers : ∀ r ∈ ts.flatMap Trajectory.rows, r.fk.trajId ≠ t.id := by
      intro r hr heq
      obtain ⟨t', ht', hrow⟩ := List.mem_flatMap.mp hr
      obtain ⟨kf, hkf, rfl⟩ := List.mem_map.mp hrow
      have hid : t'.id = t.id := (framed_traj hkf).symm.trans heq
      exact hdistinct.1 (hid ▸ List.mem_map_of_mem ht')
    have hwhole : (0 : UInt32).toNat + t.frames.length = t.count.toNat := by
      rw [Trajectory.count, UInt32.toNat_ofNat', Nat.mod_eq_of_lt (hcount t List.mem_cons_self)]
      exact Nat.zero_add _
    rw [List.flatMap_cons, Trajectory.rows] at hd
    obtain ⟨mine, hmine, hd⟩ := drained_trajectory (hn t List.mem_cons_self) 0 rfl hwhole (hload t List.mem_cons_self)
      hothers hd
    have hrows : packedFor d t = mine := by
      rw [packedFor, Trajectory.texts, hmine]
    obtain ⟨hpacked, hout⟩ := ih hdistinct.2 (fun t' ht' => hn t' (List.mem_cons_of_mem _ ht'))
      (fun t' ht' => hcount t' (List.mem_cons_of_mem _ ht')) (fun t' ht' => hload t' (List.mem_cons_of_mem _ ht')) hd
    refine ⟨List.forall_mem_cons.mpr ⟨hrows ▸ hmine, hpacked⟩, ?_⟩
    rw [hout, List.flatMap_cons, repacked, hrows, List.append_assoc]
    rfl

end Whole

end ReadconDb
