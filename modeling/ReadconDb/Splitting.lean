import ReadconDb.Copying
import ReadconDb.ShardDrain

set_option linter.unusedSectionVars false

namespace ReadconDb

open ByteString Outcome OrderedTable TwoPhase Ownership Splicing

inductive SplitDest (F : Type) where
  | untouched
  | removed
  | holds (s : ShardedConCorpus F)

section Split

variable {F : Type} [Float64 F] (d : Crates F) (opened : UInt32 → Option Error) (refused : UInt64 → Option Error)

namespace ShardedConCorpus

-- A shard that is there is open already.
def shardMut (s : ShardedConCorpus F) (sid : UInt32) : Result (ConCorpus F) :=
  if s.nShards ≤ sid then .error (.message ("shard_id " ++ toString sid ++ " >= n_shards " ++ toString s.nShards))
  else match s.shards sid with
    | some c => .ok c
    | none =>
      match opened sid with
      | some e => .error e
      | none => .ok (ConCorpus.empty F)

def put (s : ShardedConCorpus F) (sid : UInt32) (c : ConCorpus F) : ShardedConCorpus F :=
  { s with shards := Function.update s.shards sid (some c) }

def appendTrajectoryStr (refused : Option Error) (s : ShardedConCorpus F) (trajId : UInt64) (contents source : String) :
    Result UInt32 × ShardedConCorpus F :=
  let sid := shardForTraj trajId s.nShards
  match s.shardMut opened sid with
  | .error e => (.error e, s)
  | .ok c =>
    let out := ReadconDb.appendTrajectoryStr d refused c c trajId contents source
    (out.1, s.put sid out.2)

def getFrameText (s : ShardedConCorpus F) (key : FrameKey) : Result String :=
  let sid := shardForTraj key.trajId s.nShards
  match s.shards sid with
  | none => .error (.message (shardName sid ++ " is not a corpus directory"))
  | some c => ReadconDb.getFrameText d c key

end ShardedConCorpus

abbrev Sharding (F : Type) := UInt32 × ShardedConCorpus F

def splitTraj (st : Sharding F) (job : CopyJob F) : Result (Sharding F) := do
  let concat ← concatTexts d job.corpus job.keys.mergeSort
  match st.2.appendTrajectoryStr d opened (refused job.trajId) job.trajId concat job.source with
  | (.error e, _) => .error e
  | (.ok nf, sharded) => return (st.1 + nf, sharded)

def openSharded (created : Option Error) (nShards : UInt32) : Result (Sharding F) :=
  match created with
  | some e => .error e
  | none => .ok (0, ⟨nShards, fun _ => none⟩)

def rollbackNewRoot : Result (Sharding F) → Result UInt32 × SplitDest F
  | .ok st => (.ok st.1, .holds st.2)
  | .error e => (.error e, .removed)

def splitSingleToSharded (created : Option Error) (single : ConCorpus F) (dstRoot : String) (dstExists : Bool)
    (nShards : UInt32) : Result UInt32 × SplitDest F :=
  if nShards = 0 then (.error (.message "n_shards must be >= 1"), .untouched)
  else if dstExists then (.error (.message ("split dest exists: " ++ dstRoot)), .untouched)
  else rollbackNewRoot (do
    (envJobs "split-from-single" single).foldlM (splitTraj d opened refused) (← openSharded created nShards))

end Split

section Shards

variable {F : Type} [Float64 F] {d : Crates F} {L : Texts} {t : UInt64} {single : ConCorpus F} {n : UInt32}

theorem shardForTraj_lt (t : UInt64) (h : n ≠ 0) : shardForTraj t n < n := by
  have hn : 0 < n.toNat := Nat.pos_of_ne_zero fun h0 => h (UInt32.toNat_inj.mp h0)
  have hlt := n.toNat_lt
  have hmod := Nat.mod_lt t.toNat hn
  rw [UInt32.lt_iff_toNat_lt, shardForTraj, UInt64.toNat_toUInt32, UInt64.toNat_mod, UInt32.toNat_toUInt64]
  omega

def ShardedConCorpus.corpusAt (s : ShardedConCorpus F) (sid : UInt32) : ConCorpus F :=
  (s.shards sid).getD (ConCorpus.empty F)

theorem ShardedConCorpus.corpusAt_put (s : ShardedConCorpus F) (sid sid' : UInt32) (c : ConCorpus F) :
    (s.put sid c).corpusAt sid' = if sid = sid' then c else s.corpusAt sid' := by
  simp only [corpusAt, put]
  by_cases h : sid = sid'
  · subst h
    rw [Function.update_self, if_pos rfl]
    rfl
  · rw [Function.update_of_ne (Ne.symm h), if_neg h]

def shareOf (n : UInt32) (L : Texts) (sid : UInt32) : Texts := fun t => if shardForTraj t n = sid then L t else none

structure Spread (d : Crates F) (n : UInt32) (st : Sharding F) (L : Texts) : Prop where
  count : st.2.nShards = n
  built : ∀ sid, Built d (st.2.corpusAt sid) (shareOf n L sid)
  compress : ∀ sid, (st.2.corpusAt sid).compressFrames = true

theorem spread_start (d : Crates F) (n : UInt32) :
    Spread d n ((0, ⟨n, fun _ => none⟩) : Sharding F) Ledger.blank where
  count := rfl
  built sid := by
    have hblank : shareOf n Ledger.blank sid = Ledger.blank := funext fun t => ite_self _
    rw [hblank]
    exact .empty
  compress _ := rfl

theorem shareOf_write (n : UInt32) (L : Texts) (t : UInt64) (ss : List String) (sid : UInt32) :
    shareOf n (L.write t ss) sid =
      if shardForTraj t n = sid then (shareOf n L sid).write t ss else shareOf n L sid := by
  funext u
  by_cases hu : u = t
  · subst hu
    split
    · next hsid => rw [Ledger.write_self, shareOf, if_pos hsid, Ledger.write_self]
    · next hsid => rw [shareOf, shareOf, if_neg hsid, if_neg hsid]
  · have hother : shareOf n (L.write t ss) sid u = shareOf n L sid u := by
      rw [shareOf, shareOf, Ledger.write_other _ _ hu]
    split
    · rw [hother, Ledger.write_other _ _ hu]
    · exact hother

theorem sharded_append (hn : n ≠ 0) {s : ShardedConCorpus F} (hs : s.nShards = n) (contents source : String) :
    s.appendTrajectoryStr d (fun _ => none) none t contents source =
      let c := s.corpusAt (shardForTraj t n)
      let out := appendTrajectoryStr d none c c t contents source
      (out.1, s.put (shardForTraj t n) out.2) := by
  have hlt : ¬ s.nShards ≤ shardForTraj t n := by
    rw [hs]
    exact UInt32.not_le.mpr (shardForTraj_lt t hn)
  have hopen : s.shardMut (fun _ => none) (shardForTraj t n) = .ok (s.corpusAt (shardForTraj t n)) := by
    rw [ShardedConCorpus.shardMut, if_neg hlt, ShardedConCorpus.corpusAt]
    cases s.shards (shardForTraj t n) <;> rfl
  simp only [ShardedConCorpus.appendTrajectoryStr, hs, hopen]

theorem Spread.write {st : Sharding F} (h : Spread d n st L) {next : ConCorpus F} {ss : List String} {m : UInt32}
    (hb : Built d next ((shareOf n L (shardForTraj t n)).write t ss))
    (hc : next.compressFrames = (st.2.corpusAt (shardForTraj t n)).compressFrames) :
    Spread d n (m, st.2.put (shardForTraj t n) next) (L.write t ss) where
  count := h.count
  built sid := by
    rw [ShardedConCorpus.corpusAt_put, shareOf_write]
    split
    · next hsid => exact hsid ▸ hb
    · exact h.built sid
  compress sid := by
    rw [ShardedConCorpus.corpusAt_put]
    split
    · rw [hc]
      exact h.compress _
    · exact h.compress sid

theorem splitTraj_spread (hg : Compresses d) (hn : n ≠ 0) {job : CopyJob F} (hc : Copyable d job) {st : Sharding F}
    (h : Spread d n st L) (hnone : L job.trajId = none) :
    ∃ st', splitTraj d (fun _ => none) (fun _ => none) st job = .ok st' ∧
      Spread d n st' (L.write job.trajId (jobTexts d job)) := by
  have hshare : shareOf n L (shardForTraj job.trajId n) job.trajId = none := by rw [shareOf, if_pos rfl, hnone]
  obtain ⟨nf, next, hok, hnext⟩ :=
    (h.built (shardForTraj job.trajId n)).append hg hshare hc.cut hc.counted hc.packs job.source
  refine ⟨_, ?_, h.write (m := st.1 + nf) hnext (append_compress hok)⟩
  rw [splitTraj, hc.texts]
  simp only [bind, Except.bind, sharded_append hn h.count, hok]
  rfl

theorem splitTraj_appended (hg : Compresses d) (hn : n ≠ 0) {job : CopyJob F} {st st' : Sharding F}
    (hs : st.2.nShards = n) (h : splitTraj d (fun _ => none) (fun _ => none) st job = .ok st') : ∃ concat nf ss next,
      concatTexts d job.corpus job.keys.mergeSort = .ok concat ∧
        appendTrajectoryStr d none (st.2.corpusAt (shardForTraj job.trajId n))
          (st.2.corpusAt (shardForTraj job.trajId n)) job.trajId concat job.source = (.ok nf, next) ∧
            Appended d (st.2.corpusAt (shardForTraj job.trajId n)) job.trajId concat ss next ∧
              st' = (st.1 + nf, st.2.put (shardForTraj job.trajId n) next) := by
  obtain ⟨concat, hconcat, h⟩ := bind_eq_ok.mp h
  rw [sharded_append hn hs] at h
  split at h
  · cases h
  · next nf sharded hout =>
    obtain ⟨hnf, rfl⟩ := Prod.mk.inj hout
    obtain ⟨ss, hss⟩ := appended hg (Prod.ext hnf rfl)
    exact ⟨concat, nf, ss, _, hconcat, Prod.ext hnf rfl, hss, (pure_eq_ok.mp h).symm⟩

structure SplitFrom (d : Crates F) (single : ConCorpus F) (n : UInt32) (s : ShardedConCorpus F) : Prop where
  count : s.nShards = n
  routed : ∀ sid c (k : FrameKey), s.shards sid = some c → k.toBytes.val ∈ c.frames → shardForTraj k.trajId n = sid
  gathered : Gathers d s.parts single
  reads : ∀ k : FrameKey, k.toBytes.val ∈ single.frames → s.getFrameText d k = getFrameText d single k

theorem corpusAt_some {s : ShardedConCorpus F} {sid : UInt32} {c : ConCorpus F} (h : s.shards sid = some c) :
    s.corpusAt sid = c := by
  rw [ShardedConCorpus.corpusAt, h, Option.getD_some]

theorem shard_of_text {s : ShardedConCorpus F} {sid : UInt32} {k : FrameKey} {text : String}
    (h : textAt d (s.corpusAt sid) k = some text) : s.shards sid = some (s.corpusAt sid) := by
  cases hs : s.shards sid with
  | some c => rw [corpusAt_some hs]
  | none =>
    obtain ⟨row, hrow⟩ := rowOf_of_textAt h
    simp [ShardedConCorpus.corpusAt, hs, rowOf, ConCorpus.empty] at hrow

theorem Spread.text (hz : ZstdLossless d) {st : Sharding F} (h : Spread d n st L) (k : FrameKey) :
    textAt d (st.2.corpusAt (shardForTraj k.trajId n)) k = L.entry k.trajId k.frameIdx.toNat := by
  rw [((h.built _).bounded hz).refines.text, Ledger.entry, shareOf, if_pos rfl, Ledger.entry]

theorem Spread.home (hz : ZstdLossless d) {st : Sharding F} (h : Spread d n st L) {k : FrameKey} {text : String}
    {sid : UInt32} (hs : textAt d (st.2.corpusAt sid) k = some text) : shardForTraj k.trajId n = sid := by
  rw [((h.built _).bounded hz).refines.text, Ledger.entry, shareOf] at hs
  by_contra hne
  rw [if_neg hne] at hs
  cases hs

theorem Spread.readable (hz : ZstdLossless d) {st : Sharding F} (h : Spread d n st L) {c : ConCorpus F}
    (hc : c ∈ st.2.parts) : Readable d c ∧ ∃ sid, st.2.shards sid = some c ∧ st.2.corpusAt sid = c := by
  obtain ⟨e, he, rfl⟩ := List.mem_map.mp hc
  obtain ⟨_, hs⟩ := st.2.mem_withData.mp he
  have hat := corpusAt_some hs
  exact ⟨hat ▸ ((h.built e.1).bounded hz).refines.readable, e.1, hs, hat⟩

theorem Spread.view (hz : ZstdLossless d) (hn : n ≠ 0) {st : Sharding F} (h : Spread d n st L) (k : FrameKey)
    (text : String) : L.entry k.trajId k.frameIdx.toNat = some text ↔ ∃ c ∈ st.2.parts, textAt d c k = some text := by
  constructor
  · intro hL
    rw [← h.text hz] at hL
    have hlt : shardForTraj k.trajId n < st.2.nShards := by
      rw [h.count]
      exact shardForTraj_lt k.trajId hn
    have hmem : (shardForTraj k.trajId n, st.2.corpusAt (shardForTraj k.trajId n)) ∈ st.2.withData :=
      st.2.mem_withData.mpr ⟨hlt, shard_of_text hL⟩
    exact ⟨_, List.mem_map_of_mem hmem, hL⟩
  · rintro ⟨c, hc, hs⟩
    obtain ⟨_, sid, _, rfl⟩ := h.readable hz hc
    rw [← h.text hz, h.home hz hs]
    exact hs

theorem Spread.splitFrom (hz : ZstdLossless d) (hn : n ≠ 0) {st : Sharding F} (h : Spread d n st L)
    (hr : Readable d single) (hview : ∀ k text, L.entry k.trajId k.frameIdx.toNat = some text ↔
      textAt d single k = some text) : SplitFrom d single n st.2 where
  count := h.count
  routed sid c k hs hk := by
    obtain rfl := corpusAt_some hs
    obtain ⟨text, htext⟩ := (rowOf_isSome_iff ((h.built sid).bounded hz).refines.readable).mp hk
    exact h.home hz htext
  gathered := .of_view (fun c hc => (h.readable hz hc).1) hr fun k text => by rw [← hview, h.view hz hn]
  reads k hk := by
    obtain ⟨text, htext⟩ := (rowOf_isSome_iff hr).mp hk
    have hshard := (h.text hz k).trans ((hview k text).mpr htext)
    rw [ShardedConCorpus.getFrameText, h.count, shard_of_text hshard, toOption_eq_some.mp htext]
    exact toOption_eq_some.mp hshard

def splitSource : String := "split-from-single"

theorem split_jobs_nodup (c : ConCorpus F) (source : String) : ((envJobs source c).map CopyJob.trajId).Nodup := by
  rw [envJobs, List.map_map]
  exact byTraj_nodup _

theorem splits_spread (hg : Compresses d) (hl : LineBased d) (hn : n ≠ 0) {Ls : Texts} (hb : Built d single Ls)
    (hj : Joinable d single) : ∃ st L, (envJobs splitSource single).foldlM (splitTraj d (fun _ => none) fun _ => none)
      (0, ⟨n, fun _ => none⟩) = .ok st ∧ Spread d n st L ∧
        (∀ k text, L.entry k.trajId k.frameIdx.toNat = some text ↔ textAt d single k = some text) ∧
          ∀ t, Spliceable ((L t).getD []) := by
  obtain ⟨st, L, hrun, hspread, hwrote⟩ := Ledger.foldlM_writes (R := Spread d n)
    (f := splitTraj d (fun _ => none) fun _ => none)
    (fun job hm st L hst hnone => splitTraj_spread hg hn (copyable hg hl hb hj hm) hst hnone)
    (split_jobs_nodup single splitSource) (spread_start d n) fun _ _ => rfl
  have hblank (t : UInt64) (ss : List String) : L t = some ss ↔
      ∃ job ∈ [(⟨(), splitSource, single⟩ : Env Unit F)].flatMap Env.jobs, job.trajId = t ∧ jobTexts d job = ss := by
    rw [hwrote, List.flatMap_singleton]
    exact or_iff_right (by simp [Ledger.blank])
  refine ⟨st, L, hrun, hspread, fun k text => ?_, fun t => ?_⟩
  · rw [entry_of_jobs hg.lossless (by simpa using ⟨Ls, hb⟩) hblank]
    simp
  · cases ht : L t with
    | none => exact spliceable_nil
    | some ss =>
      obtain ⟨job, hm, rfl, rfl⟩ := (hblank t ss).mp ht
      rw [List.flatMap_singleton] at hm
      rw [Option.getD_some, jobTexts, (mem_envJobs hm).1]
      exact hj job.trajId

theorem splits_grow (hg : Compresses d) (hn : n ≠ 0) {jobs : List (CopyJob F)} {st st' : Sharding F}
    (h : jobs.foldlM (splitTraj d (fun _ => none) fun _ => none) st = .ok st') (hs : st.2.nShards = n) {sid : UInt32} {b : Bytes}
    (hb : b ∈ (st.2.corpusAt sid).frames) : b ∈ (st'.2.corpusAt sid).frames := by
  have hall : st'.2.nShards = n ∧ b ∈ (st'.2.corpusAt sid).frames := by
    refine foldlM_preserves (I := fun s : Sharding F => s.2.nShards = n ∧ b ∈ (s.2.corpusAt sid).frames)
      (fun s job s' _ hi hc => ?_) ⟨hs, hb⟩ h
    obtain ⟨_, _, ss, next, _, _, happ, rfl⟩ := splitTraj_appended hg hn hi.1 hc
    refine ⟨hi.1, ?_⟩
    show b ∈ ((s.2.put _ next).corpusAt sid).frames
    rw [ShardedConCorpus.corpusAt_put]
    split
    · next hsid => exact (happ.frames b).mpr (.inl (hsid ▸ hi.2))
    · exact hi.2
  exact hall.2

theorem splits_pasted (hg : Compresses d) (hn : n ≠ 0) {jobs : List (CopyJob F)} (hd : (jobs.map CopyJob.trajId).Nodup)
    {st : Sharding F}
    (h : jobs.foldlM (splitTraj d (fun _ => none) fun _ => none) (0, ⟨n, fun _ => none⟩) = .ok st)
    (hsmall : ∀ sid (k : FrameKey), k.toBytes.val ∈ (st.2.corpusAt sid).frames → k.frameIdx.toNat + 1 < 2 ^ 32) :
    ∃ L, Spread d n st L ∧ ∀ job ∈ jobs, ∃ ss, L job.trajId = some ss ∧ ss.length < 2 ^ 32 ∧ Pasted d job ss := by
  obtain ⟨L, hL, _, hall⟩ := Ledger.foldlM_wrote (P := fun job ss => ss.length < 2 ^ 32 ∧ Pasted d job ss) hd
    (spread_start d n) h fun job before mid L rest hst hmid hrest => by
      obtain ⟨concat, nf, ss, next, hconcat, hok, happ, rfl⟩ := splitTraj_appended hg hn hst.count hmid
      have hlt := happ.counted fun k hk => by
        refine hsmall (shardForTraj job.trajId n) k (splits_grow hg hn hrest hst.count ?_)
        rw [ShardedConCorpus.corpusAt_put, if_pos rfl]
        exact hk
      refine ⟨ss, hst.write ((hst.built _).appended happ.cut hlt hok) (append_compress hok), hlt, ⟨concat, hconcat, happ.cut⟩, ?_⟩
      exact happ.packs (hst.compress _)
  exact ⟨L, hL, hall⟩

theorem joinable_of_split (hg : Compresses d) (hl : LineBased d) (hn : n ≠ 0) {Ls : Texts} (hb : Built d single Ls)
    {st : Sharding F} (hrun : (envJobs splitSource single).foldlM (splitTraj d (fun _ => none) fun _ => none)
      (0, ⟨n, fun _ => none⟩) = .ok st) (hs : SplitFrom d single n st.2) : Joinable d single := by
  have hr := (hb.bounded hg.lossless).refines
  have hpart {sid : UInt32} {k : FrameKey} (hk : k.toBytes.val ∈ (st.2.corpusAt sid).frames) :
      ∃ c ∈ st.2.parts, k.toBytes.val ∈ c.frames := by
    cases hsh : st.2.shards sid with
    | none => simp [ShardedConCorpus.corpusAt, hsh, ConCorpus.empty] at hk
    | some c =>
      obtain rfl := corpusAt_some hsh
      have hlt : sid < st.2.nShards := by
        rw [hs.count, ← hs.routed sid _ k hsh hk]
        exact shardForTraj_lt k.trajId hn
      exact ⟨_, List.mem_map_of_mem (st.2.mem_withData.mpr (show (sid, st.2.corpusAt sid).1 < _ ∧ _ from ⟨hlt, hsh⟩)), hk⟩
  obtain ⟨L, hL, hpasted⟩ := splits_pasted hg hn (split_jobs_nodup single splitSource) hrun fun sid k hk =>
    hr.small_key ((hs.gathered.keys _).mpr (hpart hk))
  have hread : ∀ c ∈ st.2.parts, Readable d c := fun c hc => (hL.readable hg.lossless hc).1
  refine joinable_of_jobs splitSource fun job hj => ?_
  obtain ⟨ss, hss, hlt, hp⟩ := hpasted job hj
  refine hp.spliceable hl hr hj hlt fun i => ?_
  ext text
  rw [hs.gathered.view hread hr.readable, ← hL.view hg.lossless hn ⟨job.trajId, i⟩, Ledger.entry, hss, Option.bind_some]

theorem Gathers.same {parts : List (ConCorpus F)} {a b : ConCorpus F} (h : Gathers d parts a) (h' : Gathers d parts b)
    (hp : ∀ c ∈ parts, Readable d c) (ha : Readable d a) (hb : Readable d b) : SameFrames d a b where
  keys x := (h'.keys x).trans (h.keys x).symm
  texts k s := by rw [← toOption_eq_some, ← toOption_eq_some, ← textAt, ← textAt, h'.view hp hb, h.view hp ha]

variable (d) in
def Rejoins (c : ConCorpus F) : Prop :=
  ∀ (n : UInt32) (dst dst' : String), n ≠ 0 → ∃ nf s nf' whole,
    splitSingleToSharded d (fun _ => none) (fun _ => none) none c dst false n = (.ok nf, .holds s) ∧ SplitFrom d c n s ∧
      joinToSingleEnv d none (fun _ => none) s dst' false = (.ok nf', .holds whole) ∧ SameFrames d c whole

theorem shards_apart {s : ShardedConCorpus F} (hs : SplitFrom d single n s) : ¬ Collides (shardEnvs s) := by
  rintro ⟨e, he, e', he', hne, k, hk, k', hk', ht⟩
  obtain ⟨x, hx, rfl⟩ := List.mem_map.mp he
  obtain ⟨x', hx', rfl⟩ := List.mem_map.mp he'
  have hhome := hs.routed _ _ k (s.mem_withData.mp hx).2 (mem_listFrameKeys.mp hk)
  have hhome' := hs.routed _ _ k' (s.mem_withData.mp hx').2 (mem_listFrameKeys.mp hk')
  exact hne (hhome.symm.trans ((congrArg (shardForTraj · n) ht).trans hhome'))

theorem split_run (c : ConCorpus F) (dst : String) (hn : n ≠ 0) :
    splitSingleToSharded d (fun _ => none) (fun _ => none) none c dst false n =
      rollbackNewRoot ((envJobs splitSource c).foldlM (splitTraj d (fun _ => none) fun _ => none) (0, ⟨n, fun _ => none⟩)) := by
  rw [splitSingleToSharded, if_neg hn, if_neg Bool.false_ne_true]
  rfl

theorem rejoins (hg : Compresses d) (hl : LineBased d) (hb : ∃ L, Built d single L) (hj : Joinable d single) :
    Rejoins d single := by
  intro n dst dst' hn
  obtain ⟨Ls, hLs⟩ := hb
  obtain ⟨st, L, hrun, hspread, hview, hsplice⟩ := splits_spread hg hl hn hLs hj
  have hr := (hLs.bounded hg.lossless).refines.readable
  have hs := hspread.splitFrom hg.lossless hn hr hview
  have henv : ∀ e ∈ shardEnvs st.2, ∃ sid, e.corpus = st.2.corpusAt sid := by
    intro e he
    obtain ⟨x, hx, rfl⟩ := List.mem_map.mp he
    exact ⟨x.1, (corpusAt_some (st.2.mem_withData.mp hx).2).symm⟩
  have hbuilt : ∀ e ∈ shardEnvs st.2, ∃ L, Built d e.corpus L := by
    intro e he
    obtain ⟨sid, hsid⟩ := henv e he
    exact ⟨_, hsid ▸ hspread.built sid⟩
  have hjoinable : ∀ e ∈ shardEnvs st.2, Joinable d e.corpus := by
    intro e he t
    obtain ⟨sid, hsid⟩ := henv e he
    rw [hsid, trajTexts_eq ((hspread.built sid).bounded hg.lossless).refines, shareOf]
    split
    · exact hsplice t
    · exact spliceable_nil
  have hpreview : ∃ held, previewEnvs UInt32.toUInt64 (shardEnvs st.2) = .ok held := previewEnvs_apart (shards_apart hs)
  obtain ⟨held, hheld⟩ := hpreview
  obtain ⟨out, hout, hcopied⟩ := copies_gather collision hg hl hbuilt (shardEnvs_places st.2) (shards_apart hs) hjoinable
  obtain ⟨Lw, hLw⟩ := hcopied.built
  have hparts : (shardEnvs st.2).map Env.corpus = st.2.parts := by
    rw [shardEnvs, List.map_map]
    rfl
  refine ⟨st.1, st.2, out.2.1, out.2.2, ?_, hs, ?_, ?_⟩
  · rw [split_run single dst hn, hrun]
    rfl
  · rw [single_copies d st.2 dst' ((single_preview st.2).trans hheld)]
    exact congrArg rollbackNewDest hout
  · exact hs.gathered.same (hparts ▸ hcopied.gathers) (fun c hc => (hspread.readable hg.lossless hc).1) hr
      (hLw.bounded hg.lossless).refines.readable

end Shards

section Preservation

variable {F P : Type} [Float64 F] (d : Crates F)

def Joined (parts : List (ConCorpus F)) (out : Result UInt32 × Dest F) : Prop :=
  ∃ n whole, out = (.ok n, .holds whole) ∧ Gathers d parts whole ∧ Rejoins d whole

def SplitsInto (single : ConCorpus F) (n : UInt32) (out : Result UInt32 × SplitDest F) : Prop :=
  ∃ nf s, out = (.ok nf, .holds s) ∧ SplitFrom d single n s

structure Apart (envs : List (Env P F)) : Prop where
  built : ∀ e ∈ envs, ∃ L, Built d e.corpus L
  distinct : ¬ Collides envs

structure KeepsJoinable (d : Crates F) : Prop where
  single : ∀ (s : ShardedConCorpus F) dst, Apart d (shardEnvs s) →
    (Joined d ((shardEnvs s).map Env.corpus) (joinToSingleEnv d none (fun _ => none) s dst false) ↔
      ∀ e ∈ shardEnvs s, Joinable d e.corpus)
  drained : ∀ (roots : List (String × ShardedConCorpus F)) dst, roots ≠ [] → Apart d (rootEnvs (roots.map Prod.snd)) →
    (Joined d ((rootEnvs (roots.map Prod.snd)).map Env.corpus)
      (joinDrainedRoots d none (fun _ => none) (present roots) dst false) ↔
        ∀ e ∈ rootEnvs (roots.map Prod.snd), Joinable d e.corpus)
  dirs : ∀ (sources : List (String × ConCorpus F)) dst, Apart d (corpusEnvs sources) →
    (Joined d ((corpusEnvs sources).map Env.corpus) (joinCorpusDirs d none (fun _ => none) (present sources) dst false) ↔
      ∀ e ∈ corpusEnvs sources, Joinable d e.corpus)
  split : ∀ (c : ConCorpus F) n dst, (∃ L, Built d c L) → n ≠ 0 →
    (SplitsInto d c n (splitSingleToSharded d (fun _ => none) (fun _ => none) none c dst false n) ↔ Joinable d c)

variable {d} {envs : List (Env P F)} {repeated : UInt64 → Error}

theorem joined_iff (hg : Compresses d) (hl : LineBased d) (hplaces : (envs.map Env.place).Nodup) (ha : Apart d envs)
    {out : Result UInt32 × Dest F} (hout : out = rollbackNewDest (do
      (envs.flatMap Env.jobs).foldlM (copyJob d (fun _ => none) repeated) (← openDest none))) :
    Joined d (envs.map Env.corpus) out ↔ ∀ e ∈ envs, Joinable d e.corpus := by
  have hrun : out = rollbackNewDest ((envs.flatMap Env.jobs).foldlM (copyJob d (fun _ => none) repeated)
      (∅, 0, ConCorpus.empty F)) := hout
  constructor
  · rintro ⟨n, whole, he, hgather, _⟩
    rw [hrun] at he
    cases hfold : (envs.flatMap Env.jobs).foldlM (copyJob d (fun _ => none) repeated) (∅, 0, ConCorpus.empty F) with
    | error e =>
      rw [hfold] at he
      cases (Prod.mk.inj he).1
    | ok st =>
      rw [hfold] at he
      obtain rfl : st.2.2 = whole := Dest.holds.inj (Prod.mk.inj he).2
      exact joinable_of_copied hg hl ha.built hplaces ha.distinct hfold hgather
  · intro hj
    obtain ⟨st, hfold, hcopied⟩ := copies_gather repeated hg hl ha.built hplaces ha.distinct hj
    refine ⟨st.2.1, st.2.2, ?_, hcopied.gathers, rejoins hg hl hcopied.built hcopied.joinable⟩
    rw [hrun, hfold]
    rfl

theorem splits_iff (hg : Compresses d) (hl : LineBased d) {c : ConCorpus F} (hb : ∃ L, Built d c L) {n : UInt32}
    (hn : n ≠ 0) (dst : String) :
    SplitsInto d c n (splitSingleToSharded d (fun _ => none) (fun _ => none) none c dst false n) ↔ Joinable d c := by
  obtain ⟨L, hL⟩ := hb
  rw [split_run c dst hn]
  constructor
  · rintro ⟨nf, s, he, hs⟩
    cases hfold : (envJobs splitSource c).foldlM (splitTraj d (fun _ => none) fun _ => none) (0, ⟨n, fun _ => none⟩) with
    | error e =>
      rw [hfold] at he
      cases (Prod.mk.inj he).1
    | ok st =>
      rw [hfold] at he
      obtain rfl : st.2 = s := SplitDest.holds.inj (Prod.mk.inj he).2
      exact joinable_of_split hg hl hn hL hfold hs
  · intro hj
    obtain ⟨st, Ls, hfold, hspread, hview, _⟩ := splits_spread hg hl hn hL hj
    have hr := (hL.bounded hg.lossless).refines.readable
    refine ⟨st.1, st.2, ?_, hspread.splitFrom hg.lossless hn hr hview⟩
    rw [hfold]
    rfl

theorem join_split_keep_iff (hg : Compresses d) (hl : LineBased d) : KeepsJoinable d where
  single s dst ha := by
    have hpreview : ∃ held, previewEnvs UInt32.toUInt64 (shardEnvs s) = .ok held := previewEnvs_apart ha.distinct
    obtain ⟨held, hheld⟩ := hpreview
    exact joined_iff hg hl (shardEnvs_places s) ha (single_copies d s dst ((single_preview s).trans hheld) none _)
  drained roots dst hne ha := by
    have hpreview : ∃ held, previewEnvs (fun p => shardOwner p.1 p.2) (rootEnvs (roots.map Prod.snd)) = .ok held :=
      previewEnvs_apart ha.distinct
    obtain ⟨held, hheld⟩ := hpreview
    exact joined_iff hg hl (rootEnvs_places _) ha (drained_copies d hne dst ((drained_preview _).trans hheld) none _)
  dirs sources dst ha := by
    have hpreview : ∃ held, previewEnvs UInt64.ofNat (corpusEnvs sources) = .ok held := previewEnvs_apart ha.distinct
    obtain ⟨held, hheld⟩ := hpreview
    exact joined_iff hg hl (corpusEnvs_places sources) ha
      (dirs_copies d sources dst ((dirs_preview sources).trans hheld) none _)
  split c n dst hb hn := splits_iff hg hl hb hn dst

end Preservation

section Bare

section Catalog

variable {F : Type} [Float64 F] [DecidableEq F] {k : Catalog F} {d : Crates F}

theorem Catalog.cuts_eq_some {text : String} {ss : List String} : cuts (k.crates d) text = some ss ↔
    ∃ es : List (Entry F), k.readFrom text.toList.length text.toList = es.map Except.ok ∧ es.map Prod.snd = ss := by
  rw [ReadconDb.cuts_eq_some]
  refine exists_congr fun es => and_congr_left fun _ => ?_
  have hinj : Function.Injective (Except.mapError Error.parse : Except String (Entry F) → Result (Entry F)) := by
    rintro (e | x) (e' | y) h
    · exact congrArg Except.error (Error.parse.inj (Except.error.inj h))
    · cases h
    · cases h
    · exact congrArg Except.ok (Except.ok.inj h)
  have hok : es.map Except.ok = (es.map Except.ok).map (Except.mapError Error.parse : Except String (Entry F) → _) := by
    rw [List.map_map]
    rfl
  rw [spans, hok, (List.map_injective_iff.mpr hinj).eq_iff]
  rfl

theorem Catalog.readFrom_tiles {n : Nat} {cs : List Char} {es : List (Entry F)} (hn : cs.length ≤ n)
    (h : k.readFrom n cs = es.map Except.ok) : es.flatMap Entry.chars = cs ∧ ∀ e ∈ es.dropLast, e.EndsLine := by
  induction n generalizing cs es with
  | zero =>
    obtain rfl := List.eq_nil_of_length_eq_zero (Nat.le_zero.mp hn)
    obtain rfl := List.map_eq_nil_iff.mp h.symm
    simp
  | succ n ih =>
    rw [readFrom] at h
    split at h
    · next hnil =>
      obtain rfl := List.map_eq_nil_iff.mp h.symm
      simp [hnil]
    · split at h
      · next e hf =>
        cases es with
        | nil => cases h
        | cons e' es =>
          rw [List.map_cons, List.cons.injEq] at h
          obtain ⟨he, h⟩ := h
          obtain rfl := Except.ok.inj he
          have hat : e.At cs := by simpa using List.find?_some hf
          obtain ⟨rest, rfl⟩ := hat.1
          have hpos := List.length_pos_iff.mpr (k.nonempty e (List.mem_of_find?_eq_some hf))
          rw [List.length_append] at hn
          rw [List.drop_left] at h
          obtain ⟨hflat, hlines⟩ := ih (by omega) h
          refine ⟨by rw [List.flatMap_cons, hflat], fun x hx => ?_⟩
          cases es with
          | nil => simp at hx
          | cons y es =>
            rw [List.dropLast_cons_cons] at hx
            rcases List.mem_cons.mp hx with rfl | hx
            · refine hat.2.resolve_right fun hall => ?_
              have hrest : rest = [] := List.self_eq_append_right.mp hall
              subst hrest
              have hy : .ok y ∈ k.readFrom n [] := h ▸ List.mem_map_of_mem List.mem_cons_self
              have hyn := k.nonempty y (readFrom_mem hy)
              simp [hyn] at hflat
            · exact hlines x hx
      · next hf =>
        cases es with
        | nil => cases h
        | cons e' es => cases (List.cons.inj h).1

theorem Catalog.lineBased (hw : ∀ f e, (k.entries.find? fun e => e.1 = f) = some e → e.EndsLine) :
    LineBased (k.crates d) where
  exact {text ss} h := by
    obtain ⟨es, hes, rfl⟩ := cuts_eq_some.mp h
    have htiles := (readFrom_tiles le_rfl hes).1
    rw [← String.toList_inj, ← htiles, String.toList_join, List.flatMap_map]
    rfl
  closes {text ss} h s hs := by
    obtain ⟨es, hes, rfl⟩ := cuts_eq_some.mp h
    rw [← List.map_dropLast] at hs
    obtain ⟨e, he, rfl⟩ := List.mem_map.mp hs
    exact (readFrom_tiles le_rfl hes).2 e he
  rejoins {ss} h := by
    have hpick : ∀ s ∈ ss, ∃ e ∈ k.entries, e.EndsLine ∧ e.2 = s := by
      intro s hs
      obtain ⟨⟨text, pieces, ht, hm⟩, hline⟩ := h s hs
      obtain ⟨es, hes, rfl⟩ := cuts_eq_some.mp ht
      obtain ⟨e, he, rfl⟩ := List.mem_map.mp hm
      exact ⟨e, readFrom_mem (hes ▸ List.mem_map_of_mem he), hline, rfl⟩
    obtain ⟨es, hes, rfl⟩ : ∃ es : List (Entry F), (∀ e ∈ es, e ∈ k.entries ∧ e.EndsLine) ∧ es.map Prod.snd = ss := by
      clear h
      induction ss with
      | nil => exact ⟨[], by simp, rfl⟩
      | cons s ss ih =>
        obtain ⟨e, he, hline, hs⟩ := hpick s (by simp)
        obtain ⟨es, hes, hss⟩ := ih fun s' hs' => hpick s' (by simp [hs'])
        refine ⟨e :: es, fun x hx => ?_, by rw [List.map_cons, hs, hss]⟩
        rcases List.mem_cons.mp hx with rfl | hx
        · exact ⟨he, hline⟩
        · exact hes x hx
    exact cuts_eq_some.mpr ⟨es, conFrames_entries (d := d) hes, rfl⟩
  written {f x} h := by
    simp only [serialize, crates] at h
    cases hf : k.entries.find? fun e => e.1 = f with
    | none => simp [hf] at h
    | some e =>
      simp only [hf, ofUtf8_utf8, Except.ok.injEq] at h
      subst h
      have he := List.mem_of_find?_eq_some hf
      exact ⟨⟨e.2, [e.2], cuts_eq_some.mpr ⟨[e], conFrames_last (d := d) he, rfl⟩, by simp⟩, hw f e hf⟩

end Catalog

theorem hydrogenNm_endsLine : hydrogenNm.EndsLine := by
  simp only [Entry.EndsLine, Entry.chars, hydrogenNm, String.toList_join]
  decide +kernel

theorem heliumNm_endsLine : heliumNm.EndsLine := by
  simp only [Entry.EndsLine, Entry.chars, heliumNm, String.toList_join]
  decide +kernel

theorem hydrogenBare_open : ¬ hydrogenBare.EndsLine := by
  simp only [Entry.EndsLine, Entry.chars, hydrogenBare, String.toList_join]
  decide +kernel

-- The writer closes its last line, which a file may leave open.
theorem tiny_lineBased : LineBased tiny := by
  refine Catalog.lineBased fun f e hf => ?_
  have he := List.mem_of_find?_eq_some hf
  have hef : e.1 = f := by simpa using List.find?_some hf
  simp only [tinyCatalog, tinyEntries, List.mem_cons, List.not_mem_nil, or_false] at he
  rcases he with rfl | rfl | rfl | rfl | rfl
  · exact hydrogen_endsLine
  · exact helium_endsLine
  · have hfirst : (tinyCatalog.entries.find? fun e => e.1 = f) = some hydrogen := by
      subst hef
      exact List.find?_cons_of_pos (by decide +kernel)
    exact Option.some.inj (hf.symm.trans hfirst) ▸ hydrogen_endsLine
  · exact hydrogenNm_endsLine
  · exact heliumNm_endsLine

theorem tiny_compresses : Compresses tiny := ⟨tiny_lossless, fun b => ⟨tinyZstd ++ b, rfl⟩⟩

theorem tiny_join_split_keep : KeepsJoinable tiny := join_split_keep_iff tiny_compresses tiny_lineBased

theorem tiny_cuts {e : Entry Bits} (he : e ∈ tinyCatalog.entries) : cuts tiny e.2 = some [e.2] :=
  Catalog.cuts_eq_some.mpr ⟨[e], Catalog.conFrames_last (d := tinyBase) he, rfl⟩

theorem packs_one (s : String) : ∀ run ∈ (numbered [s]).splitBy sameGroup, 2 ≤ run.length → ShortTexts run :=
  have hone : [s].length < 2 := by simp
  fun _ hrun h2 => absurd (runs_few hone hrun) (by omega)

-- A file that leaves its last line open, and a frame added after it.
theorem bare_extended : ∃ c L, Built tiny c L ∧ L 0 = some [hydrogenBare.2, helium.2] := by
  obtain ⟨nf, c, _, hc⟩ := Built.append (t := 0) (c := ConCorpus.empty Bits) .empty tiny_compresses rfl
    (tiny_cuts hydrogenBare_mem) (by simp) (packs_one _) "bare.con"
  have hcount : countOf c.trajMeta[(0 : UInt64)]? = 1 := by
    have hn := (hc.bounded tiny_lossless).refines.countOf 0
    rw [Ledger.count, Ledger.write_self] at hn
    exact UInt32.toNat_inj.mp hn
  have hx : [helium.1].map (serialize tiny tiny.defaultFormat) = [helium].map Except.ok := by
    rw [List.map_singleton, serialize_helium]
    rfl
  obtain ⟨qs, m, _, _, hexec⟩ := extendFrames_total (tiny_packs (by simp)) hcount hx "bare.con"
  have hfits : (Op.extendFrames 0 [helium.1] "bare.con").Fits tiny c := by
    show (countOf c.trajMeta[(0 : UInt64)]?).toNat + 1 < 2 ^ 32
    rw [hcount]
    decide
  have hrun := Reached.step (.extendFrames 0 [helium.1] "bare.con") Verdicts.granted hc ⟨trivial, hfits⟩
  refine ⟨_, _, hrun, ?_⟩
  have htexts : frameTexts tiny tiny.defaultFormat [helium.1] = [helium.2] := by
    rw [frameTexts, hx, okTexts_ok]
    rfl
  rw [hexec, Op.assign, htexts, Ledger.extend, Ledger.write_self, Ledger.write_self]
  rfl

def loneShard (c : ConCorpus Bits) : ShardedConCorpus Bits := ⟨1, fun _ => some c⟩

theorem loneShard_envs (c : ConCorpus Bits) : shardEnvs (loneShard c) = [⟨0, shardSource 0, c⟩] := rfl

theorem bare_not_kept : ∃ c L, Built tiny c L ∧ Apart tiny (shardEnvs (loneShard c)) ∧
    ¬ Joined tiny [c] (joinToSingleEnv tiny none (fun _ => none) (loneShard c) "joined" false) := by
  obtain ⟨c, L, hc, hL⟩ := bare_extended
  have ha : Apart tiny (shardEnvs (loneShard c)) := by
    rw [loneShard_envs]
    constructor
    · simpa using ⟨L, hc⟩
    · rintro ⟨e, he, e', he', hne, _⟩
      rw [List.mem_singleton] at he he'
      exact hne (he.trans he'.symm ▸ rfl)
  have hpreview : ∃ held, previewEnvs UInt32.toUInt64 (shardEnvs (loneShard c)) = .ok held := previewEnvs_apart ha.distinct
  obtain ⟨held, hheld⟩ := hpreview
  refine ⟨c, L, hc, ha, fun hjoined => hydrogenBare_open ?_⟩
  have hj := (joined_iff tiny_compresses tiny_lineBased (shardEnvs_places _) ha
    (single_copies tiny (loneShard c) "joined" ((single_preview _).trans hheld) none _)).mp hjoined
  have hlines := (hj ⟨0, shardSource 0, c⟩ (by simp [loneShard_envs]) 0).lines
  rw [trajTexts_eq (hc.bounded tiny_lossless).refines, hL] at hlines
  exact hlines hydrogenBare.2 (by simp)

end Bare

end ReadconDb
