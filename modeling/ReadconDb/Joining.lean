import ReadconDb.Sharding
import ReadconDb.Store
import ReadconDb.Library.Ownership

set_option linter.unusedSectionVars false

namespace ReadconDb

open ByteString Outcome OrderedTable TwoPhase Ownership

inductive Dest (F : Type) where
  | untouched
  | removed
  | holds (c : ConCorpus F)

structure Source (R : Type) where
  display : String
  found : Option R

structure CopyJob (F : Type) where
  source : String
  corpus : ConCorpus F
  trajId : UInt64
  keys : List FrameKey

section Grouping

abbrev Owners := Std.ExtTreeMap UInt64 UInt64 compare

def collision (trajId : UInt64) : Error :=
  .message ("traj_id " ++ toString trajId ++ " appears in multiple shards or join sources")

def duplicateTraj (trajId : UInt64) : Error :=
  .message ("duplicate traj_id " ++ toString trajId ++ " across join sources")

def previewTraj (preview : Owners) (trajId owner : UInt64) : Result Owners :=
  match preview[trajId]? with
  | some held => if held ≠ owner then .error (collision trajId) else .ok preview
  | none => .ok (preview.insert trajId owner)

theorem previewTraj_eq (preview : Owners) (trajId owner : UInt64) :
    previewTraj preview trajId owner = claim collision preview (trajId, owner) := by
  rw [previewTraj, claim]
  cases preview[trajId]? <;> rfl

def trajGroups (keys : List FrameKey) : Std.ExtTreeMap UInt64 (List FrameKey) compare :=
  keys.foldl (fun m fk => m.insert fk.trajId ((m[fk.trajId]?).getD [] ++ [fk])) ∅

def byTraj (keys : List FrameKey) : List (UInt64 × List FrameKey) := (trajGroups keys).toList

theorem foldl_trajGroups (keys : List FrameKey) (m : Std.ExtTreeMap UInt64 (List FrameKey) compare) (t : UInt64) :
    (keys.foldl (fun m fk => m.insert fk.trajId ((m[fk.trajId]?).getD [] ++ [fk])) m)[t]? =
      if keys.filter (fun k => k.trajId == t) = [] then m[t]?
      else some ((m[t]?).getD [] ++ keys.filter fun k => k.trajId == t) := by
  induction keys generalizing m with
  | nil => rfl
  | cons k keys ih =>
    rw [List.foldl_cons, ih, Std.ExtTreeMap.getElem?_insert]
    by_cases hk : k.trajId = t
    · subst hk
      rw [List.filter_cons_of_pos (by simp), if_neg (List.cons_ne_nil _ _)]
      split
      · next h => simp [h]
      · simp
    · rw [List.filter_cons_of_neg (by simpa using hk)]
      simp [hk]

theorem trajGroups_get (keys : List FrameKey) (t : UInt64) :
    (trajGroups keys)[t]? = if keys.filter (fun k => k.trajId == t) = [] then none
      else some (keys.filter fun k => k.trajId == t) := by
  rw [trajGroups, foldl_trajGroups]
  simp

theorem mem_byTraj {keys fks : List FrameKey} {t : UInt64} :
    (t, fks) ∈ byTraj keys ↔ fks ≠ [] ∧ fks = keys.filter fun k => k.trajId == t := by
  rw [byTraj, Std.ExtTreeMap.mem_toList_iff_getElem?_eq_some, trajGroups_get]
  split
  · next h => simp [h]
  · next h =>
    rw [Option.some.injEq]
    constructor
    · rintro rfl
      exact ⟨h, rfl⟩
    · rintro ⟨_, rfl⟩
      rfl

theorem byTraj_nodup (keys : List FrameKey) : ((byTraj keys).map Prod.fst).Nodup := by
  rw [List.Nodup, List.pairwise_map]
  exact Std.ExtTreeMap.distinct_keys_toList.imp fun h he => h (by rw [he]; exact Std.ReflCmp.compare_self)

theorem byTraj_mem_keys {keys : List FrameKey} {t : UInt64} (h : t ∈ (byTraj keys).map Prod.fst) :
    ∃ k ∈ keys, k.trajId = t := by
  obtain ⟨⟨_, fks⟩, he, rfl⟩ := List.mem_map.mp h
  obtain ⟨hne, rfl⟩ := mem_byTraj.mp he
  obtain ⟨k, hk⟩ := List.exists_mem_of_ne_nil _ hne
  rw [List.mem_filter, beq_iff_eq] at hk
  exact ⟨k, hk⟩

end Grouping

section Joins

variable {F : Type} [Float64 F] (d : Crates F) (opened : Option Error) (refused : UInt64 → Option Error)

def previewKeys (owner : UInt64) (c : ConCorpus F) (preview : Owners) : Result Owners :=
  (listFrameKeys c).foldlM (fun preview fk => previewTraj preview fk.trajId owner) preview

def concatTexts (c : ConCorpus F) (fks : List FrameKey) : Result String :=
  fks.foldlM (fun concat fk => do return concat ++ (← getFrameText d c fk)) ""

def copyTraj (st : UInt32 × ConCorpus F) (job : CopyJob F) : Result (UInt32 × ConCorpus F) := do
  let concat ← concatTexts d job.corpus job.keys.mergeSort
  match appendTrajectoryStr d (refused job.trajId) st.2 st.2 job.trajId concat job.source with
  | (.error e, _) => .error e
  | (.ok nf, out) => return (st.1 + nf, out)

abbrev Copying (F : Type) := Finset UInt64 × UInt32 × ConCorpus F

def envJobs (source : String) (c : ConCorpus F) : List (CopyJob F) :=
  (byTraj (listFrameKeys c)).map fun e => ⟨source, c, e.1, e.2⟩

def copyJob (repeated : UInt64 → Error) : Copying F → CopyJob F → Result (Copying F) :=
  visit CopyJob.trajId repeated (copyTraj d refused)

def shardSource (sid : UInt32) : String := "join-from-shard-" ++ toString sid

def appendShardedInto (sh : ShardedConCorpus F) (st : Copying F) : Result (Copying F) :=
  sh.withData.foldlM (fun st e => (envJobs (shardSource e.1) e.2).foldlM (copyJob d refused collision) st) st

def openDest : Result (Copying F) :=
  match opened with
  | some e => .error e
  | none => .ok (∅, 0, ConCorpus.empty F)

def rollbackNewDest : Result (Copying F) → Result UInt32 × Dest F
  | .ok st => (.ok st.2.1, .holds st.2.2)
  | .error e => (.error e, .removed)

def previewShards (s : ShardedConCorpus F) : Result Owners :=
  s.withData.foldlM (fun preview e => previewKeys e.1.toUInt64 e.2 preview) ∅

def joinToSingleEnv (s : ShardedConCorpus F) (dst : String) (dstExists : Bool) : Result UInt32 × Dest F :=
  if dstExists then (.error (.message ("join dest exists: " ++ dst)), .untouched)
  else match previewShards s with
    | .error e => (.error e, .untouched)
    | .ok _ => rollbackNewDest (do appendShardedInto d refused s (← openDest opened))

def shardOwner (si : Nat) (sid : UInt32) : UInt64 := UInt64.ofNat si <<< 32 ||| sid.toUInt64

def previewRoots (roots : List (ShardedConCorpus F)) : Result Owners :=
  roots.zipIdx.foldlM (fun preview r =>
    r.1.withData.foldlM (fun preview e => previewKeys (shardOwner r.2 e.1) e.2 preview) preview) ∅

def Source.require {R : Type} (missing : String) (src : Source R) : Result R :=
  match src.found with
  | some r => .ok r
  | none => .error (.message (missing ++ src.display))

def joinDrainedRoots (sources : List (Source (ShardedConCorpus F))) (dst : String) (dstExists : Bool) :
    Result UInt32 × Dest F :=
  if sources = [] then (.error (.message "join-drained: no sources"), .untouched)
  else if dstExists then (.error (.message ("join-drained dest exists: " ++ dst)), .untouched)
  else match sources.mapM (Source.require "join-drained: missing shards.json: ") with
    | .error e => (.error e, .untouched)
    | .ok roots =>
      match previewRoots roots with
      | .error e => (.error e, .untouched)
      | .ok _ => rollbackNewDest (do roots.foldlM (fun st sh => appendShardedInto d refused sh st) (← openDest opened))

def previewCorpora (corpora : List (ConCorpus F)) : Result Owners :=
  corpora.zipIdx.foldlM (fun preview c => previewKeys (UInt64.ofNat c.2) c.1 preview) ∅

def joinCorpusDirs (sources : List (Source (ConCorpus F))) (dst : String) (dstExists : Bool) : Result UInt32 × Dest F :=
  if dstExists then (.error (.message ("join dest exists: " ++ dst)), .untouched)
  else match sources.mapM (Source.require "join: missing data.mdb: ") with
    | .error e => (.error e, .untouched)
    | .ok corpora =>
      match previewCorpora corpora with
      | .error e => (.error e, .untouched)
      | .ok _ => rollbackNewDest (do
          ((sources.map Source.display).zip corpora).foldlM
            (fun st e => (envJobs e.1 e.2).foldlM (copyJob d refused duplicateTraj) st) (← openDest opened))

end Joins

section Exact

structure Env (P F : Type) where
  place : P
  source : String
  corpus : ConCorpus F

def Env.jobs {P F : Type} (e : Env P F) : List (CopyJob F) := envJobs e.source e.corpus

variable {F P : Type}

def Collides (envs : List (Env P F)) : Prop :=
  ∃ e ∈ envs, ∃ e' ∈ envs, e.place ≠ e'.place ∧
    ∃ k ∈ listFrameKeys e.corpus, ∃ k' ∈ listFrameKeys e'.corpus, k.trajId = k'.trajId

def ownerClaims (owner : P → UInt64) (envs : List (Env P F)) : List (UInt64 × UInt64) :=
  envs.flatMap fun e => (listFrameKeys e.corpus).map fun k => (k.trajId, owner e.place)

def previewEnvs (owner : P → UInt64) (envs : List (Env P F)) : Result Owners :=
  envs.foldlM (fun preview e => previewKeys (owner e.place) e.corpus preview) ∅

theorem previewEnvs_eq (owner : P → UInt64) (envs : List (Env P F)) :
    previewEnvs owner envs = (ownerClaims owner envs).foldlM (claim collision) ∅ := by
  rw [ownerClaims, ← foldlM_flatMap]
  refine congrArg (fun f => List.foldlM f ∅ envs) (funext fun preview => funext fun e => ?_)
  simp only [previewKeys, List.foldlM_map, previewTraj_eq]

variable {owner : P → UInt64} {envs : List (Env P F)}

theorem mem_ownerClaims {c : UInt64 × UInt64} : c ∈ ownerClaims owner envs ↔
    ∃ e ∈ envs, ∃ k ∈ listFrameKeys e.corpus, (k.trajId, owner e.place) = c := by
  rw [ownerClaims, List.mem_flatMap]
  simp only [List.mem_map]

theorem agree_of_apart (h : ¬ Collides envs) : Agree (ownerClaims owner envs) := by
  intro c hc c' hc' ht
  obtain ⟨e, he, k, hk, rfl⟩ := mem_ownerClaims.mp hc
  obtain ⟨e', he', k', hk', rfl⟩ := mem_ownerClaims.mp hc'
  by_contra hne
  exact h ⟨e, he, e', he', fun hp => hne (congrArg owner hp), k, hk, k', hk', ht⟩

theorem agree_iff (hinj : ∀ e ∈ envs, ∀ e' ∈ envs, owner e.place = owner e'.place → e.place = e'.place) :
    Agree (ownerClaims owner envs) ↔ ¬ Collides envs := by
  constructor
  · rintro hagree ⟨e, he, e', he', hne, k, hk, k', hk', ht⟩
    have hclaim : (k.trajId, owner e.place) ∈ ownerClaims owner envs := mem_ownerClaims.mpr ⟨e, he, k, hk, rfl⟩
    have hclaim' : (k'.trajId, owner e'.place) ∈ ownerClaims owner envs := mem_ownerClaims.mpr ⟨e', he', k', hk', rfl⟩
    exact hne (hinj e he e' he' (hagree _ hclaim _ hclaim' ht))
  · exact agree_of_apart

theorem previewEnvs_apart (h : ¬ Collides envs) : ∃ held, previewEnvs owner envs = .ok held := by
  rw [previewEnvs_eq]
  exact (claims_ok_iff records_nil _).mpr (agree_of_apart h)

theorem previewEnvs_ok_iff (hinj : ∀ e ∈ envs, ∀ e' ∈ envs, owner e.place = owner e'.place → e.place = e'.place) :
    (∃ held, previewEnvs owner envs = .ok held) ↔ ¬ Collides envs := by
  rw [previewEnvs_eq, ← agree_iff hinj]
  exact claims_ok_iff records_nil _

theorem jobs_nodup (hplaces : (envs.map Env.place).Nodup) (h : ¬ Collides envs) :
    ((envs.flatMap Env.jobs).map CopyJob.trajId).Nodup := by
  have htraj (e : Env P F) : e.jobs.map CopyJob.trajId = (byTraj (listFrameKeys e.corpus)).map Prod.fst := by
    rw [Env.jobs, envJobs, List.map_map]
    rfl
  rw [List.map_flatMap, List.nodup_flatMap]
  constructor
  · intro e _
    rw [htraj]
    exact byTraj_nodup _
  · refine (List.pairwise_map.mp hplaces).imp_of_mem fun he he' hne => ?_
    rw [Function.onFun, htraj, htraj]
    intro t ht ht'
    obtain ⟨k, hk, rfl⟩ := byTraj_mem_keys ht
    obtain ⟨k', hk', hkk⟩ := byTraj_mem_keys ht'
    exact h ⟨_, he, _, he', hne, k, hk, k', hk', hkk.symm⟩

end Exact

section Copies

variable {F : Type} [Float64 F] {d : Crates F} {refused : UInt64 → Option Error} {repeated : UInt64 → Error}

def SeenOnly (st : Copying F) : Prop := ∀ t, t ∉ st.1 → st.2.2.trajMeta[t]? = none

theorem copyTraj_records {st st' : UInt32 × ConCorpus F} {job : CopyJob F} (h : copyTraj d refused st job = .ok st')
    {t : UInt64} (ht : t ≠ job.trajId) (hnone : st.2.trajMeta[t]? = none) : st'.2.trajMeta[t]? = none := by
  obtain ⟨concat, _, h⟩ := bind_eq_ok.mp h
  rcases call_cases (prepareAppendStr d st.2 job.trajId concat) (refused job.trajId)
    (commitPrepared d job.trajId job.source false) st.2 with ⟨e, he⟩ | ⟨ps, n, next, _, _, hc, he⟩
  · rw [appendTrajectoryStr, he] at h
    cases h
  · rw [appendTrajectoryStr, he] at h
    obtain rfl := Except.ok.inj h
    obtain ⟨_, _, m, _, rfl⟩ := commitPrepared_ok hc
    rw [restamp, get_insert, if_neg ht.symm, puts_trajMeta, hnone]

theorem SeenOnly.copy {st st' : Copying F} {job : CopyJob F} (hs : SeenOnly st)
    (h : copyJob d refused repeated st job = .ok st') : SeenOnly st' := by
  obtain ⟨hseen, hact⟩ := visit_ok h
  intro t ht
  rw [hseen, Finset.mem_insert, not_or] at ht
  exact copyTraj_records hact ht.1 (hs t ht.2)

theorem copies_fresh {before after : List (CopyJob F)} {job : CopyJob F} {st : Copying F}
    (hd : ((before ++ job :: after).map CopyJob.trajId).Nodup)
    (h : before.foldlM (copyJob d refused repeated) (∅, 0, ConCorpus.empty F) = .ok st) :
    job.trajId ∉ st.1 ∧ st.2.2.trajMeta[job.trajId]? = none := by
  have hfresh : job.trajId ∉ st.1 := visits_fresh hd h
  have hstart : SeenOnly ((∅, 0, ConCorpus.empty F) : Copying F) := fun t _ => Std.ExtTreeMap.getElem?_empty
  exact ⟨hfresh, foldlM_preserves (I := SeenOnly) (fun _ _ _ _ hs hc => hs.copy hc) hstart h _ hfresh⟩

end Copies

section Detection

variable {F : Type} [Float64 F] (d : Crates F)

def shardEnvs (s : ShardedConCorpus F) : List (Env UInt32 F) :=
  s.withData.map fun e => ⟨e.1, shardSource e.1, e.2⟩

def rootEnvs (roots : List (ShardedConCorpus F)) : List (Env (Nat × UInt32) F) :=
  roots.zipIdx.flatMap fun r => (shardEnvs r.1).map fun e => ⟨(r.2, e.place), e.source, e.corpus⟩

def corpusEnvs (sources : List (String × ConCorpus F)) : List (Env Nat F) :=
  sources.zipIdx.map fun s => ⟨s.2, s.1.1, s.1.2⟩

-- What a join over `envs` is: the preview refuses just the collisions, before there is a destination,
-- and after it no trajectory of the copy is met twice or found in the destination.
structure DetectsCollisions {P : Type} (envs : List (Env P F)) (repeated : UInt64 → Error) (preview : Result Owners)
    (join : Option Error → (UInt64 → Option Error) → Result UInt32 × Dest F) : Prop where
  exact : (∃ e, preview = .error e) ↔ Collides envs
  stops : ∀ e opened refused, preview = .error e → join opened refused = (.error e, .untouched)
  copies : ∀ held opened refused, preview = .ok held → join opened refused =
    rollbackNewDest (do (envs.flatMap Env.jobs).foldlM (copyJob d refused repeated) (← openDest opened))
  fresh : ∀ held refused before job after st, preview = .ok held → envs.flatMap Env.jobs = before ++ job :: after →
    before.foldlM (copyJob d refused repeated) (∅, 0, ConCorpus.empty F) = .ok st →
    job.trajId ∉ st.1 ∧ st.2.2.trajMeta[job.trajId]? = none

variable {P : Type} {envs : List (Env P F)} {repeated : UInt64 → Error}

theorem detects (owner : P → UInt64) {join : Option Error → (UInt64 → Option Error) → Result UInt32 × Dest F} {preview : Result Owners}
    (hpreview : preview = previewEnvs owner envs) (hplaces : (envs.map Env.place).Nodup)
    (hinj : ∀ e ∈ envs, ∀ e' ∈ envs, owner e.place = owner e'.place → e.place = e'.place)
    (hstops : ∀ e opened refused, preview = .error e → join opened refused = (.error e, .untouched))
    (hcopies : ∀ held opened refused, preview = .ok held → join opened refused =
      rollbackNewDest (do (envs.flatMap Env.jobs).foldlM (copyJob d refused repeated) (← openDest opened))) :
    DetectsCollisions d envs repeated preview join where
  exact := by
    rw [← not_iff_not, ← previewEnvs_ok_iff hinj, ← hpreview]
    cases preview <;> simp
  stops := hstops
  copies := hcopies
  fresh held refused before job after st hp hjobs h := by
    have hno := (previewEnvs_ok_iff hinj).mp ⟨held, hpreview ▸ hp⟩
    have hd := jobs_nodup hplaces hno
    rw [hjobs] at hd
    exact copies_fresh hd h

theorem shardEnvs_places (s : ShardedConCorpus F) : ((shardEnvs s).map Env.place).Nodup := by
  rw [shardEnvs, List.map_map, List.Nodup, List.pairwise_map]
  exact s.withData_pairwise

theorem appendShardedInto_eq (refused : UInt64 → Option Error) (s : ShardedConCorpus F) (st : Copying F) :
    appendShardedInto d refused s st = ((shardEnvs s).flatMap Env.jobs).foldlM (copyJob d refused collision) st := by
  rw [appendShardedInto, foldlM_flatMap, shardEnvs, List.flatMap_map]
  rfl

theorem single_preview (s : ShardedConCorpus F) : previewShards s = previewEnvs UInt32.toUInt64 (shardEnvs s) := by
  rw [previewShards, previewEnvs, shardEnvs, List.foldlM_map]

theorem single_copies (s : ShardedConCorpus F) (dst : String) {held : Owners} (h : previewShards s = .ok held)
    (opened : Option Error) (refused : UInt64 → Option Error) : joinToSingleEnv d opened refused s dst false =
      rollbackNewDest (do ((shardEnvs s).flatMap Env.jobs).foldlM (copyJob d refused collision) (← openDest opened)) := by
  simp only [joinToSingleEnv, h, appendShardedInto_eq]
  rfl

theorem single_detects (s : ShardedConCorpus F) (dst : String) :
    DetectsCollisions d (shardEnvs s) collision (previewShards s)
      (fun opened refused => joinToSingleEnv d opened refused s dst false) := by
  refine detects d UInt32.toUInt64 (single_preview s) (shardEnvs_places s) (fun _ _ _ _ h => ?_) ?_
    fun held opened refused h => single_copies d s dst h opened refused
  · rw [← UInt64.toNat_inj, UInt32.toNat_toUInt64, UInt32.toNat_toUInt64, UInt32.toNat_inj] at h
    exact h
  · intro e opened refused h
    simp [joinToSingleEnv, h]

theorem shardOwner_toNat {si : Nat} (h : si < 2 ^ 32) (sid : UInt32) :
    (shardOwner si sid).toNat = si * 2 ^ 32 + sid.toNat := by
  have hbits : (32 : UInt64).toNat % 64 = 32 := rfl
  have hsi : si < 2 ^ 64 := by omega
  have hmul : si * 2 ^ 32 < 2 ^ 64 := by omega
  rw [shardOwner, UInt64.toNat_or, UInt64.toNat_shiftLeft, UInt32.toNat_toUInt64, UInt64.toNat_ofNat', hbits,
    Nat.mod_eq_of_lt hsi, Nat.shiftLeft_eq, Nat.mod_eq_of_lt hmul, ← Nat.shiftLeft_eq,
    ← Nat.shiftLeft_add_eq_or_of_lt sid.toNat_lt, Nat.shiftLeft_eq]

theorem shardOwner_inj {si si' : Nat} (h : si < 2 ^ 32) (h' : si' < 2 ^ 32) {sid sid' : UInt32}
    (he : shardOwner si sid = shardOwner si' sid') : (si, sid) = (si', sid') := by
  have hn := congrArg UInt64.toNat he
  rw [shardOwner_toNat h, shardOwner_toNat h'] at hn
  have hlt := sid.toNat_lt
  have hlt' := sid'.toNat_lt
  obtain rfl : si = si' := by omega
  have hsid : sid.toNat = sid'.toNat := by omega
  rw [UInt32.toNat_inj.mp hsid]

theorem rootEnvs_place {roots : List (ShardedConCorpus F)} {e : Env (Nat × UInt32) F} (h : e ∈ rootEnvs roots) :
    e.place.1 < roots.length := by
  obtain ⟨r, hr, he⟩ := List.mem_flatMap.mp h
  obtain ⟨e', _, rfl⟩ := List.mem_map.mp he
  have hlt := (List.mem_zipIdx hr).2.1
  rwa [Nat.zero_add] at hlt

theorem rootEnvs_places (roots : List (ShardedConCorpus F)) : ((rootEnvs roots).map Env.place).Nodup := by
  rw [rootEnvs, List.map_flatMap, List.nodup_flatMap]
  constructor
  · intro r _
    rw [List.map_map]
    have hnd := shardEnvs_places r.1
    exact (List.map_map (f := Env.place) ▸ hnd.map (Prod.mk_right_injective r.2))
  · have hidx : (roots.zipIdx.map Prod.snd).Nodup := by
      rw [List.zipIdx_map_snd]
      exact List.nodup_range'
    refine (List.pairwise_map.mp hidx).imp fun hne => ?_
    intro p hp hp'
    obtain ⟨e, he, rfl⟩ := List.mem_map.mp hp
    obtain ⟨e', he', heq⟩ := List.mem_map.mp hp'
    obtain ⟨_, _, rfl⟩ := List.mem_map.mp he
    obtain ⟨_, _, rfl⟩ := List.mem_map.mp he'
    exact hne (congrArg Prod.fst heq).symm

theorem rootEnvs_jobs (roots : List (ShardedConCorpus F)) :
    (rootEnvs roots).flatMap Env.jobs = roots.flatMap fun sh => (shardEnvs sh).flatMap Env.jobs := by
  have hroot (r : ShardedConCorpus F × Nat) :
      ((shardEnvs r.1).map fun e => (⟨(r.2, e.place), e.source, e.corpus⟩ : Env (Nat × UInt32) F)).flatMap Env.jobs =
        (shardEnvs r.1).flatMap Env.jobs := by
    rw [List.flatMap_map]
    rfl
  calc (rootEnvs roots).flatMap Env.jobs
      = roots.zipIdx.flatMap fun r => (shardEnvs r.1).flatMap Env.jobs := by
        rw [rootEnvs, List.flatMap_assoc]
        exact congrArg (fun f => roots.zipIdx.flatMap f) (funext hroot)
    _ = (roots.zipIdx.map Prod.fst).flatMap fun sh => (shardEnvs sh).flatMap Env.jobs := by rw [List.flatMap_map]
    _ = roots.flatMap fun sh => (shardEnvs sh).flatMap Env.jobs := by rw [List.zipIdx_map_fst]

def present {R : Type} (sources : List (String × R)) : List (Source R) := sources.map fun s => ⟨s.1, some s.2⟩

theorem require_present {R : Type} (missing : String) (sources : List (String × R)) :
    (present sources).mapM (Source.require missing) = .ok (sources.map Prod.snd) := by
  rw [present, List.mapM_map]
  exact mapM_ok_of_forall fun _ _ => rfl

theorem present_ne_nil {R : Type} {sources : List (String × R)} (h : sources ≠ []) : present sources ≠ [] := by
  rw [present, Ne, List.map_eq_nil_iff]
  exact h

theorem drained_preview (roots : List (ShardedConCorpus F)) :
    previewRoots roots = previewEnvs (fun p => shardOwner p.1 p.2) (rootEnvs roots) := by
  rw [previewRoots, previewEnvs, rootEnvs, ← foldlM_flatMap]
  refine congrArg (fun f => List.foldlM f ∅ roots.zipIdx) (funext fun preview => funext fun r => ?_)
  rw [shardEnvs, List.foldlM_map, List.foldlM_map]

theorem drained_copies {roots : List (String × ShardedConCorpus F)} (hne : roots ≠ []) (dst : String) {held : Owners}
    (h : previewRoots (roots.map Prod.snd) = .ok held) (opened : Option Error) (refused : UInt64 → Option Error) :
    joinDrainedRoots d opened refused (present roots) dst false = rollbackNewDest (do
      ((rootEnvs (roots.map Prod.snd)).flatMap Env.jobs).foldlM (copyJob d refused collision) (← openDest opened)) := by
  rw [joinDrainedRoots, if_neg (present_ne_nil hne), if_neg Bool.false_ne_true, require_present]
  simp only [h, appendShardedInto_eq, foldlM_flatMap, rootEnvs_jobs]

theorem drained_detects {roots : List (String × ShardedConCorpus F)} (hne : roots ≠ []) (hlen : roots.length < 2 ^ 32)
    (dst : String) :
    DetectsCollisions d (rootEnvs (roots.map Prod.snd)) collision (previewRoots (roots.map Prod.snd))
      (fun opened refused => joinDrainedRoots d opened refused (present roots) dst false) := by
  refine detects d (fun p => shardOwner p.1 p.2) ?_ (rootEnvs_places _) (fun e he e' he' h => ?_) ?_ ?_
  · exact drained_preview _
  · have hlt := rootEnvs_place he
    have hlt' := rootEnvs_place he'
    rw [List.length_map] at hlt hlt'
    exact shardOwner_inj (hlt.trans hlen) (hlt'.trans hlen) h
  · intro e opened refused h
    rw [joinDrainedRoots, if_neg (present_ne_nil hne), if_neg Bool.false_ne_true, require_present]
    simp only [h]
  · exact fun held opened refused h => drained_copies d hne dst h opened refused

theorem corpusEnvs_places (sources : List (String × ConCorpus F)) : ((corpusEnvs sources).map Env.place).Nodup := by
  have hidx : (sources.zipIdx.map Prod.snd).Nodup := by
    rw [List.zipIdx_map_snd]
    exact List.nodup_range'
  rw [corpusEnvs, List.map_map]
  exact hidx

theorem corpusEnvs_jobs (sources : List (String × ConCorpus F)) :
    (corpusEnvs sources).flatMap Env.jobs = sources.flatMap fun s => envJobs s.1 s.2 := by
  calc (corpusEnvs sources).flatMap Env.jobs
      = (sources.zipIdx.map Prod.fst).flatMap fun s => envJobs s.1 s.2 := by
        rw [corpusEnvs, List.flatMap_map, List.flatMap_map]
        rfl
    _ = sources.flatMap fun s => envJobs s.1 s.2 := by rw [List.zipIdx_map_fst]

theorem dirs_preview (sources : List (String × ConCorpus F)) :
    previewCorpora (sources.map Prod.snd) = previewEnvs UInt64.ofNat (corpusEnvs sources) := by
  rw [previewCorpora, previewEnvs, corpusEnvs, List.foldlM_map, List.zipIdx_map, List.foldlM_map]
  rfl

theorem dirs_copies (sources : List (String × ConCorpus F)) (dst : String) {held : Owners}
    (h : previewCorpora (sources.map Prod.snd) = .ok held) (opened : Option Error) (refused : UInt64 → Option Error) :
    joinCorpusDirs d opened refused (present sources) dst false = rollbackNewDest (do
      ((corpusEnvs sources).flatMap Env.jobs).foldlM (copyJob d refused duplicateTraj) (← openDest opened)) := by
  have hzip : ((present sources).map Source.display).zip (sources.map Prod.snd) = sources := by
    rw [present, List.map_map, List.zip_map', ← List.map_id sources, List.map_map]
    rfl
  rw [joinCorpusDirs, if_neg Bool.false_ne_true, require_present]
  simp only [h, hzip, corpusEnvs_jobs, foldlM_flatMap]

theorem dirs_detects {sources : List (String × ConCorpus F)} (hlen : sources.length < 2 ^ 32) (dst : String) :
    DetectsCollisions d (corpusEnvs sources) duplicateTraj (previewCorpora (sources.map Prod.snd))
      (fun opened refused => joinCorpusDirs d opened refused (present sources) dst false) := by
  refine detects d UInt64.ofNat (dirs_preview sources) (corpusEnvs_places sources) (fun e he e' he' h => ?_) ?_
    fun held opened refused h => dirs_copies d sources dst h opened refused
  · have hplace {e : Env Nat F} (he : e ∈ corpusEnvs sources) : e.place < 2 ^ 64 := by
      obtain ⟨s, hs, rfl⟩ := List.mem_map.mp he
      have hlt := (List.mem_zipIdx hs).2.1
      show s.2 < 2 ^ 64
      omega
    have hn := congrArg UInt64.toNat h
    rwa [UInt64.toNat_ofNat', UInt64.toNat_ofNat', Nat.mod_eq_of_lt (hplace he), Nat.mod_eq_of_lt (hplace he')] at hn
  · intro e opened refused h
    rw [joinCorpusDirs, if_neg Bool.false_ne_true, require_present]
    simp only [h]

structure JoinsDetect : Prop where
  single : ∀ s dst, DetectsCollisions d (shardEnvs s) collision (previewShards s)
    (fun opened refused => joinToSingleEnv d opened refused s dst false)
  drained : ∀ roots dst, roots ≠ [] → roots.length < 2 ^ 32 →
    DetectsCollisions d (rootEnvs (roots.map Prod.snd)) collision (previewRoots (roots.map Prod.snd))
      (fun opened refused => joinDrainedRoots d opened refused (present roots) dst false)
  dirs : ∀ sources dst, sources.length < 2 ^ 32 →
    DetectsCollisions d (corpusEnvs sources) duplicateTraj (previewCorpora (sources.map Prod.snd))
      (fun opened refused => joinCorpusDirs d opened refused (present sources) dst false)

theorem joins_detect_collisions : JoinsDetect d where
  single s dst := single_detects d s dst
  drained _ dst hne hlen := drained_detects d hne hlen dst
  dirs _ dst hlen := dirs_detects d hlen dst

end Detection

end ReadconDb
