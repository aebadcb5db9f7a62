import ReadconDb.Sharding
import ReadconDb.Library.FileTree

set_option linter.unusedSectionVars false

namespace ReadconDb

open ByteString Outcome FileTree

abbrev DirTree := Tree String Bytes

def manifestName : String := "shards.json"

def dataName : String := "data.mdb"

def shardDigits (i : UInt32) : List Char :=
  List.replicate (4 - (Nat.toDigits 10 i.toNat).length) '0' ++ Nat.toDigits 10 i.toNat

def shardName (i : UInt32) : String := "shard_" ++ String.ofList (shardDigits i)

def shardIdsOf (nShards : UInt32) : List UInt32 := (List.range nShards.toNat).map UInt32.ofNat

-- A source root: the bytes of its manifest and of each shard's `data.mdb`, where these are files.
structure DrainSource where
  manifest : Option Bytes
  data : UInt32 → Option Bytes

-- What the system answers where it may refuse; a refused copy may leave a part of the file.
structure DrainFaults where
  blocked : Error
  createDst : Option Error
  readExisting : Option Error
  readIncoming : Option Error
  readManifest : Option Error
  copyManifest : Option (Error × Option Bytes)
  openShard : UInt32 → Option Error
  createShard : UInt32 → Option Error
  snapshot : UInt32 → Option (Error × Option Bytes)

structure Drained where
  tree : DirTree
  copiedManifest : Bool
  created : List String

section Drain

-- `parse` reads `n_shards` out of a manifest, `compact` is LMDB's compacting copy.
variable (parse : Bytes → Result UInt32) (compact : Bytes → Bytes) (faults : DrainFaults) (dst : String)
  (src : DrainSource)

def readManifest (fault : Option Error) (bytes : Bytes) : Result UInt32 :=
  match fault with
  | some e => .error e
  | none => parse bytes

def createDirAll (fault : Option Error) (t : DirTree) (p : List String) : Result DirTree :=
  match t.node p with
  | some .dir => .ok t
  | some (.file _) => .error faults.blocked
  | none =>
    match fault with
    | some e => .error e
    | none => .ok (t.put p .dir)

def leavePart (t : DirTree) (p : List String) (part : Option Bytes) : DirTree :=
  match part with
  | some bytes => t.put p (.file bytes)
  | none => t

def snapshotTo (i : UInt32) (bytes : Bytes) (t : DirTree) : Result Unit × DirTree :=
  match createDirAll faults (faults.createShard i) t [shardName i] with
  | .error e => (.error e, t)
  | .ok t =>
    match t.node [shardName i, dataName] with
    | some _ => (.error (.message ("snapshot dest exists: " ++ dst ++ "/" ++ shardName i ++ "/" ++ dataName)), t)
    | none =>
      match faults.snapshot i with
      | some (e, part) => (.error e, leavePart t [shardName i, dataName] part)
      | none => (.ok (), t.put [shardName i, dataName] (.file (compact bytes)))

def drainShard (i : UInt32) (bytes : Bytes) (st : Drained) : Result Unit × Drained :=
  let st := { st with created := st.created ++ [shardName i] }
  match faults.openShard i with
  | some e => (.error e, st)
  | none =>
    match snapshotTo compact faults dst i bytes st.tree with
    | (r, tree) => (r, { st with tree := tree })

def drainShards : List UInt32 → UInt32 → Drained → Result UInt32 × Drained
  | [], n, st => (.ok n, st)
  | i :: rest, n, st =>
    match src.data i with
    | none => drainShards rest n st
    | some bytes =>
      match drainShard compact faults dst i bytes st with
      | (.error e, st) => (.error e, st)
      | (.ok _, st) => drainShards rest (n + 1) st

def mismatch : Error := .message "drain: dest shards.json n_shards does not match src"

def checkManifests (man : Bytes) (t : DirTree) : Result UInt32 :=
  match t.node [manifestName] with
  | some (.file existing) => do
    let existing ← readManifest parse faults.readExisting existing
    let incoming ← readManifest parse faults.readIncoming man
    if existing ≠ incoming then .error mismatch else readManifest parse faults.readManifest man
  | _ => readManifest parse faults.readManifest man

def clashes (t : DirTree) (i : UInt32) : Bool := (src.data i).isSome && t.isFile [shardName i, dataName]

def overwrite (i : UInt32) : Error :=
  .message ("drain: dest " ++ shardName i ++
    " exists; refuse overwrite. Drain each node to a unique dest, then join-drained.")

def copyManifest (man : Bytes) (t : DirTree) : Result Unit × Drained :=
  match t.node [manifestName] with
  | some (.file _) => (.ok (), ⟨t, false, []⟩)
  | some .dir => (.error faults.blocked, ⟨t, true, []⟩)
  | none =>
    match faults.copyManifest with
    | some (e, part) => (.error e, ⟨leavePart t [manifestName] part, true, []⟩)
    | none => (.ok (), ⟨t.put [manifestName] (.file man), true, []⟩)

def drainOnto (man : Bytes) (t : DirTree) : Result UInt32 × Drained :=
  match checkManifests parse faults man t with
  | .error e => (.error e, ⟨t, false, []⟩)
  | .ok nShards =>
    match (shardIdsOf nShards).find? (clashes src t) with
    | some i => (.error (overwrite i), ⟨t, false, []⟩)
    | none =>
      match copyManifest faults man t with
      | (.error e, st) => (.error e, st)
      | (.ok _, st) => drainShards compact faults dst src (shardIdsOf nShards) 0 st

def drainInto (man : Bytes) (t : DirTree) : Result UInt32 × Drained :=
  match createDirAll faults faults.createDst t [] with
  | .error e => (.error e, ⟨t, false, []⟩)
  | .ok t => drainOnto parse compact faults dst src man t

def rollbackDrain (destWasNew : Bool) (st : Drained) : DirTree :=
  if destWasNew then st.tree.removeDirAll []
  else
    let t := st.created.foldl (fun t name => t.removeDirAll [name]) st.tree
    if st.copiedManifest then t.removeFile [manifestName] else t

def settleDrain (destWasNew : Bool) : Result UInt32 × Drained → Result UInt32 × DirTree
  | (.ok n, st) => (.ok n, st.tree)
  | (.error e, st) => (.error e, rollbackDrain destWasNew st)

def drainTo (t : DirTree) : Result UInt32 × DirTree :=
  match src.manifest with
  | none => (.error (.message "drain: missing shards.json"), t)
  | some man => settleDrain (t.node []).isNone (drainInto parse compact faults dst src man t)

end Drain

section Names

theorem shardName_inj {i j : UInt32} : shardName i = shardName j ↔ i = j := by
  constructor
  · intro h
    have hdigits : shardDigits i = shardDigits j := by
      have hl := congrArg String.toList h
      simpa [shardName] using hl
    have hvalue (k : UInt32) : Nat.ofDigitChars 10 (shardDigits k) 0 = k.toNat := by
      rw [shardDigits, Nat.ofDigitChars_append, Nat.ofDigitChars_replicate_zero, Nat.mul_zero,
        Nat.ofDigitChars_ten_toDigits]
    rw [← UInt32.toNat_inj, ← hvalue i, ← hvalue j, hdigits]
  · rintro rfl
    rfl

theorem shardName_ne_manifest (i : UInt32) : shardName i ≠ manifestName := by
  intro h
  have hl := congrArg String.toList h
  simp [shardName, manifestName] at hl

theorem shardIdsOf_nodup (n : UInt32) : (shardIdsOf n).Nodup := by
  refine (List.nodup_range).map_on fun i hi j hj he => ?_
  have hlt := n.toNat_lt
  have hi' : i < 2 ^ 32 := (List.mem_range.mp hi).trans hlt
  have hj' : j < 2 ^ 32 := (List.mem_range.mp hj).trans hlt
  have hn := congrArg UInt32.toNat he
  rwa [UInt32.toNat_ofNat', UInt32.toNat_ofNat', Nat.mod_eq_of_lt hi', Nat.mod_eq_of_lt hj'] at hn

end Names

section Steps

variable {parse : Bytes → Result UInt32} {compact : Bytes → Bytes} {faults : DrainFaults} {dst : String}
  {src : DrainSource}

def shardFails (faults : DrainFaults) (t : DirTree) (i : UInt32) : Bool :=
  (faults.openShard i).isSome ||
    (match t.node [shardName i] with
      | some .dir => false
      | some (.file _) => true
      | none => (faults.createShard i).isSome) ||
    (t.node [shardName i, dataName]).isSome || (faults.snapshot i).isSome

def attempted (fails : UInt32 → Bool) : List UInt32 → List UInt32
  | [] => []
  | i :: rest => i :: if fails i then [] else attempted fails rest

def withDataIn (src : DrainSource) (ids : List UInt32) : List UInt32 := ids.filter fun i => (src.data i).isSome

structure Snapshot (compact : Bytes → Bytes) (i : UInt32) (bytes : Bytes) (t : DirTree) (fails : Bool)
    (out : Result Unit × DirTree) : Prop where
  fails : (∃ e, out.1 = .error e) ↔ fails = true
  grows : Tree.Grows [shardName i] t out.2
  data : out.1 = .ok () → out.2.node [shardName i, dataName] = some (.file (compact bytes))

theorem snapshot_spec {i : UInt32} {bytes : Bytes} {t : DirTree} (hroot : t.node [] = some .dir)
    (hopen : faults.openShard i = none) :
    Snapshot compact i bytes t (shardFails faults t i) (snapshotTo compact faults dst i bytes t) := by
  have hroom : [shardName i] = [] ∨ t.node [shardName i].dropLast = some .dir := .inr hroot
  have hbelow {t' : DirTree} (hd : t'.node [shardName i] = some .dir) :
      [shardName i, dataName] = [] ∨ t'.node [shardName i, dataName].dropLast = some .dir := .inr hd
  have hprefix : [shardName i] <+: [shardName i, dataName] := List.prefix_append [shardName i] [dataName]
  have hpart (t' : DirTree) (hd : t'.node [shardName i] = some .dir) (hnone : t'.node [shardName i, dataName] = none)
      (x : Node Bytes) : Tree.Grows [shardName i] t' (t'.put [shardName i, dataName] x) := by
    refine Tree.grows_put (hbelow hd) hnone hprefix ?_
    rw [Tree.put_node (hbelow hd) (by simp [hnone]), if_neg (by simp), hd]
  have hcopy (t' : DirTree) (hd : t'.node [shardName i] = some .dir) (hsame : t'.node [shardName i, dataName] =
      t.node [shardName i, dataName]) (hgrow : Tree.Grows [shardName i] t t')
      (hfails : shardFails faults t i = ((t.node [shardName i, dataName]).isSome || (faults.snapshot i).isSome))
      (hcreate : createDirAll faults (faults.createShard i) t [shardName i] = .ok t') :
      Snapshot compact i bytes t (shardFails faults t i) (snapshotTo compact faults dst i bytes t) := by
    have htrans {t'' : DirTree} (h : Tree.Grows [shardName i] t' t'') : Tree.Grows [shardName i] t t'' :=
      (hgrow.trans h).mono (by simp)
    rw [hfails, snapshotTo, hcreate]
    cases hdata : t.node [shardName i, dataName] with
    | some x =>
      simp only [hsame, hdata]
      exact ⟨by simp, hgrow, by simp⟩
    | none =>
      simp only [hsame, hdata]
      cases hsnap : faults.snapshot i with
      | some p =>
        obtain ⟨e, part⟩ := p
        refine ⟨by simp, ?_, by simp⟩
        cases part with
        | none => exact hgrow
        | some b => exact htrans (hpart t' hd (hsame.trans hdata) _)
      | none =>
        refine ⟨by simp, htrans (hpart t' hd (hsame.trans hdata) _), fun _ => ?_⟩
        rw [Tree.put_node (hbelow hd) (by simp [hsame, hdata]), if_pos rfl]
  cases hnode : t.node [shardName i] with
  | some x =>
    cases x with
    | dir =>
      refine hcopy t hnode rfl (.refl _ _) ?_ ?_
      · simp [shardFails, hopen, hnode]
      · simp [createDirAll, hnode]
    | file b =>
      have hfails : shardFails faults t i = true := by simp [shardFails, hnode]
      have hout : snapshotTo compact faults dst i bytes t = (.error faults.blocked, t) := by
        simp [snapshotTo, createDirAll, hnode]
      rw [hfails, hout]
      exact ⟨by simp, .refl _ _, by simp⟩
  | none =>
    cases hcreate : faults.createShard i with
    | some e =>
      have hfails : shardFails faults t i = true := by simp [shardFails, hnode, hcreate]
      have hout : snapshotTo compact faults dst i bytes t = (.error e, t) := by
        simp [snapshotTo, createDirAll, hnode, hcreate]
      rw [hfails, hout]
      exact ⟨by simp, .refl _ _, by simp⟩
    | none =>
      have hput (q : List String) := Tree.put_node hroom (by simp [hnode]) (.dir : Node Bytes) q
      have hdir : (t.put [shardName i] .dir).node [shardName i] = some .dir := by rw [hput, if_pos rfl]
      refine hcopy (t.put [shardName i] .dir) hdir ?_ ?_ ?_ ?_
      · rw [hput, if_neg (by simp)]
      · exact Tree.grows_put hroom hnode (List.prefix_refl _) hdir
      · simp [shardFails, hopen, hnode, hcreate]
      · simp [createDirAll, hnode, hcreate]

structure ShardStep (compact : Bytes → Bytes) (i : UInt32) (bytes : Bytes) (st : Drained) (fails : Bool)
    (out : Result Unit × Drained) : Prop where
  snapshot : Snapshot compact i bytes st.tree fails (out.1, out.2.tree)
  created : out.2.created = st.created ++ [shardName i]
  copied : out.2.copiedManifest = st.copiedManifest

theorem drainShard_spec (compact : Bytes → Bytes) (faults : DrainFaults) (dst : String) (i : UInt32) (bytes : Bytes)
    {st : Drained} (hroot : st.tree.node [] = some .dir) :
    ShardStep compact i bytes st (shardFails faults st.tree i) (drainShard compact faults dst i bytes st) := by
  rw [drainShard]
  cases hopen : faults.openShard i with
  | some e =>
    have hfails : shardFails faults st.tree i = true := by simp [shardFails, hopen]
    rw [hfails]
    exact ⟨⟨by simp, .refl _ _, by simp⟩, rfl, rfl⟩
  | none => exact ⟨snapshot_spec hroot hopen, rfl, rfl⟩

theorem shardFails_congr {t t' : DirTree} {i j : UInt32} (hne : j ≠ i) (h : Tree.Grows [shardName i] t t') :
    shardFails faults t' j = shardFails faults t j := by
  have hname : shardName j ∉ [shardName i] := by
    rw [List.mem_singleton, shardName_inj]
    exact hne
  have hprefix : [shardName j] <+: [shardName j, dataName] := List.prefix_append [shardName j] [dataName]
  rw [shardFails, shardFails, h.same hname (List.prefix_refl _), h.same hname hprefix]

theorem attempted_congr {f g : UInt32 → Bool} {ids : List UInt32} (h : ∀ i ∈ ids, f i = g i) :
    attempted f ids = attempted g ids := by
  induction ids with
  | nil => rfl
  | cons i ids ih =>
    rw [attempted, attempted, h i (by simp), ih fun j hj => h j (by simp [hj])]

structure ShardRun (compact : Bytes → Bytes) (faults : DrainFaults) (src : DrainSource) (ids : List UInt32)
    (n : UInt32) (st : Drained) (out : Result UInt32 × Drained) : Prop where
  fails : (∃ e, out.1 = .error e) ↔ (withDataIn src ids).any (shardFails faults st.tree) = true
  grows : Tree.Grows ((attempted (shardFails faults st.tree) (withDataIn src ids)).map shardName) st.tree out.2.tree
  created : out.2.created = st.created ++ (attempted (shardFails faults st.tree) (withDataIn src ids)).map shardName
  copied : out.2.copiedManifest = st.copiedManifest
  counted : ∀ k, out.1 = .ok k → k = n + UInt32.ofNat (withDataIn src ids).length
  data : ∀ k i bytes, out.1 = .ok k → i ∈ ids → src.data i = some bytes →
    out.2.tree.node [shardName i, dataName] = some (.file (compact bytes))

theorem drainShards_spec (compact : Bytes → Bytes) (faults : DrainFaults) (dst : String) (src : DrainSource)
    {ids : List UInt32} (hd : ids.Nodup) (n : UInt32) {st : Drained} (hroot : st.tree.node [] = some .dir) :
    ShardRun compact faults src ids n st (drainShards compact faults dst src ids n st) := by
  induction ids generalizing n st with
  | nil =>
    rw [drainShards]
    exact
      { fails := by simp [withDataIn]
        grows := .refl _ _
        created := (List.append_nil _).symm
        copied := rfl
        counted := fun k hk => by simp_all [withDataIn]
        data := by simp }
  | cons i ids ih =>
    obtain ⟨hi, hd⟩ := List.nodup_cons.mp hd
    rw [drainShards]
    cases hdata : src.data i with
    | none =>
      have hids : withDataIn src (i :: ids) = withDataIn src ids := List.filter_cons_of_neg (by simp [hdata])
      have hrest := ih hd n hroot
      exact
        { fails := hids ▸ hrest.fails
          grows := hids ▸ hrest.grows
          created := hids ▸ hrest.created
          copied := hrest.copied
          counted := hids ▸ hrest.counted
          data := fun k j bytes hk hj hb => by
            rcases List.mem_cons.mp hj with rfl | hj
            · rw [hdata] at hb
              cases hb
            · exact hrest.data k j bytes hk hj hb }
    | some bytes =>
      have hids : withDataIn src (i :: ids) = i :: withDataIn src ids := List.filter_cons_of_pos (by simp [hdata])
      have hstep := drainShard_spec compact faults dst i bytes hroot
      cases hout : drainShard compact faults dst i bytes st with
      | mk r next =>
        rw [hout] at hstep
        simp only [hout]
        cases r with
        | error e =>
          have hfails : shardFails faults st.tree i = true := hstep.snapshot.fails.mp ⟨e, rfl⟩
          have hattempted : attempted (shardFails faults st.tree) (withDataIn src (i :: ids)) = [i] := by
            rw [hids, attempted, hfails, if_pos rfl]
          exact
            { fails := by simp [hids, hfails]
              grows := by
                rw [hattempted]
                exact hstep.snapshot.grows
              created := by
                rw [hattempted]
                exact hstep.created
              copied := hstep.copied
              counted := by simp
              data := by simp }
        | ok u =>
          have hfails : shardFails faults st.tree i = false := by
            rw [← Bool.not_eq_true, ← hstep.snapshot.fails]
            simp
          have hrest := ih hd (n + 1) (hstep.snapshot.grows.keeps hroot)
          have hsame (j : UInt32) (hj : j ∈ withDataIn src ids) :
              shardFails faults next.tree j = shardFails faults st.tree j := by
            refine shardFails_congr ?_ hstep.snapshot.grows
            rintro rfl
            exact hi (List.mem_filter.mp hj).1
          have hattempted : attempted (shardFails faults st.tree) (withDataIn src (i :: ids)) =
              i :: attempted (shardFails faults next.tree) (withDataIn src ids) := by
            rw [hids, attempted, hfails, attempted_congr hsame]
            rfl
          exact
            { fails := by
                rw [hrest.fails, hids, List.any_cons, hfails, Bool.false_or, List.any_eq_true, List.any_eq_true]
                exact exists_congr fun j => and_congr_right fun hj => by rw [hsame j hj]
              grows := by
                rw [hattempted]
                exact hstep.snapshot.grows.trans hrest.grows
              created := by
                rw [hrest.created, hstep.created, hattempted, List.append_assoc]
                rfl
              copied := hrest.copied.trans hstep.copied
              counted := fun k hk => by
                rw [hrest.counted k hk, hids, List.length_cons, UInt32.ofNat_add, UInt32.add_assoc, UInt32.add_comm 1]
                rfl
              data := fun k j b hk hj hb => by
                rcases List.mem_cons.mp hj with rfl | hj
                · rw [hdata, Option.some.injEq] at hb
                  exact hb ▸ hrest.grows.keeps (hstep.snapshot.data rfl)
                · exact hrest.data k j b hk hj hb }

end Steps

section Whole

variable {parse : Bytes → Result UInt32} {compact : Bytes → Bytes} {faults : DrainFaults} {dst : String}
  {src : DrainSource} {t : DirTree} {man : Bytes}

structure Starts (parse : Bytes → Result UInt32) (faults : DrainFaults) (src : DrainSource) (t : DirTree) (man : Bytes)
    (nShards : UInt32) : Prop where
  manifests : checkManifests parse faults man t = .ok nShards
  free : (shardIdsOf nShards).find? (clashes src t) = none
  copied : t.isFile [manifestName] = true ∨ t.node [manifestName] = none ∧ faults.copyManifest = none

-- If a shard fails, no shard tried up to it had a directory in the destination.
def Spares (parse : Bytes → Result UInt32) (faults : DrainFaults) (src : DrainSource) (t : DirTree) (man : Bytes) : Prop :=
  ∀ nShards, Starts parse faults src t man nShards →
    (withDataIn src (shardIdsOf nShards)).any (shardFails faults t) = true →
    ∀ i ∈ attempted (shardFails faults t) (withDataIn src (shardIdsOf nShards)), t.node [shardName i] ≠ some .dir

structure ManifestCopied (man : Bytes) (t : DirTree) (st : Drained) : Prop where
  created : st.created = []
  same : ∀ q, q ≠ [manifestName] → st.tree.node q = t.node q
  keeps : ∀ q x, t.node q = some x → st.tree.node q = some x
  undone : (if st.copiedManifest then st.tree.removeFile [manifestName] else st.tree) = t

theorem copyManifest_cases (faults : DrainFaults) (man : Bytes) (hroot : t.node [] = some .dir) :
    (∃ e st, copyManifest faults man t = (.error e, st) ∧ ManifestCopied man t st ∧
      ¬ (t.isFile [manifestName] = true ∨ t.node [manifestName] = none ∧ faults.copyManifest = none)) ∨
    ∃ st, copyManifest faults man t = (.ok (), st) ∧ ManifestCopied man t st ∧
      (t.isFile [manifestName] = true ∨ t.node [manifestName] = none ∧ faults.copyManifest = none) := by
  have hput (hnone : t.node [manifestName] = none) (b : Bytes) :
      ManifestCopied man t ⟨t.put [manifestName] (.file b), true, []⟩ := by
    have hnode (q : List String) :=
      Tree.put_node (t := t) (p := [manifestName]) (.inr hroot) (by simp [hnone]) (.file b) q
    exact
      { created := rfl
        same := fun q hq => by rw [hnode, if_neg hq]
        keeps := fun q x hx => by
          rw [hnode, if_neg]
          · exact hx
          · rintro rfl
            rw [hnone] at hx
            cases hx
        undone := Tree.removeFile_put_self (.inr hroot) hnone b }
  cases hnode : t.node [manifestName] with
  | some x =>
    cases x with
    | file b =>
      refine .inr ⟨⟨t, false, []⟩, by simp [copyManifest, hnode], ⟨rfl, fun _ _ => rfl, fun _ _ h => h, rfl⟩, .inl ?_⟩
      simp [Tree.isFile, hnode]
    | dir =>
      have hfile : t.isFile [manifestName] = false := by simp [Tree.isFile, hnode]
      refine .inl ⟨faults.blocked, ⟨t, true, []⟩, by simp [copyManifest, hnode],
        ⟨rfl, fun _ _ => rfl, fun _ _ h => h, ?_⟩, by simp [hfile]⟩
      simp [Tree.removeFile, hfile]
  | none =>
    have hfile : t.isFile [manifestName] = false := by simp [Tree.isFile, hnode]
    cases hfault : faults.copyManifest with
    | some p =>
      obtain ⟨e, part⟩ := p
      refine .inl ⟨e, ⟨leavePart t [manifestName] part, true, []⟩, by simp [copyManifest, hnode, hfault], ?_, by simp [hfile]⟩
      cases part with
      | some b => exact hput hnode b
      | none =>
        refine ⟨rfl, fun _ _ => rfl, fun _ _ h => h, ?_⟩
        simp [leavePart, Tree.removeFile, hfile]
    | none =>
      exact .inr ⟨_, by simp [copyManifest, hnode, hfault], hput hnode man, .inr ⟨rfl, rfl⟩⟩

structure Onto (parse : Bytes → Result UInt32) (compact : Bytes → Bytes) (faults : DrainFaults) (src : DrainSource)
    (t : DirTree) (man : Bytes) (out : Result UInt32 × Drained) : Prop where
  root : out.2.tree.node [] = some .dir
  failed : ∀ e, out.1 = .error e → (rollbackDrain false out.2 = t ↔ Spares parse faults src t man)
  keeps : ∀ q x, t.node q = some x → out.2.tree.node q = some x
  drained : ∀ n, out.1 = .ok n → ∃ nShards, parse man = .ok nShards ∧
    n.toNat = (withDataIn src (shardIdsOf nShards)).length ∧
    (∀ i bytes, i ∈ shardIdsOf nShards → src.data i = some bytes →
      out.2.tree.node [shardName i, dataName] = some (.file (compact bytes))) ∧
    (withDataIn src (shardIdsOf nShards)).any (shardFails faults t) = false

theorem readManifest_parse {fault : Option Error} {bytes : Bytes} {n : UInt32}
    (h : readManifest parse fault bytes = .ok n) : parse bytes = .ok n := by
  cases fault with
  | some e => cases h
  | none => exact h

theorem checkManifests_parse {n : UInt32} (h : checkManifests parse faults man t = .ok n) : parse man = .ok n := by
  rw [checkManifests] at h
  split at h
  · obtain ⟨existing, _, h⟩ := bind_eq_ok.mp h
    obtain ⟨incoming, _, h⟩ := bind_eq_ok.mp h
    split at h
    · cases h
    · exact readManifest_parse h
  · exact readManifest_parse h

theorem withDataIn_length (src : DrainSource) (n : UInt32) : (withDataIn src (shardIdsOf n)).length < 2 ^ 32 := by
  have hle : (withDataIn src (shardIdsOf n)).length ≤ (shardIdsOf n).length := List.length_filter_le _ _
  have hlen : (shardIdsOf n).length = n.toNat := by simp [shardIdsOf]
  have hlt := n.toNat_lt
  omega

theorem onto_early {e : Error} {st : Drained} (hroot : t.node [] = some .dir) (hst : ManifestCopied man t st)
    (hno : ∀ n, ¬ Starts parse faults src t man n) : Onto parse compact faults src t man (.error e, st) where
  root := hst.keeps _ _ hroot
  failed _ _ := by
    refine iff_of_true ?_ fun n hs => absurd hs (hno n)
    rw [rollbackDrain, if_neg Bool.false_ne_true, hst.created]
    exact hst.undone
  keeps := hst.keeps
  drained _ h := by cases h

theorem unmoved (man : Bytes) (t : DirTree) : ManifestCopied man t ⟨t, false, []⟩ :=
  ⟨rfl, fun _ _ => rfl, fun _ _ h => h, rfl⟩

theorem drainOnto_spec (parse : Bytes → Result UInt32) (compact : Bytes → Bytes) (faults : DrainFaults) (dst : String)
    (src : DrainSource) (man : Bytes) {t : DirTree} (hroot : t.node [] = some .dir) :
    Onto parse compact faults src t man (drainOnto parse compact faults dst src man t) := by
  rw [drainOnto]
  cases hcheck : checkManifests parse faults man t with
  | error e => exact onto_early hroot (unmoved man t) fun n hs => by cases hcheck.symm.trans hs.manifests
  | ok nShards =>
    have hshards {n : UInt32} (hs : Starts parse faults src t man n) : n = nShards :=
      Except.ok.inj (hs.manifests.symm.trans hcheck)
    cases hfree : (shardIdsOf nShards).find? (clashes src t) with
    | some i =>
      simp only [hfree]
      refine onto_early hroot (unmoved man t) fun n hs => ?_
      obtain rfl := hshards hs
      cases hfree.symm.trans hs.free
    | none =>
      rcases copyManifest_cases faults man hroot with ⟨e, st, hcopy, hst, hno⟩ | ⟨st, hcopy, hst, hyes⟩
      · simp only [hfree, hcopy]
        exact onto_early hroot hst fun n hs => hno hs.copied
      · simp only [hfree, hcopy]
        have hrun := drainShards_spec compact faults dst src (shardIdsOf_nodup nShards) 0
          (hst.keeps _ _ hroot)
        generalize drainShards compact faults dst src (shardIdsOf nShards) 0 st = out at hrun
        have hfails : shardFails faults st.tree = shardFails faults t := by
          funext i
          have hname : [shardName i] ≠ [manifestName] := by simp [shardName_ne_manifest]
          rw [shardFails, shardFails, hst.same _ hname, hst.same [shardName i, dataName] (by simp)]
        have hdir (i : UInt32) : st.tree.node [shardName i] = t.node [shardName i] :=
          hst.same _ (by simp [shardName_ne_manifest])
        have hcreated : out.2.created =
            (attempted (shardFails faults t) (withDataIn src (shardIdsOf nShards))).map shardName := by
          rw [hrun.created, hst.created, hfails, List.nil_append]
        have hgrows := hrun.grows
        rw [hfails, ← hcreated] at hgrows
        exact
          { root := hrun.grows.keeps (hst.keeps _ _ hroot)
            failed := fun e he => by
              have hany := hrun.fails.mp ⟨e, he⟩
              rw [hfails] at hany
              constructor
              · intro hback n hs _ i hi hd
                obtain rfl := hshards hs
                have hmem : shardName i ∈ out.2.created := hcreated ▸ List.mem_map_of_mem hi
                have hlost := hgrows.rollback_lost hmem ((hdir i).trans hd)
                have hnone : (rollbackDrain false out.2).node [shardName i] = none := by
                  rw [rollbackDrain, if_neg Bool.false_ne_true]
                  dsimp only
                  split
                  · exact Tree.removeFile_none hlost
                  · exact hlost
                rw [hback, hd] at hnone
                cases hnone
              · intro hspares
                have hnew := hspares nShards ⟨hcheck, hfree, hyes⟩ hany
                have hback : out.2.created.foldl (fun t name => t.removeDirAll [name]) out.2.tree = st.tree := by
                  refine hgrows.rollback fun name hname => ?_
                  obtain ⟨i, hi, rfl⟩ := List.mem_map.mp (hcreated ▸ hname)
                  rw [hdir]
                  exact hnew i hi
                rw [rollbackDrain, if_neg Bool.false_ne_true, hback, hrun.copied]
                exact hst.undone
            keeps := fun q x hx => hrun.grows.keeps (hst.keeps q x hx)
            drained := fun n hn => by
              refine ⟨nShards, checkManifests_parse hcheck, ?_, fun i bytes hi hb => hrun.data n i bytes hn hi hb, ?_⟩
              · rw [hrun.counted n hn, UInt32.zero_add, UInt32.toNat_ofNat', Nat.mod_eq_of_lt (withDataIn_length src nShards)]
              · rw [← Bool.not_eq_true, ← hfails, ← hrun.fails, hn]
                simp }

structure LeavesDestination (parse : Bytes → Result UInt32) (compact : Bytes → Bytes) (src : DrainSource) (t : DirTree)
    (out : Result UInt32 × DirTree) : Prop where
  failed : ∀ e, out.1 = .error e → out.2 = t
  drained : ∀ n, out.1 = .ok n → ∃ man nShards, src.manifest = some man ∧ parse man = .ok nShards ∧
    n.toNat = (withDataIn src (shardIdsOf nShards)).length ∧
    (∀ i bytes, i ∈ shardIdsOf nShards → src.data i = some bytes →
      out.2.node [shardName i, dataName] = some (.file (compact bytes))) ∧
    ∀ q x, t.node q = some x → out.2.node q = some x

def SparesDestination (parse : Bytes → Result UInt32) (faults : DrainFaults) (src : DrainSource) (t : DirTree) : Prop :=
  t.node [] = some .dir → ∀ man, src.manifest = some man → Spares parse faults src t man

theorem leaves_unchanged {e : Error} : LeavesDestination parse compact src t (.error e, t) :=
  ⟨fun _ _ => rfl, fun _ h => by cases h⟩

theorem Onto.leaves_iff {out : Result UInt32 × Drained} {t₀ : DirTree} (h : Onto parse compact faults src t man out)
    (hman : src.manifest = some man) (hkeeps : ∀ q x, t₀.node q = some x → t.node q = some x) (new : Bool) :
    LeavesDestination parse compact src t₀ (settleDrain new out) ↔
      ∀ e, out.1 = .error e → rollbackDrain new out.2 = t₀ := by
  obtain ⟨result, st⟩ := out
  cases result with
  | error e =>
    constructor
    · intro hl e' _
      exact hl.failed e rfl
    · intro hback
      exact ⟨fun _ _ => hback e rfl, fun _ hn => by cases hn⟩
  | ok n =>
    refine iff_of_true ⟨fun _ he => (by cases he), fun k hk => ?_⟩ fun _ he => by cases he
    obtain ⟨nShards, hparse, hcount, hdata, _⟩ := h.drained k hk
    exact ⟨man, nShards, hman, hparse, hcount, hdata, fun q x hx => h.keeps q x (hkeeps q x hx)⟩

theorem Onto.failed_iff {out : Result UInt32 × Drained} (h : Onto parse compact faults src t man out) :
    (∀ e, out.1 = .error e → rollbackDrain false out.2 = t) ↔ Spares parse faults src t man := by
  cases hout : out.1 with
  | error e =>
    have hiff := h.failed e hout
    exact ⟨fun hall => hiff.mp (hall e rfl), fun hs _ _ => hiff.mpr hs⟩
  | ok n =>
    refine iff_of_true (fun _ he => by cases he) fun k hs hany => ?_
    obtain ⟨nShards, hparse, _, _, hnone⟩ := h.drained n hout
    obtain rfl := Except.ok.inj ((checkManifests_parse hs.manifests).symm.trans hparse)
    rw [hnone] at hany
    cases hany

theorem absent_tree (h : t.node [] = none) : t = Tree.absent String Bytes :=
  Tree.ext (funext fun q => Tree.none_below h (List.nil_prefix (l := q)))

theorem drain_leaves_destination_iff : LeavesDestination parse compact src t (drainTo parse compact faults dst src t) ↔
    SparesDestination parse faults src t := by
  rw [drainTo, SparesDestination]
  cases hman : src.manifest with
  | none => exact iff_of_true leaves_unchanged fun _ man h => by cases h
  | some man =>
    have hmanifest : (∀ man', some man = some man' → Spares parse faults src t man') ↔ Spares parse faults src t man :=
      ⟨fun h => h man rfl, fun h man' he => Option.some.inj he ▸ h⟩
    rw [hmanifest]
    dsimp only
    rw [drainInto]
    cases hnode : t.node [] with
    | none =>
      have hgone : t.removeDirAll [] = t := by
        simp [Tree.removeDirAll, Tree.isDir, hnode]
      refine iff_of_true ?_ fun h => by cases h
      cases hcreate : faults.createDst with
      | some e =>
        have hout : createDirAll faults (some e) t [] = .error e := by simp [createDirAll, hnode]
        rw [hout]
        simp only [settleDrain, rollbackDrain, Option.isNone_none, if_true, hgone]
        exact leaves_unchanged
      | none =>
        have hout : createDirAll faults none t [] = .ok (t.put [] .dir) := by simp [createDirAll, hnode]
        have hput (q : List String) := Tree.put_node (t := t) (p := []) (.inl rfl) (by simp [hnode]) (.dir : Node Bytes) q
        have honto := drainOnto_spec parse compact faults dst src man ((hput []).trans (if_pos rfl))
        rw [hout]
        refine (honto.leaves_iff hman (fun q x hx => ?_) _).mpr fun e _ => ?_
        · rw [Tree.none_below hnode List.nil_prefix] at hx
          cases hx
        · rw [rollbackDrain, Option.isNone_none, if_pos rfl, Tree.removeDirAll_root honto.root]
          exact (absent_tree hnode).symm
    | some x =>
      cases x with
      | file b =>
        have hout : createDirAll faults faults.createDst t [] = .error faults.blocked := by simp [createDirAll, hnode]
        rw [hout]
        refine iff_of_true ?_ fun h => by cases h
        simp only [settleDrain, rollbackDrain, Option.isNone_some, Bool.false_eq_true, if_false, List.foldl_nil]
        exact leaves_unchanged
      | dir =>
        have hout : createDirAll faults faults.createDst t [] = .ok t := by simp [createDirAll, hnode]
        have honto := drainOnto_spec parse compact faults dst src man hnode
        rw [hout, honto.leaves_iff hman (fun _ _ h => h), Option.isNone_some, honto.failed_iff]
        exact ⟨fun h _ => h, fun h => h rfl⟩

def notesTree : DirTree :=
  (((Tree.absent String Bytes).put [] .dir).put [shardName 0] .dir).put [shardName 0, "notes.txt"] (.file [104, 105])

def damagedShard : DrainSource := ⟨some [], fun i => if i = 0 then some [110] else none⟩

def unreadableShard : DrainFaults where
  blocked := .io "Not a directory"
  createDst := none
  readExisting := none
  readIncoming := none
  readManifest := none
  copyManifest := none
  openShard i := if i = 0 then some (.heed "MDB_INVALID: File is not an LMDB file") else none
  createShard _ := none
  snapshot _ := none

-- The notes in the directory of a shard that cannot be opened are gone.
theorem notes_removed : ¬ LeavesDestination (fun _ => .ok 1) id damagedShard notesTree
    (drainTo (fun _ => .ok 1) id unreadableShard "dest" damagedShard notesTree) := by
  intro h
  have herror : (drainTo (fun _ => .ok 1) id unreadableShard "dest" damagedShard notesTree).1 =
      .error (.heed "MDB_INVALID: File is not an LMDB file") := by decide +kernel
  have hgone : (drainTo (fun _ => .ok 1) id unreadableShard "dest" damagedShard notesTree).2.node [shardName 0, "notes.txt"] =
      none := by decide +kernel
  have hnotes : notesTree.node [shardName 0, "notes.txt"] = some (.file [104, 105]) := by decide +kernel
  rw [h.failed _ herror, hnotes] at hgone
  cases hgone

end Whole

end ReadconDb
