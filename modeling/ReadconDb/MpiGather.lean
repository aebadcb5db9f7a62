import ReadconDb.MpiExchange

set_option linter.unusedSectionVars false

namespace ReadconDb

open ByteString Outcome Blocks Slicing Binning

section Winners

variable {K : Type} [DecidableEq K]

theorem firstFrom_append {seen : List (K × Nat)} (before ks : List K)
    (hseen : ∀ k, seen.lookup k = if k ∈ before then some (before.idxOf k) else none) :
    firstFrom seen before.length ks = ks.map fun k => (before ++ ks).idxOf k := by
  induction ks generalizing seen before with
  | nil => rfl
  | cons k ks ih =>
    have hlen : before.length + 1 = (before ++ [k]).length := by simp
    have hsplit : before ++ k :: ks = (before ++ [k]) ++ ks := by simp
    rw [firstFrom, hseen k, List.map_cons]
    by_cases hk : k ∈ before
    · rw [if_pos hk, List.idxOf_append_of_mem hk, hlen, ih (before ++ [k]), hsplit]
      intro k'
      rw [hseen k']
      by_cases hk' : k' ∈ before
      · rw [if_pos hk', if_pos (List.mem_append_left _ hk'), List.idxOf_append_of_mem hk']
      · have hne : k' ∉ before ++ [k] := by
          intro h
          rcases List.mem_append.mp h with h | h
          · exact hk' h
          · exact hk' (List.mem_singleton.mp h ▸ hk)
        rw [if_neg hk', if_neg hne]
    · have hself : (before ++ k :: ks).idxOf k = before.length := by
        rw [List.idxOf_append_of_notMem hk, List.idxOf_cons_self, Nat.add_zero]
      have hnext : ∀ k', ((k, before.length) :: seen).lookup k' =
          if k' ∈ before ++ [k] then some ((before ++ [k]).idxOf k') else none := by
        intro k'
        by_cases heq : k' = k
        · subst heq
          rw [List.lookup_cons_self, if_pos (by simp), List.idxOf_append_of_notMem hk, List.idxOf_cons_self, Nat.add_zero]
        · have hb : (k' == k) = false := by simpa using heq
          rw [List.lookup_cons, hb, hseen k']
          by_cases hk' : k' ∈ before
          · rw [if_pos hk', if_pos (List.mem_append_left _ hk'), List.idxOf_append_of_mem hk']
          · rw [if_neg hk', if_neg (by simp [hk', heq])]
      rw [if_neg hk, hself, hsplit, ← ih (before ++ [k]) hnext, ← hlen]

theorem firstFrom_eq (ks : List K) : firstFrom [] 0 ks = ks.map fun k => ks.idxOf k :=
  firstFrom_append [] ks fun _ => rfl

def firstAt (ks : List K) (g : Nat) : Nat := ((firstFrom [] 0 ks)[g]?).getD 0

theorem firstAt_eq {ks : List K} {g : Nat} (hg : g < ks.length) : firstAt ks g = ks.idxOf ks[g] := by
  rw [firstAt, firstFrom_eq, List.getElem?_map, List.getElem?_eq_getElem hg, Option.map_some, Option.getD_some]

theorem firstAt_le {ks : List K} {g : Nat} (hg : g < ks.length) : firstAt ks g ≤ g := by
  rw [firstAt_eq hg]
  by_contra h
  have hne := List.not_of_lt_findIdx (Nat.lt_of_not_le h)
  simp at hne

theorem firstAt_key {ks : List K} {g : Nat} (hg : g < ks.length) : ks[firstAt ks g]? = some ks[g] := by
  rw [firstAt_eq hg]
  exact List.getElem?_idxOf (List.getElem_mem hg)

theorem firstAt_firstAt {ks : List K} {g : Nat} (hg : g < ks.length) : firstAt ks (firstAt ks g) = firstAt ks g := by
  obtain ⟨hlt, hkey⟩ := List.getElem?_eq_some_iff.mp (firstAt_key hg)
  rw [firstAt_eq hlt, hkey, firstAt_eq hg]

end Winners

section Gather

def hashGatherChunkFrames : Nat := mpiCountMax.toNat / 16

variable (n size : Nat)

@[irreducible] def gatherEnd (g0 : Nat) : Nat := min (g0 + max hashGatherChunkFrames 1) n

theorem gatherEnd_within {g0 : Nat} (h : g0 < n) : g0 < gatherEnd n g0 ∧ gatherEnd n g0 ≤ n := by
  have hone : 1 ≤ max hashGatherChunkFrames 1 := le_max_right _ _
  rw [gatherEnd]
  generalize max hashGatherChunkFrames 1 = chunk at hone ⊢
  omega

def chunkCounts (g0 g1 : Nat) : Result (List Int32) :=
  (List.range size).mapM fun rank =>
    let bytes := (rankSpan n size rank g0 g1).length * 16
    if usizeMax < bytes then .error (.message "hash count overflows") else mpiI32 (UInt64.ofNat bytes)

def sendHashes (g0 g1 rank : Nat) (l : Local) : Checked Error Bytes := do
  let mine ← (rankSpan n size rank g0 g1).mapM fun g => do
    let i ← minus g l.first
    index l.hashes i
  return mine.flatMap fun h => h.val

-- `MPI_Allgatherv`: so many bytes of each rank, put at its displacement.
def allgatherv (sends : List Bytes) (counts displs : List Int32) (total : Nat) : Bytes :=
  let writes := sends.mapIdx fun r s =>
    ({ offset := i32At displs r, data := piece s 0 (i32At counts r) } : Extents.Write UInt8)
  (List.range total).map fun i => (writes.foldl Extents.put (fun _ => some 0) i).getD 0

def gatherFrom (locals : List Local) (g0 : Nat) : Checked Error Bytes :=
  if _h : g0 < n then do
    let g1 := gatherEnd n g0
    let counts ← lift (chunkCounts n size g0 g1)
    let displs ← lift (prefixI32 counts)
    let sends ← (locals.mapIdx (sendHashes n size g0 g1)).mapM id
    let rest ← gatherFrom locals g1
    return allgatherv sends counts displs ((g1 - g0) * 16) ++ rest
  else return []
  termination_by n - g0
  decreasing_by
    have hin := gatherEnd_within n _h
    omega

def gatherHashes (locals : List Local) : Checked Error Bytes :=
  if n = 0 then return []
  else if usizeMax < n * 16 then
    lift (.error (.message ("hash exchange of " ++ toString n ++ " frames overflows")))
  else gatherFrom n size locals 0

end Gather

section Prepare

variable {A : Type}

-- A step whose outcome is the same on every rank.
def alike (size : Nat) (x : Checked Error A) : Checked (List Error) A :=
  match x with
  | none => panicked
  | some (.ok a) => lift (.ok a)
  | some (.error e) => lift (.error ((List.replicate size (.error e : Result A)).mapIdx rankError))

def together (xs : List (Checked Error A)) : Checked (List Error) (List A) :=
  match xs.mapM ExceptT.run with
  | none => panicked
  | some rs => lift (collective rs)

variable {F : Type} [Float64 F] (d : Crates F) (files : Files)

theorem scanFiles_inOrder {input : List (UInt64 × String)} {tabs : List FileTab} (h : scanFiles d files input = .ok tabs) :
    InOrder 0 tabs ∧ tabs.map (fun t => (t.trajId, t.path)) = input ∧ framesIn tabs ≤ usizeMax := by
  rw [scanFiles] at h
  split at h
  · cases h
  · obtain ⟨horder, hinput, hfit⟩ := scanTabs_inOrder h
    refine ⟨horder, hinput, ?_⟩
    have hle := hfit (Nat.zero_le _)
    rwa [Nat.zero_add] at hle

-- A rank whose vectors outgrow the address space is ended by its allocator.
def allocated (l : Local) : Checked Error Local := if l.bytes < 2 ^ 64 then lift (.ok l) else panicked

def envsOf (size : Nat) (route : Route) (tabs : List FileTab) : List (Nat × UInt32) :=
  tabs.flatMap fun t => List.replicate t.n (route.to size t.trajId)

def winnerKeys (envOf : List (Nat × UInt32)) (allH : Bytes) (n : Nat) : List (UInt32 × Bytes) :=
  (List.range n).map fun g => (((envOf[g]?).getD (0, 0)).2, piece allH (g * 16) (g * 16 + 16))

-- The steps before the batches. The owners open their environments after the counts; no batch reads those.
def prepare (size : Nat) (route : Route) (input : List (UInt64 × String)) : Checked (List Error) Exchange :=
  if ¬(input.map Prod.fst).Nodup then
    lift (.error (List.replicate size (.message "duplicate traj_id in MPI ingest")))
  else
    match h : scanFiles d files input with
    | .error e => lift (.error (List.replicate size e))
    | .ok tabs => do
      let n := framesIn tabs
      let _ ← alike size (lift (tabs.mapM fun t => fitU32 t.n))
      let locals ← together ((List.range size).map fun rank => do
        let l ← parseLocal d files tabs (blockRange n size rank)
        allocated l)
      let allH ← alike size (gatherHashes n size locals)
      let envOf := envsOf size route tabs
      return {
        size
        tabs
        locals
        envOf
        firstOf := firstFrom [] 0 (winnerKeys envOf allH n)
        counted := (scanFiles_inOrder d files h).2.2 }

end Prepare

section Prepared

variable {A : Type}

theorem alike_ok {size : Nat} {x : Checked Error A} {a : A} (h : alike size x = lift (.ok a)) : x = lift (.ok a) := by
  cases x with
  | none => cases h
  | some r =>
    cases r with
    | error e => cases h
    | ok b =>
      cases h
      rfl

theorem together_ok {xs : List (Checked Error A)} {as : List A} (h : together xs = lift (.ok as)) :
    xs = as.map fun a => lift (.ok a) := by
  have hruns (ys : List (Checked Error A)) (rs : List (Result A)) (hr : ys.mapM ExceptT.run = some rs) : ys = rs.map lift := by
    induction ys generalizing rs with
    | nil =>
      cases hr
      rfl
    | cons y ys ih =>
      simp only [List.mapM_cons, Option.bind_eq_bind, Option.bind_eq_some_iff, Option.pure_def, Option.some.injEq] at hr
      obtain ⟨r, hy, rs', hys, rfl⟩ := hr
      rw [List.map_cons, ← ih rs' hys]
      congr 1
  rw [together] at h
  split at h
  · cases h
  · next rs hr =>
    rw [hruns xs rs hr, collective_eq_ok.mp (lift_inj h), List.map_map]
    rfl

theorem blockRange_start_le (n size rank : Nat) : (blockRange n size rank).1 ≤ (blockRange n size rank).2 := by
  rw [blockRange_stop]
  exact blockRange_mono n size (Nat.le_succ rank)

theorem fitU32_lt {n : Nat} {k : UInt32} (h : fitU32 n = .ok k) : n < 2 ^ 32 := by
  rw [fitU32] at h
  split at h
  · next hlt => exact hlt
  · cases h

variable {size : Nat} {route : Route} {tabs : List FileTab}

theorem Route.to_lt (route : Route) (hs : 0 < size) (t : UInt64) : (route.to size t).1 < size := by
  cases route with
  | single => exact hs
  | sharded nShards => exact Nat.mod_lt _ hs

theorem Route.to_owner (route : Route) {t t' : UInt64} (h : (route.to size t).2 = (route.to size t').2) :
    (route.to size t).1 = (route.to size t').1 := by
  cases route with
  | single => rfl
  | sharded nShards => exact congrArg (fun s => s.toNat % size) h

theorem length_envsOf : (envsOf size route tabs).length = framesIn tabs := by
  rw [envsOf, List.length_flatMap, framesIn]
  simp

theorem envsOf_routed {g : Nat} (hg : g < framesIn tabs) : ∃ t, ((envsOf size route tabs)[g]?).getD (0, 0) = route.to size t := by
  have hlt : g < (envsOf size route tabs).length := by rwa [length_envsOf]
  have hmem := List.getElem_mem hlt
  rw [List.getElem?_eq_getElem hlt, Option.getD_some]
  obtain ⟨t, _, ht⟩ := List.mem_flatMap.mp hmem
  exact ⟨t.trajId, (List.mem_replicate.mp ht).2⟩

theorem length_winnerKeys {envOf : List (Nat × UInt32)} {allH : Bytes} {n : Nat} : (winnerKeys envOf allH n).length = n := by
  rw [winnerKeys, List.length_map, List.length_range]

theorem firstAt_winnerKeys {envOf : List (Nat × UInt32)} {allH : Bytes} {n g : Nat} (hg : g < n) :
    let w := firstAt (winnerKeys envOf allH n) g
    ((envOf[w]?).getD (0, 0)).2 = ((envOf[g]?).getD (0, 0)).2 ∧
      piece allH (w * 16) (w * 16 + 16) = piece allH (g * 16) (g * 16 + 16) := by
  intro w
  have hg' : g < (winnerKeys envOf allH n).length := by rwa [length_winnerKeys]
  have hkey := firstAt_key hg'
  obtain ⟨hw, hkey⟩ := List.getElem?_eq_some_iff.mp hkey
  simp only [winnerKeys, List.getElem_map, List.getElem_range] at hkey
  exact Prod.mk.inj hkey

variable {F : Type} [Float64 F] {d : Crates F} {files : Files}

theorem prepare_sound (hs : 0 < size) {input : List (UInt64 × String)} {x : Exchange}
    (h : prepare d files size route input = lift (.ok x)) : x.Sound ∧ x.Resident := by
  rw [prepare] at h
  split at h
  · cases h
  · split at h
    · cases h
    · next tabs htabs =>
      obtain ⟨counts, hcounts, h⟩ := checked_bind_ok h
      obtain ⟨locals, hlocals, h⟩ := checked_bind_ok h
      obtain ⟨allH, _, h⟩ := checked_bind_ok h
      cases h
      obtain ⟨horder, _, _⟩ := scanFiles_inOrder d files htabs
      have hparsed := together_ok hlocals
      have hranks : locals.length = size := by
        have hlen := congrArg List.length hparsed
        simpa using hlen.symm
      have hrank (rank : Nat) (l : Local) (hl : locals[rank]? = some l) :
          rank < size ∧ l.bytes < 2 ^ 64 ∧ parseLocal d files tabs (blockRange (framesIn tabs) size rank) = lift (.ok l) := by
        have hlt : rank < size := by
          rw [← hranks]
          exact (List.getElem?_eq_some_iff.mp hl).1
        have hget := congrArg (fun ys => ys[rank]?) hparsed
        simp only [List.getElem?_map, List.getElem?_range hlt, hl, Option.map_some] at hget
        obtain ⟨l', hparse, halloc⟩ := checked_bind_ok (Option.some.inj hget)
        rw [allocated] at halloc
        split at halloc
        · next hbytes =>
          cases halloc
          exact ⟨hlt, hbytes, hparse⟩
        · cases halloc
      have hlocal (rank : Nat) (l : Local) (hl : locals[rank]? = some l) := by
        obtain ⟨hlt, _, hparse⟩ := hrank rank l hl
        exact parseLocal_holds d files horder (blockRange_start_le _ _ rank) (blockRange_le _ hlt) hparse
      have hat {g : Nat} (hg : g < framesIn tabs) :
          g < (winnerKeys (envsOf size route tabs) allH (framesIn tabs)).length := by rwa [length_winnerKeys]
      have hrouted {g : Nat} (hg : g < framesIn tabs) :
          ∃ t, ((envsOf size route tabs)[g]?).getD (0, 0) = route.to size t := envsOf_routed hg
      refine ⟨?_, fun l hl => ?_⟩
      · exact {
          pos := hs
          ranks := hranks
          first := fun rank l hl => (hlocal rank l hl).1
          holds := fun rank l hl => (hlocal rank l hl).2
          envs := length_envsOf
          owners := by
            intro g hg
            obtain ⟨t, ht⟩ := hrouted hg
            exact (congrArg Prod.fst ht).trans_lt (route.to_lt hs t)
          oneOwner := by
            intro g hg g' hg' henv
            obtain ⟨t, ht⟩ := hrouted hg
            obtain ⟨t', ht'⟩ := hrouted hg'
            change (((envsOf size route tabs)[g]?).getD (0, 0)).2 = (((envsOf size route tabs)[g']?).getD (0, 0)).2 at henv
            change (((envsOf size route tabs)[g]?).getD (0, 0)).1 = (((envsOf size route tabs)[g']?).getD (0, 0)).1
            rw [ht, ht'] at henv ⊢
            exact route.to_owner henv
          winners := by simp [firstFrom_eq, winnerKeys, Exchange.n]
          winner_le := fun g hg => firstAt_le (hat hg)
          winner_winner := fun g hg => firstAt_firstAt (hat hg)
          winner_env := fun g hg => (firstAt_winnerKeys hg).1
          order := horder
          numbered := by
            intro t ht
            obtain ⟨k, _, hk⟩ := forall₂_mem_left (mapM_eq_ok.mp (lift_inj (alike_ok hcounts))) ht
            exact fitU32_lt hk }
      · obtain ⟨rank, hrank'⟩ := List.mem_iff_getElem?.mp hl
        exact (hrank rank l hrank').2.1

end Prepared

end ReadconDb
