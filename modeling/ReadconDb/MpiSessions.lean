import ReadconDb.MpiStaging

set_option linter.unusedSectionVars false

namespace ReadconDb

open ByteString Outcome Blocks Slicing Draining

section Openings

variable {F : Type} [Float64 F] {io : EngineIo F} {size : Nat} {route : Route} {rank : Nat}

theorem openEnvs_mem {tabs : List FileTab} {envs opened : List UInt32} (h : openEnvs io size route rank envs tabs = .ok opened)
    (e : UInt32) : e ∈ opened ↔ e ∈ envs ∨ ∃ t ∈ tabs, route.to size t.trajId = (rank, e) := by
  induction tabs generalizing envs with
  | nil =>
    cases h
    simp
  | cons t tabs ih =>
    rw [openEnvs] at h
    split at h
    · next hnew =>
      split at h
      · cases h
      · rw [ih h, List.mem_append, List.mem_singleton, or_assoc]
        refine or_congr_right ?_
        simp only [List.mem_cons, exists_eq_or_imp, Prod.ext_iff, hnew.1, true_and, eq_comm (a := e)]
    · next hold =>
      rw [ih h]
      simp only [List.mem_cons, exists_eq_or_imp, Prod.ext_iff]
      by_cases hmine : (route.to size t.trajId).1 = rank ∧ (route.to size t.trajId).2 = e
      · have hin : e ∈ envs := by
          by_contra hnot
          exact hold ⟨hmine.1, hmine.2 ▸ hnot⟩
        simp [hin]
      · simp [hmine]

theorem forM_ok {A : Type} {f : A → Result Unit} {xs : List A} (h : xs.forM f = .ok ()) : ∀ a ∈ xs, f a = .ok () := by
  induction xs with
  | nil => simp
  | cons a xs ih =>
    have hcons : (f a >>= fun _ => xs.forM f) = .ok () := h
    obtain ⟨_, hfirst, h⟩ := bind_eq_ok.mp hcons
    exact List.forall_mem_cons.mpr ⟨hfirst, ih h⟩

structure Begun (tables : UInt32 → ConCorpus F) (size : Nat) (route : Route) (tabs : List FileTab) (rank : Nat)
    (s : RankState F) : Prop where
  opened : ∀ e, e ∈ s.opened ↔ ∃ t ∈ tabs, route.to size t.trajId = (rank, e)
  at_ : ∀ e ∈ s.opened, s.At e (tables e) (tables e) []
  keyed : s.Keyed
  unclaimed : ∀ t ∈ tabs, (route.to size t.trajId).1 = rank →
    (tables (route.to size t.trajId).2).trajMeta[t.trajId]? = none

theorem trajClaimed_ok {txn : ConCorpus F} {id : UInt64} (h : trajClaimed txn id = .ok ()) : txn.trajMeta[id]? = none := by
  rw [trajClaimed] at h
  split at h
  · cases h
  · next hnone => exact hnone

theorem beginEnvs_begun {tables : UInt32 → ConCorpus F} {tabs : List FileTab} {envs : List UInt32} {s : RankState F}
    (hopen : openEnvs io size route rank [] tabs = .ok envs) (h : beginEnvs io size route rank tables tabs envs = .ok s) :
    Begun tables size route tabs rank s := by
  obtain ⟨_, _, h⟩ := bind_eq_ok.mp h
  obtain ⟨_, hclaims, h⟩ := bind_eq_ok.mp h
  obtain rfl := pure_eq_ok.mp h
  have hopened (e : UInt32) : e ∈ envs ↔ ∃ t ∈ tabs, route.to size t.trajId = (rank, e) := by
    rw [openEnvs_mem hopen e]
    simp
  refine ⟨hopened, fun e he => ⟨if_pos he, rfl⟩, ⟨List.nodup_nil, fun e he => absurd rfl he⟩, fun t ht hmine => ?_⟩
  have hin : (route.to size t.trajId).2 ∈ envs := (hopened _).mpr ⟨t, ht, Prod.ext hmine rfl⟩
  have hclaim := forM_ok hclaims t ht
  rw [claimFile] at hclaim
  simp only [hmine, if_true, sessionsOf, if_pos hin] at hclaim
  exact trajClaimed_ok hclaim

theorem collective_map_ok {A B : Type} {f : A → Result B} {xs : List A} {ys : List B}
    (h : collective (xs.map f) = .ok ys) : List.Forall₂ (fun a b => f a = .ok b) xs ys := by
  have hall := collective_eq_ok.mp h
  rwa [← List.forall₂_eq_eq_eq, List.forall₂_map_left_iff, List.forall₂_map_right_iff] at hall

theorem beginAll_begun {tables : UInt32 → ConCorpus F} {tabs : List FileTab} {ranks : List (RankState F)}
    (h : beginAll io size route tables tabs = .ok ranks) {rank : Nat} (hr : rank < size) :
    ∃ s, ranks[rank]? = some s ∧ Begun tables size route tabs rank s := by
  obtain ⟨envs, henvs, h⟩ := bind_eq_ok.mp h
  obtain ⟨_, _, h⟩ := bind_eq_ok.mp h
  obtain ⟨_, _, h⟩ := bind_eq_ok.mp h
  have hopened := collective_map_ok henvs
  have hlen : envs.length = size := by rw [← hopened.length_eq, List.length_range]
  have hopen := (List.forall₂_iff_get.mp hopened).2 rank (by rwa [List.length_range]) (by omega)
  have hall := congrArg (fun ys => ys[rank]?) (collective_eq_ok.mp h)
  simp only [List.getElem?_mapIdx, List.getElem?_map, List.getElem?_eq_getElem (hlen ▸ hr : rank < envs.length),
    Option.map_some] at hall
  obtain ⟨s, hs, hbegun⟩ := Option.map_eq_some_iff.mp hall.symm
  simp only [List.get_eq_getElem, List.getElem_range] at hopen
  exact ⟨s, hs, beginEnvs_begun hopen hbegun.symm⟩

theorem beginAll_length {tables : UInt32 → ConCorpus F} {tabs : List FileTab} {ranks : List (RankState F)}
    (h : beginAll io size route tables tabs = .ok ranks) : ranks.length = size := by
  obtain ⟨envs, henvs, h⟩ := bind_eq_ok.mp h
  obtain ⟨_, _, h⟩ := bind_eq_ok.mp h
  obtain ⟨_, _, h⟩ := bind_eq_ok.mp h
  have hall := congrArg List.length (collective_eq_ok.mp h)
  rw [List.length_mapIdx, List.length_map] at hall
  rw [← hall, ← (collective_map_ok henvs).length_eq, List.length_range]

end Openings

section Metas

variable {F : Type} [Float64 F] {d : Crates F} {io : EngineIo F} {size : Nat} {route : Route} {rank : Nat}
  {s s' : RankState F}

def stampFile (d : Crates F) (c : ConCorpus F) (tc : FileTab × UInt32) : ConCorpus F :=
  { c with trajMeta := c.trajMeta.insert tc.1.trajId (TrajMeta.stored d { nFrames := tc.2, source := tc.1.path }) }

theorem putMeta_at {tc : FileTab × UInt32} (h : putMeta d io size route rank s tc = .ok s') :
    s'.opened = s.opened ∧ ∀ {e base c buf}, s.At e base c buf →
      s'.At e base (if route.to size tc.1.trajId = (rank, e) then stampFile d c tc else c) buf := by
  rw [putMeta] at h
  split at h
  · next hmine =>
    split at h
    · cases h
    · next session hsession =>
      obtain ⟨next, hnext, h⟩ := bind_eq_ok.mp h
      obtain ⟨_, _, h⟩ := bind_eq_ok.mp h
      obtain rfl := pure_eq_ok.mp h
      refine ⟨rfl, fun {e base c buf} hat => ?_⟩
      by_cases he : (route.to size tc.1.trajId).2 = e
      · subst he
        obtain rfl := Option.some.inj (hsession.symm.trans hat.session)
        have hto : route.to size tc.1.trajId = (rank, (route.to size tc.1.trajId).2) := Prod.ext hmine rfl
        rw [if_pos hto]
        refine ⟨?_, hat.buf⟩
        simp only [IngestSession.putTrajMeta, Except.ok.injEq] at hnext
        exact (Function.update_self _ _ _).trans (congrArg some hnext.symm)
      · rw [if_neg fun heq => he (congrArg Prod.snd heq)]
        exact hat.keep (Function.update_of_ne (Ne.symm he) _ _) rfl
  · next hother =>
    cases h
    refine ⟨rfl, fun {e base c buf} hat => ?_⟩
    rw [if_neg fun heq => hother (congrArg Prod.fst heq)]
    exact hat

theorem putMetas_at {tcs : List (FileTab × UInt32)} (h : tcs.foldlM (putMeta d io size route rank) s = .ok s') :
    s'.opened = s.opened ∧ ∀ {e base c buf}, s.At e base c buf →
      s'.At e base ((tcs.filter fun tc => route.to size tc.1.trajId = (rank, e)).foldl (stampFile d) c) buf := by
  induction tcs generalizing s with
  | nil =>
    cases h
    exact ⟨rfl, id⟩
  | cons tc tcs ih =>
    rw [List.foldlM_cons] at h
    obtain ⟨mid, hmid, h⟩ := bind_eq_ok.mp h
    obtain ⟨hopened, hone⟩ := putMeta_at hmid
    obtain ⟨hopened', hall⟩ := ih h
    refine ⟨hopened'.trans hopened, fun {e base c buf} hat => ?_⟩
    have hnext := hall (hone hat)
    by_cases hto : route.to size tc.1.trajId = (rank, e)
    · rw [if_pos hto] at hnext
      rwa [List.filter_cons_of_pos (by simpa using hto)]
    · rw [if_neg hto] at hnext
      rwa [List.filter_cons_of_neg (by simpa using hto)]

end Metas

section Commits

variable {F : Type} [Float64 F] {io : EngineIo F} {s : RankState F}

-- Each environment is as it was or as its transaction leaves it; a rank without an error has committed all of its own.
theorem commitEnvs_each {ids : List UInt32} {e : UInt32} {base c : ConCorpus F} {buf : List Held}
    (hat : e ∈ ids → s.At e base c buf) (tables : UInt32 → ConCorpus F) :
    ((commitEnvs io s ids tables).2 e = tables e ∨ e ∈ ids ∧ (commitEnvs io s ids tables).2 e = c) ∧
      ((commitEnvs io s ids tables).1 = .ok () → e ∈ ids → (commitEnvs io s ids tables).2 e = c) := by
  induction ids generalizing tables with
  | nil => exact ⟨.inl rfl, by simp⟩
  | cons id ids ih =>
    have hrest (tables' : UInt32 → ConCorpus F) := ih (fun h => hat (List.mem_cons_of_mem _ h)) tables'
    by_cases heq : e = id
    · subst heq
      have hsession := (hat List.mem_cons_self).session
      rw [commitEnvs, hsession]
      simp only [IngestSession.commit]
      cases io.committed e with
      | some err => exact ⟨.inl rfl, fun h => by cases h⟩
      | none =>
        simp only
        obtain ⟨hleft, hdone⟩ := hrest (Function.update tables e c)
        have hval : (commitEnvs io s ids (Function.update tables e c)).2 e = c := by
          rcases hleft with hleft | ⟨_, hleft⟩
          · rw [hleft, Function.update_self]
          · exact hleft
        exact ⟨.inr ⟨List.mem_cons_self, hval⟩, fun _ _ => hval⟩
    · have hmem : e ∈ id :: ids ↔ e ∈ ids := by simp [heq]
      rw [hmem, commitEnvs]
      split
      · exact hrest tables
      · next session _ =>
        split
        · exact ⟨.inl rfl, fun h => by cases h⟩
        · exact ⟨.inl rfl, fun h => by cases h⟩
        · next c' _ _ =>
          obtain ⟨hleft, hdone⟩ := hrest (Function.update tables id c')
          rw [Function.update_of_ne heq] at hleft
          exact ⟨hleft, hdone⟩

theorem commitAll_each {ranks : List (RankState F)} {q : Nat} {e : UInt32} {base c : ConCorpus F} {buf : List Held}
    (hat : ∀ s, ranks[q]? = some s → e ∈ s.opened → s.At e base c buf)
    (hother : ∀ r s, ranks[r]? = some s → r ≠ q → e ∉ s.opened) (tables : UInt32 → ConCorpus F) :
    ((commitAll io ranks tables).2 e = tables e ∨ (commitAll io ranks tables).2 e = c) ∧
      ((∀ r ∈ (commitAll io ranks tables).1, r = .ok ()) → (∃ s, ranks[q]? = some s ∧ e ∈ s.opened) →
        (commitAll io ranks tables).2 e = c) ∧
      ((∀ s ∈ ranks, e ∉ s.opened) → (commitAll io ranks tables).2 e = tables e) := by
  have hordered (s : RankState F) : e ∈ io.order s.opened ↔ e ∈ s.opened := (io.reorders s.opened).mem_iff
  induction ranks generalizing q tables with
  | nil => exact ⟨.inl rfl, by simp, fun _ => rfl⟩
  | cons s ranks ih =>
    rw [commitAll]
    have huntouched (hs : e ∉ s.opened) : (commitEnvs io s (io.order s.opened) tables).2 e = tables e := by
      have hnot : e ∉ io.order s.opened := fun h => hs ((hordered s).mp h)
      rcases (@commitEnvs_each _ _ io s _ e base c buf (fun h => absurd h hnot) tables).1 with h | ⟨h, _⟩
      · exact h
      · exact absurd h hnot
    cases q with
    | zero =>
      have hlater : ∀ s' ∈ ranks, e ∉ s'.opened := by
        intro s' hs'
        obtain ⟨r, hr⟩ := List.mem_iff_getElem?.mp hs'
        exact hother (r + 1) s' (by simpa using hr) (Nat.succ_ne_zero r)
      obtain ⟨_, _, hkeep⟩ := ih (q := ranks.length) (by simp)
        (fun r s' hr _ => hlater s' (List.mem_of_getElem? hr)) (commitEnvs io s (io.order s.opened) tables).2
      simp only
      rw [hkeep hlater]
      obtain ⟨hleft, hdone⟩ := @commitEnvs_each _ _ io s (io.order s.opened) e _ _ _
        (fun h => hat s rfl ((hordered s).mp h)) tables
      refine ⟨hleft.imp_right And.right, fun hall hmine => ?_, fun hnone => huntouched (hnone s List.mem_cons_self)⟩
      obtain ⟨s', hs', hin⟩ := hmine
      obtain rfl := Option.some.inj hs'
      exact hdone (hall _ List.mem_cons_self) ((hordered s).mpr hin)
    | succ q =>
      have hfirst : e ∉ s.opened := hother 0 s rfl (Nat.succ_ne_zero q).symm
      obtain ⟨hleft, hdone, hkeep⟩ := ih (q := q) (fun s' hs' => hat s' (by simpa using hs'))
        (fun r s' hr hne => hother (r + 1) s' (by simpa using hr) (by omega))
        (commitEnvs io s (io.order s.opened) tables).2
      rw [huntouched hfirst] at hleft hkeep
      simp only
      refine ⟨hleft, fun hall hmine => ?_, fun hnone => hkeep fun s' hs' => hnone s' (List.mem_cons_of_mem _ hs')⟩
      obtain ⟨s', hs', hin⟩ := hmine
      exact hdone (fun r hr => hall r (List.mem_cons_of_mem _ hr)) ⟨s', by simpa using hs', hin⟩

end Commits

end ReadconDb
