import ReadconDb.Rooted

set_option linter.unusedSectionVars false

namespace ReadconDb

open ByteString Outcome OrderedTable TwoPhase

def ContentHash.fromBytes (b : Bytes) : Option ContentHash := if h : b.length = 16 then some ⟨b, h⟩ else none

section Queries

variable {F : Type} [Float64 F] (d : Crates F) (c : ConCorpus F)

def frameHash (key : FrameKey) : Result ContentHash :=
  match c.hashByFrame[key.toBytes.val]? with
  | some b =>
    match ContentHash.fromBytes b with
    | some h => .ok h
    | none => .error (.message "bad hash")
  | none => do return hashFrameBytes d (utf8 (← getFrameText d c key))

def findByHash (hash : ContentHash) : Option FrameKey := c.frameByHash[hash.val]?.bind FrameKey.fromBytes

def keepPosted : List FrameKey → Result (List FrameKey)
  | [] => .ok []
  | k :: rest => do
    let h ← frameHash d c k
    let uniq ← keepPosted rest
    return if findByHash c h = some k then k :: uniq else uniq

def uniqueFrameKeys (sel : Select F) : Result (List FrameKey) := do
  keepPosted d c (← select c sel)

end Queries

section Unique

variable {F : Type} [Float64 F] {d : Crates F} {c : ConCorpus F} {sel : Select F} {ks us : List FrameKey}

structure Representatives (d : Crates F) (c : ConCorpus F) (ks us : List FrameKey) : Prop where
  sublist : us.Sublist ks
  distinct : us.Pairwise fun j k => ∀ h, frameHash d c j = .ok h → frameHash d c k ≠ .ok h
  occurs : ∀ h, (∃ k ∈ us, frameHash d c k = .ok h) ↔
    ∃ k ∈ ks, findByHash c h = some k ∧ frameHash d c k = .ok h

theorem keepPosted_ok (h : keepPosted d c ks = .ok us) : us.Sublist ks ∧
    ∀ k, k ∈ us ↔ k ∈ ks ∧ ∃ h, frameHash d c k = .ok h ∧ findByHash c h = some k := by
  induction ks generalizing us with
  | nil =>
    obtain rfl := Except.ok.inj h
    simp
  | cons k ks ih =>
    obtain ⟨hash, hh, h⟩ := bind_eq_ok.mp h
    obtain ⟨uniq, hu, h⟩ := bind_eq_ok.mp h
    obtain rfl := pure_eq_ok.mp h
    obtain ⟨hsub, hmem⟩ := ih hu
    split
    · next hp =>
      refine ⟨hsub.cons_cons k, fun j => ?_⟩
      rw [List.mem_cons, List.mem_cons, hmem]
      constructor
      · rintro (rfl | ⟨hj, hpost⟩)
        · exact ⟨.inl rfl, hash, hh, hp⟩
        · exact ⟨.inr hj, hpost⟩
      · rintro ⟨rfl | hj, hpost⟩
        · exact .inl rfl
        · exact .inr ⟨hj, hpost⟩
    · next hp =>
      refine ⟨hsub.cons k, fun j => ?_⟩
      rw [hmem, List.mem_cons]
      constructor
      · exact fun ⟨hj, hpost⟩ => ⟨.inr hj, hpost⟩
      · rintro ⟨rfl | hj, h', hh', hpost⟩
        · rw [hh, Except.ok.injEq] at hh'
          exact absurd (hh' ▸ hpost) hp
        · exact ⟨hj, h', hh', hpost⟩

theorem keepPosted_total (h : ∀ k ∈ ks, ∃ h, frameHash d c k = .ok h) : ∃ us, keepPosted d c ks = .ok us := by
  induction ks with
  | nil => exact ⟨[], rfl⟩
  | cons k ks ih =>
    obtain ⟨hash, hh⟩ := h k (by simp)
    obtain ⟨us, hu⟩ := ih fun j hj => h j (by simp [hj])
    exact ⟨_, bind_eq_ok.mpr ⟨hash, hh, bind_eq_ok.mpr ⟨us, hu, rfl⟩⟩⟩

theorem representatives_of_keepPosted (hn : ks.Nodup) (h : keepPosted d c ks = .ok us) :
    Representatives d c ks us := by
  obtain ⟨hsub, hmem⟩ := keepPosted_ok h
  have hpost : ∀ k ∈ us, ∀ hash, frameHash d c k = .ok hash → findByHash c hash = some k := by
    intro k hk hash hh
    obtain ⟨_, h', hh', hp⟩ := (hmem k).mp hk
    rw [hh, Except.ok.injEq] at hh'
    exact hh' ▸ hp
  refine ⟨hsub, ?_, fun hash => ?_⟩
  · refine (hn.sublist hsub).imp_of_mem fun {j k} hj hk hne hash hhj hhk => hne ?_
    have hpj := hpost j hj hash hhj
    rw [hpost k hk hash hhk, Option.some.injEq] at hpj
    exact hpj.symm
  · constructor
    · rintro ⟨k, hk, hh⟩
      exact ⟨k, hsub.subset hk, hpost k hk hash hh, hh⟩
    · rintro ⟨k, hk, hp, hh⟩
      exact ⟨k, (hmem k).mpr ⟨hk, hash, hh, hp⟩, hh⟩

theorem Rooted.frameHash (h : Rooted c) {k : FrameKey} (hk : k.toBytes.val ∈ c.frames) :
    ∃ hash, ReadconDb.frameHash d c k = .ok hash := by
  obtain ⟨b, hb⟩ := (mem_iff_get _ _).mp ((h.hashed _).mpr hk)
  refine ⟨⟨b, h.digests _ b hb⟩, ?_⟩
  rw [ReadconDb.frameHash, hb]
  simp only [ContentHash.fromBytes, h.digests _ b hb, dite_true]

theorem Rooted.found (h : Rooted c) {hash : ContentHash} {k : FrameKey} (hk : findByHash c hash = some k) :
    k.toBytes.val ∈ c.frames := by
  obtain ⟨b, hb, hk⟩ := Option.bind_eq_some_iff.mp hk
  rw [FrameKey.toBytes_of_fromBytes hk]
  exact h.posted _ b hb

theorem Rooted.picked (h : Rooted c) {k : FrameKey} (hp : Picked c sel k) : k.toBytes.val ∈ c.frames := by
  cases hh : sel.contentHash with
  | none => exact h.mentioned (hp.mentions hh)
  | some hash => exact h.found (hp.hash hash hh)

theorem mem_cut {k : FrameKey} (hk : k ∈ sel.cut ks) : k ∈ ks := by
  rw [Select.cut] at hk
  split at hk
  · exact hk
  · exact List.mem_of_mem_take hk

theorem cut_sublist : (sel.cut ks).Sublist ks := by
  rw [Select.cut]
  split
  · exact List.Sublist.refl ks
  · exact List.take_sublist _ _

theorem Rooted.representatives (h : Rooted c) (sel : Select F) :
    (∃ e, select c sel = .error e ∧ uniqueFrameKeys d c sel = .error e) ∨
      ∃ ks us, select c sel = .ok ks ∧ uniqueFrameKeys d c sel = .ok us ∧ Representatives d c ks us := by
  rcases select_cases h.laid sel with ⟨_, e, _, _, _, he⟩ | ⟨ks, hlt, hmem, hsel⟩
  · refine .inl ⟨e, he, ?_⟩
    rw [uniqueFrameKeys, he]
    rfl
  · have hstored : ∀ k ∈ sel.cut ks, ∃ hash, ReadconDb.frameHash d c k = .ok hash :=
      fun k hk => h.frameHash (h.picked ((hmem k).mp (mem_cut hk)))
    obtain ⟨us, hu⟩ := keepPosted_total hstored
    have hn : (sel.cut ks).Nodup := (hlt.imp fun h => ne_of_lt h).sublist cut_sublist
    exact .inr ⟨_, us, hsel, bind_eq_ok.mpr ⟨_, hsel, hu⟩, representatives_of_keepPosted hn hu⟩

theorem unique_representatives (hz : ZstdLossless d) (h : History d AnyCall c) (sel : Select F) :
    (∃ e, select c sel = .error e ∧ uniqueFrameKeys d c sel = .error e) ∨
      ∃ ks us, select c sel = .ok ks ∧ uniqueFrameKeys d c sel = .ok us ∧ Representatives d c ks us :=
  (h.rooted hz).representatives sel

theorem select_nonempty (hl : Laid c) :
    (∃ ks, select c sel = .ok ks ∧ ks ≠ []) ↔ sel.limit ≠ some 0 ∧ ∃ k, Picked c sel k := by
  rcases select_cases hl sel with ⟨raw, e, hraw, _, hn, he⟩ | ⟨ks, _, hmem, hsel⟩
  · constructor
    · rintro ⟨ks, hks, _⟩
      rw [he] at hks
      cases hks
    · rintro ⟨_, k, hk⟩
      obtain ⟨_, hex, _, hhex, _⟩ := hk.topo raw hraw
      rw [hn] at hhex
      cases hhex
  · have hks : ks ≠ [] ↔ ∃ k, Picked c sel k := by
      rw [← List.isEmpty_eq_false_iff, List.isEmpty_eq_false_iff_exists_mem]
      simp only [hmem]
    have hcut : sel.cut ks ≠ [] ↔ sel.limit ≠ some 0 ∧ ks ≠ [] := by
      rw [Select.cut]
      cases sel.limit with
      | none => simp
      | some n => simp [List.take_eq_nil_iff]
    rw [hsel, ← hks, ← hcut]
    simp

theorem picked_of_free {k : FrameKey} (hf : sel.Free) (ht : ∀ t, sel.trajId = some t → k.trajId = t)
    (hk : k.toBytes.val ∈ c.frames) : Picked c sel k where
  hash h hh := by
    rw [hf] at hh
    cases hh
  natoms hg := by
    rw [hf] at hg
    cases hg
  symbols sym hs := by
    rw [hf] at hs
    cases hs
  formula f hs := by
    rw [hf] at hs
    cases hs
  topo raw hs := by
    rw [hf] at hs
    cases hs
  countExact e hs := by
    rw [hf] at hs
    cases hs
  countMin e hs := by
    rw [hf] at hs
    cases hs
  scalar ch hg := by
    rw [hf] at hg
    cases ch <;> cases hg
  pbc p hs := by
    rw [hf] at hs
    cases hs
  forces hs := by
    rw [hf] at hs
    cases hs
  velocities hs := by
    rw [hf] at hs
    cases hs
  energy hs := by
    rw [hf] at hs
    cases hs
  traj := ht
  stored _ := hk

def Satisfies (c : ConCorpus F) (sel : Select F) (k : FrameKey) : Prop := Picked c { sel with contentHash := none } k

variable {hash : ContentHash} {k : FrameKey}

theorem Rooted.picked_iff (h : Rooted c) (hs : sel.contentHash = some hash) :
    Picked c sel k ↔ findByHash c hash = some k ∧ Satisfies c sel k := by
  constructor
  · intro hp
    have hm : Marked c { sel with contentHash := none } k := { hp.toMarked with hash := by simp }
    exact ⟨hp.hash hash hs, { hm with traj := hp.traj, stored := fun _ => h.picked hp }⟩
  · rintro ⟨hf, hp⟩
    have hm : Marked c sel k :=
      { hp.toMarked with
        hash := fun h' hh' => by
          rw [hs, Option.some.injEq] at hh'
          exact hh' ▸ hf }
    exact { hm with traj := hp.traj, stored := fun _ => h.found hf }

def Match (d : Crates F) (c : ConCorpus F) (sel : Select F) (hash : ContentHash) (k : FrameKey) : Prop :=
  (∃ s, getFrameText d c k = .ok s ∧ hashFrameBytes d (utf8 s) = hash) ∧ Satisfies c sel k

def FindsExact (d : Crates F) (c : ConCorpus F) (sel : Select F) (hash : ContentHash) : Prop :=
  (∃ ks, select c sel = .ok ks ∧ ks ≠ []) ↔ ∃ k, Match d c sel hash k

theorem HashTablesCoherent.found (hc : HashTablesCoherent d c) (hk : findByHash c hash = some k) :
    ∃ s, getFrameText d c k = .ok s ∧ hashFrameBytes d (utf8 s) = hash := by
  obtain ⟨b, hb, hk⟩ := Option.bind_eq_some_iff.mp hk
  have hname := hc.names _ b hb
  obtain ⟨j, s, hj, hs, hh⟩ := hc.current b ((hc.domain b).mp ((mem_iff_get _ _).mpr ⟨_, hname⟩))
  rw [hname, Option.some.injEq] at hh
  rw [hj, FrameKey.fromBytes_toBytes, Option.some.injEq] at hk
  exact ⟨s, hk ▸ hs, Subtype.ext hh.symm⟩

-- The look-up sees one frame of each hash, the one that is posted.
theorem Rooted.select_hash (h : Rooted c) (hs : sel.contentHash = some hash) :
    (∃ ks, select c sel = .ok ks ∧ ks ≠ []) ↔
      sel.limit ≠ some 0 ∧ ∃ k, findByHash c hash = some k ∧ Satisfies c sel k := by
  rw [select_nonempty h.laid]
  simp only [h.picked_iff hs]

theorem exact_hash_posted (hz : ZstdLossless d) (h : History d AnyCall c) (hs : sel.contentHash = some hash) :
    ((∃ ks, select c sel = .ok ks ∧ ks ≠ []) ↔
      sel.limit ≠ some 0 ∧ ∃ k, findByHash c hash = some k ∧ Satisfies c sel k) ∧
        ∀ k, findByHash c hash = some k → k.toBytes.val ∈ c.frames :=
  ⟨(h.rooted hz).select_hash hs, fun _ hk => (h.rooted hz).found hk⟩

end Unique

section Tiny

def tinyTwin : ConCorpus Bits :=
  tinyAction (.store (.appendStr 1 hydrogen.2 "tiny.con"))
    (tinyAction (.store (.appendStr 0 hydrogen.2 "tiny.con")) (ConCorpus.empty Bits))

theorem tinyTwin_history {allow : ConCorpus Bits → Action Bits → Prop}
    (ha : ∀ c t, allow c (.store (.appendStr t hydrogen.2 "tiny.con"))) : History tiny allow tinyTwin :=
  tinyAction_history (tinyAction_history .empty (ha _ _)) (ha _ _)

theorem tiny_unique_representatives :
    (∃ e, select tinyTwin {} = .error e ∧ uniqueFrameKeys tiny tinyTwin {} = .error e) ∨
      ∃ ks us, select tinyTwin {} = .ok ks ∧ uniqueFrameKeys tiny tinyTwin {} = .ok us ∧
        Representatives tiny tinyTwin ks us :=
  unique_representatives tiny_lossless (tinyTwin_history fun _ _ => trivial) {}

def hydrogenHash : ContentHash := hashFrameBytes tiny (utf8 hydrogen.2)

theorem tinyTwin_posted : findByHash tinyTwin hydrogenHash = some ⟨0, 0⟩ := by decide +kernel

theorem tinyTwin_hash : frameHash tiny tinyTwin ⟨1, 0⟩ = .ok hydrogenHash := by decide +kernel

theorem tinyTwin_stored : (FrameKey.mk 1 0).toBytes.val ∈ tinyTwin.frames := by decide +kernel

theorem tinyTwin_text : getFrameText tiny tinyTwin ⟨1, 0⟩ = .ok hydrogen.2 := by decide +kernel

theorem tinyTwin_rooted : Rooted tinyTwin := by
  have hist : History tiny AnyCall tinyTwin := tinyTwin_history fun _ _ => trivial
  exact hist.rooted tiny_lossless

def secondOnly : Select Bits := { trajId := some 1 }

def secondWithHash : Select Bits := { trajId := some 1, contentHash := some hydrogenHash }

theorem tiny_representative_elsewhere : ∃ ks us, select tinyTwin secondOnly = .ok ks ∧
    uniqueFrameKeys tiny tinyTwin secondOnly = .ok us ∧ FrameKey.mk 1 0 ∈ ks ∧
      frameHash tiny tinyTwin ⟨1, 0⟩ = .ok hydrogenHash ∧
        ∀ u ∈ us, frameHash tiny tinyTwin u ≠ .ok hydrogenHash := by
  rcases select_cases tinyTwin_rooted.laid secondOnly with ⟨_, _, h, _⟩ | ⟨ks, _, hmem, hsel⟩
  · cases h
  · rcases tinyTwin_rooted.representatives (d := tiny) secondOnly with ⟨e, he, _⟩ | ⟨ks', us, hsel', hu, hrep⟩
    · rw [hsel] at he
      cases he
    · rw [hsel, Except.ok.injEq] at hsel'
      subst hsel'
      have hin : FrameKey.mk 1 0 ∈ ks :=
        (hmem _).mpr (picked_of_free rfl (fun _ h => Option.some.inj h) tinyTwin_stored)
      refine ⟨ks, us, hsel, hu, hin, tinyTwin_hash, fun u hu hh => ?_⟩
      obtain ⟨k, hk, hpost, _⟩ := (hrep.occurs hydrogenHash).mp ⟨u, hu, hh⟩
      rw [tinyTwin_posted, Option.some.injEq] at hpost
      have ht := ((hmem k).mp hk).traj 1 rfl
      rw [← hpost] at ht
      cases ht

def firstWithHash : Select Bits := { contentHash := some hydrogenHash }

theorem tiny_exact_hash_posted : ((∃ ks, select tinyTwin firstWithHash = .ok ks ∧ ks ≠ []) ↔
    firstWithHash.limit ≠ some 0 ∧
      ∃ k, findByHash tinyTwin hydrogenHash = some k ∧ Satisfies tinyTwin firstWithHash k) ∧
        ∀ k, findByHash tinyTwin hydrogenHash = some k → k.toBytes.val ∈ tinyTwin.frames :=
  exact_hash_posted tiny_lossless (tinyTwin_history fun _ _ => trivial) rfl

-- The frame of the second trajectory is never looked at.
theorem tiny_exact_hash_misses : ¬ FindsExact tiny tinyTwin secondWithHash hydrogenHash := by
  intro h
  have hmatch : Match tiny tinyTwin secondWithHash hydrogenHash ⟨1, 0⟩ :=
    ⟨⟨hydrogen.2, tinyTwin_text, rfl⟩, picked_of_free rfl (fun _ h => Option.some.inj h) tinyTwin_stored⟩
  obtain ⟨_, k, hpost, hsat⟩ := (tinyTwin_rooted.select_hash rfl).mp (h.mpr ⟨_, hmatch⟩)
  rw [tinyTwin_posted, Option.some.injEq] at hpost
  have ht := hsat.traj 1 rfl
  rw [← hpost] at ht
  cases ht

end Tiny

end ReadconDb
