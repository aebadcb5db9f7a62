import ReadconDb.FrameCodec

set_option linter.unusedSectionVars false

namespace ReadconDb

open ByteString Outcome

section Totals

variable {F : Type} {d : Crates F}

theorem mapM_total {E A B : Type} {f : A → Except E B} {as : List A} (h : ∀ a ∈ as, ∃ b, f a = .ok b) :
    ∃ bs, as.mapM f = .ok bs := by
  induction as with
  | nil => exact ⟨[], rfl⟩
  | cons a as ih =>
    obtain ⟨b, hb⟩ := h a (by simp)
    obtain ⟨bs, hbs⟩ := ih fun a' ha' => h a' (by simp [ha'])
    exact ⟨b :: bs, by rw [List.mapM_cons, hb, hbs]; rfl⟩

theorem storeFrame_total (he : ∀ b, ∃ z, d.zstdEncode b = .ok z) (text : String)
    (compress : Bool) : ∃ stored, storeFrame d text compress = .ok stored := by
  obtain ⟨z, hz⟩ := he (utf8 text)
  cases compress with
  | false => exact ⟨_, rfl⟩
  | true =>
    rw [storeFrame, hz]
    simp only [Bool.not_true, Bool.false_eq_true, if_false]
    split
    · exact ⟨_, rfl⟩
    · exact ⟨_, rfl⟩

def ShortTexts (fs : List (UInt32 × String)) : Prop := ∀ f ∈ fs, (utf8 f.2).length < 2 ^ 32

theorem encodeGroup_total_iff (he : ∀ b, ∃ z, d.zstdEncode b = .ok z) {run : List (UInt32 × String)} :
    (∃ b, encodeGroup d run = .ok b) ↔ ShortTexts run := by
  have hany : run.any (fun f => decide ((utf8 f.2).length > 2 ^ 32 - 1)) = false ↔ ShortTexts run := by
    rw [List.any_eq_false]
    refine forall₂_congr fun f _ => ?_
    rw [decide_eq_true_eq]
    omega
  obtain ⟨z, hz⟩ := he (groupPayload run)
  rw [encodeGroup, hz, ← hany]
  split
  · next hlong =>
    constructor
    · rintro ⟨_, hb⟩
      cases hb
    · intro hshort
      rw [hshort] at hlong
      cases hlong
  · next hshort => exact ⟨fun _ => Bool.not_eq_true _ ▸ hshort, fun _ => ⟨_, rfl⟩⟩

theorem packRun_total_iff (he : ∀ b, ∃ z, d.zstdEncode b = .ok z) {run : List (UInt32 × String)} :
    (∃ rows, packRun d run = .ok rows) ↔ (2 ≤ run.length → ShortTexts run) := by
  have hall : ∀ f ∈ run, ∃ b, storeFrame d f.2 true = .ok b := fun f _ => storeFrame_total he f.2 true
  obtain ⟨singles, hsingles⟩ := mapM_total hall
  rw [packRun, hsingles]
  simp only [bind, Except.bind]
  split
  · next first second rest =>
    rw [← encodeGroup_total_iff he]
    cases hg : encodeGroup d (first :: second :: rest) with
    | error e => simp
    | ok grouped =>
      constructor
      · exact fun _ _ => ⟨grouped, rfl⟩
      · intro _
        simp only
        split
        · exact ⟨_, rfl⟩
        · exact ⟨_, rfl⟩
  · next hfew =>
    refine ⟨fun _ h2 => ?_, fun _ => ⟨_, rfl⟩⟩
    cases run with
    | nil => simp at h2
    | cons first run =>
      cases run with
      | nil => simp at h2
      | cons second rest => exact absurd rfl (hfew first second rest)

theorem packAligned_total_iff (he : ∀ b, ∃ z, d.zstdEncode b = .ok z) {fs : List (UInt32 × String)} :
    (∃ rows, packAligned d fs = .ok rows) ↔ ∀ run ∈ fs.splitBy sameGroup, 2 ≤ run.length → ShortTexts run := by
  simp only [← packRun_total_iff he]
  constructor
  · rintro ⟨rows, hrows⟩ run hrun
    obtain ⟨packed, hp, _⟩ := bind_eq_ok.mp hrows
    obtain ⟨out, _, ho⟩ := forall₂_mem_left (mapM_eq_ok.mp hp) hrun
    exact ⟨out, ho⟩
  · intro hrun
    obtain ⟨packed, hp⟩ := mapM_total hrun
    exact ⟨packed.flatten, by rw [packAligned, hp]; rfl⟩

theorem packAligned_total (he : ∀ b, ∃ z, d.zstdEncode b = .ok z) {fs : List (UInt32 × String)}
    (hs : ShortTexts fs) : ∃ rows, packAligned d fs = .ok rows := by
  apply (packAligned_total_iff he).mpr
  intro run hrun _ f hf
  apply hs
  rw [← List.flatten_splitBy sameGroup fs]
  exact List.mem_flatten.mpr ⟨run, hrun, hf⟩

end Totals

section Lengths

variable {F : Type} {d : Crates F}

theorem packRun_length {run : List (UInt32 × String)} {rows : List Bytes} (h : packRun d run = .ok rows) :
    rows.length = run.length := by
  rw [packRun] at h
  obtain ⟨singles, hs, h⟩ := bind_eq_ok.mp h
  have hsingles := mapM_length hs
  split at h
  · next first second rest _ =>
    obtain ⟨grouped, _, h⟩ := bind_eq_ok.mp h
    split at h
    · obtain rfl := pure_eq_ok.mp h
      rw [List.length_cons, length_redirects]
      rfl
    · exact pure_eq_ok.mp h ▸ hsingles
  · exact pure_eq_ok.mp h ▸ hsingles

theorem packRuns_length {runs : List (List (UInt32 × String))} {packed : List (List Bytes)}
    (h : runs.mapM (packRun d) = .ok packed) : packed.flatten.length = runs.flatten.length := by
  have hrows := mapM_eq_ok.mp h
  clear h
  induction hrows with
  | nil => rfl
  | cons hr _ ih => rw [List.flatten_cons, List.flatten_cons, List.length_append, List.length_append, packRun_length hr, ih]

theorem packAligned_length {frames : List (UInt32 × String)} {rows : List Bytes} (h : packAligned d frames = .ok rows) :
    rows.length = frames.length := by
  obtain ⟨packed, hp, h⟩ := bind_eq_ok.mp h
  obtain rfl := pure_eq_ok.mp h
  rw [packRuns_length hp, List.flatten_splitBy]

theorem packAligned_cut {xs ys : List (UInt32 × String)} {rows : List Bytes}
    (hcut : ∀ x ∈ xs.getLast?, ∀ y ∈ ys.head?, sameGroup x y = false) (h : packAligned d (xs ++ ys) = .ok rows) :
    ∃ front back, packAligned d xs = .ok front ∧ packAligned d ys = .ok back ∧ rows = front ++ back := by
  obtain ⟨packed, hp, h⟩ := bind_eq_ok.mp h
  obtain rfl := pure_eq_ok.mp h
  rw [List.splitBy_append hcut, List.mapM_append] at hp
  obtain ⟨front, hfront, hp⟩ := bind_eq_ok.mp hp
  obtain ⟨back, hback, hp⟩ := bind_eq_ok.mp hp
  obtain rfl := pure_eq_ok.mp hp
  refine ⟨front.flatten, back.flatten, ?_, ?_, List.flatten_append⟩
  · rw [packAligned, hfront]
    rfl
  · rw [packAligned, hback]
    rfl

theorem packAligned_join {xs ys : List (UInt32 × String)} {front back : List Bytes}
    (hcut : ∀ x ∈ xs.getLast?, ∀ y ∈ ys.head?, sameGroup x y = false) (hx : packAligned d xs = .ok front)
    (hy : packAligned d ys = .ok back) : packAligned d (xs ++ ys) = .ok (front ++ back) := by
  obtain ⟨packed, hp, hx⟩ := bind_eq_ok.mp hx
  obtain ⟨packed', hp', hy⟩ := bind_eq_ok.mp hy
  obtain rfl := pure_eq_ok.mp hx
  obtain rfl := pure_eq_ok.mp hy
  rw [packAligned, List.splitBy_append hcut, mapM_append_ok hp hp', ← List.flatten_append]
  rfl

end Lengths

section Sizes

variable {F : Type} {d : Crates F}

def storedBytes (rows : List Bytes) : Nat := (rows.map List.length).sum

theorem storedBytes_append (as bs : List Bytes) : storedBytes (as ++ bs) = storedBytes as + storedBytes bs := by
  rw [storedBytes, List.map_append, List.sum_append]
  rfl

theorem storedBytes_redirects (head : UInt32) (n : Nat) : storedBytes (redirects head n) = redirLen * (n - 1) := by
  have hlen : ∀ l ∈ (redirects head n).map List.length, l = redirLen := by
    intro l hl
    simp only [redirects, List.map_map, List.mem_map, Function.comp_apply] at hl
    obtain ⟨slot, _, rfl⟩ := hl
    simp [encodeRedirect, redirTag, redirLen]
  rw [storedBytes, List.sum_eq_card_nsmul _ _ hlen, List.length_map, length_redirects, smul_eq_mul, Nat.mul_comm]

-- A run is grouped only where that is shorter.
theorem packRun_size {run : List (UInt32 × String)} {rows : List Bytes} (h : packRun d run = .ok rows) :
    ∃ singles, run.mapM (fun f => storeFrame d f.2 true) = .ok singles ∧ storedBytes rows ≤ storedBytes singles := by
  rw [packRun] at h
  obtain ⟨singles, hs, h⟩ := bind_eq_ok.mp h
  refine ⟨singles, hs, ?_⟩
  split at h
  · next first second rest _ =>
    obtain ⟨grouped, _, h⟩ := bind_eq_ok.mp h
    split at h
    · next hlt =>
      obtain rfl := pure_eq_ok.mp h
      have hcons : storedBytes (grouped :: redirects first.1 (first :: second :: rest).length) =
          grouped.length + storedBytes (redirects first.1 (first :: second :: rest).length) := by
        rw [storedBytes, List.map_cons, List.sum_cons]
        rfl
      rw [hcons, storedBytes_redirects]
      exact hlt.le
    · exact pure_eq_ok.mp h ▸ le_rfl
  · exact pure_eq_ok.mp h ▸ le_rfl

theorem packRuns_size {runs : List (List (UInt32 × String))} {packed : List (List Bytes)}
    (h : runs.mapM (packRun d) = .ok packed) :
    ∃ singles, runs.flatten.mapM (fun f => storeFrame d f.2 true) = .ok singles ∧
      storedBytes packed.flatten ≤ storedBytes singles := by
  have hrows := mapM_eq_ok.mp h
  clear h
  induction hrows with
  | nil => exact ⟨[], rfl, le_rfl⟩
  | cons hr _ ih =>
    obtain ⟨front, hf, hle⟩ := packRun_size hr
    obtain ⟨back, hb, hle'⟩ := ih
    refine ⟨front ++ back, mapM_append_ok hf hb, ?_⟩
    rw [List.flatten_cons, storedBytes_append, storedBytes_append]
    exact Nat.add_le_add hle hle'

theorem packAligned_size {frames : List (UInt32 × String)} {rows : List Bytes} (h : packAligned d frames = .ok rows) :
    ∃ singles, frames.mapM (fun f => storeFrame d f.2 true) = .ok singles ∧ storedBytes rows ≤ storedBytes singles := by
  obtain ⟨packed, hp, h⟩ := bind_eq_ok.mp h
  obtain rfl := pure_eq_ok.mp h
  have hsize := packRuns_size hp
  rwa [List.flatten_splitBy] at hsize

end Sizes

end ReadconDb
