import ReadconDb.MpiRefines
import ReadconDb.Rooted

set_option linter.unusedSectionVars false

namespace ReadconDb

open ByteString Outcome

section History

variable {F : Type} [Float64 F] {d : Crates F}

inductive ClusterRun (d : Crates F) : (UInt32 → ConCorpus F) → Prop where
  | empty : ClusterRun d fun _ => ConCorpus.empty F
  | call {tables : UInt32 → ConCorpus F} (h : ClusterRun d tables) (e : UInt32) (a : Action F) (v : Verdicts) :
      ClusterRun d (Function.update tables e (a.exec d v (tables e)).2)
  -- An ingest opens its environments anew, and so with compression.
  | ingest {tables : UInt32 → ConCorpus F} (h : ClusterRun d tables) {files : Files} {input : List (UInt64 × String)}
      {run : BatchRun F} {batch size : Nat} (hs : 0 < size) (hp : SlicesParse d files input)
      (hnc : NoCollision d files input) (hc : ∀ e, (tables e).compressFrames = true) (hrun : GoesThrough run batch)
      (io : EngineIo F) (route : Route) : ClusterRun d (engine d files io size route run input tables).2

theorem serialIngest_history {files : Files} {size : Nat} {route : Route} {input : List (UInt64 × String)}
    {tables : UInt32 → ConCorpus F} (h : ∀ e, History d AnyCall (tables e)) (e : UInt32) :
    History d AnyCall ((serialIngest d files size route input tables).2 e) := by
  induction input generalizing tables with
  | nil => exact h e
  | cons f rest ih =>
    have hnext : ∀ e, History d AnyCall (Function.update tables (route.to size f.1).2
        (appendTrajectoryPath d none (tables (route.to size f.1).2) (tables (route.to size f.1).2) f.1
          (conFile files f.2)).2 e) := by
      intro e
      by_cases he : e = (route.to size f.1).2
      · subst he
        rw [Function.update_self]
        exact .step (.appendPath f.1 (conFile files f.2) none) .granted (h _) trivial
      · rw [Function.update_of_ne he]
        exact h e
    rw [serialIngest]
    split
    · exact hnext e
    · exact ih hnext

theorem engine_history (hz : ZstdLossless d) {files : Files} {input : List (UInt64 × String)} {io : EngineIo F}
    {route : Route} {run : BatchRun F} {batch size : Nat} (hs : 0 < size) (hp : SlicesParse d files input)
    (hnc : NoCollision d files input) {tables : UInt32 → ConCorpus F} (hc : ∀ e, (tables e).compressFrames = true)
    (hrun : GoesThrough run batch) (h : ∀ e, History d AnyCall (tables e)) (e : UInt32) :
    History d AnyCall ((engine d files io size route run input tables).2 e) := by
  rcases @engine_cases F _ d files io size route run input tables hs batch hrun with
    ⟨_, hkeep⟩ | ⟨counts, ranks, x, bs, hstaged, heq⟩
  · rw [hkeep]
    exact h e
  · have hread := hp.ingestible hstaged.prepared.scanned
    have hserial : History d AnyCall ((serialIngest d files size route input tables).2 e) := serialIngest_history h e
    rw [hstaged.serial hz hread hnc hc] at hserial
    rw [heq]
    rcases (hstaged.commits hz hread hnc io e).1 with hleft | hdone
    · exact hleft ▸ h e
    · exact hdone ▸ hserial

theorem cluster_history (hz : ZstdLossless d) {tables : UInt32 → ConCorpus F} (h : ClusterRun d tables) (e : UInt32) :
    History d AnyCall (tables e) ∧ Rooted (tables e) := by
  have hall : ∀ e, History d AnyCall (tables e) := by
    induction h with
    | empty => exact fun _ => .empty
    | call h e a v ih =>
      intro e'
      by_cases he : e' = e
      · rw [he, Function.update_self]
        exact .step a v (ih e) trivial
      · rw [Function.update_of_ne he]
        exact ih e'
    | ingest h hs hp hnc hc hrun io route ih => exact engine_history hz hs hp hnc hc hrun ih
  exact ⟨hall e, (hall e).rooted hz⟩

end History

section Tiny

theorem fullTables_run (input : List (UInt64 × String)) : ClusterRun tiny (fullTables input) :=
  ClusterRun.empty.ingest Nat.two_pos (tinyFiles_slices _) (tinyFiles_noCollision _) (fun _ => rfl) (.inl rfl) fullIo
    (.sharded 2)

-- Environment 0 has committed and environment 1 has not; the next call writes to environment 1.
theorem parted_cluster_history : History tiny AnyCall (Function.update (fullTables partedInput) 1
    ((Action.store (.appendStr 7 helium.2 "tiny.con")).exec tiny .granted (fullTables partedInput 1)).2 1) ∧
      Rooted (Function.update (fullTables partedInput) 1
        ((Action.store (.appendStr 7 helium.2 "tiny.con")).exec tiny .granted (fullTables partedInput 1)).2 1) :=
  cluster_history tiny_lossless
    ((fullTables_run partedInput).call 1 (.store (.appendStr 7 helium.2 "tiny.con")) .granted) 1

end Tiny

end ReadconDb
