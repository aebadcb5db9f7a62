import ReadconDb.CookedCodec
import ReadconDb.MpiCounts

set_option linter.unusedSectionVars false

namespace ReadconDb

open ByteString Outcome Blocks

section Calls

structure Partition where
  counts : List Int32
  displs : List Int32
  deriving DecidableEq, Repr

-- In a release build the scan's `*a += x` wraps.
def prefixSums (c : List Int32) : List Int32 := (scan 0 c).map Prod.fst

def lenI32 (b : Bytes) : Int32 := Int32.ofNat b.length

def partitionOf (counts : List Int32) : Partition := { counts, displs := prefixSums counts }

def scatterCall (size : Nat) (packed : Result (List Bytes)) : Spmd (Bytes × Partition) := do
  let packed ← collective (packed :: List.replicate (size - 1) (.ok []))
  let blocks := packed.headD []
  return (blocks.flatten, partitionOf (blocks.map lenI32))

def gatherTotal (lens : List Int32) : UInt64 := (lens.map fun x => x.toInt64.toUInt64).foldl (· + ·) 0

def gatherCall (blocks : List Bytes) : UInt64 × Partition :=
  let lens := blocks.map lenI32
  (gatherTotal lens, partitionOf lens)

-- The varcount collectives of the MPI library, as they move bytes.
structure Mpi where
  scatterv : Bytes → Partition → List Bytes
  gatherv : List Bytes → UInt64 → Partition → Bytes

def bcastKeys (keys : List FrameKey) : List FrameKey :=
  (chunksExact 12 (keys.flatMap fun k => k.toBytes.val)).filterMap FrameKey.fromBytes

theorem bcastKeys_eq (keys : List FrameKey) : bcastKeys keys = keys := by
  rw [bcastKeys, chunksExact_flatMap (by decide) fun k => k.toBytes.property, List.filterMap_map]
  have hback : (FrameKey.fromBytes ∘ fun k : FrameKey => k.toBytes.val) = some := by
    funext k
    exact FrameKey.fromBytes_toBytes k
  rw [hback, List.filterMap_some]

section Scatter

variable {F : Type} [Float64 F] (d : Crates F) (mpi : Mpi)

def packFrames (c : ConCorpus F) (keys : List FrameKey) : Result Bytes := do
  encodeBatch (← keys.mapM (packFrame d c))

def blockOf (keys : List FrameKey) (size rank : Nat) : List FrameKey :=
  piece keys (blockRange keys.length size rank).1 (blockRange keys.length size rank).2

def packBlocks (opened : Result (ConCorpus F)) (keys : List FrameKey) (size : Nat) : Result (List Bytes) := do
  let c ← opened
  (List.range size).mapM fun r => packFrames d c (blockOf keys size r)

def scatterPackedFrames (opened : Result (ConCorpus F)) (keys : List FrameKey) (size : Nat) :
    Spmd (List ((Nat × Nat) × Bytes)) := do
  let keys := bcastKeys keys
  let (all, call) ← scatterCall size (packBlocks d opened keys size)
  return (mpi.scatterv all call).mapIdx fun rank mine => (blockRange keys.length size rank, mine)

def writeGather (written : Result Unit) (blocks : List Bytes) : Spmd Bytes := do
  let (tot, call) := gatherCall blocks
  let _ ← collective (written :: List.replicate (blocks.length - 1) (.ok ()))
  return mpi.gatherv blocks tot call

end Scatter

end Calls

section Exact

structure Partition.Exact (p : Partition) (lens : List Nat) : Prop where
  counts : p.counts.map Int32.toInt = lens.map Nat.cast
  displs : p.displs.map Int32.toInt = (List.range lens.length).map fun r => ((lens.take r).sum : Int)

def Partition.SumsExact (p : Partition) (lens : List Nat) : Prop :=
  (scan 0 p.counts).map (fun s => s.2.toInt) = (List.range lens.length).map fun r => ((lens.take (r + 1)).sum : Int)

theorem scan_lens (lens : List Nat) :
    scan 0 (lens.map Int32.ofNat) =
      (List.range lens.length).map fun r => (Int32.ofNat (lens.take r).sum, Int32.ofNat (lens.take (r + 1)).sum) := by
  have h := scan_hom Int32.ofNat_add 0 lens
  simp only [Nat.zero_add] at h
  exact h

theorem ofNats_exact {A : Type} {xs : List A} {f : A → Nat} :
    (xs.map fun x => (Int32.ofNat (f x)).toInt) = xs.map (fun x => (f x : Int)) ↔ ∀ x ∈ xs, f x < 2 ^ 31 := by
  simp only [List.map_inj_left, toInt_ofNat_iff]

-- Counts and displacements alone: the total may be larger, no displacement holds it.
theorem partition_exact_iff (lens : List Nat) :
    (partitionOf (lens.map Int32.ofNat)).Exact lens ↔ (∀ n ∈ lens, n < 2 ^ 31) ∧ lens.dropLast.sum < 2 ^ 31 := by
  have hstarts : (∀ r ∈ List.range lens.length, (lens.take r).sum < 2 ^ 31) ↔ lens.dropLast.sum < 2 ^ 31 := by
    simp only [List.mem_range]
    exact starts_lt_iff lens (by decide)
  rw [← hstarts, ← ofNats_exact, ← ofNats_exact]
  constructor
  · rintro ⟨hc, hd⟩
    rw [partitionOf, List.map_map] at hc
    rw [partitionOf, prefixSums, scan_lens, List.map_map, List.map_map] at hd
    exact ⟨hc, hd⟩
  · rintro ⟨hc, hd⟩
    constructor
    · rw [partitionOf, List.map_map]
      exact hc
    · rw [partitionOf, prefixSums, scan_lens, List.map_map, List.map_map]
      exact hd

theorem sums_exact_iff (lens : List Nat) : (partitionOf (lens.map Int32.ofNat)).SumsExact lens ↔ lens.sum < 2 ^ 31 := by
  rw [Partition.SumsExact, partitionOf, scan_lens, List.map_map]
  change (List.range lens.length).map (fun r => (Int32.ofNat (lens.take (r + 1)).sum).toInt) = _ ↔ _
  rw [ofNats_exact]
  simp only [List.mem_range]
  exact sums_lt_iff lens (by decide)

theorem dropLast_sum_le (ns : List Nat) : ns.dropLast.sum ≤ ns.sum := by
  rw [List.dropLast_eq_take]
  exact sum_take_le ns _

theorem all_exact_iff (lens : List Nat) :
    ((partitionOf (lens.map Int32.ofNat)).Exact lens ∧ (partitionOf (lens.map Int32.ofNat)).SumsExact lens) ↔
      lens.sum < 2 ^ 31 := by
  rw [partition_exact_iff, sums_exact_iff]
  constructor
  · exact fun h => h.2
  · intro h
    have hd := dropLast_sum_le lens
    exact ⟨⟨fun n hn => (mem_le_sum hn).trans_lt h, by omega⟩, h⟩

theorem scatterCall_ok (blocks : List Bytes) :
    scatterCall blocks.length (.ok blocks) = .ok (blocks.flatten, partitionOf (blocks.map lenI32)) := by
  have hc : collective (Except.ok blocks :: List.replicate (blocks.length - 1) (.ok [])) =
      .ok (blocks :: List.replicate (blocks.length - 1) []) := by
    rw [collective_eq_ok, List.map_cons, List.map_replicate]
  rw [scatterCall, hc]
  rfl

def lensOf (blocks : List Bytes) : List Nat := blocks.map List.length

theorem map_lenI32 (blocks : List Bytes) : blocks.map lenI32 = (lensOf blocks).map Int32.ofNat := by
  rw [lensOf, List.map_map]
  rfl

def PassesExact (p : Partition) (lens : List Nat) : Prop := p.Exact lens ∧ p.SumsExact lens

-- No error comes before the collective: what it is given has to be right.
structure ReadCountsExact (blocks : List Bytes) : Prop where
  scatter : ∀ all call, scatterCall blocks.length (.ok blocks) = .ok (all, call) → PassesExact call (lensOf blocks)
  gather : PassesExact (gatherCall blocks).2 (lensOf blocks)

theorem scatter_given_iff {P : Partition → Prop} (blocks : List Bytes) :
    (∀ all call, scatterCall blocks.length (.ok blocks) = .ok (all, call) → P call) ↔
      P (partitionOf ((lensOf blocks).map Int32.ofNat)) := by
  rw [scatterCall_ok, map_lenI32]
  constructor
  · exact fun h => h _ _ rfl
  · intro h all call hcall
    cases hcall
    exact h

theorem gather_given (blocks : List Bytes) :
    (gatherCall blocks).2 = partitionOf ((lensOf blocks).map Int32.ofNat) := by
  rw [gatherCall, map_lenI32]

theorem counts_exact_iff (blocks : List Bytes) : ReadCountsExact blocks ↔ (lensOf blocks).sum < 2 ^ 31 := by
  constructor
  · intro h
    have hg := h.gather
    rw [gather_given] at hg
    exact (all_exact_iff _).mp hg
  · intro h
    have hall := (all_exact_iff _).mpr h
    refine ⟨(scatter_given_iff blocks).mpr hall, ?_⟩
    rw [gather_given]
    exact hall

-- A total past the limit shows in no count and no displacement where the last block alone passes it.
theorem read_counts_exact_iff (blocks : List Bytes) :
    (ReadCountsExact blocks ↔ (lensOf blocks).sum < 2 ^ 31) ∧
    ((∀ all call, scatterCall blocks.length (.ok blocks) = .ok (all, call) → call.Exact (lensOf blocks)) ↔
      (∀ b ∈ blocks, b.length < 2 ^ 31) ∧ (lensOf blocks).dropLast.sum < 2 ^ 31) ∧
    ((gatherCall blocks).2.Exact (lensOf blocks) ↔
      (∀ b ∈ blocks, b.length < 2 ^ 31) ∧ (lensOf blocks).dropLast.sum < 2 ^ 31) := by
  have hlens : (∀ b ∈ blocks, b.length < 2 ^ 31) ↔ ∀ n ∈ lensOf blocks, n < 2 ^ 31 := by simp [lensOf]
  refine ⟨counts_exact_iff blocks, ?_, ?_⟩
  · rw [scatter_given_iff (P := fun call => call.Exact (lensOf blocks)), partition_exact_iff, hlens]
  · rw [gather_given, partition_exact_iff, hlens]

theorem big_block_wraps :
    ¬ReadCountsExact [List.replicate (2 ^ 31) 0] ∧ lenI32 (List.replicate (2 ^ 31) 0) = -2147483648 := by
  constructor
  · rw [counts_exact_iff, lensOf, List.map_singleton, List.length_replicate, List.sum_singleton]
    exact Nat.lt_irrefl _
  · rw [lenI32, List.length_replicate]
    decide

end Exact

end ReadconDb
