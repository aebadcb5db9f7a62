import ReadconDb.Keys
import ReadconDb.Library.Blocks
import ReadconDb.Library.Outcome

set_option linter.unusedSectionVars false

namespace ReadconDb

open ByteString Outcome Blocks

section Errors

def Error.display : Error → String
  | .heed msg => "heed: " ++ msg
  | .io msg => "io: " ++ msg
  | .parse msg => "parse frame: " ++ msg
  | .missingFrame key => "missing frame FrameKey \x7b traj_id: " ++ toString key.trajId ++ ", frame_idx: " ++
      toString key.frameIdx ++ " \x7d"
  | .trajExists trajId nFrames => "trajectory " ++ toString trajId ++ " already exists (n_frames=" ++
      toString nFrames ++ "); use a new traj_id"
  | .utf8 msg => "utf-8: " ++ msg
  | .json msg => "json: " ++ msg
  | .nul => "nul in path or string"
  | .message msg => msg

end Errors

section Ranks

-- A step that all ranks of a communicator take: it fails on every one of them or on none.
abbrev Spmd := Except (List Error)

variable {A : Type}

def failedElsewhere : Error := .message "MPI ingest failed on another rank"

def rankError (rank : Nat) : Result A → Error
  | .error e => .message ("rank " ++ toString rank ++ ": " ++ e.display)
  | .ok _ => failedElsewhere

def collective (rs : List (Result A)) : Spmd (List A) :=
  match rs.mapM id with
  | .ok vs => .ok vs
  | .error _ => .error (rs.mapIdx rankError)

def blockRange (n size rank : Nat) : Nat × Nat :=
  let base := n / size
  let rem := n % size
  let start := rank * base + min rank rem
  (start, start + base + if rank < rem then 1 else 0)

theorem collective_eq_ok {rs : List (Result A)} {vs : List A} : collective rs = .ok vs ↔ rs = vs.map Except.ok := by
  have hm : rs.mapM id = .ok vs ↔ rs = vs.map Except.ok := by
    rw [mapM_eq_ok, ← List.forall₂_eq_eq_eq, List.forall₂_map_right_iff]
    exact Iff.rfl
  rw [← hm, collective]
  cases rs.mapM id with
  | ok vs' => simp
  | error e => simp

theorem blockRange_stop (n size rank : Nat) : (blockRange n size rank).2 = (blockRange n size (rank + 1)).1 := by
  simp only [blockRange, Nat.add_mul, one_mul]
  split
  · omega
  · omega

theorem blockRange_zero (n size : Nat) : (blockRange n size 0).1 = 0 := by simp [blockRange]

theorem blockRange_size (n : Nat) {size : Nat} (hs : 0 < size) : (blockRange n size size).1 = n := by
  simp only [blockRange, Nat.min_eq_right (Nat.mod_lt n hs).le]
  exact Nat.div_add_mod n size

theorem blockRange_mono (n size : Nat) : Monotone fun rank => (blockRange n size rank).1 := by
  apply monotone_nat_of_le_succ
  intro rank
  rw [← blockRange_stop]
  simp only [blockRange]
  exact (Nat.le_add_right _ _).trans (Nat.le_add_right _ _)

theorem blockRange_le (n : Nat) {size rank : Nat} (h : rank < size) : (blockRange n size rank).2 ≤ n := by
  rw [blockRange_stop]
  apply (blockRange_mono n size h).trans
  exact (blockRange_size n (by omega)).le

theorem blocks_flatten {X : Type} (xs : List X) {size : Nat} (hs : 0 < size) :
    ((List.range size).map fun rank =>
      piece xs (blockRange xs.length size rank).1 (blockRange xs.length size rank).2).flatten = xs := by
  simp only [blockRange_stop]
  rw [pieces_flatten (blockRange_mono xs.length size) xs size, blockRange_zero, blockRange_size _ hs, piece_all]

end Ranks

section Widths

def mpiCountMax : UInt64 := 0x7fffffff

def mpiI32 (n : UInt64) : Result Int32 :=
  if n ≤ mpiCountMax then .ok (Int32.ofNat n.toNat)
  else .error (.message ("MPI count " ++ toString n ++ " exceeds " ++ toString mpiCountMax))

def checkedAddI32 (a b : Int32) : Option Int32 :=
  if -2 ^ 31 ≤ a.toInt + b.toInt ∧ a.toInt + b.toInt < 2 ^ 31 then some (a + b) else none

def prefixFrom (acc : Int32) : List Int32 → Result (List Int32)
  | [] => .ok []
  | c :: cs =>
    if c < 0 then .error (.message ("negative MPI count " ++ toString c))
    else
      match checkedAddI32 acc c with
      | none => .error (.message ("MPI displacement exceeds " ++ toString mpiCountMax))
      | some next => do return acc :: (← prefixFrom next cs)

def prefixI32 (counts : List Int32) : Result (List Int32) := prefixFrom 0 counts

def fitsFrom (acc : UInt64) : List UInt64 → Bool
  | [] => true
  | c :: cs =>
    if c > mpiCountMax then false
    else if acc.toNat + c.toNat < 2 ^ 64 ∧ acc + c ≤ mpiCountMax then fitsFrom (acc + c) cs else false

def fitsI32 (counts : List UInt64) : Bool := fitsFrom 0 counts

theorem toInt_ofNat_iff {n : Nat} : (Int32.ofNat n).toInt = n ↔ n < 2 ^ 31 := by
  constructor
  · intro h
    have hlt := (Int32.ofNat n).toInt_lt
    omega
  · exact Int32.toInt_ofNat_of_lt

theorem fitsFrom_iff (acc : UInt64) (counts : List UInt64) (ha : acc.toNat < 2 ^ 31) :
    fitsFrom acc counts = true ↔ acc.toNat + (counts.map UInt64.toNat).sum < 2 ^ 31 := by
  induction counts generalizing acc with
  | nil => simpa [fitsFrom] using ha
  | cons c cs ih =>
    have hmax : mpiCountMax.toNat = 2 ^ 31 - 1 := by decide
    simp only [fitsFrom, List.map_cons, List.sum_cons, gt_iff_lt, UInt64.lt_iff_toNat_lt, UInt64.le_iff_toNat_le, hmax]
    by_cases hc : 2 ^ 31 - 1 < c.toNat
    · rw [if_pos hc]
      simp only [Bool.false_eq_true, false_iff]
      omega
    · have hadd : (acc + c).toNat = acc.toNat + c.toNat := by
        rw [UInt64.toNat_add, Nat.mod_eq_of_lt (by omega)]
      rw [if_neg hc, hadd]
      by_cases hs : acc.toNat + c.toNat < 2 ^ 31
      · rw [if_pos (by omega), ih _ (by omega), hadd]
        omega
      · rw [if_neg (by omega)]
        simp only [Bool.false_eq_true, false_iff]
        omega

theorem fitsI32_iff {counts : List UInt64} : fitsI32 counts = true ↔ (counts.map UInt64.toNat).sum < 2 ^ 31 := by
  rw [fitsI32, fitsFrom_iff 0 counts (by decide)]
  simp

theorem mpiI32_ok {n : Nat} (h : n < 2 ^ 31) : mpiI32 (UInt64.ofNat n) = .ok (Int32.ofNat n) := by
  have hn : (UInt64.ofNat n).toNat = n := by rw [UInt64.toNat_ofNat', Nat.mod_eq_of_lt (by omega)]
  have hmax : mpiCountMax.toNat = 2 ^ 31 - 1 := by decide
  rw [mpiI32, if_pos (by rw [UInt64.le_iff_toNat_le, hn, hmax]; omega), hn]

theorem prefixFrom_ok {s : Nat} {ns : List Nat} (h : s + ns.sum < 2 ^ 31) :
    prefixFrom (Int32.ofNat s) (ns.map Int32.ofNat) =
      .ok ((List.range ns.length).map fun r => Int32.ofNat (s + (ns.take r).sum)) := by
  induction ns generalizing s with
  | nil => rfl
  | cons n ns ih =>
    rw [List.sum_cons] at h
    have hs := toInt_ofNat_iff.mpr (by omega : s < 2 ^ 31)
    have hn := toInt_ofNat_iff.mpr (by omega : n < 2 ^ 31)
    have hneg : ¬ Int32.ofNat n < 0 := by
      rw [Int32.lt_iff_toInt_lt, hn, Int32.toInt_zero]
      omega
    have hadd : checkedAddI32 (Int32.ofNat s) (Int32.ofNat n) = some (Int32.ofNat (s + n)) := by
      rw [checkedAddI32, hs, hn, if_pos (by omega), Int32.ofNat_add]
    have hrest := ih (s := s + n) (by omega)
    rw [List.map_cons, prefixFrom, if_neg hneg, hadd]
    simp only [hrest, List.length_cons, List.range_succ_eq_map, List.map_cons, List.map_map]
    change Except.ok (Int32.ofNat s :: List.map (fun r => Int32.ofNat (s + n + (ns.take r).sum)) (List.range ns.length)) = _
    congr 2
    apply List.map_congr_left
    intro r _
    simp [Nat.add_assoc]

theorem prefixI32_ok {ns : List Nat} (h : ns.sum < 2 ^ 31) :
    prefixI32 (ns.map Int32.ofNat) = .ok ((List.range ns.length).map fun r => Int32.ofNat (ns.take r).sum) := by
  have hp := prefixFrom_ok (s := 0) (by rwa [Nat.zero_add] : 0 + ns.sum < 2 ^ 31)
  simp only [Nat.zero_add] at hp
  exact hp

end Widths

end ReadconDb
