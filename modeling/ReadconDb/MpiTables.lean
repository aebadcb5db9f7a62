import ReadconDb.MpiCounts
import ReadconDb.MpiWire
import ReadconDb.Sharding
import ReadconDb.Library.Slicing

set_option linter.unusedSectionVars false

namespace ReadconDb

open ByteString Outcome Blocks Slicing

section Tables

variable {F : Type} [Float64 F] (d : Crates F)

def fitU32 (n : Nat) : Result UInt32 :=
  if n < 2 ^ 32 then .ok (UInt32.ofNat n) else .error (.message (toString n ++ " exceeds u32::MAX"))

structure FileTab where
  trajId : UInt64
  path : String
  offs : List UInt64
  g0 : Nat

def FileTab.n (t : FileTab) : Nat := t.offs.length - 1

abbrev Files := String → Except String Bytes

variable (files : Files)

def readToString (path : String) : Except String String := do
  match ofUtf8 (← files path) with
  | some text => .ok text
  | none => .error "stream did not contain valid UTF-8"

def fileWords (path : String) : Except String (List UInt64) :=
  match readToString files path with
  | .error e => .error (path ++ ": " ++ e)
  | .ok text =>
    let offs := d.frameStartOffsets text
    .ok (UInt64.ofNat (offs.length + 1) :: (offs.map UInt64.ofNat ++ [UInt64.ofNat (utf8 text).length]))

def bcastWords (words : List UInt64) : List UInt64 :=
  (chunksExact 8 (words.flatMap fun w => leBytes 8 w.toNat)).map fun b => UInt64.ofNat (leNat b)

theorem bcastWords_eq (words : List UInt64) : bcastWords words = words := by
  have hlen (w : UInt64) : (leBytes 8 w.toNat).length = 8 := length_leBytes 8 w.toNat
  rw [bcastWords, chunksExact_flatMap (by decide) hlen, List.map_map]
  have hback : ((fun b => UInt64.ofNat (leNat b)) ∘ fun w : UInt64 => leBytes 8 w.toNat) = id := by
    funext w
    have hw : w.toNat % 256 ^ 8 = w.toNat := Nat.mod_eq_of_lt w.toNat_lt
    simp only [Function.comp_apply, leNat_leBytes, hw, UInt64.ofNat_toNat, id_eq]
  rw [hback, List.map_id]

def scanTabs (words : List UInt64) : List (UInt64 × String) → Nat → Nat → Result (List FileTab)
  | [], i, _ => if i = words.length then .ok [] else .error (.message "trailing frame-offset bytes")
  | (t, p) :: rest, i, g0 =>
    match words[i]? with
    | none => .error (.message "truncated frame-offset broadcast")
    | some k =>
      let stop := i + 1 + k.toNat
      if stop > usizeMax then .error (.message "frame-offset table overflows")
      else if stop > words.length then .error (.message "truncated frame-offset broadcast")
      else if piece words (i + 1) stop = [] then .error (.message "frame-offset table is empty")
      else
        let tab : FileTab := { trajId := t, path := p, offs := piece words (i + 1) stop, g0 }
        if g0 + tab.n > usizeMax then .error (.message "frame count overflows")
        else do return tab :: (← scanTabs words rest stop (g0 + tab.n))

-- Rank 0 reads the files; every rank goes by the words it sends.
def scanFiles (input : List (UInt64 × String)) : Result (List FileTab) :=
  match input.mapM fun f => fileWords d files f.2 with
  | .error e => .error (.message e)
  | .ok words => scanTabs (bcastWords words.flatten) input 0 0

def framesIn (tabs : List FileTab) : Nat := (tabs.map FileTab.n).sum

inductive InOrder : Nat → List FileTab → Prop
  | nil (g : Nat) : InOrder g []
  | cons {g : Nat} {t : FileTab} {rest : List FileTab} (hg : t.g0 = g) (h : InOrder (g + t.n) rest) : InOrder g (t :: rest)

theorem scanTabs_inOrder {words : List UInt64} {input : List (UInt64 × String)} {i g0 : Nat} {tabs : List FileTab}
    (h : scanTabs words input i g0 = .ok tabs) :
    InOrder g0 tabs ∧ tabs.map (fun t => (t.trajId, t.path)) = input ∧ (g0 ≤ usizeMax → g0 + framesIn tabs ≤ usizeMax) := by
  induction input generalizing i g0 tabs with
  | nil =>
    rw [scanTabs] at h
    split at h
    · cases h
      exact ⟨.nil g0, rfl, fun hg => by simpa [framesIn] using hg⟩
    · cases h
  | cons f input ih =>
    obtain ⟨t, p⟩ := f
    rw [scanTabs] at h
    split at h
    · cases h
    · next k hk =>
      simp only at h
      split at h
      · cases h
      · split at h
        · cases h
        · split at h
          · cases h
          · split at h
            · cases h
            · next hg =>
              obtain ⟨rest, hrest, h⟩ := bind_eq_ok.mp h
              cases h
              obtain ⟨horder, hinput, hfit⟩ := ih hrest
              refine ⟨.cons rfl horder, by rw [List.map_cons, hinput], fun _ => ?_⟩
              have hle := hfit (by omega)
              rw [framesIn, List.map_cons, List.sum_cons, ← Nat.add_assoc]
              exact hle

-- `partition_point` over the files, which lie in order.
def fileOf (tabs : List FileTab) (g : Nat) : Nat := (tabs.takeWhile fun t => t.g0 + t.n ≤ g).length

theorem fileOf_inOrder {g0 : Nat} {tabs : List FileTab} (h : InOrder g0 tabs) {g : Nat} (hlo : g0 ≤ g)
    (hhi : g < g0 + framesIn tabs) : ∃ t, tabs[fileOf tabs g]? = some t ∧ t.g0 ≤ g ∧ g < t.g0 + t.n := by
  induction h with
  | nil g0 =>
    simp [framesIn] at hhi
    omega
  | @cons g0 t rest hg0 hrest ih =>
    subst hg0
    rw [framesIn, List.map_cons, List.sum_cons] at hhi
    by_cases hg : t.g0 + t.n ≤ g
    · obtain ⟨t', ht', hin⟩ := ih hg (by rw [framesIn]; omega)
      refine ⟨t', ?_, hin⟩
      rw [fileOf, List.takeWhile_cons_of_pos (by simpa using hg), List.length_cons, List.getElem?_cons_succ]
      exact ht'
    · refine ⟨t, ?_, hlo, by omega⟩
      rw [fileOf, List.takeWhile_cons_of_neg (by simpa using hg)]
      rfl

end Tables

section Parse

variable {F : Type} [Float64 F] (d : Crates F) (files : Files)

structure Local where
  first : Nat
  hashes : List ContentHash
  enc : List Bytes
  stored : List Bytes

def isCharBoundary (text : Bytes) (i : Nat) : Bool :=
  i == text.length || (text[i]?).any fun b => b < 0x80 || 0xC0 ≤ b

def strSlice (text : Bytes) (lo hi : Nat) : Checked Error String := do
  let s ← slice text lo hi
  if isCharBoundary text lo && isCharBoundary text hi then
    match ofUtf8 s with
    | some s => lift (.ok s)
    | none => panicked
  else panicked

-- `read_exact` of `span` bytes from `lo` on, and the check that they are text.
def readSpan (path : String) (lo span : Nat) : Result Bytes :=
  match files path with
  | .error e => .error (.io e)
  | .ok b =>
    if lo + span ≤ b.length then
      match ofUtf8 (piece b lo (lo + span)) with
      | some _ => .ok (piece b lo (lo + span))
      | none => .error (.message "utf8: invalid utf-8 sequence")
    else .error (.io "failed to fill whole buffer")

def parseFrame (t : FileTab) (lo : UInt64) (text : Bytes) (i : Nat) : Checked Error (ContentHash × Bytes × Bytes) := do
  let start ← index t.offs i
  let stop ← index t.offs (i + 1)
  let s ← strSlice text (start - lo).toNat (stop - lo).toNat
  match (d.conFrames s).head? with
  | none => lift (.error (.parse (t.path ++ ": frame " ++ toString i ++ " is empty")))
  | some (.error e) => lift (.error (.parse e))
  | some (.ok (frame, blob)) => do
    let idx ← lift (fitU32 i)
    lift (encodeFrameKeys d ⟨t.trajId, idx⟩ frame blob)

def addRows (l : Local) (rows : List (ContentHash × Bytes × Bytes)) : Local :=
  { l with
    hashes := l.hashes ++ rows.map fun r => r.1
    enc := l.enc ++ rows.map fun r => r.2.1
    stored := l.stored ++ rows.map fun r => r.2.2 }

-- One turn for each file that the block touches; the first count bounds the turns.
def parseFrom (tabs : List FileTab) (stop : Nat) : Nat → Nat → Local → Checked Error Local
  | 0, _, out => lift (.ok out)
  | fuel + 1, g, out =>
    if stop ≤ g then lift (.ok out)
    else do
      let t ← index tabs (fileOf tabs g)
      let a ← minus g t.g0
      let room ← minus stop t.g0
      let b := min room t.n
      let lo ← index t.offs a
      let hi ← index t.offs b
      if hi < lo then lift (.error (.message (t.path ++ ": frame offsets go backwards")))
      else do
        let text ← lift (readSpan files t.path lo.toNat (hi - lo).toNat)
        let rows ← (List.range' a (b - a)).mapM (parseFrame d t lo text)
        parseFrom tabs stop fuel (t.g0 + b) (addRows out rows)

def parseLocal (tabs : List FileTab) (range : Nat × Nat) : Checked Error Local :=
  parseFrom d files tabs range.2 (range.2 - range.1) range.1 { first := range.1, hashes := [], enc := [], stored := [] }

structure Local.Holds (l : Local) (n : Nat) : Prop where
  hashes : l.hashes.length = n
  enc : l.enc.length = n
  stored : l.stored.length = n

theorem addRows_holds {l : Local} {rows : List (ContentHash × Bytes × Bytes)} {n : Nat} (h : l.Holds n) :
    (addRows l rows).Holds (n + rows.length) where
  hashes := by simp [addRows, h.hashes]
  enc := by simp [addRows, h.enc]
  stored := by simp [addRows, h.stored]

theorem checked_mapM_length {A B : Type} {f : A → Checked Error B} {xs : List A} {ys : List B}
    (h : xs.mapM f = lift (.ok ys)) : ys.length = xs.length := by
  induction xs generalizing ys with
  | nil =>
    cases h
    rfl
  | cons x xs ih =>
    rw [List.mapM_cons] at h
    obtain ⟨y, _, h⟩ := checked_bind_ok h
    obtain ⟨ys', hys, h⟩ := checked_bind_ok h
    cases h
    rw [List.length_cons, List.length_cons, ih hys]

theorem index_some {A : Type} {xs : List A} {i : Nat} {a : A} (h : (index xs i : Checked Error A) = lift (.ok a)) :
    xs[i]? = some a := by
  rw [index] at h
  split at h
  · next hi =>
    cases h
    exact hi
  · cases h

theorem minus_some {a b c : Nat} (h : (minus a b : Checked Error Nat) = lift (.ok c)) : b ≤ a ∧ c = a - b := by
  rw [minus] at h
  split at h
  · next hle =>
    cases h
    exact ⟨hle, rfl⟩
  · cases h

theorem parseFrom_holds {tabs : List FileTab} (horder : InOrder 0 tabs) {stop : Nat} (hstop : stop ≤ framesIn tabs)
    {fuel g k : Nat} {out l : Local} (hg : g ≤ stop) (hf : stop - g ≤ fuel) (hout : out.Holds k)
    (h : parseFrom d files tabs stop fuel g out = lift (.ok l)) : l.first = out.first ∧ l.Holds (k + (stop - g)) := by
  induction fuel generalizing g k out with
  | zero =>
    cases h
    have hz : stop - g = 0 := by omega
    rw [hz]
    exact ⟨rfl, hout⟩
  | succ fuel ih =>
    rw [parseFrom] at h
    split at h
    · next hle =>
      cases h
      have hz : stop - g = 0 := by omega
      rw [hz]
      exact ⟨rfl, hout⟩
    · next hlt =>
      obtain ⟨t, ht, h⟩ := checked_bind_ok h
      obtain ⟨a, ha, h⟩ := checked_bind_ok h
      obtain ⟨room, hroom, h⟩ := checked_bind_ok h
      obtain ⟨lo, _, h⟩ := checked_bind_ok h
      obtain ⟨hi, _, h⟩ := checked_bind_ok h
      split at h
      · cases h
      · obtain ⟨text, _, h⟩ := checked_bind_ok h
        obtain ⟨rows, hrows, hrest⟩ := checked_bind_ok h
        -- The file that holds `g` ends after it, so the turn parses a frame at least.
        obtain ⟨t', ht', hlo, hhi⟩ := fileOf_inOrder horder (Nat.zero_le g) (by omega)
        obtain rfl : t = t' := Option.some.inj ((index_some ht).symm.trans ht')
        obtain ⟨_, rfl⟩ := minus_some ha
        obtain ⟨_, rfl⟩ := minus_some hroom
        have hlen := checked_mapM_length hrows
        rw [List.length_range'] at hlen
        obtain ⟨hfirst, hholds⟩ := ih (by omega) (by omega) (addRows_holds hout) hrest
        refine ⟨hfirst, ?_⟩
        have hk : k + rows.length + (stop - (t.g0 + min (stop - t.g0) t.n)) = k + (stop - g) := by omega
        rwa [hk] at hholds

theorem parseLocal_holds {tabs : List FileTab} (horder : InOrder 0 tabs) {range : Nat × Nat} (hle : range.1 ≤ range.2)
    (hstop : range.2 ≤ framesIn tabs) {l : Local} (h : parseLocal d files tabs range = lift (.ok l)) :
    l.first = range.1 ∧ l.Holds (range.2 - range.1) := by
  have hstart : Local.Holds { first := range.1, hashes := [], enc := [], stored := [] } 0 := ⟨rfl, rfl, rfl⟩
  have hp := parseFrom_holds d files horder hstop hle le_rfl hstart h
  rwa [Nat.zero_add] at hp

end Parse

end ReadconDb
