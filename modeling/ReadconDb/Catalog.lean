import ReadconDb.Runs

set_option linter.unusedSectionVars false

namespace ReadconDb

open ByteString Outcome

section Catalog

variable {F : Type}

abbrev Entry (F : Type) := ConFrame F × String

def Entry.chars (e : Entry F) : List Char := e.2.toList

def Entry.EndsLine (e : Entry F) : Prop := e.chars.getLast? = some '\n'

instance (e : Entry F) : Decidable e.EndsLine := inferInstanceAs (Decidable (_ = _))

-- A frame is read where its lines stand, the last of them closed by a newline or by the end.
def Entry.At (e : Entry F) (cs : List Char) : Prop := e.chars <+: cs ∧ (e.EndsLine ∨ e.chars = cs)

instance (e : Entry F) (cs : List Char) : Decidable (e.At cs) := inferInstanceAs (Decidable (_ ∧ _))

structure Catalog (F : Type) where
  entries : List (Entry F)
  nonempty : ∀ e ∈ entries, e.chars ≠ []
  distinct : (entries.map Entry.chars).Nodup
  separate : ∀ e ∈ entries, ∀ e' ∈ entries, e.EndsLine → e.chars <+: e'.chars → e.chars = e'.chars

namespace Catalog

variable (k : Catalog F)

def readFrom : Nat → List Char → List (Except String (Entry F))
  | 0, _ => []
  | n + 1, cs =>
    if cs = [] then []
    else
      match k.entries.find? fun e => e.At cs with
      | some e => .ok e :: readFrom n (cs.drop e.chars.length)
      | none => [.error "unexpected line"]

def offsets : Nat → List (Except String (Entry F)) → List Nat
  | _, [] => []
  | _, .error _ :: _ => []
  | n, .ok e :: rest => n :: offsets (n + (utf8 e.2).length) rest

def crates [DecidableEq F] (d : Crates F) : Crates F :=
  { d with
    conFrames := fun text => k.readFrom text.toList.length text.toList
    frameStartOffsets := fun text => offsets 0 (k.readFrom text.toList.length text.toList)
    writeFrame := fun _ f =>
      match k.entries.find? fun e => e.1 = f with
      | some e => .ok (utf8 e.2)
      | none => .error "frame not in the catalog" }

variable {k}

theorem eq_of_chars {e e' : Entry F} (he : e ∈ k.entries) (he' : e' ∈ k.entries)
    (h : e.chars = e'.chars) : e = e' := List.inj_on_of_nodup_map k.distinct he he' h

theorem at_unique {e e' : Entry F} {cs : List Char} (he : e ∈ k.entries) (he' : e' ∈ k.entries)
    (h : e.At cs) (h' : e'.At cs) : e = e' := by
  obtain ⟨hp, hl⟩ := h
  obtain ⟨hp', hl'⟩ := h'
  rcases hl with hl | rfl
  · rcases hl' with hl' | rfl
    · rcases List.prefix_or_prefix_of_prefix hp hp' with hpp | hpp
      · exact eq_of_chars he he' (k.separate e he e' he' hl hpp)
      · exact (eq_of_chars he' he (k.separate e' he' e he hl' hpp)).symm
    · exact eq_of_chars he he' (k.separate e he e' he' hl hp)
  · rcases hl' with hl' | hl'
    · exact (eq_of_chars he' he (k.separate e' he' e he hl' hp')).symm
    · exact (eq_of_chars he' he hl').symm

theorem find_at {e : Entry F} {cs : List Char} (he : e ∈ k.entries) (h : e.At cs) :
    (k.entries.find? fun e => e.At cs) = some e := by
  cases hf : k.entries.find? fun e => e.At cs with
  | none =>
    have hno := List.find?_eq_none.mp hf e he
    simp [h] at hno
  | some e' =>
    have hat : e'.At cs := by simpa using List.find?_some hf
    rw [at_unique (List.mem_of_find?_eq_some hf) he hat h]

theorem readFrom_mem {n : Nat} {cs : List Char} {e : Entry F} (h : .ok e ∈ k.readFrom n cs) :
    e ∈ k.entries := by
  induction n generalizing cs with
  | zero => cases h
  | succ n ih =>
    rw [readFrom] at h
    split at h
    · cases h
    · split at h
      · next e' hf =>
        rcases List.mem_cons.mp h with he | hm
        · obtain rfl := Except.ok.inj he
          exact List.mem_of_find?_eq_some hf
        · exact ih hm
      · simp at h

theorem readFrom_fuel {n m : Nat} {cs : List Char} (hn : cs.length ≤ n) (hm : cs.length ≤ m) :
    k.readFrom n cs = k.readFrom m cs := by
  induction n generalizing m cs with
  | zero =>
    obtain rfl := List.eq_nil_of_length_eq_zero (Nat.le_zero.mp hn)
    cases m <;> simp [readFrom]
  | succ n ih =>
    cases m with
    | zero =>
      obtain rfl := List.eq_nil_of_length_eq_zero (Nat.le_zero.mp hm)
      simp [readFrom]
    | succ m =>
      rw [readFrom, readFrom]
      split
      · rfl
      · split
        · next e hf =>
          have hpos := List.length_pos_iff.mpr (k.nonempty e (List.mem_of_find?_eq_some hf))
          have hdrop := List.length_drop (i := e.chars.length) (l := cs)
          have hrest : k.readFrom n (cs.drop e.chars.length) = k.readFrom m (cs.drop e.chars.length) :=
            ih (by omega) (by omega)
          rw [hrest]
        · rfl

theorem readFrom_entry {e : Entry F} {cs : List Char} (he : e ∈ k.entries) (h : e.At cs) {n : Nat}
    (hn : cs.length ≤ n) : k.readFrom n cs = .ok e :: k.readFrom n (cs.drop e.chars.length) := by
  have hpos := List.length_pos_iff.mpr (k.nonempty e he)
  have hle := h.1.length_le
  cases n with
  | zero => omega
  | succ n =>
    have hne : cs ≠ [] := List.length_pos_iff.mp (by omega)
    rw [readFrom, if_neg hne, find_at he h]
    have hdrop := List.length_drop (i := e.chars.length) (l := cs)
    have hrest : k.readFrom n (cs.drop e.chars.length) = k.readFrom (n + 1) (cs.drop e.chars.length) :=
      readFrom_fuel (by omega) (by omega)
    simp only [hrest]

section Laws

variable [DecidableEq F] {d : Crates F}

theorem conFrames_append {e : Entry F} (he : e ∈ k.entries) (hl : e.EndsLine) (rest : String) :
    (k.crates d).conFrames (e.2 ++ rest) = .ok e :: (k.crates d).conFrames rest := by
  have hchars : (e.2 ++ rest).toList = e.chars ++ rest.toList := String.toList_append
  have hat : e.At (e.chars ++ rest.toList) := ⟨List.prefix_append _ _, .inl hl⟩
  simp only [crates]
  rw [hchars, readFrom_entry he hat le_rfl, List.drop_left]
  rw [readFrom_fuel (by rw [List.length_append]; omega) le_rfl]

theorem conFrames_last {e : Entry F} (he : e ∈ k.entries) : (k.crates d).conFrames e.2 = [.ok e] := by
  have hat : e.At e.chars := ⟨List.prefix_rfl, .inr rfl⟩
  have hr := readFrom_entry he hat (n := e.chars.length) le_rfl
  rw [List.drop_length] at hr
  have hnil (n : Nat) : k.readFrom n [] = [] := by cases n <;> simp [readFrom]
  rw [hnil] at hr
  exact hr

variable [Float64 F]

theorem parsed_entry {e : Entry F} (he : e ∈ k.entries) : parsed (k.crates d) e.2 = some e.1 := by
  rw [parsed, conFrames_last he]
  rfl

theorem spansReparse : SpansReparse (k.crates d) := fun h => parsed_entry (readFrom_mem h)

theorem roundTrips : RoundTrips (k.crates d) := by
  intro f b s hw hs
  simp only [crates] at hw
  split at hw
  · next e hf =>
    have he := List.mem_of_find?_eq_some hf
    have hef : e.1 = f := by simpa using List.find?_some hf
    rw [← Except.ok.inj hw, ofUtf8_utf8] at hs
    rw [← Option.some.inj hs, ← hef]
    exact parsed_entry he
  · cases hw

theorem serialize_entry {e : Entry F} (he : (k.entries.find? fun e' => e'.1 = e.1) = some e)
    (fmt : FloatFormat) : serialize (k.crates d) fmt e.1 = .ok e := by
  simp only [serialize, crates, he, ofUtf8_utf8]

theorem conFrames_entries {es : List (Entry F)} (he : ∀ e ∈ es, e ∈ k.entries ∧ e.EndsLine) :
    (k.crates d).conFrames (String.join (es.map Prod.snd)) = es.map Except.ok := by
  induction es with
  | nil => rfl
  | cons e es ih =>
    have hjoin : String.join ((e :: es).map Prod.snd) = e.2 ++ String.join (es.map Prod.snd) := by
      rw [List.map_cons, String.join_cons]
    obtain ⟨hm, hl⟩ := he e (by simp)
    rw [hjoin, conFrames_append hm hl, ih fun e' he' => he e' (by simp [he']), List.map_cons]

end Laws

end Catalog

end Catalog

section Tiny

structure Bits where
  bits : UInt64
  deriving DecidableEq

namespace Bits

def zero : Bits := ⟨0⟩
def one : Bits := ⟨0x3FF0000000000000⟩
def tenth : Bits := ⟨0x3FB999999999999A⟩
def ten : Bits := ⟨0x4024000000000000⟩
def ninety : Bits := ⟨0x4056800000000000⟩
def massOfH : Bits := ⟨0x3FF020C49BA5E354⟩
def massOfHe : Bits := ⟨0x401002A9930BE0DF⟩

def mul (a b : Bits) : Bits := if a = one then b else if b = one then a else zero

def div (a b : Bits) : Bits := if b = one then a else if a = one ∧ b = tenth then ten else zero

-- The doubles as bit patterns, with arithmetic on the few values the runs below compute with.
instance : Float64 Bits where
  toBits := bits
  ofBits := mk
  add a _ := a
  sub a _ := a
  mul := mul
  div := div
  eq a b := a = b
  lt a b := a.bits < b.bits
  abs a := ⟨a.bits &&& 0x7FFFFFFFFFFFFFFF⟩
  max a b := if a.bits < b.bits then b else a
  sqrt a := a
  cos _ := zero
  sin _ := one
  pi := ⟨0x400921FB54442D18⟩
  ofInt n := if n = 1 then one else zero
  lit q := if q = 1 then one else zero
  debug _ := "0.0"
  ofBits_toBits _ := rfl
  toBits_ofBits _ := rfl

end Bits

def tinyHash (b : Bytes) : Nat := b.foldl (fun h x => (h * 1099511628211 + x.toNat) % 2 ^ 128) 14695981039346656037

def tinyZstd : Bytes := [0x28, 0xB5, 0x2F, 0xFD]

def countSymbol (sym : String) (atoms : List (AtomDatum Bits)) : UInt32 :=
  UInt32.ofNat (atoms.countP fun a => a.symbol == sym)

def tinyCounts (fr : ConFrame Bits) : List (String × UInt32) :=
  (fr.atomData.map AtomDatum.symbol).dedup.map fun sym => (sym, countSymbol sym fr.atomData)

def tinyNumber (key : String) (h : FrameHeader Bits) : Option Bits := (JsonMap.get h.metadata key).bind Value.asF64

def tinySet (key : String) (v : Value Bits) (h : FrameHeader Bits) : FrameHeader Bits :=
  { h with metadata := JsonMap.insert h.metadata key v }

def tinyFactor (start stop : String) : Except String Bits :=
  if start = stop then .ok .one
  else if start = "angstrom" ∧ stop = "nm" then .ok .tenth
  else .error "unit conversion not known"

def tinyBase : Crates Bits where
  conFrames _ := []
  frameStartOffsets _ := []
  defaultFormat := .roundTrip
  writeFrame _ _ := .error "frame not in the catalog"
  fromFrame fr :=
    { nAtoms := UInt32.ofNat fr.atomData.length
      speciesCounts := tinyCounts fr
      formula := String.join (tinyCounts fr |>.map Prod.fst)
      energy := tinyNumber "energy" fr.header
      hasForces := fr.atomData.any fun a => a.force.isSome
      fmax := none
      hasVelocities := fr.atomData.any fun a => a.velocity.isSome
      totalMass := none
      cellVolume := none
      pbc := none
      time := tinyNumber "time" fr.header
      timestep := tinyNumber "timestep" fr.header
      frameIndex := tinyNumber "frame_index" fr.header
      nebBead := none
      nebBand := none
      charge := none
      magmom := none }
  frameSpeciesCounts := tinyCounts
  compositionFormula counts := String.join (counts.map Prod.fst)
  finiteEnergy fr := tinyNumber "energy" fr.header
  frameHasForces fr := fr.atomData.any fun a => a.force.isSome
  frameHasVelocities fr := fr.atomData.any fun a => a.velocity.isSome
  frameFmax _ := none
  frameTotalMass _ := none
  frameCellVolume _ := none
  pbc _ := none
  units h := JsonMap.get h.metadata "units"
  setUnits h u := tinySet "units" u h
  unitFor h dim := ((JsonMap.get h.metadata "units").bind fun u => u.get dim).bind Value.asStr
  time := tinyNumber "time"
  setTime h x := tinySet "time" (.ofF64 x) h
  timestep := tinyNumber "timestep"
  setTimestep h x := tinySet "timestep" (.ofF64 x) h
  energy := tinyNumber "energy"
  setEnergy h x := tinySet "energy" (.ofF64 x) h
  unitConversionFactor := tinyFactor
  symbolToAtomicNumber sym := if sym = "H" then 1 else if sym = "He" then 2 else 0
  jsonF64 x := if isFinite x then some x else none
  zstdEncode b := .ok (tinyZstd ++ b)
  zstdDecode b := if tinyZstd.isPrefixOf b then .ok (b.drop 4) else .error "unknown frame descriptor"
  xxh3_128 b := BitVec.ofNat 128 (tinyHash b)

def tinyAtom (symbol : String) (x : Bits) : AtomDatum Bits := ⟨symbol, x, .zero, .zero, none, none, none⟩

def tinyFrame (symbol : String) (x box mass : Bits) (metadata : JsonMap Bits) : ConFrame Bits where
  header := ⟨2, ⟨box, box, box⟩, ⟨.ninety, .ninety, .ninety⟩, [mass], metadata⟩
  atomData := [tinyAtom symbol x]
  atomIds := [0]
  positions := [⟨x, .zero, .zero⟩]
  velocities := []
  forces := []
  atomEnergies := []
  masses := []
  rest := []

def tinyLines (line2 : List String) (box mass symbol x closing : String) : List String :=
  "Random Number Seed\n" :: line2 ++ ["\n", box, "\n90.0 90.0 90.0\n0 0\n0 0 0\n1\n1\n", mass, "\n", symbol,
    "\nCoordinates of Component 1\n", x, " 0.0 0.0 0 0", closing]

def nmUnits : Value Bits :=
  .object [("energy", .string "eV"), ("length", .string "nm"), ("mass", .string "amu"), ("time", .string "fs")]

def plainLine : List String := ["\x7b\"con_spec_version\":2\x7d"]

def nmLine : List String :=
  ["\x7b\"con_spec_version\":2,", "\"units\":\x7b\"energy\":\"eV\",", "\"length\":\"nm\",",
    "\"mass\":\"amu\",\"time\":\"fs\"\x7d\x7d"]

def tinyTexts : List (List String) :=
  [tinyLines plainLine "1.0 1.0 1.0" "1.008" "H" "1.0" "\n", tinyLines plainLine "1.0 1.0 1.0" "4.0026" "He" "0.0" "\n",
    tinyLines plainLine "1.0 1.0 1.0" "1.008" "H" "1.0" "", tinyLines nmLine "0.1 0.1 0.1" "1.008" "H" "0.1" "\n",
    tinyLines nmLine "0.1 0.1 0.1" "4.0026" "He" "0.0" "\n"]

def hydrogen : Entry Bits :=
  (tinyFrame "H" .one .one .massOfH [], String.join (tinyLines plainLine "1.0 1.0 1.0" "1.008" "H" "1.0" "\n"))

def helium : Entry Bits :=
  (tinyFrame "He" .zero .one .massOfHe [], String.join (tinyLines plainLine "1.0 1.0 1.0" "4.0026" "He" "0.0" "\n"))

-- The frame of a file that does not close its last line.
def hydrogenBare : Entry Bits :=
  (tinyFrame "H" .one .one .massOfH [], String.join (tinyLines plainLine "1.0 1.0 1.0" "1.008" "H" "1.0" ""))

def hydrogenNm : Entry Bits :=
  (tinyFrame "H" .tenth .tenth .massOfH [("units", nmUnits)],
    String.join (tinyLines nmLine "0.1 0.1 0.1" "1.008" "H" "0.1" "\n"))

def heliumNm : Entry Bits :=
  (tinyFrame "He" .zero .tenth .massOfHe [("units", nmUnits)],
    String.join (tinyLines nmLine "0.1 0.1 0.1" "4.0026" "He" "0.0" "\n"))

def tinyEntries : List (Entry Bits) := [hydrogen, helium, hydrogenBare, hydrogenNm, heliumNm]

theorem tinyEntries_chars : tinyEntries.map Entry.chars = tinyTexts.map fun lines => lines.flatMap String.toList := by
  simp only [tinyEntries, tinyTexts, List.map_cons, List.map_nil, Entry.chars, hydrogen, helium, hydrogenBare,
    hydrogenNm, heliumNm, String.toList_join]

def tinyCatalog : Catalog Bits where
  entries := tinyEntries
  nonempty := by
    have h : ∀ cs ∈ tinyEntries.map Entry.chars, cs ≠ [] := by
      rw [tinyEntries_chars]
      decide +kernel
    exact fun e he => h _ (List.mem_map_of_mem he)
  distinct := by
    rw [tinyEntries_chars]
    decide +kernel
  separate := by
    have h : ∀ cs ∈ tinyEntries.map Entry.chars, ∀ cs' ∈ tinyEntries.map Entry.chars,
        cs.getLast? = some '\n' → cs <+: cs' → cs = cs' := by
      rw [tinyEntries_chars]
      decide +kernel
    exact fun e he e' he' => h _ (List.mem_map_of_mem he) _ (List.mem_map_of_mem he')

theorem hydrogen_mem : hydrogen ∈ tinyCatalog.entries := by simp [tinyCatalog, tinyEntries]

theorem helium_mem : helium ∈ tinyCatalog.entries := by simp [tinyCatalog, tinyEntries]

theorem hydrogenBare_mem : hydrogenBare ∈ tinyCatalog.entries := by simp [tinyCatalog, tinyEntries]

theorem hydrogenNm_mem : hydrogenNm ∈ tinyCatalog.entries := by simp [tinyCatalog, tinyEntries]

theorem hydrogen_endsLine : hydrogen.EndsLine := by
  simp only [Entry.EndsLine, Entry.chars, hydrogen, String.toList_join]
  decide +kernel

theorem helium_endsLine : helium.EndsLine := by
  simp only [Entry.EndsLine, Entry.chars, helium, String.toList_join]
  decide +kernel

def tiny : Crates Bits := tinyCatalog.crates tinyBase

theorem tinyBase_lossless (k : Catalog Bits) : ZstdLossless (k.crates tinyBase) where
  undoes h := by
    have hp := Except.ok.inj h
    subst hp
    simp [Catalog.crates, tinyBase, tinyZstd]
  magic h := by
    have hp := Except.ok.inj h
    subst hp
    exact List.prefix_append _ _

theorem tiny_lossless : ZstdLossless tiny := tinyBase_lossless tinyCatalog

theorem tiny_agrees : ProjectionAgrees tiny where
  nAtoms _ := rfl
  speciesCounts _ := rfl
  formula _ := rfl
  energy _ := rfl
  hasForces _ := rfl
  fmax _ _ := rfl
  hasVelocities _ := rfl
  totalMass _ := rfl
  cellVolume _ := rfl
  pbc _ := rfl

theorem serialize_hydrogen (fmt : FloatFormat) : serialize tiny fmt hydrogen.1 = .ok hydrogen :=
  Catalog.serialize_entry (by decide +kernel) fmt

theorem serialize_helium (fmt : FloatFormat) : serialize tiny fmt helium.1 = .ok helium :=
  Catalog.serialize_entry (by decide +kernel) fmt

theorem serialize_heliums (fmt : FloatFormat) (n : Nat) : (List.replicate n helium.1).map (serialize tiny fmt) =
    (List.replicate n helium).map Except.ok := by
  rw [List.map_replicate, List.map_replicate, serialize_helium]

-- Two entries in one group, which the crate below packs into five bytes, and everything else like `tiny`.
def pairPayload : Bytes := groupPayload [(0, hydrogen.2), (1, helium.2)]

def squeezingBase : Crates Bits :=
  { tinyBase with
    zstdEncode b := .ok (tinyZstd ++ if b = pairPayload then [1] else 0 :: b)
    zstdDecode b :=
      if tinyZstd.isPrefixOf b then
        match b.drop 4 with
        | [1] => .ok pairPayload
        | 0 :: plain => .ok plain
        | _ => .error "corrupted block"
      else .error "unknown frame descriptor" }

def squeezing : Crates Bits := tinyCatalog.crates squeezingBase

theorem squeezing_lossless : ZstdLossless squeezing where
  undoes {b packed} h := by
    have hp := Except.ok.inj h
    subst hp
    by_cases hb : b = pairPayload
    · simp [squeezing, Catalog.crates, squeezingBase, tinyZstd, hb]
    · simp [squeezing, Catalog.crates, squeezingBase, tinyZstd, hb]
  magic h := by
    have hp := Except.ok.inj h
    subst hp
    exact List.prefix_append _ _

theorem tiny_spansReparse : SpansReparse tiny := Catalog.spansReparse

theorem tiny_roundTrips : RoundTrips tiny := Catalog.roundTrips

end Tiny

end ReadconDb
