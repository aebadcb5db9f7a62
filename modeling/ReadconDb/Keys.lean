import ReadconDb.Frame

namespace ReadconDb

open ByteString

abbrev Arr (n : Nat) := {b : Bytes // b.length = n}

@[ext] structure FrameKey where
  trajId : UInt64
  frameIdx : UInt32
  deriving DecidableEq, Repr

namespace FrameKey

def lexKey (k : FrameKey) : Nat ×ₗ Nat := toLex (k.trajId.toNat, k.frameIdx.toNat)

theorem lexKey_injective : Function.Injective lexKey := by
  intro j k h
  simp only [lexKey, toLex_inj, Prod.mk.injEq, UInt64.toNat_inj, UInt32.toNat_inj] at h
  exact FrameKey.ext h.1 h.2

instance : LinearOrder FrameKey := LinearOrder.lift' lexKey lexKey_injective

def toBytes (k : FrameKey) : Arr 12 :=
  ⟨beBytes 8 k.trajId.toNat ++ beBytes 4 k.frameIdx.toNat, by simp⟩

def fromBytes (b : Bytes) : Option FrameKey :=
  if b.length = 12 then
    some ⟨UInt64.ofNat (beNat (b.take 8)), UInt32.ofNat (beNat (b.drop 8))⟩
  else none

end FrameKey

inductive Error where
  | heed (msg : String)
  | io (msg : String)
  | parse (msg : String)
  | missingFrame (key : FrameKey)
  | trajExists (trajId : UInt64) (nFrames : UInt32)
  | utf8 (msg : String)
  | json (msg : String)
  | nul
  | message (msg : String)
  deriving DecidableEq, Repr

abbrev Result := Except Error

abbrev ContentHash := Arr 16

section Hash

variable {F : Type} (d : Crates F)

def hashFrameBytes (blob : Bytes) : ContentHash :=
  ⟨leBytes 16 (d.xxh3_128 blob).toNat, by simp⟩

end Hash

def natomsKey (nAtoms : UInt32) (fk : FrameKey) : Arr 16 :=
  ⟨beBytes 4 nAtoms.toNat ++ fk.toBytes.val, by simp [fk.toBytes.property]⟩

def sepPrefix (s : String) : Bytes := utf8 s ++ [0xff]

def symbolKey (symbol : String) (fk : FrameKey) : Bytes := sepPrefix symbol ++ fk.toBytes.val

def symbolPrefix (symbol : String) : Bytes := sepPrefix symbol

section Ordered

variable {F : Type} [Float64 F]

def orderedF64Bits (x : F) : Option UInt64 :=
  if !isFinite x then none
  else
    let bits := Float64.toBits x
    some (if isSignNegative x then ~~~bits else bits ^^^ ((1 : UInt64) <<< 63))

def energyBinKey (energy : F) (fk : FrameKey) : Option (Arr 20) :=
  (orderedF64Bits energy).map fun ordered =>
    ⟨beBytes 8 ordered.toNat ++ fk.toBytes.val, by simp [fk.toBytes.property]⟩

def fmaxBinKey (fmax : F) (fk : FrameKey) : Option (Arr 20) := energyBinKey fmax fk

def massBinKey (mass : F) (fk : FrameKey) : Option (Arr 20) := energyBinKey mass fk

def volumeBinKey (vol : F) (fk : FrameKey) : Option (Arr 20) := energyBinKey vol fk

def metaScalarKey (channel : UInt8) (value : F) (fk : FrameKey) : Option (Arr 21) :=
  (orderedF64Bits value).map fun ordered =>
    ⟨channel :: (beBytes 8 ordered.toNat ++ fk.toBytes.val), by simp [fk.toBytes.property]⟩

end Ordered

def flagKey (flag : UInt8) (fk : FrameKey) : Arr 13 :=
  ⟨flag :: fk.toBytes.val, by simp [fk.toBytes.property]⟩

def flagHasForces : UInt8 := 1
def flagHasVelocities : UInt8 := 2
def flagHasEnergy : UInt8 := 3

def elemCountKey (symbol : String) (count : UInt32) (fk : FrameKey) : Bytes :=
  sepPrefix symbol ++ (beBytes 4 count.toNat ++ fk.toBytes.val)

def elemCountSymbolPrefix (symbol : String) : Bytes := sepPrefix symbol

def parseElemCountKey (k : Bytes) (symbol : String) : Option (UInt32 × FrameKey) :=
  let pref := elemCountSymbolPrefix symbol
  if !pref.isPrefixOf k || k.length < pref.length + 4 + 12 then none
  else
    let count := UInt32.ofNat (beNat ((k.drop pref.length).take 4))
    (FrameKey.fromBytes ((k.drop (pref.length + 4)).take 12)).map fun fk => (count, fk)

def formulaKey (formula : String) (fk : FrameKey) : Bytes := sepPrefix formula ++ fk.toBytes.val

def formulaPrefix (formula : String) : Bytes := sepPrefix formula

def topoKey (hex : String) (fk : FrameKey) : Bytes := sepPrefix hex ++ fk.toBytes.val

def topoPrefix (hex : String) : Bytes := sepPrefix hex

def metaTime : UInt8 := 1
def metaTimestep : UInt8 := 2
def metaFrameIndex : UInt8 := 3
def metaNebBead : UInt8 := 4
def metaNebBand : UInt8 := 5
def metaCharge : UInt8 := 6
def metaMagmom : UInt8 := 7

def pbcKey (mask : UInt8) (fk : FrameKey) : Arr 13 :=
  ⟨(mask &&& 0x07) :: fk.toBytes.val, by simp [fk.toBytes.property]⟩

def pbcMaskFromBools (p : Bool × Bool × Bool) : UInt8 :=
  p.1.toUInt8 ||| (p.2.1.toUInt8 <<< 1) ||| (p.2.2.toUInt8 <<< 2)

namespace FrameKey

@[simp] theorem length_toBytes (k : FrameKey) : k.toBytes.val.length = 12 := k.toBytes.property

theorem fromBytes_toBytes (k : FrameKey) : fromBytes k.toBytes.val = some k := by
  have ht : beNat (beBytes 8 k.trajId.toNat) = k.trajId.toNat := by
    rw [beNat_beBytes]
    exact Nat.mod_eq_of_lt k.trajId.toNat_lt
  have hf : beNat (beBytes 4 k.frameIdx.toNat) = k.frameIdx.toNat := by
    rw [beNat_beBytes]
    exact Nat.mod_eq_of_lt k.frameIdx.toNat_lt
  rw [fromBytes, if_pos (length_toBytes k)]
  simp [toBytes, ht, hf]

theorem toBytes_inj {j k : FrameKey} : j.toBytes.val = k.toBytes.val ↔ j = k := by
  constructor
  · intro h
    have hj := fromBytes_toBytes j
    rw [h, fromBytes_toBytes] at hj
    exact (Option.some.inj hj).symm
  · rintro rfl
    rfl

theorem toBytes_of_fromBytes {b : Bytes} {k : FrameKey} (h : fromBytes b = some k) :
    k.toBytes.val = b := by
  rw [fromBytes] at h
  split at h
  · next hb =>
    have ht : (b.take 8).length = 8 := by rw [List.length_take]; omega
    have hd : (b.drop 8).length = 4 := by rw [List.length_drop]; omega
    have hlt : beNat (b.take 8) < 2 ^ 64 := by simpa [ht] using beNat_lt (b.take 8)
    have hld : beNat (b.drop 8) < 2 ^ 32 := by simpa [hd] using beNat_lt (b.drop 8)
    obtain rfl := (Option.some.inj h).symm
    have h8 := beBytes_beNat (b.take 8)
    have h4 := beBytes_beNat (b.drop 8)
    rw [ht] at h8
    rw [hd] at h4
    simp only [toBytes]
    rw [UInt64.toNat_ofNat', UInt32.toNat_ofNat', Nat.mod_eq_of_lt hlt, Nat.mod_eq_of_lt hld, h8, h4,
      List.take_append_drop]
  · cases h

end FrameKey

end ReadconDb
