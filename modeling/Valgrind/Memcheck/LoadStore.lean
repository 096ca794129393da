import Valgrind.Memcheck.Stack

/-!
# Loads and stores of V bits (`mc_main.c`)

For every load and store of the client, Memcheck loads or stores the V bits. There is one
general way to do so, byte by byte (`mc_LOADVn_slow`, `mc_STOREVn_slow`), and for each size
there are fast paths in front of it: for addresses that are aligned and low, and whose bytes
are all defined or all undefined.

`loadv_spec` and `storev_spec`: all of these agree with the byte-wise definition. A load
returns the V bits of the bytes concerned, a store changes those of them that are
addressable, and an address error is recorded if one of them is not.
-/

namespace Valgrind

namespace Memcheck

section

variable [Machine]

open Machine

/-! ## Slow cases -/

/-- `byte_offset_w`. -/
def byteOffsetW (wordszB : Nat) (bigendian : Bool) (byteno : Nat) : Nat :=
  if bigendian then wordszB - 1 - byteno else byteno

/-- `MC_(record_address_error)`. -/
def recordAddressError (s : Shadow) (a szB : Nat) (isWrite : Bool) : Shadow :=
  { s with errors := s.errors ++ [⟨a, szB, isWrite⟩] }

/-- The loop of `mc_LOADVn_slow`, from the most significant byte down: the V bits, and the
number of bytes that are not addressable. -/
def loadvLoop (a szB : Nat) (bigendian : Bool) :
    Nat → BitVec 64 → Nat → Shadow → Result (BitVec 64 × Nat × Shadow)
  | 0, vbits64, nAddrsBad, s => pure (vbits64, nAddrsBad, s)
  | i + 1, vbits64, nAddrsBad, s => do
    let (ok, vbits8, s) ← getVbits8 s (addW a (byteOffsetW szB bigendian i))
    loadvLoop a szB bigendian i ((vbits64 <<< 8) ||| vbits8.setWidth 64)
      (if ok then nAddrsBad else nAddrsBad + 1) s

/-- `mc_LOADVn_slow` without the semi-fast cases. -/
def loadvSlowest (partialLoadsOk : Bool) (s : Shadow) (a szB : Nat) (bigendian : Bool) :
    Result (BitVec 64 × Shadow) := do
  assertThat (szB = 8 ∨ szB = 4 ∨ szB = 2 ∨ szB = 1)
  let (vbits64, nAddrsBad, s) ← loadvLoop a szB bigendian szB (BitVec.allOnes 64) 0 s
  let exempt := partialLoadsOk && decide (szB = wordB ∧ a % wordB = 0 ∧ nAddrsBad < wordB)
  pure (vbits64, if 0 < nAddrsBad ∧ exempt = false then recordAddressError s a szB false else s)

/-- `mc_LOADVn_slow`. The semi-fast cases are for high addresses on 64-bit platforms. -/
def mcLOADVnSlow (partialLoadsOk : Bool) (s : Shadow) (a szB : Nat) (bigendian : Bool) :
    Result (BitVec 64 × Shadow) := do
  if wordB = 8 ∧ szB = 8 ∧ a % 8 = 0 then do
    let (sm, maps) ← getSecmapForReading s.maps a
    let s := { s with maps }
    let vabits16 := getVabits16 (s.maps.contents sm) (smOff16 a)
    if vabits16 = vaBits16Defined then pure (0, s)
    else if vabits16 = vaBits16Undefined then pure (BitVec.allOnes 64, s)
    else loadvSlowest partialLoadsOk s a szB bigendian
  else if wordB = 8 ∧ szB = 4 ∧ a % 4 = 0 then do
    let (sm, maps) ← getSecmapForReading s.maps a
    let s := { s with maps }
    let vabits8 := s.maps.contents sm (smOff a)
    if vabits8 = vaBits8Defined then pure (0xFFFFFFFF00000000, s)
    else if vabits8 = vaBits8Undefined then pure (0xFFFFFFFF00000000 ||| 0xFFFFFFFF, s)
    else loadvSlowest partialLoadsOk s a szB bigendian
  else loadvSlowest partialLoadsOk s a szB bigendian

/-- Store into the secondary map `sm`. -/
def storeSm (s : Shadow) (sm : Nat) (contents : SecMap) : Shadow :=
  { s with maps := writeSm s.maps sm contents }

/-- The loop of `mc_STOREVn_slow`, from the least significant byte up. -/
def storevLoop (al : ShadowAlloc) (a szB : Nat) (bigendian : Bool) :
    List Nat → BitVec 64 → Nat → Shadow → Result (Nat × Shadow)
  | [], _, nAddrsBad, s => pure (nAddrsBad, s)
  | i :: is, vbytes, nAddrsBad, s => do
    let (ok, s) ← setVbits8 al s (addW a (byteOffsetW szB bigendian i)) (vbytes.setWidth 8)
    storevLoop al a szB bigendian is (vbytes >>> 8) (if ok then nAddrsBad else nAddrsBad + 1) s

/-- `mc_STOREVn_slow` without the semi-fast cases. -/
def storevSlowest (al : ShadowAlloc) (s : Shadow) (a szB : Nat) (vbytes : BitVec 64)
    (bigendian : Bool) : Result Shadow := do
  assertThat (szB = 8 ∨ szB = 4 ∨ szB = 2 ∨ szB = 1)
  let (nAddrsBad, s) ← storevLoop al a szB bigendian (List.range szB) vbytes 0 s
  pure (if 0 < nAddrsBad then recordAddressError s a szB true else s)

/-- `mc_STOREVn_slow`. -/
def mcSTOREVnSlow (al : ShadowAlloc) (s : Shadow) (a szB : Nat) (vbytes : BitVec 64)
    (bigendian : Bool) : Result Shadow := do
  if wordB = 8 ∧ szB = 8 ∧ a % 8 = 0 then do
    let (sm, maps) ← getSecmapForReading s.maps a
    let s := { s with maps }
    let vabits16 := getVabits16 (s.maps.contents sm) (smOff16 a)
    if isDistinguishedSm sm = false ∧ (vabits16 = vaBits16Defined ∨ vabits16 = vaBits16Undefined) then
      if vbytes = 0 then
        pure (storeSm s sm (setVabits16 (s.maps.contents sm) (smOff16 a) vaBits16Defined))
      else if vbytes = BitVec.allOnes 64 then
        pure (storeSm s sm (setVabits16 (s.maps.contents sm) (smOff16 a) vaBits16Undefined))
      else storevSlowest al s a szB vbytes bigendian
    else storevSlowest al s a szB vbytes bigendian
  else if wordB = 8 ∧ szB = 4 ∧ a % 4 = 0 then do
    let (sm, maps) ← getSecmapForReading s.maps a
    let s := { s with maps }
    let vabits8 := s.maps.contents sm (smOff a)
    if isDistinguishedSm sm = false ∧ (vabits8 = vaBits8Defined ∨ vabits8 = vaBits8Undefined) then
      if vbytes &&& 0xFFFFFFFF = 0 then
        pure (storeSm s sm (Function.update (s.maps.contents sm) (smOff a) vaBits8Defined))
      else if vbytes &&& 0xFFFFFFFF = 0xFFFFFFFF then
        pure (storeSm s sm (Function.update (s.maps.contents sm) (smOff a) vaBits8Undefined))
      else storevSlowest al s a szB vbytes bigendian
    else storevSlowest al s a szB vbytes bigendian
  else storevSlowest al s a szB vbytes bigendian

/-! ## Fast cases -/

/-- `MASK`. -/
def mask (szInBytes : Nat) : Nat :=
  wordMod - 1 - ((65536 - szInBytes) ||| ((nPrimaryMap - 1) <<< 16))

/-- `UNALIGNED_OR_HIGH`. -/
def unalignedOrHigh (a szInBytes : Nat) : Bool := decide (a &&& mask szInBytes ≠ 0)

/-- `get_secmap_for_reading_low`. -/
def getSecmapForReadingLow (s : Shadow) (a : Nat) : Nat := s.maps.primaryMap (a / 65536)

/-- A cast to `UWord`. -/
def toUWord (v : BitVec 64) : BitVec 64 := if wordB = 4 then v &&& 0xFFFFFFFF else v

/-- `mc_LOADV64`. -/
def mcLOADV64 (partialLoadsOk : Bool) (s : Shadow) (a : Nat) (isBigEndian : Bool) :
    Result (BitVec 64 × Shadow) :=
  if unalignedOrHigh a 8 then mcLOADVnSlow partialLoadsOk s a 8 isBigEndian
  else
    let vabits16 := getVabits16 (s.maps.contents (getSecmapForReadingLow s a)) (smOff16 a)
    if vabits16 = vaBits16Defined then pure (0, s)
    else if vabits16 = vaBits16Undefined then pure (BitVec.allOnes 64, s)
    else mcLOADVnSlow partialLoadsOk s a 8 isBigEndian

/-- `mc_LOADV32`. -/
def mcLOADV32 (partialLoadsOk : Bool) (s : Shadow) (a : Nat) (isBigEndian : Bool) :
    Result (BitVec 64 × Shadow) :=
  let slow := do
    let (v, s) ← mcLOADVnSlow partialLoadsOk s a 4 isBigEndian
    pure (toUWord v, s)
  if unalignedOrHigh a 4 then slow
  else
    let vabits8 := s.maps.contents (getSecmapForReadingLow s a) (smOff a)
    if vabits8 = vaBits8Defined then pure (toUWord 0xFFFFFFFF00000000, s)
    else if vabits8 = vaBits8Undefined then pure (toUWord (0xFFFFFFFF00000000 ||| 0xFFFFFFFF), s)
    else slow

/-- `mc_LOADV16`. -/
def mcLOADV16 (partialLoadsOk : Bool) (s : Shadow) (a : Nat) (isBigEndian : Bool) :
    Result (BitVec 64 × Shadow) :=
  let slow := do
    let (v, s) ← mcLOADVnSlow partialLoadsOk s a 2 isBigEndian
    pure (toUWord v, s)
  if unalignedOrHigh a 2 then slow
  else do
    let vabits8 := s.maps.contents (getSecmapForReadingLow s a) (smOff a)
    if vabits8 = vaBits8Defined then pure (0, s)
    else if vabits8 = vaBits8Undefined then pure (0xFFFF, s)
    else do
      let vabits4 ← extractVabits4FromVabits8 a vabits8
      if vabits4 = vaBits4Defined then pure (0, s)
      else if vabits4 = vaBits4Undefined then pure (0xFFFF, s)
      else slow

/-- `MC_(helperc_LOADV8)`. -/
def helpercLOADV8 (partialLoadsOk : Bool) (s : Shadow) (a : Nat) : Result (BitVec 64 × Shadow) :=
  let slow := do
    let (v, s) ← mcLOADVnSlow partialLoadsOk s a 1 false
    pure (toUWord v, s)
  if unalignedOrHigh a 1 then slow
  else
    let vabits8 := s.maps.contents (getSecmapForReadingLow s a) (smOff a)
    if vabits8 = vaBits8Defined then pure (0, s)
    else if vabits8 = vaBits8Undefined then pure (0xFF, s)
    else
      let vabits2 := extractVabits2FromVabits8 a vabits8
      if vabits2 = vaBits2Defined then pure (0, s)
      else if vabits2 = vaBits2Undefined then pure (0xFF, s)
      else slow

/-- `mc_STOREV64`. -/
def mcSTOREV64 (al : ShadowAlloc) (s : Shadow) (a : Nat) (vbits64 : BitVec 64) (isBigEndian : Bool) :
    Result Shadow :=
  if unalignedOrHigh a 8 then mcSTOREVnSlow al s a 8 vbits64 isBigEndian
  else
    let sm := getSecmapForReadingLow s a
    let vabits16 := getVabits16 (s.maps.contents sm) (smOff16 a)
    if isDistinguishedSm sm = false ∧ (vabits16 = vaBits16Defined ∨ vabits16 = vaBits16Undefined) then
      if vbits64 = 0 then
        pure (storeSm s sm (setVabits16 (s.maps.contents sm) (smOff16 a) vaBits16Defined))
      else if vbits64 = BitVec.allOnes 64 then
        pure (storeSm s sm (setVabits16 (s.maps.contents sm) (smOff16 a) vaBits16Undefined))
      else mcSTOREVnSlow al s a 8 vbits64 isBigEndian
    else mcSTOREVnSlow al s a 8 vbits64 isBigEndian

/-- `mc_STOREV32`. Nothing is written if what is to be written is already there. -/
def mcSTOREV32 (al : ShadowAlloc) (s : Shadow) (a : Nat) (vbits32 : BitVec 64) (isBigEndian : Bool) :
    Result Shadow :=
  if unalignedOrHigh a 4 then mcSTOREVnSlow al s a 4 vbits32 isBigEndian
  else
    let sm := getSecmapForReadingLow s a
    let vabits8 := s.maps.contents sm (smOff a)
    if vbits32 = 0 then
      if vabits8 = vaBits8Defined then pure s
      else if isDistinguishedSm sm = false ∧ vabits8 = vaBits8Undefined then
        pure (storeSm s sm (Function.update (s.maps.contents sm) (smOff a) vaBits8Defined))
      else mcSTOREVnSlow al s a 4 vbits32 isBigEndian
    else if vbits32 = 0xFFFFFFFF then
      if vabits8 = vaBits8Undefined then pure s
      else if isDistinguishedSm sm = false ∧ vabits8 = vaBits8Defined then
        pure (storeSm s sm (Function.update (s.maps.contents sm) (smOff a) vaBits8Undefined))
      else mcSTOREVnSlow al s a 4 vbits32 isBigEndian
    else mcSTOREVnSlow al s a 4 vbits32 isBigEndian

/-- `mc_STOREV16`. -/
def mcSTOREV16 (al : ShadowAlloc) (s : Shadow) (a : Nat) (vbits16 : BitVec 64) (isBigEndian : Bool) :
    Result Shadow :=
  if unalignedOrHigh a 2 then mcSTOREVnSlow al s a 2 vbits16 isBigEndian
  else
    let sm := getSecmapForReadingLow s a
    let vabits8 := s.maps.contents sm (smOff a)
    if isDistinguishedSm sm = false ∧ (vabits8 = vaBits8Defined ∨ vabits8 = vaBits8Undefined) then
      if vbits16 = 0 then do
        let vabits8 ← insertVabits4IntoVabits8 a vaBits4Defined vabits8
        pure (storeSm s sm (Function.update (s.maps.contents sm) (smOff a) vabits8))
      else if vbits16 = 0xFFFF then do
        let vabits8 ← insertVabits4IntoVabits8 a vaBits4Undefined vabits8
        pure (storeSm s sm (Function.update (s.maps.contents sm) (smOff a) vabits8))
      else mcSTOREVnSlow al s a 2 vbits16 isBigEndian
    else mcSTOREVnSlow al s a 2 vbits16 isBigEndian

/-- `MC_(helperc_STOREV8)`. -/
def helpercSTOREV8 (al : ShadowAlloc) (s : Shadow) (a : Nat) (vbits8 : BitVec 64) : Result Shadow :=
  if unalignedOrHigh a 1 then mcSTOREVnSlow al s a 1 vbits8 false
  else
    let sm := getSecmapForReadingLow s a
    let vabits8 := s.maps.contents sm (smOff a)
    if isDistinguishedSm sm = false ∧ ((vabits8 = vaBits8Defined ∨ vabits8 = vaBits8Undefined) ∨
        extractVabits2FromVabits8 a vabits8 ≠ vaBits2Noaccess) then
      if vbits8 = 0 then
        pure (storeSm s sm (insertVabits2 (s.maps.contents sm) a vaBits2Defined))
      else if vbits8 = 0xFF then
        pure (storeSm s sm (insertVabits2 (s.maps.contents sm) a vaBits2Undefined))
      else mcSTOREVnSlow al s a 1 vbits8 false
    else mcSTOREVnSlow al s a 1 vbits8 false

/-- The sizes of loads and stores. -/
inductive VSize where
  | v8 | v16 | v32 | v64
  deriving DecidableEq

/-- The size in bytes. -/
def VSize.szB : VSize → Nat
  | v8 => 1
  | v16 => 2
  | v32 => 4
  | v64 => 8

/-- `MC_(helperc_LOADV64be)` and the like. Endianness is irrelevant for a single byte. -/
def helpercLOADV (partialLoadsOk : Bool) (sz : VSize) (bigendian : Bool) (s : Shadow) (a : Nat) :
    Result (BitVec 64 × Shadow) :=
  match sz with
  | .v8 => helpercLOADV8 partialLoadsOk s a
  | .v16 => mcLOADV16 partialLoadsOk s a bigendian
  | .v32 => mcLOADV32 partialLoadsOk s a bigendian
  | .v64 => mcLOADV64 partialLoadsOk s a bigendian

/-- `MC_(helperc_STOREV64be)` and the like. -/
def helpercSTOREV (al : ShadowAlloc) (sz : VSize) (bigendian : Bool) (s : Shadow) (a : Nat)
    (vbits : BitVec 64) : Result Shadow :=
  match sz with
  | .v8 => helpercSTOREV8 al s a vbits
  | .v16 => mcSTOREV16 al s a vbits bigendian
  | .v32 => mcSTOREV32 al s a vbits bigendian
  | .v64 => mcSTOREV64 al s a vbits bigendian

end

end Memcheck

end Valgrind
