import Mathlib.Tactic

/-!
# Types, values and primops of the IR

Vex's intermediate representation computes on values of the types `IRType`. A
value is modelled by its bits, at most 128 of them; a value of a smaller type has
zeroes above. The integer primops, the bitwise vector primops and the 64-bit
reinterpretations have their meaning spelled out here. Every other primop
(floating point, SIMD) is an `IROp.other`, known by its number and its type; what
it computes is a parameter of the semantics.
-/

namespace Valgrind.Vex

/-- `IRType`. -/
inductive IRType where
  | I1 | I8 | I16 | I32 | I64 | I128 | F32 | F64 | V128
  deriving DecidableEq, Repr

/-- The number of bits of a value of the type. -/
def IRType.bits : IRType → Nat
  | .I1 => 1
  | .I8 => 8
  | .I16 => 16
  | .I32 => 32
  | .I64 => 64
  | .I128 => 128
  | .F32 => 32
  | .F64 => 64
  | .V128 => 128

/-- The number of bytes that a value of the type takes up in memory. -/
def IRType.bytes (ty : IRType) : Nat := (ty.bits + 7) / 8

theorem IRType.bits_pos (ty : IRType) : 0 < ty.bits := by cases ty <;> decide

theorem IRType.bits_le (ty : IRType) : ty.bits ≤ 128 := by cases ty <;> decide

theorem IRType.bytes_le (ty : IRType) : ty.bytes ≤ 16 := by cases ty <;> decide

theorem IRType.bytes_pos (ty : IRType) : 0 < ty.bytes := by cases ty <;> decide

theorem IRType.bits_le_bytes (ty : IRType) : ty.bits ≤ 8 * ty.bytes := by cases ty <;> decide

/-- The bits of a value, with zeroes above. -/
abbrev Val := BitVec 128

/-- The lowest `n` bits of a value. -/
def Val.low (n : Nat) (v : Val) : Val := (BitVec.setWidth n v).setWidth 128

/-- The value has no bits beyond those of its type. -/
def IRType.Fits (ty : IRType) (v : Val) : Prop := Val.low ty.bits v = v

instance (ty : IRType) (v : Val) : Decidable (ty.Fits v) := inferInstanceAs (Decidable (_ = _))

theorem Val.toNat_low (n : Nat) (v : Val) : (Val.low n v).toNat = v.toNat % 2 ^ n := by
  simp only [Val.low, BitVec.toNat_setWidth]
  have hv := v.isLt
  have hle : v.toNat % 2 ^ n ≤ v.toNat := Nat.mod_le _ _
  exact Nat.mod_eq_of_lt (by omega)

theorem IRType.fits_iff {ty : IRType} {v : Val} : ty.Fits v ↔ v.toNat < 2 ^ ty.bits := by
  have hp : 0 < 2 ^ ty.bits := Nat.pow_pos (by decide)
  rw [IRType.Fits, ← BitVec.toNat_inj, Val.toNat_low]
  exact ⟨fun h => h ▸ Nat.mod_lt _ hp, Nat.mod_eq_of_lt⟩

theorem IRType.fits_low (ty : IRType) (v : Val) : ty.Fits (Val.low ty.bits v) := by
  rw [IRType.fits_iff, Val.toNat_low]
  exact Nat.mod_lt _ (Nat.pow_pos (by decide))

theorem IRType.fits_zero (ty : IRType) : ty.Fits 0 := by
  rw [IRType.fits_iff]
  exact Nat.pow_pos (by decide)

/-- The operand widths of the integer primops. -/
inductive IntSz where
  | w8 | w16 | w32 | w64
  deriving DecidableEq, Repr

def IntSz.bits : IntSz → Nat
  | .w8 => 8
  | .w16 => 16
  | .w32 => 32
  | .w64 => 64

/-- `Ity_I8`, `Ity_I16`, `Ity_I32`, `Ity_I64`. -/
def IntSz.ty : IntSz → IRType
  | .w8 => .I8
  | .w16 => .I16
  | .w32 => .I32
  | .w64 => .I64

/-- The type twice as wide. -/
def IntSz.ty2 : IntSz → IRType
  | .w8 => .I16
  | .w16 => .I32
  | .w32 => .I64
  | .w64 => .I128

@[simp] theorem IntSz.bits_ty (w : IntSz) : w.ty.bits = w.bits := by cases w <;> rfl

@[simp] theorem IntSz.bits_ty2 (w : IntSz) : w.ty2.bits = 2 * w.bits := by cases w <;> rfl

theorem IntSz.bits_le (w : IntSz) : w.bits ≤ 64 := by cases w <;> decide

/-- `IROp`. A family such as `Iop_Add8 .. Iop_Add64` is one constructor with the
operand width. A digit cannot start a name, so `Iop_8Uto16` is `cvt8Uto16`. -/
inductive IROp where
  | add (w : IntSz) | sub (w : IntSz) | mul (w : IntSz)
  | or (w : IntSz) | and (w : IntSz) | xor (w : IntSz)
  | shl (w : IntSz) | shr (w : IntSz) | sar (w : IntSz)
  | cmpEQ (w : IntSz) | cmpNE (w : IntSz)
  | not (w : IntSz)
  | mullS (w : IntSz) | mullU (w : IntSz)
  | clz64 | clz32 | ctz64 | ctz32
  | cmpLT32S | cmpLT64S | cmpLE32S | cmpLE64S
  | cmpLT32U | cmpLT64U | cmpLE32U | cmpLE64U
  | cmpNEZ (w : IntSz) | cmpwNEZ32 | cmpwNEZ64
  | left (w : IntSz)
  | max32U
  | cmpORD32U | cmpORD64U | cmpORD32S | cmpORD64S
  | divU32 | divS32 | divU64 | divS64
  | divModU64to32 | divModS64to32 | divModU128to64 | divModS128to64
  | cvt8Uto16 | cvt8Uto32 | cvt8Uto64 | cvt16Uto32 | cvt16Uto64 | cvt32Uto64
  | cvt8Sto16 | cvt8Sto32 | cvt8Sto64 | cvt16Sto32 | cvt16Sto64 | cvt32Sto64
  | cvt64to8 | cvt32to8 | cvt64to16
  | cvt16to8 | cvt16HIto8 | cvt8HLto16
  | cvt32to16 | cvt32HIto16 | cvt16HLto32
  | cvt64to32 | cvt64HIto32 | cvt32HLto64
  | cvt128to64 | cvt128HIto64 | cvt64HLto128
  | not1 | cvt32to1 | cvt64to1
  | cvt1Uto8 | cvt1Uto32 | cvt1Uto64
  | cvt1Sto8 | cvt1Sto16 | cvt1Sto32 | cvt1Sto64
  | reinterpF64asI64 | reinterpI64asF64 | reinterpF32asI32 | reinterpI32asF32
  | notV128 | andV128 | orV128 | xorV128
  /-- Any other primop: its number, the type of its result and those of its operands. -/
  | other (code : Nat) (dst : IRType) (args : List IRType)
  deriving DecidableEq, Repr

/-- `typeOfPrimop`: the type of the result and those of the operands. -/
def typeOfPrimop : IROp → IRType × List IRType
  | .add w | .sub w | .mul w | .or w | .and w | .xor w => (w.ty, [w.ty, w.ty])
  | .shl w | .shr w | .sar w => (w.ty, [w.ty, .I8])
  | .cmpEQ w | .cmpNE w => (.I1, [w.ty, w.ty])
  | .not w | .left w => (w.ty, [w.ty])
  | .mullS w | .mullU w => (w.ty2, [w.ty, w.ty])
  | .clz64 | .ctz64 => (.I64, [.I64])
  | .clz32 | .ctz32 => (.I32, [.I32])
  | .cmpLT32S | .cmpLE32S | .cmpLT32U | .cmpLE32U => (.I1, [.I32, .I32])
  | .cmpLT64S | .cmpLE64S | .cmpLT64U | .cmpLE64U => (.I1, [.I64, .I64])
  | .cmpNEZ w => (.I1, [w.ty])
  | .cmpwNEZ32 => (.I32, [.I32])
  | .cmpwNEZ64 => (.I64, [.I64])
  | .max32U | .cmpORD32U | .cmpORD32S => (.I32, [.I32, .I32])
  | .cmpORD64U | .cmpORD64S => (.I64, [.I64, .I64])
  | .divU32 | .divS32 => (.I32, [.I32, .I32])
  | .divU64 | .divS64 => (.I64, [.I64, .I64])
  | .divModU64to32 | .divModS64to32 => (.I64, [.I64, .I32])
  | .divModU128to64 | .divModS128to64 => (.I128, [.I128, .I64])
  | .cvt8Uto16 | .cvt8Sto16 => (.I16, [.I8])
  | .cvt8Uto32 | .cvt8Sto32 => (.I32, [.I8])
  | .cvt8Uto64 | .cvt8Sto64 => (.I64, [.I8])
  | .cvt16Uto32 | .cvt16Sto32 => (.I32, [.I16])
  | .cvt16Uto64 | .cvt16Sto64 => (.I64, [.I16])
  | .cvt32Uto64 | .cvt32Sto64 => (.I64, [.I32])
  | .cvt64to8 => (.I8, [.I64])
  | .cvt32to8 => (.I8, [.I32])
  | .cvt64to16 => (.I16, [.I64])
  | .cvt16to8 | .cvt16HIto8 => (.I8, [.I16])
  | .cvt8HLto16 => (.I16, [.I8, .I8])
  | .cvt32to16 | .cvt32HIto16 => (.I16, [.I32])
  | .cvt16HLto32 => (.I32, [.I16, .I16])
  | .cvt64to32 | .cvt64HIto32 => (.I32, [.I64])
  | .cvt32HLto64 => (.I64, [.I32, .I32])
  | .cvt128to64 | .cvt128HIto64 => (.I64, [.I128])
  | .cvt64HLto128 => (.I128, [.I64, .I64])
  | .not1 => (.I1, [.I1])
  | .cvt32to1 => (.I1, [.I32])
  | .cvt64to1 => (.I1, [.I64])
  | .cvt1Uto8 | .cvt1Sto8 => (.I8, [.I1])
  | .cvt1Sto16 => (.I16, [.I1])
  | .cvt1Uto32 | .cvt1Sto32 => (.I32, [.I1])
  | .cvt1Uto64 | .cvt1Sto64 => (.I64, [.I1])
  | .reinterpF64asI64 => (.I64, [.F64])
  | .reinterpI64asF64 => (.F64, [.I64])
  | .reinterpF32asI32 => (.I32, [.F32])
  | .reinterpI32asF32 => (.F32, [.I32])
  | .notV128 => (.V128, [.V128])
  | .andV128 | .orV128 | .xorV128 => (.V128, [.V128, .V128])
  | .other _ dst args => (dst, args)

/-! ## What the primops compute -/

/-- Count leading zeroes; `n` if there is no one bit. -/
def clz {n : Nat} (a : BitVec n) : Nat :=
  ((List.range n).find? fun i => a.getLsbD (n - 1 - i)).getD n

/-- Count trailing zeroes; `n` if there is no one bit. -/
def ctz {n : Nat} (a : BitVec n) : Nat :=
  ((List.range n).find? fun i => a.getLsbD i).getD n

/-- The 3-way comparison of PowerPC: 8 for less, 4 for greater, 2 for equal. -/
def cmpORD (n : Nat) (lt gt : Bool) : BitVec n :=
  if lt then 8 else if gt then 4 else 2

/-- An operation on `n` bits as an operation on values. -/
def un (n : Nat) {m : Nat} (f : BitVec n → BitVec m) (a : Val) : Val :=
  (f (a.setWidth n)).setWidth 128

/-- An operation on operands of `n` and `k` bits as an operation on values. -/
def bin (n k : Nat) {m : Nat} (f : BitVec n → BitVec k → BitVec m) (a b : Val) : Val :=
  (f (a.setWidth n) (b.setWidth k)).setWidth 128

/-- A comparison of operands of `n` bits. -/
def cmp (n : Nat) (f : BitVec n → BitVec n → Bool) (a b : Val) : Val :=
  (BitVec.ofBool (f (a.setWidth n) (b.setWidth n))).setWidth 128

/-- `DivMod`: the quotient in the lower half, the remainder in the upper half. -/
def divMod (n : Nat) (div mod : BitVec (2 * n) → BitVec (2 * n) → BitVec (2 * n))
    (widen : BitVec n → BitVec (2 * n)) (a : BitVec (2 * n)) (b : BitVec n) : BitVec (2 * n) :=
  ((mod a (widen b)).setWidth n).setWidth (2 * n) <<< n ||| ((div a (widen b)).setWidth n).setWidth (2 * n)

/-- The value of a unary primop; `none` for the primops that are not spelled out. -/
def evalUnop : IROp → Val → Option Val
  | .not w, a => some (un w.bits (fun x => ~~~x) a)
  | .left w, a => some (un w.bits (fun x => x ||| -x) a)
  | .clz64, a => some (un 64 (fun x => BitVec.ofNat 64 (clz x)) a)
  | .clz32, a => some (un 32 (fun x => BitVec.ofNat 32 (clz x)) a)
  | .ctz64, a => some (un 64 (fun x => BitVec.ofNat 64 (ctz x)) a)
  | .ctz32, a => some (un 32 (fun x => BitVec.ofNat 32 (ctz x)) a)
  | .cmpNEZ w, a => some (un w.bits (fun x => BitVec.ofBool (x != 0)) a)
  | .cmpwNEZ32, a => some (un 32 (fun x => if x = 0 then (0 : BitVec 32) else BitVec.allOnes 32) a)
  | .cmpwNEZ64, a => some (un 64 (fun x => if x = 0 then (0 : BitVec 64) else BitVec.allOnes 64) a)
  | .cvt8Uto16, a => some (un 8 (fun x => x.setWidth 16) a)
  | .cvt8Uto32, a => some (un 8 (fun x => x.setWidth 32) a)
  | .cvt8Uto64, a => some (un 8 (fun x => x.setWidth 64) a)
  | .cvt16Uto32, a => some (un 16 (fun x => x.setWidth 32) a)
  | .cvt16Uto64, a => some (un 16 (fun x => x.setWidth 64) a)
  | .cvt32Uto64, a => some (un 32 (fun x => x.setWidth 64) a)
  | .cvt8Sto16, a => some (un 8 (fun x => x.signExtend 16) a)
  | .cvt8Sto32, a => some (un 8 (fun x => x.signExtend 32) a)
  | .cvt8Sto64, a => some (un 8 (fun x => x.signExtend 64) a)
  | .cvt16Sto32, a => some (un 16 (fun x => x.signExtend 32) a)
  | .cvt16Sto64, a => some (un 16 (fun x => x.signExtend 64) a)
  | .cvt32Sto64, a => some (un 32 (fun x => x.signExtend 64) a)
  | .cvt64to8, a => some (un 64 (fun x => x.setWidth 8) a)
  | .cvt32to8, a => some (un 32 (fun x => x.setWidth 8) a)
  | .cvt64to16, a => some (un 64 (fun x => x.setWidth 16) a)
  | .cvt16to8, a => some (un 16 (fun x => x.setWidth 8) a)
  | .cvt16HIto8, a => some (un 16 (fun x => (x >>> 8).setWidth 8) a)
  | .cvt32to16, a => some (un 32 (fun x => x.setWidth 16) a)
  | .cvt32HIto16, a => some (un 32 (fun x => (x >>> 16).setWidth 16) a)
  | .cvt64to32, a => some (un 64 (fun x => x.setWidth 32) a)
  | .cvt64HIto32, a => some (un 64 (fun x => (x >>> 32).setWidth 32) a)
  | .cvt128to64, a => some (un 128 (fun x => x.setWidth 64) a)
  | .cvt128HIto64, a => some (un 128 (fun x => (x >>> 64).setWidth 64) a)
  | .not1, a => some (un 1 (fun x => ~~~x) a)
  | .cvt32to1, a => some (un 32 (fun x => x.setWidth 1) a)
  | .cvt64to1, a => some (un 64 (fun x => x.setWidth 1) a)
  | .cvt1Uto8, a => some (un 1 (fun x => x.setWidth 8) a)
  | .cvt1Uto32, a => some (un 1 (fun x => x.setWidth 32) a)
  | .cvt1Uto64, a => some (un 1 (fun x => x.setWidth 64) a)
  | .cvt1Sto8, a => some (un 1 (fun x => x.signExtend 8) a)
  | .cvt1Sto16, a => some (un 1 (fun x => x.signExtend 16) a)
  | .cvt1Sto32, a => some (un 1 (fun x => x.signExtend 32) a)
  | .cvt1Sto64, a => some (un 1 (fun x => x.signExtend 64) a)
  | .reinterpF64asI64, a | .reinterpI64asF64, a => some (un 64 (fun x => x) a)
  | .reinterpF32asI32, a | .reinterpI32asF32, a => some (un 32 (fun x => x) a)
  | .notV128, a => some (~~~a)
  | _, _ => none

/-- The value of a binary primop; `none` for the primops that are not spelled out.
A shift by the operand width or more gives zeroes (or copies of the sign bit), a
division by zero gives zero: the IR leaves both undefined. -/
def evalBinop : IROp → Val → Val → Option Val
  | .add w, a, b => some (bin w.bits w.bits (fun x y => x + y) a b)
  | .sub w, a, b => some (bin w.bits w.bits (fun x y => x - y) a b)
  | .mul w, a, b => some (bin w.bits w.bits (fun x y => x * y) a b)
  | .or w, a, b => some (bin w.bits w.bits (fun x y => x ||| y) a b)
  | .and w, a, b => some (bin w.bits w.bits (fun x y => x &&& y) a b)
  | .xor w, a, b => some (bin w.bits w.bits (fun x y => x ^^^ y) a b)
  | .shl w, a, b => some (bin w.bits 8 (fun x y => x <<< y.toNat) a b)
  | .shr w, a, b => some (bin w.bits 8 (fun x y => x >>> y.toNat) a b)
  | .sar w, a, b => some (bin w.bits 8 (fun x y => x.sshiftRight y.toNat) a b)
  | .cmpEQ w, a, b => some (cmp w.bits (fun x y => x == y) a b)
  | .cmpNE w, a, b => some (cmp w.bits (fun x y => x != y) a b)
  | .mullS w, a, b =>
    some (bin w.bits w.bits (fun x y => x.signExtend (2 * w.bits) * y.signExtend (2 * w.bits)) a b)
  | .mullU w, a, b =>
    some (bin w.bits w.bits (fun x y => x.setWidth (2 * w.bits) * y.setWidth (2 * w.bits)) a b)
  | .cmpLT32S, a, b => some (cmp 32 BitVec.slt a b)
  | .cmpLT64S, a, b => some (cmp 64 BitVec.slt a b)
  | .cmpLE32S, a, b => some (cmp 32 BitVec.sle a b)
  | .cmpLE64S, a, b => some (cmp 64 BitVec.sle a b)
  | .cmpLT32U, a, b => some (cmp 32 BitVec.ult a b)
  | .cmpLT64U, a, b => some (cmp 64 BitVec.ult a b)
  | .cmpLE32U, a, b => some (cmp 32 BitVec.ule a b)
  | .cmpLE64U, a, b => some (cmp 64 BitVec.ule a b)
  | .max32U, a, b => some (bin 32 32 (fun x y => if y.ult x then x else y) a b)
  | .cmpORD32U, a, b => some (bin 32 32 (fun x y => cmpORD 32 (x.ult y) (y.ult x)) a b)
  | .cmpORD64U, a, b => some (bin 64 64 (fun x y => cmpORD 64 (x.ult y) (y.ult x)) a b)
  | .cmpORD32S, a, b => some (bin 32 32 (fun x y => cmpORD 32 (x.slt y) (y.slt x)) a b)
  | .cmpORD64S, a, b => some (bin 64 64 (fun x y => cmpORD 64 (x.slt y) (y.slt x)) a b)
  | .divU32, a, b => some (bin 32 32 BitVec.udiv a b)
  | .divS32, a, b => some (bin 32 32 BitVec.sdiv a b)
  | .divU64, a, b => some (bin 64 64 BitVec.udiv a b)
  | .divS64, a, b => some (bin 64 64 BitVec.sdiv a b)
  | .divModU64to32, a, b =>
    some (bin 64 32 (divMod 32 BitVec.udiv BitVec.umod (fun x => x.setWidth 64)) a b)
  | .divModS64to32, a, b =>
    some (bin 64 32 (divMod 32 BitVec.sdiv BitVec.srem (fun x => x.signExtend 64)) a b)
  | .divModU128to64, a, b =>
    some (bin 128 64 (divMod 64 BitVec.udiv BitVec.umod (fun x => x.setWidth 128)) a b)
  | .divModS128to64, a, b =>
    some (bin 128 64 (divMod 64 BitVec.sdiv BitVec.srem (fun x => x.signExtend 128)) a b)
  | .cvt8HLto16, a, b => some (bin 8 8 (fun x y => x ++ y) a b)
  | .cvt16HLto32, a, b => some (bin 16 16 (fun x y => x ++ y) a b)
  | .cvt32HLto64, a, b => some (bin 32 32 (fun x y => x ++ y) a b)
  | .cvt64HLto128, a, b => some (bin 64 64 (fun x y => x ++ y) a b)
  | .andV128, a, b => some (a &&& b)
  | .orV128, a, b => some (a ||| b)
  | .xorV128, a, b => some (a ^^^ b)
  | _, _, _ => none

/-- The value of a primop on its operands. `primop` gives a meaning to the
primops that are not spelled out; what it computes is cut to the type of the
result. -/
def evalPrimop (primop : IROp → List Val → Val) (op : IROp) (args : List Val) : Val :=
  let spelledOut := match args with
    | [a] => evalUnop op a
    | [a, b] => evalBinop op a b
    | _ => none
  spelledOut.getD (Val.low (typeOfPrimop op).1.bits (primop op args))

theorem fits_setWidth {ty : IRType} {m : Nat} (hm : m ≤ ty.bits) (x : BitVec m) :
    ty.Fits (x.setWidth 128) := by
  rw [IRType.fits_iff, BitVec.toNat_setWidth]
  have hx := x.isLt
  have hpow : 2 ^ m ≤ 2 ^ ty.bits := Nat.pow_le_pow_right (by decide) hm
  have hle : x.toNat % 2 ^ 128 ≤ x.toNat := Nat.mod_le _ _
  omega

theorem fits_un {ty : IRType} {n m : Nat} {f : BitVec n → BitVec m} {a : Val} (hm : m ≤ ty.bits) :
    ty.Fits (un n f a) := fits_setWidth hm _

theorem fits_bin {ty : IRType} {n k m : Nat} {f : BitVec n → BitVec k → BitVec m} {a b : Val}
    (hm : m ≤ ty.bits) : ty.Fits (bin n k f a b) := fits_setWidth hm _

theorem fits_cmp {ty : IRType} {n : Nat} {f : BitVec n → BitVec n → Bool} {a b : Val} :
    ty.Fits (cmp n f a b) := fits_setWidth ty.bits_pos _

theorem fits_of_bits {ty : IRType} (h : ty.bits = 128) (v : Val) : ty.Fits v := by
  rw [IRType.fits_iff, h]
  exact v.isLt

theorem evalUnop_fits {op : IROp} {a v : Val} (h : evalUnop op a = some v) :
    (typeOfPrimop op).1.Fits v := by
  unfold evalUnop at h
  split at h <;> cases h <;>
    first
      | (with_reducible refine fits_un ?_
         first | exact IRType.bits_pos _ | decide | simp [typeOfPrimop])
      | exact fits_of_bits rfl _

theorem evalBinop_fits {op : IROp} {a b v : Val} (h : evalBinop op a b = some v) :
    (typeOfPrimop op).1.Fits v := by
  unfold evalBinop at h
  split at h <;> cases h <;>
    first
      | with_reducible exact fits_cmp
      | (with_reducible refine fits_bin ?_
         first | decide | simp [typeOfPrimop])
      | exact fits_of_bits rfl _

/-- A primop gives a value of its result type. -/
theorem evalPrimop_fits (primop : IROp → List Val → Val) (op : IROp) (args : List Val) :
    (typeOfPrimop op).1.Fits (evalPrimop primop op args) := by
  have key : ∀ o : Option Val, (∀ v, o = some v → (typeOfPrimop op).1.Fits v) →
      (typeOfPrimop op).1.Fits (o.getD (Val.low (typeOfPrimop op).1.bits (primop op args))) := by
    intro o ho
    cases o with
    | none => exact IRType.fits_low _ _
    | some v => exact ho v rfl
  unfold evalPrimop
  refine key _ fun v hv => ?_
  split at hv
  · exact evalUnop_fits hv
  · exact evalBinop_fits hv
  · exact nomatch hv

end Valgrind.Vex
