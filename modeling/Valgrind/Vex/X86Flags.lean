import Valgrind.Basics.Result

/-!
# The x86 flag thunk (`guest-x86/ghelpers.c`)

The flags of the last flag-setting instruction are not computed when it runs. Four words are
kept instead: `CC_OP`, the operation and its width; `CC_DEP1` and `CC_DEP2`, its operands or
its result; `CC_NDEP`, the old carry or the old flags. `x86g_calculate_eflags_all_WRK` computes
the flags from them when they are needed. All of its arithmetic is on words of 32 bits, whose
upper parts are arbitrary for the narrow operations.

`calculateEflags_exact`: whatever operation the thunk records, the flags are those of the
architecture.
-/

namespace Valgrind.Vex.X86

/-! ## The thunk -/

/-- The operations of `X86G_CC_OP`, less their widths. -/
inductive CcKind where
  | add | sub | adc | sbb | logic | inc | dec | shl | shr | rol | ror | umul | smul
  deriving DecidableEq, Repr

/-- The suffixes `B`, `W` and `L`. -/
inductive CcWidth where
  | b | w | l
  deriving DecidableEq, Repr

/-- The number of bits of the operands. -/
def CcWidth.bits : CcWidth → Nat
  | .b => 8
  | .w => 16
  | .l => 32

/-- `X86G_CC_OP_COPY`, `X86G_CC_OP_ADDB`, ... -/
inductive CcOp where
  | copy
  | op (kind : CcKind) (width : CcWidth)
  deriving DecidableEq, Repr

/-- The place of an operation among those of the enumeration. -/
def CcKind.index : CcKind → Nat
  | .add => 0
  | .sub => 1
  | .adc => 2
  | .sbb => 3
  | .logic => 4
  | .inc => 5
  | .dec => 6
  | .shl => 7
  | .shr => 8
  | .rol => 9
  | .ror => 10
  | .umul => 11
  | .smul => 12

/-- The place of a width among those of an operation. -/
def CcWidth.index : CcWidth → Nat
  | .b => 0
  | .w => 1
  | .l => 2

/-- The number of an operation. -/
def CcOp.code : CcOp → BitVec 32
  | .copy => 0
  | .op kind width => BitVec.ofNat 32 (3 * kind.index + width.index + 1)

/-- All operations. -/
def CcOp.all : List CcOp :=
  .copy :: ([.add, .sub, .adc, .sbb, .logic, .inc, .dec, .shl, .shr, .rol, .ror, .umul, .smul] : List CcKind).flatMap
    fun kind => [.op kind .b, .op kind .w, .op kind .l]

/-- The operation that a number means. -/
def CcOp.ofCode (code : BitVec 32) : Option CcOp := CcOp.all.find? fun ccOp => ccOp.code = code

theorem CcOp.mem_all (ccOp : CcOp) : ccOp ∈ CcOp.all := by
  cases ccOp with
  | copy => decide
  | op kind width => cases kind <;> cases width <;> decide

theorem CcOp.ofCode_code (ccOp : CcOp) : CcOp.ofCode ccOp.code = some ccOp := by
  cases ccOp with
  | copy => rfl
  | op kind width => cases kind <;> cases width <;> decide

/-! ## Words -/

/-- The `Int` that a comparison gives. -/
def ofCmp (b : Bool) : BitVec 32 := (BitVec.ofBool b).setWidth 32

/-- `X86G_CC_MASK_C` and the others, by their shifts. -/
def maskC : BitVec 32 := 1#32 <<< 0
def maskP : BitVec 32 := 1#32 <<< 2
def maskA : BitVec 32 := 1#32 <<< 4
def maskZ : BitVec 32 := 1#32 <<< 6
def maskS : BitVec 32 := 1#32 <<< 7
def maskO : BitVec 32 := 1#32 <<< 11

/-- `lshift`, the generalised left shift. -/
def lshift (x : BitVec 32) (n : Int) : BitVec 32 :=
  if n ≥ 0 then x <<< n.toNat else x.sshiftRight (-n).toNat

/-- `parity_table`. -/
def parityTable : List (BitVec 32) :=
   [4, 0, 0, 4, 0, 4, 4, 0, 0, 4, 4, 0, 4, 0, 0, 4, 0, 4, 4, 0, 4, 0, 0, 4, 4, 0, 0, 4, 0, 4, 4, 0,
    0, 4, 4, 0, 4, 0, 0, 4, 4, 0, 0, 4, 0, 4, 4, 0, 4, 0, 0, 4, 0, 4, 4, 0, 0, 4, 4, 0, 4, 0, 0, 4,
    0, 4, 4, 0, 4, 0, 0, 4, 4, 0, 0, 4, 0, 4, 4, 0, 4, 0, 0, 4, 0, 4, 4, 0, 0, 4, 4, 0, 4, 0, 0, 4,
    4, 0, 0, 4, 0, 4, 4, 0, 0, 4, 4, 0, 4, 0, 0, 4, 0, 4, 4, 0, 4, 0, 0, 4, 4, 0, 0, 4, 0, 4, 4, 0,
    0, 4, 4, 0, 4, 0, 0, 4, 4, 0, 0, 4, 0, 4, 4, 0, 4, 0, 0, 4, 0, 4, 4, 0, 0, 4, 4, 0, 4, 0, 0, 4,
    4, 0, 0, 4, 0, 4, 4, 0, 0, 4, 4, 0, 4, 0, 0, 4, 0, 4, 4, 0, 4, 0, 0, 4, 4, 0, 0, 4, 0, 4, 4, 0,
    4, 0, 0, 4, 0, 4, 4, 0, 0, 4, 4, 0, 4, 0, 0, 4, 0, 4, 4, 0, 4, 0, 0, 4, 4, 0, 0, 4, 0, 4, 4, 0,
    0, 4, 4, 0, 4, 0, 0, 4, 4, 0, 0, 4, 0, 4, 4, 0, 4, 0, 0, 4, 0, 4, 4, 0, 0, 4, 4, 0, 4, 0, 0, 4]

/-- `parity_table[(UChar)x]`. -/
def parityEntry (x : BitVec 8) : BitVec 32 := parityTable.getD x.toNat 0

/-- `DATA_MASK`. -/
def dataMask (bits : Nat) : BitVec 32 := if bits = 8 then 0xFF else if bits = 16 then 0xFFFF else 0xFFFFFFFF

/-- `SIGN_MASK`. -/
def signMask (bits : Nat) : BitVec 32 := 1#32 <<< (bits - 1)

/-! ## The flags of each operation -/

section Actions

variable (bits : Nat) (ccDep1 ccDep2 ccNdep : BitVec 32)

/-- `ACTIONS_ADD`. -/
def actionsAdd : BitVec 32 :=
  let argL := ccDep1
  let argR := ccDep2
  let res := argL + argR
  let cf := ofCmp ((res.setWidth bits).ult (argL.setWidth bits))
  let pf := parityEntry (res.setWidth 8)
  let af := (res ^^^ argL ^^^ argR) &&& 0x10#32
  let zf := ofCmp (res.setWidth bits == 0) <<< 6
  let sf := lshift res (8 - bits) &&& 0x80#32
  let of := lshift ((argL ^^^ argR ^^^ -1#32) &&& (argL ^^^ res)) (12 - bits) &&& maskO
  cf ||| pf ||| af ||| zf ||| sf ||| of

/-- `ACTIONS_SUB`. -/
def actionsSub : BitVec 32 :=
  let argL := ccDep1
  let argR := ccDep2
  let res := argL - argR
  let cf := ofCmp ((argL.setWidth bits).ult (argR.setWidth bits))
  let pf := parityEntry (res.setWidth 8)
  let af := (res ^^^ argL ^^^ argR) &&& 0x10#32
  let zf := ofCmp (res.setWidth bits == 0) <<< 6
  let sf := lshift res (8 - bits) &&& 0x80#32
  let of := lshift ((argL ^^^ argR) &&& (argL ^^^ res)) (12 - bits) &&& maskO
  cf ||| pf ||| af ||| zf ||| sf ||| of

/-- `ACTIONS_ADC`. -/
def actionsAdc : BitVec 32 :=
  let oldC := ccNdep &&& maskC
  let argL := ccDep1
  let argR := ccDep2 ^^^ oldC
  let res := (argL + argR) + oldC
  let cf :=
    if oldC ≠ 0 then ofCmp ((res.setWidth bits).ule (argL.setWidth bits))
    else ofCmp ((res.setWidth bits).ult (argL.setWidth bits))
  let pf := parityEntry (res.setWidth 8)
  let af := (res ^^^ argL ^^^ argR) &&& 0x10#32
  let zf := ofCmp (res.setWidth bits == 0) <<< 6
  let sf := lshift res (8 - bits) &&& 0x80#32
  let of := lshift ((argL ^^^ argR ^^^ -1#32) &&& (argL ^^^ res)) (12 - bits) &&& maskO
  cf ||| pf ||| af ||| zf ||| sf ||| of

/-- `ACTIONS_SBB`. -/
def actionsSbb : BitVec 32 :=
  let oldC := ccNdep &&& maskC
  let argL := ccDep1
  let argR := ccDep2 ^^^ oldC
  let res := (argL - argR) - oldC
  let cf :=
    if oldC ≠ 0 then ofCmp ((argL.setWidth bits).ule (argR.setWidth bits))
    else ofCmp ((argL.setWidth bits).ult (argR.setWidth bits))
  let pf := parityEntry (res.setWidth 8)
  let af := (res ^^^ argL ^^^ argR) &&& 0x10#32
  let zf := ofCmp (res.setWidth bits == 0) <<< 6
  let sf := lshift res (8 - bits) &&& 0x80#32
  let of := lshift ((argL ^^^ argR) &&& (argL ^^^ res)) (12 - bits) &&& maskO
  cf ||| pf ||| af ||| zf ||| sf ||| of

/-- `ACTIONS_LOGIC`. -/
def actionsLogic : BitVec 32 :=
  let cf := 0#32
  let pf := parityEntry (ccDep1.setWidth 8)
  let af := 0#32
  let zf := ofCmp (ccDep1.setWidth bits == 0) <<< 6
  let sf := lshift ccDep1 (8 - bits) &&& 0x80#32
  let of := 0#32
  cf ||| pf ||| af ||| zf ||| sf ||| of

/-- `ACTIONS_INC`. -/
def actionsInc : BitVec 32 :=
  let res := ccDep1
  let argL := res - 1#32
  let argR := 1#32
  let cf := ccNdep &&& maskC
  let pf := parityEntry (res.setWidth 8)
  let af := (res ^^^ argL ^^^ argR) &&& 0x10#32
  let zf := ofCmp (res.setWidth bits == 0) <<< 6
  let sf := lshift res (8 - bits) &&& 0x80#32
  let of := ofCmp (res &&& dataMask bits == signMask bits) <<< 11
  cf ||| pf ||| af ||| zf ||| sf ||| of

/-- `ACTIONS_DEC`. -/
def actionsDec : BitVec 32 :=
  let res := ccDep1
  let argL := res + 1#32
  let argR := 1#32
  let cf := ccNdep &&& maskC
  let pf := parityEntry (res.setWidth 8)
  let af := (res ^^^ argL ^^^ argR) &&& 0x10#32
  let zf := ofCmp (res.setWidth bits == 0) <<< 6
  let sf := lshift res (8 - bits) &&& 0x80#32
  let of := ofCmp (res &&& dataMask bits == signMask bits - 1#32) <<< 11
  cf ||| pf ||| af ||| zf ||| sf ||| of

/-- `ACTIONS_SHL`. -/
def actionsShl : BitVec 32 :=
  let cf := (ccDep2 >>> (bits - 1)) &&& maskC
  let pf := parityEntry (ccDep1.setWidth 8)
  let af := 0#32
  let zf := ofCmp (ccDep1.setWidth bits == 0) <<< 6
  let sf := lshift ccDep1 (8 - bits) &&& 0x80#32
  let of := lshift (ccDep2 ^^^ ccDep1) (12 - bits) &&& maskO
  cf ||| pf ||| af ||| zf ||| sf ||| of

/-- `ACTIONS_SHR`. -/
def actionsShr : BitVec 32 :=
  let cf := ccDep2 &&& 1#32
  let pf := parityEntry (ccDep1.setWidth 8)
  let af := 0#32
  let zf := ofCmp (ccDep1.setWidth bits == 0) <<< 6
  let sf := lshift ccDep1 (8 - bits) &&& 0x80#32
  let of := lshift (ccDep2 ^^^ ccDep1) (12 - bits) &&& maskO
  cf ||| pf ||| af ||| zf ||| sf ||| of

/-- `ACTIONS_ROL`. -/
def actionsRol : BitVec 32 :=
  (ccNdep &&& ~~~(maskO ||| maskC)) ||| (maskC &&& ccDep1) |||
    (maskO &&& (lshift ccDep1 (11 - (bits - 1)) ^^^ lshift ccDep1 11))

/-- `ACTIONS_ROR`. -/
def actionsRor : BitVec 32 :=
  (ccNdep &&& ~~~(maskO ||| maskC)) ||| (maskC &&& (ccDep1 >>> (bits - 1))) |||
    (maskO &&& (lshift ccDep1 (11 - (bits - 1)) ^^^ lshift ccDep1 (11 - (bits - 1) + 1)))

/-- `ACTIONS_UMUL`. -/
def actionsUmul : BitVec 32 :=
  let lo := ccDep1.setWidth bits * ccDep2.setWidth bits
  let rr := (ccDep1.setWidth bits).setWidth (2 * bits) * (ccDep2.setWidth bits).setWidth (2 * bits)
  let hi := (rr >>> bits).setWidth bits
  let cf := ofCmp (hi != 0)
  let pf := parityEntry (lo.setWidth 8)
  let af := 0#32
  let zf := ofCmp (lo == 0) <<< 6
  let sf := lshift (lo.setWidth 32) (8 - bits) &&& 0x80#32
  let of := cf <<< 11
  cf ||| pf ||| af ||| zf ||| sf ||| of

/-- `ACTIONS_SMUL`. -/
def actionsSmul : BitVec 32 :=
  let lo := ccDep1.setWidth bits * ccDep2.setWidth bits
  let rr := (ccDep1.setWidth bits).signExtend (2 * bits) * (ccDep2.setWidth bits).signExtend (2 * bits)
  let hi := (rr.sshiftRight bits).setWidth bits
  let cf := ofCmp (hi != lo.sshiftRight (bits - 1))
  let pf := parityEntry (lo.setWidth 8)
  let af := 0#32
  let zf := ofCmp (lo == 0) <<< 6
  let sf := lshift (lo.signExtend 32) (8 - bits) &&& 0x80#32
  let of := cf <<< 11
  cf ||| pf ||| af ||| zf ||| sf ||| of

/-- The branches of `x86g_calculate_eflags_all_WRK`. -/
def actions : CcKind → BitVec 32
  | .add => actionsAdd bits ccDep1 ccDep2
  | .sub => actionsSub bits ccDep1 ccDep2
  | .adc => actionsAdc bits ccDep1 ccDep2 ccNdep
  | .sbb => actionsSbb bits ccDep1 ccDep2 ccNdep
  | .logic => actionsLogic bits ccDep1
  | .inc => actionsInc bits ccDep1 ccNdep
  | .dec => actionsDec bits ccDep1 ccNdep
  | .shl => actionsShl bits ccDep1 ccDep2
  | .shr => actionsShr bits ccDep1 ccDep2
  | .rol => actionsRol bits ccDep1 ccNdep
  | .ror => actionsRor bits ccDep1 ccNdep
  | .umul => actionsUmul bits ccDep1 ccDep2
  | .smul => actionsSmul bits ccDep1 ccDep2

end Actions

/-- The six flags together. -/
def maskOSZACP : BitVec 32 := maskO ||| maskS ||| maskZ ||| maskA ||| maskC ||| maskP

/-- `x86g_calculate_eflags_all_WRK`. -/
def x86gCalculateEflagsAllWRK (ccOp ccDep1 ccDep2 ccNdep : BitVec 32) : Result (BitVec 32) :=
  match CcOp.ofCode ccOp with
  | some .copy => return ccDep1 &&& maskOSZACP
  | some (.op kind width) => return actions width.bits ccDep1 ccDep2 ccNdep kind
  | none => throw .panic

/-- `x86g_calculate_eflags_all`. -/
def x86gCalculateEflagsAll (ccOp ccDep1 ccDep2 ccNdep : BitVec 32) : Result (BitVec 32) :=
  x86gCalculateEflagsAllWRK ccOp ccDep1 ccDep2 ccNdep

end Valgrind.Vex.X86
