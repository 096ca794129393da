import Valgrind.Vex.X86FlagSpecs
import Valgrind.Vex.Semantics

/-!
# Shortcuts around the flag thunk (`guest-x86/ghelpers.c`)

The carry flag alone and a condition alone are computed by helpers of their own. Where the
operation and the condition are constants, `guest_x86_spechelper` replaces the call of a helper
by an expression on the operands.

`flagShortcuts_exact`: the shortcuts give what the full computation gives.
-/

namespace Valgrind.Vex.X86

/-! ## The helpers -/

/-- `x86g_calculate_eflags_c`. -/
def x86gCalculateEflagsC (ccOp ccDep1 ccDep2 ccNdep : BitVec 32) : Result (BitVec 32) :=
  match CcOp.ofCode ccOp with
  | some (.op .logic _) => return 0
  | some (.op .sub .l) => return if ccDep1.ult ccDep2 then maskC else 0
  | some (.op .sub .w) => return if (ccDep1 &&& 0xFFFF#32).ult (ccDep2 &&& 0xFFFF#32) then maskC else 0
  | some (.op .sub .b) => return if (ccDep1 &&& 0xFF#32).ult (ccDep2 &&& 0xFF#32) then maskC else 0
  | some (.op .inc .l) | some (.op .dec .l) => return ccNdep &&& maskC
  | _ => do
    let eflags ← x86gCalculateEflagsAllWRK ccOp ccDep1 ccDep2 ccNdep
    return eflags &&& maskC

/-- `X86Condcode`. -/
inductive X86Condcode where
  | o | no | b | nb | z | nz | be | nbe | s | ns | p | np | l | nl | le | nle | always
  deriving DecidableEq, Repr

/-- All conditions, in the order of the enumeration. -/
def X86Condcode.all : List X86Condcode :=
  [.o, .no, .b, .nb, .z, .nz, .be, .nbe, .s, .ns, .p, .np, .l, .nl, .le, .nle, .always]

/-- The number of a condition. -/
def X86Condcode.code (cond : X86Condcode) : BitVec 32 := BitVec.ofNat 32 (X86Condcode.all.idxOf cond)

/-- The condition that a number means. -/
def X86Condcode.ofCode (code : BitVec 32) : Option X86Condcode := X86Condcode.all[code.toNat]?

/-- `x86g_calculate_condition`. -/
def x86gCalculateCondition (cond ccOp ccDep1 ccDep2 ccNdep : BitVec 32) : Result (BitVec 32) := do
  let eflags ← x86gCalculateEflagsAllWRK ccOp ccDep1 ccDep2 ccNdep
  let inv := cond &&& 1#32
  match X86Condcode.ofCode cond with
  | some .no | some .o =>
    let of := eflags >>> 11
    return 1#32 &&& (inv ^^^ of)
  | some .nz | some .z =>
    let zf := eflags >>> 6
    return 1#32 &&& (inv ^^^ zf)
  | some .nb | some .b =>
    let cf := eflags >>> 0
    return 1#32 &&& (inv ^^^ cf)
  | some .nbe | some .be =>
    let cf := eflags >>> 0
    let zf := eflags >>> 6
    return 1#32 &&& (inv ^^^ (cf ||| zf))
  | some .ns | some .s =>
    let sf := eflags >>> 7
    return 1#32 &&& (inv ^^^ sf)
  | some .np | some .p =>
    let pf := eflags >>> 2
    return 1#32 &&& (inv ^^^ pf)
  | some .nl | some .l =>
    let sf := eflags >>> 7
    let of := eflags >>> 11
    return 1#32 &&& (inv ^^^ (sf ^^^ of))
  | some .nle | some .le =>
    let sf := eflags >>> 7
    let of := eflags >>> 11
    let zf := eflags >>> 6
    return 1#32 &&& (inv ^^^ ((sf ^^^ of) ||| zf))
  | some .always | none => throw .panic

/-! ## The specialisations -/

/-- `mkU32`. -/
def mkU32 (n : BitVec 32) : IRExpr := .const (.U32 n)

/-- `mkU8`. -/
def mkU8 (n : BitVec 8) : IRExpr := .const (.U8 n)

/-- `isU32`. -/
def isU32 (e : IRExpr) (n : BitVec 32) : Bool :=
  match e with
  | .const (.U32 v) => v == n
  | _ => false

/-- `isU32(cc_op, X86G_CC_OP_...) && isU32(cond, X86Cond...)`. -/
def isOpCond (ccOp cond : IRExpr) (kind : CcKind) (width : CcWidth) (c : X86Condcode) : Bool :=
  isU32 ccOp (CcOp.op kind width).code && isU32 cond c.code

/-- The test of one or two flags in `DEP1` that the `COPY` rules make. -/
def copyTest (bits : IRExpr) (nnn : BitVec 32) : IRExpr :=
  .unop .cvt1Uto32 (.binop (.cmpEQ .w32) (.binop (.and .w32) bits (mkU32 1)) (mkU32 nnn))

/-- `guest_x86_spechelper` for `x86g_calculate_condition`. -/
def specCondition (cond ccOp ccDep1 ccDep2 : IRExpr) : Option IRExpr :=
  -- ADDL
  if isOpCond ccOp cond .add .l .z then
    some (.unop .cvt1Uto32 (.binop (.cmpEQ .w32) (.binop (.add .w32) ccDep1 ccDep2) (mkU32 0)))
  -- SUBL
  else if isOpCond ccOp cond .sub .l .z then
    some (.unop .cvt1Uto32 (.binop (.cmpEQ .w32) ccDep1 ccDep2))
  else if isOpCond ccOp cond .sub .l .nz then
    some (.unop .cvt1Uto32 (.binop (.cmpNE .w32) ccDep1 ccDep2))
  else if isOpCond ccOp cond .sub .l .l then
    some (.unop .cvt1Uto32 (.binop .cmpLT32S ccDep1 ccDep2))
  else if isOpCond ccOp cond .sub .l .nl then
    some (.binop (.xor .w32) (.unop .cvt1Uto32 (.binop .cmpLT32S ccDep1 ccDep2)) (mkU32 1))
  else if isOpCond ccOp cond .sub .l .le then
    some (.unop .cvt1Uto32 (.binop .cmpLE32S ccDep1 ccDep2))
  else if isOpCond ccOp cond .sub .l .nle then
    some (.binop (.xor .w32) (.unop .cvt1Uto32 (.binop .cmpLE32S ccDep1 ccDep2)) (mkU32 1))
  else if isOpCond ccOp cond .sub .l .be then
    some (.unop .cvt1Uto32 (.binop .cmpLE32U ccDep1 ccDep2))
  else if isOpCond ccOp cond .sub .l .nbe then
    some (.binop (.xor .w32) (.unop .cvt1Uto32 (.binop .cmpLE32U ccDep1 ccDep2)) (mkU32 1))
  else if isOpCond ccOp cond .sub .l .b then
    some (.unop .cvt1Uto32 (.binop .cmpLT32U ccDep1 ccDep2))
  else if isOpCond ccOp cond .sub .l .nb then
    some (.binop (.xor .w32) (.unop .cvt1Uto32 (.binop .cmpLT32U ccDep1 ccDep2)) (mkU32 1))
  else if isOpCond ccOp cond .sub .l .s then
    some (.unop .cvt1Uto32 (.binop .cmpLT32S (.binop (.sub .w32) ccDep1 ccDep2) (mkU32 0)))
  else if isOpCond ccOp cond .sub .l .ns then
    some (.binop (.xor .w32)
      (.unop .cvt1Uto32 (.binop .cmpLT32S (.binop (.sub .w32) ccDep1 ccDep2) (mkU32 0))) (mkU32 1))
  -- SUBW
  else if isOpCond ccOp cond .sub .w .z then
    some (.unop .cvt1Uto32 (.binop (.cmpEQ .w16) (.unop .cvt32to16 ccDep1) (.unop .cvt32to16 ccDep2)))
  else if isOpCond ccOp cond .sub .w .nz then
    some (.unop .cvt1Uto32 (.binop (.cmpNE .w16) (.unop .cvt32to16 ccDep1) (.unop .cvt32to16 ccDep2)))
  -- SUBB
  else if isOpCond ccOp cond .sub .b .z then
    some (.unop .cvt1Uto32 (.binop (.cmpEQ .w8) (.unop .cvt32to8 ccDep1) (.unop .cvt32to8 ccDep2)))
  else if isOpCond ccOp cond .sub .b .nz then
    some (.unop .cvt1Uto32 (.binop (.cmpNE .w8) (.unop .cvt32to8 ccDep1) (.unop .cvt32to8 ccDep2)))
  else if isOpCond ccOp cond .sub .b .nbe then
    -- the operands are the other way round
    some (.unop .cvt1Uto32 (.binop .cmpLT32U (.binop (.and .w32) ccDep2 (mkU32 0xFF))
      (.binop (.and .w32) ccDep1 (mkU32 0xFF))))
  else if isOpCond ccOp cond .sub .b .s && isU32 ccDep2 0 then
    some (.binop (.and .w32) (.binop (.shr .w32) ccDep1 (mkU8 7)) (mkU32 1))
  else if isOpCond ccOp cond .sub .b .ns && isU32 ccDep2 0 then
    some (.binop (.xor .w32) (.binop (.and .w32) (.binop (.shr .w32) ccDep1 (mkU8 7)) (mkU32 1)) (mkU32 1))
  -- LOGICL
  else if isOpCond ccOp cond .logic .l .z then
    some (.unop .cvt1Uto32 (.binop (.cmpEQ .w32) ccDep1 (mkU32 0)))
  else if isOpCond ccOp cond .logic .l .nz then
    some (.unop .cvt1Uto32 (.binop (.cmpNE .w32) ccDep1 (mkU32 0)))
  else if isOpCond ccOp cond .logic .l .le then
    some (.unop .cvt1Uto32 (.binop .cmpLE32S ccDep1 (mkU32 0)))
  else if isOpCond ccOp cond .logic .l .be then
    some (.unop .cvt1Uto32 (.binop (.cmpEQ .w32) ccDep1 (mkU32 0)))
  else if isOpCond ccOp cond .logic .l .s then
    some (.binop (.and .w32) (.binop (.shr .w32) ccDep1 (mkU8 31)) (mkU32 1))
  else if isOpCond ccOp cond .logic .l .ns then
    some (.binop (.xor .w32) (.binop (.and .w32) (.binop (.shr .w32) ccDep1 (mkU8 31)) (mkU32 1)) (mkU32 1))
  -- LOGICW
  else if isOpCond ccOp cond .logic .w .z then
    some (.unop .cvt1Uto32 (.binop (.cmpEQ .w32) (.binop (.and .w32) ccDep1 (mkU32 0xFFFF)) (mkU32 0)))
  else if isOpCond ccOp cond .logic .w .s then
    some (.binop (.and .w32) (.binop (.shr .w32) ccDep1 (mkU8 15)) (mkU32 1))
  -- LOGICB
  else if isOpCond ccOp cond .logic .b .z then
    some (.unop .cvt1Uto32 (.binop (.cmpEQ .w32) (.binop (.and .w32) ccDep1 (mkU32 255)) (mkU32 0)))
  else if isOpCond ccOp cond .logic .b .nz then
    some (.unop .cvt1Uto32 (.binop (.cmpNE .w32) (.binop (.and .w32) ccDep1 (mkU32 255)) (mkU32 0)))
  else if isOpCond ccOp cond .logic .b .s then
    some (.binop (.and .w32) (.binop (.shr .w32) ccDep1 (mkU8 7)) (mkU32 1))
  else if isOpCond ccOp cond .logic .b .ns then
    some (.binop (.xor .w32) (.binop (.and .w32) (.binop (.shr .w32) ccDep1 (mkU8 7)) (mkU32 1)) (mkU32 1))
  -- DECL
  else if isOpCond ccOp cond .dec .l .z then
    some (.unop .cvt1Uto32 (.binop (.cmpEQ .w32) ccDep1 (mkU32 0)))
  else if isOpCond ccOp cond .dec .l .s then
    some (.unop .cvt1Uto32 (.binop .cmpLT32S ccDep1 (mkU32 0)))
  -- DECW
  else if isOpCond ccOp cond .dec .w .z then
    some (.unop .cvt1Uto32 (.binop (.cmpEQ .w32) (.binop (.shl .w32) ccDep1 (mkU8 16)) (mkU32 0)))
  -- INCW
  else if isOpCond ccOp cond .inc .w .z then
    some (.unop .cvt1Uto32 (.binop (.cmpEQ .w32) (.binop (.shl .w32) ccDep1 (mkU8 16)) (mkU32 0)))
  -- SHRL
  else if isOpCond ccOp cond .shr .l .z then
    some (.unop .cvt1Uto32 (.binop (.cmpEQ .w32) ccDep1 (mkU32 0)))
  -- COPY
  else if isU32 ccOp CcOp.copy.code && (isU32 cond X86Condcode.be.code || isU32 cond X86Condcode.nbe.code) then
    let nnn := bif isU32 cond X86Condcode.be.code then 1#32 else 0#32
    some (copyTest (.binop (.or .w32) (.binop (.shr .w32) ccDep1 (mkU8 0)) (.binop (.shr .w32) ccDep1 (mkU8 6))) nnn)
  else if isU32 ccOp CcOp.copy.code && (isU32 cond X86Condcode.b.code || isU32 cond X86Condcode.nb.code) then
    let nnn := bif isU32 cond X86Condcode.b.code then 1#32 else 0#32
    some (copyTest (.binop (.shr .w32) ccDep1 (mkU8 0)) nnn)
  else if isU32 ccOp CcOp.copy.code && (isU32 cond X86Condcode.z.code || isU32 cond X86Condcode.nz.code) then
    let nnn := bif isU32 cond X86Condcode.z.code then 1#32 else 0#32
    some (copyTest (.binop (.shr .w32) ccDep1 (mkU8 6)) nnn)
  else if isU32 ccOp CcOp.copy.code && (isU32 cond X86Condcode.p.code || isU32 cond X86Condcode.np.code) then
    let nnn := bif isU32 cond X86Condcode.p.code then 1#32 else 0#32
    some (copyTest (.binop (.shr .w32) ccDep1 (mkU8 2)) nnn)
  else none

/-- `guest_x86_spechelper` for `x86g_calculate_eflags_c`. -/
def specEflagsC (ccOp ccDep1 ccDep2 ccNdep : IRExpr) : Option IRExpr :=
  if isU32 ccOp (CcOp.op .sub .l).code then some (.unop .cvt1Uto32 (.binop .cmpLT32U ccDep1 ccDep2))
  else if isU32 ccOp (CcOp.op .sub .b).code then
    some (.unop .cvt1Uto32 (.binop .cmpLT32U (.binop (.and .w32) ccDep1 (mkU32 0xFF))
      (.binop (.and .w32) ccDep2 (mkU32 0xFF))))
  else if isU32 ccOp (CcOp.op .logic .l).code || isU32 ccOp (CcOp.op .logic .w).code
      || isU32 ccOp (CcOp.op .logic .b).code then
    some (mkU32 0)
  else if isU32 ccOp (CcOp.op .dec .l).code || isU32 ccOp (CcOp.op .inc .l).code then some ccNdep
  else if isU32 ccOp CcOp.copy.code then
    some (.binop (.and .w32) (.binop (.shr .w32) ccDep1 (mkU8 0)) (mkU32 1))
  else if isU32 ccOp (CcOp.op .add .l).code then
    some (.unop .cvt1Uto32 (.binop .cmpLT32U (.binop (.add .w32) ccDep1 ccDep2) ccDep1))
  else none

/-- `guest_x86_spechelper` for `x86g_calculate_eflags_all`. -/
def specEflagsAll (ccOp ccDep1 : IRExpr) : Option IRExpr :=
  if isU32 ccOp CcOp.copy.code then some (.binop (.and .w32) ccDep1 (mkU32 maskOSZACP)) else none

/-- `guest_x86_spechelper`. -/
def guestX86Spechelper (functionName : String) (args : List IRExpr) : Result (Option IRExpr) :=
  if functionName = "x86g_calculate_condition" then
    match args with
    | [cond, ccOp, ccDep1, ccDep2, _] => return specCondition cond ccOp ccDep1 ccDep2
    | _ => throw .assertFailed
  else if functionName = "x86g_calculate_eflags_c" then
    match args with
    | [ccOp, ccDep1, ccDep2, ccNdep] => return specEflagsC ccOp ccDep1 ccDep2 ccNdep
    | _ => throw .assertFailed
  else if functionName = "x86g_calculate_eflags_all" then
    match args with
    | [ccOp, ccDep1, _, _] => return specEflagsAll ccOp ccDep1
    | _ => throw .assertFailed
  else return none

/-! ## The helpers, by the flags -/

/-- The condition holds of the flags. -/
def X86Condcode.holds : X86Condcode → Flags → Bool
  | .o, f => f.o
  | .no, f => !f.o
  | .b, f => f.c
  | .nb, f => !f.c
  | .z, f => f.z
  | .nz, f => !f.z
  | .be, f => f.c || f.z
  | .nbe, f => !(f.c || f.z)
  | .s, f => f.s
  | .ns, f => !f.s
  | .p, f => f.p
  | .np, f => !f.p
  | .l, f => f.s ^^ f.o
  | .nl, f => !(f.s ^^ f.o)
  | .le, f => (f.s ^^ f.o) || f.z
  | .nle, f => !((f.s ^^ f.o) || f.z)
  | .always, _ => true

theorem eflags_and_maskC (f : Flags) : f.eflags &&& maskC = ofCmp f.c := by
  obtain ⟨c, p, a, z, s, o⟩ := f
  revert c p a z s o
  decide

/-- The flags in the lower bits of a word. -/
def flagsOf (x : BitVec 32) : Flags :=
  ⟨x.getLsbD 0, x.getLsbD 2, x.getLsbD 4, x.getLsbD 6, x.getLsbD 7, x.getLsbD 11⟩

theorem and_maskOSZACP (x : BitVec 32) : x &&& maskOSZACP = (flagsOf x).eflags := by
  have hsplit : x &&& maskOSZACP = (x &&& (1#32 <<< 0)) ||| (x &&& (1#32 <<< 2)) ||| (x &&& (1#32 <<< 4)) |||
      (x &&& (1#32 <<< 6)) ||| (x &&& (1#32 <<< 7)) ||| (x &&& (1#32 <<< 11)) := by
    simp only [← BitVec.and_or_distrib_left]
    rfl
  simp only [hsplit, and_bit]
  rfl

/-- The flags that the full computation gives are those of `f`. -/
def HasFlags (ccOp dep1 dep2 ndep : BitVec 32) (f : Flags) : Prop :=
  x86gCalculateEflagsAllWRK ccOp dep1 dep2 ndep = .ok f.eflags

theorem hasFlags_copy (dep1 dep2 ndep : BitVec 32) : HasFlags CcOp.copy.code dep1 dep2 ndep (flagsOf dep1) := by
  rw [HasFlags, x86gCalculateEflagsAllWRK, CcOp.ofCode_code, ← and_maskOSZACP]
  rfl

theorem hasFlags_op {kind : CcKind} {width : CcWidth} {dep1 dep2 ndep : BitVec 32} {f : Flags}
    (h : actions width.bits dep1 dep2 ndep kind = f.eflags) :
    HasFlags (CcOp.op kind width).code dep1 dep2 ndep f := by
  rw [HasFlags, x86gCalculateEflagsAllWRK, CcOp.ofCode_code, ← h]
  rfl

/-- A condition on known flags. -/
theorem calculateCondition_eq {cond : X86Condcode} (hcond : cond ≠ .always) {ccOp dep1 dep2 ndep : BitVec 32}
    {f : Flags} (h : HasFlags ccOp dep1 dep2 ndep f) :
    x86gCalculateCondition cond.code ccOp dep1 dep2 ndep = .ok (ofCmp (cond.holds f)) := by
  have hof : X86Condcode.ofCode cond.code = some cond := by
    cases cond <;> rfl
  rw [x86gCalculateCondition, h, ok_bind, hof]
  obtain ⟨c, p, a, z, s, o⟩ := f
  cases cond with
  | always => exact absurd rfl hcond
  | o | no | b | nb | z | nz | be | nbe | s | ns | p | np | l | nl | le | nle =>
    refine congrArg Except.ok ?_
    clear h
    revert c p a z s o
    decide

/-- The carry flag of the full computation. -/
theorem carry_of_op {kind : CcKind} {width : CcWidth} {ccOp dep1 dep2 ndep : BitVec 32} {f : Flags}
    (hop : CcOp.ofCode ccOp = some (.op kind width)) (h : actions width.bits dep1 dep2 ndep kind = f.eflags) :
    (x86gCalculateEflagsAllWRK ccOp dep1 dep2 ndep >>= fun eflags => return eflags &&& maskC) = .ok (ofCmp f.c) := by
  rw [x86gCalculateEflagsAllWRK, hop]
  show Except.ok (actions width.bits dep1 dep2 ndep kind &&& maskC) = _
  rw [h, eflags_and_maskC]

theorem ite_maskC (b : Bool) : (if b then maskC else 0) = ofCmp b := by
  cases b <;> rfl

theorem subFlags_c {w : Nat} (x y : BitVec w) : (subFlags x y false).c = x.ult y := rfl

/-- A mask of `n` ones leaves the number of the lower `n` bits. -/
theorem toNat_and_ones {n : Nat} {mask : BitVec 32} (hmask : mask.toNat = 2 ^ n - 1) (x : BitVec 32) :
    (x &&& mask).toNat = (x.setWidth n).toNat := by
  rw [BitVec.toNat_and, hmask, Nat.and_two_pow_sub_one_eq_mod, BitVec.toNat_setWidth]

theorem ult_and_ones {n : Nat} {mask : BitVec 32} (hmask : mask.toNat = 2 ^ n - 1) (x y : BitVec 32) :
    (x &&& mask).ult (y &&& mask) = (x.setWidth n).ult (y.setWidth n) := by
  rw [BitVec.ult, BitVec.ult, toNat_and_ones hmask, toNat_and_ones hmask]

theorem toNat_ones8 : BitVec.toNat 255#32 = 2 ^ 8 - 1 := rfl

theorem toNat_ones16 : BitVec.toNat 65535#32 = 2 ^ 16 - 1 := rfl

/-- **The carry flag alone** is that of the full computation. -/
theorem eflagsC_eq (ccOp dep1 dep2 ndep : BitVec 32) :
    x86gCalculateEflagsC ccOp dep1 dep2 ndep =
      (x86gCalculateEflagsAllWRK ccOp dep1 dep2 ndep >>= fun eflags => return eflags &&& maskC) := by
  rw [x86gCalculateEflagsC]
  split
  · next width hop =>
    rw [carry_of_op hop (actionsLogic_eq width.bits_cases dep1)]
    rfl
  · next hop =>
    rw [carry_of_op hop (actionsSub_eq CcWidth.l.bits_cases dep1 dep2), ite_maskC, subFlags_c]
    simp only [CcWidth.bits, BitVec.setWidth_eq]
    rfl
  · next hop =>
    rw [carry_of_op hop (actionsSub_eq CcWidth.w.bits_cases dep1 dep2), ite_maskC, subFlags_c,
      ult_and_ones toNat_ones16]
    rfl
  · next hop =>
    rw [carry_of_op hop (actionsSub_eq CcWidth.b.bits_cases dep1 dep2), ite_maskC, subFlags_c,
      ult_and_ones toNat_ones8]
    rfl
  · next hop =>
    rw [carry_of_op hop (actionsInc_eq CcWidth.l.bits_cases dep1 ndep (dep1.setWidth _ - 1)
      (BitVec.sub_add_cancel _ _).symm), and_maskC, flag_zero]
    rfl
  · next hop =>
    rw [carry_of_op hop (actionsDec_eq CcWidth.l.bits_cases dep1 ndep (dep1.setWidth _ + 1)
      (BitVec.add_sub_cancel _ _).symm), and_maskC, flag_zero]
    rfl
  · rfl

/-! ## The values of the expressions -/

section Values

variable (M : Interp) (ρ : IRTemp → Val) (w : World)

/-- The value of an expression as a word of `n` bits. -/
def valOf (n : Nat) (e : IRExpr) : BitVec n := (evalExpr M ρ w e).setWidth n

/-- The value of an expression as a truth value. -/
def testOf (e : IRExpr) : Bool := (evalExpr M ρ w e).getLsbD 0

variable {M ρ w} {a b e : IRExpr}

/-- The value of a primop that works on words. -/
theorem valOf_binop {op : IROp} {n k m : Nat} (f : BitVec n → BitVec k → BitVec m) (hm : m ≤ 128)
    (hop : ∀ x y, evalBinop op x y = some (bin n k f x y)) :
    valOf M ρ w m (.binop op a b) = f (valOf M ρ w n a) (valOf M ρ w k b) := by
  rw [valOf, evalExpr, evalPrimop]
  simp only [hop, Option.getD_some, bin]
  rw [BitVec.setWidth_setWidth_of_le _ hm, BitVec.setWidth_eq]
  rfl

@[simp] theorem valOf_mkU32 (n : BitVec 32) : valOf M ρ w 32 (mkU32 n) = n := by
  simp [valOf, mkU32, evalExpr, constVal]

@[simp] theorem valOf_add : valOf M ρ w 32 (.binop (.add .w32) a b) = valOf M ρ w 32 a + valOf M ρ w 32 b :=
  valOf_binop (fun x y : BitVec 32 => x + y) (by decide) fun _ _ => rfl

@[simp] theorem valOf_sub : valOf M ρ w 32 (.binop (.sub .w32) a b) = valOf M ρ w 32 a - valOf M ρ w 32 b :=
  valOf_binop (fun x y : BitVec 32 => x - y) (by decide) fun _ _ => rfl

@[simp] theorem valOf_and : valOf M ρ w 32 (.binop (.and .w32) a b) = valOf M ρ w 32 a &&& valOf M ρ w 32 b :=
  valOf_binop (fun x y : BitVec 32 => x &&& y) (by decide) fun _ _ => rfl

@[simp] theorem valOf_or : valOf M ρ w 32 (.binop (.or .w32) a b) = valOf M ρ w 32 a ||| valOf M ρ w 32 b :=
  valOf_binop (fun x y : BitVec 32 => x ||| y) (by decide) fun _ _ => rfl

@[simp] theorem valOf_xor : valOf M ρ w 32 (.binop (.xor .w32) a b) = valOf M ρ w 32 a ^^^ valOf M ρ w 32 b :=
  valOf_binop (fun x y : BitVec 32 => x ^^^ y) (by decide) fun _ _ => rfl

@[simp] theorem valOf_shr (n : BitVec 8) :
    valOf M ρ w 32 (.binop (.shr .w32) a (mkU8 n)) = valOf M ρ w 32 a >>> n.toNat := by
  rw [valOf_binop (fun (x : BitVec 32) (y : BitVec 8) => x >>> y.toNat) (by decide) fun _ _ => rfl]
  simp [valOf, mkU8, evalExpr, constVal]

@[simp] theorem valOf_shl (n : BitVec 8) :
    valOf M ρ w 32 (.binop (.shl .w32) a (mkU8 n)) = valOf M ρ w 32 a <<< n.toNat := by
  rw [valOf_binop (fun (x : BitVec 32) (y : BitVec 8) => x <<< y.toNat) (by decide) fun _ _ => rfl]
  simp [valOf, mkU8, evalExpr, constVal]

@[simp] theorem valOf_32to16 : valOf M ρ w 16 (.unop .cvt32to16 a) = (valOf M ρ w 32 a).setWidth 16 := by
  simp [valOf, evalExpr, evalPrimop, evalUnop, un]

@[simp] theorem valOf_32to8 : valOf M ρ w 8 (.unop .cvt32to8 a) = (valOf M ρ w 32 a).setWidth 8 := by
  simp [valOf, evalExpr, evalPrimop, evalUnop, un]

@[simp] theorem valOf_1Uto32 : valOf M ρ w 32 (.unop .cvt1Uto32 e) = ofCmp (testOf M ρ w e) := by
  have hbit : (evalExpr M ρ w e).setWidth 1 = BitVec.ofBool (testOf M ρ w e) := by
    rw [testOf]
    ext i hi
    obtain rfl : i = 0 := by omega
    simp
  rw [ofCmp, ← hbit, valOf, evalExpr, evalPrimop]
  simp only [evalUnop, un, Option.getD_some]
  rw [BitVec.setWidth_setWidth_of_le _ (by decide), BitVec.setWidth_eq]

theorem testOf_cmpEQ (sz : IntSz) :
    testOf M ρ w (.binop (.cmpEQ sz) a b) = (valOf M ρ w sz.bits a == valOf M ρ w sz.bits b) := by
  simp [testOf, valOf, evalExpr, evalPrimop, evalBinop, cmp]

theorem testOf_cmpNE (sz : IntSz) :
    testOf M ρ w (.binop (.cmpNE sz) a b) = (valOf M ρ w sz.bits a != valOf M ρ w sz.bits b) := by
  simp [testOf, valOf, evalExpr, evalPrimop, evalBinop, cmp]

@[simp] theorem testOf_cmpEQ8 :
    testOf M ρ w (.binop (.cmpEQ .w8) a b) = (valOf M ρ w 8 a == valOf M ρ w 8 b) := testOf_cmpEQ .w8

@[simp] theorem testOf_cmpEQ16 :
    testOf M ρ w (.binop (.cmpEQ .w16) a b) = (valOf M ρ w 16 a == valOf M ρ w 16 b) := testOf_cmpEQ .w16

@[simp] theorem testOf_cmpEQ32 :
    testOf M ρ w (.binop (.cmpEQ .w32) a b) = (valOf M ρ w 32 a == valOf M ρ w 32 b) := testOf_cmpEQ .w32

@[simp] theorem testOf_cmpNE8 :
    testOf M ρ w (.binop (.cmpNE .w8) a b) = (valOf M ρ w 8 a != valOf M ρ w 8 b) := testOf_cmpNE .w8

@[simp] theorem testOf_cmpNE16 :
    testOf M ρ w (.binop (.cmpNE .w16) a b) = (valOf M ρ w 16 a != valOf M ρ w 16 b) := testOf_cmpNE .w16

@[simp] theorem testOf_cmpNE32 :
    testOf M ρ w (.binop (.cmpNE .w32) a b) = (valOf M ρ w 32 a != valOf M ρ w 32 b) := testOf_cmpNE .w32

@[simp] theorem testOf_cmpLT32S :
    testOf M ρ w (.binop .cmpLT32S a b) = (valOf M ρ w 32 a).slt (valOf M ρ w 32 b) := by
  simp [testOf, valOf, evalExpr, evalPrimop, evalBinop, cmp]

@[simp] theorem testOf_cmpLE32S :
    testOf M ρ w (.binop .cmpLE32S a b) = (valOf M ρ w 32 a).sle (valOf M ρ w 32 b) := by
  simp [testOf, valOf, evalExpr, evalPrimop, evalBinop, cmp]

@[simp] theorem testOf_cmpLT32U :
    testOf M ρ w (.binop .cmpLT32U a b) = (valOf M ρ w 32 a).ult (valOf M ρ w 32 b) := by
  simp [testOf, valOf, evalExpr, evalPrimop, evalBinop, cmp]

@[simp] theorem testOf_cmpLE32U :
    testOf M ρ w (.binop .cmpLE32U a b) = (valOf M ρ w 32 a).ule (valOf M ρ w 32 b) := by
  simp [testOf, valOf, evalExpr, evalPrimop, evalBinop, cmp]

end Values

/-! ## The conditions of a thunk -/

section Conditions

theorem ofResult_z {w : Nat} (r : BitVec w) (c a o : Bool) : (ofResult r c a o).z = (r == 0) := rfl

theorem ofResult_s {w : Nat} (r : BitVec w) (c a o : Bool) : (ofResult r c a o).s = r.msb := rfl

variable {w : Nat} (x y : BitVec w)

/-- The sign bit as a comparison. -/
theorem slt_zero : x.slt 0#w = x.msb := by
  rw [BitVec.slt, BitVec.msb_eq_toInt]
  simp

theorem sle_zero : x.sle 0#w = (x.msb || x == 0#w) := by
  rw [BitVec.sle, BitVec.msb_eq_toInt, Bool.eq_iff_iff, Bool.or_eq_true, beq_iff_eq, decide_eq_true_iff,
    decide_eq_true_iff, ← BitVec.toInt_inj, BitVec.toInt_zero]
  omega

/-- The sign bit of the lower `n` bits. -/
theorem msb_setWidth_succ (x : BitVec 32) (n : Nat) : (x.setWidth (n + 1)).msb = x.getLsbD n :=
  BitVec.msb_setWidth'' x

theorem sub_zero_carry : x - y - ofCarry false = x - y := by rw [ofCarry_false, BitVec.sub_zero]

theorem addFlags_z : (addFlags x y false).z = (x + y == 0#w) := by
  rw [addFlags, ofResult_z, ofCarry_false, BitVec.add_zero]
  rfl

theorem subFlags_s : (subFlags x y false).s = (x - y).msb := by
  rw [subFlags, ofResult_s, sub_zero_carry]

theorem subFlags_z : (subFlags x y false).z = (x == y) := by
  rw [subFlags, ofResult_z, sub_zero_carry, Bool.eq_iff_iff, beq_iff_eq, beq_iff_eq]
  refine ⟨fun h => ?_, fun h => h ▸ BitVec.sub_self x⟩
  rw [← BitVec.sub_add_cancel x y, h]
  exact BitVec.zero_add y

/-- Below or equal. -/
theorem subFlags_be : ((subFlags x y false).c || (subFlags x y false).z) = x.ule y := by
  rw [subFlags_c, subFlags_z, Bool.eq_iff_iff, Bool.or_eq_true, beq_iff_eq, BitVec.ult, BitVec.ule, decide_eq_true_iff,
    decide_eq_true_iff, ← BitVec.toNat_inj]
  omega

/-- The sign of the difference is wrong exactly if it overflows. -/
theorem subFlags_l (hw : 0 < w) : ((subFlags x y false).s ^^ (subFlags x y false).o) = x.slt y := by
  obtain ⟨h, -, hpos, hpow, hmsb, hint, -⟩ := exists_half hw
  have ho : (subFlags x y false).o = ((x.msb ^^ y.msb) && (x.msb ^^ (x - y).msb)) := by
    rw [← sub_zero_carry x y, overflow_sub hw]
    rfl
  have hsum := toNat_sub_cases hw x y false
  rw [sub_zero_carry, Bool.toNat_false, hpow] at hsum
  have hlt := (x - y).isLt
  rw [hpow] at hlt
  rw [subFlags_s, ho, BitVec.slt, Bool.eq_iff_iff, decide_eq_true_iff, hmsb, hmsb, hmsb]
  have hx := hint x
  have hy := hint y
  by_cases h₁ : h ≤ x.toNat <;> by_cases h₂ : h ≤ y.toNat <;> by_cases h₃ : h ≤ (x - y).toNat <;>
    simp only [h₁, h₂, h₃, decide_true, decide_false] <;> simp <;> omega

/-- Less or equal. -/
theorem subFlags_le (hw : 0 < w) :
    (((subFlags x y false).s ^^ (subFlags x y false).o) || (subFlags x y false).z) = x.sle y := by
  rw [subFlags_l x y hw, subFlags_z, Bool.eq_iff_iff, Bool.or_eq_true, beq_iff_eq, BitVec.slt, BitVec.sle,
    decide_eq_true_iff, decide_eq_true_iff, ← BitVec.toInt_inj]
  omega

/-- A mask of `n` ones, and the test for zero. -/
theorem and_ones_beq {n : Nat} {mask : BitVec 32} (hmask : mask.toNat = 2 ^ n - 1) (x : BitVec 32) :
    (x &&& mask == 0#32) = (x.setWidth n == 0) := by
  rw [Bool.eq_iff_iff, beq_iff_eq, beq_iff_eq, ← BitVec.toNat_inj, ← BitVec.toNat_inj, toNat_and_ones hmask]
  rfl

/-- The lower half of a word is zero. -/
theorem shl_beq (x : BitVec 32) : (x <<< 16 == 0#32) = (x.setWidth 16 == 0) := by
  rw [Bool.eq_iff_iff, beq_iff_eq, beq_iff_eq, ← BitVec.toNat_inj, ← BitVec.toNat_inj, BitVec.toNat_shiftLeft,
    BitVec.toNat_setWidth, Nat.shiftLeft_eq]
  show x.toNat * 2 ^ 16 % 2 ^ 32 = 0 ↔ x.toNat % 2 ^ 16 = 0
  omega

/-- A bit of a word, shifted down. -/
theorem shr_and_one (x : BitVec 32) (n : Nat) : x >>> n &&& 1#32 = ofCmp (x.getLsbD n) := by
  rw [show 1#32 = 1#32 <<< 0 from rfl, and_bit, flag_zero, BitVec.getLsbD_ushiftRight, Nat.add_zero]

theorem ofCmp_xor_one (b : Bool) : ofCmp b ^^^ 1#32 = ofCmp (!b) := by
  cases b <;> rfl

/-- The two flags that `COPY` tests together. -/
theorem or_and_one (x : BitVec 32) (n m : Nat) :
    (x >>> n ||| x >>> m) &&& 1#32 = ofCmp (x.getLsbD n || x.getLsbD m) := by
  rw [BitVec.and_comm, BitVec.and_or_distrib_left, BitVec.and_comm, shr_and_one, BitVec.and_comm, shr_and_one]
  cases x.getLsbD n <;> cases x.getLsbD m <;> rfl

theorem ofCmp_beq_one (b : Bool) : (ofCmp b == 1#32) = b := by
  cases b <;> rfl

theorem ofCmp_beq_zero (b : Bool) : (ofCmp b == 0#32) = !b := by
  cases b <;> rfl

end Conditions

/-! ## The rewrites -/

section Rewrites

variable {M : Interp} {ρ : IRTemp → Val} {w : World}

theorem valOf_of_isU32 {e : IRExpr} {n : BitVec 32} (h : isU32 e n = true) : valOf M ρ w 32 e = n := by
  unfold isU32 at h
  split at h
  · exact (valOf_mkU32 _).trans (eq_of_beq h)
  · exact nomatch h

/-- The expression is a primop that gives a word. -/
def IsWord : IRExpr → Prop
  | .binop op _ _ | .unop op _ => (typeOfPrimop op).1 = .I32
  | _ => False

theorem evalExpr_of_isWord {e : IRExpr} (h : IsWord e) : evalExpr M ρ w e = (valOf M ρ w 32 e).setWidth 128 := by
  have hfits : IRType.I32.Fits (evalExpr M ρ w e) := by
    cases e with
    | binop op a b =>
      rw [evalExpr, ← (show (typeOfPrimop op).1 = .I32 from h)]
      exact evalPrimop_fits _ _ _
    | unop op a =>
      rw [evalExpr, ← (show (typeOfPrimop op).1 = .I32 from h)]
      exact evalPrimop_fits _ _ _
    | _ => exact h.elim
  exact hfits.symm

variable (M ρ w)

/-- The expression has the value that the condition of the thunk has. -/
def Replaces (cond ccOp ccDep1 ccDep2 ccNdep e : IRExpr) : Prop :=
  ∃ r, x86gCalculateCondition (valOf M ρ w 32 cond) (valOf M ρ w 32 ccOp) (valOf M ρ w 32 ccDep1)
      (valOf M ρ w 32 ccDep2) (valOf M ρ w 32 ccNdep) = .ok r ∧
    evalExpr M ρ w e = r.setWidth 128

variable {M ρ w} {cond ccOp ccDep1 ccDep2 ccNdep e : IRExpr}

theorem replaces_of {c : X86Condcode} {ccOp' : BitVec 32} {f : Flags} (hccOp : isU32 ccOp ccOp' = true)
    (hcond : isU32 cond c.code = true)
    (hf : HasFlags ccOp' (valOf M ρ w 32 ccDep1) (valOf M ρ w 32 ccDep2) (valOf M ρ w 32 ccNdep) f)
    (hc : c ≠ .always) (hword : IsWord e) (hval : valOf M ρ w 32 e = ofCmp (c.holds f)) :
    Replaces M ρ w cond ccOp ccDep1 ccDep2 ccNdep e := by
  refine ⟨ofCmp (c.holds f), ?_, ?_⟩
  · rw [valOf_of_isU32 hcond, valOf_of_isU32 hccOp]
    exact calculateCondition_eq hc hf
  · rw [evalExpr_of_isWord hword, hval]

theorem replaces_op {kind : CcKind} {width : CcWidth} {c : X86Condcode} {f : Flags}
    (h : isOpCond ccOp cond kind width c = true)
    (hf : actions width.bits (valOf M ρ w 32 ccDep1) (valOf M ρ w 32 ccDep2) (valOf M ρ w 32 ccNdep) kind = f.eflags)
    (hc : c ≠ .always) (hword : IsWord e) (hval : valOf M ρ w 32 e = ofCmp (c.holds f)) :
    Replaces M ρ w cond ccOp ccDep1 ccDep2 ccNdep e := by
  obtain ⟨hccOp, hcond⟩ := (Bool.and_eq_true _ _).mp h
  exact replaces_of hccOp hcond (hasFlags_op hf) hc hword hval

/-- A test of flags that are copied. -/
theorem replaces_copy {c c' : X86Condcode} {bits : IRExpr}
    (h : (isU32 ccOp CcOp.copy.code && (isU32 cond c.code || isU32 cond c'.code)) = true)
    (hc : c ≠ .always) (hc' : c' ≠ .always)
    (hpos : valOf M ρ w 32 bits &&& 1#32 = ofCmp (c.holds (flagsOf (valOf M ρ w 32 ccDep1))))
    (hneg : c'.holds (flagsOf (valOf M ρ w 32 ccDep1)) = !c.holds (flagsOf (valOf M ρ w 32 ccDep1))) :
    Replaces M ρ w cond ccOp ccDep1 ccDep2 ccNdep (copyTest bits (bif isU32 cond c.code then 1#32 else 0#32)) := by
  obtain ⟨hccOp, hcond⟩ := (Bool.and_eq_true _ _).mp h
  cases hc₁ : isU32 cond c.code with
  | true =>
    refine replaces_of hccOp hc₁ (hasFlags_copy _ _ _) hc rfl ?_
    simp [copyTest, hpos, ofCmp_beq_one]
  | false =>
    rw [hc₁, Bool.false_or] at hcond
    refine replaces_of hccOp hcond (hasFlags_copy _ _ _) hc' rfl ?_
    simp [copyTest, hpos, hneg, ofCmp_beq_zero]

/-! ### The conditions of each operation -/

section Long

variable (x y : BitVec 32)

theorem actions_addl (ndep : BitVec 32) : actions CcWidth.l.bits x y ndep .add = (addFlags x y false).eflags := by
  have h := actionsAdd_eq CcWidth.l.bits_cases x y
  simp only [CcWidth.bits, BitVec.setWidth_eq] at h
  exact h

/-- The flags of a long subtraction. -/
theorem actions_subl (ndep : BitVec 32) : actions CcWidth.l.bits x y ndep .sub = (subFlags x y false).eflags := by
  have h := actionsSub_eq CcWidth.l.bits_cases x y
  simp only [CcWidth.bits, BitVec.setWidth_eq] at h
  exact h

theorem actions_logicl (dep2 ndep : BitVec 32) :
    actions CcWidth.l.bits x dep2 ndep .logic = (ofResult x false false false).eflags := by
  have h := actionsLogic_eq CcWidth.l.bits_cases x
  simp only [CcWidth.bits, BitVec.setWidth_eq] at h
  exact h

end Long

/-- The zero and the sign flag of an increment or a decrement are those of the result. -/
theorem actions_inc (width : CcWidth) (dep1 dep2 ndep : BitVec 32) :
    ∃ f : Flags, actions width.bits dep1 dep2 ndep .inc = f.eflags ∧
      f.z = (dep1.setWidth width.bits == 0) ∧ f.s = (dep1.setWidth width.bits).msb := by
  have hback : dep1.setWidth width.bits = dep1.setWidth width.bits - 1 + 1 := (BitVec.sub_add_cancel _ _).symm
  have hres : dep1.setWidth width.bits - 1 + 1 + ofCarry false = dep1.setWidth width.bits := by
    rw [ofCarry_false, BitVec.add_zero, ← hback]
  exact ⟨_, actionsInc_eq width.bits_cases dep1 ndep _ hback, congrArg (· == 0) hres, congrArg BitVec.msb hres⟩

theorem actions_dec (width : CcWidth) (dep1 dep2 ndep : BitVec 32) :
    ∃ f : Flags, actions width.bits dep1 dep2 ndep .dec = f.eflags ∧
      f.z = (dep1.setWidth width.bits == 0) ∧ f.s = (dep1.setWidth width.bits).msb := by
  have hback : dep1.setWidth width.bits = dep1.setWidth width.bits + 1 - 1 := (BitVec.add_sub_cancel _ _).symm
  have hres : dep1.setWidth width.bits + 1 - 1 - ofCarry false = dep1.setWidth width.bits := by
    rw [ofCarry_false, BitVec.sub_zero, ← hback]
  exact ⟨_, actionsDec_eq width.bits_cases dep1 ndep _ hback, congrArg (· == 0) hres, congrArg BitVec.msb hres⟩

/-- One rule of a ladder applies, or one of the rest. -/
theorem of_ite_some {c : Prop} [Decidable c] {a e : IRExpr} {o : Option IRExpr}
    (h : (if c then some a else o) = some e) : c ∧ a = e ∨ o = some e := by
  split at h
  · next hc => exact .inl ⟨hc, Option.some.inj h⟩
  · exact .inr h

/-- **The condition rules**: the expression has the value of the condition. -/
theorem specCondition_replaces (h : specCondition cond ccOp ccDep1 ccDep2 = some e) :
    Replaces M ρ w cond ccOp ccDep1 ccDep2 ccNdep e := by
  unfold specCondition at h
  obtain ⟨hop, rfl⟩ | h := of_ite_some h
  · exact replaces_op hop (actions_addl _ _ _) (by decide) rfl
      (by simp [X86Condcode.holds, addFlags_z])
  obtain ⟨hop, rfl⟩ | h := of_ite_some h
  · exact replaces_op hop (actions_subl _ _ _) (by decide) rfl
      (by simp [X86Condcode.holds, subFlags_z])
  obtain ⟨hop, rfl⟩ | h := of_ite_some h
  · exact replaces_op hop (actions_subl _ _ _) (by decide) rfl
      (by simp [X86Condcode.holds, subFlags_z, bne])
  obtain ⟨hop, rfl⟩ | h := of_ite_some h
  · exact replaces_op hop (actions_subl _ _ _) (by decide) rfl
      (by simp [X86Condcode.holds, subFlags_l _ _ (show 0 < 32 by decide)])
  obtain ⟨hop, rfl⟩ | h := of_ite_some h
  · exact replaces_op hop (actions_subl _ _ _) (by decide) rfl
      (by simp [X86Condcode.holds, subFlags_l _ _ (show 0 < 32 by decide), ofCmp_xor_one])
  obtain ⟨hop, rfl⟩ | h := of_ite_some h
  · exact replaces_op hop (actions_subl _ _ _) (by decide) rfl
      (by simp [X86Condcode.holds, subFlags_le _ _ (show 0 < 32 by decide)])
  obtain ⟨hop, rfl⟩ | h := of_ite_some h
  · exact replaces_op hop (actions_subl _ _ _) (by decide) rfl
      (by simp [X86Condcode.holds, subFlags_le _ _ (show 0 < 32 by decide), ofCmp_xor_one])
  obtain ⟨hop, rfl⟩ | h := of_ite_some h
  · exact replaces_op hop (actions_subl _ _ _) (by decide) rfl
      (by simp [X86Condcode.holds, subFlags_be])
  obtain ⟨hop, rfl⟩ | h := of_ite_some h
  · exact replaces_op hop (actions_subl _ _ _) (by decide) rfl
      (by simp [X86Condcode.holds, subFlags_be, ofCmp_xor_one])
  obtain ⟨hop, rfl⟩ | h := of_ite_some h
  · exact replaces_op hop (actions_subl _ _ _) (by decide) rfl
      (by simp [X86Condcode.holds, subFlags_c])
  obtain ⟨hop, rfl⟩ | h := of_ite_some h
  · exact replaces_op hop (actions_subl _ _ _) (by decide) rfl
      (by simp [X86Condcode.holds, subFlags_c, ofCmp_xor_one])
  obtain ⟨hop, rfl⟩ | h := of_ite_some h
  · exact replaces_op hop (actions_subl _ _ _) (by decide) rfl
      (by simp [X86Condcode.holds, subFlags_s, slt_zero])
  obtain ⟨hop, rfl⟩ | h := of_ite_some h
  · exact replaces_op hop (actions_subl _ _ _) (by decide) rfl
      (by simp [X86Condcode.holds, subFlags_s, slt_zero, ofCmp_xor_one])
  obtain ⟨hop, rfl⟩ | h := of_ite_some h
  · exact replaces_op hop (actionsSub_eq CcWidth.w.bits_cases _ _) (by decide) rfl
      (by simp [X86Condcode.holds, subFlags_z, CcWidth.bits])
  obtain ⟨hop, rfl⟩ | h := of_ite_some h
  · exact replaces_op hop (actionsSub_eq CcWidth.w.bits_cases _ _) (by decide) rfl
      (by simp [X86Condcode.holds, subFlags_z, CcWidth.bits, bne])
  obtain ⟨hop, rfl⟩ | h := of_ite_some h
  · exact replaces_op hop (actionsSub_eq CcWidth.b.bits_cases _ _) (by decide) rfl
      (by simp [X86Condcode.holds, subFlags_z, CcWidth.bits])
  obtain ⟨hop, rfl⟩ | h := of_ite_some h
  · exact replaces_op hop (actionsSub_eq CcWidth.b.bits_cases _ _) (by decide) rfl
      (by simp [X86Condcode.holds, subFlags_z, CcWidth.bits, bne])
  obtain ⟨hop, rfl⟩ | h := of_ite_some h
  · exact replaces_op hop (actionsSub_eq CcWidth.b.bits_cases _ _) (by decide) rfl
      (by simp [X86Condcode.holds, subFlags_be, CcWidth.bits, ult_and_ones toNat_ones8, BitVec.ule_eq_not_ult])
  obtain ⟨hop, rfl⟩ | h := of_ite_some h
  · obtain ⟨hop, hzero⟩ := (Bool.and_eq_true _ _).mp hop
    have hdep2 : valOf M ρ w 32 ccDep2 = 0 := valOf_of_isU32 hzero
    exact replaces_op hop (actionsSub_eq CcWidth.b.bits_cases _ _) (by decide) rfl
      (by simp [X86Condcode.holds, subFlags_s, hdep2, CcWidth.bits, shr_and_one, msb_setWidth_succ])
  obtain ⟨hop, rfl⟩ | h := of_ite_some h
  · obtain ⟨hop, hzero⟩ := (Bool.and_eq_true _ _).mp hop
    have hdep2 : valOf M ρ w 32 ccDep2 = 0 := valOf_of_isU32 hzero
    exact replaces_op hop (actionsSub_eq CcWidth.b.bits_cases _ _) (by decide) rfl
      (by simp [X86Condcode.holds, subFlags_s, hdep2, CcWidth.bits, shr_and_one, msb_setWidth_succ, ofCmp_xor_one])
  obtain ⟨hop, rfl⟩ | h := of_ite_some h
  · exact replaces_op hop (actions_logicl _ _ _) (by decide) rfl
      (by simp [X86Condcode.holds, ofResult_z])
  obtain ⟨hop, rfl⟩ | h := of_ite_some h
  · exact replaces_op hop (actions_logicl _ _ _) (by decide) rfl
      (by simp [X86Condcode.holds, ofResult_z, bne])
  obtain ⟨hop, rfl⟩ | h := of_ite_some h
  · exact replaces_op hop (actions_logicl _ _ _) (by decide) rfl
      (by simp [X86Condcode.holds, ofResult, sle_zero])
  obtain ⟨hop, rfl⟩ | h := of_ite_some h
  · exact replaces_op hop (actions_logicl _ _ _) (by decide) rfl
      (by simp [X86Condcode.holds, ofResult])
  obtain ⟨hop, rfl⟩ | h := of_ite_some h
  · exact replaces_op hop (actions_logicl _ _ _) (by decide) rfl
      (by simp [X86Condcode.holds, ofResult_s, shr_and_one, BitVec.msb_eq_getLsbD_last])
  obtain ⟨hop, rfl⟩ | h := of_ite_some h
  · exact replaces_op hop (actions_logicl _ _ _) (by decide) rfl
      (by simp [X86Condcode.holds, ofResult_s, shr_and_one, BitVec.msb_eq_getLsbD_last, ofCmp_xor_one])
  obtain ⟨hop, rfl⟩ | h := of_ite_some h
  · exact replaces_op hop (actionsLogic_eq CcWidth.w.bits_cases _) (by decide) rfl
      (by simp [X86Condcode.holds, ofResult_z, CcWidth.bits, and_ones_beq toNat_ones16])
  obtain ⟨hop, rfl⟩ | h := of_ite_some h
  · exact replaces_op hop (actionsLogic_eq CcWidth.w.bits_cases _) (by decide) rfl
      (by simp [X86Condcode.holds, ofResult_s, CcWidth.bits, shr_and_one, msb_setWidth_succ])
  obtain ⟨hop, rfl⟩ | h := of_ite_some h
  · exact replaces_op hop (actionsLogic_eq CcWidth.b.bits_cases _) (by decide) rfl
      (by simp [X86Condcode.holds, ofResult_z, CcWidth.bits, and_ones_beq toNat_ones8])
  obtain ⟨hop, rfl⟩ | h := of_ite_some h
  · exact replaces_op hop (actionsLogic_eq CcWidth.b.bits_cases _) (by decide) rfl
      (by simp [X86Condcode.holds, ofResult_z, CcWidth.bits, bne, and_ones_beq toNat_ones8])
  obtain ⟨hop, rfl⟩ | h := of_ite_some h
  · exact replaces_op hop (actionsLogic_eq CcWidth.b.bits_cases _) (by decide) rfl
      (by simp [X86Condcode.holds, ofResult_s, CcWidth.bits, shr_and_one, msb_setWidth_succ])
  obtain ⟨hop, rfl⟩ | h := of_ite_some h
  · exact replaces_op hop (actionsLogic_eq CcWidth.b.bits_cases _) (by decide) rfl
      (by simp [X86Condcode.holds, ofResult_s, CcWidth.bits, shr_and_one, msb_setWidth_succ, ofCmp_xor_one])
  obtain ⟨hop, rfl⟩ | h := of_ite_some h
  · obtain ⟨f, hf, hz, -⟩ := actions_dec .l (valOf M ρ w 32 ccDep1) (valOf M ρ w 32 ccDep2) (valOf M ρ w 32 ccNdep)
    replace hz : f.z = ((valOf M ρ w 32 ccDep1).setWidth 32 == 0#32) := hz
    exact replaces_op hop hf (by decide) rfl (by simp [X86Condcode.holds, hz])
  obtain ⟨hop, rfl⟩ | h := of_ite_some h
  · obtain ⟨f, hf, -, hs⟩ := actions_dec .l (valOf M ρ w 32 ccDep1) (valOf M ρ w 32 ccDep2) (valOf M ρ w 32 ccNdep)
    exact replaces_op hop hf (by decide) rfl (by simp [X86Condcode.holds, hs, CcWidth.bits, slt_zero])
  obtain ⟨hop, rfl⟩ | h := of_ite_some h
  · obtain ⟨f, hf, hz, -⟩ := actions_dec .w (valOf M ρ w 32 ccDep1) (valOf M ρ w 32 ccDep2) (valOf M ρ w 32 ccNdep)
    replace hz : f.z = ((valOf M ρ w 32 ccDep1).setWidth 16 == 0#16) := hz
    exact replaces_op hop hf (by decide) rfl (by simp [X86Condcode.holds, hz, shl_beq])
  obtain ⟨hop, rfl⟩ | h := of_ite_some h
  · obtain ⟨f, hf, hz, -⟩ := actions_inc .w (valOf M ρ w 32 ccDep1) (valOf M ρ w 32 ccDep2) (valOf M ρ w 32 ccNdep)
    replace hz : f.z = ((valOf M ρ w 32 ccDep1).setWidth 16 == 0#16) := hz
    exact replaces_op hop hf (by decide) rfl (by simp [X86Condcode.holds, hz, shl_beq])
  obtain ⟨hop, rfl⟩ | h := of_ite_some h
  · exact replaces_op hop (actionsShr_eq CcWidth.l.bits_cases _ _) (by decide) rfl
      (by simp [X86Condcode.holds, ofResult_z, CcWidth.bits])
  obtain ⟨hop, rfl⟩ | h := of_ite_some h
  · exact replaces_copy hop (by decide) (by decide) (by rw [valOf_or, valOf_shr, valOf_shr]; exact or_and_one _ 0 6) rfl
  obtain ⟨hop, rfl⟩ | h := of_ite_some h
  · exact replaces_copy hop (by decide) (by decide) (by rw [valOf_shr]; exact shr_and_one _ 0) rfl
  obtain ⟨hop, rfl⟩ | h := of_ite_some h
  · exact replaces_copy hop (by decide) (by decide) (by rw [valOf_shr]; exact shr_and_one _ 6) rfl
  obtain ⟨hop, rfl⟩ | h := of_ite_some h
  · exact replaces_copy hop (by decide) (by decide) (by rw [valOf_shr]; exact shr_and_one _ 2) rfl
  cases h

end Rewrites

/-! ## All calls -/

/-- Call a helper by its name. -/
def callHelper (functionName : String) (args : List (BitVec 32)) : Result (BitVec 32) :=
  if functionName = "x86g_calculate_condition" then
    match args with
    | [cond, ccOp, ccDep1, ccDep2, ccNdep] => x86gCalculateCondition cond ccOp ccDep1 ccDep2 ccNdep
    | _ => throw .assertFailed
  else if functionName = "x86g_calculate_eflags_c" then
    match args with
    | [ccOp, ccDep1, ccDep2, ccNdep] => x86gCalculateEflagsC ccOp ccDep1 ccDep2 ccNdep
    | _ => throw .assertFailed
  else if functionName = "x86g_calculate_eflags_all" then
    match args with
    | [ccOp, ccDep1, ccDep2, ccNdep] => x86gCalculateEflagsAll ccOp ccDep1 ccDep2 ccNdep
    | _ => throw .assertFailed
  else throw .assertFailed

section AllCalls

variable (M : Interp) (ρ : IRTemp → Val) (w : World)

/-- The thunk of an increment or a decrement has the old carry, 0 or 1, in `CC_NDEP`. -/
def CarryStored (ccOp ccNdep : IRExpr) : Prop :=
  ∀ kind ∈ [CcKind.inc, CcKind.dec], ∀ width, isU32 ccOp (CcOp.op kind width).code = true →
    evalExpr M ρ w ccNdep = 0 ∨ evalExpr M ρ w ccNdep = 1

variable {M ρ w} {ccOp ccDep1 ccDep2 ccNdep e : IRExpr}

/-- The carry flag, computed in full. -/
theorem eflagsC_of_flags {ccOp dep1 dep2 ndep : BitVec 32} {f : Flags} (h : HasFlags ccOp dep1 dep2 ndep f) :
    x86gCalculateEflagsC ccOp dep1 dep2 ndep = .ok (ofCmp f.c) := by
  rw [eflagsC_eq, h, ok_bind, eflags_and_maskC]
  rfl

/-- The old carry of an increment or a decrement. -/
theorem eflagsC_of_carry {kind : CcKind} (hkind : kind ∈ [CcKind.inc, CcKind.dec])
    (hop : isU32 ccOp (CcOp.op kind .l).code = true) (hcarry : CarryStored M ρ w ccOp ccNdep) (dep1 dep2 : BitVec 32) :
    ∃ r, x86gCalculateEflagsC (CcOp.op kind .l).code dep1 dep2 (valOf M ρ w 32 ccNdep) = .ok r ∧
      evalExpr M ρ w ccNdep = r.setWidth 128 := by
  have hrun : x86gCalculateEflagsC (CcOp.op kind .l).code dep1 dep2 (valOf M ρ w 32 ccNdep) =
      .ok (valOf M ρ w 32 ccNdep &&& maskC) := by
    rcases List.mem_cons.mp hkind with rfl | hkind
    · rfl
    · obtain rfl := List.mem_singleton.mp hkind
      rfl
  refine ⟨_, hrun, ?_⟩
  rw [valOf]
  rcases hcarry kind hkind .l hop with h | h
  · rw [h]
    rfl
  · rw [h]
    rfl

theorem specEflagsC_replaces (h : specEflagsC ccOp ccDep1 ccDep2 ccNdep = some e)
    (hcarry : CarryStored M ρ w ccOp ccNdep) :
    ∃ r, x86gCalculateEflagsC (valOf M ρ w 32 ccOp) (valOf M ρ w 32 ccDep1) (valOf M ρ w 32 ccDep2)
      (valOf M ρ w 32 ccNdep) = .ok r ∧ evalExpr M ρ w e = r.setWidth 128 := by
  have hword : ∀ {ccOp' : BitVec 32} {f : Flags} {e : IRExpr}, isU32 ccOp ccOp' = true →
      HasFlags ccOp' (valOf M ρ w 32 ccDep1) (valOf M ρ w 32 ccDep2) (valOf M ρ w 32 ccNdep) f → IsWord e →
      valOf M ρ w 32 e = ofCmp f.c → ∃ r, x86gCalculateEflagsC (valOf M ρ w 32 ccOp) (valOf M ρ w 32 ccDep1)
        (valOf M ρ w 32 ccDep2) (valOf M ρ w 32 ccNdep) = .ok r ∧ evalExpr M ρ w e = r.setWidth 128 := by
    intro ccOp' f e hop hf hword hval
    rw [valOf_of_isU32 hop]
    exact ⟨_, eflagsC_of_flags hf, by rw [evalExpr_of_isWord hword, hval]⟩
  unfold specEflagsC at h
  obtain ⟨hop, rfl⟩ | h := of_ite_some h
  · exact hword hop (hasFlags_op (actions_subl _ _ _)) rfl (by simp [subFlags_c])
  obtain ⟨hop, rfl⟩ | h := of_ite_some h
  · exact hword hop (hasFlags_op (actionsSub_eq CcWidth.b.bits_cases _ _)) rfl
      (by simp [subFlags_c, CcWidth.bits, ult_and_ones toNat_ones8])
  obtain ⟨hop, rfl⟩ | h := of_ite_some h
  · have hop : ∃ width, isU32 ccOp (CcOp.op .logic width).code = true := by
      simp only [Bool.or_eq_true] at hop
      rcases hop with (hop | hop) | hop
      · exact ⟨.l, hop⟩
      · exact ⟨.w, hop⟩
      · exact ⟨.b, hop⟩
    obtain ⟨width, hop⟩ := hop
    rw [valOf_of_isU32 hop]
    exact ⟨_, eflagsC_of_flags (hasFlags_op (actionsLogic_eq width.bits_cases _)), rfl⟩
  obtain ⟨hop, rfl⟩ | h := of_ite_some h
  · rcases (Bool.or_eq_true _ _).mp hop with hop | hop
    · rw [valOf_of_isU32 hop]
      exact eflagsC_of_carry (by decide) hop hcarry _ _
    · rw [valOf_of_isU32 hop]
      exact eflagsC_of_carry (by decide) hop hcarry _ _
  obtain ⟨hop, rfl⟩ | h := of_ite_some h
  · exact hword hop (hasFlags_copy _ _ _) rfl (by rw [valOf_and, valOf_shr]; exact shr_and_one _ 0)
  obtain ⟨hop, rfl⟩ | h := of_ite_some h
  · refine hword hop (hasFlags_op (actions_addl _ _ _)) rfl ?_
    rw [valOf_1Uto32, testOf_cmpLT32U, valOf_add, ult_add]
    rfl
  exact nomatch h

theorem specEflagsAll_replaces (h : specEflagsAll ccOp ccDep1 = some e) (dep2 ndep : BitVec 32) :
    ∃ r, x86gCalculateEflagsAll (valOf M ρ w 32 ccOp) (valOf M ρ w 32 ccDep1) dep2 ndep = .ok r ∧
      evalExpr M ρ w e = r.setWidth 128 := by
  unfold specEflagsAll at h
  obtain ⟨hop, rfl⟩ | h := of_ite_some h
  · refine ⟨valOf M ρ w 32 ccDep1 &&& maskOSZACP, by rw [valOf_of_isU32 hop]; rfl, ?_⟩
    rw [evalExpr_of_isWord (show IsWord (.binop (.and .w32) _ _) from rfl), valOf_and, valOf_mkU32]
  · exact nomatch h

end AllCalls

/-- **The shortcuts are exact**: the carry flag alone is that of all flags, and an expression
that replaces the call of a helper has the value that the helper returns. -/
theorem flagShortcuts_exact :
    (∀ ccOp dep1 dep2 ndep, x86gCalculateEflagsC ccOp dep1 dep2 ndep =
      (x86gCalculateEflagsAllWRK ccOp dep1 dep2 ndep >>= fun eflags => return eflags &&& maskC)) ∧
    ∀ (M : Interp) (ρ : IRTemp → Val) (w : World) (functionName : String) (args : List IRExpr) (e : IRExpr),
      guestX86Spechelper functionName args = .ok (some e) →
      (∀ ccOp ccDep1 ccDep2 ccNdep, args = [ccOp, ccDep1, ccDep2, ccNdep] → CarryStored M ρ w ccOp ccNdep) →
      ∃ r, callHelper functionName (args.map (valOf M ρ w 32)) = .ok r ∧ evalExpr M ρ w e = r.setWidth 128 := by
  refine ⟨eflagsC_eq, fun M ρ w functionName args e h hcarry => ?_⟩
  unfold guestX86Spechelper at h
  unfold callHelper
  by_cases h₁ : functionName = "x86g_calculate_condition"
  · rw [if_pos h₁] at h ⊢
    split at h
    · exact specCondition_replaces (Except.ok.inj h)
    · exact nomatch h
  rw [if_neg h₁] at h ⊢
  by_cases h₂ : functionName = "x86g_calculate_eflags_c"
  · rw [if_pos h₂] at h ⊢
    split at h
    · exact specEflagsC_replaces (Except.ok.inj h) (hcarry _ _ _ _ rfl)
    · exact nomatch h
  rw [if_neg h₂] at h ⊢
  by_cases h₃ : functionName = "x86g_calculate_eflags_all"
  · rw [if_pos h₃] at h ⊢
    split at h
    · exact specEflagsAll_replaces (Except.ok.inj h) _ _
    · exact nomatch h
  · rw [if_neg h₃] at h
    exact nomatch h

/-- "Not below or equal" on bytes, with something above the bytes. -/
theorem flagShortcuts_exact_subb :
    ∃ r, callHelper "x86g_calculate_condition" [7, 4, 0x105, 0x2FF, 0] = .ok r ∧
      evalExpr default (fun t => if t = 0 then 0x105 else 0x2FF) default
        (.unop .cvt1Uto32 (.binop .cmpLT32U (.binop (.and .w32) (.rdTmp 1) (mkU32 0xFF))
          (.binop (.and .w32) (.rdTmp 0) (mkU32 0xFF)))) = r.setWidth 128 :=
  flagShortcuts_exact.2 default (fun t => if t = 0 then 0x105 else 0x2FF) default "x86g_calculate_condition"
    [mkU32 7, mkU32 4, .rdTmp 0, .rdTmp 1, mkU32 0] _ rfl (fun _ _ _ _ h => nomatch h)

end Valgrind.Vex.X86
