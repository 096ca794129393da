import Valgrind.Vex.Flatten

/-!
# Instrumenting code (`mc_translate.c`)

Memcheck adds to a superblock the code that computes V bits: for each original atom there is a
shadow atom, and an operation on the originals is followed by operations on the shadows. A
function that generates such code appends statements to the block under construction, each
of which binds an expression to a new temporary, and returns an atom.

Here are the generators for the operations whose V bits are computed with more than ordinary
care: `And` and `Or`, and, once strange literals have been seen, `Add`, `Sub`, `CmpEQ` and
`CmpNE`. Where two arguments of a C function are both calls, the left one is evaluated first.
-/

namespace Valgrind

namespace Memcheck

open Vex

/-- `MCEnv`, as far as these generators use it. -/
structure MCEnv where
  /-- The superblock being constructed. -/
  bb : IRSB
  /-- `n_originalTmps`. -/
  nOriginalTmps : Nat

/-- Code that extends the block under construction. -/
abbrev Gen (α : Type) := StateT MCEnv Result α

/-- `tl_assert`. -/
def tlAssert (p : Prop) [Decidable p] : Gen Unit := fun mce => do
  assertThat p
  pure ((), mce)

/-! ## Atoms -/

/-- `isOriginalAtom`. -/
def isOriginalAtom (mce : MCEnv) : IRExpr → Bool
  | .const _ => true
  | .rdTmp tmp => decide (tmp < mce.nOriginalTmps)
  | _ => false

/-- `isShadowAtom`. -/
def isShadowAtom (mce : MCEnv) : IRExpr → Bool
  | .const _ => true
  | .rdTmp tmp => decide (mce.nOriginalTmps ≤ tmp)
  | _ => false

/-- `sameKindedAtoms`. -/
def sameKindedAtoms : IRExpr → IRExpr → Bool
  | .rdTmp _, .rdTmp _ => true
  | .const _, .const _ => true
  | _, _ => false

/-- `tl_assert(isShadowAtom(mce, a))`. -/
def assertShadow (a : IRExpr) : Gen Unit := do
  let mce ← get
  tlAssert (isShadowAtom mce a = true)

/-- `tl_assert(isOriginalAtom(mce, a))`. -/
def assertOriginal (a : IRExpr) : Gen Unit := do
  let mce ← get
  tlAssert (isOriginalAtom mce a = true)

/-- `assignNew('V', mce, ty, e)`: bind the expression to a new temporary. -/
def assignNew (ty : IRType) (e : IRExpr) : Gen IRExpr := fun mce => do
  let tyE ← typeOfIRExpr mce.bb.tyenv e
  assertThat (tyE = ty)
  let (t, bb) := newIRTemp mce.bb ty
  pure (.rdTmp t, { mce with bb := addStmtToIRSB bb (.wrTmp t e) })

/-! ## Definedness primops -/

/-- A type with its bitwise primops. -/
structure BitOps where
  ty : IRType
  and : IROp
  or : IROp
  not : IROp

def bits8 : BitOps := ⟨.I8, .and .w8, .or .w8, .not .w8⟩
def bits16 : BitOps := ⟨.I16, .and .w16, .or .w16, .not .w16⟩
def bits32 : BitOps := ⟨.I32, .and .w32, .or .w32, .not .w32⟩
def bits64 : BitOps := ⟨.I64, .and .w64, .or .w64, .not .w64⟩
def bitsV128 : BitOps := ⟨.V128, .andV128, .orV128, .notV128⟩

/-- Defined if either is defined. -/
def mkDifD (o : BitOps) (a1 a2 : IRExpr) : Gen IRExpr := do
  assertShadow a1
  assertShadow a2
  assignNew o.ty (.binop o.and a1 a2)

/-- Undefined if either is undefined. -/
def mkUifU (o : BitOps) (a1 a2 : IRExpr) : Gen IRExpr := do
  assertShadow a1
  assertShadow a2
  assignNew o.ty (.binop o.or a1 a2)

/-- The improvement term for `And`: defined zeroes of the data give defined bits. -/
def mkImproveAND (o : BitOps) (data vbits : IRExpr) : Gen IRExpr := do
  assertOriginal data
  assertShadow vbits
  tlAssert (sameKindedAtoms data vbits = true)
  assignNew o.ty (.binop o.or data vbits)

/-- The improvement term for `Or`: defined ones of the data give defined bits. -/
def mkImproveOR (o : BitOps) (data vbits : IRExpr) : Gen IRExpr := do
  assertOriginal data
  assertShadow vbits
  tlAssert (sameKindedAtoms data vbits = true)
  let notData ← assignNew o.ty (.unop o.not data)
  assignNew o.ty (.binop o.or notData vbits)

def mkDifD8 := mkDifD bits8
def mkDifD16 := mkDifD bits16
def mkDifD32 := mkDifD bits32
def mkDifD64 := mkDifD bits64
def mkDifDV128 := mkDifD bitsV128

def mkUifU8 := mkUifU bits8
def mkUifU16 := mkUifU bits16
def mkUifU32 := mkUifU bits32
def mkUifU64 := mkUifU bits64
def mkUifUV128 := mkUifU bitsV128

def mkImproveAND8 := mkImproveAND bits8
def mkImproveAND16 := mkImproveAND bits16
def mkImproveAND32 := mkImproveAND bits32
def mkImproveAND64 := mkImproveAND bits64
def mkImproveANDV128 := mkImproveAND bitsV128

def mkImproveOR8 := mkImproveOR bits8
def mkImproveOR16 := mkImproveOR bits16
def mkImproveOR32 := mkImproveOR bits32
def mkImproveOR64 := mkImproveOR bits64
def mkImproveORV128 := mkImproveOR bitsV128

/-! ## Pessimising casts -/

/-- `Iop_64HLtoV128`, number 0x14000 + 296. -/
def iop64HLtoV128 : IROp := .other 296 .V128 [.I64, .I64]

/-- `mkPCastTo`: all bits of the result are undefined if any of the operand is. -/
def mkPCastTo (dstTy : IRType) (vbits : IRExpr) : Gen IRExpr := do
  assertShadow vbits
  let mce ← get
  let srcTy ← typeOfIRExpr mce.bb.tyenv vbits
  if srcTy = .I32 ∧ dstTy = .I32 then assignNew .I32 (.unop .cmpwNEZ32 vbits)
  else if srcTy = .I64 ∧ dstTy = .I64 then assignNew .I64 (.unop .cmpwNEZ64 vbits)
  else if srcTy = .I32 ∧ dstTy = .I64 then do
    let tmp ← assignNew .I32 (.unop .cmpwNEZ32 vbits)
    assignNew .I64 (.binop .cvt32HLto64 tmp tmp)
  else do
    let tmp1 ← match srcTy with
      | .I1 => pure vbits
      | .I8 => assignNew .I1 (.unop (.cmpNEZ .w8) vbits)
      | .I16 => assignNew .I1 (.unop (.cmpNEZ .w16) vbits)
      | .I32 => assignNew .I1 (.unop (.cmpNEZ .w32) vbits)
      | .I64 => assignNew .I1 (.unop (.cmpNEZ .w64) vbits)
      | .I128 => do
        let tmp2 ← assignNew .I64 (.unop .cvt128HIto64 vbits)
        let tmp3 ← assignNew .I64 (.unop .cvt128to64 vbits)
        let tmp4 ← assignNew .I64 (.binop (.or .w64) tmp2 tmp3)
        assignNew .I1 (.unop (.cmpNEZ .w64) tmp4)
      | _ => throw .panic
    match dstTy with
    | .I1 => pure tmp1
    | .I8 => assignNew .I8 (.unop .cvt1Sto8 tmp1)
    | .I16 => assignNew .I16 (.unop .cvt1Sto16 tmp1)
    | .I32 => assignNew .I32 (.unop .cvt1Sto32 tmp1)
    | .I64 => assignNew .I64 (.unop .cvt1Sto64 tmp1)
    | .V128 => do
      let tmp1 ← assignNew .I64 (.unop .cvt1Sto64 tmp1)
      assignNew .V128 (.binop iop64HLtoV128 tmp1 tmp1)
    | .I128 => do
      let tmp1 ← assignNew .I64 (.unop .cvt1Sto64 tmp1)
      assignNew .I128 (.binop .cvt64HLto128 tmp1 tmp1)
    | _ => throw .panic

/-! ## Expensive interpretations -/

/-- The assertions that `expensiveCmpEQorNE` and `expensiveAddSub` begin with. -/
def assertOperands (vxx vyy xx yy : IRExpr) : Gen Unit := do
  assertShadow vxx
  assertShadow vyy
  assertOriginal xx
  assertOriginal yy
  tlAssert (sameKindedAtoms vxx xx = true)
  tlAssert (sameKindedAtoms vyy yy = true)

/-- The operand width of a type that the expensive interpretations handle. -/
def expensiveSz : IRType → Gen IntSz
  | .I32 => pure .w32
  | .I64 => pure .w64
  | _ => throw .panic

/-- All ones. -/
def topOf : IntSz → IRConst
  | .w8 => .U8 0xFF
  | .w16 => .U16 0xFFFF
  | .w32 => .U32 0xFFFFFFFF
  | .w64 => .U64 0xFFFFFFFFFFFFFFFF

/-- `expensiveCmpEQorNE`. -/
def expensiveCmpEQorNE (ty : IRType) (vxx vyy xx yy : IRExpr) : Gen IRExpr := do
  assertOperands vxx vyy xx yy
  let w ← expensiveSz ty
  let uifu ← assignNew ty (.binop (.or w) vxx vyy)
  let naive ← mkPCastTo ty uifu
  let vor ← assignNew ty (.binop (.or w) vxx vyy)
  let xor ← assignNew ty (.binop (.xor w) xx yy)
  let notXor ← assignNew ty (.unop (.not w) xor)
  let vec ← assignNew ty (.binop (.or w) vor notXor)
  let isTop ← assignNew .I1 (.binop (.cmpEQ w) vec (.const (topOf w)))
  let improvementTerm ← mkPCastTo ty isTop
  let improved ← assignNew ty (.binop (.and w) naive improvementTerm)
  mkPCastTo .I1 improved

/-- `expensiveAddSub`. -/
def expensiveAddSub (add : Bool) (ty : IRType) (qaa qbb aa bb : IRExpr) : Gen IRExpr := do
  assertOperands qaa qbb aa bb
  let w ← expensiveSz ty
  let notQaa ← assignNew ty (.unop (.not w) qaa)
  let aMin ← assignNew ty (.binop (.and w) aa notQaa)
  let notQbb ← assignNew ty (.unop (.not w) qbb)
  let bMin ← assignNew ty (.binop (.and w) bb notQbb)
  let aMax ← assignNew ty (.binop (.or w) aa qaa)
  let bMax ← assignNew ty (.binop (.or w) bb qbb)
  if add = true then do
    let vor ← assignNew ty (.binop (.or w) qaa qbb)
    let lo ← assignNew ty (.binop (.add w) aMin bMin)
    let hi ← assignNew ty (.binop (.add w) aMax bMax)
    let differ ← assignNew ty (.binop (.xor w) lo hi)
    assignNew ty (.binop (.or w) vor differ)
  else do
    let vor ← assignNew ty (.binop (.or w) qaa qbb)
    let lo ← assignNew ty (.binop (.sub w) aMin bMax)
    let hi ← assignNew ty (.binop (.sub w) aMax bMin)
    let differ ← assignNew ty (.binop (.xor w) lo hi)
    assignNew ty (.binop (.or w) vor differ)

/-- `do_And_Or` in `expr2vbits_Binop`. -/
def doAndOr (uifu difd : IRExpr → IRExpr → Gen IRExpr) (andOrTy : IRType)
    (improve : IRExpr → IRExpr → Gen IRExpr) (vatom1 vatom2 atom1 atom2 : IRExpr) : Gen IRExpr := do
  let naive ← uifu vatom1 vatom2
  let improve1 ← improve atom1 vatom1
  let improve2 ← improve atom2 vatom2
  let improvement ← difd improve1 improve2
  let improved ← difd naive improvement
  assignNew andOrTy improved

/-- The cases of `expr2vbits_Binop` for `And` and `Or`. -/
def expr2vbitsAndOr (op : IROp) : IRExpr → IRExpr → IRExpr → IRExpr → Gen IRExpr :=
  match op with
  | .andV128 => doAndOr mkUifUV128 mkDifDV128 .V128 mkImproveANDV128
  | .and .w64 => doAndOr mkUifU64 mkDifD64 .I64 mkImproveAND64
  | .and .w32 => doAndOr mkUifU32 mkDifD32 .I32 mkImproveAND32
  | .and .w16 => doAndOr mkUifU16 mkDifD16 .I16 mkImproveAND16
  | .and .w8 => doAndOr mkUifU8 mkDifD8 .I8 mkImproveAND8
  | .orV128 => doAndOr mkUifUV128 mkDifDV128 .V128 mkImproveORV128
  | .or .w64 => doAndOr mkUifU64 mkDifD64 .I64 mkImproveOR64
  | .or .w32 => doAndOr mkUifU32 mkDifD32 .I32 mkImproveOR32
  | .or .w16 => doAndOr mkUifU16 mkDifD16 .I16 mkImproveOR16
  | .or .w8 => doAndOr mkUifU8 mkDifD8 .I8 mkImproveOR8
  | _ => fun _ _ _ _ => throw .panic

end Memcheck

end Valgrind
