import Valgrind.Basics.Result
import Valgrind.Vex.Ops

/-!
# The IR: expressions, statements, superblocks

The data types of `libvex_ir.h` and the functions of `irdefs.c` on them. A
superblock `IRSB` is a list of statements with side exits and a final jump; its
temporaries are numbered, and its type environment `tyenv` lists their types.
`Iex_Binder`, which only occurs in patterns inside the guest helpers, is left out.
Offsets into the guest state are natural numbers.
-/

namespace Valgrind.Vex

/-- `IREndness`. -/
inductive IREndness where
  | LE | BE
  deriving DecidableEq, Repr

/-- `IRConst`. The double of an `Ico_F64` is given by its bits, as an `Ico_F64i`
is in the source; an `Ico_V128` has one bit for each byte of the vector. -/
inductive IRConst where
  | U1 (v : Bool)
  | U8 (v : BitVec 8)
  | U16 (v : BitVec 16)
  | U32 (v : BitVec 32)
  | U64 (v : BitVec 64)
  | F64 (v : BitVec 64)
  | F64i (v : BitVec 64)
  | V128 (v : BitVec 16)
  deriving DecidableEq, Repr

/-- `typeOfIRConst`. -/
def typeOfIRConst : IRConst → IRType
  | .U1 _ => .I1
  | .U8 _ => .I8
  | .U16 _ => .I16
  | .U32 _ => .I32
  | .U64 _ => .I64
  | .F64 _ => .F64
  | .F64i _ => .F64
  | .V128 _ => .V128

/-- The bits are those of a double that is not a number. -/
def isNaN (v : BitVec 64) : Bool := 0x7FF0000000000000 < v &&& 0x7FFFFFFFFFFFFFFF

/-- The bits are those of `0.0` or `-0.0`. -/
def isZeroF64 (v : BitVec 64) : Bool := v &&& 0x7FFFFFFFFFFFFFFF == 0

/-- `==` on doubles: a NaN equals nothing, the two zeroes are equal. -/
def eqF64 (a b : BitVec 64) : Bool :=
  !isNaN a && !isNaN b && (a == b || isZeroF64 a && isZeroF64 b)

/-- `eqIRConst`. -/
def eqIRConst : IRConst → IRConst → Bool
  | .U1 a, .U1 b => a == b
  | .U8 a, .U8 b => a == b
  | .U16 a, .U16 b => a == b
  | .U32 a, .U32 b => a == b
  | .U64 a, .U64 b => a == b
  | .F64 a, .F64 b => eqF64 a b
  | .F64i a, .F64i b => a == b
  | .V128 a, .V128 b => a == b
  | _, _ => false

/-- `IRCallee`. -/
structure IRCallee where
  regparms : Nat
  name : String
  addr : Nat
  mcx_mask : BitVec 32
  deriving DecidableEq, Repr

/-- `IRRegArray`, a piece of the guest state that can be indexed at run time. The
bounds are those that `mkIRRegArray` asserts. -/
structure IRRegArray where
  base : Nat
  elemTy : IRType
  nElems : Nat
  base_le : base ≤ 10000
  elemTy_ne : elemTy ≠ .I1
  nElems_pos : 0 < nElems
  nElems_le : nElems ≤ 500
  deriving DecidableEq, Repr

/-- `eqIRRegArray`. -/
def eqIRRegArray (descr1 descr2 : IRRegArray) : Bool :=
  descr1.base == descr2.base && descr1.elemTy == descr2.elemTy && descr1.nElems == descr2.nElems

theorem eqIRRegArray_iff {d₁ d₂ : IRRegArray} : eqIRRegArray d₁ d₂ = true ↔ d₁ = d₂ := by
  cases d₁
  cases d₂
  simp [eqIRRegArray, and_assoc]

/-- `IRTemp`: the number of a temporary. -/
abbrev IRTemp := Nat

/-- `IRExpr`. -/
inductive IRExpr where
  | get (offset : Nat) (ty : IRType)
  | getI (descr : IRRegArray) (ix : IRExpr) (bias : Int)
  | rdTmp (tmp : IRTemp)
  | qop (op : IROp) (arg1 arg2 arg3 arg4 : IRExpr)
  | triop (op : IROp) (arg1 arg2 arg3 : IRExpr)
  | binop (op : IROp) (arg1 arg2 : IRExpr)
  | unop (op : IROp) (arg : IRExpr)
  | load (en : IREndness) (ty : IRType) (addr : IRExpr)
  | const (con : IRConst)
  | ccall (cee : IRCallee) (retty : IRType) (args : List IRExpr)
  | mux0X (cond expr0 exprX : IRExpr)
  deriving Repr

/-- `IRJumpKind`. -/
inductive IRJumpKind where
  | Boring | Call | Ret | ClientReq | Yield | EmWarn | EmFail | NoDecode | MapFail | TInval
  | NoRedir | SigTRAP | SigSEGV | Sys_syscall | Sys_int32 | Sys_int128 | Sys_sysenter
  deriving DecidableEq, Repr

/-- `IREffect`. -/
inductive IREffect where
  | None | Read | Write | Modify
  deriving DecidableEq, Repr

/-- An entry of `IRDirty.fxState`: how the helper uses `size` bytes of the guest state. -/
structure FxState where
  fx : IREffect
  offset : Nat
  size : Nat
  deriving DecidableEq, Repr

/-- `IRDirty`, a call of a helper with side effects. -/
structure IRDirty where
  cee : IRCallee
  guard : IRExpr
  args : List IRExpr
  /-- `IRTemp_INVALID` is `none`. -/
  tmp : Option IRTemp
  mFx : IREffect
  /-- `NULL` is `none`. -/
  mAddr : Option IRExpr
  mSize : Int
  needsBBP : Bool
  fxState : List FxState
  deriving Repr

/-- `IRMBusEvent`. -/
inductive IRMBusEvent where
  | Fence | BusLock | BusUnlock | SnoopedStoreBegin | SnoopedStoreEnd
  deriving DecidableEq, Repr

/-- `IRStmt`. -/
inductive IRStmt where
  | noOp
  | iMark (addr : BitVec 64) (len : Int)
  | abiHint (base : IRExpr) (len : Int) (nia : IRExpr)
  | put (offset : Nat) (data : IRExpr)
  | putI (descr : IRRegArray) (ix : IRExpr) (bias : Int) (data : IRExpr)
  | wrTmp (tmp : IRTemp) (data : IRExpr)
  | store (en : IREndness) (addr data : IRExpr)
  | dirty (details : IRDirty)
  | mbe (event : IRMBusEvent)
  | exit (guard : IRExpr) (jk : IRJumpKind) (dst : IRConst)
  deriving Repr

/-- `IRTypeEnv`: the types of the temporaries `0, 1, ..`. -/
abbrev IRTypeEnv := List IRType

/-- `IRSB`, a superblock. -/
structure IRSB where
  tyenv : IRTypeEnv
  stmts : List IRStmt
  next : IRExpr
  jumpkind : IRJumpKind
  deriving Repr

/-- A block that runs `stmts` and jumps to `0x1000`. -/
def blockOf (tyenv : IRTypeEnv) (stmts : List IRStmt) : IRSB where
  tyenv := tyenv
  stmts := stmts
  next := .const (.U32 0x1000)
  jumpkind := .Boring

/-- `sizeofIRType`. -/
def sizeofIRType : IRType → Result Nat
  | .I8 => .ok 1
  | .I16 => .ok 2
  | .I32 => .ok 4
  | .I64 => .ok 8
  | .F32 => .ok 4
  | .F64 => .ok 8
  | .V128 => .ok 16
  | .I1 | .I128 => .error .panic

theorem sizeofIRType_eq_ok {ty : IRType} {n : Nat} (h : sizeofIRType ty = .ok n) :
    n = ty.bytes ∧ ty.bits = 8 * n ∧ 0 < n := by
  cases ty <;> cases h <;> decide

/-- `typeOfIRTemp`. -/
def typeOfIRTemp (env : IRTypeEnv) (tmp : IRTemp) : Result IRType := do
  assertThat (tmp < env.length)
  return env.getD tmp .I1

/-- `typeOfIRExpr`. -/
def typeOfIRExpr (tyenv : IRTypeEnv) : IRExpr → Result IRType
  | .load _ ty _ => .ok ty
  | .get _ ty => .ok ty
  | .getI descr _ _ => .ok descr.elemTy
  | .rdTmp tmp => typeOfIRTemp tyenv tmp
  | .const con => .ok (typeOfIRConst con)
  | .qop op _ _ _ _ => .ok (typeOfPrimop op).1
  | .triop op _ _ _ => .ok (typeOfPrimop op).1
  | .binop op _ _ => .ok (typeOfPrimop op).1
  | .unop op _ => .ok (typeOfPrimop op).1
  | .ccall _ retty _ => .ok retty
  | .mux0X _ expr0 _ => typeOfIRExpr tyenv expr0

/-- The type of an expression, whatever it is where `typeOfIRExpr` does not return. -/
def IRExpr.tyIn (e : IRExpr) (tyenv : IRTypeEnv) : IRType :=
  match typeOfIRExpr tyenv e with
  | .ok ty => ty
  | .error _ => .I1

theorem typeOfIRExpr_eq_ok {tyenv : IRTypeEnv} {e : IRExpr} {ty : IRType}
    (h : typeOfIRExpr tyenv e = .ok ty) : e.tyIn tyenv = ty := by
  simp [IRExpr.tyIn, h]

@[simp] theorem tyIn_rdTmp (tyenv : IRTypeEnv) (t : IRTemp) :
    (IRExpr.rdTmp t).tyIn tyenv = tyenv.getD t .I1 := by
  unfold IRExpr.tyIn typeOfIRExpr typeOfIRTemp assertThat
  by_cases h : t < tyenv.length
  · simp [h, bind, Except.bind, pure, Except.pure]
  · simp [h, bind, Except.bind]

@[simp] theorem tyIn_const (tyenv : IRTypeEnv) (c : IRConst) :
    (IRExpr.const c).tyIn tyenv = typeOfIRConst c := rfl

/-- `isIRAtom`. -/
def IRExpr.isIRAtom : IRExpr → Bool
  | .rdTmp _ => true
  | .const _ => true
  | _ => false

/-- `eqIRAtom`. -/
def eqIRAtom (a1 a2 : IRExpr) : Result Bool := do
  assertThat (a1.isIRAtom = true)
  assertThat (a2.isIRAtom = true)
  match a1, a2 with
  | .rdTmp t1, .rdTmp t2 => return t1 == t2
  | .const c1, .const c2 => return eqIRConst c1 c2
  | _, _ => return false

/-- All operands of the expression are atoms: the part of `isFlatIRStmt` about the
right-hand side of an assignment. -/
def IRExpr.isFlat : IRExpr → Bool
  | .get _ _ => true
  | .getI _ ix _ => ix.isIRAtom
  | .rdTmp _ => true
  | .qop _ arg1 arg2 arg3 arg4 =>
    arg1.isIRAtom && arg2.isIRAtom && arg3.isIRAtom && arg4.isIRAtom
  | .triop _ arg1 arg2 arg3 => arg1.isIRAtom && arg2.isIRAtom && arg3.isIRAtom
  | .binop _ arg1 arg2 => arg1.isIRAtom && arg2.isIRAtom
  | .unop _ arg => arg.isIRAtom
  | .load _ _ addr => addr.isIRAtom
  | .const _ => true
  | .ccall _ _ args => args.all IRExpr.isIRAtom
  | .mux0X cond expr0 exprX => cond.isIRAtom && expr0.isIRAtom && exprX.isIRAtom

/-- `isFlatIRStmt`. -/
def isFlatIRStmt : IRStmt → Bool
  | .abiHint base _ nia => base.isIRAtom && nia.isIRAtom
  | .put _ data => data.isIRAtom
  | .putI _ ix _ data => ix.isIRAtom && data.isIRAtom
  | .wrTmp _ data => data.isFlat
  | .store _ addr data => addr.isIRAtom && data.isIRAtom
  | .dirty di => di.guard.isIRAtom && di.args.all IRExpr.isIRAtom && di.mAddr.all IRExpr.isIRAtom
  | .noOp => true
  | .iMark _ _ => true
  | .mbe _ => true
  | .exit guard _ _ => guard.isIRAtom

/-- Every statement is flat and the final jump goes to an atom. -/
def IRSB.isFlat (bb : IRSB) : Bool := bb.stmts.all isFlatIRStmt && bb.next.isIRAtom

/-! ## Temporaries -/

mutual

/-- The temporaries that the expression reads. -/
def IRExpr.temps : IRExpr → List IRTemp
  | .get _ _ => []
  | .getI _ ix _ => ix.temps
  | .rdTmp tmp => [tmp]
  | .qop _ arg1 arg2 arg3 arg4 => arg1.temps ++ arg2.temps ++ arg3.temps ++ arg4.temps
  | .triop _ arg1 arg2 arg3 => arg1.temps ++ arg2.temps ++ arg3.temps
  | .binop _ arg1 arg2 => arg1.temps ++ arg2.temps
  | .unop _ arg => arg.temps
  | .load _ _ addr => addr.temps
  | .const _ => []
  | .ccall _ _ args => tempsOfArgs args
  | .mux0X cond expr0 exprX => cond.temps ++ expr0.temps ++ exprX.temps

/-- The temporaries that the arguments of a call read. -/
def tempsOfArgs : List IRExpr → List IRTemp
  | [] => []
  | e :: es => e.temps ++ tempsOfArgs es

end

theorem mem_tempsOfArgs {t : IRTemp} {args : List IRExpr} :
    t ∈ tempsOfArgs args ↔ ∃ e ∈ args, t ∈ e.temps := by
  induction args with
  | nil => simp [tempsOfArgs]
  | cons e es ih => simp [tempsOfArgs, ih]

/-- The temporaries that the statement reads; the address of a memory effect counts
only if there is such an effect. -/
def IRStmt.uses : IRStmt → List IRTemp
  | .noOp => []
  | .iMark _ _ => []
  | .abiHint base _ nia => base.temps ++ nia.temps
  | .put _ data => data.temps
  | .putI _ ix _ data => ix.temps ++ data.temps
  | .wrTmp _ data => data.temps
  | .store _ addr data => addr.temps ++ data.temps
  | .dirty d =>
    (if d.mFx ≠ .None then (d.mAddr.map IRExpr.temps).getD [] else []) ++ d.guard.temps
      ++ tempsOfArgs d.args
  | .mbe _ => []
  | .exit guard _ _ => guard.temps

/-- The temporary that the statement assigns. -/
def IRStmt.def? : IRStmt → Option IRTemp
  | .wrTmp tmp _ => some tmp
  | .dirty d => d.tmp
  | _ => none

/-- The temporaries that the statements assign. -/
def defsOf (stmts : List IRStmt) : List IRTemp := stmts.filterMap IRStmt.def?

/-- Each temporary is assigned at most once. -/
def IRSB.IsSSA (bb : IRSB) : Prop := (defsOf bb.stmts).Nodup

/-- Every temporary that is read has been assigned before: those in `ds` have been
assigned before `stmts`, and `next` is read after them. -/
def UsesDefined (ds : List IRTemp) : List IRStmt → IRExpr → Prop
  | [], next => ∀ t ∈ next.temps, t ∈ ds
  | st :: rest, next => (∀ t ∈ st.uses, t ∈ ds) ∧ UsesDefined (st.def?.toList ++ ds) rest next

/-- Every used temporary is defined earlier. -/
def IRSB.DefinedBeforeUse (bb : IRSB) : Prop := UsesDefined [] bb.stmts bb.next

instance UsesDefined.decidable : ∀ ds stmts next, Decidable (UsesDefined ds stmts next)
  | ds, [], next => inferInstanceAs (Decidable (∀ t ∈ next.temps, t ∈ ds))
  | ds, st :: rest, next =>
    have := UsesDefined.decidable (st.def?.toList ++ ds) rest next
    inferInstanceAs (Decidable ((∀ t ∈ st.uses, t ∈ ds) ∧ _))

instance (bb : IRSB) : Decidable bb.IsSSA := inferInstanceAs (Decidable (List.Nodup _))

instance (bb : IRSB) : Decidable bb.DefinedBeforeUse :=
  inferInstanceAs (Decidable (UsesDefined [] bb.stmts bb.next))

@[simp] theorem defsOf_nil : defsOf [] = [] := rfl

theorem defsOf_cons (st : IRStmt) (rest : List IRStmt) :
    defsOf (st :: rest) = st.def?.toList ++ defsOf rest := by
  unfold defsOf
  cases h : st.def? with
  | none => simp [h]
  | some t => simp [h]

theorem UsesDefined.mono {ds ds' : List IRTemp} {stmts : List IRStmt} {next : IRExpr}
    (h : UsesDefined ds stmts next) (hsub : ∀ t ∈ ds, t ∈ ds') : UsesDefined ds' stmts next := by
  induction stmts generalizing ds ds' with
  | nil => exact fun t ht => hsub t (h t ht)
  | cons st rest ih =>
    refine ⟨fun t ht => hsub t (h.1 t ht), ih h.2 fun t ht => ?_⟩
    rcases List.mem_append.mp ht with hd | hds
    · exact List.mem_append_left _ hd
    · exact List.mem_append_right _ (hsub t hds)

/-- Everything a statement or the final jump reads is assigned before or among the statements. -/
theorem UsesDefined.next_defined {ds : List IRTemp} {stmts : List IRStmt} {next : IRExpr}
    (h : UsesDefined ds stmts next) {t : IRTemp} (ht : t ∈ next.temps) :
    t ∈ ds ∨ t ∈ defsOf stmts := by
  induction stmts generalizing ds with
  | nil => exact .inl (h t ht)
  | cons st rest ih =>
    rw [defsOf_cons]
    rcases ih h.2 with hd | hd
    · rcases List.mem_append.mp hd with hd | hd
      · exact .inr (List.mem_append_left _ hd)
      · exact .inl hd
    · exact .inr (List.mem_append_right _ hd)

section UsesDefined

variable {ds ds' : List IRTemp} {stmts stmts' : List IRStmt} {next : IRExpr}

theorem defsOf_append (stmts stmts' : List IRStmt) :
    defsOf (stmts ++ stmts') = defsOf stmts ++ defsOf stmts' := List.filterMap_append

theorem UsesDefined.append (h : UsesDefined ds stmts (.const (.U1 false)))
    (h' : UsesDefined (defsOf stmts ++ ds) stmts' next) : UsesDefined ds (stmts ++ stmts') next := by
  induction stmts generalizing ds with
  | nil => exact h'
  | cons st rest ih =>
    refine ⟨h.1, ih h.2 (h'.mono fun t ht => ?_)⟩
    rw [defsOf_cons] at ht
    simp only [List.mem_append] at ht ⊢
    rcases ht with (ht | ht) | ht
    · exact .inr (.inl ht)
    · exact .inl ht
    · exact .inr (.inr ht)

/-- What is read is assigned before or in the list itself. -/
theorem UsesDefined.mem (h : UsesDefined ds stmts next) {st : IRStmt} (hst : st ∈ stmts) {t : IRTemp}
    (ht : t ∈ st.uses) : t ∈ ds ∨ t ∈ defsOf stmts := by
  induction stmts generalizing ds with
  | nil => exact nomatch hst
  | cons st' rest ih =>
    rw [defsOf_cons]
    rcases List.mem_cons.mp hst with rfl | hst
    · exact .inl (h.1 t ht)
    · rcases ih h.2 hst with hd | hd
      · exact (List.mem_append.mp hd).elim (fun hd => .inr (List.mem_append_left _ hd)) .inl
      · exact .inr (List.mem_append_right _ hd)

end UsesDefined

/-- The statements to come are in SSA form, `ds` being assigned so far: everything
they read is assigned before, nothing is assigned twice. -/
structure SSAFrom (ds : List IRTemp) (stmts : List IRStmt) (next : IRExpr) : Prop where
  uses : UsesDefined ds stmts next
  fresh : ∀ t ∈ ds, t ∉ defsOf stmts
  nodup : (defsOf stmts).Nodup

theorem IRSB.ssaFrom {bb : IRSB} (hssa : bb.IsSSA) (hdef : bb.DefinedBeforeUse) :
    SSAFrom [] bb.stmts bb.next :=
  ⟨hdef, fun _ ht => (nomatch ht), hssa⟩

section SSAFrom

variable {ds : List IRTemp} {st : IRStmt} {rest : List IRStmt} {next : IRExpr}

theorem SSAFrom.tail (h : SSAFrom ds (st :: rest) next) :
    SSAFrom (st.def?.toList ++ ds) rest next := by
  have hnodup := h.nodup
  rw [defsOf_cons] at hnodup
  obtain ⟨-, hrest, hdisj⟩ := List.nodup_append.mp hnodup
  refine ⟨h.uses.2, fun t ht hm => ?_, hrest⟩
  rcases List.mem_append.mp ht with ht | ht
  · exact hdisj t ht t hm rfl
  · exact h.fresh t ht (by rw [defsOf_cons]; exact List.mem_append_right _ hm)

/-- What the next statement reads is not assigned any more. -/
theorem SSAFrom.use_not_def (h : SSAFrom ds (st :: rest) next) {t : IRTemp} (ht : t ∈ st.uses) :
    t ∉ defsOf (st :: rest) := h.fresh t (h.uses.1 t ht)

/-- What the next statement assigns is not assigned again. -/
theorem SSAFrom.def_not_def (h : SSAFrom ds (st :: rest) next) {t : IRTemp}
    (ht : st.def? = some t) : t ∉ defsOf rest :=
  h.tail.fresh t (List.mem_append_left _ (Option.mem_toList.mpr ht))

end SSAFrom

theorem not_mem_defsOf_tail {st : IRStmt} {rest : List IRStmt} {t : IRTemp}
    (h : t ∉ defsOf (st :: rest)) : t ∉ defsOf rest := fun hm =>
  h (by rw [defsOf_cons]; exact List.mem_append_right _ hm)

theorem ne_def_of_not_mem {st : IRStmt} {rest : List IRStmt} {t : IRTemp}
    (h : t ∉ defsOf (st :: rest)) : st.def? ≠ some t := fun hd =>
  h (by rw [defsOf_cons]; exact List.mem_append_left _ (Option.mem_toList.mpr hd))

end Valgrind.Vex
