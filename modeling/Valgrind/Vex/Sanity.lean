import Valgrind.Vex.Semantics

/-!
# Well-typed superblocks

The type checks of `sanityCheckIRSB`. What they are for: in a block that passes
them the value of every expression has no bits beyond those of its type.
-/

namespace Valgrind.Vex

/-- `typeOfIRExpr(tyenv, e) == ty`. -/
def hasType (tyenv : IRTypeEnv) (e : IRExpr) (ty : IRType) : Bool :=
  match typeOfIRExpr tyenv e with
  | .ok ty' => ty' == ty
  | .error _ => false

/-- `typeOfIRExpr(tyenv, e) != ty`. -/
def hasOtherType (tyenv : IRTypeEnv) (e : IRExpr) (ty : IRType) : Bool :=
  match typeOfIRExpr tyenv e with
  | .ok ty' => ty' != ty
  | .error _ => false

/-- `saneIRCallee`. -/
def saneIRCallee (cee : IRCallee) : Bool := cee.addr != 0 && decide (cee.regparms ≤ 3)

/-- The types of the arguments of a primop are those that `typeOfPrimop` gives. -/
def argsHaveTypes (tyenv : IRTypeEnv) : List IRExpr → List IRType → Bool
  | [], [] => true
  | e :: es, ty :: tys => hasType tyenv e ty && argsHaveTypes tyenv es tys
  | _, _ => false

mutual

/-- `tcExpr`: the expression is well typed. -/
def tcExpr (tyenv : IRTypeEnv) (gWordTy : IRType) : IRExpr → Bool
  | .get _ _ => true
  | .rdTmp _ => true
  | .getI _ ix _ => tcExpr tyenv gWordTy ix && hasType tyenv ix .I32
  | .qop op arg1 arg2 arg3 arg4 =>
    tcExpr tyenv gWordTy arg1 && tcExpr tyenv gWordTy arg2 && tcExpr tyenv gWordTy arg3 &&
      tcExpr tyenv gWordTy arg4 &&
      argsHaveTypes tyenv [arg1, arg2, arg3, arg4] (typeOfPrimop op).2
  | .triop op arg1 arg2 arg3 =>
    tcExpr tyenv gWordTy arg1 && tcExpr tyenv gWordTy arg2 && tcExpr tyenv gWordTy arg3 &&
      argsHaveTypes tyenv [arg1, arg2, arg3] (typeOfPrimop op).2
  | .binop op arg1 arg2 =>
    tcExpr tyenv gWordTy arg1 && tcExpr tyenv gWordTy arg2 &&
      argsHaveTypes tyenv [arg1, arg2] (typeOfPrimop op).2
  | .unop op arg => tcExpr tyenv gWordTy arg && argsHaveTypes tyenv [arg] (typeOfPrimop op).2
  | .load _ _ addr => tcExpr tyenv gWordTy addr && hasType tyenv addr gWordTy
  | .ccall cee retty args =>
    saneIRCallee cee && decide (cee.regparms ≤ args.length) && decide (args.length ≤ 32) &&
      tcArgs tyenv gWordTy args && retty != .I1 && args.all fun e => hasOtherType tyenv e .I1
  | .const _ => true
  | .mux0X cond expr0 exprX =>
    tcExpr tyenv gWordTy cond && tcExpr tyenv gWordTy expr0 && tcExpr tyenv gWordTy exprX &&
      hasType tyenv cond .I8 && hasType tyenv expr0 (exprX.tyIn tyenv)

/-- The loop over a vector of arguments. -/
def tcArgs (tyenv : IRTypeEnv) (gWordTy : IRType) : List IRExpr → Bool
  | [] => true
  | e :: es => tcExpr tyenv gWordTy e && tcArgs tyenv gWordTy es

end

/-- `tcStmt`: the statement is well typed. -/
def tcStmt (tyenv : IRTypeEnv) (gWordTy : IRType) : IRStmt → Bool
  | .iMark _ len => decide (0 ≤ len) && decide (len ≤ 20)
  | .abiHint base _ nia => hasType tyenv base gWordTy && hasType tyenv nia gWordTy
  | .put _ data => tcExpr tyenv gWordTy data && hasOtherType tyenv data .I1
  | .putI descr ix _ data =>
    tcExpr tyenv gWordTy data && tcExpr tyenv gWordTy ix && hasOtherType tyenv data .I1 &&
      hasType tyenv data descr.elemTy && hasType tyenv ix .I32
  | .wrTmp tmp data =>
    tcExpr tyenv gWordTy data && decide (tmp < tyenv.length) &&
      hasType tyenv data (tyenv.getD tmp .I1)
  | .store _ addr data =>
    tcExpr tyenv gWordTy addr && tcExpr tyenv gWordTy data && hasType tyenv addr gWordTy &&
      hasOtherType tyenv data .I1
  | .dirty d =>
    saneIRCallee d.cee && decide (d.cee.regparms ≤ d.args.length) &&
      (if d.mFx = .None then d.mAddr.isNone && d.mSize == 0 else d.mAddr.isSome && d.mSize != 0) &&
      decide (d.fxState.length ≤ 7) && !(d.fxState.isEmpty && d.needsBBP) &&
      (d.fxState.all fun f => f.fx != .None && decide (0 < f.size)) &&
      tcExpr tyenv gWordTy d.guard && hasType tyenv d.guard .I1 &&
      (d.tmp.all fun t => decide (t < tyenv.length) && tyenv.getD t .I1 != .I1) &&
      decide (d.args.length ≤ 32) && d.args.all fun e => hasOtherType tyenv e .I1
  | .noOp => true
  | .mbe _ => true
  | .exit guard _ dst =>
    tcExpr tyenv gWordTy guard && hasType tyenv guard .I1 && typeOfIRConst dst == gWordTy

/-- The block is well typed for guests whose words have the type `gWordTy`. -/
def IRSB.WellTyped (bb : IRSB) (gWordTy : IRType) : Prop :=
  (gWordTy = .I32 ∨ gWordTy = .I64) ∧
    (∀ st ∈ bb.stmts, tcStmt bb.tyenv gWordTy st = true) ∧ hasType bb.tyenv bb.next gWordTy = true

instance (bb : IRSB) (gWordTy : IRType) : Decidable (bb.WellTyped gWordTy) :=
  inferInstanceAs (Decidable (_ ∧ _))

theorem hasType_eq_true {tyenv : IRTypeEnv} {e : IRExpr} {ty : IRType} :
    hasType tyenv e ty = true ↔ typeOfIRExpr tyenv e = .ok ty := by
  unfold hasType
  cases typeOfIRExpr tyenv e with
  | ok ty' => simp
  | error a => simp

theorem tyIn_of_hasType {tyenv : IRTypeEnv} {e : IRExpr} {ty : IRType}
    (h : hasType tyenv e ty = true) : e.tyIn tyenv = ty :=
  typeOfIRExpr_eq_ok (hasType_eq_true.mp h)

/-! ## Values fit their types -/

/-- Every temporary holds a value of its type. -/
def TmpsFit (tyenv : IRTypeEnv) (ρ : IRTemp → Val) : Prop := ∀ t, (tyenv.getD t .I1).Fits (ρ t)

theorem tmpsFit_noTmps (tyenv : IRTypeEnv) : TmpsFit tyenv noTmps := fun _ => IRType.fits_zero _

theorem typeOfIRConst_fits (c : IRConst) : (typeOfIRConst c).Fits (constVal c) := by
  cases c with
  | V128 v => exact fits_of_bits rfl _
  | _ => exact fits_setWidth (Nat.le_refl _) _

theorem tyIn_mux0X (tyenv : IRTypeEnv) (cond expr0 exprX : IRExpr) :
    (IRExpr.mux0X cond expr0 exprX).tyIn tyenv = expr0.tyIn tyenv := by
  unfold IRExpr.tyIn
  rw [typeOfIRExpr]

/-- The value of a well-typed expression fits its type. -/
theorem evalExpr_fits {M : Interp} {tyenv : IRTypeEnv} {gWordTy : IRType} {ρ : IRTemp → Val}
    {w : World} (hρ : TmpsFit tyenv ρ) :
    ∀ {e : IRExpr}, tcExpr tyenv gWordTy e = true → (e.tyIn tyenv).Fits (evalExpr M ρ w e)
  | .get offset ty, _ => by
    rw [evalExpr]
    exact readGuest_fits M w.guest offset ty
  | .getI descr ix bias, _ => by
    rw [evalExpr]
    exact readGuest_fits M w.guest _ descr.elemTy
  | .rdTmp t, _ => by
    rw [tyIn_rdTmp, evalExpr]
    exact hρ t
  | .qop op _ _ _ _, _ => by
    rw [evalExpr]
    exact evalPrimop_fits M.primop op _
  | .triop op _ _ _, _ => by
    rw [evalExpr]
    exact evalPrimop_fits M.primop op _
  | .binop op _ _, _ => by
    rw [evalExpr]
    exact evalPrimop_fits M.primop op _
  | .unop op _, _ => by
    rw [evalExpr]
    exact evalPrimop_fits M.primop op _
  | .load en ty addr, _ => by
    rw [evalExpr]
    exact IRType.fits_low ty _
  | .const c, _ => by
    rw [evalExpr]
    exact typeOfIRConst_fits c
  | .ccall cee retty args, _ => by
    rw [evalExpr]
    exact IRType.fits_low retty _
  | .mux0X cond expr0 exprX, h => by
    simp only [tcExpr, Bool.and_eq_true] at h
    rw [tyIn_mux0X, evalExpr]
    have h0 := evalExpr_fits (M := M) (w := w) hρ (e := expr0) h.1.1.1.2
    have hX := evalExpr_fits (M := M) (w := w) hρ (e := exprX) h.1.1.2
    split
    · exact h0
    · rw [tyIn_of_hasType h.2]
      exact hX

/-- A well-typed statement leaves every temporary with a value of its type. -/
theorem execStmt_fits {M : Interp} {tyenv : IRTypeEnv} {gWordTy : IRType} {s : State} {st : IRStmt}
    (hst : tcStmt tyenv gWordTy st = true) (hs : TmpsFit tyenv s.tmps) :
    TmpsFit tyenv (execStmt M tyenv s st).1.tmps := by
  intro u
  by_cases hu : st.def? = some u
  · cases st with
    | wrTmp tmp data =>
      obtain rfl : tmp = u := Option.some.inj hu
      simp only [tcStmt, Bool.and_eq_true] at hst
      simp only [execStmt, effect, assign_self]
      rw [← tyIn_of_hasType hst.2]
      exact evalExpr_fits hs hst.1.1
    | dirty d =>
      replace hu : d.tmp = some u := hu
      simp only [execStmt, effect]
      split <;> simp only [dirtyDef, hu, Option.map_some, assign_self] <;> exact IRType.fits_low _ _
    | _ => cases hu
  · rw [execStmt_tmps_of_ne hu]
    exact hs u

/-! ## More temporaries -/

section Append

variable {tyenv tys : IRTypeEnv} {gWordTy : IRType}

theorem getD_append_of_lt {t : IRTemp} (h : t < tyenv.length) :
    (tyenv ++ tys).getD t .I1 = tyenv.getD t .I1 := by
  rw [List.getD_eq_getElem?_getD, List.getElem?_append_left h, List.getD_eq_getElem?_getD]

/-- A well-typed statement assigns a temporary of the block. -/
theorem def_lt_of_tcStmt {st : IRStmt} {gWordTy : IRType} {t : IRTemp}
    (h : tcStmt tyenv gWordTy st = true) (ht : st.def? = some t) : t < tyenv.length := by
  cases st with
  | wrTmp tmp data =>
    cases ht
    simp only [tcStmt, Bool.and_eq_true, decide_eq_true_eq] at h
    exact h.1.2
  | dirty d =>
    have htmp : d.tmp = some t := ht
    simp only [tcStmt, Bool.and_eq_true, htmp, Option.all_some, decide_eq_true_eq] at h
    exact h.1.1.2.1
  | _ => exact nomatch ht

/-- A type environment with more temporaries gives the same types. -/
theorem typeOfIRExpr_append : ∀ {e : IRExpr}, (∀ t ∈ e.temps, t < tyenv.length) →
    typeOfIRExpr (tyenv ++ tys) e = typeOfIRExpr tyenv e
  | .rdTmp t, h => by
    have ht : t < tyenv.length := h t (by simp [IRExpr.temps])
    have ht' : t < (tyenv ++ tys).length := by
      rw [List.length_append]
      exact Nat.lt_add_right _ ht
    simp only [typeOfIRExpr, typeOfIRTemp, getD_append_of_lt ht]
    rw [assertThat_of ht, assertThat_of ht']
  | .mux0X cond expr0 exprX, h => by
    rw [typeOfIRExpr, typeOfIRExpr]
    exact typeOfIRExpr_append fun t ht => h t (by simp [IRExpr.temps, ht])
  | .get _ _, _ | .getI _ _ _, _ | .qop _ _ _ _ _, _ | .triop _ _ _ _, _ | .binop _ _ _, _ |
    .unop _ _, _ | .load _ _ _, _ | .const _, _ | .ccall _ _ _, _ => by rw [typeOfIRExpr, typeOfIRExpr]

/-- An expression whose temporaries are in range has a type. -/
theorem typeOfIRExpr_returns : ∀ {e : IRExpr}, (∀ t ∈ e.temps, t < tyenv.length) →
    typeOfIRExpr tyenv e = .ok (e.tyIn tyenv)
  | .rdTmp t, h => by
    have ht : t < tyenv.length := h t (by simp [IRExpr.temps])
    rw [tyIn_rdTmp, typeOfIRExpr, typeOfIRTemp, assertThat_of ht]
    rfl
  | .mux0X cond expr0 exprX, h => by
    rw [tyIn_mux0X, typeOfIRExpr]
    exact typeOfIRExpr_returns fun t ht => h t (by simp [IRExpr.temps, ht])
  | .get _ _, _ | .getI _ _ _, _ | .qop _ _ _ _ _, _ | .triop _ _ _ _, _ | .binop _ _ _, _ |
    .unop _ _, _ | .load _ _ _, _ | .const _, _ | .ccall _ _ _, _ => rfl

end Append

section TypeCongr

variable {tyenv tyenv' : IRTypeEnv} {gWordTy : IRType} {e e' : IRExpr}

theorem hasType_congr (h : typeOfIRExpr tyenv' e' = typeOfIRExpr tyenv e) (ty : IRType) :
    hasType tyenv' e' ty = hasType tyenv e ty := by
  rw [hasType, h, hasType]

theorem hasOtherType_congr (h : typeOfIRExpr tyenv' e' = typeOfIRExpr tyenv e) (ty : IRType) :
    hasOtherType tyenv' e' ty = hasOtherType tyenv e ty := by
  rw [hasOtherType, h, hasOtherType]

theorem tyIn_congr (h : typeOfIRExpr tyenv' e' = typeOfIRExpr tyenv e) :
    e'.tyIn tyenv' = e.tyIn tyenv := by
  rw [IRExpr.tyIn, h, IRExpr.tyIn]

theorem argsHaveTypes_congr {es es' : List IRExpr}
    (h : List.Forall₂ (fun e e' => typeOfIRExpr tyenv' e' = typeOfIRExpr tyenv e) es es')
    (tys : List IRType) : argsHaveTypes tyenv' es' tys = argsHaveTypes tyenv es tys := by
  induction h generalizing tys with
  | nil => cases tys <;> rfl
  | cons hd _ ih =>
    cases tys with
    | nil => rfl
    | cons ty tys => rw [argsHaveTypes, argsHaveTypes, hasType_congr hd, ih]

end TypeCongr

/-- The expressions in a statement; the address of a memory effect counts only if there
is such an effect. -/
def IRStmt.exprs : IRStmt → List IRExpr
  | .noOp => []
  | .iMark _ _ => []
  | .abiHint base _ nia => [base, nia]
  | .put _ data => [data]
  | .putI _ ix _ data => [ix, data]
  | .wrTmp _ data => [data]
  | .store _ addr data => [addr, data]
  | .dirty d => (if d.mFx ≠ .None then d.mAddr.toList else []) ++ d.guard :: d.args
  | .mbe _ => []
  | .exit guard _ _ => [guard]

theorem mem_uses {st : IRStmt} {t : IRTemp} : t ∈ st.uses ↔ ∃ e ∈ st.exprs, t ∈ e.temps := by
  cases st with
  | dirty d =>
    simp only [IRStmt.uses, IRStmt.exprs, List.mem_append, mem_tempsOfArgs, List.mem_cons]
    split
    · cases d.mAddr with
      | none => simp [or_assoc]
      | some e => simp [or_assoc]
    · simp
  | _ => simp [IRStmt.uses, IRStmt.exprs]

section AppendTyped

variable {tyenv tys : IRTypeEnv} {gWordTy : IRType}

/-- The types of a list of expressions whose temporaries are in range. -/
theorem forall₂_typeOf_append {es : List IRExpr} (h : ∀ e ∈ es, ∀ t ∈ e.temps, t < tyenv.length) :
    List.Forall₂ (fun e e' => typeOfIRExpr (tyenv ++ tys) e' = typeOfIRExpr tyenv e) es es :=
  List.forall₂_same.mpr fun e he => typeOfIRExpr_append (h e he)

mutual

/-- With more temporaries an expression stays well typed. -/
theorem tcExpr_append : ∀ {e : IRExpr}, (∀ t ∈ e.temps, t < tyenv.length) →
    tcExpr tyenv gWordTy e = true → tcExpr (tyenv ++ tys) gWordTy e = true
  | .get _ _, _, _ => rfl
  | .rdTmp _, _, _ => rfl
  | .const _, _, _ => rfl
  | .getI _ ix _, h, htc => by
    replace h : ∀ t ∈ ix.temps, t < tyenv.length := h
    simp only [tcExpr, Bool.and_eq_true] at htc ⊢
    rw [hasType_congr (typeOfIRExpr_append h)]
    exact ⟨tcExpr_append h htc.1, htc.2⟩
  | .qop op arg1 arg2 arg3 arg4, h, htc => by
    simp only [IRExpr.temps, List.mem_append] at h
    have h₁ : ∀ t ∈ arg1.temps, t < tyenv.length := fun t ht => h t (.inl (.inl (.inl ht)))
    have h₂ : ∀ t ∈ arg2.temps, t < tyenv.length := fun t ht => h t (.inl (.inl (.inr ht)))
    have h₃ : ∀ t ∈ arg3.temps, t < tyenv.length := fun t ht => h t (.inl (.inr ht))
    have h₄ : ∀ t ∈ arg4.temps, t < tyenv.length := fun t ht => h t (.inr ht)
    simp only [tcExpr, Bool.and_eq_true] at htc ⊢
    rw [argsHaveTypes_congr (forall₂_typeOf_append (by simp_all))]
    exact ⟨⟨⟨⟨tcExpr_append h₁ htc.1.1.1.1, tcExpr_append h₂ htc.1.1.1.2⟩, tcExpr_append h₃ htc.1.1.2⟩,
      tcExpr_append h₄ htc.1.2⟩, htc.2⟩
  | .triop op arg1 arg2 arg3, h, htc => by
    simp only [IRExpr.temps, List.mem_append] at h
    have h₁ : ∀ t ∈ arg1.temps, t < tyenv.length := fun t ht => h t (.inl (.inl ht))
    have h₂ : ∀ t ∈ arg2.temps, t < tyenv.length := fun t ht => h t (.inl (.inr ht))
    have h₃ : ∀ t ∈ arg3.temps, t < tyenv.length := fun t ht => h t (.inr ht)
    simp only [tcExpr, Bool.and_eq_true] at htc ⊢
    rw [argsHaveTypes_congr (forall₂_typeOf_append (by simp_all))]
    exact ⟨⟨⟨tcExpr_append h₁ htc.1.1.1, tcExpr_append h₂ htc.1.1.2⟩, tcExpr_append h₃ htc.1.2⟩, htc.2⟩
  | .binop op arg1 arg2, h, htc => by
    simp only [IRExpr.temps, List.mem_append] at h
    have h₁ : ∀ t ∈ arg1.temps, t < tyenv.length := fun t ht => h t (.inl ht)
    have h₂ : ∀ t ∈ arg2.temps, t < tyenv.length := fun t ht => h t (.inr ht)
    simp only [tcExpr, Bool.and_eq_true] at htc ⊢
    rw [argsHaveTypes_congr (forall₂_typeOf_append (by simp_all))]
    exact ⟨⟨tcExpr_append h₁ htc.1.1, tcExpr_append h₂ htc.1.2⟩, htc.2⟩
  | .unop op arg, h, htc => by
    simp only [tcExpr, Bool.and_eq_true] at htc ⊢
    rw [argsHaveTypes_congr (forall₂_typeOf_append (by simpa [IRExpr.temps] using h))]
    exact ⟨tcExpr_append h htc.1, htc.2⟩
  | .load _ _ addr, h, htc => by
    replace h : ∀ t ∈ addr.temps, t < tyenv.length := h
    simp only [tcExpr, Bool.and_eq_true] at htc ⊢
    rw [hasType_congr (typeOfIRExpr_append h)]
    exact ⟨tcExpr_append h htc.1, htc.2⟩
  | .ccall cee retty args, h, htc => by
    simp only [tcExpr, Bool.and_eq_true] at htc ⊢
    refine ⟨⟨⟨htc.1.1.1, tcArgs_append h htc.1.1.2⟩, htc.1.2⟩, List.all_eq_true.mpr fun e he => ?_⟩
    rw [hasOtherType_congr (typeOfIRExpr_append fun t ht => h t (mem_tempsOfArgs.mpr ⟨e, he, ht⟩))]
    exact List.all_eq_true.mp htc.2 e he
  | .mux0X cond expr0 exprX, h, htc => by
    simp only [IRExpr.temps, List.mem_append] at h
    have h₁ : ∀ t ∈ cond.temps, t < tyenv.length := fun t ht => h t (.inl (.inl ht))
    have h₂ : ∀ t ∈ expr0.temps, t < tyenv.length := fun t ht => h t (.inl (.inr ht))
    have h₃ : ∀ t ∈ exprX.temps, t < tyenv.length := fun t ht => h t (.inr ht)
    simp only [tcExpr, Bool.and_eq_true] at htc ⊢
    rw [hasType_congr (typeOfIRExpr_append h₁), hasType_congr (typeOfIRExpr_append h₂),
      tyIn_congr (typeOfIRExpr_append h₃)]
    exact ⟨⟨⟨⟨tcExpr_append h₁ htc.1.1.1.1, tcExpr_append h₂ htc.1.1.1.2⟩, tcExpr_append h₃ htc.1.1.2⟩,
      htc.1.2⟩, htc.2⟩

theorem tcArgs_append : ∀ {es : List IRExpr}, (∀ t ∈ tempsOfArgs es, t < tyenv.length) →
    tcArgs tyenv gWordTy es = true → tcArgs (tyenv ++ tys) gWordTy es = true
  | [], _, _ => rfl
  | e :: es, h, htc => by
    simp only [tempsOfArgs, List.mem_append] at h
    simp only [tcArgs, Bool.and_eq_true] at htc ⊢
    exact ⟨tcExpr_append (fun t ht => h t (.inl ht)) htc.1, tcArgs_append (fun t ht => h t (.inr ht)) htc.2⟩

end

/-- With more temporaries a statement stays well typed. -/
theorem tcStmt_append {st : IRStmt} (h : ∀ t ∈ st.uses, t < tyenv.length)
    (htc : tcStmt tyenv gWordTy st = true) : tcStmt (tyenv ++ tys) gWordTy st = true := by
  have hexpr : ∀ e ∈ st.exprs, ∀ t ∈ e.temps, t < tyenv.length :=
    fun e he t ht => h t (mem_uses.mpr ⟨e, he, ht⟩)
  cases st with
  | noOp | mbe => rfl
  | iMark addr len => exact htc
  | abiHint base len nia =>
    have h₁ := hexpr base (by simp [IRStmt.exprs])
    have h₂ := hexpr nia (by simp [IRStmt.exprs])
    rw [tcStmt, hasType_congr (typeOfIRExpr_append h₁), hasType_congr (typeOfIRExpr_append h₂)]
    exact htc
  | put offset data =>
    have h₁ := hexpr data (by simp [IRStmt.exprs])
    simp only [tcStmt, Bool.and_eq_true] at htc ⊢
    rw [hasOtherType_congr (typeOfIRExpr_append h₁)]
    exact ⟨tcExpr_append h₁ htc.1, htc.2⟩
  | putI descr ix bias data =>
    have h₁ := hexpr ix (by simp [IRStmt.exprs])
    have h₂ := hexpr data (by simp [IRStmt.exprs])
    simp only [tcStmt, Bool.and_eq_true] at htc ⊢
    rw [hasOtherType_congr (typeOfIRExpr_append h₂), hasType_congr (typeOfIRExpr_append h₂),
      hasType_congr (typeOfIRExpr_append h₁)]
    exact ⟨⟨⟨⟨tcExpr_append h₂ htc.1.1.1.1, tcExpr_append h₁ htc.1.1.1.2⟩, htc.1.1.2⟩, htc.1.2⟩, htc.2⟩
  | wrTmp tmp data =>
    have h₁ := hexpr data (by simp [IRStmt.exprs])
    simp only [tcStmt, Bool.and_eq_true, decide_eq_true_eq] at htc ⊢
    rw [hasType_congr (typeOfIRExpr_append h₁), getD_append_of_lt htc.1.2, List.length_append]
    exact ⟨⟨tcExpr_append h₁ htc.1.1, Nat.lt_add_right _ htc.1.2⟩, htc.2⟩
  | store en addr data =>
    have h₁ := hexpr addr (by simp [IRStmt.exprs])
    have h₂ := hexpr data (by simp [IRStmt.exprs])
    simp only [tcStmt, Bool.and_eq_true] at htc ⊢
    rw [hasOtherType_congr (typeOfIRExpr_append h₂), hasType_congr (typeOfIRExpr_append h₁)]
    exact ⟨⟨⟨tcExpr_append h₁ htc.1.1.1, tcExpr_append h₂ htc.1.1.2⟩, htc.1.2⟩, htc.2⟩
  | dirty d =>
    have h₁ := hexpr d.guard (by simp [IRStmt.exprs])
    have h₂ : ∀ e ∈ d.args, ∀ t ∈ e.temps, t < tyenv.length :=
      fun e he => hexpr e (by simp [IRStmt.exprs, he])
    simp only [tcStmt, Bool.and_eq_true] at htc ⊢
    rw [hasType_congr (typeOfIRExpr_append h₁)]
    refine ⟨⟨⟨⟨⟨htc.1.1.1.1.1, tcExpr_append h₁ htc.1.1.1.1.2⟩, htc.1.1.1.2⟩, ?_⟩, htc.1.2⟩, ?_⟩
    · cases ht : d.tmp with
      | none => rfl
      | some t =>
        have htmp := htc.1.1.2
        simp only [ht, Option.all_some, Bool.and_eq_true, decide_eq_true_eq] at htmp ⊢
        rw [getD_append_of_lt htmp.1, List.length_append]
        exact ⟨Nat.lt_add_right _ htmp.1, htmp.2⟩
    · refine List.all_eq_true.mpr fun e he => ?_
      rw [hasOtherType_congr (typeOfIRExpr_append (h₂ e he))]
      exact List.all_eq_true.mp htc.2 e he
  | exit guard jk dst =>
    have h₁ := hexpr guard (by simp [IRStmt.exprs])
    simp only [tcStmt, Bool.and_eq_true] at htc ⊢
    rw [hasType_congr (typeOfIRExpr_append h₁)]
    exact ⟨⟨tcExpr_append h₁ htc.1.1, htc.1.2⟩, htc.2⟩

/-- With more temporaries a statement does the same. -/
theorem effect_append {M : Interp} {ρ : IRTemp → Val} {w : World} {st : IRStmt}
    (h : ∀ t ∈ st.uses, t < tyenv.length) (hdef : ∀ t, st.def? = some t → t < tyenv.length) :
    effect M (tyenv ++ tys) ρ w st = effect M tyenv ρ w st := by
  cases st with
  | put offset data => simp only [effect, tyIn_congr (typeOfIRExpr_append h)]
  | store en addr data =>
    have h₂ : ∀ t ∈ data.temps, t < tyenv.length := fun t ht => h t (List.mem_append_right _ ht)
    simp only [effect, tyIn_congr (typeOfIRExpr_append h₂)]
  | dirty d =>
    have hd : ∀ v, dirtyDef (tyenv ++ tys) d v = dirtyDef tyenv d v := by
      intro v
      cases ht : d.tmp with
      | none => simp [dirtyDef, ht]
      | some t => simp only [dirtyDef, ht, Option.map_some, getD_append_of_lt (hdef t ht)]
    simp only [effect, hd]
  | _ => rfl

end AppendTyped

/-! ## Flat, well-typed blocks in SSA form -/

/-- What the passes expect of a block: flat, in SSA form, well typed. -/
structure IRSB.Valid (bb : IRSB) (gWordTy : IRType) : Prop where
  flat : bb.isFlat = true
  ssa : bb.IsSSA
  defined : bb.DefinedBeforeUse
  typed : bb.WellTyped gWordTy

/-- A statement may be replaced by one that is flat and well typed, assigns the same
temporary and reads nothing but what is assigned so far. -/
structure Replaces (tyenv : IRTypeEnv) (gWordTy : IRType) (ds : List IRTemp) (st st' : IRStmt) :
    Prop where
  flat : isFlatIRStmt st' = true
  typed : tcStmt tyenv gWordTy st' = true
  def_eq : st'.def? = st.def?
  uses : ∀ t ∈ st'.uses, t ∈ ds

/-- A forward pass that only replaces statements keeps a block valid. `Inv` is what the
pass keeps about its environment and the temporaries assigned so far. -/
theorem IRSB.Valid.of_scan {E : Type} {f : E → IRStmt → Result (IRStmt × E)} {bb : IRSB}
    {gWordTy : IRType} (hbb : bb.Valid gWordTy) (Inv : E → List IRTemp → Prop)
    (hstep : ∀ {e ds st st' e'}, Inv e ds → Replaces bb.tyenv gWordTy ds st st →
      f e st = .ok (st', e') →
        Replaces bb.tyenv gWordTy ds st st' ∧ Inv e' (st.def?.toList ++ ds))
    {e e' : E} (he : Inv e []) {stmts : List IRStmt}
    (h : Straight.scan f e bb.stmts = .ok (stmts, e')) :
    IRSB.Valid { bb with stmts := stmts } gWordTy := by
  obtain ⟨hflat, hnext⟩ := Bool.and_eq_true_iff.mp hbb.flat
  have hall : ∀ {is ds e js}, Inv e ds → (∀ st ∈ is, isFlatIRStmt st = true) →
      (∀ st ∈ is, tcStmt bb.tyenv gWordTy st = true) → UsesDefined ds is bb.next →
      Straight.scan f e is = .ok (js, e') →
        (∀ st ∈ js, isFlatIRStmt st = true) ∧ (∀ st ∈ js, tcStmt bb.tyenv gWordTy st = true) ∧
          UsesDefined ds js bb.next ∧ defsOf js = defsOf is := by
    intro is
    induction is with
    | nil =>
      intro ds e js _ _ _ hdef h
      obtain ⟨rfl, -⟩ : [] = js ∧ e = e' := by simpa [Straight.scan] using h
      exact ⟨fun _ hm => (by cases hm), fun _ hm => (by cases hm), hdef, rfl⟩
    | cons st is ih =>
      intro ds e js hinv hflat htc hdef h
      obtain ⟨st', e₁, js, hst, hjs, rfl⟩ := Straight.scan_cons.mp h
      obtain ⟨hrep, hinv'⟩ := hstep hinv
        ⟨hflat st List.mem_cons_self, htc st List.mem_cons_self, rfl, hdef.1⟩ hst
      obtain ⟨hflat', htc', hdef', hdefs⟩ := ih hinv'
        (fun st hm => hflat st (List.mem_cons_of_mem _ hm))
        (fun st hm => htc st (List.mem_cons_of_mem _ hm)) hdef.2 hjs
      refine ⟨List.forall_mem_cons.mpr ⟨hrep.flat, hflat'⟩,
        List.forall_mem_cons.mpr ⟨hrep.typed, htc'⟩, ⟨hrep.uses, ?_⟩, ?_⟩
      · rw [hrep.def_eq]
        exact hdef'
      · rw [defsOf_cons, defsOf_cons, hrep.def_eq, hdefs]
  obtain ⟨hflat', htc', hdef', hdefs⟩ :=
    hall he (List.all_eq_true.mp hflat) hbb.typed.2.1 hbb.defined h
  refine ⟨Bool.and_eq_true_iff.mpr ⟨List.all_eq_true.mpr hflat', hnext⟩, ?_, hdef',
    hbb.typed.1, htc', hbb.typed.2.2⟩
  rw [IRSB.IsSSA, hdefs]
  exact hbb.ssa

end Valgrind.Vex
