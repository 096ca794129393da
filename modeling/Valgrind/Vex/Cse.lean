import Valgrind.Vex.Aliasing

/-!
# Common-subexpression elimination

`do_cse_BB` walks forwards over a flat block with two environments: `aenv`, the
expressions that some temporary already holds, and `tenv`, which renames temporaries
to older ones with the same value. An assignment of an available expression becomes a
copy. The only available expressions that can go stale are the indexed reads of the
guest state.

Constants in expressions are compared by `eqIRConst`, that is doubles by the `==` of
C, for which `0.0` and `-0.0` are the same.
-/

namespace Valgrind.Vex

/-- `AvailExpr`. -/
inductive AvailExpr where
  /-- `unop(tmp)`. -/
  | Ut (op : IROp) (arg : IRTemp)
  /-- `binop(tmp, tmp)`. -/
  | Btt (op : IROp) (arg1 arg2 : IRTemp)
  /-- `binop(tmp, const)`. -/
  | Btc (op : IROp) (arg1 : IRTemp) (con2 : IRConst)
  /-- `binop(const, tmp)`. -/
  | Bct (op : IROp) (con1 : IRConst) (arg2 : IRTemp)
  /-- An `F64i` constant. -/
  | Cf64i (f64i : BitVec 64)
  /-- `Mux0X(tmp, tmp, tmp)`. -/
  | Mttt (co e0 eX : IRTemp)
  /-- `GetI(descr, tmp, bias)`. -/
  | GetIt (descr : IRRegArray) (ix : IRTemp) (bias : Int)

/-- `eq_AvailExpr`. -/
def eqAvailExpr : AvailExpr → AvailExpr → Bool
  | .Ut op arg, .Ut op' arg' => op == op' && arg == arg'
  | .Btt op arg1 arg2, .Btt op' arg1' arg2' => op == op' && arg1 == arg1' && arg2 == arg2'
  | .Btc op arg1 con2, .Btc op' arg1' con2' => op == op' && arg1 == arg1' && eqIRConst con2 con2'
  | .Bct op con1 arg2, .Bct op' con1' arg2' => op == op' && arg2 == arg2' && eqIRConst con1 con1'
  | .Cf64i f64i, .Cf64i f64i' => f64i == f64i'
  | .Mttt co e0 eX, .Mttt co' e0' eX' => co == co' && e0 == e0' && eX == eX'
  | .GetIt descr ix bias, .GetIt descr' ix' bias' =>
    eqIRRegArray descr descr' && ix == ix' && bias == bias'
  | _, _ => false

/-- `availExpr_to_IRExpr`. -/
def availExprToIRExpr : AvailExpr → IRExpr
  | .Ut op arg => .unop op (.rdTmp arg)
  | .Btt op arg1 arg2 => .binop op (.rdTmp arg1) (.rdTmp arg2)
  | .Btc op arg1 con2 => .binop op (.rdTmp arg1) (.const con2)
  | .Bct op con1 arg2 => .binop op (.const con1) (.rdTmp arg2)
  | .Cf64i f64i => .const (.F64i f64i)
  | .Mttt co e0 eX => .mux0X (.rdTmp co) (.rdTmp e0) (.rdTmp eX)
  | .GetIt descr ix bias => .getI descr (.rdTmp ix) bias

/-- Rename the temporaries of the expression. -/
def AvailExpr.mapTemps (f : IRTemp → IRTemp) : AvailExpr → AvailExpr
  | .Ut op arg => .Ut op (f arg)
  | .Btt op arg1 arg2 => .Btt op (f arg1) (f arg2)
  | .Btc op arg1 con2 => .Btc op (f arg1) con2
  | .Bct op con1 arg2 => .Bct op con1 (f arg2)
  | .Cf64i f64i => .Cf64i f64i
  | .Mttt co e0 eX => .Mttt (f co) (f e0) (f eX)
  | .GetIt descr ix bias => .GetIt descr (f ix) bias

/-- The temporaries that the expression reads. -/
def AvailExpr.temps (ae : AvailExpr) : List IRTemp := (availExprToIRExpr ae).temps

/-- The constant operand of a binary operation. -/
def AvailExpr.con? : AvailExpr → Option IRConst
  | .Btc _ _ con2 => some con2
  | .Bct _ con1 _ => some con1
  | _ => none

/-- `subst_AvailExpr_Temp`. -/
def substAvailExprTemp (env : HashHW IRTemp) (tmp : IRTemp) : IRTemp :=
  match lookupHHW env tmp with
  | some res => res
  | none => tmp

/-- `subst_AvailExpr`. -/
def substAvailExpr (env : HashHW IRTemp) (ae : AvailExpr) : AvailExpr :=
  ae.mapTemps (substAvailExprTemp env)

/-- `irExpr_to_AvailExpr`. -/
def irExprToAvailExpr : IRExpr → Option AvailExpr
  | .unop op (.rdTmp arg) => some (.Ut op arg)
  | .binop op (.rdTmp arg1) (.rdTmp arg2) => some (.Btt op arg1 arg2)
  | .binop op (.rdTmp arg1) (.const con2) => some (.Btc op arg1 con2)
  | .binop op (.const con1) (.rdTmp arg2) => some (.Bct op con1 arg2)
  | .const (.F64i f64i) => some (.Cf64i f64i)
  | .mux0X (.rdTmp co) (.rdTmp e0) (.rdTmp eX) => some (.Mttt co e0 eX)
  | .getI descr (.rdTmp ix) bias => some (.GetIt descr ix bias)
  | _ => none

/-- The body of the loop over `aenv`: the statement may change what the available
expression reads. -/
def cseInvalidates (tyenv : IRTypeEnv) : IRStmt → AvailExpr → Result Bool
  | .dirty _, .GetIt _ _ _ | .store _ _ _, .GetIt _ _ _ | .mbe _, .GetIt _ _ _ => .ok true
  | .put offset data, .GetIt descr ix _ => do
    let ty ← typeOfIRExpr tyenv data
    let a ← getAliasingRelationIC descr (.rdTmp ix) offset ty
    return a != .NoAlias
  | .putI descr' ix' bias' _, .GetIt descr ix bias => do
    let a ← getAliasingRelationII descr (.rdTmp ix) bias descr' ix' bias'
    return a != .NoAlias
  | _, _ => .ok false

/-- Drop the entries of `aenv` that the statement may change. -/
def cseInvalidate (tyenv : IRTypeEnv) (st : IRStmt) :
    List (AvailExpr × IRTemp) → Result (List (AvailExpr × IRTemp))
  | [] => .ok []
  | (ae, q) :: aenv => do
    let invalidate ← cseInvalidates tyenv st ae
    let aenv ← cseInvalidate tyenv st aenv
    return if invalidate then aenv else (ae, q) :: aenv

/-- The environments of `do_cse_BB`. The keys of `aenv` are pointers to new
`AvailExpr`s, so a binding is always added at the end. -/
structure CseEnv where
  tenv : HashHW IRTemp
  aenv : List (AvailExpr × IRTemp)
  anyDone : Bool

/-- What `do_cse_BB` does with a statement. -/
def cseStmt (tyenv : IRTypeEnv) (env : CseEnv) (st : IRStmt) : Result (IRStmt × CseEnv) := do
  let aenv ← cseInvalidate tyenv st env.aenv
  match st with
  | .wrTmp t data =>
    match irExprToAvailExpr data with
    | none => return (st, { env with aenv := aenv })
    | some ae =>
      let eprime := substAvailExpr env.tenv ae
      match aenv.find? fun e => eqAvailExpr eprime e.1 with
      | some (_, q) =>
        return (.wrTmp t (.rdTmp q), ⟨addToHHW env.tenv t q, aenv, true⟩)
      | none =>
        return (.wrTmp t (availExprToIRExpr eprime),
          { env with aenv := aenv ++ [(eprime, t)] })
  | _ => return (st, { env with aenv := aenv })

/-- `do_cse_BB`: whether any changes were made, and the block afterwards. -/
def doCseBB (bb : IRSB) : Result (Bool × IRSB) := do
  let (stmts, env) ← Straight.scan (cseStmt bb.tyenv) ⟨newHHW, [], false⟩ bb.stmts
  return (env.anyDone, { bb with stmts := stmts })

/-! ## What the pass takes for equal -/

/-- Two temporaries that the pass takes to have the same value: they are assigned the
same expression, up to temporaries that the pass takes to have the same value and up
to `eqIRConst`, and nothing in between may change what the expression reads. -/
inductive Congruent (bb : IRSB) : IRTemp → IRTemp → Prop where
  | refl (t : IRTemp) : Congruent bb t t
  | symm {t u : IRTemp} (h : Congruent bb t u) : Congruent bb u t
  | trans {t u v : IRTemp} (h₁ : Congruent bb t u) (h₂ : Congruent bb u v) : Congruent bb t v
  | expr {pre mid post : List IRStmt} {t u : IRTemp} {e e' : IRExpr} {ae ae' : AvailExpr}
      {f f' : IRTemp → IRTemp}
      (hstmts : bb.stmts = pre ++ .wrTmp t e :: mid ++ .wrTmp u e' :: post)
      (he : irExprToAvailExpr e = some ae) (he' : irExprToAvailExpr e' = some ae')
      (hf : ∀ v ∈ ae.temps, Congruent bb v (f v)) (hf' : ∀ v ∈ ae'.temps, Congruent bb v (f' v))
      (heq : eqAvailExpr (ae'.mapTemps f') (ae.mapTemps f) = true)
      (hmid : ∀ st ∈ mid, cseInvalidates bb.tyenv st (ae.mapTemps f) = .ok false) :
      Congruent bb t u

/-- The constants are a positive and a negative zero. -/
def OppositeZeroes (c c' : Option IRConst) : Prop :=
  ∃ a b, c = some (.F64 a) ∧ c' = some (.F64 b) ∧ isZeroF64 a = true ∧ isZeroF64 b = true ∧ a ≠ b

/-- The block assigns the same operation twice, with the same temporary as one operand as
far as the pass can see, and with a zero as the other operand, but not with the same zero. -/
def ConfusesZeroes (bb : IRSB) : Prop :=
  ∃ pre mid post t u e e' ae ae' f f',
    bb.stmts = pre ++ .wrTmp t e :: mid ++ .wrTmp u e' :: post ∧
      irExprToAvailExpr e = some ae ∧ irExprToAvailExpr e' = some ae' ∧
      (∀ v ∈ ae.temps, Congruent bb v (f v)) ∧ (∀ v ∈ ae'.temps, Congruent bb v (f' v)) ∧
      eqAvailExpr (ae'.mapTemps f') (ae.mapTemps f) = true ∧ OppositeZeroes ae'.con? ae.con?

/-! ## Available expressions -/

section

variable {M : Interp} {tyenv : IRTypeEnv} {a b ae : AvailExpr} {e : IRExpr} {st : IRStmt} {s : State}

theorem irExprToAvailExpr_inv (h : irExprToAvailExpr e = some ae) : availExprToIRExpr ae = e := by
  unfold irExprToAvailExpr at h
  split at h <;> cases h <;> rfl

@[simp] theorem con?_mapTemps (f : IRTemp → IRTemp) : (ae.mapTemps f).con? = ae.con? := by
  cases ae <;> rfl

theorem eqF64_eq {x y : BitVec 64} (h : eqF64 x y = true) :
    x = y ∨ isZeroF64 x = true ∧ isZeroF64 y = true := by
  simp only [eqF64, Bool.and_eq_true, Bool.or_eq_true, beq_iff_eq] at h
  exact h.2

/-- Constants that `eqIRConst` takes for equal are equal, or zeroes of either sign. -/
theorem eqIRConst_eq {c d : IRConst} (h : eqIRConst c d = true) :
    c = d ∨ OppositeZeroes (some c) (some d) := by
  unfold eqIRConst at h
  split at h
  case h_6 x y =>
    by_cases hxy : x = y
    · exact .inl (congrArg _ hxy)
    · rcases eqF64_eq h with heq | ⟨hx, hy⟩
      · exact absurd heq hxy
      · exact .inr ⟨x, y, rfl, rfl, hx, hy, hxy⟩
  case h_9 => exact nomatch h
  all_goals exact .inl (congrArg _ (eq_of_beq h))

/-- Expressions that `eq_AvailExpr` takes for equal are equal, but for zeroes. -/
theorem eqAvailExpr_eq (h : eqAvailExpr a b = true) :
    a = b ∨ OppositeZeroes a.con? b.con? := by
  unfold eqAvailExpr at h
  split at h
  case h_3 =>
    simp only [Bool.and_eq_true, beq_iff_eq] at h
    obtain ⟨⟨rfl, rfl⟩, hc⟩ := h
    exact (eqIRConst_eq hc).imp (congrArg _) id
  case h_4 =>
    simp only [Bool.and_eq_true, beq_iff_eq] at h
    obtain ⟨⟨rfl, rfl⟩, hc⟩ := h
    exact (eqIRConst_eq hc).imp (fun hc => by rw [hc]) id
  case h_7 =>
    simp only [Bool.and_eq_true, beq_iff_eq, eqIRRegArray_iff] at h
    obtain ⟨⟨rfl, rfl⟩, rfl⟩ := h
    exact .inl rfl
  case h_8 => exact nomatch h
  all_goals
    simp only [Bool.and_eq_true, beq_iff_eq] at h
    simp [h]

/-- Renaming temporaries to others with the same value keeps the value. -/
theorem evalExpr_mapTemps {ρ : IRTemp → Val} {w : World} {f : IRTemp → IRTemp}
    (h : ∀ t ∈ ae.temps, ρ (f t) = ρ t) :
    evalExpr M ρ w (availExprToIRExpr (ae.mapTemps f)) = evalExpr M ρ w (availExprToIRExpr ae) := by
  have hcomp : evalExpr M ρ w (availExprToIRExpr (ae.mapTemps f)) =
      evalExpr M (fun t => ρ (f t)) w (availExprToIRExpr ae) := by
    cases ae <;> rfl
  rw [hcomp]
  exact evalExpr_congr _ h

theorem mem_temps_mapTemps {f : IRTemp → IRTemp} {t : IRTemp} (h : t ∈ (ae.mapTemps f).temps) :
    ∃ u ∈ ae.temps, t = f u := by
  cases ae <;>
    simp_all [AvailExpr.temps, availExprToIRExpr, AvailExpr.mapTemps, IRExpr.temps]

/-- **What the loop over `aenv` is for**: an available expression that the statement does
not invalidate keeps its value, if the statement assigns none of its temporaries. -/
theorem evalExpr_of_not_invalidated (h : cseInvalidates tyenv st ae = .ok false)
    (hdef : ∀ t ∈ ae.temps, st.def? ≠ some t) :
    evalExpr M (execStmt M tyenv s st).1.tmps (execStmt M tyenv s st).1.world (availExprToIRExpr ae) =
      evalExpr M s.tmps s.world (availExprToIRExpr ae) := by
  have htmps : ∀ t ∈ ae.temps, (execStmt M tyenv s st).1.tmps t = s.tmps t :=
    fun t ht => execStmt_tmps_of_ne (hdef t ht)
  rw [evalExpr_congr (availExprToIRExpr ae) htmps]
  cases ae with
  | GetIt descr ix bias =>
    simp only [availExprToIRExpr, evalExpr]
    refine readGuest_congr fun o hlo hhi => ?_
    obtain ⟨hbase, hend⟩ := regOffset_bounds descr (s.tmps ix) bias
    cases st with
    | dirty | store | mbe => exact nomatch h
    | noOp | iMark | abiHint | wrTmp | exit => rfl
    | put offset data =>
      simp only [cseInvalidates, bind_eq_ok, pure_eq_ok, bne_eq_false_iff_eq] at h
      obtain ⟨ty, hty, a, ha, rfl⟩ := h
      obtain rfl := typeOfIRExpr_eq_ok hty
      have hno := getAliasingRelationIC_noAlias ha
      exact writeGuest_of_outside (by omega)
    | putI descr' ix' bias' data =>
      simp only [cseInvalidates, bind_eq_ok, pure_eq_ok, bne_eq_false_iff_eq] at h
      obtain ⟨a, ha, rfl⟩ := h
      have hno := getAliasingRelationII_noAlias (s.tmps ix) (evalExpr M s.tmps s.world ix') ha
        fun hatom => by rw [eqIRAtom_rdTmp hatom, evalExpr]
      exact writeGuest_of_outside (by omega)
  | _ => rfl

theorem mem_cseInvalidate {aenv aenv' : List (AvailExpr × IRTemp)} {q : IRTemp}
    (h : cseInvalidate tyenv st aenv = .ok aenv') (hm : (a, q) ∈ aenv') :
    (a, q) ∈ aenv ∧ cseInvalidates tyenv st a = .ok false := by
  induction aenv generalizing aenv' with
  | nil =>
    cases h
    exact nomatch hm
  | cons e aenv ih =>
    obtain ⟨a', q'⟩ := e
    simp only [cseInvalidate, bind_eq_ok, pure_eq_ok] at h
    obtain ⟨inv, hinv, rest, hrest, rfl⟩ := h
    cases inv with
    | true =>
      obtain ⟨hm, ha⟩ := ih hrest hm
      exact ⟨List.mem_cons_of_mem _ hm, ha⟩
    | false =>
      rcases List.mem_cons.mp hm with heq | hm
      · cases heq
        exact ⟨List.mem_cons_self, hinv⟩
      · obtain ⟨hm, ha⟩ := ih hrest hm
        exact ⟨List.mem_cons_of_mem _ hm, ha⟩

theorem substAvailExprTemp_cases (tenv : HashHW IRTemp) (t : IRTemp) :
    substAvailExprTemp tenv t = t ∨ (t, substAvailExprTemp tenv t) ∈ tenv := by
  unfold substAvailExprTemp
  split
  · rename_i q hq
    exact .inr (mem_of_lookupHHW hq)
  · exact .inl rfl

/-! ## The environments -/

/-- Where the entries of the environments come from: `tenv` maps temporaries to congruent
ones, and an entry of `aenv` is the expression of an earlier assignment, renamed. -/
structure Traced (bb : IRSB) (done : List IRStmt) (env : CseEnv) : Prop where
  tenv : ∀ t q, (t, q) ∈ env.tenv → Congruent bb t q
  aenv : ∀ a q, (a, q) ∈ env.aenv → ∃ pre mid e ae f, done = pre ++ .wrTmp q e :: mid ∧
    irExprToAvailExpr e = some ae ∧ (∀ v ∈ ae.temps, Congruent bb v (f v)) ∧ a = ae.mapTemps f ∧
    ∀ st ∈ mid, cseInvalidates bb.tyenv st a = .ok false

/-- The environments are right: the temporaries that `tenv` maps to one another have the
same value, the temporaries of `aenv` hold their expressions, and none of the
temporaries is assigned again. -/
structure CseEnvOk (M : Interp) (env : CseEnv) (rest : List IRStmt) (s : State) : Prop where
  tenv_stable : ∀ t q, (t, q) ∈ env.tenv → t ∉ defsOf rest ∧ q ∉ defsOf rest
  tenv_eq : ∀ t q, (t, q) ∈ env.tenv → s.tmps q = s.tmps t
  aenv_stable : ∀ a q, (a, q) ∈ env.aenv → q ∉ defsOf rest ∧ ∀ t ∈ a.temps, t ∉ defsOf rest
  aenv_eq : ∀ a q, (a, q) ∈ env.aenv →
    s.tmps q = evalExpr M s.tmps s.world (availExprToIRExpr a)

theorem traced_new (bb : IRSB) : Traced bb [] ⟨newHHW, [], false⟩ :=
  ⟨fun _ _ h => (nomatch h : False).elim, fun _ _ h => (nomatch h : False).elim⟩

theorem cseEnvOk_new (M : Interp) (rest : List IRStmt) (s : State) :
    CseEnvOk M ⟨newHHW, [], false⟩ rest s :=
  ⟨fun _ _ h => (nomatch h : False).elim, fun _ _ h => (nomatch h : False).elim,
    fun _ _ h => (nomatch h : False).elim, fun _ _ h => (nomatch h : False).elim⟩

end

section Step

variable {M : Interp} {bb : IRSB} {tyenv : IRTypeEnv} {env : CseEnv} {st : IRStmt}
  {done rest : List IRStmt} {s : State} {aenv : List (AvailExpr × IRTemp)}

/-- After a statement that has been looked at, the entries that are left are still traced. -/
theorem Traced.step (h : Traced bb done env)
    (hinv : cseInvalidate bb.tyenv st env.aenv = .ok aenv) :
    Traced bb (done ++ [st]) { env with aenv := aenv } where
  tenv := h.tenv
  aenv a q hm := by
    obtain ⟨hm', ha⟩ := mem_cseInvalidate hinv hm
    obtain ⟨pre, mid, e, ae, f, rfl, he, hf, rfl, hmid⟩ := h.aenv a q hm'
    refine ⟨pre, mid ++ [st], e, ae, f, by simp, he, hf, rfl, fun st' hst' => ?_⟩
    rcases List.mem_append.mp hst' with hst' | hst'
    · exact hmid st' hst'
    · rw [List.mem_singleton.mp hst']
      exact ha

/-- The temporaries that `tenv` renames keep their names in the congruence. -/
theorem Traced.congruent (h : Traced bb done env) (t : IRTemp) :
    Congruent bb t (substAvailExprTemp env.tenv t) := by
  rcases substAvailExprTemp_cases env.tenv t with heq | hm
  · rw [heq]
    exact .refl t
  · exact h.tenv _ _ hm

/-- After any statement the entries that are left are still right. -/
theorem CseEnvOk.step (h : CseEnvOk M env (st :: rest) s)
    (hinv : cseInvalidate tyenv st env.aenv = .ok aenv) :
    CseEnvOk M { env with aenv := aenv } rest (execStmt M tyenv s st).1 where
  tenv_stable t q hm :=
    ⟨not_mem_defsOf_tail (h.tenv_stable t q hm).1, not_mem_defsOf_tail (h.tenv_stable t q hm).2⟩
  tenv_eq t q hm := by
    obtain ⟨ht, hq⟩ := h.tenv_stable t q hm
    rw [execStmt_tmps_of_ne (ne_def_of_not_mem ht), execStmt_tmps_of_ne (ne_def_of_not_mem hq)]
    exact h.tenv_eq t q hm
  aenv_stable a q hm := by
    obtain ⟨hq, ha⟩ := h.aenv_stable a q (mem_cseInvalidate hinv hm).1
    exact ⟨not_mem_defsOf_tail hq, fun t ht => not_mem_defsOf_tail (ha t ht)⟩
  aenv_eq a q hm := by
    obtain ⟨hm', hlive⟩ := mem_cseInvalidate hinv hm
    obtain ⟨hq, ha⟩ := h.aenv_stable a q hm'
    rw [execStmt_tmps_of_ne (ne_def_of_not_mem hq),
      evalExpr_of_not_invalidated hlive fun t ht => ne_def_of_not_mem (ha t ht)]
    exact h.aenv_eq a q hm'

/-- Renaming by `tenv` changes neither the value of a temporary nor that it is not
assigned any more. -/
theorem CseEnvOk.subst (h : CseEnvOk M env rest s) {t : IRTemp} (ht : t ∉ defsOf rest) :
    s.tmps (substAvailExprTemp env.tenv t) = s.tmps t ∧
      substAvailExprTemp env.tenv t ∉ defsOf rest := by
  rcases substAvailExprTemp_cases env.tenv t with heq | hm
  · rw [heq]
    exact ⟨rfl, ht⟩
  · exact ⟨h.tenv_eq _ _ hm, (h.tenv_stable _ _ hm).2⟩

/-- **One step of the pass** on a block that confuses no zeroes: the statement it leaves
does what the statement did, and the environments stay right. -/
theorem cseStmt_spec (hzero : ¬ ConfusesZeroes bb) {st' : IRStmt} {env' : CseEnv}
    (hstmts : bb.stmts = done ++ st :: rest) (htr : Traced bb done env)
    (henv : CseEnvOk M env (st :: rest) s) (huses : ∀ t ∈ st.uses, t ∉ defsOf (st :: rest))
    (hdef : ∀ t, st.def? = some t → t ∉ defsOf rest)
    (h : cseStmt bb.tyenv env st = .ok (st', env')) :
    execStmt M bb.tyenv s st' = execStmt M bb.tyenv s st ∧
      Traced bb (done ++ [st]) env' ∧ CseEnvOk M env' rest (execStmt M bb.tyenv s st).1 := by
  simp only [cseStmt, bind_eq_ok] at h
  obtain ⟨aenv, hinv, h⟩ := h
  have htr' := htr.step hinv
  have henv' := henv.step (M := M) hinv
  split at h
  swap
  · cases h
    exact ⟨rfl, htr', henv'⟩
  rename_i t data
  split at h
  · cases h
    exact ⟨rfl, htr', henv'⟩
  rename_i ae hae
  have hdata := irExprToAvailExpr_inv hae
  -- the renamed expression has the value of the data, and is not disturbed by the assignment
  have hval : evalExpr M s.tmps s.world (availExprToIRExpr (substAvailExpr env.tenv ae)) =
      evalExpr M s.tmps s.world data := by
    rw [← hdata]
    refine evalExpr_mapTemps fun u hu => (henv.subst (huses u ?_)).1
    rw [AvailExpr.temps, hdata] at hu
    exact hu
  have hstable : ∀ u ∈ (substAvailExpr env.tenv ae).temps, u ∉ defsOf (.wrTmp t data :: rest) := by
    intro u hu
    obtain ⟨v, hv, rfl⟩ := mem_temps_mapTemps hu
    rw [AvailExpr.temps, hdata] at hv
    exact (henv.subst (huses v hv)).2
  split at h
  · -- an available expression: a copy
    rename_i a q hfound
    cases h
    have hm := List.mem_of_find?_eq_some hfound
    have heq : eqAvailExpr (substAvailExpr env.tenv ae) a = true := by
      simpa using List.find?_some hfound
    obtain ⟨hm', hlive⟩ := mem_cseInvalidate hinv hm
    obtain ⟨pre, mid, e, ae₀, f, hdone, he, hf, rfl, hmid⟩ := htr.aenv a q hm'
    have hsplit : bb.stmts = pre ++ .wrTmp q e :: mid ++ .wrTmp t data :: rest := by
      rw [hstmts, hdone]
    have hsame : substAvailExpr env.tenv ae = ae₀.mapTemps f := by
      rcases eqAvailExpr_eq heq with hsame | hopp
      · exact hsame
      · refine absurd ⟨pre, mid, rest, q, t, e, data, ae₀, ae, f, _, hsplit, he, hae, hf,
          fun v _ => htr.congruent v, heq, ?_⟩ hzero
        simpa [substAvailExpr] using hopp
    have hq := (henv.aenv_stable _ q hm').1
    have hcopy : evalExpr M s.tmps s.world data = s.tmps q := by
      rw [← hval, hsame, henv.aenv_eq _ q hm']
    refine ⟨by simp only [execStmt, effect, evalExpr, hcopy], ⟨fun t' q' hm => ?_, htr'.aenv⟩,
      ⟨fun t' q' hm => ?_, fun t' q' hm => ?_, henv'.aenv_stable, henv'.aenv_eq⟩⟩
    · rcases mem_addToHHW hm with heq' | hm
      · cases heq'
        exact (Congruent.expr hsplit he hae hf (fun v _ => htr.congruent v) heq hmid).symm
      · exact htr.tenv t' q' hm
    · rcases mem_addToHHW hm with heq' | hm
      · cases heq'
        exact ⟨hdef t rfl, not_mem_defsOf_tail hq⟩
      · exact henv'.tenv_stable t' q' hm
    · rcases mem_addToHHW hm with heq' | hm
      · cases heq'
        rw [execStmt_tmps_of_ne (ne_def_of_not_mem hq)]
        simp only [execStmt, effect, assign_self, hcopy]
      · exact henv'.tenv_eq t' q' hm
  · -- a new available expression
    cases h
    have key_or : ∀ {a' q'}, (a', q') ∈ aenv ++ [(substAvailExpr env.tenv ae, t)] →
        (a', q') ∈ aenv ∨ (a' = substAvailExpr env.tenv ae ∧ q' = t) := fun hm =>
      (List.mem_append.mp hm).imp id fun hm => Prod.mk.inj (List.mem_singleton.mp hm)
    refine ⟨by simp only [execStmt, effect, hval], ⟨htr'.tenv, fun a' q' hm => ?_⟩,
      ⟨henv'.tenv_stable, henv'.tenv_eq, fun a' q' hm => ?_, fun a' q' hm => ?_⟩⟩
    · rcases key_or hm with hm | ⟨rfl, rfl⟩
      · exact htr'.aenv a' q' hm
      · exact ⟨done, [], data, ae, _, rfl, hae, fun v _ => htr.congruent v, rfl,
          fun _ hst => (by cases hst)⟩
    · rcases key_or hm with hm | ⟨rfl, rfl⟩
      · exact henv'.aenv_stable a' q' hm
      · exact ⟨hdef q' rfl, fun u hu => not_mem_defsOf_tail (hstable u hu)⟩
    · rcases key_or hm with hm | ⟨rfl, rfl⟩
      · exact henv'.aenv_eq a' q' hm
      · have hkeep : ∀ u ∈ (availExprToIRExpr (substAvailExpr env.tenv ae)).temps,
            (execStmt M bb.tyenv s (.wrTmp q' data)).1.tmps u = s.tmps u :=
          fun u hu => execStmt_tmps_of_ne (ne_def_of_not_mem (hstable u hu))
        rw [evalExpr_congr _ hkeep]
        simp only [execStmt, effect, assign_self, hval]

end Step

/-! ## The pass -/

/-- The elements of the indexed reads in `aenv` have a size, and their biases are in range. -/
def GetItsFit (env : CseEnv) : Prop :=
  ∀ descr ix bias q, (AvailExpr.GetIt descr ix bias, q) ∈ env.aenv →
    (∃ sz, sizeofIRType descr.elemTy = .ok sz) ∧ -10 * (descr.nElems : Int) ≤ bias

section Returns

variable {tyenv : IRTypeEnv} {gWordTy : IRType} {env : CseEnv} {st : IRStmt}

theorem cseInvalidates_returns (hflat : isFlatIRStmt st = true) (htc : tcStmt tyenv gWordTy st = true)
    (hfit : AccessFits tyenv st) {a : AvailExpr}
    (ha : ∀ descr ix bias, a = .GetIt descr ix bias →
      (∃ sz, sizeofIRType descr.elemTy = .ok sz) ∧ -10 * (descr.nElems : Int) ≤ bias) :
    ∃ inv, cseInvalidates tyenv st a = .ok inv := by
  unfold cseInvalidates
  split
  case h_4 offset data descr ix bias =>
    obtain ⟨sz, hsz⟩ := hfit
    obtain ⟨⟨sz', hsz'⟩, -⟩ := ha _ _ _ rfl
    obtain ⟨al, hal⟩ := getAliasingRelationIC_returns (.rdTmp ix) offset hsz' hsz
    simp only [tcStmt, Bool.and_eq_true] at htc
    rw [hasOtherType_returns htc.2, ok_bind, hal]
    exact ⟨_, rfl⟩
  case h_5 descr' ix' bias' data descr ix bias =>
    obtain ⟨⟨sz, hsz⟩, hbias⟩ := hfit
    obtain ⟨⟨sz', hsz'⟩, hb⟩ := ha _ _ _ rfl
    simp only [isFlatIRStmt, Bool.and_eq_true] at hflat
    obtain ⟨al, hal⟩ := getAliasingRelationII_returns hsz' hsz
      (show (IRExpr.rdTmp ix).isIRAtom = true from rfl) hflat.1 hb hbias
    rw [hal]
    exact ⟨_, rfl⟩
  all_goals exact ⟨_, rfl⟩

theorem cseInvalidate_returns {aenv : List (AvailExpr × IRTemp)}
    (h : ∀ a q, (a, q) ∈ aenv → ∃ inv, cseInvalidates tyenv st a = .ok inv) :
    ∃ aenv', cseInvalidate tyenv st aenv = .ok aenv' := by
  induction aenv with
  | nil => exact ⟨[], rfl⟩
  | cons e aenv ih =>
    obtain ⟨inv, hinv⟩ := h e.1 e.2 List.mem_cons_self
    obtain ⟨aenv', haenv'⟩ := ih fun a q hm => h a q (List.mem_cons_of_mem _ hm)
    rw [cseInvalidate, hinv, haenv']
    exact ⟨_, rfl⟩

/-- The pass returns on well-typed flat statements whose accesses to the guest state fit. -/
theorem cseStmt_returns (hflat : isFlatIRStmt st = true) (htc : tcStmt tyenv gWordTy st = true)
    (hfit : AccessFits tyenv st) (henv : GetItsFit env) :
    ∃ st' env', cseStmt tyenv env st = .ok (st', env') ∧ GetItsFit env' := by
  obtain ⟨aenv, hinv⟩ := cseInvalidate_returns
    fun a q (hm : (a, q) ∈ env.aenv) => cseInvalidates_returns hflat htc hfit fun descr ix bias ha =>
      henv descr ix bias q (ha ▸ hm)
  have hold : ∀ descr ix bias q, (AvailExpr.GetIt descr ix bias, q) ∈ aenv →
      (∃ sz, sizeofIRType descr.elemTy = .ok sz) ∧ -10 * (descr.nElems : Int) ≤ bias :=
    fun descr ix bias q hm => henv descr ix bias q (mem_cseInvalidate hinv hm).1
  rw [cseStmt, hinv, ok_bind]
  split
  swap
  · exact ⟨_, _, rfl, hold⟩
  rename_i t data
  split
  · exact ⟨_, _, rfl, hold⟩
  rename_i ae hae
  dsimp only
  split
  · exact ⟨_, _, rfl, hold⟩
  · refine ⟨_, _, rfl, fun descr ix bias q hm => ?_⟩
    rcases List.mem_append.mp hm with hm | hm
    · exact hold descr ix bias q hm
    · obtain ⟨hae', -⟩ := Prod.mk.inj (List.mem_singleton.mp hm)
      cases ae with
      | GetIt descr' ix' bias' =>
        cases hae'
        rw [← irExprToAvailExpr_inv hae] at hfit
        exact hfit
      | _ => exact nomatch hae'

end Returns

/-- `t0 = GET:I32(0); t1 = Add32(t0, 1); t2 = Add32(t0, 1); PUT(4) = t2`. -/
def addTwiceBB : IRSB :=
  blockOf [.I32, .I32, .I32] [.wrTmp 0 (.get 0 .I32),
    .wrTmp 1 (.binop (.add .w32) (.rdTmp 0) (.const (.U32 1))),
    .wrTmp 2 (.binop (.add .w32) (.rdTmp 0) (.const (.U32 1))), .put 4 (.rdTmp 2)]

/-- `Iop_SqrtF64`, of a rounding mode and a double. -/
def sqrtF64 : IROp := .other 0x140a1 .F64 [.I32, .F64]

/-- `t0 = GET:I32(0); t1 = SqrtF64(t0, 0.0); t2 = SqrtF64(t0, -0.0); PUT(8) = t1; PUT(16) = t2`. -/
def twoZeroesBB : IRSB :=
  blockOf [.I32, .F64, .F64] [.wrTmp 0 (.get 0 .I32),
    .wrTmp 1 (.binop sqrtF64 (.rdTmp 0) (.const (.F64 0))),
    .wrTmp 2 (.binop sqrtF64 (.rdTmp 0) (.const (.F64 0x8000000000000000))),
    .put 8 (.rdTmp 1), .put 16 (.rdTmp 2)]

end Valgrind.Vex
