import Valgrind.Vex.Sanity

/-!
# Flattening

`flatten_BB` rewrites a block so that the operands of everything are atoms: nested
expressions are computed into new temporaries, in front of the statement they come
from. `IRExpr_Binop` and the other constructors take the flattened operands as
arguments, and C leaves open in which order these are evaluated; `ltr` says whether the
compiler goes from left to right or from right to left.
-/

namespace Valgrind.Vex

/-! ## The pass -/

/-- `newIRTemp`. -/
def newIRTemp (bb : IRSB) (ty : IRType) : IRTemp × IRSB :=
  (bb.tyenv.length, { bb with tyenv := bb.tyenv ++ [ty] })

/-- `addStmtToIRSB`. -/
def addStmtToIRSB (bb : IRSB) (st : IRStmt) : IRSB := { bb with stmts := bb.stmts ++ [st] }

/-- `isFlat`. -/
def isFlat : IRExpr → Bool
  | .get _ _ => true
  | .binop _ arg1 arg2 => arg1.isIRAtom && arg2.isIRAtom
  | .load _ _ addr => addr.isIRAtom
  | _ => false

/-- Two arguments of a C function, evaluated in one order or the other. -/
def evalBoth {α β : Type} (ltr : Bool) (f : IRSB → Result (α × IRSB)) (g : IRSB → Result (β × IRSB))
    (bb : IRSB) : Result ((α × β) × IRSB) :=
  if ltr then do
    let (a, bb) ← f bb
    let (b, bb) ← g bb
    return ((a, b), bb)
  else do
    let (b, bb) ← g bb
    let (a, bb) ← f bb
    return ((a, b), bb)

mutual

/-- `flatten_Expr`: an atom with the value of the expression, and the block with the
assignments it needs added at the end. -/
def flattenExpr (ltr : Bool) : IRExpr → IRSB → Result (IRExpr × IRSB)
  | .getI descr ix bias, bb => do
    let ty ← typeOfIRExpr bb.tyenv (.getI descr ix bias)
    let (t1, bb) := newIRTemp bb ty
    let (ix, bb) ← flattenExpr ltr ix bb
    return (.rdTmp t1, addStmtToIRSB bb (.wrTmp t1 (.getI descr ix bias)))
  | .get offset ty, bb => do
    let ty' ← typeOfIRExpr bb.tyenv (.get offset ty)
    let (t1, bb) := newIRTemp bb ty'
    return (.rdTmp t1, addStmtToIRSB bb (.wrTmp t1 (.get offset ty)))
  | .qop op arg1 arg2 arg3 arg4, bb => do
    let ty ← typeOfIRExpr bb.tyenv (.qop op arg1 arg2 arg3 arg4)
    let (t1, bb) := newIRTemp bb ty
    let ((e1, e2, e3, e4), bb) ← evalBoth ltr (flattenExpr ltr arg1) (evalBoth ltr (flattenExpr ltr arg2)
      (evalBoth ltr (flattenExpr ltr arg3) (flattenExpr ltr arg4))) bb
    return (.rdTmp t1, addStmtToIRSB bb (.wrTmp t1 (.qop op e1 e2 e3 e4)))
  | .triop op arg1 arg2 arg3, bb => do
    let ty ← typeOfIRExpr bb.tyenv (.triop op arg1 arg2 arg3)
    let (t1, bb) := newIRTemp bb ty
    let ((e1, e2, e3), bb) ← evalBoth ltr (flattenExpr ltr arg1)
      (evalBoth ltr (flattenExpr ltr arg2) (flattenExpr ltr arg3)) bb
    return (.rdTmp t1, addStmtToIRSB bb (.wrTmp t1 (.triop op e1 e2 e3)))
  | .binop op arg1 arg2, bb => do
    let ty ← typeOfIRExpr bb.tyenv (.binop op arg1 arg2)
    let (t1, bb) := newIRTemp bb ty
    let ((e1, e2), bb) ← evalBoth ltr (flattenExpr ltr arg1) (flattenExpr ltr arg2) bb
    return (.rdTmp t1, addStmtToIRSB bb (.wrTmp t1 (.binop op e1 e2)))
  | .unop op arg, bb => do
    let ty ← typeOfIRExpr bb.tyenv (.unop op arg)
    let (t1, bb) := newIRTemp bb ty
    let (e, bb) ← flattenExpr ltr arg bb
    return (.rdTmp t1, addStmtToIRSB bb (.wrTmp t1 (.unop op e)))
  | .load en lty addr, bb => do
    let ty ← typeOfIRExpr bb.tyenv (.load en lty addr)
    let (t1, bb) := newIRTemp bb ty
    let (e, bb) ← flattenExpr ltr addr bb
    return (.rdTmp t1, addStmtToIRSB bb (.wrTmp t1 (.load en lty e)))
  | .ccall cee retty args, bb => do
    let ty ← typeOfIRExpr bb.tyenv (.ccall cee retty args)
    let (newargs, bb) ← flattenArgs ltr args bb
    let (t1, bb) := newIRTemp bb ty
    return (.rdTmp t1, addStmtToIRSB bb (.wrTmp t1 (.ccall cee retty newargs)))
  | .mux0X cond expr0 exprX, bb => do
    let ty ← typeOfIRExpr bb.tyenv (.mux0X cond expr0 exprX)
    let (t1, bb) := newIRTemp bb ty
    let ((c, e0, eX), bb) ← evalBoth ltr (flattenExpr ltr cond)
      (evalBoth ltr (flattenExpr ltr expr0) (flattenExpr ltr exprX)) bb
    return (.rdTmp t1, addStmtToIRSB bb (.wrTmp t1 (.mux0X c e0 eX)))
  | .const con, bb => do
    let ty ← typeOfIRExpr bb.tyenv (.const con)
    match con with
    | .F64i _ =>
      let (t1, bb) := newIRTemp bb ty
      return (.rdTmp t1, addStmtToIRSB bb (.wrTmp t1 (.const con)))
    | _ => return (.const con, bb)
  | .rdTmp tmp, bb => do
    let _ ← typeOfIRExpr bb.tyenv (.rdTmp tmp)
    return (.rdTmp tmp, bb)

/-- The loop over the arguments of a call. -/
def flattenArgs (ltr : Bool) : List IRExpr → IRSB → Result (List IRExpr × IRSB)
  | [], bb => .ok ([], bb)
  | e :: es, bb => do
    let (e, bb) ← flattenExpr ltr e bb
    let (es, bb) ← flattenArgs ltr es bb
    return (e :: es, bb)

end

/-- `flatten_Stmt`. -/
def flattenStmt (ltr : Bool) (bb : IRSB) : IRStmt → Result IRSB
  | .put offset data =>
    if data.isIRAtom = true then
      .ok (addStmtToIRSB bb (.put offset data))
    else do
      let (e1, bb) ← flattenExpr ltr data bb
      return addStmtToIRSB bb (.put offset e1)
  | .putI descr ix bias data => do
    let (e1, bb) ← flattenExpr ltr ix bb
    let (e2, bb) ← flattenExpr ltr data bb
    return addStmtToIRSB bb (.putI descr e1 bias e2)
  | .wrTmp tmp data =>
    if isFlat data = true then
      .ok (addStmtToIRSB bb (.wrTmp tmp data))
    else do
      let (e1, bb) ← flattenExpr ltr data bb
      return addStmtToIRSB bb (.wrTmp tmp e1)
  | .store en addr data => do
    let (e1, bb) ← flattenExpr ltr addr bb
    let (e2, bb) ← flattenExpr ltr data bb
    return addStmtToIRSB bb (.store en e1 e2)
  | .dirty d => do
    let (mAddr, bb) ← match d.mFx, d.mAddr with
      | .None, mAddr => do
        assertThat (mAddr.isNone = true)
        pure (mAddr, bb)
      | _, some a => do
        let (a, bb) ← flattenExpr ltr a bb
        pure (some a, bb)
      -- `flatten_Expr(bb, NULL)`
      | _, none => .error .fault
    let (guard, bb) ← flattenExpr ltr d.guard bb
    let (args, bb) ← flattenArgs ltr d.args bb
    return addStmtToIRSB bb (.dirty { d with mAddr := mAddr, guard := guard, args := args })
  | .noOp => .ok (addStmtToIRSB bb .noOp)
  | .mbe event => .ok (addStmtToIRSB bb (.mbe event))
  | .iMark addr len => .ok (addStmtToIRSB bb (.iMark addr len))
  | .abiHint base len nia => do
    let (e1, bb) ← flattenExpr ltr base bb
    let (e2, bb) ← flattenExpr ltr nia bb
    return addStmtToIRSB bb (.abiHint e1 len e2)
  | .exit guard jk dst => do
    let (e1, bb) ← flattenExpr ltr guard bb
    return addStmtToIRSB bb (.exit e1 jk dst)

/-- The loop of `flatten_BB`. -/
def flattenStmts (ltr : Bool) : IRSB → List IRStmt → Result IRSB
  | bb, [] => .ok bb
  | bb, st :: rest => do
    let bb ← flattenStmt ltr bb st
    flattenStmts ltr bb rest

/-- `flatten_BB`. -/
def flattenBB (ltr : Bool) (bbIn : IRSB) : Result IRSB := do
  let out ← flattenStmts ltr { tyenv := bbIn.tyenv, stmts := [], next := bbIn.next, jumpkind := bbIn.jumpkind }
    bbIn.stmts
  let (next, out) ← flattenExpr ltr bbIn.next out
  return { out with next := next, jumpkind := bbIn.jumpkind }

/-! ## What is emitted -/

/-- `bb'` is `bb` with the assignments `new` added: flat, well typed, of new temporaries,
reading only what is assigned before. `ds` are temporaries assigned before. -/
structure Emits (gWordTy : IRType) (ds : List IRTemp) (bb bb' : IRSB) (new : List IRStmt) : Prop where
  stmts : bb'.stmts = bb.stmts ++ new
  tyenv : ∃ tys, bb'.tyenv = bb.tyenv ++ tys
  range : ∀ t ∈ ds, t < bb.tyenv.length
  assigns : ∀ st ∈ new, ∃ t e, st = .wrTmp t e
  flat : ∀ st ∈ new, isFlatIRStmt st = true
  typed : ∀ st ∈ new, tcStmt bb'.tyenv gWordTy st = true
  fresh : ∀ t ∈ defsOf new, bb.tyenv.length ≤ t ∧ t < bb'.tyenv.length
  nodup : (defsOf new).Nodup
  uses : UsesDefined ds new (.const (.U1 false))

/-- The atom `e'` has the type and, after the assignments `new`, the value of `e`. -/
structure Stands (ds : List IRTemp) (bb bb' : IRSB) (new : List IRStmt) (e e' : IRExpr) : Prop where
  atom : e'.isIRAtom = true
  type : typeOfIRExpr bb'.tyenv e' = typeOfIRExpr bb.tyenv e
  temps : ∀ t ∈ e'.temps, t ∈ defsOf new ++ ds
  eval : ∀ M T s, evalExpr M (runStmts M T s new).1.tmps s.world e' = evalExpr M s.tmps s.world e

/-- The expression is well typed and reads only what is assigned. -/
structure Ready (gWordTy : IRType) (ds : List IRTemp) (bb : IRSB) (e : IRExpr) : Prop where
  typed : tcExpr bb.tyenv gWordTy e = true
  temps : ∀ t ∈ e.temps, t ∈ ds

section Emits

variable {gWordTy : IRType} {ds : List IRTemp} {bb bb₁ bb₂ : IRSB} {new new₁ new₂ : List IRStmt}
  {e e' : IRExpr}

theorem Emits.refl (gWordTy : IRType) (bb : IRSB) (hds : ∀ t ∈ ds, t < bb.tyenv.length) :
    Emits gWordTy ds bb bb [] :=
  ⟨by simp, ⟨[], by simp⟩, hds, by simp, by simp, by simp, by simp, by simp, by simp [UsesDefined, IRExpr.temps]⟩

theorem Emits.length_le (h : Emits gWordTy ds bb bb₁ new) : bb.tyenv.length ≤ bb₁.tyenv.length := by
  obtain ⟨tys, htys⟩ := h.tyenv
  simp [htys]

/-- Everything assigned so far is in range. -/
theorem Emits.range' (h : Emits gWordTy ds bb bb₁ new) : ∀ t ∈ defsOf new ++ ds, t < bb₁.tyenv.length := by
  intro t ht
  rcases List.mem_append.mp ht with ht | ht
  · exact (h.fresh t ht).2
  · exact Nat.lt_of_lt_of_le (h.range t ht) h.length_le

theorem Emits.trans (h₁ : Emits gWordTy ds bb bb₁ new₁)
    (h₂ : Emits gWordTy (defsOf new₁ ++ ds) bb₁ bb₂ new₂) : Emits gWordTy ds bb bb₂ (new₁ ++ new₂) := by
  obtain ⟨tys₁, htys₁⟩ := h₁.tyenv
  obtain ⟨tys₂, htys₂⟩ := h₂.tyenv
  refine ⟨by rw [h₂.stmts, h₁.stmts, List.append_assoc], ⟨tys₁ ++ tys₂, by rw [htys₂, htys₁, List.append_assoc]⟩,
    h₁.range, ?_, ?_, ?_, ?_, ?_, h₁.uses.append h₂.uses⟩
  · intro st hst
    exact (List.mem_append.mp hst).elim (h₁.assigns st) (h₂.assigns st)
  · intro st hst
    exact (List.mem_append.mp hst).elim (h₁.flat st) (h₂.flat st)
  · intro st hst
    rcases List.mem_append.mp hst with hst | hst
    · rw [htys₂]
      refine tcStmt_append (fun t ht => ?_) (h₁.typed st hst)
      rcases h₁.uses.mem hst ht with hd | hd
      · exact h₁.range' t (List.mem_append_right _ hd)
      · exact h₁.range' t (List.mem_append_left _ hd)
    · exact h₂.typed st hst
  · intro t ht
    rw [defsOf_append] at ht
    rcases List.mem_append.mp ht with ht | ht
    · exact ⟨(h₁.fresh t ht).1, Nat.lt_of_lt_of_le (h₁.fresh t ht).2 h₂.length_le⟩
    · exact ⟨Nat.le_trans h₁.length_le (h₂.fresh t ht).1, (h₂.fresh t ht).2⟩
  · rw [defsOf_append]
    refine List.nodup_append.mpr ⟨h₁.nodup, h₂.nodup, fun t ht u hu htu => ?_⟩
    have hlt := (h₁.fresh t ht).2
    have hge := (h₂.fresh u hu).1
    subst htu
    exact absurd hlt (Nat.not_lt.mpr hge)

/-- The new assignments change nothing but the new temporaries. -/
theorem Emits.run (h : Emits gWordTy ds bb bb₁ new) (M : Interp) (T : IRTypeEnv) (s : State) :
    (runStmts M T s new).2 = none ∧ (runStmts M T s new).1.world = s.world ∧
      ∀ t < bb.tyenv.length, (runStmts M T s new).1.tmps t = s.tmps t := by
  have hrun : ∀ {l : List IRStmt} {s : State}, (∀ st ∈ l, ∃ t e, st = .wrTmp t e) →
      (runStmts M T s l).2 = none ∧ (runStmts M T s l).1.world = s.world ∧
        ∀ t ∉ defsOf l, (runStmts M T s l).1.tmps t = s.tmps t := by
    intro l
    induction l with
    | nil => exact fun _ => ⟨rfl, rfl, fun _ _ => rfl⟩
    | cons st l ih =>
      intro s hl
      obtain ⟨t, e, rfl⟩ := hl st List.mem_cons_self
      have hstep : execStmt M T s (.wrTmp t e) = ((execStmt M T s (.wrTmp t e)).1, none) := rfl
      obtain ⟨h₁, h₂, h₃⟩ := ih (s := (execStmt M T s (.wrTmp t e)).1)
        fun st hst => hl st (List.mem_cons_of_mem _ hst)
      rw [runStmts, Straight.run_cons_of_next hstep]
      refine ⟨h₁, h₂.trans rfl, fun u hu => ?_⟩
      rw [defsOf_cons] at hu
      refine (h₃ u fun hm => hu (List.mem_append_right _ hm)).trans (execStmt_tmps_of_ne fun hd => ?_)
      exact hu (List.mem_append_left _ (Option.mem_toList.mpr hd))
  obtain ⟨h₁, h₂, h₃⟩ := hrun (s := s) h.assigns
  exact ⟨h₁, h₂, fun t ht => h₃ t fun hm => absurd ht (Nat.not_lt.mpr (h.fresh t hm).1)⟩

/-- More assignments after those of an atom. -/
theorem Stands.before (h : Stands ds bb bb₁ new₁ e e') (h₁ : Emits gWordTy ds bb bb₁ new₁)
    (h₂ : Emits gWordTy (defsOf new₁ ++ ds) bb₁ bb₂ new₂) : Stands ds bb bb₂ (new₁ ++ new₂) e e' := by
  have hrange : ∀ t ∈ e'.temps, t < bb₁.tyenv.length := fun t ht => h₁.range' t (h.temps t ht)
  refine ⟨h.atom, ?_, fun t ht => ?_, fun M T s => ?_⟩
  · obtain ⟨tys, htys⟩ := h₂.tyenv
    rw [htys, typeOfIRExpr_append hrange]
    exact h.type
  · have := h.temps t ht
    simp only [defsOf_append, List.mem_append] at this ⊢
    grind
  · rw [runStmts_append_of_next (h₁.run M T s).1,
      evalExpr_congr e' fun t ht => (h₂.run M T _).2.2 t (hrange t ht)]
    exact h.eval M T s

/-- More assignments before those of an atom. -/
theorem Stands.after (h₁ : Emits gWordTy ds bb bb₁ new₁) (he : ∀ t ∈ e.temps, t ∈ ds)
    (h : Stands (defsOf new₁ ++ ds) bb₁ bb₂ new₂ e e') : Stands ds bb bb₂ (new₁ ++ new₂) e e' := by
  refine ⟨h.atom, ?_, fun t ht => ?_, fun M T s => ?_⟩
  · obtain ⟨tys, htys⟩ := h₁.tyenv
    rw [h.type, htys, typeOfIRExpr_append fun t ht => h₁.range t (he t ht)]
  · have := h.temps t ht
    simp only [defsOf_append, List.mem_append] at this ⊢
    grind
  · obtain ⟨hnone, hworld, htmps⟩ := h₁.run M T s
    have heval := h.eval M T (runStmts M T s new₁).1
    rw [hworld] at heval
    rw [runStmts_append_of_next hnone, heval]
    exact evalExpr_congr e fun t ht => htmps t (h₁.range t (he t ht))

/-- After more assignments an expression is still ready. -/
theorem Ready.after (h : Ready gWordTy ds bb e) (h₁ : Emits gWordTy ds bb bb₁ new₁) :
    Ready gWordTy (defsOf new₁ ++ ds) bb₁ e := by
  obtain ⟨tys, htys⟩ := h₁.tyenv
  refine ⟨?_, fun t ht => List.mem_append_right _ (h.temps t ht)⟩
  rw [htys]
  exact tcExpr_append (fun t ht => h₁.range t (h.temps t ht)) h.typed

theorem Emits.newTemp (ty : IRType) (hds : ∀ t ∈ ds, t < bb.tyenv.length) :
    Emits gWordTy ds bb (newIRTemp bb ty).2 [] :=
  ⟨by simp [newIRTemp], ⟨[ty], rfl⟩, hds, by simp, by simp, by simp, by simp, by simp,
    by simp [UsesDefined, IRExpr.temps]⟩

/-- A flat expression is assigned to a new temporary. -/
theorem Emits.assign (h : Emits gWordTy ds bb bb₁ new) {t1 : IRTemp} {data : IRExpr}
    (hge : bb.tyenv.length ≤ t1) (hlt : t1 < bb₁.tyenv.length) (hfresh : t1 ∉ defsOf new)
    (hflat : data.isFlat = true) (htc : tcExpr bb₁.tyenv gWordTy data = true)
    (hty : hasType bb₁.tyenv data (bb₁.tyenv.getD t1 .I1) = true)
    (htemps : ∀ t ∈ data.temps, t ∈ defsOf new ++ ds) :
    Emits gWordTy ds bb (addStmtToIRSB bb₁ (.wrTmp t1 data)) (new ++ [.wrTmp t1 data]) := by
  have hdefs : defsOf (new ++ [.wrTmp t1 data]) = defsOf new ++ [t1] := by
    rw [defsOf_append]
    rfl
  refine ⟨by simp [addStmtToIRSB, h.stmts], h.tyenv, h.range, ?_, ?_, ?_, ?_, ?_,
    h.uses.append ⟨htemps, by simp [UsesDefined, IRExpr.temps]⟩⟩
  · intro st hst
    rcases List.mem_append.mp hst with hst | hst
    · exact h.assigns st hst
    · exact ⟨t1, data, List.mem_singleton.mp hst⟩
  · intro st hst
    rcases List.mem_append.mp hst with hst | hst
    · exact h.flat st hst
    · rw [List.mem_singleton.mp hst]
      exact hflat
  · intro st hst
    rcases List.mem_append.mp hst with hst | hst
    · exact h.typed st hst
    · rw [List.mem_singleton.mp hst]
      simp only [tcStmt, Bool.and_eq_true, decide_eq_true_eq]
      exact ⟨⟨htc, hlt⟩, hty⟩
  · rw [hdefs]
    intro t ht
    rcases List.mem_append.mp ht with ht | ht
    · exact h.fresh t ht
    · rw [List.mem_singleton.mp ht]
      exact ⟨hge, hlt⟩
  · rw [hdefs]
    refine List.nodup_append.mpr ⟨h.nodup, by simp, fun t ht u hu htu => hfresh ?_⟩
    rw [List.mem_singleton.mp hu] at htu
    exact htu ▸ ht

/-- The new temporary stands for the expression. -/
theorem Stands.assign (h : Emits gWordTy ds bb bb₁ new) {t1 : IRTemp} {data : IRExpr}
    (hlt : t1 < bb₁.tyenv.length)
    (hty : typeOfIRExpr bb.tyenv e = .ok (bb₁.tyenv.getD t1 .I1))
    (heval : ∀ M T s, evalExpr M (runStmts M T s new).1.tmps s.world data = evalExpr M s.tmps s.world e) :
    Stands ds bb (addStmtToIRSB bb₁ (.wrTmp t1 data)) (new ++ [.wrTmp t1 data]) e (.rdTmp t1) := by
  refine ⟨rfl, ?_, fun t ht => ?_, fun M T s => ?_⟩
  · rw [hty, typeOfIRExpr, typeOfIRTemp]
    show (assertThat (t1 < bb₁.tyenv.length) >>= _) = _
    rw [assertThat_of hlt]
    rfl
  · rw [defsOf_append]
    refine List.mem_append_left _ (List.mem_append_right _ ?_)
    simpa [IRExpr.temps, defsOf, IRStmt.def?] using ht
  · obtain ⟨hnone, hworld, -⟩ := h.run M T s
    rw [runStmts_append_of_next hnone]
    show Vex.assign _ (some (t1, evalExpr M _ _ data)) t1 = _
    rw [assign_self, hworld, heval]

end Emits

/-! ## Expressions -/

/-- The expressions apply the same operation, to operands `args` and `args'`. -/
inductive SameOp : List IRExpr → List IRExpr → IRExpr → IRExpr → Prop where
  | get {offset ty} : SameOp [] [] (.get offset ty) (.get offset ty)
  | getI {descr ix ix' bias} : SameOp [ix] [ix'] (.getI descr ix bias) (.getI descr ix' bias)
  | qop {op a b c d a' b' c' d'} :
    SameOp [a, b, c, d] [a', b', c', d'] (.qop op a b c d) (.qop op a' b' c' d')
  | triop {op a b c a' b' c'} : SameOp [a, b, c] [a', b', c'] (.triop op a b c) (.triop op a' b' c')
  | binop {op a b a' b'} : SameOp [a, b] [a', b'] (.binop op a b) (.binop op a' b')
  | unop {op a a'} : SameOp [a] [a'] (.unop op a) (.unop op a')
  | load {en ty a a'} : SameOp [a] [a'] (.load en ty a) (.load en ty a')
  | const {c} : SameOp [] [] (.const c) (.const c)
  | ccall {cee retty args args'} : SameOp args args' (.ccall cee retty args) (.ccall cee retty args')
  | mux0X {a b c a' b' c'} : SameOp [a, b, c] [a', b', c'] (.mux0X a b c) (.mux0X a' b' c')

theorem forall₂_mem_right {α β : Type} {R : α → β → Prop} {l : List α} {l' : List β}
    (h : List.Forall₂ R l l') {b : β} (hb : b ∈ l') : ∃ a ∈ l, R a b := by
  induction h with
  | nil => exact nomatch hb
  | cons hab _ ih =>
    rcases List.mem_cons.mp hb with rfl | hb
    · exact ⟨_, List.mem_cons_self, hab⟩
    · obtain ⟨a, ha, hR⟩ := ih hb
      exact ⟨a, List.mem_cons_of_mem _ ha, hR⟩

section SameOp

variable {gWordTy : IRType} {ds : List IRTemp} {bb bb₁ : IRSB} {new : List IRStmt}
  {args args' : List IRExpr} {e data : IRExpr}

theorem SameOp.temps (h : SameOp args args' e data) {t : IRTemp} :
    (t ∈ e.temps ↔ ∃ a ∈ args, t ∈ a.temps) ∧ (t ∈ data.temps ↔ ∃ a ∈ args', t ∈ a.temps) := by
  cases h <;> simp [IRExpr.temps, mem_tempsOfArgs]

theorem SameOp.isFlat (h : SameOp args args' e data) (hatoms : ∀ a ∈ args', a.isIRAtom = true) :
    data.isFlat = true := by
  cases h <;> simp_all [IRExpr.isFlat]

theorem tcExpr_atom {tyenv : IRTypeEnv} (h : e.isIRAtom = true) : tcExpr tyenv gWordTy e = true := by
  cases e <;> first | rfl | exact nomatch h

theorem tcArgs_eq_true {tyenv : IRTypeEnv} {es : List IRExpr} :
    tcArgs tyenv gWordTy es = true ↔ ∀ e ∈ es, tcExpr tyenv gWordTy e = true := by
  induction es with
  | nil => simp [tcArgs]
  | cons e es ih => simp [tcArgs, ih]

theorem SameOp.operands_typed (h : SameOp args args' e data) (htc : tcExpr bb.tyenv gWordTy e = true) :
    ∀ a ∈ args, tcExpr bb.tyenv gWordTy a = true := by
  cases h <;> simp_all [tcExpr, tcArgs_eq_true]

/-- Operands of the same types make expressions of the same type. -/
theorem SameOp.typeOf {tyenv tyenv' : IRTypeEnv} (h : SameOp args args' e data)
    (htypes : List.Forall₂ (fun a a' => typeOfIRExpr tyenv' a' = typeOfIRExpr tyenv a) args args') :
    typeOfIRExpr tyenv' data = typeOfIRExpr tyenv e := by
  cases h with
  | mux0X =>
    obtain ⟨-, htypes⟩ := List.forall₂_cons.mp htypes
    simp only [typeOfIRExpr]
    exact (List.forall₂_cons.mp htypes).1
  | _ => simp only [typeOfIRExpr]

/-- With atoms of the same types as operands an expression stays well typed. -/
theorem SameOp.typed {tyenv tyenv' : IRTypeEnv} (h : SameOp args args' e data)
    (hatoms : ∀ a ∈ args', a.isIRAtom = true)
    (htypes : List.Forall₂ (fun a a' => typeOfIRExpr tyenv' a' = typeOfIRExpr tyenv a) args args')
    (htc : tcExpr tyenv gWordTy e = true) : tcExpr tyenv' gWordTy data = true := by
  cases h with
  | get | const => rfl
  | getI | load =>
    simp only [tcExpr, Bool.and_eq_true] at htc ⊢
    rw [hasType_congr (List.forall₂_cons.mp htypes).1]
    exact ⟨tcExpr_atom (by simp_all), htc.2⟩
  | qop =>
    simp only [tcExpr, Bool.and_eq_true] at htc ⊢
    rw [argsHaveTypes_congr htypes]
    exact ⟨⟨⟨⟨tcExpr_atom (by simp_all), tcExpr_atom (by simp_all)⟩, tcExpr_atom (by simp_all)⟩,
      tcExpr_atom (by simp_all)⟩, htc.2⟩
  | triop =>
    simp only [tcExpr, Bool.and_eq_true] at htc ⊢
    rw [argsHaveTypes_congr htypes]
    exact ⟨⟨⟨tcExpr_atom (by simp_all), tcExpr_atom (by simp_all)⟩, tcExpr_atom (by simp_all)⟩, htc.2⟩
  | binop =>
    simp only [tcExpr, Bool.and_eq_true] at htc ⊢
    rw [argsHaveTypes_congr htypes]
    exact ⟨⟨tcExpr_atom (by simp_all), tcExpr_atom (by simp_all)⟩, htc.2⟩
  | unop =>
    simp only [tcExpr, Bool.and_eq_true] at htc ⊢
    rw [argsHaveTypes_congr htypes]
    exact ⟨tcExpr_atom (by simp_all), htc.2⟩
  | ccall =>
    simp only [tcExpr, Bool.and_eq_true] at htc ⊢
    rw [← htypes.length_eq]
    refine ⟨⟨⟨htc.1.1.1, tcArgs_eq_true.mpr fun a ha => tcExpr_atom (hatoms a ha)⟩, htc.1.2⟩, ?_⟩
    refine List.all_eq_true.mpr fun a' ha' => ?_
    obtain ⟨a, ha, htype⟩ := forall₂_mem_right htypes ha'
    rw [hasOtherType_congr htype]
    exact List.all_eq_true.mp htc.2 a ha
  | mux0X =>
    obtain ⟨hc, htypes⟩ := List.forall₂_cons.mp htypes
    obtain ⟨h0, htypes⟩ := List.forall₂_cons.mp htypes
    obtain ⟨hX, -⟩ := List.forall₂_cons.mp htypes
    simp only [tcExpr, Bool.and_eq_true] at htc ⊢
    rw [hasType_congr hc, hasType_congr h0, tyIn_congr hX]
    exact ⟨⟨⟨⟨tcExpr_atom (by simp_all), tcExpr_atom (by simp_all)⟩, tcExpr_atom (by simp_all)⟩,
      htc.1.2⟩, htc.2⟩

theorem evalArgs_forall₂ {M : Interp} {ρ ρ' : IRTemp → Val} {w : World}
    (h : List.Forall₂ (fun a a' => evalExpr M ρ' w a' = evalExpr M ρ w a) args args') :
    evalArgs M ρ' w args' = evalArgs M ρ w args := by
  rw [evalArgs_eq_map, evalArgs_eq_map]
  induction h with
  | nil => rfl
  | cons hd _ ih => rw [List.map_cons, List.map_cons, hd, ih]

/-- Operands with the same values make expressions with the same value. -/
theorem SameOp.eval {M : Interp} {ρ ρ' : IRTemp → Val} {w : World} (h : SameOp args args' e data)
    (hvals : List.Forall₂ (fun a a' => evalExpr M ρ' w a' = evalExpr M ρ w a) args args') :
    evalExpr M ρ' w data = evalExpr M ρ w e := by
  cases h with
  | get | const => rfl
  | ccall =>
    simp only [evalExpr, evalArgs_forall₂ hvals]
  | _ =>
    simp only [List.forall₂_cons, List.forall₂_nil_left_iff, and_true] at hvals
    simp only [evalExpr, hvals]

/-- **An operation on flattened operands** is assigned to a new temporary, which stands for
the operation on the operands. -/
theorem Emits.assignOp (h : Emits gWordTy ds bb bb₁ new) (hop : SameOp args args' e data)
    (hargs : List.Forall₂ (Stands ds bb bb₁ new) args args') (hready : Ready gWordTy ds bb e)
    {t1 : IRTemp} (hge : bb.tyenv.length ≤ t1) (hlt : t1 < bb₁.tyenv.length) (hfresh : t1 ∉ defsOf new)
    (hty : typeOfIRExpr bb.tyenv e = .ok (bb₁.tyenv.getD t1 .I1)) :
    Emits gWordTy ds bb (addStmtToIRSB bb₁ (.wrTmp t1 data)) (new ++ [.wrTmp t1 data]) ∧
      Stands ds bb (addStmtToIRSB bb₁ (.wrTmp t1 data)) (new ++ [.wrTmp t1 data]) e (.rdTmp t1) := by
  have hatoms : ∀ a ∈ args', a.isIRAtom = true := fun a' ha' => by
    obtain ⟨a, -, hs⟩ := forall₂_mem_right hargs ha'
    exact hs.atom
  have htypes := hargs.imp fun _ _ hs => hs.type
  constructor
  · refine h.assign hge hlt hfresh (hop.isFlat hatoms) (hop.typed hatoms htypes hready.typed) ?_ ?_
    · rw [hasType_eq_true, hop.typeOf htypes, hty]
    · intro t ht
      obtain ⟨a', ha', hta'⟩ := hop.temps.2.mp ht
      obtain ⟨a, -, hs⟩ := forall₂_mem_right hargs ha'
      exact hs.temps t hta'
  · exact Stands.assign h hlt hty fun M T s => hop.eval (hargs.imp fun _ _ hs => hs.eval M T s)

end SameOp

/-- The action flattens the expressions `es`: it returns, and what it returns contains the
atoms that stand for them. -/
def Flattens {α : Type} (gWordTy : IRType) (f : IRSB → Result (α × IRSB)) (es : List IRExpr)
    (atoms : α → List IRExpr) : Prop :=
  ∀ ds bb, (∀ t ∈ ds, t < bb.tyenv.length) → (∀ e ∈ es, Ready gWordTy ds bb e) →
    ∃ a bb' new, f bb = .ok (a, bb') ∧ Emits gWordTy ds bb bb' new ∧
      List.Forall₂ (Stands ds bb bb' new) es (atoms a)

section Flattens

variable {α β : Type} {gWordTy : IRType} {f : IRSB → Result (α × IRSB)} {g : IRSB → Result (β × IRSB)}
  {es es' : List IRExpr} {l : α → List IRExpr} {l' : β → List IRExpr}

/-- One action after another. -/
theorem Flattens.seq (hf : Flattens gWordTy f es l) (hg : Flattens gWordTy g es' l')
    {ds : List IRTemp} {bb : IRSB} (hds : ∀ t ∈ ds, t < bb.tyenv.length)
    (hes : ∀ e ∈ es, Ready gWordTy ds bb e) (hes' : ∀ e ∈ es', Ready gWordTy ds bb e) :
    ∃ a bb₁ b bb₂ new, f bb = .ok (a, bb₁) ∧ g bb₁ = .ok (b, bb₂) ∧ Emits gWordTy ds bb bb₂ new ∧
      List.Forall₂ (Stands ds bb bb₂ new) es (l a) ∧ List.Forall₂ (Stands ds bb bb₂ new) es' (l' b) := by
  obtain ⟨a, bb₁, new₁, hfa, hem₁, hst₁⟩ := hf ds bb hds hes
  obtain ⟨b, bb₂, new₂, hgb, hem₂, hst₂⟩ := hg (defsOf new₁ ++ ds) bb₁ hem₁.range'
    fun e he => (hes' e he).after hem₁
  refine ⟨a, bb₁, b, bb₂, new₁ ++ new₂, hfa, hgb, hem₁.trans hem₂,
    hst₁.imp fun _ _ hs => hs.before hem₁ hem₂, ?_⟩
  have hmem : List.Forall₂ (fun e e' => e ∈ es' ∧ Stands (defsOf new₁ ++ ds) bb₁ bb₂ new₂ e e') es'
      (l' b) := (List.forall₂_and_left es' (l' b)).mpr ⟨fun _ h => h, hst₂⟩
  exact hmem.imp fun e _ hs => .after hem₁ (hes' e hs.1).temps hs.2

/-- Two arguments, in either order. -/
theorem Flattens.both (ltr : Bool) (hf : Flattens gWordTy f es l) (hg : Flattens gWordTy g es' l') :
    Flattens gWordTy (evalBoth ltr f g) (es ++ es') fun p => l p.1 ++ l' p.2 := by
  intro ds bb hds hready
  have hes : ∀ e ∈ es, Ready gWordTy ds bb e := fun e he => hready e (List.mem_append_left _ he)
  have hes' : ∀ e ∈ es', Ready gWordTy ds bb e := fun e he => hready e (List.mem_append_right _ he)
  cases ltr with
  | true =>
    obtain ⟨a, bb₁, b, bb₂, new, hfa, hgb, hem, hst, hst'⟩ := hf.seq hg hds hes hes'
    refine ⟨(a, b), bb₂, new, ?_, hem, List.rel_append hst hst'⟩
    simp only [evalBoth, if_true, hfa, ok_bind, hgb]
    rfl
  | false =>
    obtain ⟨b, bb₁, a, bb₂, new, hgb, hfa, hem, hst', hst⟩ := hg.seq hf hds hes' hes
    refine ⟨(a, b), bb₂, new, ?_, hem, List.rel_append hst hst'⟩
    simp only [evalBoth, Bool.false_eq_true, if_false, hgb, ok_bind, hfa]
    rfl

/-- The last element of a type environment. -/
theorem getD_append_length (tyenv tys : IRTypeEnv) (ty : IRType) :
    (tyenv ++ ty :: tys).getD tyenv.length .I1 = ty := by
  rw [List.getD_eq_getElem?_getD, List.getElem?_append_right (Nat.le_refl _), Nat.sub_self]
  rfl

/-- An operation whose operands are flattened after its temporary has been made. -/
theorem Flattens.op {e : IRExpr} {F : IRSB → Result (IRExpr × IRSB)}
    (hf : Flattens gWordTy f es l) (mk : α → IRExpr) (hself : SameOp es es e e) (hop : ∀ a, SameOp es (l a) e (mk a))
    (hF : ∀ bb, F bb = do
      let ty ← typeOfIRExpr bb.tyenv e
      let (a, bb') ← f (newIRTemp bb ty).2
      return (.rdTmp bb.tyenv.length, addStmtToIRSB bb' (.wrTmp bb.tyenv.length (mk a)))) :
    Flattens gWordTy F [e] fun e' => [e'] := by
  intro ds bb hds hready
  have he : Ready gWordTy ds bb e := hready e List.mem_cons_self
  have hty := typeOfIRExpr_returns fun t ht => hds t (he.temps t ht)
  have hnew : Emits gWordTy ds bb (newIRTemp bb (e.tyIn bb.tyenv)).2 [] := .newTemp _ hds
  have hops : ∀ o ∈ es, Ready gWordTy ds bb o := fun o ho =>
    ⟨hself.operands_typed he.typed o ho, fun t ht => he.temps t (hself.temps.1.mpr ⟨o, ho, ht⟩)⟩
  obtain ⟨a, bb', new, hfa, hem, hst⟩ := hf (defsOf [] ++ ds) (newIRTemp bb (e.tyIn bb.tyenv)).2
    hnew.range' fun o ho => (hops o ho).after hnew
  have hst' : List.Forall₂ (Stands ds bb bb' ([] ++ new)) es (l a) :=
    ((List.forall₂_and_left es (l a)).mpr ⟨fun _ h => h, hst⟩).imp
      fun o _ hs => .after hnew (hops o hs.1).temps hs.2
  obtain ⟨tys, htys⟩ := hem.tyenv
  have hgetD : bb'.tyenv.getD bb.tyenv.length .I1 = e.tyIn bb.tyenv := by
    rw [htys]
    simp only [newIRTemp, List.append_assoc, List.singleton_append]
    exact getD_append_length _ _ _
  have hlen : bb.tyenv.length < (newIRTemp bb (e.tyIn bb.tyenv)).2.tyenv.length := by
    simp [newIRTemp]
  obtain ⟨hem', hst''⟩ := (hnew.trans hem).assignOp (hop a) hst' he
    (Nat.le_refl bb.tyenv.length) (Nat.lt_of_lt_of_le hlen hem.length_le)
    (fun hm => absurd hlen (Nat.not_lt.mpr (hem.fresh _ hm).1)) (by rw [hgetD, hty])
  refine ⟨.rdTmp bb.tyenv.length, _, _, ?_, hem', .cons hst'' .nil⟩
  rw [hF, hty, ok_bind, hfa]
  rfl

/-- An atom stands for itself. -/
theorem Stands.self {ds : List IRTemp} {bb : IRSB} {e : IRExpr} (h : e.isIRAtom = true)
    (htemps : ∀ t ∈ e.temps, t ∈ ds) : Stands ds bb bb [] e e :=
  ⟨h, rfl, fun t ht => List.mem_append_right _ (htemps t ht), fun _ _ _ => rfl⟩

mutual

/-- **Expressions**: `flatten_Expr` returns an atom that stands for the expression. -/
theorem flattenExpr_spec (gWordTy : IRType) (ltr : Bool) :
    ∀ e, Flattens gWordTy (flattenExpr ltr e) [e] fun e' => [e']
  | .get offset ty => by
    have hnone : Flattens gWordTy (fun bb => .ok ((), bb)) [] fun _ => [] :=
      fun ds bb hds _ => ⟨(), bb, [], rfl, .refl _ _ hds, .nil⟩
    exact hnone.op (fun _ => .get offset ty) .get (fun _ => .get) fun bb => rfl
  | .getI descr ix bias =>
    (flattenExpr_spec gWordTy ltr ix).op (fun ix' => .getI descr ix' bias) .getI (fun _ => .getI)
      fun bb => rfl
  | .qop op arg1 arg2 arg3 arg4 =>
    ((flattenExpr_spec gWordTy ltr arg1).both ltr ((flattenExpr_spec gWordTy ltr arg2).both ltr
      ((flattenExpr_spec gWordTy ltr arg3).both ltr (flattenExpr_spec gWordTy ltr arg4)))).op
        (fun p => .qop op p.1 p.2.1 p.2.2.1 p.2.2.2) .qop
        (fun p => show SameOp [arg1, arg2, arg3, arg4] [p.1, p.2.1, p.2.2.1, p.2.2.2] _ _ from .qop)
        fun bb => rfl
  | .triop op arg1 arg2 arg3 =>
    ((flattenExpr_spec gWordTy ltr arg1).both ltr ((flattenExpr_spec gWordTy ltr arg2).both ltr
      (flattenExpr_spec gWordTy ltr arg3))).op (fun p => .triop op p.1 p.2.1 p.2.2) .triop
        (fun p => show SameOp [arg1, arg2, arg3] [p.1, p.2.1, p.2.2] _ _ from .triop) fun bb => rfl
  | .binop op arg1 arg2 =>
    ((flattenExpr_spec gWordTy ltr arg1).both ltr (flattenExpr_spec gWordTy ltr arg2)).op
      (fun p => .binop op p.1 p.2) .binop
      (fun p => show SameOp [arg1, arg2] [p.1, p.2] _ _ from .binop) fun bb => rfl
  | .unop op arg =>
    (flattenExpr_spec gWordTy ltr arg).op (fun e => .unop op e) .unop (fun _ => .unop) fun bb => rfl
  | .load en ty addr =>
    (flattenExpr_spec gWordTy ltr addr).op (fun e => .load en ty e) .load (fun _ => .load) fun bb => rfl
  | .ccall cee retty args => by
    intro ds bb hds hready
    have he : Ready gWordTy ds bb (.ccall cee retty args) := hready _ List.mem_cons_self
    have hop : ∀ args', SameOp args args' (.ccall cee retty args) (.ccall cee retty args') := fun _ => .ccall
    obtain ⟨args', bb₁, new, hargs, hem, hst⟩ := flattenArgs_spec gWordTy ltr args ds bb hds fun a ha =>
      ⟨(hop args).operands_typed he.typed a ha, fun t ht => he.temps t ((hop args).temps.1.mpr ⟨a, ha, ht⟩)⟩
    -- the temporary of the call is made after its arguments
    have hnew : Emits gWordTy (defsOf new ++ ds) bb₁ (newIRTemp bb₁ retty).2 [] := .newTemp _ hem.range'
    have hem' := hem.trans hnew
    have hlen : bb₁.tyenv.length < (newIRTemp bb₁ retty).2.tyenv.length := by simp [newIRTemp]
    have hfresh : bb₁.tyenv.length ∉ defsOf (new ++ []) := by
      rw [List.append_nil]
      exact fun hm => absurd (hem.fresh _ hm).2 (Nat.lt_irrefl _)
    have hty : typeOfIRExpr bb.tyenv (.ccall cee retty args) =
        .ok ((newIRTemp bb₁ retty).2.tyenv.getD bb₁.tyenv.length .I1) := by
      rw [typeOfIRExpr, newIRTemp]
      exact congrArg Except.ok (getD_append_length bb₁.tyenv [] retty).symm
    obtain ⟨hem'', hst'⟩ := hem'.assignOp (hop args') (hst.imp fun _ _ hs => hs.before hem hnew) he
      hem.length_le hlen hfresh hty
    refine ⟨.rdTmp bb₁.tyenv.length, _, _, ?_, hem'', .cons hst' .nil⟩
    simp only [flattenExpr, typeOfIRExpr, ok_bind, hargs]
    rfl
  | .mux0X cond expr0 exprX =>
    ((flattenExpr_spec gWordTy ltr cond).both ltr ((flattenExpr_spec gWordTy ltr expr0).both ltr
      (flattenExpr_spec gWordTy ltr exprX))).op (fun p => .mux0X p.1 p.2.1 p.2.2) .mux0X
        (fun p => show SameOp [cond, expr0, exprX] [p.1, p.2.1, p.2.2] _ _ from .mux0X) fun bb => rfl
  | .const con => by
    cases con with
    | F64i v =>
      have hnone : Flattens gWordTy (fun bb => .ok ((), bb)) [] fun _ => [] :=
        fun ds bb hds _ => ⟨(), bb, [], rfl, .refl _ _ hds, .nil⟩
      exact hnone.op (fun _ => .const (.F64i v)) .const (fun _ => .const) fun bb => rfl
    | _ =>
      exact fun ds bb hds hready => ⟨_, bb, [], rfl, .refl _ _ hds,
        .cons (.self rfl (hready _ List.mem_cons_self).temps) .nil⟩
  | .rdTmp tmp => by
    intro ds bb hds hready
    have htemps := (hready _ List.mem_cons_self).temps
    refine ⟨.rdTmp tmp, bb, [], ?_, .refl _ _ hds, .cons (.self rfl htemps) .nil⟩
    rw [flattenExpr, typeOfIRExpr_returns fun t ht => hds t (htemps t ht)]
    rfl

theorem flattenArgs_spec (gWordTy : IRType) (ltr : Bool) :
    ∀ es, Flattens gWordTy (flattenArgs ltr es) es id
  | [] => fun ds bb hds _ => ⟨[], bb, [], rfl, .refl _ _ hds, .nil⟩
  | e :: es => by
    intro ds bb hds hready
    obtain ⟨e', bb₁, es', bb₂, new, he, hes, hem, hst, hst'⟩ :=
      (flattenExpr_spec gWordTy ltr e).seq (flattenArgs_spec gWordTy ltr es) hds
        (fun a ha => hready a (List.mem_singleton.mp ha ▸ List.mem_cons_self))
        fun a ha => hready a (List.mem_cons_of_mem _ ha)
    refine ⟨e' :: es', bb₂, new, ?_, hem, .cons (List.forall₂_cons.mp hst).1 hst'⟩
    simp only [flattenArgs, he, ok_bind, hes]
    rfl

end

end Flattens

/-! ## Statements -/

/-- The statements do the same with the expressions `es` and `es'`. -/
inductive SameStmt : List IRExpr → List IRExpr → IRStmt → IRStmt → Prop where
  | noOp : SameStmt [] [] .noOp .noOp
  | iMark {addr len} : SameStmt [] [] (.iMark addr len) (.iMark addr len)
  | mbe {event} : SameStmt [] [] (.mbe event) (.mbe event)
  | abiHint {a b a' b' len} : SameStmt [a, b] [a', b'] (.abiHint a len b) (.abiHint a' len b')
  | put {offset a a'} : SameStmt [a] [a'] (.put offset a) (.put offset a')
  | putI {descr a b a' b' bias} :
    SameStmt [a, b] [a', b'] (.putI descr a bias b) (.putI descr a' bias b')
  | wrTmp {tmp a a'} : SameStmt [a] [a'] (.wrTmp tmp a) (.wrTmp tmp a')
  | store {en a b a' b'} : SameStmt [a, b] [a', b'] (.store en a b) (.store en a' b')
  | dirty {d : IRDirty} {mAddr' g' args'} (hfx : d.mFx = .None → d.mAddr = none)
    (haddr : mAddr'.isSome = d.mAddr.isSome) :
    SameStmt (d.mAddr.toList ++ d.guard :: d.args) (mAddr'.toList ++ g' :: args') (.dirty d)
      (.dirty { d with mAddr := mAddr', guard := g', args := args' })
  | exit {a a' jk dst} : SameStmt [a] [a'] (.exit a jk dst) (.exit a' jk dst)

section SameStmt

variable {gWordTy : IRType} {tyenv tyenv' : IRTypeEnv} {es es' : List IRExpr} {st st' : IRStmt}

theorem forall₂_dirty {R : IRExpr → IRExpr → Prop} {a a' : Option IRExpr} {g g' : IRExpr}
    {args args' : List IRExpr} (haddr : a'.isSome = a.isSome)
    (h : List.Forall₂ R (a.toList ++ g :: args) (a'.toList ++ g' :: args')) :
    (∀ x, a = some x → ∃ x', a' = some x' ∧ R x x') ∧ R g g' ∧ List.Forall₂ R args args' := by
  cases a with
  | none =>
    cases a' with
    | none => exact ⟨fun _ hx => (nomatch hx), List.forall₂_cons.mp h⟩
    | some x' => exact nomatch haddr
  | some x =>
    cases a' with
    | none => exact nomatch haddr
    | some x' =>
      obtain ⟨hx, h⟩ := List.forall₂_cons.mp h
      refine ⟨fun y hy => ⟨x', rfl, ?_⟩, List.forall₂_cons.mp h⟩
      cases hy
      exact hx

theorem SameStmt.exprs (h : SameStmt es es' st st') : st.exprs = es ∧ st'.exprs = es' := by
  cases h with
  | @dirty d mAddr' g' args' hfx haddr =>
    simp only [IRStmt.exprs]
    split
    · exact ⟨rfl, rfl⟩
    · rename_i hnone
      rw [hfx (not_not.mp hnone)] at haddr ⊢
      cases mAddr' with
      | none => exact ⟨rfl, rfl⟩
      | some a => cases haddr
  | _ => simp [IRStmt.exprs]

theorem SameStmt.def_eq (h : SameStmt es es' st st') : st'.def? = st.def? := by
  cases h <;> rfl

theorem isFlat_of_atom {e : IRExpr} (h : e.isIRAtom = true) : e.isFlat = true := by
  cases e <;> first | rfl | exact nomatch h

theorem SameStmt.flat (h : SameStmt es es' st st') (hatoms : ∀ a ∈ es', a.isIRAtom = true) :
    isFlatIRStmt st' = true := by
  cases h with
  | @dirty d mAddr' g' args' hfx haddr => cases mAddr' <;> simp_all [isFlatIRStmt]
  | wrTmp => exact isFlat_of_atom (hatoms _ List.mem_cons_self)
  | _ => simp_all [isFlatIRStmt]

/-- With atoms of the same types a statement stays well typed. -/
theorem SameStmt.typed (h : SameStmt es es' st st') (hatoms : ∀ a ∈ es', a.isIRAtom = true)
    (htypes : List.Forall₂ (fun a a' => typeOfIRExpr tyenv' a' = typeOfIRExpr tyenv a) es es')
    (hdef : ∀ t, st.def? = some t → tyenv'.getD t .I1 = tyenv.getD t .I1)
    (hle : tyenv.length ≤ tyenv'.length) (htc : tcStmt tyenv gWordTy st = true) :
    tcStmt tyenv' gWordTy st' = true := by
  cases h with
  | noOp | mbe => rfl
  | iMark => exact htc
  | abiHint =>
    simp only [List.forall₂_cons, List.forall₂_nil_left_iff, and_true] at htypes
    rw [tcStmt, hasType_congr htypes.1, hasType_congr htypes.2]
    exact htc
  | put =>
    simp only [List.forall₂_cons, List.forall₂_nil_left_iff, and_true] at htypes
    simp only [tcStmt, Bool.and_eq_true] at htc ⊢
    rw [hasOtherType_congr htypes]
    exact ⟨tcExpr_atom (by simp_all), htc.2⟩
  | putI =>
    simp only [List.forall₂_cons, List.forall₂_nil_left_iff, and_true] at htypes
    simp only [tcStmt, Bool.and_eq_true] at htc ⊢
    rw [hasOtherType_congr htypes.2, hasType_congr htypes.2, hasType_congr htypes.1]
    exact ⟨⟨⟨⟨tcExpr_atom (by simp_all), tcExpr_atom (by simp_all)⟩, htc.1.1.2⟩, htc.1.2⟩, htc.2⟩
  | wrTmp =>
    simp only [List.forall₂_cons, List.forall₂_nil_left_iff, and_true] at htypes
    simp only [tcStmt, Bool.and_eq_true, decide_eq_true_eq] at htc ⊢
    rw [hasType_congr htypes, hdef _ rfl]
    exact ⟨⟨tcExpr_atom (by simp_all), Nat.lt_of_lt_of_le htc.1.2 hle⟩, htc.2⟩
  | store =>
    simp only [List.forall₂_cons, List.forall₂_nil_left_iff, and_true] at htypes
    simp only [tcStmt, Bool.and_eq_true] at htc ⊢
    rw [hasType_congr htypes.1, hasOtherType_congr htypes.2]
    exact ⟨⟨⟨tcExpr_atom (by simp_all), tcExpr_atom (by simp_all)⟩, htc.1.2⟩, htc.2⟩
  | exit =>
    simp only [List.forall₂_cons, List.forall₂_nil_left_iff, and_true] at htypes
    simp only [tcStmt, Bool.and_eq_true] at htc ⊢
    rw [hasType_congr htypes]
    exact ⟨⟨tcExpr_atom (by simp_all), htc.1.2⟩, htc.2⟩
  | @dirty d mAddr' g' args' hfx haddr =>
    obtain ⟨-, hg, hargs⟩ := forall₂_dirty haddr htypes
    have hga : g'.isIRAtom = true := hatoms g' (by simp)
    simp only [tcStmt, Bool.and_eq_true] at htc ⊢
    obtain ⟨⟨⟨⟨⟨⟨⟨⟨⟨⟨hcee, hregs⟩, hmFx⟩, hfxs⟩, hbbp⟩, hall⟩, -⟩, hguard⟩, htmp⟩, hlen⟩, hargsI1⟩ := htc
    rw [hasType_congr hg, ← hargs.length_eq]
    refine ⟨⟨⟨⟨⟨⟨⟨⟨⟨⟨hcee, hregs⟩, ?_⟩, hfxs⟩, hbbp⟩, hall⟩, tcExpr_atom hga⟩, hguard⟩, ?_⟩, hlen⟩, ?_⟩
    · have hisNone : mAddr'.isNone = d.mAddr.isNone := by
        rw [← Option.not_isSome, haddr, Option.not_isSome]
      rw [hisNone, haddr]
      exact hmFx
    · cases ht : d.tmp with
      | none => rfl
      | some t =>
        simp only [ht, Option.all_some, Bool.and_eq_true, decide_eq_true_eq] at htmp ⊢
        rw [hdef t ht]
        exact ⟨Nat.lt_of_lt_of_le htmp.1 hle, htmp.2⟩
    · refine List.all_eq_true.mpr fun a' ha' => ?_
      obtain ⟨a, ha, htype⟩ := forall₂_mem_right hargs ha'
      rw [hasOtherType_congr htype]
      exact List.all_eq_true.mp hargsI1 a ha

/-- Expressions with the same types and values make statements with the same effect. -/
theorem SameStmt.effect {M : Interp} {ρ ρ' : IRTemp → Val} {w : World} (h : SameStmt es es' st st')
    (htypes : List.Forall₂ (fun a a' => typeOfIRExpr tyenv' a' = typeOfIRExpr tyenv a) es es')
    (hvals : List.Forall₂ (fun a a' => evalExpr M ρ' w a' = evalExpr M ρ w a) es es')
    (hdef : ∀ t, st.def? = some t → tyenv'.getD t .I1 = tyenv.getD t .I1) :
    effect M tyenv' ρ' w st' = effect M tyenv ρ w st := by
  cases h with
  | noOp | iMark | mbe | abiHint => rfl
  | put =>
    simp only [List.forall₂_cons, List.forall₂_nil_left_iff, and_true] at htypes hvals
    simp only [Vex.effect, hvals, tyIn_congr htypes]
  | store =>
    simp only [List.forall₂_cons, List.forall₂_nil_left_iff, and_true] at htypes hvals
    simp only [Vex.effect, hvals, tyIn_congr htypes.2]
  | putI | wrTmp | exit =>
    simp only [List.forall₂_cons, List.forall₂_nil_left_iff, and_true] at hvals
    simp only [Vex.effect, hvals]
  | @dirty d mAddr' g' args' hfx haddr =>
    obtain ⟨hm, hg, hargs⟩ := forall₂_dirty haddr hvals
    have hargs' := evalArgs_forall₂ hargs
    have hmAddr : mAddr'.map (evalExpr M ρ' w) = d.mAddr.map (evalExpr M ρ w) := by
      cases ha : d.mAddr with
      | none =>
        rw [ha] at haddr
        cases mAddr' with
        | none => rfl
        | some a' => cases haddr
      | some a =>
        obtain ⟨a', rfl, haa⟩ := hm a ha
        exact congrArg some haa
    have hdirty : ∀ v, dirtyDef tyenv' { d with mAddr := mAddr', guard := g', args := args' } v =
        dirtyDef tyenv d v := by
      intro v
      cases ht : d.tmp with
      | none => simp [dirtyDef, ht]
      | some t => simp only [dirtyDef, ht, Option.map_some, hdef t ht]
    have hcall : dirtyCall M ρ' w { d with mAddr := mAddr', guard := g', args := args' } =
        dirtyCall M ρ w d := by
      simp only [dirtyCall, hargs', hmAddr]
      rfl
    simp only [Vex.effect, hg, hcall, hdirty]
    rfl

end SameStmt

/-- The statement `st'`, after the assignments `new`, is flat and does what `st` did. -/
structure FlatStmt (gWordTy : IRType) (ds : List IRTemp) (bb bb₁ : IRSB) (new : List IRStmt)
    (st st' : IRStmt) : Prop where
  emits : Emits gWordTy ds bb bb₁ new
  flat : isFlatIRStmt st' = true
  typed : tcStmt bb₁.tyenv gWordTy st' = true
  def_eq : st'.def? = st.def?
  uses : ∀ t ∈ st'.uses, t ∈ defsOf new ++ ds
  effect : ∀ M T s, effect M bb₁.tyenv (runStmts M T s new).1.tmps s.world st' =
    effect M bb.tyenv s.tmps s.world st

/-- The statement is well typed, its expressions too, and reads and assigns temporaries
in range. -/
structure StmtReady (gWordTy : IRType) (ds : List IRTemp) (bb : IRSB) (st : IRStmt) : Prop where
  typed : tcStmt bb.tyenv gWordTy st = true
  exprs : ∀ e ∈ st.exprs, Ready gWordTy ds bb e
  def_lt : ∀ t, st.def? = some t → t < bb.tyenv.length

/-- The states have the same world and the same temporaries below `N`. -/
structure EqBelow (N : Nat) (s s' : State) : Prop where
  world : s'.world = s.world
  tmps : ∀ t < N, s'.tmps t = s.tmps t

section FlatStmt

variable {gWordTy : IRType} {ds : List IRTemp} {bb bb₁ : IRSB} {new : List IRStmt}
  {st st' : IRStmt} {es es' : List IRExpr}

theorem flattenArgs_cons {ltr : Bool} {e : IRExpr} {l : List IRExpr} {bb₂ : IRSB}
    (h : flattenArgs ltr (e :: es) bb = .ok (l, bb₂)) :
    ∃ e' bb₁ es', flattenExpr ltr e bb = .ok (e', bb₁) ∧ flattenArgs ltr es bb₁ = .ok (es', bb₂) ∧
      l = e' :: es' := by
  simp only [flattenArgs, bind_eq_ok, pure_eq_ok, Prod.exists, Prod.mk.injEq] at h
  obtain ⟨e', bb₁, he, es', bb₂, hes, rfl, rfl⟩ := h
  exact ⟨e', bb₁, es', he, hes, rfl⟩

theorem FlatStmt.of_same (hem : Emits gWordTy ds bb bb₁ new) (hsame : SameStmt es es' st st')
    (hst : List.Forall₂ (Stands ds bb bb₁ new) es es') (hready : StmtReady gWordTy ds bb st) :
    FlatStmt gWordTy ds bb bb₁ new st st' := by
  have hatoms : ∀ a ∈ es', a.isIRAtom = true := fun a' ha' => by
    obtain ⟨a, -, hs⟩ := forall₂_mem_right hst ha'
    exact hs.atom
  have htypes := hst.imp fun _ _ hs => hs.type
  have hdef : ∀ t, st.def? = some t → bb₁.tyenv.getD t .I1 = bb.tyenv.getD t .I1 := fun t ht => by
    obtain ⟨tys, htys⟩ := hem.tyenv
    rw [htys, getD_append_of_lt (hready.def_lt t ht)]
  refine ⟨hem, hsame.flat hatoms, hsame.typed hatoms htypes hdef hem.length_le hready.typed,
    hsame.def_eq, fun t ht => ?_,
    fun M T s => hsame.effect htypes (hst.imp fun _ _ hs => hs.eval M T s) hdef⟩
  obtain ⟨a', ha', hta'⟩ := mem_uses.mp ht
  rw [hsame.exprs.2] at ha'
  obtain ⟨a, -, hs⟩ := forall₂_mem_right hst ha'
  exact hs.temps t hta'

/-- A statement that is left as it is. -/
theorem FlatStmt.self (hds : ∀ t ∈ ds, t < bb.tyenv.length) (hflat : isFlatIRStmt st = true)
    (hready : StmtReady gWordTy ds bb st) : FlatStmt gWordTy ds bb bb [] st st := by
  refine ⟨.refl _ _ hds, hflat, hready.typed, rfl, fun t ht => ?_, fun _ _ _ => rfl⟩
  obtain ⟨e, he, hte⟩ := mem_uses.mp ht
  exact (hready.exprs e he).temps t hte

/-- **Statements**: `flatten_Stmt` adds assignments and a flat statement that does what
the statement did. -/
theorem flattenStmt_spec (ltr : Bool) (hds : ∀ t ∈ ds, t < bb.tyenv.length) (hready : StmtReady gWordTy ds bb st) :
    ∃ bb₁ new st', flattenStmt ltr bb st = .ok (addStmtToIRSB bb₁ st') ∧
      FlatStmt gWordTy ds bb bb₁ new st st' := by
  obtain ⟨l, bb₁, new, hl, hem, hst⟩ := flattenArgs_spec gWordTy ltr st.exprs ds bb hds hready.exprs
  cases st with
  | noOp => exact ⟨bb, [], .noOp, rfl, .self hds rfl hready⟩
  | iMark addr len => exact ⟨bb, [], .iMark addr len, rfl, .self hds rfl hready⟩
  | mbe event => exact ⟨bb, [], .mbe event, rfl, .self hds rfl hready⟩
  | put offset data =>
    rw [flattenStmt]
    split
    · rename_i hatom
      exact ⟨bb, [], _, rfl, .self hds hatom hready⟩
    · obtain ⟨e1, bb₂, l', he1, hnil, rfl⟩ := flattenArgs_cons hl
      cases hnil
      exact ⟨_, new, .put offset e1, by rw [he1]; rfl, .of_same hem .put hst hready⟩
  | wrTmp tmp data =>
    rw [flattenStmt]
    split
    · rename_i hflat
      refine ⟨bb, [], _, rfl, .self hds ?_ hready⟩
      cases data <;> first | exact hflat | rfl | exact nomatch hflat
    · obtain ⟨e1, bb₂, l', he1, hnil, rfl⟩ := flattenArgs_cons hl
      cases hnil
      exact ⟨_, new, .wrTmp tmp e1, by rw [he1]; rfl, .of_same hem .wrTmp hst hready⟩
  | exit guard jk dst =>
    obtain ⟨e1, bb₂, l', he1, hnil, rfl⟩ := flattenArgs_cons hl
    cases hnil
    exact ⟨_, new, .exit e1 jk dst, by rw [flattenStmt, he1]; rfl, .of_same hem .exit hst hready⟩
  | putI descr ix bias data =>
    obtain ⟨e1, bb₂, l', he1, hl', rfl⟩ := flattenArgs_cons hl
    obtain ⟨e2, bb₃, l'', he2, hnil, rfl⟩ := flattenArgs_cons hl'
    cases hnil
    refine ⟨_, new, .putI descr e1 bias e2, ?_, .of_same hem .putI hst hready⟩
    simp only [flattenStmt, he1, ok_bind, he2]
    rfl
  | store en addr data =>
    obtain ⟨e1, bb₂, l', he1, hl', rfl⟩ := flattenArgs_cons hl
    obtain ⟨e2, bb₃, l'', he2, hnil, rfl⟩ := flattenArgs_cons hl'
    cases hnil
    refine ⟨_, new, .store en e1 e2, ?_, .of_same hem .store hst hready⟩
    simp only [flattenStmt, he1, ok_bind, he2]
    rfl
  | abiHint base len nia =>
    obtain ⟨e1, bb₂, l', he1, hl', rfl⟩ := flattenArgs_cons hl
    obtain ⟨e2, bb₃, l'', he2, hnil, rfl⟩ := flattenArgs_cons hl'
    cases hnil
    refine ⟨_, new, .abiHint e1 len e2, ?_, .of_same hem .abiHint hst hready⟩
    simp only [flattenStmt, he1, ok_bind, he2]
    rfl
  | dirty d =>
    have haddr := hready.typed
    simp only [tcStmt, Bool.and_eq_true] at haddr
    obtain ⟨⟨⟨⟨⟨⟨⟨⟨⟨⟨-, -⟩, haddr⟩, -⟩, -⟩, -⟩, -⟩, -⟩, -⟩, -⟩, -⟩ := haddr
    by_cases hfx : d.mFx = .None
    · simp only [hfx, if_true, Bool.and_eq_true, Option.isNone_iff_eq_none] at haddr
      have hexprs : (IRStmt.dirty d).exprs = d.mAddr.toList ++ d.guard :: d.args := by
        simp [IRStmt.exprs, hfx, haddr.1]
      rw [hexprs] at hst
      rw [hexprs, haddr.1] at hl
      obtain ⟨g', bb₂, args', hg, hargs, rfl⟩ := flattenArgs_cons hl
      refine ⟨_, new, .dirty { d with mAddr := none, guard := g', args := args' }, ?_,
        .of_same hem (.dirty (fun _ => haddr.1) (by rw [haddr.1])) hst hready⟩
      simp only [flattenStmt, hfx, haddr.1, Option.isNone_none, assertThat_of, ok_bind, pure_bind, hg, hargs]
      rfl
    · simp only [hfx, if_false, Bool.and_eq_true] at haddr
      obtain ⟨a, ha⟩ := Option.isSome_iff_exists.mp haddr.1
      have hexprs : (IRStmt.dirty d).exprs = d.mAddr.toList ++ d.guard :: d.args := by
        simp [IRStmt.exprs, hfx]
      rw [hexprs] at hst
      rw [hexprs, ha] at hl
      obtain ⟨a', bb₂, l', hea, hl', rfl⟩ := flattenArgs_cons hl
      obtain ⟨g', bb₃, args', hg, hargs, rfl⟩ := flattenArgs_cons hl'
      refine ⟨_, new, .dirty { d with mAddr := some a', guard := g', args := args' }, ?_,
        .of_same hem (.dirty (fun h => absurd h hfx) (by rw [ha]; rfl)) hst hready⟩
      simp only [flattenStmt, ha]
      cases hmfx : d.mFx with
      | None => exact absurd hmfx hfx
      | _ =>
        simp only [hea, ok_bind, pure_bind, hg, hargs]
        rfl

/-- What the statement and those of the flattened block do, from states with the same world
and the same temporaries of the original block. -/
theorem FlatStmt.run {T₀ T : IRTypeEnv} (h : FlatStmt gWordTy ds bb bb₁ new st st') (M : Interp)
    (hbase : ∃ tys, bb.tyenv = T₀ ++ tys) (hT : ∃ tys, T = bb₁.tyenv ++ tys)
    (huses : ∀ t ∈ st.uses, t < T₀.length) (hdef : ∀ t, st.def? = some t → t < T₀.length)
    {s s' : State} (hs : EqBelow T₀.length s s') :
    Straight.Agree (EqBelow T₀.length) (fun s s' => s'.world = s.world) (runStmts M T₀ s [st])
      (runStmts M T s' (new ++ [st'])) := by
  obtain ⟨tys₀, htys₀⟩ := hbase
  obtain ⟨tys, rfl⟩ := hT
  obtain ⟨hnone, hworld, htmps⟩ := h.emits.run M (bb₁.tyenv ++ tys) s'
  have hle : T₀.length ≤ bb.tyenv.length := by simp [htys₀]
  have heff : Vex.effect M (bb₁.tyenv ++ tys) (runStmts M (bb₁.tyenv ++ tys) s' new).1.tmps s'.world st' =
      Vex.effect M T₀ s.tmps s.world st := by
    rw [effect_append (fun t ht => h.emits.range' t (h.uses t ht)) fun t ht =>
      Nat.lt_of_lt_of_le (hdef t (h.def_eq ▸ ht)) (Nat.le_trans hle h.emits.length_le),
      h.effect, htys₀, effect_append huses hdef, hs.world]
    exact effect_congr fun t ht => hs.tmps t (huses t ht)
  have hleft : runStmts M T₀ s [st] = execStmt M T₀ s st := Straight.run_singleton
  have hright : runStmts M (bb₁.tyenv ++ tys) s' (new ++ [st']) =
      execStmt M (bb₁.tyenv ++ tys) (runStmts M (bb₁.tyenv ++ tys) s' new).1 st' := by
    rw [runStmts_append_of_next hnone]
    exact Straight.run_singleton
  rw [hleft, hright]
  simp only [execStmt, hworld, heff]
  refine ⟨rfl, fun _ => ⟨rfl, fun t ht => ?_⟩, fun _ => rfl⟩
  exact assign_congr ((htmps t (Nat.lt_of_lt_of_le ht hle)).trans (hs.tmps t ht)) _

end FlatStmt

/-! ## Blocks -/

/-- The statements `sts` of a block with temporaries `T₀` are flattened to `new`. -/
structure FlatStmts (gWordTy : IRType) (T₀ : IRTypeEnv) (ds : List IRTemp) (bb bb' : IRSB)
    (sts new : List IRStmt) : Prop where
  stmts : bb'.stmts = bb.stmts ++ new
  base : ∃ tys, bb.tyenv = T₀ ++ tys
  tyenv : ∃ tys, bb'.tyenv = bb.tyenv ++ tys
  range : ∀ t ∈ ds, t < bb.tyenv.length
  old : ∀ t ∈ defsOf sts, t < T₀.length
  defs : ∀ t ∈ defsOf new, t ∈ defsOf sts ∨ bb.tyenv.length ≤ t ∧ t < bb'.tyenv.length
  keeps : ∀ t ∈ defsOf sts, t ∈ defsOf new
  flat : ∀ st ∈ new, isFlatIRStmt st = true
  typed : ∀ st ∈ new, tcStmt bb'.tyenv gWordTy st = true
  nodup : (defsOf new).Nodup
  uses : UsesDefined ds new (.const (.U1 false))
  run : ∀ M T, (∃ tys, T = bb'.tyenv ++ tys) → ∀ s s', EqBelow T₀.length s s' →
    Straight.Agree (EqBelow T₀.length) (fun s s' => s'.world = s.world) (runStmts M T₀ s sts)
      (runStmts M T s' new)

section FlatStmts

variable {gWordTy : IRType} {T₀ : IRTypeEnv} {ds : List IRTemp} {bb bb₁ bb₂ : IRSB}
  {sts sts₁ sts₂ new new₁ new₂ : List IRStmt}

theorem FlatStmts.base_le (h : FlatStmts gWordTy T₀ ds bb bb₁ sts new) : T₀.length ≤ bb.tyenv.length := by
  obtain ⟨tys, htys⟩ := h.base
  simp [htys]

theorem FlatStmts.length_le (h : FlatStmts gWordTy T₀ ds bb bb₁ sts new) :
    bb.tyenv.length ≤ bb₁.tyenv.length := by
  obtain ⟨tys, htys⟩ := h.tyenv
  simp [htys]

/-- Everything assigned so far is in range. -/
theorem FlatStmts.range' (h : FlatStmts gWordTy T₀ ds bb bb₁ sts new) :
    ∀ t ∈ defsOf new ++ ds, t < bb₁.tyenv.length := by
  intro t ht
  rcases List.mem_append.mp ht with ht | ht
  · rcases h.defs t ht with ht | ht
    · exact Nat.lt_of_lt_of_le (h.old t ht) (Nat.le_trans h.base_le h.length_le)
    · exact ht.2
  · exact Nat.lt_of_lt_of_le (h.range t ht) h.length_le

/-- Assignments to new temporaries alone. -/
theorem Emits.flatStmts (h : Emits gWordTy ds bb bb₁ new) (hbase : ∃ tys, bb.tyenv = T₀ ++ tys) :
    FlatStmts gWordTy T₀ ds bb bb₁ [] new := by
  refine ⟨h.stmts, hbase, h.tyenv, h.range, fun _ hm => (nomatch hm), fun t ht => .inr (h.fresh t ht),
    fun _ hm => (nomatch hm), h.flat, h.typed, h.nodup, h.uses, fun M T _ s s' hs => ?_⟩
  obtain ⟨hnone, hworld, htmps⟩ := h.run M T s'
  obtain ⟨tys, htys⟩ := hbase
  have hle : T₀.length ≤ bb.tyenv.length := by simp [htys]
  refine ⟨hnone.symm, fun _ => ⟨hworld.trans hs.world, fun t ht => ?_⟩, fun hne => absurd rfl hne⟩
  exact (htmps t (Nat.lt_of_lt_of_le ht hle)).trans (hs.tmps t ht)

/-- One statement. -/
theorem FlatStmt.flatStmts {st st' : IRStmt} (h : FlatStmt gWordTy ds bb bb₁ new st st')
    (hbase : ∃ tys, bb.tyenv = T₀ ++ tys) (huses : ∀ t ∈ st.uses, t < T₀.length)
    (hdef : ∀ t, st.def? = some t → t < T₀.length) :
    FlatStmts gWordTy T₀ ds bb (addStmtToIRSB bb₁ st') [st] (new ++ [st']) := by
  have hem := h.emits
  have hdefs : defsOf (new ++ [st']) = defsOf new ++ st.def?.toList := by
    rw [defsOf_append, defsOf_cons, defsOf_nil, List.append_nil, h.def_eq]
  have hst : defsOf [st] = st.def?.toList := by rw [defsOf_cons, defsOf_nil, List.append_nil]
  have hle : T₀.length ≤ bb.tyenv.length := by
    obtain ⟨tys, htys⟩ := hbase
    simp [htys]
  refine ⟨by simp [addStmtToIRSB, hem.stmts], hbase, hem.tyenv, hem.range, ?_, ?_, ?_, ?_, ?_, ?_,
    hem.uses.append ⟨h.uses, by simp [UsesDefined, IRExpr.temps]⟩,
    fun M T hT s s' hs => h.run M hbase hT huses hdef hs⟩
  · rw [hst]
    exact fun t ht => hdef t (Option.mem_toList.mp ht)
  · rw [hdefs, hst]
    intro t ht
    exact (List.mem_append.mp ht).elim (fun ht => .inr (hem.fresh t ht)) .inl
  · rw [hdefs, hst]
    exact fun t ht => List.mem_append_right _ ht
  · intro st hst
    rcases List.mem_append.mp hst with hst | hst
    · exact hem.flat st hst
    · rw [List.mem_singleton.mp hst]
      exact h.flat
  · intro st hst
    rcases List.mem_append.mp hst with hst | hst
    · exact hem.typed st hst
    · rw [List.mem_singleton.mp hst]
      exact h.typed
  · rw [hdefs]
    refine List.nodup_append.mpr ⟨hem.nodup, st.def?.toList_nodup, fun t ht u hu htu => ?_⟩
    have hlt := hdef u (Option.mem_toList.mp hu)
    have hge := (hem.fresh t ht).1
    subst htu
    exact absurd (Nat.lt_of_lt_of_le hlt hle) (Nat.not_lt.mpr hge)

theorem FlatStmts.trans (h₁ : FlatStmts gWordTy T₀ ds bb bb₁ sts₁ new₁)
    (h₂ : FlatStmts gWordTy T₀ (defsOf new₁ ++ ds) bb₁ bb₂ sts₂ new₂)
    (hnodup : ∀ t ∈ defsOf sts₁, t ∉ defsOf sts₂) :
    FlatStmts gWordTy T₀ ds bb bb₂ (sts₁ ++ sts₂) (new₁ ++ new₂) := by
  obtain ⟨tys₁, htys₁⟩ := h₁.tyenv
  obtain ⟨tys₂, htys₂⟩ := h₂.tyenv
  refine ⟨by rw [h₂.stmts, h₁.stmts, List.append_assoc], h₁.base,
    ⟨tys₁ ++ tys₂, by rw [htys₂, htys₁, List.append_assoc]⟩, h₁.range, ?_, ?_, ?_, ?_, ?_, ?_,
    h₁.uses.append h₂.uses, fun M T hT s s' hs => ?_⟩
  · rw [defsOf_append]
    exact fun t ht => (List.mem_append.mp ht).elim (h₁.old t) (h₂.old t)
  · intro t ht
    rw [defsOf_append] at ht ⊢
    rcases List.mem_append.mp ht with ht | ht
    · rcases h₁.defs t ht with hd | hd
      · exact .inl (List.mem_append_left _ hd)
      · exact .inr ⟨hd.1, Nat.lt_of_lt_of_le hd.2 h₂.length_le⟩
    · rcases h₂.defs t ht with hd | hd
      · exact .inl (List.mem_append_right _ hd)
      · exact .inr ⟨Nat.le_trans h₁.length_le hd.1, hd.2⟩
  · intro t ht
    rw [defsOf_append] at ht ⊢
    exact List.mem_append.mpr ((List.mem_append.mp ht).imp (h₁.keeps t) (h₂.keeps t))
  · intro st hst
    exact (List.mem_append.mp hst).elim (h₁.flat st) (h₂.flat st)
  · intro st hst
    rcases List.mem_append.mp hst with hst | hst
    · rw [htys₂]
      refine tcStmt_append (fun t ht => h₁.range' t ?_) (h₁.typed st hst)
      exact List.mem_append.mpr (h₁.uses.mem hst ht).symm
    · exact h₂.typed st hst
  · rw [defsOf_append]
    refine List.nodup_append.mpr ⟨h₁.nodup, h₂.nodup, fun t ht u hu htu => ?_⟩
    subst htu
    rcases h₁.defs t ht with hd₁ | hd₁
    · rcases h₂.defs t hu with hd₂ | hd₂
      · exact hnodup t hd₁ hd₂
      -- a temporary of the original block is not new
      · exact absurd (Nat.lt_of_lt_of_le (h₁.old t hd₁) h₂.base_le) (Nat.not_lt.mpr hd₂.1)
    · rcases h₂.defs t hu with hd₂ | hd₂
      · exact absurd (Nat.lt_of_lt_of_le (h₂.old t hd₂) h₁.base_le) (Nat.not_lt.mpr hd₁.1)
      · exact absurd hd₁.2 (Nat.not_lt.mpr hd₂.1)
  · refine Straight.Agree.append (h₁.run M T ?_ s s' hs) (h₂.run M T hT)
    obtain ⟨tys, rfl⟩ := hT
    exact ⟨tys₂ ++ tys, by rw [htys₂, List.append_assoc]⟩

/-- The block has types for the operands of its expressions too, at any depth. -/
def IRSB.ExprsTyped (bb : IRSB) (gWordTy : IRType) : Prop :=
  (∀ st ∈ bb.stmts, ∀ e ∈ st.exprs, tcExpr bb.tyenv gWordTy e = true) ∧
    tcExpr bb.tyenv gWordTy bb.next = true

instance (bb : IRSB) (gWordTy : IRType) : Decidable (bb.ExprsTyped gWordTy) :=
  inferInstanceAs (Decidable (_ ∧ _))

/-- The loop of `flatten_BB`: `ds₀` are the temporaries of the original block assigned so
far. -/
theorem flattenStmts_spec (ltr : Bool) (ds₀ : List IRTemp) {next : IRExpr} (hbase : ∃ tys, bb.tyenv = T₀ ++ tys)
    (hds : ∀ t ∈ ds, t < bb.tyenv.length) (hds₀ : ∀ t ∈ ds₀, t ∈ ds ∧ t < T₀.length)
    (htc : ∀ st ∈ sts, tcStmt T₀ gWordTy st = true)
    (hexprs : ∀ st ∈ sts, ∀ e ∈ st.exprs, tcExpr T₀ gWordTy e = true)
    (huses : UsesDefined ds₀ sts next) (hnodup : (defsOf sts).Nodup) :
    ∃ bb' new, flattenStmts ltr bb sts = .ok bb' ∧ FlatStmts gWordTy T₀ ds bb bb' sts new := by
  induction sts generalizing bb ds ds₀ with
  | nil => exact ⟨bb, [], rfl, (Emits.refl _ _ hds).flatStmts hbase⟩
  | cons st rest ih =>
    have hdef : ∀ t, st.def? = some t → t < T₀.length :=
      fun t ht => def_lt_of_tcStmt (htc st List.mem_cons_self) ht
    have husest : ∀ t ∈ st.uses, t < T₀.length := fun t ht => (hds₀ t (huses.1 t ht)).2
    have hready : StmtReady gWordTy ds bb st := by
      obtain ⟨tys, htys⟩ := hbase
      refine ⟨?_, fun e he => ⟨?_, fun t ht => (hds₀ t (huses.1 t (mem_uses.mpr ⟨e, he, ht⟩))).1⟩,
        fun t ht => ?_⟩
      · rw [htys]
        exact tcStmt_append husest (htc st List.mem_cons_self)
      · rw [htys]
        exact tcExpr_append (fun t ht => husest t (mem_uses.mpr ⟨e, he, ht⟩))
          (hexprs st List.mem_cons_self e he)
      · rw [htys, List.length_append]
        exact Nat.lt_add_right _ (hdef t ht)
    obtain ⟨bb₁, new₁, st', hst, hflat⟩ := flattenStmt_spec ltr hds hready
    have h₁ := hflat.flatStmts hbase husest hdef
    have hbase₁ : ∃ tys, (addStmtToIRSB bb₁ st').tyenv = T₀ ++ tys := by
      obtain ⟨tys, htys⟩ := h₁.base
      obtain ⟨tys', htys'⟩ := h₁.tyenv
      exact ⟨tys ++ tys', by rw [htys', htys, List.append_assoc]⟩
    rw [defsOf_cons] at hnodup
    obtain ⟨-, hnodup', hdisj⟩ := List.nodup_append.mp hnodup
    have hst₀ : defsOf [st] = st.def?.toList := by rw [defsOf_cons, defsOf_nil, List.append_nil]
    obtain ⟨bb', new₂, hrest, h₂⟩ := ih (st.def?.toList ++ ds₀) hbase₁ h₁.range' (fun t ht => by
      rcases List.mem_append.mp ht with ht | ht
      · exact ⟨List.mem_append_left _ (h₁.keeps t (hst₀ ▸ ht)), h₁.old t (hst₀ ▸ ht)⟩
      · exact ⟨List.mem_append_right _ (hds₀ t ht).1, (hds₀ t ht).2⟩)
      (fun st hm => htc st (List.mem_cons_of_mem _ hm))
      (fun st hm => hexprs st (List.mem_cons_of_mem _ hm)) huses.2 hnodup'
    refine ⟨bb', (new₁ ++ [st']) ++ new₂, ?_, h₁.trans h₂ fun t ht ht' => ?_⟩
    · rw [flattenStmts, hst]
      exact hrest
    · exact hdisj t (hst₀ ▸ ht) t ht' rfl

/-- The flattened statements, then the assignments for `next`, do what the block does. -/
theorem FlatStmts.sameMeaning {start out : IRSB} {next' : IRExpr}
    (h₁ : FlatStmts gWordTy bb.tyenv ds start out bb.stmts new₁)
    (h₂ : Emits gWordTy (defsOf new₁ ++ ds) out bb₂ new₂)
    (hst : Stands (defsOf new₁ ++ ds) out bb₂ new₂ bb.next next')
    (hnext : ∀ t ∈ bb.next.temps, t < bb.tyenv.length) :
    SameMeaning bb { tyenv := bb₂.tyenv, stmts := new₁ ++ new₂, next := next', jumpkind := bb.jumpkind } := by
  intro M w
  have hrun := h₁.run M bb₂.tyenv h₂.tyenv ⟨noTmps, w⟩ ⟨noTmps, w⟩ ⟨rfl, fun _ _ => rfl⟩
  show finish M bb.next bb.jumpkind (runStmts M bb.tyenv ⟨noTmps, w⟩ bb.stmts) =
    finish M next' bb.jumpkind (runStmts M bb₂.tyenv ⟨noTmps, w⟩ (new₁ ++ new₂))
  rcases hl : runStmts M bb.tyenv ⟨noTmps, w⟩ bb.stmts with ⟨s, x⟩
  rcases hr : runStmts M bb₂.tyenv ⟨noTmps, w⟩ new₁ with ⟨s', y⟩
  rw [hl, hr] at hrun
  obtain ⟨rfl, hnone, hsome⟩ := hrun
  cases x with
  | some x =>
    rw [runStmts, Straight.run_append_of_exit hr]
    exact Prod.ext (hsome (by simp)).symm rfl
  | none =>
    obtain ⟨hworld, htmps⟩ := hnone rfl
    obtain ⟨hn, hw, -⟩ := h₂.run M bb₂.tyenv s'
    have hval := hst.eval M bb₂.tyenv s'
    have hnext' : evalExpr M s'.tmps s.world bb.next = evalExpr M s.tmps s.world bb.next :=
      evalExpr_congr _ fun t ht => htmps t (hnext t ht)
    rw [runStmts, Straight.run_append_of_next hr]
    show _ = finish M next' bb.jumpkind (runStmts M bb₂.tyenv s' new₂)
    rw [show runStmts M bb₂.tyenv s' new₂ = ((runStmts M bb₂.tyenv s' new₂).1, none) from Prod.ext rfl hn]
    simp only [finish]
    rw [hw, hval, hworld, hnext']

end FlatStmts

/-- **Flattening** returns, whichever way the compiler evaluates arguments, a flat, well-typed
block in SSA form, with more temporaries, that means the same. -/
theorem flattenBB_correct (ltr : Bool) (bb : IRSB) (gWordTy : IRType) (hssa : bb.IsSSA)
    (hdef : bb.DefinedBeforeUse) (htyped : bb.WellTyped gWordTy) (hexprs : bb.ExprsTyped gWordTy) :
    ∃ bb', flattenBB ltr bb = .ok bb' ∧ bb'.Valid gWordTy ∧ bb.tyenv <+: bb'.tyenv ∧
      SameMeaning bb bb' := by
  let empty : IRSB := { tyenv := bb.tyenv, stmts := [], next := bb.next, jumpkind := bb.jumpkind }
  obtain ⟨out, new₁, hout, h₁⟩ := show ∃ out new₁, flattenStmts ltr empty bb.stmts = .ok out ∧
      FlatStmts gWordTy bb.tyenv [] empty out bb.stmts new₁ from flattenStmts_spec ltr []
    ⟨[], (List.append_nil _).symm⟩ (fun _ hm => (nomatch hm)) (fun _ hm => (nomatch hm)) htyped.2.1 hexprs.1 hdef hssa
  have hnext : ∀ t ∈ bb.next.temps, t ∈ defsOf bb.stmts := fun t ht =>
    (hdef.next_defined ht).resolve_left fun hm => nomatch hm
  obtain ⟨tys, htys⟩ := h₁.tyenv
  have hbase : ∃ tys, out.tyenv = bb.tyenv ++ tys := ⟨tys, htys⟩
  have hready : Ready gWordTy (defsOf new₁ ++ []) out bb.next := by
    refine ⟨?_, fun t ht => List.mem_append_left _ (h₁.keeps t (hnext t ht))⟩
    rw [htys]
    exact tcExpr_append (fun t ht => h₁.old t (hnext t ht)) hexprs.2
  obtain ⟨next', bb₂, new₂, hflat, hem, hst⟩ := flattenExpr_spec gWordTy ltr bb.next _ out h₁.range'
    fun e he => by rwa [List.mem_singleton.mp he]
  have hstands := (List.forall₂_cons.mp hst).1
  have h := h₁.trans (hem.flatStmts hbase) fun _ _ hm => nomatch hm
  rw [List.append_nil] at h
  have hstmts : bb₂.stmts = new₁ ++ new₂ := h.stmts
  refine ⟨{ bb₂ with next := next', jumpkind := bb.jumpkind }, ?_, ⟨?_, ?_, ?_, htyped.1, ?_, ?_⟩, ?_, ?_⟩
  · rw [flattenBB, hout]
    simp only [ok_bind, hflat]
    rfl
  · exact Bool.and_eq_true_iff.mpr ⟨List.all_eq_true.mpr (hstmts ▸ h.flat), hstands.atom⟩
  · show (defsOf bb₂.stmts).Nodup
    rw [hstmts]
    exact h.nodup
  · have hu : UsesDefined [] (new₁ ++ new₂ ++ []) next' := h.uses.append fun t ht => by
      simpa [defsOf_append, or_comm, or_left_comm] using hstands.temps t ht
    show UsesDefined [] bb₂.stmts next'
    rwa [hstmts, ← List.append_nil (new₁ ++ new₂)]
  · show ∀ st ∈ bb₂.stmts, _
    rw [hstmts]
    exact h.typed
  · show hasType bb₂.tyenv next' gWordTy = true
    rw [hasType_congr hstands.type, htys, hasType_congr (typeOfIRExpr_append fun t ht => h₁.old t (hnext t ht))]
    exact htyped.2.2
  · obtain ⟨tys', htys'⟩ := h.tyenv
    exact ⟨tys', htys'.symm⟩
  · have hsame := h₁.sameMeaning hem hstands fun t ht => h₁.old t (hnext t ht)
    rwa [← hstmts] at hsame

/-- `t0 = LDle:I32(Add32(GET:I32(0), 4)); PUT(0) = Add32(t0, Add32(t0, 1)); goto Add32(t0, 8)`. -/
def nestedBB : IRSB where
  tyenv := [.I32]
  stmts := [.wrTmp 0 (.load .LE .I32 (.binop (.add .w32) (.get 0 .I32) (.const (.U32 4)))),
    .put 0 (.binop (.add .w32) (.rdTmp 0) (.binop (.add .w32) (.rdTmp 0) (.const (.U32 1))))]
  next := .binop (.add .w32) (.rdTmp 0) (.const (.U32 8))
  jumpkind := .Boring

theorem flattenBB_correct_nested : ∃ bb', flattenBB false nestedBB = .ok bb' ∧ bb'.Valid .I32 ∧
    nestedBB.tyenv <+: bb'.tyenv ∧ SameMeaning nestedBB bb' :=
  flattenBB_correct false nestedBB .I32 (by decide) (by decide) (by decide) (by decide)

end Valgrind.Vex
