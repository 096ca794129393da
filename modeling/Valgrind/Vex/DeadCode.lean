import Valgrind.Vex.Semantics

/-!
# Dead code removal

`do_deadcode_BB` of `iropt.c` walks backwards over a block with the set of the
temporaries used so far. It deletes assignments to temporaries that are not in the
set and dirty calls whose guard is the constant false, and it cuts the block at
the earliest exit whose guard is the constant true.

Deleting a dirty call deletes the definition of its result temporary as well. The
block therefore keeps its meaning, and its well-formedness, exactly when no such
result is used by what is left of the block (`LosesResult`).
-/

namespace Valgrind.Vex

/-! ## The pass -/

/-- `addUses_Temp`. -/
def addUsesTemp (set : IRTemp → Bool) (tmp : IRTemp) : IRTemp → Bool :=
  fun t => t == tmp || set t

mutual

/-- `addUses_Expr`. -/
def addUsesExpr (set : IRTemp → Bool) : IRExpr → IRTemp → Bool
  | .getI _ ix _ => addUsesExpr set ix
  | .mux0X cond expr0 exprX => addUsesExpr (addUsesExpr (addUsesExpr set cond) expr0) exprX
  | .ccall _ _ args => addUsesArgs set args
  | .load _ _ addr => addUsesExpr set addr
  | .qop _ arg1 arg2 arg3 arg4 =>
    addUsesExpr (addUsesExpr (addUsesExpr (addUsesExpr set arg1) arg2) arg3) arg4
  | .triop _ arg1 arg2 arg3 => addUsesExpr (addUsesExpr (addUsesExpr set arg1) arg2) arg3
  | .binop _ arg1 arg2 => addUsesExpr (addUsesExpr set arg1) arg2
  | .unop _ arg => addUsesExpr set arg
  | .rdTmp tmp => addUsesTemp set tmp
  | .const _ => set
  | .get _ _ => set

/-- The loop over a vector of arguments. -/
def addUsesArgs (set : IRTemp → Bool) : List IRExpr → IRTemp → Bool
  | [] => set
  | e :: es => addUsesArgs (addUsesExpr set e) es

end

/-- `addUses_Stmt`. -/
def addUsesStmt (set : IRTemp → Bool) : IRStmt → IRTemp → Bool
  | .abiHint base _ nia => addUsesExpr (addUsesExpr set base) nia
  | .putI _ ix _ data => addUsesExpr (addUsesExpr set ix) data
  | .wrTmp _ data => addUsesExpr set data
  | .put _ data => addUsesExpr set data
  | .store _ addr data => addUsesExpr (addUsesExpr set addr) data
  | .dirty d =>
    let set := if d.mFx ≠ .None then (d.mAddr.map (addUsesExpr set)).getD set else set
    addUsesArgs (addUsesExpr set d.guard) d.args
  | .noOp => set
  | .iMark _ _ => set
  | .mbe _ => set
  | .exit guard _ _ => addUsesExpr set guard

/-- `isZeroU1`: the constant false. -/
def isZeroU1 : IRExpr → Bool
  | .const (.U1 v) => v == false
  | _ => false

/-- `isOneU1`: the constant true. -/
def isOneU1 : IRExpr → Bool
  | .const (.U1 v) => v == true
  | _ => false

/-- The statement is an exit that is always taken. -/
def isUnconditionalExit : IRStmt → Bool
  | .exit guard _ _ => isOneU1 guard
  | _ => false

/-- What the first pass does with a statement, given the temporaries used after it. -/
def deadcodeStmt (set : IRTemp → Bool) : IRStmt → IRStmt × (IRTemp → Bool)
  | .noOp => (.noOp, set)
  | .wrTmp tmp data =>
    if set tmp = false then (.noOp, set) else (.wrTmp tmp data, addUsesStmt set (.wrTmp tmp data))
  | .dirty d =>
    if isZeroU1 d.guard then (.noOp, set) else (.dirty d, addUsesStmt set (.dirty d))
  | st => (st, addUsesStmt set st)

/-- The first pass over the statements from number `i` on: the statements that it
leaves, the temporaries used, and `i_unconditional_exit`. -/
def deadcodeFirst : Nat → List IRStmt → (IRTemp → Bool) →
    List IRStmt × (IRTemp → Bool) × Option Nat
  | _, [], set => ([], set, none)
  | i, st :: rest, set =>
    let (rest', set, iUncond) := deadcodeFirst (i + 1) rest set
    let (st', set) := deadcodeStmt set st
    (st' :: rest', set, if isUnconditionalExit st then some i else iUncond)

/-- `do_deadcode_BB`. -/
def doDeadcodeBB (bb : IRSB) : IRSB :=
  let set := addUsesExpr (fun _ => false) bb.next
  let (stmts, _, iUncond) := deadcodeFirst 0 bb.stmts set
  match iUncond with
  | none => { bb with stmts := stmts }
  | some i =>
    match stmts[i]? with
    | some (.exit _ jk dst) =>
      { bb with
        stmts := stmts.take i ++ List.replicate (stmts.length - i) .noOp
        next := .const dst
        jumpkind := jk }
    | _ => { bb with stmts := stmts }

/-! ## What is used

The predicates that follow speak about the block before the pass. -/

/-- The first pass keeps the statement: it is not an assignment to a temporary that
is never needed, and not a dirty call that is never made. -/
def Kept (needed : IRTemp → Prop) : IRStmt → Prop
  | .noOp => False
  | .wrTmp tmp _ => needed tmp
  | .dirty d => isZeroU1 d.guard = false
  | _ => True

/-- The temporary is read by the final jump or by a statement that is kept. -/
def Needed (next : IRExpr) : List IRStmt → IRTemp → Prop
  | [], t => t ∈ next.temps
  | st :: rest, t => Needed next rest t ∨ (Kept (Needed next rest) st ∧ t ∈ st.uses)

/-- The temporary is read by what is left of the block: by a statement that is kept
and stands before every unconditional exit or, if there is no such exit, by the
final jump. -/
def UsedByRest (next : IRExpr) : List IRStmt → IRTemp → Prop
  | [], t => t ∈ next.temps
  | st :: rest, t =>
    isUnconditionalExit st = false ∧
      (UsedByRest next rest t ∨ (Kept (Needed next rest) st ∧ t ∈ st.uses))

/-- A dirty call whose guard is the constant false, not preceded by an unconditional
exit, has a result that is used by what is left of the block. -/
def LosesResult (next : IRExpr) : List IRStmt → Prop
  | [] => False
  | st :: rest =>
    isUnconditionalExit st = false ∧
      (LosesResult next rest ∨
        ∃ d t, st = .dirty d ∧ isZeroU1 d.guard = true ∧ d.tmp = some t ∧ UsedByRest next rest t)

theorem needed_of_usedByRest {next : IRExpr} {stmts : List IRStmt} {t : IRTemp}
    (h : UsedByRest next stmts t) : Needed next stmts t := by
  induction stmts with
  | nil => exact h
  | cons st rest ih => exact h.2.imp ih id

/-! ## What the pass computes -/

@[simp] theorem addUsesTemp_eq_true {set : IRTemp → Bool} {tmp t : IRTemp} :
    addUsesTemp set tmp t = true ↔ set t = true ∨ t = tmp := by
  simp [addUsesTemp, or_comm]

mutual

theorem addUsesExpr_eq_true {t : IRTemp} :
    ∀ (set : IRTemp → Bool) (e : IRExpr), addUsesExpr set e t = true ↔ set t = true ∨ t ∈ e.temps
  | _, .get _ _ => by simp [addUsesExpr, IRExpr.temps]
  | set, .getI _ ix _ => by simp [addUsesExpr, IRExpr.temps, addUsesExpr_eq_true set ix]
  | _, .rdTmp _ => by simp [addUsesExpr, IRExpr.temps]
  | _, .qop _ arg1 arg2 arg3 arg4 => by
    simp [addUsesExpr, IRExpr.temps, addUsesExpr_eq_true _ arg1, addUsesExpr_eq_true _ arg2,
      addUsesExpr_eq_true _ arg3, addUsesExpr_eq_true _ arg4, or_assoc]
  | _, .triop _ arg1 arg2 arg3 => by
    simp [addUsesExpr, IRExpr.temps, addUsesExpr_eq_true _ arg1, addUsesExpr_eq_true _ arg2,
      addUsesExpr_eq_true _ arg3, or_assoc]
  | _, .binop _ arg1 arg2 => by
    simp [addUsesExpr, IRExpr.temps, addUsesExpr_eq_true _ arg1, addUsesExpr_eq_true _ arg2,
      or_assoc]
  | set, .unop _ arg => by simp [addUsesExpr, IRExpr.temps, addUsesExpr_eq_true set arg]
  | set, .load _ _ addr => by simp [addUsesExpr, IRExpr.temps, addUsesExpr_eq_true set addr]
  | _, .const _ => by simp [addUsesExpr, IRExpr.temps]
  | set, .ccall _ _ args => by simp [addUsesExpr, IRExpr.temps, addUsesArgs_eq_true set args]
  | _, .mux0X cond expr0 exprX => by
    simp [addUsesExpr, IRExpr.temps, addUsesExpr_eq_true _ cond, addUsesExpr_eq_true _ expr0,
      addUsesExpr_eq_true _ exprX, or_assoc]

theorem addUsesArgs_eq_true {t : IRTemp} :
    ∀ (set : IRTemp → Bool) (args : List IRExpr),
      addUsesArgs set args t = true ↔ set t = true ∨ t ∈ tempsOfArgs args
  | _, [] => by simp [addUsesArgs, tempsOfArgs]
  | _, e :: es => by
    simp [addUsesArgs, tempsOfArgs, addUsesArgs_eq_true _ es, addUsesExpr_eq_true _ e, or_assoc]

end

theorem addUsesStmt_eq_true {set : IRTemp → Bool} {st : IRStmt} {t : IRTemp} :
    addUsesStmt set st t = true ↔ set t = true ∨ t ∈ st.uses := by
  cases st with
  | dirty d =>
    have haddr : ((if d.mFx ≠ .None then (d.mAddr.map (addUsesExpr set)).getD set else set) t
        = true) ↔
        set t = true ∨ t ∈ if d.mFx ≠ .None then (d.mAddr.map IRExpr.temps).getD [] else [] := by
      split
      · cases d.mAddr with
        | none => simp
        | some e => simp [addUsesExpr_eq_true]
      · simp
    simp only [addUsesStmt, IRStmt.uses, addUsesArgs_eq_true, addUsesExpr_eq_true, haddr,
      List.mem_append, or_assoc]
  | _ => simp [addUsesStmt, IRStmt.uses, addUsesExpr_eq_true, or_assoc]

/-- What the first pass does to a statement that it keeps, and to one that it does not. -/
theorem deadcodeStmt_cases (set : IRTemp → Bool) (st : IRStmt) :
    (Kept (fun t => set t = true) st ∧ (deadcodeStmt set st).1 = st ∧
      ∀ t, (deadcodeStmt set st).2 t = true ↔ set t = true ∨ t ∈ st.uses) ∨
    (¬ Kept (fun t => set t = true) st ∧ deadcodeStmt set st = (.noOp, set)) := by
  cases st with
  | noOp => exact .inr ⟨fun h => h, rfl⟩
  | wrTmp tmp data =>
    by_cases h : set tmp = true
    · exact .inl ⟨h, by simp [deadcodeStmt, h], fun t => by
        simp [deadcodeStmt, h, addUsesStmt_eq_true]⟩
    · exact .inr ⟨h, by simp [deadcodeStmt, h]⟩
  | dirty d =>
    by_cases h : isZeroU1 d.guard = true
    · exact .inr ⟨fun hk => absurd h (by simpa [Kept] using hk), by simp [deadcodeStmt, h]⟩
    · exact .inl ⟨by simpa [Kept] using h, by simp [deadcodeStmt, h], fun t => by
        simp [deadcodeStmt, h, addUsesStmt_eq_true]⟩
  | _ => exact .inl ⟨trivial, rfl, fun t => by simp only [deadcodeStmt, addUsesStmt_eq_true]⟩

/-- The temporaries that the first pass has recorded are the needed ones. -/
theorem deadcodeFirst_set {next : IRExpr} {set : IRTemp → Bool}
    (hset : ∀ t, set t = true ↔ t ∈ next.temps) (i : Nat) (stmts : List IRStmt) (t : IRTemp) :
    (deadcodeFirst i stmts set).2.1 t = true ↔ Needed next stmts t := by
  induction stmts generalizing i t with
  | nil => exact hset t
  | cons st rest ih =>
    have hneeded : (fun t => (deadcodeFirst (i + 1) rest set).2.1 t = true) = Needed next rest :=
      funext fun t => propext (ih (i + 1) t)
    have hcases := deadcodeStmt_cases (deadcodeFirst (i + 1) rest set).2.1 st
    rw [hneeded] at hcases
    simp only [deadcodeFirst, Needed]
    rcases hcases with ⟨hk, -, hmem⟩ | ⟨hk, heq⟩
    · rw [hmem, ih]
      simp [hk]
    · rw [heq]
      simp [hk, ih]

/-- What is left of a block: the statements up to the earliest unconditional exit,
those that are not kept turned into no-ops, and from there on only no-ops, with the
exit's target as the final jump. -/
inductive Residue (next : IRExpr) (jk : IRJumpKind) :
    List IRStmt → List IRStmt → IRExpr → IRJumpKind → Prop where
  | nil : Residue next jk [] [] next jk
  | cut {guard : IRExpr} {dst : IRConst} {jk' : IRJumpKind} (rest : List IRStmt) (n : Nat)
      (hone : isOneU1 guard = true) :
      Residue next jk (.exit guard jk' dst :: rest) (List.replicate n .noOp) (.const dst) jk'
  | kept {st : IRStmt} {rest rest' : List IRStmt} {next' : IRExpr} {jk' : IRJumpKind}
      (hexit : isUnconditionalExit st = false) (hkept : Kept (Needed next rest) st)
      (hrest : Residue next jk rest rest' next' jk') :
      Residue next jk (st :: rest) (st :: rest') next' jk'
  | dropped {st : IRStmt} {rest rest' : List IRStmt} {next' : IRExpr} {jk' : IRJumpKind}
      (hexit : isUnconditionalExit st = false) (hkept : ¬ Kept (Needed next rest) st)
      (hrest : Residue next jk rest rest' next' jk') :
      Residue next jk (st :: rest) (.noOp :: rest') next' jk'

theorem exists_exit_of_unconditional {st : IRStmt} (h : isUnconditionalExit st = true) :
    ∃ guard jk dst, st = .exit guard jk dst ∧ isOneU1 guard = true := by
  cases st with
  | exit guard jk dst => exact ⟨guard, jk, dst, rfl, h⟩
  | _ => exact nomatch h

/-- Both passes together leave the residue. -/
theorem deadcodeFirst_residue {next : IRExpr} (jk : IRJumpKind) {set : IRTemp → Bool}
    (hset : ∀ t, set t = true ↔ t ∈ next.temps) (i : Nat) (stmts : List IRStmt) :
    match (deadcodeFirst i stmts set).2.2 with
    | none => Residue next jk stmts (deadcodeFirst i stmts set).1 next jk
    | some j => i ≤ j ∧ ∃ guard jk' dst,
        (deadcodeFirst i stmts set).1[j - i]? = some (.exit guard jk' dst) ∧
        Residue next jk stmts
          ((deadcodeFirst i stmts set).1.take (j - i) ++
            List.replicate ((deadcodeFirst i stmts set).1.length - (j - i)) .noOp)
          (.const dst) jk' := by
  induction stmts generalizing i with
  | nil => exact .nil
  | cons st rest ih =>
    specialize ih (i + 1)
    have hneeded : (fun t => (deadcodeFirst (i + 1) rest set).2.1 t = true) = Needed next rest :=
      funext fun t => propext (deadcodeFirst_set hset (i + 1) rest t)
    have hcases := deadcodeStmt_cases (deadcodeFirst (i + 1) rest set).2.1 st
    rw [hneeded] at hcases
    by_cases hexit : isUnconditionalExit st = true
    · obtain ⟨guard, jk', dst, rfl, hone⟩ := exists_exit_of_unconditional hexit
      simp only [deadcodeFirst, deadcodeStmt, hexit, if_true]
      exact ⟨Nat.le_refl i, guard, jk', dst, by simp, by simpa using .cut rest _ hone⟩
    · have hexit' : isUnconditionalExit st = false := by simpa using hexit
      have hcons : ∀ {rest' next' jk'}, Residue next jk rest rest' next' jk' →
          Residue next jk (st :: rest)
            ((deadcodeStmt (deadcodeFirst (i + 1) rest set).2.1 st).1 :: rest') next' jk' := by
        intro rest' next' jk' hrest
        rcases hcases with ⟨hk, heq, -⟩ | ⟨hk, heq⟩
        · rw [heq]
          exact .kept hexit' hk hrest
        · rw [heq]
          exact .dropped hexit' hk hrest
      simp only [deadcodeFirst, hexit', Bool.false_eq_true, if_false]
      rcases hj : (deadcodeFirst (i + 1) rest set).2.2 with _ | j
      · rw [hj] at ih
        exact hcons ih
      · rw [hj] at ih
        obtain ⟨hle, guard, jk', dst, hget, hres⟩ := ih
        obtain ⟨k, hk⟩ : ∃ k, j - i = k + 1 := ⟨j - (i + 1), by omega⟩
        have hk' : j - (i + 1) = k := by omega
        rw [hk'] at hget hres
        refine ⟨by omega, guard, jk', dst, by simpa [hk] using hget, ?_⟩
        simpa [hk] using hcons hres

theorem doDeadcodeBB_residue (bb : IRSB) :
    Residue bb.next bb.jumpkind bb.stmts (doDeadcodeBB bb).stmts (doDeadcodeBB bb).next
      (doDeadcodeBB bb).jumpkind := by
  have hset : ∀ t, addUsesExpr (fun _ => false) bb.next t = true ↔ t ∈ bb.next.temps := by
    simp [addUsesExpr_eq_true]
  have h := deadcodeFirst_residue bb.jumpkind hset 0 bb.stmts
  simp only [doDeadcodeBB]
  generalize deadcodeFirst 0 bb.stmts (addUsesExpr (fun _ => false) bb.next) = r at h ⊢
  obtain ⟨stmts, set, _ | i⟩ := r
  · exact h
  · obtain ⟨-, guard, jk', dst, hget, hres⟩ := h
    simp only [Nat.sub_zero] at hget hres
    simpa [hget] using hres

/-! ## The meaning of what is left -/

/-- The temporaries that the statements and the final jump read. -/
def ReadIn (next : IRExpr) : List IRStmt → IRTemp → Prop
  | [], t => t ∈ next.temps
  | st :: rest, t => t ∈ st.uses ∨ ReadIn next rest t

theorem UsesDefined.readIn {ds : List IRTemp} {stmts : List IRStmt} {next : IRExpr}
    (h : UsesDefined ds stmts next) {t : IRTemp} (ht : ReadIn next stmts t) :
    t ∈ ds ∨ t ∈ defsOf stmts := by
  induction stmts generalizing ds with
  | nil => exact .inl (h t ht)
  | cons st rest ih =>
    rw [defsOf_cons, List.mem_append]
    rcases ht with ht | ht
    · exact .inl (h.1 t ht)
    · rcases ih h.2 ht with hd | hd
      · exact (List.mem_append.mp hd).symm.imp id .inl
      · exact .inr (.inr hd)

section Residue

variable {next next' : IRExpr} {jk jk' : IRJumpKind} {stmts out : List IRStmt}

theorem isOneU1_eq {e : IRExpr} (h : isOneU1 e = true) : e = .const (.U1 true) := by
  unfold isOneU1 at h
  split at h
  · simp_all
  · exact nomatch h

theorem isZeroU1_eq {e : IRExpr} (h : isZeroU1 e = true) : e = .const (.U1 false) := by
  unfold isZeroU1 at h
  split at h
  · simp_all
  · exact nomatch h

/-- What the residue reads, in terms of the block before the pass. -/
theorem Residue.readIn_iff (h : Residue next jk stmts out next' jk') (t : IRTemp) :
    ReadIn next' out t ↔ UsedByRest next stmts t := by
  induction h with
  | nil => exact Iff.rfl
  | @cut guard dst jk' rest n hone =>
    have hnone : ∀ n, ¬ ReadIn (.const dst) (List.replicate n .noOp) t := by
      intro n
      induction n with
      | zero => simp [ReadIn, IRExpr.temps]
      | succ n ih => simpa [List.replicate_succ, ReadIn, IRStmt.uses] using ih
    simp [UsedByRest, isUnconditionalExit, hone, hnone]
  | kept hexit hkept hrest ih => simp [ReadIn, UsedByRest, hexit, hkept, ih, or_comm]
  | dropped hexit hkept hrest ih => simp [ReadIn, UsedByRest, hexit, hkept, ih, IRStmt.uses]

theorem runStmts_noOps (M : Interp) (tyenv : IRTypeEnv) (s : State) (n : Nat) :
    runStmts M tyenv s (List.replicate n .noOp) = (s, none) := by
  induction n with
  | zero => rfl
  | succ n ih => exact ih

/-- A statement that is not kept does nothing to the world and takes no exit. -/
theorem dropped_effect {needed : IRTemp → Prop} (M : Interp) (tyenv : IRTypeEnv) {st : IRStmt}
    (hkept : ¬ Kept needed st) (s : State) :
    (execStmt M tyenv s st).1.world = s.world ∧ (execStmt M tyenv s st).2 = none := by
  cases st with
  | noOp => exact ⟨rfl, rfl⟩
  | wrTmp tmp data => exact ⟨rfl, rfl⟩
  | dirty d =>
    have hzero : isZeroU1 d.guard = true := by simpa [Kept] using hkept
    have hguard : evalExpr M s.tmps s.world d.guard = 0 := by
      rw [isZeroU1_eq hzero]
      rfl
    simp [execStmt, effect, hguard]
  | _ => exact absurd trivial hkept

/-- Nor does it define a temporary that is used later, unless it is a dirty call whose
result is lost. -/
theorem dropped_def {st : IRStmt} {rest : List IRStmt} (hexit : isUnconditionalExit st = false)
    (hkept : ¬ Kept (Needed next rest) st) (hlost : ¬ LosesResult next (st :: rest)) {t : IRTemp}
    (ht : UsedByRest next rest t) : st.def? ≠ some t := by
  intro h
  cases st with
  | wrTmp tmp data =>
    obtain rfl : tmp = t := Option.some.inj h
    exact hkept (needed_of_usedByRest ht)
  | dirty d => exact hlost ⟨hexit, .inr ⟨d, t, rfl, by simpa [Kept] using hkept, h, ht⟩⟩
  | _ => exact nomatch h

/-- The two runs: the world is the same all along, and so is every temporary that
what is left of the block uses. -/
theorem Residue.run_eq (h : Residue next jk stmts out next' jk') (hlost : ¬ LosesResult next stmts)
    (M : Interp) (tyenv : IRTypeEnv) {s s' : State} (hw : s.world = s'.world)
    (htmps : ∀ t, UsedByRest next stmts t → s.tmps t = s'.tmps t) :
    finish M next jk (runStmts M tyenv s stmts) = finish M next' jk' (runStmts M tyenv s' out) := by
  induction h generalizing s s' with
  | nil =>
    simp only [runStmts, Straight.run_nil, finish, hw]
    rw [evalExpr_congr next htmps]
  | cut rest n hone =>
    rw [runStmts_noOps, isOneU1_eq hone]
    simp [runStmts, Straight.run, execStmt, effect, finish, evalExpr, hw, constVal]
  | @kept st rest rest' next' jk' hexit hkept hrest ih =>
    have hcongr := execStmt_congr M tyenv hw fun t (ht : t ∈ st.uses) =>
      htmps t ⟨hexit, .inr ⟨hkept, ht⟩⟩
    rcases h₁ : execStmt M tyenv s st with ⟨u, x⟩
    rcases h₂ : execStmt M tyenv s' st with ⟨u', y⟩
    rw [h₁, h₂] at hcongr
    obtain ⟨hw', rfl, htmps'⟩ := hcongr
    cases x with
    | some x =>
      rw [runStmts, runStmts, Straight.run_cons_of_exit h₁, Straight.run_cons_of_exit h₂]
      simp only [finish]
      rw [show u.world = u'.world from hw']
    | none =>
      rw [runStmts, runStmts, Straight.run_cons_of_next h₁, Straight.run_cons_of_next h₂]
      exact ih (fun hl => hlost ⟨hexit, .inl hl⟩) hw' fun t ht =>
        htmps' t (.inl (htmps t ⟨hexit, .inl ht⟩))
  | @dropped st rest rest' next' jk' hexit hkept hrest ih =>
    obtain ⟨hw', hnone⟩ := dropped_effect M tyenv hkept s
    have hstep : runStmts M tyenv s (st :: rest) =
        runStmts M tyenv (execStmt M tyenv s st).1 rest :=
      Straight.run_cons_of_next (Prod.ext rfl hnone)
    rw [hstep, show runStmts M tyenv s' (.noOp :: rest') = runStmts M tyenv s' rest' from rfl]
    refine ih (fun hl => hlost ⟨hexit, .inl hl⟩) (hw'.trans hw) fun t ht => ?_
    rw [execStmt_tmps_of_ne (dropped_def hexit hkept hlost ht)]
    exact htmps t ⟨hexit, .inl ht⟩

/-- Every temporary that the residue uses is still defined before. -/
theorem Residue.usesDefined (h : Residue next jk stmts out next' jk')
    (hlost : ¬ LosesResult next stmts) {ds ds' : List IRTemp} (hdef : UsesDefined ds stmts next)
    (hds : ∀ t, UsedByRest next stmts t → t ∈ ds → t ∈ ds') : UsesDefined ds' out next' := by
  induction h generalizing ds ds' with
  | nil => exact fun t ht => hds t ht (hdef t ht)
  | cut rest n hone =>
    induction n with
    | zero => exact fun t ht => nomatch ht
    | succ n ih => exact ⟨fun t ht => (nomatch ht : False).elim, ih⟩
  | @kept st rest rest' next' jk' hexit hkept hrest ih =>
    refine ⟨fun t ht => hds t ⟨hexit, .inr ⟨hkept, ht⟩⟩ (hdef.1 t ht),
      ih (fun hl => hlost ⟨hexit, .inl hl⟩) hdef.2 fun t ht hmem => ?_⟩
    rcases List.mem_append.mp hmem with hm | hm
    · exact List.mem_append_left _ hm
    · exact List.mem_append_right _ (hds t ⟨hexit, .inl ht⟩ hm)
  | @dropped st rest rest' next' jk' hexit hkept hrest ih =>
    refine ⟨fun t ht => (nomatch ht : False).elim,
      ih (fun hl => hlost ⟨hexit, .inl hl⟩) hdef.2 fun t ht hmem => ?_⟩
    rcases List.mem_append.mp hmem with hm | hm
    · exact absurd (Option.mem_toList.mp hm) (dropped_def hexit hkept hlost ht)
    · exact hds t ⟨hexit, .inl ht⟩ hm

/-- The residue defines nothing that the block does not define. -/
theorem Residue.defs_subset (h : Residue next jk stmts out next' jk') {t : IRTemp}
    (ht : t ∈ defsOf out) : t ∈ defsOf stmts := by
  induction h with
  | nil => exact ht
  | cut rest n hone =>
    have hnone : defsOf (List.replicate n .noOp) = [] :=
      List.filterMap_eq_nil_iff.mpr fun st hst => by rw [List.eq_of_mem_replicate hst]; rfl
    rw [hnone] at ht
    exact nomatch ht
  | kept hexit hkept hrest ih =>
    rw [defsOf_cons, List.mem_append] at ht ⊢
    exact ht.imp id ih
  | dropped hexit hkept hrest ih =>
    rw [defsOf_cons, List.mem_append]
    exact .inr (ih ht)

/-- If the result of a dropped call is used by what is left, then what is left reads a
temporary that it does not define. -/
theorem Residue.reads_undefined (h : Residue next jk stmts out next' jk')
    (hssa : (defsOf stmts).Nodup) (hlost : LosesResult next stmts) :
    ∃ t, ReadIn next' out t ∧ t ∉ defsOf out ∧ t ∈ defsOf stmts := by
  induction h with
  | nil => exact hlost.elim
  | cut rest n hone => exact absurd hlost.1 (by simp [isUnconditionalExit, hone])
  | @kept st rest rest' next' jk' hexit hkept hrest ih =>
    rw [defsOf_cons] at hssa
    obtain ⟨-, hrestNodup, hdisj⟩ := List.nodup_append.mp hssa
    rcases hlost.2 with hl | ⟨d, t, rfl, hzero, -, -⟩
    · obtain ⟨t, hread, hnot, hmem⟩ := ih hrestNodup hl
      refine ⟨t, .inr hread, ?_, ?_⟩
      · rw [defsOf_cons, List.mem_append]
        rintro (hm | hm)
        · exact hdisj t hm t hmem rfl
        · exact hnot hm
      · rw [defsOf_cons]
        exact List.mem_append_right _ hmem
    · exact absurd (show isZeroU1 d.guard = false from hkept) (by simp [hzero])
  | @dropped st rest rest' next' jk' hexit hkept hrest ih =>
    rw [defsOf_cons] at hssa
    obtain ⟨-, hrestNodup, hdisj⟩ := List.nodup_append.mp hssa
    rcases hlost.2 with hl | ⟨d, t, rfl, hzero, htmp, ht⟩
    · obtain ⟨t, hread, hnot, hmem⟩ := ih hrestNodup hl
      exact ⟨t, .inr hread, hnot, by rw [defsOf_cons]; exact List.mem_append_right _ hmem⟩
    · have hd : t ∈ (IRStmt.dirty d).def?.toList := Option.mem_toList.mpr htmp
      refine ⟨t, .inr ((hrest.readIn_iff t).mpr ht),
        fun hm => hdisj t hd t (hrest.defs_subset hm) rfl, ?_⟩
      rw [defsOf_cons]
      exact List.mem_append_left _ hd

end Residue

/-- **Dead code removal**: for every block in SSA form whose temporaries are defined
before they are used, the pass leaves such a block with the same meaning if and only
if no dirty call that it deletes has a result that is used by what is left. -/
theorem doDeadcodeBB_correct_iff (bb : IRSB) (hssa : bb.IsSSA) (hdef : bb.DefinedBeforeUse) :
    ((doDeadcodeBB bb).DefinedBeforeUse ∧ SameMeaning bb (doDeadcodeBB bb)) ↔
      ¬ LosesResult bb.next bb.stmts := by
  have hres := doDeadcodeBB_residue bb
  constructor
  · rintro ⟨hdef', -⟩ hlost
    obtain ⟨t, hread, hnot, -⟩ := hres.reads_undefined hssa hlost
    exact (hdef'.readIn hread).elim (fun hm => nomatch hm) hnot
  · intro hlost
    refine ⟨hres.usesDefined hlost hdef fun t _ ht => ht, fun M w => ?_⟩
    have htyenv : (doDeadcodeBB bb).tyenv = bb.tyenv := by
      unfold doDeadcodeBB
      dsimp only
      split
      · rfl
      · split <;> rfl
    unfold runBB
    rw [htyenv]
    exact hres.run_eq hlost M bb.tyenv rfl fun _ _ => rfl

/-- A call of a helper without side effects on the guest state or memory. -/
def pureDirty (guard : IRExpr) (tmp : IRTemp) : IRDirty where
  cee := { regparms := 0, name := "x86g_dirtyhelper_RDTSC", addr := 0x38001000, mcx_mask := 0 }
  guard := guard
  args := []
  tmp := some tmp
  mFx := .None
  mAddr := none
  mSize := 0
  needsBBP := false
  fxState := []

/-- `t0 = DIRTY 0:I1 ::: RDTSC(); PUT(0) = t0`. -/
def lostResultBB : IRSB :=
  blockOf [.I64] [.dirty (pureDirty (.const (.U1 false)) 0), .put 0 (.rdTmp 0)]

theorem doDeadcodeBB_correct_iff_kept :
    (doDeadcodeBB (blockOf [.I64, .I32]
        [.dirty (pureDirty (.const (.U1 false)) 0), .wrTmp 1 (.get 4 .I32),
          .exit (.const (.U1 true)) .Call (.U32 0x2000), .put 0 (.rdTmp 1)])).DefinedBeforeUse := by
  refine ((doDeadcodeBB_correct_iff _ (by decide) (by decide)).mpr ?_).1
  simp [blockOf, LosesResult, UsedByRest, isUnconditionalExit, isOneU1, IRStmt.uses, IRExpr.temps]

/-- A dirty call that is never made, with a result that is used: the use stays and the
definition goes. -/
theorem doDeadcodeBB_lostResult :
    ¬ ∀ bb : IRSB, bb.isFlat = true → bb.IsSSA → bb.DefinedBeforeUse →
      (doDeadcodeBB bb).DefinedBeforeUse ∧ SameMeaning bb (doDeadcodeBB bb) := by
  intro h
  exact absurd (h lostResultBB (by decide) (by decide) (by decide)).1 (by decide)

end Valgrind.Vex
