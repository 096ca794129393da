import Valgrind.Lib.Completions
import Valgrind.Memcheck.Translate

/-!
# The expensive V bits are exact

The code that `expensiveAddSub`, `expensiveCmpEQorNE` and the `And`/`Or` scheme generate is run
in front of the original operation, on the same operands and their V bits. It marks a bit of
the result as undefined iff there are two ways to fill in the undefined bits of the operands,
each operand for itself, that give different values of that bit (`expensive_exact`).

A generator appends assignments to the block. `Stage` is a block together with the values of
the temporaries after it, `Later` says that one comes from another by assignments to new
temporaries, and `Known` collects what is known about the atoms so far: each generated
assignment adds one fact.
-/

namespace Valgrind

namespace Memcheck

open Vex Completions

/-! ## Stages -/

/-- A block under construction, and the values of the temporaries after it. -/
structure Stage where
  mce : MCEnv
  tmps : IRTemp → Val

/-- Assignments to new temporaries lead from one stage to another. -/
structure Later (M : Interp) (S S' : Stage) : Prop where
  added : ∃ tys new, S'.mce.bb.tyenv = S.mce.bb.tyenv ++ tys ∧ S'.mce.bb.stmts = S.mce.bb.stmts ++ new ∧
    ∀ T w, runStmts M T ⟨S.tmps, w⟩ new = (⟨S'.tmps, w⟩, none)
  originals : S'.mce.nOriginalTmps = S.mce.nOriginalTmps
  keeps : ∀ t < S.mce.bb.tyenv.length, S'.tmps t = S.tmps t

/-- What is known about an atom: its type, its value, and whether it is a shadow atom or one of the
original code. -/
structure Fact where
  atom : IRExpr
  ty : IRType
  val : Val
  shadow : Bool

/-- The fact holds. -/
structure Has (M : Interp) (S : Stage) (f : Fact) : Prop where
  isAtom : f.atom.isIRAtom = true
  ty_eq : typeOfIRExpr S.mce.bb.tyenv f.atom = .ok f.ty
  val_eq : ∀ w, evalExpr M S.tmps w f.atom = f.val
  shadow_eq : f.shadow = true → isShadowAtom S.mce f.atom = true
  original_eq : f.shadow = false → isOriginalAtom S.mce f.atom = true

/-- All facts hold, and new temporaries are shadows. -/
structure Known (M : Interp) (S : Stage) (fs : List Fact) : Prop where
  originals : S.mce.nOriginalTmps ≤ S.mce.bb.tyenv.length
  facts : ∀ f ∈ fs, Has M S f

/-- The generator returns, and its atom has the value. -/
def Yields (M : Interp) (S : Stage) (g : Gen IRExpr) (ty : IRType) (v : Val) : Prop :=
  ∃ r S', g S.mce = .ok (r, S'.mce) ∧ Later M S S' ∧ Has M S' ⟨r, ty, v, true⟩

variable {M : Interp} {S S' S'' : Stage} {fs : List Fact} {f g : Fact} {ty ty' : IRType} {v v' : Val}

theorem Later.refl (M : Interp) (S : Stage) : Later M S S :=
  ⟨⟨[], [], by simp, by simp, fun _ _ => rfl⟩, rfl, fun _ _ => rfl⟩

theorem Later.length_le (h : Later M S S') : S.mce.bb.tyenv.length ≤ S'.mce.bb.tyenv.length := by
  obtain ⟨tys, new, htys, -⟩ := h.added
  rw [htys, List.length_append]
  omega

theorem Later.trans (h : Later M S S') (h' : Later M S' S'') : Later M S S'' := by
  obtain ⟨tys, new, htys, hnew, hrun⟩ := h.added
  obtain ⟨tys', new', htys', hnew', hrun'⟩ := h'.added
  refine ⟨⟨tys ++ tys', new ++ new', by rw [htys', htys, List.append_assoc],
    by rw [hnew', hnew, List.append_assoc], fun T w => ?_⟩, h'.originals.trans h.originals, fun t ht => ?_⟩
  · rw [runStmts_append_of_next (by rw [hrun]), hrun, hrun']
  · rw [h'.keeps t (Nat.lt_of_lt_of_le ht h.length_le), h.keeps t ht]

theorem typeOfIRTemp_append {T : IRTypeEnv} {t : IRTemp} (ht : t < T.length) (T' : IRTypeEnv) :
    typeOfIRTemp (T ++ T') t = typeOfIRTemp T t := by
  have hlt : t < (T ++ T').length := by
    rw [List.length_append]
    exact Nat.lt_add_right _ ht
  unfold typeOfIRTemp
  rw [assertThat_of ht, assertThat_of hlt, List.getD_eq_getElem?_getD, List.getElem?_append_left ht,
    ← List.getD_eq_getElem?_getD]

theorem typeOfIRTemp_new (T : IRTypeEnv) (ty : IRType) : typeOfIRTemp (T ++ [ty]) T.length = .ok ty := by
  unfold typeOfIRTemp
  rw [assertThat_of (by simp)]
  simp

theorem lt_of_typeOfIRTemp {T : IRTypeEnv} {t : IRTemp} (h : typeOfIRTemp T t = .ok ty) : t < T.length := by
  by_contra hge
  simp [typeOfIRTemp, assertThat, hge] at h

/-- An atom that has a type keeps its type and its value. -/
theorem Has.mono (h : Has M S f) (hl : Later M S S') : Has M S' f := by
  obtain ⟨tys, new, htys, -⟩ := hl.added
  obtain ⟨a, ty, v, sh⟩ := f
  obtain ⟨hatom, hty, hval, hsh, hor⟩ := h
  dsimp only at hatom hty hval hsh hor
  have hshadow : isShadowAtom S'.mce a = isShadowAtom S.mce a := by
    cases a <;> simp only [isShadowAtom, hl.originals]
  have horiginal : isOriginalAtom S'.mce a = isOriginalAtom S.mce a := by
    cases a <;> simp only [isOriginalAtom, hl.originals]
  refine ⟨hatom, ?_, ?_, fun hs => hshadow.trans (hsh hs), fun hs => horiginal.trans (hor hs)⟩
  · cases a with
    | const c => exact hty
    | rdTmp t =>
      dsimp only
      rw [← hty, htys]
      exact typeOfIRTemp_append (lt_of_typeOfIRTemp hty) tys
    | _ => exact nomatch hatom
  · intro w
    cases a with
    | const c => exact hval w
    | rdTmp t => exact (hl.keeps t (lt_of_typeOfIRTemp hty)).trans (hval w)
    | _ => exact nomatch hatom

theorem Known.mono (h : Known M S fs) (hl : Later M S S') : Known M S' fs :=
  ⟨hl.originals ▸ Nat.le_trans h.originals hl.length_le, fun f hf => (h.facts f hf).mono hl⟩

theorem Known.snoc (h : Known M S fs) (hf : Has M S f) : Known M S (fs ++ [f]) :=
  ⟨h.originals, fun g hg => by
    rcases List.mem_append.mp hg with hg | hg
    · exact h.facts g hg
    · exact List.mem_singleton.mp hg ▸ hf⟩

theorem Known.at (h : Known M S fs) {i : Nat} (hi : fs[i]? = some f) : Has M S f :=
  h.facts f (List.mem_of_getElem? hi)

theorem Yields.of_later {g k : Gen IRExpr} (hl : Later M S S') (hrun : g S.mce = k S'.mce)
    (h : Yields M S' k ty v) : Yields M S g ty v := by
  obtain ⟨r, S'', hk, hl', hr⟩ := h
  exact ⟨r, S'', hrun.trans hk, hl.trans hl', hr⟩

theorem Yields.of_eq {g : Gen IRExpr} (h : Yields M S g ty v) (hv : v = v') : Yields M S g ty v' := hv ▸ h

/-! ## Rules -/

/-- A generator followed by another. -/
theorem Yields.bind {g : Gen IRExpr} {k : IRExpr → Gen IRExpr} (h : Yields M S g ty v) (hk : Known M S fs)
    (hcont : ∀ r S', Known M S' (fs ++ [⟨r, ty, v, true⟩]) → Yields M S' (k r) ty' v') :
    Yields M S (g >>= k) ty' v' := by
  obtain ⟨r, S', hg, hl, hr⟩ := h
  refine .of_later (k := k r) hl ?_ (hcont r S' ((hk.mono hl).snoc hr))
  change (g S.mce >>= fun p => k p.1 p.2) = _
  rw [hg]
  rfl

/-- An assertion that holds. -/
theorem Yields.assert {p : Prop} [Decidable p] {k : Unit → Gen IRExpr} (hp : p) (h : Yields M S (k ()) ty v) :
    Yields M S (tlAssert p >>= k) ty v := by
  refine .of_later (.refl M S) ?_ h
  change ((assertThat p >>= fun _ => pure ((), S.mce)) >>= fun q => k q.1 q.2) = _
  rw [assertThat_of hp]
  rfl

theorem Yields.assertShadow {k : Unit → Gen IRExpr} (hf : Has M S f) (hs : f.shadow = true)
    (h : Yields M S (k ()) ty v) : Yields M S (assertShadow f.atom >>= k) ty v := by
  refine .of_later (.refl M S) ?_ h
  change ((assertThat _ >>= fun _ => pure ((), S.mce)) >>= fun q => k q.1 q.2) = _
  rw [assertThat_of (hf.shadow_eq hs)]
  rfl

theorem Yields.assertOriginal {k : Unit → Gen IRExpr} (hf : Has M S f) (hs : f.shadow = false)
    (h : Yields M S (k ()) ty v) : Yields M S (assertOriginal f.atom >>= k) ty v := by
  refine .of_later (.refl M S) ?_ h
  change ((assertThat _ >>= fun _ => pure ((), S.mce)) >>= fun q => k q.1 q.2) = _
  rw [assertThat_of (hf.original_eq hs)]
  rfl

/-- An expression is bound to a new temporary. -/
theorem Known.assignNew (hk : Known M S fs) {e : IRExpr} (hty : typeOfIRExpr S.mce.bb.tyenv e = .ok ty)
    (hval : ∀ w, evalExpr M S.tmps w e = v) : Yields M S (assignNew ty e) ty v := by
  have hrun : Memcheck.assignNew ty e S.mce = .ok (.rdTmp S.mce.bb.tyenv.length,
      { S.mce with bb := { S.mce.bb with
          tyenv := S.mce.bb.tyenv ++ [ty]
          stmts := S.mce.bb.stmts ++ [.wrTmp S.mce.bb.tyenv.length e] } }) := by
    change (typeOfIRExpr S.mce.bb.tyenv e >>= fun tyE => assertThat (tyE = ty) >>= fun _ => _) = _
    rw [hty, ok_bind, assertThat_of rfl]
    rfl
  refine ⟨_, ⟨_, assign S.tmps (some (S.mce.bb.tyenv.length, v))⟩, hrun,
    ⟨⟨[ty], [.wrTmp S.mce.bb.tyenv.length e], rfl, rfl, fun T w => ?_⟩, rfl, fun u hu => ?_⟩,
    rfl, typeOfIRTemp_new _ _, fun w => assign_self _ _ _, fun _ => decide_eq_true hk.originals,
    fun h => nomatch h⟩
  · change Straight.run (execStmt M T) ⟨S.tmps, w⟩ [.wrTmp S.mce.bb.tyenv.length e] = _
    rw [Straight.run_singleton]
    simp only [execStmt, effect, hval w]
  · exact assign_of_ne (Nat.ne_of_lt hu)

/-- A unary primop on the `i`-th atom. -/
theorem Known.unop (hk : Known M S fs) {i : Nat} (hf : fs[i]? = some f) {op : IROp}
    (hop : (typeOfPrimop op).1 = ty) :
    Yields M S (Memcheck.assignNew ty (.unop op f.atom)) ty (evalPrimop M.primop op [f.val]) :=
  hk.assignNew (congrArg _ hop) fun w => by rw [evalExpr, (hk.at hf).val_eq]

/-- A binary primop on the `i`-th and the `j`-th atom. -/
theorem Known.binop (hk : Known M S fs) {i j : Nat} (hf : fs[i]? = some f) (hg : fs[j]? = some g) {op : IROp}
    (hop : (typeOfPrimop op).1 = ty) : Yields M S (Memcheck.assignNew ty (.binop op f.atom g.atom)) ty
      (evalPrimop M.primop op [f.val, g.val]) :=
  hk.assignNew (congrArg _ hop) fun w => by rw [evalExpr, (hk.at hf).val_eq, (hk.at hg).val_eq]

/-! ## Operands -/

/-- `q` is the shadow of the original atom `a`, and both are of the type. -/
structure Operand (mce : MCEnv) (ty : IRType) (q a : IRExpr) : Prop where
  shadow : isShadowAtom mce q = true
  original : isOriginalAtom mce a = true
  sameKind : sameKindedAtoms q a = true
  ty_q : typeOfIRExpr mce.bb.tyenv q = .ok ty
  ty_a : typeOfIRExpr mce.bb.tyenv a = .ok ty

theorem sameKindedAtoms_comm (a b : IRExpr) : sameKindedAtoms a b = sameKindedAtoms b a := by
  cases a <;> cases b <;> rfl

/-- The value of an atom. -/
def atomVal (ρ : IRTemp → Val) : IRExpr → Val
  | .rdTmp t => ρ t
  | .const c => constVal c
  | _ => 0

theorem evalExpr_atomVal {a : IRExpr} (ha : a.isIRAtom = true) (ρ : IRTemp → Val) (w : World) :
    evalExpr M ρ w a = atomVal ρ a := by
  cases a <;> first | rfl | exact nomatch ha

theorem isIRAtom_of_shadow {mce : MCEnv} {a : IRExpr} (h : isShadowAtom mce a = true) : a.isIRAtom = true := by
  cases a <;> first | rfl | exact nomatch h

theorem isIRAtom_of_original {mce : MCEnv} {a : IRExpr} (h : isOriginalAtom mce a = true) :
    a.isIRAtom = true := by
  cases a <;> first | rfl | exact nomatch h

/-- The facts about the operands that a generator starts with. -/
def operandFacts (ρ : IRTemp → Val) (ty : IRType) (q a q' a' : IRExpr) : List Fact :=
  [⟨q, ty, atomVal ρ q, true⟩, ⟨a, ty, atomVal ρ a, false⟩, ⟨q', ty, atomVal ρ q', true⟩,
    ⟨a', ty, atomVal ρ a', false⟩]

variable {q a q' a' : IRExpr}

theorem known_operands (hmce : S.mce.nOriginalTmps ≤ S.mce.bb.tyenv.length) (h : Operand S.mce ty q a)
    (h' : Operand S.mce ty q' a') : Known M S (operandFacts S.tmps ty q a q' a') := by
  have hq : ∀ {q a}, Operand S.mce ty q a → Has M S ⟨q, ty, atomVal S.tmps q, true⟩ := fun h =>
    ⟨isIRAtom_of_shadow h.shadow, h.ty_q, evalExpr_atomVal (isIRAtom_of_shadow h.shadow) _, fun _ => h.shadow,
      fun hs => nomatch hs⟩
  have ha : ∀ {q a}, Operand S.mce ty q a → Has M S ⟨a, ty, atomVal S.tmps a, false⟩ := fun h =>
    ⟨isIRAtom_of_original h.original, h.ty_a, evalExpr_atomVal (isIRAtom_of_original h.original) _,
      fun hs => (nomatch hs), fun _ => h.original⟩
  refine ⟨hmce, fun f hf => ?_⟩
  simp only [operandFacts, List.mem_cons, List.not_mem_nil, or_false] at hf
  rcases hf with rfl | rfl | rfl | rfl
  · exact hq h
  · exact ha h
  · exact hq h'
  · exact ha h'

/-! ## Values of primops -/

/-- The lowest `n` bits of a value, and a value of `n` bits. -/
def low (n : Nat) (v : Val) : BitVec n := v.setWidth n

def lift {n : Nat} (x : BitVec n) : Val := x.setWidth 128

@[simp] theorem low_lift {n : Nat} (hn : n ≤ 128) (x : BitVec n) : low n (lift x) = x := by
  unfold low lift
  rw [BitVec.setWidth_setWidth_of_le _ hn, BitVec.setWidth_eq]

theorem getLsbD_lift {n i : Nat} (hn : n ≤ 128) (hi : i < n) (x : BitVec n) :
    (lift x).getLsbD i = x.getLsbD i := by
  unfold lift
  rw [BitVec.getLsbD_setWidth, decide_eq_true (by omega), Bool.true_and]

section Primops

variable (P : IROp → List Val → Val) (w : IntSz) (x y : Val)

theorem evalPrimop_not : evalPrimop P (.not w) [x] = lift (~~~low w.bits x) := rfl

theorem evalPrimop_and : evalPrimop P (.and w) [x, y] = lift (low w.bits x &&& low w.bits y) := rfl

theorem evalPrimop_or : evalPrimop P (.or w) [x, y] = lift (low w.bits x ||| low w.bits y) := rfl

theorem evalPrimop_xor : evalPrimop P (.xor w) [x, y] = lift (low w.bits x ^^^ low w.bits y) := rfl

theorem evalPrimop_add : evalPrimop P (.add w) [x, y] = lift (low w.bits x + low w.bits y) := rfl

theorem evalPrimop_sub : evalPrimop P (.sub w) [x, y] = lift (low w.bits x - low w.bits y) := rfl

theorem evalPrimop_cmpEQ : evalPrimop P (.cmpEQ w) [x, y] =
    lift (BitVec.ofBool (low w.bits x == low w.bits y)) := rfl

theorem evalPrimop_cmpNE : evalPrimop P (.cmpNE w) [x, y] =
    lift (BitVec.ofBool (low w.bits x != low w.bits y)) := rfl

end Primops

theorem bits_le (w : IntSz) : w.bits ≤ 128 := Nat.le_trans w.bits_le (by decide)

/-! ## `expensiveAddSub` -/

theorem Yields.assertOperands {k : Unit → Gen IRExpr} (hk : Known M S (operandFacts S.tmps ty' q a q' a'))
    (h : Operand S.mce ty' q a) (h' : Operand S.mce ty' q' a') (hrest : Yields M S (k ()) ty v) :
    Yields M S (assertOperands q q' a a' >>= k) ty v := by
  unfold Memcheck.assertOperands
  simp only [bind_assoc]
  refine .assertShadow (hk.at (i := 0) rfl) rfl (.assertShadow (hk.at (i := 2) rfl) rfl ?_)
  refine .assertOriginal (hk.at (i := 1) rfl) rfl (.assertOriginal (hk.at (i := 3) rfl) rfl ?_)
  exact .assert h.sameKind (.assert h'.sameKind hrest)

theorem Yields.expensiveSz {w : IntSz} (hw : w = .w32 ∨ w = .w64) {k : IntSz → Gen IRExpr}
    (h : Yields M S (k w) ty v) : Yields M S (expensiveSz w.ty >>= k) ty v := by
  rcases hw with rfl | rfl
  · exact h
  · exact h

/-- What `expensiveAddSub` computes. -/
def addSubBits {n : Nat} (add : Bool) (qa a qb b : BitVec n) : BitVec n :=
  if add = true then (qa ||| qb) ||| ((least a qa + least b qb) ^^^ (greatest a qa + greatest b qb))
  else (qa ||| qb) ||| ((least a qa - greatest b qb) ^^^ (greatest a qa - least b qb))

theorem expensiveAddSub_yields {w : IntSz} (hw : w = .w32 ∨ w = .w64) (add : Bool)
    (hmce : S.mce.nOriginalTmps ≤ S.mce.bb.tyenv.length) (h : Operand S.mce w.ty q a)
    (h' : Operand S.mce w.ty q' a') : Yields M S (expensiveAddSub add w.ty q q' a a') w.ty
      (lift (addSubBits add (low w.bits (atomVal S.tmps q)) (low w.bits (atomVal S.tmps a))
        (low w.bits (atomVal S.tmps q')) (low w.bits (atomVal S.tmps a')))) := by
  have hk := known_operands (M := M) hmce h h'
  refine .assertOperands hk h h' (.expensiveSz hw ?_)
  refine (hk.unop (i := 0) rfl rfl).bind hk fun notQaa S₁ hk => ?_
  refine (hk.binop (i := 1) (j := 4) rfl rfl rfl).bind hk fun aMin S₂ hk => ?_
  refine (hk.unop (i := 2) rfl rfl).bind hk fun notQbb S₃ hk => ?_
  refine (hk.binop (i := 3) (j := 6) rfl rfl rfl).bind hk fun bMin S₄ hk => ?_
  refine (hk.binop (i := 1) (j := 0) rfl rfl rfl).bind hk fun aMax S₅ hk => ?_
  refine (hk.binop (i := 3) (j := 2) rfl rfl rfl).bind hk fun bMax S₆ hk => ?_
  cases add with
  | true =>
    refine (hk.binop (i := 0) (j := 2) rfl rfl rfl).bind hk fun vor S₇ hk => ?_
    refine (hk.binop (i := 5) (j := 7) rfl rfl rfl).bind hk fun lo S₈ hk => ?_
    refine (hk.binop (i := 8) (j := 9) rfl rfl rfl).bind hk fun hi S₉ hk => ?_
    refine (hk.binop (i := 11) (j := 12) rfl rfl rfl).bind hk fun differ S₁₀ hk => ?_
    refine (hk.binop (i := 10) (j := 13) rfl rfl rfl).of_eq ?_
    simp only [evalPrimop_not, evalPrimop_and, evalPrimop_or, evalPrimop_xor, evalPrimop_add,
      low_lift (bits_le w), addSubBits, if_true]
    rfl
  | false =>
    refine (hk.binop (i := 0) (j := 2) rfl rfl rfl).bind hk fun vor S₇ hk => ?_
    refine (hk.binop (i := 5) (j := 9) rfl rfl rfl).bind hk fun lo S₈ hk => ?_
    refine (hk.binop (i := 8) (j := 7) rfl rfl rfl).bind hk fun hi S₉ hk => ?_
    refine (hk.binop (i := 11) (j := 12) rfl rfl rfl).bind hk fun differ S₁₀ hk => ?_
    refine (hk.binop (i := 10) (j := 13) rfl rfl rfl).of_eq ?_
    simp only [evalPrimop_not, evalPrimop_and, evalPrimop_or, evalPrimop_xor, evalPrimop_sub,
      low_lift (bits_le w), addSubBits, Bool.false_eq_true, if_false]
    rfl

/-! ## `do_And_Or` -/

/-- The bitwise primops of a type are what they say. -/
structure BitOps.Ok (o : BitOps) : Prop where
  ty_and : (typeOfPrimop o.and).1 = o.ty
  ty_or : (typeOfPrimop o.or).1 = o.ty
  ty_not : (typeOfPrimop o.not).1 = o.ty
  and_eq : ∀ P x y, evalPrimop P o.and [x, y] = lift (low o.ty.bits x &&& low o.ty.bits y)
  or_eq : ∀ P x y, evalPrimop P o.or [x, y] = lift (low o.ty.bits x ||| low o.ty.bits y)
  not_eq : ∀ P x, evalPrimop P o.not [x] = lift (~~~low o.ty.bits x)

theorem bits8_ok : bits8.Ok := ⟨rfl, rfl, rfl, fun _ _ _ => rfl, fun _ _ _ => rfl, fun _ _ => rfl⟩

theorem bits16_ok : bits16.Ok := ⟨rfl, rfl, rfl, fun _ _ _ => rfl, fun _ _ _ => rfl, fun _ _ => rfl⟩

theorem bits32_ok : bits32.Ok := ⟨rfl, rfl, rfl, fun _ _ _ => rfl, fun _ _ _ => rfl, fun _ _ => rfl⟩

theorem bits64_ok : bits64.Ok := ⟨rfl, rfl, rfl, fun _ _ _ => rfl, fun _ _ _ => rfl, fun _ _ => rfl⟩

theorem bitsV128_ok : bitsV128.Ok := by
  have hlow : ∀ v : Val, low 128 v = v := fun v => BitVec.setWidth_eq v
  have hlift : ∀ v : BitVec 128, lift v = v := fun v => BitVec.setWidth_eq v
  refine ⟨rfl, rfl, rfl, fun P x y => ?_, fun P x y => ?_, fun P x => ?_⟩
  · change x &&& y = lift (low 128 x &&& low 128 y)
    rw [hlow, hlow, hlift]
  · change x ||| y = lift (low 128 x ||| low 128 y)
    rw [hlow, hlow, hlift]
  · change ~~~x = lift (~~~low 128 x)
    rw [hlow, hlift]

variable {o : BitOps} {i j : Nat}

theorem Known.mkDifD (hk : Known M S fs) (ho : o.Ok) (hf : fs[i]? = some f) (hg : fs[j]? = some g)
    (hsf : f.shadow = true) (hsg : g.shadow = true) : Yields M S (mkDifD o f.atom g.atom) o.ty
      (lift (low o.ty.bits f.val &&& low o.ty.bits g.val)) := by
  refine .assertShadow (hk.at hf) hsf (.assertShadow (hk.at hg) hsg ?_)
  exact (hk.binop hf hg ho.ty_and).of_eq (ho.and_eq _ _ _)

theorem Known.mkUifU (hk : Known M S fs) (ho : o.Ok) (hf : fs[i]? = some f) (hg : fs[j]? = some g)
    (hsf : f.shadow = true) (hsg : g.shadow = true) : Yields M S (mkUifU o f.atom g.atom) o.ty
      (lift (low o.ty.bits f.val ||| low o.ty.bits g.val)) := by
  refine .assertShadow (hk.at hf) hsf (.assertShadow (hk.at hg) hsg ?_)
  exact (hk.binop hf hg ho.ty_or).of_eq (ho.or_eq _ _ _)

theorem Known.mkImproveAND (hk : Known M S fs) (ho : o.Ok) (hf : fs[i]? = some f) (hg : fs[j]? = some g)
    (hsf : f.shadow = false) (hsg : g.shadow = true) (hsame : sameKindedAtoms f.atom g.atom = true) :
    Yields M S (mkImproveAND o f.atom g.atom) o.ty (lift (low o.ty.bits f.val ||| low o.ty.bits g.val)) := by
  refine .assertOriginal (hk.at hf) hsf (.assertShadow (hk.at hg) hsg (.assert hsame ?_))
  exact (hk.binop hf hg ho.ty_or).of_eq (ho.or_eq _ _ _)

theorem getElem?_snoc {h : Fact} (hf : fs[i]? = some f) : (fs ++ [h])[i]? = some f := by
  rw [List.getElem?_append_left (List.getElem?_eq_some_iff.mp hf).1, hf]

theorem Known.mkImproveOR (hk : Known M S fs) (ho : o.Ok) (hf : fs[i]? = some f) (hg : fs[j]? = some g)
    (hsf : f.shadow = false) (hsg : g.shadow = true) (hsame : sameKindedAtoms f.atom g.atom = true) :
    Yields M S (mkImproveOR o f.atom g.atom) o.ty (lift (~~~low o.ty.bits f.val ||| low o.ty.bits g.val)) := by
  refine .assertOriginal (hk.at hf) hsf (.assertShadow (hk.at hg) hsg (.assert hsame ?_))
  refine (hk.unop hf ho.ty_not).bind hk fun notData S₁ hk => ?_
  have hlast : (fs ++ [(⟨notData, o.ty, evalPrimop M.primop o.not [f.val], true⟩ : Fact)])[fs.length]? =
      some ⟨notData, o.ty, evalPrimop M.primop o.not [f.val], true⟩ := List.getElem?_concat_length
  refine (hk.binop hlast (getElem?_snoc hg) ho.ty_or).of_eq ?_
  rw [ho.or_eq, ho.not_eq, low_lift o.ty.bits_le]

/-- What `do_And_Or` computes, given the improvement terms. -/
def andOrBits {n : Nat} (q q' improve1 improve2 : BitVec n) : BitVec n :=
  (q ||| q') &&& (improve1 &&& improve2)

/-- An improvement function of a type. -/
def Improves (o : BitOps) (improve : IRExpr → IRExpr → Gen IRExpr)
    (imp : BitVec o.ty.bits → BitVec o.ty.bits → BitVec o.ty.bits) : Prop :=
  ∀ ⦃M S fs f g⦄ ⦃i j : Nat⦄, Known M S fs → fs[i]? = some f → fs[j]? = some g → f.shadow = false →
    g.shadow = true → sameKindedAtoms f.atom g.atom = true →
    Yields M S (improve f.atom g.atom) o.ty (lift (imp (low o.ty.bits f.val) (low o.ty.bits g.val)))

theorem doAndOr_yields (ho : o.Ok) {improve : IRExpr → IRExpr → Gen IRExpr}
    {imp : BitVec o.ty.bits → BitVec o.ty.bits → BitVec o.ty.bits} (himp : Improves o improve imp)
    (hmce : S.mce.nOriginalTmps ≤ S.mce.bb.tyenv.length) (h : Operand S.mce o.ty q a)
    (h' : Operand S.mce o.ty q' a') :
    Yields M S (doAndOr (Memcheck.mkUifU o) (Memcheck.mkDifD o) o.ty improve q q' a a') o.ty
      (lift (andOrBits (low o.ty.bits (atomVal S.tmps q)) (low o.ty.bits (atomVal S.tmps q'))
        (imp (low o.ty.bits (atomVal S.tmps a)) (low o.ty.bits (atomVal S.tmps q)))
        (imp (low o.ty.bits (atomVal S.tmps a')) (low o.ty.bits (atomVal S.tmps q'))))) := by
  have hk := known_operands (M := M) hmce h h'
  refine (hk.mkUifU ho (i := 0) (j := 2) rfl rfl rfl rfl).bind hk fun naive S₁ hk => ?_
  refine (himp hk (i := 1) (j := 0) rfl rfl rfl rfl (sameKindedAtoms_comm q a ▸ h.sameKind)).bind hk
    fun improve1 S₂ hk => ?_
  refine (himp hk (i := 3) (j := 2) rfl rfl rfl rfl (sameKindedAtoms_comm q' a' ▸ h'.sameKind)).bind hk
    fun improve2 S₃ hk => ?_
  refine (hk.mkDifD ho (i := 5) (j := 6) rfl rfl rfl rfl).bind hk fun improvement S₄ hk => ?_
  refine (hk.mkDifD ho (i := 4) (j := 7) rfl rfl rfl rfl).bind hk fun improved S₅ hk => ?_
  refine (hk.assignNew (hk.at (i := 8) rfl).ty_eq (hk.at (i := 8) rfl).val_eq).of_eq ?_
  simp only [low_lift o.ty.bits_le, andOrBits]

/-! ## `expensiveCmpEQorNE` -/

theorem Yields.srcTy {k : IRType → Gen IRExpr} (hf : Has M S f) (h : Yields M S (k f.ty) ty v) :
    Yields M S (get >>= fun mce => liftM (typeOfIRExpr mce.bb.tyenv f.atom) >>= k) ty v := by
  refine .of_later (.refl M S) ?_ h
  change ((typeOfIRExpr S.mce.bb.tyenv f.atom >>= fun t => pure (t, S.mce)) >>= fun p => k p.1 p.2) = _
  rw [hf.ty_eq]
  rfl

/-- All ones if any bit is set. -/
def spread {n : Nat} (x : BitVec n) : BitVec n := if x = 0 then 0 else BitVec.allOnes n

/-- A cast to the same type. -/
theorem Known.mkPCastTo_same (hk : Known M S fs) {w : IntSz} (hw : w = .w32 ∨ w = .w64) (hf : fs[i]? = some f)
    (hs : f.shadow = true) (hty : f.ty = w.ty) :
    Yields M S (mkPCastTo w.ty f.atom) w.ty (lift (spread (low w.bits f.val))) := by
  refine .assertShadow (hk.at hf) hs (.srcTy (hk.at hf) ?_)
  rw [hty]
  rcases hw with rfl | rfl
  · exact hk.unop hf rfl
  · exact hk.unop hf rfl

/-- A cast of a single bit. -/
theorem Known.mkPCastTo_widen (hk : Known M S fs) {w : IntSz} (hw : w = .w32 ∨ w = .w64) (hf : fs[i]? = some f)
    (hs : f.shadow = true) (hty : f.ty = .I1) :
    Yields M S (mkPCastTo w.ty f.atom) w.ty (lift ((low 1 f.val).signExtend w.bits)) := by
  refine .assertShadow (hk.at hf) hs (.srcTy (hk.at hf) ?_)
  rw [hty]
  rcases hw with rfl | rfl
  · change Yields M S (Memcheck.assignNew .I32 (.unop .cvt1Sto32 f.atom)) .I32 _
    exact hk.unop hf rfl
  · change Yields M S (Memcheck.assignNew .I64 (.unop .cvt1Sto64 f.atom)) .I64 _
    exact hk.unop hf rfl

/-- A cast to a single bit. -/
theorem Known.mkPCastTo_bit (hk : Known M S fs) {w : IntSz} (hw : w = .w32 ∨ w = .w64) (hf : fs[i]? = some f)
    (hs : f.shadow = true) (hty : f.ty = w.ty) :
    Yields M S (mkPCastTo .I1 f.atom) .I1 (lift (BitVec.ofBool (low w.bits f.val != 0))) := by
  refine .assertShadow (hk.at hf) hs (.srcTy (hk.at hf) ?_)
  rw [hty]
  rcases hw with rfl | rfl
  · change Yields M S (Memcheck.assignNew .I1 (.unop (.cmpNEZ .w32) f.atom) >>= pure) .I1 _
    rw [bind_pure]
    exact hk.unop hf rfl
  · change Yields M S (Memcheck.assignNew .I1 (.unop (.cmpNEZ .w64) f.atom) >>= pure) .I1 _
    rw [bind_pure]
    exact hk.unop hf rfl

/-- What `expensiveCmpEQorNE` computes. -/
def cmpBit {n : Nat} (q a q' a' : BitVec n) : Bool :=
  (spread (q ||| q') &&& (BitVec.ofBool ((q ||| q') ||| ~~~(a ^^^ a') == BitVec.allOnes n)).signExtend n) != 0

theorem low_topOf {w : IntSz} (hw : w = .w32 ∨ w = .w64) : low w.bits (constVal (topOf w)) = BitVec.allOnes w.bits := by
  rcases hw with rfl | rfl <;> decide

theorem expensiveCmpEQorNE_yields {w : IntSz} (hw : w = .w32 ∨ w = .w64)
    (hmce : S.mce.nOriginalTmps ≤ S.mce.bb.tyenv.length) (h : Operand S.mce w.ty q a)
    (h' : Operand S.mce w.ty q' a') : Yields M S (expensiveCmpEQorNE w.ty q q' a a') .I1
      (lift (BitVec.ofBool (cmpBit (low w.bits (atomVal S.tmps q)) (low w.bits (atomVal S.tmps a))
        (low w.bits (atomVal S.tmps q')) (low w.bits (atomVal S.tmps a'))))) := by
  have hk := known_operands (M := M) hmce h h'
  refine .assertOperands hk h h' (.expensiveSz hw ?_)
  have htop : Has M S ⟨.const (topOf w), w.ty, constVal (topOf w), true⟩ :=
    ⟨rfl, by rcases hw with rfl | rfl <;> rfl, fun _ => rfl, fun _ => rfl, fun h => nomatch h⟩
  have hk := hk.snoc htop
  refine (hk.binop (i := 0) (j := 2) rfl rfl rfl).bind hk fun uifu S₁ hk => ?_
  refine (hk.mkPCastTo_same hw (i := 5) rfl rfl rfl).bind hk fun naive S₂ hk => ?_
  refine (hk.binop (i := 0) (j := 2) rfl rfl rfl).bind hk fun vor S₃ hk => ?_
  refine (hk.binop (i := 1) (j := 3) rfl rfl rfl).bind hk fun xor S₄ hk => ?_
  refine (hk.unop (i := 8) rfl rfl).bind hk fun notXor S₅ hk => ?_
  refine (hk.binop (i := 7) (j := 9) rfl rfl rfl).bind hk fun vec S₆ hk => ?_
  refine (hk.binop (i := 10) (j := 4) rfl rfl rfl).bind hk fun isTop S₇ hk => ?_
  refine (hk.mkPCastTo_widen hw (i := 11) rfl rfl rfl).bind hk fun improvementTerm S₈ hk => ?_
  refine (hk.binop (i := 6) (j := 12) rfl rfl rfl).bind hk fun improved S₉ hk => ?_
  refine (hk.mkPCastTo_bit hw (i := 13) rfl rfl rfl).of_eq ?_
  simp only [evalPrimop_not, evalPrimop_and, evalPrimop_or, evalPrimop_xor, evalPrimop_cmpEQ,
    low_lift (bits_le w), low_lift (show 1 ≤ 128 by decide), low_topOf hw, cmpBit]

/-! ## Exactness -/

/-- Bit `i` of what the operation computes is not determined by the defined bits of the operands. -/
def Undetermined (M : Interp) (op : IROp) (n : Nat) (q a q' a' : IRExpr) (ρ : IRTemp → Val) (i : Nat) : Prop :=
  Varies (fun x y : BitVec n => (evalPrimop M.primop op [lift x, lift y]).getLsbD i)
    (low n (atomVal ρ a)) (low n (atomVal ρ q)) (low n (atomVal ρ a')) (low n (atomVal ρ q'))

/-- The generator returns a shadow atom of the type. The code that it appends to the block changes
no temporary that was there before, and of the atom it sets just the bits `undef`. -/
def MarksBits (M : Interp) (mce : MCEnv) (g : Gen IRExpr) (ty : IRType) (undef : (IRTemp → Val) → Nat → Prop) :
    Prop :=
  ∃ r mce' new, g mce = .ok (r, mce') ∧ mce'.bb.stmts = mce.bb.stmts ++ new ∧ isShadowAtom mce' r = true ∧
    typeOfIRExpr mce'.bb.tyenv r = .ok ty ∧
    ∀ s : State, ∃ s', runStmts M mce'.bb.tyenv s new = (s', none) ∧ s'.world = s.world ∧
      (∀ t < mce.bb.tyenv.length, s'.tmps t = s.tmps t) ∧
      ∀ i < ty.bits, (evalExpr M s'.tmps s'.world r).getLsbD i = true ↔ undef s.tmps i

theorem MarksBits.of_yields {mce : MCEnv} {g : Gen IRExpr} {v : (IRTemp → Val) → Val}
    {undef : (IRTemp → Val) → Nat → Prop} (h : ∀ ρ, Yields M ⟨mce, ρ⟩ g ty (v ρ))
    (hv : ∀ ρ, ∀ i < ty.bits, (v ρ).getLsbD i = true ↔ undef ρ i) : MarksBits M mce g ty undef := by
  obtain ⟨r, S₀, hg, hl, hr⟩ := h fun _ => 0
  obtain ⟨_, new, -, hnew, -⟩ := hl.added
  refine ⟨r, S₀.mce, new, hg, hnew, hr.shadow_eq rfl, hr.ty_eq, fun ⟨ρ, w⟩ => ?_⟩
  -- the generator does not see the temporaries: it is the same code for all of them
  obtain ⟨r', S', hg', hl', hr'⟩ := h ρ
  obtain ⟨rfl, hmce⟩ : r = r' ∧ S₀.mce = S'.mce := by
    rw [hg] at hg'
    simpa using hg'
  obtain ⟨_, new', -, hnew', hrun⟩ := hl'.added
  obtain rfl : new = new' := by
    rw [← hmce, hnew] at hnew'
    exact List.append_cancel_left hnew'
  refine ⟨⟨S'.tmps, w⟩, hrun _ w, rfl, hl'.keeps, fun i hi => ?_⟩
  rw [hr'.val_eq w]
  exact hv ρ i hi

theorem getLsbD_addSubBits {w : IntSz} (add : Bool) {i : Nat} (hi : i < w.bits) (P : IROp → List Val → Val)
    (qa a qb b : BitVec w.bits) : (lift (addSubBits add qa a qb b)).getLsbD i = true ↔
      Varies (fun x y : BitVec w.bits =>
        (evalPrimop P (if add = true then .add w else .sub w) [lift x, lift y]).getLsbD i) a qa b qb := by
  rw [getLsbD_lift (bits_le w) hi]
  cases add with
  | true =>
    simp only [if_true, evalPrimop_add, low_lift (bits_le w), getLsbD_lift (bits_le w) hi]
    exact (varies_add hi).symm
  | false =>
    simp only [Bool.false_eq_true, if_false, evalPrimop_sub, low_lift (bits_le w), getLsbD_lift (bits_le w) hi]
    exact (varies_sub hi).symm

theorem signExtend_ofBool (b : Bool) (n : Nat) :
    (BitVec.ofBool b).signExtend n = if b = true then BitVec.allOnes n else 0 := by
  refine BitVec.eq_of_getLsbD_eq fun i hi => ?_
  rw [BitVec.getLsbD_signExtend]
  cases b <;> simp [hi]

theorem cmpBit_iff {n : Nat} (q a q' a' : BitVec n) : cmpBit q a q' a' = true ↔
    q ||| q' ≠ 0 ∧ (q ||| q') ||| ~~~(a ^^^ a') = BitVec.allOnes n := by
  unfold cmpBit
  rw [signExtend_ofBool, bne_iff_ne, spread]
  simp only [beq_iff_eq]
  split
  · rename_i h
    simp [h]
  · rename_i h
    split
    · rename_i hall
      -- a bit is set, so the width is not zero
      have hne : BitVec.allOnes n ≠ 0 := fun h0 => by
        refine h (BitVec.eq_of_getLsbD_eq fun i hi => ?_)
        have hbit := congrArg (fun z => z.getLsbD i) h0
        simp [hi] at hbit
      rw [BitVec.and_self]
      exact ⟨fun _ => ⟨h, hall⟩, fun _ => hne⟩
    · rename_i hall
      simp [hall]

theorem getLsbD_cmpBit {w : IntSz} {op : IROp} (hop : op = .cmpEQ w ∨ op = .cmpNE w) {i : Nat} (hi : i < 1)
    (P : IROp → List Val → Val) (q a q' a' : BitVec w.bits) :
    (lift (BitVec.ofBool (cmpBit q a q' a'))).getLsbD i = true ↔
      Varies (fun x y : BitVec w.bits => (evalPrimop P op [lift x, lift y]).getLsbD i) a q a' q' := by
  obtain rfl : i = 0 := by omega
  have hbit : ∀ b, (lift (BitVec.ofBool b)).getLsbD 0 = b := by decide
  rw [hbit, cmpBit_iff]
  rcases hop with rfl | rfl
  · have hval : ∀ x y : BitVec w.bits, (evalPrimop P (.cmpEQ w) [lift x, lift y]).getLsbD 0 = (x == y) :=
      fun x y => by rw [evalPrimop_cmpEQ, low_lift (bits_le w), low_lift (bits_le w), hbit]
    simp only [hval]
    exact varies_eq.symm
  · have hval : ∀ x y : BitVec w.bits, (evalPrimop P (.cmpNE w) [lift x, lift y]).getLsbD 0 = (x != y) :=
      fun x y => by rw [evalPrimop_cmpNE, low_lift (bits_le w), low_lift (bits_le w), hbit]
    simp only [hval]
    exact (varies_ne.trans varies_eq).symm

/-- The types whose `And` and `Or` have the scheme. -/
def andOrTypes : List BitOps := [bits8, bits16, bits32, bits64, bitsV128]

theorem ok_of_mem (ho : o ∈ andOrTypes) : o.Ok := by
  simp only [andOrTypes, List.mem_cons, List.not_mem_nil, or_false] at ho
  rcases ho with rfl | rfl | rfl | rfl | rfl
  · exact bits8_ok
  · exact bits16_ok
  · exact bits32_ok
  · exact bits64_ok
  · exact bitsV128_ok

theorem expr2vbits_and (ho : o ∈ andOrTypes) :
    expr2vbitsAndOr o.and = doAndOr (mkUifU o) (mkDifD o) o.ty (mkImproveAND o) := by
  simp only [andOrTypes, List.mem_cons, List.not_mem_nil, or_false] at ho
  rcases ho with rfl | rfl | rfl | rfl | rfl <;> rfl

theorem expr2vbits_or (ho : o ∈ andOrTypes) :
    expr2vbitsAndOr o.or = doAndOr (mkUifU o) (mkDifD o) o.ty (mkImproveOR o) := by
  simp only [andOrTypes, List.mem_cons, List.not_mem_nil, or_false] at ho
  rcases ho with rfl | rfl | rfl | rfl | rfl <;> rfl

theorem improves_and (ho : o.Ok) : Improves o (mkImproveAND o) (· ||| ·) := by
  intro M S fs f g i j hk hf hg hsf hsg hsame
  exact hk.mkImproveAND ho hf hg hsf hsg hsame

theorem improves_or (ho : o.Ok) : Improves o (mkImproveOR o) (~~~· ||| ·) := by
  intro M S fs f g i j hk hf hg hsf hsg hsame
  exact hk.mkImproveOR ho hf hg hsf hsg hsame

theorem and_marks {mce : MCEnv} (ho : o ∈ andOrTypes) (hmce : mce.nOriginalTmps ≤ mce.bb.tyenv.length)
    (h : Operand mce o.ty q a) (h' : Operand mce o.ty q' a') :
    MarksBits M mce (expr2vbitsAndOr o.and q q' a a') o.ty (Undetermined M o.and o.ty.bits q a q' a') := by
  have hok := ok_of_mem ho
  rw [expr2vbits_and ho]
  refine .of_yields (fun ρ => doAndOr_yields (S := ⟨mce, ρ⟩) hok (improves_and hok) hmce h h') fun ρ i hi => ?_
  have hval : ∀ x y : BitVec o.ty.bits,
      (evalPrimop M.primop o.and [lift x, lift y]).getLsbD i = (x &&& y).getLsbD i := fun x y => by
    rw [hok.and_eq, low_lift o.ty.bits_le, low_lift o.ty.bits_le, getLsbD_lift o.ty.bits_le hi]
  rw [getLsbD_lift o.ty.bits_le hi, Undetermined]
  simp only [hval]
  exact (varies_and hi).symm

theorem or_marks {mce : MCEnv} (ho : o ∈ andOrTypes) (hmce : mce.nOriginalTmps ≤ mce.bb.tyenv.length)
    (h : Operand mce o.ty q a) (h' : Operand mce o.ty q' a') :
    MarksBits M mce (expr2vbitsAndOr o.or q q' a a') o.ty (Undetermined M o.or o.ty.bits q a q' a') := by
  have hok := ok_of_mem ho
  rw [expr2vbits_or ho]
  refine .of_yields (fun ρ => doAndOr_yields (S := ⟨mce, ρ⟩) hok (improves_or hok) hmce h h') fun ρ i hi => ?_
  have hval : ∀ x y : BitVec o.ty.bits,
      (evalPrimop M.primop o.or [lift x, lift y]).getLsbD i = (x ||| y).getLsbD i := fun x y => by
    rw [hok.or_eq, low_lift o.ty.bits_le, low_lift o.ty.bits_le, getLsbD_lift o.ty.bits_le hi]
  rw [getLsbD_lift o.ty.bits_le hi, Undetermined]
  simp only [hval]
  exact (varies_or hi).symm

theorem addSub_marks {mce : MCEnv} {w : IntSz} (hw : w = .w32 ∨ w = .w64) (add : Bool)
    (hmce : mce.nOriginalTmps ≤ mce.bb.tyenv.length) (h : Operand mce w.ty q a) (h' : Operand mce w.ty q' a') :
    MarksBits M mce (expensiveAddSub add w.ty q q' a a') w.ty
      (Undetermined M (if add = true then .add w else .sub w) w.bits q a q' a') := by
  have hbits : w.ty.bits = w.bits := by cases w <;> rfl
  refine .of_yields (fun ρ => expensiveAddSub_yields (S := ⟨mce, ρ⟩) hw add hmce h h') fun ρ i hi => ?_
  exact getLsbD_addSubBits add (hbits ▸ hi) M.primop _ _ _ _

theorem cmpEQorNE_marks {mce : MCEnv} {w : IntSz} (hw : w = .w32 ∨ w = .w64) {op : IROp}
    (hop : op = .cmpEQ w ∨ op = .cmpNE w) (hmce : mce.nOriginalTmps ≤ mce.bb.tyenv.length)
    (h : Operand mce w.ty q a) (h' : Operand mce w.ty q' a') :
    MarksBits M mce (expensiveCmpEQorNE w.ty q q' a a') .I1 (Undetermined M op w.bits q a q' a') := by
  refine .of_yields (fun ρ => expensiveCmpEQorNE_yields (S := ⟨mce, ρ⟩) hw hmce h h') fun ρ i hi => ?_
  exact getLsbD_cmpBit hop hi M.primop _ _ _ _

/-- **The expensive interpretations are exact**: for all operands and V bits, the code marks a bit
of the result as undefined iff the undefined bits of the operands can be filled in in two ways
that give different values of that bit. -/
theorem expensive_exact (M : Interp) (mce : MCEnv) (hmce : mce.nOriginalTmps ≤ mce.bb.tyenv.length) :
    (∀ w : IntSz, w = .w32 ∨ w = .w64 → ∀ q a q' a', Operand mce w.ty q a → Operand mce w.ty q' a' →
      MarksBits M mce (expensiveAddSub true w.ty q q' a a') w.ty (Undetermined M (.add w) w.bits q a q' a') ∧
      MarksBits M mce (expensiveAddSub false w.ty q q' a a') w.ty (Undetermined M (.sub w) w.bits q a q' a') ∧
      MarksBits M mce (expensiveCmpEQorNE w.ty q q' a a') .I1 (Undetermined M (.cmpEQ w) w.bits q a q' a') ∧
      MarksBits M mce (expensiveCmpEQorNE w.ty q q' a a') .I1 (Undetermined M (.cmpNE w) w.bits q a q' a')) ∧
    ∀ o ∈ andOrTypes, ∀ q a q' a', Operand mce o.ty q a → Operand mce o.ty q' a' →
      MarksBits M mce (expr2vbitsAndOr o.and q q' a a') o.ty (Undetermined M o.and o.ty.bits q a q' a') ∧
      MarksBits M mce (expr2vbitsAndOr o.or q q' a a') o.ty (Undetermined M o.or o.ty.bits q a q' a') :=
  ⟨fun _ hw _ _ _ _ h h' => ⟨addSub_marks hw true hmce h h', addSub_marks hw false hmce h h',
      cmpEQorNE_marks hw (.inl rfl) hmce h h', cmpEQorNE_marks hw (.inr rfl) hmce h h'⟩,
    fun _ ho _ _ _ _ h h' => ⟨and_marks ho hmce h h', or_marks ho hmce h h'⟩⟩

/-- Two original temporaries of 32 bits and their shadows. -/
def sampleMCEnv : MCEnv := ⟨⟨[.I32, .I32, .I32, .I32], [], .const (.U32 0), .Boring⟩, 2⟩

/-- The sum of two temporaries, on any V bits. -/
theorem expensive_exact_sample : MarksBits default sampleMCEnv
    (expensiveAddSub true .I32 (.rdTmp 2) (.rdTmp 3) (.rdTmp 0) (.rdTmp 1)) .I32
      (Undetermined default (.add .w32) 32 (.rdTmp 2) (.rdTmp 0) (.rdTmp 3) (.rdTmp 1)) :=
  ((expensive_exact default sampleMCEnv (by decide)).1 .w32 (.inl rfl) _ _ _ _
    ⟨by decide, by decide, by decide, rfl, rfl⟩ ⟨by decide, by decide, by decide, rfl, rfl⟩).1

end Memcheck

end Valgrind
