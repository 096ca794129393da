import Valgrind.Vex.RedundantGet

/-!
# Removal of redundant PUTs

`redundant_put_removal_BB` walks backwards over a flat block with the set of the
pieces of the guest state that are certain to be written before they are read. A
`Put` of such a piece is deleted. Whatever may look at the guest state takes pieces
out of the set: `Get` and `GetI`, exits, dirty calls, memory bus events, and, for
the pieces that have to be precise at memory exceptions, loads and stores.

The two blocks therefore agree not only in what they do but in what can be observed
on the way (`Obs`). One thing differs from a naive reading: `preciseMemExnsFn` is
asked about the range of the `Put` that is to go, so it is the bytes all of whose
`Put`s have to be precise that are up to date at a load or a store.
-/

namespace Valgrind.Vex

/-! ## The pass -/

/-- `vex_control.iropt_precise_memory_exns` and the guest's `preciseMemExnsFn`. -/
structure MemExns where
  precise : Bool
  preciseMemExnsFn : Nat → Nat → Bool

/-- The range is flushed at memory accesses. -/
def MemExns.flushes (X : MemExns) (key : Nat) : Bool :=
  X.precise || X.preciseMemExnsFn (keyLo key) (keyHi key)

/-- The end of `handle_gets_Stmt`, for a statement that accesses memory. -/
def flushMemRW (X : MemExns) (env : HashHW Unit) : HashHW Unit :=
  env.filter fun e => !X.flushes e.1

/-- `handle_gets_Stmt`: what is left of the set before the statement. -/
def handleGetsStmt (X : MemExns) (env : HashHW Unit) : IRStmt → Result (HashHW Unit)
  | .wrTmp _ (.get offset ty) => do
    let key ← mkKeyGetPut offset ty
    invalidateOverlaps env (keyLo key) (keyHi key)
  | .wrTmp _ (.getI descr _ _) => do
    let key ← mkKeyGetIPutI descr
    invalidateOverlaps env (keyLo key) (keyHi key)
  | .wrTmp _ (.load _ _ _) => .ok (flushMemRW X env)
  | .wrTmp _ _ => .ok env
  | .abiHint base _ nia => do
    assertThat (base.isIRAtom = true)
    assertThat (nia.isIRAtom = true)
    return []
  | .mbe _ => .ok []
  | .dirty _ => .ok []
  | .store _ addr data => do
    assertThat (addr.isIRAtom = true)
    assertThat (data.isIRAtom = true)
    return flushMemRW X env
  | .exit guard _ _ => do
    assertThat (guard.isIRAtom = true)
    return env
  | .putI _ ix _ data => do
    assertThat (ix.isIRAtom = true)
    assertThat (data.isIRAtom = true)
    return env
  | .noOp => .ok env
  | .iMark _ _ => .ok env
  -- a `Put` never gets here
  | .put _ _ => .error .panic

/-- What `redundant_put_removal_BB` does with a statement, given the set after it. -/
def redundantPutStmt (X : MemExns) (tyenv : IRTypeEnv) (st : IRStmt) (env : HashHW Unit) :
    Result (IRStmt × HashHW Unit) :=
  match st with
  | .noOp => .ok (st, env)
  | .exit guard _ _ => do
    assertThat (guard.isIRAtom = true)
    return (st, [])
  | .put offset data => do
    let ty ← typeOfIRExpr tyenv data
    let key ← mkKeyGetPut offset ty
    assertThat (data.isIRAtom = true)
    match lookupHHW env key with
    | some _ => return (.noOp, env)
    | none => return (st, addToHHW env key ())
  | .putI descr ix _ data => do
    let _ ← mkKeyGetIPutI descr
    assertThat (ix.isIRAtom = true)
    assertThat (data.isIRAtom = true)
    let env ← handleGetsStmt X env st
    return (st, env)
  | _ => do
    let env ← handleGetsStmt X env st
    return (st, env)

/-- `redundant_put_removal_BB`. -/
def redundantPutRemovalBB (X : MemExns) (bb : IRSB) : Result IRSB := do
  let (stmts, _) ← Straight.scanBack (redundantPutStmt X bb.tyenv) bb.stmts newHHW
  return { bb with stmts := stmts }

/-! ## What can be observed on the way -/

/-- Something that looks at the guest state while a block runs. -/
inductive Obs where
  /-- A `Get` or a `GetI`, and the value that it reads. -/
  | get (v : Val)
  /-- A dirty helper that is called, and what it is given. -/
  | dirty (call : DirtyCall)
  /-- A load or a store; a memory exception there would show the guest state. -/
  | access (guest : Nat → BitVec 8)
  /-- A memory bus event. -/
  | busEvent (guest : Nat → BitVec 8)

/-- What can be observed when a statement is executed. -/
def obsOf (M : Interp) (s : State) : IRStmt → List Obs
  | .wrTmp _ (.get offset ty) => [.get (evalExpr M s.tmps s.world (.get offset ty))]
  | .wrTmp _ (.getI descr ix bias) => [.get (evalExpr M s.tmps s.world (.getI descr ix bias))]
  | .wrTmp _ (.load _ _ _) => [.access s.world.guest]
  | .store _ _ _ => [.access s.world.guest]
  | .mbe _ => [.busEvent s.world.guest]
  | .dirty d =>
    if evalExpr M s.tmps s.world d.guard = 0 then [] else [.dirty (dirtyCall M s.tmps s.world d)]
  | _ => []

/-- Execute a statement and record what can be observed. -/
def execObserved (M : Interp) (tyenv : IRTypeEnv) (s : State × List Obs) (st : IRStmt) :
    (State × List Obs) × Option Target :=
  ((( execStmt M tyenv s.1 st).1, s.2 ++ obsOf M s.1 st), (execStmt M tyenv s.1 st).2)

/-- Run a superblock and record what can be observed. -/
def runObserved (M : Interp) (bb : IRSB) (w : World) : (World × Target) × List Obs :=
  let r := Straight.run (execObserved M bb.tyenv) (⟨noTmps, w⟩, []) bb.stmts
  (finish M bb.next bb.jumpkind (r.1.1, r.2), r.1.2)

/-- The same observation, but for those bytes of the guest state at a load or a store
that need not be precise. -/
inductive SameObs (Precise : Nat → Prop) : Obs → Obs → Prop where
  | get (v : Val) : SameObs Precise (.get v) (.get v)
  | dirty (call : DirtyCall) : SameObs Precise (.dirty call) (.dirty call)
  | access {g g' : Nat → BitVec 8} (h : ∀ o, Precise o → g o = g' o) :
    SameObs Precise (.access g) (.access g')
  | busEvent (g : Nat → BitVec 8) : SameObs Precise (.busEvent g) (.busEvent g)

/-- The byte is up to date at loads and stores: `preciseMemExnsFn` says so of the range
of every `Put` of the block that covers it. -/
def PreciseByte (X : MemExns) (bb : IRSB) (o : Nat) : Prop :=
  ∀ offset data, .put offset data ∈ bb.stmts →
    offset ≤ o → o < offset + (data.tyIn bb.tyenv).bytes →
    X.precise = true ∨
      X.preciseMemExnsFn offset (offset + (data.tyIn bb.tyenv).bytes - 1) = true

/-! ## The simulation -/

/-- The byte is in no piece of the set. -/
abbrev Outside (env : HashHW Unit) (o : Nat) : Prop :=
  ∀ k v, (k, v) ∈ env → o < keyLo k ∨ keyHi k < o

/-- The states agree but for the pieces in the set. -/
abbrev EqOutside (env : HashHW Unit) (s s' : State) : Prop := EqOn (Outside env) s s'

/-- With nothing in the set the states are equal. -/
theorem eqOutside_nil {s s' : State} (h : EqOutside [] s s') : s = s' :=
  h.eq fun _ _ _ hm => (nomatch hm : False).elim

theorem EqOutside.mono {env env' : HashHW Unit} {s s' : State} (h : EqOutside env s s')
    (hsub : ∀ k v, (k, v) ∈ env → (k, v) ∈ env') : EqOutside env' s s' :=
  EqOn.mono h fun _ ho k v hm => ho k v (hsub k v hm)

/-- Every piece in the set is the range of a `Put` of the block. -/
def FromPuts (bb : IRSB) (env : HashHW Unit) : Prop :=
  ∀ k v, (k, v) ∈ env → ∃ offset data, .put offset data ∈ bb.stmts ∧
    mkKeyGetPut offset (data.tyIn bb.tyenv) = .ok k

/-- What the flush at a memory access leaves in the set covers no precise byte. -/
theorem outside_of_precise {X : MemExns} {bb : IRSB} {env : HashHW Unit} (hputs : FromPuts bb env)
    {o : Nat} (ho : PreciseByte X bb o) {k : Nat} {v : Unit} (hm : (k, v) ∈ flushMemRW X env) :
    o < keyLo k ∨ keyHi k < o := by
  obtain ⟨hmem, hflush⟩ := List.mem_filter.mp hm
  obtain ⟨offset, data, hput, hkey⟩ := hputs k v hmem
  obtain ⟨hlo, hhi, -⟩ := mkKeyGetPut_ok hkey
  by_contra hin
  have hprec := ho offset data hput (by omega) (by omega)
  rw [show offset + (data.tyIn bb.tyenv).bytes - 1 = keyHi k by omega, ← hlo] at hprec
  simp [MemExns.flushes] at hflush
  rcases hprec with hp | hp
  · rw [hflush.1] at hp
    exact nomatch hp
  · rw [hflush.2] at hp
    exact nomatch hp

section Simulation

variable {M : Interp} {X : MemExns} {bb : IRSB} {env env' : HashHW Unit} {st st' : IRStmt}
  {s s' : State}

/-- What one step of the pass owes: the two sides stay equal outside the set, leave the
block together and in equal states, and what can be observed is the same. -/
structure PutStep (M : Interp) (X : MemExns) (bb : IRSB) (env : HashHW Unit) (s s' : State)
    (st st' : IRStmt) : Prop where
  outside : EqOutside env (execStmt M bb.tyenv s st).1 (execStmt M bb.tyenv s' st').1
  exit : (execStmt M bb.tyenv s st).2 = (execStmt M bb.tyenv s' st').2
  atExit : (execStmt M bb.tyenv s st).2 ≠ none →
    (execStmt M bb.tyenv s st).1 = (execStmt M bb.tyenv s' st').1
  obs : List.Forall₂ (SameObs (PreciseByte X bb)) (obsOf M s st) (obsOf M s' st')

theorem sameObs_refl (Precise : Nat → Prop) : ∀ l : List Obs, List.Forall₂ (SameObs Precise) l l
  | [] => .nil
  | .get _ :: l => .cons (.get _) (sameObs_refl Precise l)
  | .dirty _ :: l => .cons (.dirty _) (sameObs_refl Precise l)
  | .access _ :: l => .cons (.access fun _ _ => rfl) (sameObs_refl Precise l)
  | .busEvent _ :: l => .cons (.busEvent _) (sameObs_refl Precise l)

/-- A statement before which the set is empty. -/
theorem PutStep.of_nil (h : EqOutside [] s s') : PutStep M X bb env s s' st st := by
  obtain rfl := eqOutside_nil h
  exact ⟨.refl _ _, rfl, fun _ => rfl, sameObs_refl _ _⟩

/-- A statement that takes no exit, runs the same on both sides and leaves the set as it
is or makes it larger. -/
theorem PutStep.of_exec (h : EqOutside env' s s') (hsub : ∀ k v, (k, v) ∈ env' → (k, v) ∈ env)
    (hflat : isFlatIRStmt st = true) (hget : ∀ t offset ty, st ≠ .wrTmp t (.get offset ty))
    (hgetI : ∀ t descr ix bias, st ≠ .wrTmp t (.getI descr ix bias)) (hdirty : ∀ d, st ≠ .dirty d)
    (hexit : ∀ guard jk dst, st ≠ .exit guard jk dst)
    (hobs : List.Forall₂ (SameObs (PreciseByte X bb)) (obsOf M s st) (obsOf M s' st)) :
    PutStep M X bb env s s' st st := by
  obtain ⟨hout, heq⟩ := h.exec M bb.tyenv hflat hget hgetI hdirty
  have hnone : (execStmt M bb.tyenv s st).2 = none := by
    cases st with
    | exit guard jk dst => exact absurd rfl (hexit guard jk dst)
    | dirty d => exact absurd rfl (hdirty d)
    | _ => rfl
  exact ⟨EqOutside.mono hout hsub, heq, fun hne => absurd hnone hne, hobs⟩

/-- A `Get` or a `GetI` that reads nothing of the set. -/
theorem PutStep.of_read (h : EqOutside env' s s') (hsub : ∀ k v, (k, v) ∈ env' → (k, v) ∈ env)
    {tmp : IRTemp} {e : IRExpr} (hval : evalExpr M s.tmps s.world e = evalExpr M s'.tmps s'.world e)
    (hobs : ∀ s : State, obsOf M s (.wrTmp tmp e) = [.get (evalExpr M s.tmps s.world e)]) :
    PutStep M X bb env s s' (.wrTmp tmp e) (.wrTmp tmp e) := by
  refine ⟨?_, rfl, fun hne => absurd rfl hne, ?_⟩
  · simp only [execStmt, effect, hval]
    exact (EqOutside.mono h hsub).assign _
  · rw [hobs, hobs, hval]
    exact sameObs_refl _ _

/-- **One step of the pass.** -/
theorem redundantPutStmt_spec (hflat : isFlatIRStmt st = true) (hputs : FromPuts bb env)
    (h : redundantPutStmt X bb.tyenv st env = .ok (st', env')) (hR : EqOutside env' s s') :
    PutStep M X bb env s s' st st' := by
  unfold redundantPutStmt at h
  split at h
  · -- a no-op
    cases h
    exact .of_exec hR (fun _ _ hm => hm) rfl (by simp) (by simp) (by simp) (by simp) .nil
  · -- an exit: the set is empty before it
    simp only [bind_eq_ok, pure_eq_ok, Prod.mk.injEq] at h
    obtain ⟨-, -, rfl, rfl⟩ := h
    exact .of_nil hR
  · -- a `Put`
    rename_i offset data
    simp only [bind_eq_ok, assertThat_eq_ok] at h
    obtain ⟨ty, hty, key, hkey, -, hatom, h⟩ := h
    obtain rfl := typeOfIRExpr_eq_ok hty
    obtain ⟨hlo, hhi, -⟩ := mkKeyGetPut_ok hkey
    split at h
    · -- redundant: its piece is in the set
      rename_i u hfound
      simp only [pure_eq_ok, Prod.mk.injEq] at h
      obtain ⟨rfl, rfl⟩ := h
      refine ⟨⟨hR.tmps, hR.mem, hR.calls, fun o ho => ?_⟩, rfl, fun hne => absurd rfl hne, .nil⟩
      have hin := ho key u (mem_of_lookupHHW hfound)
      exact (writeGuest_of_outside (by omega)).trans (hR.guest o ho)
    · -- kept: its piece joins the set
      simp only [pure_eq_ok, Prod.mk.injEq] at h
      obtain ⟨rfl, rfl⟩ := h
      refine ⟨?_, rfl, fun hne => absurd rfl hne, .nil⟩
      simp only [execStmt, effect, assign_none, hR.eval_atom (M := M) hatom]
      refine hR.write offset _ _ fun o ho => ?_
      by_cases hin : offset ≤ o ∧ o < offset + (data.tyIn bb.tyenv).bytes
      · exact .inl hin
      · refine .inr fun k v hm => ?_
        rcases mem_addToHHW hm with heq | hm
        · cases heq
          omega
        · exact ho k v hm
  · -- a `PutI`
    rename_i descr ix bias data
    simp only [handleGetsStmt, bind_eq_ok, pure_eq_ok, Prod.mk.injEq] at h
    obtain ⟨-, -, -, -, -, -, env₁, ⟨-, -, -, -, rfl⟩, rfl, rfl⟩ := h
    exact .of_exec hR (fun _ _ hm => hm) hflat (by simp) (by simp) (by simp) (by simp) .nil
  · -- everything that may read the guest state
    rename_i hnoOp hexit hput hputI
    simp only [bind_eq_ok, pure_eq_ok, Prod.mk.injEq] at h
    obtain ⟨env₁, hgets, rfl, rfl⟩ := h
    unfold handleGetsStmt at hgets
    split at hgets
    · rename_i tmp offset ty
      simp only [bind_eq_ok] at hgets
      obtain ⟨key, hkey, hinv⟩ := hgets
      obtain ⟨hlo, hhi, -⟩ := mkKeyGetPut_ok hkey
      refine .of_read hR (fun k v hm => ((invalidateOverlaps_ok hinv).mp hm).1) ?_ fun s => rfl
      simp only [evalExpr]
      refine hR.readGuest fun o h₁ h₂ k v hm => ?_
      have := ((invalidateOverlaps_ok hinv).mp hm).2
      omega
    · rename_i tmp descr ix bias
      simp only [bind_eq_ok] at hgets
      obtain ⟨key, hkey, hinv⟩ := hgets
      obtain ⟨hlo, hhi, -⟩ := mkKeyGetIPutI_ok hkey
      refine .of_read hR (fun k v hm => ((invalidateOverlaps_ok hinv).mp hm).1) ?_ fun s => rfl
      simp only [evalExpr, hR.eval_atom (M := M) (show ix.isIRAtom = true from hflat)]
      obtain ⟨h₁, h₂⟩ := regOffset_bounds descr (evalExpr M s'.tmps s'.world ix) bias
      refine hR.readGuest fun o h₃ h₄ k v hm => ?_
      have := ((invalidateOverlaps_ok hinv).mp hm).2
      omega
    · cases hgets
      exact .of_exec hR (fun k v hm => List.mem_of_mem_filter hm) hflat (by simp) (by simp) (by simp)
        (by simp) (.cons (.access fun o ho => hR.guest o fun k v hm =>
          outside_of_precise hputs ho hm) .nil)
    · rename_i tmp data hget hgetI hload
      cases hgets
      have hnone : ∀ s, obsOf M s (.wrTmp tmp data) = [] := by
        intro s
        unfold obsOf
        cases data with
        | get offset ty => exact (hget offset ty rfl).elim
        | getI descr ix bias => exact (hgetI descr ix bias rfl).elim
        | load en ty addr => exact (hload en ty addr rfl).elim
        | _ => rfl
      refine .of_exec hR (fun _ _ hm => hm) hflat ?_ ?_ (by simp) (by simp) ?_
      · intro t offset ty he
        exact hget offset ty (IRStmt.wrTmp.inj he).2
      · intro t descr ix bias he
        exact hgetI descr ix bias (IRStmt.wrTmp.inj he).2
      · rw [hnone, hnone]
        exact .nil
    · simp only [bind_eq_ok, pure_eq_ok] at hgets
      obtain ⟨-, -, -, -, rfl⟩ := hgets
      exact .of_nil hR
    · cases hgets
      exact .of_nil hR
    · cases hgets
      exact .of_nil hR
    · simp only [bind_eq_ok, pure_eq_ok] at hgets
      obtain ⟨-, -, -, -, rfl⟩ := hgets
      exact .of_exec hR (fun k v hm => List.mem_of_mem_filter hm) hflat (by simp) (by simp) (by simp)
        (by simp) (.cons (.access fun o ho => hR.guest o fun k v hm =>
          outside_of_precise hputs ho hm) .nil)
    · exact absurd rfl (hexit _ _ _)
    · exact absurd rfl (hputI _ _ _ _)
    · exact absurd rfl hnoOp
    · cases hgets
      exact .of_exec hR (fun _ _ hm => hm) hflat (by simp) (by simp) (by simp) (by simp) .nil
    · exact absurd rfl (hput _ _)

theorem handleGetsStmt_subset (h : handleGetsStmt X env st = .ok env') {k : Nat} {v : Unit}
    (hm : (k, v) ∈ env') : (k, v) ∈ env := by
  unfold handleGetsStmt at h
  split at h
  · simp only [bind_eq_ok] at h
    obtain ⟨key, -, hinv⟩ := h
    exact ((invalidateOverlaps_ok hinv).mp hm).1
  · simp only [bind_eq_ok] at h
    obtain ⟨key, -, hinv⟩ := h
    exact ((invalidateOverlaps_ok hinv).mp hm).1
  · cases h
    exact List.mem_of_mem_filter hm
  · cases h
    exact hm
  · simp only [bind_eq_ok, pure_eq_ok] at h
    obtain ⟨-, -, -, -, rfl⟩ := h
    cases hm
  · cases h
    cases hm
  · cases h
    cases hm
  · simp only [bind_eq_ok, pure_eq_ok] at h
    obtain ⟨-, -, -, -, rfl⟩ := h
    exact List.mem_of_mem_filter hm
  · simp only [bind_eq_ok, pure_eq_ok] at h
    obtain ⟨-, -, rfl⟩ := h
    exact hm
  · simp only [bind_eq_ok, pure_eq_ok] at h
    obtain ⟨-, -, -, -, rfl⟩ := h
    exact hm
  · cases h
    exact hm
  · cases h
    exact hm
  · cases h

/-- The set stays made of ranges of `Put`s of the block. -/
theorem redundantPutStmt_fromPuts (hmem : st ∈ bb.stmts) (hputs : FromPuts bb env)
    (h : redundantPutStmt X bb.tyenv st env = .ok (st', env')) : FromPuts bb env' := by
  unfold redundantPutStmt at h
  split at h
  · cases h
    exact hputs
  · simp only [bind_eq_ok, pure_eq_ok, Prod.mk.injEq] at h
    obtain ⟨-, -, -, rfl⟩ := h
    exact fun _ _ hm => by cases hm
  · rename_i offset data
    simp only [bind_eq_ok] at h
    obtain ⟨ty, hty, key, hkey, -, -, h⟩ := h
    obtain rfl := typeOfIRExpr_eq_ok hty
    split at h
    · cases h
      exact hputs
    · cases h
      intro k v hm
      rcases mem_addToHHW hm with heq | hm
      · cases heq
        exact ⟨offset, data, hmem, hkey⟩
      · exact hputs k v hm
  · simp only [bind_eq_ok, pure_eq_ok, Prod.mk.injEq] at h
    obtain ⟨-, -, -, -, -, -, env₁, hgets, -, rfl⟩ := h
    exact fun k v hm => hputs k v (handleGetsStmt_subset hgets hm)
  · simp only [bind_eq_ok, pure_eq_ok, Prod.mk.injEq] at h
    obtain ⟨env₁, hgets, -, rfl⟩ := h
    exact fun k v hm => hputs k v (handleGetsStmt_subset hgets hm)

end Simulation

/-- The states that the simulation compares, with what has been observed so far. -/
def EqObserved (X : MemExns) (bb : IRSB) (env : HashHW Unit) (a b : State × List Obs) : Prop :=
  EqOutside env a.1 b.1 ∧ List.Forall₂ (SameObs (PreciseByte X bb)) a.2 b.2

/-- Where the two blocks are left together, the states are equal. -/
def EqAtExit (X : MemExns) (bb : IRSB) (a b : State × List Obs) : Prop :=
  a.1 = b.1 ∧ List.Forall₂ (SameObs (PreciseByte X bb)) a.2 b.2

theorem EqObserved.step {M : Interp} {X : MemExns} {bb : IRSB} {env env' : HashHW Unit}
    {st st' : IRStmt} {a b : State × List Obs} (hR : EqObserved X bb env' a b)
    (hflat : isFlatIRStmt st = true) (hputs : FromPuts bb env)
    (h : redundantPutStmt X bb.tyenv st env = .ok (st', env')) :
    Straight.Agree (EqObserved X bb env) (EqAtExit X bb) (execObserved M bb.tyenv a st)
      (execObserved M bb.tyenv b st') := by
  have hstep := redundantPutStmt_spec (M := M) hflat hputs h hR.1
  have hobs := List.rel_append hR.2 hstep.obs
  exact ⟨hstep.exit, fun _ => ⟨hstep.outside, hobs⟩, fun hne => ⟨hstep.atExit hne, hobs⟩⟩

/-- On a flat, well-typed block whose offsets fit into 16 bits the pass returns. -/
theorem redundantPutStmt_returns {X : MemExns} {bb : IRSB} {gWordTy : IRType} {env : HashHW Unit}
    {st : IRStmt} (hflat : isFlatIRStmt st = true) (htc : tcStmt bb.tyenv gWordTy st = true)
    (hoff : OffsetsFit bb.tyenv st) (hputs : FromPuts bb env) :
    ∃ st' env', redundantPutStmt X bb.tyenv st env = .ok (st', env') := by
  have hinv : ∀ {lo hi}, lo ≤ hi → ∃ env', invalidateOverlaps env lo hi = .ok env' := by
    intro lo hi hle
    have hall : ∀ e ∈ env, keyLo e.1 ≤ keyHi e.1 := by
      intro e he
      obtain ⟨offset, data, -, hkey⟩ := hputs e.1 e.2 he
      obtain ⟨-, hhi, -⟩ := mkKeyGetPut_ok hkey
      have hpos := (data.tyIn bb.tyenv).bytes_pos
      omega
    exact ⟨_, by rw [invalidateOverlaps, assertThat_of hle, assertThat_of hall]; rfl⟩
  have hatoms : ∀ {a b : IRExpr}, (a.isIRAtom && b.isIRAtom) = true →
      assertThat (a.isIRAtom = true) = .ok () ∧ assertThat (b.isIRAtom = true) = .ok () :=
    fun h => ⟨assertThat_of (Bool.and_eq_true_iff.mp h).1, assertThat_of (Bool.and_eq_true_iff.mp h).2⟩
  cases st with
  | noOp | iMark | mbe | dirty => exact ⟨_, _, rfl⟩
  | abiHint base len nia =>
    obtain ⟨h₁, h₂⟩ := hatoms hflat
    exact ⟨_, _, by simp only [redundantPutStmt, handleGetsStmt, h₁, h₂]; rfl⟩
  | store en addr data =>
    obtain ⟨h₁, h₂⟩ := hatoms hflat
    exact ⟨_, _, by simp only [redundantPutStmt, handleGetsStmt, h₁, h₂]; rfl⟩
  | exit guard jk dst =>
    exact ⟨_, _, by rw [redundantPutStmt, assertThat_of (show guard.isIRAtom = true from hflat)]; rfl⟩
  | putI descr ix bias data =>
    obtain ⟨key, hkey⟩ := hoff
    obtain ⟨h₁, h₂⟩ := hatoms hflat
    exact ⟨_, _, by simp only [redundantPutStmt, handleGetsStmt, hkey, h₁, h₂]; rfl⟩
  | put offset data =>
    obtain ⟨key, hkey⟩ := hoff
    simp only [tcStmt, Bool.and_eq_true] at htc
    rw [redundantPutStmt, hasOtherType_returns htc.2]
    simp only [ok_bind, hkey, assertThat_of (show data.isIRAtom = true from hflat)]
    split
    · exact ⟨_, _, rfl⟩
    · exact ⟨_, _, rfl⟩
  | wrTmp tmp data =>
    cases data with
    | get offset ty =>
      obtain ⟨key, hkey⟩ := hoff
      obtain ⟨-, hhi, -⟩ := mkKeyGetPut_ok hkey
      have hpos := ty.bytes_pos
      obtain ⟨env', henv'⟩ := hinv (show keyLo key ≤ keyHi key by omega)
      exact ⟨_, _, by simp only [redundantPutStmt, handleGetsStmt, hkey, ok_bind, henv']; rfl⟩
    | getI descr ix bias =>
      obtain ⟨key, hkey⟩ := hoff
      obtain ⟨env', henv'⟩ := hinv (mkKeyGetIPutI_ok hkey).2.2
      exact ⟨_, _, by simp only [redundantPutStmt, handleGetsStmt, hkey, ok_bind, henv']; rfl⟩
    | _ => exact ⟨_, _, rfl⟩

/-- **Redundant PUT removal cannot be observed**: the block leaves the same world behind
and goes to the same place, every `Get` and `GetI` reads the same value, every dirty
helper is given the same, the guest state is the same at every memory bus event, and at
every load and store it is the same in all bytes that have to be precise. On a flat,
well-typed block whose offsets fit into 16 bits the pass returns. -/
theorem redundantPutRemovalBB_correct (X : MemExns) (bb : IRSB) (hflat : bb.isFlat = true) :
    (∀ bb', redundantPutRemovalBB X bb = .ok bb' → ∀ M w,
      (runObserved M bb w).1 = (runObserved M bb' w).1 ∧
        List.Forall₂ (SameObs (PreciseByte X bb)) (runObserved M bb w).2
          (runObserved M bb' w).2) ∧
      ((∃ gWordTy, bb.WellTyped gWordTy) → (∀ st ∈ bb.stmts, OffsetsFit bb.tyenv st) →
        ∃ bb', redundantPutRemovalBB X bb = .ok bb') := by
  have hflatStmt : ∀ st ∈ bb.stmts, isFlatIRStmt st = true :=
    List.all_eq_true.mp (Bool.and_eq_true_iff.mp hflat).1
  constructor
  · intro bb' h M w
    simp only [redundantPutRemovalBB, bind_eq_ok, pure_eq_ok, Prod.exists] at h
    obtain ⟨stmts, env, hscan, rfl⟩ := h
    obtain ⟨-, hrun⟩ := Straight.scanBack_sim (FromPuts bb) (EqObserved X bb) (EqAtExit X bb)
      (fun hst hputs h => redundantPutStmt_fromPuts hst hputs h)
      (fun hst hputs hR h => EqObserved.step (M := M) hR (hflatStmt _ hst) hputs h) hscan
      (fun _ _ hm => by cases hm)
    have hagree := hrun (⟨noTmps, w⟩, []) (⟨noTmps, w⟩, []) ⟨.refl _ _, .nil⟩
    simp only [runObserved]
    rcases h₁ : Straight.run (execObserved M bb.tyenv) (⟨noTmps, w⟩, []) bb.stmts with ⟨a, x⟩
    rcases h₂ : Straight.run (execObserved M bb.tyenv) (⟨noTmps, w⟩, []) stmts with ⟨b, y⟩
    rw [h₁, h₂] at hagree
    obtain ⟨rfl, hnext, hexit⟩ := hagree
    cases x with
    | none =>
      obtain ⟨hout, hobs⟩ := hnext rfl
      rw [show a.1 = b.1 from eqOutside_nil hout]
      exact ⟨rfl, hobs⟩
    | some x =>
      obtain ⟨heq, hobs⟩ := hexit (by simp)
      rw [show a.1 = b.1 from heq]
      exact ⟨rfl, hobs⟩
  · rintro ⟨gWordTy, htyped⟩ hoff
    have hret : ∀ env st, st ∈ bb.stmts → FromPuts bb env → ∃ st' env',
        redundantPutStmt X bb.tyenv st env = .ok (st', env') ∧ FromPuts bb env' := by
      intro env st hst hputs
      obtain ⟨st', env', h⟩ := redundantPutStmt_returns (X := X) (hflatStmt st hst)
        (htyped.2.1 st hst) (hoff st hst) hputs
      exact ⟨st', env', h, redundantPutStmt_fromPuts hst hputs h⟩
    obtain ⟨stmts, env, hscan, -⟩ := Straight.scanBack_returns hret
      (show FromPuts bb newHHW from fun _ _ hm => by cases hm)
    refine ⟨{ bb with stmts := stmts }, ?_⟩
    rw [redundantPutRemovalBB, hscan]
    rfl

/-- No precise exceptions but for the stack pointer at `16 .. 19`, as on x86. -/
def preciseSP : MemExns where
  precise := false
  preciseMemExnsFn minoff maxoff := decide (minoff ≤ 19 ∧ 16 ≤ maxoff)

/-- `PUT(0) = 1:I32; t0 = LDle:I32(0x100); PUT(0) = 2:I32`. -/
def putLoadPutBB : IRSB :=
  blockOf [.I32] [.put 0 (.const (.U32 1)), .wrTmp 0 (.load .LE .I32 (.const (.U32 0x100))),
    .put 0 (.const (.U32 2))]

theorem redundantPutRemovalBB_correct_putLoadPut :
    ∃ bb', redundantPutRemovalBB preciseSP putLoadPutBB = .ok bb' ∧
      ∀ M w, (runObserved M putLoadPutBB w).1 = (runObserved M bb' w).1 := by
  obtain ⟨hsame, hret⟩ := redundantPutRemovalBB_correct preciseSP putLoadPutBB (by decide)
  have hoff : ∀ st ∈ putLoadPutBB.stmts, OffsetsFit putLoadPutBB.tyenv st := by
    intro st hst
    simp only [putLoadPutBB, blockOf, List.mem_cons, List.not_mem_nil, or_false] at hst
    rcases hst with rfl | rfl | rfl
    · exact ⟨_, rfl⟩
    · trivial
    · exact ⟨_, rfl⟩
  obtain ⟨bb', hbb'⟩ := hret ⟨.I32, by decide⟩ hoff
  exact ⟨bb', hbb', fun M w => (hsame bb' hbb' M w).1⟩

/-- The range `0 .. 19` has to be precise, as it contains the stack pointer; its first
byte is not up to date at the load once the first `Put` is gone. -/
theorem redundantPutRemovalBB_imprecise :
    ¬ ∀ X bb bb', bb.isFlat = true → bb.IsSSA → redundantPutRemovalBB X bb = .ok bb' → ∀ M w,
      List.Forall₂
        (SameObs fun o => ∃ lo hi, X.preciseMemExnsFn lo hi = true ∧ lo ≤ o ∧ o ≤ hi)
        (runObserved M bb w).2 (runObserved M bb' w).2 := by
  intro h
  have hobs := h preciseSP putLoadPutBB { putLoadPutBB with stmts := .noOp :: putLoadPutBB.stmts.tail }
    (by decide) (by decide) rfl default default
  change List.Forall₂ _ [Obs.access (writeGuest default (fun _ => 0) 0 4 1)] [Obs.access fun _ => 0]
    at hobs
  cases hobs with
  | cons hacc _ =>
    cases hacc with
    | access hsame =>
      have hbyte := hsame 0 ⟨0, 19, by decide, by decide, by decide⟩
      exact absurd hbyte (by decide)

end Valgrind.Vex
