import Valgrind.Vex.Aliasing

/-!
# Forwarding and removal of indexed PUTs

`do_redundant_GetI_elimination` replaces a `GetI` by the data of the `PutI` that wrote
the element it reads; `do_redundant_PutI_elimination` deletes a `PutI` of an element
that is written again before anything can look at it. Both loops change only the
statement they stand at, and search among statements that they have not come to yet:
`findPutI` those before a `GetI`, nearest first, and the search for a second `PutI`
those after the first.
-/

namespace Valgrind.Vex

/-! ## `GetI`s -/

/-- `findPutI`, for the statements before the `GetI`, nearest first. -/
def findPutI (tyenv : IRTypeEnv) (descrG : IRRegArray) (ixG : IRExpr) (biasG : Int) :
    List IRStmt → Result (Option IRExpr)
  | [] => .ok none
  | .put offset data :: before => do
    let ty ← typeOfIRExpr tyenv data
    let relation ← getAliasingRelationIC descrG ixG offset ty
    if relation = .NoAlias then
      findPutI tyenv descrG ixG biasG before
    else do
      assertThat (relation ≠ .ExactAlias)
      return none
  | .putI descr ix bias data :: before => do
    let relation ← getAliasingRelationII descrG ixG biasG descr ix bias
    match relation with
    | .NoAlias => findPutI tyenv descrG ixG biasG before
    | .UnknownAlias => return none
    | .ExactAlias => return some data
  | .dirty d :: before =>
    if 0 < d.fxState.length then .ok none else findPutI tyenv descrG ixG biasG before
  | _ :: before => findPutI tyenv descrG ixG biasG before

/-- What `do_redundant_GetI_elimination` does with a statement, given those before it,
nearest first. -/
def redundantGetIStmt (tyenv : IRTypeEnv) (before : List IRStmt) (st : IRStmt) :
    Result (IRStmt × List IRStmt) :=
  match st with
  | .wrTmp tmp (.getI descr (.rdTmp ix) bias) => do
    let replacement ← findPutI tyenv descr (.rdTmp ix) bias before
    match replacement with
    | some e =>
      if e.isIRAtom = true then do
        let ty ← typeOfIRExpr tyenv e
        return (if ty = descr.elemTy then .wrTmp tmp e else st, st :: before)
      else return (st, st :: before)
    | none => return (st, st :: before)
  | _ => .ok (st, st :: before)

/-- `do_redundant_GetI_elimination`. -/
def doRedundantGetIElimination (bb : IRSB) : Result IRSB := do
  let (stmts, _) ← Straight.scan (redundantGetIStmt bb.tyenv) [] bb.stmts
  return { bb with stmts := stmts }

/-! ## `PutI`s -/

/-- `identicalPutIs`. -/
def identicalPutIs (pi s2 : IRStmt) : Result Bool :=
  match pi with
  | .putI descr ix bias _ =>
    match s2 with
    | .putI descr' ix' bias' _ => do
      let relation ← getAliasingRelationII descr ix bias descr' ix' bias'
      return relation == .ExactAlias
    | _ => .ok false
  | _ => .error .assertFailed

/-- `guestAccessWhichMightOverlapPutI`. -/
def guestAccessWhichMightOverlapPutI (tyenv : IRTypeEnv) (pi s2 : IRStmt) : Result Bool :=
  match pi with
  | .putI descr ix bias _ => do
    let _ ← getArrayBounds descr
    match s2 with
    | .noOp => return false
    | .iMark _ _ => return false
    | .mbe _ => return true
    | .abiHint _ _ _ => return true
    | .dirty d => return decide (0 < d.fxState.length)
    | .put offset data => do
      assertThat (data.isIRAtom = true)
      let ty ← typeOfIRExpr tyenv data
      let relation ← getAliasingRelationIC descr ix offset ty
      return relation != .NoAlias
    | .putI descr' ix' bias' data' => do
      assertThat (ix'.isIRAtom = true)
      assertThat (data'.isIRAtom = true)
      let relation ← getAliasingRelationII descr ix bias descr' ix' bias'
      return relation != .NoAlias
    | .wrTmp _ (.getI descr' ix' bias') => do
      let relation ← getAliasingRelationII descr ix bias descr' ix' bias'
      return relation != .NoAlias
    | .wrTmp _ (.get offset ty) => do
      let relation ← getAliasingRelationIC descr ix offset ty
      return relation != .NoAlias
    | .wrTmp _ _ => return false
    | .store _ addr data => do
      assertThat (addr.isIRAtom = true)
      assertThat (data.isIRAtom = true)
      return false
    | .exit _ _ _ => .error .panic
  | _ => .error .assertFailed

/-- The statement is a dirty call. -/
def IRStmt.isDirty : IRStmt → Bool
  | .dirty _ => true
  | _ => false

/-- The inner loop of `do_redundant_PutI_elimination`: whether a later `PutI` makes
the `PutI` `st` redundant, nothing in between being able to tell. The test for a dirty
call is about `st`, not about `stj`. -/
def isRedundantPutI (tyenv : IRTypeEnv) (st : IRStmt) : List IRStmt → Result Bool
  | [] => .ok false
  | .noOp :: rest => isRedundantPutI tyenv st rest
  | stj :: rest => do
    let identical ← identicalPutIs st stj
    if identical = true then
      return true
    else
      match stj with
      | .exit _ _ _ => return false
      | _ =>
        if st.isDirty = true then
          return false
        else do
          let overlap ← guestAccessWhichMightOverlapPutI tyenv st stj
          if overlap = true then return false else isRedundantPutI tyenv st rest

/-- What `do_redundant_PutI_elimination` does with a statement, given those after it. -/
def redundantPutIStmt (tyenv : IRTypeEnv) (st : IRStmt) (after : List IRStmt) :
    Result (IRStmt × List IRStmt) :=
  match st with
  | .putI _ _ _ _ => do
    let delete ← isRedundantPutI tyenv st after
    return (if delete = true then .noOp else st, st :: after)
  | _ => .ok (st, st :: after)

/-- `do_redundant_PutI_elimination`. -/
def doRedundantPutIElimination (bb : IRSB) : Result IRSB := do
  let (stmts, _) ← Straight.scanBack (redundantPutIStmt bb.tyenv) bb.stmts []
  return { bb with stmts := stmts }

/-! ## Forwarding -/

section GetI

variable {M : Interp} {tyenv : IRTypeEnv} {before rest : List IRStmt} {st : IRStmt} {s : State}
  {descr : IRRegArray} {ix : IRTemp} {bias : Int} {e : IRExpr}

/-- A search that succeeds has gone past a statement that is not the `PutI` it looks for,
or has found it. -/
theorem findPutI_cons (h : findPutI tyenv descr (.rdTmp ix) bias (st :: before) = .ok (some e)) :
    (findPutI tyenv descr (.rdTmp ix) bias before = .ok (some e) ∧
      ∀ s : State, ∀ k < descr.elemTy.bytes,
        (execStmt M tyenv s st).1.world.guest (regOffset descr (s.tmps ix) bias + k) =
          s.world.guest (regOffset descr (s.tmps ix) bias + k)) ∨
    ∃ descr' bias', st = .putI descr' (.rdTmp ix) bias' e ∧
      getAliasingRelationII descr (.rdTmp ix) bias descr' (.rdTmp ix) bias' = .ok .ExactAlias := by
  cases st with
  | put offset data =>
    simp only [findPutI, bind_eq_ok] at h
    obtain ⟨ty, hty, relation, hrel, h⟩ := h
    obtain rfl := typeOfIRExpr_eq_ok hty
    split at h
    · rename_i hno
      subst hno
      have hdisj := getAliasingRelationIC_noAlias hrel
      refine .inl ⟨h, fun s k hk => writeGuest_of_outside ?_⟩
      have := regOffset_bounds descr (s.tmps ix) bias
      omega
    · simp only [bind_eq_ok, pure_eq_ok, reduceCtorEq, and_false, exists_false] at h
  | putI descr' ix' bias' data =>
    simp only [findPutI, bind_eq_ok] at h
    obtain ⟨relation, hrel, h⟩ := h
    cases relation with
    | NoAlias =>
      refine .inl ⟨h, fun s k hk => writeGuest_of_outside ?_⟩
      have hdisj := getAliasingRelationII_noAlias (s.tmps ix) (evalExpr M s.tmps s.world ix') hrel
        fun hatom => by rw [eqIRAtom_rdTmp hatom, evalExpr]
      omega
    | UnknownAlias => simp at h
    | ExactAlias =>
      obtain rfl : data = e := by simpa using h
      rcases getAliasingRelationII_cases hrel with ⟨hno, -⟩ | hunknown | ⟨-, hatom, -⟩
      · cases hno
      · cases hunknown
      · obtain rfl := eqIRAtom_rdTmp hatom
        exact .inr ⟨descr', bias', rfl, hrel⟩
  | dirty d =>
    simp only [findPutI] at h
    split at h
    · simp at h
    · rename_i hfx
      refine .inl ⟨h, fun s k hk => execStmt_guest_eq (fun _ _ he => by cases he)
        (fun _ _ _ _ he => by cases he) fun d' he => ?_⟩
      cases he
      simp [IRDirty.writesByte, List.eq_nil_of_length_eq_zero (Nat.eq_zero_of_not_pos hfx)]
  | _ => exact .inl ⟨h, fun s k hk => rfl⟩

/-- What `findPutI` finds holds the element, and is not assigned again. -/
def PutIsHold (M : Interp) (tyenv : IRTypeEnv) (before rest : List IRStmt) (s : State) : Prop :=
  ∀ descr ix bias e, findPutI tyenv descr (.rdTmp ix) bias before = .ok (some e) →
    e.isIRAtom = true →
      (ix ∉ defsOf rest ∧ ∀ t ∈ e.temps, t ∉ defsOf rest) ∧
        ∀ k < descr.elemTy.bytes, s.world.guest (regOffset descr (s.tmps ix) bias + k) =
          byteOf M.hostEnd descr.elemTy.bytes (evalExpr M s.tmps s.world e) k

theorem putIsHold_nil (M : Interp) (tyenv : IRTypeEnv) (rest : List IRStmt) (s : State) :
    PutIsHold M tyenv [] rest s := fun _ _ _ _ h => nomatch h

/-- One more statement has been executed. -/
theorem PutIsHold.step (h : PutIsHold M tyenv before (st :: rest) s)
    (huses : ∀ t ∈ st.uses, t ∉ defsOf (st :: rest)) :
    PutIsHold M tyenv (st :: before) rest (execStmt M tyenv s st).1 := by
  intro descr ix bias e hfind hatom
  rcases findPutI_cons (M := M) hfind with ⟨hfind', hframe⟩ | ⟨descr', bias', rfl, hexact⟩
  · obtain ⟨⟨hix, he⟩, hbytes⟩ := h descr ix bias e hfind' hatom
    refine ⟨⟨not_mem_defsOf_tail hix, fun t ht => not_mem_defsOf_tail (he t ht)⟩, fun k hk => ?_⟩
    rw [execStmt_tmps_of_ne (ne_def_of_not_mem hix), evalExpr_execStmt hatom he, hframe s k hk]
    exact hbytes k hk
  · have hix : ix ∉ defsOf (.putI descr' (.rdTmp ix) bias' e :: rest) :=
      huses ix (by simp [IRStmt.uses, IRExpr.temps])
    have he : ∀ t ∈ e.temps, t ∉ defsOf (.putI descr' (.rdTmp ix) bias' e :: rest) :=
      fun t ht => huses t (List.mem_append_right _ ht)
    refine ⟨⟨not_mem_defsOf_tail hix, fun t ht => not_mem_defsOf_tail (he t ht)⟩, fun k hk => ?_⟩
    obtain ⟨rfl, hoff⟩ := getAliasingRelationII_exactAlias (s.tmps ix) (s.tmps ix) hexact fun _ => rfl
    rw [execStmt_tmps_of_ne (ne_def_of_not_mem hix), evalExpr_execStmt hatom he, hoff]
    refine (writeGuest_of_inside (Nat.le_add_right _ _) (Nat.add_lt_add_left hk _)).trans ?_
    rw [Nat.add_sub_cancel_left]

/-- Bytes that are those of a value of the type read as that value. -/
theorem readGuest_of_bytes {g : Nat → BitVec 8} {offset : Nat} {ty : IRType} {v : Val}
    (hfit : ty.Fits v) (h : ∀ k < ty.bytes, g (offset + k) = byteOf M.hostEnd ty.bytes v k) :
    readGuest M g offset ty = v := by
  have hread : readGuest M g offset ty = readGuest M (writeGuest M g offset ty.bytes v) offset ty := by
    refine readGuest_congr fun o hlo hhi => ?_
    obtain ⟨k, rfl⟩ := Nat.exists_eq_add_of_le hlo
    rw [writeGuest_of_inside hlo hhi, Nat.add_sub_cancel_left]
    exact h k (by omega)
  exact hread.trans ((readGuest_writeGuest M g offset ty v).trans hfit)

/-- **One step of the pass**: the statement it leaves does what the statement did. -/
theorem redundantGetIStmt_spec {st' : IRStmt} {before' : List IRStmt} (hfit : TmpsFit tyenv s.tmps)
    (h : redundantGetIStmt tyenv before st = .ok (st', before'))
    (hold : PutIsHold M tyenv before rest s) :
    before' = st :: before ∧ execStmt M tyenv s st' = execStmt M tyenv s st := by
  unfold redundantGetIStmt at h
  split at h
  swap
  · cases h
    exact ⟨rfl, rfl⟩
  rename_i tmp descr ix bias
  simp only [bind_eq_ok] at h
  obtain ⟨replacement, hfind, h⟩ := h
  split at h
  swap
  · cases h
    exact ⟨rfl, rfl⟩
  rename_i e
  split at h
  swap
  · cases h
    exact ⟨rfl, rfl⟩
  rename_i hatom
  simp only [bind_eq_ok, pure_eq_ok, Prod.mk.injEq] at h
  obtain ⟨ty, hty, rfl, rfl⟩ := h
  refine ⟨rfl, ?_⟩
  split
  · rename_i heq
    subst heq
    have htc : tcExpr tyenv .I32 e = true := by
      cases e <;> first | rfl | cases hatom
    have hval := readGuest_of_bytes (M := M) (typeOfIRExpr_eq_ok hty ▸ evalExpr_fits (M := M) (w := s.world) hfit htc)
      (hold descr ix bias e hfind hatom).2
    simp only [execStmt, effect, evalExpr, hval]
  · rfl

/-- What `findPutI` finds is the data of one of the statements it is given. -/
theorem findPutI_mem (h : findPutI tyenv descr (.rdTmp ix) bias before = .ok (some e)) :
    ∃ descr' ix' bias', .putI descr' ix' bias' e ∈ before := by
  induction before with
  | nil => exact nomatch h
  | cons st before ih =>
    rcases findPutI_cons (M := default) h with ⟨h', -⟩ | ⟨descr', bias', rfl, -⟩
    · obtain ⟨descr', ix', bias', hm⟩ := ih h'
      exact ⟨descr', ix', bias', List.mem_cons_of_mem _ hm⟩
    · exact ⟨descr', .rdTmp ix, bias', List.mem_cons_self⟩

/-- The statement may be replaced by the one that the pass leaves. -/
theorem redundantGetIStmt_replaces {gWordTy : IRType} {ds : List IRTemp} {st' : IRStmt}
    {before' : List IRStmt} (hst : Replaces tyenv gWordTy ds st st)
    (hbefore : ∀ st ∈ before, ∀ t ∈ st.uses, t ∈ ds)
    (h : redundantGetIStmt tyenv before st = .ok (st', before')) :
    Replaces tyenv gWordTy ds st st' ∧ before' = st :: before := by
  unfold redundantGetIStmt at h
  split at h
  swap
  · cases h
    exact ⟨hst, rfl⟩
  rename_i tmp descr ix bias
  simp only [bind_eq_ok] at h
  obtain ⟨replacement, hfind, h⟩ := h
  split at h
  swap
  · cases h
    exact ⟨hst, rfl⟩
  rename_i e
  split at h
  swap
  · cases h
    exact ⟨hst, rfl⟩
  rename_i hatom
  simp only [bind_eq_ok, pure_eq_ok, Prod.mk.injEq] at h
  obtain ⟨ty, hty, rfl, rfl⟩ := h
  refine ⟨?_, rfl⟩
  split
  swap
  · exact hst
  rename_i heq
  subst heq
  obtain ⟨descr', ix', bias', hm⟩ := findPutI_mem hfind
  have htyped := hst.typed
  simp only [tcStmt, Bool.and_eq_true] at htyped
  refine ⟨?_, ?_, rfl, fun t ht => hbefore _ hm t (List.mem_append_right _ ht)⟩
  · cases e <;> first | rfl | cases hatom
  · have htc : tcExpr tyenv gWordTy e = true := by
      cases e <;> first | rfl | cases hatom
    have htmp : hasType tyenv e (tyenv.getD tmp .I1) = true := by
      have hdata := hasType_eq_true.mp htyped.2
      rw [typeOfIRExpr, Except.ok.injEq] at hdata
      rw [hasType_eq_true, hty, hdata]
    simp only [tcStmt, Bool.and_eq_true]
    exact ⟨⟨htc, htyped.1.2⟩, htmp⟩

/-- `do_redundant_GetI_elimination` keeps a block valid and leaves one that runs in step
with it. -/
theorem doRedundantGetIElimination_spec {bb bb' : IRSB} {gWordTy : IRType} (hbb : bb.Valid gWordTy)
    (h : doRedundantGetIElimination bb = .ok bb') : bb'.Valid gWordTy ∧ Lockstep bb bb' := by
  simp only [doRedundantGetIElimination, bind_eq_ok, pure_eq_ok, Prod.exists] at h
  obtain ⟨stmts, before, hscan, rfl⟩ := h
  constructor
  · refine hbb.of_scan (fun before ds => ∀ st ∈ before, ∀ t ∈ st.uses, t ∈ ds) ?_
      (by simp) hscan
    intro before ds st st' before' hbefore hst h
    obtain ⟨hrep, rfl⟩ := redundantGetIStmt_replaces hst hbefore h
    refine ⟨hrep, List.forall_mem_cons.mpr ⟨fun t ht => ?_, fun st' hst' t ht => ?_⟩⟩
    · exact List.mem_append_right _ (hst.uses t ht)
    · exact List.mem_append_right _ (hbefore st' hst' t ht)
  · refine lockstep_of_scan (fun M before rest s => PutIsHold M bb.tyenv before rest s ∧
        (∃ ds, SSAFrom ds rest bb.next) ∧ (∀ st ∈ rest, tcStmt bb.tyenv gWordTy st = true) ∧
          TmpsFit bb.tyenv s.tmps) (fun M w => ?_) ?_ hscan
    · exact ⟨putIsHold_nil M _ _ _, ⟨[], IRSB.ssaFrom hbb.ssa hbb.defined⟩, hbb.typed.2.1,
        tmpsFit_noTmps _⟩
    · rintro M before st rest s st' before' ⟨hold, ⟨ds, hds⟩, htc, hfit⟩ hst
      obtain ⟨rfl, hexec⟩ := redundantGetIStmt_spec hfit hst hold
      exact ⟨hexec, hold.step fun t ht => hds.use_not_def ht, ⟨_, hds.tail⟩,
        fun st hst => htc st (List.mem_cons_of_mem _ hst), execStmt_fits (htc _ List.mem_cons_self) hfit⟩

end GetI

/-! ## Removal -/

/-- The statement looks at the byte of the guest state; one that leaves the block, or
may, looks at all of it. -/
def IRStmt.ReadsByte (M : Interp) (s : State) (o : Nat) : IRStmt → Prop
  | .wrTmp _ (.get offset ty) => offset ≤ o ∧ o < offset + ty.bytes
  | .wrTmp _ (.getI descr ix bias) =>
    regOffset descr (evalExpr M s.tmps s.world ix) bias ≤ o ∧
      o < regOffset descr (evalExpr M s.tmps s.world ix) bias + descr.elemTy.bytes
  | .dirty d => d.fxState ≠ []
  | .mbe _ => True
  | .abiHint _ _ _ => True
  | .exit _ _ _ => True
  | _ => False

/-- The byte belongs to an element that a `PutI` has written, and the search forwards from
here finds that this `PutI` is redundant. -/
def Pending (M : Interp) (tyenv : IRTypeEnv) (rest : List IRStmt) (s : State) (o : Nat) : Prop :=
  ∃ descr ix bias data, isRedundantPutI tyenv (.putI descr ix bias data) rest = .ok true ∧
    ix.isIRAtom = true ∧ hasType tyenv ix .I32 = true ∧ (∀ t ∈ ix.temps, t ∉ defsOf rest) ∧
      regOffset descr (evalExpr M s.tmps s.world ix) bias ≤ o ∧
        o < regOffset descr (evalExpr M s.tmps s.world ix) bias + descr.elemTy.bytes

section PutI

variable {M : Interp} {tyenv : IRTypeEnv} {gWordTy : IRType} {rest : List IRStmt} {st : IRStmt}
  {s s' : State} {o : Nat}

/-- Integer atoms that `eqIRAtom` takes for equal have the same value. -/
theorem eqIRAtom_eval {ix ix' : IRExpr} {w : World} {ρ : IRTemp → Val}
    (hty : hasType tyenv ix .I32 = true) (h : eqIRAtom ix ix' = .ok true) :
    evalExpr M ρ w ix = evalExpr M ρ w ix' := by
  cases ix with
  | rdTmp t => rw [eqIRAtom_rdTmp h]
  | const c =>
    cases ix' with
    | const c' =>
      simp only [eqIRAtom, bind_eq_ok, pure_eq_ok] at h
      obtain ⟨-, -, -, -, heq⟩ := h
      have hc : typeOfIRConst c = .I32 := by
        rw [← tyIn_const tyenv c]
        exact tyIn_of_hasType hty
      cases c with
      | U32 v =>
        cases c' with
        | U32 v' => rw [eq_of_beq (show (v == v') = true from heq)]
        | _ => cases heq
      | _ => cases hc
    | rdTmp t' =>
      simp only [eqIRAtom, bind_eq_ok, pure_eq_ok, reduceCtorEq, and_false, exists_false] at h
    | _ => simp [eqIRAtom, IRExpr.isIRAtom, assertThat, bind, Except.bind] at h
  | _ => simp [eqIRAtom, IRExpr.isIRAtom, assertThat, bind, Except.bind] at h

/-- A search that succeeds has found the second `PutI`, or goes past a statement that is
no exit and does not overlap. -/
theorem isRedundantPutI_cons {descr : IRRegArray} {ix data : IRExpr} {bias : Int}
    (h : isRedundantPutI tyenv (.putI descr ix bias data) (st :: rest) = .ok true) :
    (∃ descr' ix' bias' data', st = .putI descr' ix' bias' data' ∧
      getAliasingRelationII descr ix bias descr' ix' bias' = .ok .ExactAlias) ∨
    (guestAccessWhichMightOverlapPutI tyenv (.putI descr ix bias data) st = .ok false ∨ st = .noOp) ∧
      isRedundantPutI tyenv (.putI descr ix bias data) rest = .ok true := by
  unfold isRedundantPutI at h
  split at h
  · rename_i heq
    cases heq
  · rename_i heq
    cases heq
    exact .inr ⟨.inr rfl, h⟩
  · rename_i stj rest' hne heq
    cases heq
    simp only [bind_eq_ok] at h
    obtain ⟨identical, hid, h⟩ := h
    split at h
    · rename_i htrue
      subst htrue
      cases st with
      | putI descr' ix' bias' data' =>
        simp only [identicalPutIs, bind_eq_ok, pure_eq_ok, beq_iff_eq] at hid
        obtain ⟨relation, hrel, rfl⟩ := hid
        exact .inl ⟨descr', ix', bias', data', rfl, hrel⟩
      | _ => cases hid
    · split at h
      · cases h
      · simp only [IRStmt.isDirty, Bool.false_eq_true, if_false, bind_eq_ok] at h
        obtain ⟨overlap, hov, h⟩ := h
        split at h
        · cases h
        · rename_i hfalse
          rw [Bool.eq_false_of_not_eq_true hfalse] at hov
          exact .inr ⟨.inl hov, h⟩

/-- What does not overlap a `PutI` does not look at the element it writes. -/
theorem not_readsByte_of_no_overlap {descr : IRRegArray} {ix data : IRExpr} {bias : Int}
    (hty : hasType tyenv ix .I32 = true)
    (h : guestAccessWhichMightOverlapPutI tyenv (.putI descr ix bias data) st = .ok false)
    (hlo : regOffset descr (evalExpr M s.tmps s.world ix) bias ≤ o)
    (hhi : o < regOffset descr (evalExpr M s.tmps s.world ix) bias + descr.elemTy.bytes) :
    ¬ st.ReadsByte M s o := by
  have hbounds := regOffset_bounds descr (evalExpr M s.tmps s.world ix) bias
  simp only [guestAccessWhichMightOverlapPutI, bind_eq_ok] at h
  obtain ⟨bounds, -, h⟩ := h
  intro hread
  cases st with
  | wrTmp tmp e =>
    cases e with
    | get offset ty =>
      simp only [bind_eq_ok, pure_eq_ok, bne_eq_false_iff_eq] at h
      obtain ⟨relation, hrel, rfl⟩ := h
      have hno := getAliasingRelationIC_noAlias hrel
      obtain ⟨h₁, h₂⟩ := hread
      omega
    | getI descr' ix' bias' =>
      simp only [bind_eq_ok, pure_eq_ok, bne_eq_false_iff_eq] at h
      obtain ⟨relation, hrel, rfl⟩ := h
      have hno := getAliasingRelationII_noAlias (evalExpr M s.tmps s.world ix)
        (evalExpr M s.tmps s.world ix') hrel fun hatom => eqIRAtom_eval hty hatom
      obtain ⟨h₁, h₂⟩ := hread
      omega
    | _ => exact hread
  | dirty d =>
    simp only [pure_eq_ok, decide_eq_false_iff_not] at h
    exact hread (List.eq_nil_of_length_eq_zero (Nat.eq_zero_of_not_pos h))
  | exit guard jk dst => cases h
  | mbe event => cases h
  | abiHint base len nia => cases h
  | _ => exact hread

/-- **The invariant of the search**: a byte that is pending before a statement is written
by it, or is not looked at by it and pending after it. -/
theorem Pending.cons (h : Pending M tyenv (st :: rest) s o) :
    (∃ descr ix bias data, st = .putI descr ix bias data ∧
      regOffset descr (evalExpr M s.tmps s.world ix) bias ≤ o ∧
        o < regOffset descr (evalExpr M s.tmps s.world ix) bias + descr.elemTy.bytes) ∨
    ¬ st.ReadsByte M s o ∧ Pending M tyenv rest (execStmt M tyenv s st).1 o := by
  obtain ⟨descr, ix, bias, data, hred, hatom, hty, hstable, hlo, hhi⟩ := h
  rcases isRedundantPutI_cons hred with ⟨descr', ix', bias', data', rfl, hexact⟩ | ⟨hquiet, hrest⟩
  · obtain ⟨rfl, hoff⟩ := getAliasingRelationII_exactAlias (evalExpr M s.tmps s.world ix)
      (evalExpr M s.tmps s.world ix') hexact fun hatom => eqIRAtom_eval hty hatom
    rw [hoff] at hlo hhi
    exact .inl ⟨descr, ix', bias', data', rfl, hlo, hhi⟩
  · refine .inr ⟨?_, descr, ix, bias, data, hrest, hatom, hty,
      fun t ht => not_mem_defsOf_tail (hstable t ht), ?_⟩
    · rcases hquiet with hno | rfl
      · exact not_readsByte_of_no_overlap hty hno hlo hhi
      · exact id
    · rw [evalExpr_execStmt hatom hstable]
      exact ⟨hlo, hhi⟩

/-- Nothing is pending at the end of a block. -/
theorem not_pending_nil : ¬ Pending M tyenv [] s o := fun ⟨_, _, _, _, h, _⟩ => nomatch h

/-- The states agree but for the bytes that are pending. -/
def EqButPending (M : Interp) (tyenv : IRTypeEnv) (next : IRExpr) (rest : List IRStmt)
    (s s' : State) : Prop :=
  EqOn (fun o => ¬ Pending M tyenv rest s o) s s' ∧ ∃ ds, SSAFrom ds rest next

/-- What a statement that is kept looks at is the same on both sides. -/
theorem EqOn.of_reads {fresh : Nat → Prop} (h : EqOn fresh s s') (hflat : isFlatIRStmt st = true)
    (hreads : ∀ o, st.ReadsByte M s o → fresh o) :
    EqOn fresh (execStmt M tyenv s st).1 (execStmt M tyenv s' st).1 ∧
      (execStmt M tyenv s st).2 = (execStmt M tyenv s' st).2 := by
  cases st with
  | wrTmp tmp data =>
    cases data with
    | get offset ty =>
      simp only [execStmt, effect, evalExpr, h.readGuest (M := M) fun o h₁ h₂ => hreads o ⟨h₁, h₂⟩]
      exact ⟨h.assign _, trivial⟩
    | getI descr ix bias =>
      have hix := h.eval_atom (M := M) (show ix.isIRAtom = true from hflat)
      have hval := h.readGuest (M := M) fun o h₁ h₂ => hreads o ⟨h₁, h₂⟩
      simp only [execStmt, effect, evalExpr, ← hix, hval]
      exact ⟨h.assign _, trivial⟩
    | _ => exact h.exec M tyenv hflat (by simp) (by simp) (by simp)
  | dirty d =>
    by_cases hfx : d.fxState = []
    · exact h.exec_dirty M tyenv hflat fun o ho => by simp [IRDirty.readsByte, hfx] at ho
    · rw [h.eq fun o => hreads o hfx]
      exact ⟨.refl _ _, rfl⟩
  | _ => exact h.exec M tyenv hflat (by simp) (by simp) (by simp)

/-- What is written by a kept statement or was not pending before a statement that is
kept is fresh after it. -/
theorem EqButPending.keep {next : IRExpr} (h : EqButPending M tyenv next (st :: rest) s s')
    (hflat : isFlatIRStmt st = true) :
    Straight.Agree (EqButPending M tyenv next rest) Eq (execStmt M tyenv s st)
      (execStmt M tyenv s' st) := by
  obtain ⟨heq, ds, hds⟩ := h
  have hreads : ∀ o, st.ReadsByte M s o → ¬ Pending M tyenv (st :: rest) s o := by
    intro o hread hpend
    rcases hpend.cons with ⟨descr, ix, bias, data, rfl, -⟩ | ⟨hnot, -⟩
    · exact hread
    · exact hnot hread
  obtain ⟨hexec, hexit⟩ := heq.of_reads hflat hreads
  refine ⟨hexit, fun _ => ⟨?_, _, hds.tail⟩, fun hne => ?_⟩
  · have hfresh : ∀ o, ¬ Pending M tyenv rest (execStmt M tyenv s st).1 o →
        (∃ descr ix bias data, st = .putI descr ix bias data ∧
          regOffset descr (evalExpr M s.tmps s.world ix) bias ≤ o ∧
            o < regOffset descr (evalExpr M s.tmps s.world ix) bias + descr.elemTy.bytes) ∨
        ¬ Pending M tyenv (st :: rest) s o := by
      intro o ho
      by_cases hpend : Pending M tyenv (st :: rest) s o
      · exact .inl (hpend.cons.resolve_right fun hr => ho hr.2)
      · exact .inr hpend
    by_cases hputI : ∃ descr ix bias data, st = .putI descr ix bias data
    · obtain ⟨descr, ix, bias, data, rfl⟩ := hputI
      obtain ⟨hix, hdata⟩ := Bool.and_eq_true_iff.mp hflat
      have hw := heq.write (M := M) (regOffset descr (evalExpr M s.tmps s.world ix) bias)
        descr.elemTy.bytes (evalExpr M s.tmps s.world data) (fun o ho => by
          rcases hfresh o ho with ⟨_, _, _, _, he, hr⟩ | hpend
          · cases he
            exact .inl hr
          · exact .inr hpend)
      simpa only [execStmt, effect, assign_none, heq.eval_atom (M := M) hix,
        heq.eval_atom (M := M) hdata] using hw
    · refine hexec.mono fun o ho => (hfresh o ho).resolve_left ?_
      rintro ⟨descr, ix, bias, data, he, -⟩
      exact hputI ⟨descr, ix, bias, data, he⟩
  · -- only an exit leaves the block, and nothing is pending before one
    have hall : ∀ o, ¬ Pending M tyenv (st :: rest) s o := by
      intro o
      cases st with
      | exit guard jk dst => exact hreads o trivial
      | dirty d =>
        refine absurd ?_ hne
        simp only [execStmt, effect]
        split <;> rfl
      | _ => exact absurd rfl hne
    rw [heq.eq hall]

/-- A `PutI` that is deleted leaves its element pending. -/
theorem EqButPending.delete {next : IRExpr} {descr : IRRegArray} {ix data : IRExpr} {bias : Int}
    (h : EqButPending M tyenv next (.putI descr ix bias data :: rest) s s')
    (hatom : ix.isIRAtom = true) (hty : hasType tyenv ix .I32 = true)
    (hred : isRedundantPutI tyenv (.putI descr ix bias data) rest = .ok true) :
    Straight.Agree (EqButPending M tyenv next rest) Eq
      (execStmt M tyenv s (.putI descr ix bias data)) (execStmt M tyenv s' .noOp) := by
  obtain ⟨heq, ds, hds⟩ := h
  refine .next ⟨⟨heq.tmps, heq.mem, heq.calls, fun o ho => ?_⟩, _, hds.tail⟩
  have hstable : ∀ t ∈ ix.temps, t ∉ defsOf (.putI descr ix bias data :: rest) :=
    fun t ht => hds.use_not_def (List.mem_append_left _ ht)
  have hix : evalExpr M (execStmt M tyenv s (.putI descr ix bias data)).1.tmps
      (execStmt M tyenv s (.putI descr ix bias data)).1.world ix = evalExpr M s.tmps s.world ix :=
    evalExpr_execStmt hatom hstable
  by_cases hin : regOffset descr (evalExpr M s.tmps s.world ix) bias ≤ o ∧
      o < regOffset descr (evalExpr M s.tmps s.world ix) bias + descr.elemTy.bytes
  · have hpend : Pending M tyenv rest (execStmt M tyenv s (.putI descr ix bias data)).1 o := by
      refine ⟨descr, ix, bias, data, hred, hatom, hty,
        fun t ht => not_mem_defsOf_tail (hstable t ht), ?_⟩
      rw [hix]
      exact hin
    exact absurd hpend ho
  · refine (writeGuest_of_outside (by omega)).trans (heq.guest o fun hpend => ?_)
    rcases hpend.cons with ⟨descr', ix', bias', data', he, hr⟩ | ⟨-, hrest⟩
    · cases he
      exact hin hr
    · exact ho hrest

/-- **One step of the pass.** -/
theorem redundantPutIStmt_spec {next : IRExpr} {st' : IRStmt} {after : List IRStmt}
    (hflat : isFlatIRStmt st = true) (htc : tcStmt tyenv gWordTy st = true)
    (h : redundantPutIStmt tyenv st rest = .ok (st', after))
    (hR : EqButPending M tyenv next after s s') :
    Straight.Agree (EqButPending M tyenv next rest) Eq (execStmt M tyenv s st)
      (execStmt M tyenv s' st') := by
  unfold redundantPutIStmt at h
  split at h
  · rename_i descr ix bias data
    simp only [bind_eq_ok, pure_eq_ok, Prod.mk.injEq] at h
    obtain ⟨delete, hdel, rfl, rfl⟩ := h
    split
    · rename_i htrue
      subst htrue
      simp only [tcStmt, Bool.and_eq_true] at htc
      exact hR.delete (Bool.and_eq_true_iff.mp hflat).1 htc.2 hdel
    · exact hR.keep hflat
  · cases h
    exact hR.keep hflat

end PutI

/-! ## Both passes -/

/-- Where two blocks are after a number of statements: they have left at the same exit or
not, with the same temporaries, memory and dirty calls; the guest state is the same
where the block is left, at a dirty call that declares effects on the guest state, and
at the end; and an assignment in the second block reads what it reads in the first. -/
structure InStep (M : Interp) (bb bb' : IRSB) (n : Nat) (r r' : State × Option Target) : Prop where
  exit : r.2 = r'.2
  tmps : r.1.tmps = r'.1.tmps
  mem : r.1.world.mem = r'.1.world.mem
  calls : r.1.world.calls = r'.1.world.calls
  atExit : r.2 ≠ none → r.1.world.guest = r'.1.world.guest
  atDirty : ∀ d, bb.stmts[n]? = some (.dirty d) → d.fxState ≠ [] → r.1.world.guest = r'.1.world.guest
  atEnd : bb.stmts.length ≤ n → r.1.world.guest = r'.1.world.guest
  reads : r.2 = none → ∀ t data, bb'.stmts[n]? = some (.wrTmp t data) →
    evalExpr M r.1.tmps r.1.world data = evalExpr M r'.1.tmps r'.1.world data

/-- The blocks are in step after every number of statements. -/
def GuestInStep (bb bb' : IRSB) : Prop := ∀ M w n,
  InStep M bb bb' n (runStmts M bb.tyenv ⟨noTmps, w⟩ (bb.stmts.take n))
    (runStmts M bb'.tyenv ⟨noTmps, w⟩ (bb'.stmts.take n))

/-- The pass carries the statements after the one it stands at. -/
theorem scanBack_redundantPutI {tyenv : IRTypeEnv} {is js after : List IRStmt}
    (h : Straight.scanBack (redundantPutIStmt tyenv) is [] = .ok (js, after)) : after = is := by
  induction is generalizing js after with
  | nil =>
    obtain ⟨-, rfl⟩ : [] = js ∧ [] = after := by simpa [Straight.scanBack] using h
    rfl
  | cons st is ih =>
    obtain ⟨js, after', st', hjs, hst, rfl⟩ := Straight.scanBack_cons.mp h
    obtain rfl := ih hjs
    unfold redundantPutIStmt at hst
    split at hst
    · simp only [bind_eq_ok, pure_eq_ok, Prod.mk.injEq] at hst
      obtain ⟨-, -, -, rfl⟩ := hst
      rfl
    · cases hst
      rfl

/-- An assignment that the pass leaves has been there before. -/
theorem redundantPutIStmt_wrTmp {tyenv : IRTypeEnv} {st : IRStmt} {after after' : List IRStmt}
    {t : IRTemp} {data : IRExpr} (h : redundantPutIStmt tyenv st after = .ok (.wrTmp t data, after')) :
    st = .wrTmp t data := by
  unfold redundantPutIStmt at h
  split at h
  · simp only [bind_eq_ok, pure_eq_ok, Prod.mk.injEq] at h
    obtain ⟨delete, -, hst, -⟩ := h
    split at hst
    · cases hst
    · cases hst
  · cases h
    rfl

/-- `do_redundant_PutI_elimination` leaves a block that is in step with the block before. -/
theorem doRedundantPutIElimination_spec {bb bb' : IRSB} {gWordTy : IRType} (hbb : bb.Valid gWordTy)
    (h : doRedundantPutIElimination bb = .ok bb') : GuestInStep bb bb' := by
  simp only [doRedundantPutIElimination, bind_eq_ok, pure_eq_ok, Prod.exists] at h
  obtain ⟨stmts, after, hscan, rfl⟩ := h
  have hflat := List.all_eq_true.mp (Bool.and_eq_true_iff.mp hbb.flat).1
  intro M w n
  obtain ⟨after₁, hdrop, htake⟩ := Straight.scanBack_split hscan n
  obtain rfl := scanBack_redundantPutI hdrop
  obtain rfl := scanBack_redundantPutI hscan
  obtain ⟨-, hsim⟩ := Straight.scanBack_sim (fun _ => True) (EqButPending M bb.tyenv bb.next) Eq
    (fun _ _ _ => trivial)
    (fun hm _ hR hst => redundantPutIStmt_spec (hflat _ (List.mem_of_mem_take hm))
      (hbb.typed.2.1 _ (List.mem_of_mem_take hm)) hst hR) htake trivial
  have hagree := hsim ⟨noTmps, w⟩ ⟨noTmps, w⟩ ⟨.refl _ _, [], IRSB.ssaFrom hbb.ssa hbb.defined⟩
  change Straight.Agree _ _ (runStmts M bb.tyenv _ _) (runStmts M bb.tyenv _ _) at hagree
  obtain ⟨hexit, hnext, hleft⟩ := hagree
  generalize runStmts M bb.tyenv ⟨noTmps, w⟩ (bb.stmts.take n) = r at hexit hnext hleft
  generalize runStmts M bb.tyenv ⟨noTmps, w⟩ (stmts.take n) = r' at hexit hnext hleft
  by_cases hnone : r.2 = none
  · obtain ⟨heq, ds, hds⟩ := hnext hnone
    refine ⟨hexit, heq.tmps, heq.mem, heq.calls, fun hne => absurd hnone hne, ?_, ?_, ?_⟩
    · intro d hd hfx
      rw [Straight.drop_of_getElem? hd] at heq
      rw [heq.eq fun o hpend => ?_]
      rcases hpend.cons with ⟨_, _, _, _, he, -⟩ | ⟨hnot, -⟩
      · cases he
      · exact hnot hfx
    · intro hend
      rw [List.drop_of_length_le hend] at heq
      rw [heq.eq fun o => not_pending_nil]
    · intro _ t data ht
      rw [Straight.drop_of_getElem? ht] at hdrop
      cases hrest : bb.stmts.drop n with
      | nil =>
        rw [hrest] at hdrop
        cases hdrop
      | cons st rest =>
        rw [hrest] at hdrop heq hds
        obtain ⟨js, after, st', -, hst, hcons⟩ := Straight.scanBack_cons.mp hdrop
        obtain ⟨rfl, rfl⟩ := List.cons.inj hcons
        obtain rfl := redundantPutIStmt_wrTmp hst
        have hmem : IRStmt.wrTmp t data ∈ bb.stmts :=
          List.mem_of_mem_drop (hrest ▸ List.mem_cons_self)
        have hkeep := EqButPending.keep ⟨heq, ds, hds⟩ (hflat _ hmem)
        have htmp := congrFun (hkeep.2.1 rfl).1.tmps t
        simpa only [execStmt, effect, assign_self] using htmp
  · have hsame : r.1 = r'.1 := hleft hnone
    exact ⟨hexit, by rw [hsame], by rw [hsame], by rw [hsame], fun _ => by rw [hsame],
      fun _ _ _ => by rw [hsame], fun _ => by rw [hsame], fun h => absurd h hnone⟩

section Returns

variable {tyenv : IRTypeEnv} {gWordTy : IRType} {st : IRStmt}

/-- A flat, well-typed statement whose accesses to the guest state fit. -/
def StmtFits (tyenv : IRTypeEnv) (gWordTy : IRType) (st : IRStmt) : Prop :=
  isFlatIRStmt st = true ∧ tcStmt tyenv gWordTy st = true ∧ AccessFits tyenv st

theorem findPutI_returns {descr : IRRegArray} {ix : IRExpr} {bias : Int} {before : List IRStmt} {sz : Nat}
    (hatom : ix.isIRAtom = true) (hsz : sizeofIRType descr.elemTy = .ok sz)
    (hbias : -10 * (descr.nElems : Int) ≤ bias) (h : ∀ st ∈ before, StmtFits tyenv gWordTy st) :
    ∃ e, findPutI tyenv descr ix bias before = .ok e := by
  induction before with
  | nil => exact ⟨none, rfl⟩
  | cons st before ih =>
    obtain ⟨⟨hflat, htc, hfit⟩, hrest⟩ := List.forall_mem_cons.mp h
    obtain ⟨e, he⟩ := ih hrest
    cases st with
    | put offset data =>
      obtain ⟨sz', hsz'⟩ := hfit
      obtain ⟨relation, hrel⟩ := getAliasingRelationIC_returns ix offset hsz hsz'
      simp only [tcStmt, Bool.and_eq_true] at htc
      have hexact : relation ≠ .ExactAlias := by
        rintro rfl
        simp only [getAliasingRelationIC, bind_eq_ok, pure_eq_ok, Prod.exists] at hrel
        obtain ⟨_, _, -, _, -, hrel⟩ := hrel
        split at hrel <;> cases hrel
      simp only [findPutI, hasOtherType_returns htc.2, ok_bind, hrel]
      split
      · exact ⟨e, he⟩
      · rw [assertThat_of hexact]
        exact ⟨none, rfl⟩
    | putI descr' ix' bias' data =>
      obtain ⟨⟨sz', hsz'⟩, hbias'⟩ := hfit
      obtain ⟨relation, hrel⟩ := getAliasingRelationII_returns hsz hsz' hatom
        (Bool.and_eq_true_iff.mp hflat).1 hbias hbias'
      simp only [findPutI, hrel, ok_bind]
      cases relation with
      | NoAlias => exact ⟨e, he⟩
      | UnknownAlias => exact ⟨none, rfl⟩
      | ExactAlias => exact ⟨some data, rfl⟩
    | dirty d =>
      rw [findPutI]
      split
      · exact ⟨none, rfl⟩
      · exact ⟨e, he⟩
    | _ => exact ⟨e, he⟩

/-- `findPutI` finds data with a type. -/
theorem findPutI_typed {descr : IRRegArray} {ix : IRTemp} {bias : Int} {before : List IRStmt}
    {e : IRExpr} (h : findPutI tyenv descr (.rdTmp ix) bias before = .ok (some e))
    (hbefore : ∀ st ∈ before, StmtFits tyenv gWordTy st) :
    typeOfIRExpr tyenv e = .ok (e.tyIn tyenv) := by
  obtain ⟨descr', ix', bias', hm⟩ := findPutI_mem h
  obtain ⟨-, htc, -⟩ := hbefore _ hm
  simp only [tcStmt, Bool.and_eq_true] at htc
  exact hasOtherType_returns htc.1.1.2

theorem redundantGetIStmt_returns {before : List IRStmt} (hst : StmtFits tyenv gWordTy st)
    (hbefore : ∀ st ∈ before, StmtFits tyenv gWordTy st) :
    ∃ st', redundantGetIStmt tyenv before st = .ok (st', st :: before) ∧
      (st' = st ∨ ∃ tmp e, st' = .wrTmp tmp e ∧ e.isIRAtom = true) := by
  unfold redundantGetIStmt
  split
  swap
  · exact ⟨st, rfl, .inl rfl⟩
  rename_i tmp descr ix bias
  obtain ⟨-, -, ⟨sz, hsz⟩, hbias⟩ := hst
  obtain ⟨replacement, hfind⟩ := findPutI_returns (show (IRExpr.rdTmp ix).isIRAtom = true from rfl)
    hsz hbias hbefore
  rw [hfind, ok_bind]
  split
  swap
  · exact ⟨_, rfl, .inl rfl⟩
  rename_i e
  split
  swap
  · exact ⟨_, rfl, .inl rfl⟩
  rename_i hatom
  rw [findPutI_typed hfind hbefore, ok_bind]
  split
  · exact ⟨_, rfl, .inr ⟨tmp, e, rfl, hatom⟩⟩
  · exact ⟨_, rfl, .inl rfl⟩

/-- On a valid block whose accesses to the guest state fit the first pass returns, and
the accesses still fit. -/
theorem doRedundantGetIElimination_returns {bb : IRSB} (hbb : bb.Valid gWordTy)
    (hfit : ∀ st ∈ bb.stmts, AccessFits bb.tyenv st) :
    ∃ bb', doRedundantGetIElimination bb = .ok bb' ∧ ∀ st ∈ bb'.stmts, AccessFits bb'.tyenv st := by
  have hstmt : ∀ st ∈ bb.stmts, StmtFits bb.tyenv gWordTy st := fun st hst =>
    ⟨List.all_eq_true.mp (Bool.and_eq_true_iff.mp hbb.flat).1 st hst, hbb.typed.2.1 st hst, hfit st hst⟩
  obtain ⟨stmts, before, hscan⟩ := Straight.scan_returns (f := redundantGetIStmt bb.tyenv)
    (P := fun before => ∀ st ∈ before, StmtFits bb.tyenv gWordTy st)
    (fun before st hst hbefore => by
      obtain ⟨st', h, -⟩ := redundantGetIStmt_returns (hstmt st hst) hbefore
      exact ⟨st', _, h, List.forall_mem_cons.mpr ⟨hstmt st hst, hbefore⟩⟩)
    (show ∀ st ∈ ([] : List IRStmt), StmtFits bb.tyenv gWordTy st by simp)
  refine ⟨{ bb with stmts := stmts }, ?_, Straight.scan_forall (fun before st st' before' hst h => ?_)
    hscan⟩
  · rw [doRedundantGetIElimination, hscan]
    rfl
  · have hold := hfit st hst
    unfold redundantGetIStmt at h
    split at h
    swap
    · cases h
      exact hold
    simp only [bind_eq_ok] at h
    obtain ⟨replacement, -, h⟩ := h
    split at h
    swap
    · cases h
      exact hold
    rename_i e
    split at h
    swap
    · cases h
      exact hold
    rename_i hatom
    simp only [bind_eq_ok, pure_eq_ok, Prod.mk.injEq] at h
    obtain ⟨ty, -, rfl, -⟩ := h
    split
    · cases e <;> trivial
    · exact hold

theorem guestAccess_returns {descr : IRRegArray} {ix : IRExpr} (data : IRExpr) {bias : Int} {sz : Nat}
    (hatom : ix.isIRAtom = true) (hsz : sizeofIRType descr.elemTy = .ok sz)
    (hbias : -10 * (descr.nElems : Int) ≤ bias) (hst : StmtFits tyenv gWordTy st)
    (hexit : ∀ guard jk dst, st ≠ .exit guard jk dst) :
    ∃ overlap, guestAccessWhichMightOverlapPutI tyenv (.putI descr ix bias data) st = .ok overlap := by
  obtain ⟨hflat, htc, hfit⟩ := hst
  obtain ⟨lo, hi, hbounds⟩ := getArrayBounds_returns hsz
  simp only [guestAccessWhichMightOverlapPutI, hbounds, ok_bind]
  cases st with
  | put offset data' =>
    obtain ⟨sz', hsz'⟩ := hfit
    obtain ⟨relation, hrel⟩ := getAliasingRelationIC_returns ix offset hsz hsz'
    simp only [tcStmt, Bool.and_eq_true] at htc
    simp only [assertThat_of (show data'.isIRAtom = true from hflat), hasOtherType_returns htc.2, hrel,
      ok_bind]
    exact ⟨_, rfl⟩
  | putI descr' ix' bias' data' =>
    obtain ⟨hix', hdata'⟩ := Bool.and_eq_true_iff.mp hflat
    obtain ⟨⟨sz', hsz'⟩, hbias'⟩ := hfit
    obtain ⟨relation, hrel⟩ := getAliasingRelationII_returns hsz hsz' hatom hix' hbias hbias'
    simp only [assertThat_of hix', assertThat_of hdata', hrel, ok_bind]
    exact ⟨_, rfl⟩
  | wrTmp tmp e =>
    cases e with
    | get offset ty =>
      obtain ⟨sz', hsz'⟩ := hfit
      obtain ⟨relation, hrel⟩ := getAliasingRelationIC_returns ix offset hsz hsz'
      simp only [hrel, ok_bind]
      exact ⟨_, rfl⟩
    | getI descr' ix' bias' =>
      obtain ⟨⟨sz', hsz'⟩, hbias'⟩ := hfit
      obtain ⟨relation, hrel⟩ := getAliasingRelationII_returns hsz hsz' hatom
        (show ix'.isIRAtom = true from hflat) hbias hbias'
      simp only [hrel, ok_bind]
      exact ⟨_, rfl⟩
    | _ => exact ⟨_, rfl⟩
  | store en addr data' =>
    obtain ⟨haddr, hdata'⟩ := Bool.and_eq_true_iff.mp hflat
    simp only [assertThat_of haddr, assertThat_of hdata', ok_bind]
    exact ⟨_, rfl⟩
  | exit guard jk dst => exact absurd rfl (hexit guard jk dst)
  | _ => exact ⟨_, rfl⟩

theorem identicalPutIs_returns {descr : IRRegArray} {ix : IRExpr} (data : IRExpr) {bias : Int} {sz : Nat}
    (hatom : ix.isIRAtom = true) (hsz : sizeofIRType descr.elemTy = .ok sz)
    (hbias : -10 * (descr.nElems : Int) ≤ bias) (hst : StmtFits tyenv gWordTy st) :
    ∃ identical, identicalPutIs (.putI descr ix bias data) st = .ok identical := by
  cases st with
  | putI descr' ix' bias' data' =>
    obtain ⟨hflat, -, ⟨sz', hsz'⟩, hbias'⟩ := hst
    obtain ⟨relation, hrel⟩ := getAliasingRelationII_returns hsz hsz' hatom
      (Bool.and_eq_true_iff.mp hflat).1 hbias hbias'
    rw [identicalPutIs, hrel]
    exact ⟨_, rfl⟩
  | _ => exact ⟨false, rfl⟩

theorem isRedundantPutI_returns {descr : IRRegArray} {ix : IRExpr} (data : IRExpr) {bias : Int}
    {sz : Nat} {rest : List IRStmt} (hatom : ix.isIRAtom = true) (hsz : sizeofIRType descr.elemTy = .ok sz)
    (hbias : -10 * (descr.nElems : Int) ≤ bias) (hrest : ∀ st ∈ rest, StmtFits tyenv gWordTy st) :
    ∃ delete, isRedundantPutI tyenv (.putI descr ix bias data) rest = .ok delete := by
  induction rest with
  | nil => exact ⟨false, rfl⟩
  | cons stj rest ih =>
    obtain ⟨hstj, hrest⟩ := List.forall_mem_cons.mp hrest
    obtain ⟨delete, hdel⟩ := ih hrest
    obtain ⟨identical, hid⟩ := identicalPutIs_returns data hatom hsz hbias hstj
    unfold isRedundantPutI
    split
    · rename_i heq
      exact nomatch heq
    · rename_i heq
      cases heq
      exact ⟨delete, hdel⟩
    · rename_i heq
      cases heq
      rw [hid, ok_bind]
      split
      · exact ⟨true, rfl⟩
      · split
        · exact ⟨false, rfl⟩
        · rename_i hexit
          obtain ⟨overlap, hov⟩ := guestAccess_returns data hatom hsz hbias hstj hexit
          simp only [IRStmt.isDirty, Bool.false_eq_true, if_false, hov, ok_bind]
          split
          · exact ⟨false, rfl⟩
          · exact ⟨delete, hdel⟩

theorem doRedundantPutIElimination_returns {bb : IRSB} (hbb : bb.Valid gWordTy)
    (hfit : ∀ st ∈ bb.stmts, AccessFits bb.tyenv st) :
    ∃ bb', doRedundantPutIElimination bb = .ok bb' := by
  have hstmt : ∀ st ∈ bb.stmts, StmtFits bb.tyenv gWordTy st := fun st hst =>
    ⟨List.all_eq_true.mp (Bool.and_eq_true_iff.mp hbb.flat).1 st hst, hbb.typed.2.1 st hst, hfit st hst⟩
  obtain ⟨stmts, after, hscan, -⟩ := Straight.scanBack_returns (f := redundantPutIStmt bb.tyenv)
    (P := fun after => ∀ st ∈ after, StmtFits bb.tyenv gWordTy st)
    (fun after st hst hafter => by
      have hcons := List.forall_mem_cons.mpr ⟨hstmt st hst, hafter⟩
      unfold redundantPutIStmt
      split
      · obtain ⟨hflat, -, ⟨sz, hsz⟩, hbias⟩ := hstmt _ hst
        obtain ⟨delete, hdel⟩ := isRedundantPutI_returns _
          (Bool.and_eq_true_iff.mp hflat).1 hsz hbias hafter
        rw [hdel, ok_bind]
        exact ⟨_, _, rfl, hcons⟩
      · exact ⟨_, _, rfl, hcons⟩)
    (show ∀ st ∈ ([] : List IRStmt), StmtFits bb.tyenv gWordTy st by simp)
  refine ⟨{ bb with stmts := stmts }, ?_⟩
  rw [doRedundantPutIElimination, hscan]
  rfl

end Returns

/-- `do_redundant_GetI_elimination` leaves the statements that are no assignments alone. -/
theorem doRedundantGetIElimination_dirty {bb bb' : IRSB} (h : doRedundantGetIElimination bb = .ok bb')
    {n : Nat} {d : IRDirty} (hd : bb.stmts[n]? = some (.dirty d)) :
    bb'.stmts[n]? = some (.dirty d) := by
  simp only [doRedundantGetIElimination, bind_eq_ok, pure_eq_ok, Prod.exists] at h
  obtain ⟨stmts, before, hscan, rfl⟩ := h
  obtain ⟨before₁, st', before₂, hst, hget⟩ := Straight.scan_getElem? hscan hd
  cases hst
  exact hget

/-- Blocks that are in step and end in the same jump mean the same. -/
theorem GuestInStep.sameMeaning {bb bb' : IRSB} (h : GuestInStep bb bb') (hnext : bb.next = bb'.next)
    (hjk : bb.jumpkind = bb'.jumpkind) : SameMeaning bb bb' := by
  intro M w
  have hall := h M w (max bb.stmts.length bb'.stmts.length)
  rw [List.take_of_length_le (Nat.le_max_left _ _), List.take_of_length_le (Nat.le_max_right _ _)]
    at hall
  have hguest := hall.atEnd (Nat.le_max_left _ _)
  obtain ⟨hexit, htmps, hmem, hcalls, -, -, -, -⟩ := hall
  unfold runBB
  have hstate : runStmts M bb.tyenv ⟨noTmps, w⟩ bb.stmts =
      runStmts M bb'.tyenv ⟨noTmps, w⟩ bb'.stmts :=
    Prod.ext ((EqOn.mk htmps hmem hcalls fun o (_ : True) => congrFun hguest o).eq fun _ => trivial) hexit
  rw [hstate, hnext, hjk]

/-- What the aliasing relations say is so, whatever the value of the index: accesses that
do not alias are disjoint, accesses that alias exactly are to the same bytes. -/
structure AliasingSound (tyenv : IRTypeEnv) : Prop where
  noAliasIC : ∀ {descr ix offset ty}, getAliasingRelationIC descr ix offset ty = .ok .NoAlias →
    ∀ v bias, regOffset descr v bias + descr.elemTy.bytes ≤ offset ∨
      offset + ty.bytes ≤ regOffset descr v bias
  noAliasII : ∀ {descr ix bias descr' ix' bias'}, hasType tyenv ix .I32 = true →
    getAliasingRelationII descr ix bias descr' ix' bias' = .ok .NoAlias → ∀ M ρ w,
      regOffset descr (evalExpr M ρ w ix) bias + descr.elemTy.bytes ≤
          regOffset descr' (evalExpr M ρ w ix') bias' ∨
        regOffset descr' (evalExpr M ρ w ix') bias' + descr'.elemTy.bytes ≤
          regOffset descr (evalExpr M ρ w ix) bias
  exactAliasII : ∀ {descr ix bias descr' ix' bias'}, hasType tyenv ix .I32 = true →
    getAliasingRelationII descr ix bias descr' ix' bias' = .ok .ExactAlias → ∀ M ρ w,
      descr = descr' ∧
        regOffset descr (evalExpr M ρ w ix) bias = regOffset descr' (evalExpr M ρ w ix') bias'

theorem aliasingSound (tyenv : IRTypeEnv) : AliasingSound tyenv where
  noAliasIC {descr ix offset ty} h v bias := by
    have hno := getAliasingRelationIC_noAlias h
    have hbounds := regOffset_bounds descr v bias
    omega
  noAliasII hty h M ρ w := getAliasingRelationII_noAlias _ _ h fun hatom => eqIRAtom_eval hty hatom
  exactAliasII hty h M ρ w :=
    getAliasingRelationII_exactAlias _ _ h fun hatom => eqIRAtom_eval hty hatom

/-- Eight words at `64 .. 95`. -/
def eightWords : IRRegArray where
  base := 64
  elemTy := .I32
  nElems := 8
  base_le := by decide
  elemTy_ne := by decide
  nElems_pos := by decide
  nElems_le := by decide

/-- `t0 = GET:I32(0); PUTI[t0,0] = 5; t1 = GETI[t0,8]; PUTI[t0,-8] = t1`: the same element
three times. -/
def sameElementBB : IRSB :=
  blockOf [.I32, .I32] [.wrTmp 0 (.get 0 .I32),
    .putI eightWords (.rdTmp 0) 0 (.const (.U32 5)), .wrTmp 1 (.getI eightWords (.rdTmp 0) 8),
    .putI eightWords (.rdTmp 0) (-8) (.rdTmp 1)]

end Valgrind.Vex
