import Valgrind.Vex.GuestState

/-!
# Removal of redundant GETs

`redundant_get_removal_BB` walks forwards over a flat block and remembers, for
pieces of the guest state, an atom that holds their contents: the temporary that a
`Get` has read, or the data that a `Put` has written. A later `Get` of the same
piece is replaced by the atom.
-/

namespace Valgrind.Vex

/-- What `redundant_get_removal_BB` does with a statement. -/
def redundantGetStmt (tyenv : IRTypeEnv) (env : HashHW IRExpr) (st : IRStmt) :
    Result (IRStmt × HashHW IRExpr) :=
  match st with
  | .wrTmp tmp (.get offset ty) => do
    let key ← mkKeyGetPut offset ty
    match lookupHHW env key with
    | some valE => do
      let valTy ← typeOfIRExpr tyenv valE
      return (if valTy = ty then .wrTmp tmp valE else st, env)
    | none => return (st, addToHHW env key (.rdTmp tmp))
  | .put offset data => do
    let ty ← typeOfIRExpr tyenv data
    let key ← mkKeyGetPut offset ty
    let env ← invalidateOverlaps env (keyLo key) (keyHi key)
    assertThat (data.isIRAtom = true)
    return (st, addToHHW env key data)
  | .putI descr _ _ _ => do
    let key ← mkKeyGetIPutI descr
    let env ← invalidateOverlaps env (keyLo key) (keyHi key)
    return (st, env)
  | .dirty d =>
    -- a helper that changes the guest state: the whole environment goes
    if d.fxState.any fun f => f.fx == .Modify || f.fx == .Write then .ok (st, []) else .ok (st, env)
  | _ => .ok (st, env)

/-- `redundant_get_removal_BB`. -/
def redundantGetRemovalBB (bb : IRSB) : Result IRSB := do
  let (stmts, _) ← Straight.scan (redundantGetStmt bb.tyenv) newHHW bb.stmts
  return { bb with stmts := stmts }

/-- The piece of the guest state with the key holds the value of the atom. -/
def Holds (M : Interp) (s : State) (key : Nat) (e : IRExpr) : Prop :=
  ∀ o, keyLo key ≤ o → o ≤ keyHi key → s.world.guest o =
    byteOf M.hostEnd (keyHi key + 1 - keyLo key) (evalExpr M s.tmps s.world e) (o - keyLo key)

/-- The environment is right: what it remembers are atoms that hold the pieces of the
guest state, and none of their temporaries is assigned again. -/
structure GetEnvOk (M : Interp) (env : HashHW IRExpr) (rest : List IRStmt) (s : State) : Prop where
  atom : ∀ k e, (k, e) ∈ env → e.isIRAtom = true
  range : ∀ k e, (k, e) ∈ env → keyLo k ≤ keyHi k
  stable : ∀ k e, (k, e) ∈ env → ∀ t ∈ e.temps, t ∉ defsOf rest
  holds : ∀ k e, (k, e) ∈ env → Holds M s k e

section Env

variable {M : Interp} {tyenv : IRTypeEnv} {env : HashHW IRExpr} {st : IRStmt} {rest : List IRStmt}
  {s : State}

theorem getEnvOk_new (M : Interp) (rest : List IRStmt) (s : State) : GetEnvOk M newHHW rest s :=
  ⟨fun _ _ h => (nomatch h : False).elim, fun _ _ h => (nomatch h : False).elim,
    fun _ _ h => (nomatch h : False).elim, fun _ _ h => (nomatch h : False).elim⟩

/-- An atom whose temporaries a statement does not assign keeps its value. -/
theorem evalExpr_execStmt {e : IRExpr} (ha : e.isIRAtom = true)
    (hst : ∀ t ∈ e.temps, t ∉ defsOf (st :: rest)) :
    evalExpr M (execStmt M tyenv s st).1.tmps (execStmt M tyenv s st).1.world e =
      evalExpr M s.tmps s.world e := by
  rw [evalExpr_atom ha _ s.world]
  exact evalExpr_congr e fun t ht => execStmt_tmps_of_ne (ne_def_of_not_mem (hst t ht))

/-- What is remembered about pieces that the statement does not change stays right. -/
theorem GetEnvOk.step (h : GetEnvOk M env (st :: rest) s) {env' : HashHW IRExpr}
    (hsub : ∀ k e, (k, e) ∈ env' → (k, e) ∈ env)
    (hframe : ∀ k e, (k, e) ∈ env' → ∀ o, keyLo k ≤ o → o ≤ keyHi k →
      (execStmt M tyenv s st).1.world.guest o = s.world.guest o) :
    GetEnvOk M env' rest (execStmt M tyenv s st).1 where
  atom k e hm := h.atom k e (hsub k e hm)
  range k e hm := h.range k e (hsub k e hm)
  stable k e hm t ht := not_mem_defsOf_tail (h.stable k e (hsub k e hm) t ht)
  holds k e hm o hlo hhi := by
    have hm' := hsub k e hm
    rw [hframe k e hm o hlo hhi, evalExpr_execStmt (h.atom k e hm') (h.stable k e hm')]
    exact h.holds k e hm' o hlo hhi

/-- One more piece is remembered. -/
theorem GetEnvOk.add (h : GetEnvOk M env rest s) {key : Nat} {e : IRExpr} (ha : e.isIRAtom = true)
    (hr : keyLo key ≤ keyHi key) (hst : ∀ t ∈ e.temps, t ∉ defsOf rest) (hh : Holds M s key e) :
    GetEnvOk M (addToHHW env key e) rest s := by
  have key_or : ∀ {k e'}, (k, e') ∈ addToHHW env key e → (k = key ∧ e' = e) ∨ (k, e') ∈ env :=
    fun hm => (mem_addToHHW hm).imp Prod.mk.inj id
  refine ⟨fun k e' hm => ?_, fun k e' hm => ?_, fun k e' hm => ?_, fun k e' hm => ?_⟩
  · rcases key_or hm with ⟨rfl, rfl⟩ | hm
    · exact ha
    · exact h.atom k e' hm
  · rcases key_or hm with ⟨rfl, rfl⟩ | hm
    · exact hr
    · exact h.range k e' hm
  · rcases key_or hm with ⟨rfl, rfl⟩ | hm
    · exact hst
    · exact h.stable k e' hm
  · rcases key_or hm with ⟨rfl, rfl⟩ | hm
    · exact hh
    · exact h.holds k e' hm

end Env

/-- The bytes of a value depend on no bits beyond them. -/
theorem byteOf_low {en : IREndness} {n k : Nat} (v : Val) (hk : k < n) (hn : n ≤ 16) :
    byteOf en n (Val.low (8 * n) v) k = byteOf en n v k := by
  rw [← joinBytes_byteOf en, byteOf_joinBytes _ hk hn]

/-- **The value that the pass substitutes**: what is remembered about the piece of a
`Get` is what the `Get` reads. -/
theorem Holds.readGuest {M : Interp} {s : State} {key : Nat} {e : IRExpr} {offset : Nat} {ty : IRType}
    (h : Holds M s key e) (hkey : mkKeyGetPut offset ty = .ok key)
    (hfit : ty.Fits (evalExpr M s.tmps s.world e)) :
    readGuest M s.world.guest offset ty = evalExpr M s.tmps s.world e := by
  obtain ⟨hlo, hhi, hbits⟩ := mkKeyGetPut_ok hkey
  have hbytes : joinBytes M.hostEnd ty.bytes (fun k => s.world.guest (offset + k)) =
      Val.low (8 * ty.bytes) (evalExpr M s.tmps s.world e) := by
    rw [← joinBytes_byteOf M.hostEnd]
    refine joinBytes_congr fun k hk => ?_
    rw [h (offset + k) (by omega) (by omega), show keyHi key + 1 - keyLo key = ty.bytes by omega,
      show offset + k - keyLo key = k by omega]
  rw [Vex.readGuest, hbytes, ← hbits]
  rw [show Val.low ty.bits (evalExpr M s.tmps s.world e) = evalExpr M s.tmps s.world e from hfit]
  exact hfit

/-- After a `Put` its data is what the piece holds. -/
theorem holds_put {M : Interp} {tyenv : IRTypeEnv} {s : State} {key : Nat} {offset : Nat}
    {data : IRExpr} (ha : data.isIRAtom = true)
    (hkey : mkKeyGetPut offset (data.tyIn tyenv) = .ok key) :
    Holds M (execStmt M tyenv s (.put offset data)).1 key data := by
  obtain ⟨hlo, hhi, -⟩ := mkKeyGetPut_ok hkey
  intro o h₁ h₂
  have hval : ∀ w, evalExpr M s.tmps w data = evalExpr M s.tmps s.world data :=
    fun w => evalExpr_atom ha w s.world
  simp only [execStmt, effect, assign_none, hval]
  rw [writeGuest_of_inside (by omega) (by omega),
    show keyHi key + 1 - keyLo key = (data.tyIn tyenv).bytes by omega,
    hlo]

/-- After a `Get` its temporary is what the piece holds. -/
theorem holds_get {M : Interp} {tyenv : IRTypeEnv} {s : State} {key : Nat} {offset : Nat}
    {ty : IRType} {tmp : IRTemp} (hkey : mkKeyGetPut offset ty = .ok key) :
    Holds M (execStmt M tyenv s (.wrTmp tmp (.get offset ty))).1 key (.rdTmp tmp) := by
  obtain ⟨hlo, hhi, hbits⟩ := mkKeyGetPut_ok hkey
  intro o h₁ h₂
  have hbytes := ty.bytes_le
  simp only [execStmt, effect, evalExpr, assign_self, Vex.readGuest]
  rw [hbits, show keyHi key + 1 - keyLo key = ty.bytes by omega,
    byteOf_low _ (by omega) hbytes, byteOf_joinBytes _ (by omega) hbytes]
  congr 1
  omega

/-- Statements that change the guest state are `Put`, `PutI`, and dirty calls that are
declared to do so. -/
theorem execStmt_guest_eq {M : Interp} {tyenv : IRTypeEnv} {s : State} {st : IRStmt} {o : Nat}
    (hput : ∀ offset data, st = .put offset data →
      o < offset ∨ offset + (data.tyIn tyenv).bytes ≤ o)
    (hputI : ∀ descr ix bias data, st = .putI descr ix bias data →
      o < descr.base ∨ descr.base + descr.nElems * descr.elemTy.bytes ≤ o)
    (hdirty : ∀ d, st = .dirty d → d.writesByte o = false) :
    (execStmt M tyenv s st).1.world.guest o = s.world.guest o := by
  cases st with
  | put offset data => exact writeGuest_of_outside (hput offset data rfl)
  | putI descr ix bias data =>
    obtain ⟨h₁, h₂⟩ := regOffset_bounds descr (evalExpr M s.tmps s.world ix) bias
    rcases hputI descr ix bias data rfl with h | h
    · exact writeGuest_of_outside (.inl (by omega))
    · exact writeGuest_of_outside (.inr (by omega))
  | dirty d =>
    simp only [execStmt, effect]
    split
    · rfl
    · simp [hdirty d rfl]
  | _ => rfl

/-- **One step of the pass**: the statement it leaves does what the statement did, and
the environment stays right. -/
theorem redundantGetStmt_spec {M : Interp} {tyenv : IRTypeEnv}
    {env env' : HashHW IRExpr} {st st' : IRStmt} {rest : List IRStmt} {s : State}
    (hfit : TmpsFit tyenv s.tmps) (henv : GetEnvOk M env (st :: rest) s)
    (huses : ∀ t ∈ st.uses, t ∉ defsOf (st :: rest)) (hdef : ∀ t, st.def? = some t → t ∉ defsOf rest)
    (h : redundantGetStmt tyenv env st = .ok (st', env')) :
    execStmt M tyenv s st' = execStmt M tyenv s st ∧
      GetEnvOk M env' rest (execStmt M tyenv s st).1 := by
  unfold redundantGetStmt at h
  split at h
  · -- a `Get`
    rename_i tmp offset ty
    simp only [bind_eq_ok] at h
    obtain ⟨key, hkey, h⟩ := h
    have hstep : GetEnvOk M env rest (execStmt M tyenv s (.wrTmp tmp (.get offset ty))).1 :=
      henv.step (fun _ _ hm => hm) fun _ _ _ _ _ _ => rfl
    split at h
    · rename_i valE hfound
      simp only [bind_eq_ok, pure_eq_ok, Prod.mk.injEq] at h
      obtain ⟨valTy, hvalTy, rfl, rfl⟩ := h
      refine ⟨?_, hstep⟩
      split
      · rename_i hty
        subst hty
        have hm := mem_of_lookupHHW hfound
        have ha := henv.atom _ _ hm
        have htc : tcExpr tyenv .I32 valE = true := by
          cases valE <;> first | rfl | cases ha
        have hval := (henv.holds _ _ hm).readGuest hkey
          (typeOfIRExpr_eq_ok hvalTy ▸ evalExpr_fits (M := M) (w := s.world) hfit htc)
        simp only [execStmt, effect, evalExpr, hval]
      · rfl
    · simp only [pure_eq_ok, Prod.mk.injEq] at h
      obtain ⟨rfl, rfl⟩ := h
      obtain ⟨-, hhi, -⟩ := mkKeyGetPut_ok hkey
      have hpos := ty.bytes_pos
      refine ⟨rfl, hstep.add rfl (by omega) (fun t ht => ?_) (holds_get hkey)⟩
      obtain rfl : t = tmp := by simpa [IRExpr.temps] using ht
      exact hdef t rfl
  · -- a `Put`
    rename_i offset data
    simp only [bind_eq_ok, assertThat_eq_ok, pure_eq_ok, Prod.mk.injEq] at h
    obtain ⟨ty, hty, key, hkey, env₁, hinv, -, ha, rfl, rfl⟩ := h
    obtain rfl := typeOfIRExpr_eq_ok hty
    obtain ⟨hlo, hhi, -⟩ := mkKeyGetPut_ok hkey
    have hpos := (data.tyIn tyenv).bytes_pos
    have hstep : GetEnvOk M env₁ rest (execStmt M tyenv s (.put offset data)).1 := by
      refine henv.step (fun k e hm => ((invalidateOverlaps_ok hinv).mp hm).1) fun k e hm o h₁ h₂ => ?_
      have hout := ((invalidateOverlaps_ok hinv).mp hm).2
      exact writeGuest_of_outside (by omega)
    exact ⟨rfl, hstep.add ha (by omega) (fun t ht => not_mem_defsOf_tail (huses t ht))
      (holds_put ha hkey)⟩
  · -- a `PutI`
    rename_i descr ix bias data
    simp only [bind_eq_ok, pure_eq_ok, Prod.mk.injEq] at h
    obtain ⟨key, hkey, env₁, hinv, rfl, rfl⟩ := h
    obtain ⟨hlo, hhi, hle⟩ := mkKeyGetIPutI_ok hkey
    refine ⟨rfl, henv.step (fun k e hm => ((invalidateOverlaps_ok hinv).mp hm).1)
      fun k e hm o h₁ h₂ => ?_⟩
    have hout := ((invalidateOverlaps_ok hinv).mp hm).2
    refine execStmt_guest_eq (fun _ _ he => by cases he) (fun descr' ix' bias' data' he => ?_)
      fun _ he => by cases he
    cases he
    omega
  · -- a dirty call
    rename_i d
    split at h
    · cases h
      exact ⟨rfl, getEnvOk_new M rest _⟩
    · rename_i hwrites
      cases h
      refine ⟨rfl, henv.step (fun _ _ hm => hm) fun k e hm o h₁ h₂ =>
        execStmt_guest_eq (fun _ _ he => by cases he) (fun _ _ _ _ he => by cases he) fun d' he => ?_⟩
      cases he
      simp only [List.any_eq_true, not_exists, not_and] at hwrites
      simp only [IRDirty.writesByte, List.any_eq_false]
      intro f hf
      have := hwrites f hf
      simp [IREffect.writes, Bool.or_comm] at this ⊢
      simp [this]
  · -- any other statement leaves the guest state alone
    rename_i hput hputI hdirty
    cases h
    exact ⟨rfl, henv.step (fun _ _ hm => hm) fun k e hm o h₁ h₂ =>
      execStmt_guest_eq (fun _ _ he => (hput _ _ he).elim) (fun _ _ _ _ he => (hputI _ _ _ _ he).elim)
        fun _ he => (hdirty _ he).elim⟩

/-- The offsets of the statement fit into 16 bits, and the types of what it reads from
and writes to the guest state have a size. -/
def OffsetsFit (tyenv : IRTypeEnv) : IRStmt → Prop
  | .wrTmp _ (.get offset ty) => ∃ key, mkKeyGetPut offset ty = .ok key
  | .wrTmp _ (.getI descr _ _) => ∃ key, mkKeyGetIPutI descr = .ok key
  | .put offset data => ∃ key, mkKeyGetPut offset (data.tyIn tyenv) = .ok key
  | .putI descr _ _ _ => ∃ key, mkKeyGetIPutI descr = .ok key
  | _ => True

theorem hasOtherType_returns {tyenv : IRTypeEnv} {e : IRExpr} {ty : IRType}
    (h : hasOtherType tyenv e ty = true) : typeOfIRExpr tyenv e = .ok (e.tyIn tyenv) := by
  unfold hasOtherType at h
  unfold IRExpr.tyIn
  split at h
  · rename_i hty
    rw [hty]
  · exact nomatch h

/-- What the environment holds has a type, and its keys are in order. -/
def EnvTyped (tyenv : IRTypeEnv) (env : HashHW IRExpr) : Prop :=
  ∀ k e, (k, e) ∈ env → keyLo k ≤ keyHi k ∧ typeOfIRExpr tyenv e = .ok (e.tyIn tyenv)

theorem EnvTyped.add {tyenv : IRTypeEnv} {env : HashHW IRExpr} (h : EnvTyped tyenv env) {key : Nat}
    {e : IRExpr} (hk : keyLo key ≤ keyHi key) (he : typeOfIRExpr tyenv e = .ok (e.tyIn tyenv)) :
    EnvTyped tyenv (addToHHW env key e) := by
  intro k e' hm
  rcases mem_addToHHW hm with heq | hm
  · cases heq
    exact ⟨hk, he⟩
  · exact h k e' hm

theorem EnvTyped.invalidate {tyenv : IRTypeEnv} {env : HashHW IRExpr} (h : EnvTyped tyenv env)
    {lo hi : Nat} (hle : lo ≤ hi) :
    ∃ env', invalidateOverlaps env lo hi = .ok env' ∧ EnvTyped tyenv env' := by
  have hall : ∀ e ∈ env, keyLo e.1 ≤ keyHi e.1 := fun e he => (h e.1 e.2 he).1
  obtain ⟨env', hinv⟩ : ∃ env', invalidateOverlaps env lo hi = .ok env' :=
    ⟨_, by rw [invalidateOverlaps, assertThat_of hle, assertThat_of hall]; rfl⟩
  exact ⟨env', hinv, fun k e hm => h k e ((invalidateOverlaps_ok hinv).mp hm).1⟩

/-- The pass returns on well-typed flat statements whose offsets fit. -/
theorem redundantGetStmt_returns {tyenv : IRTypeEnv} {gWordTy : IRType} {env : HashHW IRExpr}
    {st : IRStmt} (hflat : isFlatIRStmt st = true) (htc : tcStmt tyenv gWordTy st = true)
    (hoff : OffsetsFit tyenv st) (henv : EnvTyped tyenv env) :
    ∃ st' env', redundantGetStmt tyenv env st = .ok (st', env') ∧ EnvTyped tyenv env' := by
  unfold redundantGetStmt
  split
  · rename_i tmp offset ty
    obtain ⟨key, hkey⟩ := hoff
    rw [hkey]
    simp only [ok_bind]
    split
    · rename_i valE hfound
      rw [(henv _ _ (mem_of_lookupHHW hfound)).2]
      exact ⟨_, _, rfl, henv⟩
    · obtain ⟨-, hhi, -⟩ := mkKeyGetPut_ok hkey
      have hpos := ty.bytes_pos
      simp only [tcStmt, Bool.and_eq_true, decide_eq_true_eq] at htc
      refine ⟨_, _, rfl, henv.add (by omega) ?_⟩
      rw [tyIn_rdTmp, typeOfIRExpr, typeOfIRTemp, assertThat_of htc.1.2]
      rfl
  · rename_i offset data
    obtain ⟨key, hkey⟩ := hoff
    obtain ⟨-, hhi, -⟩ := mkKeyGetPut_ok hkey
    have hpos := (data.tyIn tyenv).bytes_pos
    simp only [tcStmt, Bool.and_eq_true] at htc
    have hty := hasOtherType_returns htc.2
    obtain ⟨env', hinv, henv'⟩ := henv.invalidate (show keyLo key ≤ keyHi key by omega)
    rw [hty]
    simp only [ok_bind, hkey, hinv]
    rw [assertThat_of (show data.isIRAtom = true from hflat)]
    exact ⟨_, _, rfl, henv'.add (by omega) hty⟩
  · rename_i descr ix bias data
    obtain ⟨key, hkey⟩ := hoff
    obtain ⟨-, -, hle⟩ := mkKeyGetIPutI_ok hkey
    obtain ⟨env', hinv, henv'⟩ := henv.invalidate hle
    rw [hkey]
    simp only [ok_bind, hinv]
    exact ⟨_, _, rfl, henv'⟩
  · split
    · exact ⟨_, _, rfl, fun _ _ hm => by cases hm⟩
    · exact ⟨_, _, rfl, henv⟩
  · exact ⟨_, _, rfl, henv⟩

/-- **Redundant GET removal keeps the meaning of a block**: the block runs in step with
the block before the pass, so each temporary gets the value it got before, whether it
is still read from the guest state or not. On a flat block whose offsets fit into 16
bits the pass returns. -/
theorem redundantGetRemovalBB_correct (bb : IRSB) {gWordTy : IRType} (hflat : bb.isFlat = true)
    (hssa : bb.IsSSA) (hdef : bb.DefinedBeforeUse) (htyped : bb.WellTyped gWordTy) :
    (∀ bb', redundantGetRemovalBB bb = .ok bb' → Lockstep bb bb' ∧ SameMeaning bb bb') ∧
      ((∀ st ∈ bb.stmts, OffsetsFit bb.tyenv st) → ∃ bb', redundantGetRemovalBB bb = .ok bb') := by
  constructor
  · intro bb' h
    simp only [redundantGetRemovalBB, bind_eq_ok, pure_eq_ok, Prod.exists] at h
    obtain ⟨stmts, env, hscan, rfl⟩ := h
    have hlock := lockstep_of_scan (fun M env rest s => GetEnvOk M env rest s ∧
        (∃ ds, SSAFrom ds rest bb.next) ∧ (∀ st ∈ rest, tcStmt bb.tyenv gWordTy st = true) ∧
          TmpsFit bb.tyenv s.tmps)
      (fun M w => ⟨getEnvOk_new M bb.stmts ⟨noTmps, w⟩, ⟨[], IRSB.ssaFrom hssa hdef⟩, htyped.2.1,
        tmpsFit_noTmps _⟩)
      (fun hP hst => by
        obtain ⟨henv, ⟨ds, hds⟩, htc, hfit⟩ := hP
        obtain ⟨hexec, henv'⟩ := redundantGetStmt_spec hfit henv (fun t ht => hds.use_not_def ht)
          (fun t ht => hds.def_not_def ht) hst
        exact ⟨hexec, henv', ⟨_, hds.tail⟩, fun st hst => htc st (List.mem_cons_of_mem _ hst),
          execStmt_fits (htc _ List.mem_cons_self) hfit⟩) hscan
    exact ⟨hlock, hlock.sameMeaning rfl rfl⟩
  · intro hoff
    obtain ⟨stmts, env, hscan⟩ := Straight.scan_returns (f := redundantGetStmt bb.tyenv)
      (P := EnvTyped bb.tyenv) (fun env st hst henv => redundantGetStmt_returns
        (List.all_eq_true.mp (Bool.and_eq_true_iff.mp hflat).1 st hst) (htyped.2.1 st hst)
        (hoff st hst) henv) (show EnvTyped bb.tyenv newHHW from fun _ _ hm => by cases hm)
    refine ⟨{ bb with stmts := stmts }, ?_⟩
    rw [redundantGetRemovalBB, hscan]
    rfl

/-- `t0 = GET:I32(0); PUT(4) = t0; t1 = GET:I32(4); PUT(8) = t1`. -/
def getAfterPutBB : IRSB :=
  blockOf [.I32, .I32] [.wrTmp 0 (.get 0 .I32), .put 4 (.rdTmp 0), .wrTmp 1 (.get 4 .I32),
    .put 8 (.rdTmp 1)]

theorem redundantGetRemovalBB_correct_getAfterPut :
    ∃ bb', redundantGetRemovalBB getAfterPutBB = .ok bb' ∧ SameMeaning getAfterPutBB bb' := by
  have h := redundantGetRemovalBB_correct getAfterPutBB (by decide) (by decide) (by decide)
    (show getAfterPutBB.WellTyped .I32 by decide)
  have hoff : ∀ st ∈ getAfterPutBB.stmts, OffsetsFit getAfterPutBB.tyenv st := by
    intro st hst
    simp only [getAfterPutBB, blockOf, List.mem_cons, List.not_mem_nil, or_false] at hst
    rcases hst with rfl | rfl | rfl | rfl <;> exact ⟨_, rfl⟩
  obtain ⟨bb', hbb'⟩ := h.2 hoff
  exact ⟨bb', hbb', (h.1 bb' hbb').2⟩

end Valgrind.Vex
