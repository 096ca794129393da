import Valgrind.Vex.Sanity

/-!
# Pieces of the guest state

The passes of `iropt.c` speak about pieces of the guest state by their first and
last offset, packed into a key, and keep what they know about them in a `HashHW`.
A `HashHW` is an array of slots, searched from the front; a slot that is no longer
in use is skipped everywhere, so the map is modelled by the list of the slots in
use, in order.
-/

namespace Valgrind.Vex

/-! ## `HashHW` -/

/-- `HashHW`: the slots in use. -/
abbrev HashHW (β : Type) := List (Nat × β)

/-- `newHHW`. -/
def newHHW {β : Type} : HashHW β := []

/-- `lookupHHW`. -/
def lookupHHW {β : Type} : HashHW β → Nat → Option β
  | [], _ => none
  | (k, v) :: h, key => if k = key then some v else lookupHHW h key

/-- `addToHHW`: replaces the first binding of the key, or appends one. -/
def addToHHW {β : Type} : HashHW β → Nat → β → HashHW β
  | [], key, val => [(key, val)]
  | (k, v) :: h, key, val => if k = key then (k, val) :: h else (k, v) :: addToHHW h key val

section HashHW

variable {β : Type} {h : HashHW β} {key k : Nat} {val v : β}

theorem mem_of_lookupHHW (hl : lookupHHW h key = some val) : (key, val) ∈ h := by
  induction h with
  | nil => exact nomatch hl
  | cons e h ih =>
    obtain ⟨k, v⟩ := e
    simp only [lookupHHW] at hl
    split at hl
    · rename_i hk
      subst hk
      rw [Option.some.inj hl]
      exact List.mem_cons_self
    · exact List.mem_cons_of_mem _ (ih hl)

theorem mem_addToHHW (hm : (k, v) ∈ addToHHW h key val) : (k, v) = (key, val) ∨ (k, v) ∈ h := by
  induction h with
  | nil => exact .inl (by simpa [addToHHW] using hm)
  | cons e h ih =>
    obtain ⟨k', v'⟩ := e
    simp only [addToHHW] at hm
    split at hm
    · rename_i hk
      subst hk
      exact (List.mem_cons.mp hm).imp id (List.mem_cons_of_mem _)
    · rcases List.mem_cons.mp hm with hm | hm
      · exact .inr (hm ▸ List.mem_cons_self)
      · exact (ih hm).imp id (List.mem_cons_of_mem _)

end HashHW

/-! ## Keys -/

/-- `getArrayBounds`: the first and the last offset of a register array. -/
def getArrayBounds (descr : IRRegArray) : Result (Nat × Nat) := do
  let sz ← sizeofIRType descr.elemTy
  let minoff := descr.base
  let maxoff := minoff + descr.nElems * sz - 1
  assertThat (minoff < 0x10000)
  assertThat (maxoff < 0x10000)
  assertThat (minoff ≤ maxoff)
  return (minoff, maxoff)

/-- The key of a piece of the guest state. -/
def packKey (minoff maxoff : Nat) : Nat := minoff <<< 16 ||| maxoff

/-- The first offset of the piece with a key. -/
def keyLo (key : Nat) : Nat := key >>> 16 &&& 0xFFFF

/-- The last offset of the piece with a key. -/
def keyHi (key : Nat) : Nat := key &&& 0xFFFF

/-- `mk_key_GetPut`: the offsets have to fit into 16 bits. -/
def mkKeyGetPut (offset : Nat) (ty : IRType) : Result Nat := do
  let sz ← sizeofIRType ty
  let minoff := offset
  let maxoff := minoff + sz - 1
  assertThat (minoff < 0x10000)
  assertThat (maxoff < 0x10000)
  return packKey minoff maxoff

/-- `mk_key_GetIPutI`. -/
def mkKeyGetIPutI (descr : IRRegArray) : Result Nat := do
  let (minoff, maxoff) ← getArrayBounds descr
  return packKey minoff maxoff

/-- `invalidateOverlaps`: drop every binding that overlaps `[k_lo, k_hi]`. -/
def invalidateOverlaps {β : Type} (h : HashHW β) (k_lo k_hi : Nat) : Result (HashHW β) := do
  assertThat (k_lo ≤ k_hi)
  assertThat (∀ e ∈ h, keyLo e.1 ≤ keyHi e.1)
  return h.filter fun e => decide (keyHi e.1 < k_lo) || decide (k_hi < keyLo e.1)

theorem packKey_eq {a b : Nat} (hb : b < 0x10000) : packKey a b = a * 0x10000 + b := by
  rw [packKey, ← Nat.shiftLeft_add_eq_or_of_lt (by simpa using hb), Nat.shiftLeft_eq]

theorem keyLo_packKey {a b : Nat} (ha : a < 0x10000) (hb : b < 0x10000) :
    keyLo (packKey a b) = a := by
  rw [packKey_eq hb, keyLo, show (0xFFFF : Nat) = 2 ^ 16 - 1 from rfl, Nat.and_two_pow_sub_one_eq_mod,
    Nat.shiftRight_eq_div_pow]
  omega

theorem keyHi_packKey {a b : Nat} (hb : b < 0x10000) : keyHi (packKey a b) = b := by
  rw [packKey_eq hb, keyHi, show (0xFFFF : Nat) = 2 ^ 16 - 1 from rfl, Nat.and_two_pow_sub_one_eq_mod]
  omega

/-- What `getArrayBounds` returns: the array fits into 16-bit offsets. -/
theorem getArrayBounds_ok {descr : IRRegArray} {lo hi : Nat}
    (h : getArrayBounds descr = .ok (lo, hi)) :
    lo = descr.base ∧ hi = descr.base + descr.nElems * descr.elemTy.bytes - 1 ∧ lo ≤ hi ∧
      hi < 0x10000 ∧ descr.elemTy.bits = 8 * descr.elemTy.bytes := by
  simp only [getArrayBounds, bind_eq_ok, assertThat_eq_ok, pure_eq_ok, Prod.mk.injEq] at h
  obtain ⟨sz, hsz, -, -, -, hmax, -, hle, rfl, rfl⟩ := h
  obtain ⟨rfl, hbits, -⟩ := sizeofIRType_eq_ok hsz
  exact ⟨rfl, rfl, hle, hmax, hbits⟩

/-- The piece that the key of a `Get` or a `Put` stands for. -/
theorem mkKeyGetPut_ok {offset : Nat} {ty : IRType} {key : Nat}
    (h : mkKeyGetPut offset ty = .ok key) :
    keyLo key = offset ∧ keyHi key + 1 = keyLo key + ty.bytes ∧
      ty.bits = 8 * ty.bytes := by
  simp only [mkKeyGetPut, bind_eq_ok, assertThat_eq_ok, pure_eq_ok] at h
  obtain ⟨sz, hsz, -, hoff, -, hmax, rfl⟩ := h
  obtain ⟨rfl, hbits, hpos⟩ := sizeofIRType_eq_ok hsz
  rw [keyLo_packKey hoff hmax, keyHi_packKey hmax]
  exact ⟨rfl, by omega, hbits⟩

/-- The piece that the key of a `GetI` or a `PutI` stands for is the whole array. -/
theorem mkKeyGetIPutI_ok {descr : IRRegArray} {key : Nat} (h : mkKeyGetIPutI descr = .ok key) :
    keyLo key = descr.base ∧ keyHi key = descr.base + descr.nElems * descr.elemTy.bytes - 1 ∧
      keyLo key ≤ keyHi key := by
  simp only [mkKeyGetIPutI, bind_eq_ok, pure_eq_ok, Prod.exists] at h
  obtain ⟨lo, hi, hb, rfl⟩ := h
  obtain ⟨rfl, rfl, hle, hhi, -⟩ := getArrayBounds_ok hb
  rw [keyLo_packKey (by omega) hhi, keyHi_packKey hhi]
  exact ⟨rfl, rfl, hle⟩

/-- An indexed access stays within its array. -/
theorem regOffset_bounds (descr : IRRegArray) (ix : Val) (bias : Int) :
    descr.base ≤ regOffset descr ix bias ∧
      regOffset descr ix bias + descr.elemTy.bytes ≤ descr.base + descr.nElems * descr.elemTy.bytes := by
  have hle : (regIndex descr ix bias + 1) * descr.elemTy.bytes ≤
      descr.nElems * descr.elemTy.bytes :=
    Nat.mul_le_mul_right _ (regIndex_lt descr ix bias)
  rw [Nat.add_mul] at hle
  unfold regOffset
  omega

theorem invalidateOverlaps_ok {β : Type} {h h' : HashHW β} {lo hi : Nat}
    (hi' : invalidateOverlaps h lo hi = .ok h') {k : Nat} {v : β} :
    (k, v) ∈ h' ↔ (k, v) ∈ h ∧ (keyHi k < lo ∨ hi < keyLo k) := by
  simp only [invalidateOverlaps, bind_eq_ok, assertThat_eq_ok, pure_eq_ok] at hi'
  obtain ⟨-, -, -, -, rfl⟩ := hi'
  simp

/-! ## States that differ in the guest state -/

/-- A flat expression other than a `Get` or a `GetI` does not look at the guest state. -/
theorem evalExpr_noGet {M : Interp} {ρ : IRTemp → Val} {w w' : World} {e : IRExpr}
    (hflat : e.isFlat = true) (hget : ∀ offset ty, e ≠ .get offset ty)
    (hgetI : ∀ descr ix bias, e ≠ .getI descr ix bias) (hmem : w.mem = w'.mem) :
    evalExpr M ρ w e = evalExpr M ρ w' e := by
  have hatom : ∀ e : IRExpr, e.isIRAtom = true → evalExpr M ρ w e = evalExpr M ρ w' e :=
    fun e he => evalExpr_atom he w w'
  cases e with
  | get offset ty => exact absurd rfl (hget offset ty)
  | getI descr ix bias => exact absurd rfl (hgetI descr ix bias)
  | rdTmp tmp => rfl
  | const con => rfl
  | ccall cee retty args =>
    have hargs : evalArgs M ρ w args = evalArgs M ρ w' args := by
      rw [evalArgs_eq_map, evalArgs_eq_map]
      exact List.map_congr_left fun e he => hatom e (List.all_eq_true.mp hflat e he)
    simp only [evalExpr, hargs]
  | load en ty addr => simp only [evalExpr, hatom addr hflat, hmem]
  | unop op arg => simp only [evalExpr, hatom arg hflat]
  | binop op arg1 arg2 =>
    simp only [IRExpr.isFlat, Bool.and_eq_true] at hflat
    simp only [evalExpr, hatom arg1 hflat.1, hatom arg2 hflat.2]
  | triop op arg1 arg2 arg3 =>
    simp only [IRExpr.isFlat, Bool.and_eq_true] at hflat
    simp only [evalExpr, hatom arg1 hflat.1.1, hatom arg2 hflat.1.2, hatom arg3 hflat.2]
  | qop op arg1 arg2 arg3 arg4 =>
    simp only [IRExpr.isFlat, Bool.and_eq_true] at hflat
    simp only [evalExpr, hatom arg1 hflat.1.1.1, hatom arg2 hflat.1.1.2, hatom arg3 hflat.1.2,
      hatom arg4 hflat.2]
  | mux0X cond expr0 exprX =>
    simp only [IRExpr.isFlat, Bool.and_eq_true] at hflat
    simp only [evalExpr, hatom cond hflat.1.1, hatom expr0 hflat.1.2, hatom exprX hflat.2]

/-- The states agree but for the bytes of the guest state that are not `fresh`. -/
structure EqOn (fresh : Nat → Prop) (s s' : State) : Prop where
  tmps : s.tmps = s'.tmps
  mem : s.world.mem = s'.world.mem
  calls : s.world.calls = s'.world.calls
  guest : ∀ o, fresh o → s.world.guest o = s'.world.guest o

section EqOn

variable {M : Interp} {tyenv : IRTypeEnv} {fresh fresh' : Nat → Prop} {st : IRStmt} {s s' : State}

theorem EqOn.refl (fresh : Nat → Prop) (s : State) : EqOn fresh s s := ⟨rfl, rfl, rfl, fun _ _ => rfl⟩

/-- With every byte fresh the states are equal. -/
theorem EqOn.eq (h : EqOn fresh s s') (hall : ∀ o, fresh o) : s = s' := by
  obtain ⟨ρ, g, m, c⟩ := s
  obtain ⟨ρ', g', m', c'⟩ := s'
  obtain ⟨rfl, rfl, rfl, hg⟩ := h
  obtain rfl : g = g' := funext fun o => hg o (hall o)
  rfl

theorem EqOn.mono (h : EqOn fresh s s') (hsub : ∀ o, fresh' o → fresh o) : EqOn fresh' s s' :=
  ⟨h.tmps, h.mem, h.calls, fun o ho => h.guest o (hsub o ho)⟩

theorem EqOn.eval_atom (h : EqOn fresh s s') {e : IRExpr} (he : e.isIRAtom = true) :
    evalExpr M s.tmps s.world e = evalExpr M s'.tmps s'.world e := by
  rw [h.tmps]
  exact evalExpr_atom he s.world s'.world

/-- Writing the same value on both sides makes the bytes that are written fresh. -/
theorem EqOn.write (h : EqOn fresh s s') (offset n : Nat) (v : Val)
    (hsub : ∀ o, fresh' o → (offset ≤ o ∧ o < offset + n) ∨ fresh o) :
    EqOn fresh' { s with world.guest := writeGuest M s.world.guest offset n v }
      { s' with world.guest := writeGuest M s'.world.guest offset n v } := by
  refine ⟨h.tmps, h.mem, h.calls, fun o ho => ?_⟩
  simp only [writeGuest]
  split
  · rfl
  · rename_i hout
    exact h.guest o ((hsub o ho).resolve_left hout)

/-- An assignment of the same value on both sides. -/
theorem EqOn.assign (h : EqOn fresh s s') (a : Option (IRTemp × Val)) :
    EqOn fresh { s with tmps := Vex.assign s.tmps a } { s' with tmps := Vex.assign s'.tmps a } := by
  refine ⟨?_, h.mem, h.calls, h.guest⟩
  rw [h.tmps]

/-- A flat statement that neither reads the guest state nor calls a helper does the same
on both sides. -/
theorem EqOn.exec (h : EqOn fresh s s') (M : Interp) (tyenv : IRTypeEnv)
    (hflat : isFlatIRStmt st = true)
    (hget : ∀ t offset ty, st ≠ .wrTmp t (.get offset ty))
    (hgetI : ∀ t descr ix bias, st ≠ .wrTmp t (.getI descr ix bias)) (hdirty : ∀ d, st ≠ .dirty d) :
    EqOn fresh (execStmt M tyenv s st).1 (execStmt M tyenv s' st).1 ∧
      (execStmt M tyenv s st).2 = (execStmt M tyenv s' st).2 := by
  cases st with
  | noOp | iMark | abiHint | mbe => exact ⟨h, rfl⟩
  | put offset data =>
    simp only [execStmt, effect, assign_none, h.eval_atom (M := M) (show data.isIRAtom = true from hflat)]
    exact ⟨h.write offset _ _ fun o ho => .inr ho, trivial⟩
  | putI descr ix bias data =>
    obtain ⟨hix, hdata⟩ := Bool.and_eq_true_iff.mp hflat
    simp only [execStmt, effect, assign_none, h.eval_atom (M := M) hix, h.eval_atom (M := M) hdata]
    exact ⟨h.write _ _ _ fun o ho => .inr ho, trivial⟩
  | wrTmp tmp data =>
    have hval : evalExpr M s.tmps s.world data = evalExpr M s'.tmps s'.world data := by
      rw [h.tmps]
      exact evalExpr_noGet hflat (fun offset ty he => hget tmp offset ty (by rw [he]))
        (fun descr ix bias he => hgetI tmp descr ix bias (by rw [he])) h.mem
    simp only [execStmt, effect, hval]
    exact ⟨h.assign _, trivial⟩
  | store en addr data =>
    obtain ⟨haddr, hdata⟩ := Bool.and_eq_true_iff.mp hflat
    simp only [execStmt, effect, assign_none, h.eval_atom (M := M) haddr, h.eval_atom (M := M) hdata,
      h.mem]
    exact ⟨⟨h.tmps, rfl, h.calls, h.guest⟩, trivial⟩
  | dirty d => exact absurd rfl (hdirty d)
  | exit guard jk dst =>
    simp only [execStmt, effect, assign_none, h.eval_atom (M := M) (show guard.isIRAtom = true from hflat)]
    exact ⟨h, trivial⟩

/-- A helper that is declared to read nothing but fresh bytes is given the same. -/
theorem EqOn.dirtyCall_eq (h : EqOn fresh s s') {d : IRDirty} (hflat : isFlatIRStmt (.dirty d) = true)
    (hreads : ∀ o, d.readsByte o = true → fresh o) :
    dirtyCall M s.tmps s.world d = dirtyCall M s'.tmps s'.world d := by
  simp only [isFlatIRStmt, Bool.and_eq_true] at hflat
  obtain ⟨⟨-, hargs⟩, haddr⟩ := hflat
  have hargs' : evalArgs M s.tmps s.world d.args = evalArgs M s'.tmps s'.world d.args := by
    rw [evalArgs_eq_map, evalArgs_eq_map]
    exact List.map_congr_left fun e he => h.eval_atom (List.all_eq_true.mp hargs e he)
  have haddr' : d.mAddr.map (evalExpr M s.tmps s.world) = d.mAddr.map (evalExpr M s'.tmps s'.world) := by
    cases ha : d.mAddr with
    | none => rfl
    | some e =>
      rw [ha] at haddr
      exact congrArg some (h.eval_atom haddr)
  have hguest : (fun o => if d.readsByte o then s.world.guest o else 0) =
      fun o => if d.readsByte o then s'.world.guest o else 0 := by
    funext o
    split
    · rename_i hr
      exact h.guest o (hreads o hr)
    · rfl
  simp only [dirtyCall, hargs', haddr', hguest, h.mem]

/-- So a dirty call of such a helper does the same on both sides. -/
theorem EqOn.exec_dirty (h : EqOn fresh s s') (M : Interp) (tyenv : IRTypeEnv) {d : IRDirty}
    (hflat : isFlatIRStmt (.dirty d) = true) (hreads : ∀ o, d.readsByte o = true → fresh o) :
    EqOn fresh (execStmt M tyenv s (.dirty d)).1 (execStmt M tyenv s' (.dirty d)).1 ∧
      (execStmt M tyenv s (.dirty d)).2 = (execStmt M tyenv s' (.dirty d)).2 := by
  have hguard : evalExpr M s.tmps s.world d.guard = evalExpr M s'.tmps s'.world d.guard := by
    simp only [isFlatIRStmt, Bool.and_eq_true] at hflat
    exact h.eval_atom hflat.1.1
  simp only [execStmt, effect, hguard, h.dirtyCall_eq (M := M) hflat hreads, h.calls]
  split
  · exact ⟨h.assign _, rfl⟩
  · refine ⟨⟨by rw [h.tmps], rfl, rfl, fun o ho => ?_⟩, rfl⟩
    dsimp only
    split
    · rfl
    · exact h.guest o ho

/-- A read of fresh bytes reads the same on both sides. -/
theorem EqOn.readGuest (h : EqOn fresh s s') {offset : Nat} {ty : IRType}
    (hin : ∀ o, offset ≤ o → o < offset + ty.bytes → fresh o) :
    readGuest M s.world.guest offset ty = readGuest M s'.world.guest offset ty :=
  readGuest_congr fun o h₁ h₂ => h.guest o (hin o h₁ h₂)

end EqOn

end Valgrind.Vex
