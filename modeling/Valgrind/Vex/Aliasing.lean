import Valgrind.Vex.RedundantGet

/-!
# Aliasing of guest state accesses

`getAliasingRelation_IC` and `getAliasingRelation_II` compare an indexed access to
the guest state with a plain one and with another indexed one. They are the ground
for common-subexpression elimination and for the `GetI`/`PutI` passes, which trust
them in both directions: two accesses that alias exactly are the same bytes, two
that do not alias are disjoint, for every value of the index.
-/

namespace Valgrind.Vex

/-- `GSAliasing`. -/
inductive GSAliasing where
  | ExactAlias | NoAlias | UnknownAlias
  deriving DecidableEq, Repr

/-- `getAliasingRelation_IC`. -/
def getAliasingRelationIC (descr1 : IRRegArray) (_ix1 : IRExpr) (offset2 : Nat) (ty2 : IRType) :
    Result GSAliasing := do
  let (minoff1, maxoff1) ← getArrayBounds descr1
  let minoff2 := offset2
  let sz ← sizeofIRType ty2
  let maxoff2 := minoff2 + sz - 1
  return if maxoff1 < minoff2 ∨ maxoff2 < minoff1 then .NoAlias else .UnknownAlias

/-- The loop of `getAliasingRelation_II` that makes both biases non-negative: `iters`
more rounds are allowed. -/
def normaliseBiases (nElems : Int) : Nat → Int → Int → Result (Int × Int)
  | iters, bias1, bias2 =>
    if bias1 < 0 ∨ bias2 < 0 then
      match iters with
      | 0 => .error .panic
      | iters + 1 => normaliseBiases nElems iters (bias1 + nElems) (bias2 + nElems)
    else .ok (bias1, bias2)

/-- `getAliasingRelation_II`. -/
def getAliasingRelationII (descr1 : IRRegArray) (ix1 : IRExpr) (bias1 : Int) (descr2 : IRRegArray)
    (ix2 : IRExpr) (bias2 : Int) : Result GSAliasing := do
  let (minoff1, maxoff1) ← getArrayBounds descr1
  let (minoff2, maxoff2) ← getArrayBounds descr2
  if maxoff1 < minoff2 ∨ maxoff2 < minoff1 then
    return .NoAlias
  else if eqIRRegArray descr1 descr2 = false then
    return .UnknownAlias
  else do
    assertThat (ix1.isIRAtom = true)
    assertThat (ix2.isIRAtom = true)
    let same ← eqIRAtom ix1 ix2
    if same = false then
      return .UnknownAlias
    else do
      let (bias1, bias2) ← normaliseBiases descr1.nElems 10 bias1 bias2
      return if bias1 % descr1.nElems = bias2 % descr1.nElems then .ExactAlias else .NoAlias

section

variable {d d₁ d₂ : IRRegArray} {ix ix₁ ix₂ : IRExpr} {b b₁ b₂ c₁ c₂ : Int} {iters : Nat}

/-- The loop changes a bias by multiples of the number of elements only. -/
theorem normaliseBiases_emod {n : Int} (h : normaliseBiases n iters b₁ b₂ = .ok (c₁, c₂)) :
    c₁ % n = b₁ % n ∧ c₂ % n = b₂ % n := by
  induction iters generalizing b₁ b₂ with
  | zero =>
    unfold normaliseBiases at h
    split at h
    · exact nomatch h
    · cases h
      exact ⟨rfl, rfl⟩
  | succ iters ih =>
    unfold normaliseBiases at h
    split at h
    · obtain ⟨h₁, h₂⟩ := ih h
      simpa using And.intro h₁ h₂
    · cases h
      exact ⟨rfl, rfl⟩

/-- The loop ends in time for biases that are no smaller than `-iters * n`. -/
theorem normaliseBiases_returns {n : Int} (iters : Nat) {b₁ b₂ : Int} (h₁ : -iters * n ≤ b₁)
    (h₂ : -iters * n ≤ b₂) :
    ∃ c₁ c₂, normaliseBiases n iters b₁ b₂ = .ok (c₁, c₂) := by
  induction iters generalizing b₁ b₂ with
  | zero =>
    refine ⟨b₁, b₂, ?_⟩
    unfold normaliseBiases
    rw [if_neg (by simp at h₁ h₂; omega)]
  | succ iters ih =>
    have hexp : -((iters + 1 : Nat) : Int) * n = -iters * n - n := by
      push_cast
      ring
    rw [hexp] at h₁ h₂
    obtain ⟨c₁, c₂, hc⟩ := ih (show -iters * n ≤ b₁ + n by omega)
      (show -iters * n ≤ b₂ + n by omega)
    unfold normaliseBiases
    split
    · exact ⟨c₁, c₂, hc⟩
    · exact ⟨b₁, b₂, rfl⟩

/-- Biases that are equal modulo the number of elements mean the same element for
every index, others mean different ones. -/
theorem regIndex_eq_iff (d : IRRegArray) (v : Val) :
    regIndex d v b₁ = regIndex d v b₂ ↔ b₁ % d.nElems = b₂ % d.nElems := by
  have hpos : (d.nElems : Int) ≠ 0 := by have := d.nElems_pos; omega
  have h₁ := Int.emod_nonneg ((BitVec.setWidth 32 v).toInt + b₁) hpos
  have h₂ := Int.emod_nonneg ((BitVec.setWidth 32 v).toInt + b₂) hpos
  rw [← Int.emod_add_cancel_left (i := (BitVec.setWidth 32 v).toInt)]
  unfold regIndex
  omega

/-- Different elements of a register array do not overlap. -/
theorem regOffset_disjoint (d : IRRegArray) {v₁ v₂ : Val} (h : regIndex d v₁ b₁ ≠ regIndex d v₂ b₂) :
    regOffset d v₁ b₁ + d.elemTy.bytes ≤ regOffset d v₂ b₂ ∨
      regOffset d v₂ b₂ + d.elemTy.bytes ≤ regOffset d v₁ b₁ := by
  unfold regOffset
  rcases Nat.lt_or_gt_of_ne h with hlt | hlt
  · have := Nat.mul_le_mul_right d.elemTy.bytes (show regIndex d v₁ b₁ + 1 ≤ _ from hlt)
    rw [Nat.add_mul] at this
    omega
  · have := Nat.mul_le_mul_right d.elemTy.bytes (show regIndex d v₂ b₂ + 1 ≤ _ from hlt)
    rw [Nat.add_mul] at this
    omega

/-- **Soundness of `NoAlias`** for an indexed and a plain access: they are disjoint,
whatever the index. -/
theorem getAliasingRelationIC_noAlias {offset : Nat} {ty : IRType}
    (h : getAliasingRelationIC d ix offset ty = .ok .NoAlias) :
    d.base + d.nElems * d.elemTy.bytes ≤ offset ∨ offset + ty.bytes ≤ d.base := by
  simp only [getAliasingRelationIC, bind_eq_ok, pure_eq_ok, Prod.exists] at h
  obtain ⟨lo, hi, hbounds, sz, hsz, hres⟩ := h
  obtain ⟨rfl, rfl, -, -, -⟩ := getArrayBounds_ok hbounds
  obtain ⟨rfl, -, -⟩ := sizeofIRType_eq_ok hsz
  split at hres
  · omega
  · cases hres

/-- What `getAliasingRelation_II` has found out when it says more than `UnknownAlias`. -/
theorem getAliasingRelationII_cases {a : GSAliasing}
    (h : getAliasingRelationII d₁ ix₁ b₁ d₂ ix₂ b₂ = .ok a) :
    (a = .NoAlias ∧ (d₁.base + d₁.nElems * d₁.elemTy.bytes ≤ d₂.base ∨
      d₂.base + d₂.nElems * d₂.elemTy.bytes ≤ d₁.base)) ∨
    a = .UnknownAlias ∨
    (d₁ = d₂ ∧ eqIRAtom ix₁ ix₂ = .ok true ∧
      a = if b₁ % d₁.nElems = b₂ % d₁.nElems then .ExactAlias else .NoAlias) := by
  simp only [getAliasingRelationII, bind_eq_ok, Prod.exists] at h
  obtain ⟨lo₁, hi₁, hb₁, lo₂, hi₂, hb₂, h⟩ := h
  obtain ⟨rfl, rfl, hle₁, -, -⟩ := getArrayBounds_ok hb₁
  obtain ⟨rfl, rfl, hle₂, -, -⟩ := getArrayBounds_ok hb₂
  split at h
  · exact .inl ⟨(pure_eq_ok.mp h).symm, by omega⟩
  split at h
  · exact .inr (.inl (pure_eq_ok.mp h).symm)
  rename_i heq
  simp only [bind_eq_ok, assertThat_eq_ok] at h
  obtain ⟨-, -, -, -, same, hsame, h⟩ := h
  split at h
  · exact .inr (.inl (pure_eq_ok.mp h).symm)
  rename_i hsame'
  simp only [bind_eq_ok, pure_eq_ok, Prod.exists] at h
  obtain ⟨c₁, c₂, hc, rfl⟩ := h
  obtain ⟨h₁, h₂⟩ := normaliseBiases_emod hc
  refine .inr (.inr ⟨eqIRRegArray_iff.mp (by simpa using heq), ?_, by rw [h₁, h₂]⟩)
  rw [hsame, Bool.eq_true_of_not_eq_false hsame']

/-- **Soundness of `NoAlias`** for two indexed accesses: for every value of the common
index they are disjoint. -/
theorem getAliasingRelationII_noAlias (v₁ v₂ : Val)
    (h : getAliasingRelationII d₁ ix₁ b₁ d₂ ix₂ b₂ = .ok .NoAlias)
    (hix : eqIRAtom ix₁ ix₂ = .ok true → v₁ = v₂) :
    regOffset d₁ v₁ b₁ + d₁.elemTy.bytes ≤ regOffset d₂ v₂ b₂ ∨
      regOffset d₂ v₂ b₂ + d₂.elemTy.bytes ≤ regOffset d₁ v₁ b₁ := by
  rcases getAliasingRelationII_cases h with ⟨-, hdisj⟩ | hunknown | ⟨rfl, hatom, hmod⟩
  · obtain ⟨hlo₁, hhi₁⟩ := regOffset_bounds d₁ v₁ b₁
    obtain ⟨hlo₂, hhi₂⟩ := regOffset_bounds d₂ v₂ b₂
    omega
  · exact nomatch hunknown
  · obtain rfl := hix hatom
    split at hmod
    · exact nomatch hmod
    · rename_i hne
      exact regOffset_disjoint d₁ fun heq => hne ((regIndex_eq_iff d₁ v₁).mp heq)

/-- **Soundness of `ExactAlias`**: for every value of the common index the two accesses
are to the same bytes. -/
theorem getAliasingRelationII_exactAlias (v₁ v₂ : Val)
    (h : getAliasingRelationII d₁ ix₁ b₁ d₂ ix₂ b₂ = .ok .ExactAlias)
    (hix : eqIRAtom ix₁ ix₂ = .ok true → v₁ = v₂) :
    d₁ = d₂ ∧ regOffset d₁ v₁ b₁ = regOffset d₂ v₂ b₂ := by
  rcases getAliasingRelationII_cases h with ⟨hno, -⟩ | hunknown | ⟨rfl, hatom, hmod⟩
  · exact nomatch hno
  · exact nomatch hunknown
  · obtain rfl := hix hatom
    split at hmod
    · rename_i heq
      refine ⟨rfl, ?_⟩
      rw [regOffset, regOffset, (regIndex_eq_iff d₁ v₁).mpr heq]
    · exact nomatch hmod

/-- A register array whose elements have a size fits into 16-bit offsets. -/
theorem getArrayBounds_returns {sz : Nat} (h : sizeofIRType d.elemTy = .ok sz) :
    ∃ lo hi, getArrayBounds d = .ok (lo, hi) := by
  obtain ⟨rfl, -, hpos⟩ := sizeofIRType_eq_ok h
  have hbase := d.base_le
  have hlo : 1 ≤ d.nElems * d.elemTy.bytes := Nat.mul_pos d.nElems_pos hpos
  have hhi : d.nElems * d.elemTy.bytes ≤ 500 * 16 := Nat.mul_le_mul d.nElems_le d.elemTy.bytes_le
  refine ⟨d.base, d.base + d.nElems * d.elemTy.bytes - 1, ?_⟩
  simp only [getArrayBounds, h, ok_bind]
  rw [assertThat_of (show d.base < 0x10000 by omega),
    assertThat_of (show d.base + d.nElems * d.elemTy.bytes - 1 < 0x10000 by omega),
    assertThat_of (show d.base ≤ d.base + d.nElems * d.elemTy.bytes - 1 by omega)]
  rfl

/-- The only atom that equals a temporary is the temporary. -/
theorem eqIRAtom_rdTmp {t : IRTemp} (h : eqIRAtom (.rdTmp t) ix = .ok true) : ix = .rdTmp t := by
  simp only [eqIRAtom, bind_eq_ok, assertThat_eq_ok] at h
  obtain ⟨-, -, -, -, h⟩ := h
  split at h
  · rename_i heq
    cases heq
    rw [eq_of_beq (pure_eq_ok.mp h)]
  · rename_i heq
    cases heq
  · cases h

theorem eqIRAtom_returns (h₁ : ix₁.isIRAtom = true) (h₂ : ix₂.isIRAtom = true) :
    ∃ same, eqIRAtom ix₁ ix₂ = .ok same := by
  unfold eqIRAtom
  rw [assertThat_of h₁, assertThat_of h₂]
  cases ix₁ <;> cases ix₂ <;> exact ⟨_, rfl⟩

theorem getAliasingRelationIC_returns {sz sz' : Nat} {ty : IRType} (ix : IRExpr) (offset : Nat)
    (h : sizeofIRType d.elemTy = .ok sz) (hty : sizeofIRType ty = .ok sz') :
    ∃ a, getAliasingRelationIC d ix offset ty = .ok a := by
  obtain ⟨lo, hi, hb⟩ := getArrayBounds_returns h
  rw [getAliasingRelationIC, hb, ok_bind, hty]
  exact ⟨_, rfl⟩

/-- `getAliasingRelation_II` returns on atoms if the elements have a size and no bias is
smaller than minus ten times the number of elements. -/
theorem getAliasingRelationII_returns {sz₁ sz₂ : Nat} (h₁ : sizeofIRType d₁.elemTy = .ok sz₁)
    (h₂ : sizeofIRType d₂.elemTy = .ok sz₂) (ha₁ : ix₁.isIRAtom = true) (ha₂ : ix₂.isIRAtom = true)
    (hb₁ : -10 * (d₁.nElems : Int) ≤ b₁) (hb₂ : -10 * (d₂.nElems : Int) ≤ b₂) :
    ∃ a, getAliasingRelationII d₁ ix₁ b₁ d₂ ix₂ b₂ = .ok a := by
  obtain ⟨lo₁, hi₁, hbd₁⟩ := getArrayBounds_returns h₁
  obtain ⟨lo₂, hi₂, hbd₂⟩ := getArrayBounds_returns h₂
  obtain ⟨same, hsame⟩ := eqIRAtom_returns ha₁ ha₂
  rw [getAliasingRelationII, hbd₁, hbd₂]
  simp only [ok_bind]
  split
  · exact ⟨_, rfl⟩
  split
  · exact ⟨_, rfl⟩
  rename_i heq
  obtain rfl : d₁ = d₂ := eqIRRegArray_iff.mp (by simpa using heq)
  rw [assertThat_of ha₁, assertThat_of ha₂, hsame]
  simp only [ok_bind]
  split
  · exact ⟨_, rfl⟩
  obtain ⟨c₁, c₂, hc⟩ := normaliseBiases_returns 10 hb₁ hb₂
  rw [hc]
  exact ⟨_, rfl⟩

end

/-- What the statement reads from or writes to the guest state has a size, and a bias is
no smaller than minus ten times the number of elements. -/
def AccessFits (tyenv : IRTypeEnv) : IRStmt → Prop
  | .wrTmp _ (.get _ ty) => ∃ sz, sizeofIRType ty = .ok sz
  | .wrTmp _ (.getI descr _ bias) =>
    (∃ sz, sizeofIRType descr.elemTy = .ok sz) ∧ -10 * (descr.nElems : Int) ≤ bias
  | .put _ data => ∃ sz, sizeofIRType (data.tyIn tyenv) = .ok sz
  | .putI descr _ bias _ =>
    (∃ sz, sizeofIRType descr.elemTy = .ok sz) ∧ -10 * (descr.nElems : Int) ≤ bias
  | _ => True

end Valgrind.Vex
