import Valgrind.Basics.Result

/-!
# Shadow values (`hg_main.c`, 862–998)

The 32-bit words that helgrind keeps for each byte of memory. The two topmost bits say which
kind a word is; a shared state holds the identifiers of a thread set and of a lock set below
them, an exclusive state the identifier of a segment.

What a `mk_SHVAL_` function puts into a word the `un_SHVAL_` functions take out again.
-/

namespace Valgrind

namespace Helgrind

/-- `SegmentID`. -/
abbrev SegmentID := Nat

/-- `is_sane_SegmentID`. -/
def isSaneSegmentID (tseg : SegmentID) : Prop := tseg ≥ 0x1000000 ∧ tseg ≤ 0x1FFFFFF

instance (tseg : SegmentID) : Decidable (isSaneSegmentID tseg) :=
  inferInstanceAs (Decidable (_ ∧ _))

/-- `SVal`: a `UInt`. -/
abbrev SVal := Nat

/-- `N_LSID_BITS`. -/
def nLsidBits : Nat := 17

/-- `N_LSID_MASK`. -/
def nLsidMask : Nat := 1 <<< nLsidBits - 1

/-- `N_LSID_SHIFT`. -/
def nLsidShift : Nat := 0

/-- `N_TSID_BITS`. -/
def nTsidBits : Nat := 30 - nLsidBits

/-- `N_TSID_MASK`. -/
def nTsidMask : Nat := 1 <<< nTsidBits - 1

/-- `N_TSID_SHIFT`. -/
def nTsidShift : Nat := nLsidBits

/-- `is_sane_WordSetID_LSet`. -/
def isSaneWordSetIDLSet (wset : Nat) : Prop := wset ≤ nLsidMask

/-- `is_sane_WordSetID_TSet`. -/
def isSaneWordSetIDTSet (wset : Nat) : Prop := wset ≤ nTsidMask

instance (wset : Nat) : Decidable (isSaneWordSetIDLSet wset) := inferInstanceAs (Decidable (_ ≤ _))

instance (wset : Nat) : Decidable (isSaneWordSetIDTSet wset) := inferInstanceAs (Decidable (_ ≤ _))

/-- `mk_SHVAL_fail`: the identifiers that a word has room for are used up. -/
def mkShvalFail : Result SVal := throw .tooLow

/-- `mk_SHVAL_ShM`. -/
def mkShvalShM (tset lset : Nat) : Result SVal :=
  if isSaneWordSetIDTSet tset ∧ isSaneWordSetIDLSet lset then
    return (3 <<< 30 ||| tset <<< nTsidShift) ||| lset <<< nLsidShift
  else mkShvalFail

/-- `mk_SHVAL_ShR`. -/
def mkShvalShR (tset lset : Nat) : Result SVal :=
  if isSaneWordSetIDTSet tset ∧ isSaneWordSetIDLSet lset then
    return (2 <<< 30 ||| tset <<< nTsidShift) ||| lset <<< nLsidShift
  else mkShvalFail

/-- `mk_SHVAL_Excl`. -/
def mkShvalExcl (tseg : SegmentID) : Result SVal := do
  assertThat (isSaneSegmentID tseg)
  return 1 <<< 30 ||| tseg

/-- `SHVAL_New`. -/
def shvalNew : SVal := 2 <<< 8

/-- `SHVAL_NoAccess`. -/
def shvalNoAccess : SVal := 1 <<< 8

/-- `is_SHVAL_ShM`. -/
def isShvalShM (w32 : SVal) : Prop := w32 >>> 30 = 3

/-- `is_SHVAL_ShR`. -/
def isShvalShR (w32 : SVal) : Prop := w32 >>> 30 = 2

/-- `is_SHVAL_Excl`. -/
def isShvalExcl (w32 : SVal) : Prop := w32 >>> 30 = 1

/-- `is_SHVAL_New`. -/
def isShvalNew (w32 : SVal) : Prop := w32 = shvalNew

/-- `is_SHVAL_NoAccess`. -/
def isShvalNoAccess (w32 : SVal) : Prop := w32 = shvalNoAccess

instance (w32 : SVal) : Decidable (isShvalShM w32) := inferInstanceAs (Decidable (_ = _))

instance (w32 : SVal) : Decidable (isShvalShR w32) := inferInstanceAs (Decidable (_ = _))

instance (w32 : SVal) : Decidable (isShvalExcl w32) := inferInstanceAs (Decidable (_ = _))

instance (w32 : SVal) : Decidable (isShvalNew w32) := inferInstanceAs (Decidable (_ = _))

instance (w32 : SVal) : Decidable (isShvalNoAccess w32) := inferInstanceAs (Decidable (_ = _))

/-- `un_SHVAL_Excl`: `~(3<<30)` are the thirty bits below. -/
def unShvalExcl (w32 : SVal) : Result SegmentID := do
  assertThat (isShvalExcl w32)
  return w32 &&& 2 ^ 30 - 1

/-- The thread set of a word in a shared state. -/
def tsetField (w32 : SVal) : Nat := w32 >>> nTsidShift &&& nTsidMask

/-- The lock set of a word in a shared state. -/
def lsetField (w32 : SVal) : Nat := w32 >>> nLsidShift &&& nLsidMask

/-- `un_SHVAL_ShR_tset`. -/
def unShvalShRTset (w32 : SVal) : Result Nat := do
  assertThat (isShvalShR w32)
  return tsetField w32

/-- `un_SHVAL_ShR_lset`. -/
def unShvalShRLset (w32 : SVal) : Result Nat := do
  assertThat (isShvalShR w32)
  return lsetField w32

/-- `un_SHVAL_ShM_tset`. -/
def unShvalShMTset (w32 : SVal) : Result Nat := do
  assertThat (isShvalShM w32)
  return tsetField w32

/-- `un_SHVAL_ShM_lset`. -/
def unShvalShMLset (w32 : SVal) : Result Nat := do
  assertThat (isShvalShM w32)
  return lsetField w32

/-! ## What goes in comes out -/

section Encoding

variable {k tset lset tseg : Nat}

/-- A word in a shared state, as a number. -/
theorem shared_word (ht : isSaneWordSetIDTSet tset) (hl : isSaneWordSetIDLSet lset) :
    (k <<< 30 ||| tset <<< nTsidShift) ||| lset <<< nLsidShift = k * 2 ^ 30 + tset * 2 ^ 17 + lset := by
  have ht' : tset < 2 ^ 13 := Nat.lt_succ_of_le ht
  have hl' : lset < 2 ^ 17 := Nat.lt_succ_of_le hl
  have htop : k <<< 30 ||| tset <<< 17 = (k * 2 ^ 13 + tset) <<< 17 := by
    have hshift : tset <<< 17 < 2 ^ 30 := by
      rw [Nat.shiftLeft_eq]
      omega
    rw [← Nat.shiftLeft_add_eq_or_of_lt hshift]
    simp only [Nat.shiftLeft_eq]
    ring
  show (k <<< 30 ||| tset <<< 17) ||| lset <<< 0 = _
  rw [htop, Nat.shiftLeft_zero, ← Nat.shiftLeft_add_eq_or_of_lt hl']
  simp only [Nat.shiftLeft_eq]
  ring

theorem shared_kind (ht : isSaneWordSetIDTSet tset) (hl : isSaneWordSetIDLSet lset) :
    ((k <<< 30 ||| tset <<< nTsidShift) ||| lset <<< nLsidShift) >>> 30 = k := by
  have ht' : tset < 2 ^ 13 := Nat.lt_succ_of_le ht
  have hl' : lset < 2 ^ 17 := Nat.lt_succ_of_le hl
  rw [shared_word ht hl, Nat.shiftRight_eq_div_pow]
  omega

theorem tsetField_shared (ht : isSaneWordSetIDTSet tset) (hl : isSaneWordSetIDLSet lset) :
    tsetField ((k <<< 30 ||| tset <<< nTsidShift) ||| lset <<< nLsidShift) = tset := by
  have ht' : tset < 2 ^ 13 := Nat.lt_succ_of_le ht
  have hl' : lset < 2 ^ 17 := Nat.lt_succ_of_le hl
  show _ >>> 17 &&& 2 ^ 13 - 1 = _
  rw [shared_word ht hl, Nat.shiftRight_eq_div_pow, Nat.and_two_pow_sub_one_eq_mod]
  omega

theorem lsetField_shared (ht : isSaneWordSetIDTSet tset) (hl : isSaneWordSetIDLSet lset) :
    lsetField ((k <<< 30 ||| tset <<< nTsidShift) ||| lset <<< nLsidShift) = lset := by
  have hl' : lset < 2 ^ 17 := Nat.lt_succ_of_le hl
  show _ >>> 0 &&& 2 ^ 17 - 1 = _
  rw [shared_word ht hl, Nat.shiftRight_zero, Nat.and_two_pow_sub_one_eq_mod]
  omega

theorem excl_word (h : isSaneSegmentID tseg) : 1 <<< 30 ||| tseg = 2 ^ 30 + tseg := by
  have hlt : tseg < 2 ^ 30 := h.2.trans_lt (by decide)
  rw [← Nat.shiftLeft_add_eq_or_of_lt hlt]
  rfl

end Encoding

/-! ## Words by what they say -/

/-- What a word says. -/
inductive Shadow where
  | noAccess
  | new
  | excl (tseg : SegmentID)
  | shR (tset lset : Nat)
  | shM (tset lset : Nat)
  deriving DecidableEq

/-- The word says what the second argument is. -/
def Says (w32 : SVal) : Shadow → Prop
  | .noAccess => w32 = shvalNoAccess
  | .new => w32 = shvalNew
  | .excl tseg => isSaneSegmentID tseg ∧ w32 = 1 <<< 30 ||| tseg
  | .shR tset lset => mkShvalShR tset lset = .ok w32
  | .shM tset lset => mkShvalShM tset lset = .ok w32

section Says

variable {w32 : SVal} {tseg tset lset : Nat}

theorem says_mkShvalExcl (h : isSaneSegmentID tseg) :
    ∃ w32, mkShvalExcl tseg = .ok w32 ∧ Says w32 (.excl tseg) := by
  rw [mkShvalExcl, assertThat_of h]
  exact ⟨_, rfl, h, rfl⟩

/-- A shared state is made, or the identifiers are used up. -/
theorem says_mkShvalShR (tset lset : Nat) :
    (∃ w32, mkShvalShR tset lset = .ok w32 ∧ Says w32 (.shR tset lset)) ∨ mkShvalShR tset lset = .error .tooLow := by
  by_cases hsane : isSaneWordSetIDTSet tset ∧ isSaneWordSetIDLSet lset
  · exact .inl ⟨_, if_pos hsane, if_pos hsane⟩
  · exact .inr (if_neg hsane)

theorem says_mkShvalShM (tset lset : Nat) :
    (∃ w32, mkShvalShM tset lset = .ok w32 ∧ Says w32 (.shM tset lset)) ∨ mkShvalShM tset lset = .error .tooLow := by
  by_cases hsane : isSaneWordSetIDTSet tset ∧ isSaneWordSetIDLSet lset
  · exact .inl ⟨_, if_pos hsane, if_pos hsane⟩
  · exact .inr (if_neg hsane)

theorem Says.new_kind (h : Says w32 .new) : w32 >>> 30 = 0 := by
  rw [show w32 = shvalNew from h]
  rfl

theorem Says.excl_kind (h : Says w32 (.excl tseg)) : w32 >>> 30 = 1 := by
  obtain ⟨hsane, rfl⟩ := h
  have hlt : tseg < 2 ^ 30 := hsane.2.trans_lt (by decide)
  rw [excl_word hsane, Nat.shiftRight_eq_div_pow]
  exact Nat.div_eq_of_lt_le (by omega) (by omega)

theorem Says.unExcl (h : Says w32 (.excl tseg)) : unShvalExcl w32 = .ok tseg := by
  have hkind : isShvalExcl w32 := h.excl_kind
  rw [unShvalExcl, assertThat_of hkind, ok_bind]
  obtain ⟨hsane, rfl⟩ := h
  have hlt : tseg < 2 ^ 30 := hsane.2.trans_lt (by decide)
  refine congrArg Except.ok ?_
  rw [excl_word hsane, Nat.and_two_pow_sub_one_eq_mod, Nat.add_mod_left, Nat.mod_eq_of_lt hlt]

/-- The word and the bounds behind `mk_SHVAL_ShR`. -/
theorem Says.shR_eq (h : Says w32 (.shR tset lset)) :
    isSaneWordSetIDTSet tset ∧ isSaneWordSetIDLSet lset ∧
      w32 = (2 <<< 30 ||| tset <<< nTsidShift) ||| lset <<< nLsidShift := by
  have hmk : mkShvalShR tset lset = .ok w32 := h
  unfold mkShvalShR at hmk
  split at hmk
  · next hsane => exact ⟨hsane.1, hsane.2, (Except.ok.inj hmk).symm⟩
  · exact nomatch hmk

theorem Says.shM_eq (h : Says w32 (.shM tset lset)) :
    isSaneWordSetIDTSet tset ∧ isSaneWordSetIDLSet lset ∧
      w32 = (3 <<< 30 ||| tset <<< nTsidShift) ||| lset <<< nLsidShift := by
  have hmk : mkShvalShM tset lset = .ok w32 := h
  unfold mkShvalShM at hmk
  split at hmk
  · next hsane => exact ⟨hsane.1, hsane.2, (Except.ok.inj hmk).symm⟩
  · exact nomatch hmk

theorem Says.shR_kind (h : Says w32 (.shR tset lset)) : w32 >>> 30 = 2 := by
  obtain ⟨ht, hl, rfl⟩ := h.shR_eq
  exact shared_kind ht hl

theorem Says.shM_kind (h : Says w32 (.shM tset lset)) : w32 >>> 30 = 3 := by
  obtain ⟨ht, hl, rfl⟩ := h.shM_eq
  exact shared_kind ht hl

theorem Says.unShR (h : Says w32 (.shR tset lset)) :
    unShvalShRTset w32 = .ok tset ∧ unShvalShRLset w32 = .ok lset := by
  have hkind : isShvalShR w32 := h.shR_kind
  rw [unShvalShRTset, unShvalShRLset, assertThat_of hkind]
  obtain ⟨ht, hl, rfl⟩ := h.shR_eq
  exact ⟨congrArg Except.ok (tsetField_shared ht hl), congrArg Except.ok (lsetField_shared ht hl)⟩

theorem Says.unShM (h : Says w32 (.shM tset lset)) :
    unShvalShMTset w32 = .ok tset ∧ unShvalShMLset w32 = .ok lset := by
  have hkind : isShvalShM w32 := h.shM_kind
  rw [unShvalShMTset, unShvalShMLset, assertThat_of hkind]
  obtain ⟨ht, hl, rfl⟩ := h.shM_eq
  exact ⟨congrArg Except.ok (tsetField_shared ht hl), congrArg Except.ok (lsetField_shared ht hl)⟩

end Says

end Helgrind

end Valgrind
