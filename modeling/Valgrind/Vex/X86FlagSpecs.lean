import Valgrind.Vex.X86Flags

/-!
# The flags of the architecture

What the instructions of IA-32 do to the flags, stated with the operands as numbers, and the
proof that the flag thunk gives the same.
-/

namespace Valgrind.Vex.X86

/-! ## The flags -/

/-- The arithmetic flags. -/
structure Flags where
  c : Bool
  p : Bool
  a : Bool
  z : Bool
  s : Bool
  o : Bool
  deriving DecidableEq, Repr

/-- A flag at its place. -/
def flag (b : Bool) (shift : Nat) : BitVec 32 := ofCmp b <<< shift

/-- The flags at their places in `%eflags`; all other bits are zero. -/
def Flags.eflags (f : Flags) : BitVec 32 :=
  flag f.c 0 ||| flag f.p 2 ||| flag f.a 4 ||| flag f.z 6 ||| flag f.s 7 ||| flag f.o 11

/-- The least significant byte has an even number of ones. -/
def parity {w : Nat} (r : BitVec w) : Bool := (List.range 8).countP (fun i => r.getLsbD i) % 2 = 0

/-- The number is not one of a signed word of `w` bits. -/
def Overflows (w : Nat) (n : Int) : Prop := n < -2 ^ (w - 1) ∨ 2 ^ (w - 1) ≤ n

instance (w : Nat) (n : Int) : Decidable (Overflows w n) := inferInstanceAs (Decidable (_ ∨ _))

/-- The instructions that set flags, with their operands at width `w`; a `carry` is the flag
before. The shifts and rotates are by a count that is not zero. -/
inductive Operation (w : Nat) where
  | add (x y : BitVec w)
  | sub (x y : BitVec w)
  | adc (x y : BitVec w) (carry : Bool)
  | sbb (x y : BitVec w) (carry : Bool)
  | logic (result : BitVec w)
  | inc (x : BitVec w) (carry : Bool)
  | dec (x : BitVec w) (carry : Bool)
  | shl (x : BitVec w) (count : Nat)
  | shr (x : BitVec w) (count : Nat)
  | sar (x : BitVec w) (count : Nat)
  | rol (x : BitVec w) (count : Nat) (old : Flags)
  | ror (x : BitVec w) (count : Nat) (old : Flags)
  | umul (x y : BitVec w)
  | smul (x y : BitVec w)

section Spec

variable {w : Nat}

/-- The flags that only depend on the result, with `c`, `a` and `o` given. -/
def ofResult (r : BitVec w) (c a o : Bool) : Flags := ⟨c, parity r, a, r == 0, r.msb, o⟩

/-- A carry as a word. -/
def ofCarry (carry : Bool) : BitVec w := (BitVec.ofBool carry).setWidth w

/-- The flags of `x + y + carry`. -/
def addFlags (x y : BitVec w) (carry : Bool) : Flags :=
  ofResult (x + y + ofCarry carry) (2 ^ w ≤ x.toNat + y.toNat + carry.toNat)
    (16 ≤ x.toNat % 16 + y.toNat % 16 + carry.toNat) (Overflows w (x.toInt + y.toInt + carry.toNat))

/-- The flags of `x - y - carry`. -/
def subFlags (x y : BitVec w) (carry : Bool) : Flags :=
  ofResult (x - y - ofCarry carry) (x.toNat < y.toNat + carry.toNat)
    (x.toNat % 16 < y.toNat % 16 + carry.toNat) (Overflows w (x.toInt - y.toInt - carry.toNat))

/-- The flags after the instruction. Where the architecture leaves `a` undefined it is
false, and `o` of shifts and rotates is given as it is for the count 1. -/
def Operation.flags : Operation w → Flags
  | add x y => addFlags x y false
  | sub x y => subFlags x y false
  | adc x y carry => addFlags x y carry
  | sbb x y carry => subFlags x y carry
  | logic result => ofResult result false false false
  | inc x carry => { addFlags x 1 false with c := carry }
  | dec x carry => { subFlags x 1 false with c := carry }
  | shl x count =>
    let c := (x <<< (count - 1)).msb
    ofResult (x <<< count) c false ((x <<< count).msb ^^ c)
  | shr x count => ofResult (x >>> count) ((x >>> (count - 1)).getLsbD 0) false x.msb
  | sar x count => ofResult (x.sshiftRight count) ((x.sshiftRight (count - 1)).getLsbD 0) false false
  | rol x count old =>
    let r := x.rotateLeft count
    { old with c := r.getLsbD 0, o := r.msb ^^ r.getLsbD 0 }
  | ror x count old =>
    let r := x.rotateRight count
    { old with c := r.msb, o := r.msb ^^ r.getLsbD (w - 2) }
  | umul x y =>
    let tooBig := decide (2 ^ w ≤ x.toNat * y.toNat)
    ofResult (x * y) tooBig false tooBig
  | smul x y =>
    let tooBig := decide (Overflows w (x.toInt * y.toInt))
    ofResult (x * y) tooBig false tooBig

/-- The architecture defines `o`. -/
def Operation.DefinesO : Operation w → Prop
  | shl _ count | shr _ count | sar _ count | rol _ count _ | ror _ count _ => count = 1
  | _ => True

/-- The operation of the thunk. -/
def Operation.kind : Operation w → CcKind
  | add .. => .add
  | sub .. => .sub
  | adc .. => .adc
  | sbb .. => .sbb
  | logic .. => .logic
  | inc .. => .inc
  | dec .. => .dec
  | shl .. => .shl
  | shr .. => .shr
  | sar .. => .shr
  | rol .. => .rol
  | ror .. => .ror
  | umul .. => .umul
  | smul .. => .smul

/-- The thunk records the instruction. Only the lower `w` bits of an operand or a result
count. -/
def Operation.Thunk (dep1 dep2 ndep : BitVec 32) : Operation w → Prop
  | add x y | sub x y | umul x y | smul x y => dep1.setWidth w = x ∧ dep2.setWidth w = y
  | adc x y carry | sbb x y carry =>
    dep1.setWidth w = x ∧ (dep2 ^^^ (ndep &&& 1)).setWidth w = y ∧ ndep.getLsbD 0 = carry
  | logic result => dep1.setWidth w = result
  | inc x carry => dep1.setWidth w = x + 1 ∧ ndep.getLsbD 0 = carry
  | dec x carry => dep1.setWidth w = x - 1 ∧ ndep.getLsbD 0 = carry
  | shl x count => 0 < count ∧ dep1.setWidth w = x <<< count ∧ dep2.setWidth w = x <<< (count - 1)
  | shr x count => 0 < count ∧ dep1.setWidth w = x >>> count ∧ dep2.setWidth w = x >>> (count - 1)
  | sar x count =>
    0 < count ∧ dep1.setWidth w = x.sshiftRight count ∧ dep2.setWidth w = x.sshiftRight (count - 1)
  | rol x count old => 0 < count ∧ dep1.setWidth w = x.rotateLeft count ∧ ndep = old.eflags
  | ror x count old => 0 < count ∧ dep1.setWidth w = x.rotateRight count ∧ ndep = old.eflags

end Spec

/-! ## Each flag -/

section EachFlag

/-- A bit of a word as a flag. -/
theorem and_bit (x : BitVec 32) (k : Nat) : x &&& (1#32 <<< k) = flag (x.getLsbD k) k := by
  rw [← BitVec.twoPow_eq, BitVec.and_twoPow, flag, ofCmp]
  cases x.getLsbD k with
  | false => simp
  | true => simp [BitVec.twoPow_eq]

variable {bits : Nat}

/-- The three widths. -/
theorem CcWidth.bits_cases (width : CcWidth) : width.bits = 8 ∨ width.bits = 16 ∨ width.bits = 32 := by
  cases width with
  | b => exact .inl rfl
  | w => exact .inr (.inl rfl)
  | l => exact .inr (.inr rfl)

/-- `lshift` takes bit `j` of a word to bit `k`. -/
theorem getLsbD_lshift (x : BitVec 32) {n : Int} {j k : Nat} (hn : n = k - j) (hj : j < 32) (hk : k < 32) :
    (lshift x n).getLsbD k = x.getLsbD j := by
  rw [lshift]
  by_cases hle : j ≤ k
  · rw [if_pos (by omega), BitVec.getLsbD_shiftLeft, show n.toNat = k - j by omega, show k - (k - j) = j by omega]
    simp [hk, show ¬ k < k - j by omega]
  · rw [if_neg (by omega), BitVec.getLsbD_sshiftRight, show (-n).toNat = j - k by omega,
      show j - k + k = j by omega]
    simp [hj, show ¬ 32 ≤ k by omega]

/-- The sign bit of a narrow word, at bit `k`. -/
theorem lshift_and (x : BitVec 32) (hbits : bits = 8 ∨ bits = 16 ∨ bits = 32) {n : Int} {k : Nat}
    (hn : n = k - (bits - 1)) (hk : k < 32) : lshift x n &&& (1#32 <<< k) = flag (x.setWidth bits).msb k := by
  have hj : n = k - (bits - 1 : Nat) := by omega
  rw [and_bit, getLsbD_lshift x hj (by omega) hk, BitVec.msb_setWidth]
  simp [show 0 < bits by omega]

theorem parityTable_eq :
    parityTable = (List.range 256).map fun n => flag (parity (BitVec.ofNat 8 n)) 2 := by
  decide +kernel

theorem parityEntry_flag (b : BitVec 8) : parityEntry b = flag (parity b) 2 := by
  have hb : b.toNat < 256 := b.isLt
  rw [parityEntry, parityTable_eq, List.getD_eq_getElem?_getD, List.getElem?_map, List.getElem?_range hb]
  simp

theorem parityEntry_eq (x : BitVec 32) (hbits : 8 ≤ bits) :
    parityEntry (x.setWidth 8) = flag (parity (x.setWidth bits)) 2 := by
  have hcount : (List.range 8).countP (fun i => (x.setWidth 8).getLsbD i) =
      (List.range 8).countP fun i => (x.setWidth bits).getLsbD i := by
    refine List.countP_congr fun i hi => ?_
    have hi : i < 8 := List.mem_range.mp hi
    simp [hi, show i < bits by omega]
  rw [parityEntry_flag, parity, hcount, parity]

/-- The last steps of most operations: the three flags of the result `x` are joined to the
others. -/
theorem assemble (x : BitVec 32) (hbits : bits = 8 ∨ bits = 16 ∨ bits = 32) {cf af of : BitVec 32}
    {c a o : Bool} (hc : cf = flag c 0) (ha : af = flag a 4) (ho : of = flag o 11) :
    cf ||| parityEntry (x.setWidth 8) ||| af ||| ofCmp (x.setWidth bits == 0) <<< 6 |||
      (lshift x (8 - bits) &&& 0x80#32) ||| of = (ofResult (x.setWidth bits) c a o).eflags := by
  have hs : lshift x (8 - bits) &&& (1#32 <<< 7) = flag (x.setWidth bits).msb 7 :=
    lshift_and x hbits (by omega) (by decide)
  rw [show 0x80#32 = 1#32 <<< 7 from rfl, hs, parityEntry_eq x (by omega : 8 ≤ bits), hc, ha, ho]
  rfl

/-! ### Carry, adjust and overflow -/

variable {w : Nat}

/-- A carry as a word. -/
theorem toNat_ofCarry (hw : 0 < w) (carry : Bool) : (ofCarry carry : BitVec w).toNat = carry.toNat := by
  have h1 : 1 < 2 ^ w := Nat.one_lt_two_pow (by omega)
  cases carry with
  | false => simp [ofCarry]
  | true => simp [ofCarry, Nat.mod_eq_of_lt h1]

theorem ult_add (x y : BitVec w) : (x + y).ult x = decide (2 ^ w ≤ x.toNat + y.toNat) := by
  have hx := x.isLt
  have hy := y.isLt
  rw [BitVec.ult, BitVec.toNat_add, Bool.eq_iff_iff, decide_eq_true_iff, decide_eq_true_iff]
  by_cases h : 2 ^ w ≤ x.toNat + y.toNat
  · rw [Nat.mod_eq_sub_mod h, Nat.mod_eq_of_lt (by omega)]
    omega
  · rw [Nat.mod_eq_of_lt (by omega)]
    omega

theorem ule_add (hw : 0 < w) (x y : BitVec w) :
    (x + y + ofCarry true).ule x = decide (2 ^ w ≤ x.toNat + y.toNat + 1) := by
  have hx := x.isLt
  have hy := y.isLt
  have h1 : 1 < 2 ^ w := Nat.one_lt_two_pow (by omega)
  rw [BitVec.ule, BitVec.toNat_add, BitVec.toNat_add, toNat_ofCarry hw, Nat.mod_add_mod, Bool.eq_iff_iff,
    decide_eq_true_iff, decide_eq_true_iff]
  by_cases h : 2 ^ w ≤ x.toNat + y.toNat + 1
  · rw [Bool.toNat_true, Nat.mod_eq_sub_mod h]
    have hle := Nat.mod_le (x.toNat + y.toNat + 1 - 2 ^ w) (2 ^ w)
    omega
  · rw [Bool.toNat_true, Nat.mod_eq_of_lt (by omega)]
    omega

/-- The adjust flag of an addition is the carry into bit 4. -/
theorem adjust_add (x y : BitVec 32) (carry : Bool) :
    ((x + y + ofCarry carry) ^^^ x ^^^ y).getLsbD 4 =
      decide (16 ≤ x.toNat % 16 + y.toNat % 16 + carry.toNat) := by
  rw [BitVec.getLsbD_xor, BitVec.getLsbD_xor, ofCarry, BitVec.getLsbD_add_add_bool (by decide)]
  rw [show BitVec.carry 4 x y carry = decide (16 ≤ x.toNat % 16 + y.toNat % 16 + carry.toNat) from rfl]
  cases x.getLsbD 4 <;> cases y.getLsbD 4 <;> simp

/-- The adjust flag of a subtraction is the borrow out of bit 3. -/
theorem adjust_sub (x y : BitVec 32) (carry : Bool) :
    ((x - y - ofCarry carry) ^^^ x ^^^ y).getLsbD 4 =
      decide (x.toNat % 16 < y.toNat % 16 + carry.toNat) := by
  obtain ⟨d, hd⟩ : ∃ d, d = x - y - ofCarry carry := ⟨_, rfl⟩
  have hx : x = d + y + ofCarry carry := by
    rw [hd]
    bv_omega
  have hmod : x.toNat % 16 = (d.toNat % 16 + y.toNat % 16 + carry.toNat) % 16 := by
    rw [hx, BitVec.toNat_add, BitVec.toNat_add, toNat_ofCarry (by decide)]
    omega
  have hbit : (d ^^^ x ^^^ y).getLsbD 4 = (x ^^^ d ^^^ y).getLsbD 4 := by
    rw [BitVec.xor_comm d x]
  rw [← hd, hbit]
  nth_rewrite 1 [hx]
  rw [adjust_add, Bool.eq_iff_iff, decide_eq_true_iff, decide_eq_true_iff, hmod]
  have hc : carry.toNat ≤ 1 := Bool.toNat_le carry
  omega

/-- `h` and `2 * h` stand for `2 ^ (w - 1)` and `2 ^ w`; the sign and the signed value are
given by them. -/
theorem exists_half (hw : 0 < w) : ∃ h : Nat, 2 ^ (w - 1) = h ∧ 0 < h ∧ 2 ^ w = 2 * h ∧
    (∀ b : BitVec w, b.msb = decide (h ≤ b.toNat)) ∧
    (∀ b : BitVec w, b.toNat < h ∧ b.toInt = b.toNat ∨ h ≤ b.toNat ∧ b.toInt = b.toNat - 2 * h) ∧
    ∀ n : Int, Overflows w n ↔ n < -h ∨ h ≤ n := by
  have hpow : 2 ^ w = 2 * 2 ^ (w - 1) := by
    obtain ⟨n, rfl⟩ : ∃ n, w = n + 1 := ⟨w - 1, by omega⟩
    rw [Nat.add_sub_cancel, Nat.pow_succ, Nat.mul_comm]
  refine ⟨2 ^ (w - 1), rfl, Nat.pow_pos (by decide), hpow, fun b => BitVec.msb_eq_decide b, fun b => ?_, fun n => ?_⟩
  · rw [BitVec.toInt_eq_toNat_cond, hpow]
    split
    · exact .inl ⟨by omega, rfl⟩
    · exact .inr ⟨by omega, by push_cast; rfl⟩
  · simp [Overflows]

/-- The operands have the same sign, and the sum another. -/
theorem overflow_add (hw : 0 < w) (x y : BitVec w) (carry : Bool) :
    ((x.msb ^^ y.msb ^^ true) && (x.msb ^^ (x + y + ofCarry carry).msb)) =
      decide (Overflows w (x.toInt + y.toInt + carry.toNat)) := by
  have hc := Bool.toNat_le carry
  obtain ⟨h, -, hpos, hpow, hmsb, hint, hover⟩ := exists_half hw
  obtain ⟨r, hr⟩ : ∃ r, r = x + y + ofCarry carry := ⟨_, rfl⟩
  have hsum : r.toNat = x.toNat + y.toNat + carry.toNat ∨ r.toNat + 2 * h = x.toNat + y.toNat + carry.toNat := by
    have hx := x.isLt
    have hy := y.isLt
    rw [hr, BitVec.toNat_add, BitVec.toNat_add, toNat_ofCarry hw, Nat.mod_add_mod, hpow]
    rw [hpow] at hx hy
    rcases Nat.lt_or_ge (x.toNat + y.toNat + carry.toNat) (2 * h) with hlt | hge
    · exact .inl (Nat.mod_eq_of_lt hlt)
    · rw [Nat.mod_eq_sub_mod hge, Nat.mod_eq_of_lt (by omega)]
      omega
  have hlt := r.isLt
  rw [hpow] at hlt
  rw [← hr, Bool.eq_iff_iff, decide_eq_true_iff, hover, hmsb, hmsb, hmsb]
  have hx := hint x
  have hy := hint y
  by_cases h₁ : h ≤ x.toNat <;> by_cases h₂ : h ≤ y.toNat <;> by_cases h₃ : h ≤ r.toNat <;>
    simp only [h₁, h₂, h₃, decide_true, decide_false] <;> simp <;> omega

/-- A difference as a number: it may wrap around. -/
theorem toNat_sub_cases (hw : 0 < w) (x y : BitVec w) (carry : Bool) :
    (x - y - ofCarry carry).toNat + y.toNat + carry.toNat = x.toNat ∨
      (x - y - ofCarry carry).toNat + y.toNat + carry.toNat = x.toNat + 2 ^ w := by
  have hc := Bool.toNat_le carry
  obtain ⟨r, hr⟩ : ∃ r, r = x - y - ofCarry carry := ⟨_, rfl⟩
  have hback : x = r + y + ofCarry carry := by
    rw [hr, BitVec.add_assoc, BitVec.add_comm y, ← BitVec.add_assoc, BitVec.sub_add_cancel, BitVec.sub_add_cancel]
  have hx := x.isLt
  have hy := y.isLt
  have hlt := r.isLt
  have hnat := congrArg BitVec.toNat hback
  rw [BitVec.toNat_add, BitVec.toNat_add, toNat_ofCarry hw, Nat.mod_add_mod] at hnat
  rw [← hr]
  rcases Nat.lt_or_ge (r.toNat + y.toNat + carry.toNat) (2 ^ w) with hlt' | hge
  · rw [Nat.mod_eq_of_lt hlt'] at hnat
    exact .inl hnat.symm
  · rw [Nat.mod_eq_sub_mod hge, Nat.mod_eq_of_lt (by omega)] at hnat
    omega

/-- The operands have different signs, and the difference another than the first. -/
theorem overflow_sub (hw : 0 < w) (x y : BitVec w) (carry : Bool) :
    ((x.msb ^^ y.msb) && (x.msb ^^ (x - y - ofCarry carry).msb)) =
      decide (Overflows w (x.toInt - y.toInt - carry.toNat)) := by
  have hc := Bool.toNat_le carry
  obtain ⟨h, -, hpos, hpow, hmsb, hint, hover⟩ := exists_half hw
  obtain ⟨r, hr⟩ : ∃ r, r = x - y - ofCarry carry := ⟨_, rfl⟩
  have hsum := toNat_sub_cases hw x y carry
  rw [← hr, hpow] at hsum
  have hlt := r.isLt
  rw [hpow] at hlt
  rw [← hr, Bool.eq_iff_iff, decide_eq_true_iff, hover, hmsb, hmsb, hmsb]
  have hx := hint x
  have hy := hint y
  by_cases h₁ : h ≤ x.toNat <;> by_cases h₂ : h ≤ y.toNat <;> by_cases h₃ : h ≤ r.toNat <;>
    simp only [h₁, h₂, h₃, decide_true, decide_false] <;> simp <;> omega

theorem flag_zero (b : Bool) : flag b 0 = ofCmp b := BitVec.shiftLeft_zero _

theorem and_maskC (x : BitVec 32) : x &&& maskC = flag (x.getLsbD 0) 0 := and_bit x 0

theorem and_maskO (x : BitVec 32) : x &&& maskO = flag (x.getLsbD 11) 11 := and_bit x 11

theorem and_maskC_eq (x : BitVec 32) : x &&& maskC = ofCarry (x.getLsbD 0) := by
  rw [and_maskC, flag_zero]
  rfl

theorem ofCarry_false : (ofCarry false : BitVec w) = 0#w := BitVec.setWidth_zero ..

theorem setWidth_ofCarry (hbits : 0 < bits) (carry : Bool) :
    (ofCarry carry : BitVec 32).setWidth bits = ofCarry carry := by
  apply BitVec.eq_of_toNat_eq
  have h1 : 1 < 2 ^ bits := Nat.one_lt_two_pow (by omega)
  have hc := Bool.toNat_le carry
  rw [BitVec.toNat_setWidth, toNat_ofCarry (by decide), toNat_ofCarry hbits, Nat.mod_eq_of_lt (by omega)]

theorem setWidth_sub (x y : BitVec 32) (hbits : bits ≤ 32) :
    (x - y).setWidth bits = x.setWidth bits - y.setWidth bits := by
  rw [BitVec.sub_eq_add_neg, BitVec.setWidth_add _ _ hbits, BitVec.setWidth_neg_of_le hbits, ← BitVec.sub_eq_add_neg]

/-- The lower four bits of a narrow word. -/
theorem toNat_setWidth_mod (x : BitVec 32) (hbits : 8 ≤ bits) : (x.setWidth bits).toNat % 16 = x.toNat % 16 := by
  rw [BitVec.toNat_setWidth]
  exact Nat.mod_mod_of_dvd _ (Nat.pow_dvd_pow 2 (show 4 ≤ bits by omega))

end EachFlag

/-! ## Each operation -/

section EachOperation

variable {bits : Nat} (hbits : bits = 8 ∨ bits = 16 ∨ bits = 32)

include hbits

/-- The flags of an addition, with the carry flag given. -/
theorem add_flags (argL argR : BitVec 32) (carry : Bool) {cf res : BitVec 32} {c : Bool}
    (hres : res = argL + argR + ofCarry carry) (hc : cf = flag c 0) :
    cf ||| parityEntry (res.setWidth 8) ||| ((res ^^^ argL ^^^ argR) &&& 0x10#32) |||
      ofCmp (res.setWidth bits == 0) <<< 6 ||| (lshift res (8 - bits) &&& 0x80#32) |||
      (lshift ((argL ^^^ argR ^^^ -1#32) &&& (argL ^^^ res)) (12 - bits) &&& maskO) =
    { addFlags (argL.setWidth bits) (argR.setWidth bits) carry with c := c }.eflags := by
  have hle : bits ≤ 32 := by omega
  have htrunc : res.setWidth bits = argL.setWidth bits + argR.setWidth bits + ofCarry carry := by
    rw [hres, BitVec.setWidth_add _ _ hle, BitVec.setWidth_add _ _ hle, setWidth_ofCarry (by omega)]
  have ha : (res ^^^ argL ^^^ argR) &&& 0x10#32 = flag (16 ≤ (argL.setWidth bits).toNat % 16 +
      (argR.setWidth bits).toNat % 16 + carry.toNat) 4 := by
    rw [show 0x10#32 = 1#32 <<< 4 from rfl, and_bit, hres, adjust_add,
      toNat_setWidth_mod _ (by omega), toNat_setWidth_mod _ (by omega)]
  have ho : lshift ((argL ^^^ argR ^^^ -1#32) &&& (argL ^^^ res)) (12 - bits) &&& maskO =
      flag (Overflows bits ((argL.setWidth bits).toInt + (argR.setWidth bits).toInt + carry.toNat)) 11 := by
    have hones : ((-1#32).setWidth bits).msb = true := by
      rcases hbits with rfl | rfl | rfl <;> decide
    rw [maskO, lshift_and _ hbits (by omega) (by decide), ← overflow_add (by omega), ← htrunc, BitVec.setWidth_and,
      BitVec.msb_and, BitVec.setWidth_xor, BitVec.msb_xor, BitVec.setWidth_xor, BitVec.msb_xor, BitVec.setWidth_xor,
      BitVec.msb_xor, hones]
  rw [assemble res hbits hc ha ho, htrunc]
  rfl

/-- The flags of a subtraction, with the carry flag given. -/
theorem sub_flags (argL argR : BitVec 32) (carry : Bool) {cf res : BitVec 32} {c : Bool}
    (hres : res = argL - argR - ofCarry carry) (hc : cf = flag c 0) :
    cf ||| parityEntry (res.setWidth 8) ||| ((res ^^^ argL ^^^ argR) &&& 0x10#32) |||
      ofCmp (res.setWidth bits == 0) <<< 6 ||| (lshift res (8 - bits) &&& 0x80#32) |||
      (lshift ((argL ^^^ argR) &&& (argL ^^^ res)) (12 - bits) &&& maskO) =
    { subFlags (argL.setWidth bits) (argR.setWidth bits) carry with c := c }.eflags := by
  have hle : bits ≤ 32 := by omega
  have htrunc : res.setWidth bits = argL.setWidth bits - argR.setWidth bits - ofCarry carry := by
    rw [hres, setWidth_sub _ _ hle, setWidth_sub _ _ hle, setWidth_ofCarry (by omega)]
  have ha : (res ^^^ argL ^^^ argR) &&& 0x10#32 = flag ((argL.setWidth bits).toNat % 16 <
      (argR.setWidth bits).toNat % 16 + carry.toNat) 4 := by
    rw [show 0x10#32 = 1#32 <<< 4 from rfl, and_bit, hres, adjust_sub,
      toNat_setWidth_mod _ (by omega), toNat_setWidth_mod _ (by omega)]
  have ho : lshift ((argL ^^^ argR) &&& (argL ^^^ res)) (12 - bits) &&& maskO =
      flag (Overflows bits ((argL.setWidth bits).toInt - (argR.setWidth bits).toInt - carry.toNat)) 11 := by
    rw [maskO, lshift_and _ hbits (by omega) (by decide), ← overflow_sub (by omega), ← htrunc, BitVec.setWidth_and,
      BitVec.msb_and, BitVec.setWidth_xor, BitVec.msb_xor, BitVec.setWidth_xor, BitVec.msb_xor]
  rw [assemble res hbits hc ha ho, htrunc]
  rfl

theorem actionsAdd_eq (dep1 dep2 : BitVec 32) :
    actionsAdd bits dep1 dep2 = (addFlags (dep1.setWidth bits) (dep2.setWidth bits) false).eflags := by
  refine add_flags hbits dep1 dep2 false (by rw [ofCarry_false, BitVec.add_zero]) ?_
  rw [BitVec.setWidth_add _ _ (by omega), ult_add, flag_zero]
  rfl

theorem actionsSub_eq (dep1 dep2 : BitVec 32) :
    actionsSub bits dep1 dep2 = (subFlags (dep1.setWidth bits) (dep2.setWidth bits) false).eflags := by
  refine sub_flags hbits dep1 dep2 false (by rw [ofCarry_false, BitVec.sub_zero]) ?_
  rw [flag_zero]
  rfl

theorem actionsAdc_eq (dep1 dep2 ndep : BitVec 32) :
    actionsAdc bits dep1 dep2 ndep =
      (addFlags (dep1.setWidth bits) ((dep2 ^^^ (ndep &&& 1)).setWidth bits) (ndep.getLsbD 0)).eflags := by
  refine add_flags hbits dep1 (dep2 ^^^ (ndep &&& maskC)) (ndep.getLsbD 0) (by rw [← and_maskC_eq]) ?_
  rw [flag_zero, show ndep &&& 1 = ndep &&& maskC from rfl, and_maskC_eq]
  have hle : bits ≤ 32 := by omega
  cases ndep.getLsbD 0 with
  | false =>
    rw [if_neg (by decide), ofCarry_false, BitVec.add_zero, BitVec.setWidth_add _ _ hle, ult_add]
    rfl
  | true =>
    rw [if_pos (by decide), BitVec.setWidth_add _ _ hle, BitVec.setWidth_add _ _ hle, setWidth_ofCarry (by omega),
      ule_add (by omega)]
    rfl

theorem actionsSbb_eq (dep1 dep2 ndep : BitVec 32) :
    actionsSbb bits dep1 dep2 ndep =
      (subFlags (dep1.setWidth bits) ((dep2 ^^^ (ndep &&& 1)).setWidth bits) (ndep.getLsbD 0)).eflags := by
  refine sub_flags hbits dep1 (dep2 ^^^ (ndep &&& maskC)) (ndep.getLsbD 0) (by rw [← and_maskC_eq]) ?_
  rw [flag_zero, show ndep &&& 1 = ndep &&& maskC from rfl, and_maskC_eq]
  cases ndep.getLsbD 0 with
  | false =>
    rw [if_neg (by decide)]
    rfl
  | true =>
    rw [if_pos (by decide), BitVec.ule]
    simp only [Bool.toNat_true, Nat.lt_succ_iff]

theorem actionsLogic_eq (dep1 : BitVec 32) :
    actionsLogic bits dep1 = (ofResult (dep1.setWidth bits) false false false).eflags :=
  assemble dep1 hbits (by decide) (by decide) (by decide)

/-- The least signed number, as a result. -/
theorem res_eq_signMask (res : BitVec 32) {n : Nat} {m : BitVec 32} (hm : m.toNat = n) (hn : n < 2 ^ bits) :
    (res &&& dataMask bits == m) = decide ((res.setWidth bits).toNat = n) := by
  have hmask : (res &&& dataMask bits).toNat = (res.setWidth bits).toNat := by
    rw [BitVec.toNat_and, BitVec.toNat_setWidth]
    rcases hbits with rfl | rfl | rfl
    · exact Nat.and_two_pow_sub_one_eq_mod _ 8
    · exact Nat.and_two_pow_sub_one_eq_mod _ 16
    · exact Nat.and_two_pow_sub_one_eq_mod _ 32
  rw [Bool.eq_iff_iff, beq_iff_eq, decide_eq_true_iff, ← hmask, ← hm]
  exact ⟨fun h => h ▸ rfl, BitVec.eq_of_toNat_eq⟩

omit hbits in
theorem toNat_one (hw : 1 < bits) : (1 : BitVec bits).toNat = 1 :=
  Nat.mod_eq_of_lt (Nat.one_lt_two_pow (by omega))

omit hbits in
/-- Adding one overflows exactly if the result is the least number. -/
theorem overflow_inc (hw : 1 < bits) (x : BitVec bits) :
    decide ((x + 1).toNat = 2 ^ (bits - 1)) = decide (Overflows bits (x.toInt + 1 + 0)) := by
  obtain ⟨h, hhalf, hpos, hpow, -, hint, hover⟩ := exists_half (show 0 < bits by omega)
  have hsum : (x + 1).toNat = x.toNat + 1 ∨ (x + 1).toNat = 0 ∧ x.toNat + 1 = 2 * h := by
    have hx := x.isLt
    rw [BitVec.toNat_add, toNat_one hw]
    rw [hpow] at hx ⊢
    rcases Nat.lt_or_ge (x.toNat + 1) (2 * h) with hlt | hge
    · exact .inl (Nat.mod_eq_of_lt hlt)
    · have heq : x.toNat + 1 = 2 * h := by omega
      exact .inr ⟨by rw [heq, Nat.mod_self], heq⟩
  rw [decide_eq_decide, hover, hhalf]
  have := hint x
  omega

theorem actionsInc_eq (dep1 ndep : BitVec 32) (x : BitVec bits) (hx : dep1.setWidth bits = x + 1) :
    actionsInc bits dep1 ndep = { addFlags x 1 false with c := ndep.getLsbD 0 }.eflags := by
  have hback : dep1 = dep1 - 1#32 + 1#32 + ofCarry false := by
    rw [ofCarry_false, BitVec.add_zero, BitVec.sub_add_cancel]
  have hone : (1#32).setWidth bits = 1 := by
    rcases hbits with rfl | rfl | rfl <;> decide
  have hxeq : (dep1 - 1#32).setWidth bits = x := by
    rw [setWidth_sub _ _ (by omega), hx, hone, BitVec.add_sub_cancel]
  have ha : (dep1 ^^^ (dep1 - 1#32) ^^^ 1#32) &&& 0x10#32 =
      flag (16 ≤ x.toNat % 16 + (1 : BitVec bits).toNat % 16 + false.toNat) 4 := by
    rw [show 0x10#32 = 1#32 <<< 4 from rfl, and_bit]
    nth_rewrite 1 [hback]
    rw [adjust_add, ← toNat_setWidth_mod _ (by omega : 8 ≤ bits), ← toNat_setWidth_mod 1#32 (by omega : 8 ≤ bits), hxeq,
      hone]
  have ho : ofCmp (dep1 &&& dataMask bits == signMask bits) <<< 11 =
      flag (Overflows bits (x.toInt + (1 : BitVec bits).toInt + false.toNat)) 11 := by
    have hsign : (signMask bits).toNat = 2 ^ (bits - 1) := by
      rcases hbits with rfl | rfl | rfl <;> decide
    have hint : (1 : BitVec bits).toInt = 1 := by
      rcases hbits with rfl | rfl | rfl <;> decide
    rw [res_eq_signMask hbits dep1 hsign (Nat.pow_lt_pow_right (by decide) (by omega)), hx, overflow_inc (by omega),
      hint]
    rfl
  refine (assemble dep1 hbits (and_maskC ndep) ha ho).trans ?_
  rw [hx]
  simp [addFlags, ofResult, ofCarry_false]

omit hbits in
/-- Subtracting one overflows exactly if the result is the greatest number. -/
theorem overflow_dec (hw : 1 < bits) (x : BitVec bits) :
    decide ((x - 1).toNat = 2 ^ (bits - 1) - 1) = decide (Overflows bits (x.toInt - 1 - 0)) := by
  obtain ⟨h, hhalf, hpos, hpow, -, hint, hover⟩ := exists_half (show 0 < bits by omega)
  have hsum : (x - 1).toNat + 1 = x.toNat ∨ x.toNat = 0 ∧ (x - 1).toNat + 1 = 2 * h := by
    have hx := x.isLt
    rw [BitVec.toNat_sub, toNat_one hw]
    rw [hpow] at hx ⊢
    rcases Nat.eq_zero_or_pos x.toNat with hzero | hge
    · rw [hzero, Nat.add_zero, Nat.mod_eq_of_lt (by omega)]
      omega
    · rw [Nat.mod_eq_sub_mod (by omega), Nat.mod_eq_of_lt (by omega)]
      omega
  rw [decide_eq_decide, hover, hhalf]
  have := hint x
  omega

theorem actionsDec_eq (dep1 ndep : BitVec 32) (x : BitVec bits) (hx : dep1.setWidth bits = x - 1) :
    actionsDec bits dep1 ndep = { subFlags x 1 false with c := ndep.getLsbD 0 }.eflags := by
  have hback : dep1 = dep1 + 1#32 - 1#32 - ofCarry false := by
    rw [ofCarry_false, BitVec.sub_zero, BitVec.add_sub_cancel]
  have hone : (1#32).setWidth bits = 1 := by
    rcases hbits with rfl | rfl | rfl <;> decide
  have hxeq : (dep1 + 1#32).setWidth bits = x := by
    rw [BitVec.setWidth_add _ _ (by omega), hx, hone, BitVec.sub_add_cancel]
  have ha : (dep1 ^^^ (dep1 + 1#32) ^^^ 1#32) &&& 0x10#32 =
      flag (x.toNat % 16 < (1 : BitVec bits).toNat % 16 + false.toNat) 4 := by
    rw [show 0x10#32 = 1#32 <<< 4 from rfl, and_bit]
    nth_rewrite 1 [hback]
    rw [adjust_sub, ← toNat_setWidth_mod _ (by omega : 8 ≤ bits), ← toNat_setWidth_mod 1#32 (by omega : 8 ≤ bits), hxeq,
      hone]
  have ho : ofCmp (dep1 &&& dataMask bits == signMask bits - 1#32) <<< 11 =
      flag (Overflows bits (x.toInt - (1 : BitVec bits).toInt - false.toNat)) 11 := by
    have hsign : (signMask bits - 1#32).toNat = 2 ^ (bits - 1) - 1 := by
      rcases hbits with rfl | rfl | rfl <;> decide
    have hint : (1 : BitVec bits).toInt = 1 := by
      rcases hbits with rfl | rfl | rfl <;> decide
    have hlt : 2 ^ (bits - 1) < 2 ^ bits := Nat.pow_lt_pow_right (by decide) (by omega)
    rw [res_eq_signMask hbits dep1 hsign (Nat.lt_of_le_of_lt (Nat.sub_le _ _) hlt), hx, overflow_dec (by omega), hint]
    rfl
  refine (assemble dep1 hbits (and_maskC ndep) ha ho).trans ?_
  rw [hx]
  simp [subFlags, ofResult, ofCarry_false]

/-- A left shift, or a right shift: the flags but the carry are those of the result, and
overflow is a change of sign in the last step. -/
theorem shift_flags (dep1 dep2 : BitVec 32) {cf : BitVec 32} {c : Bool} (hc : cf = flag c 0) :
    cf ||| parityEntry (dep1.setWidth 8) ||| 0#32 ||| ofCmp (dep1.setWidth bits == 0) <<< 6 |||
      (lshift dep1 (8 - bits) &&& 0x80#32) ||| (lshift (dep2 ^^^ dep1) (12 - bits) &&& maskO) =
    (ofResult (dep1.setWidth bits) c false ((dep2.setWidth bits).msb ^^ (dep1.setWidth bits).msb)).eflags := by
  refine assemble dep1 hbits hc (by decide) ?_
  rw [maskO, lshift_and _ hbits (by omega) (by decide), BitVec.setWidth_xor, BitVec.msb_xor]

theorem actionsShl_eq (dep1 dep2 : BitVec 32) :
    actionsShl bits dep1 dep2 = (ofResult (dep1.setWidth bits) (dep2.setWidth bits).msb false
      ((dep2.setWidth bits).msb ^^ (dep1.setWidth bits).msb)).eflags := by
  refine shift_flags hbits dep1 dep2 ?_
  rw [and_maskC, BitVec.getLsbD_ushiftRight, BitVec.msb_setWidth]
  simp [show 0 < bits by omega]

theorem actionsShr_eq (dep1 dep2 : BitVec 32) :
    actionsShr bits dep1 dep2 = (ofResult (dep1.setWidth bits) ((dep2.setWidth bits).getLsbD 0) false
      ((dep2.setWidth bits).msb ^^ (dep1.setWidth bits).msb)).eflags := by
  refine shift_flags hbits dep1 dep2 ((and_maskC dep2).trans ?_)
  rw [BitVec.getLsbD_setWidth]
  simp [show 0 < bits by omega]

omit hbits in
/-- The old flags, with two of them replaced. -/
theorem replace_flags (old : Flags) (c o : Bool) :
    (old.eflags &&& ~~~(maskO ||| maskC)) ||| flag c 0 ||| flag o 11 = { old with c := c, o := o }.eflags := by
  obtain ⟨c', p, a, z, s, o'⟩ := old
  revert c' p a z s o' c o
  decide

theorem actionsRol_eq (dep1 : BitVec 32) (old : Flags) :
    actionsRol bits dep1 old.eflags =
      { old with c := (dep1.setWidth bits).getLsbD 0,
                 o := (dep1.setWidth bits).msb ^^ (dep1.setWidth bits).getLsbD 0 }.eflags := by
  refine Eq.trans ?_ (replace_flags old _ _)
  rw [actionsRol, BitVec.and_comm maskC, and_maskC, BitVec.and_comm maskO, and_maskO,
    BitVec.getLsbD_xor, getLsbD_lshift dep1 (show (11 - (bits - 1) : Int) = (11 : Nat) - (bits - 1 : Nat) by omega)
      (by omega) (by decide), getLsbD_lshift dep1 (show (11 : Int) = (11 : Nat) - (0 : Nat) by omega) (by decide)
      (by decide), BitVec.msb_setWidth, BitVec.getLsbD_setWidth]
  simp [show 0 < bits by omega]

theorem actionsRor_eq (dep1 : BitVec 32) (old : Flags) :
    actionsRor bits dep1 old.eflags =
      { old with c := (dep1.setWidth bits).msb,
                 o := (dep1.setWidth bits).msb ^^ (dep1.setWidth bits).getLsbD (bits - 2) }.eflags := by
  refine Eq.trans ?_ (replace_flags old _ _)
  rw [actionsRor, BitVec.and_comm maskC, and_maskC, BitVec.and_comm maskO, and_maskO,
    BitVec.getLsbD_xor, getLsbD_lshift dep1 (show (11 - (bits - 1) : Int) = (11 : Nat) - (bits - 1 : Nat) by omega)
      (by omega) (by decide), getLsbD_lshift dep1
      (show (11 - (bits - 1) + 1 : Int) = (11 : Nat) - (bits - 2 : Nat) by omega) (by omega) (by decide),
    BitVec.msb_setWidth, BitVec.getLsbD_setWidth, BitVec.getLsbD_ushiftRight]
  simp [show 0 < bits by omega, show bits - 2 < bits by omega]

omit hbits in
theorem setWidth_signExtend {n : Nat} (hn : bits ≤ n) (x : BitVec bits) : (x.signExtend n).setWidth bits = x := by
  ext i hi
  simp [BitVec.getLsbD_signExtend, hi]
  omega

omit hbits in
/-- The lower half of a word of double width. -/
theorem setWidth_signExtend_mul (x y : BitVec bits) :
    (x.signExtend (2 * bits) * y.signExtend (2 * bits)).setWidth bits = x * y := by
  rw [BitVec.setWidth_mul _ _ (by omega), setWidth_signExtend (by omega), setWidth_signExtend (by omega)]

/-- The product of two signed words fits into a word of double width. -/
theorem toInt_signExtend_mul (x y : BitVec bits) :
    (x.signExtend (2 * bits) * y.signExtend (2 * bits)).toInt = x.toInt * y.toInt := by
  have habs : ∀ b : BitVec bits, |b.toInt| ≤ 2 ^ (bits - 1) := fun b =>
    abs_le.mpr ⟨BitVec.le_toInt b, BitVec.toInt_lt.le⟩
  have hprod : |x.toInt * y.toInt| ≤ 2 ^ (bits - 1) * 2 ^ (bits - 1) := by
    rw [abs_mul]
    exact mul_le_mul (habs x) (habs y) (abs_nonneg _) (by positivity)
  obtain ⟨hlow, hhigh⟩ := abs_le.mp hprod
  rw [BitVec.toInt_mul, BitVec.toInt_signExtend_of_le (by omega), BitVec.toInt_signExtend_of_le (by omega)]
  refine Int.bmod_eq_of_le_mul_two ?_ ?_
  · rcases hbits with rfl | rfl | rfl <;> norm_num at hlow ⊢ <;> omega
  · rcases hbits with rfl | rfl | rfl <;> norm_num at hhigh ⊢ <;> omega

omit hbits in
/-- The product of two unsigned words fits into a word of double width. -/
theorem toNat_setWidth_mul (x y : BitVec bits) :
    (x.setWidth (2 * bits) * y.setWidth (2 * bits)).toNat = x.toNat * y.toNat := by
  have hprod : x.toNat * y.toNat < 2 ^ (2 * bits) := by
    rw [Nat.two_mul, Nat.pow_add]
    exact Nat.mul_lt_mul'' x.isLt y.isLt
  rw [BitVec.toNat_mul, BitVec.toNat_setWidth_of_le (by omega), BitVec.toNat_setWidth_of_le (by omega),
    Nat.mod_eq_of_lt hprod]

/-- Both halves of a signed product are given by the lower one exactly if the product fits. -/
theorem high_ne_iff (p : BitVec (2 * bits)) :
    ((p.sshiftRight bits).setWidth bits != (p.setWidth bits).sshiftRight (bits - 1)) =
      decide (Overflows bits p.toInt) := by
  have hpos : 0 < bits := by omega
  obtain ⟨hi, hhi⟩ : ∃ hi, hi = (p.sshiftRight bits).setWidth bits := ⟨_, rfl⟩
  obtain ⟨lo, hlo⟩ : ∃ lo, lo = p.setWidth bits := ⟨_, rfl⟩
  have hsplit : p.toNat = hi.toNat * 2 ^ bits + lo.toNat := by
    have heq : hi = (p >>> bits).setWidth bits := by
      rw [hhi]
      ext i hi
      simp [BitVec.getLsbD_sshiftRight, show bits + i < 2 * bits by omega, show ¬ 2 * bits ≤ i by omega]
    have hlt : p.toNat / 2 ^ bits < 2 ^ bits :=
      Nat.div_lt_of_lt_mul (by rw [← Nat.pow_add, ← Nat.two_mul]; exact p.isLt)
    rw [heq, hlo, BitVec.toNat_setWidth, BitVec.toNat_ushiftRight, Nat.shiftRight_eq_div_pow, Nat.mod_eq_of_lt hlt,
      BitVec.toNat_setWidth]
    exact (Nat.div_add_mod' _ _).symm
  have hsign : lo.sshiftRight (bits - 1) = if lo.msb then BitVec.allOnes bits else 0 := by
    ext i hi
    rw [BitVec.getElem_sshiftRight, BitVec.msb_eq_getLsbD_last]
    by_cases h0 : i = 0
    · subst h0
      cases hb : lo.getLsbD (bits - 1) with
      | false => simp [← BitVec.getLsbD_eq_getElem, hb]
      | true => simp [← BitVec.getLsbD_eq_getElem, hb, hpos]
    · rw [dif_neg (by omega)]
      cases lo.getLsbD (bits - 1) with
      | false => simp
      | true => simp
  have hhilt := hi.isLt
  have hlolt := lo.isLt
  have hfill : (if lo.msb then BitVec.allOnes bits else 0).toNat = if 2 ^ (bits - 1) ≤ lo.toNat then 2 ^ bits - 1 else 0 := by
    rw [apply_ite BitVec.toNat, BitVec.toNat_allOnes, BitVec.msb_eq_decide]
    simp
  rw [← hhi, ← hlo, hsign, Bool.eq_iff_iff, bne_iff_ne, ne_eq, ← BitVec.toNat_inj, decide_eq_true_iff, hfill,
    BitVec.toInt_eq_toNat_cond, Overflows]
  rcases hbits with rfl | rfl | rfl
  · norm_num at hsplit hhilt hlolt ⊢
    split_ifs <;> omega
  · norm_num at hsplit hhilt hlolt ⊢
    split_ifs <;> omega
  · norm_num at hsplit hhilt hlolt ⊢
    split_ifs <;> omega

theorem actionsUmul_eq (dep1 dep2 : BitVec 32) :
    actionsUmul bits dep1 dep2 = (Operation.umul (dep1.setWidth bits) (dep2.setWidth bits)).flags.eflags := by
  obtain ⟨x, hx⟩ : ∃ x, x = dep1.setWidth bits := ⟨_, rfl⟩
  obtain ⟨y, hy⟩ : ∃ y, y = dep2.setWidth bits := ⟨_, rfl⟩
  have hhi : (((x.setWidth (2 * bits) * y.setWidth (2 * bits)) >>> bits).setWidth bits != 0) =
      decide (2 ^ bits ≤ x.toNat * y.toNat) := by
    have hlt : x.toNat * y.toNat / 2 ^ bits < 2 ^ bits :=
      Nat.div_lt_of_lt_mul (Nat.mul_lt_mul'' x.isLt y.isLt)
    rw [Bool.eq_iff_iff, bne_iff_ne, ne_eq, ← BitVec.toNat_inj, decide_eq_true_iff, BitVec.toNat_setWidth,
      BitVec.toNat_ushiftRight, toNat_setWidth_mul, Nat.shiftRight_eq_div_pow, Nat.mod_eq_of_lt hlt]
    exact Nat.div_ne_zero_iff.trans ⟨fun h => h.2, fun h => ⟨(Nat.two_pow_pos bits).ne', h⟩⟩
  have hlo : ((x * y).setWidth 32).setWidth bits = x * y := by
    rw [BitVec.setWidth_setWidth_of_le _ (by omega), BitVec.setWidth_eq]
  have hlo' : ((x * y).setWidth 32).setWidth 8 = (x * y).setWidth 8 := BitVec.setWidth_setWidth_of_le _ (by omega)
  have hassemble := assemble ((x * y).setWidth 32) hbits (flag_zero (2 ^ bits ≤ x.toNat * y.toNat)).symm
    (show 0#32 = flag false 4 by decide) (show ofCmp (2 ^ bits ≤ x.toNat * y.toNat) <<< 11 = flag _ 11 from rfl)
  rw [hlo, hlo'] at hassemble
  rw [actionsUmul, ← hx, ← hy, hhi]
  exact hassemble

theorem actionsSmul_eq (dep1 dep2 : BitVec 32) :
    actionsSmul bits dep1 dep2 = (Operation.smul (dep1.setWidth bits) (dep2.setWidth bits)).flags.eflags := by
  obtain ⟨x, hx⟩ : ∃ x, x = dep1.setWidth bits := ⟨_, rfl⟩
  obtain ⟨y, hy⟩ : ∃ y, y = dep2.setWidth bits := ⟨_, rfl⟩
  have hhi := high_ne_iff hbits (x.signExtend (2 * bits) * y.signExtend (2 * bits))
  rw [setWidth_signExtend_mul, toInt_signExtend_mul hbits] at hhi
  have hlo : ((x * y).signExtend 32).setWidth bits = x * y := setWidth_signExtend (by omega) _
  have hlo' : ((x * y).signExtend 32).setWidth 8 = (x * y).setWidth 8 := by
    rw [← BitVec.setWidth_setWidth_of_le ((x * y).signExtend 32) (show 8 ≤ bits by omega), hlo]
  have hassemble := assemble ((x * y).signExtend 32) hbits (flag_zero (Overflows bits (x.toInt * y.toInt))).symm
    (show 0#32 = flag false 4 by decide) (show ofCmp (Overflows bits (x.toInt * y.toInt)) <<< 11 = flag _ 11 from rfl)
  rw [hlo, hlo'] at hassemble
  rw [actionsSmul, ← hx, ← hy, hhi]
  exact hassemble

end EachOperation

/-! ## All operations -/

/-- The flags `f` are right after the operation. -/
structure Operation.Right {w : Nat} (op : Operation w) (f : Flags) : Prop where
  c : f.c = op.flags.c
  p : f.p = op.flags.p
  a : f.a = op.flags.a
  z : f.z = op.flags.z
  s : f.s = op.flags.s
  o : op.DefinesO → f.o = op.flags.o

theorem Operation.right_flags {w : Nat} (op : Operation w) : op.Right op.flags :=
  ⟨rfl, rfl, rfl, rfl, rfl, fun _ => rfl⟩

/-- The flags of a result are right if the three others are. -/
theorem Operation.right_ofResult {w : Nat} {op : Operation w} {r : BitVec w} {c a o : Bool}
    (hflags : op.flags = ofResult r c a op.flags.o) (ho : op.DefinesO → o = op.flags.o) :
    op.Right (ofResult r c a o) where
  c := by rw [hflags]; rfl
  p := by rw [hflags]; rfl
  a := by rw [hflags]; rfl
  z := by rw [hflags]; rfl
  s := by rw [hflags]; rfl
  o := ho

theorem actions_right {width : CcWidth} (op : Operation width.bits) {dep1 dep2 ndep : BitVec 32}
    (h : op.Thunk dep1 dep2 ndep) :
    ∃ f : Flags, actions width.bits dep1 dep2 ndep op.kind = f.eflags ∧ op.Right f := by
  have hbits := width.bits_cases
  cases op with
  | add x y =>
    obtain ⟨rfl, rfl⟩ := h
    exact ⟨_, actionsAdd_eq hbits dep1 dep2, Operation.right_flags _⟩
  | sub x y =>
    obtain ⟨rfl, rfl⟩ := h
    exact ⟨_, actionsSub_eq hbits dep1 dep2, Operation.right_flags _⟩
  | adc x y carry =>
    obtain ⟨rfl, rfl, rfl⟩ := h
    exact ⟨_, actionsAdc_eq hbits dep1 dep2 ndep, Operation.right_flags _⟩
  | sbb x y carry =>
    obtain ⟨rfl, rfl, rfl⟩ := h
    exact ⟨_, actionsSbb_eq hbits dep1 dep2 ndep, Operation.right_flags _⟩
  | logic result =>
    obtain rfl := h
    exact ⟨_, actionsLogic_eq hbits dep1, Operation.right_flags _⟩
  | inc x carry =>
    obtain ⟨hx, rfl⟩ := h
    exact ⟨_, actionsInc_eq hbits dep1 ndep x hx, Operation.right_flags _⟩
  | dec x carry =>
    obtain ⟨hx, rfl⟩ := h
    exact ⟨_, actionsDec_eq hbits dep1 ndep x hx, Operation.right_flags _⟩
  | shl x count =>
    obtain ⟨-, h₁, h₂⟩ := h
    refine ⟨_, actionsShl_eq hbits dep1 dep2, ?_⟩
    rw [h₁, h₂]
    exact Operation.right_ofResult rfl fun _ => Bool.xor_comm _ _
  | shr x count =>
    obtain ⟨-, h₁, h₂⟩ := h
    refine ⟨_, actionsShr_eq hbits dep1 dep2, ?_⟩
    rw [h₁, h₂]
    refine Operation.right_ofResult rfl fun hone => ?_
    obtain rfl : count = 1 := hone
    show ((x >>> 0).msb ^^ (x >>> 1).msb) = x.msb
    simp
  | sar x count =>
    obtain ⟨-, h₁, h₂⟩ := h
    refine ⟨_, actionsShr_eq hbits dep1 dep2, ?_⟩
    rw [h₁, h₂]
    refine Operation.right_ofResult rfl fun _ => ?_
    rw [BitVec.msb_sshiftRight, BitVec.msb_sshiftRight, Bool.xor_self]
    rfl
  | rol x count old =>
    obtain ⟨-, h₁, rfl⟩ := h
    refine ⟨_, actionsRol_eq hbits dep1 old, ?_⟩
    rw [h₁]
    exact Operation.right_flags (.rol x count old)
  | ror x count old =>
    obtain ⟨-, h₁, rfl⟩ := h
    refine ⟨_, actionsRor_eq hbits dep1 old, ?_⟩
    rw [h₁]
    exact Operation.right_flags (.ror x count old)
  | umul x y =>
    obtain ⟨rfl, rfl⟩ := h
    exact ⟨_, actionsUmul_eq hbits dep1 dep2, Operation.right_flags _⟩
  | smul x y =>
    obtain ⟨rfl, rfl⟩ := h
    exact ⟨_, actionsSmul_eq hbits dep1 dep2, Operation.right_flags _⟩

/-- Whatever the words of a thunk are, they record an operation, unless a shift or a rotate is
to be recorded. -/
theorem exists_operation (width : CcWidth) (kind : CcKind) (dep1 dep2 ndep : BitVec 32)
    (hkind : kind ∉ [CcKind.shl, .shr, .rol, .ror]) :
    ∃ op : Operation width.bits, op.kind = kind ∧ op.Thunk dep1 dep2 ndep := by
  cases kind with
  | add => exact ⟨.add _ _, rfl, rfl, rfl⟩
  | sub => exact ⟨.sub _ _, rfl, rfl, rfl⟩
  | adc => exact ⟨.adc _ _ _, rfl, rfl, rfl, rfl⟩
  | sbb => exact ⟨.sbb _ _ _, rfl, rfl, rfl, rfl⟩
  | logic => exact ⟨.logic _, rfl, rfl⟩
  | inc => exact ⟨.inc (dep1.setWidth _ - 1) _, rfl, (BitVec.sub_add_cancel _ _).symm, rfl⟩
  | dec => exact ⟨.dec (dep1.setWidth _ + 1) _, rfl, (BitVec.add_sub_cancel _ _).symm, rfl⟩
  | shl | shr | rol | ror => exact absurd hkind (by decide)
  | umul => exact ⟨.umul _ _, rfl, rfl, rfl⟩
  | smul => exact ⟨.smul _ _, rfl, rfl, rfl⟩

/-- **The flag thunk is exact**: every thunk but those of shifts and rotates records some
operation, and the flags computed from a thunk are those of any operation that it records. -/
theorem calculateEflags_exact (width : CcWidth) (dep1 dep2 ndep : BitVec 32) :
    (∀ kind ∉ [CcKind.shl, .shr, .rol, .ror],
      ∃ op : Operation width.bits, op.kind = kind ∧ op.Thunk dep1 dep2 ndep) ∧
    ∀ op : Operation width.bits, op.Thunk dep1 dep2 ndep →
      ∃ f : Flags, x86gCalculateEflagsAllWRK (CcOp.op op.kind width).code dep1 dep2 ndep = .ok f.eflags ∧
        op.Right f := by
  refine ⟨fun kind hkind => exists_operation width kind dep1 dep2 ndep hkind, fun op h => ?_⟩
  obtain ⟨f, hactions, hright⟩ := actions_right op h
  refine ⟨f, ?_, hright⟩
  rw [x86gCalculateEflagsAllWRK, CcOp.ofCode_code, ← hactions]
  rfl

/-- `0x7F + 1` on bytes, with something above the bytes. -/
theorem calculateEflags_exact_addb :
    ∃ f : Flags, x86gCalculateEflagsAllWRK 1 0xFFFFFF7F 0x101 0 = .ok f.eflags ∧
      (Operation.add (0x7F : BitVec 8) 1).Right f :=
  (calculateEflags_exact .b 0xFFFFFF7F 0x101 0).2 (.add (0x7F : BitVec 8) 1) ⟨rfl, rfl⟩

end Valgrind.Vex.X86
