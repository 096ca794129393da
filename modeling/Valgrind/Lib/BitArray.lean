import Mathlib.Tactic

/-!
# Arrays of words as arrays of bits

A row of words of `n` bits each is read as a row of bits: bit `a` is bit `a % n` of word
`a / n`. Setting, clearing and testing a range of bits within one word is done with a mask,
which is `s` ones shifted to the place where the range starts.
-/

namespace BitArray

variable {n : Nat}

/-- Bit `a` of the row of words. -/
def bit (ws : Nat → BitVec n) (a : Nat) : Bool := (ws (a / n)).getLsbD (a % n)

/-- The `s` lowest bits. -/
def ones (n s : Nat) : BitVec n := ((1 : BitVec n) <<< s) - 1

variable {ws : Nat → BitVec n} {a b i j s : Nat} {m : BitVec n}

theorem getLsbD_ones (hs : s < n) : (ones n s).getLsbD j = decide (j < s) := by
  have hone : ((1 : BitVec n) <<< s).toNat = 2 ^ s := by
    have hlt : 2 ^ s < 2 ^ n := Nat.pow_lt_pow_right (by decide) hs
    have h1 : (1 : BitVec n).toNat = 1 := by
      rw [show (1 : BitVec n) = BitVec.ofNat n 1 from rfl, BitVec.toNat_ofNat,
        Nat.mod_eq_of_lt (Nat.one_lt_two_pow (by omega))]
    rw [BitVec.toNat_shiftLeft, h1, Nat.shiftLeft_eq, Nat.one_mul, Nat.mod_eq_of_lt hlt]
  have hpos : 1 ≤ 2 ^ s := Nat.one_le_two_pow
  have hval : (ones n s).toNat = 2 ^ s - 1 := by
    have h1 : (1 : BitVec n).toNat = 1 := by
      rw [show (1 : BitVec n) = BitVec.ofNat n 1 from rfl, BitVec.toNat_ofNat,
        Nat.mod_eq_of_lt (Nat.one_lt_two_pow (by omega))]
    rw [ones, BitVec.toNat_sub_of_le (by rw [BitVec.le_def, hone, h1]; exact hpos), hone, h1]
  rw [BitVec.getLsbD, hval, Nat.testBit_two_pow_sub_one]

theorem getLsbD_ones_shiftLeft (hs : s < n) : (ones n s <<< i).getLsbD j = decide (j < n ∧ i ≤ j ∧ j < i + s) := by
  rw [BitVec.getLsbD_shiftLeft, getLsbD_ones hs]
  by_cases hn : j < n
  · by_cases hi : j < i
    · simp [hn, hi, Nat.not_le.mpr hi]
    · have hsub : j - i < s ↔ j < i + s := by omega
      simp [hn, hi, Nat.not_lt.mp hi, hsub]
  · simp [hn]

theorem getLsbD_not_ones_shiftLeft (hs : s < n) :
    ((~~~ones n s) <<< i).getLsbD j = decide (j < n ∧ i + s ≤ j) := by
  rw [BitVec.getLsbD_shiftLeft, BitVec.getLsbD_not, getLsbD_ones hs]
  by_cases hn : j < n
  · by_cases hi : j < i
    · have hle : ¬ i + s ≤ j := by omega
      simp [hn, hi, hle]
    · have hlt : j - i < n := by omega
      rw [decide_eq_true hn, decide_eq_false hi, decide_eq_true hlt, Bool.true_and, Bool.not_false, Bool.true_and,
        ← decide_not, Bool.true_and, decide_eq_decide]
      omega
  · simp [hn]

theorem one_shiftLeft (i : Nat) : (1 : BitVec n) <<< i = BitVec.twoPow n i := by
  rw [BitVec.twoPow]
  rfl

/-- Another word is or-ed into a word of the row. -/
theorem bit_or (ws : Nat → BitVec n) (k : Nat) (m : BitVec n) (b : Nat) :
    bit (Function.update ws k (ws k ||| m)) b = (bit ws b || (decide (b / n = k) && m.getLsbD (b % n))) := by
  unfold bit
  by_cases h : b / n = k
  · subst h
    simp
  · simp [h]

/-- Another word is and-ed into a word of the row. -/
theorem bit_and (ws : Nat → BitVec n) (k : Nat) (m : BitVec n) (b : Nat) :
    bit (Function.update ws k (ws k &&& m)) b = (bit ws b && (decide (b / n ≠ k) || m.getLsbD (b % n))) := by
  unfold bit
  by_cases h : b / n = k
  · subst h
    simp
  · simp [h]

/-- The bits from `a` on of the word of `a`. -/
theorem same_word_iff (hs : a % n + s ≤ n) :
    (b / n = a / n ∧ a % n ≤ b % n ∧ b % n < a % n + s) ↔ a ≤ b ∧ b < a + s := by
  have ha := Nat.div_add_mod a n
  have hb := Nat.div_add_mod b n
  constructor
  · rintro ⟨hw, h₁, h₂⟩
    rw [hw] at hb
    omega
  · rintro ⟨h₁, h₂⟩
    have hw : b / n = a / n := by
      refine Nat.div_eq_of_lt_le ?_ ?_
      · rw [Nat.mul_comm]
        omega
      · rw [Nat.add_mul, Nat.one_mul, Nat.mul_comm]
        omega
    rw [hw] at hb
    omega

/-- The bits of the word of `a` up to `a + s`. -/
theorem same_word_lt_iff (hn : 0 < n) (hs : a % n + s ≤ n) :
    (b / n = a / n ∧ b % n < a % n + s) ↔ a - a % n ≤ b ∧ b < a + s := by
  have h := same_word_iff (n := n) (a := a - a % n) (b := b) (s := a % n + s)
  have hzero : (a - a % n) % n = 0 := Nat.sub_mod_eq_zero_of_mod_eq (Nat.mod_mod a n).symm
  have hdiv : (a - a % n) / n = a / n := by
    have ha := Nat.div_add_mod a n
    rw [show a - a % n = n * (a / n) by omega, Nat.mul_div_cancel_left _ hn]
  have hle := Nat.mod_le a n
  rw [hzero, hdiv] at h
  have h' := h (by omega)
  rw [show a - a % n + (a % n + s) = a + s by omega] at h'
  rw [← h']
  simp

/-- Setting a range within a word. -/
theorem bit_setRange (hs : s < n) (hw : a % n + s ≤ n) :
    bit (Function.update ws (a / n) (ws (a / n) ||| ones n s <<< (a % n))) b =
      (bit ws b || decide (a ≤ b ∧ b < a + s)) := by
  have hn : 0 < n := by omega
  rw [bit_or, getLsbD_ones_shiftLeft hs, ← Bool.decide_and]
  congr 1
  rw [decide_eq_decide, ← same_word_iff hw]
  have hlt := Nat.mod_lt b hn
  grind

/-- Setting a bit. -/
theorem bit_set (hn : 0 < n) : bit (Function.update ws (a / n) (ws (a / n) ||| (1 : BitVec n) <<< (a % n))) b =
    (bit ws b || decide (b = a)) := by
  have ha := Nat.mod_lt a hn
  rw [bit_or, one_shiftLeft, BitVec.getLsbD_twoPow, decide_eq_true ha, Bool.true_and, ← Bool.decide_and]
  congr 1
  rw [decide_eq_decide]
  have hiff := same_word_iff (n := n) (a := a) (b := b) (s := 1) (by omega)
  constructor
  · rintro ⟨h₁, h₂⟩
    have h := hiff.mp ⟨h₁, by omega, by omega⟩
    omega
  · rintro rfl
    exact ⟨rfl, rfl⟩

/-- Clearing a bit. -/
theorem bit_clear (hn : 0 < n) :
    bit (Function.update ws (a / n) (ws (a / n) &&& ~~~((1 : BitVec n) <<< (a % n)))) b =
      (bit ws b && decide (b ≠ a)) := by
  have ha := Nat.mod_lt a hn
  have hb := Nat.mod_lt b hn
  rw [bit_and, one_shiftLeft, BitVec.getLsbD_not, BitVec.getLsbD_twoPow, decide_eq_true ha, decide_eq_true hb,
    Bool.true_and, Bool.true_and]
  congr 1
  have hiff := same_word_iff (n := n) (a := a) (b := b) (s := 1) (by omega)
  by_cases hab : b = a
  · subst hab
    simp
  · by_cases hw : b / n = a / n
    · have hne : a % n ≠ b % n := fun h => hab (by
        have h' := hiff.mp ⟨hw, by omega, by omega⟩
        omega)
      simp [hab, hne]
    · simp [hab, hw]

/-- What is left when the complement of the mask is taken before it is shifted: the bits
below the range are cleared too. -/
theorem bit_clearUpTo (hs : s < n) (hw : a % n + s ≤ n) :
    bit (Function.update ws (a / n) (ws (a / n) &&& (~~~ones n s) <<< (a % n))) b =
      (bit ws b && decide (¬ (a - a % n ≤ b ∧ b < a + s))) := by
  have hn : 0 < n := by omega
  rw [bit_and, getLsbD_not_ones_shiftLeft hs, ← Bool.decide_or]
  congr 1
  rw [decide_eq_decide, ← same_word_lt_iff hn hw]
  have hlt := Nat.mod_lt b hn
  constructor
  · rintro (h | ⟨-, h⟩) ⟨h₁, h₂⟩
    · exact h h₁
    · omega
  · intro h
    by_cases hw : b / n = a / n
    · exact .inr ⟨hlt, Nat.not_lt.mp fun h' => h ⟨hw, h'⟩⟩
    · exact .inl hw

/-- Testing a bit. -/
theorem and_one_ne_zero (hn : 0 < n) : (ws (a / n) &&& (1 : BitVec n) <<< (a % n) != 0) = bit ws a := by
  have ha := Nat.mod_lt a hn
  rw [one_shiftLeft]
  unfold bit
  rw [BitVec.and_twoPow]
  split
  · rename_i h
    have hne : BitVec.twoPow n (a % n) ≠ 0 := fun h0 => by
      have hbit := congrArg (fun z => z.getLsbD (a % n)) h0
      simp [ha] at hbit
    rw [h, bne_iff_ne]
    exact hne
  · rename_i h
    simp only [Bool.not_eq_true] at h
    rw [h]
    simp

/-- Testing a range within a word. -/
theorem and_ones_ne_zero (hs : s < n) (hw : a % n + s ≤ n) :
    (ws (a / n) &&& ones n s <<< (a % n) != 0) = true ↔ ∃ b, a ≤ b ∧ b < a + s ∧ bit ws b = true := by
  have hn : 0 < n := by omega
  rw [bne_iff_ne]
  constructor
  · intro h
    by_contra hno
    refine h (BitVec.eq_of_getLsbD_eq fun i hi => ?_)
    rw [BitVec.getLsbD_and, getLsbD_ones_shiftLeft hs]
    by_cases hi' : a % n ≤ i ∧ i < a % n + s
    · have ha := Nat.div_add_mod a n
      have hix : (n * (a / n) + i) / n = a / n := by
        rw [Nat.mul_add_div hn, Nat.div_eq_of_lt hi, Nat.add_zero]
      have hmod : (n * (a / n) + i) % n = i := by rw [Nat.mul_add_mod, Nat.mod_eq_of_lt hi]
      have hbit : bit ws (n * (a / n) + i) = (ws (a / n)).getLsbD i := by rw [bit, hix, hmod]
      have hfalse : (ws (a / n)).getLsbD i = false := by
        rw [← hbit, Bool.eq_false_iff]
        exact fun h => hno ⟨_, by omega, by omega, h⟩
      rw [hfalse]
      simp
    · have hdec : ¬ (i < n ∧ a % n ≤ i ∧ i < a % n + s) := fun h => hi' h.2
      rw [decide_eq_false hdec]
      simp
  · rintro ⟨b, h₁, h₂, hb⟩ hzero
    obtain ⟨hword, h₃, h₄⟩ := (same_word_iff hw).mpr ⟨h₁, h₂⟩
    have hlt := Nat.mod_lt b hn
    have hbit := congrArg (fun z => z.getLsbD (b % n)) hzero
    rw [bit, hword] at hb
    simp only [BitVec.getLsbD_and, getLsbD_ones_shiftLeft hs, hb, hlt, h₃, h₄] at hbit
    simp at hbit

end BitArray
