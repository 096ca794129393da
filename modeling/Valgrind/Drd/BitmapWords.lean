import Valgrind.Drd.Bitmap
import Valgrind.Lib.BitArray

/-!
# The words of a bitmap

The bits of a row after each of the functions that change its words, and what the functions that
test them return. `bm0_clear_range` clears more than its range: all bits of the word below the
range too (`bit_bm0ClearRange`), and so does `bm_clear` in the first word of its range
(`clearBlock_spec`).
-/

namespace Valgrind.Drd

open BitArray

section

variable [Machine]

open Machine

theorem bitsPerUWord_cases : bitsPerUWord = 32 ∨ bitsPerUWord = 64 := by
  unfold bitsPerUWord
  rcases word_ok with h | h
  · exact .inl (by rw [h])
  · exact .inr (by rw [h])

theorem bitsPerUWord_pos : 0 < bitsPerUWord := by
  rcases bitsPerUWord_cases with h | h <;> omega

theorem two_pow_bitsPerBits : 2 ^ bitsPerBitsPerUWord = bitsPerUWord := by
  unfold bitsPerBitsPerUWord bitsPerUWord
  rcases word_ok with h | h <;> simp [h]

theorem uwordIx_eq (a : Nat) : uwordIx a = a / bitsPerUWord := by
  rw [uwordIx, Nat.shiftRight_eq_div_pow, two_pow_bitsPerBits]

omit [Machine] in
theorem addr0Count_eq : addr0Count = 16384 := rfl

variable {bm0 : Bm0} {a b c e size : Nat}

/-! ## Single functions -/

theorem bit_bm0Set : bit (bm0Set bm0 a) b = (bit bm0 b || decide (b = a)) := by
  rw [bm0Set, uwordIx_eq]
  exact bit_set bitsPerUWord_pos

theorem bit_bm0Clear : bit (bm0Clear bm0 a) b = (bit bm0 b && decide (b ≠ a)) := by
  rw [bm0Clear, uwordIx_eq]
  exact bit_clear bitsPerUWord_pos

theorem bit_bm0SetRange (hs : size < bitsPerUWord) (hw : a % bitsPerUWord + size ≤ bitsPerUWord) :
    bit (bm0SetRange bm0 a size) b = (bit bm0 b || decide (a ≤ b ∧ b < a + size)) := by
  rw [bm0SetRange, uwordIx_eq]
  exact bit_setRange hs hw

/-- The bits of the word below the range are cleared too. -/
theorem bit_bm0ClearRange (hs : size < bitsPerUWord) (hw : a % bitsPerUWord + size ≤ bitsPerUWord) :
    bit (bm0ClearRange bm0 a size) b = (bit bm0 b && decide (¬ (uwordMsb a ≤ b ∧ b < a + size))) := by
  rw [bm0ClearRange, uwordIx_eq]
  exact bit_clearUpTo hs hw

theorem bm0IsSet_ne_zero : (bm0IsSet bm0 a != 0) = bit bm0 a := by
  rw [bm0IsSet, uwordIx_eq]
  exact and_one_ne_zero bitsPerUWord_pos

theorem bm0IsAnySet_ne_zero (hs : size < bitsPerUWord) (hw : a % bitsPerUWord + size ≤ bitsPerUWord) :
    (bm0IsAnySet bm0 a size != 0) = true ↔ ∃ b, a ≤ b ∧ b < a + size ∧ bit bm0 b = true := by
  rw [bm0IsAnySet, uwordIx_eq]
  exact and_ones_ne_zero hs hw

omit [Machine] in
/-- One of two tests is positive. -/
theorem or_ne_zero {n : Nat} {x y : BitVec n} : (x ||| y != 0) = ((x != 0) || (y != 0)) := by
  have hiff : x ||| y = 0 ↔ x = 0 ∧ y = 0 := BitVec.or_eq_zero_iff
  rw [Bool.eq_iff_iff, Bool.or_eq_true, bne_iff_ne, bne_iff_ne, bne_iff_ne, ne_eq, hiff]
  grind

theorem bit_foldl_bm0Set (l : List Nat) (bm0 : Bm0) : bit (l.foldl bm0Set bm0) b = (bit bm0 b || decide (b ∈ l)) := by
  induction l generalizing bm0 with
  | nil => simp
  | cons a l ih =>
    rw [List.foldl_cons, ih, bit_bm0Set, Bool.or_assoc, ← Bool.decide_or]
    simp only [List.mem_cons]

/-- Words are set to zero. -/
theorem bit_bm0Memset {words : Nat} (ha : a % bitsPerUWord = 0) :
    bit (bm0Memset bm0 (uwordIx a) (words * wordB)) b =
      (bit bm0 b && decide (¬ (a ≤ b ∧ b < a + words * bitsPerUWord))) := by
  have hpos : 0 < wordB := by rcases word_ok with h | h <;> omega
  have hn := bitsPerUWord_pos
  have ha' := Nat.div_add_mod a bitsPerUWord
  have hlow : a / bitsPerUWord ≤ b / bitsPerUWord ↔ a ≤ b := by
    rw [Nat.le_div_iff_mul_le hn, Nat.mul_comm]
    constructor <;> intro h <;> omega
  have hhigh : b / bitsPerUWord < a / bitsPerUWord + words ↔ b < a + words * bitsPerUWord := by
    rw [Nat.div_lt_iff_lt_mul hn, Nat.add_mul, Nat.mul_comm (a / bitsPerUWord)]
    constructor <;> intro h <;> omega
  unfold bit bm0Memset
  rw [Nat.mul_div_cancel _ hpos, uwordIx_eq]
  by_cases h : a ≤ b ∧ b < a + words * bitsPerUWord
  · rw [if_pos ⟨hlow.mpr h.1, hhigh.mpr h.2⟩]
    simp [h]
  · rw [if_neg fun h' => h ⟨hlow.mp h'.1, hhigh.mp h'.2⟩, decide_eq_true h, Bool.and_true]

/-! ## `bm_clear` in a block -/

/-- In the block `k`, the bits of the addresses from `lo` to `hi` have been cleared. -/
def Cleared (k lo hi : Nat) (bm0 bm0' : Bm0) : Prop :=
  ∀ a, a / addr0Count = k →
    bit bm0' (a % addr0Count) = (bit bm0 (a % addr0Count) && decide (¬ (lo ≤ a ∧ a < hi)))

variable {k lo mid mid' hi : Nat} {bm0' bm0'' : Bm0}

theorem Cleared.of_empty (h : hi ≤ lo) (bm0 : Bm0) : Cleared k lo hi bm0 bm0 := fun a _ => by
  have hnot : ¬ (lo ≤ a ∧ a < hi) := by omega
  rw [decide_eq_true hnot, Bool.and_true]

theorem Cleared.trans (h : Cleared k lo mid bm0 bm0') (h' : Cleared k mid' hi bm0' bm0'') (hlo : lo ≤ mid')
    (hmid : mid' ≤ mid) (hhi : mid ≤ hi) : Cleared k lo hi bm0 bm0'' := fun a ha => by
  rw [h' a ha, h a ha, Bool.and_assoc, ← Bool.decide_and]
  congr 1
  rw [decide_eq_decide]
  omega

/-- A call of `bm0_clear_range`, which may be empty and then even at the end of the block. -/
theorem cleared_clearRange (bm0 : Bm0) (c size : Nat) (hk : c / addr0Count = k ∨ (c % bitsPerUWord = 0 ∧ size = 0)) (hs : size < bitsPerUWord)
    (hw : c % bitsPerUWord + size ≤ bitsPerUWord) :
    Cleared k (uwordMsb c) (c + size) bm0 (bm0ClearRange bm0 (c % addr0Count) size) := by
  have hmod : c % addr0Count % bitsPerUWord = c % bitsPerUWord := by
    rw [addr0Count_eq]
    rcases bitsPerUWord_cases with h | h <;> rw [h] <;> omega
  intro a ha
  rw [bit_bm0ClearRange hs (by rw [hmod]; exact hw)]
  congr 1
  rw [decide_eq_decide]
  unfold uwordMsb roundDn
  rw [hmod]
  rw [addr0Count_eq] at hk ha ⊢
  rcases hk with rfl | ⟨hc, rfl⟩
  · rcases bitsPerUWord_cases with h | h <;> rw [h] <;> omega
  · omega

/-- The words are cleared up to the last word boundary. -/
theorem clearWords_spec (hc : c % bitsPerUWord = 0) (hce : c ≤ e) (hk : c < e → c / addr0Count = k)
    (bm0 : Bm0) :
    ∃ bm0', clearWords c e bm0 = .ok (uwordMsb e, bm0') ∧ Cleared k c (uwordMsb e) bm0 bm0' := by
  have hmsb : uwordMsb e ≤ e ∧ uwordMsb e % bitsPerUWord = 0 ∧ c ≤ uwordMsb e ∧ e - uwordMsb e < bitsPerUWord := by
    unfold uwordMsb roundDn
    rcases bitsPerUWord_cases with h | h <;> rw [h] at hc ⊢ <;> omega
  obtain ⟨hle, haligned, hce', -⟩ := hmsb
  unfold clearWords
  rw [if_pos (show uwordLsb c = 0 from hc)]
  dsimp only
  rw [assertThat_of (show uwordLsb (uwordMsb e) = 0 from haligned), ok_bind, assertThat_of hle, ok_bind,
    assertThat_of hce', ok_bind]
  by_cases hgt : uwordMsb e > c
  · rw [if_pos hgt]
    refine ⟨_, rfl, fun a ha => ?_⟩
    have hkc := hk (by omega)
    have hdvd : bitsPerUWord ∣ uwordMsb e - c :=
      Nat.dvd_sub (Nat.dvd_of_mod_eq_zero haligned) (Nat.dvd_of_mod_eq_zero hc)
    obtain ⟨words, hwords⟩ := hdvd
    have hbytes : (uwordMsb e - c) / 8 = words * wordB := by
      rw [hwords, bitsPerUWord, Nat.mul_assoc, Nat.mul_div_cancel_left _ (by decide), Nat.mul_comm]
    have hmod : c % addr0Count % bitsPerUWord = 0 := by
      rw [addr0Count_eq]
      rcases bitsPerUWord_cases with h | h <;> rw [h] at hc ⊢ <;> omega
    rw [hbytes, bit_bm0Memset hmod, Nat.mul_comm, ← hwords]
    congr 1
    rw [decide_eq_decide]
    rw [addr0Count_eq] at hkc ha ⊢
    omega
  · rw [if_neg hgt]
    have heq : uwordMsb e = c := by omega
    rw [heq]
    exact ⟨bm0, rfl, .of_empty (Nat.le_refl _) bm0⟩

/-- From a word boundary on. -/
theorem clearFromWord_spec (hc : c % bitsPerUWord = 0) (hce : c ≤ e) (hk : c < e → c / addr0Count = k)
    (he : e ≤ k * addr0Count + addr0Count) (bm0 : Bm0) : ∃ bm0',
      (clearWords c e bm0 >>= fun p => pure (bm0ClearRange p.2 (p.1 % addr0Count) (e - p.1))) = Except.ok bm0' ∧
        Cleared k c e bm0 bm0' := by
  obtain ⟨bm0', hrun, hcl⟩ := clearWords_spec hc hce hk bm0
  refine ⟨bm0ClearRange bm0' (uwordMsb e % addr0Count) (e - uwordMsb e), by rw [hrun]; rfl, ?_⟩
  have hmsb : uwordMsb e ≤ e ∧ uwordMsb e % bitsPerUWord = 0 ∧ c ≤ uwordMsb e ∧ e - uwordMsb e < bitsPerUWord ∧
      uwordMsb (uwordMsb e) = uwordMsb e := by
    unfold uwordMsb roundDn
    rcases bitsPerUWord_cases with h | h <;> rw [h] at hc ⊢ <;> omega
  obtain ⟨hle, haligned, hce', hsize, hidem⟩ := hmsb
  have htail := cleared_clearRange (k := k) bm0' (uwordMsb e) (e - uwordMsb e) (by
    by_cases hlt : uwordMsb e < e
    · have hkc := hk (by omega)
      rw [addr0Count_eq] at hkc he ⊢
      exact .inl (by omega)
    · exact .inr ⟨haligned, by omega⟩) hsize (by rw [haligned]; omega)
  rw [hidem, Nat.add_sub_cancel' hle] at htail
  exact hcl.trans htail hce' (Nat.le_refl _) hle

/-- The bits of a row after the three parts of the loop body of `bm_clear`, for addresses `c` to `e`
of one block: those of the first word are cleared from its beginning. -/
theorem clearBlock_spec (hk : c / addr0Count = k) (hce : c < e) (he : e ≤ k * addr0Count + addr0Count)
    (hlt : e + addr0Count ≤ wordMod) (bm0 : Bm0) :
    ∃ bm0', clearBlock c e bm0 = .ok bm0' ∧ Cleared k (uwordMsb c) e bm0 bm0' := by
  have hmsb : uwordMsb c ≤ c ∧ c < uwordMsb c + bitsPerUWord ∧ uwordMsb c % bitsPerUWord = 0 ∧
      bitsPerUWord ≤ addr0Count ∧ (c % bitsPerUWord = 0 → uwordMsb c = c) := by
    unfold uwordMsb roundDn
    rw [addr0Count_eq]
    rcases bitsPerUWord_cases with h | h <;> rw [h] <;> omega
  obtain ⟨hle, hltc, haligned, hcount, hself⟩ := hmsb
  unfold clearBlock clearHead
  by_cases hlsb : c % bitsPerUWord = 0
  · rw [if_neg (show ¬ uwordLsb c ≠ 0 from fun h => h hlsb), hself hlsb]
    exact clearFromWord_spec hlsb hce.le (fun _ => hk) he bm0
  · rw [if_pos (show uwordLsb c ≠ 0 from hlsb), addW_of_lt (by omega)]
    -- the first addresses, up to `d`
    obtain ⟨d, hd⟩ : ∃ d, d = if uwordMsb c + bitsPerUWord > e then e else uwordMsb c + bitsPerUWord := ⟨_, rfl⟩
    have hcd : c < d ∧ d ≤ e ∧ d ≤ uwordMsb c + bitsPerUWord ∧ (d = e ∨ d = uwordMsb c + bitsPerUWord) := by
      split at hd <;> omega
    have hsize : c % bitsPerUWord + (d - c) ≤ bitsPerUWord := by
      have hmod : uwordMsb c + c % bitsPerUWord = c := by
        unfold uwordMsb roundDn
        have := Nat.mod_le c bitsPerUWord
        omega
      omega
    have hhead := cleared_clearRange (k := k) bm0 c (d - c) (.inl hk) (by omega) hsize
    rw [Nat.add_sub_cancel' hcd.1.le] at hhead
    dsimp only
    rw [← hd]
    by_cases hd0 : d % bitsPerUWord = 0
    · obtain ⟨bm0', hrun, hcl⟩ := clearFromWord_spec hd0 hcd.2.1 (fun hde => by
        rw [addr0Count_eq] at hk he ⊢
        omega) he (bm0ClearRange bm0 (c % addr0Count) (d - c))
      exact ⟨bm0', hrun, hhead.trans hcl (by omega) (Nat.le_refl _) hcd.2.1⟩
    · -- the range ends in the word in which it begins
      have hde : d = e := by
        rcases hcd.2.2.2 with h | h
        · exact h
        · rw [h, Nat.add_mod_right] at hd0
          exact absurd haligned hd0
      rw [← hde] at he ⊢
      refine ⟨_, by rw [clearWords, if_neg (show ¬ uwordLsb d = 0 from hd0)]; rfl, ?_⟩
      have hkd : d / addr0Count = k := by
        rw [addr0Count_eq] at hk he ⊢
        rcases bitsPerUWord_cases with h | h <;> rw [h] at hd0 <;> omega
      have htail := cleared_clearRange (k := k) (bm0ClearRange bm0 (c % addr0Count) (d - c)) d
        0 (.inl hkd) bitsPerUWord_pos (by have := Nat.mod_lt d bitsPerUWord_pos; omega)
      rw [Nat.add_zero] at htail
      rw [Nat.sub_self]
      have hsame : uwordMsb c ≤ uwordMsb d ∧ uwordMsb d ≤ d := by
        unfold uwordMsb roundDn
        have h₁ := hcd.1
        rcases bitsPerUWord_cases with h | h <;> rw [h] <;> omega
      exact hhead.trans htail hsame.1 hsame.2 (Nat.le_refl _)

end

end Valgrind.Drd
