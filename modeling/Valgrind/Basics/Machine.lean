import Mathlib.Tactic

/-!
# Words, addresses and pages

`Addr` and `SizeT` are unsigned words of the host, 4 or 8 bytes wide. They are
modelled by natural numbers below `wordMod = 2 ^ w`; every sum or difference
that the source computes in a word goes through `addW` / `subW`, so that a
wrap-around of the source is a wrap-around of the model. `ULong` quantities
(file offsets, device and inode numbers) wrap at `2 ^ 64` whatever the host.

The page size is fixed at 4 KB on x86 and amd64 and read from the kernel at
startup (4 KB or 64 KB) on ppc, so it is a parameter too.
-/

namespace Valgrind

/-- The host: `sizeof(void*)` (which is also `sizeof(SizeT)`) and
`VKI_PAGE_SIZE`. -/
class Machine where
  wordB : Nat
  pageSzB : Nat
  word_ok : wordB = 4 ∨ wordB = 8
  page_ok : pageSzB = 4096 ∨ pageSzB = 65536

/-- x86-linux. -/
@[reducible] def x86Linux : Machine where
  wordB := 4
  pageSzB := 4096
  word_ok := .inl rfl
  page_ok := .inl rfl

/-- amd64-linux. -/
@[reducible] def amd64Linux : Machine where
  wordB := 8
  pageSzB := 4096
  word_ok := .inr rfl
  page_ok := .inl rfl

section Words

variable [Machine]

open Machine

/-- `2 ^ w`: one more than the largest word. -/
def wordMod : Nat := 2 ^ (8 * wordB)

/-- Unsigned addition of two words. -/
def addW (a b : Nat) : Nat := (a + b) % wordMod

/-- Unsigned subtraction of two words. -/
def subW (a b : Nat) : Nat := (a + wordMod - b) % wordMod

/-- `Addr_MAX`. -/
def addrMax : Nat := wordMod - 1

/-- `VG_IS_PAGE_ALIGNED`. -/
def isPageAligned (a : Nat) : Prop := a % pageSzB = 0

instance (a : Nat) : Decidable (isPageAligned a) :=
  inferInstanceAs (Decidable (_ = _))

/-- `VG_ROUNDDN(p, a)`, for `a` a power of two. -/
def roundDn (p a : Nat) : Nat := p - p % a

/-- `VG_ROUNDUP(p, a)`, for `a` a power of two: the addition wraps. -/
def roundUp (p a : Nat) : Nat := roundDn (addW p (a - 1)) a

/-- `VG_PGROUNDDN`. -/
def pgRoundDn (p : Nat) : Nat := roundDn p pageSzB

/-- `VG_PGROUNDUP`. -/
def pgRoundUp (p : Nat) : Nat := roundUp p pageSzB

/-! ### The modulus -/

theorem wordMod_cases : wordMod = 4294967296 ∨ wordMod = 18446744073709551616 := by
  unfold wordMod
  rcases word_ok with h | h <;> simp [h]

theorem wordMod_pos : 0 < wordMod := by
  rcases wordMod_cases with h | h <;> omega

theorem pageSzB_pos : 0 < pageSzB := by
  rcases page_ok with h | h <;> omega

theorem pageSzB_dvd_wordMod : pageSzB ∣ wordMod := by
  rcases wordMod_cases with h | h <;> rcases page_ok with h' | h' <;> rw [h, h'] <;> decide

theorem pageSzB_lt_wordMod : 2 * pageSzB < wordMod := by
  rcases wordMod_cases with h | h <;> rcases page_ok with h' | h' <;> omega

theorem addrMax_add_one : addrMax + 1 = wordMod := by
  have := wordMod_pos
  unfold addrMax
  omega

/-! ### Wrapping and not wrapping -/

theorem addW_lt (a b : Nat) : addW a b < wordMod := Nat.mod_lt _ wordMod_pos

theorem addW_of_lt {a b : Nat} (h : a + b < wordMod) : addW a b = a + b :=
  Nat.mod_eq_of_lt h

theorem addW_of_ge {a b : Nat} (ha : a < wordMod) (hb : b < wordMod) (h : wordMod ≤ a + b) :
    addW a b = a + b - wordMod := by
  unfold addW
  rw [Nat.mod_eq_sub_mod h, Nat.mod_eq_of_lt]
  omega

/-- The wrap-around test of the source: `a + b < a` in word arithmetic. -/
theorem addW_lt_self_iff {a b : Nat} (ha : a < wordMod) (hb : b < wordMod) :
    addW a b < a ↔ wordMod ≤ a + b := by
  rcases Nat.lt_or_ge (a + b) wordMod with h | h
  · rw [addW_of_lt h]
    omega
  · rw [addW_of_ge ha hb h]
    omega

theorem subW_of_le {a b : Nat} (ha : a < wordMod) (h : b ≤ a) : subW a b = a - b := by
  unfold subW
  rw [show a + wordMod - b = (a - b) + wordMod by omega, Nat.add_mod_right, Nat.mod_eq_of_lt]
  omega

theorem subW_of_gt {a b : Nat} (hb : b ≤ wordMod) (h : a < b) :
    subW a b = a + wordMod - b := by
  unfold subW
  rw [Nat.mod_eq_of_lt]
  omega

theorem subW_lt (a b : Nat) : subW a b < wordMod := Nat.mod_lt _ wordMod_pos

/-! ### Pages -/

theorem isPageAligned_iff {a : Nat} : isPageAligned a ↔ pageSzB ∣ a :=
  (Nat.dvd_iff_mod_eq_zero).symm

theorem isPageAligned_zero : isPageAligned 0 := Nat.zero_mod _

theorem isPageAligned_wordMod : isPageAligned wordMod :=
  isPageAligned_iff.mpr pageSzB_dvd_wordMod

theorem isPageAligned.add {a b : Nat} (ha : isPageAligned a) (hb : isPageAligned b) :
    isPageAligned (a + b) :=
  isPageAligned_iff.mpr (Nat.dvd_add (isPageAligned_iff.mp ha) (isPageAligned_iff.mp hb))

/-- Word addition keeps page alignment: the modulus is a whole number of pages. -/
theorem isPageAligned_addW {a b : Nat} :
    isPageAligned (addW a b) ↔ isPageAligned (a + b) := by
  unfold isPageAligned addW
  rw [Nat.mod_mod_of_dvd _ pageSzB_dvd_wordMod]

/-- A page-aligned address below another leaves room for a whole page. -/
theorem isPageAligned.add_le {a b : Nat} (ha : isPageAligned a) (hb : isPageAligned b)
    (h : a < b) : a + pageSzB ≤ b := by
  obtain ⟨c, hc⟩ := isPageAligned_iff.mp ha
  obtain ⟨d, hd⟩ := isPageAligned_iff.mp hb
  have hcd : c < d := by
    by_contra hge
    have hle := Nat.mul_le_mul_left pageSzB (Nat.le_of_not_lt hge)
    rw [← hc, ← hd] at hle
    omega
  calc a + pageSzB = pageSzB * (c + 1) := by rw [hc]; ring
    _ ≤ pageSzB * d := Nat.mul_le_mul_left _ hcd
    _ = b := hd.symm

omit [Machine] in
theorem roundDn_le (p a : Nat) : roundDn p a ≤ p := Nat.sub_le _ _

omit [Machine] in
theorem roundDn_dvd (p a : Nat) : a ∣ roundDn p a := Nat.dvd_sub_mod p

/-- Rounding up to a page does nothing to a whole number of pages. -/
theorem pgRoundUp_eq {p : Nat} (h : isPageAligned p) (hp : p < wordMod) : pgRoundUp p = p := by
  have hroom := h.add_le isPageAligned_wordMod hp
  have hpos := pageSzB_pos
  obtain ⟨c, hc⟩ := isPageAligned_iff.mp h
  unfold pgRoundUp roundUp roundDn
  rw [addW_of_lt (by omega), hc, Nat.mul_add_mod, Nat.mod_eq_of_lt (by omega)]
  omega

theorem pgRoundUp_aligned (p : Nat) : isPageAligned (pgRoundUp p) :=
  isPageAligned_iff.mpr (roundDn_dvd _ _)

end Words

end Valgrind
