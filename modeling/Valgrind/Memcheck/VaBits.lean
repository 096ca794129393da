import Mathlib.Tactic
import Valgrind.Basics.Result

/-!
# Compressed V+A bits (`mc_main.c`)

Memcheck keeps two bits for each byte of memory: is it accessible, and if so, is it
defined, undefined, or partly defined. The bits of four bytes are packed into one
`vabits8`, and a secondary map holds those of 64 KB.

The fast paths of Memcheck look at 4, 8 or 16 of these bits at once. `vabits8_eq_iff` and
`vabits16_eq_iff` say what they see: all bytes concerned are in the same state.
-/

namespace Valgrind

namespace Memcheck

/-! ## Constants -/

/-- `VA_BITS2_NOACCESS`. -/
abbrev vaBits2Noaccess : BitVec 2 := 0
/-- `VA_BITS2_UNDEFINED`. -/
abbrev vaBits2Undefined : BitVec 2 := 1
/-- `VA_BITS2_DEFINED`. -/
abbrev vaBits2Defined : BitVec 2 := 2
/-- `VA_BITS2_PARTDEFINED`. -/
abbrev vaBits2Partdefined : BitVec 2 := 3

/-- `VA_BITS4_UNDEFINED`. -/
abbrev vaBits4Undefined : BitVec 4 := 0x5
/-- `VA_BITS4_DEFINED`. -/
abbrev vaBits4Defined : BitVec 4 := 0xa

/-- `VA_BITS8_NOACCESS`. -/
abbrev vaBits8Noaccess : BitVec 8 := 0x00
/-- `VA_BITS8_UNDEFINED`. -/
abbrev vaBits8Undefined : BitVec 8 := 0x55
/-- `VA_BITS8_DEFINED`. -/
abbrev vaBits8Defined : BitVec 8 := 0xaa

/-- `VA_BITS16_NOACCESS`. -/
abbrev vaBits16Noaccess : BitVec 16 := 0x0000
/-- `VA_BITS16_UNDEFINED`. -/
abbrev vaBits16Undefined : BitVec 16 := 0x5555
/-- `VA_BITS16_DEFINED`. -/
abbrev vaBits16Defined : BitVec 16 := 0xaaaa

/-- `V_BITS8_DEFINED`. -/
abbrev vBits8Defined : BitVec 8 := 0
/-- `V_BITS8_UNDEFINED`. -/
abbrev vBits8Undefined : BitVec 8 := 0xff

/-! ## Packing -/

/-- `insert_vabits2_into_vabits8`. -/
def insertVabits2IntoVabits8 (a : Nat) (vabits2 : BitVec 2) (vabits8 : BitVec 8) : BitVec 8 :=
  let shift := a % 4 * 2
  (vabits8 &&& ~~~(0x3#8 <<< shift)) ||| (vabits2.setWidth 8 <<< shift)

/-- `extract_vabits2_from_vabits8`. -/
def extractVabits2FromVabits8 (a : Nat) (vabits8 : BitVec 8) : BitVec 2 :=
  let shift := a % 4 * 2
  (0x3#8 &&& (vabits8 >>> shift)).setWidth 2

/-- `insert_vabits4_into_vabits8`. -/
def insertVabits4IntoVabits8 (a : Nat) (vabits4 : BitVec 4) (vabits8 : BitVec 8) :
    Result (BitVec 8) := do
  assertThat (a % 2 = 0)
  let shift := a % 4 / 2 * 4
  pure ((vabits8 &&& ~~~(0xf#8 <<< shift)) ||| (vabits4.setWidth 8 <<< shift))

/-- `extract_vabits4_from_vabits8`. -/
def extractVabits4FromVabits8 (a : Nat) (vabits8 : BitVec 8) : Result (BitVec 4) := do
  assertThat (a % 2 = 0)
  let shift := a % 4 / 2 * 4
  pure ((0xf#8 &&& (vabits8 >>> shift)).setWidth 4)

/-! ## Fields of a packed byte -/

variable {a x : Nat} {b b' : BitVec 8} {v : BitVec 2}

theorem getLsbD_three (i : Nat) : (0x3#8).getLsbD i = decide (i < 2) := by
  by_cases h8 : i < 8
  · interval_cases i <;> rfl
  · rw [BitVec.getLsbD_of_ge _ _ (by omega), decide_eq_false (by omega)]

theorem getLsbD_fifteen (i : Nat) : (0xf#8).getLsbD i = decide (i < 4) := by
  by_cases h8 : i < 8
  · interval_cases i <;> rfl
  · rw [BitVec.getLsbD_of_ge _ _ (by omega), decide_eq_false (by omega)]

theorem getLsbD_extract (a i : Nat) : (extractVabits2FromVabits8 a b).getLsbD i =
    (decide (i < 2) && b.getLsbD (a % 4 * 2 + i)) := by
  simp only [extractVabits2FromVabits8, BitVec.getLsbD_setWidth, BitVec.getLsbD_and,
    BitVec.getLsbD_ushiftRight, getLsbD_three]
  grind

theorem getLsbD_insert (a i : Nat) : (insertVabits2IntoVabits8 a v b).getLsbD i =
    if a % 4 * 2 ≤ i ∧ i < a % 4 * 2 + 2 then v.getLsbD (i - a % 4 * 2) else b.getLsbD i := by
  simp only [insertVabits2IntoVabits8, BitVec.getLsbD_or, BitVec.getLsbD_and, BitVec.getLsbD_not,
    BitVec.getLsbD_shiftLeft, BitVec.getLsbD_setWidth, getLsbD_three]
  by_cases h8 : i < 8
  · grind [BitVec.getLsbD_of_ge]
  · grind [BitVec.getLsbD_of_ge]

/-- What has been inserted can be extracted again. -/
theorem extract_insert_self :
    extractVabits2FromVabits8 a (insertVabits2IntoVabits8 a v b) = v := by
  apply BitVec.eq_of_getLsbD_eq
  intro i hi
  rw [getLsbD_extract, getLsbD_insert]
  grind

/-- The other three fields stay. -/
theorem extract_insert_ne (hne : x % 4 ≠ a % 4) :
    extractVabits2FromVabits8 x (insertVabits2IntoVabits8 a v b) = extractVabits2FromVabits8 x b := by
  apply BitVec.eq_of_getLsbD_eq
  intro i hi
  rw [getLsbD_extract, getLsbD_extract, getLsbD_insert, if_neg (by omega)]

/-- Only the last two bits of an address count. -/
theorem extract_congr (h : x % 4 = a % 4) :
    extractVabits2FromVabits8 x b = extractVabits2FromVabits8 a b := by
  unfold extractVabits2FromVabits8
  rw [h]

theorem append_eq_append_iff {c c' : BitVec 8} : b ++ c = b' ++ c' ↔ b = b' ∧ c = c' := by
  constructor
  · intro h
    refine ⟨BitVec.eq_of_getLsbD_eq fun i hi => ?_, BitVec.eq_of_getLsbD_eq fun i hi => ?_⟩
    · have hbit := congrArg (fun v => v.getLsbD (8 + i)) h
      simp only [BitVec.getLsbD_append] at hbit
      grind
    · have hbit := congrArg (fun v => v.getLsbD i) h
      simp only [BitVec.getLsbD_append] at hbit
      grind
  · rintro ⟨rfl, rfl⟩
    rfl

/-- The same state twice, four times, eight times. -/
def dup4 (v : BitVec 2) : BitVec 4 := v ++ v

@[inherit_doc dup4] def dup8 (v : BitVec 2) : BitVec 8 := dup4 v ++ dup4 v

@[inherit_doc dup4] def dup16 (v : BitVec 2) : BitVec 16 := dup8 v ++ dup8 v

theorem getLsbD_dup4 (i : Nat) : (dup4 v).getLsbD i = (decide (i < 4) && v.getLsbD (i % 2)) := by
  rw [dup4, BitVec.getLsbD_append]
  grind [BitVec.getLsbD_of_ge]

theorem getLsbD_dup8 (i : Nat) : (dup8 v).getLsbD i = (decide (i < 8) && v.getLsbD (i % 2)) := by
  rw [dup8, BitVec.getLsbD_append, getLsbD_dup4, getLsbD_dup4]
  grind

@[simp] theorem extract_dup8 : extractVabits2FromVabits8 a (dup8 v) = v := by
  apply BitVec.eq_of_getLsbD_eq
  intro i hi
  rw [getLsbD_extract, getLsbD_dup8]
  grind

/-- A byte is determined by its fields. -/
theorem vabits8_ext (h : ∀ x, extractVabits2FromVabits8 x b = extractVabits2FromVabits8 x b') :
    b = b' := by
  apply BitVec.eq_of_getLsbD_eq
  intro i hi
  have hbit := congrArg (fun v => v.getLsbD (i % 2)) (h (i / 2))
  simp only [getLsbD_extract] at hbit
  rw [show i / 2 % 4 * 2 + i % 2 = i by omega, decide_eq_true (by omega)] at hbit
  simpa using hbit

/-- What a fast path sees when it looks at four bytes at once. -/
theorem vabits8_eq_iff : b = dup8 v ↔ ∀ x, extractVabits2FromVabits8 x b = v := by
  constructor
  · rintro rfl x
    exact extract_dup8
  · intro h
    exact vabits8_ext fun x => by rw [h x, extract_dup8]

/-- What a fast path sees when it looks at two bytes at once. -/
theorem extractVabits4_eq_iff {vabits4 : BitVec 4} (ha : a % 2 = 0)
    (h : extractVabits4FromVabits8 a b = .ok vabits4) :
    vabits4 = dup4 v ↔ extractVabits2FromVabits8 a b = v ∧ extractVabits2FromVabits8 (a + 1) b = v := by
  obtain rfl : (0xf#8 &&& (b >>> (a % 4 / 2 * 4))).setWidth 4 = vabits4 := by
    simpa [extractVabits4FromVabits8, assertThat_of ha] using h
  constructor
  · intro h4
    have hbit := fun i => congrArg (fun v => v.getLsbD i) h4
    simp only [BitVec.getLsbD_setWidth, BitVec.getLsbD_and, BitVec.getLsbD_ushiftRight,
      getLsbD_fifteen, getLsbD_dup4] at hbit
    refine ⟨BitVec.eq_of_getLsbD_eq fun i hi => ?_, BitVec.eq_of_getLsbD_eq fun i hi => ?_⟩
    · have hi' := hbit i
      rw [getLsbD_extract]
      grind
    · have hi' := hbit (i + 2)
      rw [getLsbD_extract]
      grind
  · rintro ⟨h0, h1⟩
    refine BitVec.eq_of_getLsbD_eq fun i hi => ?_
    have hbit0 := congrArg (fun v => v.getLsbD (i % 2)) h0
    have hbit1 := congrArg (fun v => v.getLsbD (i % 2)) h1
    simp only [getLsbD_extract] at hbit0 hbit1
    simp only [BitVec.getLsbD_setWidth, BitVec.getLsbD_and, BitVec.getLsbD_ushiftRight,
      getLsbD_fifteen, getLsbD_dup4]
    grind

/-- What a fast path does when it sets two bytes at once. -/
theorem extract_insertVabits4 {b' : BitVec 8} (ha : a % 2 = 0)
    (h : insertVabits4IntoVabits8 a (dup4 v) b = .ok b') :
    extractVabits2FromVabits8 x b' = if x % 4 / 2 = a % 4 / 2 then v else extractVabits2FromVabits8 x b := by
  obtain rfl : ((b &&& ~~~(0xf#8 <<< (a % 4 / 2 * 4))) ||| ((dup4 v).setWidth 8 <<< (a % 4 / 2 * 4))) =
      b' := by
    simpa [insertVabits4IntoVabits8, assertThat_of ha] using h
  refine BitVec.eq_of_getLsbD_eq fun i hi => ?_
  simp only [getLsbD_extract, BitVec.getLsbD_or, BitVec.getLsbD_and, BitVec.getLsbD_not,
    BitVec.getLsbD_shiftLeft, BitVec.getLsbD_setWidth, getLsbD_fifteen, getLsbD_dup4]
  split
  · grind [BitVec.getLsbD_of_ge]
  · rw [getLsbD_extract]
    grind [BitVec.getLsbD_of_ge]

/-! ## Secondary maps -/

/-- `SecMap`: `vabits8[SM_CHUNKS]`. -/
abbrev SecMap := Nat → BitVec 8

/-- `SM_OFF`. The size of what a secondary map covers, `SM_SIZE`, is 65536. -/
def smOff (a : Nat) : Nat := a % 65536 / 4

/-- `SM_OFF_16`. -/
def smOff16 (a : Nat) : Nat := a % 65536 / 8

/-- `((UShort*)(sm->vabits8))[sm_off16]`, on a little-endian host. All constants that it is
compared with read the same on a big-endian one. -/
def getVabits16 (sm : SecMap) (smOff16 : Nat) : BitVec 16 := sm (2 * smOff16 + 1) ++ sm (2 * smOff16)

/-- `((UShort*)(sm->vabits8))[sm_off16] = vabits16`. -/
def setVabits16 (sm : SecMap) (smOff16 : Nat) (vabits16 : BitVec 16) : SecMap :=
  Function.update (Function.update sm (2 * smOff16) (vabits16.setWidth 8)) (2 * smOff16 + 1)
    ((vabits16 >>> 8).setWidth 8)

/-- `insert_vabits2_into_vabits8( a, vabits2, &(sm->vabits8[SM_OFF(a)]) )`. -/
def insertVabits2 (sm : SecMap) (a : Nat) (vabits2 : BitVec 2) : SecMap :=
  Function.update sm (smOff a) (insertVabits2IntoVabits8 a vabits2 (sm (smOff a)))

/-- The state of the byte at the address `a`, according to the secondary map of its 64 KB. -/
def vabits2In (sm : SecMap) (a : Nat) : BitVec 2 := extractVabits2FromVabits8 a (sm (smOff a))

variable {sm : SecMap} {v16 : BitVec 16}

theorem vabits2In_insertVabits2 :
    vabits2In (insertVabits2 sm a v) x = if x % 65536 = a % 65536 then v else vabits2In sm x := by
  have hoff : x % 65536 = a % 65536 ↔ smOff x = smOff a ∧ x % 4 = a % 4 := by
    unfold smOff
    omega
  simp only [vabits2In, insertVabits2, hoff]
  by_cases h : smOff x = smOff a
  · rw [h, Function.update_self]
    by_cases h4 : x % 4 = a % 4
    · rw [if_pos ⟨rfl, h4⟩, extract_congr h4, extract_insert_self]
    · rw [if_neg fun h => h4 h.2, extract_insert_ne h4]
  · rw [Function.update_of_ne h, if_neg fun h' => h h'.1]

theorem vabits2In_update {vabits8 : BitVec 8} :
    vabits2In (Function.update sm (smOff a) vabits8) x =
      if smOff x = smOff a then extractVabits2FromVabits8 x vabits8 else vabits2In sm x := by
  unfold vabits2In
  by_cases hoff : smOff x = smOff a
  · rw [hoff, Function.update_self, if_pos rfl]
  · rw [Function.update_of_ne hoff, if_neg hoff]

theorem vabits2In_setVabits16 :
    vabits2In (setVabits16 sm (smOff16 a) (dup16 v)) x =
      if smOff16 x = smOff16 a then v else vabits2In sm x := by
  have hlo : (dup16 v).setWidth 8 = dup8 v := by
    revert v
    decide
  have hhi : (dup16 v >>> 8).setWidth 8 = dup8 v := by
    revert v
    decide
  have hoff : smOff16 x = smOff16 a ↔ smOff x = 2 * smOff16 a + 1 ∨ smOff x = 2 * smOff16 a := by
    unfold smOff smOff16
    omega
  simp only [vabits2In, setVabits16, hlo, hhi, hoff]
  by_cases hodd : smOff x = 2 * smOff16 a + 1
  · rw [if_pos (.inl hodd), hodd, Function.update_self, extract_dup8]
  · rw [Function.update_of_ne hodd]
    by_cases heven : smOff x = 2 * smOff16 a
    · rw [if_pos (.inr heven), heven, Function.update_self, extract_dup8]
    · rw [Function.update_of_ne heven, if_neg (by grind)]

/-- What a fast path sees in a secondary map when it looks at four bytes at once. -/
theorem secMap_eq_dup8_iff :
    sm (smOff a) = dup8 v ↔ ∀ x, smOff x = smOff a → vabits2In sm x = v := by
  rw [vabits8_eq_iff]
  constructor
  · intro h x hx
    rw [vabits2In, hx]
    exact h x
  · intro h x
    have hoff : smOff (a % 65536 / 4 * 4 + x % 4) = smOff a := by
      simp only [smOff]
      omega
    have hx := h _ hoff
    rw [vabits2In, hoff] at hx
    rw [← hx]
    exact extract_congr (by omega)

/-- What a fast path sees in a secondary map when it looks at eight bytes at once. -/
theorem getVabits16_eq_iff :
    getVabits16 sm (smOff16 a) = dup16 v ↔ ∀ x, smOff16 x = smOff16 a → vabits2In sm x = v := by
  have hsplit : getVabits16 sm (smOff16 a) = dup16 v ↔
      sm (2 * smOff16 a + 1) = dup8 v ∧ sm (2 * smOff16 a) = dup8 v := append_eq_append_iff
  have hlo : smOff (a % 65536 / 8 * 8) = 2 * smOff16 a := by
    simp only [smOff, smOff16]
    omega
  have hhi : smOff (a % 65536 / 8 * 8 + 4) = 2 * smOff16 a + 1 := by
    simp only [smOff, smOff16]
    omega
  rw [hsplit, ← hhi, ← hlo, secMap_eq_dup8_iff, secMap_eq_dup8_iff]
  constructor
  · rintro ⟨h1, h0⟩ x hx
    by_cases hodd : smOff x = smOff (a % 65536 / 8 * 8 + 4)
    · exact h1 x hodd
    · refine h0 x ?_
      simp only [smOff, smOff16] at hx hodd ⊢
      omega
  · intro h
    refine ⟨fun x hx => h x ?_, fun x hx => h x ?_⟩ <;>
      simp only [smOff, smOff16] at hx ⊢ <;> omega

/-! ## Filling a secondary map -/

/-- Set the states of `n` bytes from `a` on, one byte at a time. -/
def fillBytes (vabits2 : BitVec 2) : SecMap → Nat → Nat → SecMap
  | sm, _, 0 => sm
  | sm, a, n + 1 => fillBytes vabits2 (insertVabits2 sm a vabits2) (a + 1) n

/-- Set the states of `n` times eight bytes from `a` on, eight bytes at a time. -/
def fillWords (vabits16 : BitVec 16) : SecMap → Nat → Nat → SecMap
  | sm, _, 0 => sm
  | sm, a, n + 1 => fillWords vabits16 (setVabits16 sm (smOff16 a) vabits16) (a + 8) n

theorem vabits2In_fillBytes {n : Nat} (hn : a % 65536 + n ≤ 65536) :
    vabits2In (fillBytes v sm a n) x =
      if a % 65536 ≤ x % 65536 ∧ x % 65536 < a % 65536 + n then v else vabits2In sm x := by
  induction n generalizing sm a with
  | zero => rw [fillBytes, if_neg (by omega)]
  | succ n ih =>
    rw [fillBytes]
    cases n with
    | zero =>
      rw [fillBytes, vabits2In_insertVabits2]
      exact if_congr (by omega) rfl rfl
    | succ n =>
      have hnext : (a + 1) % 65536 = a % 65536 + 1 := by
        omega
      rw [ih (by omega), hnext, vabits2In_insertVabits2]
      grind

theorem vabits2In_fillWords {n : Nat} (ha : a % 8 = 0) (hn : a % 65536 + 8 * n ≤ 65536) :
    vabits2In (fillWords (dup16 v) sm a n) x =
      if a % 65536 ≤ x % 65536 ∧ x % 65536 < a % 65536 + 8 * n then v else vabits2In sm x := by
  induction n generalizing sm a with
  | zero => rw [fillWords, if_neg (by omega)]
  | succ n ih =>
    have hone : smOff16 x = smOff16 a ↔ a % 65536 ≤ x % 65536 ∧ x % 65536 < a % 65536 + 8 := by
      simp only [smOff16]
      omega
    rw [fillWords]
    cases n with
    | zero =>
      rw [fillWords, vabits2In_setVabits16]
      exact if_congr hone rfl rfl
    | succ n =>
      have hnext : (a + 8) % 65536 = a % 65536 + 8 := by
        omega
      rw [ih (by omega) (by omega), hnext, vabits2In_setVabits16]
      simp only [hone]
      grind

end Memcheck

end Valgrind
