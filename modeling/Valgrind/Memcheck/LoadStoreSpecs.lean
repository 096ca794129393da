import Valgrind.Memcheck.LoadStore

/-!
# Fast loads and stores equal the byte-wise definition

`LoadsV` and `StoresV` are the byte-wise definitions. All paths of `mc_LOADV...` and
`mc_STOREV...` are shown to meet them, first the loops over bytes and then the fast paths in
front of them.
-/

namespace Valgrind

namespace Memcheck

section

variable [Machine]

open Machine

/-! ## Bytes of a word -/

/-- The `i`-th byte of a word, from the least significant one up. -/
def vbyte (v : BitVec 64) (i : Nat) : BitVec 8 := (v >>> (8 * i)).setWidth 8

section Bytes

variable {v : BitVec 64} {b : BitVec 8} {i j : Nat}

omit [Machine] in
theorem getLsbD_vbyte : (vbyte v i).getLsbD j = (decide (j < 8) && v.getLsbD (8 * i + j)) := by
  rw [vbyte, BitVec.getLsbD_setWidth, BitVec.getLsbD_ushiftRight]

omit [Machine] in
theorem vbyte_zero : vbyte 0 i = 0 := by
  refine BitVec.eq_of_getLsbD_eq fun j hj => ?_
  simp [getLsbD_vbyte]

omit [Machine] in
theorem vbyte_allOnes (hi : i < 8) : vbyte (BitVec.allOnes 64) i = 0xff := by
  interval_cases i <;> rfl

omit [Machine] in
theorem setWidth_eq_vbyte : v.setWidth 8 = vbyte v 0 := by
  rw [vbyte, Nat.mul_zero, BitVec.ushiftRight_zero]

omit [Machine] in
theorem vbyte_ushiftRight : vbyte (v >>> 8) i = vbyte v (i + 1) := by
  rw [vbyte, vbyte, ← BitVec.shiftRight_add]
  congr 2
  omega

omit [Machine] in
theorem vbyte_push_zero : vbyte ((v <<< 8) ||| b.setWidth 64) 0 = b := by
  refine BitVec.eq_of_getLsbD_eq fun j hj => ?_
  rw [getLsbD_vbyte, BitVec.getLsbD_or, BitVec.getLsbD_shiftLeft, BitVec.getLsbD_setWidth]
  grind

omit [Machine] in
theorem vbyte_push_succ (hi : i + 1 < 8) :
    vbyte ((v <<< 8) ||| b.setWidth 64) (i + 1) = vbyte v i := by
  refine BitVec.eq_of_getLsbD_eq fun j hj => ?_
  rw [getLsbD_vbyte, getLsbD_vbyte, BitVec.getLsbD_or, BitVec.getLsbD_shiftLeft, BitVec.getLsbD_setWidth]
  have hb : b.getLsbD (8 * (i + 1) + j) = false := BitVec.getLsbD_of_ge _ _ (by omega)
  rw [hb]
  grind

omit [Machine] in
/-- The low word decides about the low bytes. -/
theorem vbyte_and_low (hi : i < 4) : vbyte (v &&& 0xFFFFFFFF) i = vbyte v i := by
  refine BitVec.eq_of_getLsbD_eq fun j hj => ?_
  have hlow : (0xFFFFFFFF : BitVec 64).getLsbD (8 * i + j) = true := by
    have : (0xFFFFFFFF : BitVec 64) = (BitVec.allOnes 32).setWidth 64 := by decide
    rw [this, BitVec.getLsbD_setWidth, BitVec.getLsbD_allOnes]
    simp only [Bool.and_eq_true, decide_eq_true_eq]
    omega
  rw [getLsbD_vbyte, getLsbD_vbyte, BitVec.getLsbD_and, hlow, Bool.and_true]

theorem vbyte_toUWord (hi : i < 4) : vbyte (toUWord v) i = vbyte v i := by
  unfold toUWord
  split
  · exact vbyte_and_low hi
  · rfl

end Bytes

/-! ## The byte-wise definition -/

variable {plo be : Bool} {s : Shadow} {A : VBits} {a x szB n : Nat} {v : BitVec 64} {al : ShadowAlloc}

/-- Some byte of the range is not addressable. -/
def Unaddressable (A : VBits) (a szB : Nat) : Prop := ∃ i < szB, A (addW a i) = none

/-- A load from a place that is partly addressable is allowed if the flag is set, and it is a
word-sized, word-aligned load. -/
def LoadExempt (plo : Bool) (A : VBits) (a szB : Nat) : Prop :=
  plo = true ∧ szB = wordB ∧ a % wordB = 0 ∧ ∃ i < szB, A (addW a i) ≠ none

/-- What a load does: the V bits of the bytes make up the result, where bytes that are not
addressable count as defined. -/
structure LoadsV (plo : Bool) (s : Shadow) (A : VBits) (a szB : Nat) (be : Bool)
    (res : BitVec 64 × Shadow) : Prop where
  bits : ∀ i < szB, vbyte res.1 i = (A (addW a (byteOffsetW szB be i))).getD vBits8Defined
  rep : res.2.Rep A
  error : Unaddressable A a szB → ¬ LoadExempt plo A a szB →
    res.2.errors = s.errors ++ [⟨a, szB, false⟩]
  no_error : ¬ Unaddressable A a szB ∨ LoadExempt plo A a szB → res.2.errors = s.errors

/-- Store V bits into the addressable bytes of a range. -/
def storeV (A : VBits) (a szB : Nat) (be : Bool) (v : BitVec 64) : VBits := fun x =>
  if subW x a < szB ∧ (A x).isSome then some (vbyte v (byteOffsetW szB be (subW x a))) else A x

/-- What a store does. -/
structure StoresV (s : Shadow) (A : VBits) (a szB : Nat) (be : Bool) (v : BitVec 64) (s' : Shadow) :
    Prop where
  rep : s'.Rep (storeV A a szB be v)
  error : Unaddressable A a szB → s'.errors = s.errors ++ [⟨a, szB, true⟩]
  no_error : ¬ Unaddressable A a szB → s'.errors = s.errors

/-! ## The loops over bytes -/

omit [Machine] in
theorem byteOffsetW_lt {i : Nat} (hi : i < szB) : byteOffsetW szB be i < szB := by
  unfold byteOffsetW
  split <;> omega

omit [Machine] in
theorem byteOffsetW_byteOffsetW {i : Nat} (hi : i < szB) :
    byteOffsetW szB be (byteOffsetW szB be i) = i := by
  unfold byteOffsetW
  split <;> omega

/-- The number of bytes that are not addressable, among the `n` least significant ones. -/
def numBad (A : VBits) (a szB : Nat) (be : Bool) (n : Nat) : Nat :=
  (List.range n).countP fun i => decide (A (addW a (byteOffsetW szB be i)) = none)

theorem numBad_succ : numBad A a szB be (n + 1) = numBad A a szB be n +
    if A (addW a (byteOffsetW szB be n)) = none then 1 else 0 := by
  rw [numBad, List.range_succ, List.countP_append, numBad]
  congr 1
  simp

theorem numBad_pos : 0 < numBad A a szB be szB ↔ Unaddressable A a szB := by
  rw [numBad, List.countP_pos_iff]
  constructor
  · rintro ⟨i, hi, hnone⟩
    exact ⟨_, byteOffsetW_lt (List.mem_range.mp hi), of_decide_eq_true hnone⟩
  · rintro ⟨i, hi, hnone⟩
    refine ⟨byteOffsetW szB be i, List.mem_range.mpr (byteOffsetW_lt hi), decide_eq_true ?_⟩
    rw [byteOffsetW_byteOffsetW hi]
    exact hnone

theorem numBad_lt (be : Bool) : numBad A a szB be szB < szB ↔ ∃ i < szB, A (addW a i) ≠ none := by
  have hle : numBad A a szB be szB ≤ szB := by
    have := List.countP_le_length (l := List.range szB)
      (p := fun i => decide (A (addW a (byteOffsetW szB be i)) = none))
    rwa [List.length_range] at this
  have heq : numBad A a szB be szB = szB ↔ ∀ i < szB, A (addW a i) = none := by
    have hall := List.countP_eq_length (l := List.range szB)
      (p := fun i => decide (A (addW a (byteOffsetW szB be i)) = none))
    rw [List.length_range] at hall
    refine hall.trans ⟨fun h i hi => ?_, fun h i hi => ?_⟩
    · have hi' := of_decide_eq_true (h (byteOffsetW szB be i) (List.mem_range.mpr (byteOffsetW_lt hi)))
      rwa [byteOffsetW_byteOffsetW hi] at hi'
    · exact decide_eq_true (h _ (byteOffsetW_lt (List.mem_range.mp hi)))
  constructor
  · intro hlt
    by_contra hno
    have := heq.mpr fun i hi => by
      by_contra hne
      exact hno ⟨i, hi, hne⟩
    omega
  · rintro ⟨i, hi, hne⟩
    refine lt_of_le_of_ne hle fun h => hne (heq.mp h i hi)

/-- The loop of `mc_LOADVn_slow`. -/
theorem loadvLoop_spec (a szB : Nat) (be : Bool) (h : s.Rep A) (hn : n ≤ 8) (v : BitVec 64) (bad : Nat) :
    ∃ v' maps', loadvLoop a szB be n v bad s =
        .ok (v', bad + numBad A a szB be n, { s with maps := maps' }) ∧ Quiet s.maps maps' ∧
      (∀ i < n, vbyte v' i = (A (addW a (byteOffsetW szB be i))).getD vBits8Defined) ∧
      ∀ i, n ≤ i → i < 8 → vbyte v' i = vbyte v (i - n) := by
  induction n generalizing s v bad with
  | zero => exact ⟨v, s.maps, rfl, .refl h.inv, by simp, fun i _ _ => rfl⟩
  | succ n ih =>
    obtain ⟨maps₁, hget, hq₁⟩ := getVbits8_spec (a := addW a (byteOffsetW szB be n)) h (addW_lt _ _)
    obtain ⟨v', maps₂, hrun, hq₂, hlow, hhigh⟩ := ih (h.quiet hq₁) (by omega)
      ((v <<< 8) ||| ((A (addW a (byteOffsetW szB be n))).getD vBits8Defined).setWidth 64)
      (if (A (addW a (byteOffsetW szB be n))).isSome then bad else bad + 1)
    refine ⟨v', maps₂, ?_, hq₁.trans hq₂, fun i hi => ?_, fun i hi hi8 => ?_⟩
    · rw [loadvLoop, hget, ok_bind]
      dsimp only
      rw [hrun, numBad_succ]
      refine congrArg (fun k => Except.ok (v', k, _)) ?_
      cases A (addW a (byteOffsetW szB be n)) <;> simp <;> omega
    · rcases Nat.lt_or_ge i n with hlt | hge
      · exact hlow i hlt
      · obtain rfl : i = n := by omega
        rw [hhigh i (Nat.le_refl _) (by omega), Nat.sub_self, vbyte_push_zero]
    · rw [hhigh i (by omega) hi8, show i - n = i - (n + 1) + 1 by omega, vbyte_push_succ (by omega)]

omit [Machine] in
theorem VSize.szB_cases (sz : VSize) : sz.szB = 8 ∨ sz.szB = 4 ∨ sz.szB = 2 ∨ sz.szB = 1 := by
  cases sz <;> simp [VSize.szB]

/-- `mc_LOADVn_slow` without the semi-fast cases. -/
theorem loadvSlowest_spec (h : s.Rep A) (sz : VSize) :
    ∃ res, loadvSlowest plo s a sz.szB be = .ok res ∧ LoadsV plo s A a sz.szB be res := by
  have hsz := sz.szB_cases
  obtain ⟨v', maps', hrun, hq, hbits, -⟩ :=
    loadvLoop_spec a sz.szB be h (n := sz.szB) (by omega) (BitVec.allOnes 64) 0
  rw [Nat.zero_add] at hrun
  unfold loadvSlowest
  rw [assertThat_of hsz, ok_bind, hrun, ok_bind]
  have hrep := h.quiet hq
  have hexempt : (plo && decide (sz.szB = wordB ∧ a % wordB = 0 ∧ numBad A a sz.szB be sz.szB < wordB)) = false ↔
      ¬ LoadExempt plo A a sz.szB := by
    rw [Bool.and_eq_false_iff, decide_eq_false_iff_not, LoadExempt, ← numBad_lt be]
    cases plo
    · simp
    · simp only [Bool.true_eq_false, false_or, true_and, not_iff_not]
      constructor
      · rintro ⟨he, hw, hlt⟩
        exact ⟨he, hw, he ▸ hlt⟩
      · rintro ⟨he, hw, hlt⟩
        exact ⟨he, hw, he ▸ hlt⟩
  refine ⟨_, rfl, hbits, ?_, fun hbad hno => ?_, fun hok => ?_⟩
  · dsimp only
    split
    · exact ⟨hrep.inv, hrep.nodes, hrep.state, hrep.entry⟩
    · exact hrep
  · dsimp only
    rw [if_pos ⟨numBad_pos.mpr hbad, hexempt.mpr hno⟩]
    rfl
  · dsimp only
    rw [if_neg]
    rintro ⟨hpos, hno⟩
    rcases hok with hok | hok
    · exact hok (numBad_pos.mp hpos)
    · exact hexempt.mp hno hok

/-- A store of which the `k` least significant bytes have been written. -/
def storeUpTo (A : VBits) (a szB : Nat) (be : Bool) (v : BitVec 64) (k : Nat) : VBits := fun x =>
  if (subW x a < szB ∧ byteOffsetW szB be (subW x a) < k) ∧ (A x).isSome
  then some (vbyte v (byteOffsetW szB be (subW x a))) else A x

theorem addW_subW (ha : a < wordMod) (hx : x < wordMod) : addW a (subW x a) = x := by
  unfold addW subW
  rcases wordMod_cases with hw | hw <;> rw [hw] at ha hx ⊢ <;> omega

theorem subW_addW {o : Nat} (ha : a < wordMod) (ho : o < wordMod) : subW (addW a o) a = o := by
  unfold addW subW
  rcases wordMod_cases with hw | hw <;> rw [hw] at ha ho ⊢ <;> omega

theorem storeByte_storeUpTo (ha : a < wordMod) (hx : x < wordMod) (hszB : szB ≤ 8) {k : Nat} (hk : k < szB) :
    storeByte (storeUpTo A a szB be v k) (addW a (byteOffsetW szB be k)) (vbyte v k) x =
      storeUpTo A a szB be v (k + 1) x := by
  have hoff : byteOffsetW szB be k < wordMod :=
    lt_wordMod (Nat.lt_of_lt_of_le (byteOffsetW_lt hk) (by omega))
  have hself : subW (addW a (byteOffsetW szB be k)) a = byteOffsetW szB be k := subW_addW ha hoff
  have hcur : storeUpTo A a szB be v k (addW a (byteOffsetW szB be k)) = A (addW a (byteOffsetW szB be k)) := by
    unfold storeUpTo
    rw [hself, byteOffsetW_byteOffsetW hk, if_neg (by omega)]
  have hiff : x = addW a (byteOffsetW szB be k) ↔
      subW x a < szB ∧ byteOffsetW szB be (subW x a) = k := by
    constructor
    · rintro rfl
      rw [hself, byteOffsetW_byteOffsetW hk]
      exact ⟨byteOffsetW_lt hk, rfl⟩
    · rintro ⟨hlt, rfl⟩
      rw [byteOffsetW_byteOffsetW hlt, addW_subW ha hx]
  unfold storeByte
  rw [hcur]
  by_cases hxa : x = addW a (byteOffsetW szB be k)
  · obtain ⟨hlt, hk'⟩ := hiff.mp hxa
    have hnew : storeUpTo A a szB be v (k + 1) x = if (A x).isSome then some (vbyte v k) else A x := by
      unfold storeUpTo
      rw [hk']
      exact if_congr (by simp [hlt]) rfl rfl
    rw [hnew, ← hxa]
    by_cases hsome : (A x).isSome
    · rw [if_pos hsome, if_pos hsome, Function.update_self]
    · rw [if_neg hsome, if_neg hsome, hxa]
      exact hcur
  · have hsame : storeUpTo A a szB be v (k + 1) x = storeUpTo A a szB be v k x := by
      unfold storeUpTo
      refine if_congr ?_ rfl rfl
      have hne : ¬ (subW x a < szB ∧ byteOffsetW szB be (subW x a) = k) := fun h => hxa (hiff.mpr h)
      constructor
      · rintro ⟨⟨hlt, hlt'⟩, hsome⟩
        exact ⟨⟨hlt, by omega⟩, hsome⟩
      · rintro ⟨⟨hlt, hlt'⟩, hsome⟩
        exact ⟨⟨hlt, by omega⟩, hsome⟩
    rw [hsame]
    split
    · rw [Function.update_of_ne hxa]
    · rfl

/-- The loop of `mc_STOREVn_slow`. -/
theorem storevLoop_spec (al : ShadowAlloc) {k : Nat} (ha : a < wordMod) (hszB : szB ≤ 8) (hk : k + n = szB) (bad : Nat)
    (h : s.Rep (storeUpTo A a szB be v k)) :
    Returns al (storevLoop al a szB be (List.range' k n) (v >>> (8 * k)) bad s) fun (bad', s') =>
      bad' + numBad A a szB be k = bad + numBad A a szB be szB ∧
        s'.Rep (storeUpTo A a szB be v szB) ∧ s'.errors = s.errors := by
  induction n generalizing s k bad with
  | zero =>
    obtain rfl : k = szB := by omega
    exact .of_ok ⟨rfl, h, rfl⟩
  | succ n ih =>
    have hklt : k < szB := by omega
    have hbyte : (v >>> (8 * k)).setWidth 8 = vbyte v k := rfl
    have hshift : (v >>> (8 * k)) >>> 8 = v >>> (8 * (k + 1)) := by
      rw [← BitVec.shiftRight_add]
      congr 1
    have hsome : (storeUpTo A a szB be v k (addW a (byteOffsetW szB be k))).isSome =
        (A (addW a (byteOffsetW szB be k))).isSome := by
      unfold storeUpTo
      split
      · rename_i hc
        rw [hc.2]
        rfl
      · rfl
    rw [List.range'_succ, storevLoop, hbyte, hshift]
    refine (setVbits8_spec h (addW_lt _ _) (vbyte v k)).bind fun (ok, s₁) ⟨hok, hrep, herr⟩ => ?_
    have hrep' := hrep.congr fun x hx => storeByte_storeUpTo ha hx hszB hklt
    refine (ih (k := k + 1) (by omega) _ hrep').mono fun (bad', s') ⟨hbad, hr, he⟩ => ?_
    refine ⟨?_, hr, he.trans herr⟩
    rw [numBad_succ] at hbad
    rw [hok, hsome] at hbad
    cases hA : A (addW a (byteOffsetW szB be k)) with
    | none => simp [hA] at hbad; omega
    | some w => simpa [hA] using hbad

theorem storeUpTo_zero : storeUpTo A a szB be v 0 x = A x := by
  unfold storeUpTo
  rw [if_neg (by omega)]

theorem storeUpTo_szB : storeUpTo A a szB be v szB x = storeV A a szB be v x := by
  unfold storeUpTo storeV
  refine if_congr ?_ rfl rfl
  constructor
  · rintro ⟨⟨hlt, -⟩, hsome⟩
    exact ⟨hlt, hsome⟩
  · rintro ⟨hlt, hsome⟩
    exact ⟨⟨hlt, byteOffsetW_lt hlt⟩, hsome⟩

/-- `mc_STOREVn_slow` without the semi-fast cases. -/
theorem storevSlowest_spec (al : ShadowAlloc) (be : Bool) (h : s.Rep A) (ha : a < wordMod) (sz : VSize) (v : BitVec 64) :
    Returns al (storevSlowest al s a sz.szB v be) (StoresV s A a sz.szB be v) := by
  have hsz := sz.szB_cases
  unfold storevSlowest
  rw [assertThat_of hsz, ok_bind, List.range_eq_range']
  have h₀ : s.Rep (storeUpTo A a sz.szB be v 0) := h.congr fun x _ => storeUpTo_zero.symm
  have hloop := storevLoop_spec al (n := sz.szB) ha (by omega) (by omega) 0 h₀
  rw [Nat.mul_zero, BitVec.ushiftRight_zero] at hloop
  refine hloop.bind fun (bad, s') ⟨hbad, hrep, herr⟩ => .of_ok ?_
  have hbad' : bad = numBad A a sz.szB be sz.szB := by
    have hz : numBad A a sz.szB be 0 = 0 := rfl
    omega
  have hrep' := hrep.congr fun x _ => storeUpTo_szB
  refine ⟨?_, fun hun => ?_, fun hun => ?_⟩
  · split
    · exact ⟨hrep'.inv, hrep'.nodes, hrep'.state, hrep'.entry⟩
    · exact hrep'
  · rw [if_pos (by rw [hbad']; exact numBad_pos.mpr hun)]
    exact congrArg (· ++ _) herr
  · rw [if_neg (by rw [hbad']; exact fun hpos => hun (numBad_pos.mp hpos))]
    exact herr

/-! ## Aligned and low -/

omit [Machine] in
theorem and_low_of_and_eq_zero {m k : Nat} (h : a &&& m = 0) (hm : m &&& (2 ^ k - 1) = 2 ^ k - 1) :
    a % 2 ^ k = 0 := by
  rw [← Nat.and_two_pow_sub_one_eq_mod, ← hm, ← Nat.and_assoc, h, Nat.zero_and]

omit [Machine] in
theorem lt_of_and_eq_zero {m : Nat} (ha : a < 2 ^ 64) (h : a &&& m = 0) (hm : m >>> 35 = 2 ^ 29 - 1) :
    a < 2 ^ 35 := by
  have hshift : (a &&& m) >>> 35 = 0 := by rw [h, Nat.zero_shiftRight]
  rw [Nat.shiftRight_and_distrib, hm, Nat.and_two_pow_sub_one_eq_mod, Nat.shiftRight_eq_div_pow] at hshift
  omega

/-- `UNALIGNED_OR_HIGH` does what its name says. -/
theorem aligned_low (ha : a < wordMod) {k : Nat} (hk : k ≤ 3) (h : unalignedOrHigh a (2 ^ k) = false) :
    a % 2 ^ k = 0 ∧ a ≤ maxPrimaryAddress := by
  have hand : a &&& mask (2 ^ k) = 0 := by simpa [unalignedOrHigh] using h
  have hmask : mask (2 ^ k) &&& (2 ^ k - 1) = 2 ^ k - 1 ∧
      (wordB = 8 → mask (2 ^ k) >>> 35 = 2 ^ 29 - 1) := by
    unfold mask wordMod nPrimaryMap
    rcases word_ok with hw | hw <;> rw [hw] <;> interval_cases k <;> decide
  refine ⟨and_low_of_and_eq_zero hand hmask.1, ?_⟩
  unfold maxPrimaryAddress nPrimaryMap
  unfold wordMod at ha
  rcases word_ok with hw | hw
  · rw [hw] at ha ⊢
    rw [if_pos rfl]
    omega
  · rw [hw] at ha ⊢
    rw [if_neg (by decide)]
    have := lt_of_and_eq_zero ha hand (hmask.2 hw)
    omega

theorem readingLow_eq (hlow : a ≤ maxPrimaryAddress) :
    getSecmapForReadingLow s a = installed s.maps (a / 65536) := by
  rw [getSecmapForReadingLow, installed, if_pos (le_maxPrimaryAddress_iff.mp hlow)]

/-! ## What the fast paths see -/

theorem compress_eq_defined {o : Option (BitVec 8)} (h : compress o = vaBits2Defined) :
    o = some vBits8Defined := by
  cases o with
  | none => simp [compress] at h
  | some w =>
    unfold compress at h
    dsimp only at h
    split at h
    · rename_i hw
      rw [hw]
    · split at h <;> simp at h

theorem compress_eq_undefined {o : Option (BitVec 8)} (h : compress o = vaBits2Undefined) :
    o = some vBits8Undefined := by
  cases o with
  | none => simp [compress] at h
  | some w =>
    unfold compress at h
    dsimp only at h
    split at h
    · simp at h
    · split at h
      · rename_i hw
        rw [hw]
      · simp at h

theorem addW_aligned {i k : Nat} (ha : a < wordMod) (hk : k = 1 ∨ k = 2 ∨ k = 4 ∨ k = 8) (halign : a % k = 0) (hi : i < k) :
    addW a i = a + i ∧ a + i < wordMod := by
  have hlt : a + i < wordMod := by
    rcases wordMod_cases with hw | hw <;> rw [hw] at ha ⊢ <;> rcases hk with rfl | rfl | rfl | rfl <;> omega
  exact ⟨addW_of_lt hlt, hlt⟩

/-- Four bytes in the same state. -/
theorem Shadow.Rep.of_vabits8 (h : s.Rep A) {p : BitVec 2}
    (hp : s.maps.contents (installed s.maps (a / 65536)) (smOff a) = dup8 p) (hx : x < wordMod)
    (hword : x / 4 = a / 4) : compress (A x) = p := by
  have hoff : smOff x = smOff a := by
    unfold smOff
    omega
  rw [← h.state x hx, vabits2At, show x / 65536 = a / 65536 by omega]
  exact secMap_eq_dup8_iff.mp hp x hoff

/-- Eight bytes in the same state. -/
theorem Shadow.Rep.of_vabits16 (h : s.Rep A) {p : BitVec 2}
    (hp : getVabits16 (s.maps.contents (installed s.maps (a / 65536))) (smOff16 a) = dup16 p)
    (hx : x < wordMod) (hword : x / 8 = a / 8) : compress (A x) = p := by
  have hoff : smOff16 x = smOff16 a := by
    unfold smOff16
    omega
  rw [← h.state x hx, vabits2At, show x / 65536 = a / 65536 by omega]
  exact getVabits16_eq_iff.mp hp x hoff

/-- A load of bytes that all have the same V bits. -/
theorem loadsV_const {c : BitVec 8} {s' : Shadow} (hs' : s'.Rep A) (herr : s'.errors = s.errors)
    (hA : ∀ i < szB, A (addW a i) = some c) (hv : ∀ i < szB, vbyte v i = c) :
    LoadsV plo s A a szB be (v, s') := by
  have hok : ¬ Unaddressable A a szB := by
    rintro ⟨i, hi, hnone⟩
    simp [hA i hi] at hnone
  refine ⟨fun i hi => ?_, hs', fun hun => absurd hun hok, fun _ => herr⟩
  rw [hv i hi, hA _ (byteOffsetW_lt hi)]
  rfl

/-- A store of the same V bits into bytes that are all addressable. -/
theorem storesV_const {c : BitVec 8} (h : s.Rep A) (ha : a < wordMod)
    (hA : ∀ i < szB, (A (addW a i)).isSome) (hv : ∀ i < szB, vbyte v i = c)
    (hc : compress (some c) ≠ vaBits2Partdefined) {maps' : SecMaps}
    (hshows : Shows maps' (paint (vabits2At s.maps) a szB (compress (some c)))) :
    StoresV s A a szB be v { s with maps := maps' } := by
  have hok : ¬ Unaddressable A a szB := by
    rintro ⟨i, hi, hnone⟩
    have := hA i hi
    simp [hnone] at this
  refine ⟨(h.paint hc hshows).congr fun x hx => ?_, fun hun => absurd hun hok, fun _ => rfl⟩
  unfold paint storeV
  by_cases hin : subW x a < szB
  · have hsome := hA _ hin
    rw [addW_subW ha hx] at hsome
    rw [if_pos hin, if_pos ⟨hin, hsome⟩, hv _ (byteOffsetW_lt hin)]
  · rw [if_neg hin, if_neg fun h => hin h.1]

/-! ## Loads -/

/-- A load returns, and does what it should. -/
def LoadOk (plo : Bool) (s : Shadow) (A : VBits) (a szB : Nat) (be : Bool)
    (r : Result (BitVec 64 × Shadow)) : Prop :=
  ∃ res, r = .ok res ∧ LoadsV plo s A a szB be res

/-- The bytes of a range are all in the same state. -/
def InState (A : VBits) (a szB : Nat) (p : BitVec 2) : Prop := ∀ i < szB, compress (A (addW a i)) = p

/-- A fast path looks whether all bytes are defined, and whether all of them are undefined. -/
theorem loadFast_spec (h : s.Rep A) {defd undefd : Prop} [Decidable defd] [Decidable undefd]
    (hdef : defd → InState A a szB vaBits2Defined) (hundef : undefd → InState A a szB vaBits2Undefined)
    {vd vu : BitVec 64} (hvd : ∀ i < szB, vbyte vd i = vBits8Defined)
    (hvu : ∀ i < szB, vbyte vu i = vBits8Undefined) {slow : Result (BitVec 64 × Shadow)}
    (hslow : LoadOk plo s A a szB be slow) :
    LoadOk plo s A a szB be (if defd then pure (vd, s) else if undefd then pure (vu, s) else slow) := by
  by_cases hd : defd
  · rw [if_pos hd]
    exact ⟨_, rfl, loadsV_const h rfl (fun i hi => compress_eq_defined (hdef hd i hi)) hvd⟩
  rw [if_neg hd]
  by_cases hu : undefd
  · rw [if_pos hu]
    exact ⟨_, rfl, loadsV_const h rfl (fun i hi => compress_eq_undefined (hundef hu i hi)) hvu⟩
  · rw [if_neg hu]
    exact hslow

/-- What is seen of eight bytes. -/
theorem inState_of_vabits16 (h : s.Rep A) (ha : a < wordMod) (halign : a % 8 = 0) (p : BitVec 2)
    (hp : getVabits16 (s.maps.contents (installed s.maps (a / 65536))) (smOff16 a) = dup16 p) :
    InState A a 8 p := by
  intro i hi
  obtain ⟨hadd, hlt⟩ := addW_aligned ha (k := 8) (by omega) halign hi
  rw [hadd]
  exact h.of_vabits16 hp hlt (by omega)

/-- What is seen of the bytes among four bytes. -/
theorem inState_of_vabits8 (h : s.Rep A) (ha : a < wordMod) (hsz : szB = 1 ∨ szB = 2 ∨ szB = 4)
    (halign : a % szB = 0) (p : BitVec 2)
    (hp : s.maps.contents (installed s.maps (a / 65536)) (smOff a) = dup8 p) :
    InState A a szB p := by
  intro i hi
  obtain ⟨hadd, hlt⟩ := addW_aligned ha (by omega) halign hi
  rw [hadd]
  refine h.of_vabits8 hp hlt ?_
  rcases hsz with rfl | rfl | rfl <;> omega

/-- What is seen of two bytes. -/
theorem inState_of_vabits4 (h : s.Rep A) (ha : a < wordMod) (halign : a % 2 = 0) (p : BitVec 2)
    {vabits4 : BitVec 4}
    (hx : extractVabits4FromVabits8 a (s.maps.contents (installed s.maps (a / 65536)) (smOff a)) = .ok vabits4)
    (hp : vabits4 = dup4 p) : InState A a 2 p := by
  obtain ⟨h0, h1⟩ := (extractVabits4_eq_iff halign hx).mp hp
  intro i hi
  obtain ⟨hadd, hlt⟩ := addW_aligned ha (k := 2) (by omega) halign hi
  have hoff : smOff (a + i) = smOff a := by
    unfold smOff
    omega
  rw [hadd, ← h.state _ hlt, vabits2At, vabits2In, show (a + i) / 65536 = a / 65536 by omega, hoff]
  interval_cases i
  · exact h0
  · exact h1

/-- What is seen of one byte. -/
theorem inState_of_vabits2 (h : s.Rep A) (ha : a < wordMod) (p : BitVec 2)
    (hp : extractVabits2FromVabits8 a (s.maps.contents (installed s.maps (a / 65536)) (smOff a)) = p) :
    InState A a 1 p := by
  intro i hi
  obtain rfl : i = 0 := by omega
  rw [addW_zero ha, ← h.state a ha]
  exact hp

/-- The state that is seen does not depend on how the secondary map was found. -/
theorem LoadOk.of_quiet {maps' : SecMaps} {r : Result (BitVec 64 × Shadow)}
    (h : LoadOk plo { s with maps := maps' } A a szB be r) : LoadOk plo s A a szB be r := by
  obtain ⟨res, hres, hl⟩ := h
  exact ⟨res, hres, hl.bits, hl.rep, hl.error, hl.no_error⟩

/-- **`mc_LOADVn_slow`**, with its semi-fast cases. -/
theorem mcLOADVnSlow_spec (plo be : Bool) (h : s.Rep A) (ha : a < wordMod) (sz : VSize) :
    LoadOk plo s A a sz.szB be (mcLOADVnSlow plo s a sz.szB be) := by
  obtain ⟨maps', hrun, hq⟩ := getSecmapForReading_spec h.inv ha
  have hrep := h.quiet hq
  unfold mcLOADVnSlow
  split
  · rename_i hc
    obtain ⟨-, h8, halign⟩ := hc
    rw [hrun, ok_bind]
    dsimp only
    rw [← hq.installed]
    refine .of_quiet (loadFast_spec hrep ?_ ?_ ?_ ?_ (loadvSlowest_spec hrep sz))
    · rw [h8]
      exact inState_of_vabits16 hrep ha halign vaBits2Defined
    · rw [h8]
      exact inState_of_vabits16 hrep ha halign vaBits2Undefined
    · exact fun i _ => vbyte_zero
    · rw [h8]
      exact fun i hi => vbyte_allOnes hi
  split
  · rename_i hc
    obtain ⟨-, h4, halign⟩ := hc
    rw [hrun, ok_bind]
    dsimp only
    rw [← hq.installed]
    refine .of_quiet (loadFast_spec hrep ?_ ?_ ?_ ?_ (loadvSlowest_spec hrep sz))
    · rw [h4]
      exact inState_of_vabits8 hrep ha (by omega) halign vaBits2Defined
    · rw [h4]
      exact inState_of_vabits8 hrep ha (by omega) halign vaBits2Undefined
    · rw [h4]
      intro i hi
      interval_cases i <;> rfl
    · rw [h4]
      intro i hi
      interval_cases i <;> rfl
  · exact loadvSlowest_spec h sz

/-- The result of a slow load is cast to a word. -/
theorem LoadOk.toUWord (hszB : szB ≤ 4) {r : Result (BitVec 64 × Shadow)} (h : LoadOk plo s A a szB be r) :
    LoadOk plo s A a szB be (do
      let (v, s) ← r
      pure (toUWord v, s)) := by
  obtain ⟨⟨v, s'⟩, rfl, hl⟩ := h
  refine ⟨_, rfl, fun i hi => ?_, hl.rep, hl.error, hl.no_error⟩
  rw [vbyte_toUWord (by omega)]
  exact hl.bits i hi

theorem mcLOADV64_spec (h : s.Rep A) (ha : a < wordMod) :
    LoadOk plo s A a 8 be (mcLOADV64 plo s a be) := by
  have hslow := mcLOADVnSlow_spec plo be h ha .v64
  unfold mcLOADV64
  split
  · exact hslow
  · rename_i hfast
    obtain ⟨halign, hlow⟩ := aligned_low ha (k := 3) (by omega) (Bool.eq_false_iff.mpr hfast)
    dsimp only
    rw [readingLow_eq hlow]
    refine loadFast_spec h (inState_of_vabits16 h ha halign _) (inState_of_vabits16 h ha halign _)
      (fun i _ => vbyte_zero) (fun i hi => vbyte_allOnes hi) hslow

theorem mcLOADV32_spec (h : s.Rep A) (ha : a < wordMod) :
    LoadOk plo s A a 4 be (mcLOADV32 plo s a be) := by
  have hslow := (mcLOADVnSlow_spec plo be h ha .v32).toUWord (Nat.le_refl 4)
  unfold mcLOADV32
  dsimp only
  split
  · exact hslow
  · rename_i hfast
    obtain ⟨halign, hlow⟩ := aligned_low ha (k := 2) (by omega) (Bool.eq_false_iff.mpr hfast)
    rw [readingLow_eq hlow]
    refine loadFast_spec h (inState_of_vabits8 h ha (by omega) halign _)
      (inState_of_vabits8 h ha (by omega) halign _) (fun i hi => ?_) (fun i hi => ?_) hslow
    · rw [vbyte_toUWord hi]
      interval_cases i <;> rfl
    · rw [vbyte_toUWord hi]
      interval_cases i <;> rfl

theorem mcLOADV16_spec (h : s.Rep A) (ha : a < wordMod) :
    LoadOk plo s A a 2 be (mcLOADV16 plo s a be) := by
  have hslow := (mcLOADVnSlow_spec plo be h ha .v16).toUWord (by decide)
  have hvu : ∀ i < 2, vbyte 0xFFFF i = vBits8Undefined := by
    intro i hi
    interval_cases i <;> rfl
  unfold mcLOADV16
  dsimp only
  split
  · exact hslow
  · rename_i hfast
    obtain ⟨halign, hlow⟩ := aligned_low ha (k := 1) (by omega) (Bool.eq_false_iff.mpr hfast)
    rw [pow_one] at halign
    rw [readingLow_eq hlow]
    refine loadFast_spec h (inState_of_vabits8 h ha (by omega) halign _)
      (inState_of_vabits8 h ha (by omega) halign _) (fun i _ => vbyte_zero) hvu ?_
    -- the other two bytes of the word may be in another state
    obtain ⟨vabits4, hx⟩ : ∃ vabits4, extractVabits4FromVabits8 a
        (s.maps.contents (installed s.maps (a / 65536)) (smOff a)) = .ok vabits4 := by
      rw [extractVabits4FromVabits8, assertThat_of halign]
      exact ⟨_, rfl⟩
    rw [hx, ok_bind]
    exact loadFast_spec h (inState_of_vabits4 h ha halign _ hx) (inState_of_vabits4 h ha halign _ hx)
      (fun i _ => vbyte_zero) hvu hslow

/-- With one byte the endianness does not matter. -/
theorem LoadOk.endianness {r : Result (BitVec 64 × Shadow)} (h : LoadOk plo s A a 1 false r) :
    LoadOk plo s A a 1 be r := by
  obtain ⟨res, hres, hl⟩ := h
  refine ⟨res, hres, fun i hi => ?_, hl.rep, hl.error, hl.no_error⟩
  obtain rfl : i = 0 := by omega
  rw [hl.bits 0 hi]
  cases be <;> rfl

theorem helpercLOADV8_spec (h : s.Rep A) (ha : a < wordMod) :
    LoadOk plo s A a 1 false (helpercLOADV8 plo s a) := by
  have hslow := (mcLOADVnSlow_spec plo false h ha .v8).toUWord (by decide)
  have hvu : ∀ i < 1, vbyte 0xFF i = vBits8Undefined := by
    intro i hi
    interval_cases i
    rfl
  unfold helpercLOADV8
  dsimp only
  split
  · exact hslow
  · rename_i hfast
    obtain ⟨halign, hlow⟩ := aligned_low ha (k := 0) (by omega) (Bool.eq_false_iff.mpr hfast)
    rw [readingLow_eq hlow]
    refine loadFast_spec h (inState_of_vabits8 h ha (by omega) halign _)
      (inState_of_vabits8 h ha (by omega) halign _) (fun i _ => vbyte_zero) hvu ?_
    exact loadFast_spec h (inState_of_vabits2 h ha _) (inState_of_vabits2 h ha _)
      (fun i _ => vbyte_zero) hvu hslow

/-- **The loads** agree with the byte-wise definition. -/
theorem loadv_spec (plo be : Bool) (h : s.Rep A) (ha : a < wordMod) (sz : VSize) :
    LoadOk plo s A a sz.szB be (helpercLOADV plo sz be s a) := by
  cases sz with
  | v8 => exact (helpercLOADV8_spec h ha).endianness
  | v16 => exact mcLOADV16_spec h ha
  | v32 => exact mcLOADV32_spec h ha
  | v64 => exact mcLOADV64_spec h ha

/-! ## Stores -/

theorem isSome_of_inState {p : BitVec 2} (h : InState A a szB p) (hp : p ≠ vaBits2Noaccess) :
    ∀ i < szB, (A (addW a i)).isSome := by
  intro i hi
  cases hA : A (addW a i) with
  | some w => rfl
  | none =>
    refine absurd ?_ hp
    rw [← h i hi, hA]
    rfl

/-- A fast path writes the states of all bytes into a secondary map that is not
distinguished. -/
theorem storeFast_spec {c : BitVec 8} (h : s.Rep A) (ha : a < wordMod)
    (hsz : szB = 1 ∨ szB = 2 ∨ szB = 4 ∨ szB = 8) (halign : a % szB = 0)
    (hd : isDistinguishedSm (installed s.maps (a / 65536)) = false)
    (hA : ∀ i < szB, (A (addW a i)).isSome) (hv : ∀ i < szB, vbyte v i = c)
    (hc : compress (some c) ≠ vaBits2Partdefined) {contents : SecMap}
    (hcontents : ∀ y, vabits2In contents y =
      if y % 65536 / szB = a % 65536 / szB then compress (some c)
      else vabits2In (s.maps.contents (installed s.maps (a / 65536))) y) :
    StoresV s A a szB be v (storeSm s (installed s.maps (a / 65536)) contents) := by
  have hown : Owned s.maps s.maps a (installed s.maps (a / 65536)) :=
    ⟨h.inv, rfl, by simpa [isDistinguishedSm] using hd, fun _ _ => rfl, fun _ _ => rfl⟩
  have hfit : a % 65536 + szB ≤ 65536 := by
    rcases hsz with rfl | rfl | rfl | rfl <;> omega
  refine storesV_const h ha hA hv hc ((hown.writeSm ha contents).mono fun y hy => ?_)
  simp only [hcontents, paint, subW_lt_chunk_iff ha hy hfit]
  by_cases hyc : y / 65536 = a / 65536
  · rw [if_pos hyc, hown.vabits2In_eq hy hyc]
    refine if_congr ?_ rfl rfl
    rcases hsz with rfl | rfl | rfl | rfl <;> omega
  · rw [if_neg hyc, if_neg fun h => hyc h.1]

/-- Eight bytes at once. -/
theorem storeFast16_spec (h : s.Rep A) (ha : a < wordMod) (halign : a % 8 = 0)
    (hd : isDistinguishedSm (installed s.maps (a / 65536)) = false)
    (hA : ∀ i < 8, (A (addW a i)).isSome) {slow : Result Shadow}
    (hslow : Returns al slow (StoresV s A a 8 be v)) :
    Returns al (if v = 0 then
        pure (storeSm s (installed s.maps (a / 65536))
          (setVabits16 (s.maps.contents (installed s.maps (a / 65536))) (smOff16 a) vaBits16Defined))
      else if v = BitVec.allOnes 64 then
        pure (storeSm s (installed s.maps (a / 65536))
          (setVabits16 (s.maps.contents (installed s.maps (a / 65536))) (smOff16 a) vaBits16Undefined))
      else slow) (StoresV s A a 8 be v) := by
  split
  · rename_i hv
    refine .of_ok (storeFast_spec (c := vBits8Defined) h ha (by omega) halign hd hA (fun i _ => ?_) (by decide)
      fun y => vabits2In_setVabits16 (v := vaBits2Defined))
    rw [hv, vbyte_zero]
  split
  · rename_i hv
    refine .of_ok (storeFast_spec (c := vBits8Undefined) h ha (by omega) halign hd hA (fun i hi => ?_) (by decide)
      fun y => vabits2In_setVabits16 (v := vaBits2Undefined))
    rw [hv, vbyte_allOnes hi]
  · exact hslow

/-- Four bytes at once. -/
theorem storeFast8_spec {c : BitVec 8} {p : BitVec 2} (h : s.Rep A) (ha : a < wordMod) (halign : a % 4 = 0)
    (hd : isDistinguishedSm (installed s.maps (a / 65536)) = false)
    (hA : ∀ i < 4, (A (addW a i)).isSome) (hv : ∀ i < 4, vbyte v i = c) (hp : compress (some c) = p)
    (hc : p ≠ vaBits2Partdefined) :
    StoresV s A a 4 be v (storeSm s (installed s.maps (a / 65536))
      (Function.update (s.maps.contents (installed s.maps (a / 65536))) (smOff a) (dup8 p))) := by
  subst hp
  refine storeFast_spec h ha (by omega) halign hd hA hv hc fun y => ?_
  rw [vabits2In_update, extract_dup8]
  rfl

/-- Two bytes at once. -/
theorem storeFast4_spec {c : BitVec 8} {p : BitVec 2} (h : s.Rep A) (ha : a < wordMod) (halign : a % 2 = 0)
    (hd : isDistinguishedSm (installed s.maps (a / 65536)) = false)
    (hA : ∀ i < 2, (A (addW a i)).isSome) (hv : ∀ i < 2, vbyte v i = c) (hp : compress (some c) = p)
    (hc : p ≠ vaBits2Partdefined) :
    Returns al (do
      let vabits8 ← insertVabits4IntoVabits8 a (dup4 p)
        (s.maps.contents (installed s.maps (a / 65536)) (smOff a))
      pure (storeSm s (installed s.maps (a / 65536))
        (Function.update (s.maps.contents (installed s.maps (a / 65536))) (smOff a) vabits8)))
      (StoresV s A a 2 be v) := by
  subst hp
  obtain ⟨b', hb'⟩ : ∃ b', insertVabits4IntoVabits8 a (dup4 (compress (some c)))
      (s.maps.contents (installed s.maps (a / 65536)) (smOff a)) = .ok b' := by
    rw [insertVabits4IntoVabits8, assertThat_of halign]
    exact ⟨_, rfl⟩
  rw [hb', ok_bind]
  refine .of_ok (storeFast_spec h ha (by omega) halign hd hA hv hc fun y => ?_)
  rw [vabits2In_update, extract_insertVabits4 halign hb']
  have hpair : y % 65536 / 2 = a % 65536 / 2 ↔ smOff y = smOff a ∧ y % 4 / 2 = a % 4 / 2 := by
    have hdvd : 4 ∣ 65536 := by decide
    rw [smOff, smOff, ← Nat.mod_mod_of_dvd y hdvd, ← Nat.mod_mod_of_dvd a hdvd]
    generalize y % 65536 = r, a % 65536 = q
    omega
  by_cases hoff : smOff y = smOff a
  · rw [if_pos hoff, vabits2In, hoff]
    exact if_congr (by rw [hpair]; grind) rfl rfl
  · rw [if_neg hoff, if_neg fun h => hoff (hpair.mp h).1]

/-- The state that is changed does not depend on how the secondary map was found. -/
theorem StoresV.of_quiet {maps' : SecMaps} {s' : Shadow}
    (h : StoresV { s with maps := maps' } A a szB be v s') : StoresV s A a szB be v s' :=
  ⟨h.rep, h.error, h.no_error⟩

omit [Machine] in
theorem vbyte_of_low {w : BitVec 64} (h : v &&& 0xFFFFFFFF = w) {i : Nat} (hi : i < 4) :
    vbyte v i = vbyte w i := by
  rw [← h, vbyte_and_low hi]

/-- **`mc_STOREVn_slow`**, with its semi-fast cases. -/
theorem mcSTOREVnSlow_spec (al : ShadowAlloc) (be : Bool) (h : s.Rep A) (ha : a < wordMod) (sz : VSize) (v : BitVec 64) :
    Returns al (mcSTOREVnSlow al s a sz.szB v be) (StoresV s A a sz.szB be v) := by
  obtain ⟨maps', hrun, hq⟩ := getSecmapForReading_spec h.inv ha
  have hrep := h.quiet hq
  have hslow := storevSlowest_spec al be hrep ha sz v
  unfold mcSTOREVnSlow
  split
  · rename_i hc
    obtain ⟨-, h8, halign⟩ := hc
    rw [hrun, ok_bind]
    dsimp only
    rw [← hq.installed]
    suffices hst : Returns al _ (StoresV { s with maps := maps' } A a sz.szB be v) from
      hst.mono fun _ => .of_quiet
    rw [h8] at hslow ⊢
    split
    · rename_i hcond
      obtain ⟨hd, hst⟩ := hcond
      refine storeFast16_spec hrep ha halign hd ?_ hslow
      rcases hst with hst | hst
      · exact isSome_of_inState (inState_of_vabits16 hrep ha halign vaBits2Defined hst) (by decide)
      · exact isSome_of_inState (inState_of_vabits16 hrep ha halign vaBits2Undefined hst) (by decide)
    · exact hslow
  split
  · rename_i hc
    obtain ⟨-, h4, halign⟩ := hc
    rw [hrun, ok_bind]
    dsimp only
    rw [← hq.installed]
    suffices hst : Returns al _ (StoresV { s with maps := maps' } A a sz.szB be v) from
      hst.mono fun _ => .of_quiet
    rw [h4] at hslow ⊢
    split
    · rename_i hcond
      obtain ⟨hd, hst⟩ := hcond
      have hA : ∀ i < 4, (A (addW a i)).isSome := by
        rcases hst with hst | hst
        · exact isSome_of_inState (inState_of_vabits8 hrep ha (by omega) halign vaBits2Defined hst) (by decide)
        · exact isSome_of_inState (inState_of_vabits8 hrep ha (by omega) halign vaBits2Undefined hst) (by decide)
      split
      · rename_i hv
        refine .of_ok (storeFast8_spec (c := vBits8Defined) (p := vaBits2Defined) hrep ha halign hd hA
          (fun i hi => ?_) (by decide) (by decide))
        rw [vbyte_of_low hv hi, vbyte_zero]
      split
      · rename_i hv
        refine .of_ok (storeFast8_spec (c := vBits8Undefined) (p := vaBits2Undefined) hrep ha halign hd hA
          (fun i hi => ?_) (by decide) (by decide))
        rw [vbyte_of_low hv hi]
        interval_cases i <;> rfl
      · exact hslow
    · exact hslow
  · exact storevSlowest_spec al be h ha sz v

theorem mcSTOREV64_spec (h : s.Rep A) (ha : a < wordMod) (v : BitVec 64) :
    Returns al (mcSTOREV64 al s a v be) (StoresV s A a 8 be v) := by
  have hslow := mcSTOREVnSlow_spec al be h ha .v64 v
  unfold mcSTOREV64
  split
  · exact hslow
  · rename_i hfast
    obtain ⟨halign, hlow⟩ := aligned_low ha (k := 3) (by omega) (Bool.eq_false_iff.mpr hfast)
    dsimp only
    rw [readingLow_eq hlow]
    split
    · rename_i hcond
      obtain ⟨hd, hst⟩ := hcond
      refine storeFast16_spec h ha halign hd ?_ hslow
      rcases hst with hst | hst
      · exact isSome_of_inState (inState_of_vabits16 h ha halign vaBits2Defined hst) (by decide)
      · exact isSome_of_inState (inState_of_vabits16 h ha halign vaBits2Undefined hst) (by decide)
    · exact hslow

/-- Nothing has to be written if what is to be written is already there. -/
theorem storesV_same {c : BitVec 8} (h : s.Rep A) (ha : a < wordMod)
    (hA : ∀ i < szB, A (addW a i) = some c) (hv : ∀ i < szB, vbyte v i = c) :
    StoresV s A a szB be v s := by
  refine ⟨h.congr fun x hx => ?_, fun hun => ?_, fun _ => rfl⟩
  · unfold storeV
    by_cases hin : subW x a < szB
    · have hAx := hA _ hin
      rw [addW_subW ha hx] at hAx
      rw [if_pos ⟨hin, by rw [hAx]; rfl⟩, hv _ (byteOffsetW_lt hin), hAx]
    · rw [if_neg fun h => hin h.1]
  · obtain ⟨i, hi, hnone⟩ := hun
    rw [hA i hi] at hnone
    cases hnone

theorem mcSTOREV32_spec (h : s.Rep A) (ha : a < wordMod) (v : BitVec 64) :
    Returns al (mcSTOREV32 al s a v be) (StoresV s A a 4 be v) := by
  have hslow := mcSTOREVnSlow_spec al be h ha .v32 v
  have hvu : ∀ i < 4, vbyte 0xFFFFFFFF i = vBits8Undefined := by
    intro i hi
    interval_cases i <;> rfl
  unfold mcSTOREV32
  split
  · exact hslow
  · rename_i hfast
    obtain ⟨halign, hlow⟩ := aligned_low ha (k := 2) (by omega) (Bool.eq_false_iff.mpr hfast)
    dsimp only
    rw [readingLow_eq hlow]
    have hdefd := inState_of_vabits8 h ha (by omega) halign vaBits2Defined
    have hundef := inState_of_vabits8 h ha (by omega) halign vaBits2Undefined
    by_cases hv0 : v = 0
    · rw [if_pos hv0]
      have hv : ∀ i < 4, vbyte v i = vBits8Defined := fun i _ => by rw [hv0, vbyte_zero]
      split
      · rename_i hst
        exact .of_ok (storesV_same h ha (fun i hi => compress_eq_defined (hdefd hst i hi)) hv)
      split
      · rename_i hcond
        exact .of_ok (storeFast8_spec (p := vaBits2Defined) h ha halign hcond.1
          (isSome_of_inState (hundef hcond.2) (by decide)) hv (by decide) (by decide))
      · exact hslow
    rw [if_neg hv0]
    by_cases hv1 : v = 0xFFFFFFFF
    · rw [if_pos hv1]
      have hv : ∀ i < 4, vbyte v i = vBits8Undefined := fun i hi => by rw [hv1, hvu i hi]
      split
      · rename_i hst
        exact .of_ok (storesV_same h ha (fun i hi => compress_eq_undefined (hundef hst i hi)) hv)
      split
      · rename_i hcond
        exact .of_ok (storeFast8_spec (p := vaBits2Undefined) h ha halign hcond.1
          (isSome_of_inState (hdefd hcond.2) (by decide)) hv (by decide) (by decide))
      · exact hslow
    rw [if_neg hv1]
    exact hslow

theorem mcSTOREV16_spec (h : s.Rep A) (ha : a < wordMod) (v : BitVec 64) :
    Returns al (mcSTOREV16 al s a v be) (StoresV s A a 2 be v) := by
  have hslow := mcSTOREVnSlow_spec al be h ha .v16 v
  unfold mcSTOREV16
  split
  · exact hslow
  · rename_i hfast
    obtain ⟨halign, hlow⟩ := aligned_low ha (k := 1) (by omega) (Bool.eq_false_iff.mpr hfast)
    rw [pow_one] at halign
    dsimp only
    rw [readingLow_eq hlow]
    split
    · rename_i hcond
      obtain ⟨hd, hst⟩ := hcond
      have hA : ∀ i < 2, (A (addW a i)).isSome := by
        rcases hst with hst | hst
        · exact isSome_of_inState (inState_of_vabits8 h ha (by omega) halign vaBits2Defined hst) (by decide)
        · exact isSome_of_inState (inState_of_vabits8 h ha (by omega) halign vaBits2Undefined hst) (by decide)
      split
      · rename_i hv
        exact storeFast4_spec (c := vBits8Defined) (p := vaBits2Defined) h ha halign hd hA
          (fun i _ => by rw [hv, vbyte_zero]) (by decide) (by decide)
      split
      · rename_i hv
        refine storeFast4_spec (c := vBits8Undefined) (p := vaBits2Undefined) h ha halign hd hA
          (fun i hi => ?_) (by decide) (by decide)
        rw [hv]
        interval_cases i <;> rfl
      · exact hslow
    · exact hslow

/-- With one byte the endianness does not matter. -/
theorem StoresV.endianness {s' : Shadow} (h : StoresV s A a 1 false v s') : StoresV s A a 1 be v s' := by
  refine ⟨h.rep.congr fun x _ => ?_, h.error, h.no_error⟩
  unfold storeV
  by_cases hin : subW x a < 1
  · have hzero : subW x a = 0 := by omega
    rw [hzero]
    cases be <;> rfl
  · rw [if_neg fun h => hin h.1, if_neg fun h => hin h.1]

theorem helpercSTOREV8_spec (h : s.Rep A) (ha : a < wordMod) (v : BitVec 64) :
    Returns al (helpercSTOREV8 al s a v) (StoresV s A a 1 false v) := by
  have hslow := mcSTOREVnSlow_spec al false h ha .v8 v
  unfold helpercSTOREV8
  split
  · exact hslow
  · rename_i hfast
    obtain ⟨halign, hlow⟩ := aligned_low ha (k := 0) (by omega) (Bool.eq_false_iff.mpr hfast)
    rw [pow_zero] at halign
    dsimp only
    rw [readingLow_eq hlow]
    split
    · rename_i hcond
      obtain ⟨hd, hst⟩ := hcond
      have hA : ∀ i < 1, (A (addW a i)).isSome := by
        rcases hst with (hst | hst) | hst
        · exact isSome_of_inState (inState_of_vabits8 h ha (by omega) halign vaBits2Defined hst) (by decide)
        · exact isSome_of_inState (inState_of_vabits8 h ha (by omega) halign vaBits2Undefined hst) (by decide)
        · exact isSome_of_inState (inState_of_vabits2 h ha _ rfl) hst
      have hfill : ∀ (p : BitVec 2) (y : Nat), vabits2In (insertVabits2
          (s.maps.contents (installed s.maps (a / 65536))) a p) y = if y % 65536 / 1 = a % 65536 / 1 then p
            else vabits2In (s.maps.contents (installed s.maps (a / 65536))) y := by
        intro p y
        rw [vabits2In_insertVabits2, Nat.div_one, Nat.div_one]
      split
      · rename_i hv
        exact .of_ok (storeFast_spec (c := vBits8Defined) h ha (by omega) halign hd hA
          (fun i _ => by rw [hv, vbyte_zero]) (by decide) (hfill _))
      split
      · rename_i hv
        refine .of_ok (storeFast_spec (c := vBits8Undefined) h ha (by omega) halign hd hA
          (fun i hi => ?_) (by decide) (hfill _))
        rw [hv]
        interval_cases i
        rfl
      · exact hslow
    · exact hslow

/-- **The stores** agree with the byte-wise definition. -/
theorem storev_spec (h : s.Rep A) (ha : a < wordMod) (sz : VSize) (v : BitVec 64) :
    Returns al (helpercSTOREV al sz be s a v) (StoresV s A a sz.szB be v) := by
  cases sz with
  | v8 => exact (helpercSTOREV8_spec h ha v).mono fun _ => .endianness
  | v16 => exact mcSTOREV16_spec h ha v
  | v32 => exact mcSTOREV32_spec h ha v
  | v64 => exact mcSTOREV64_spec h ha v

/-! ## Loads after stores -/

theorem storeV_at (ha : a < wordMod) {i : Nat} (hi : i < szB) (hszB : szB ≤ 8) :
    storeV A a szB be v (addW a (byteOffsetW szB be i)) =
      if (A (addW a (byteOffsetW szB be i))).isSome then some (vbyte v i) else none := by
  have hoff : byteOffsetW szB be i < wordMod := lt_wordMod (Nat.lt_of_lt_of_le (byteOffsetW_lt hi) (by omega))
  unfold storeV
  rw [subW_addW ha hoff, byteOffsetW_byteOffsetW hi]
  cases A (addW a (byteOffsetW szB be i)) with
  | none => exact if_neg fun h => absurd h.2 (by simp)
  | some w => exact if_pos ⟨byteOffsetW_lt hi, rfl⟩

/-- The V bits that a load finds where a store has been. -/
theorem loadv_storev_spec (h : s.Rep A) (ha : a < wordMod) (sz : VSize) (v : BitVec 64) :
    Returns al (do
      let s' ← helpercSTOREV al sz be s a v
      helpercLOADV plo sz be s' a) fun (w, _) =>
        ∀ i < sz.szB, vbyte w i =
          if (A (addW a (byteOffsetW sz.szB be i))).isSome then vbyte v i else vBits8Defined := by
  have hsz := sz.szB_cases
  refine (storev_spec h ha sz v).bind fun s' hs' => ?_
  obtain ⟨⟨w, s''⟩, hload, hl⟩ := loadv_spec plo be hs'.rep ha sz
  rw [hload]
  refine .of_ok fun i hi => ?_
  rw [hl.bits i hi, storeV_at ha hi (by omega)]
  split <;> rfl

/-- **Fast loads and stores equal the byte-wise definition**, at every address, for all sizes
and both endiannesses. -/
theorem helpercLOADV_STOREV_bytewise (al : ShadowAlloc) (plo be : Bool) (sz : VSize) (s : Shadow)
    (A : VBits) (a : Nat) (v : BitVec 64) (h : s.Rep A) (ha : a < wordMod) :
    (∃ res, helpercLOADV plo sz be s a = .ok res ∧ LoadsV plo s A a sz.szB be res) ∧
    Returns al (helpercSTOREV al sz be s a v) (StoresV s A a sz.szB be v) ∧
    Returns al (do
      let s' ← helpercSTOREV al sz be s a v
      helpercLOADV plo sz be s' a) fun (w, _) =>
        ∀ i < sz.szB, (A (addW a (byteOffsetW sz.szB be i))).isSome → vbyte w i = vbyte v i := by
  refine ⟨loadv_spec plo be h ha sz, storev_spec h ha sz v, (loadv_storev_spec h ha sz v).mono ?_⟩
  rintro ⟨w, s'⟩ hw i hi hsome
  rw [hw i hi, if_pos hsome]

end

/-- Secondary maps are placed above all those that are allocated. -/
def bumpAlloc : ShadowAlloc where
  alloc mapped := some (mapped.sum + smDistDefined + 1)
  fresh mapped sm h := by
    obtain rfl : mapped.sum + smDistDefined + 1 = sm := by simpa using h
    refine ⟨fun hmem => ?_, by omega⟩
    have := List.le_sum_of_mem hmem
    omega

/-- Four bytes of which the first two are undefined, and a store in which only the lowest bit
is undefined. -/
theorem helpercLOADV_STOREV_bytewise_undefined :
    letI : Machine := x86Linux
    ∃ (s : Shadow) (A : VBits), s.Rep A ∧ A 4096 = some 0xff ∧ A 4097 = some 0xff ∧ A 4098 = none ∧
      LoadOk true s A 4096 4 false (helpercLOADV true .v32 false s 4096) ∧
      Returns bumpAlloc (helpercSTOREV bumpAlloc .v32 false s 4096 1) (StoresV s A 4096 4 false 1) := by
  letI : Machine := x86Linux
  have hmade : Returns bumpAlloc (makeMem bumpAlloc .undefined initSecMaps 4096 2) _ :=
    makeMem_spec .undefined initSecMaps_inv (by decide) (by decide)
  rcases hmade with ⟨maps, -, hshows⟩ | ⟨-, mapped, hnone⟩
  · have hrep := initShadowMemory_rep.paint (o := some 0xff) (by decide) hshows
    obtain ⟨hload, hstore, -⟩ := helpercLOADV_STOREV_bytewise bumpAlloc true false .v32 _ _ 4096 1 hrep (by decide)
    exact ⟨_, _, hrep, if_pos (by decide), if_pos (by decide), if_neg (by decide), hload, hstore⟩
  · cases hnone

end Memcheck

end Valgrind
