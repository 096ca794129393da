import Valgrind.Basics.Machine
import Valgrind.Basics.Result
import Valgrind.Helgrind.LockEvents

/-!
# Making a range inaccessible (`hg_main.c`)

Steps 1 and 2 of `shadow_mem_make_NoAccess` go over the secondary maps from that of the first
byte to that of the last one: first to see whether there may be locks, then to clear the hints
of those that lie in the range as a whole. The counter of both loops is an address and wraps.

The shadow values are left out. `modifyRange` is what the call of `shadow_mem_modify_range`
between the loops does to the hints: cache lines are written back.
-/

namespace Valgrind

namespace Helgrind

/-! ## Hints -/

/-- The hints of a `SecMap`. -/
structure SecMapHints where
  mbHasLocks : Bool
  mbHasShared : Bool
  deriving DecidableEq, Repr

/-- `map_shmem`, by base address. -/
abbrev MapShmem := Nat → Option SecMapHints

/-- `N_SECMAP_ARANGE`. -/
def nSecmapArange : Nat := 2 ^ 13

/-- `shmem__get_mbHasLocks`. -/
def shmemGetMbHasLocks (m : MapShmem) (a : Nat) : Bool :=
  ((m (roundToSecMapBase a)).map SecMapHints.mbHasLocks).getD false

/-- The hints at an address, where a `SecMap` is made if there is none. -/
def shmemHints (m : MapShmem) (a : Nat) : SecMapHints := (m (roundToSecMapBase a)).getD ⟨false, false⟩

/-- `shmem__set_mbHasLocks`. -/
def shmemSetMbHasLocks (m : MapShmem) (a : Nat) (b : Bool) : MapShmem :=
  Function.update m (roundToSecMapBase a) (some { shmemHints m a with mbHasLocks := b })

/-- `shmem__set_mbHasShared`. -/
def shmemSetMbHasShared (m : MapShmem) (a : Nat) (b : Bool) : MapShmem :=
  Function.update m (roundToSecMapBase a) (some { shmemHints m a with mbHasShared := b })

section

variable [Machine]

/-! ## The loops -/

/-- The loop of step 1, and the addresses it visits. -/
def findLocks (m : MapShmem) (lastSM : Nat) : Nat → Nat → Result (Bool × List Nat)
  | 0, _ => .error .diverge
  | fuel + 1, sma =>
    if sma ≤ lastSM then
      if shmemGetMbHasLocks m sma then return (true, [sma])
      else do
        let (mbHasLocks, visited) ← findLocks m lastSM fuel (addW sma nSecmapArange)
        return (mbHasLocks, sma :: visited)
    else return (false, [])

/-- The `if` in the loop of step 2. -/
def clearIfInside (firstA lastA : Nat) (m : MapShmem) (sma : Nat) : MapShmem :=
  if firstA ≤ sma ∧ subW (addW sma nSecmapArange) 1 ≤ lastA then
    shmemSetMbHasShared (shmemSetMbHasLocks m sma false) sma false
  else m

/-- The loop of step 2, and the addresses it visits. -/
def clearHints (firstA lastA lastSM : Nat) : Nat → MapShmem → Nat → Result (MapShmem × List Nat)
  | 0, _, _ => .error .diverge
  | fuel + 1, m, sma =>
    if sma ≤ lastSM then do
      let (m, visited) ← clearHints firstA lastA lastSM fuel (clearIfInside firstA lastA m sma) (addW sma nSecmapArange)
      return (m, sma :: visited)
    else return (m, [])

/-- What the two steps leave behind. -/
structure TwoSteps where
  mbHasLocks : Bool
  scanned : List Nat
  cleared : List Nat
  hints : MapShmem

/-- Steps 1 and 2 of `shadow_mem_make_NoAccess`, for a range that is not empty. -/
def makeNoAccessSteps (fuel : Nat) (modifyRange : MapShmem → MapShmem) (m : MapShmem) (aIN len : Nat) :
    Result TwoSteps := do
  let firstA := aIN
  let lastA := subW (addW aIN len) 1
  let firstSM := roundToSecMapBase firstA
  let lastSM := roundToSecMapBase lastA
  assertThat (firstSM ≤ lastSM)
  let (mbHasLocks, scanned) ← findLocks m lastSM fuel firstSM
  let (hints, cleared) ← clearHints firstA lastA lastSM fuel (modifyRange m) firstSM
  return ⟨mbHasLocks, scanned, cleared, hints⟩

/-! ## What the loops should do -/

/-- The base of a `SecMap` that overlaps a range. -/
def OverlapsSM (firstA lastA b : Nat) : Prop := nSecmapArange ∣ b ∧ b ≤ lastA ∧ firstA < b + nSecmapArange

/-- The base of a `SecMap` that lies in a range. -/
def WithinSM (firstA lastA b : Nat) : Prop := nSecmapArange ∣ b ∧ firstA ≤ b ∧ b + nSecmapArange ≤ lastA + 1

instance (firstA lastA b : Nat) : Decidable (WithinSM firstA lastA b) :=
  inferInstanceAs (Decidable (_ ∧ _ ∧ _))

/-- The loops have visited the maps that overlap the range, the first one up to a map with
locks, and only the hints of the maps in the range are gone. -/
structure VisitsExactly (m before : MapShmem) (firstA lastA : Nat) (r : TwoSteps) : Prop where
  overlaps : ∀ b, b ∈ r.cleared ↔ OverlapsSM firstA lastA b
  ascending : r.cleared.Pairwise (· < ·)
  scanned : r.scanned <+: r.cleared
  all : r.mbHasLocks = false → r.scanned = r.cleared
  found : r.mbHasLocks = true ↔ ∃ b, OverlapsSM firstA lastA b ∧ shmemGetMbHasLocks m b = true
  hints : ∀ b, r.hints b = if WithinSM firstA lastA b then some ⟨false, false⟩ else before b

variable {m before : MapShmem} {firstA lastA lastSM sma a b n : Nat}

/-! ## Bases -/

omit [Machine] in
theorem roundToSecMapBase_of_dvd (h : nSecmapArange ∣ a) : roundToSecMapBase a = a := by
  obtain ⟨k, rfl⟩ := h
  rw [roundToSecMapBase, nSecmapArange, Nat.mul_mod_right, Nat.sub_zero]

omit [Machine] in
theorem dvd_roundToSecMapBase (a : Nat) : nSecmapArange ∣ roundToSecMapBase a := Nat.dvd_sub_mod a

omit [Machine] in
theorem roundToSecMapBase_bounds (a : Nat) : roundToSecMapBase a ≤ a ∧ a < roundToSecMapBase a + nSecmapArange := by
  have := Nat.mod_lt a (show 0 < 2 ^ 13 by decide)
  have := Nat.mod_le a (2 ^ 13)
  rw [roundToSecMapBase, nSecmapArange]
  omega

omit [Machine] in
theorem roundToSecMapBase_mono (h : a ≤ b) : roundToSecMapBase a ≤ roundToSecMapBase b := by
  rw [roundToSecMapBase, roundToSecMapBase]
  omega

theorem nSecmapArange_dvd_wordMod : nSecmapArange ∣ wordMod := by
  rcases wordMod_cases with h | h <;> rw [h] <;> decide

/-- The next base is in the address space, or the counter wraps. -/
theorem next_le (h : nSecmapArange ∣ sma) (hlt : sma < wordMod) : sma + nSecmapArange ≤ wordMod := by
  obtain ⟨i, rfl⟩ := h
  obtain ⟨j, hj⟩ := nSecmapArange_dvd_wordMod
  rw [hj] at hlt ⊢
  have hij := Nat.lt_of_mul_lt_mul_left hlt
  calc nSecmapArange * i + nSecmapArange = nSecmapArange * (i + 1) := by ring
    _ ≤ nSecmapArange * j := Nat.mul_le_mul_left _ hij

theorem clearIfInside_eq (hsma : nSecmapArange ∣ sma) (hwrap : sma + nSecmapArange < wordMod) :
    clearIfInside firstA lastA m sma =
      if WithinSM firstA lastA sma then Function.update m sma (some ⟨false, false⟩) else m := by
  have hpos : 0 < nSecmapArange := by decide
  have hsub : subW (addW sma nSecmapArange) 1 = sma + nSecmapArange - 1 := by
    rw [addW_of_lt hwrap, subW_of_le (by omega) (by omega)]
  have hiff : (firstA ≤ sma ∧ subW (addW sma nSecmapArange) 1 ≤ lastA) ↔ WithinSM firstA lastA sma := by
    rw [hsub, WithinSM]
    constructor
    · rintro ⟨hfirst, hlast⟩
      exact ⟨hsma, hfirst, by omega⟩
    · rintro ⟨-, hfirst, hlast⟩
      exact ⟨hfirst, by omega⟩
  rw [clearIfInside, if_congr hiff rfl rfl]
  split
  · rw [shmemSetMbHasShared, shmemHints, shmemSetMbHasLocks, roundToSecMapBase_of_dvd hsma, Function.update_self,
      Function.update_idem]
    rfl
  · rfl

/-! ## A last map that is not the topmost one -/

/-- The loop of step 2 visits the bases in order. -/
theorem clearHints_spec (firstA lastA : Nat) (m : MapShmem) (hsma : nSecmapArange ∣ sma)
    (hlast : sma + n * nSecmapArange = lastSM + nSecmapArange)
    (hwrap : lastSM + nSecmapArange < wordMod) : ∃ hints, clearHints firstA lastA lastSM (n + 1) m sma =
      .ok (hints, List.range' sma n nSecmapArange) ∧
      ∀ b, hints b = if b ∈ List.range' sma n nSecmapArange ∧ WithinSM firstA lastA b then some ⟨false, false⟩ else m b := by
  induction n generalizing sma m with
  | zero =>
    have : 0 < nSecmapArange := by decide
    rw [clearHints, if_neg (by omega)]
    exact ⟨m, rfl, fun b => by simp⟩
  | succ n ih =>
    rw [Nat.succ_mul] at hlast
    have hle : sma ≤ lastSM := by omega
    obtain ⟨hints, hrun, hhints⟩ := ih (clearIfInside firstA lastA m sma) (hsma.add (dvd_refl _))
      (by rw [← hlast]; ring)
    refine ⟨hints, ?_, fun b => ?_⟩
    · rw [clearHints, if_pos hle, addW_of_lt (by omega), hrun]
      rfl
    · rw [hhints b, clearIfInside_eq hsma (by omega)]
      simp only [List.range'_succ, List.mem_cons]
      by_cases hb : b = sma
      · subst hb
        by_cases hin : WithinSM firstA lastA b
        · simp [hin]
        · simp [hin]
      · have hold : (if WithinSM firstA lastA sma then Function.update m sma (some ⟨false, false⟩) else m) b = m b := by
          split
          · exact Function.update_of_ne hb _ _
          · rfl
        simp only [hb, false_or, hold]

/-- The loop of step 1 visits the same bases, until it finds locks. -/
theorem findLocks_spec (m : MapShmem) (sma : Nat) (hlast : sma + n * nSecmapArange = lastSM + nSecmapArange)
    (hwrap : lastSM + nSecmapArange < wordMod) : ∃ mbHasLocks visited, findLocks m lastSM (n + 1) sma =
      .ok (mbHasLocks, visited) ∧ visited <+: List.range' sma n nSecmapArange ∧
      (mbHasLocks = false → visited = List.range' sma n nSecmapArange) ∧
      (mbHasLocks = true ↔ ∃ b ∈ List.range' sma n nSecmapArange, shmemGetMbHasLocks m b = true) := by
  induction n generalizing sma with
  | zero =>
    have : 0 < nSecmapArange := by decide
    rw [findLocks, if_neg (by omega)]
    exact ⟨false, [], rfl, List.prefix_rfl, fun _ => rfl, by simp⟩
  | succ n ih =>
    rw [Nat.succ_mul] at hlast
    have hle : sma ≤ lastSM := by omega
    rw [findLocks, if_pos hle, List.range'_succ]
    by_cases hlocks : shmemGetMbHasLocks m sma = true
    · rw [if_pos hlocks]
      exact ⟨true, [sma], rfl, ⟨_, rfl⟩, by simp, by simp [hlocks]⟩
    · obtain ⟨found, visited, hrun, hpre, hall, hfound⟩ := ih (sma + nSecmapArange) (by rw [← hlast]; ring)
      rw [if_neg hlocks, addW_of_lt (by omega), hrun]
      refine ⟨found, sma :: visited, rfl, List.cons_prefix_cons.mpr ⟨rfl, hpre⟩, fun h => by rw [hall h], ?_⟩
      rw [hfound, List.exists_mem_cons_iff]
      simp [hlocks]

omit [Machine] in
/-- The bases between two bases. -/
theorem mem_bases
    (hlast : roundToSecMapBase firstA + n * nSecmapArange = roundToSecMapBase lastA + nSecmapArange) :
    b ∈ List.range' (roundToSecMapBase firstA) n nSecmapArange ↔ OverlapsSM firstA lastA b := by
  have hpos : 0 < nSecmapArange := by decide
  obtain ⟨hf₁, hf₂⟩ := roundToSecMapBase_bounds firstA
  obtain ⟨hl₁, hl₂⟩ := roundToSecMapBase_bounds lastA
  obtain ⟨i, hi⟩ := dvd_roundToSecMapBase firstA
  rw [List.mem_range', OverlapsSM]
  rw [hi] at hf₁ hf₂ hlast ⊢
  constructor
  · rintro ⟨k, hk, rfl⟩
    refine ⟨(Nat.dvd_mul_right _ _).add (Nat.dvd_mul_right _ _), ?_, by nlinarith⟩
    have : nSecmapArange * (k + 1) ≤ nSecmapArange * n := Nat.mul_le_mul_left _ hk
    nlinarith
  · rintro ⟨⟨j, rfl⟩, hle, hlt⟩
    have hij : i ≤ j := by
      by_contra hcon
      have : nSecmapArange * (j + 1) ≤ nSecmapArange * i := Nat.mul_le_mul_left _ (by omega)
      nlinarith
    refine ⟨j - i, ?_, by rw [← Nat.mul_add]; congr 1; omega⟩
    by_contra hcon
    have : nSecmapArange * (i + n) ≤ nSecmapArange * j := Nat.mul_le_mul_left _ (by omega)
    nlinarith

/-! ## The topmost map -/

/-- The second loop never leaves the address space. -/
theorem clearHints_diverges (firstA lastA : Nat) (hlast : wordMod ≤ lastSM + nSecmapArange) (fuel : Nat) (m : MapShmem)
    (hsma : nSecmapArange ∣ sma) (hlt : sma < wordMod) :
    clearHints firstA lastA lastSM fuel m sma = .error .diverge := by
  induction fuel generalizing sma m with
  | zero => rfl
  | succ fuel ih =>
    have hnext := next_le hsma hlt
    have hdvd : nSecmapArange ∣ addW sma nSecmapArange :=
      (Nat.dvd_mod_iff nSecmapArange_dvd_wordMod).mpr (hsma.add (dvd_refl _))
    rw [clearHints, if_pos (by omega), ih _ hdvd (addW_lt _ _)]
    rfl

/-- **The loops of steps 1 and 2.** For a range that is not empty and does not wrap, they end
and visit what they should if and only if the last byte is not in the topmost `SecMap`. -/
theorem makeNoAccessSteps_iff (modifyRange : MapShmem → MapShmem) (m : MapShmem) {aIN len : Nat} (hlen : 0 < len)
    (hrange : aIN + len ≤ wordMod) : (∃ fuel r, makeNoAccessSteps fuel modifyRange m aIN len = .ok r ∧
        VisitsExactly m (modifyRange m) aIN (aIN + len - 1) r) ↔
      roundToSecMapBase (aIN + len - 1) + nSecmapArange < wordMod := by
  have hpos : 0 < nSecmapArange := by decide
  have hlastA : subW (addW aIN len) 1 = aIN + len - 1 := by
    rcases Nat.lt_or_eq_of_le hrange with hlt | heq
    · rw [addW_of_lt hlt, subW_of_le hlt (by omega)]
    · rw [addW, heq, Nat.mod_self, subW_of_gt (by omega) Nat.one_pos]
      omega
  generalize hA : aIN + len - 1 = lastA at hlastA ⊢
  have hle : aIN ≤ lastA := by omega
  have hround : roundToSecMapBase aIN ≤ roundToSecMapBase lastA := roundToSecMapBase_mono hle
  have hbound := roundToSecMapBase_bounds lastA
  constructor
  · rintro ⟨fuel, r, hrun, -⟩
    by_contra hcon
    have hdiv := clearHints_diverges aIN lastA (Nat.le_of_not_lt hcon) fuel (modifyRange m)
      (dvd_roundToSecMapBase aIN) (by omega)
    rw [makeNoAccessSteps] at hrun
    obtain ⟨-, -, hrun⟩ := bind_eq_ok.mp hrun
    obtain ⟨x, -, hrun⟩ := bind_eq_ok.mp hrun
    obtain ⟨y, hclear, -⟩ := bind_eq_ok.mp hrun
    rw [hlastA] at hclear
    cases hdiv.symm.trans hclear
  · intro hwrap
    obtain ⟨k, hk⟩ : nSecmapArange ∣ roundToSecMapBase lastA - roundToSecMapBase aIN :=
      Nat.dvd_sub (dvd_roundToSecMapBase lastA) (dvd_roundToSecMapBase aIN)
    have hlast : roundToSecMapBase aIN + (k + 1) * nSecmapArange = roundToSecMapBase lastA + nSecmapArange := by
      rw [Nat.succ_mul, Nat.mul_comm, ← hk]
      omega
    have hmem : ∀ b, b ∈ List.range' (roundToSecMapBase aIN) (k + 1) nSecmapArange ↔ OverlapsSM aIN lastA b :=
      fun b => mem_bases hlast
    obtain ⟨hints, hclear, hhints⟩ := clearHints_spec aIN lastA (modifyRange m)
      (dvd_roundToSecMapBase aIN) hlast hwrap
    obtain ⟨found, visited, hfind, hpre, hall, hfound⟩ := findLocks_spec m _ hlast hwrap
    refine ⟨k + 1 + 1, ⟨found, visited, List.range' (roundToSecMapBase aIN) (k + 1) nSecmapArange, hints⟩, ?_,
      hmem, List.pairwise_lt_range' _ hpos, hpre, hall, ?_, fun b => ?_⟩
    · simp only [makeNoAccessSteps, hlastA, hclear, hfind, assertThat_of hround, ok_bind]
      rfl
    · rw [hfound]
      exact exists_congr fun b => and_congr_left' (hmem b)
    · show hints b = _
      rw [hhints b]
      refine if_congr ⟨fun h => h.2, fun h => ⟨(hmem b).mpr ⟨h.1, ?_, ?_⟩, h⟩⟩ rfl rfl
      · have := h.2.2
        omega
      · have := h.2.1
        omega

omit [Machine] in
/-- Two maps and a half, of which the middle one lies in the range. -/
theorem makeNoAccessSteps_iff_three :
    letI : Machine := x86Linux
    (∃ fuel r, makeNoAccessSteps fuel id (fun _ => some ⟨true, true⟩) 0x3000 0x4000 = .ok r ∧
        VisitsExactly (fun _ => some ⟨true, true⟩) (fun _ => some ⟨true, true⟩) 0x3000 (0x3000 + 0x4000 - 1) r) ↔
      roundToSecMapBase (0x3000 + 0x4000 - 1) + nSecmapArange < wordMod :=
  letI : Machine := x86Linux
  makeNoAccessSteps_iff id (fun _ => some ⟨true, true⟩) (by decide) (by decide)

omit [Machine] in
/-- The last 8 KB of the address space. -/
theorem makeNoAccessSteps_topmost :
    letI : Machine := x86Linux
    ¬ ∃ fuel r, makeNoAccessSteps fuel id (fun _ => none) 0xFFFFE000 0x2000 = .ok r := by
  let : Machine := x86Linux
  rintro ⟨fuel, r, hrun⟩
  have hdiv := clearHints_diverges 0xFFFFE000 (subW (addW 0xFFFFE000 0x2000) 1)
    (by decide : wordMod ≤ roundToSecMapBase (subW (addW 0xFFFFE000 0x2000) 1) + nSecmapArange) fuel (fun _ => none)
    (dvd_roundToSecMapBase 0xFFFFE000) (by decide)
  rw [makeNoAccessSteps] at hrun
  obtain ⟨-, -, hrun⟩ := bind_eq_ok.mp hrun
  obtain ⟨x, -, hrun⟩ := bind_eq_ok.mp hrun
  obtain ⟨y, hclear, -⟩ := bind_eq_ok.mp hrun
  cases hdiv.symm.trans hclear

end

end Helgrind

end Valgrind
