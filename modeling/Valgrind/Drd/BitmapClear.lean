import Valgrind.Drd.BitmapRuns

/-!
# Clearing a range of addresses

`bm0_clear_range` complements its mask before it shifts it, so that it clears the bits below the
range too, down to the beginning of the word. In `bm_clear` only the first word of the range has
bits below it, and those accesses are forgotten: `bmClear_iff` says when the range is cleared
and nothing else.
-/

namespace Valgrind.Drd

section

variable [Machine]

open Machine

/-- There is an access to an address of the range. -/
def HasAnyAccess (h : BmHeap) (b a1 a2 : Nat) : Prop := ∃ a x, a1 ≤ a ∧ a < a2 ∧ h.has b a x = true

/-- No access in the range is left, and no access outside has been forgotten. -/
def ClearsRange (h h' : BmHeap) (b a1 a2 : Nat) : Prop :=
  (¬ HasAnyAccess h' b a1 a2) ∧ ∀ a x, ¬ (a1 ≤ a ∧ a < a2) → h.has b a x = true → h'.has b a x = true

/-- `bm_clear` clears the range, and so does `bm_test_and_clear`, which returns whether there was an access. -/
def ClearExact (h : BmHeap) (b a1 a2 : Nat) : Prop :=
  (∃ h', bmClear h b a1 a2 = .ok h' ∧ ClearsRange h h' b a1 a2) ∧
    ∃ res h', bmTestAndClear h b a1 a2 = .ok (res, h') ∧ ClearsRange h h' b a1 a2 ∧
      (res = true ↔ HasAnyAccess h b a1 a2)

variable {h h' g : BmHeap} {b a1 a2 : Nat} {m : Bitmap}

/-- Clearing from the beginning of the first word on clears the range only iff nothing is there before the range. -/
theorem clearsRange_iff
    (he : Edits h h' b fun a _ v => v && decide (¬ (a1 < a2 ∧ uwordMsb a1 ≤ a ∧ a < a2))) (hle : a1 ≤ a2) :
    ClearsRange h h' b a1 a2 ↔ a1 = a2 ∨ ¬ HasAnyAccess h b (uwordMsb a1) a1 := by
  have hmsb := uwordMsb_le a1
  constructor
  · rintro ⟨-, hkept⟩
    refine or_iff_not_imp_left.mpr fun hne ⟨a, x, h₁, h₂, h₃⟩ => ?_
    have hafter := hkept a x (by omega) h₃
    rw [he.has, decide_eq_false (by omega), Bool.and_false] at hafter
    exact nomatch hafter
  · intro hcond
    refine ⟨fun ⟨a, x, h₁, h₂, h₃⟩ => ?_, fun a x hout ha => ?_⟩
    · rw [he.has, decide_eq_false (by omega), Bool.and_false] at h₃
      exact nomatch h₃
    · rw [he.has, ha, Bool.true_and, decide_eq_true_eq]
      rintro ⟨hlt, h₁, h₂⟩
      exact hcond.elim (by omega) fun hno => hno ⟨a, x, h₁, by omega, ha⟩

/-- **When clearing is exact**: the range is empty, or there is no access in the part of its first word that is in
front of it. -/
theorem bmClear_iff (hreach : Reach h) (hb : h.Live b) (ha1 : a1 ≠ 0) (hle : a1 ≤ a2)
    (ha2 : a2 + addr0Count ≤ wordMod) :
    ClearExact h b a1 a2 ↔ a1 = a2 ∨ ¬ HasAnyAccess h b (uwordMsb a1) a1 := by
  obtain ⟨m, hm⟩ := hb
  have hok := hreach.ok
  obtain ⟨h₁, hrun₁, -, he₁⟩ := bmClear_spec hok hm ha1 hle ha2
  -- `bm_has_any_access` only tells the caches something
  obtain ⟨res, g, hany, hreads, hres⟩ := bmHasAnyAccess_spec a1 hok.readOk hm ha2
  obtain ⟨mg, hmg⟩ := hreads.learns.sameMaps.exists_bm hm
  obtain ⟨h₂, hrun₂, -, he₂⟩ := bmClear_spec (hreads.learns.ok hok) hmg ha1 hle ha2
  have he₂' : Edits h h₂ b fun a _ v => v && decide (¬ (a1 < a2 ∧ uwordMsb a1 ≤ a ∧ a < a2)) :=
    (Edits.of_same hreads.learns.sameMaps.sameContent).trans he₂
  have htest : bmTestAndClear h b a1 a2 = .ok (res, h₂) := by
    unfold bmTestAndClear
    rw [hany, ok_bind]
    dsimp only
    rw [hrun₂]
    rfl
  have hres' : res = true ↔ HasAnyAccess h b a1 a2 := by
    rw [hres]
    simp only [hit_or_iff]
    exact exists_congr fun a => ⟨fun ⟨hl, hr, x, hx⟩ => ⟨x, hl, hr, hx⟩, fun ⟨x, hl, hr, hx⟩ => ⟨hl, hr, x, hx⟩⟩
  constructor
  · rintro ⟨⟨h', hrun, hclears⟩, -⟩
    rw [hrun₁] at hrun
    obtain rfl := Except.ok.inj hrun
    exact (clearsRange_iff he₁ hle).mp hclears
  · exact fun hcond => ⟨⟨h₁, hrun₁, (clearsRange_iff he₁ hle).mpr hcond⟩, res, h₂, htest,
      (clearsRange_iff he₂' hle).mpr hcond, hres'⟩

omit [Machine] in
/-- The addresses 8 to 16 of a bitmap without accesses are cleared. -/
theorem bmClear_iff_new :
    @ClearExact amd64Linux (@newBitmaps amd64Linux 1) 0 8 16 ↔
      8 = 16 ∨ ¬ @HasAnyAccess amd64Linux (@newBitmaps amd64Linux 1) 0 (@uwordMsb amd64Linux 8) 8 :=
  @bmClear_iff amd64Linux _ 0 8 16 (@reach_newBitmaps amd64Linux 1) (@live_newBitmaps amd64Linux 0 1 (by decide))
    (by decide) (by decide) (by decide)

omit [Machine] in
/-- A store to the address 8 is forgotten when the address 9 is cleared. -/
theorem bmClear_forgets :
    ∃ h, @bmStep amd64Linux (@newBitmaps amd64Linux 1) (.access1 0 8 .eStore) = .ok h ∧ @Reach amd64Linux h ∧
      @BmHeap.has amd64Linux h 0 8 .w = true ∧ ¬ @ClearExact amd64Linux h 0 9 10 := by
  letI : Machine := amd64Linux
  obtain ⟨m, hm⟩ := live_newBitmaps (b := 0) (n := 1) (by decide)
  obtain ⟨h, hrun, hok, he⟩ := bmAccessAligned_spec (x := .w) (reach_newBitmaps 1).ok hm (show 8 < wordMod by decide)
    (show 1 ∈ [1, 2, 4, 8] by decide) (Nat.mod_one _)
  have hreach : Reach h := .step (reach_newBitmaps 1)
    (show BmOp.Allowed _ (.access1 0 8 .eStore) from ⟨⟨m, hm⟩, by decide⟩) hrun
  have hhas : h.has 0 8 .w = true := by
    rw [he.has]
    simp
  refine ⟨h, hrun, hreach, hhas, ?_⟩
  rintro ⟨⟨h', hclear, -, hkept⟩, -⟩
  obtain ⟨m', hm'⟩ := he.exists_bm hm
  obtain ⟨g, hg, -, heg⟩ := bmClear_spec hok hm' (show 9 ≠ 0 by decide) (show 9 ≤ 10 by decide) (by decide)
  rw [hg] at hclear
  obtain rfl := Except.ok.inj hclear
  have hafter := hkept 8 .w (by decide) hhas
  rw [heg.has, decide_eq_false (by decide), Bool.and_false] at hafter
  exact nomatch hafter

end

end Valgrind.Drd
