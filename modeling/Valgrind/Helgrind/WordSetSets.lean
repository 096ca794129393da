import Valgrind.Helgrind.WordSetRuns

/-!
# Word sets as sets

What a caller of the word-set operations wants to know: which set the result denotes. The
indices that were given out before go on to denote what they denoted.
-/

namespace Valgrind

namespace Helgrind

open SortedMerge

/-- A call has returned an index of the set `S`. -/
structure Gives (wsu : WordSetU) (S : Finset Nat) (wsu' : WordSetU) (r : WordSet) : Prop where
  inv : wsu'.Inv
  grows : wsu.ix2vec <+: wsu'.ix2vec
  den : wsu'.den r = some S

section Sets

variable {wsu wsu' : WordSetU} {ws ws₁ ws₂ r : WordSet} {S T : Finset Nat} {u : WordVec}

theorem den_grows (h : wsu.ix2vec <+: wsu'.ix2vec) (hS : wsu.den ws = some S) : wsu'.den ws = some S := by
  obtain ⟨u, hu, rfl⟩ := exists_of_den hS
  exact den_eq (prefix_getElem?_eq h hu)

theorem den_of_lt (h : ws < wsu.ix2vec.length) : ∃ S, wsu.den ws = some S :=
  ⟨_, den_eq (List.getElem?_eq_getElem h)⟩

/-- Equal sets have equal indices. -/
theorem WordSetU.Inv.den_inj (h : wsu.Inv) (h₁ : wsu.den ws₁ = some S) (h₂ : wsu.den ws₂ = some S) : ws₁ = ws₂ :=
  (h.canonical.eq_iff ws₁ ws₂ S S h₁ h₂).mpr rfl

theorem WordSetU.Inv.den_empty (h : wsu.Inv) : wsu.den wsu.empty = some ∅ := den_eq h.empty

theorem Interned.gives {wv : WordVec} (h : Interned wsu wv wsu' r) (hS : wv.toFinset = S) : Gives wsu S wsu' r :=
  ⟨h.inv, h.prefix, hS ▸ den_eq h.getElem?⟩

/-- A call returns an index of the set `S`. -/
def Returns (call : Result (WordSetU × WordSet)) (wsu : WordSetU) (S : Finset Nat) : Prop :=
  ∃ wsu' r, call = .ok (wsu', r) ∧ Gives wsu S wsu' r

theorem doubletonWS_returns (h : wsu.Inv) (w₁ w₂ : Nat) : Returns (doubletonWS wsu w₁ w₂) wsu {w₁, w₂} := by
  obtain ⟨wsu', r, hrun, hint⟩ := doubletonWS_spec h w₁ w₂
  refine ⟨wsu', r, hrun, hint.gives ?_⟩
  rw [toFinset_union (sorted_singleton w₁) (sorted_singleton w₂)]
  simp

theorem addToWS_returns (h : wsu.Inv) (hS : wsu.den ws = some S) (w : Nat) :
    Returns (addToWS wsu ws w) wsu (insert w S) := by
  obtain ⟨u, hu, rfl⟩ := exists_of_den hS
  obtain ⟨wsu', r, hrun, hint⟩ := addToWS_spec h hu w
  refine ⟨wsu', r, hrun, hint.gives ?_⟩
  rw [toFinset_union (h.sorted_of hu) (sorted_singleton w)]
  simp

theorem delFromWS_returns (h : wsu.Inv) (hS : wsu.den ws = some S) (w : Nat) :
    Returns (delFromWS wsu ws w) wsu (S.erase w) := by
  obtain ⟨u, hu, rfl⟩ := exists_of_den hS
  obtain ⟨wsu', r, hrun, hint⟩ := delFromWS_spec h hu w
  refine ⟨wsu', r, hrun, hint.gives ?_⟩
  rw [toFinset_sdiff (h.sorted_of hu) (sorted_singleton w)]
  simp [Finset.sdiff_singleton_eq_erase]

theorem intersectWS_returns (h : wsu.Inv) (hS : wsu.den ws₁ = some S) (hT : wsu.den ws₂ = some T) :
    Returns (intersectWS wsu ws₁ ws₂) wsu (S ∩ T) := by
  obtain ⟨u, hu, rfl⟩ := exists_of_den hS
  obtain ⟨v, hv, rfl⟩ := exists_of_den hT
  obtain ⟨wsu', r, hrun, hint⟩ := intersectWS_spec h hu hv
  exact ⟨wsu', r, hrun, hint.gives (toFinset_inter (h.sorted_of hu) (h.sorted_of hv))⟩

theorem minusWS_returns (h : wsu.Inv) (hS : wsu.den ws₁ = some S) (hT : wsu.den ws₂ = some T) :
    Returns (minusWS wsu ws₁ ws₂) wsu (S \ T) := by
  obtain ⟨u, hu, rfl⟩ := exists_of_den hS
  obtain ⟨v, hv, rfl⟩ := exists_of_den hT
  obtain ⟨wsu', r, hrun, hint⟩ := minusWS_spec h hu hv
  exact ⟨wsu', r, hrun, hint.gives (toFinset_sdiff (h.sorted_of hu) (h.sorted_of hv))⟩

theorem isEmptyWS_den (h : wsu.Inv) (hS : wsu.den ws = some S) : isEmptyWS wsu ws = .ok (decide (S = ∅)) := by
  obtain ⟨u, hu, rfl⟩ := exists_of_den hS
  rw [isEmptyWS_eq h hu]
  simp

theorem elemWS_den (hS : wsu.den ws = some S) (w : Nat) : elemWS wsu ws w = .ok (decide (w ∈ S)) := by
  obtain ⟨u, hu, rfl⟩ := exists_of_den hS
  rw [elemWS_eq hu]
  simp

theorem cardinalityWS_den (h : wsu.Inv) (hS : wsu.den ws = some S) : cardinalityWS wsu ws = .ok S.card := by
  obtain ⟨u, hu, rfl⟩ := exists_of_den hS
  rw [cardinalityWS, doIx2vec_eq hu, ok_bind]
  exact congrArg Except.ok (List.toFinset_card_of_nodup ((h.sorted_of hu).imp fun h => h.ne)).symm

/-- `HG_(anyElementOfWS)`. -/
def anyElementOfWS (wsu : WordSetU) (ws : WordSet) : Result Nat := do
  let wv ← doIx2vec wsu ws
  match wv with
  | [] => throw .assertFailed
  | w :: _ => return w

theorem anyElementOfWS_den (hS : wsu.den ws = some S) (hne : S ≠ ∅) : ∃ w ∈ S, anyElementOfWS wsu ws = .ok w := by
  obtain ⟨u, hu, rfl⟩ := exists_of_den hS
  rw [anyElementOfWS, doIx2vec_eq hu, ok_bind]
  cases u with
  | nil => exact absurd rfl hne
  | cons w rest => exact ⟨w, List.mem_toFinset.mpr List.mem_cons_self, rfl⟩

end Sets

end Helgrind

end Valgrind
