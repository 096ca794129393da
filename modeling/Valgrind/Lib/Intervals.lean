import Mathlib.Data.List.Basic
import Mathlib.Data.List.Pairwise
import Mathlib.Tactic

/-!
# Lists of intervals

Two notions that arrays of address ranges keep needing, over an arbitrary type
`α` whose elements denote half-open intervals `[lo x, hi x)`:

- `Tiled lo hi p e l`: the intervals of `l` follow one another from `p` to `e`
  without gap or overlap. Tilings are cut and glued with `tiled_append`, so that
  splitting, merging and replacing a run of elements are all edits of one
  part of the list.
- `locate lo hi l a`: the element whose interval holds `a`. In a tiling it is
  unique and exists for every `a` of the tiled range.

`search` is the usual binary search over an array of such intervals, with the
inclusive bounds and the midpoint `(lo + hi) / 2` that C code writes.
-/

namespace Intervals

variable {α : Type}

/-! ## Tilings -/

/-- The intervals of `l` are non-empty and tile `[p, e)` in order. -/
def Tiled (lo hi : α → Nat) : Nat → Nat → List α → Prop
  | p, e, [] => p = e
  | p, e, x :: l => lo x = p ∧ p < hi x ∧ Tiled lo hi (hi x) e l

variable {lo hi : α → Nat} {p q e a : Nat} {x y : α} {l l₁ l₂ l₃ : List α}

@[simp] theorem tiled_nil : Tiled lo hi p e [] ↔ p = e := Iff.rfl

@[simp] theorem tiled_cons :
    Tiled lo hi p e (x :: l) ↔ lo x = p ∧ p < hi x ∧ Tiled lo hi (hi x) e l := Iff.rfl

/-- A tiling of a concatenation is two tilings with a common seam. -/
theorem tiled_append :
    Tiled lo hi p e (l₁ ++ l₂) ↔ ∃ q, Tiled lo hi p q l₁ ∧ Tiled lo hi q e l₂ := by
  induction l₁ generalizing p with
  | nil => simp
  | cons x l ih =>
    simp only [List.cons_append, tiled_cons, ih]
    constructor
    · rintro ⟨h₁, h₂, q, h₃, h₄⟩
      exact ⟨q, ⟨h₁, h₂, h₃⟩, h₄⟩
    · rintro ⟨q, ⟨h₁, h₂, h₃⟩, h₄⟩
      exact ⟨h₁, h₂, q, h₃, h₄⟩

theorem Tiled.le (h : Tiled lo hi p e l) : p ≤ e := by
  induction l generalizing p with
  | nil => exact Nat.le_of_eq h
  | cons x l ih => exact Nat.le_trans (Nat.le_of_lt h.2.1) (ih h.2.2)

theorem Tiled.mem_bounds (h : Tiled lo hi p e l) (hx : x ∈ l) :
    p ≤ lo x ∧ lo x < hi x ∧ hi x ≤ e := by
  obtain ⟨l₁, l₂, rfl⟩ := List.append_of_mem hx
  obtain ⟨q, h₁, h₂, h₃, h₄⟩ := tiled_append.mp h
  exact ⟨h₂ ▸ h₁.le, h₂ ▸ h₃, h₄.le⟩

/-- Where a tiling ends is determined by its elements. -/
theorem Tiled.end_unique {b c : Nat} (hb : Tiled lo hi p b l) (hc : Tiled lo hi p c l) :
    b = c := by
  induction l generalizing p with
  | nil => exact hb.symm.trans hc
  | cons x l ih => exact ih hb.2.2 hc.2.2

/-- Later elements of a tiling lie above earlier ones. -/
theorem Tiled.pairwise (h : Tiled lo hi p e l) : l.Pairwise fun x y => hi x ≤ lo y := by
  induction l generalizing p with
  | nil => exact List.Pairwise.nil
  | cons x l ih =>
    refine List.Pairwise.cons (fun y hy => ?_) (ih h.2.2)
    exact (h.2.2.mem_bounds hy).1

theorem Tiled.nodup (h : Tiled lo hi p e l) : l.Nodup := by
  refine (List.Pairwise.imp_of_mem ?_ h.pairwise)
  rintro x y hx - hxy rfl
  have := (h.mem_bounds hx).2.1
  omega

/-! ## Locating an address -/

/-- The element whose interval holds `a`. -/
def locate (lo hi : α → Nat) (l : List α) (a : Nat) : Option α :=
  l.find? fun x => decide (lo x ≤ a ∧ a < hi x)

theorem locate_nil : locate lo hi [] a = none := rfl

theorem locate_cons :
    locate lo hi (x :: l) a = if lo x ≤ a ∧ a < hi x then some x else locate lo hi l a := by
  unfold locate
  rw [List.find?_cons]
  by_cases h : lo x ≤ a ∧ a < hi x <;> simp [h]

theorem locate_append :
    locate lo hi (l₁ ++ l₂) a = (locate lo hi l₁ a).or (locate lo hi l₂ a) :=
  List.find?_append

theorem mem_of_locate (h : locate lo hi l a = some x) : x ∈ l ∧ lo x ≤ a ∧ a < hi x :=
  ⟨List.mem_of_find?_eq_some h, by simpa using List.find?_some h⟩

theorem Tiled.locate_eq_none (h : Tiled lo hi p e l) (ha : a < p ∨ e ≤ a) :
    locate lo hi l a = none := by
  refine List.find?_eq_none.mpr fun x hx => ?_
  have := h.mem_bounds hx
  simp only [decide_eq_true_eq]
  omega

/-- In a tiling, the element holding `a` is the one `locate` finds. -/
theorem Tiled.locate_eq_some_iff (h : Tiled lo hi p e l) :
    locate lo hi l a = some x ↔ x ∈ l ∧ lo x ≤ a ∧ a < hi x := by
  refine ⟨mem_of_locate, fun ⟨hx, h₁, h₂⟩ => ?_⟩
  obtain ⟨l₁, l₂, rfl⟩ := List.append_of_mem hx
  obtain ⟨q, hq, hx', -, -⟩ := tiled_append.mp h
  rw [locate_append, hq.locate_eq_none (.inr (hx' ▸ h₁)), locate_cons, if_pos ⟨h₁, h₂⟩]
  rfl

theorem Tiled.exists_locate (h : Tiled lo hi p e l) (h₁ : p ≤ a) (h₂ : a < e) :
    ∃ x, locate lo hi l a = some x := by
  induction l generalizing p with
  | nil =>
    simp only [tiled_nil] at h
    omega
  | cons x l ih =>
    rw [locate_cons]
    by_cases hx : lo x ≤ a ∧ a < hi x
    · exact ⟨x, if_pos hx⟩
    · rw [if_neg hx]
      have := h.1
      exact ih h.2.2 (by omega)

/-- Two elements of a tiling that hold a common address are equal. -/
theorem Tiled.eq_of_common (h : Tiled lo hi p e l) (hx : x ∈ l) (hy : y ∈ l)
    (h₁ : lo x ≤ a ∧ a < hi x) (h₂ : lo y ≤ a ∧ a < hi y) : x = y := by
  have e₁ := h.locate_eq_some_iff.mpr ⟨hx, h₁⟩
  have e₂ := h.locate_eq_some_iff.mpr ⟨hy, h₂⟩
  exact Option.some.inj (e₁.symm.trans e₂)

/-- Below the seam of a concatenated tiling only the left part matters. -/
theorem locate_append_left (h₂ : Tiled lo hi q e l₂) (ha : a < q) :
    locate lo hi (l₁ ++ l₂) a = locate lo hi l₁ a := by
  rw [locate_append, h₂.locate_eq_none (.inl ha), Option.or_none]

/-- From the seam of a concatenated tiling on only the right part matters. -/
theorem locate_append_right (h₁ : Tiled lo hi p q l₁) (ha : q ≤ a) :
    locate lo hi (l₁ ++ l₂) a = locate lo hi l₂ a := by
  rw [locate_append, h₁.locate_eq_none (.inr ha), Option.none_or]

/-! ## Binary search -/

/-- The loop of the binary search: the current unsearched space is from `l` to
`h` inclusive. -/
def searchLoop (loAt hiAt : Nat → Nat) (a : Nat) : Nat → Int → Int → Option Nat
  | 0, _, _ => none
  | fuel + 1, l, h =>
    if l > h then none
    else
      let mid := ((l + h) / 2).toNat
      if a < loAt mid then searchLoop loAt hiAt a fuel l (mid - 1)
      else if hiAt mid ≤ a then searchLoop loAt hiAt a fuel (mid + 1) h
      else some mid

/-- Binary search for the interval that holds `a` among the `n` intervals
`[loAt i, hiAt i)`. Every round discards at least one of them, so `n + 1` rounds
are enough. -/
def search (loAt hiAt : Nat → Nat) (n a : Nat) : Option Nat :=
  searchLoop loAt hiAt a (n + 1) 0 (n - 1)

section Search

variable {loAt hiAt : Nat → Nat} {n i : Nat}

theorem searchLoop_sound {fuel : Nat} {l h : Int} (hl : 0 ≤ l)
    (hs : searchLoop loAt hiAt a fuel l h = some i) :
    l ≤ i ∧ i ≤ h ∧ loAt i ≤ a ∧ a < hiAt i := by
  induction fuel generalizing l h with
  | zero => simp [searchLoop] at hs
  | succ fuel ih =>
    unfold searchLoop at hs
    simp only at hs
    split_ifs at hs with h₁ h₂ h₃
    · have := ih hl hs
      omega
    · have := ih (by omega) hs
      omega
    · simp only [Option.some.injEq] at hs
      subst hs
      omega

/-- What the search returns holds the address, whatever the array. -/
theorem search_sound (hs : search loAt hiAt n a = some i) :
    i < n ∧ loAt i ≤ a ∧ a < hiAt i := by
  have := searchLoop_sound (le_refl 0) hs
  omega

/-- The intervals are in ascending order and do not overlap. -/
def Ascending (loAt hiAt : Nat → Nat) (n : Nat) : Prop :=
  ∀ i j, i < j → j < n → loAt i < hiAt i ∧ hiAt i ≤ loAt j ∧ loAt j < hiAt j

theorem searchLoop_complete (hasc : Ascending loAt hiAt n) (hi' : i < n)
    (hc : loAt i ≤ a ∧ a < hiAt i) {fuel : Nat} {l h : Int} (hl : 0 ≤ l) (hh : h < n)
    (hil : l ≤ i) (hih : i ≤ h) (hf : h - l < fuel) :
    searchLoop loAt hiAt a fuel l h = some i := by
  induction fuel generalizing l h with
  | zero => omega
  | succ fuel ih =>
    have hmid : (((l + h) / 2).toNat : Int) = (l + h) / 2 := by omega
    unfold searchLoop
    rw [if_neg (by omega)]
    -- the midpoint either is `i` or lies on a known side of it
    rcases Nat.lt_trichotomy ((l + h) / 2).toNat i with hlt | heq | hgt
    · have := hasc _ _ hlt hi'
      simp only
      rw [if_neg (by omega), if_pos (by omega)]
      exact ih (by omega) hh (by omega) hih (by omega)
    · simp only
      rw [heq, if_neg (by omega), if_neg (by omega)]
    · have := hasc _ _ hgt (by omega)
      simp only
      rw [if_pos (by omega)]
      exact ih hl (by omega) hil (by omega) (by omega)

/-- **Binary search is exact** on an ascending array of disjoint intervals. -/
theorem search_eq_some_iff (hasc : Ascending loAt hiAt n) :
    search loAt hiAt n a = some i ↔ i < n ∧ loAt i ≤ a ∧ a < hiAt i := by
  refine ⟨search_sound, fun ⟨hi', hc⟩ => ?_⟩
  exact searchLoop_complete hasc hi' hc (le_refl 0) (by omega) (by omega) (by omega) (by omega)

end Search

/-- A tiling is ascending. -/
theorem Tiled.ascending [Inhabited α] (h : Tiled lo hi p e l) :
    Ascending (fun i => lo (l.getD i default)) (fun i => hi (l.getD i default)) l.length := by
  intro i j hij hj
  have hi' : i < l.length := by omega
  have hle := List.pairwise_iff_getElem.mp h.pairwise i j hi' hj hij
  have hx := h.mem_bounds (List.getElem_mem hi')
  have hy := h.mem_bounds (List.getElem_mem hj)
  simp only [List.getD_eq_getElem?_getD, List.getElem?_eq_getElem hi',
    List.getElem?_eq_getElem hj, Option.getD_some]
  exact ⟨hx.2.1, hle, hy.2.1⟩

end Intervals
