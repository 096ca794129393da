import Valgrind.Lib.Intervals

/-!
# Cutting overlapping ranges

A table of ranges `[start x, start x + len x)` that is sorted by the start, but whose ranges
may overlap, is made into a table of disjoint ranges: every range is cut where the next one
starts, and the empty ones are dropped. The range that covers a point after that is the last
one of those that started at or before the point, if it covered the point from the
beginning.
-/

namespace Valgrind.CutRanges

/-- Elements that have a range whose length can be changed. -/
structure RangeOps (α : Type) where
  start : α → Nat
  len : α → Nat
  setLen : α → Nat → α
  start_setLen : ∀ x n, start (setLen x n) = start x
  len_setLen : ∀ x n, len (setLen x n) = n
  setLen_len : ∀ x, setLen x (len x) = x

namespace RangeOps

attribute [simp] start_setLen len_setLen setLen_len

variable {α : Type} (o : RangeOps α)

/-- The point is in the range of the element. -/
def Covers (x : α) (p : Nat) : Prop := o.start x ≤ p ∧ p < o.start x + o.len x

/-- In the order of the starts. -/
def Sorted (l : List α) : Prop := l.Pairwise fun x y => o.start x ≤ o.start y

/-- Not empty, in order and without overlaps. -/
def Disjoint (l : List α) : Prop :=
  (∀ x ∈ l, 0 < o.len x) ∧ l.Pairwise fun x y => o.start x + o.len x ≤ o.start y

/-- The last element that starts at or before the point. -/
def lastStart (l : List α) (p : Nat) : Option α := (l.filter fun x => decide (o.start x ≤ p)).getLast?

/-- Cut a range where the next one starts. -/
def cutAt (x : α) (s : Nat) : α := if s < o.start x + o.len x then o.setLen x (s - o.start x) else x

/-- Cut all ranges where the next one starts. -/
def cut : List α → List α
  | [] => []
  | [x] => [x]
  | x :: y :: l => o.cutAt x (o.start y) :: cut (y :: l)

/-- Drop the empty ranges. -/
def nonempty (l : List α) : List α := l.filter fun x => decide (0 < o.len x)

variable {o} {x x' y : α} {l : List α} {p s : Nat}

@[simp] theorem start_cutAt : o.start (o.cutAt x s) = o.start x := by
  unfold cutAt
  split <;> simp

theorem len_cutAt (h : o.start x ≤ s) : o.len (o.cutAt x s) = min (o.len x) (s - o.start x) := by
  unfold cutAt
  split
  · rw [o.len_setLen]
    omega
  · omega

/-- A range that has been cut is the old one but for its length. -/
theorem setLen_cutAt (h : o.start x ≤ s) : o.cutAt x s = o.setLen x (min (o.len x) (s - o.start x)) := by
  unfold cutAt
  split
  · congr 1
    omega
  · rw [Nat.min_eq_left (by omega), o.setLen_len]

theorem covers_cutAt (h : o.start x ≤ s) : o.Covers (o.cutAt x s) p ↔ o.Covers x p ∧ p < s := by
  unfold Covers
  rw [start_cutAt, len_cutAt h]
  omega

theorem start_mem_cut (hx : x ∈ o.cut l) : ∃ y ∈ l, o.start x = o.start y := by
  induction l using cut.induct with
  | case1 => exact nomatch hx
  | case2 y => exact ⟨x, hx, rfl⟩
  | case3 y z l ih =>
    rcases List.mem_cons.mp hx with rfl | hx
    · exact ⟨y, List.mem_cons_self, start_cutAt⟩
    · obtain ⟨w, hw, hs⟩ := ih hx
      exact ⟨w, List.mem_cons_of_mem _ hw, hs⟩

/-- The ranges that are left are no longer than before. -/
theorem le_of_mem_cut (hx : x ∈ o.cut l) (hl : o.Sorted l) :
    ∃ y ∈ l, o.start x = o.start y ∧ o.len x ≤ o.len y := by
  induction l using cut.induct with
  | case1 => exact nomatch hx
  | case2 y => exact ⟨x, hx, rfl, le_refl _⟩
  | case3 y z l ih =>
    obtain ⟨hy, hrest⟩ := List.pairwise_cons.mp hl
    rcases List.mem_cons.mp hx with rfl | hx
    · refine ⟨y, List.mem_cons_self, start_cutAt, ?_⟩
      rw [len_cutAt (hy z List.mem_cons_self)]
      exact Nat.min_le_left _ _
    · obtain ⟨w, hw, h⟩ := ih hx hrest
      exact ⟨w, List.mem_cons_of_mem _ hw, h⟩

/-- **The ranges do not overlap** once they have been cut. -/
theorem disjoint_cut (h : o.Sorted l) : o.Disjoint (o.nonempty (o.cut l)) := by
  refine ⟨fun x hx => of_decide_eq_true (List.mem_filter.mp hx).2, List.Pairwise.filter _ ?_⟩
  induction l using cut.induct with
  | case1 => exact List.Pairwise.nil
  | case2 x => exact List.pairwise_singleton _ _
  | case3 x y l ih =>
    obtain ⟨hx, hl⟩ := List.pairwise_cons.mp h
    obtain ⟨hy, -⟩ := List.pairwise_cons.mp hl
    have hxy := hx y List.mem_cons_self
    refine List.pairwise_cons.mpr ⟨fun z hz => ?_, ih hl⟩
    obtain ⟨w, hw, hstart⟩ := start_mem_cut hz
    have hyw : o.start y ≤ o.start w := by
      rcases List.mem_cons.mp hw with rfl | hw
      · exact le_refl _
      · exact hy w hw
    rw [start_cutAt, len_cutAt hxy, hstart]
    omega

theorem lastStart_cons_of_le (hy : o.start y ≤ p) : o.lastStart (x :: y :: l) p = o.lastStart (y :: l) p := by
  have hne : (y :: l).filter (fun x => decide (o.start x ≤ p)) ≠ [] :=
    List.ne_nil_of_mem (List.mem_filter.mpr ⟨List.mem_cons_self, decide_eq_true hy⟩)
  unfold lastStart
  rw [List.filter_cons]
  split
  · rw [List.getLast?_cons, List.getLast?_eq_some_getLast hne]
    rfl
  · rfl

theorem lastStart_cons_of_lt (hl : ∀ y ∈ l, p < o.start y) :
    o.lastStart (x :: l) p = if o.start x ≤ p then some x else none := by
  have hnil : l.filter (fun x => decide (o.start x ≤ p)) = [] :=
    List.filter_eq_nil_iff.mpr fun y hy => by simpa using hl y hy
  unfold lastStart
  rw [List.filter_cons, hnil]
  split <;> split <;> simp_all

theorem eq_setLen_cutAt (h : o.start x ≤ s) : o.cutAt x s = o.setLen x (o.len (o.cutAt x s)) := by
  rw [len_cutAt h]
  exact setLen_cutAt h

/-- What covers a point once the ranges have been cut is the last one that started before it. -/
theorem lastStart_of_covers (h : o.Sorted l) (hx' : x' ∈ o.cut l) (hp : o.Covers x' p) :
    ∃ x, o.lastStart l p = some x ∧ o.Covers x p ∧ x' = o.setLen x (o.len x') := by
  induction l using cut.induct with
  | case1 => exact nomatch hx'
  | case2 x =>
    obtain rfl := List.mem_singleton.mp hx'
    exact ⟨x', by rw [lastStart_cons_of_lt (List.forall_mem_nil _), if_pos hp.1], hp, (o.setLen_len x').symm⟩
  | case3 x y l ih =>
    obtain ⟨hx, hl⟩ := List.pairwise_cons.mp h
    obtain ⟨hy, -⟩ := List.pairwise_cons.mp hl
    have hxy := hx y List.mem_cons_self
    rcases List.mem_cons.mp hx' with rfl | hx'
    · obtain ⟨hxp, hlt⟩ := (covers_cutAt hxy).mp hp
      refine ⟨x, ?_, hxp, eq_setLen_cutAt hxy⟩
      rw [lastStart_cons_of_lt fun z hz => ?_, if_pos hxp.1]
      rcases List.mem_cons.mp hz with rfl | hz
      · exact hlt
      · exact hlt.trans_le (hy z hz)
    · obtain ⟨z, hz, hstart⟩ := start_mem_cut hx'
      have hyp : o.start y ≤ p := by
        have hle := hp.1
        rw [hstart] at hle
        rcases List.mem_cons.mp hz with rfl | hz
        · exact hle
        · exact (hy z hz).trans hle
      rw [lastStart_cons_of_le hyp]
      exact ih hl hx'

/-- **Looking up a point**: the last range that started before it covers it, cut, if it covered it
from the beginning. -/
theorem exists_covers (h : o.Sorted l) (hlast : o.lastStart l p = some x) (hp : o.Covers x p) :
    ∃ x' ∈ o.cut l, o.Covers x' p ∧ x' = o.setLen x (o.len x') := by
  induction l using cut.induct with
  | case1 => exact nomatch hlast
  | case2 y =>
    rw [lastStart_cons_of_lt (List.forall_mem_nil _)] at hlast
    split at hlast
    · obtain rfl := Option.some.inj hlast
      exact ⟨y, List.mem_singleton_self y, hp, (o.setLen_len y).symm⟩
    · exact nomatch hlast
  | case3 y z l ih =>
    obtain ⟨hy, hl⟩ := List.pairwise_cons.mp h
    obtain ⟨hz, -⟩ := List.pairwise_cons.mp hl
    have hyz := hy z List.mem_cons_self
    rcases Nat.lt_or_ge p (o.start z) with hlt | hge
    · rw [lastStart_cons_of_lt fun w hw => ?_] at hlast
      · split at hlast
        · obtain rfl := Option.some.inj hlast
          exact ⟨_, List.mem_cons_self, (covers_cutAt hyz).mpr ⟨hp, hlt⟩, eq_setLen_cutAt hyz⟩
        · exact nomatch hlast
      · rcases List.mem_cons.mp hw with rfl | hw
        · exact hlt
        · exact hlt.trans_le (hz w hw)
    · rw [lastStart_cons_of_le hge] at hlast
      obtain ⟨x', hx', hcov, heq⟩ := ih hl hlast
      exact ⟨x', List.mem_cons_of_mem _ hx', hcov, heq⟩

theorem mem_nonempty_of_covers (hx : x ∈ l) (hp : o.Covers x p) : x ∈ o.nonempty l :=
  List.mem_filter.mpr ⟨hx, decide_eq_true (by have := hp.1; have := hp.2; omega)⟩

end RangeOps

end Valgrind.CutRanges
