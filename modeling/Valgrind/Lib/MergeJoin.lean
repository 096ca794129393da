import Valgrind.Lib.KeyedList

/-!
# Merge joins

Two lists in the strict order of their keys are walked side by side: of two elements with
different keys the one with the smaller key is dropped, and two elements with the same key are
a result. `commonPairs` are the results in the order in which the walk comes to them; they
are all pairs of elements with a common key (`mem_commonPairs`).
-/

namespace MergeJoin

open KeyedList

variable {α κ : Type} [LinearOrder κ] {key : α → κ}

/-- What the walk over two lists comes to. -/
def commonPairs (key : α → κ) : List α → List α → List (α × α)
  | x :: xs, y :: ys =>
    if key x = key y then (x, y) :: commonPairs key xs ys
    else if key x < key y then commonPairs key xs (y :: ys)
    else commonPairs key (x :: xs) ys
  | _, _ => []
termination_by xs ys => xs.length + ys.length

variable {x y : α} {xs ys : List α}

@[simp] theorem commonPairs_nil_left : commonPairs key [] ys = [] := by
  rw [commonPairs]
  exact fun _ _ _ _ h => nomatch h

@[simp] theorem commonPairs_nil_right : commonPairs key xs [] = [] := by
  rw [commonPairs]
  exact fun _ _ _ _ _ h => nomatch h

theorem commonPairs_of_eq (h : key x = key y) :
    commonPairs key (x :: xs) (y :: ys) = (x, y) :: commonPairs key xs ys := by
  rw [commonPairs, if_pos h]

theorem commonPairs_of_lt (h : key x < key y) :
    commonPairs key (x :: xs) (y :: ys) = commonPairs key xs (y :: ys) := by
  rw [commonPairs, if_neg h.ne, if_pos h]

theorem commonPairs_of_gt (h : key y < key x) :
    commonPairs key (x :: xs) (y :: ys) = commonPairs key (x :: xs) ys := by
  rw [commonPairs, if_neg h.ne', if_neg h.asymm]

/-- Of ascending lists, the walk finds all elements with a common key. -/
theorem mem_commonPairs (hxs : Ascending key xs) (hys : Ascending key ys) {u v : α} :
    (u, v) ∈ commonPairs key xs ys ↔ u ∈ xs ∧ v ∈ ys ∧ key u = key v := by
  induction xs, ys using commonPairs.induct key with
  | case1 x xs y ys heq ih =>
    obtain ⟨hx, hxs⟩ := List.pairwise_cons.mp hxs
    obtain ⟨hy, hys⟩ := List.pairwise_cons.mp hys
    rw [commonPairs_of_eq heq, List.mem_cons, ih hxs hys, List.mem_cons, List.mem_cons, Prod.mk.injEq]
    constructor
    · rintro (⟨rfl, rfl⟩ | ⟨hu, hv, huv⟩)
      · exact ⟨.inl rfl, .inl rfl, heq⟩
      · exact ⟨.inr hu, .inr hv, huv⟩
    · rintro ⟨rfl | hu, rfl | hv, huv⟩
      · exact .inl ⟨rfl, rfl⟩
      · exact absurd (heq.symm.trans huv) (hy v hv).ne
      · exact absurd (huv.trans heq.symm) (hx u hu).ne'
      · exact .inr ⟨hu, hv, huv⟩
  | case2 x xs y ys hne hlt ih =>
    obtain ⟨-, hxs⟩ := List.pairwise_cons.mp hxs
    have hy := (List.pairwise_cons.mp hys).1
    rw [commonPairs_of_lt hlt, ih hxs hys]
    refine ⟨fun ⟨hu, hrest⟩ => ⟨List.mem_cons_of_mem _ hu, hrest⟩, ?_⟩
    rintro ⟨hu, hv, huv⟩
    rcases List.mem_cons.mp hu with rfl | hu
    · rcases List.mem_cons.mp hv with rfl | hv'
      · exact absurd huv hne
      · exact absurd huv (hlt.trans (hy v hv')).ne
    · exact ⟨hu, hv, huv⟩
  | case3 x xs y ys hne hlt ih =>
    obtain ⟨-, hys⟩ := List.pairwise_cons.mp hys
    have hx := (List.pairwise_cons.mp hxs).1
    have hgt : key y < key x := lt_of_le_of_ne (not_lt.mp hlt) fun h => hne h.symm
    rw [commonPairs_of_gt hgt, ih hxs hys]
    refine ⟨fun ⟨hu, hv, huv⟩ => ⟨hu, List.mem_cons_of_mem _ hv, huv⟩, ?_⟩
    rintro ⟨hu, hv, huv⟩
    rcases List.mem_cons.mp hv with rfl | hv
    · rcases List.mem_cons.mp hu with rfl | hu'
      · exact absurd huv hne
      · exact absurd huv (hgt.trans (hx u hu')).ne'
    · exact ⟨hu, hv, huv⟩
  | case4 xs ys hnil =>
    cases xs with
    | nil => simp
    | cons x xs =>
      cases ys with
      | nil => simp
      | cons y ys => exact absurd rfl (hnil x xs y ys rfl)

end MergeJoin
