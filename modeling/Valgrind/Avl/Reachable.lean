import Mathlib.Data.Nat.Fib.Basic
import Valgrind.Avl.OSet

/-!
# Every balanced search tree can be built

The invariant of an `OSet` cannot be sharpened: each balanced search tree is what some
sequence of insertions leaves behind (`exists_inserts`). Take away a lowest leaf and what is
left is still balanced; put it in again, and no swing is needed (`exists_before`).

So there are sets whose trees are too high for the iterator, with fewer than ten million
elements: `leaning h` is the smallest balanced tree of height `h`, all of whose nodes lean
to the left.
-/

namespace Valgrind

namespace Avl

open AvlTree
open Std (TransCmp LawfulEqCmp OrientedCmp ReflCmp)

variable {α : Type} {t : BinTree α}

/-- Putting the node `y` back gives the tree `t`. -/
def PutBack (addr : α → Nat) (checked : Bool) (dup : α → Result α) (t t' : BinTree α) (y : α)
    (xs ys : List α) : Prop :=
  (t' = .nil ∧ t = .node y 0 .nil .nil) ∨
  (t' ≠ .nil ∧ t'.root = t.root ∧ ∀ cut : α → Ordering, (∀ x ∈ xs, cut x = .gt) →
    (∀ x ∈ ys, cut x = .lt) →
    insertNode addr checked cut dup y t' = .ok (t, decide (t.height = t'.height + 1), none))

/-- What a balanced tree was before its last insertion. -/
structure Before (addr : α → Nat) (checked : Bool) (dup : α → Result α) (t t' : BinTree α) (y : α)
    (xs ys : List α) : Prop where
  avl : t'.IsAvl
  list : t.toList = xs ++ y :: ys
  list' : t'.toList = xs ++ ys
  height : t'.height = t.height ∨ t'.height + 1 = t.height
  putBack : PutBack addr checked dup t t' y xs ys

variable {x y : α} {b : Int} {l l' r r' : BinTree α} {xs ys : List α} {addr : α → Nat}
  {checked : Bool} {dup : α → Result α}

/-- The left subtree is as it was before. -/
theorem Before.left (hB : Before addr checked dup l l' y xs ys) (hr : r.IsAvl)
    (hb : b = (r.height : Int) - l.height) (hlo : -1 ≤ b) (hhi : b ≤ 0) :
    Before addr checked dup (.node x b l r) (.node x ((r.height : Int) - l'.height) l' r) y xs
      (ys ++ x :: r.toList) := by
  have hheight := hB.height
  refine ⟨⟨hB.avl, hr, rfl, by omega, by omega⟩, ?_, ?_, ?_, .inr ⟨by simp, rfl, fun cut hxs hys => ?_⟩⟩
  · simp [hB.list]
  · simp [hB.list']
  · simp only [BinTree.height_node]
    omega
  have hx : cut x = .lt := hys x (by simp)
  rcases hB.putBack with ⟨rfl, rfl⟩ | ⟨hne, hroot, hins⟩
  · simp only [insertNode, hx]
    refine congrArg Except.ok (Prod.ext ?_ (Prod.ext ?_ rfl))
    · simp [hb]
    · refine decide_eq_decide.mpr ?_
      simp only [BinTree.height_node, BinTree.height_nil]
      omega
  rw [insertNode_left hx hne, hins cut hxs fun z hz => hys z (by simp [hz]), ok_bind]
  rcases hheight with hh | hh
  · -- the subtree does not grow
    rw [← hh] at hb
    simp [← hh, hb]
  · have hderef : deref addr (ptr addr l') l = l := deref_of_root hroot.symm hne
    have hgrown : grewLeft checked x ((r.height : Int) - l'.height) l r =
        .ok (.node x b l r, decide (b = -1)) := by
      have hb' : (r.height : Int) - l'.height = b + 1 := by omega
      rw [hb']
      obtain rfl | rfl : b = -1 ∨ b = 0 := by omega
      · rfl
      · rfl
    dsimp only
    rw [if_pos (decide_eq_true hh.symm), hderef, hgrown]
    refine congrArg Except.ok (Prod.ext rfl (Prod.ext ?_ rfl))
    refine decide_eq_decide.mpr ?_
    simp only [BinTree.height_node]
    omega

/-- The right subtree is as it was before. -/
theorem Before.right (hB : Before addr checked dup r r' y xs ys) (hl : l.IsAvl)
    (hb : b = (r.height : Int) - l.height) (hlo : 0 ≤ b) (hhi : b ≤ 1) :
    Before addr checked dup (.node x b l r) (.node x ((r'.height : Int) - l.height) l r') y
      (l.toList ++ x :: xs) ys := by
  have hheight := hB.height
  refine ⟨⟨hl, hB.avl, rfl, by omega, by omega⟩, ?_, ?_, ?_, .inr ⟨by simp, rfl, fun cut hxs hys => ?_⟩⟩
  · simp [hB.list]
  · simp [hB.list']
  · simp only [BinTree.height_node]
    omega
  have hx : cut x = .gt := hxs x (by simp)
  rcases hB.putBack with ⟨rfl, rfl⟩ | ⟨hne, hroot, hins⟩
  · simp only [insertNode, hx]
    refine congrArg Except.ok (Prod.ext ?_ (Prod.ext ?_ rfl))
    · have hb' : ((BinTree.nil : BinTree α).height : Int) - l.height + 1 = b := by
        rw [hb, BinTree.height_node, BinTree.height_nil]
        omega
      rw [hb']
    · refine decide_eq_decide.mpr ?_
      simp only [BinTree.height_node, BinTree.height_nil]
      omega
  rw [insertNode_right hx hne, hins cut (fun z hz => hxs z (by simp [hz])) hys, ok_bind]
  rcases hheight with hh | hh
  · rw [← hh] at hb
    simp [← hh, hb]
  · have hderef : deref addr (ptr addr r') r = r := deref_of_root hroot.symm hne
    have hgrown : grewRight checked x ((r'.height : Int) - l.height) l r =
        .ok (.node x b l r, decide (b = 1)) := by
      have hb' : (r'.height : Int) - l.height = b - 1 := by omega
      rw [hb']
      obtain rfl | rfl : b = 1 ∨ b = 0 := by omega
      · rfl
      · rfl
    dsimp only
    rw [if_pos (decide_eq_true hh.symm), hderef, hgrown]
    refine congrArg Except.ok (Prod.ext rfl (Prod.ext ?_ rfl))
    refine decide_eq_decide.mpr ?_
    simp only [BinTree.height_node]
    omega

/-- Every balanced tree is what the insertion of some node into a balanced tree leaves. -/
theorem exists_before (addr : α → Nat) (checked : Bool) (dup : α → Result α) (ht : t.IsAvl)
    (hne : t ≠ .nil) : ∃ t' y xs ys, Before addr checked dup t t' y xs ys := by
  induction t with
  | nil => exact absurd rfl hne
  | node x b l r ihl ihr =>
    obtain ⟨hl, hr, hb, hlo, hhi⟩ := ht
    by_cases hleaf : l = .nil ∧ r = .nil
    · obtain ⟨rfl, rfl⟩ := hleaf
      obtain rfl : b = 0 := by simpa using hb
      exact ⟨.nil, x, [], [], trivial, rfl, rfl, .inr rfl, .inl ⟨rfl, rfl⟩⟩
    by_cases hle : r.height ≤ l.height
    · -- a lowest leaf is on the left
      have hlne : l ≠ .nil := by
        rintro rfl
        exact hleaf ⟨rfl, BinTree.height_eq_zero.mp (by simpa using hle)⟩
      obtain ⟨l', y, xs, ys, hB⟩ := ihl hl hlne
      exact ⟨_, _, _, _, hB.left hr hb hlo (by omega)⟩
    · have hrne : r ≠ .nil := by
        rintro rfl
        simp at hle
      obtain ⟨r', y, xs, ys, hB⟩ := ihr hr hrne
      exact ⟨_, _, _, _, hB.right hl hb (by omega) hhi⟩

/-! ## Sets -/

section

variable {K E : Type} {keyOf : E → K} {word : K → Nat} {ord : K → K → Ordering}

/-- Putting a node back into an `OSet`. -/
theorem osetInsert_of_before {cmp : Option (K → E → Int)} {t t' : BinTree (ONode E)} {y : ONode E}
    {xs ys : List (ONode E)} (hord : OrdOk keyOf word cmp ord) (c : Int)
    (hsorted : KeySorted (ONode.key keyOf) ord t.toList)
    (hB : Before ONode.addr false (fun _ => throw .assertFailed) t t' y xs ys) :
    osetInsert keyOf word ⟨cmp, c, t', []⟩ y = .ok ⟨cmp, c + 1, t, []⟩ := by
  have := hord.trans
  have hway : ∀ n, wayOSet keyOf word cmp (y.key keyOf) n = ord (y.key keyOf) (n.key keyOf) :=
    fun n => hord.agrees _ n.elem
  rw [hB.list, KeySorted, List.pairwise_append, List.pairwise_cons] at hsorted
  obtain ⟨-, ⟨hys, -⟩, hxs⟩ := hsorted
  rcases hB.putBack with ⟨rfl, rfl⟩ | ⟨hne, -, hins⟩
  · rfl
  · have hrun := hins (wayOSet keyOf word cmp (y.key keyOf))
      (fun x hx => (hway x).trans (OrientedCmp.gt_of_lt (hxs x hx y (by simp))))
      fun x hx => (hway x).trans (hys x hx)
    unfold osetInsert
    split
    · rename_i h
      exact absurd h hne
    · simp only [avlInsert, hrun, ok_bind]
      rfl

/-- The node that is put back is not in the tree. -/
theorem absent_of_before {cmp : Option (K → E → Int)} {t t' : BinTree (ONode E)} {y : ONode E}
    {xs ys : List (ONode E)} (hord : OrdOk keyOf word cmp ord) (c : Int)
    (hsorted : KeySorted (ONode.key keyOf) ord t.toList)
    (hB : Before ONode.addr false (fun _ => throw .assertFailed) t t' y xs ys) :
    osetContains keyOf word ⟨cmp, c, t', []⟩ (y.key keyOf) = false := by
  have := hord.trans
  have := hord.lawful
  have hway : wayOSet keyOf word cmp (y.key keyOf) = cutAt (ONode.key keyOf) ord (y.key keyOf) :=
    funext fun n => hord.agrees _ n.elem
  rw [hB.list] at hsorted
  have hsorted' : KeySorted (ONode.key keyOf) ord (xs ++ ys) :=
    hsorted.sublist (List.Sublist.append_left (List.sublist_cons_self y ys) xs)
  have hnone : atCut (cutAt (ONode.key keyOf) ord (y.key keyOf)) (xs ++ ys) = none := by
    refine hsorted'.atCut_eq_none.mpr fun x hx hk => ?_
    obtain ⟨-, hys, hxs⟩ := List.pairwise_append.mp hsorted
    have hlt : ord (x.key keyOf) (y.key keyOf) = .lt ∨ ord (y.key keyOf) (x.key keyOf) = .lt := by
      rcases List.mem_append.mp hx with hx | hx
      · exact .inl (hxs x hx y (by simp))
      · exact .inr ((List.pairwise_cons.mp hys).1 x hx)
    have hrefl : ord (y.key keyOf) (y.key keyOf) = .eq := ReflCmp.compare_self
    rw [hk, hrefl] at hlt
    simp at hlt
  rw [osetContains, avlLookup]
  dsimp only
  rw [hway, findNode_eq (hB.list' ▸ hsorted'.cuts _), hB.list', hnone]
  rfl

/-- Every balanced search tree is what insertions into an empty `OSet` leave behind. -/
theorem exists_inserts {cmp : Option (K → E → Int)} (hord : OrdOk keyOf word cmp ord)
    {t : BinTree (ONode E)} (ht : t.IsAvl) (hsorted : KeySorted (ONode.key keyOf) ord t.toList) :
    ∃ ops, runMeets (stepOSet keyOf word) (Absent keyOf word) (osetCreate cmp, []) ops ∧
      runSteps (stepOSet keyOf word) (osetCreate cmp, []) ops =
        .ok (⟨cmp, t.toList.length, t, []⟩, []) := by
  induction hn : t.toList.length generalizing t with
  | zero =>
    obtain rfl : t = .nil := by
      cases t with
      | nil => rfl
      | node => simp at hn
    exact ⟨[], trivial, rfl⟩
  | succ n ih =>
    have hne : t ≠ .nil := by
      rintro rfl
      simp at hn
    obtain ⟨t', y, xs, ys, hB⟩ := exists_before ONode.addr false (fun _ => throw .assertFailed) ht hne
    have hlen : t'.toList.length = n := by
      rw [hB.list, List.length_append, List.length_cons] at hn
      rw [hB.list', List.length_append]
      omega
    have hsorted' : KeySorted (ONode.key keyOf) ord t'.toList := by
      rw [hB.list] at hsorted
      rw [hB.list']
      exact hsorted.sublist (List.Sublist.append_left (List.sublist_cons_self y ys) xs)
    obtain ⟨ops, hmeets, hrun⟩ := ih hB.avl hsorted' hlen
    have hins := osetInsert_of_before hord n hsorted hB
    refine ⟨ops ++ [.insert y], ?_, ?_⟩
    · refine runMeets_append hrun hmeets ⟨?_, fun _ _ => trivial⟩
      exact absent_of_before hord n hsorted hB
    · refine runSteps_append.mpr ⟨_, hrun, ?_⟩
      simp only [runSteps, stepOSet, hins, ok_bind]
      rfl

end

/-! ## A tree that is too high -/

/-- The number of nodes on the way from the root to the leftmost node. -/
def leftSpine : BinTree α → Nat
  | .nil => 0
  | .node _ _ l _ => leftSpine l + 1

theorem leftSpine_le_height : leftSpine t ≤ t.height := by
  induction t with
  | nil => exact Nat.le_refl 0
  | node x b l r ihl ihr =>
    simp only [leftSpine, BinTree.height_node]
    omega

/-- `VG_(OSetGen_Next)` pushes the whole left spine, and fails if there is no room. -/
theorem nextOSetLoop_overflow {n : BinTree α} {s : Stack α} {fuel : Nat} (hs : s.length < stackMax)
    (hspine : stackMax < leftSpine n + s.length) (hfuel : leftSpine n < fuel) :
    nextOSetLoop fuel ((n, 1) :: s) = .error .assertFailed := by
  induction n generalizing s fuel with
  | nil =>
    simp only [leftSpine] at hspine
    omega
  | node x b l r ihl ihr =>
    obtain ⟨fuel, rfl⟩ : ∃ k, fuel = k + 1 := ⟨fuel - 1, by omega⟩
    simp only [leftSpine] at hspine hfuel
    have hpush : stackPush s (.node x b l r) 2 = .ok ((.node x b l r, 2) :: s) := by
      simp only [stackPush, assertThat_of hs, ok_bind]
      rfl
    rw [nextOSetLoop, assertThat_of (by decide), ok_bind, if_pos rfl, hpush, ok_bind]
    cases l with
    | nil =>
      simp only [leftSpine] at hspine
      omega
    | node y bl ll lr =>
      by_cases hroom : s.length + 1 < stackMax
      · have hchild : pushChild ((.node x b (.node y bl ll lr) r, 2) :: s) (.node y bl ll lr) =
            .ok ((.node y bl ll lr, 1) :: (.node x b (.node y bl ll lr) r, 2) :: s) := by
          simp only [pushChild, stackPush, List.length_cons, assertThat_of hroom, ok_bind]
          rfl
        rw [hchild, ok_bind]
        exact ihl hroom (by rw [List.length_cons]; omega) (by omega)
      · simp only [pushChild, stackPush, List.length_cons, assertThat, if_neg hroom]
        rfl

/-- A set whose tree has a left spine that is too long cannot be iterated over. -/
theorem osetNext_overflow {K E : Type} {t : OSet K E} (hspine : stackMax < leftSpine t.root) :
    (osetResetIter t >>= osetNext) = .error .assertFailed := by
  obtain ⟨cmp, nElems, root, stack⟩ := t
  cases root with
  | nil => simp [leftSpine] at hspine
  | node x b l r =>
    have hover : nextOSet [(.node x b l r, 1)] = .error .assertFailed := by
      refine nextOSetLoop_overflow (Nat.zero_lt_succ 31) hspine ?_
      have hle := leftSpine_le_height (t := .node x b l r)
      rw [turns_cons]
      dsimp only
      omega
    have hstart : startIter (.node x b l r) = .ok [(.node x b l r, 1)] := rfl
    simp only [osetResetIter, osetNext, hstart, ok_bind, pure_bind, hover]
    rfl

/-- The smallest balanced tree of height `h` that leans to the left everywhere, with the keys
from `k` on. -/
def leaning : Nat → Nat → BinTree (ONode Nat)
  | 0, _ => .nil
  | 1, k => .node ⟨k + 1, k⟩ 0 .nil .nil
  | h + 2, k =>
    .node ⟨k + Nat.fib (h + 3), k + Nat.fib (h + 3) - 1⟩ (-1) (leaning (h + 1) k)
      (leaning h (k + Nat.fib (h + 3)))

theorem height_leaning (h k : Nat) : (leaning h k).height = h := by
  induction h using Nat.twoStepInduction generalizing k with
  | zero => rfl
  | one => rfl
  | more h ih₁ ih₂ =>
    simp only [leaning, BinTree.height_node, ih₁, ih₂]
    omega

theorem isAvl_leaning (h k : Nat) : (leaning h k).IsAvl := by
  induction h using Nat.twoStepInduction generalizing k with
  | zero => trivial
  | one => simp [leaning, BinTree.IsAvl]
  | more h ih₁ ih₂ =>
    refine ⟨ih₂ k, ih₁ _, ?_, by decide, by decide⟩
    rw [height_leaning, height_leaning]
    omega

theorem leftSpine_leaning (h k : Nat) : leftSpine (leaning h k) = h := by
  induction h using Nat.twoStepInduction generalizing k with
  | zero => rfl
  | one => rfl
  | more h _ ih => rw [leaning, leftSpine, ih]

/-- The tree has `fib (h + 2) - 1` nodes, with consecutive keys. -/
theorem toList_leaning (h k : Nat) :
    (leaning h k).toList = (List.range' k (Nat.fib (h + 2) - 1)).map fun i => ⟨i + 1, i⟩ := by
  induction h using Nat.twoStepInduction generalizing k with
  | zero => rfl
  | one => rfl
  | more h ih₁ ih₂ =>
    have hpos₂ : 0 < Nat.fib (h + 2) := Nat.fib_pos.mpr (by omega)
    have hpos₃ : 0 < Nat.fib (h + 3) := Nat.fib_pos.mpr (by omega)
    have hsplit : Nat.fib (h + 2 + 2) - 1 = (Nat.fib (h + 3) - 1) + ((Nat.fib (h + 2) - 1) + 1) := by
      have hfib : Nat.fib (h + 2 + 2) = Nat.fib (h + 2) + Nat.fib (h + 3) := Nat.fib_add_two
      omega
    have hmid : k + (Nat.fib (h + 3) - 1) + 1 = k + Nat.fib (h + 3) := by omega
    rw [hsplit, ← List.range'_append_1, List.range'_succ, List.map_append, List.map_cons, hmid, leaning,
      BinTree.toList_node, ih₁, ih₂]
    congr 3
    omega

theorem length_leaning : (leaning 33 0).toList.length = 9227464 := by
  rw [toList_leaning, List.length_map, List.length_range']
  decide

/-- A set of words with 9227464 elements can have a tree of height 33. -/
theorem exists_leaning : ∃ ops, runMeets (stepOSet id id) (Absent id id) (osetCreate none, []) ops ∧
    runSteps (stepOSet id id) (osetCreate none, []) ops =
      .ok (⟨none, 9227464, leaning 33 0, []⟩, []) := by
  have hsorted : KeySorted (ONode.key id) compare (leaning 33 0).toList := by
    rw [toList_leaning, KeySorted, List.pairwise_map]
    exact (List.pairwise_lt_range' ..).imp fun h => Nat.compare_eq_lt.mpr h
  have h := exists_inserts ordOk_words (isAvl_leaning 33 0) hsorted
  rwa [length_leaning] at h

/-- There are two things that the iterator of a set does not do: start in the middle of a set
that has no comparison function, and go through a set of nine million elements whose tree leans
to the left. -/
theorem oset_refines_iterLimits :
    (∃ t, runSteps (stepOSet id id) (osetCreate none, []) [.insert ⟨16, 5⟩] = .ok (t, []) ∧
      osetResetIterAt id id t 5 = .error .assertFailed) ∧
    ∃ ops, runMeets (stepOSet id id) (Absent id id) (osetCreate none, []) ops ∧
      ∃ t, runSteps (stepOSet id id) (osetCreate none, []) ops = .ok (t, []) ∧
        t.nElems = 9227464 ∧ (osetResetIter t >>= osetNext) = .error .assertFailed := by
  refine ⟨⟨_, rfl, rfl⟩, ?_⟩
  obtain ⟨ops, hmeets, hrun⟩ := exists_leaning
  refine ⟨ops, hmeets, _, hrun, rfl, osetNext_overflow ?_⟩
  rw [leftSpine_leaning]
  decide

end Avl

end Valgrind
