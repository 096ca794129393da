import Valgrind.Avl.Core

/-!
# What the tree code does

One lemma for each function: on a balanced tree it returns (no assertion fails, no null
pointer is followed), the result is balanced, and its nodes in order are those one
expects. Insertion and removal are described by the in-order list alone, cut in two by
the comparison; heights say what the Boolean results mean.

The local copy of a child pointer that `insertNode` does not write back is harmless
because a tree that has grown has kept its root (`Grown.keeps`).
-/

namespace Valgrind

namespace Avl

open AvlTree

variable {α : Type} {x : α} {b : Int} {l r t : BinTree α} {checked : Bool}

/-! ## Rebalancing -/

/-- What a tree whose subtree has changed by one level is rebuilt to. -/
structure Rebuilt (t : BinTree α) (xs : List α) (h : Nat) : Prop where
  list : t.toList = xs
  avl : t.IsAvl
  height : t.height = h

/-- A subtree that is higher than its sibling by two is not empty, and neither is the inner
one of its own subtrees if that is the higher one. -/
theorem exists_node (h : 0 < t.height) : ∃ x b l r, t = .node x b l r := by
  cases t with
  | nil => simp at h
  | node x b l r => exact ⟨x, b, l, r, rfl⟩

/-- The nasty swing to the right, in one step. -/
theorem nasty_right {y z : α} {by' bz : Int} {ll lrl lrr : BinTree α} (hz : -1 ≤ bz ∧ bz ≤ 1)
    (res : Bool) :
    (do
      let l ← swl (.node y by' ll (.node z bz lrl lrr))
      let t ← swr (.node x b l r)
      let t ← nasty checked t
      pure (t, res) : Result (BinTree α × Bool)) =
      .ok (.node z 0 (.node y (if bz = 1 then -1 else 0) ll lrl)
        (.node x (if bz = -1 then 1 else 0) lrr r), res) := by
  obtain rfl | rfl | rfl : bz = -1 ∨ bz = 0 ∨ bz = 1 := by omega
  all_goals rfl

/-- The nasty swing to the left, in one step. -/
theorem nasty_left {y z : α} {by' bz : Int} {rll rlr rr : BinTree α} (hz : -1 ≤ bz ∧ bz ≤ 1)
    (res : Bool) :
    (do
      let r ← swr (.node y by' (.node z bz rll rlr) rr)
      let t ← swl (.node x b l r)
      let t ← nasty checked t
      pure (t, res) : Result (BinTree α × Bool)) =
      .ok (.node z 0 (.node x (if bz = 1 then -1 else 0) l rll)
        (.node y (if bz = -1 then 1 else 0) rlr rr), res) := by
  obtain rfl | rfl | rfl : bz = -1 ∨ bz = 0 ∨ bz = 1 := by omega
  all_goals rfl

theorem grewLeft_spec (checked : Bool) (hl : l.IsAvl) (hr : r.IsAvl) (hb : b = (r.height : Int) - l.height + 1)
    (hlo : -1 ≤ b) (hhi : b ≤ 1) (hne : l.balance ≠ 0) :
    ∃ t g, grewLeft checked x b l r = .ok (t, g) ∧
      Rebuilt t (l.toList ++ x :: r.toList)
        (max (l.height - 1) r.height + 1 + (if g then 1 else 0)) ∧
      (g = true → t.balance ≠ 0 ∧ t.root = some x) := by
  have hpos : 0 < l.height := by
    cases l with
    | nil => simp [BinTree.balance] at hne
    | node => simp
  obtain rfl | rfl | rfl : b = 1 ∨ b = 0 ∨ b = -1 := by omega
  · exact ⟨_, _, rfl, ⟨rfl, ⟨hl, hr, by omega, by omega, by omega⟩, by simp; omega⟩, by simp⟩
  · exact ⟨_, _, rfl, ⟨rfl, ⟨hl, hr, by omega, by omega, by omega⟩, by simp; omega⟩, by simp⟩
  · obtain ⟨y, bl, ll, lr, rfl⟩ := exists_node hpos
    obtain ⟨hll, hlr, hbl, hbl₁, hbl₂⟩ := hl
    simp only [BinTree.height_node, BinTree.balance_node] at hb hne hpos
    by_cases hneg : bl < 0
    · -- the outer subtree is the higher one: a single swing
      obtain rfl : bl = -1 := by omega
      refine ⟨_, _, rfl, ⟨by simp, ⟨hll, ⟨hlr, hr, ?_, ?_, ?_⟩, ?_, ?_, ?_⟩, ?_⟩, by simp⟩
      all_goals grind
    · -- the inner one is, and it becomes the root
      obtain rfl : bl = 1 := by omega
      obtain ⟨z, bz, lrl, lrr, rfl⟩ := exists_node (t := lr) (by omega)
      obtain ⟨hlrl, hlrr, hbz, hbz₁, hbz₂⟩ := hlr
      simp only [BinTree.height_node] at hb hbl
      refine ⟨_, _, nasty_right ⟨hbz₁, hbz₂⟩ false, ⟨by simp, ⟨⟨hll, hlrl, ?_, ?_, ?_⟩,
        ⟨hlrr, hr, ?_, ?_, ?_⟩, ?_, ?_, ?_⟩, ?_⟩, by simp⟩
      all_goals grind

theorem grewRight_spec (checked : Bool) (hl : l.IsAvl) (hr : r.IsAvl) (hb : b = (r.height : Int) - l.height - 1)
    (hlo : -1 ≤ b) (hhi : b ≤ 1) (hne : r.balance ≠ 0) :
    ∃ t g, grewRight checked x b l r = .ok (t, g) ∧
      Rebuilt t (l.toList ++ x :: r.toList)
        (max l.height (r.height - 1) + 1 + (if g then 1 else 0)) ∧
      (g = true → t.balance ≠ 0 ∧ t.root = some x) := by
  have hpos : 0 < r.height := by
    cases r with
    | nil => simp [BinTree.balance] at hne
    | node => simp
  obtain rfl | rfl | rfl : b = -1 ∨ b = 0 ∨ b = 1 := by omega
  · exact ⟨_, _, rfl, ⟨rfl, ⟨hl, hr, by omega, by omega, by omega⟩, by simp; omega⟩, by simp⟩
  · exact ⟨_, _, rfl, ⟨rfl, ⟨hl, hr, by omega, by omega, by omega⟩, by simp; omega⟩, by simp⟩
  · obtain ⟨y, br, rl, rr, rfl⟩ := exists_node hpos
    obtain ⟨hrl, hrr, hbr, hbr₁, hbr₂⟩ := hr
    simp only [BinTree.height_node, BinTree.balance_node] at hb hne hpos
    by_cases hgt : 0 < br
    · obtain rfl : br = 1 := by omega
      refine ⟨_, _, rfl, ⟨by simp, ⟨⟨hl, hrl, ?_, ?_, ?_⟩, hrr, ?_, ?_, ?_⟩, ?_⟩, by simp⟩
      all_goals grind
    · obtain rfl : br = -1 := by omega
      obtain ⟨z, bz, rll, rlr, rfl⟩ := exists_node (t := rl) (by omega)
      obtain ⟨hrll, hrlr, hbz, hbz₁, hbz₂⟩ := hrl
      simp only [BinTree.height_node] at hb hbr
      refine ⟨_, _, nasty_left ⟨hbz₁, hbz₂⟩ false, ⟨by simp, ⟨⟨hl, hrll, ?_, ?_, ?_⟩,
        ⟨hrlr, hrr, ?_, ?_, ?_⟩, ?_, ?_, ?_⟩, ?_⟩, by simp⟩
      all_goals grind

theorem shrankLeft_spec (checked : Bool) (hl : l.IsAvl) (hr : r.IsAvl) (hb : b = (r.height : Int) - l.height - 1)
    (hlo : -1 ≤ b) (hhi : b ≤ 1) :
    ∃ t s, shrankLeft checked x b l r = .ok (t, s) ∧
      Rebuilt t (l.toList ++ x :: r.toList)
        (max (l.height + 1) r.height + (if s then 0 else 1)) := by
  obtain rfl | rfl | rfl : b = -1 ∨ b = 0 ∨ b = 1 := by omega
  · exact ⟨_, _, rfl, ⟨rfl, ⟨hl, hr, by omega, by omega, by omega⟩, by simp; omega⟩⟩
  · exact ⟨_, _, rfl, ⟨rfl, ⟨hl, hr, by omega, by omega, by omega⟩, by simp; omega⟩⟩
  · obtain ⟨y, br, rl, rr, rfl⟩ := exists_node (t := r) (by omega)
    obtain ⟨hrl, hrr, hbr, hbr₁, hbr₂⟩ := hr
    simp only [BinTree.height_node] at hb
    obtain rfl | rfl | rfl : br = 0 ∨ br = 1 ∨ br = -1 := by omega
    · refine ⟨_, _, rfl, ⟨by simp, ⟨⟨hl, hrl, ?_, ?_, ?_⟩, hrr, ?_, ?_, ?_⟩, ?_⟩⟩
      all_goals grind
    · refine ⟨_, _, rfl, ⟨by simp, ⟨⟨hl, hrl, ?_, ?_, ?_⟩, hrr, ?_, ?_, ?_⟩, ?_⟩⟩
      all_goals grind
    · obtain ⟨z, bz, rll, rlr, rfl⟩ := exists_node (t := rl) (by omega)
      obtain ⟨hrll, hrlr, hbz, hbz₁, hbz₂⟩ := hrl
      simp only [BinTree.height_node] at hb hbr
      refine ⟨_, _, nasty_left ⟨hbz₁, hbz₂⟩ true, ⟨by simp, ⟨⟨hl, hrll, ?_, ?_, ?_⟩,
        ⟨hrlr, hrr, ?_, ?_, ?_⟩, ?_, ?_, ?_⟩, ?_⟩⟩
      all_goals grind

theorem shrankRight_spec (checked : Bool) (hl : l.IsAvl) (hr : r.IsAvl) (hb : b = (r.height : Int) - l.height + 1)
    (hlo : -1 ≤ b) (hhi : b ≤ 1) :
    ∃ t s, shrankRight checked x b l r = .ok (t, s) ∧
      Rebuilt t (l.toList ++ x :: r.toList)
        (max l.height (r.height + 1) + (if s then 0 else 1)) := by
  obtain rfl | rfl | rfl : b = 1 ∨ b = 0 ∨ b = -1 := by omega
  · exact ⟨_, _, rfl, ⟨rfl, ⟨hl, hr, by omega, by omega, by omega⟩, by simp; omega⟩⟩
  · exact ⟨_, _, rfl, ⟨rfl, ⟨hl, hr, by omega, by omega, by omega⟩, by simp; omega⟩⟩
  · obtain ⟨y, bl, ll, lr, rfl⟩ := exists_node (t := l) (by omega)
    obtain ⟨hll, hlr, hbl, hbl₁, hbl₂⟩ := hl
    simp only [BinTree.height_node] at hb
    obtain rfl | rfl | rfl : bl = 0 ∨ bl = -1 ∨ bl = 1 := by omega
    · refine ⟨_, _, rfl, ⟨by simp, ⟨hll, ⟨hlr, hr, ?_, ?_, ?_⟩, ?_, ?_, ?_⟩, ?_⟩⟩
      all_goals grind
    · refine ⟨_, _, rfl, ⟨by simp, ⟨hll, ⟨hlr, hr, ?_, ?_, ?_⟩, ?_, ?_, ?_⟩, ?_⟩⟩
      all_goals grind
    · obtain ⟨z, bz, lrl, lrr, rfl⟩ := exists_node (t := lr) (by omega)
      obtain ⟨hlrl, hlrr, hbz, hbz₁, hbz₂⟩ := hlr
      simp only [BinTree.height_node] at hb hbl
      refine ⟨_, _, nasty_right ⟨hbz₁, hbz₂⟩ true, ⟨by simp, ⟨⟨hll, hlrl, ?_, ?_, ?_⟩,
        ⟨hlrr, hr, ?_, ?_, ?_⟩, ?_, ?_, ?_⟩, ?_⟩⟩
      all_goals grind

/-! ## Insertion -/

section Insert

variable {addr : α → Nat} {cut : α → Ordering} {dup : α → Result α} {a : α} {f : α → α}

/-- A tree that has grown: it leans to one side, and its root is where it was. -/
structure Grown (t t' : BinTree α) : Prop where
  leans : t'.balance ≠ 0
  keeps : t'.root = t.root

theorem deref_of_root {t' : BinTree α} (h : t'.root = t.root) (hne : t ≠ .nil) :
    deref addr (ptr addr t) t' = t' := by
  cases t with
  | nil => exact absurd rfl hne
  | node x b l r =>
    cases t' with
    | nil => simp [BinTree.root] at h
    | node x' b' l' r' =>
      obtain rfl : x' = x := by simpa using h
      simp [deref, ptr]

/-- What an insertion does to the nodes in order: `a`, or what `dup` makes of the node that `a`
is a duplicate of, stands at the cut. -/
def insertList (cut : α → Ordering) (f : α → α) (a : α) (xs : List α) : List α :=
  below cut xs ++ ((atCut cut xs).elim a f :: above cut xs)

theorem insertNode_left (hx : cut x = .lt) (hl : l ≠ .nil) :
    insertNode addr checked cut dup a (.node x b l r) = (do
      let (l', grown, old) ← insertNode addr checked cut dup a l
      if grown then do
        let (t, grown) ← grewLeft checked x b (deref addr (ptr addr l) l') r
        pure (t, grown, old)
      else pure (.node x b l' r, false, old)) := by
  cases l with
  | nil => exact absurd rfl hl
  | node => simp only [insertNode, hx]

theorem insertNode_right (hx : cut x = .gt) (hr : r ≠ .nil) :
    insertNode addr checked cut dup a (.node x b l r) = (do
      let (r', grown, old) ← insertNode addr checked cut dup a r
      if grown then do
        let (t, grown) ← grewRight checked x b l (deref addr (ptr addr r) r')
        pure (t, grown, old)
      else pure (.node x b l r', false, old)) := by
  cases r with
  | nil => exact absurd rfl hr
  | node => simp only [insertNode, hx]

theorem insertNode_spec (addr : α → Nat) (checked : Bool) (cut : α → Ordering)
    (dup : α → Result α) (f : α → α) (a : α) (hne : t ≠ .nil) (ht : t.IsAvl) (hcut : Cuts cut t.toList)
    (hdup : ∀ x ∈ t.toList, cut x = .eq → dup x = .ok (f x)) :
    ∃ t' g, insertNode addr checked cut dup a t = .ok (t', g, atCut cut t.toList) ∧
      Rebuilt t' (insertList cut f a t.toList) (t.height + if g then 1 else 0) ∧
      (g = true → Grown t t') := by
  induction t with
  | nil => exact absurd rfl hne
  | node x b l r ihl ihr =>
    obtain ⟨hl, hr, hb, hlo, hhi⟩ := ht
    rw [BinTree.toList_node] at hcut hdup ⊢
    have hdupl : ∀ z ∈ l.toList, cut z = .eq → dup z = .ok (f z) := fun z hz =>
      hdup z (List.mem_append_left _ hz)
    have hdupr : ∀ z ∈ r.toList, cut z = .eq → dup z = .ok (f z) := fun z hz =>
      hdup z (List.mem_append_right _ (List.mem_cons_of_mem _ hz))
    cases hx : cut x with
    | lt =>
      rw [insertList, hcut.atCut_of_lt hx, hcut.below_of_lt hx, hcut.above_of_lt hx]
      by_cases hnil : l = .nil
      · subst hnil
        refine ⟨.node x (b - 1) (.node a 0 .nil .nil) r, decide (b = 0), ?_, ⟨rfl, ?_, ?_⟩, ?_⟩
        · simp [insertNode, hx, atCut]
        · exact ⟨by simp, hr, by grind, by grind, by grind⟩
        · grind
        · intro hg
          exact ⟨by simp at hg ⊢; omega, rfl⟩
      · obtain ⟨l', g, hrun, hl', hg⟩ := ihl hnil hl hcut.left hdupl
        rw [insertNode_left hx hnil, hrun, ok_bind]
        cases g with
        | false =>
          refine ⟨.node x b l' r, false, rfl, ⟨?_, ?_, ?_⟩, by simp⟩
          · simp [hl'.list, insertList]
          · exact ⟨hl'.avl, hr, by rw [hl'.height]; simpa using hb, hlo, hhi⟩
          · simp [hl'.height]
        | true =>
          -- the copy of the child pointer is not written back, and need not be
          obtain ⟨hleans, hkeeps⟩ := hg rfl
          have hh := hl'.height
          simp only [if_true] at hh ⊢
          rw [deref_of_root hkeeps hnil]
          obtain ⟨t', g, hgrew, ht', hroot⟩ := grewLeft_spec checked (x := x) hl'.avl hr
            (by omega) hlo hhi hleans
          rw [hgrew]
          refine ⟨t', g, rfl, ⟨?_, ht'.avl, ?_⟩, fun hg => ⟨(hroot hg).1, (hroot hg).2⟩⟩
          · rw [ht'.list, hl'.list]
            simp [insertList]
          · rw [ht'.height, hh]
            simp
    | gt =>
      rw [insertList, hcut.atCut_of_gt hx, hcut.below_of_gt hx, hcut.above_of_gt hx]
      by_cases hnil : r = .nil
      · subst hnil
        refine ⟨.node x (b + 1) l (.node a 0 .nil .nil), decide (b = 0), ?_, ⟨?_, ?_, ?_⟩, ?_⟩
        · simp [insertNode, hx, atCut]
        · simp [below, above, atCut]
        · exact ⟨hl, by simp, by grind, by grind, by grind⟩
        · grind
        · intro hg
          exact ⟨by simp at hg ⊢; omega, rfl⟩
      · obtain ⟨r', g, hrun, hr', hg⟩ := ihr hnil hr hcut.right hdupr
        rw [insertNode_right hx hnil, hrun, ok_bind]
        cases g with
        | false =>
          refine ⟨.node x b l r', false, rfl, ⟨?_, ?_, ?_⟩, by simp⟩
          · simp [hr'.list, insertList]
          · exact ⟨hl, hr'.avl, by rw [hr'.height]; simpa using hb, hlo, hhi⟩
          · simp [hr'.height]
        | true =>
          obtain ⟨hleans, hkeeps⟩ := hg rfl
          have hh := hr'.height
          simp only [if_true] at hh ⊢
          rw [deref_of_root hkeeps hnil]
          obtain ⟨t', g, hgrew, ht', hroot⟩ := grewRight_spec checked (x := x) hl hr'.avl
            (by omega) hlo hhi hleans
          rw [hgrew]
          refine ⟨t', g, rfl, ⟨?_, ht'.avl, ?_⟩, fun hg => ⟨(hroot hg).1, (hroot hg).2⟩⟩
          · rw [ht'.list, hr'.list]
            simp [insertList]
          · rw [ht'.height, hh]
            simp
    | eq =>
      rw [insertList, hcut.atCut_of_eq hx, hcut.below_of_eq hx, hcut.above_of_eq hx]
      refine ⟨.node (f x) b l r, false, ?_, ⟨rfl, ⟨hl, hr, hb, hlo, hhi⟩, rfl⟩, by simp⟩
      simp only [insertNode, hx, hdup x (by simp) hx, ok_bind]
      rfl

end Insert

/-! ## Search -/

theorem findNode_eq {cut : α → Ordering} (hcut : Cuts cut t.toList) :
    findNode cut t = atCut cut t.toList := by
  induction t with
  | nil => rfl
  | node x b l r ihl ihr =>
    rw [BinTree.toList_node] at hcut ⊢
    unfold findNode
    cases hx : cut x with
    | lt => exact (ihl hcut.left).trans (hcut.atCut_of_lt hx).symm
    | gt => exact (ihr hcut.right).trans (hcut.atCut_of_gt hx).symm
    | eq => exact (hcut.atCut_of_eq hx).symm

theorem first_spec (h : t ≠ .nil) : ∃ y ys, first t = some y ∧ t.toList = y :: ys := by
  induction t with
  | nil => exact absurd rfl h
  | node x b l r ihl ihr =>
    cases l with
    | nil => exact ⟨x, r.toList, rfl, rfl⟩
    | node y bl ll lr =>
      obtain ⟨z, zs, hz, hzs⟩ := ihl (by simp)
      exact ⟨z, zs ++ x :: r.toList, hz, by rw [BinTree.toList_node, hzs, List.cons_append]⟩

theorem last_spec (h : t ≠ .nil) : ∃ y ys, last t = some y ∧ t.toList = ys ++ [y] := by
  induction t with
  | nil => exact absurd rfl h
  | node x b l r ihl ihr =>
    cases r with
    | nil => exact ⟨x, l.toList, rfl, rfl⟩
    | node y br rl rr =>
      obtain ⟨z, zs, hz, hzs⟩ := ihr (by simp)
      exact ⟨z, l.toList ++ x :: zs, hz, by simp [hzs]⟩

/-! ## Removal -/

section Remove

variable {addr : α → Nat} {cut : α → α → Ordering} {a : α}

/-- What a removal does to the nodes in order. -/
def removeList (cut : α → Ordering) (xs : List α) : List α := below cut xs ++ above cut xs

/-- What is left of a tree after a removal. -/
abbrev Removed (t t' : BinTree α) (cut : α → Ordering) (shrunk : Bool) : Prop :=
  Rebuilt t' (removeList cut t.toList) (t.height - if shrunk then 1 else 0)

theorem root_isSome (h : a ∈ t.toList) : t.root.isSome = true := by
  cases t with
  | nil => simp at h
  | node => rfl

theorem height_pos_of_mem (h : a ∈ t.toList) : 0 < t.height := by
  cases t with
  | nil => simp at h
  | node => simp

/-- Removal from the left subtree. -/
theorem removeAt_left {c : α → Ordering} {l' : BinTree α} {s : Bool}
    {remL remR found : Unit → Result (BinTree α × Bool)} (hl : l.root.isSome) (hpos : 0 < l.height)
    (hr : r.IsAvl) (hb : b = (r.height : Int) - l.height) (hlo : -1 ≤ b) (hhi : b ≤ 1)
    (hcut : Cuts c (l.toList ++ x :: r.toList)) (hx : c x = .lt) (hrun : remL () = .ok (l', s))
    (hl' : Removed l l' c s) :
    ∃ t' s', removeAt checked c x b l r remL remR found = .ok (t', s') ∧
      Removed (.node x b l r) t' c s' := by
  have hlist : removeList c (l.toList ++ x :: r.toList) = removeList c l.toList ++ x :: r.toList := by
    simp [removeList, hcut.below_of_lt hx, hcut.above_of_lt hx]
  have hh := hl'.height
  simp only [removeAt, hx, assertThat_of hl, hrun, ok_bind]
  cases s with
  | false =>
    refine ⟨_, _, rfl, ⟨?_, ⟨hl'.avl, hr, ?_, hlo, hhi⟩, ?_⟩⟩
    · simp only [BinTree.toList_node, hlist, hl'.list]
    · simpa [hh] using hb
    · simp [hh]
  | true =>
    simp only [if_true] at hh ⊢
    obtain ⟨t', s', hrun', ht'⟩ := shrankLeft_spec checked (x := x) hl'.avl hr (by omega) hlo hhi
    refine ⟨t', s', hrun', ⟨?_, ht'.avl, ?_⟩⟩
    · rw [ht'.list, hl'.list, BinTree.toList_node, hlist]
    · rw [ht'.height, hh, BinTree.height_node]
      split <;> omega

/-- Removal from the right subtree. -/
theorem removeAt_right {c : α → Ordering} {r' : BinTree α} {s : Bool}
    {remL remR found : Unit → Result (BinTree α × Bool)} (hr : r.root.isSome) (hpos : 0 < r.height)
    (hl : l.IsAvl) (hb : b = (r.height : Int) - l.height) (hlo : -1 ≤ b) (hhi : b ≤ 1)
    (hcut : Cuts c (l.toList ++ x :: r.toList)) (hx : c x = .gt) (hrun : remR () = .ok (r', s))
    (hr' : Removed r r' c s) :
    ∃ t' s', removeAt checked c x b l r remL remR found = .ok (t', s') ∧
      Removed (.node x b l r) t' c s' := by
  have hlist : removeList c (l.toList ++ x :: r.toList) = l.toList ++ x :: removeList c r.toList := by
    simp [removeList, hcut.below_of_gt hx, hcut.above_of_gt hx]
  have hh := hr'.height
  simp only [removeAt, hx, assertThat_of hr, hrun, ok_bind]
  cases s with
  | false =>
    refine ⟨_, _, rfl, ⟨?_, ⟨hl, hr'.avl, ?_, hlo, hhi⟩, ?_⟩⟩
    · simp only [BinTree.toList_node, hlist, hr'.list]
    · simpa [hh] using hb
    · simp [hh]
  | true =>
    simp only [if_true] at hh ⊢
    obtain ⟨t', s', hrun', ht'⟩ := shrankRight_spec checked (x := x) hl hr'.avl (by omega) hlo hhi
    refine ⟨t', s', hrun', ⟨?_, ht'.avl, ?_⟩⟩
    · rw [ht'.list, hr'.list, BinTree.toList_node, hlist]
    · rw [ht'.height, hh, BinTree.height_node]
      split <;> omega

/-- The neighbour below takes the place of a root that leans to the left. -/
theorem removeAt_last {a' : α} {ys : List α} {l' : BinTree α} {s : Bool}
    (remL remR found : Unit → Result (BinTree α × Bool)) (hl : l.root.isSome) (hpos : 0 < l.height)
    (hr : r.IsAvl) (hb : b = (r.height : Int) - l.height) (hneg : b = -1) (hys : l.toList = ys ++ [a'])
    (hcut : Cuts (cut a') (ys ++ [a'])) (hself : cut a' a' = .eq) (hx : cut a' x = .lt)
    (hrun : remL () = .ok (l', s)) (hl' : Removed l l' (cut a') s) :
    ∃ t' s', (removeAt checked (cut a') x b l r remL remR found >>=
      fun (t, shrunk) => replaceRoot a' shrunk t) = .ok (t', s') ∧
      Rebuilt t' (l.toList ++ r.toList) ((BinTree.node x b l r).height - if s' then 1 else 0) := by
  have hlist : l'.toList = ys := by
    rw [hl'.list, hys, removeList, hcut.below_of_eq hself, hcut.above_of_eq hself, List.append_nil]
  have hh := hl'.height
  subst hneg
  simp only [removeAt, hx, assertThat_of hl, hrun, ok_bind]
  cases s with
  | false =>
    refine ⟨_, _, rfl, ⟨?_, ⟨hl'.avl, hr, ?_, by omega, by omega⟩, ?_⟩⟩
    · simp [hlist, hys]
    · simpa [hh] using hb
    · simp [hh]
  | true =>
    simp only [if_true] at hh ⊢
    refine ⟨_, _, rfl, ⟨?_, ⟨hl'.avl, hr, ?_, by omega, by omega⟩, ?_⟩⟩
    · simp [hlist, hys]
    · omega
    · simp only [BinTree.height_node, hh]
      simp
      omega

/-- The neighbour above takes the place of a root that does not. -/
theorem removeAt_first {a' : α} {ys : List α} {r' : BinTree α} {s : Bool}
    (remL remR found : Unit → Result (BinTree α × Bool)) (hr : r.root.isSome) (hpos : 0 < r.height)
    (hl : l.IsAvl) (hb : b = (r.height : Int) - l.height) (hge : b = 0 ∨ b = 1)
    (hys : r.toList = a' :: ys) (hcut : Cuts (cut a') ([] ++ a' :: ys)) (hself : cut a' a' = .eq)
    (hx : cut a' x = .gt) (hrun : remR () = .ok (r', s)) (hr' : Removed r r' (cut a') s) :
    ∃ t' s', (removeAt checked (cut a') x b l r remL remR found >>=
      fun (t, shrunk) => replaceRoot a' shrunk t) = .ok (t', s') ∧
      Rebuilt t' (l.toList ++ r.toList) ((BinTree.node x b l r).height - if s' then 1 else 0) := by
  have hlist : r'.toList = ys := by
    have hnil : a' :: ys = [] ++ a' :: ys := rfl
    rw [hr'.list, hys, hnil, removeList, hcut.below_of_eq hself, hcut.above_of_eq hself,
      List.nil_append]
  have hh := hr'.height
  simp only [removeAt, hx, assertThat_of hr, hrun, ok_bind]
  cases s with
  | false =>
    refine ⟨_, _, rfl, ⟨?_, ⟨hl, hr'.avl, ?_, by omega, by omega⟩, ?_⟩⟩
    · simp [hlist, hys]
    · simpa [hh] using hb
    · simp [hh]
  | true =>
    simp only [if_true] at hh ⊢
    obtain rfl | rfl := hge
    · refine ⟨_, _, rfl, ⟨?_, ⟨hl, hr'.avl, ?_, by omega, by omega⟩, ?_⟩⟩
      · simp [hlist, hys]
      · omega
      · simp only [BinTree.height_node, hh]
        simp
        omega
    · refine ⟨_, _, rfl, ⟨?_, ⟨hl, hr'.avl, ?_, by omega, by omega⟩, ?_⟩⟩
      · simp [hlist, hys]
      · omega
      · simp only [BinTree.height_node, hh]
        simp
        omega

/-- **Removal** of a node of a balanced search tree. -/
theorem removeNode_spec (checked : Bool) (addr : α → Nat) (cut : α → α → Ordering) (ht : t.IsAvl) (hord : Ordered cut t.toList)
    (hrefl : ∀ y ∈ t.toList, cut y y = .eq) (ha : a ∈ t.toList) :
    ∃ t' s, removeNode checked addr cut a t = .ok (t', s) ∧ Removed t t' (cut a) s := by
  induction t generalizing a with
  | nil => simp at ha
  | node x b l r ihl ihr =>
    obtain ⟨hl, hr, hb, hlo, hhi⟩ := ht
    rw [BinTree.toList_node] at hord hrefl ha
    have hcut := hord.cuts ha
    obtain ⟨hol, hor, hlx, hrx, -⟩ := ordered_append_cons.mp hord
    have hxx := hrefl x (by simp)
    have hrl : ∀ y ∈ l.toList, cut y y = .eq := fun y hy => hrefl y (List.mem_append_left _ hy)
    have hrr : ∀ y ∈ r.toList, cut y y = .eq := fun y hy =>
      hrefl y (List.mem_append_right _ (List.mem_cons_of_mem _ hy))
    unfold removeNode
    cases hx : cut a x with
    | lt =>
      have hal := hord.mem_left ha hxx hx
      obtain ⟨l', s, hrun, hl'⟩ := ihl hl hol hrl hal
      exact removeAt_left (root_isSome hal) (height_pos_of_mem hal) hr hb hlo hhi hcut hx hrun hl'
    | gt =>
      have har := hord.mem_right ha hxx hx
      obtain ⟨r', s, hrun, hr'⟩ := ihr hr hor hrr har
      exact removeAt_right (root_isSome har) (height_pos_of_mem har) hl hb hlo hhi hcut hx hrun hr'
    | eq =>
      obtain rfl := hord.eq_of_eq ha (by simp) hx
      have hlist : removeList (cut x) (l.toList ++ x :: r.toList) = l.toList ++ r.toList := by
        rw [removeList, hcut.below_of_eq hx, hcut.above_of_eq hx]
      have hgoal : ∀ {t' s}, Rebuilt t' (l.toList ++ r.toList)
          ((BinTree.node x b l r).height - if s then 1 else 0) →
          Removed (.node x b l r) t' (cut x) s := fun h => ⟨by rw [h.list, BinTree.toList_node, hlist],
        h.avl, h.height⟩
      rw [removeAt, hx]
      simp only [assertThat_of, ok_bind]
      cases l with
      | nil =>
        cases r with
        | nil => exact ⟨_, _, rfl, hgoal ⟨rfl, trivial, rfl⟩⟩
        | node y br rl rr => exact ⟨_, _, rfl, hgoal ⟨rfl, hr, by simp⟩⟩
      | node y bl ll lr =>
        cases r with
        | nil => exact ⟨_, _, rfl, hgoal ⟨by simp, hl, by simp⟩⟩
        | node z br rl rr =>
          dsimp only
          by_cases hneg : b < 0
          · obtain ⟨a', ys, hlast, hys⟩ := last_spec (t := .node y bl ll lr) (by simp)
            have ha' : a' ∈ (BinTree.node y bl ll lr).toList := by simp [hys]
            obtain ⟨l', s, hrun, hl'⟩ := ihl hl hol hrl ha'
            rw [if_pos hneg, hlast]
            obtain ⟨t', s', hrun', ht'⟩ := removeAt_last (fun _ => removeNode checked addr cut a' _)
              _ _ rfl (height_pos_of_mem ha') hr hb (by omega) hys (hys ▸ hol.cuts ha') (hrl a' ha')
              (hlx a' ha').1 hrun hl'
            exact ⟨t', s', hrun', hgoal ht'⟩
          · obtain ⟨a', ys, hfirst, hys⟩ := first_spec (t := .node z br rl rr) (by simp)
            have ha' : a' ∈ (BinTree.node z br rl rr).toList := by simp [hys]
            obtain ⟨r', s, hrun, hr'⟩ := ihr hr hor hrr ha'
            rw [if_neg hneg, hfirst]
            obtain ⟨t', s', hrun', ht'⟩ := removeAt_first _ (fun _ => removeNode checked addr cut a' _)
              _ rfl (height_pos_of_mem ha') hl hb (by omega) hys (hys ▸ hor.cuts ha') (hrr a' ha')
              (hrx a' ha').2 hrun hr'
            exact ⟨t', s', hrun', hgoal ht'⟩

end Remove

end Avl

end Valgrind
