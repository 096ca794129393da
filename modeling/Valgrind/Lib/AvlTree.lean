import Mathlib.Data.List.Basic
import Mathlib.Tactic

/-!
# Balanced binary trees

Binary trees whose nodes carry a balance field, over an arbitrary type `α` of node
contents.

- `BinTree.toList`: the contents in order. A tree is a search tree iff this list is
  sorted, so everything about order is said about lists.
- `BinTree.IsAvl`: every balance field is the difference of the heights of the two
  subtrees, and is -1, 0 or 1.
- `Cuts cut l`: the list `l` is split by `cut`: what lies below the cut comes first
  (`cut x = .gt`: the cut is above `x`), then at most one element at the cut, then
  what lies above it. A search of a tree follows a cut: to the left where it is
  `.lt`, to the right where it is `.gt`.
-/

namespace AvlTree

variable {α : Type}

/-- A binary tree with a balance field in each node. -/
inductive BinTree (α : Type) where
  | nil
  | node (x : α) (b : Int) (l r : BinTree α)
  deriving DecidableEq, Repr

namespace BinTree

/-- The contents of the nodes, in order. -/
def toList : BinTree α → List α
  | nil => []
  | node x _ l r => l.toList ++ x :: r.toList

/-- The number of nodes on the longest path. -/
def height : BinTree α → Nat
  | nil => 0
  | node _ _ l r => max l.height r.height + 1

/-- What the root holds. -/
def root : BinTree α → Option α
  | nil => none
  | node x _ _ _ => some x

/-- The balance field of the root. -/
def balance : BinTree α → Int
  | nil => 0
  | node _ b _ _ => b

/-- Balance fields are right, and the tree is balanced. -/
def IsAvl : BinTree α → Prop
  | nil => True
  | node _ b l r => l.IsAvl ∧ r.IsAvl ∧ b = (r.height : Int) - l.height ∧ -1 ≤ b ∧ b ≤ 1

@[simp] theorem toList_nil : (nil : BinTree α).toList = [] := rfl

@[simp] theorem toList_node (x : α) (b : Int) (l r : BinTree α) :
    (node x b l r).toList = l.toList ++ x :: r.toList := rfl

@[simp, grind =] theorem height_nil : (nil : BinTree α).height = 0 := rfl

@[simp, grind =] theorem height_node (x : α) (b : Int) (l r : BinTree α) :
    (node x b l r).height = max l.height r.height + 1 := rfl

@[simp] theorem isAvl_nil : (nil : BinTree α).IsAvl := trivial

@[simp] theorem isAvl_node (x : α) (b : Int) (l r : BinTree α) :
    (node x b l r).IsAvl ↔
      l.IsAvl ∧ r.IsAvl ∧ b = (r.height : Int) - l.height ∧ -1 ≤ b ∧ b ≤ 1 := Iff.rfl

@[simp] theorem root_node (x : α) (b : Int) (l r : BinTree α) : (node x b l r).root = some x := rfl

@[simp] theorem balance_node (x : α) (b : Int) (l r : BinTree α) : (node x b l r).balance = b := rfl

theorem height_eq_zero {t : BinTree α} : t.height = 0 ↔ t = nil := by
  cases t <;> simp

/-- Change what the nodes hold, and leave the tree as it is. -/
def map (f : α → α) : BinTree α → BinTree α
  | nil => nil
  | node x b l r => node (f x) b (l.map f) (r.map f)

@[simp] theorem toList_map (f : α → α) (t : BinTree α) : (t.map f).toList = t.toList.map f := by
  induction t with
  | nil => rfl
  | node x b l r ihl ihr => rw [map, toList_node, toList_node, ihl, ihr, List.map_append, List.map_cons]

@[simp] theorem height_map (f : α → α) (t : BinTree α) : (t.map f).height = t.height := by
  induction t with
  | nil => rfl
  | node x b l r ihl ihr => rw [map, height_node, height_node, ihl, ihr]

theorem IsAvl.map {f : α → α} {t : BinTree α} (h : t.IsAvl) : (t.map f).IsAvl := by
  induction t with
  | nil => trivial
  | node x b l r ihl ihr =>
    refine ⟨ihl h.1, ihr h.2.1, ?_, h.2.2.2⟩
    rw [height_map, height_map]
    exact h.2.2.1

/-- A tree of height `h` has fewer than `2 ^ h` nodes. -/
theorem length_toList_lt (t : BinTree α) : t.toList.length < 2 ^ t.height := by
  induction t with
  | nil => simp
  | node x b l r ihl ihr =>
    have hl : 2 ^ l.height ≤ 2 ^ max l.height r.height := Nat.pow_le_pow_right (by decide) (by omega)
    have hr : 2 ^ r.height ≤ 2 ^ max l.height r.height := Nat.pow_le_pow_right (by decide) (by omega)
    simp only [toList_node, height_node, List.length_append, List.length_cons, pow_succ]
    omega

end BinTree

/-! ## Cuts -/

/-- The list is split by the cut. -/
def Cuts (cut : α → Ordering) (l : List α) : Prop :=
  l.Pairwise fun x y => cut x = .gt ∨ cut y = .lt

/-- What lies below the cut. -/
def below (cut : α → Ordering) (l : List α) : List α := l.filter fun x => cut x == .gt

/-- What lies above the cut. -/
def above (cut : α → Ordering) (l : List α) : List α := l.filter fun x => cut x == .lt

/-- What lies at the cut. -/
def atCut (cut : α → Ordering) (l : List α) : Option α := l.find? fun x => cut x == .eq

section Cuts

variable {cut : α → Ordering} {l r : List α} {x : α}

theorem cuts_append_cons : Cuts cut (l ++ x :: r) ↔
    Cuts cut l ∧ Cuts cut r ∧ (∀ y ∈ l, cut y = .gt ∨ cut x = .lt) ∧
      (∀ y ∈ r, cut x = .gt ∨ cut y = .lt) ∧ ∀ y ∈ l, ∀ z ∈ r, cut y = .gt ∨ cut z = .lt := by
  simp only [Cuts, List.pairwise_append, List.pairwise_cons, List.mem_cons, forall_eq_or_imp]
  constructor
  · rintro ⟨h₁, ⟨h₂, h₃⟩, h₄⟩
    exact ⟨h₁, h₃, fun y hy => (h₄ y hy).1, h₂, fun y hy => (h₄ y hy).2⟩
  · rintro ⟨h₁, h₂, h₃, h₄, h₅⟩
    exact ⟨h₁, ⟨h₄, h₂⟩, fun y hy => ⟨h₃ y hy, h₅ y hy⟩⟩

/-- A list with a part below the cut, and after it one above the cut. -/
theorem cuts_append (hl : ∀ y ∈ l, cut y = .gt) (hr : ∀ y ∈ r, cut y = .lt) : Cuts cut (l ++ r) := by
  refine List.pairwise_append.mpr ⟨?_, ?_, fun y hy _ _ => .inl (hl y hy)⟩
  · exact List.pairwise_of_forall_mem_list fun y hy _ _ => .inl (hl y hy)
  · exact List.pairwise_of_forall_mem_list fun _ _ z hz => .inr (hr z hz)

/-- To the right of a node that is not below the cut, everything is above it. -/
theorem Cuts.right_lt (h : Cuts cut (l ++ x :: r)) (hx : cut x ≠ .gt) : ∀ y ∈ r, cut y = .lt :=
  fun y hy => ((cuts_append_cons.mp h).2.2.2.1 y hy).resolve_left hx

/-- To the left of a node that is not above the cut, everything is below it. -/
theorem Cuts.left_gt (h : Cuts cut (l ++ x :: r)) (hx : cut x ≠ .lt) : ∀ y ∈ l, cut y = .gt :=
  fun y hy => ((cuts_append_cons.mp h).2.2.1 y hy).resolve_right hx

theorem Cuts.left (h : Cuts cut (l ++ x :: r)) : Cuts cut l := (cuts_append_cons.mp h).1

theorem Cuts.right (h : Cuts cut (l ++ x :: r)) : Cuts cut r := (cuts_append_cons.mp h).2.1

@[simp] theorem below_append : below cut (l ++ r) = below cut l ++ below cut r := List.filter_append ..

@[simp] theorem above_append : above cut (l ++ r) = above cut l ++ above cut r := List.filter_append ..

theorem below_cons_gt (hx : cut x = .gt) : below cut (x :: r) = x :: below cut r := by
  simp [below, hx]

theorem below_cons_of_ne (hx : cut x ≠ .gt) : below cut (x :: r) = below cut r := by
  simp [below, hx]

theorem above_cons_lt (hx : cut x = .lt) : above cut (x :: r) = x :: above cut r := by
  simp [above, hx]

theorem above_cons_of_ne (hx : cut x ≠ .lt) : above cut (x :: r) = above cut r := by
  simp [above, hx]

theorem below_eq_self (h : ∀ y ∈ l, cut y = .gt) : below cut l = l :=
  List.filter_eq_self.mpr fun y hy => by simp [h y hy]

theorem above_eq_self (h : ∀ y ∈ l, cut y = .lt) : above cut l = l :=
  List.filter_eq_self.mpr fun y hy => by simp [h y hy]

theorem below_eq_nil (h : ∀ y ∈ l, cut y = .lt) : below cut l = [] :=
  List.filter_eq_nil_iff.mpr fun y hy => by simp [h y hy]

theorem above_eq_nil (h : ∀ y ∈ l, cut y = .gt) : above cut l = [] :=
  List.filter_eq_nil_iff.mpr fun y hy => by simp [h y hy]

/-! ### The three ways a search can go on from a node -/

theorem Cuts.below_of_lt (h : Cuts cut (l ++ x :: r)) (hx : cut x = .lt) :
    below cut (l ++ x :: r) = below cut l := by
  rw [below_append, below_cons_of_ne (by simp [hx]), below_eq_nil (h.right_lt (by simp [hx])),
    List.append_nil]

theorem Cuts.above_of_lt (h : Cuts cut (l ++ x :: r)) (hx : cut x = .lt) :
    above cut (l ++ x :: r) = above cut l ++ x :: r := by
  rw [above_append, above_cons_lt hx, above_eq_self (h.right_lt (by simp [hx]))]

theorem Cuts.below_of_gt (h : Cuts cut (l ++ x :: r)) (hx : cut x = .gt) :
    below cut (l ++ x :: r) = l ++ x :: below cut r := by
  rw [below_append, below_cons_gt hx, below_eq_self (h.left_gt (by simp [hx]))]

theorem Cuts.above_of_gt (h : Cuts cut (l ++ x :: r)) (hx : cut x = .gt) :
    above cut (l ++ x :: r) = above cut r := by
  rw [above_append, above_cons_of_ne (by simp [hx]), above_eq_nil (h.left_gt (by simp [hx])),
    List.nil_append]

theorem Cuts.below_of_eq (h : Cuts cut (l ++ x :: r)) (hx : cut x = .eq) :
    below cut (l ++ x :: r) = l := by
  rw [below_append, below_cons_of_ne (by simp [hx]), below_eq_nil (h.right_lt (by simp [hx])),
    below_eq_self (h.left_gt (by simp [hx])), List.append_nil]

theorem Cuts.above_of_eq (h : Cuts cut (l ++ x :: r)) (hx : cut x = .eq) :
    above cut (l ++ x :: r) = r := by
  rw [above_append, above_cons_of_ne (by simp [hx]), above_eq_nil (h.left_gt (by simp [hx])),
    above_eq_self (h.right_lt (by simp [hx])), List.nil_append]

theorem atCut_eq_none (h : ∀ y ∈ l, cut y ≠ .eq) : atCut cut l = none :=
  List.find?_eq_none.mpr fun y hy => by simp [h y hy]

theorem Cuts.atCut_of_lt (h : Cuts cut (l ++ x :: r)) (hx : cut x = .lt) :
    atCut cut (l ++ x :: r) = atCut cut l := by
  have hr : atCut cut (x :: r) = none := by
    refine atCut_eq_none fun y hy => ?_
    rcases List.mem_cons.mp hy with rfl | hy
    · simp [hx]
    · simp [h.right_lt (by simp [hx]) y hy]
  unfold atCut at hr ⊢
  rw [List.find?_append, hr, Option.or_none]

theorem Cuts.atCut_of_gt (h : Cuts cut (l ++ x :: r)) (hx : cut x = .gt) :
    atCut cut (l ++ x :: r) = atCut cut r := by
  have hl : atCut cut l = none :=
    atCut_eq_none fun y hy => by simp [h.left_gt (by simp [hx]) y hy]
  unfold atCut at hl ⊢
  rw [List.find?_append, hl, Option.none_or, List.find?_cons_of_neg (by simp [hx])]

theorem Cuts.atCut_of_eq (h : Cuts cut (l ++ x :: r)) (hx : cut x = .eq) :
    atCut cut (l ++ x :: r) = some x := by
  have hl : atCut cut l = none :=
    atCut_eq_none fun y hy => by simp [h.left_gt (by simp [hx]) y hy]
  unfold atCut at hl ⊢
  rw [List.find?_append, hl, Option.none_or, List.find?_cons_of_pos (by simp [hx])]

/-- A list is what lies below, at and above the cut. -/
theorem Cuts.split (h : Cuts cut l) : below cut l ++ ((atCut cut l).toList ++ above cut l) = l := by
  induction l with
  | nil => rfl
  | cons x r ih =>
    have h' : Cuts cut ([] ++ x :: r) := h
    change below cut ([] ++ x :: r) ++ ((atCut cut ([] ++ x :: r)).toList ++ above cut ([] ++ x :: r)) = _
    cases hx : cut x with
    | lt =>
      rw [h'.below_of_lt hx, h'.atCut_of_lt hx, h'.above_of_lt hx]
      rfl
    | eq =>
      rw [h'.below_of_eq hx, h'.atCut_of_eq hx, h'.above_of_eq hx]
      rfl
    | gt =>
      rw [h'.below_of_gt hx, h'.atCut_of_gt hx, h'.above_of_gt hx]
      exact congrArg (x :: ·) (ih h'.right)

end Cuts

/-! ## Sorted lists -/

/-- The list is sorted by the comparison, whichever way the two arguments stand. -/
def Ordered (c : α → α → Ordering) (l : List α) : Prop :=
  l.Pairwise fun x y => c x y = .lt ∧ c y x = .gt

section Ordered

variable {c : α → α → Ordering} {l r : List α} {a x : α}

theorem ordered_append_cons : Ordered c (l ++ x :: r) ↔
    Ordered c l ∧ Ordered c r ∧ (∀ y ∈ l, c y x = .lt ∧ c x y = .gt) ∧
      (∀ y ∈ r, c x y = .lt ∧ c y x = .gt) ∧ ∀ y ∈ l, ∀ z ∈ r, c y z = .lt ∧ c z y = .gt := by
  simp only [Ordered, List.pairwise_append, List.pairwise_cons, List.mem_cons, forall_eq_or_imp]
  constructor
  · rintro ⟨h₁, ⟨h₂, h₃⟩, h₄⟩
    exact ⟨h₁, h₃, fun y hy => (h₄ y hy).1, h₂, fun y hy => (h₄ y hy).2⟩
  · rintro ⟨h₁, h₂, h₃, h₄, h₅⟩
    exact ⟨h₁, ⟨h₄, h₂⟩, fun y hy => ⟨h₃ y hy, h₅ y hy⟩⟩

/-- Every element cuts a sorted list. -/
theorem Ordered.cuts (h : Ordered c l) (ha : a ∈ l) : Cuts (c a) l := by
  obtain ⟨l, r, rfl⟩ := List.append_of_mem ha
  obtain ⟨-, -, hl, hr, -⟩ := ordered_append_cons.mp h
  refine cuts_append_cons.mpr ⟨?_, ?_, fun y hy => .inl (hl y hy).2, fun y hy => .inr (hr y hy).1,
    fun y hy _ _ => .inl (hl y hy).2⟩
  · exact List.pairwise_of_forall_mem_list fun y hy _ _ => .inl (hl y hy).2
  · exact List.pairwise_of_forall_mem_list fun _ _ z hz => .inr (hr z hz).1

/-- Different elements of a sorted list do not compare equal. -/
theorem Ordered.eq_of_eq (h : Ordered c l) (ha : a ∈ l) (hx : x ∈ l) (he : c a x = .eq) : x = a := by
  obtain ⟨l, r, rfl⟩ := List.append_of_mem ha
  obtain ⟨-, -, hl, hr, -⟩ := ordered_append_cons.mp h
  rcases List.mem_append.mp hx with hx | hx
  · simp [(hl x hx).2] at he
  · rcases List.mem_cons.mp hx with hx | hx
    · exact hx
    · simp [(hr x hx).1] at he

/-- An element that compares less than the middle one stands to the left of it. -/
theorem Ordered.mem_left (h : Ordered c (l ++ x :: r)) (ha : a ∈ l ++ x :: r) (hrefl : c x x = .eq)
    (hlt : c a x = .lt) : a ∈ l := by
  obtain ⟨-, -, -, hr, -⟩ := ordered_append_cons.mp h
  rcases List.mem_append.mp ha with ha | ha
  · exact ha
  · rcases List.mem_cons.mp ha with rfl | ha
    · simp [hrefl] at hlt
    · simp [(hr a ha).2] at hlt

/-- An element that compares greater than the middle one stands to the right of it. -/
theorem Ordered.mem_right (h : Ordered c (l ++ x :: r)) (ha : a ∈ l ++ x :: r) (hrefl : c x x = .eq)
    (hgt : c a x = .gt) : a ∈ r := by
  obtain ⟨-, -, hl, -, -⟩ := ordered_append_cons.mp h
  rcases List.mem_append.mp ha with ha | ha
  · simp [(hl a ha).1] at hgt
  · rcases List.mem_cons.mp ha with rfl | ha
    · simp [hrefl] at hgt
    · exact ha

end Ordered

/-! ## Lists sorted by a key -/

section Keys

open Std

variable {κ : Type} (key : α → κ) (c : κ → κ → Ordering)

/-- The keys ascend strictly. -/
def KeySorted (l : List α) : Prop := l.Pairwise fun x y => c (key x) (key y) = .lt

/-- The cut at the key `k`. -/
def cutAt (k : κ) (x : α) : Ordering := c k (key x)

variable {key c} {l : List α} {k : κ} {x y : α}

theorem mem_below {cut : α → Ordering} : x ∈ below cut l ↔ x ∈ l ∧ cut x = .gt := by
  simp [below]

theorem mem_above {cut : α → Ordering} : x ∈ above cut l ↔ x ∈ l ∧ cut x = .lt := by
  simp [above]

variable [TransCmp c]

theorem KeySorted.cuts (h : KeySorted key c l) (k : κ) : Cuts (cutAt key c k) l := by
  refine List.Pairwise.imp (fun {x y} hxy => ?_) h
  unfold cutAt
  cases hx : c k (key x) with
  | gt => exact .inl rfl
  | lt => exact .inr (TransCmp.lt_trans hx hxy)
  | eq => exact .inr (TransCmp.lt_of_eq_of_lt hx hxy)

theorem KeySorted.ordered (h : KeySorted key c l) : Ordered (fun a => cutAt key c (key a)) l :=
  List.Pairwise.imp (fun {_ _} hxy => ⟨hxy, OrientedCmp.gt_of_lt hxy⟩) h

/-- The list stays sorted when something is put at a cut. -/
theorem KeySorted.insert (h : KeySorted key c l) (hy : c (key y) k = .eq) :
    KeySorted key c (below (cutAt key c k) l ++ y :: above (cutAt key c k) l) := by
  have hlow : ∀ x ∈ below (cutAt key c k) l, c (key x) k = .lt := fun x hx =>
    OrientedCmp.lt_of_gt (mem_below.mp hx).2
  have hhigh : ∀ x ∈ above (cutAt key c k) l, c k (key x) = .lt := fun x hx => (mem_above.mp hx).2
  refine List.pairwise_append.mpr ⟨h.filter _, List.pairwise_cons.mpr ⟨fun x hx => ?_, h.filter _⟩, ?_⟩
  · exact TransCmp.lt_of_eq_of_lt hy (hhigh x hx)
  · intro x hx z hz
    rcases List.mem_cons.mp hz with rfl | hz
    · exact TransCmp.lt_of_lt_of_eq (hlow x hx) (OrientedCmp.eq_symm hy)
    · exact TransCmp.lt_trans (hlow x hx) (hhigh z hz)

/-- The list stays sorted when what is at a cut is taken out. -/
theorem KeySorted.remove (h : KeySorted key c l) :
    KeySorted key c (below (cutAt key c k) l ++ above (cutAt key c k) l) := by
  refine List.pairwise_append.mpr ⟨h.filter _, h.filter _, fun x hx z hz => ?_⟩
  exact TransCmp.lt_trans (OrientedCmp.lt_of_gt (mem_below.mp hx).2) (mem_above.mp hz).2

variable [LawfulEqCmp c]

/-- What is at the cut is what has the key. -/
theorem KeySorted.atCut_eq_some (h : KeySorted key c l) :
    atCut (cutAt key c k) l = some x ↔ x ∈ l ∧ key x = k := by
  constructor
  · intro hx
    have hp := List.find?_some hx
    have hk : k = key x := by simpa [cutAt] using hp
    exact ⟨List.mem_of_find?_eq_some hx, hk.symm⟩
  · rintro ⟨hx, rfl⟩
    have hself : cutAt key c (key x) x = .eq := ReflCmp.compare_self
    obtain ⟨l, r, rfl⟩ := List.append_of_mem hx
    exact (h.cuts (key x)).atCut_of_eq hself

theorem KeySorted.atCut_eq_none (h : KeySorted key c l) :
    atCut (cutAt key c k) l = none ↔ ∀ x ∈ l, key x ≠ k := by
  rw [Option.eq_none_iff_forall_ne_some]
  constructor
  · intro hno x hx hk
    exact hno x (h.atCut_eq_some.mpr ⟨hx, hk⟩)
  · intro hno x hx
    obtain ⟨hx, hk⟩ := h.atCut_eq_some.mp hx
    exact hno x hx hk

omit [TransCmp c] in
/-- Everything but what has the key is below or above the cut. -/
theorem mem_below_or_above :
    x ∈ below (cutAt key c k) l ∨ x ∈ above (cutAt key c k) l ↔ x ∈ l ∧ key x ≠ k := by
  rw [mem_below, mem_above]
  have hne : key x ≠ k ↔ c k (key x) ≠ .eq := by
    rw [ne_eq, ne_eq, LawfulEqCmp.compare_eq_iff_eq, eq_comm]
  rw [hne]
  unfold cutAt
  cases c k (key x) <;> simp

end Keys

end AvlTree
