import Valgrind.Basics.Result
import Valgrind.Lib.AvlTree

/-!
# The tree code of `m_wordfm.c` and `m_oset.c`

`m_wordfm.c` is based on `m_oset.c`: the swings, the rebalancing after an insertion or
a removal, the removal of a root, and the in-order traversal are the same code in both
files up to the direction of the comparison and the assertions in `default:` labels
(`checked`: `m_wordfm.c` has them, `m_oset.c` falls through).

A node is a record at an address: `addr x` is the address of the node that holds `x`. A
pointer to a node is the subtree it is the root of, and a null pointer is `nil`; reading
a field through a null pointer is a `fault`. Nodes are modified in place, so a pointer
that the code has copied before a call leads, after the call, to wherever the node with
that address then is: `deref`.

`cut : α → Ordering` is the outcome of the comparison with a node: `.lt` sends the
search to the left, `.gt` to the right.
-/

namespace Valgrind

namespace Avl

open AvlTree

variable {α : Type}

/-! ## Swings -/

/-- `avl_swl`: swing to the left. No balance maintenance. -/
def swl : BinTree α → Result (BinTree α)
  | .node a ba la (.node b bb lb rb) => pure (.node b bb (.node a ba la lb) rb)
  | _ => throw .fault

/-- `avl_swr`: swing to the right. No balance maintenance. -/
def swr : BinTree α → Result (BinTree α)
  | .node a ba (.node b bb lb rb) ra => pure (.node b bb lb (.node a ba rb ra))
  | _ => throw .fault

/-- `root->balance = b`. -/
def setBalance (b : Int) : BinTree α → Result (BinTree α)
  | .nil => throw .fault
  | .node x _ l r => pure (.node x b l r)

/-- `root->child[0]->balance = b`. -/
def setLeftBalance (b : Int) : BinTree α → Result (BinTree α)
  | .nil => throw .fault
  | .node x b' l r => do
    let l ← setBalance b l
    pure (.node x b' l r)

/-- `root->child[1]->balance = b`. -/
def setRightBalance (b : Int) : BinTree α → Result (BinTree α)
  | .nil => throw .fault
  | .node x b' l r => do
    let r ← setBalance b r
    pure (.node x b' l r)

/-- Set the balance fields of the two children, then that of the root to 0. -/
def setChildren (bl br : Int) (t : BinTree α) : Result (BinTree α) := do
  let t ← setLeftBalance bl t
  let t ← setRightBalance br t
  setBalance 0 t

/-- `avl_nasty`: balance maintenance after especially nasty swings. -/
def nasty (checked : Bool) (t : BinTree α) : Result (BinTree α) :=
  if t.balance = -1 then setChildren 0 1 t
  else if t.balance = 1 then setChildren (-1) 0 t
  else if t.balance = 0 then setChildren 0 0 t
  else if checked then throw .assertFailed
  else setBalance 0 t

/-! ## Insertion -/

/-- What the code does when the left subtree has grown: `switch (balance--)`, and a swing if
the tree leans too far. The result says whether the tree has grown. -/
def grewLeft (checked : Bool) (x : α) (b : Int) (l r : BinTree α) : Result (BinTree α × Bool) :=
  if b = 1 then pure (.node x (b - 1) l r, false)
  else if b = 0 then pure (.node x (b - 1) l r, true)
  else if b ≠ -1 ∧ checked = true then throw .assertFailed
  else match l with
    | .nil => throw .fault
    | .node _ bl _ _ =>
      if bl < 0 then do
        let t ← swr (.node x (b - 1) l r)
        let t ← setBalance 0 t
        let t ← setRightBalance 0 t
        pure (t, false)
      else do
        let l ← swl l
        let t ← swr (.node x (b - 1) l r)
        let t ← nasty checked t
        pure (t, false)

/-- The same for the right subtree: `switch (balance++)`. -/
def grewRight (checked : Bool) (x : α) (b : Int) (l r : BinTree α) : Result (BinTree α × Bool) :=
  if b = -1 then pure (.node x (b + 1) l r, false)
  else if b = 0 then pure (.node x (b + 1) l r, true)
  else if b ≠ 1 ∧ checked = true then throw .assertFailed
  else match r with
    | .nil => throw .fault
    | .node _ br _ _ =>
      if 0 < br then do
        let t ← swl (.node x (b + 1) l r)
        let t ← setBalance 0 t
        let t ← setLeftBalance 0 t
        pure (t, false)
      else do
        let r ← swr r
        let t ← swl (.node x (b + 1) l r)
        let t ← nasty checked t
        pure (t, false)

section Insert

variable (addr : α → Nat)

/-- The pointer that a tree is known by. -/
def ptr : BinTree α → Nat
  | .nil => 0
  | .node x _ _ _ => addr x

/-- Where the pointer `p` leads, when the nodes at hand are those of the tree. -/
def deref (p : Nat) : BinTree α → BinTree α
  | .nil => .nil
  | .node x b l r =>
    if addr x = p then .node x b l r
    else match deref p l with
      | .nil => deref p r
      | t => t

variable (checked : Bool) (cut : α → Ordering) (dup : α → Result α) (a : α)

/-- Insert the node `a` into a tree that is not empty. `dup` is what becomes of a node that
`a` turns out to be a duplicate of. The result says whether the tree has grown, and which
node `a` is a duplicate of. The recursive call is given a local copy of the child pointer,
and that copy is written back only if the subtree has not grown. -/
def insertNode : BinTree α → Result (BinTree α × Bool × Option α)
  | .nil => throw .fault
  | .node x b l r =>
    match cut x with
    | .lt => match l with
      | .node _ _ _ _ => do
        let (l', grown, old) ← insertNode l
        if grown then do
          let (t, grown) ← grewLeft checked x b (deref addr (ptr addr l) l') r
          pure (t, grown, old)
        else pure (.node x b l' r, false, old)
      | .nil => pure (.node x (b - 1) (.node a 0 .nil .nil) r, decide (b = 0), none)
    | .gt => match r with
      | .node _ _ _ _ => do
        let (r', grown, old) ← insertNode r
        if grown then do
          let (t, grown) ← grewRight checked x b l (deref addr (ptr addr r) r')
          pure (t, grown, old)
        else pure (.node x b l r', false, old)
      | .nil => pure (.node x (b + 1) l (.node a 0 .nil .nil), decide (b = 0), none)
    | .eq => do
      let y ← dup x
      pure (.node y b l r, false, some x)

end Insert

/-! ## Search -/

/-- The node that the search ends at. -/
def findNode (cut : α → Ordering) : BinTree α → Option α
  | .nil => none
  | .node x _ l r =>
    match cut x with
    | .lt => findNode cut l
    | .gt => findNode cut r
    | .eq => some x

/-! ## Removal -/

/-- What the code does when the left subtree has shrunk: `switch (balance++)`, and a swing if
the tree leans too far. The result says whether the tree has shrunk. -/
def shrankLeft (checked : Bool) (x : α) (b : Int) (l r : BinTree α) : Result (BinTree α × Bool) :=
  if b = -1 then pure (.node x (b + 1) l r, true)
  else if b = 0 then pure (.node x (b + 1) l r, false)
  else if b ≠ 1 ∧ checked = true then throw .assertFailed
  else match r with
    | .nil => throw .fault
    | .node _ br _ _ =>
      if br = 0 then do
        let t ← swl (.node x (b + 1) l r)
        let t ← setBalance (-1) t
        let t ← setLeftBalance 1 t
        pure (t, false)
      else if br = 1 then do
        let t ← swl (.node x (b + 1) l r)
        let t ← setBalance 0 t
        let t ← setLeftBalance 0 t
        pure (t, true)
      else if br ≠ -1 ∧ checked = true then throw .assertFailed
      else do
        let r ← swr r
        let t ← swl (.node x (b + 1) l r)
        let t ← nasty checked t
        pure (t, true)

/-- The same for the right subtree: `switch (balance--)`. -/
def shrankRight (checked : Bool) (x : α) (b : Int) (l r : BinTree α) : Result (BinTree α × Bool) :=
  if b = 1 then pure (.node x (b - 1) l r, true)
  else if b = 0 then pure (.node x (b - 1) l r, false)
  else if b ≠ -1 ∧ checked = true then throw .assertFailed
  else match l with
    | .nil => throw .fault
    | .node _ bl _ _ =>
      if bl = 0 then do
        let t ← swr (.node x (b - 1) l r)
        let t ← setBalance 1 t
        let t ← setRightBalance (-1) t
        pure (t, false)
      else if bl = -1 then do
        let t ← swr (.node x (b - 1) l r)
        let t ← setBalance 0 t
        let t ← setRightBalance 0 t
        pure (t, true)
      else if bl ≠ 1 ∧ checked = true then throw .assertFailed
      else do
        let l ← swl l
        let t ← swr (.node x (b - 1) l r)
        let t ← nasty checked t
        pure (t, true)

/-- The leftmost node of a tree. -/
def first : BinTree α → Option α
  | .nil => none
  | .node x _ .nil _ => some x
  | .node _ _ l _ => first l

/-- The rightmost node of a tree. -/
def last : BinTree α → Option α
  | .nil => none
  | .node x _ _ .nil => some x
  | .node _ _ _ r => last r

section Remove

variable (checked : Bool)

/-- The body of `avl_remove_wrk` at the node `x`. `removeL` and `removeR` are the recursive
calls on the subtrees, and `found` is what is done if the search ends here. -/
def removeAt (cut : α → Ordering) (x : α) (b : Int) (l r : BinTree α)
    (removeL removeR : Unit → Result (BinTree α × Bool)) (found : Unit → Result (BinTree α × Bool)) :
    Result (BinTree α × Bool) :=
  match cut x with
  | .lt => do
    assertThat (l.root.isSome)
    let (l, shrunk) ← removeL ()
    if shrunk then shrankLeft checked x b l r else pure (.node x b l r, false)
  | .gt => do
    assertThat (r.root.isSome)
    let (r, shrunk) ← removeR ()
    if shrunk then shrankRight checked x b l r else pure (.node x b l r, false)
  | .eq => found ()

/-- The end of `avl_removeroot_wrk`: the node `a` takes over the place of the root. -/
def replaceRoot (a : α) (shrunk : Bool) : BinTree α → Result (BinTree α × Bool)
  | .nil => throw .fault
  | .node _ b l r => pure (.node a b l r, if b = 0 then shrunk else false)

variable (addr : α → Nat) (cut : α → α → Ordering)

/-- Remove the node `a` from the tree. The result says whether the tree has shrunk.

To remove a root that has two children, the source takes a neighbour of the root in the
order, removes that from the whole tree by a second search from the root, and puts it in
the place of the root. That search cannot end at the root again: the neighbour is another
node, and the assertion would fail. -/
def removeNode (a : α) : BinTree α → Result (BinTree α × Bool)
  | .nil => throw .fault
  | .node x b l r =>
    removeAt checked (cut a) x b l r (fun _ => removeNode a l) (fun _ => removeNode a r) fun _ => do
      assertThat (addr x = addr a)
      match l, r with
      | .nil, .nil => pure (.nil, true)
      | .nil, r => pure (r, true)
      | l, .nil => pure (l, true)
      | l, r => match (if b < 0 then last l else first r) with
        | none => throw .fault
        | some a' => do
          let (t, shrunk) ← removeAt checked (cut a') x b l r
            (fun _ => removeNode a' l) (fun _ => removeNode a' r) fun _ => do
              assertThat (addr x = addr a')
              throw .diverge
          replaceRoot a' shrunk t

end Remove

end Avl

end Valgrind
