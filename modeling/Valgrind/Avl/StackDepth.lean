import Valgrind.Avl.WordFM
import Valgrind.Avl.Reachable

/-!
# How deep the iterator stacks get

The iterator stacks of `m_wordfm.c` and `m_oset.c` have 32 entries, and a comment says that
2^32 entries can be iterated over. How deep a stack gets is decided by the shape of the tree,
not by its size alone:

- an iteration takes a node off the stack before it goes to its right, so that only turns to
  the left count: `iterDepth`;
- `VG_(OSetGen_Destroy)` leaves a node on the stack while it is below it, on either side: the
  height counts.

Both are settled by comparing the loops with the recursive traversal they stand for (`visit`,
`destroyLoop_subtree`). A balanced tree of height 33 has at least 9227464 nodes
(`fib_le_length`), and there are such trees, far smaller than 2^32.
-/

namespace Valgrind

namespace Avl

open AvlTree

variable {α : Type}

/-! ## Destroying a set -/

/-- The loop of `VG_(OSetGen_Destroy)`: the nodes that have been freed so far, and `sz`. -/
def destroyLoop : Nat → Stack α → List α → Int → Result (List α × Int)
  | 0, _, _, _ => throw .diverge
  | _ + 1, [], freed, sz => pure (freed, sz)
  | fuel + 1, (n, i) :: s, freed, sz => do
    assertThat (1 ≤ i ∧ i ≤ 3)
    match n with
    | .nil => throw .fault
    | .node x _ l r =>
      if i = 1 then do
        let s ← stackPush s n 2
        let s ← pushChild s l
        destroyLoop fuel s freed sz
      else if i = 2 then do
        let s ← stackPush s n 3
        let s ← pushChild s r
        destroyLoop fuel s freed sz
      else destroyLoop fuel s (freed ++ [x]) (sz + 1)

/-- `VG_(OSetGen_Destroy)`: the nodes in the order in which they are freed. -/
def osetDestroy {K E : Type} (t : OSet K E) : Result (List (ONode E)) := do
  let s ← startIter t.root
  let (freed, sz) ← destroyLoop (3 * t.root.toList.length + 1) s [] 0
  assertThat (sz = t.nElems)
  pure freed

/-- The contents of the nodes, children first. -/
def postorder : BinTree α → List α
  | .nil => []
  | .node x _ l r => postorder l ++ (postorder r ++ [x])

/-! ## The depth that is needed -/

/-- How many entries an iteration needs: one more for each turn to the left. -/
def iterDepth : BinTree α → Nat
  | .nil => 0
  | .node _ _ l r => max (iterDepth l + 1) (iterDepth r)

variable {x : α} {b : Int} {l r n t : BinTree α} {s : Stack α} {i fuel : Nat}

theorem iterDepth_le_height : iterDepth t ≤ t.height := by
  induction t with
  | nil => exact Nat.le_refl 0
  | node x b l r ihl ihr =>
    simp only [iterDepth, BinTree.height_node]
    omega

/-- A balanced tree of height `h` has at least `fib (h + 2) - 1` nodes. -/
theorem fib_le_length (ht : t.IsAvl) : Nat.fib (t.height + 2) ≤ t.toList.length + 1 := by
  induction t with
  | nil => simp
  | node x b l r ihl ihr =>
    obtain ⟨hl, hr, hb, hlo, hhi⟩ := ht
    have hsum : Nat.fib (max l.height r.height + 1 + 2) ≤
        Nat.fib (l.height + 2) + Nat.fib (r.height + 2) := by
      rw [Nat.fib_add_two]
      rcases Nat.le_total l.height r.height with h | h
      · rw [Nat.max_eq_right h]
        exact Nat.add_le_add (Nat.fib_mono (by omega)) (Nat.fib_mono (by omega))
      · rw [Nat.max_eq_left h, Nat.add_comm]
        exact Nat.add_le_add (Nat.fib_mono (by omega)) (Nat.fib_mono (by omega))
    have := ihl hl
    have := ihr hr
    simp only [BinTree.height_node, BinTree.toList_node, List.length_append, List.length_cons]
    omega

/-- Fewer than 9227464 nodes are never too high for the stacks. -/
theorem height_le_stackMax (ht : t.IsAvl) (hsize : t.toList.length < 9227464) :
    t.height ≤ stackMax := by
  by_contra hhigh
  have hfib : Nat.fib 35 ≤ Nat.fib (t.height + 2) := Nat.fib_mono (by unfold stackMax at hhigh; omega)
  have hle := fib_le_length ht
  have h35 : Nat.fib 35 = 9227465 := by decide
  omega

/-! ## The recursive traversal -/

/-- The traversal of a subtree with `depth` entries below it on the stack. -/
def visit : BinTree α → Nat → Result (List α)
  | .nil, _ => pure []
  | .node x _ l r, depth => do
    assertThat (depth < stackMax)
    let xs ← visit l (depth + 1)
    let ys ← visit r depth
    pure (xs ++ x :: ys)

/-- What is still to be done for an entry with `depth` entries below it. -/
def visitEntry : BinTree α × Nat → Nat → Result (List α)
  | (.nil, _), _ => pure []
  | (.node x b l r, i), depth =>
    if i = 1 then visit (.node x b l r) depth
    else if i = 2 then do
      assertThat (depth < stackMax)
      let ys ← visit r depth
      pure (x :: ys)
    else visit r depth

/-- What is still to be done for a stack. -/
def visitStack : Stack α → Result (List α)
  | [] => pure []
  | e :: s => do
    let xs ← visitEntry e s.length
    let ys ← visitStack s
    pure (xs ++ ys)

/-- A traversal succeeds if there is room for it. -/
theorem visit_of_le {depth : Nat} (h : iterDepth n + depth ≤ stackMax) :
    visit n depth = .ok n.toList := by
  induction n generalizing depth with
  | nil => rfl
  | node x b l r ihl ihr =>
    simp only [iterDepth] at h
    rw [visit, assertThat_of (by omega), ok_bind, ihl (by omega), ok_bind, ihr (by omega)]
    rfl

/-- A traversal fails if there is no room for it. -/
theorem visit_of_lt {depth : Nat} (hd : depth ≤ stackMax) (h : stackMax < iterDepth n + depth) :
    visit n depth = .error .assertFailed := by
  induction n generalizing depth with
  | nil =>
    simp only [iterDepth] at h
    omega
  | node x b l r ihl ihr =>
    simp only [iterDepth] at h
    unfold visit
    by_cases htop : depth < stackMax
    · rw [assertThat_of htop, ok_bind]
      by_cases hl : iterDepth l + (depth + 1) ≤ stackMax
      · rw [visit_of_le hl, ok_bind, ihr hd (by omega)]
        rfl
      · rw [ihl htop (by omega)]
        rfl
    · rw [assertThat, if_neg htop]
      rfl

/-! ## The iterators are that traversal -/

/-- What is left to do after one call of an iterator. -/
def resume (res : Option α × Stack α) : Result (List α) :=
  match res.1 with
  | none => pure []
  | some x => do
    let xs ← visitStack res.2
    pure (x :: xs)

theorem stackPush_eq (s : Stack α) (n : BinTree α) (hi : 1 ≤ i ∧ i ≤ 3) :
    stackPush s n i = (assertThat (s.length < stackMax) >>= fun _ => pure ((n, i) :: s)) := by
  unfold stackPush
  rw [assertThat_of hi]
  rfl

theorem visitStack_one : visitStack ((n, 1) :: s) =
    (visit n s.length >>= fun xs => visitStack s >>= fun ys => pure (xs ++ ys)) := by
  cases n <;> rfl

theorem visitStack_three : visitStack ((.node x b l r, 3) :: s) =
    (visit r s.length >>= fun xs => visitStack s >>= fun ys => pure (xs ++ ys)) := rfl

/-- Phase 2 of a node. -/
theorem visitStack_two : visitStack ((.node x b l r, 2) :: s) =
    (assertThat (s.length < stackMax) >>= fun _ => visitStack ((.node x b l r, 3) :: s) >>= fun ys =>
      pure (x :: ys)) := by
  simp only [visitStack, visitEntry, if_neg (show ¬ 2 = 1 by decide), if_neg (show ¬ 3 = 1 by decide),
    if_neg (show ¬ 3 = 2 by decide), if_true, bind_assoc, pure_bind]
  rfl

/-- Phase 1 of a node: there must be room for it, and its left part comes first. -/
theorem visitStack_node : visitStack ((.node x b l r, 1) :: s) =
    (assertThat (s.length < stackMax) >>= fun _ =>
      visitStack ((l, 1) :: (.node x b l r, 2) :: s)) := by
  rw [visitStack_one, visitStack_one, visitStack_two, visitStack_three, visit]
  by_cases hroom : s.length < stackMax
  · simp only [assertThat_of hroom, ok_bind, bind_assoc, pure_bind, List.length_cons, List.append_assoc,
      List.cons_append]
  · simp only [assertThat, if_neg hroom]
    rfl

theorem visitStack_leaf : visitStack ((.nil, i) :: s) = visitStack s := by
  change (visitStack s >>= fun ys => pure ys) = _
  exact bind_pure _

/-- Pushing a left spine. -/
theorem descend_visit (hn : n ≠ .nil) : (descend n s >>= visitStack) = visitStack ((n, 1) :: s) := by
  induction n generalizing s with
  | nil => exact absurd rfl hn
  | node x b l r ihl ihr =>
    rw [visitStack_node, descend, stackPush_eq _ _ (by decide), bind_assoc, bind_assoc]
    refine congrArg _ (funext fun _ => ?_)
    rw [pure_bind]
    cases l with
    | nil => rw [visitStack_leaf, pure_bind]
    | node y bl ll lr => exact ihl (by simp)

theorem nextFMLoop_resume_two : (nextFMLoop (fuel + 1) ((.node x b l r, 2) :: s) >>= resume) =
    visitStack ((.node x b l r, 2) :: s) := by
  rw [visitStack_two]
  change (stackPush s (.node x b l r) 3 >>= fun s => pure (some x, s)) >>= resume = _
  rw [stackPush_eq _ _ (by decide)]
  simp only [bind_assoc, pure_bind]
  rfl

theorem descend_resume (hn : n ≠ .nil) :
    ((descend n s >>= nextFMLoop (fuel + 1)) >>= resume) = visitStack ((n, 1) :: s) := by
  rw [← descend_visit hn]
  rcases descend_spec (s := s) hn with ⟨s', hrun, hp, x, b, l, r, rest, rfl⟩ | ⟨hrun, hno⟩
  · rw [hrun, ok_bind, ok_bind]
    exact nextFMLoop_resume_two
  · rw [hrun]
    rfl

theorem nextFMLoop_resume (hs : Entries s) (hfuel : turns s ≤ fuel) :
    (nextFMLoop fuel s >>= resume) = visitStack s := by
  induction s generalizing fuel with
  | nil =>
    cases fuel with
    | zero => simp [turns] at hfuel
    | succ fuel => rfl
  | cons e s ih =>
    obtain ⟨n, i⟩ := e
    obtain ⟨hn, hi⟩ := hs (n, i) (by simp)
    rw [turns_cons] at hfuel
    dsimp only at hn hi hfuel
    obtain ⟨fuel, rfl⟩ : ∃ k, fuel = k + 2 := ⟨fuel - 2, by omega⟩
    cases n with
    | nil => exact absurd rfl hn
    | node x b l r =>
      obtain rfl | rfl | rfl : i = 1 ∨ i = 2 ∨ i = 3 := by omega
      · exact descend_resume hn
      · exact nextFMLoop_resume_two
      · cases r with
        | nil =>
          rw [visitStack_three, visit, pure_bind]
          exact (ih hs.tail (by omega)).trans (bind_pure _).symm
        | node y br rl rr =>
          rw [visitStack_three, ← visitStack_one]
          exact descend_resume (by simp)

/-- **`VG_(nextIterFM)`** takes the first step of the traversal. -/
theorem nextFM_resume (hs : Entries s) : (nextFM s >>= resume) = visitStack s :=
  nextFMLoop_resume hs (Nat.le_refl _)

theorem nextOSetLoop_resume_two : (nextOSetLoop (fuel + 1) ((.node x b l r, 2) :: s) >>= resume) =
    visitStack ((.node x b l r, 2) :: s) := by
  rw [visitStack_two]
  change (stackPush s (.node x b l r) 3 >>= fun s => pure (some x, s)) >>= resume = _
  rw [stackPush_eq _ _ (by decide)]
  simp only [bind_assoc, pure_bind]
  rfl

theorem pushChild_node : pushChild s (.node x b l r) =
    (assertThat (s.length < stackMax) >>= fun _ => pure ((.node x b l r, 1) :: s)) :=
  stackPush_eq _ _ (by decide)

/-- Pushing a child: the traversal would ask for the same room. -/
theorem pushChild_visit : (pushChild s n >>= visitStack) = visitStack ((n, 1) :: s) := by
  cases n with
  | nil => rw [visitStack_leaf, pushChild, pure_bind]
  | node x b l r =>
    rw [visitStack_node, pushChild_node, bind_assoc]
    by_cases hroom : s.length < stackMax
    · rw [assertThat_of hroom, ok_bind, ok_bind, pure_bind, visitStack_node, assertThat_of hroom, ok_bind]
    · rw [assertThat, if_neg hroom]
      rfl

theorem nextOSetLoop_resume_one (hn : n ≠ .nil) (hfuel : n.height < fuel) :
    (nextOSetLoop fuel ((n, 1) :: s) >>= resume) = visitStack ((n, 1) :: s) := by
  induction n generalizing fuel s with
  | nil => exact absurd rfl hn
  | node x b l r ihl ihr =>
    rw [BinTree.height_node] at hfuel
    obtain ⟨fuel, rfl⟩ : ∃ k, fuel = k + 2 := ⟨fuel - 2, by omega⟩
    have hstep : nextOSetLoop (fuel + 2) ((.node x b l r, 1) :: s) =
        stackPush s (.node x b l r) 2 >>= fun s => pushChild s l >>= nextOSetLoop (fuel + 1) := rfl
    rw [visitStack_node, hstep, stackPush_eq _ _ (by decide), bind_assoc, bind_assoc]
    refine congrArg _ (funext fun _ => ?_)
    rw [pure_bind, ← pushChild_visit]
    cases l with
    | nil => rw [pushChild, pure_bind, nextOSetLoop_resume_two, pure_bind]
    | node y bl ll lr =>
      rw [pushChild_node, bind_assoc, bind_assoc, bind_assoc]
      refine congrArg _ (funext fun _ => ?_)
      rw [pure_bind, pure_bind]
      exact ihl (by simp) (by omega)

theorem nextOSetLoop_resume (hs : Entries s) (hfuel : turns s ≤ fuel) :
    (nextOSetLoop fuel s >>= resume) = visitStack s := by
  induction s generalizing fuel with
  | nil =>
    cases fuel with
    | zero => simp [turns] at hfuel
    | succ fuel => rfl
  | cons e s ih =>
    obtain ⟨n, i⟩ := e
    obtain ⟨hn, hi⟩ := hs (n, i) (by simp)
    rw [turns_cons] at hfuel
    dsimp only at hn hi hfuel
    obtain ⟨fuel, rfl⟩ : ∃ k, fuel = k + 1 := ⟨fuel - 1, by omega⟩
    cases n with
    | nil => exact absurd rfl hn
    | node x b l r =>
      obtain rfl | rfl | rfl : i = 1 ∨ i = 2 ∨ i = 3 := by omega
      · exact nextOSetLoop_resume_one hn (by omega)
      · exact nextOSetLoop_resume_two
      · have hstep : nextOSetLoop (fuel + 1) ((.node x b l r, 3) :: s) =
            pushChild s r >>= nextOSetLoop fuel := rfl
        rw [visitStack_three, ← visitStack_one, ← pushChild_visit, hstep, bind_assoc]
        cases r with
        | nil => exact ih hs.tail (by omega)
        | node y br rl rr =>
          rw [pushChild_node, bind_assoc, bind_assoc]
          refine congrArg _ (funext fun _ => ?_)
          rw [pure_bind, pure_bind]
          refine nextOSetLoop_resume_one (by simp) ?_
          simp only [BinTree.height_node] at hfuel ⊢
          omega

/-- **`VG_(OSetGen_Next)`** takes the first step of the traversal. -/
theorem nextOSet_resume (hs : Entries s) : (nextOSet s >>= resume) = visitStack s :=
  nextOSetLoop_resume hs (Nat.le_refl _)

/-! ## Whole iterations -/

theorem startIter_eq (t : BinTree α) : startIter t = pushChild [] t := by cases t <;> rfl

section Whole

variable {next : Stack α → Result (Option α × Stack α)}
  (hnext : ∀ {s}, Entries s → Bounded (next s) (Taken s) (fun h => Shallow h s))
  (hresume : ∀ {s}, Entries s → (next s >>= resume) = visitStack s)

include hnext hresume

/-- The iterator is called too few times, or does what the traversal does. -/
theorem drain_visit (hs : Entries s) (calls : Nat) :
    drain next calls s = .error .diverge ∨ drain next calls s = visitStack s := by
  induction calls generalizing s with
  | zero => exact .inl rfl
  | succ calls ih =>
    rw [← hresume hs]
    rcases hnext hs with ⟨⟨x, s'⟩, hrun, ht⟩ | ⟨hrun, -⟩
    · rw [drain, hrun, ok_bind, ok_bind]
      cases x with
      | none => exact .inr rfl
      | some x =>
        dsimp only [resume]
        rcases ih (ht.entries hs) with h | h
        · rw [h]
          exact .inl rfl
        · rw [h]
          exact .inr rfl
    · rw [drain, hrun]
      exact .inr rfl

/-- No call ever finds the stack full iff there is room for the traversal. -/
theorem iterate_exact : (∀ calls, (startIter t >>= drain next calls) ≠ .error .assertFailed) ↔
    iterDepth t ≤ stackMax := by
  obtain ⟨s, hstart, hs, hvisit⟩ : ∃ s, startIter t = .ok s ∧ Entries s ∧
      visitStack s = visit t 0 := by
    cases t with
    | nil => exact ⟨[], rfl, by simp [Entries], rfl⟩
    | node x b l r =>
      refine ⟨[(.node x b l r, 1)], rfl, by simp [Entries], ?_⟩
      rw [visitStack_one]
      simp only [visitStack, pure_bind, List.append_nil]
      exact bind_pure _
  constructor
  · intro h
    by_contra hdeep
    have hfull : visitStack s = .error .assertFailed := by
      rw [hvisit]
      exact visit_of_lt (Nat.zero_le _) (by omega)
    -- enough calls do not run out
    have hcalls := iterate_spec hnext (t := t) (Nat.lt_succ_self t.toList.length)
    have hno := h (t.toList.length + 1)
    rw [hstart, ok_bind] at hcalls hno
    rcases drain_visit hnext hresume hs (t.toList.length + 1) with hd | hd
    · rcases hcalls with ⟨v, hok, -⟩ | ⟨hok, -⟩ <;> rw [hd] at hok <;> cases hok
    · exact hno (hd.trans hfull)
  · intro hroom calls
    rw [hstart, ok_bind]
    rcases drain_visit hnext hresume hs calls with hd | hd
    · rw [hd]
      exact fun h => by cases h
    · rw [hd, hvisit, visit_of_le (by omega)]
      exact fun h => by cases h

end Whole

/-! ## Destruction -/

theorem destroyLoop_one (freed : List α) (sz : Int) :
    destroyLoop (fuel + 1) ((.node x b l r, 1) :: s) freed sz =
      stackPush s (.node x b l r) 2 >>= fun s => pushChild s l >>= fun s =>
        destroyLoop fuel s freed sz := rfl

theorem destroyLoop_two (freed : List α) (sz : Int) :
    destroyLoop (fuel + 1) ((.node x b l r, 2) :: s) freed sz =
      stackPush s (.node x b l r) 3 >>= fun s => pushChild s r >>= fun s =>
        destroyLoop fuel s freed sz := rfl

theorem destroyLoop_three (freed : List α) (sz : Int) :
    destroyLoop (fuel + 1) ((.node x b l r, 3) :: s) freed sz =
      destroyLoop fuel s (freed ++ [x]) (sz + 1) := rfl

theorem stackPush_of_lt (s : Stack α) (n : BinTree α) (hi : 1 ≤ i ∧ i ≤ 3) (hs : s.length < stackMax) :
    stackPush s n i = .ok ((n, i) :: s) := by
  rw [stackPush_eq s n hi, assertThat_of hs]
  rfl

theorem pushChild_of_lt (hs : s.length < stackMax) :
    pushChild s (.node x b l r) = .ok ((.node x b l r, 1) :: s) :=
  stackPush_of_lt s _ (by decide) hs

/-- A subtree is freed, children first, if there is room for its height. -/
theorem destroyLoop_of_le (h : n.height + s.length ≤ stackMax) (fuel : Nat) (freed : List α) (sz : Int) :
    (pushChild s n >>= fun s => destroyLoop (3 * n.toList.length + fuel) s freed sz) =
      destroyLoop fuel s (freed ++ postorder n) (sz + n.toList.length) := by
  induction n generalizing s fuel freed sz with
  | nil =>
    rw [pushChild, pure_bind]
    simp [postorder]
  | node x b l r ihl ihr =>
    simp only [BinTree.height_node] at h
    have hs : s.length < stackMax := by omega
    have hfuel : 3 * (BinTree.node x b l r).toList.length + fuel =
        3 * l.toList.length + ((3 * r.toList.length + (fuel + 1)) + 1) + 1 := by
      simp only [BinTree.toList_node, List.length_append, List.length_cons]
      omega
    rw [pushChild_of_lt hs, ok_bind, hfuel, destroyLoop_one, stackPush_of_lt s _ (by decide) hs, ok_bind,
      ihl (by rw [List.length_cons]; omega), destroyLoop_two, stackPush_of_lt s _ (by decide) hs, ok_bind,
      ihr (by rw [List.length_cons]; omega), destroyLoop_three]
    congr 1
    · simp [postorder]
    · simp only [BinTree.toList_node, List.length_append, List.length_cons]
      push_cast
      ring

/-- Freeing a subtree fails if there is no room for its height. -/
theorem destroyLoop_of_lt (hs : s.length ≤ stackMax) (h : stackMax < n.height + s.length) (fuel : Nat)
    (freed : List α) (sz : Int) :
    (pushChild s n >>= fun s => destroyLoop (3 * n.toList.length + fuel) s freed sz) =
      .error .assertFailed := by
  induction n generalizing s fuel freed sz with
  | nil =>
    simp only [BinTree.height_nil] at h
    omega
  | node x b l r ihl ihr =>
    simp only [BinTree.height_node] at h
    by_cases hlt : s.length < stackMax
    · have hfuel : 3 * (BinTree.node x b l r).toList.length + fuel =
          3 * l.toList.length + ((3 * r.toList.length + (fuel + 1)) + 1) + 1 := by
        simp only [BinTree.toList_node, List.length_append, List.length_cons]
        omega
      rw [pushChild_of_lt hlt, ok_bind, hfuel, destroyLoop_one, stackPush_of_lt s _ (by decide) hlt, ok_bind]
      by_cases hl : l.height + (s.length + 1) ≤ stackMax
      · rw [destroyLoop_of_le hl, destroyLoop_two, stackPush_of_lt s _ (by decide) hlt, ok_bind,
          ihr (s := (.node x b l r, 3) :: s) hlt (by rw [List.length_cons]; omega)]
      · exact ihl (s := (.node x b l r, 2) :: s) hlt (by rw [List.length_cons]; omega) _ _ _
    · rw [pushChild_node, assertThat, if_neg hlt]
      rfl

/-- **`VG_(OSetGen_Destroy)`** frees every node, children first, if the tree is not too high for
the stack. -/
theorem osetDestroy_eq {K E : Type} {t : OSet K E} (hcount : t.nElems = t.root.toList.length) :
    osetDestroy t = if t.root.height ≤ stackMax then .ok (postorder t.root)
      else .error .assertFailed := by
  have hrun : osetDestroy t = ((pushChild [] t.root >>= fun s =>
      destroyLoop (3 * t.root.toList.length + 1) s [] 0) >>= fun res =>
        assertThat (res.2 = t.nElems) >>= fun _ => pure res.1) := by
    rw [osetDestroy, startIter_eq, bind_assoc]
  rw [hrun]
  by_cases hh : t.root.height ≤ stackMax
  · rw [if_pos hh, destroyLoop_of_le (s := []) hh]
    simp only [destroyLoop, pure_bind, List.nil_append, Int.zero_add, assertThat_of hcount.symm]
    rfl
  · rw [if_neg hh, destroyLoop_of_lt (s := []) (Nat.zero_le _) (by rw [List.length_nil]; omega)]
    rfl

section

variable {K E : Type} {keyOf : E → K} {word : K → Nat} {ord : K → K → Ordering}

/-- An iteration over an `OSet` finds room iff the traversal does. -/
theorem osetIterate_exact (t : OSet K E) :
    (∀ calls, (osetResetIter t >>= iterateOSet calls) ≠ .error .assertFailed) ↔
      iterDepth t.root ≤ stackMax := by
  rw [← iterate_exact nextOSet_spec nextOSet_resume]
  exact forall_congr' fun calls => by rw [osetResetIter_iterate]

/-- An iteration over a `WordFM` finds room iff the traversal does. -/
theorem iterateFM_exact [Machine] (fm : WordFM) :
    (∀ calls, (initIterFM fm >>= iterateFM calls) ≠ .error .assertFailed) ↔
      iterDepth fm.root ≤ stackMax := by
  rw [← iterate_exact nextFM_spec nextFM_resume]
  refine forall_congr' fun calls => ?_
  rw [initIterFM_iterate]
  cases (startIter fm.root >>= drain nextFM calls) with
  | error e => simp only [Except.map, ne_eq, Except.error.injEq]
  | ok ns => exact iff_of_true (fun h => nomatch h) fun h => nomatch h

/-- **How deep the iterator stacks must be.** For every `WordFM` and every `OSet` that updates can
lead to: an iteration never finds the stack full iff at most 31 turns to the left lead to any node
of the tree, and the destruction of a set does not iff the tree is at most 32 high. That is so for
all trees with fewer than 9227464 nodes. -/
theorem iterStacks_exact [Machine] [DecidableEq K] {kCmp : Option (UWord → UWord → Int)}
    (h : CmpOk kCmp) (fmOps : List FMOp) {cmp : Option (K → E → Int)} (hord : OrdOk keyOf word cmp ord)
    (ops : List (OSetOp K E))
    (habs : runMeets (stepOSet keyOf word) (Absent keyOf word) (osetCreate cmp, []) ops) :
    (∃ fm outs, runSteps stepFM (newFM kCmp, []) fmOps = .ok (fm, outs) ∧
      ((∀ calls, (initIterFM fm >>= iterateFM calls) ≠ .error .assertFailed) ↔
        iterDepth fm.root ≤ stackMax) ∧
      (sizeFM fm < 9227464 → iterDepth fm.root ≤ stackMax)) ∧
    ∃ t outs, runSteps (stepOSet keyOf word) (osetCreate cmp, []) ops = .ok (t, outs) ∧
      ((∀ calls, (osetResetIter t >>= iterateOSet calls) ≠ .error .assertFailed) ↔
        iterDepth t.root ≤ stackMax) ∧
      (osetDestroy t ≠ .error .assertFailed ↔ t.root.height ≤ stackMax) ∧
      (t.nElems < 9227464 → iterDepth t.root ≤ stackMax ∧ t.root.height ≤ stackMax) := by
  obtain ⟨fm, hfm, -, hfmOk⟩ := wordFM_refines h fmOps
  obtain ⟨t, ht, -, htOk⟩ := oset_refines hord ops habs
  refine ⟨⟨fm, _, hfm, iterateFM_exact fm, fun hsize => ?_⟩, t, _, ht, osetIterate_exact t, ?_,
    fun hsize => ?_⟩
  · rw [sizeFM, sizeAvl_eq] at hsize
    exact Nat.le_trans iterDepth_le_height (height_le_stackMax hfmOk.avl hsize)
  · rw [osetDestroy_eq htOk.count]
    split
    · rename_i hh
      exact iff_of_true (fun h => by cases h) hh
    · rename_i hh
      exact iff_of_false (fun h => h rfl) hh
  · have hheight := height_le_stackMax htOk.avl (by have := htOk.count; omega)
    exact ⟨Nat.le_trans iterDepth_le_height hheight, hheight⟩

end

/-- A few updates of a `WordFM`, and an `OSet` of one word. -/
theorem iterStacks_exact_sample :
    letI : Machine := x86Linux
    CmpOk none ∧
    (∃ fm outs, runSteps stepFM (newFM none, []) sampleUpdates = .ok (fm, outs) ∧
      ((∀ calls, (initIterFM fm >>= iterateFM calls) ≠ .error .assertFailed) ↔
        iterDepth fm.root ≤ stackMax) ∧
      (sizeFM fm < 9227464 → iterDepth fm.root ≤ stackMax)) ∧
    ∃ t outs, runSteps (stepOSet id id) (osetCreate none, []) [.insert ⟨16, 5⟩] = .ok (t, outs) ∧
      ((∀ calls, (osetResetIter t >>= iterateOSet calls) ≠ .error .assertFailed) ↔
        iterDepth t.root ≤ stackMax) ∧
      (osetDestroy t ≠ .error .assertFailed ↔ t.root.height ≤ stackMax) ∧
      (t.nElems < 9227464 → iterDepth t.root ≤ stackMax ∧ t.root.height ≤ stackMax) :=
  letI : Machine := x86Linux
  have h : CmpOk none := by simp [CmpOk]
  ⟨h, iterStacks_exact h sampleUpdates ordOk_words [.insert ⟨16, 5⟩] ⟨rfl, fun _ _ => trivial⟩⟩

/-- A set of nine million words can neither be iterated over nor destroyed. -/
theorem leaning_overflows : ∃ ops, runMeets (stepOSet id id) (Absent id id) (osetCreate none, []) ops ∧
    ∃ t, runSteps (stepOSet id id) (osetCreate none, []) ops = .ok (t, []) ∧ t.nElems ≤ 2 ^ 32 ∧
      (osetResetIter t >>= osetNext) = .error .assertFailed ∧
      osetDestroy t = .error .assertFailed := by
  obtain ⟨ops, hmeets, hrun⟩ := exists_leaning
  refine ⟨ops, hmeets, _, hrun, by decide, osetNext_overflow ?_, ?_⟩
  · rw [leftSpine_leaning]
    decide
  · rw [osetDestroy_eq (by rw [length_leaning]; rfl), if_neg]
    rw [height_leaning]
    decide

end Avl

end Valgrind
