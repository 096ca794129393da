import Valgrind.Avl.Core

/-!
# In-order traversal with an explicit stack

`m_wordfm.c` and `m_oset.c` iterate over a tree with a stack of pairs (node, phase). In
phase 1 nothing of the node's subtree has been visited, in phase 2 its left part has, in
phase 3 the node too. The stack has room for 32 entries; pushing one more fails an
assertion.

What is still to be visited can be read off the stack: `pending`. One call of the iterator
takes the first element off it, and the search that starts an iteration in the middle
leaves exactly the elements from there on (`seek_spec`). A tree of height at most 32 never
fills the stack: an entry stands as far from the bottom as its node is below the root
(`Shallow`).
-/

namespace Valgrind

namespace Avl

open AvlTree

variable {α : Type}

/-- `WFM_STKMAX`, `STACK_MAX`. -/
def stackMax : Nat := 32

/-- The iterator stack, top first: `nodeStack` and `numStack`. -/
abbrev Stack (α : Type) := List (BinTree α × Nat)

/-- `stackPush`. -/
def stackPush (s : Stack α) (n : BinTree α) (i : Nat) : Result (Stack α) := do
  assertThat (s.length < stackMax)
  assertThat (1 ≤ i ∧ i ≤ 3)
  pure ((n, i) :: s)

/-- The start of an iteration over the whole tree. -/
def startIter (root : BinTree α) : Result (Stack α) :=
  match root with
  | .nil => pure []
  | root => stackPush [] root 1

/-- The search that starts an iteration in the middle. A node is pushed only if the search
goes on to its left, or ends at it. -/
def seek (cut : α → Ordering) : BinTree α → Stack α → Result (Stack α)
  | .nil, s => pure s
  | .node x b l r, s =>
    match cut x with
    | .eq => stackPush s (.node x b l r) 2
    | .lt => do
      let s ← stackPush s (.node x b l r) 2
      seek cut l s
    | .gt => seek cut r s

/-- The loop at `case_1` of `VG_(nextIterFM)`: push a node and everything down its left
spine. -/
def descend : BinTree α → Stack α → Result (Stack α)
  | .nil, _ => throw .fault
  | .node x b l r, s => do
    let s ← stackPush s (.node x b l r) 2
    match l with
    | .nil => pure s
    | .node _ _ _ _ => descend l s

/-- How often the loops below can go round. -/
def turns (s : Stack α) : Nat := (s.map fun e => e.1.height + 2).sum + 1

/-- The loop of `VG_(nextIterFM)`. -/
def nextFMLoop : Nat → Stack α → Result (Option α × Stack α)
  | 0, _ => throw .diverge
  | _ + 1, [] => pure (none, [])
  | fuel + 1, (n, i) :: s => do
    assertThat (1 ≤ i ∧ i ≤ 3)
    if i = 1 then do
      let s ← descend n s
      nextFMLoop fuel s
    else if i = 2 then do
      let s ← stackPush s n 3
      match n with
      | .nil => throw .fault
      | .node x _ _ _ => pure (some x, s)
    else match n with
      | .nil => throw .fault
      | .node _ _ _ .nil => nextFMLoop fuel s
      | .node _ _ _ r => do
        let s ← descend r s
        nextFMLoop fuel s

/-- `VG_(nextIterFM)`: the next node, if there is one. -/
def nextFM (s : Stack α) : Result (Option α × Stack α) := nextFMLoop (turns s) s

/-- Push a child unless it is null. -/
def pushChild (s : Stack α) : BinTree α → Result (Stack α)
  | .nil => pure s
  | n => stackPush s n 1

/-- The loop of `VG_(OSetGen_Next)`. -/
def nextOSetLoop : Nat → Stack α → Result (Option α × Stack α)
  | 0, _ => throw .diverge
  | _ + 1, [] => pure (none, [])
  | fuel + 1, (n, i) :: s => do
    assertThat (1 ≤ i ∧ i ≤ 3)
    if i = 1 then do
      let s ← stackPush s n 2
      match n with
      | .nil => throw .fault
      | .node _ _ l _ => do
        let s ← pushChild s l
        nextOSetLoop fuel s
    else if i = 2 then do
      let s ← stackPush s n 3
      match n with
      | .nil => throw .fault
      | .node x _ _ _ => pure (some x, s)
    else match n with
      | .nil => throw .fault
      | .node _ _ _ r => do
        let s ← pushChild s r
        nextOSetLoop fuel s

/-- `VG_(OSetGen_Next)`. -/
def nextOSet (s : Stack α) : Result (Option α × Stack α) := nextOSetLoop (turns s) s

/-- Call the iterator until it has nothing more to give, at most `calls` times. -/
def drain (next : Stack α → Result (Option α × Stack α)) : Nat → Stack α → Result (List α)
  | 0, _ => throw .diverge
  | calls + 1, s => do
    let (x, s) ← next s
    match x with
    | none => pure []
    | some x => do
      let xs ← drain next calls s
      pure (x :: xs)

/-! ## What is pending -/

/-- What is still to be visited of an entry. -/
def pendingOf : BinTree α × Nat → List α
  | (.nil, _) => []
  | (.node x b l r, i) =>
    if i = 1 then (BinTree.node x b l r).toList else if i = 2 then x :: r.toList else r.toList

/-- What is still to be visited. -/
def pending (s : Stack α) : List α := s.flatMap pendingOf

/-- The entries of a stack are nodes, with a phase. -/
def Entries (s : Stack α) : Prop := ∀ e ∈ s, e.1 ≠ .nil ∧ 1 ≤ e.2 ∧ e.2 ≤ 3

/-- An entry stands at least as far from the bottom as its node is from the root of a tree of
height `h`. -/
def Shallow (h : Nat) : Stack α → Prop
  | [] => True
  | e :: s => e.1.height + s.length ≤ h ∧ Shallow h s

/-- The code returns something that is right, or the stack has overflowed because the tree is
higher than `h`. -/
def Bounded {β : Type} (res : Result β) (right : β → Prop) (fits : Nat → Prop) : Prop :=
  (∃ v, res = .ok v ∧ right v) ∨ (res = .error .assertFailed ∧ ∀ h ≤ stackMax, ¬ fits h)

variable {x : α} {b : Int} {l r n : BinTree α} {s : Stack α} {i : Nat} {β γ : Type}

theorem Bounded.bind {res : Result β} {right : β → Prop} {fits : Nat → Prop} {f : β → Result γ}
    {right' : γ → Prop} (h : Bounded res right fits)
    (hf : ∀ v, right v → Bounded (f v) right' fits) : Bounded (res >>= f) right' fits := by
  rcases h with ⟨v, rfl, hv⟩ | ⟨rfl, hno⟩
  · exact hf v hv
  · exact .inr ⟨rfl, hno⟩

theorem Bounded.mono {res : Result β} {right right' : β → Prop} {fits fits' : Nat → Prop}
    (h : Bounded res right fits) (hr : ∀ v, right v → right' v) (hf : ∀ k, fits' k → fits k) :
    Bounded res right' fits' := by
  rcases h with ⟨v, rfl, hv⟩ | ⟨rfl, hno⟩
  · exact .inl ⟨v, rfl, hr v hv⟩
  · exact .inr ⟨rfl, fun k hk hfit => hno k hk (hf k hfit)⟩

theorem Bounded.of_ok {v : β} {right : β → Prop} {fits : Nat → Prop} (h : right v) :
    Bounded (.ok v) right fits := .inl ⟨v, rfl, h⟩

/-- There is room on a shallow stack. -/
theorem stackPush_spec (hn : n ≠ .nil) (hi : 1 ≤ i ∧ i ≤ 3) :
    Bounded (stackPush s n i) (· = (n, i) :: s) (fun h => n.height + s.length ≤ h) := by
  have hpos : 0 < n.height := Nat.pos_of_ne_zero fun h => hn (BinTree.height_eq_zero.mp h)
  by_cases hroom : s.length < stackMax
  · refine .inl ⟨_, ?_, rfl⟩
    simp only [stackPush, assertThat_of hroom, assertThat_of hi, ok_bind]
    rfl
  · refine .inr ⟨?_, fun h hh hfit => hroom (by omega)⟩
    simp only [stackPush, assertThat, if_neg hroom]
    rfl

/-- The phases of an entry, one after the other. -/
theorem pending_one : pending ((n, 1) :: s) = n.toList ++ pending s := by
  cases n <;> simp [pending, pendingOf]

theorem pending_two : pending ((.node x b l r, 2) :: s) = x :: pending ((.node x b l r, 3) :: s) := by
  simp [pending, pendingOf]

theorem pending_three : pending ((.node x b l r, 3) :: s) = r.toList ++ pending s := by
  simp [pending, pendingOf]

theorem Entries.cons (h : Entries s) (hn : n ≠ .nil) (hi : 1 ≤ i ∧ i ≤ 3) : Entries ((n, i) :: s) := by
  intro e he
  rcases List.mem_cons.mp he with rfl | he
  · exact ⟨hn, hi⟩
  · exact h e he

theorem Entries.tail {e : BinTree α × Nat} (h : Entries (e :: s)) : Entries s :=
  fun e' he' => h e' (List.mem_cons_of_mem _ he')

/-! ## One call of the iterator -/

/-- What a push of a subtree, or of its left spine, leaves on the stack. -/
structure Pushed (n : BinTree α) (s s' : Stack α) : Prop where
  pending_eq : pending s' = n.toList ++ pending s
  entries : Entries s → Entries s'
  shallow : ∀ h, n.height + s.length ≤ h → Shallow h s → Shallow h s'

/-- What a call of the iterator does: the first element that is pending is returned. -/
structure Taken (s : Stack α) (res : Option α × Stack α) : Prop where
  pending_eq : pending s = res.1.toList ++ pending res.2
  exhausted : res.1 = none → pending s = []
  entries : Entries s → Entries res.2
  shallow : ∀ h, Shallow h s → Shallow h res.2

/-- Phase 2: the node is returned. -/
theorem taken_two : Taken ((.node x b l r, 2) :: s) (some x, (.node x b l r, 3) :: s) := by
  refine ⟨?_, by simp, fun he => ?_, fun h hs => hs⟩
  · rw [pending_two]
    rfl
  · exact he.tail.cons (by simp) (by decide)

/-- What is taken off a stack that something has been pushed on. -/
theorem Pushed.taken {s' : Stack α} {res : Option α × Stack α} {e : BinTree α × Nat}
    (hp : Pushed n s s') (ht : Taken s' res) (he : pending (e :: s) = n.toList ++ pending s)
    (hh : n.height ≤ e.1.height) : Taken (e :: s) res := by
  have hpend : pending (e :: s) = pending s' := by rw [he, hp.pending_eq]
  refine ⟨by rw [hpend, ht.pending_eq], fun hn => by rw [hpend, ht.exhausted hn],
    fun hs => ht.entries (hp.entries hs.tail), fun h hs => ht.shallow h ?_⟩
  exact hp.shallow h (Nat.le_trans (Nat.add_le_add_right hh _) hs.1) hs.2

/-- Phase 3 of a node without a right subtree: it is done with. -/
theorem Taken.skip {res : Option α × Stack α} (ht : Taken s res) :
    Taken ((.node x b l .nil, 3) :: s) res := by
  have hpend : pending ((.node x b l .nil, 3) :: s) = pending s := by simp [pending_three]
  exact ⟨by rw [hpend, ht.pending_eq], fun hn => by rw [hpend, ht.exhausted hn],
    fun hs => ht.entries hs.tail, fun h hs => ht.shallow h hs.2⟩

theorem descend_spec (hn : n ≠ .nil) :
    Bounded (descend n s) (fun s' => Pushed n s s' ∧ ∃ x b l r rest, s' = (.node x b l r, 2) :: rest)
      (fun h => n.height + s.length ≤ h) := by
  induction n generalizing s with
  | nil => exact absurd rfl hn
  | node x b l r ihl ihr =>
    refine (stackPush_spec hn (by decide)).bind ?_
    rintro _ rfl
    have hmore : ∀ {s'}, Pushed l ((.node x b l r, 2) :: s) s' → Pushed (.node x b l r) s s' := by
      intro s' hp
      refine ⟨?_, fun hs => hp.entries (hs.cons hn (by decide)), fun h hfit hs => ?_⟩
      · rw [hp.pending_eq, pending_two, pending_three]
        simp
      · refine hp.shallow h ?_ ⟨hfit, hs⟩
        simp only [BinTree.height_node, List.length_cons] at hfit ⊢
        omega
    cases l with
    | nil =>
      refine .of_ok ⟨hmore ⟨by simp, id, fun _ _ => id⟩, _, _, _, _, _, rfl⟩
    | node y bl ll lr =>
      refine (ihl (by simp)).mono (fun s' hs' => ⟨hmore hs'.1, hs'.2⟩) fun h hfit => ?_
      simp only [BinTree.height_node, List.length_cons] at hfit ⊢
      omega

theorem nextFMLoop_two (fuel : Nat) :
    Bounded (nextFMLoop (fuel + 1) ((.node x b l r, 2) :: s)) (Taken ((.node x b l r, 2) :: s))
      (fun h => Shallow h ((.node x b l r, 2) :: s)) := by
  have hpush := stackPush_spec (s := s) (n := .node x b l r) (i := 3) (by simp) (by decide)
  refine (hpush.mono (fun _ => id) fun h hs => hs.1).bind ?_
  rintro _ rfl
  exact .of_ok taken_two

/-- Push a spine and take its lower end off again. -/
theorem descend_next {e : BinTree α × Nat} (hn : n ≠ .nil) (fuel : Nat)
    (he : pending (e :: s) = n.toList ++ pending s) (hh : n.height ≤ e.1.height) :
    Bounded (descend n s >>= nextFMLoop (fuel + 1)) (Taken (e :: s)) (fun h => Shallow h (e :: s)) := by
  have hfits : ∀ h, Shallow h (e :: s) → n.height + s.length ≤ h := fun h hs =>
    Nat.le_trans (Nat.add_le_add_right hh _) hs.1
  rcases descend_spec (s := s) hn with ⟨s', hrun, hp, x, b, l, r, rest, rfl⟩ | ⟨hrun, hno⟩
  · rw [hrun, ok_bind]
    exact (nextFMLoop_two fuel).mono (fun res ht => hp.taken ht he hh)
      fun h hs => hp.shallow h (hfits h hs) hs.2
  · rw [hrun]
    exact .inr ⟨rfl, fun h hh' hs => hno h hh' (hfits h hs)⟩

theorem turns_cons (e : BinTree α × Nat) : turns (e :: s) = e.1.height + 2 + turns s := by
  simp [turns]
  omega

theorem nextFMLoop_spec {fuel : Nat} (hs : Entries s) (hfuel : turns s ≤ fuel) :
    Bounded (nextFMLoop fuel s) (Taken s) (fun h => Shallow h s) := by
  induction s generalizing fuel with
  | nil =>
    cases fuel with
    | zero => simp [turns] at hfuel
    | succ fuel => exact .of_ok ⟨rfl, fun _ => rfl, id, fun _ => id⟩
  | cons e s ih =>
    obtain ⟨n, i⟩ := e
    obtain ⟨hn, hi⟩ := hs (n, i) (by simp)
    rw [turns_cons] at hfuel
    dsimp only at hn hi hfuel
    obtain ⟨fuel, rfl⟩ : ∃ k, fuel = k + 2 := ⟨fuel - 2, by omega⟩
    unfold nextFMLoop
    rw [assertThat_of hi, ok_bind]
    cases n with
    | nil => exact absurd rfl hn
    | node x b l r =>
      obtain rfl | rfl | rfl : i = 1 ∨ i = 2 ∨ i = 3 := by omega
      · exact descend_next hn fuel pending_one (Nat.le_refl _)
      · exact nextFMLoop_two (fuel + 1)
      · cases r with
        | nil =>
          exact (ih hs.tail (by omega)).mono (fun _ ht => ht.skip) fun h hsh => hsh.2
        | node y br rl rr =>
          exact descend_next (by simp) fuel pending_three (by simp)

/-- **One call of `VG_(nextIterFM)`.** -/
theorem nextFM_spec (hs : Entries s) : Bounded (nextFM s) (Taken s) (fun h => Shallow h s) :=
  nextFMLoop_spec hs (Nat.le_refl _)

theorem nextOSetLoop_two (fuel : Nat) :
    Bounded (nextOSetLoop (fuel + 1) ((.node x b l r, 2) :: s)) (Taken ((.node x b l r, 2) :: s))
      (fun h => Shallow h ((.node x b l r, 2) :: s)) := by
  have hpush := stackPush_spec (s := s) (n := .node x b l r) (i := 3) (by simp) (by decide)
  refine (hpush.mono (fun _ => id) fun h hs => hs.1).bind ?_
  rintro _ rfl
  exact .of_ok taken_two

/-- Phase 1: the left spine is pushed one node at a time. -/
theorem nextOSetLoop_one {fuel : Nat} (hn : n ≠ .nil) (hfuel : n.height < fuel) :
    Bounded (nextOSetLoop fuel ((n, 1) :: s)) (Taken ((n, 1) :: s))
      (fun h => Shallow h ((n, 1) :: s)) := by
  induction n generalizing fuel s with
  | nil => exact absurd rfl hn
  | node x b l r ihl ihr =>
    rw [BinTree.height_node] at hfuel
    obtain ⟨fuel, rfl⟩ : ∃ k, fuel = k + 2 := ⟨fuel - 2, by omega⟩
    have hpush := stackPush_spec (s := s) (n := .node x b l r) (i := 2) (by simp) (by decide)
    refine (hpush.mono (fun _ => id) fun h hs => hs.1).bind ?_
    rintro _ rfl
    cases l with
    | nil =>
      refine (nextOSetLoop_two fuel).mono (fun res ht => ?_) fun h hs => hs
      have hpend : pending ((.node x b .nil r, 1) :: s) = pending ((.node x b .nil r, 2) :: s) := by
        rw [pending_one, pending_two, pending_three]
        simp
      exact ⟨by rw [hpend, ht.pending_eq], fun hn => by rw [hpend, ht.exhausted hn],
        fun hs => ht.entries (hs.tail.cons (by simp) (by decide)), fun h hs => ht.shallow h hs⟩
    | node y bl ll lr =>
      have hroom : ∀ h, Shallow h ((.node x b (.node y bl ll lr) r, 1) :: s) →
          (BinTree.node y bl ll lr).height +
            ((BinTree.node x b (.node y bl ll lr) r, 2) :: s).length ≤ h := by
        intro h hs
        have h₁ := hs.1
        simp only [BinTree.height_node, List.length_cons] at h₁ ⊢
        omega
      have hpush' := stackPush_spec (s := (.node x b (.node y bl ll lr) r, 2) :: s)
        (n := .node y bl ll lr) (i := 1) (by simp) (by decide)
      refine (hpush'.mono (fun _ => id) hroom).bind ?_
      rintro _ rfl
      refine (ihl (by simp) (by omega)).mono (fun res ht => ?_) fun h hs => ⟨hroom h hs, hs⟩
      have hpend : pending ((.node x b (.node y bl ll lr) r, 1) :: s) =
          pending ((.node y bl ll lr, 1) :: (.node x b (.node y bl ll lr) r, 2) :: s) := by
        rw [pending_one, pending_one, pending_two, pending_three]
        simp
      exact ⟨by rw [hpend, ht.pending_eq], fun hn => by rw [hpend, ht.exhausted hn],
        fun hs => ht.entries ((hs.tail.cons (by simp) (by decide)).cons (by simp) (by decide)),
        fun h hs => ht.shallow h ⟨hroom h hs, hs⟩⟩

theorem nextOSetLoop_spec {fuel : Nat} (hs : Entries s) (hfuel : turns s ≤ fuel) :
    Bounded (nextOSetLoop fuel s) (Taken s) (fun h => Shallow h s) := by
  induction s generalizing fuel with
  | nil =>
    cases fuel with
    | zero => simp [turns] at hfuel
    | succ fuel => exact .of_ok ⟨rfl, fun _ => rfl, id, fun _ => id⟩
  | cons e s ih =>
    obtain ⟨n, i⟩ := e
    obtain ⟨hn, hi⟩ := hs (n, i) (by simp)
    rw [turns_cons] at hfuel
    dsimp only at hn hi hfuel
    cases n with
    | nil => exact absurd rfl hn
    | node x b l r =>
      obtain rfl | rfl | rfl : i = 1 ∨ i = 2 ∨ i = 3 := by omega
      · exact nextOSetLoop_one hn (by omega)
      · obtain ⟨fuel, rfl⟩ : ∃ k, fuel = k + 1 := ⟨fuel - 1, by omega⟩
        exact nextOSetLoop_two fuel
      · obtain ⟨fuel, rfl⟩ : ∃ k, fuel = k + 1 := ⟨fuel - 1, by omega⟩
        cases r with
        | nil =>
          exact (ih hs.tail (by omega)).mono (fun _ ht => ht.skip) fun h hsh => hsh.2
        | node y br rl rr =>
          have hroom : ∀ h, Shallow h ((.node x b l (.node y br rl rr), 3) :: s) →
              (BinTree.node y br rl rr).height + s.length ≤ h := by
            intro h hsh
            have h₁ := hsh.1
            simp only [BinTree.height_node] at h₁ ⊢
            omega
          have hpush := stackPush_spec (s := s) (n := .node y br rl rr) (i := 1) (by simp) (by decide)
          refine (hpush.mono (fun _ => id) hroom).bind ?_
          rintro _ rfl
          refine (nextOSetLoop_one (by simp) ?_).mono (fun res ht => ?_) fun h hsh =>
            ⟨hroom h hsh, hsh.2⟩
          · simp only [BinTree.height_node] at hfuel ⊢
            omega
          · have hp : Pushed (.node y br rl rr) s ((.node y br rl rr, 1) :: s) :=
              ⟨pending_one, fun hs => hs.cons (by simp) (by decide), fun h h₁ h₂ => ⟨h₁, h₂⟩⟩
            exact hp.taken ht pending_three (by simp)

/-- **One call of `VG_(OSetGen_Next)`.** -/
theorem nextOSet_spec (hs : Entries s) : Bounded (nextOSet s) (Taken s) (fun h => Shallow h s) :=
  nextOSetLoop_spec hs (Nat.le_refl _)

/-! ## A whole iteration -/

/-- Calling the iterator until it has nothing more to give yields what is pending. -/
theorem drain_spec {next : Stack α → Result (Option α × Stack α)}
    (hnext : ∀ {s}, Entries s → Bounded (next s) (Taken s) (fun h => Shallow h s))
    (hs : Entries s) {calls : Nat} (hcalls : (pending s).length < calls) :
    Bounded (drain next calls s) (· = pending s) (fun h => Shallow h s) := by
  induction calls generalizing s with
  | zero => omega
  | succ calls ih =>
    refine (hnext hs).bind ?_
    rintro ⟨x, s'⟩ ht
    cases x with
    | none => exact .of_ok (ht.exhausted rfl).symm
    | some x =>
      have hpend : pending s = x :: pending s' := ht.pending_eq
      have hrest := (ih (ht.entries hs) (by rw [hpend] at hcalls; simpa using hcalls)).mono
        (fun _ => id) ht.shallow
      refine hrest.bind ?_
      rintro _ rfl
      exact .of_ok hpend.symm

/-- What lies at or above the cut. -/
def fromCut (cut : α → Ordering) (xs : List α) : List α := xs.filter fun x => cut x != .gt

/-- The search that starts an iteration in the middle leaves what lies at or above the cut. -/
theorem seek_spec {cut : α → Ordering} {t : BinTree α} (hcut : Cuts cut t.toList) :
    Bounded (seek cut t s) (fun s' => pending s' = fromCut cut t.toList ++ pending s ∧
      (Entries s → Entries s') ∧ ∀ h, t.height + s.length ≤ h → Shallow h s → Shallow h s')
      (fun h => t.height + s.length ≤ h) := by
  induction t generalizing s with
  | nil => exact .of_ok ⟨by simp [fromCut], id, fun _ _ => id⟩
  | node x b l r ihl ihr =>
    rw [BinTree.toList_node] at hcut ⊢
    have hall : ∀ {ys : List α}, (∀ y ∈ ys, cut y = .lt) → fromCut cut ys = ys := fun h =>
      List.filter_eq_self.mpr fun y hy => by simp [h y hy]
    have hnone : ∀ {ys : List α}, (∀ y ∈ ys, cut y = .gt) → fromCut cut ys = [] := fun h =>
      List.filter_eq_nil_iff.mpr fun y hy => by simp [h y hy]
    have hsplit : fromCut cut (l.toList ++ x :: r.toList) =
        fromCut cut l.toList ++ fromCut cut (x :: r.toList) := List.filter_append ..
    unfold seek
    cases hx : cut x with
    | eq =>
      refine (stackPush_spec (by simp) (by decide)).mono ?_ fun _ => id
      rintro _ rfl
      refine ⟨?_, fun hs => hs.cons (by simp) (by decide), fun h h₁ h₂ => ⟨h₁, h₂⟩⟩
      have hright : fromCut cut (x :: r.toList) = x :: r.toList := by
        simp [fromCut, hx]
        intro y hy
        simp [hcut.right_lt (by simp [hx]) y hy]
      rw [hsplit, hnone (hcut.left_gt (by simp [hx])), hright, pending_two, pending_three]
      rfl
    | lt =>
      have hroom : ∀ h, (BinTree.node x b l r).height + s.length ≤ h →
          l.height + ((BinTree.node x b l r, 2) :: s).length ≤ h := by
        intro h h₁
        simp only [BinTree.height_node, List.length_cons] at h₁ ⊢
        omega
      refine (stackPush_spec (by simp) (by decide)).bind ?_
      rintro _ rfl
      refine (ihl hcut.left).mono ?_ hroom
      rintro s' ⟨hp, he, hsh⟩
      refine ⟨?_, fun hs => he (hs.cons (by simp) (by decide)), fun h h₁ h₂ => hsh h (hroom h h₁) ⟨h₁, h₂⟩⟩
      have hright : fromCut cut (x :: r.toList) = x :: r.toList := by
        refine hall fun y hy => ?_
        rcases List.mem_cons.mp hy with rfl | hy
        · exact hx
        · exact hcut.right_lt (by simp [hx]) y hy
      rw [hp, hsplit, hright, pending_two, pending_three]
      simp
    | gt =>
      have hroom : ∀ h, (BinTree.node x b l r).height + s.length ≤ h → r.height + s.length ≤ h := by
        intro h h₁
        simp only [BinTree.height_node] at h₁
        omega
      refine (ihr hcut.right).mono ?_ hroom
      rintro s' ⟨hp, he, hsh⟩
      refine ⟨?_, he, fun h h₁ h₂ => hsh h (hroom h h₁) h₂⟩
      have hleft : fromCut cut (x :: r.toList) = fromCut cut r.toList := by
        simp [fromCut, hx]
      rw [hp, hsplit, hnone (hcut.left_gt (by simp [hx])), hleft, List.nil_append]

section Whole

variable {next : Stack α → Result (Option α × Stack α)}
  (hnext : ∀ {s}, Entries s → Bounded (next s) (Taken s) (fun h => Shallow h s)) {t : BinTree α}
  {calls : Nat}

include hnext

/-- An iteration over the whole tree. -/
theorem iterate_spec (hcalls : t.toList.length < calls) :
    Bounded (startIter t >>= drain next calls) (· = t.toList) (fun h => t.height ≤ h) := by
  cases t with
  | nil =>
    have hdrain : Bounded (drain next calls []) (· = pending []) (fun h => Shallow h ([] : Stack α)) :=
      drain_spec hnext (by simp [Entries]) hcalls
    exact hdrain.mono (fun _ => id) fun _ _ => trivial
  | node x b l r =>
    have hpush := stackPush_spec (s := []) (n := .node x b l r) (i := 1) (by simp) (by decide)
    refine hpush.bind ?_
    rintro _ rfl
    have hpend : pending [(BinTree.node x b l r, 1)] = (BinTree.node x b l r).toList := by
      rw [pending_one]
      exact List.append_nil _
    have hdrain := drain_spec hnext (s := [(.node x b l r, 1)])
      (Entries.cons (by simp [Entries]) (by simp) (by decide)) (hpend ▸ hcalls)
    exact hdrain.mono (fun _ h => h.trans hpend) fun h hh => ⟨hh, trivial⟩

/-- An iteration from a cut on. -/
theorem iterateFrom_spec {cut : α → Ordering} (hcut : Cuts cut t.toList)
    (hcalls : t.toList.length < calls) :
    Bounded (seek cut t [] >>= drain next calls) (· = fromCut cut t.toList) (fun h => t.height ≤ h) := by
  refine (seek_spec (s := []) hcut).bind ?_
  rintro s' ⟨hp, he, hsh⟩
  have hpend : pending s' = fromCut cut t.toList := by simpa [pending] using hp
  have hlen : (pending s').length < calls := by
    rw [hpend]
    exact Nat.lt_of_le_of_lt (List.length_filter_le _ _) hcalls
  have hdrain := drain_spec hnext (he (by simp [Entries])) hlen
  exact hdrain.mono (fun _ h => h.trans hpend) fun h hh => hsh h hh trivial

end Whole

end Avl

end Valgrind
