import Valgrind.Coregrind.HashNodes

/-!
# Runs of a hash table

Any sequence of operations on one table, from `VG_(HT_construct)` on. Beside the table a run keeps
the nodes that have been added and not yet removed, and a log of what each operation answered.

`hashTable_refines` says that no assertion fails, that the chains hold these nodes and nothing else,
and that every answer is right. The counters have 32 bits: `n_elements` is the number of nodes
modulo `2 ^ 32`, and `VG_(HT_to_array)` is right as long as the number of nodes is smaller.
-/

namespace Valgrind.Coregrind

/-- What is done with a table. -/
inductive HtOp where
  /-- `VG_(HT_add_node)` for a node that the caller has set up at an address. -/
  | add (a : Nat) (node : VgHashNode)
  | remove (key : Nat)
  | lookup (key : Nat)
  | toArray
  /-- `VG_(HT_ResetIter)`, and then `VG_(HT_Next)` until it returns NULL. -/
  | iterate
  deriving DecidableEq, Repr

/-- What comes back. -/
inductive HtAnswer where
  | done
  | node (a : Option Nat)
  | nodes (l : List (Option Nat))
  deriving DecidableEq, Repr

/-- One operation. -/
def HtState.step (fuel : Nat) (s : HtState) : HtOp → Result (HtState × HtAnswer)
  | .add a node => do
    let s ← HtState.addNode fuel { s with heap := Function.update s.heap a (some node) } a
    return (s, .done)
  | .remove key => do
    let (r, s) ← s.remove fuel key
    return (s, .node r)
  | .lookup key => do
    let r ← s.lookup fuel key
    return (s, .node r)
  | .toArray => do
    let arr ← s.toArray fuel
    return (s, .nodes arr)
  | .iterate => do
    let (l, s) ← HtState.collect fuel s.resetIter
    return (s, .nodes (l.map some))

/-- The nodes that have been added and not yet removed. -/
def nodesAfter (nodes : Nodes) : HtOp → HtAnswer → Nodes
  | .add a node, _ => (a, node.key) ::ₘ nodes
  | .remove key, .node (some a) => nodes.erase (a, key)
  | _, _ => nodes

/-- The answer is right for a table with these nodes. -/
def RightAnswer (nodes : Nodes) : HtOp → HtAnswer → Prop
  | .add _ _, .done => True
  | .remove key, .node r => Found nodes key r
  | .lookup key, .node r => Found nodes key r
  | .toArray, .nodes l => ∃ addrs : List Nat, l = addrs.map some ∧ (addrs : Multiset Nat) = nodes.map Prod.fst
  | .iterate, .nodes l => ∃ addrs : List Nat, l = addrs.map some ∧ (addrs : Multiset Nat) = nodes.map Prod.fst
  | _, _ => False

/-- A run: the table, its nodes, and the operations with the nodes before them and their answers. -/
structure HtRun where
  state : HtState
  nodes : Nodes
  log : List (Nodes × HtOp × HtAnswer)

def htStart : HtRun := ⟨htNew, 0, []⟩

def HtRun.step (fuel : Nat) (r : HtRun) (op : HtOp) : Result HtRun := do
  let (s, answer) ← r.state.step fuel op
  return ⟨s, nodesAfter r.nodes op answer, r.log ++ [(r.nodes, op, answer)]⟩

/-- A node is added only while it is not in the table. -/
def HtRun.Fresh (r : HtRun) : HtOp → Prop
  | .add a _ => a ∉ r.nodes.map Prod.fst
  | _ => True

/-- The same, and an array is asked for only while the number of nodes fits 32 bits. -/
def HtRun.Fits (r : HtRun) (op : HtOp) : Prop := r.Fresh op ∧ (op = .toArray → r.nodes.card < 2 ^ 32)

instance (r : HtRun) : (op : HtOp) → Decidable (r.Fresh op)
  | .add a _ => inferInstanceAs (Decidable (a ∉ r.nodes.map Prod.fst))
  | .remove _ => isTrue trivial
  | .lookup _ => isTrue trivial
  | .toArray => isTrue trivial
  | .iterate => isTrue trivial

instance (r : HtRun) (op : HtOp) : Decidable (r.Fits op) :=
  inferInstanceAs (Decidable (r.Fresh op ∧ (op = .toArray → r.nodes.card < 2 ^ 32)))

/-- **The claim**: the table holds the nodes, and every answer has been right. -/
structure HtRight (r : HtRun) : Prop where
  holds : HtHolds r.state r.nodes
  answers : ∀ e ∈ r.log, RightAnswer e.1 e.2.1 e.2.2

variable {r : HtRun} {op : HtOp} {fuel : Nat}

theorem htRight_start : HtRight htStart := ⟨htHolds_new, fun _ he => absurd he List.not_mem_nil⟩

/-- A write to memory that belongs to no node of the table. -/
theorem HtHolds.write {s : HtState} {nodes : Nodes} {a : Nat} (h : HtHolds s nodes) (ha : a ∉ nodes.map Prod.fst)
    (x : Option VgHashNode) : HtHolds { s with heap := Function.update s.heap a x } nodes := by
  obtain ⟨table, hP, hS⟩ := h.chains
  refine ⟨⟨table, ⟨hP.nChains, hP.nElements, fun i => (hP.path i).update_of_not_mem fun hmem => ?_⟩, hS⟩, h.nodup, h.count⟩
  obtain ⟨y, hy, rfl⟩ := List.mem_map.mp hmem
  exact ha (Multiset.mem_map_of_mem _ ((mem_chain hS).mp hy).1)

/-- **One operation.** -/
theorem HtRight.step (h : HtRight r) (hop : r.Fits op) (hfuel : r.nodes.card + 1 < fuel) :
    ∃ r', r.step fuel op = .ok r' ∧ HtRight r' ∧ r'.nodes.card ≤ r.nodes.card + 1 := by
  have hfuel' : r.nodes.card < fuel := Nat.lt_of_succ_lt hfuel
  have hlog : ∀ {answer}, RightAnswer r.nodes op answer →
      ∀ e ∈ r.log ++ [(r.nodes, op, answer)], RightAnswer e.1 e.2.1 e.2.2 := by
    intro answer hright e he
    rcases List.mem_append.mp he with he | he
    · exact h.answers e he
    · rw [List.mem_singleton.mp he]
      exact hright
  rw [HtRun.step]
  cases op with
  | add a node =>
    obtain ⟨s, hrun, hholds⟩ := addNode_spec (h.holds.write hop.1 (some node)) (Function.update_self ..) hop.1 hfuel
    rw [HtState.step, hrun]
    exact ⟨_, rfl, ⟨hholds, hlog trivial⟩, (Multiset.card_cons _ _).le⟩
  | remove key =>
    obtain ⟨found, s, hrun, hfound, hholds⟩ := remove_spec h.holds key hfuel'
    rw [HtState.step, hrun]
    refine ⟨_, rfl, ⟨?_, hlog hfound⟩, ?_⟩
    · cases found <;> exact hholds
    · cases found with
      | none => exact Nat.le_succ _
      | some a => exact (Multiset.card_le_card (Multiset.erase_le _ _)).trans (Nat.le_succ _)
  | lookup key =>
    obtain ⟨found, hrun, hfound⟩ := lookup_spec h.holds key hfuel'
    rw [HtState.step, hrun]
    exact ⟨_, rfl, ⟨h.holds, hlog hfound⟩, Nat.le_succ _⟩
  | toArray =>
    obtain ⟨l, hrun, hl⟩ := toArray_spec h.holds hfuel' (hop.2 rfl)
    rw [HtState.step, hrun]
    exact ⟨_, rfl, ⟨h.holds, hlog ⟨l, rfl, hl⟩⟩, Nat.le_succ _⟩
  | iterate =>
    obtain ⟨l, s, hrun, hl, hholds⟩ := iterate_spec h.holds hfuel'
    rw [HtState.step, hrun]
    exact ⟨_, rfl, ⟨hholds, hlog ⟨l, rfl, hl⟩⟩, Nat.le_succ _⟩

theorem HtRight.run {ops : List HtOp} (h : HtRight r) (hops : runMeets (HtRun.step fuel) HtRun.Fits r ops)
    (hfuel : r.nodes.card + ops.length < fuel) :
    ∃ r', runSteps (HtRun.step fuel) r ops = .ok r' ∧ HtRight r' := by
  induction ops generalizing r with
  | nil => exact ⟨r, rfl, h⟩
  | cons op ops ih =>
    rw [List.length_cons] at hfuel
    obtain ⟨r₁, hrun₁, h₁, hcard⟩ := h.step hops.1 (show r.nodes.card + 1 < fuel by omega)
    obtain ⟨r', hrun, h'⟩ := ih h₁ (hops.2 r₁ hrun₁) (by omega)
    exact ⟨r', runSteps_cons.mpr ⟨r₁, hrun₁, hrun⟩, h'⟩

/-- **A hash table refines the multiset of its nodes.** -/
theorem hashTable_refines {ops : List HtOp} (hops : runMeets (HtRun.step fuel) HtRun.Fits htStart ops)
    (hfuel : ops.length < fuel) : ∃ r, runSteps (HtRun.step fuel) htStart ops = .ok r ∧ HtRight r :=
  htRight_start.run hops (by rwa [show htStart.nodes.card = 0 from rfl, Nat.zero_add])

/-- Two nodes under one key: a search, an iteration, and a removal. -/
theorem hashTable_refines_sample : ∃ r, runSteps (HtRun.step 6) htStart
    [.add 4096 ⟨none, 770⟩, .add 4112 ⟨none, 1⟩, .lookup 1, .iterate, .remove 770] = .ok r ∧ HtRight r :=
  hashTable_refines (by decide +kernel) (by decide)

/-! ## As many nodes as the counters can count -/

/-- Nodes of sixteen bytes side by side, all with the key 0. -/
def addMany (k n : Nat) : List HtOp := (List.range' k n).map fun i => .add (16 * (i + 1)) ⟨none, 0⟩

theorem addMany_run {k n : Nat} (h : HtRight r) (hbelow : ∀ a ∈ r.nodes.map Prod.fst, a < 16 * (k + 1))
    (hfuel : r.nodes.card + n < fuel) :
    runMeets (HtRun.step fuel) HtRun.Fresh r (addMany k n) ∧
      ∃ r', runSteps (HtRun.step fuel) r (addMany k n) = .ok r' ∧ HtRight r' ∧ r'.nodes.card = r.nodes.card + n := by
  induction n generalizing r k with
  | zero => exact ⟨trivial, r, rfl, h, rfl⟩
  | succ n ih =>
    have hfresh : 16 * (k + 1) ∉ r.nodes.map Prod.fst := fun hmem => (hbelow _ hmem).false
    have hstep : ∃ r₁, r.step fuel (.add (16 * (k + 1)) ⟨none, 0⟩) = .ok r₁ ∧ HtRight r₁ ∧
        r₁.nodes = (16 * (k + 1), 0) ::ₘ r.nodes := by
      have hfits : r.Fits (.add (16 * (k + 1)) ⟨none, 0⟩) := ⟨hfresh, fun h => nomatch h⟩
      obtain ⟨r₁, hrun₁, h₁, -⟩ := h.step hfits (show r.nodes.card + 1 < fuel by omega)
      refine ⟨r₁, hrun₁, h₁, ?_⟩
      obtain ⟨⟨s, answer⟩, hs, hr₁⟩ := bind_eq_ok.mp hrun₁
      obtain rfl := Except.ok.inj hr₁
      rfl
    obtain ⟨r₁, hrun₁, h₁, hnodes⟩ := hstep
    have hbelow₁ : ∀ a ∈ r₁.nodes.map Prod.fst, a < 16 * (k + 1 + 1) := by
      intro a ha
      rw [hnodes, Multiset.map_cons, Multiset.mem_cons] at ha
      rcases ha with rfl | ha
      · dsimp only
        omega
      · exact (hbelow a ha).trans (by omega)
    have hcard : r₁.nodes.card = r.nodes.card + 1 := by rw [hnodes, Multiset.card_cons]
    obtain ⟨hmeets, r', hrun, h', hcard'⟩ := ih h₁ hbelow₁ (by omega)
    refine ⟨⟨hfresh, fun r₂ hr₂ => ?_⟩, r', runSteps_cons.mpr ⟨r₁, hrun₁, hrun⟩, h', by omega⟩
    obtain rfl : r₁ = r₂ := Except.ok.inj (hrun₁.symm.trans hr₂)
    exact hmeets

/-- When `2 ^ 32` nodes have been added, the table counts none, and the array of its nodes is empty. -/
theorem hashTable_count_wraps : runMeets (HtRun.step (2 ^ 32 + 1)) HtRun.Fresh htStart (addMany 0 (2 ^ 32)) ∧
    ∃ r, runSteps (HtRun.step (2 ^ 32 + 1)) htStart (addMany 0 (2 ^ 32)) = .ok r ∧ r.nodes.card = 2 ^ 32 ∧
      r.state.nElements = 0 ∧ r.state.toArray (2 ^ 32 + 1) = .ok [] := by
  have hfuel : htStart.nodes.card + 2 ^ 32 < 2 ^ 32 + 1 := by
    rw [show htStart.nodes.card = 0 from rfl]
    omega
  obtain ⟨hmeets, r, hrun, h, hcard⟩ :=
    addMany_run (k := 0) htRight_start (fun a ha => absurd ha (Multiset.notMem_zero a)) hfuel
  have hcard : r.nodes.card = 2 ^ 32 := hcard.trans (Nat.zero_add _)
  obtain ⟨table, hP, hS⟩ := h.holds.chains
  refine ⟨hmeets, r, hrun, hcard, by rw [h.holds.count, hcard, Nat.mod_self], ?_⟩
  have hlen : table.addrs.length = 2 ^ 32 := (length_addrs hS).trans hcard
  have hne : table.addrs ≠ [] := fun hnil => by rw [hnil] at hlen; exact absurd hlen (by decide)
  rw [HtState.toArray, forAll_eq hP hS (by rw [hcard]; exact Nat.lt_succ_self _), countNodes, if_neg hne, hlen,
    Nat.zero_add, Nat.mod_self]
  rfl

end Valgrind.Coregrind
