import Valgrind.Coregrind.HashTable
import Valgrind.Lib.SinglyLinked

/-!
# The nodes of a hash table

The nodes of `m_hashtable.c` are linked through a field of their own, and are relinked in place
when a table is resized. Here they lie at addresses; a chain is a pointer to its first node, and
the iterator is a pointer to a node and the number of the next chain. Each operation is compared
with the one on lists of addresses and keys (`HashTable`).

The loops along a chain run on fuel. The name of a table and the debug log are left out.
-/

namespace Valgrind.Coregrind

open SinglyLinked

/-! ## The code -/

/-- `VgHashNode`. -/
structure VgHashNode where
  next : Option Nat
  key : Nat
  deriving DecidableEq, Repr

/-- The nodes in memory. -/
abbrev NodeHeap := Nat → Option VgHashNode

/-- A table and the nodes in memory. -/
structure HtState where
  heap : NodeHeap
  nChains : Nat
  nElements : Nat
  iterNode : Option Nat
  iterChain : Nat
  chains : Nat → Option Nat
  iterOK : Bool

/-- `VG_(HT_construct)`. -/
def htNew : HtState where
  heap := fun _ => none
  nChains := 769
  nElements := 0
  iterNode := none
  iterChain := 0
  chains := fun _ => none
  iterOK := true

/-- The node that a pointer points to. -/
def nodeAt (heap : NodeHeap) (a : Nat) : Result VgHashNode :=
  match heap a with
  | some node => .ok node
  | none => .error .fault

/-- The inner loop of `resize`: the nodes of a chain are put at the heads of their new chains. -/
def moveChain (nChains : Nat) : Nat → NodeHeap × (Nat → Option Nat) → Option Nat →
    Result (NodeHeap × (Nat → Option Nat))
  | 0, _, _ => .error .diverge
  | _ + 1, m, none => .ok m
  | fuel + 1, (heap, chains), some a => do
    let node ← nodeAt heap a
    let chain := node.key % nChains
    moveChain nChains fuel
      (Function.update heap a (some { node with next := chains chain }), Function.update chains chain (some a)) node.next

/-- `resize`. -/
def HtState.resize (fuel : Nat) (s : HtState) : Result HtState :=
  let oldChains := s.nChains
  if oldChains = 402653189 then .ok s
  else do
    assertThat (769 ≤ oldChains ∧ oldChains < 402653189)
    let newChains := nextPrime (oldChains + 1)
    assertThat (oldChains < newChains)
    assertThat (769 < newChains ∧ newChains ≤ 402653189)
    let (heap, chains) ← (List.range oldChains).foldlM (fun m i => moveChain newChains fuel m (s.chains i))
      (s.heap, fun _ => none)
    return { s with heap, nChains := newChains, chains }

/-- `VG_(HT_add_node)`. -/
def HtState.addNode (fuel : Nat) (s : HtState) (a : Nat) : Result HtState := do
  let node ← nodeAt s.heap a
  let chain := node.key % s.nChains
  let s := { s with
    heap := Function.update s.heap a (some { node with next := s.chains chain })
    chains := Function.update s.chains chain (some a)
    nElements := (s.nElements + 1) % 2 ^ 32 }
  let s ← if s.nElements > s.nChains then s.resize fuel else .ok s
  return { s with iterOK := false }

/-- The loop of `VG_(HT_lookup)`. -/
def lookupLoop (heap : NodeHeap) (key : Nat) : Nat → Option Nat → Result (Option Nat)
  | 0, _ => .error .diverge
  | _ + 1, none => .ok none
  | fuel + 1, some a => do
    let curr ← nodeAt heap a
    if key = curr.key then return some a
    lookupLoop heap key fuel curr.next

/-- `VG_(HT_lookup)`. -/
def HtState.lookup (fuel : Nat) (s : HtState) (key : Nat) : Result (Option Nat) :=
  lookupLoop s.heap key fuel (s.chains (key % s.nChains))

/-- `*prev_next_ptr = p;`: the pointer to the first node of a chain, or the link of a node. -/
def HtState.setPrevNext (s : HtState) (chain : Nat) (prev p : Option Nat) : Result HtState :=
  match prev with
  | none => .ok { s with chains := Function.update s.chains chain p }
  | some b => do
    let node ← nodeAt s.heap b
    return { s with heap := Function.update s.heap b (some { node with next := p }) }

/-- The loop of `VG_(HT_remove)`. -/
def HtState.removeLoop (s : HtState) (chain key : Nat) : Nat → Option Nat → Option Nat → Result (Option Nat × HtState)
  | 0, _, _ => .error .diverge
  | _ + 1, _, none => .ok (none, s)
  | fuel + 1, prev, some a => do
    let curr ← nodeAt s.heap a
    if key = curr.key then
      let s ← s.setPrevNext chain prev curr.next
      return (some a, { s with nElements := (s.nElements + 2 ^ 32 - 1) % 2 ^ 32 })
    s.removeLoop chain key fuel (some a) curr.next

/-- `VG_(HT_remove)`. -/
def HtState.remove (fuel : Nat) (s : HtState) (key : Nat) : Result (Option Nat × HtState) :=
  let chain := key % s.nChains
  let s := { s with iterOK := false }
  s.removeLoop chain key fuel none (s.chains chain)

/-- `for (node = table->chains[i]; node != NULL; node = node->next)`. -/
def forNodes {σ : Type} (heap : NodeHeap) (body : σ → Nat → Result σ) : Nat → σ → Option Nat → Result σ
  | 0, _, _ => .error .diverge
  | _ + 1, x, none => .ok x
  | fuel + 1, x, some a => do
    let x ← body x a
    let node ← nodeAt heap a
    forNodes heap body fuel x node.next

/-- Both loops of `VG_(HT_to_array)`: all chains, and all nodes of each. -/
def HtState.forAll {σ : Type} (fuel : Nat) (s : HtState) (body : σ → Nat → Result σ) (x : σ) : Result σ :=
  (List.range s.nChains).foldlM (fun x i => forNodes s.heap body fuel x (s.chains i)) x

/-- `VG_(HT_to_array)`; the array is the list of its `n_elems` entries, which are not set at first. -/
def HtState.toArray (fuel : Nat) (s : HtState) : Result (List (Option Nat)) := do
  let nElems ← s.forAll fuel (fun n _ => .ok ((n + 1) % 2 ^ 32)) 0
  if nElems = 0 then return []
  let (arr, j) ← s.forAll fuel
    (fun (arr, j) node => if j < arr.length then .ok (arr.set j (some node), (j + 1) % 2 ^ 32) else .error .fault)
    (List.replicate nElems none, 0)
  assertThat (j = nElems)
  return arr

/-- `VG_(HT_ResetIter)`. -/
def HtState.resetIter (s : HtState) : HtState := { s with iterNode := none, iterChain := 0, iterOK := true }

/-- `table->iterNode && table->iterNode->next`, and if so this next node. -/
def HtState.iterNext (s : HtState) : Result (Option Nat) :=
  match s.iterNode with
  | none => .ok none
  | some a => do return (← nodeAt s.heap a).next

/-- `VG_(HT_Next)`. -/
def HtState.htNext (s : HtState) : Result (Option Nat × HtState) := do
  assertThat (s.iterOK = true)
  match ← s.iterNext with
  | some b => return (some b, { s with iterNode := some b })
  | none =>
    match (List.range' s.iterChain (s.nChains - s.iterChain)).find? fun i => (s.chains i).isSome with
    | some i => return (s.chains i, { s with iterNode := s.chains i, iterChain := i + 1 })
    | none => return (none, s)

/-- `VG_(HT_Next)` until it returns NULL. -/
def HtState.collect : Nat → HtState → Result (List Nat × HtState)
  | 0, _ => .error .diverge
  | fuel + 1, s => do
    let (node, s) ← s.htNext
    match node with
    | none => return ([], s)
    | some a =>
      let (rest, s) ← s.collect fuel
      return (a :: rest, s)

/-! ## What the pointers stand for -/

/-- The links of the nodes. -/
def nodeLinks : Links VgHashNode Nat where
  next := VgHashNode.next
  val := VgHashNode.key
  setNext := fun node a => { node with next := a }
  next_setNext := fun _ _ => rfl
  val_setNext := fun _ _ => rfl

/-- The nodes as addresses with keys. -/
abbrev Nodes := Multiset (Nat × Nat)

/-- The pointers of a table link these chains. -/
structure Points (s : HtState) (table : HashTable (Nat × Nat)) : Prop where
  nChains : table.nChains = s.nChains
  nElements : table.nElements = s.nElements
  path : ∀ i, Path nodeLinks s.heap (s.chains i) (table.chains i)

variable {heap : NodeHeap} {s : HtState} {table : HashTable (Nat × Nat)} {nodes : Nodes} {chains : Nat → Option Nat}
  {L : Nat → List (Nat × Nat)} {p : Option Nat} {l : List (Nat × Nat)} {fuel n : Nat}

theorem nodeAt_of {a : Nat} {node : VgHashNode} (h : heap a = some node) : nodeAt heap a = .ok node := by
  rw [nodeAt, h]

/-! ### Resizing -/

/-- What is in a chain after nodes have been put in. -/
theorem mem_foldl_prepend {x : Nat × Nat} {j : Nat} (h : x ∈ l.foldl (prepend Prod.snd n) L j) : x ∈ l ∨ x ∈ L j := by
  have hmem : x ∈ (l.foldl (prepend Prod.snd n) L j : Multiset (Nat × Nat)) := Multiset.mem_coe.mpr h
  rw [coe_foldl_prepend, Multiset.mem_add, Multiset.mem_filter] at hmem
  exact hmem.imp (fun h => h.1) id

/-- **One chain** is dealt out to the new chains. -/
theorem moveChain_spec (hp : Path nodeLinks heap p l) (hL : ∀ j, Path nodeLinks heap (chains j) (L j))
    (hnodup : (l.map Prod.fst).Nodup) (hdisj : ∀ j, (l.map Prod.fst).Disjoint ((L j).map Prod.fst))
    (hfuel : l.length < fuel) :
    ∃ heap' chains', moveChain n fuel (heap, chains) p = .ok (heap', chains') ∧
      (∀ j, Path nodeLinks heap' (chains' j) (l.foldl (prepend Prod.snd n) L j)) ∧
      ∀ b, b ∉ l.map Prod.fst → heap' b = heap b := by
  induction l generalizing fuel heap chains p L with
  | nil =>
    obtain ⟨fuel, rfl⟩ := Nat.exists_eq_succ_of_ne_zero (Nat.ne_zero_of_lt hfuel)
    obtain rfl : p = none := hp
    exact ⟨heap, chains, rfl, hL, fun _ _ => rfl⟩
  | cons x l ih =>
    obtain ⟨a, k⟩ := x
    obtain ⟨fuel, rfl⟩ := Nat.exists_eq_succ_of_ne_zero (Nat.ne_zero_of_lt hfuel)
    obtain ⟨rfl, node, hnode, rfl, hrest⟩ := hp
    obtain ⟨ha, hnodup⟩ := List.nodup_cons.mp hnodup
    have haL : ∀ j, a ∉ (L j).map Prod.fst := fun j hmem => hdisj j List.mem_cons_self hmem
    rw [moveChain, nodeAt_of hnode, ok_bind]
    simp only
    have hpush := (hL (node.key % n)).push (c := node) (haL _)
    have hL' : ∀ j, Path nodeLinks
        (Function.update heap a (some { node with next := chains (node.key % n) }))
        (Function.update chains (node.key % n) (some a) j) (prepend Prod.snd n L (a, node.key) j) := by
      intro j
      by_cases hj : node.key % n = j
      · subst hj
        rw [Function.update_self, @prepend_self _ Prod.snd (a, node.key) n L]
        exact hpush
      · rw [Function.update_of_ne (Ne.symm hj), @prepend_of_ne _ Prod.snd (a, node.key) n j L hj]
        exact (hL j).update_of_not_mem (haL j)
    have hdisj' : ∀ j, (l.map Prod.fst).Disjoint ((prepend Prod.snd n L (a, node.key) j).map Prod.fst) := by
      intro j b hb hb'
      obtain ⟨y, hy, rfl⟩ := List.mem_map.mp hb'
      rcases mem_foldl_prepend (l := [(a, node.key)]) hy with hy | hy
      · rw [List.mem_singleton.mp hy] at hb
        exact ha hb
      · exact hdisj j (List.mem_cons_of_mem _ hb) (List.mem_map_of_mem hy)
    obtain ⟨heap', chains', hrun, hpaths, hframe⟩ :=
      ih (hrest.update_of_not_mem ha) hL' hnodup hdisj' (Nat.lt_of_succ_lt_succ hfuel)
    refine ⟨heap', chains', hrun, hpaths, fun b hb => ?_⟩
    rw [hframe b fun hbl => hb (List.mem_cons_of_mem _ hbl),
      Function.update_of_ne fun he : b = a => hb (he ▸ List.mem_cons_self)]

/-- **All chains** are dealt out to the new chains. -/
theorem moveChains_spec {old : Nat → Option Nat} {C : Nat → List (Nat × Nat)} {is : List Nat}
    (hold : ∀ i ∈ is, Path nodeLinks heap (old i) (C i)) (hL : ∀ j, Path nodeLinks heap (chains j) (L j))
    (hnodup : ((is.flatMap C).map Prod.fst).Nodup)
    (hdisj : ∀ j, ((is.flatMap C).map Prod.fst).Disjoint ((L j).map Prod.fst)) (hfuel : ∀ i, (C i).length < fuel) :
    ∃ heap' chains', is.foldlM (fun m i => moveChain n fuel m (old i)) (heap, chains) = .ok (heap', chains') ∧
      (∀ j, Path nodeLinks heap' (chains' j) (is.foldl (fun L i => (C i).foldl (prepend Prod.snd n) L) L j)) ∧
      ∀ b, b ∉ (is.flatMap C).map Prod.fst → heap' b = heap b := by
  induction is generalizing heap chains L with
  | nil => exact ⟨heap, chains, rfl, hL, fun _ _ => rfl⟩
  | cons i is ih =>
    rw [List.flatMap_cons, List.map_append] at hnodup hdisj
    obtain ⟨hi, his, hne⟩ := List.nodup_append.mp hnodup
    obtain ⟨heap₁, chains₁, hrun₁, hpaths₁, hframe₁⟩ := moveChain_spec (n := n) (hold i List.mem_cons_self) hL hi
      (fun j b hb => hdisj j (List.mem_append_left _ hb)) (hfuel i)
    have hold₁ : ∀ k ∈ is, Path nodeLinks heap₁ (old k) (C k) := by
      intro k hk
      refine (hold k (List.mem_cons_of_mem _ hk)).congr fun b hb => hframe₁ b fun hb' => hne b hb' b ?_ rfl
      obtain ⟨y, hy, rfl⟩ := List.mem_map.mp hb
      exact List.mem_map_of_mem (List.mem_flatMap.mpr ⟨k, hk, hy⟩)
    have hdisj₁ : ∀ j, ((is.flatMap C).map Prod.fst).Disjoint
        (((C i).foldl (prepend Prod.snd n) L j).map Prod.fst) := by
      intro j b hb hb'
      obtain ⟨y, hy, rfl⟩ := List.mem_map.mp hb'
      rcases mem_foldl_prepend hy with hy | hy
      · exact hne _ (List.mem_map_of_mem hy) _ hb rfl
      · exact hdisj j (List.mem_append_right _ hb) (List.mem_map_of_mem hy)
    obtain ⟨heap', chains', hrun, hpaths, hframe⟩ := ih hold₁ hpaths₁ his hdisj₁
    refine ⟨heap', chains', by rw [List.foldlM_cons, hrun₁, ok_bind, hrun], hpaths, fun b hb => ?_⟩
    rw [List.flatMap_cons, List.map_append, List.mem_append, not_or] at hb
    rw [hframe b hb.2, hframe₁ b hb.1]

/-! ### The nodes of a table -/

/-- The table has these nodes, each once and in the chain of its key. -/
structure HtHolds (s : HtState) (nodes : Nodes) : Prop where
  chains : ∃ table, Points s table ∧ Stores Prod.snd table nodes
  nodup : (nodes.map Prod.fst).Nodup
  count : s.nElements = nodes.card % 2 ^ 32

theorem htHolds_new : HtHolds htNew 0 where
  chains := ⟨htConstruct _, ⟨rfl, rfl, fun _ => rfl⟩, stores_htConstruct⟩
  nodup := Multiset.nodup_zero
  count := rfl

theorem mem_chain (hS : Stores Prod.snd table nodes) {x : Nat × Nat} {i : Nat} :
    x ∈ table.chains i ↔ x ∈ nodes ∧ x.2 % table.nChains = i := by
  rw [← Multiset.mem_coe, hS.chain, Multiset.mem_filter]

theorem length_chain (hS : Stores Prod.snd table nodes) (i : Nat) : (table.chains i).length ≤ nodes.card := by
  rw [← Multiset.coe_card, hS.chain]
  exact Multiset.card_le_card (Multiset.filter_le _ _)

theorem nodup_chain (hS : Stores Prod.snd table nodes) (hnodup : (nodes.map Prod.fst).Nodup) (i : Nat) :
    ((table.chains i).map Prod.fst).Nodup := by
  rw [← Multiset.coe_nodup, ← Multiset.map_coe, hS.chain]
  exact Multiset.nodup_of_le (Multiset.map_le_map (Multiset.filter_le _ _)) hnodup

/-- Two chains have no node in common. -/
theorem disjoint_chain (hS : Stores Prod.snd table nodes) (hnodup : (nodes.map Prod.fst).Nodup) {i j : Nat}
    (hij : i ≠ j) : ((table.chains i).map Prod.fst).Disjoint ((table.chains j).map Prod.fst) := by
  intro a hi hj
  obtain ⟨x, hx, rfl⟩ := List.mem_map.mp hi
  obtain ⟨y, hy, hyx⟩ := List.mem_map.mp hj
  obtain ⟨hx, hxi⟩ := (mem_chain hS).mp hx
  obtain ⟨hy, hyj⟩ := (mem_chain hS).mp hy
  obtain rfl : y = x := Multiset.inj_on_of_nodup_map hnodup y hy x hx hyx
  exact hij (hxi.symm.trans hyj)

/-- **Resizing** does to the pointers what it does to the lists. -/
theorem resize_points (hP : Points s table) (hS : Stores Prod.snd table nodes) (hnodup : (nodes.map Prod.fst).Nodup)
    (hfuel : nodes.card < fuel) :
    ∃ s' table', s.resize fuel = .ok s' ∧ Points s' table' ∧ Stores Prod.snd table' nodes ∧
      s'.nElements = s.nElements := by
  obtain ⟨table', hrun, hS'⟩ := resize_spec hS
  rw [resize, hP.nChains] at hrun
  rw [HtState.resize]
  by_cases hlast : s.nChains = 402653189
  · rw [if_pos hlast] at hrun ⊢
    obtain rfl := Except.ok.inj hrun
    exact ⟨s, _, rfl, hP, hS', rfl⟩
  · rw [if_neg hlast] at hrun ⊢
    simp only [bind_eq_ok, assertThat_eq_ok, exists_and_left, exists_const, pure_eq_ok] at hrun
    obtain ⟨hold, hnew, hprime, htable⟩ := hrun
    have hnodup' : (((List.range s.nChains).flatMap table.chains).map Prod.fst).Nodup := by
      rw [← Multiset.coe_nodup, ← Multiset.map_coe, ← hP.nChains, ← HashTable.nodes, hS.coe_nodes]
      exact hnodup
    obtain ⟨heap, chains, hmove, hpaths, -⟩ := moveChains_spec (n := nextPrime (s.nChains + 1)) (L := fun _ => [])
      (fun i _ => hP.path i) (fun j => path_none s.heap) hnodup'
      (fun j => List.disjoint_nil_right _) fun i => (length_chain hS i).trans_lt hfuel
    simp only
    rw [assertThat_of hold, ok_bind, assertThat_of hnew, ok_bind, assertThat_of hprime, ok_bind, hmove, ok_bind]
    refine ⟨_, table', rfl, ?_, hS', rfl⟩
    rw [← htable]
    exact ⟨rfl, hP.nElements, hpaths⟩

/-- **A node is added.** -/
theorem addNode_spec {a : Nat} {node : VgHashNode} (h : HtHolds s nodes) (hnode : s.heap a = some node)
    (ha : a ∉ nodes.map Prod.fst) (hfuel : nodes.card + 1 < fuel) :
    ∃ s', s.addNode fuel a = .ok s' ∧ HtHolds s' ((a, node.key) ::ₘ nodes) := by
  obtain ⟨table, hP, hS⟩ := h.chains
  have hnotin : ∀ i, a ∉ (table.chains i).map Prod.fst := fun i hmem => by
    obtain ⟨x, hx, rfl⟩ := List.mem_map.mp hmem
    exact ha (Multiset.mem_map_of_mem _ ((mem_chain hS).mp hx).1)
  have hnodup : (((a, node.key) ::ₘ nodes).map Prod.fst).Nodup := by
    rw [Multiset.map_cons, Multiset.nodup_cons]
    exact ⟨ha, h.nodup⟩
  have hcount : (s.nElements + 1) % 2 ^ 32 = ((a, node.key) ::ₘ nodes).card % 2 ^ 32 := by
    rw [h.count, Multiset.card_cons, Nat.mod_add_mod]
  have hP' : Points
      { s with
        heap := Function.update s.heap a (some { node with next := s.chains (node.key % s.nChains) })
        chains := Function.update s.chains (node.key % s.nChains) (some a)
        nElements := (s.nElements + 1) % 2 ^ 32 }
      { table with
        chains := prepend Prod.snd table.nChains table.chains (a, node.key)
        nElements := (table.nElements + 1) % 2 ^ 32 } := by
    refine ⟨hP.nChains, by simp only [hP.nElements], fun i => ?_⟩
    simp only
    rw [hP.nChains]
    by_cases hi : node.key % s.nChains = i
    · subst hi
      rw [Function.update_self, @prepend_self _ Prod.snd (a, node.key)]
      exact (hP.path _).push (hnotin _)
    · rw [Function.update_of_ne (Ne.symm hi), @prepend_of_ne _ Prod.snd (a, node.key) _ _ _ hi]
      exact (hP.path i).update_of_not_mem (hnotin i)
  rw [HtState.addNode, nodeAt_of hnode, ok_bind]
  simp only
  split
  · obtain ⟨s', table', hrun, hP'', hS', hn⟩ := resize_points hP' (hS.add (a, node.key)) hnodup
      (by rwa [Multiset.card_cons])
    rw [hrun]
    exact ⟨_, rfl, ⟨table', ⟨hP''.nChains, hP''.nElements, hP''.path⟩, hS'⟩, hnodup, hn.trans hcount⟩
  · exact ⟨_, rfl, ⟨_, ⟨hP'.nChains, hP'.nElements, hP'.path⟩, hS.add (a, node.key)⟩, hnodup, hcount⟩

/-! ### Looking up -/

/-- What a search by key answers. -/
def Found (nodes : Nodes) (key : Nat) : Option Nat → Prop
  | some a => (a, key) ∈ nodes
  | none => ∀ x ∈ nodes, x.2 ≠ key

theorem lookupLoop_spec {key : Nat} (hp : Path nodeLinks heap p l) (hfuel : l.length < fuel) :
    ∃ r, lookupLoop heap key fuel p = .ok r ∧ Found l key r := by
  induction l generalizing fuel p with
  | nil =>
    obtain ⟨fuel, rfl⟩ := Nat.exists_eq_succ_of_ne_zero (Nat.ne_zero_of_lt hfuel)
    obtain rfl : p = none := hp
    exact ⟨none, rfl, fun x hx => absurd hx (List.not_mem_nil)⟩
  | cons x l ih =>
    obtain ⟨a, k⟩ := x
    obtain ⟨fuel, rfl⟩ := Nat.exists_eq_succ_of_ne_zero (Nat.ne_zero_of_lt hfuel)
    obtain ⟨rfl, node, hnode, rfl, hrest⟩ := hp
    rw [lookupLoop, nodeAt_of hnode, ok_bind]
    by_cases hkey : key = node.key
    · subst hkey
      exact ⟨some a, if_pos rfl, List.mem_cons_self⟩
    · obtain ⟨r, hrun, hfound⟩ := ih hrest (Nat.lt_of_succ_lt_succ hfuel)
      refine ⟨r, (if_neg hkey).trans hrun, ?_⟩
      cases r with
      | some b => exact List.mem_cons_of_mem _ hfound
      | none =>
        intro x hx
        rcases List.mem_cons.mp hx with rfl | hx
        · exact Ne.symm hkey
        · exact hfound x hx

/-- A search of the chain of a key is a search of the table. -/
theorem found_of_chain {key : Nat} {r : Option Nat} (hS : Stores Prod.snd table nodes)
    (h : Found (table.chains (key % table.nChains)) key r) : Found nodes key r := by
  cases r with
  | some a => exact ((mem_chain hS).mp h).1
  | none => exact fun x hx hkey => h x ((mem_chain hS).mpr ⟨hx, by rw [hkey]⟩) hkey

/-- **Looking a key up.** -/
theorem lookup_spec (h : HtHolds s nodes) (key : Nat) (hfuel : nodes.card < fuel) :
    ∃ r, s.lookup fuel key = .ok r ∧ Found nodes key r := by
  obtain ⟨table, hP, hS⟩ := h.chains
  have hloop : ∃ r, lookupLoop s.heap key fuel (s.chains (key % table.nChains)) = .ok r ∧ Found _ key r :=
    lookupLoop_spec (hP.path _) ((length_chain hS _).trans_lt hfuel)
  obtain ⟨r, hrun, hfound⟩ := hloop
  exact ⟨r, by rw [HtState.lookup, ← hP.nChains, hrun], found_of_chain hS hfound⟩

/-! ### Removing -/

/-- A node of a chain has been taken out, and this is left of the chain. -/
structure Unlinked (s s' : HtState) (chain : Nat) (l : List (Nat × Nat)) (kept : List Nat) : Prop where
  path : Path nodeLinks s'.heap (s'.chains chain) l
  chains : ∀ i, i ≠ chain → s'.chains i = s.chains i
  heap : ∀ b, b ∉ kept → s'.heap b = s.heap b
  nChains : s'.nChains = s.nChains
  nElements : s'.nElements = s.nElements

/-- The pointer to a node is set to what comes behind it. -/
theorem setPrevNext_spec {chain : Nat} {pre post : List (Nat × Nat)} {x : Nat × Nat} {prev : Option Nat}
    (hpath : Path nodeLinks s.heap (s.chains chain) (pre ++ x :: post))
    (hprev : prev = (pre.map Prod.fst).getLast?) (hnodup : ((pre ++ x :: post).map Prod.fst).Nodup)
    (hpost : Path nodeLinks s.heap p post) :
    ∃ s', s.setPrevNext chain prev p = .ok s' ∧ Unlinked s s' chain (pre ++ post) (pre.map Prod.fst) := by
  subst hprev
  rcases List.eq_nil_or_concat pre with rfl | ⟨pre, y, rfl⟩
  · refine ⟨_, rfl, ⟨?_, fun i hi => Function.update_of_ne hi _ _, fun _ _ => rfl, rfl, rfl⟩⟩
    simp only [Function.update_self]
    exact hpost
  · rw [List.concat_eq_append] at hpath hnodup ⊢
    rw [List.append_assoc, List.singleton_append] at hpath hnodup
    rw [List.map_append, List.nodup_append] at hnodup
    obtain ⟨-, hrest, hne⟩ := hnodup
    obtain ⟨hy, -⟩ := List.nodup_cons.mp hrest
    have hb : y.1 ∉ pre.map Prod.fst := fun hmem => hne _ hmem _ List.mem_cons_self rfl
    obtain ⟨node, hnode, -⟩ := hpath.cell_of_mem (List.mem_append_right _ List.mem_cons_self)
    rw [List.map_append, List.map_singleton, List.getLast?_concat, HtState.setPrevNext, nodeAt_of hnode]
    refine ⟨_, rfl, ⟨?_, fun _ _ => rfl, fun b hb' => Function.update_of_ne ?_ _ _, rfl, rfl⟩⟩
    · rw [List.append_assoc, List.singleton_append]
      exact hpath.relink hb (fun hmem => hy (List.mem_cons_of_mem _ hmem)) hnode hpost
    · rintro rfl
      exact hb' (List.mem_append_right _ (List.mem_singleton_self _))

/-- **The walk along a chain** for the first node with the key. -/
theorem removeLoop_spec {chain key : Nat} {pre : List (Nat × Nat)} {prev : Option Nat}
    (hpath : Path nodeLinks s.heap (s.chains chain) (pre ++ l)) (hp : Path nodeLinks s.heap p l)
    (hprev : prev = (pre.map Prod.fst).getLast?) (hnodup : ((pre ++ l).map Prod.fst).Nodup)
    (hfuel : l.length < fuel) :
    match unlink Prod.snd key l with
    | none => s.removeLoop chain key fuel prev p = .ok (none, s)
    | some (x, rest) => ∃ s', s.removeLoop chain key fuel prev p =
          .ok (some x.1, { s' with nElements := (s'.nElements + 2 ^ 32 - 1) % 2 ^ 32 }) ∧
        Unlinked s s' chain (pre ++ rest) ((pre ++ l).map Prod.fst) := by
  induction l generalizing fuel p pre prev with
  | nil =>
    obtain ⟨fuel, rfl⟩ := Nat.exists_eq_succ_of_ne_zero (Nat.ne_zero_of_lt hfuel)
    obtain rfl : p = none := hp
    rfl
  | cons y l ih =>
    obtain ⟨a, k⟩ := y
    obtain ⟨fuel, rfl⟩ := Nat.exists_eq_succ_of_ne_zero (Nat.ne_zero_of_lt hfuel)
    obtain ⟨rfl, node, hnode, rfl, hrest⟩ := hp
    rw [unlink, HtState.removeLoop, nodeAt_of hnode, ok_bind]
    by_cases hkey : key = node.key
    · obtain ⟨s', hset, hun⟩ := setPrevNext_spec hpath hprev hnodup hrest
      have hkey' : key = (a, nodeLinks.val node).2 := hkey
      rw [if_pos hkey, if_pos hkey']
      refine ⟨s', ?_, hun.path, hun.chains, fun b hb => hun.heap b fun hmem => hb ?_, hun.nChains, hun.nElements⟩
      · have hset' : s.setPrevNext chain prev node.next = .ok s' := hset
        rw [hset']
        rfl
      · rw [List.map_append]
        exact List.mem_append_left _ hmem
    · have hkey' : ¬ key = (a, nodeLinks.val node).2 := hkey
      have hpath' : Path nodeLinks s.heap (s.chains chain) (pre ++ [(a, nodeLinks.val node)] ++ l) := by
        rwa [List.append_assoc]
      have hprev' : some a = ((pre ++ [(a, nodeLinks.val node)]).map Prod.fst).getLast? := by
        rw [List.map_append, List.map_singleton, List.getLast?_concat]
      have hnext := ih hpath' hrest hprev' (by rwa [List.append_assoc]) (Nat.lt_of_succ_lt_succ hfuel)
      rw [if_neg hkey, if_neg hkey']
      cases hun : unlink Prod.snd key l with
      | none =>
        rw [hun] at hnext
        exact hnext
      | some r =>
        rw [hun] at hnext
        obtain ⟨s', hrun, hun'⟩ := hnext
        rw [List.append_assoc, List.append_assoc, List.singleton_append, List.singleton_append] at hun'
        exact ⟨s', hrun, hun'⟩

/-- **A node is removed**, if there is one with the key. -/
theorem remove_spec (h : HtHolds s nodes) (key : Nat) (hfuel : nodes.card < fuel) :
    ∃ r s', s.remove fuel key = .ok (r, s') ∧ Found nodes key r ∧
      HtHolds s' (match r with | some a => nodes.erase (a, key) | none => nodes) := by
  obtain ⟨table, hP, hS⟩ := h.chains
  have hchain : Path nodeLinks s.heap (s.chains (key % table.nChains)) (table.chains (key % table.nChains)) :=
    hP.path _
  have hcode : s.remove fuel key = HtState.removeLoop { s with iterOK := false } (key % table.nChains) key fuel none
      (s.chains (key % table.nChains)) := by rw [HtState.remove, hP.nChains]
  have hwalk := @removeLoop_spec { s with iterOK := false } _ _ fuel _ key [] none hchain hchain rfl
    (nodup_chain hS h.nodup _) ((length_chain hS _).trans_lt hfuel)
  rw [hcode]
  cases hun : unlink Prod.snd key (table.chains (key % table.nChains)) with
  | none =>
    rw [hun] at hwalk
    have hremove : htRemove Prod.snd table key = none := by rw [htRemove, hun]; rfl
    exact ⟨none, _, hwalk, htRemove_none hS hremove,
      ⟨⟨table, ⟨hP.nChains, hP.nElements, hP.path⟩, hS⟩, h.nodup, h.count⟩⟩
  | some r =>
    obtain ⟨⟨a, k⟩, rest⟩ := r
    rw [hun] at hwalk
    obtain ⟨s', hrun, hun'⟩ := hwalk
    have hremove : htRemove Prod.snd table key = some ((a, k), { table with
        chains := Function.update table.chains (key % table.nChains) rest
        nElements := (table.nElements + 2 ^ 32 - 1) % 2 ^ 32 }) := by rw [htRemove, hun]; rfl
    obtain ⟨hkey, nodes', hnodes, hS'⟩ := htRemove_some hS hremove
    obtain rfl : k = key := hkey
    refine ⟨some a, _, hrun, hnodes ▸ Multiset.mem_cons_self _ _, ?_⟩
    have herase : nodes.erase (a, k) = nodes' := by rw [hnodes, Multiset.erase_cons_head]
    have hle : nodes' ≤ nodes := hnodes ▸ Multiset.le_cons_self _ _
    simp only
    rw [herase]
    refine ⟨⟨_, ⟨?_, ?_, fun i => ?_⟩, hS'⟩, Multiset.nodup_of_le (Multiset.map_le_map hle) h.nodup, ?_⟩
    · exact hP.nChains.trans hun'.nChains.symm
    · simp only [hun'.nElements, hP.nElements]
    · by_cases hi : i = k % table.nChains
      · subst hi
        simp only [Function.update_self]
        exact hun'.path
      · simp only [Function.update_of_ne hi]
        rw [hun'.chains i hi]
        refine (hP.path i).congr fun b hb => hun'.heap b fun hmem => ?_
        exact disjoint_chain hS h.nodup hi hb hmem
    · simp only
      have hcard := congrArg Multiset.card hnodes
      rw [Multiset.card_cons] at hcard
      rw [hun'.nElements, h.count]
      omega

/-! ### All nodes -/

/-- The addresses of the nodes, chain after chain. -/
def HashTable.addrs (table : HashTable (Nat × Nat)) : List Nat :=
  ((List.range table.nChains).flatMap table.chains).map Prod.fst

theorem coe_addrs (hS : Stores Prod.snd table nodes) : (table.addrs : Multiset Nat) = nodes.map Prod.fst := by
  rw [HashTable.addrs, ← Multiset.map_coe, ← HashTable.nodes, hS.coe_nodes]

theorem length_addrs (hS : Stores Prod.snd table nodes) : table.addrs.length = nodes.card := by
  rw [← Multiset.coe_card, coe_addrs hS, Multiset.card_map]

section ForAll

variable {σ : Type} {body : σ → Nat → Result σ}

theorem forNodes_eq (hp : Path nodeLinks heap p l) (hfuel : l.length < fuel) (x : σ) :
    forNodes heap body fuel x p = (l.map Prod.fst).foldlM body x := by
  induction l generalizing fuel p x with
  | nil =>
    obtain ⟨fuel, rfl⟩ := Nat.exists_eq_succ_of_ne_zero (Nat.ne_zero_of_lt hfuel)
    obtain rfl : p = none := hp
    rfl
  | cons y l ih =>
    obtain ⟨a, k⟩ := y
    obtain ⟨fuel, rfl⟩ := Nat.exists_eq_succ_of_ne_zero (Nat.ne_zero_of_lt hfuel)
    obtain ⟨rfl, node, hnode, rfl, hrest⟩ := hp
    rw [forNodes, List.map_cons, List.foldlM_cons]
    refine congrArg _ (funext fun x' => ?_)
    rw [nodeAt_of hnode, ok_bind]
    exact ih hrest (Nat.lt_of_succ_lt_succ hfuel) x'

/-- **Both loops** go through the nodes chain after chain. -/
theorem forAll_eq (hP : Points s table) (hS : Stores Prod.snd table nodes) (hfuel : nodes.card < fuel) (x : σ) :
    s.forAll fuel body x = table.addrs.foldlM body x := by
  have hchains : ∀ (is : List Nat) (x : σ), is.foldlM (fun x i => forNodes s.heap body fuel x (s.chains i)) x =
      ((is.flatMap table.chains).map Prod.fst).foldlM body x := by
    intro is
    induction is with
    | nil => exact fun _ => rfl
    | cons i is ih =>
      intro x
      rw [List.foldlM_cons, forNodes_eq (hP.path i) ((length_chain hS i).trans_lt hfuel), List.flatMap_cons,
        List.map_append, List.foldlM_append]
      exact congrArg _ (funext ih)
  rw [HtState.forAll, hchains, HashTable.addrs, hP.nChains]

end ForAll

theorem countNodes (l : List Nat) (n : Nat) :
    l.foldlM (fun n _ => (.ok ((n + 1) % 2 ^ 32) : Result Nat)) n = .ok (if l = [] then n else (n + l.length) % 2 ^ 32) := by
  induction l generalizing n with
  | nil => rfl
  | cons a l ih =>
    rw [List.foldlM_cons, ok_bind, ih, if_neg (List.cons_ne_nil a l), List.length_cons]
    split
    · next hl => rw [hl, List.length_nil, Nat.zero_add]
    · exact congrArg _ (by omega)

/-- Filling the array. -/
theorem fillNodes {l done : List Nat} (h : done.length + l.length < 2 ^ 32) :
    l.foldlM (fun (m : List (Option Nat) × Nat) node =>
        if m.2 < m.1.length then (.ok (m.1.set m.2 (some node), (m.2 + 1) % 2 ^ 32) : Result _) else .error .fault)
      (done.map some ++ List.replicate l.length none, done.length) =
      .ok ((done ++ l).map some, done.length + l.length) := by
  induction l generalizing done with
  | nil => simp [List.foldlM_nil, pure, Except.pure]
  | cons a l ih =>
    rw [List.length_cons] at h
    have hset : (done.map some ++ List.replicate (l.length + 1) none).set done.length (some a) =
        (done ++ [a]).map some ++ List.replicate l.length none := by
      rw [List.set_append_right _ _ (by rw [List.length_map]), List.length_map, Nat.sub_self, List.replicate_succ,
        List.set_cons_zero, List.map_append, List.append_assoc]
      rfl
    have hlen : (done.length + 1) % 2 ^ 32 = (done ++ [a]).length := by
      rw [Nat.mod_eq_of_lt (by omega), List.length_append, List.length_singleton]
    have hnext := @ih (done ++ [a]) (by rw [List.length_append, List.length_singleton]; omega)
    rw [List.foldlM_cons]
    simp only
    rw [List.length_cons, if_pos (by simp), ok_bind, hset, hlen, hnext, List.append_assoc, List.length_append,
      List.length_singleton, Nat.add_assoc, Nat.add_comm 1]
    rfl

/-- **The array of all nodes**, as long as their number fits the counter. -/
theorem toArray_spec (h : HtHolds s nodes) (hfuel : nodes.card < fuel) (hcard : nodes.card < 2 ^ 32) :
    ∃ l : List Nat, s.toArray fuel = .ok (l.map some) ∧ (l : Multiset Nat) = nodes.map Prod.fst := by
  obtain ⟨table, hP, hS⟩ := h.chains
  refine ⟨table.addrs, ?_, coe_addrs hS⟩
  have hlen : table.addrs.length < 2 ^ 32 := by rwa [length_addrs hS]
  rw [HtState.toArray, forAll_eq hP hS hfuel, countNodes, ok_bind]
  by_cases hnil : table.addrs = []
  · rw [if_pos hnil, hnil]
    rfl
  · have hpos : table.addrs.length ≠ 0 := fun hzero => hnil (List.length_eq_zero_iff.mp hzero)
    have hfill := @fillNodes table.addrs [] (by simpa using hlen)
    rw [List.map_nil, List.nil_append, List.nil_append, List.length_nil, Nat.zero_add] at hfill
    rw [if_neg hnil, Nat.zero_add, Nat.mod_eq_of_lt hlen, if_neg hpos, forAll_eq hP hS hfuel, hfill, ok_bind]
    dsimp only
    rw [assertThat_of rfl]
    rfl

/-! ### The iterator -/

/-- What the iterator has still to deliver. -/
def Remaining (s : HtState) (table : HashTable (Nat × Nat)) (rest : List Nat) : Prop :=
  s.iterOK = true ∧ ∃ l : List (Nat × Nat),
    rest = (l ++ (List.range' s.iterChain (s.nChains - s.iterChain)).flatMap table.chains).map Prod.fst ∧
    match s.iterNode with
    | none => l = []
    | some a => ∃ node, s.heap a = some node ∧ Path nodeLinks s.heap node.next l

theorem remaining_resetIter (hP : Points s table) : Remaining s.resetIter table table.addrs := by
  refine ⟨rfl, [], ?_, rfl⟩
  rw [HashTable.addrs, hP.nChains, List.range_eq_range']
  rfl

/-- The first chain that has a node. -/
theorem flatMap_find (hP : Points s table) (i n : Nat) :
    match (List.range' i n).find? fun i => (s.chains i).isSome with
    | some j => i ≤ j ∧ j < i + n ∧ ∃ a node l, s.chains j = some a ∧ s.heap a = some node ∧
        Path nodeLinks s.heap node.next l ∧
        (List.range' i n).flatMap table.chains = (a, node.key) :: l ++ (List.range' (j + 1) (i + n - (j + 1))).flatMap table.chains
    | none => (List.range' i n).flatMap table.chains = [] := by
  induction n generalizing i with
  | zero => rfl
  | succ n ih =>
    rw [List.range'_succ, List.find?_cons, List.flatMap_cons]
    have hpath := hP.path i
    cases hchain : s.chains i with
    | none =>
      rw [hchain] at hpath
      rw [hpath.eq_nil, List.nil_append]
      have hnext := ih (i + 1)
      simp only [Option.isSome_none]
      cases hfind : (List.range' (i + 1) n).find? fun i => (s.chains i).isSome with
      | none =>
        rw [hfind] at hnext
        exact hnext
      | some j =>
        rw [hfind] at hnext
        obtain ⟨hlo, hhi, a, node, l, hrest⟩ := hnext
        rw [show i + 1 + n = i + (n + 1) by omega] at hrest hhi
        exact ⟨Nat.le_of_succ_le hlo, hhi, a, node, l, hrest⟩
    | some a =>
      rw [hchain] at hpath
      obtain ⟨node, l, hnode, hl, hrest⟩ := hpath.some_cell
      refine ⟨Nat.le_refl i, by omega, a, node, l, hchain, hnode, hrest, ?_⟩
      rw [hl, show i + (n + 1) - (i + 1) = n by omega]
      rfl

/-- **One step of the iterator.** -/
theorem htNext_spec (hP : Points s table) {rest : List Nat} (h : Remaining s table rest) :
    ∃ s', s.htNext = .ok (rest.head?, s') ∧ Points s' table ∧ s'.nElements = s.nElements ∧
      (rest ≠ [] → Remaining s' table rest.tail) := by
  obtain ⟨hok, l, hrest, hnode⟩ := h
  obtain ⟨next, hnext, hpath⟩ : ∃ next, s.iterNext = .ok next ∧ Path nodeLinks s.heap next l := by
    rw [HtState.iterNext]
    cases hiter : s.iterNode with
    | none =>
      rw [hiter] at hnode
      exact ⟨none, rfl, hnode ▸ path_none s.heap⟩
    | some a =>
      rw [hiter] at hnode
      obtain ⟨node, ha, hpath⟩ := hnode
      simp only
      rw [nodeAt_of ha]
      exact ⟨node.next, rfl, hpath⟩
  rw [HtState.htNext, assertThat_of hok, ok_bind, hnext, ok_bind]
  cases next with
  | some b =>
    -- further along the chain
    obtain ⟨node, l', hb, hl, hpath'⟩ := hpath.some_cell
    rw [hl] at hrest
    rw [hrest]
    refine ⟨_, rfl, ⟨hP.nChains, hP.nElements, hP.path⟩, rfl, fun _ => ⟨hok, l', rfl, node, hb, hpath'⟩⟩
  | none =>
    -- the next chain that is not empty
    rw [hpath.eq_nil, List.nil_append] at hrest
    have hfind := flatMap_find hP s.iterChain (s.nChains - s.iterChain)
    simp only
    cases hres : (List.range' s.iterChain (s.nChains - s.iterChain)).find? fun i => (s.chains i).isSome with
    | none =>
      rw [hres] at hfind
      rw [hfind] at hrest
      rw [hrest]
      exact ⟨s, rfl, hP, rfl, fun hne => absurd rfl hne⟩
    | some j =>
      rw [hres] at hfind
      obtain ⟨hlo, hhi, a, node, l', hchain, ha, hpath', hsplit⟩ := hfind
      rw [hsplit] at hrest
      rw [hrest]
      simp only
      rw [hchain]
      refine ⟨_, rfl, ⟨hP.nChains, hP.nElements, hP.path⟩, rfl, fun _ => ⟨hok, l', ?_, node, ha, hpath'⟩⟩
      simp only
      rw [show s.iterChain + (s.nChains - s.iterChain) = s.nChains by omega]
      rfl

/-- **A full iteration.** -/
theorem collect_spec (hP : Points s table) {rest : List Nat} (h : Remaining s table rest) (hfuel : rest.length < fuel) :
    ∃ s', HtState.collect fuel s = .ok (rest, s') ∧ Points s' table ∧ s'.nElements = s.nElements := by
  induction rest generalizing s fuel with
  | nil =>
    obtain ⟨fuel, rfl⟩ := Nat.exists_eq_succ_of_ne_zero (Nat.ne_zero_of_lt hfuel)
    obtain ⟨s', hrun, hP', hn, -⟩ := htNext_spec hP h
    exact ⟨s', by rw [HtState.collect, hrun]; rfl, hP', hn⟩
  | cons a rest ih =>
    obtain ⟨fuel, rfl⟩ := Nat.exists_eq_succ_of_ne_zero (Nat.ne_zero_of_lt hfuel)
    obtain ⟨s₁, hrun₁, hP₁, hn₁, hrem⟩ := htNext_spec hP h
    obtain ⟨s', hrun, hP', hn⟩ := ih hP₁ (hrem (List.cons_ne_nil a rest)) (Nat.lt_of_succ_lt_succ hfuel)
    refine ⟨s', ?_, hP', hn.trans hn₁⟩
    rw [HtState.collect, hrun₁, ok_bind]
    simp only [List.head?_cons]
    rw [hrun]
    rfl

theorem iterate_spec (h : HtHolds s nodes) (hfuel : nodes.card < fuel) :
    ∃ l s', HtState.collect fuel s.resetIter = .ok (l, s') ∧ (l : Multiset Nat) = nodes.map Prod.fst ∧
      HtHolds s' nodes := by
  obtain ⟨table, hP, hS⟩ := h.chains
  have hP' : Points s.resetIter table := ⟨hP.nChains, hP.nElements, hP.path⟩
  obtain ⟨s', hrun, hP'', hn⟩ := collect_spec hP' (remaining_resetIter hP) (by rwa [length_addrs hS])
  exact ⟨table.addrs, s', hrun, coe_addrs hS, ⟨table, hP'', hS⟩, h.nodup, hn.trans h.count⟩

end Valgrind.Coregrind
