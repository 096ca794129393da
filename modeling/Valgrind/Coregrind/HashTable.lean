import Valgrind.Basics.Result

/-!
# The core's hash table

`m_hashtable.c`: chains of nodes under their keys. New nodes are put at the head of their
chain, a removal takes the first node with the key, and when there are more nodes than chains
the nodes are dealt out to the next larger number of chains.

The nodes are of any type that has a key. The iterators are in a model of their own.
-/

namespace Valgrind.Coregrind

/-! ## The operations -/

/-- `primes`. -/
def htPrimes : List Nat :=
  [769, 1543, 3079, 6151, 12289, 24593, 49157, 98317, 196613, 393241, 786433, 1572869, 3145739, 6291469, 12582917,
    25165843, 50331653, 100663319, 201326611, 402653189]

/-- `struct _VgHashTable`. -/
structure HashTable (α : Type) where
  nChains : Nat
  nElements : Nat
  chains : Nat → List α

/-- `VG_(HT_construct)`. -/
def htConstruct (α : Type) : HashTable α where
  nChains := 769
  nElements := 0
  chains := fun _ => []

section Operations

variable {α : Type} (keyOf : α → Nat)

/-- Put a node at the head of its chain. -/
def prepend (nChains : Nat) (chains : Nat → List α) (node : α) : Nat → List α :=
  let chain := keyOf node % nChains
  Function.update chains chain (node :: chains chain)

/-- The first of the primes that is larger than `new_chains`, or else that number itself. -/
def nextPrime (newChains : Nat) : Nat := (htPrimes.find? (· > newChains)).getD newChains

/-- `resize`. -/
def resize (table : HashTable α) : Result (HashTable α) :=
  let oldChains := table.nChains
  if oldChains = 402653189 then .ok table
  else do
    assertThat (769 ≤ oldChains ∧ oldChains < 402653189)
    let newChains := nextPrime (oldChains + 1)
    assertThat (oldChains < newChains)
    assertThat (769 < newChains ∧ newChains ≤ 402653189)
    let chains := (List.range oldChains).foldl
      (fun chains i => (table.chains i).foldl (prepend keyOf newChains) chains) fun _ => []
    return { table with nChains := newChains, chains }

/-- `VG_(HT_add_node)`. -/
def htAddNode (table : HashTable α) (node : α) : Result (HashTable α) :=
  let table := { table with
    chains := prepend keyOf table.nChains table.chains node
    nElements := (table.nElements + 1) % 2 ^ 32 }
  if table.nElements > table.nChains then resize keyOf table else .ok table

/-- The walk along a chain for the first node with the key: the node, and the chain without
it. -/
def unlink (key : Nat) : List α → Option (α × List α)
  | [] => none
  | curr :: next =>
    if key = keyOf curr then some (curr, next) else (unlink key next).map fun r => (r.1, curr :: r.2)

/-- `VG_(HT_remove)`. -/
def htRemove (table : HashTable α) (key : Nat) : Option (α × HashTable α) :=
  let chain := key % table.nChains
  (unlink keyOf key (table.chains chain)).map fun r =>
    (r.1, { table with
      chains := Function.update table.chains chain r.2
      nElements := (table.nElements + 2 ^ 32 - 1) % 2 ^ 32 })

/-- The chains one after the other. -/
def HashTable.nodes (table : HashTable α) : List α := (List.range table.nChains).flatMap table.chains

/-- `VG_(HT_to_array)`: `NULL` if there are no nodes. The counter of the nodes is a `UInt`. -/
def htToArray (table : HashTable α) : Result (Option (List α)) :=
  let nElems := table.nodes.length % 2 ^ 32
  if nElems = 0 then .ok none
  -- the array has too few entries when the counter has wrapped around
  else if table.nodes.length ≤ nElems then .ok (some table.nodes) else .error .fault

end Operations

/-! ## What a table contains -/

section Stores

variable {α : Type} {keyOf : α → Nat} {table : HashTable α} {nodes : Multiset α} {node : α}

/-- The table contains these nodes, each in the chain of its key. -/
structure Stores (keyOf : α → Nat) (table : HashTable α) (nodes : Multiset α) : Prop where
  prime : table.nChains ∈ htPrimes
  chain : ∀ i, (table.chains i : Multiset α) = nodes.filter fun x => keyOf x % table.nChains = i

theorem stores_htConstruct : Stores keyOf (htConstruct α) 0 where
  prime := (by decide : 769 ∈ htPrimes)
  chain := fun _ => rfl

theorem nextPrime_spec : ∀ p ∈ htPrimes, p = 402653189 ∨
    769 ≤ p ∧ p < 402653189 ∧ p < nextPrime (p + 1) ∧ 769 < nextPrime (p + 1) ∧ nextPrime (p + 1) ∈ htPrimes := by
  decide

theorem htPrimes_le : ∀ p ∈ htPrimes, 769 ≤ p ∧ p ≤ 402653189 := by decide

theorem Stores.pos (h : Stores keyOf table nodes) : 0 < table.nChains := by
  have := (htPrimes_le _ h.prime).1
  omega

theorem prepend_self {n : Nat} {chains : Nat → List α} :
    prepend keyOf n chains node (keyOf node % n) = node :: chains (keyOf node % n) := by
  rw [prepend, Function.update_self]

theorem prepend_of_ne {n i : Nat} {chains : Nat → List α} (h : keyOf node % n ≠ i) :
    prepend keyOf n chains node i = chains i := by
  rw [prepend, Function.update_of_ne (Ne.symm h)]

theorem coe_prepend {n : Nat} {chains : Nat → List α} (i : Nat) :
    (prepend keyOf n chains node i : Multiset α) =
      (Multiset.filter (fun x => keyOf x % n = i) {node}) + (chains i : Multiset α) := by
  rw [Multiset.filter_singleton]
  by_cases hi : keyOf node % n = i
  · subst hi
    rw [prepend_self, if_pos rfl, ← Multiset.cons_coe, Multiset.singleton_add]
  · rw [prepend_of_ne hi, if_neg hi]
    exact (zero_add _).symm

/-- A chain after all nodes of a list have been put in. -/
theorem coe_foldl_prepend {n : Nat} {l : List α} {chains : Nat → List α} (i : Nat) :
    (l.foldl (prepend keyOf n) chains i : Multiset α) =
      (l : Multiset α).filter (fun x => keyOf x % n = i) + (chains i : Multiset α) := by
  induction l generalizing chains with
  | nil => exact (zero_add _).symm
  | cons x l ih =>
    rw [List.foldl_cons, ih, coe_prepend, ← Multiset.cons_coe, ← Multiset.singleton_add, Multiset.filter_add,
      ← add_assoc, add_comm (Multiset.filter _ (l : Multiset α))]

/-- The nodes by their chains are all the nodes. -/
theorem sum_filter_mod (h : 0 < table.nChains) :
    ((List.range table.nChains).map fun i => nodes.filter fun x => keyOf x % table.nChains = i).sum = nodes := by
  have hupTo : ∀ k, ((List.range k).map fun i => nodes.filter fun x => keyOf x % table.nChains = i).sum =
      nodes.filter fun x => keyOf x % table.nChains < k := by
    intro k
    induction k with
    | zero => simp
    | succ k ih =>
      rw [List.range_succ, List.map_append, List.sum_append, ih, List.map_singleton, List.sum_singleton,
        Multiset.filter_add_filter]
      have hnone : (nodes.filter fun x => keyOf x % table.nChains < k ∧ keyOf x % table.nChains = k) = 0 :=
        Multiset.filter_eq_nil.mpr fun x _ hx => by omega
      rw [hnone, add_zero]
      exact Multiset.filter_congr fun x _ => Nat.lt_succ_iff_lt_or_eq.symm
  rw [hupTo, Multiset.filter_eq_self]
  exact fun x _ => Nat.mod_lt _ h

/-- The chains one after the other. -/
theorem Stores.coe_nodes (h : Stores keyOf table nodes) : (table.nodes : Multiset α) = nodes :=
  calc (table.nodes : Multiset α)
      = ((List.range table.nChains).map fun i => (table.chains i : Multiset α)).sum := by
        rw [HashTable.nodes]
        induction List.range table.nChains with
        | nil => rfl
        | cons k l ih => rw [List.flatMap_cons, ← Multiset.coe_add, ih, List.map_cons, List.sum_cons]
    _ = nodes := by
        simp only [h.chain]
        exact sum_filter_mod h.pos

/-- **Resizing** keeps the nodes. -/
theorem resize_spec (h : Stores keyOf table nodes) : ∃ table', resize keyOf table = .ok table' ∧ Stores keyOf table' nodes := by
  rw [resize]
  split
  · exact ⟨table, rfl, h⟩
  · next hlast =>
    obtain ⟨hlo, hhi, hlt, hlo', hprime⟩ := (nextPrime_spec _ h.prime).resolve_left hlast
    simp only
    rw [assertThat_of ⟨hlo, hhi⟩, ok_bind, assertThat_of hlt, ok_bind, assertThat_of ⟨hlo', (htPrimes_le _ hprime).2⟩, ok_bind]
    refine ⟨_, rfl, hprime, fun i => ?_⟩
    simp only
    rw [← List.foldl_flatMap, coe_foldl_prepend, Multiset.coe_nil, add_zero, ← HashTable.nodes, h.coe_nodes]

/-- A node at the head of its chain. -/
theorem Stores.add (h : Stores keyOf table nodes) (node : α) : Stores keyOf { table with
    chains := prepend keyOf table.nChains table.chains node
    nElements := (table.nElements + 1) % 2 ^ 32 } (node ::ₘ nodes) := by
  refine ⟨h.prime, fun i => ?_⟩
  simp only
  rw [coe_prepend, h.chain, ← Multiset.singleton_add, Multiset.filter_add]

/-- **A node is added.** -/
theorem htAddNode_spec (h : Stores keyOf table nodes) (node : α) :
    ∃ table', htAddNode keyOf table node = .ok table' ∧ Stores keyOf table' (node ::ₘ nodes) := by
  rw [htAddNode]
  split
  · exact resize_spec (h.add node)
  · exact ⟨_, rfl, h.add node⟩

theorem unlink_some {key : Nat} {l rest : List α} (h : unlink keyOf key l = some (node, rest)) :
    keyOf node = key ∧ (l : Multiset α) = node ::ₘ (rest : Multiset α) := by
  induction l generalizing rest with
  | nil => exact nomatch h
  | cons x l ih =>
    rw [unlink] at h
    split at h
    · next hkey =>
      cases h
      exact ⟨hkey.symm, rfl⟩
    · obtain ⟨⟨y, rest'⟩, hrest, heq⟩ := Option.map_eq_some_iff.mp h
      cases heq
      obtain ⟨hkey, hl⟩ := ih hrest
      refine ⟨hkey, ?_⟩
      rw [← Multiset.cons_coe, hl, ← Multiset.cons_coe, Multiset.cons_swap]

theorem unlink_none {key : Nat} {l : List α} (h : unlink keyOf key l = none) : ∀ x ∈ l, keyOf x ≠ key := by
  induction l with
  | nil => exact List.forall_mem_nil _
  | cons x l ih =>
    rw [unlink] at h
    split at h
    · exact nomatch h
    · next hkey => exact List.forall_mem_cons.mpr ⟨Ne.symm hkey, ih (Option.map_eq_none_iff.mp h)⟩

/-- **A node with the key is removed**, if there is one. -/
theorem htRemove_some {key : Nat} {table' : HashTable α} (h : Stores keyOf table nodes)
    (hremove : htRemove keyOf table key = some (node, table')) :
    keyOf node = key ∧ ∃ nodes', nodes = node ::ₘ nodes' ∧ Stores keyOf table' nodes' := by
  obtain ⟨⟨x, rest⟩, hunlink, heq⟩ := Option.map_eq_some_iff.mp hremove
  obtain ⟨rfl, rfl⟩ := Prod.mk.inj heq
  obtain ⟨hkey, hchain⟩ := unlink_some hunlink
  rw [h.chain] at hchain
  simp only at hkey hchain ⊢
  have hmem : x ∈ nodes := (Multiset.mem_filter.mp (hchain ▸ Multiset.mem_cons_self x _)).1
  obtain ⟨nodes', rfl⟩ := Multiset.exists_cons_of_mem hmem
  refine ⟨hkey, nodes', rfl, h.prime, fun i => ?_⟩
  simp only
  by_cases hi : key % table.nChains = i
  · subst hi
    rw [Multiset.filter_cons_of_pos _ (by rw [hkey])] at hchain
    rw [Function.update_self]
    exact ((Multiset.cons_inj_right x).mp hchain).symm
  · rw [Function.update_of_ne (Ne.symm hi), h.chain, Multiset.filter_cons_of_neg _ (by rwa [hkey])]

theorem htRemove_none {key : Nat} (h : Stores keyOf table nodes) (hremove : htRemove keyOf table key = none) :
    ∀ x ∈ nodes, keyOf x ≠ key := by
  intro x hx hkey
  refine unlink_none (Option.map_eq_none_iff.mp hremove) x ?_ hkey
  have hmem : x ∈ (table.chains (key % table.nChains) : Multiset α) := by
    rw [h.chain]
    exact Multiset.mem_filter.mpr ⟨hx, by rw [hkey]⟩
  exact Multiset.mem_coe.mp hmem

/-- A node whose key no other node has is removed. -/
theorem htRemove_of_cons (h : Stores keyOf table (node ::ₘ nodes)) (hkeys : ∀ x ∈ nodes, keyOf x ≠ keyOf node) :
    ∃ table', htRemove keyOf table (keyOf node) = some (node, table') ∧ Stores keyOf table' nodes := by
  cases hremove : htRemove keyOf table (keyOf node) with
  | none => exact absurd rfl (htRemove_none h hremove node (Multiset.mem_cons_self node nodes))
  | some r =>
    obtain ⟨x, table'⟩ := r
    obtain ⟨hkey, nodes', hnodes, hstores⟩ := htRemove_some h hremove
    have hx : x = node := by
      by_contra hne
      have hmem : x ∈ node ::ₘ nodes := hnodes ▸ Multiset.mem_cons_self x nodes'
      exact hkeys x ((Multiset.mem_cons.mp hmem).resolve_left hne) hkey
    subst hx
    exact ⟨table', rfl, (Multiset.cons_inj_right x).mp hnodes ▸ hstores⟩

end Stores

end Valgrind.Coregrind
