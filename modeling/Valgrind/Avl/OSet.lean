import Valgrind.Avl.CoreSpecs
import Valgrind.Avl.Iterate

/-!
# `OSet` (`m_oset.c`)

An AVL tree based ordered set. Elements are of an arbitrary type `E` and hold a key of
type `K` (`keyOf`, the key at offset `keyOff`). A set is created with a function that
compares a key with an element, or with none; then the keys are words (`word`) and
compared without sign.

`oset_refines`: whatever is inserted and removed, in whatever order, the tree is a
balanced search tree, `nElems` counts its nodes, all operations agree with the set that
one has in mind, and iteration yields its elements in ascending order. There are two
limits to the latter: the iterator stack has 32 entries, and `VG_(OSetGen_ResetIterAt)`
refuses sets without a comparison function.
-/

namespace Valgrind

namespace Avl

open AvlTree
open Std (TransCmp LawfulEqCmp OrientedCmp)

/-- `OSetNode`, its links and its balance field apart, and the element that follows it. -/
structure ONode (E : Type) where
  addr : Nat
  elem : E
  deriving DecidableEq

/-- `OSet`, its allocator and the key offset apart. -/
structure OSet (K E : Type) where
  cmp : Option (K → E → Int)
  nElems : Int
  root : BinTree (ONode E)
  stack : Stack (ONode E)

section

variable {K E : Type} (keyOf : E → K) (word : K → Nat)

/-- `slow_key_of_node`, `fast_key_of_node`. -/
def ONode.key (n : ONode E) : K := keyOf n.elem

/-- `fast_cmp`: compare the first word of the key with that of the element. -/
def fastCmp (k : K) (e : E) : Int :=
  if word (keyOf e) < word k then 1 else if word k < word (keyOf e) then -1 else 0

/-- `t->cmp ? slow_cmp(t, k, n) : fast_cmp(k, n)`. -/
def cmpElem (cmp : Option (K → E → Int)) (k : K) (e : E) : Int :=
  match cmp with
  | some cmp => cmp k e
  | none => fastCmp keyOf word k e

/-- The way that a search for the key `k` takes at a node: to the left if the comparison of
`k` with the element is negative. -/
def wayOSet (cmp : Option (K → E → Int)) (k : K) (n : ONode E) : Ordering :=
  compare (cmpElem keyOf word cmp k n.elem) 0

/-- `VG_(OSetGen_Create)`. -/
def osetCreate (cmp : Option (K → E → Int)) : OSet K E := ⟨cmp, 0, .nil, []⟩

/-- `avl_insert`. The tree is not empty, and a duplicate fails an assertion. -/
def avlInsert (cmp : Option (K → E → Int)) (n : ONode E) (root : BinTree (ONode E)) :
    Result (BinTree (ONode E) × Bool × Option (ONode E)) :=
  insertNode ONode.addr false (wayOSet keyOf word cmp (n.key keyOf))
    (fun _ => throw .assertFailed) n root

/-- `VG_(OSetGen_Insert)`. The iterator is reset, so that it cannot get out of sync. -/
def osetInsert (t : OSet K E) (n : ONode E) : Result (OSet K E) :=
  match t.root with
  | .nil => pure { t with root := .node n 0 .nil .nil, nElems := t.nElems + 1, stack := [] }
  | root => do
    let (root, _, _) ← avlInsert keyOf word t.cmp n root
    pure { t with root, nElems := t.nElems + 1, stack := [] }

/-- `avl_lookup`. -/
def avlLookup (t : OSet K E) (k : K) : Option (ONode E) :=
  findNode (wayOSet keyOf word t.cmp k) t.root

/-- `VG_(OSetGen_Contains)`. -/
def osetContains (t : OSet K E) (k : K) : Bool := (avlLookup keyOf word t k).isSome

/-- `VG_(OSetGen_Remove)`: the element that was removed, if there was one. -/
def osetRemove (t : OSet K E) (k : K) : Result (Option (ONode E) × OSet K E) :=
  match avlLookup keyOf word t k with
  | some n => do
    let (root, _) ← removeNode false ONode.addr (fun n => wayOSet keyOf word t.cmp (n.key keyOf)) n
      t.root
    pure (some n, { t with root, nElems := t.nElems - 1, stack := [] })
  | none => pure (none, t)

/-- `VG_(OSetGen_ResetIter)`. -/
def osetResetIter (t : OSet K E) : Result (OSet K E) := do
  let stack ← startIter t.root
  pure { t with stack }

/-- `VG_(OSetGen_ResetIterAt)`. A set without a comparison function is refused, unless it is
empty. -/
def osetResetIterAt (t : OSet K E) (k : K) : Result (OSet K E) :=
  match t.root with
  | .nil => pure { t with stack := [] }
  | root => do
    assertThat (t.cmp.isSome)
    let stack ← seek (wayOSet keyOf word t.cmp k) root []
    pure { t with stack }

/-- `VG_(OSetGen_Next)`. -/
def osetNext (t : OSet K E) : Result (Option (ONode E) × OSet K E) := do
  let (n, stack) ← nextOSet t.stack
  pure (n, { t with stack })

/-- Call `VG_(OSetGen_Next)` until it returns null, at most `calls` times. -/
def iterateOSet : Nat → OSet K E → Result (List (ONode E))
  | 0, _ => throw .diverge
  | calls + 1, t => do
    let (n, t) ← osetNext t
    match n with
    | none => pure []
    | some n => do
      let ns ← iterateOSet calls t
      pure (n :: ns)

/-! ## The set -/

/-- The comparison of a set is a strict total order `ord` on the keys, and keys compare with
elements as with the keys of the elements. -/
structure OrdOk (cmp : Option (K → E → Int)) (ord : K → K → Ordering) : Prop where
  trans : TransCmp ord
  lawful : LawfulEqCmp ord
  agrees : ∀ k e, compare (cmpElem keyOf word cmp k e) 0 = ord k (keyOf e)

/-- What an `OSet` stands for: the element with each key. -/
abbrev KeySet (K E : Type) := K → Option (ONode E)

/-- An update. -/
inductive OSetOp (K E : Type) where
  | insert (n : ONode E)
  | remove (k : K)

/-- One update of an `OSet`, with what the removals have returned so far. -/
def stepOSet (s : OSet K E × List (Option (ONode E))) :
    OSetOp K E → Result (OSet K E × List (Option (ONode E)))
  | .insert n => do
    let t ← osetInsert keyOf word s.1 n
    pure (t, s.2)
  | .remove k => do
    let (n, t) ← osetRemove keyOf word s.1 k
    pure (t, s.2 ++ [n])

/-- Only absent keys are inserted. -/
def Absent (s : OSet K E × List (Option (ONode E))) : OSetOp K E → Prop
  | .insert n => osetContains keyOf word s.1 (n.key keyOf) = false
  | .remove _ => True

instance (s : OSet K E × List (Option (ONode E))) : ∀ op, Decidable (Absent keyOf word s op)
  | .insert n => inferInstanceAs (Decidable (osetContains keyOf word s.1 (n.key keyOf) = false))
  | .remove _ => isTrue trivial

/-- One update of a set. -/
def stepSet [DecidableEq K] (s : KeySet K E × List (Option (ONode E))) :
    OSetOp K E → KeySet K E × List (Option (ONode E))
  | .insert n => (Function.update s.1 (n.key keyOf) (some n), s.2)
  | .remove k => (Function.update s.1 k none, s.2 ++ [s.1 k])

/-- The tree holds the elements of the set, and is in order. -/
structure HoldsSet (ord : K → K → Ordering) (t : OSet K E) (m : KeySet K E) : Prop where
  ord_ok : OrdOk keyOf word t.cmp ord
  avl : t.root.IsAvl
  sorted : KeySorted (ONode.key keyOf) ord t.root.toList
  count : t.nElems = t.root.toList.length
  holds : ∀ k n, n ∈ t.root.toList ∧ n.key keyOf = k ↔ m k = some n

variable {keyOf word} {ord : K → K → Ordering} {t : OSet K E} {m : KeySet K E} {k : K} {n : ONode E}

theorem HoldsSet.way_eq (H : HoldsSet keyOf word ord t m) (k : K) :
    wayOSet keyOf word t.cmp k = cutAt (ONode.key keyOf) ord k :=
  funext fun n => H.ord_ok.agrees k n.elem

theorem HoldsSet.atCut (H : HoldsSet keyOf word ord t m) (k : K) :
    atCut (cutAt (ONode.key keyOf) ord k) t.root.toList = m k := by
  have := H.ord_ok.trans
  have := H.ord_ok.lawful
  ext n
  rw [H.sorted.atCut_eq_some, H.holds]

/-- **Lookup** agrees with the set. -/
theorem HoldsSet.lookup (H : HoldsSet keyOf word ord t m) (k : K) : avlLookup keyOf word t k = m k := by
  have := H.ord_ok.trans
  rw [avlLookup, H.way_eq, findNode_eq (H.sorted.cuts k), H.atCut]

/-- Lookup of a key between what is below it and what is above it. -/
theorem avlLookup_between {l r : List (ONode E)} (h : t.root.toList = l ++ n :: r)
    (hl : ∀ x ∈ l, wayOSet keyOf word t.cmp k x = .gt) (hn : wayOSet keyOf word t.cmp k n = .eq)
    (hr : ∀ x ∈ r, wayOSet keyOf word t.cmp k x = .lt) : avlLookup keyOf word t k = some n := by
  have hcut : Cuts (wayOSet keyOf word t.cmp k) (l ++ n :: r) := cuts_append_cons.mpr
    ⟨(List.append_nil l) ▸ cuts_append hl (List.forall_mem_nil _), cuts_append (List.forall_mem_nil _) hr,
      fun y hy => .inl (hl y hy), fun y hy => .inr (hr y hy), fun y hy _ _ => .inl (hl y hy)⟩
  rw [avlLookup, findNode_eq (h ▸ hcut), h, hcut.atCut_of_eq hn]

/-- Insertion of a key between what is below it and what is above it. -/
theorem osetInsert_between {l r : List (ONode E)} (havl : t.root.IsAvl) (h : t.root.toList = l ++ r)
    (hl : ∀ x ∈ l, wayOSet keyOf word t.cmp (n.key keyOf) x = .gt)
    (hr : ∀ x ∈ r, wayOSet keyOf word t.cmp (n.key keyOf) x = .lt) :
    ∃ root, osetInsert keyOf word t n = .ok { t with root, nElems := t.nElems + 1, stack := [] } ∧
      root.IsAvl ∧ root.toList = l ++ n :: r := by
  have hcut := h ▸ cuts_append hl hr
  by_cases hnil : t.root = .nil
  · rw [hnil] at h
    obtain ⟨rfl, rfl⟩ := List.append_eq_nil_iff.mp h.symm
    refine ⟨.node n 0 .nil .nil, ?_, by simp, rfl⟩
    simp only [osetInsert, hnil]
    rfl
  · have hne : ∀ x ∈ t.root.toList, wayOSet keyOf word t.cmp (n.key keyOf) x ≠ .eq := fun x hx => by
      rw [h, List.mem_append] at hx
      rcases hx with hx | hx
      · rw [hl x hx]
        exact Ordering.noConfusion
      · rw [hr x hx]
        exact Ordering.noConfusion
    obtain ⟨root, g, hrun, hb, -⟩ := insertNode_spec ONode.addr false (wayOSet keyOf word t.cmp (n.key keyOf))
      (fun _ => throw .assertFailed) id n hnil havl hcut fun x hx he => absurd he (hne x hx)
    refine ⟨root, ?_, hb.avl, ?_⟩
    · unfold osetInsert
      split
      · rename_i h
        exact absurd h hnil
      · simp only [avlInsert, hrun, ok_bind]
        rfl
    · rw [hb.list, insertList, atCut_eq_none hne, h, below_append, above_append, below_eq_self hl, below_eq_nil hr,
        above_eq_nil hl, above_eq_self hr, List.append_nil, List.nil_append]
      rfl

/-- **`VG_(OSetGen_Insert)`** of an absent key. -/
theorem osetInsert_spec [DecidableEq K] (H : HoldsSet keyOf word ord t m)
    (hk : m (n.key keyOf) = none) :
    ∃ t', osetInsert keyOf word t n = .ok t' ∧ t'.cmp = t.cmp ∧
      HoldsSet keyOf word ord t' (Function.update m (n.key keyOf) (some n)) := by
  have := H.ord_ok.trans
  have := H.ord_ok.lawful
  have hat := H.atCut (n.key keyOf)
  rw [hk] at hat
  have hsplit := (H.sorted.cuts (n.key keyOf)).split
  rw [hat, Option.toList_none, List.nil_append] at hsplit
  obtain ⟨root, hrun, havl, hlist⟩ := @osetInsert_between _ _ keyOf word t n _ _ H.avl hsplit.symm
    (fun x hx => H.way_eq (n.key keyOf) ▸ (mem_below.mp hx).2)
    (fun x hx => H.way_eq (n.key keyOf) ▸ (mem_above.mp hx).2)
  have hmem : ∀ x, x ∈ root.toList ↔ x = n ∨ x ∈ t.root.toList ∧ x.key keyOf ≠ n.key keyOf := by
    intro x
    rw [hlist, List.mem_append, List.mem_cons, ← mem_below_or_above (c := ord)]
    grind
  refine ⟨_, hrun, rfl, H.ord_ok, havl, ?_, ?_, fun k x => ?_⟩
  · dsimp only
    rw [hlist]
    exact H.sorted.insert ((LawfulEqCmp.compare_eq_iff_eq).mpr rfl)
  · have hlen := congrArg List.length (H.sorted.cuts (n.key keyOf)).split
    rw [hat] at hlen
    simp only [List.length_append, Option.toList_none, List.length_nil] at hlen
    dsimp only
    rw [hlist, H.count, List.length_append, List.length_cons]
    omega
  · dsimp only
    rw [hmem]
    by_cases hkk : k = n.key keyOf
    · subst hkk
      rw [Function.update_self, Option.some.injEq]
      constructor
      · rintro ⟨rfl | ⟨-, hne⟩, he⟩
        · rfl
        · exact absurd he hne
      · rintro rfl
        exact ⟨.inl rfl, rfl⟩
    · rw [Function.update_of_ne hkk, ← H.holds]
      constructor
      · rintro ⟨rfl | ⟨hx, -⟩, he⟩
        · exact absurd he.symm hkk
        · exact ⟨hx, he⟩
      · rintro ⟨hx, he⟩
        exact ⟨.inr ⟨hx, fun h => hkk (he.symm.trans h)⟩, he⟩

/-- **`VG_(OSetGen_Remove)`** takes the element with the key out and returns it, if there is
one. -/
theorem osetRemove_spec [DecidableEq K] (H : HoldsSet keyOf word ord t m) (k : K) :
    ∃ t', osetRemove keyOf word t k = .ok (m k, t') ∧ t'.cmp = t.cmp ∧
      HoldsSet keyOf word ord t' (Function.update m k none) := by
  have := H.ord_ok.trans
  have := H.ord_ok.lawful
  unfold osetRemove
  rw [H.lookup]
  cases hm : m k with
  | none =>
    refine ⟨t, rfl, rfl, ?_⟩
    rwa [← hm, Function.update_eq_self]
  | some n =>
    obtain ⟨hn, rfl⟩ := (H.holds k n).mpr hm
    have hway : (fun n : ONode E => wayOSet keyOf word t.cmp (n.key keyOf)) =
        fun n => cutAt (ONode.key keyOf) ord (n.key keyOf) := funext fun n => H.way_eq _
    obtain ⟨root, s, hrun, hb⟩ := removeNode_spec false ONode.addr
      (fun n => cutAt (ONode.key keyOf) ord (n.key keyOf)) H.avl H.sorted.ordered
      (fun y _ => (LawfulEqCmp.compare_eq_iff_eq).mpr rfl) hn
    have hmem : ∀ x, x ∈ root.toList ↔ x ∈ t.root.toList ∧ x.key keyOf ≠ n.key keyOf := by
      intro x
      rw [hb.list, removeList, List.mem_append, mem_below_or_above]
    refine ⟨{ t with root, nElems := t.nElems - 1, stack := [] }, ?_, rfl, H.ord_ok, hb.avl, ?_, ?_,
      fun k x => ?_⟩
    · simp only [hway, hrun, ok_bind]
      rfl
    · dsimp only
      rw [hb.list]
      exact H.sorted.remove
    · have hlen := congrArg List.length (H.sorted.cuts (n.key keyOf)).split
      rw [H.atCut, hm] at hlen
      simp only [List.length_append, Option.toList_some, List.length_singleton] at hlen
      dsimp only
      rw [hb.list, removeList, H.count, List.length_append]
      omega
    · dsimp only
      rw [hmem]
      by_cases hkk : k = n.key keyOf
      · subst hkk
        simp only [Function.update_self, reduceCtorEq, iff_false]
        rintro ⟨⟨-, hne⟩, he⟩
        exact hne he
      · rw [Function.update_of_ne hkk, ← H.holds]
        constructor
        · rintro ⟨⟨hx, -⟩, he⟩
          exact ⟨hx, he⟩
        · rintro ⟨hx, he⟩
          exact ⟨⟨hx, fun h => hkk (he.symm.trans h)⟩, he⟩

/-! ## Iteration -/

theorem iterateOSet_eq (calls : Nat) (s : Stack (ONode E)) :
    iterateOSet calls { t with stack := s } = drain nextOSet calls s := by
  induction calls generalizing s with
  | zero => rfl
  | succ calls ih =>
    simp only [iterateOSet, drain, osetNext]
    cases hnext : nextOSet s with
    | error e => rfl
    | ok res =>
      obtain ⟨x, s'⟩ := res
      cases x with
      | none => rfl
      | some n =>
        change (iterateOSet calls { t with stack := s' } >>= fun ns => pure (n :: ns)) = _
        rw [ih s']
        rfl

/-- `VG_(OSetGen_ResetIter)` followed by `VG_(OSetGen_Next)` is the iteration on the stack. -/
theorem osetResetIter_iterate (t : OSet K E) (calls : Nat) :
    (osetResetIter t >>= iterateOSet calls) = (startIter t.root >>= drain nextOSet calls) := by
  unfold osetResetIter
  cases startIter t.root with
  | error e => rfl
  | ok s => exact iterateOSet_eq calls s

/-- `VG_(OSetGen_ResetIter)` followed by `VG_(OSetGen_Next)`. -/
theorem osetIterate_spec {calls : Nat} (hcalls : t.root.toList.length < calls) :
    Bounded (osetResetIter t >>= iterateOSet calls) (· = t.root.toList)
      (fun h => t.root.height ≤ h) := by
  rw [osetResetIter_iterate]
  exact iterate_spec nextOSet_spec hcalls

/-- `VG_(OSetGen_ResetIterAt)` followed by `VG_(OSetGen_Next)`, on a set with a comparison
function. -/
theorem osetIterateAt_spec (H : HoldsSet keyOf word ord t m) (hcmp : t.cmp.isSome) {calls : Nat}
    (hcalls : t.root.toList.length < calls) (k : K) :
    Bounded (osetResetIterAt keyOf word t k >>= iterateOSet calls)
      (· = t.root.toList.filter fun n => decide (ord k (n.key keyOf) ≠ .gt))
      (fun h => t.root.height ≤ h) := by
  have := H.ord_ok.trans
  have hrun : (osetResetIterAt keyOf word t k >>= iterateOSet calls) =
      (seek (wayOSet keyOf word t.cmp k) t.root [] >>= drain nextOSet calls) := by
    obtain ⟨cmp, nElems, root, stack⟩ := t
    cases root with
    | nil => exact iterateOSet_eq calls []
    | node x b l r =>
      simp only [osetResetIterAt, assertThat_of hcmp, ok_bind]
      cases seek (wayOSet keyOf word cmp k) (.node x b l r) [] with
      | error e => rfl
      | ok s => exact iterateOSet_eq (t := ⟨cmp, nElems, .node x b l r, stack⟩) calls s
  rw [hrun, H.way_eq]
  refine (iterateFrom_spec nextOSet_spec (H.sorted.cuts k) hcalls).mono ?_ fun _ => id
  rintro _ rfl
  refine List.filter_congr fun n _ => ?_
  rw [Bool.eq_iff_iff, bne_iff_ne, decide_eq_true_eq]
  rfl

/-! ## Runs -/

variable (keyOf word) in
/-- The tree is a balanced search tree, and all that one can see of it agrees with the set. -/
structure OSetOk (ord : K → K → Ordering) (t : OSet K E) (m : KeySet K E) : Prop where
  searchTree : t.root.toList.Pairwise fun x y => ord (x.key keyOf) (y.key keyOf) = .lt
  avl : t.root.IsAvl
  count : t.nElems = t.root.toList.length
  elems : ∀ n, n ∈ t.root.toList ↔ m (n.key keyOf) = some n
  lookup : ∀ k, avlLookup keyOf word t k = m k
  contains : ∀ k, osetContains keyOf word t k = (m k).isSome
  iterate : ∀ calls, t.root.toList.length < calls →
    Bounded (osetResetIter t >>= iterateOSet calls)
      (fun ns => ns.Pairwise (fun x y => ord (x.key keyOf) (y.key keyOf) = .lt) ∧
        ∀ n, n ∈ ns ↔ m (n.key keyOf) = some n)
      (fun h => t.root.height ≤ h)
  iterateAt : t.cmp.isSome → ∀ calls, t.root.toList.length < calls → ∀ k,
    Bounded (osetResetIterAt keyOf word t k >>= iterateOSet calls)
      (fun ns => ns.Pairwise (fun x y => ord (x.key keyOf) (y.key keyOf) = .lt) ∧
        ∀ n, n ∈ ns ↔ m (n.key keyOf) = some n ∧ ord k (n.key keyOf) ≠ .gt)
      (fun h => t.root.height ≤ h)

theorem HoldsSet.elems (H : HoldsSet keyOf word ord t m) (n : ONode E) :
    n ∈ t.root.toList ↔ m (n.key keyOf) = some n := by
  rw [← H.holds]
  simp

theorem HoldsSet.osetOk (H : HoldsSet keyOf word ord t m) : OSetOk keyOf word ord t m := by
  refine ⟨H.sorted, H.avl, H.count, H.elems, H.lookup, fun k => ?_, fun calls hcalls => ?_,
    fun hcmp calls hcalls k => ?_⟩
  · rw [osetContains, H.lookup]
  · refine (osetIterate_spec hcalls).mono ?_ fun _ => id
    rintro _ rfl
    exact ⟨H.sorted, H.elems⟩
  · refine (osetIterateAt_spec H hcmp hcalls k).mono ?_ fun _ => id
    rintro _ rfl
    refine ⟨List.Pairwise.filter _ H.sorted, fun n => ?_⟩
    rw [List.mem_filter, H.elems, decide_eq_true_eq]

variable (keyOf word) in
/-- An `OSet` and a set that have been updated alike. -/
def AlikeSets (cmp : Option (K → E → Int)) (ord : K → K → Ordering)
    (s : OSet K E × List (Option (ONode E))) (a : KeySet K E × List (Option (ONode E))) : Prop :=
  s.2 = a.2 ∧ s.1.cmp = cmp ∧ HoldsSet keyOf word ord s.1 a.1

theorem stepOSet_alike [DecidableEq K] {cmp : Option (K → E → Int)}
    {s : OSet K E × List (Option (ONode E))} {a : KeySet K E × List (Option (ONode E))}
    (op : OSetOp K E) (h : AlikeSets keyOf word cmp ord s a) (habs : Absent keyOf word s op) :
    ∃ s', stepOSet keyOf word s op = .ok s' ∧
      AlikeSets keyOf word cmp ord s' (stepSet keyOf a op) := by
  obtain ⟨t, outs⟩ := s
  obtain ⟨m, outs'⟩ := a
  obtain ⟨rfl, rfl, H⟩ := h
  cases op with
  | insert n =>
    have hk : m (n.key keyOf) = none := by
      rw [← HoldsSet.lookup (m := m) H]
      exact Option.not_isSome_iff_eq_none.mp (by simpa [Absent, osetContains] using habs)
    obtain ⟨t', hrun, hcmp, H'⟩ := osetInsert_spec H hk
    refine ⟨(t', outs), ?_, rfl, hcmp, H'⟩
    simp only [stepOSet, hrun, ok_bind]
    rfl
  | remove k =>
    obtain ⟨t', hrun, hcmp, H'⟩ := osetRemove_spec H k
    refine ⟨(t', outs ++ [m k]), ?_, rfl, hcmp, H'⟩
    simp only [stepOSet, hrun, ok_bind]
    rfl

theorem holdsSet_create {cmp : Option (K → E → Int)} (h : OrdOk keyOf word cmp ord) :
    HoldsSet keyOf word ord (osetCreate cmp) fun _ => none :=
  ⟨h, trivial, List.Pairwise.nil, rfl, by simp [osetCreate]⟩

/-- **`OSet` refines an ordered set and stays an AVL tree.** Every sequence of removals and of
insertions of absent keys returns, with the results that the set gives, and leaves a balanced
search tree that agrees with the set in every respect. Iteration yields the elements in
ascending order unless the tree is too high for the iterator stack; from a key on, it does so
for a set with a comparison function. -/
theorem oset_refines [DecidableEq K] {cmp : Option (K → E → Int)} (h : OrdOk keyOf word cmp ord)
    (ops : List (OSetOp K E))
    (habs : runMeets (stepOSet keyOf word) (Absent keyOf word) (osetCreate cmp, []) ops) :
    ∃ t, runSteps (stepOSet keyOf word) (osetCreate cmp, []) ops =
        .ok (t, (ops.foldl (stepSet keyOf) (fun _ => none, [])).2) ∧
      t.cmp = cmp ∧ OSetOk keyOf word ord t (ops.foldl (stepSet keyOf) (fun _ => none, [])).1 := by
  have hinit : AlikeSets keyOf word cmp ord (osetCreate cmp, []) (fun _ => none, []) :=
    ⟨rfl, rfl, holdsSet_create h⟩
  obtain ⟨⟨t, outs⟩, hrun, hs, hcmp, H⟩ :=
    runSteps_sim (fun _ _ op h habs => stepOSet_alike op h habs) hinit habs
  exact ⟨t, by rw [hrun, ← hs], hcmp, H.osetOk⟩

end

/-- A set of words without a comparison function. -/
theorem ordOk_words : OrdOk (id : Nat → Nat) id none compare := by
  refine ⟨inferInstance, inferInstance, fun k e => ?_⟩
  simp only [cmpElem, fastCmp, id]
  rcases Nat.lt_trichotomy k e with h | rfl | h
  · rw [if_neg (by omega), if_pos h, Nat.compare_eq_lt.mpr h]
    rfl
  · rw [if_neg (by omega), if_neg (by omega), Nat.compare_eq_eq.mpr rfl]
    rfl
  · rw [if_pos h, Nat.compare_eq_gt.mpr h]
    rfl

/-- Two insertions, a removal, and the node that was removed is inserted again. -/
theorem oset_refines_reinsert :
    runMeets (stepOSet id id) (Absent id id) (osetCreate none, [])
        [.insert ⟨16, 5⟩, .insert ⟨32, 3⟩, .remove 5, .insert ⟨16, 5⟩] ∧
      ∃ t, runSteps (stepOSet id id) (osetCreate none, [])
          [.insert ⟨16, 5⟩, .insert ⟨32, 3⟩, .remove 5, .insert ⟨16, 5⟩] =
            .ok (t, [some ⟨16, 5⟩]) ∧
        t.cmp = none ∧ OSetOk id id compare t (([.insert ⟨16, 5⟩, .insert ⟨32, 3⟩, .remove 5,
          .insert ⟨16, 5⟩] : List (OSetOp Nat Nat)).foldl (stepSet id) (fun _ => none, [])).1 :=
  have habs : runMeets (stepOSet id id) (Absent id id) (osetCreate none, [])
      [.insert ⟨16, 5⟩, .insert ⟨32, 3⟩, .remove 5, .insert ⟨16, 5⟩] := by decide
  ⟨habs, oset_refines ordOk_words _ habs⟩

end Avl

end Valgrind
