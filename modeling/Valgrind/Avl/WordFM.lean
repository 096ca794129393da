import Mathlib.Data.Fintype.Card
import Valgrind.Basics.Machine
import Valgrind.Avl.CoreSpecs
import Valgrind.Avl.Iterate

/-!
# `WordFM` (`m_wordfm.c`)

An AVL tree based finite map for word keys and word values. A map is created with a
comparison function, or with none for unsigned word ordering.

`wordFM_refines`: whatever is added and deleted, in whatever order, no assertion fails,
the tree is a balanced search tree, and all operations agree with the finite map
(`UWord → Option UWord`) that one has in mind. `wordFM_iterates`: iteration yields the
bindings in ascending order.
-/

namespace Valgrind

namespace Avl

open AvlTree Machine
open Std (TransCmp LawfulEqCmp OrientedCmp)

/-- A word, as the type of keys and values. -/
abbrev UWord [Machine] := Fin wordMod

instance [Machine] : NeZero wordMod := ⟨wordMod_pos.ne'⟩

section

variable [Machine]

/-- `AvlNode`, its links and its balance field apart. -/
structure Node where
  addr : Nat
  key : UWord
  val : UWord
  deriving DecidableEq

/-- `WordFM`, its allocator apart. -/
structure WordFM where
  root : BinTree Node
  kCmp : Option (UWord → UWord → Int)
  stack : Stack Node

/-- `cmp_unsigned_Words`. -/
def cmpUnsignedWords (w₁ w₂ : UWord) : Int :=
  if w₁ < w₂ then -1 else if w₂ < w₁ then 1 else 0

/-- `kCmp ? kCmp(k1, k2) : cmp_unsigned_Words(k1, k2)`. -/
def cmpKeys (kCmp : Option (UWord → UWord → Int)) (k₁ k₂ : UWord) : Int :=
  match kCmp with
  | some kCmp => kCmp k₁ k₂
  | none => cmpUnsignedWords k₁ k₂

/-- The way that a search for the key `k` takes at a node: to the left if the comparison of
the node's key with `k` is positive. -/
def way (kCmp : Option (UWord → UWord → Int)) (k : UWord) (n : Node) : Ordering :=
  compare 0 (cmpKeys kCmp n.key k)

/-- `avl_insert_wrk`. If an element with that key is already present, just copy the value of
`a` to the existing node. -/
def avlInsertWrk (kCmp : Option (UWord → UWord → Int)) (a : Node) (root : BinTree Node) :
    Result (BinTree Node × Bool × Option Node) :=
  match root with
  | .nil => pure (.node a 0 .nil .nil, true, none)
  | root => insertNode Node.addr true (way kCmp a.key) (fun n => pure { n with val := a.val }) a root

/-- `avl_remove_wrk`. -/
def avlRemoveWrk (kCmp : Option (UWord → UWord → Int)) (a : Node) (root : BinTree Node) :
    Result (BinTree Node × Bool) :=
  removeNode true Node.addr (fun a => way kCmp a.key) a root

/-- `avl_find_node`. -/
def avlFindNode (kCmp : Option (UWord → UWord → Int)) (k : UWord) (t : BinTree Node) : Option Node :=
  findNode (way kCmp k) t

/-- `avl_find_bounds`. There is no result if the key is in the tree. -/
def avlFindBounds (kCmp : Option (UWord → UWord → Int)) (key : UWord) :
    UWord → UWord → BinTree Node → Option (UWord × UWord)
  | lowerBound, upperBound, .nil => some (lowerBound, upperBound)
  | lowerBound, upperBound, .node n _ l r =>
    match way kCmp key n with
    | .gt => avlFindBounds kCmp key n.key upperBound r
    | .lt => avlFindBounds kCmp key lowerBound n.key l
    | .eq => none

/-- `size_avl_nonNull`, and 0 for an empty tree. -/
def sizeAvl : BinTree Node → Nat
  | .nil => 0
  | .node _ _ l r => 1 + sizeAvl l + sizeAvl r

/-! ## Public interface functions -/

/-- `VG_(newFM)`. -/
def newFM (kCmp : Option (UWord → UWord → Int)) : WordFM := ⟨.nil, kCmp, []⟩

/-- `VG_(addToFM)`. `node` is where `alloc_nofail` puts the new node. -/
def addToFM (fm : WordFM) (k v : UWord) (node : Nat) : Result (Bool × WordFM) := do
  let (root, _, oldV) ← avlInsertWrk fm.kCmp ⟨node, k, v⟩ fm.root
  pure (oldV.isSome, { fm with root })

/-- `VG_(delFromFM)`: the key and the value that were deleted, if there were any. -/
def delFromFM (fm : WordFM) (key : UWord) : Result (Option (UWord × UWord) × WordFM) :=
  match avlFindNode fm.kCmp key fm.root with
  | some node => do
    let (root, _) ← avlRemoveWrk fm.kCmp node fm.root
    pure (some (node.key, node.val), { fm with root })
  | none => pure (none, fm)

/-- `VG_(lookupFM)`. -/
def lookupFM (fm : WordFM) (key : UWord) : Option (UWord × UWord) :=
  (avlFindNode fm.kCmp key fm.root).map fun n => (n.key, n.val)

/-- `VG_(findBoundsFM)`. -/
def findBoundsFM (fm : WordFM) (minKey maxKey key : UWord) : Option (UWord × UWord) :=
  avlFindBounds fm.kCmp key minKey maxKey fm.root

/-- `VG_(sizeFM)`. -/
def sizeFM (fm : WordFM) : Nat := sizeAvl fm.root

/-- `VG_(initIterFM)`. -/
def initIterFM (fm : WordFM) : Result WordFM := do
  let stack ← startIter fm.root
  pure { fm with stack }

/-- `VG_(initIterAtFM)`. -/
def initIterAtFM (fm : WordFM) (startAt : UWord) : Result WordFM := do
  let stack ← seek (way fm.kCmp startAt) fm.root []
  pure { fm with stack }

/-- `VG_(nextIterFM)`. -/
def nextIterFM (fm : WordFM) : Result (Option (UWord × UWord) × WordFM) := do
  let (n, stack) ← nextFM fm.stack
  pure (n.map fun n => (n.key, n.val), { fm with stack })

/-! ## Comparison functions -/

/-- The sign of the function is a strict total order. -/
structure TotalCmp (cmp : UWord → UWord → Int) : Prop where
  eq_zero_iff : ∀ k₁ k₂, cmp k₁ k₂ = 0 ↔ k₁ = k₂
  neg_iff : ∀ k₁ k₂, cmp k₁ k₂ < 0 ↔ 0 < cmp k₂ k₁
  trans : ∀ k₁ k₂ k₃, cmp k₁ k₂ < 0 → cmp k₂ k₃ < 0 → cmp k₁ k₃ < 0

/-- A comparison that a map may be created with. -/
def CmpOk (kCmp : Option (UWord → UWord → Int)) : Prop := ∀ cmp ∈ kCmp, TotalCmp cmp

theorem totalCmp_unsigned : TotalCmp cmpUnsignedWords := by
  refine ⟨fun k₁ k₂ => ?_, fun k₁ k₂ => ?_, fun k₁ k₂ k₃ => ?_⟩
  all_goals simp only [cmpUnsignedWords, Fin.lt_def, Fin.ext_iff]
  all_goals grind

theorem CmpOk.total {kCmp : Option (UWord → UWord → Int)} (h : CmpOk kCmp) : TotalCmp (cmpKeys kCmp) := by
  cases kCmp with
  | none => exact totalCmp_unsigned
  | some cmp => exact h cmp rfl

/-- The comparison of two keys as the tree code sees it: `.lt` if the first is the smaller
one. -/
def keyOrd (kCmp : Option (UWord → UWord → Int)) (k₁ k₂ : UWord) : Ordering :=
  compare 0 (cmpKeys kCmp k₂ k₁)

theorem way_eq (kCmp : Option (UWord → UWord → Int)) (k : UWord) :
    way kCmp k = cutAt Node.key (keyOrd kCmp) k := rfl

section Orders

variable {kCmp : Option (UWord → UWord → Int)} (h : CmpOk kCmp) {k₁ k₂ : UWord}

include h

theorem keyOrd_lt : keyOrd kCmp k₁ k₂ = .lt ↔ cmpKeys kCmp k₁ k₂ < 0 := by
  rw [keyOrd, compare_lt_iff_lt, h.total.neg_iff]

omit h in
theorem keyOrd_gt : keyOrd kCmp k₁ k₂ = .gt ↔ cmpKeys kCmp k₂ k₁ < 0 := by
  rw [keyOrd, compare_gt_iff_gt]

theorem keyOrd_eq : keyOrd kCmp k₁ k₂ = .eq ↔ k₁ = k₂ := by
  rw [keyOrd, compare_eq_iff_eq, eq_comm, h.total.eq_zero_iff, eq_comm]

/-- A comparison function whose sign is a strict total order gives the tree code one. -/
theorem CmpOk.transCmp : TransCmp (keyOrd kCmp) := by
  refine { eq_swap := fun {a b} => ?_, isLE_trans := fun {a b c} hab hbc => ?_ }
  · cases hab : keyOrd kCmp a b with
    | lt => rw [keyOrd_gt.mpr ((keyOrd_lt h).mp hab)]; rfl
    | gt => rw [(keyOrd_lt h).mpr (keyOrd_gt.mp hab)]; rfl
    | eq => rw [(keyOrd_eq h).mpr ((keyOrd_eq h).mp hab).symm]; rfl
  · rw [Ordering.isLE_iff_eq_lt_or_eq_eq, keyOrd_lt h, keyOrd_eq h] at *
    rcases hab with hab | rfl
    · rcases hbc with hbc | rfl
      · exact .inl (h.total.trans a b c hab hbc)
      · exact .inl hab
    · exact hbc

theorem CmpOk.lawfulEqCmp : LawfulEqCmp (keyOrd kCmp) :=
  { compare_self := (keyOrd_eq h).mpr rfl, eq_of_compare := (keyOrd_eq h).mp }

end Orders

/-! ## The finite map -/

/-- What a `WordFM` stands for. -/
abbrev FinMap := UWord → Option UWord

/-- An update. `node` is where `alloc_nofail` puts the new node. -/
inductive FMOp where
  | add (k v : UWord) (node : Nat)
  | del (k : UWord)

/-- What an update returns. -/
inductive FMOut where
  | added (replaced : Bool)
  | deleted (old : Option (UWord × UWord))

/-- One update of a `WordFM`, with what the updates have returned so far. -/
def stepFM (s : WordFM × List FMOut) : FMOp → Result (WordFM × List FMOut)
  | .add k v node => do
    let (replaced, fm) ← addToFM s.1 k v node
    pure (fm, s.2 ++ [.added replaced])
  | .del k => do
    let (old, fm) ← delFromFM s.1 k
    pure (fm, s.2 ++ [.deleted old])

/-- One update of a finite map. -/
def stepMap (s : FinMap × List FMOut) : FMOp → FinMap × List FMOut
  | .add k v _ => (Function.update s.1 k (some v), s.2 ++ [.added (s.1 k).isSome])
  | .del k => (Function.update s.1 k none, s.2 ++ [.deleted ((s.1 k).map fun v => (k, v))])

/-- The tree holds the bindings of the map, and is in order. -/
structure Represents (fm : WordFM) (m : FinMap) : Prop where
  cmp : CmpOk fm.kCmp
  avl : fm.root.IsAvl
  sorted : KeySorted Node.key (keyOrd fm.kCmp) fm.root.toList
  holds : ∀ k v, (∃ n ∈ fm.root.toList, n.key = k ∧ n.val = v) ↔ m k = some v

section Refinement

variable {fm : WordFM} {m : FinMap} {k v : UWord}

/-- The node with a key, if there is one. -/
theorem Represents.atCut_val (R : Represents fm m) (k : UWord) :
    (atCut (way fm.kCmp k) fm.root.toList).map Node.val = m k := by
  have := R.cmp.transCmp
  have := R.cmp.lawfulEqCmp
  rw [way_eq]
  cases hat : atCut (cutAt Node.key (keyOrd fm.kCmp) k) fm.root.toList with
  | none =>
    have hno := R.sorted.atCut_eq_none.mp hat
    cases hm : m k with
    | none => rfl
    | some v =>
      obtain ⟨n, hn, hk, -⟩ := (R.holds k v).mpr hm
      exact absurd hk (hno n hn)
  | some n =>
    obtain ⟨hn, hk⟩ := R.sorted.atCut_eq_some.mp hat
    exact ((R.holds k n.val).mp ⟨n, hn, hk, rfl⟩).symm

theorem Represents.find (R : Represents fm m) (k : UWord) :
    avlFindNode fm.kCmp k fm.root = atCut (way fm.kCmp k) fm.root.toList := by
  have := R.cmp.transCmp
  exact findNode_eq (R.sorted.cuts k)

/-- Insertion into the tree, whether or not it is empty. -/
theorem Represents.insert (R : Represents fm m) (node : Nat) (k v : UWord) :
    ∃ root g, avlInsertWrk fm.kCmp ⟨node, k, v⟩ fm.root =
        .ok (root, g, atCut (way fm.kCmp k) fm.root.toList) ∧ root.IsAvl ∧
      root.toList = insertList (way fm.kCmp k) (fun n => { n with val := v }) ⟨node, k, v⟩
        fm.root.toList := by
  have := R.cmp.transCmp
  by_cases hnil : fm.root = .nil
  · rw [hnil]
    exact ⟨_, _, rfl, by simp, rfl⟩
  · obtain ⟨root, g, hrun, hb, -⟩ := insertNode_spec Node.addr true (way fm.kCmp k)
      (fun n => pure { n with val := v }) (fun n => { n with val := v }) ⟨node, k, v⟩ hnil R.avl
      (R.sorted.cuts k) (fun _ _ _ => rfl)
    refine ⟨root, g, ?_, hb.avl, hb.list⟩
    unfold avlInsertWrk
    split
    · rename_i h
      exact absurd h hnil
    · exact hrun

/-- The node that ends up with the key. -/
theorem Represents.inserted (R : Represents fm m) (node : Nat) (k v : UWord) {n : Node}
    (hn : n = (atCut (way fm.kCmp k) fm.root.toList).elim ⟨node, k, v⟩ fun n => { n with val := v }) :
    n.key = k ∧ n.val = v := by
  have := R.cmp.transCmp
  have := R.cmp.lawfulEqCmp
  subst hn
  cases hat : atCut (way fm.kCmp k) fm.root.toList with
  | none => exact ⟨rfl, rfl⟩
  | some n => exact ⟨(R.sorted.atCut_eq_some.mp hat).2, rfl⟩

/-- **`VG_(addToFM)`** replaces the value of an existing key, or adds the key. -/
theorem addToFM_spec (R : Represents fm m) (k v : UWord) (node : Nat) :
    ∃ root, addToFM fm k v node = .ok ((m k).isSome, { fm with root }) ∧
      Represents { fm with root } (Function.update m k (some v)) := by
  have := R.cmp.transCmp
  have := R.cmp.lawfulEqCmp
  obtain ⟨root, g, hrun, havl, hlist⟩ := R.insert node k v
  obtain ⟨mid, hmid⟩ : ∃ n, n = (atCut (way fm.kCmp k) fm.root.toList).elim ⟨node, k, v⟩
      fun n => { n with val := v } := ⟨_, rfl⟩
  obtain ⟨hkey, hval⟩ := R.inserted node k v hmid
  rw [insertList, ← hmid, way_eq] at hlist
  refine ⟨root, ?_, R.cmp, havl, ?_, fun k' v' => ?_⟩
  · simp only [addToFM, hrun, ok_bind, pure_eq_ok, Prod.mk.injEq, and_true]
    rw [← R.atCut_val k, Option.isSome_map]
  · dsimp only
    rw [hlist]
    exact R.sorted.insert ((keyOrd_eq R.cmp).mpr hkey)
  · have hmem : ∀ n, n ∈ root.toList ↔ n = mid ∨ n ∈ fm.root.toList ∧ n.key ≠ k := by
      intro n
      rw [hlist, List.mem_append, List.mem_cons, ← mem_below_or_above (c := keyOrd fm.kCmp)]
      grind
    simp only [hmem]
    by_cases hk : k' = k
    · subst hk
      rw [Function.update_self, Option.some.injEq]
      constructor
      · rintro ⟨n, rfl | ⟨-, hne⟩, hk, hv⟩
        · exact hval.symm.trans hv
        · exact absurd hk hne
      · rintro rfl
        exact ⟨mid, .inl rfl, hkey, hval⟩
    · rw [Function.update_of_ne hk, ← R.holds]
      constructor
      · rintro ⟨n, rfl | ⟨hn, -⟩, hk', hv⟩
        · exact absurd (hk'.symm.trans hkey) hk
        · exact ⟨n, hn, hk', hv⟩
      · rintro ⟨n, hn, hk', hv⟩
        exact ⟨n, .inr ⟨hn, fun h => hk (hk'.symm.trans h)⟩, hk', hv⟩

/-- **`VG_(delFromFM)`** takes the key out and returns the stored pair, if there is one. -/
theorem delFromFM_spec (R : Represents fm m) (k : UWord) :
    ∃ root, delFromFM fm k = .ok ((m k).map fun v => (k, v), { fm with root }) ∧
      Represents { fm with root } (Function.update m k none) := by
  have := R.cmp.transCmp
  have := R.cmp.lawfulEqCmp
  unfold delFromFM
  rw [R.find k, ← R.atCut_val k]
  cases hat : atCut (way fm.kCmp k) fm.root.toList with
  | none =>
    have hm : m k = none := by rw [← R.atCut_val k, hat]; rfl
    refine ⟨fm.root, rfl, ?_⟩
    rwa [← hm, Function.update_eq_self]
  | some n =>
    obtain ⟨hn, rfl⟩ := R.sorted.atCut_eq_some.mp hat
    obtain ⟨root, s, hrun, hb⟩ := removeNode_spec true Node.addr (fun a => way fm.kCmp a.key) R.avl
      R.sorted.ordered (fun y _ => (keyOrd_eq R.cmp).mpr rfl) hn
    refine ⟨root, ?_, R.cmp, hb.avl, ?_, fun k' v' => ?_⟩
    · simp only [avlRemoveWrk, hrun, ok_bind]
      rfl
    · dsimp only
      rw [hb.list]
      exact R.sorted.remove
    · have hmem : ∀ n', n' ∈ root.toList ↔ n' ∈ fm.root.toList ∧ n'.key ≠ n.key := by
        intro n'
        rw [hb.list, removeList, List.mem_append, way_eq, mem_below_or_above]
      simp only [hmem]
      by_cases hk : k' = n.key
      · subst hk
        simp only [Function.update_self, reduceCtorEq, iff_false]
        rintro ⟨n', ⟨-, hne⟩, hk, -⟩
        exact hne hk
      · rw [Function.update_of_ne hk, ← R.holds]
        constructor
        · rintro ⟨n', ⟨hn', -⟩, hk', hv⟩
          exact ⟨n', hn', hk', hv⟩
        · rintro ⟨n', hn', hk', hv⟩
          exact ⟨n', ⟨hn', fun h => hk (hk'.symm.trans h)⟩, hk', hv⟩

/-- **`VG_(lookupFM)`.** -/
theorem lookupFM_eq (R : Represents fm m) (k : UWord) : lookupFM fm k = (m k).map fun v => (k, v) := by
  have := R.cmp.transCmp
  have := R.cmp.lawfulEqCmp
  rw [lookupFM, R.find, ← R.atCut_val k]
  cases hat : atCut (way fm.kCmp k) fm.root.toList with
  | none => rfl
  | some n =>
    obtain ⟨-, rfl⟩ := R.sorted.atCut_eq_some.mp hat
    rfl

theorem sizeAvl_eq (t : BinTree Node) : sizeAvl t = t.toList.length := by
  induction t with
  | nil => rfl
  | node x b l r ihl ihr =>
    simp only [sizeAvl, ihl, ihr, BinTree.toList_node, List.length_append, List.length_cons]
    omega

theorem Represents.nodup_keys (R : Represents fm m) : (fm.root.toList.map Node.key).Nodup := by
  refine List.pairwise_map.mpr (R.sorted.imp fun {x y} hxy he => ?_)
  rw [he, (keyOrd_eq R.cmp).mpr rfl] at hxy
  exact absurd hxy (by decide)

/-- **`VG_(sizeFM)`** is the number of keys. -/
theorem sizeFM_eq (R : Represents fm m) :
    sizeFM fm = (Finset.univ.filter fun k => (m k).isSome).card := by
  have hkeys : (fm.root.toList.map Node.key).toFinset = Finset.univ.filter fun k => (m k).isSome := by
    ext k
    simp only [List.mem_toFinset, List.mem_map, Finset.mem_filter, Finset.mem_univ, true_and,
      Option.isSome_iff_exists, ← R.holds]
    constructor
    · rintro ⟨n, hn, hk⟩
      exact ⟨n.val, n, hn, hk, rfl⟩
    · rintro ⟨v, n, hn, hk, -⟩
      exact ⟨n, hn, hk⟩
  rw [sizeFM, sizeAvl_eq, ← hkeys, List.toFinset_card_of_nodup R.nodup_keys, List.length_map]

/-! ## Bounds -/

/-- The result of `avl_find_bounds` on a key that is not there: the last key below it and the
first key above it. -/
theorem avlFindBounds_eq {t : BinTree Node} {kCmp : Option (UWord → UWord → Int)}
    (hcut : Cuts (way kCmp k) t.toList) (hno : atCut (way kCmp k) t.toList = none) (lo hi : UWord) :
    avlFindBounds kCmp k lo hi t =
      some (((below (way kCmp k) t.toList).getLast?.map Node.key).getD lo,
        ((above (way kCmp k) t.toList).head?.map Node.key).getD hi) := by
  induction t generalizing lo hi with
  | nil => rfl
  | node x b l r ihl ihr =>
    rw [BinTree.toList_node] at hcut hno ⊢
    unfold avlFindBounds
    cases hx : way kCmp k x with
    | gt =>
      rw [hcut.atCut_of_gt hx] at hno
      rw [hcut.below_of_gt hx, hcut.above_of_gt hx, List.getLast?_append, List.getLast?_cons]
      exact (ihr hcut.right hno x.key hi).trans (by cases (below (way kCmp k) r.toList).getLast? <;> rfl)
    | lt =>
      rw [hcut.atCut_of_lt hx] at hno
      rw [hcut.below_of_lt hx, hcut.above_of_lt hx, List.head?_append]
      exact (ihl hcut.left hno lo x.key).trans (by cases (above (way kCmp k) l.toList).head? <;> rfl)
    | eq =>
      rw [hcut.atCut_of_eq hx] at hno
      exact absurd hno (by simp)

/-- `lo` is the greatest key of the map below `k`, or `minKey` if there is none. -/
def IsPred (kCmp : Option (UWord → UWord → Int)) (m : FinMap) (minKey k lo : UWord) : Prop :=
  (lo = minKey ∧ ∀ k', (m k').isSome → ¬ cmpKeys kCmp k' k < 0) ∨
  ((m lo).isSome ∧ cmpKeys kCmp lo k < 0 ∧
    ∀ k', (m k').isSome → cmpKeys kCmp k' k < 0 → k' = lo ∨ cmpKeys kCmp k' lo < 0)

/-- `hi` is the least key of the map above `k`, or `maxKey` if there is none. -/
def IsSucc (kCmp : Option (UWord → UWord → Int)) (m : FinMap) (maxKey k hi : UWord) : Prop :=
  (hi = maxKey ∧ ∀ k', (m k').isSome → ¬ cmpKeys kCmp k k' < 0) ∨
  ((m hi).isSome ∧ cmpKeys kCmp k hi < 0 ∧
    ∀ k', (m k').isSome → cmpKeys kCmp k k' < 0 → k' = hi ∨ cmpKeys kCmp hi k' < 0)

theorem Represents.exists_node (R : Represents fm m) (hk : (m k).isSome) :
    ∃ n ∈ fm.root.toList, n.key = k := by
  obtain ⟨v, hv⟩ := Option.isSome_iff_exists.mp hk
  obtain ⟨n, hn, hk, -⟩ := (R.holds k v).mpr hv
  exact ⟨n, hn, hk⟩

theorem Represents.isSome (R : Represents fm m) {n : Node} (hn : n ∈ fm.root.toList) :
    (m n.key).isSome := by
  rw [(R.holds n.key n.val).mp ⟨n, hn, rfl, rfl⟩]
  rfl

theorem Represents.isPred (R : Represents fm m) (minKey k : UWord) :
    IsPred fm.kCmp m minKey k
      (((below (way fm.kCmp k) fm.root.toList).getLast?.map Node.key).getD minKey) := by
  have hbelow : ∀ n, n ∈ below (way fm.kCmp k) fm.root.toList ↔
      n ∈ fm.root.toList ∧ cmpKeys fm.kCmp n.key k < 0 := fun n => by
    rw [mem_below, way_eq, cutAt, keyOrd_gt]
  cases hlast : (below (way fm.kCmp k) fm.root.toList).getLast? with
  | none =>
    refine .inl ⟨rfl, fun k' hk' hlt => ?_⟩
    obtain ⟨n, hn, rfl⟩ := R.exists_node hk'
    rw [List.getLast?_eq_none_iff] at hlast
    have := (hbelow n).mpr ⟨hn, hlt⟩
    simp [hlast] at this
  | some n =>
    obtain ⟨ys, hys⟩ := List.getLast?_eq_some_iff.mp hlast
    have hn := (hbelow n).mp (by simp [hys])
    refine .inr ⟨R.isSome hn.1, hn.2, fun k' hk' hlt => ?_⟩
    obtain ⟨n', hn', rfl⟩ := R.exists_node hk'
    have hin := (hbelow n').mpr ⟨hn', hlt⟩
    have hsorted : KeySorted Node.key (keyOrd fm.kCmp) (ys ++ [n]) := hys ▸ R.sorted.filter _
    rw [hys] at hin
    rcases List.mem_append.mp hin with hin | hin
    · exact .inr ((keyOrd_lt R.cmp).mp ((List.pairwise_append.mp hsorted).2.2 n' hin n (by simp)))
    · rw [List.mem_singleton.mp hin]
      exact .inl rfl

theorem Represents.isSucc (R : Represents fm m) (maxKey k : UWord) :
    IsSucc fm.kCmp m maxKey k
      (((above (way fm.kCmp k) fm.root.toList).head?.map Node.key).getD maxKey) := by
  have habove : ∀ n, n ∈ above (way fm.kCmp k) fm.root.toList ↔
      n ∈ fm.root.toList ∧ cmpKeys fm.kCmp k n.key < 0 := fun n => by
    rw [mem_above, way_eq, cutAt, keyOrd_lt R.cmp]
  cases hhead : (above (way fm.kCmp k) fm.root.toList).head? with
  | none =>
    refine .inl ⟨rfl, fun k' hk' hlt => ?_⟩
    obtain ⟨n, hn, rfl⟩ := R.exists_node hk'
    rw [List.head?_eq_none_iff] at hhead
    have := (habove n).mpr ⟨hn, hlt⟩
    simp [hhead] at this
  | some n =>
    obtain ⟨ys, hys⟩ := List.head?_eq_some_iff.mp hhead
    have hn := (habove n).mp (by simp [hys])
    refine .inr ⟨R.isSome hn.1, hn.2, fun k' hk' hlt => ?_⟩
    obtain ⟨n', hn', rfl⟩ := R.exists_node hk'
    have hin := (habove n').mpr ⟨hn', hlt⟩
    have hsorted : KeySorted Node.key (keyOrd fm.kCmp) (n :: ys) := hys ▸ R.sorted.filter _
    rw [hys] at hin
    rcases List.mem_cons.mp hin with rfl | hin
    · exact .inl rfl
    · exact .inr ((keyOrd_lt R.cmp).mp ((List.pairwise_cons.mp hsorted).1 n' hin))

/-- **`VG_(findBoundsFM)`** on a key that is not in the map. -/
theorem findBoundsFM_spec (R : Represents fm m) (minKey maxKey : UWord) (hk : m k = none) :
    ∃ lo hi, findBoundsFM fm minKey maxKey k = some (lo, hi) ∧ IsPred fm.kCmp m minKey k lo ∧
      IsSucc fm.kCmp m maxKey k hi := by
  have := R.cmp.transCmp
  have hno : atCut (way fm.kCmp k) fm.root.toList = none := by
    rw [← R.atCut_val k] at hk
    exact Option.map_eq_none_iff.mp hk
  exact ⟨_, _, avlFindBounds_eq (R.sorted.cuts k) hno minKey maxKey, R.isPred minKey k,
    R.isSucc maxKey k⟩

/-! ## Runs -/

/-- The tree is a balanced search tree, and all that one can see of it agrees with the map. -/
structure FMOk (fm : WordFM) (m : FinMap) : Prop where
  searchTree : fm.root.toList.Pairwise fun x y => cmpKeys fm.kCmp x.key y.key < 0
  avl : fm.root.IsAvl
  pairs : ∀ k v, (∃ n ∈ fm.root.toList, n.key = k ∧ n.val = v) ↔ m k = some v
  lookup : ∀ k, lookupFM fm k = (m k).map fun v => (k, v)
  size : sizeFM fm = (Finset.univ.filter fun k => (m k).isSome).card
  bounds : ∀ minKey maxKey k, m k = none → ∃ lo hi, findBoundsFM fm minKey maxKey k = some (lo, hi) ∧
    IsPred fm.kCmp m minKey k lo ∧ IsSucc fm.kCmp m maxKey k hi

theorem Represents.fmOk (R : Represents fm m) : FMOk fm m :=
  ⟨R.sorted.imp fun h => (keyOrd_lt R.cmp).mp h, R.avl, R.holds, lookupFM_eq R, sizeFM_eq R,
    fun minKey maxKey _ hk => findBoundsFM_spec R minKey maxKey hk⟩

theorem represents_newFM {kCmp : Option (UWord → UWord → Int)} (h : CmpOk kCmp) :
    Represents (newFM kCmp) fun _ => none :=
  ⟨h, trivial, List.Pairwise.nil, by simp [newFM]⟩

/-- One update agrees with the finite map. -/
theorem stepFM_spec {outs : List FMOut} (R : Represents fm m) (op : FMOp) :
    ∃ root, stepFM (fm, outs) op = .ok ({ fm with root }, (stepMap (m, outs) op).2) ∧
      Represents { fm with root } (stepMap (m, outs) op).1 := by
  cases op with
  | add k v node =>
    obtain ⟨root, hrun, R'⟩ := addToFM_spec R k v node
    refine ⟨root, ?_, R'⟩
    simp only [stepFM, hrun, ok_bind]
    rfl
  | del k =>
    obtain ⟨root, hrun, R'⟩ := delFromFM_spec R k
    refine ⟨root, ?_, R'⟩
    simp only [stepFM, hrun, ok_bind]
    rfl

/-- A `WordFM` and a finite map that have been updated alike. -/
def Alike (kCmp : Option (UWord → UWord → Int)) (s : WordFM × List FMOut) (a : FinMap × List FMOut) :
    Prop := s.2 = a.2 ∧ s.1.kCmp = kCmp ∧ Represents s.1 a.1

theorem stepFM_alike {kCmp : Option (UWord → UWord → Int)} {s : WordFM × List FMOut}
    {a : FinMap × List FMOut} (op : FMOp) (h : Alike kCmp s a) :
    ∃ s', stepFM s op = .ok s' ∧ Alike kCmp s' (stepMap a op) := by
  obtain ⟨fm, outs⟩ := s
  obtain ⟨m, outs'⟩ := a
  obtain ⟨rfl, hk, R⟩ := h
  obtain ⟨root, hrun, R'⟩ := stepFM_spec R op
  exact ⟨_, hrun, rfl, hk, R'⟩

/-- Every run of updates agrees with the finite map. -/
theorem runFM_represents {kCmp : Option (UWord → UWord → Int)} (h : CmpOk kCmp) (ops : List FMOp) :
    ∃ fm, runSteps stepFM (newFM kCmp, []) ops =
        .ok (fm, (ops.foldl stepMap (fun _ => none, [])).2) ∧
      fm.kCmp = kCmp ∧ Represents fm (ops.foldl stepMap (fun _ => none, [])).1 := by
  have hinit : Alike kCmp (newFM kCmp, []) (fun _ => none, []) := ⟨rfl, rfl, represents_newFM h⟩
  obtain ⟨⟨fm, outs⟩, hrun, hs, R⟩ := runSteps_sim (fun _ _ op h _ => stepFM_alike op h) hinit
    (runMeets_of_forall (fun _ _ => trivial) _ ops)
  exact ⟨fm, by rw [hrun, ← hs], R⟩

/-- **`WordFM` refines a finite map and stays an AVL tree.** Every sequence of updates of a new
map returns, with the results that the finite map gives, and leaves a balanced search tree
that agrees with the finite map in every respect. -/
theorem wordFM_refines {kCmp : Option (UWord → UWord → Int)} (h : CmpOk kCmp) (ops : List FMOp) :
    ∃ fm, runSteps stepFM (newFM kCmp, []) ops =
        .ok (fm, (ops.foldl stepMap (fun _ => none, [])).2) ∧
      fm.kCmp = kCmp ∧ FMOk fm (ops.foldl stepMap (fun _ => none, [])).1 := by
  obtain ⟨fm, hrun, hk, R⟩ := runFM_represents h ops
  exact ⟨fm, hrun, hk, R.fmOk⟩

/-- Two keys are added, the value of one is replaced, and that one is deleted. -/
def sampleUpdates : List FMOp := [.add 5 7 16, .add 9 1 32, .add 5 8 48, .del 5]

omit [Machine] in
theorem wordFM_refines_sample :
    letI : Machine := x86Linux
    CmpOk none ∧ ∃ fm, runSteps stepFM (newFM none, []) sampleUpdates =
        .ok (fm, [.added false, .added false, .added true, .deleted (some (5, 8))]) ∧
      fm.kCmp = none ∧ FMOk fm (sampleUpdates.foldl stepMap (fun _ => none, [])).1 :=
  letI : Machine := x86Linux
  have h : CmpOk none := by simp [CmpOk]
  ⟨h, wordFM_refines h sampleUpdates⟩

/-! ## Iteration -/

/-- Call `VG_(nextIterFM)` until it returns `False`, at most `calls` times. -/
def iterateFM : Nat → WordFM → Result (List (UWord × UWord))
  | 0, _ => throw .diverge
  | calls + 1, fm => do
    let (kv, fm) ← nextIterFM fm
    match kv with
    | none => pure []
    | some kv => do
      let kvs ← iterateFM calls fm
      pure (kv :: kvs)

/-- The bindings of a tree, in order. -/
def bindings (t : BinTree Node) : List (UWord × UWord) := t.toList.map fun n => (n.key, n.val)

theorem iterateFM_eq (calls : Nat) (s : Stack Node) :
    iterateFM calls { fm with stack := s } =
      (drain nextFM calls s).map (List.map fun n => (n.key, n.val)) := by
  induction calls generalizing s with
  | zero => rfl
  | succ calls ih =>
    simp only [iterateFM, drain, nextIterFM]
    cases hnext : nextFM s with
    | error e => rfl
    | ok res =>
      obtain ⟨x, s'⟩ := res
      cases x with
      | none => rfl
      | some n =>
        simp only [ok_bind, Option.map_some]
        change (iterateFM calls { fm with stack := s' } >>= fun kvs =>
          pure ((n.key, n.val) :: kvs)) = _
        rw [ih s']
        cases drain nextFM calls s' with
        | error e => rfl
        | ok ns => rfl

theorem bounded_map {β γ : Type} {res : Result β} {right : β → Prop} {right' : γ → Prop}
    {fits : Nat → Prop} {f : β → γ} (h : Bounded res right fits) (hf : ∀ v, right v → right' (f v)) :
    Bounded (res.map f) right' fits := by
  rcases h with ⟨v, rfl, hv⟩ | ⟨rfl, hno⟩
  · exact .inl ⟨_, rfl, hf v hv⟩
  · exact .inr ⟨rfl, hno⟩

/-- The bindings are those of the map, in ascending order. -/
theorem Represents.bindings_spec (R : Represents fm m) (p : UWord → Bool) :
    ((bindings fm.root).filter fun kv => p kv.1).Pairwise (fun a b => cmpKeys fm.kCmp a.1 b.1 < 0) ∧
    ∀ k v, (k, v) ∈ (bindings fm.root).filter (fun kv => p kv.1) ↔ m k = some v ∧ p k = true := by
  refine ⟨List.Pairwise.filter _ ?_, fun k v => ?_⟩
  · exact List.pairwise_map.mpr (R.sorted.imp fun h => (keyOrd_lt R.cmp).mp h)
  · rw [List.mem_filter, bindings, List.mem_map, ← R.holds]
    simp only [Prod.mk.injEq]

/-- An iteration from `startAt` on. -/
theorem Represents.iterateAt (R : Represents fm m) {calls : Nat}
    (hcalls : fm.root.toList.length < calls) (startAt : UWord) :
    Bounded (initIterAtFM fm startAt >>= iterateFM calls)
      (· = (bindings fm.root).filter fun kv => decide (0 ≤ cmpKeys fm.kCmp kv.1 startAt))
      (fun h => fm.root.height ≤ h) := by
  have := R.cmp.transCmp
  have hrun : (initIterAtFM fm startAt >>= iterateFM calls) =
      (seek (way fm.kCmp startAt) fm.root [] >>= drain nextFM calls).map
        (List.map fun n => (n.key, n.val)) := by
    unfold initIterAtFM
    cases seek (way fm.kCmp startAt) fm.root [] with
    | error e => rfl
    | ok s => exact iterateFM_eq calls s
  rw [hrun]
  refine bounded_map (iterateFrom_spec nextFM_spec (R.sorted.cuts startAt) hcalls) ?_
  rintro _ rfl
  rw [fromCut, bindings, List.filter_map]
  refine congrArg (List.map _) (List.filter_congr fun n _ => ?_)
  have hway : way fm.kCmp startAt n ≠ .gt ↔ 0 ≤ cmpKeys fm.kCmp n.key startAt := by
    rw [way_eq, cutAt, ne_eq, keyOrd_gt, Int.not_lt]
  rw [Bool.eq_iff_iff, bne_iff_ne, Function.comp, decide_eq_true_eq]
  exact hway

/-- `VG_(initIterFM)` followed by `VG_(nextIterFM)` is the iteration on the stack. -/
theorem initIterFM_iterate (fm : WordFM) (calls : Nat) : (initIterFM fm >>= iterateFM calls) =
    (startIter fm.root >>= drain nextFM calls).map (List.map fun n => (n.key, n.val)) := by
  unfold initIterFM
  cases startIter fm.root with
  | error e => rfl
  | ok s => exact iterateFM_eq calls s

/-- An iteration over the whole map. -/
theorem Represents.iterate (R : Represents fm m) {calls : Nat}
    (hcalls : fm.root.toList.length < calls) :
    Bounded (initIterFM fm >>= iterateFM calls) (· = bindings fm.root)
      (fun h => fm.root.height ≤ h) := by
  rw [initIterFM_iterate]
  refine bounded_map (iterate_spec nextFM_spec hcalls) ?_
  rintro _ rfl
  rfl

/-- **`WordFM` iteration.** For every map that updates can lead to, `VG_(initIterAtFM)`
followed by `VG_(nextIterFM)` until it returns `False` yields exactly the bindings with keys
from `startAt` on, in strictly ascending order, and `VG_(initIterFM)` all bindings. The only
thing that can go wrong is that a tree higher than the iterator stack fills it. -/
theorem wordFM_iterates {kCmp : Option (UWord → UWord → Int)} (h : CmpOk kCmp) (ops : List FMOp) :
    ∃ fm, runSteps stepFM (newFM kCmp, []) ops =
        .ok (fm, (ops.foldl stepMap (fun _ => none, [])).2) ∧
      ∀ calls, sizeFM fm < calls →
        (∀ startAt, Bounded (initIterAtFM fm startAt >>= iterateFM calls)
          (fun kvs => kvs.Pairwise (fun a b => cmpKeys kCmp a.1 b.1 < 0) ∧
            ∀ k v, (k, v) ∈ kvs ↔ (ops.foldl stepMap (fun _ => none, [])).1 k = some v ∧
              0 ≤ cmpKeys kCmp k startAt)
          (fun h => fm.root.height ≤ h)) ∧
        Bounded (initIterFM fm >>= iterateFM calls)
          (fun kvs => kvs.Pairwise (fun a b => cmpKeys kCmp a.1 b.1 < 0) ∧
            ∀ k v, (k, v) ∈ kvs ↔ (ops.foldl stepMap (fun _ => none, [])).1 k = some v)
          (fun h => fm.root.height ≤ h) := by
  obtain ⟨fm, hrun, rfl, R⟩ := runFM_represents h ops
  refine ⟨fm, hrun, fun calls hcalls => ?_⟩
  rw [sizeFM, sizeAvl_eq] at hcalls
  refine ⟨fun startAt => (R.iterateAt hcalls startAt).mono ?_ fun _ => id,
    (R.iterate hcalls).mono ?_ fun _ => id⟩
  · rintro _ rfl
    obtain ⟨hasc, hmem⟩ := R.bindings_spec fun k => decide (0 ≤ cmpKeys fm.kCmp k startAt)
    exact ⟨hasc, fun k v => by rw [hmem, decide_eq_true_eq]⟩
  · rintro _ rfl
    obtain ⟨hasc, hmem⟩ := R.bindings_spec fun _ => true
    rw [List.filter_true] at hasc hmem
    exact ⟨hasc, fun k v => by simpa using hmem k v⟩

omit [Machine] in
theorem wordFM_iterates_sample :
    letI : Machine := x86Linux
    CmpOk none ∧ ∃ fm, runSteps stepFM (newFM none, []) sampleUpdates =
        .ok (fm, [.added false, .added false, .added true, .deleted (some (5, 8))]) ∧
      ∀ calls, sizeFM fm < calls →
        (∀ startAt, Bounded (initIterAtFM fm startAt >>= iterateFM calls)
          (fun kvs => kvs.Pairwise (fun a b => cmpKeys none a.1 b.1 < 0) ∧
            ∀ k v, (k, v) ∈ kvs ↔ (sampleUpdates.foldl stepMap (fun _ => none, [])).1 k = some v ∧
              0 ≤ cmpKeys none k startAt)
          (fun h => fm.root.height ≤ h)) ∧
        Bounded (initIterFM fm >>= iterateFM calls)
          (fun kvs => kvs.Pairwise (fun a b => cmpKeys none a.1 b.1 < 0) ∧
            ∀ k v, (k, v) ∈ kvs ↔ (sampleUpdates.foldl stepMap (fun _ => none, [])).1 k = some v)
          (fun h => fm.root.height ≤ h) :=
  letI : Machine := x86Linux
  have h : CmpOk none := by simp [CmpOk]
  ⟨h, wordFM_iterates h sampleUpdates⟩

end Refinement

end

end Avl

end Valgrind
