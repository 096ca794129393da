import Mathlib.Algebra.BigOperators.Group.Finset.Basic
import Mathlib.Algebra.Order.BigOperators.Group.Finset
import Mathlib.Data.Finset.Card
import Valgrind.Avl.WordFM

/-!
# `WordBag` (`m_wordfm.c`)

A bag is a `WordFM` that maps each word to how often it is in the bag. `wordBag_refines`: as long as
no count reaches the number of words, additions and deletions do what they do to the multiset that
one has in mind, and the queries answer what the multiset says.
-/

namespace Valgrind

namespace Avl

open AvlTree Machine

section

variable [Machine]

/-- `WordBag`. -/
structure WordBag where
  fm : WordFM

/-- `VG_(newBag)`. -/
def newBag : WordBag := ⟨newFM none⟩

/-- What is asserted of the binding that is found for `w`. -/
def assertCount (w : UWord) (kv : UWord × UWord) : Result Unit := do
  assertThat (kv.1 = w)
  assertThat (1 ≤ kv.2.val)

/-- `VG_(addToBag)`. `node` is where `alloc_nofail` puts the new node. -/
def addToBag (bag : WordBag) (w : UWord) (node : Nat) : Result WordBag :=
  match lookupFM bag.fm w with
  | some kv => do
    assertCount w kv
    let (_, fm) ← addToFM bag.fm w (kv.2 + 1) node
    return ⟨fm⟩
  | none => do
    let (_, fm) ← addToFM bag.fm w 1 node
    return ⟨fm⟩

/-- `VG_(elemBag)`. -/
def elemBag (bag : WordBag) (w : UWord) : Result UWord :=
  match lookupFM bag.fm w with
  | some kv => do
    assertCount w kv
    return kv.2
  | none => return 0

/-- `VG_(sizeUniqueBag)`. -/
def sizeUniqueBag (bag : WordBag) : Nat := sizeFM bag.fm

/-- `sizeTotalBag_wrk`, and 0 for an empty tree. -/
def sizeTotalBagWrk : BinTree Node → Result UWord
  | .nil => return 0
  | .node n _ l r => do
    assertThat (1 ≤ n.val.val)
    let left ← sizeTotalBagWrk l
    let right ← sizeTotalBagWrk r
    return n.val + left + right

/-- `VG_(sizeTotalBag)`. -/
def sizeTotalBag (bag : WordBag) : Result UWord := sizeTotalBagWrk bag.fm.root

/-- `VG_(delFromBag)`. -/
def delFromBag (bag : WordBag) (w : UWord) (node : Nat) : Result (Bool × WordBag) :=
  match lookupFM bag.fm w with
  | some kv => do
    assertCount w kv
    if 1 < kv.2.val then
      let (_, fm) ← addToFM bag.fm w (kv.2 - 1) node
      return (true, ⟨fm⟩)
    else
      assertThat (kv.2.val = 1)
      let (_, fm) ← delFromFM bag.fm w
      return (true, ⟨fm⟩)
  | none => return (false, bag)

/-- `VG_(isEmptyBag)`. -/
def isEmptyBag (bag : WordBag) : Bool := sizeFM bag.fm = 0

/-- `VG_(isSingletonTotalBag)`. -/
def isSingletonTotalBag (bag : WordBag) : Result Bool :=
  if sizeFM bag.fm ≠ 1 then .ok false
  else match bag.fm.root with
    | .nil => .error .assertFailed
    | .node n _ l r => do
      assertThat (l.root = none)
      assertThat (r.root = none)
      return decide (n.val = 1)

/-- `VG_(anyElementOfBag)`: the one at the root. -/
def anyElementOfBag (bag : WordBag) : Result UWord :=
  match bag.fm.root with
  | .nil => .error .assertFailed
  | .node n _ _ _ => do
    assertThat (1 ≤ n.val.val)
    return n.key

/-! ## The multiset -/

/-- What the map has for a multiset. -/
def countMap (S : Multiset UWord) : FinMap := fun w => if w ∈ S then some (Fin.ofNat wordMod (S.count w)) else none

/-- The bag holds the multiset, whose counts are words. -/
structure WordBag.Holds (bag : WordBag) (S : Multiset UWord) : Prop where
  represents : Represents bag.fm (countMap S)
  fits : ∀ w, S.count w < wordMod

variable {bag : WordBag} {S : Multiset UWord} {w : UWord}

theorem countMap_of_mem (hw : w ∈ S) : countMap S w = some (Fin.ofNat wordMod (S.count w)) := if_pos hw

theorem countMap_of_notMem (hw : w ∉ S) : countMap S w = none := if_neg hw

theorem countMap_cons (w : UWord) (S : Multiset UWord) :
    countMap (w ::ₘ S) = Function.update (countMap S) w (some (Fin.ofNat wordMod (S.count w + 1))) := by
  funext u
  by_cases hu : u = w
  · subst hu
    rw [Function.update_self, countMap_of_mem (Multiset.mem_cons_self u S), Multiset.count_cons_self]
  · rw [Function.update_of_ne hu, countMap, countMap, Multiset.count_cons_of_ne hu]
    simp only [Multiset.mem_cons, hu, false_or]

/-- Another word keeps its count. -/
theorem countMap_erase_of_ne {u : UWord} (hu : u ≠ w) : countMap (S.erase w) u = countMap S u := by
  rw [countMap, countMap, Multiset.count_erase_of_ne hu]
  simp only [Multiset.mem_erase_of_ne hu]

theorem countMap_erase_last (hw : S.count w = 1) : countMap (S.erase w) = Function.update (countMap S) w none := by
  funext u
  by_cases hu : u = w
  · subst hu
    rw [Function.update_self, countMap_of_notMem]
    rw [← Multiset.count_eq_zero, Multiset.count_erase_self, hw]
  · rw [Function.update_of_ne hu, countMap_erase_of_ne hu]

theorem countMap_erase (hw : 1 < S.count w) :
    countMap (S.erase w) = Function.update (countMap S) w (some (Fin.ofNat wordMod (S.count w - 1))) := by
  funext u
  by_cases hu : u = w
  · subst hu
    have hmem : u ∈ S.erase u := by
      rw [← Multiset.count_pos, Multiset.count_erase_self]
      omega
    rw [Function.update_self, countMap_of_mem hmem, Multiset.count_erase_self]
  · rw [Function.update_of_ne hu, countMap_erase_of_ne hu]

/-- A count as a word. -/
theorem WordBag.Holds.val_count (h : bag.Holds S) (w : UWord) : (Fin.ofNat wordMod (S.count w)).val = S.count w :=
  Nat.mod_eq_of_lt (h.fits w)

theorem WordBag.Holds.lookup_of_mem (h : bag.Holds S) (hw : w ∈ S) :
    lookupFM bag.fm w = some (w, Fin.ofNat wordMod (S.count w)) := by
  rw [lookupFM_eq h.represents, countMap_of_mem hw, Option.map_some]

theorem WordBag.Holds.lookup_of_notMem (h : bag.Holds S) (hw : w ∉ S) : lookupFM bag.fm w = none := by
  rw [lookupFM_eq h.represents, countMap_of_notMem hw, Option.map_none]

/-- The assertions about a binding hold. -/
theorem WordBag.Holds.assertCount (h : bag.Holds S) (hw : w ∈ S) :
    assertCount w (w, Fin.ofNat wordMod (S.count w)) = .ok () := by
  rw [Avl.assertCount, assertThat_of rfl, ok_bind, assertThat_of]
  dsimp only
  rw [h.val_count]
  exact Multiset.count_pos.mpr hw

/-! ## Additions and deletions -/

/-- **`VG_(addToBag)`**, where the count stays below the number of words. -/
theorem addToBag_spec (h : bag.Holds S) (hfits : S.count w + 1 < wordMod) (node : Nat) :
    ∃ bag', addToBag bag w node = .ok bag' ∧ bag'.Holds (w ::ₘ S) := by
  have hcounts : ∀ u, (w ::ₘ S).count u < wordMod := fun u => by
    by_cases hu : u = w
    · subst hu
      rwa [Multiset.count_cons_self]
    · rw [Multiset.count_cons_of_ne hu]
      exact h.fits u
  have hmap := countMap_cons w S
  by_cases hw : w ∈ S
  · -- The count of a word that is there goes up by one, without wrapping around.
    have hnext : Fin.ofNat wordMod (S.count w) + 1 = Fin.ofNat wordMod (S.count w + 1) := by
      refine Fin.ext ?_
      rw [Fin.val_add, Fin.val_one', h.val_count, Nat.add_mod_mod]
      rfl
    obtain ⟨root, hrun, R⟩ := addToFM_spec h.represents w (Fin.ofNat wordMod (S.count w) + 1) node
    rw [hnext, ← hmap] at R
    refine ⟨⟨{ bag.fm with root }⟩, ?_, R, hcounts⟩
    rw [addToBag, h.lookup_of_mem hw]
    dsimp only
    rw [h.assertCount hw, ok_bind, hrun]
    rfl
  · have hone : (1 : UWord) = Fin.ofNat wordMod (S.count w + 1) := by
      rw [Multiset.count_eq_zero.mpr hw]
      refine Fin.ext ?_
      rw [Fin.val_one']
      rfl
    obtain ⟨root, hrun, R⟩ := addToFM_spec h.represents w 1 node
    rw [hone, ← hmap] at R
    refine ⟨⟨{ bag.fm with root }⟩, ?_, R, hcounts⟩
    rw [addToBag, h.lookup_of_notMem hw]
    dsimp only
    rw [hrun]
    rfl

/-- **`VG_(delFromBag)`.** -/
theorem delFromBag_spec (h : bag.Holds S) (w : UWord) (node : Nat) :
    ∃ bag', delFromBag bag w node = .ok (decide (w ∈ S), bag') ∧ bag'.Holds (S.erase w) := by
  have hcounts : ∀ u, (S.erase w).count u < wordMod := fun u =>
    (Multiset.count_le_of_le u (Multiset.erase_le w S)).trans_lt (h.fits u)
  by_cases hw : w ∈ S
  · have hpos := Multiset.count_pos.mpr hw
    rw [decide_eq_true hw, delFromBag, h.lookup_of_mem hw]
    dsimp only
    rw [h.assertCount hw, ok_bind, h.val_count]
    by_cases hmany : 1 < S.count w
    · -- One copy less: the binding stays.
      have hnext : Fin.ofNat wordMod (S.count w) - 1 = Fin.ofNat wordMod (S.count w - 1) := by
        have hval := h.val_count w
        have hone : ((1 : UWord)).val = 1 := by
          rw [Fin.val_one', Nat.mod_eq_of_lt (hmany.trans (h.fits w))]
        have hle : (1 : UWord) ≤ Fin.ofNat wordMod (S.count w) := Fin.le_def.mpr (by omega)
        refine Fin.ext ?_
        rw [Fin.sub_val_of_le hle, hval, hone]
        exact (Nat.mod_eq_of_lt (by have := h.fits w; omega)).symm
      obtain ⟨root, hrun, R⟩ := addToFM_spec h.represents w (Fin.ofNat wordMod (S.count w) - 1) node
      rw [hnext, ← countMap_erase hmany] at R
      refine ⟨⟨{ bag.fm with root }⟩, ?_, R, hcounts⟩
      rw [if_pos hmany, hrun]
      rfl
    · -- The last copy: the binding goes.
      have hlast : S.count w = 1 := by omega
      obtain ⟨root, hrun, R⟩ := delFromFM_spec h.represents w
      rw [← countMap_erase_last hlast] at R
      refine ⟨⟨{ bag.fm with root }⟩, ?_, R, hcounts⟩
      rw [if_neg hmany, assertThat_of hlast, ok_bind, hrun]
      rfl
  · rw [decide_eq_false hw, delFromBag, h.lookup_of_notMem hw, Multiset.erase_of_notMem hw]
    exact ⟨bag, rfl, h⟩

/-! ## Queries -/

/-- The nodes are the words with their counts. -/
theorem WordBag.Holds.node (h : bag.Holds S) {n : Node} (hn : n ∈ bag.fm.root.toList) :
    n.key ∈ S ∧ n.val.val = S.count n.key := by
  have hbinding := (h.represents.holds n.key n.val).mp ⟨n, hn, rfl, rfl⟩
  by_cases hkey : n.key ∈ S
  · rw [countMap_of_mem hkey] at hbinding
    rw [← Option.some.inj hbinding]
    exact ⟨hkey, h.val_count n.key⟩
  · cases (countMap_of_notMem hkey).symm.trans hbinding

theorem WordBag.Holds.keys (h : bag.Holds S) : (bag.fm.root.toList.map Node.key).toFinset = S.toFinset := by
  ext w
  rw [List.mem_toFinset, List.mem_map, Multiset.mem_toFinset]
  constructor
  · rintro ⟨n, hn, rfl⟩
    exact (h.node hn).1
  · intro hw
    obtain ⟨n, hn, hkey, -⟩ := (h.represents.holds w _).mpr (countMap_of_mem hw)
    exact ⟨n, hn, hkey⟩

/-- The counts add up. -/
theorem WordBag.Holds.sum_vals (h : bag.Holds S) : (bag.fm.root.toList.map fun n => n.val.val).sum = S.card := by
  have hvals : (bag.fm.root.toList.map fun n => n.val.val) = (bag.fm.root.toList.map Node.key).map S.count := by
    rw [List.map_map]
    exact List.map_congr_left fun n hn => (h.node hn).2
  rw [hvals, ← List.sum_toFinset _ h.represents.nodup_keys, h.keys, Multiset.toFinset_sum_count_eq]

theorem WordBag.Holds.sizeUnique (h : bag.Holds S) : sizeUniqueBag bag = S.toFinset.card := by
  rw [sizeUniqueBag, sizeFM, sizeAvl_eq, ← h.keys, List.toFinset_card_of_nodup h.represents.nodup_keys, List.length_map]

theorem sizeTotalBagWrk_spec {t : BinTree Node} (ht : ∀ n ∈ t.toList, 1 ≤ n.val.val) :
    ∃ total, sizeTotalBagWrk t = .ok total ∧ total.val = (t.toList.map fun n => n.val.val).sum % wordMod := by
  induction t with
  | nil => exact ⟨0, rfl, Nat.zero_mod _⟩
  | node n b l r ihl ihr =>
    simp only [BinTree.toList_node, List.mem_append, List.mem_cons] at ht
    obtain ⟨left, hleft, hl⟩ := ihl fun n hn => ht n (.inl hn)
    obtain ⟨right, hright, hr⟩ := ihr fun n hn => ht n (.inr (.inr hn))
    refine ⟨n.val + left + right, ?_, ?_⟩
    · rw [sizeTotalBagWrk, assertThat_of (ht n (.inr (.inl rfl))), ok_bind, hleft, ok_bind, hright]
      rfl
    · rw [Fin.val_add, Fin.val_add, hl, hr, BinTree.toList_node, List.map_append, List.map_cons, List.sum_append,
        List.sum_cons, Nat.add_mod_mod, Nat.mod_add_mod, Nat.add_right_comm, Nat.add_mod_mod]
      congr 1
      omega

/-- A tree of one node. -/
theorem eq_leaf_of_sizeAvl {t : BinTree Node} (ht : sizeAvl t = 1) : ∃ n b, t = .node n b .nil .nil := by
  cases t with
  | nil => cases ht
  | node n b l r =>
    cases l with
    | node =>
      simp only [sizeAvl] at ht
      omega
    | nil =>
      cases r with
      | node =>
        simp only [sizeAvl] at ht
        omega
      | nil => exact ⟨n, b, rfl⟩

theorem WordBag.Holds.isSingletonTotal (h : bag.Holds S) : isSingletonTotalBag bag = .ok (decide (S.card = 1)) := by
  rw [isSingletonTotalBag]
  by_cases hone : sizeFM bag.fm = 1
  · -- The only node has all the words.
    obtain ⟨n, b, hroot⟩ := eq_leaf_of_sizeAvl hone
    have hsum := h.sum_vals
    rw [hroot] at hsum
    have hval : n.val.val = S.card := by simpa using hsum
    have hword : 1 < wordMod := by
      rcases wordMod_cases with hw | hw <;> omega
    have hiff : n.val = 1 ↔ S.card = 1 := by
      rw [Fin.ext_iff, Fin.val_one', Nat.mod_eq_of_lt hword, hval]
    rw [if_neg (not_not_intro hone), hroot]
    exact congrArg Except.ok (decide_eq_decide.mpr hiff)
  · rw [if_pos hone, decide_eq_false]
    intro hcard
    obtain ⟨w, rfl⟩ := Multiset.card_eq_one.mp hcard
    exact hone (h.sizeUnique.trans (by simp))

theorem WordBag.Holds.anyElement (h : bag.Holds S) (hS : S ≠ 0) : ∃ w ∈ S, anyElementOfBag bag = .ok w := by
  cases hroot : bag.fm.root with
  | nil =>
    have hkeys := h.keys
    rw [hroot, BinTree.toList_nil, List.map_nil, List.toFinset_nil] at hkeys
    exact absurd (Multiset.toFinset_eq_empty.mp hkeys.symm) hS
  | node n b l r =>
    obtain ⟨hmem, hval⟩ := h.node (n := n) (by rw [hroot]; simp)
    refine ⟨n.key, hmem, ?_⟩
    rw [anyElementOfBag, hroot]
    dsimp only
    rw [assertThat_of (hval ▸ Multiset.count_pos.mpr hmem)]
    rfl

/-- A bag that answers as a multiset does. -/
structure BagOk (bag : WordBag) (S : Multiset UWord) : Prop where
  avl : bag.fm.root.IsAvl
  elem : ∀ w, ∃ count, elemBag bag w = .ok count ∧ count.val = S.count w
  sizeUnique : sizeUniqueBag bag = S.toFinset.card
  sizeTotal : ∃ total, sizeTotalBag bag = .ok total ∧ total.val = S.card % wordMod
  isEmpty : isEmptyBag bag = true ↔ S = 0
  isSingletonTotal : isSingletonTotalBag bag = .ok (decide (S.card = 1))
  anyElement : S ≠ 0 → ∃ w ∈ S, anyElementOfBag bag = .ok w

theorem WordBag.Holds.bagOk (h : bag.Holds S) : BagOk bag S where
  avl := h.represents.avl
  elem := fun w => by
    by_cases hw : w ∈ S
    · refine ⟨_, ?_, h.val_count w⟩
      rw [elemBag, h.lookup_of_mem hw]
      dsimp only
      rw [h.assertCount hw]
      rfl
    · refine ⟨0, ?_, (Multiset.count_eq_zero.mpr hw).symm⟩
      rw [elemBag, h.lookup_of_notMem hw]
      rfl
  sizeUnique := h.sizeUnique
  sizeTotal := by
    obtain ⟨total, hrun, htotal⟩ := sizeTotalBagWrk_spec fun n hn => by
      rw [(h.node hn).2]
      exact Multiset.count_pos.mpr (h.node hn).1
    exact ⟨total, hrun, by rw [htotal, h.sum_vals]⟩
  isEmpty := by
    rw [isEmptyBag, decide_eq_true_eq, ← sizeUniqueBag, h.sizeUnique, Finset.card_eq_zero, Multiset.toFinset_eq_empty]
  isSingletonTotal := h.isSingletonTotal
  anyElement := h.anyElement

/-! ## Runs -/

/-- What is done to a bag. -/
inductive BagOp where
  | add (w : UWord) (node : Nat)
  | del (w : UWord) (node : Nat)

/-- One call. The results of the deletions are collected. -/
def stepBag (s : WordBag × List Bool) : BagOp → Result (WordBag × List Bool)
  | .add w node => do
    let bag ← addToBag s.1 w node
    return (bag, s.2)
  | .del w node => do
    let (found, bag) ← delFromBag s.1 w node
    return (bag, s.2 ++ [found])

/-- What it does to a multiset. -/
def stepMultiset (s : Multiset UWord × List Bool) : BagOp → Multiset UWord × List Bool
  | .add w _ => (w ::ₘ s.1, s.2)
  | .del w _ => (s.1.erase w, s.2 ++ [decide (w ∈ s.1)])

/-- The multiset after some calls, and the results of the deletions. -/
def multisetOf (ops : List BagOp) : Multiset UWord × List Bool := ops.foldl stepMultiset (0, [])

theorem multisetOf_concat (ops : List BagOp) (op : BagOp) :
    multisetOf (ops ++ [op]) = stepMultiset (multisetOf ops) op := List.foldl_concat ..

theorem holds_newBag : newBag.Holds 0 :=
  ⟨represents_newFM (by simp [CmpOk]), fun w => by rw [Multiset.count_zero]; exact wordMod_pos⟩

/-- One call does what it does to the multiset. -/
theorem stepBag_spec (h : bag.Holds S) (outs : List Bool) (op : BagOp)
    (hfits : ∀ w, (stepMultiset (S, outs) op).1.count w < wordMod) :
    ∃ bag', stepBag (bag, outs) op = .ok (bag', (stepMultiset (S, outs) op).2) ∧
      bag'.Holds (stepMultiset (S, outs) op).1 := by
  cases op with
  | add w node =>
    have hw : S.count w + 1 < wordMod := by
      rw [← Multiset.count_cons_self]
      exact hfits w
    obtain ⟨bag', hrun, h'⟩ := addToBag_spec h hw node
    exact ⟨bag', by rw [stepBag, hrun]; rfl, h'⟩
  | del w node =>
    obtain ⟨bag', hrun, h'⟩ := delFromBag_spec h w node
    exact ⟨bag', by rw [stepBag, hrun]; rfl, h'⟩

/-- No more words than calls are in the bag. -/
theorem card_multisetOf_le (ops : List BagOp) : (multisetOf ops).1.card ≤ ops.length := by
  induction ops using List.reverseRecOn with
  | nil => exact le_rfl
  | append_singleton ops op ih =>
    rw [multisetOf_concat, List.length_append, List.length_singleton]
    cases op with
    | add w node =>
      rw [stepMultiset, Multiset.card_cons]
      omega
    | del w node =>
      have := Multiset.card_le_card (Multiset.erase_le w (multisetOf ops).1)
      rw [stepMultiset]
      dsimp only
      omega

/-- Fewer calls than there are words cannot make a count wrap around. -/
theorem count_lt_of_length {ops pre : List BagOp} (hlen : ops.length < wordMod) (hpre : pre <+: ops) (w : UWord) :
    (multisetOf pre).1.count w < wordMod :=
  ((Multiset.count_le_card w _).trans ((card_multisetOf_le pre).trans hpre.length_le)).trans_lt hlen

/-- **`WordBag` refines a multiset.** Every sequence of additions and deletions during which no word
is in the bag as often as there are words returns, with the results that the multiset gives, and
leaves a balanced tree that answers all queries as the multiset does. -/
theorem wordBag_refines (ops : List BagOp) (hfits : ∀ pre, pre <+: ops → ∀ w, (multisetOf pre).1.count w < wordMod) :
    ∃ bag, runSteps stepBag (newBag, []) ops = .ok (bag, (multisetOf ops).2) ∧ BagOk bag (multisetOf ops).1 := by
  have hrun : ∃ bag, runSteps stepBag (newBag, []) ops = .ok (bag, (multisetOf ops).2) ∧ bag.Holds (multisetOf ops).1 := by
    induction ops using List.reverseRecOn with
    | nil => exact ⟨newBag, rfl, holds_newBag⟩
    | append_singleton ops op ih =>
      obtain ⟨bag, hrun, h⟩ := ih fun pre hpre => hfits pre (hpre.trans (List.prefix_append ops [op]))
      have hop := hfits (ops ++ [op]) List.prefix_rfl
      rw [multisetOf_concat] at hop ⊢
      obtain ⟨bag', hstep, h'⟩ := stepBag_spec h _ op hop
      exact ⟨bag', runSteps_append.mpr ⟨_, hrun, runSteps_cons.mpr ⟨_, hstep, rfl⟩⟩, h'⟩
  obtain ⟨bag, hrun, h⟩ := hrun
  exact ⟨bag, hrun, h.bagOk⟩

omit [Machine] in
/-- A word is added twice and taken out once, and another one is looked for. -/
theorem wordBag_refines_sample :
    letI : Machine := x86Linux
    ∃ bag, runSteps stepBag (newBag, []) [.add 5 16, .add 5 32, .del 5 48, .del 7 64] = .ok (bag, [true, false]) ∧
      BagOk bag {5} := by
  let _ : Machine := x86Linux
  have hlen : List.length [BagOp.add 5 16, .add 5 32, .del 5 48, .del 7 64] < wordMod := by decide
  exact wordBag_refines _ fun pre hpre => count_lt_of_length hlen hpre

end

end Avl

end Valgrind
