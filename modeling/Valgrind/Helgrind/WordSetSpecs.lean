import Mathlib.Data.List.TakeWhile
import Valgrind.Helgrind.WordSet

/-!
# Word sets are canonical

What the operations of a universe do is said by a universe without tree and caches, a list
of sorted vectors: `intern` finds a vector or appends it, and every operation interns the
vector that set theory prescribes.
-/

namespace Valgrind

namespace Helgrind

open AvlTree SortedMerge
open Avl (insertNode findNode insertList insertNode_spec findNode_eq)
open Std (TransCmp LawfulEqCmp)

/-! ## The comparison -/

/-- The comparison of two vectors as the tree code sees it. -/
def vecOrd (u v : WordVec) : Ordering := compare 0 (cmpWordVecs v u)

theorem wayVec_eq (wv : WordVec) : wayVec wv = cutAt VecNode.key vecOrd wv := rfl

theorem cmpWordVecs_spec (u v : WordVec) :
    (cmpWordVecs u v < 0 ↔ u < v) ∧ (0 < cmpWordVecs u v ↔ v < u) := by
  induction u, v using cmpWordVecs.induct with
  | case1 => simp [cmpWordVecs]
  | case2 b v => simp [cmpWordVecs]
  | case3 a u => simp [cmpWordVecs]
  | case4 a u v ih =>
    rw [cmpWordVecs, if_pos rfl, List.cons_lt_cons_iff, List.cons_lt_cons_iff]
    simpa using ih
  | case5 a u b v hne hlt =>
    rw [cmpWordVecs, if_neg hne, if_pos hlt, List.cons_lt_cons_iff, List.cons_lt_cons_iff]
    omega
  | case6 a u b v hne hge =>
    rw [cmpWordVecs, if_neg hne, if_neg hge, List.cons_lt_cons_iff, List.cons_lt_cons_iff]
    omega

/-- The vectors are in lexicographic order. -/
theorem vecOrd_eq (u v : WordVec) : vecOrd u v = LinearOrder.toOrd.compare u v := by
  obtain ⟨hlt, hgt⟩ := cmpWordVecs_spec v u
  unfold vecOrd
  rcases lt_trichotomy u v with h | rfl | h
  · rw [compare_lt_iff_lt.mpr (hgt.mpr h)]
    exact (compare_lt_iff_lt.mpr h).symm
  · have h₁ := mt hlt.mp (lt_irrefl u)
    have h₂ := mt hgt.mp (lt_irrefl u)
    rw [compare_eq_iff_eq.mpr (by omega : 0 = cmpWordVecs u u)]
    exact (compare_eq_iff_eq.mpr rfl).symm
  · rw [compare_gt_iff_gt.mpr (hlt.mpr h)]
    exact (compare_gt_iff_gt.mpr h).symm

instance : TransCmp vecOrd := by
  have h : vecOrd = LinearOrder.toOrd.compare := funext fun u => funext fun v => vecOrd_eq u v
  rw [h]
  infer_instance

instance : LawfulEqCmp vecOrd where
  compare_self := (vecOrd_eq _ _).trans (compare_eq_iff_eq.mpr rfl)
  eq_of_compare h := compare_eq_iff_eq.mp ((vecOrd_eq _ _).symm.trans h)

/-! ## The words of the results -/

theorem passSize_eq (k₁ k₁₂ k₂ : Bool) (u v : WordVec) : passSize k₁ k₁₂ k₂ u v = (select k₁ k₁₂ k₂ u v).length := by
  have hcons : ∀ (k : Bool) (a : Nat) (l : WordVec), (consIf k a l).length = (if k then 1 else 0) + l.length := by
    intro k a l
    cases k with
    | true => exact Nat.add_comm _ _
    | false => exact (Nat.zero_add _).symm
  have hkeep : ∀ (k : Bool) (l : WordVec), (keepIf k l).length = if k then l.length else 0 := by
    intro k l
    cases k <;> rfl
  induction u, v using select.induct with
  | case1 v => rw [passSize, select, hkeep]
  | case2 a u => rw [passSize, select, hkeep]
  | case3 a u b v h ih => rw [passSize, select, if_pos h, if_pos h, hcons, ih]
  | case4 a u b v h₁ h₂ ih => rw [passSize, select, if_neg h₁, if_pos h₂, if_neg h₁, if_pos h₂, hcons, ih]
  | case5 a u b v h₁ h₂ ih => rw [passSize, select, if_neg h₁, if_neg h₂, if_neg h₁, if_neg h₂, hcons, ih]

/-- The two passes agree. -/
theorem twoPasses_eq (k₁ k₁₂ k₂ : Bool) (u v : WordVec) : twoPasses k₁ k₁₂ k₂ u v = .ok (select k₁ k₁₂ k₂ u v) := by
  rw [twoPasses, passSize_eq, assertThat_of rfl]
  rfl

section Words

variable {wv : WordVec} {w : Nat}

theorem sorted_singleton (w : Nat) : Sorted id [w] := List.pairwise_singleton _ _

/-- The words that `HG_(addToWS)` stores. -/
theorem addWord_spec (hwv : Sorted id wv) (hw : w ∉ wv) : addWord wv w = .ok (select true true true wv [w]) := by
  have hsplit : wv.takeWhile (fun x => decide (x < w)) ++ wv.dropWhile (fun x => decide (x < w)) = wv :=
    List.takeWhile_append_dropWhile
  obtain ⟨front, hfront⟩ : ∃ front, front = wv.takeWhile fun x => decide (x < w) := ⟨_, rfl⟩
  obtain ⟨back, hback⟩ : ∃ back, back = wv.dropWhile fun x => decide (x < w) := ⟨_, rfl⟩
  rw [← hfront, ← hback] at hsplit
  have hlow : ∀ x ∈ front, x < w := fun x hx => by
    have hmem : x ∈ wv.takeWhile fun x => decide (x < w) := hfront ▸ hx
    simpa using List.mem_takeWhile_imp hmem
  have hsorted : Sorted id (front ++ back) := hsplit ▸ hwv
  have hhigh : ∀ x ∈ back, w < x := fun x hx => by
    cases hb : back with
    | nil => rw [hb] at hx; exact nomatch hx
    | cons y rest =>
      have hy : ¬ y < w := by
        have := List.head?_dropWhile_not (fun x => decide (x < w)) wv
        rw [← hback, hb] at this
        simpa using this
      have hyw : y ≠ w := fun h => hw (hsplit ▸ List.mem_append_right _ (by rw [hb, h]; exact List.mem_cons_self))
      rw [hb] at hx hsorted
      rcases List.mem_cons.mp hx with rfl | hx
      · omega
      · have := (sorted_cons.mp (List.pairwise_append.mp hsorted).2.1).1 x hx
        simp only [id] at this
        omega
  have hlen : (front ++ w :: back).length = wv.length + 1 := by
    rw [← hsplit]
    simp only [List.length_append, List.length_cons]
    omega
  have hrun : addWord wv w = .ok (front ++ w :: back) := by
    rw [addWord, ← hfront, ← hback, assertThat_of hhigh, ok_bind]
    show (assertThat ((front ++ w :: back).length = wv.length + 1) >>= _) = _
    rw [assertThat_of hlen]
    rfl
  rw [hrun]
  refine congrArg Except.ok (Sorted.eq_of_mem_iff ?_ (sorted_select _ _ _ hwv (sorted_singleton w)) fun x => ?_)
  · refine List.pairwise_append.mpr ⟨(List.pairwise_append.mp hsorted).1, ?_, fun x hx y hy => ?_⟩
    · exact sorted_cons.mpr ⟨hhigh, (List.pairwise_append.mp hsorted).2.1⟩
    · rcases List.mem_cons.mp hy with rfl | hy
      · exact hlow x hx
      · exact (hlow x hx).trans (hhigh y hy)
  · rw [mem_select hwv (sorted_singleton w), ← hsplit]
    simp only [List.mem_append, List.mem_cons, List.not_mem_nil, or_false, true_and]
    grind

/-- The words that `HG_(delFromWS)` stores. -/
theorem delWord_spec (hwv : Sorted id wv) (hw : w ∈ wv) :
    delWord wv (wv.idxOf w) = .ok (select true false false wv [w]) := by
  have hlt := List.idxOf_lt_length_of_mem hw
  have hrun : delWord wv (wv.idxOf w) = .ok (wv.erase w) := by
    rw [delWord, assertThat_of hlt, ok_bind, assertThat_of (by omega), ok_bind]
    show (assertThat ((wv.eraseIdx (wv.idxOf w)).length = wv.length - 1) >>= _) = _
    rw [assertThat_of (List.length_eraseIdx_of_lt hlt), List.erase_eq_eraseIdx_of_idxOf rfl]
    rfl
  rw [hrun]
  refine congrArg Except.ok (Sorted.eq_of_mem_iff (hwv.sublist List.erase_sublist)
    (sorted_select _ _ _ hwv (sorted_singleton w)) fun x => ?_)
  have hnodup : wv.Nodup := hwv.imp fun h => h.ne
  rw [hnodup.mem_erase_iff, mem_select hwv (sorted_singleton w)]
  simp only [List.mem_singleton]
  grind

end Words

/-! ## Interning -/

/-- Find a vector, or append it. -/
def intern (l : List WordVec) (wv : WordVec) : List WordVec × WordSet :=
  if wv ∈ l then (l, l.idxOf wv) else (l ++ [wv], l.length)

section Intern

variable {l m : List WordVec} {wv v : WordVec} {r r' : WordSet}

theorem index_inj (hl : l.Nodup) (h : l[r]? = some wv) (h' : l[r']? = some wv) : r = r' :=
  (List.getElem?_inj (List.getElem?_eq_some_iff.mp h).1 hl).mp (h.trans h'.symm)

theorem intern_of_getElem? (hl : l.Nodup) (h : l[r]? = some wv) : intern l wv = (l, r) := by
  have hmem : wv ∈ l := List.mem_of_getElem? h
  have hidx : l[l.idxOf wv]? = some wv := by
    rw [List.getElem?_eq_getElem (List.idxOf_lt_length_of_mem hmem), List.getElem_idxOf]
  rw [intern, if_pos hmem, index_inj hl hidx h]

theorem prefix_intern (l : List WordVec) (wv : WordVec) : l <+: (intern l wv).1 := by
  unfold intern
  split
  · exact List.prefix_rfl
  · exact List.prefix_append l [wv]

theorem getElem?_intern (l : List WordVec) (wv : WordVec) : (intern l wv).1[(intern l wv).2]? = some wv := by
  unfold intern
  split
  · rename_i hmem
    rw [List.getElem?_eq_getElem (List.idxOf_lt_length_of_mem hmem), List.getElem_idxOf]
  · exact List.getElem?_concat_length

theorem prefix_getElem?_eq (h : l <+: m) (hr : l[r]? = some wv) : m[r]? = some wv := by
  obtain ⟨t, rfl⟩ := h
  rw [List.getElem?_append_left (List.getElem?_eq_some_iff.mp hr).1, hr]

end Intern

/-- The words that a cached operation is asked for, in a universe with the vectors `l`. -/
def CacheId.words (l : List WordVec) (a b : Nat) : CacheId → Option WordVec
  | .addTo => l[a]?.map fun u => select true true true u [b]
  | .delFrom => l[a]?.map fun u => select true false false u [b]
  | .intersect => l[a]?.bind fun u => l[b]?.map fun v => select false true false u v
  | .minus => l[a]?.bind fun u => l[b]?.map fun v => select true false false u v

/-- More vectors do not change the words. -/
theorem CacheId.words_mono {l m : List WordVec} {a b : Nat} {wv : WordVec} {c : CacheId} (h : l <+: m)
    (hw : c.words l a b = some wv) : c.words m a b = some wv := by
  cases c with
  | addTo =>
    obtain ⟨u, hu, hwv⟩ := Option.map_eq_some_iff.mp hw
    exact Option.map_eq_some_iff.mpr ⟨u, prefix_getElem?_eq h hu, hwv⟩
  | delFrom =>
    obtain ⟨u, hu, hwv⟩ := Option.map_eq_some_iff.mp hw
    exact Option.map_eq_some_iff.mpr ⟨u, prefix_getElem?_eq h hu, hwv⟩
  | intersect =>
    obtain ⟨u, hu, hw⟩ := Option.bind_eq_some_iff.mp hw
    obtain ⟨v, hv, hwv⟩ := Option.map_eq_some_iff.mp hw
    exact Option.bind_eq_some_iff.mpr ⟨u, prefix_getElem?_eq h hu,
      Option.map_eq_some_iff.mpr ⟨v, prefix_getElem?_eq h hv, hwv⟩⟩
  | minus =>
    obtain ⟨u, hu, hw⟩ := Option.bind_eq_some_iff.mp hw
    obtain ⟨v, hv, hwv⟩ := Option.map_eq_some_iff.mp hw
    exact Option.bind_eq_some_iff.mpr ⟨u, prefix_getElem?_eq h hu,
      Option.map_eq_some_iff.mpr ⟨v, prefix_getElem?_eq h hv, hwv⟩⟩

/-! ## The caches -/

/-- An entry remembers the right result. -/
def WCacheEnt.Right (l : List WordVec) (c : CacheId) (e : WCacheEnt) : Prop :=
  ∃ wv, c.words l e.arg1 e.arg2 = some wv ∧ l[e.res]? = some wv

/-- A cache passes its assertions, and its entries are right. -/
structure CacheOk (l : List WordVec) (c : CacheId) (cache : WCache) : Prop where
  dynMax_pos : 1 ≤ cache.dynMax
  dynMax_le : cache.dynMax ≤ nWCacheStatMax
  inUse : cache.ent.length ≤ cache.dynMax
  right : ∀ e ∈ cache.ent, e.Right l c

section Caches

variable {l m : List WordVec} {c : CacheId} {cache : WCache} {arg1 arg2 : Nat} {wv : WordVec} {r : WordSet}

theorem CacheOk.mono (h : CacheOk l c cache) (hlm : l <+: m) : CacheOk m c cache := by
  refine ⟨h.dynMax_pos, h.dynMax_le, h.inUse, fun e he => ?_⟩
  obtain ⟨wv, hwords, hres⟩ := h.right e he
  exact ⟨wv, CacheId.words_mono hlm hwords, prefix_getElem?_eq hlm hres⟩

theorem CacheOk.check (h : CacheOk l c cache) : wCacheCheck cache = .ok () := by
  rw [wCacheCheck, assertThat_of h.dynMax_pos, ok_bind, assertThat_of h.dynMax_le, ok_bind, assertThat_of h.inUse]

/-- The search reorders the entries and finds one of them. -/
theorem wCacheSwap_spec {ent ent' : List WCacheEnt} {res : Nat} (h : wCacheSwap arg1 arg2 ent = some (res, ent')) :
    ent'.Perm ent ∧ ⟨arg1, arg2, res⟩ ∈ ent := by
  induction ent using wCacheSwap.induct arg1 arg2 generalizing ent' with
  | case1 => exact nomatch h
  | case2 e => exact nomatch h
  | case3 tmp e rest hfound =>
    rw [wCacheSwap, if_pos hfound] at h
    obtain ⟨rfl, rfl⟩ := Prod.mk.inj (Option.some.inj h)
    obtain ⟨rfl, rfl⟩ := hfound
    exact ⟨List.Perm.swap _ _ _, List.mem_cons_of_mem _ List.mem_cons_self⟩
  | case4 tmp e rest hfound ih =>
    rw [wCacheSwap, if_neg hfound] at h
    obtain ⟨⟨res', ent''⟩, h', heq⟩ := Option.map_eq_some_iff.mp h
    obtain ⟨rfl, rfl⟩ := Prod.mk.inj heq
    obtain ⟨hperm, hmem⟩ := ih h'
    exact ⟨hperm.cons tmp, List.mem_cons_of_mem _ hmem⟩

/-- **A lookup** either finds nothing, or a right result. -/
theorem CacheOk.lookup (h : CacheOk l c cache) (arg1 arg2 : Nat) :
    wCacheLookup cache arg1 arg2 = .ok none ∨ ∃ res cache', wCacheLookup cache arg1 arg2 = .ok (some (res, cache')) ∧
      CacheOk l c cache' ∧ WCacheEnt.Right l c ⟨arg1, arg2, res⟩ := by
  obtain ⟨dynMax, ent⟩ := cache
  unfold wCacheLookup
  rw [h.check, ok_bind]
  cases ent with
  | nil => exact .inl rfl
  | cons e rest =>
    by_cases hfirst : e.arg1 = arg1 ∧ e.arg2 = arg2
    · obtain ⟨rfl, rfl⟩ := hfirst
      exact .inr ⟨e.res, _, if_pos ⟨rfl, rfl⟩, h, h.right e List.mem_cons_self⟩
    · simp only [if_neg hfirst]
      cases hswap : wCacheSwap arg1 arg2 (e :: rest) with
      | none => exact .inl rfl
      | some found =>
        obtain ⟨res, ent'⟩ := found
        obtain ⟨hperm, hmem⟩ := wCacheSwap_spec hswap
        refine .inr ⟨res, _, rfl, ⟨h.dynMax_pos, h.dynMax_le, hperm.length_eq.trans_le h.inUse, fun e' he' => ?_⟩,
          h.right _ hmem⟩
        exact h.right e' (hperm.mem_iff.mp he')

/-- **An update** with a right result. -/
theorem CacheOk.update (h : CacheOk l c cache) {res : Nat} (hres : WCacheEnt.Right l c ⟨arg1, arg2, res⟩) :
    ∃ cache', wCacheUpdate cache arg1 arg2 res = .ok cache' ∧ CacheOk l c cache' := by
  rw [wCacheUpdate, h.check, ok_bind]
  refine ⟨_, rfl, h.dynMax_pos, h.dynMax_le, ?_, fun e he => ?_⟩
  · have hpos := h.dynMax_pos
    have hle := h.inUse
    simp only [List.length_cons]
    split
    · omega
    · rw [List.length_dropLast]
      omega
  · rcases List.mem_cons.mp he with rfl | he
    · exact hres
    · refine h.right e ?_
      split at he
      · exact he
      · exact List.mem_of_mem_dropLast he

end Caches

/-! ## The universe -/

/-- The vectors of a universe are sorted, different, and all of them in the tree; the caches
are right. -/
structure WordSetU.Inv (wsu : WordSetU) : Prop where
  sorted : ∀ wv ∈ wsu.ix2vec, Sorted id wv
  nodup : wsu.ix2vec.Nodup
  empty : wsu.ix2vec[wsu.empty]? = some []
  avl : wsu.vec2ix.IsAvl
  keys : KeySorted VecNode.key vecOrd wsu.vec2ix.toList
  holds : ∀ n, n ∈ wsu.vec2ix.toList ↔ wsu.ix2vec[n.ix]? = some n.key
  cache : ∀ c, CacheOk wsu.ix2vec c (wsu.cache c)

/-- A call has left the universe in order, having interned the vector and returned its
index. -/
structure Interned (wsu : WordSetU) (wv : WordVec) (wsu' : WordSetU) (r : WordSet) : Prop where
  inv : wsu'.Inv
  intern : (wsu'.ix2vec, r) = intern wsu.ix2vec wv

section Universe

variable {wsu wsu' : WordSetU} {wv : WordVec} {r ws ws₁ ws₂ : WordSet} {w w₁ w₂ arg1 arg2 : Nat} {c : CacheId}
  {compute : Result (WordSetU × WordSet)}

theorem Interned.prefix (h : Interned wsu wv wsu' r) : wsu.ix2vec <+: wsu'.ix2vec := by
  have := prefix_intern wsu.ix2vec wv
  rwa [← h.intern] at this

theorem Interned.getElem? (h : Interned wsu wv wsu' r) : wsu'.ix2vec[r]? = some wv := by
  have := getElem?_intern wsu.ix2vec wv
  rwa [← h.intern] at this

/-- What is in the universe already. -/
theorem WordSetU.Inv.interned (h : wsu.Inv) (hr : wsu.ix2vec[r]? = some wv) : Interned wsu wv wsu r :=
  ⟨h, (intern_of_getElem? h.nodup hr).symm⟩

/-- The index of the empty vector. -/
theorem WordSetU.Inv.eq_empty (h : wsu.Inv) (hr : wsu.ix2vec[r]? = some []) : r = wsu.empty :=
  index_inj h.nodup hr h.empty

/-- A change of a cache. -/
theorem Interned.setCache (h : Interned wsu wv wsu' r) {cache : WCache} (hc : CacheOk wsu'.ix2vec c cache) :
    Interned wsu wv { wsu' with cache := Function.update wsu'.cache c cache } r := by
  refine ⟨⟨h.inv.sorted, h.inv.nodup, h.inv.empty, h.inv.avl, h.inv.keys, h.inv.holds, fun c' => ?_⟩, h.intern⟩
  by_cases hcc : c' = c
  · subst hcc
    simpa using hc
  · simpa [hcc] using h.inv.cache c'

/-- The search in the tree. -/
theorem WordSetU.Inv.find (h : wsu.Inv) (wv : WordVec) :
    findNode (wayVec wv) wsu.vec2ix = atCut (cutAt VecNode.key vecOrd wv) wsu.vec2ix.toList :=
  findNode_eq (h.keys.cuts wv)

/-- The insertion into the tree. -/
theorem addToVec2ix_spec {n : VecNode} {t : BinTree VecNode} (havl : t.IsAvl)
    (hkeys : KeySorted VecNode.key vecOrd t.toList) (hnew : ∀ m ∈ t.toList, m.key ≠ n.key) :
    ∃ t', addToVec2ix n t = .ok t' ∧ t'.IsAvl ∧ KeySorted VecNode.key vecOrd t'.toList ∧
      ∀ m, m ∈ t'.toList ↔ m = n ∨ m ∈ t.toList := by
  by_cases hnil : t = .nil
  · subst hnil
    exact ⟨_, rfl, by simp, List.pairwise_singleton _ _, by simp⟩
  have hat : atCut (cutAt VecNode.key vecOrd n.key) t.toList = none := hkeys.atCut_eq_none.mpr hnew
  obtain ⟨t', g, hrun, hb, -⟩ := insertNode_spec VecNode.ix true (wayVec n.key)
    (fun m => return { m with ix := n.ix }) (fun m => { m with ix := n.ix }) n hnil havl (hkeys.cuts n.key)
    (fun _ _ _ => rfl)
  have hlist := hb.list
  rw [insertList, wayVec_eq, hat] at hlist
  refine ⟨t', ?_, hb.avl, ?_, fun m => ?_⟩
  · unfold addToVec2ix
    split
    · rename_i h
      exact absurd rfl hnil
    · rw [hrun]
      rfl
  · rw [hlist]
    exact hkeys.insert Std.ReflCmp.compare_self
  · rw [hlist, List.mem_append, Option.elim_none, List.mem_cons]
    have hside : m ∈ below (cutAt VecNode.key vecOrd n.key) t.toList ∨
        m ∈ above (cutAt VecNode.key vecOrd n.key) t.toList ↔ m ∈ t.toList ∧ m.key ≠ n.key := mem_below_or_above
    have hne : m ∈ t.toList ∧ m.key ≠ n.key ↔ m ∈ t.toList := and_iff_left_of_imp (hnew m)
    rw [hne] at hside
    rw [← hside]
    grind

/-- **`add_or_dealloc_WordVec`** interns a sorted vector. -/
theorem addOrDeallocWordVec_spec (h : wsu.Inv) (hwv : Sorted id wv) :
    ∃ wsu' r, addOrDeallocWordVec wsu wv = .ok (wsu', r) ∧ Interned wsu wv wsu' r := by
  unfold addOrDeallocWordVec
  rw [h.find]
  cases hat : atCut (cutAt VecNode.key vecOrd wv) wsu.vec2ix.toList with
  | some old =>
    obtain ⟨hmem, rfl⟩ := h.keys.atCut_eq_some.mp hat
    have hold := (h.holds old).mp hmem
    refine ⟨wsu, old.ix, ?_, h.interned hold⟩
    simp only
    rw [assertThat_of (List.getElem?_eq_some_iff.mp hold).1, ok_bind, assertThat_of hold]
    rfl
  | none =>
    have hnew := h.keys.atCut_eq_none.mp hat
    have hnot : wv ∉ wsu.ix2vec := fun hmem => by
      obtain ⟨i, hi⟩ := List.mem_iff_getElem?.mp hmem
      exact hnew ⟨wv, i⟩ ((h.holds _).mpr hi) rfl
    obtain ⟨t, hrun, havl, hkeys, hmem⟩ := addToVec2ix_spec (n := ⟨wv, wsu.ix2vec.length⟩) h.avl h.keys hnew
    have hpre : wsu.ix2vec <+: wsu.ix2vec ++ [wv] := List.prefix_append _ _
    simp only [hrun, ok_bind]
    refine ⟨_, _, rfl, ⟨?_, ?_, prefix_getElem?_eq hpre h.empty, havl, hkeys, fun n => ?_, fun c =>
      (h.cache c).mono hpre⟩, ?_⟩
    · intro v hv
      rcases List.mem_append.mp hv with hv | hv
      · exact h.sorted v hv
      · exact List.mem_singleton.mp hv ▸ hwv
    · exact List.nodup_append.mpr ⟨h.nodup, List.nodup_singleton wv, fun a ha b hb =>
        fun heq => hnot (List.mem_singleton.mp hb ▸ heq ▸ ha)⟩
    · rw [hmem, h.holds]
      show _ ↔ (wsu.ix2vec ++ [wv])[n.ix]? = some n.key
      constructor
      · rintro (rfl | hn)
        · exact List.getElem?_concat_length
        · exact prefix_getElem?_eq hpre hn
      · intro hn
        rcases Nat.lt_or_ge n.ix wsu.ix2vec.length with hlt | hge
        · rw [List.getElem?_append_left hlt] at hn
          exact .inr hn
        · have hlen := (List.getElem?_eq_some_iff.mp hn).1
          rw [List.length_append, List.length_singleton] at hlen
          have hix : n.ix = wsu.ix2vec.length := by omega
          rw [hix, List.getElem?_concat_length] at hn
          obtain ⟨key, ix⟩ := n
          simp only at hix hn
          subst hix
          exact .inl (by rw [Option.some.inj hn])
    · rw [intern, if_neg hnot]

/-- **The caches are transparent**: what a cache knows is what would have been computed. -/
theorem throughCache_spec (h : wsu.Inv) (hwords : c.words wsu.ix2vec arg1 arg2 = some wv)
    (hcompute : ∃ wsu' r, compute = .ok (wsu', r) ∧ Interned wsu wv wsu' r) :
    ∃ wsu' r, throughCache c wsu arg1 arg2 compute = .ok (wsu', r) ∧ Interned wsu wv wsu' r := by
  unfold throughCache
  rcases (h.cache c).lookup arg1 arg2 with hnone | ⟨res, cache, hsome, hok, hright⟩
  · obtain ⟨wsu', r, hrun, hint⟩ := hcompute
    obtain ⟨cache, hupdate, hok⟩ := (hint.inv.cache c).update
      ⟨wv, CacheId.words_mono hint.prefix hwords, hint.getElem?⟩
    simp only [hnone, ok_bind, hrun, hupdate]
    exact ⟨_, _, rfl, hint.setCache hok⟩
  · obtain ⟨wv', hwords', hres⟩ := hright
    obtain rfl : wv = wv' := Option.some.inj (hwords.symm.trans hwords')
    simp only [hsome, ok_bind]
    exact ⟨_, _, rfl, (h.interned hres).setCache hok⟩

theorem doIx2vec_eq (h : wsu.ix2vec[ws]? = some wv) : doIx2vec wsu ws = .ok wv := by
  rw [doIx2vec, h]
  rfl

/-! ## The operations -/

section Operations

variable {u v : WordVec}

theorem WordSetU.Inv.sorted_of (h : wsu.Inv) (hu : wsu.ix2vec[ws]? = some u) : Sorted id u :=
  h.sorted u (List.mem_of_getElem? hu)

/-- `HG_(doubletonWS)`. -/
theorem doubletonWS_spec (h : wsu.Inv) (w₁ w₂ : Nat) : ∃ wsu' r, doubletonWS wsu w₁ w₂ = .ok (wsu', r) ∧
    Interned wsu (select true true true [w₁] [w₂]) wsu' r := by
  unfold doubletonWS
  rcases Nat.lt_trichotomy w₁ w₂ with hlt | rfl | hgt
  · have hwords : select true true true [w₁] [w₂] = [w₁, w₂] := by
      rw [select, if_pos hlt, select]
      rfl
    rw [if_neg hlt.ne, if_pos hlt, hwords]
    exact addOrDeallocWordVec_spec h (List.pairwise_pair.mpr hlt)
  · have hwords : select true true true [w₁] [w₁] = [w₁] := by
      rw [select, if_neg (lt_irrefl w₁), if_neg (lt_irrefl w₁), select]
      rfl
    rw [if_pos rfl, hwords]
    exact addOrDeallocWordVec_spec h (sorted_singleton w₁)
  · have hwords : select true true true [w₁] [w₂] = [w₂, w₁] := by
      rw [select, if_neg hgt.not_gt, if_pos hgt, select]
      rfl
    rw [if_neg hgt.ne', if_neg hgt.not_gt, assertThat_of hgt, ok_bind, hwords]
    exact addOrDeallocWordVec_spec h (List.pairwise_pair.mpr hgt)

/-- `HG_(addToWS)`. -/
theorem addToWS_spec (h : wsu.Inv) (hu : wsu.ix2vec[ws]? = some u) (w : Nat) :
    ∃ wsu' r, addToWS wsu ws w = .ok (wsu', r) ∧ Interned wsu (select true true true u [w]) wsu' r := by
  have hsorted := h.sorted_of hu
  refine throughCache_spec h (Option.map_eq_some_iff.mpr ⟨u, hu, rfl⟩) ?_
  rw [doIx2vec_eq hu, ok_bind]
  by_cases hw : w ∈ u
  · have hsame : select true true true u [w] = u := by
      refine Sorted.eq_of_mem_iff (sorted_select _ _ _ hsorted (sorted_singleton w)) hsorted fun x => ?_
      rw [mem_select hsorted (sorted_singleton w)]
      simp only [List.mem_singleton, true_and]
      refine ⟨?_, fun hx => by grind⟩
      rintro (⟨hx, -⟩ | ⟨hx, -⟩ | ⟨-, rfl⟩)
      · exact hx
      · exact hx
      · exact hw
    rw [if_pos hw, hsame]
    exact ⟨wsu, ws, rfl, h.interned hu⟩
  · rw [if_neg hw, addWord_spec hsorted hw]
    exact addOrDeallocWordVec_spec h (sorted_select _ _ _ hsorted (sorted_singleton w))

/-- `HG_(delFromWS)`. -/
theorem delFromWS_spec (h : wsu.Inv) (hu : wsu.ix2vec[ws]? = some u) (w : Nat) :
    ∃ wsu' r, delFromWS wsu ws w = .ok (wsu', r) ∧ Interned wsu (select true false false u [w]) wsu' r := by
  have hsorted := h.sorted_of hu
  rw [delFromWS, doIx2vec_eq hu, ok_bind]
  by_cases hnil : u.length = 0
  · obtain rfl := List.length_eq_zero_iff.mp hnil
    rw [if_pos hnil, assertThat_of (h.eq_empty hu)]
    have hwords : select true false false [] [w] = [] := by
      rw [select]
      rfl
    refine ⟨wsu, ws, rfl, ?_⟩
    rw [hwords]
    exact h.interned hu
  rw [if_neg hnil]
  refine throughCache_spec h (Option.map_eq_some_iff.mpr ⟨u, hu, rfl⟩) ?_
  by_cases hw : w ∈ u
  · have hidx : ¬ u.idxOf w = u.length := (List.idxOf_lt_length_of_mem hw).ne
    obtain ⟨wsu', r, hrun, hint⟩ := addOrDeallocWordVec_spec h
      (sorted_select true false false hsorted (sorted_singleton w))
    simp only [if_neg hidx, delWord_spec hsorted hw, ok_bind, hrun]
    refine ⟨wsu', r, ?_, hint⟩
    by_cases hone : u.length = 1
    · have hempty : select true false false u [w] = [] := by
        obtain ⟨x, rfl⟩ := List.length_eq_one_iff.mp hone
        obtain rfl := List.mem_singleton.mp hw
        rw [select, if_neg (lt_irrefl w), if_neg (lt_irrefl w), select]
        rfl
      rw [if_pos hone, assertThat_of (hint.inv.eq_empty (hempty ▸ hint.getElem?))]
      rfl
    · rw [if_neg hone]
      rfl
  · have hsame : select true false false u [w] = u := by
      refine Sorted.eq_of_mem_iff (sorted_select _ _ _ hsorted (sorted_singleton w)) hsorted fun x => ?_
      rw [mem_select hsorted (sorted_singleton w)]
      simp only [List.mem_singleton, true_and, Bool.false_eq_true, false_and, or_false]
      exact and_iff_left_of_imp fun hx hxw => hw (hxw ▸ hx)
    simp only [if_pos (List.idxOf_eq_length_iff.mpr hw)]
    rw [hsame]
    exact ⟨wsu, ws, rfl, h.interned hu⟩

/-- `HG_(unionWS)`. -/
theorem unionWS_spec (h : wsu.Inv) (hu : wsu.ix2vec[ws₁]? = some u) (hv : wsu.ix2vec[ws₂]? = some v) :
    ∃ wsu' r, unionWS wsu ws₁ ws₂ = .ok (wsu', r) ∧ Interned wsu (select true true true u v) wsu' r := by
  rw [unionWS, doIx2vec_eq hu, ok_bind, doIx2vec_eq hv, ok_bind, unionWords, twoPasses_eq]
  exact addOrDeallocWordVec_spec h (sorted_select _ _ _ (h.sorted_of hu) (h.sorted_of hv))

theorem uncachedWS_spec (h : wsu.Inv) (hu : wsu.ix2vec[ws₁]? = some u) (hv : wsu.ix2vec[ws₂]? = some v)
    (k₁ k₁₂ k₂ : Bool) : ∃ wsu' r, uncachedWS wsu ws₁ ws₂ (twoPasses k₁ k₁₂ k₂) = .ok (wsu', r) ∧
      Interned wsu (select k₁ k₁₂ k₂ u v) wsu' r := by
  obtain ⟨wsu', r, hrun, hint⟩ := addOrDeallocWordVec_spec h
    (sorted_select k₁ k₁₂ k₂ (h.sorted_of hu) (h.sorted_of hv))
  rw [uncachedWS, doIx2vec_eq hu, ok_bind, doIx2vec_eq hv, ok_bind, twoPasses_eq, ok_bind, hrun, ok_bind]
  refine ⟨wsu', r, ?_, hint⟩
  by_cases hnil : (select k₁ k₁₂ k₂ u v).length = 0
  · have hempty := hint.getElem?
    rw [List.length_eq_zero_iff.mp hnil] at hempty
    simp only [if_pos hnil, assertThat_of (hint.inv.eq_empty hempty)]
    rfl
  · simp only [if_neg hnil]
    rfl

/-- `HG_(intersectWS)`. -/
theorem intersectWS_spec (h : wsu.Inv) (hu : wsu.ix2vec[ws₁]? = some u) (hv : wsu.ix2vec[ws₂]? = some v) :
    ∃ wsu' r, intersectWS wsu ws₁ ws₂ = .ok (wsu', r) ∧ Interned wsu (select false true false u v) wsu' r := by
  have hsu := h.sorted_of hu
  have hsv := h.sorted_of hv
  unfold intersectWS
  by_cases heq : ws₁ = ws₂
  · subst heq
    obtain rfl : u = v := Option.some.inj (hu.symm.trans hv)
    have hsame : select false true false u u = u := by
      refine Sorted.eq_of_mem_iff (sorted_select _ _ _ hsu hsu) hsu fun x => ?_
      rw [mem_select hsu hsu]
      simp
    rw [if_pos rfl, hsame]
    exact ⟨wsu, ws₁, rfl, h.interned hu⟩
  rw [if_neg heq]
  by_cases hgt : ws₁ > ws₂
  · have hswap : select false true false u v = select false true false v u := by
      refine Sorted.eq_of_mem_iff (sorted_select _ _ _ hsu hsv) (sorted_select _ _ _ hsv hsu) fun x => ?_
      rw [mem_select hsu hsv, mem_select hsv hsu]
      grind
    rw [if_pos hgt, hswap]
    exact throughCache_spec h (Option.bind_eq_some_iff.mpr ⟨v, hv, Option.map_eq_some_iff.mpr ⟨u, hu, rfl⟩⟩)
      (uncachedWS_spec h hv hu false true false)
  · rw [if_neg hgt]
    exact throughCache_spec h (Option.bind_eq_some_iff.mpr ⟨u, hu, Option.map_eq_some_iff.mpr ⟨v, hv, rfl⟩⟩)
      (uncachedWS_spec h hu hv false true false)

/-- `HG_(minusWS)`. -/
theorem minusWS_spec (h : wsu.Inv) (hu : wsu.ix2vec[ws₁]? = some u) (hv : wsu.ix2vec[ws₂]? = some v) :
    ∃ wsu' r, minusWS wsu ws₁ ws₂ = .ok (wsu', r) ∧ Interned wsu (select true false false u v) wsu' r :=
  throughCache_spec h (Option.bind_eq_some_iff.mpr ⟨u, hu, Option.map_eq_some_iff.mpr ⟨v, hv, rfl⟩⟩)
    (uncachedWS_spec h hu hv true false false)

end Operations

end Universe

end Helgrind

end Valgrind
