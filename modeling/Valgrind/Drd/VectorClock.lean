import Valgrind.Basics.Result
import Valgrind.Lib.SortedMerge
import Mathlib.Data.List.TakeWhile

/-!
# Vector clocks

A vector clock of DRD has a counter for every thread and keeps those that are not zero
in an array sorted by thread id. The model keeps the `size` elements in use as a list;
`capacity` is the number of elements that the block has room for, and an element is only
added where there is room.
-/

namespace Valgrind.Drd

/-- `ThreadId`. -/
abbrev ThreadId := Nat

/-- `VCElem`. -/
structure VCElem where
  threadid : ThreadId
  count : Nat
  deriving DecidableEq, Repr

/-- `VectorClock`: `vc` are the `size` elements in use. -/
structure VectorClock where
  capacity : Nat
  vc : List VCElem
  deriving DecidableEq, Repr

/-- `size`. -/
def VectorClock.size (vc : VectorClock) : Nat := vc.vc.length

/-! ## The operations -/

/-- `vc_check`. -/
def vcCheck (vc : VectorClock) : Result Unit := do
  assertThat (vc.size ≤ vc.capacity)
  assertThat (vc.vc.IsChain fun a b => a.threadid < b.threadid)

/-- `vc_reserve`. The block is null exactly when the capacity is zero. -/
def vcReserve (vc : VectorClock) (newCapacity : Nat) : Result VectorClock := do
  let vc := if newCapacity > vc.capacity then { vc with capacity := newCapacity } else vc
  assertThat (newCapacity = 0 ∨ vc.capacity ≠ 0)
  return vc

/-- `vc_init`, for an array of `vcelem.length` elements. -/
def vcInit (vcelem : List VCElem) : Result VectorClock := do
  let vc ← vcReserve { capacity := 0, vc := [] } vcelem.length
  assertThat (vcelem.length = 0 ∨ vc.capacity ≠ 0)
  return { vc with vc := vcelem }

/-- `vc_cleanup`: reserving nothing leaves the block as it is. -/
def vcCleanup (vc : VectorClock) : Result VectorClock := vcReserve vc 0

/-- `vc_copy`. -/
def vcCopy (rhs : VectorClock) : Result VectorClock := vcInit rhs.vc

/-- `vc_assign`. -/
def vcAssign (lhs rhs : VectorClock) : Result VectorClock := do
  let _ ← vcCleanup lhs
  vcCopy rhs

/-- `vc_lte`: the lists are what `vc1` and `vc2` have from index `i` and from index `j` on. -/
def lteFrom : List VCElem → List VCElem → Bool
  | [], _ => true
  | e :: vc1, vc2 =>
    match vc2.dropWhile fun f => decide (f.threadid < e.threadid) with
    | [] => false
    | f :: vc2 =>
      if f.threadid > e.threadid then false
      else if e.count > f.count then false
      else lteFrom vc1 (f :: vc2)

/-- `vc_lte`. -/
def vcLte (vc1 vc2 : VectorClock) : Bool := lteFrom vc1.vc vc2.vc

/-- `vc_ordered`. -/
def vcOrdered (vc1 vc2 : VectorClock) : Bool := vcLte vc1 vc2 || vcLte vc2 vc1

/-- The first loop of `vc_combine2`: the number of shared thread ids. -/
def shared : List VCElem → List VCElem → Nat
  | [], _ => 0
  | e :: result, rhs =>
    match rhs.dropWhile fun f => decide (f.threadid < e.threadid) with
    | [] => 0
    | f :: rhs => (if e.threadid = f.threadid then 1 else 0) + shared result (f :: rhs)

/-- `for (k = result->size; k > i; k--) result->vc[k] = result->vc[k - 1];`. -/
def shiftUp (i : Nat) : Nat → List VCElem → List VCElem
  | 0, vc => vc
  | k + 1, vc => if k + 1 > i then shiftUp i k (vc.set (k + 1) (vc.getD k ⟨0, 0⟩)) else vc

/-- Insert an element at the index `i`: the elements from there on move up by one, the
last one to a place that was not in use. -/
def insertElem (result : VectorClock) (i : Nat) (e : VCElem) : Result VectorClock :=
  if result.size < result.capacity then
    .ok { result with vc := (shiftUp i result.size (result.vc ++ [e])).set i e }
  else .error .fault

/-- Skip those clocks in `result` for which there is no corresponding clock in `rhs`: the
list is what `result` has from index `i` on, `t` the thread id in `rhs`. -/
def skipMissing (tid t : ThreadId) : List VCElem → Nat → Bool → Nat × Bool
  | [], i, almostEqual => (i, almostEqual)
  | e :: result, i, almostEqual =>
    if e.threadid < t then
      skipMissing tid t result (i + 1) (if e.threadid ≠ tid then false else almostEqual)
    else (i, almostEqual)

/-- The second loop of `vc_combine2`. -/
def combineFrom (tid : ThreadId) (result : VectorClock) (i : Nat) (almostEqual : Bool) :
    List VCElem → Result (VectorClock × Bool)
  | [] => .ok (result, almostEqual)
  | f :: rhs => do
    let (i, almostEqual) := skipMissing tid f.threadid (result.vc.drop i) i almostEqual
    match result.vc[i]? with
    | none => do
      let result ← insertElem result i f
      combineFrom tid result i (if f.threadid ≠ tid then false else almostEqual) rhs
    | some e =>
      if e.threadid > f.threadid then do
        let result ← insertElem result i f
        combineFrom tid result i (if f.threadid ≠ tid then false else almostEqual) rhs
      else do
        assertThat (e.threadid = f.threadid)
        let almostEqual := if e.threadid ≠ tid ∧ f.count ≠ e.count then false else almostEqual
        let result := if f.count > e.count then
            { result with vc := result.vc.set i { e with count := f.count } }
          else result
        combineFrom tid result i almostEqual rhs

/-- `vc_combine2`. -/
def vcCombine2 (result rhs : VectorClock) (tid : ThreadId) : Result (VectorClock × Bool) := do
  let shared := shared result.vc rhs.vc
  vcCheck result
  let newSize := result.size + rhs.size - shared
  let result ← if newSize > result.capacity then vcReserve result newSize else pure result
  vcCheck result
  let (result, almostEqual) ← combineFrom tid result 0 true rhs.vc
  vcCheck result
  assertThat (result.size = newSize)
  return (result, almostEqual)

/-- `vc_combine`: the thread id is `-1`. -/
def vcCombine (result rhs : VectorClock) : Result VectorClock := do
  let (result, _) ← vcCombine2 result rhs 0xFFFFFFFF
  return result

/-- The search of `vc_increment`: the elements with the counter of the thread incremented,
in 32 bits, if it is there. -/
def incrementElem (threadid : ThreadId) : List VCElem → Option (Result (List VCElem))
  | [] => none
  | e :: vc =>
    if e.threadid = threadid then
      some do
        let count := (e.count + 1) % 2 ^ 32
        assertThat (e.count < count)
        return { e with count := count } :: vc
    else (incrementElem threadid vc).map fun vc => do return e :: (← vc)

/-- `vc_increment`. -/
def vcIncrement (vc : VectorClock) (threadid : ThreadId) : Result VectorClock := do
  match incrementElem threadid vc.vc with
  | some elems => return { vc with vc := ← elems }
  | none =>
    let vc2 ← vcInit [⟨threadid, 1⟩]
    let vc ← vcCombine vc vc2
    let _ ← vcCleanup vc2
    return vc

/-! ## Clocks as functions -/

open SortedMerge

/-- The counter of a thread. -/
def VectorClock.count (vc : VectorClock) (t : ThreadId) : Nat :=
  ((find VCElem.threadid t vc.vc).map VCElem.count).getD 0

/-- What `vc_check` demands: the elements fit and are strictly sorted. -/
structure VectorClock.Ordered (vc : VectorClock) : Prop where
  fits : vc.size ≤ vc.capacity
  sorted : Sorted VCElem.threadid vc.vc

/-- What every clock satisfies: the elements fit, are strictly sorted and not zero. -/
structure VectorClock.Inv (vc : VectorClock) : Prop extends vc.Ordered where
  positive : ∀ e ∈ vc.vc, 0 < e.count

/-- The larger of two counters of a thread. -/
def maxElem (a b : VCElem) : VCElem := ⟨a.threadid, max a.count b.count⟩

/-- The elements of the combined clock. -/
abbrev maxElems : List VCElem → List VCElem → List VCElem := merge VCElem.threadid maxElem

section Elems

variable {l m : List VCElem} {t : ThreadId}

theorem maxElem_threadid (a b : VCElem) (_ : a.threadid = b.threadid) :
    (maxElem a b).threadid = a.threadid := rfl

theorem find_dropLower {e : VCElem} (h : e.threadid ≤ t) :
    find VCElem.threadid t (m.dropWhile fun f => decide (f.threadid < e.threadid)) =
      find VCElem.threadid t m :=
  find_dropWhile fun _ _ ha hk => absurd (hk ▸ of_decide_eq_true ha) (Nat.not_lt.mpr h)

/-- What is left after the smaller elements are skipped. -/
theorem dropLower_cons {e f : VCElem} {m' : List VCElem}
    (h : (m.dropWhile fun f => decide (f.threadid < e.threadid)) = f :: m') :
    e.threadid ≤ f.threadid := by
  have hf := List.head?_dropWhile_not (fun f : VCElem => decide (f.threadid < e.threadid)) m
  rw [h] at hf
  exact Nat.not_lt.mp (of_decide_eq_false hf)

theorem Sorted.dropLower (hm : Sorted VCElem.threadid m) (e : VCElem) :
    Sorted VCElem.threadid (m.dropWhile fun f => decide (f.threadid < e.threadid)) :=
  hm.sublist (List.dropWhile_sublist _)

/-- The elements that a list without smaller ones starts with. -/
theorem find_head {e f : VCElem} (hm : Sorted VCElem.threadid (f :: m)) (h : e.threadid ≤ f.threadid) :
    find VCElem.threadid e.threadid (f :: m) = if e.threadid = f.threadid then some f else none := by
  split
  · rename_i heq
    exact find_cons_self heq.symm
  · rename_i hne
    have hlt : e.threadid < f.threadid := Nat.lt_of_le_of_ne h hne
    refine find_of_lt fun b hb => ?_
    rcases List.mem_cons.mp hb with rfl | hb
    · exact hlt
    · exact hlt.trans ((sorted_cons.mp hm).1 b hb)

theorem lteFrom_iff (hl : Sorted VCElem.threadid l) (hm : Sorted VCElem.threadid m) :
    lteFrom l m = true ↔
      ∀ e ∈ l, ∃ f, find VCElem.threadid e.threadid m = some f ∧ e.count ≤ f.count := by
  induction l generalizing m with
  | nil => simp [lteFrom]
  | cons e l ih =>
    obtain ⟨he, hl'⟩ := sorted_cons.mp hl
    have hdrop := Sorted.dropLower hm e
    have hfind : ∀ e' ∈ l, find VCElem.threadid e'.threadid
        (m.dropWhile fun f => decide (f.threadid < e.threadid)) = find VCElem.threadid e'.threadid m :=
      fun e' he' => find_dropLower (he e' he').le
    rw [List.forall_mem_cons, ← find_dropLower (le_refl e.threadid), lteFrom]
    split
    · rename_i hnil
      simp [hnil]
    · rename_i f m' hcons
      rw [hcons] at hdrop hfind ⊢
      have hle := dropLower_cons hcons
      rw [find_head hdrop hle]
      by_cases hgt : f.threadid > e.threadid
      · rw [if_pos hgt, if_neg hgt.ne]
        simp
      · have heq : e.threadid = f.threadid := Nat.le_antisymm hle (Nat.not_lt.mp hgt)
        rw [if_neg hgt, if_pos heq]
        by_cases hcount : e.count > f.count
        · rw [if_pos hcount]
          simp [hcount]
        · rw [if_neg hcount, ih hl' hdrop]
          simp only [Option.some.injEq, exists_eq_left', Nat.not_lt.mp hcount, true_and]
          exact forall₂_congr fun e' he' => by rw [hfind e' he']

/-- **Counting**: what is not shared is what the combined clock has in addition. -/
theorem shared_add_length (hl : Sorted VCElem.threadid l) (hm : Sorted VCElem.threadid m) :
    shared l m + (maxElems l m).length = l.length + m.length := by
  induction l generalizing m with
  | nil => simp [shared]
  | cons e l ih =>
    obtain ⟨he, hl'⟩ := sorted_cons.mp hl
    have hdrop := Sorted.dropLower hm e
    have hlen := congrArg List.length (List.takeWhile_append_dropWhile
      (p := fun f : VCElem => decide (f.threadid < e.threadid)) (l := m))
    -- the smaller elements of `rhs` come first
    have hmerge : maxElems (e :: l) m = m.takeWhile (fun f => decide (f.threadid < e.threadid)) ++
        maxElems (e :: l) (m.dropWhile fun f => decide (f.threadid < e.threadid)) := by
      rw [← merge_append_right fun b hb a ha => ?_, List.takeWhile_append_dropWhile]
      have hlt : b.threadid < e.threadid := by simpa using List.mem_takeWhile_imp hb
      rcases List.mem_cons.mp ha with rfl | ha
      · exact hlt
      · exact hlt.trans (he a ha)
    rw [hmerge, shared, List.length_append]
    rw [List.length_append] at hlen
    cases hcons : m.dropWhile fun f => decide (f.threadid < e.threadid) with
    | nil =>
      simp only [hcons, merge_nil_right, List.length_cons, List.length_nil] at hlen ⊢
      omega
    | cons f m' =>
      rw [hcons] at hdrop hlen
      have hle := dropLower_cons hcons
      have hih := ih hl' hdrop
      simp only [maxElems, List.length_cons] at hlen hih ⊢
      by_cases heq : e.threadid = f.threadid
      · rw [if_pos heq, merge_of_eq heq, List.length_cons]
        rw [merge_cons_right fun a ha => heq ▸ he a ha, List.length_cons] at hih
        omega
      · rw [if_neg heq, merge_of_lt (Nat.lt_of_le_of_ne hle heq), List.length_cons]
        omega

/-! ## The second loop -/

theorem getElem?_shiftUp {i k : Nat} {vc : List VCElem} (hk : k < vc.length) (n : Nat) :
    (shiftUp i k vc)[n]? = if i < n ∧ n ≤ k then vc[n - 1]? else vc[n]? := by
  induction k generalizing vc with
  | zero =>
    rw [if_neg (by omega)]
    rfl
  | succ k ih =>
    rw [shiftUp]
    by_cases hi : k + 1 > i
    · have hget : vc.getD k ⟨0, 0⟩ = vc[k] := by simp [List.getD_eq_getElem?_getD, List.getElem?_eq_getElem (by omega : k < vc.length)]
      rw [if_pos hi, ih (by rw [List.length_set]; omega), hget]
      simp only [List.getElem?_set]
      by_cases hn : n = k + 1
      · subst hn
        rw [if_neg (by omega), if_pos rfl, if_pos hk, if_pos (by omega), Nat.add_sub_cancel,
          List.getElem?_eq_getElem]
      · by_cases hle : i < n ∧ n ≤ k
        · rw [if_pos hle, if_neg (by omega : ¬ k + 1 = n - 1), if_pos ⟨hle.1, Nat.le_succ_of_le hle.2⟩]
        · rw [if_neg hle, if_neg (Ne.symm hn), if_neg (by omega)]
    · rw [if_neg hi, if_neg (by omega)]

theorem length_shiftUp (i k : Nat) (vc : List VCElem) : (shiftUp i k vc).length = vc.length := by
  induction k generalizing vc with
  | zero => rfl
  | succ k ih =>
    rw [shiftUp]
    split
    · rw [ih, List.length_set]
    · rfl

/-- An element is inserted between those before and those after the index. -/
theorem insertElem_append {capacity : Nat} (p q : List VCElem) (e : VCElem)
    (hroom : p.length + q.length < capacity) :
    insertElem ⟨capacity, p ++ q⟩ p.length e = .ok ⟨capacity, p ++ e :: q⟩ := by
  have hlist : (shiftUp p.length (p ++ q).length (p ++ q ++ [e])).set p.length e = p ++ e :: q := by
    refine List.ext_getElem? fun n => ?_
    rw [List.getElem?_set, length_shiftUp, getElem?_shiftUp (by simp), List.append_assoc]
    rcases Nat.lt_trichotomy n p.length with hn | rfl | hn
    · rw [if_neg hn.ne', if_neg (fun h => absurd h.1 (Nat.not_lt.mpr hn.le)),
        List.getElem?_append_left hn, List.getElem?_append_left hn]
    · simp
    · obtain ⟨k, rfl⟩ := Nat.exists_eq_add_of_lt hn
      rw [if_neg hn.ne, Nat.add_sub_cancel, List.getElem?_append_right (Nat.le_add_right _ _),
        List.getElem?_append_right hn.le, List.getElem?_append_right hn.le, List.length_append,
        Nat.add_assoc, Nat.add_sub_cancel_left, Nat.add_sub_cancel_left, List.getElem?_cons_succ]
      by_cases hk : k < q.length
      · rw [if_pos (by omega), List.getElem?_append_left hk]
      · rw [if_neg (by omega), List.getElem?_eq_none (by simp; omega), List.getElem?_eq_none (by omega)]
  rw [insertElem, VectorClock.size, if_pos (by simpa using hroom)]
  exact congrArg (fun l => Except.ok (VectorClock.mk capacity l)) hlist

/-- Skipping stops at the first element that is not smaller. -/
theorem skipMissing_fst (tid : ThreadId) (q : List VCElem) (i : Nat) (almostEqual : Bool) :
    (skipMissing tid t q i almostEqual).1 =
      i + (q.takeWhile fun e => decide (e.threadid < t)).length := by
  induction q generalizing i almostEqual with
  | nil => rfl
  | cons e q ih =>
    rw [skipMissing, List.takeWhile_cons]
    by_cases he : e.threadid < t
    · rw [if_pos he, if_pos (decide_eq_true he), ih, List.length_cons]
      omega
    · rw [if_neg he, if_neg (by simpa using he)]
      rfl

/-- The elements skipped have other thread ids than `tid`. -/
theorem skipMissing_snd (tid : ThreadId) (q : List VCElem) (i : Nat) (almostEqual : Bool) :
    (skipMissing tid t q i almostEqual).2 = true ↔
      almostEqual = true ∧ ∀ e ∈ q.takeWhile fun e => decide (e.threadid < t), e.threadid = tid := by
  induction q generalizing i almostEqual with
  | nil => simp [skipMissing]
  | cons e q ih =>
    rw [skipMissing, List.takeWhile_cons]
    by_cases he : e.threadid < t
    · rw [if_pos he, if_pos (decide_eq_true he), ih, List.forall_mem_cons]
      by_cases htid : e.threadid = tid <;> simp [htid]
    · rw [if_neg he, if_neg (by simpa using he)]
      simp

/-- When the second loop of `vc_combine2` leaves `almost_equal` as it is: `q` is what `result` has
from the index on. Below the last element of `rhs` there is nothing but the component of `tid`, and
this last element is in `q` too, if it is not that component. -/
structure Almost (tid : ThreadId) (q rhs : List VCElem) : Prop where
  below : ∀ e, e ∈ q ∨ e ∈ rhs → e.threadid ≠ tid → ∀ g ∈ rhs, g.threadid ≤ e.threadid
  last : ∀ f ∈ rhs, (∀ g ∈ rhs, g.threadid ≤ f.threadid) → f.threadid = tid ∨
    ∃ e ∈ q, e.threadid = f.threadid ∧ e.count = f.count

theorem almost_nil (tid : ThreadId) (q : List VCElem) : Almost tid q [] :=
  ⟨fun _ _ _ _ hg => (nomatch hg), fun _ hf => (nomatch hf)⟩

/-- One turn of the loop: `p` is skipped, `o` is the element of `result` with the thread id of `f`, if
there is one, and `x` what the loop goes on with in its place. -/
theorem almost_cons {tid : ThreadId} {f x : VCElem} {p d q rhs : List VCElem} {o : Option VCElem}
    (hp : ∀ a ∈ p, a.threadid < f.threadid) (hd : ∀ a ∈ d, f.threadid < a.threadid)
    (hf : ∀ a ∈ rhs, f.threadid < a.threadid) (hx : x.threadid = f.threadid)
    (ho : ∀ g ∈ o, g.threadid = f.threadid) (hq : ∀ e, e ∈ q ↔ e ∈ p ∨ e ∈ o ∨ e ∈ d) :
    Almost tid q (f :: rhs) ↔ (∀ e ∈ p, e.threadid = tid) ∧
      (f.threadid = tid ∨ ∃ g ∈ o, g.count = f.count) ∧ Almost tid (x :: d) rhs := by
  constructor
  · intro h
    have hbelow : ∀ e, e ∈ q ∨ e ∈ f :: rhs → e.threadid ≠ tid → f.threadid ≤ e.threadid :=
      fun e he hne => h.below e he hne f List.mem_cons_self
    refine ⟨fun e he => ?_, ?_, fun e he hne g hg => ?_, fun k hk hlast => ?_⟩
    · by_contra hne
      exact Nat.not_lt.mpr (hbelow e (.inl ((hq e).mpr (.inl he))) hne) (hp e he)
    · -- an element of `rhs` behind `f` would be a larger one
      by_cases htid : f.threadid = tid
      · exact .inl htid
      have hnil : ∀ g ∈ rhs, False := fun g hg =>
        Nat.not_lt.mpr (h.below f (.inr List.mem_cons_self) htid g (List.mem_cons_of_mem _ hg)) (hf g hg)
      rcases h.last f List.mem_cons_self (fun g hg => by
        rcases List.mem_cons.mp hg with rfl | hg
        · exact Nat.le_refl _
        · exact (hnil g hg).elim) with h | ⟨e, he, hid, hcount⟩
      · exact .inl h
      · rcases (hq e).mp he with he | he | he
        · exact absurd hid (hp e he).ne
        · exact .inr ⟨e, he, hcount⟩
        · exact absurd hid (hd e he).ne'
    · have hg' := List.mem_cons_of_mem f hg
      rcases he with he | he
      · rcases List.mem_cons.mp he with rfl | he
        · exact hx ▸ h.below f (.inr List.mem_cons_self) (hx ▸ hne) g hg'
        · exact h.below e (.inl ((hq e).mpr (.inr (.inr he)))) hne g hg'
      · exact h.below e (.inr (List.mem_cons_of_mem _ he)) hne g hg'
    · refine (h.last k (List.mem_cons_of_mem _ hk) fun g hg => ?_).imp_right ?_
      · rcases List.mem_cons.mp hg with rfl | hg
        · exact (hf k hk).le
        · exact hlast g hg
      · rintro ⟨e, he, hid, hcount⟩
        have hfk := hf k hk
        rcases (hq e).mp he with he | he | he
        · exact absurd hid ((hp e he).trans hfk).ne
        · exact absurd ((ho e he).symm.trans hid) hfk.ne
        · exact ⟨e, List.mem_cons_of_mem _ he, hid, hcount⟩
  · rintro ⟨hskip, hhere, hrest⟩
    -- nothing comes after an element that is not that of `tid`
    have hnil : f.threadid ≠ tid → ∀ g ∈ rhs, False := fun hne g hg =>
      Nat.not_lt.mpr (hrest.below x (.inl List.mem_cons_self) (hx ▸ hne) g hg) (hx ▸ hf g hg)
    refine ⟨fun e he hne g hg => ?_, fun k hk hlast => ?_⟩
    · have hle : f.threadid ≤ e.threadid := by
        rcases he with he | he
        · rcases (hq e).mp he with he | he | he
          · exact absurd (hskip e he) hne
          · exact (ho e he).ge
          · exact (hd e he).le
        · rcases List.mem_cons.mp he with rfl | he
          · exact Nat.le_refl _
          · exact (hf e he).le
      rcases List.mem_cons.mp hg with rfl | hg
      · exact hle
      rcases Nat.eq_or_lt_of_le hle with heq | hlt
      · exact (hnil (heq ▸ hne) g hg).elim
      · refine hrest.below e ?_ hne g hg
        rcases he with he | he
        · rcases (hq e).mp he with he | he | he
          · exact absurd hlt (hp e he).asymm
          · exact absurd (ho e he) hlt.ne'
          · exact .inl (List.mem_cons_of_mem _ he)
        · rcases List.mem_cons.mp he with rfl | he
          · exact absurd hlt (Nat.lt_irrefl _)
          · exact .inr he
    · rcases List.mem_cons.mp hk with rfl | hk
      · refine hhere.imp_right ?_
        rintro ⟨g, hg, hcount⟩
        exact ⟨g, (hq g).mpr (.inr (.inl hg)), ho g hg, hcount⟩
      · refine (hrest.last k hk fun g hg => hlast g (List.mem_cons_of_mem _ hg)).imp_right ?_
        rintro ⟨e, he, hid, hcount⟩
        rcases List.mem_cons.mp he with rfl | he
        · exact absurd (hx.symm.trans hid) (hf k hk).ne
        · exact ⟨e, (hq e).mpr (.inr (.inr he)), hid, hcount⟩

/-- **The second loop** of `vc_combine2` merges what is left of `rhs` into what `result` has
from the index `i` on. -/
theorem combineFrom_spec (tid : ThreadId) {capacity : Nat} {p q rhs : List VCElem} (almostEqual : Bool)
    (hq : Sorted VCElem.threadid q) (hrhs : Sorted VCElem.threadid rhs)
    (hroom : p.length + (maxElems q rhs).length ≤ capacity) :
    ∃ b, combineFrom tid ⟨capacity, p ++ q⟩ p.length almostEqual rhs =
      .ok (⟨capacity, p ++ maxElems q rhs⟩, b) ∧ (b = true ↔ almostEqual = true ∧ Almost tid q rhs) := by
  induction rhs generalizing p q almostEqual with
  | nil => exact ⟨almostEqual, by simp [combineFrom], by simp [almost_nil]⟩
  | cons f rhs ih =>
    obtain ⟨hf, hrhs'⟩ := sorted_cons.mp hrhs
    obtain ⟨p', hp'⟩ : ∃ p', p' = q.takeWhile fun e => decide (e.threadid < f.threadid) := ⟨_, rfl⟩
    obtain ⟨d, hd⟩ : ∃ d, d = q.dropWhile fun e => decide (e.threadid < f.threadid) := ⟨_, rfl⟩
    have hpd : p' ++ d = q := by rw [hp', hd, List.takeWhile_append_dropWhile]
    have hlt : ∀ a ∈ p', a.threadid < f.threadid := fun a ha => by
      have hdec := List.mem_takeWhile_imp (hp' ▸ ha)
      exact of_decide_eq_true hdec
    have hmerge : maxElems q (f :: rhs) = p' ++ maxElems d (f :: rhs) := by
      rw [← hpd]
      exact merge_append_of_lt hlt
    have hdsorted : Sorted VCElem.threadid d := hd ▸ hq.sublist (List.dropWhile_sublist _)
    obtain ⟨b, hskip, hb⟩ : ∃ b, skipMissing tid f.threadid ((p ++ q).drop p.length) p.length almostEqual =
        ((p ++ p').length, b) ∧ (b = true ↔ almostEqual = true ∧ ∀ e ∈ p', e.threadid = tid) := by
      rw [List.drop_left]
      refine ⟨_, Prod.ext ?_ rfl, ?_⟩
      · rw [skipMissing_fst, ← hp', List.length_append]
      · rw [skipMissing_snd, ← hp']
    -- the three cases go on with `x` as the element at the index; `o` is the one found there
    have hgo : ∀ x d' b', x.threadid = f.threadid → Sorted VCElem.threadid (x :: d') →
        maxElems d (f :: rhs) = x :: maxElems d' rhs →
        ∀ o : Option VCElem, (∀ g ∈ o, g.threadid = f.threadid) → o.toList ++ d' = d →
        (b' = true ↔ b = true ∧ (f.threadid = tid ∨ ∃ g ∈ o, g.count = f.count)) →
        ∃ b'', combineFrom tid ⟨capacity, p ++ p' ++ x :: d'⟩ (p ++ p').length b' rhs =
          .ok (⟨capacity, p ++ maxElems q (f :: rhs)⟩, b'') ∧
          (b'' = true ↔ almostEqual = true ∧ Almost tid q (f :: rhs)) := by
      intro x d' b' hx hsorted heq o ho hod hb'
      have hcons : maxElems (x :: d') rhs = x :: maxElems d' rhs :=
        merge_cons_left fun a ha => hx ▸ hf a ha
      obtain ⟨b'', hrun, hb''⟩ := ih b' hsorted hrhs' (p := p ++ p') (by
        rw [hcons, ← heq, List.length_append]
        rw [hmerge, List.length_append] at hroom
        omega)
      refine ⟨b'', by rw [hrun, hcons, ← heq, hmerge, List.append_assoc], ?_⟩
      rw [hb'', hb', hb, almost_cons hlt (fun a ha => hx ▸ (sorted_cons.mp hsorted).1 a ha) hf hx ho fun e => by
        rw [← hpd, ← hod]
        simp only [List.mem_append, Option.mem_toList, Option.mem_def]]
      simp only [and_assoc]
    have hpq : p ++ q = p ++ p' ++ d := by rw [List.append_assoc, hpd]
    rw [hmerge, List.length_append] at hroom
    rw [hpq] at hskip ⊢
    rw [combineFrom]
    simp only [hskip]
    cases d with
    | nil =>
      rw [List.getElem?_eq_none (by simp)]
      have hinsert : insertElem ⟨capacity, p ++ p' ++ []⟩ (p ++ p').length f = .ok ⟨capacity, p ++ p' ++ [f]⟩ :=
        insertElem_append _ _ f (by
          simp at hroom ⊢
          omega)
      simp only [hinsert, ok_bind]
      exact hgo f [] _ rfl (sorted_cons.mpr ⟨by simp, sorted_nil⟩) (by simp) none (fun _ hg => (nomatch hg)) rfl
        (by by_cases htid : f.threadid = tid <;> simp [htid])
    | cons g d' =>
      have hfg : f.threadid ≤ g.threadid := dropLower_cons hd.symm
      rw [List.getElem?_append_right (Nat.le_refl _), Nat.sub_self, List.getElem?_cons_zero]
      simp only
      split
      · rename_i hgt
        have hmerge' : maxElems (g :: d') (f :: rhs) = f :: maxElems (g :: d') rhs := merge_of_gt hgt
        have hinsert : insertElem ⟨capacity, p ++ p' ++ g :: d'⟩ (p ++ p').length f =
            .ok ⟨capacity, p ++ p' ++ f :: g :: d'⟩ := insertElem_append _ _ f (by
          have hle : (g :: d').length ≤ (maxElems (g :: d') rhs).length := length_le_merge
          rw [hmerge', List.length_cons] at hroom
          rw [List.length_append]
          omega)
        simp only [hinsert, ok_bind]
        refine hgo f (g :: d') _ rfl (sorted_cons.mpr ⟨fun a ha => ?_, hdsorted⟩) hmerge' none
          (fun _ hg => (nomatch hg)) rfl (by by_cases htid : f.threadid = tid <;> simp [htid])
        rcases List.mem_cons.mp ha with rfl | ha
        · exact hgt
        · exact Nat.lt_trans hgt ((sorted_cons.mp hdsorted).1 a ha)
      · rename_i hgt
        have heq : g.threadid = f.threadid := Nat.le_antisymm (Nat.not_lt.mp hgt) hfg
        rw [assertThat_of heq]
        have hmax : (if f.count > g.count then
            { capacity := capacity, vc := (p ++ p' ++ g :: d').set (p ++ p').length { g with count := f.count } }
          else ⟨capacity, p ++ p' ++ g :: d'⟩ : VectorClock) = ⟨capacity, p ++ p' ++ maxElem g f :: d'⟩ := by
          split
          · rename_i hcount
            rw [List.set_append_right _ _ (Nat.le_refl _), Nat.sub_self, List.set_cons_zero, maxElem,
              Nat.max_eq_right hcount.le]
          · rename_i hcount
            rw [maxElem, Nat.max_eq_left (Nat.not_lt.mp hcount)]
        have hsorted : Sorted VCElem.threadid (maxElem g f :: d') :=
          sorted_cons.mpr ⟨(sorted_cons.mp hdsorted).1, (sorted_cons.mp hdsorted).2⟩
        simp only [ok_bind, hmax]
        refine hgo (maxElem g f) d' _ heq hsorted (merge_of_eq heq) (some g) (fun _ hg => ?_) rfl ?_
        · obtain rfl := Option.mem_some.mp hg
          exact heq
        · by_cases htid : f.threadid = tid
          · simp [heq, htid]
          · by_cases hcount : f.count = g.count
            · simp [heq, hcount]
            · simp [heq, htid, hcount, Ne.symm hcount]

end Elems

/-! ## The operations on clocks -/

section Operations

variable {a b : VectorClock} {t u : ThreadId}

theorem count_of_find {e : VCElem} (h : find VCElem.threadid t a.vc = some e) : a.count t = e.count := by
  simp [VectorClock.count, h]

theorem count_of_none (h : find VCElem.threadid t a.vc = none) : a.count t = 0 := by
  simp [VectorClock.count, h]

/-- The counters of a combined clock. -/
theorem count_maxElems (ha : a.Inv) (hb : b.Inv) (capacity : Nat) :
    (VectorClock.mk capacity (maxElems a.vc b.vc)).count = a.count ⊔ b.count := by
  funext t
  have hfind := find_merge maxElem_threadid ha.sorted hb.sorted t
  show ((find VCElem.threadid t (maxElems a.vc b.vc)).map VCElem.count).getD 0 = max (a.count t) (b.count t)
  rw [hfind]
  unfold VectorClock.count
  cases find VCElem.threadid t a.vc with
  | none => simp
  | some e =>
    cases find VCElem.threadid t b.vc with
    | none => simp
    | some f => rfl

/-- **Comparison** is the pointwise order. -/
theorem vcLte_iff (ha : a.Inv) (hb : b.Inv) : vcLte a b = true ↔ a.count ≤ b.count := by
  rw [vcLte, lteFrom_iff ha.sorted hb.sorted]
  constructor
  · intro h t
    cases hfind : find VCElem.threadid t a.vc with
    | none => simp [count_of_none hfind]
    | some e =>
      obtain ⟨hmem, rfl⟩ := find_some hfind
      obtain ⟨f, hf, hle⟩ := h e hmem
      rwa [count_of_find hfind, count_of_find hf]
  · intro h e he
    have hle := h e.threadid
    rw [count_of_find (ha.sorted.find_of_mem he)] at hle
    cases hfind : find VCElem.threadid e.threadid b.vc with
    | none =>
      rw [count_of_none hfind] at hle
      exact absurd (ha.positive e he) (Nat.not_lt.mpr hle)
    | some f => exact ⟨f, rfl, count_of_find hfind ▸ hle⟩

/-- Clocks with the same counters have the same elements. -/
theorem VectorClock.Inv.ext (ha : a.Inv) (hb : b.Inv) (h : a.count = b.count) : a.vc = b.vc := by
  refine ha.sorted.ext hb.sorted fun t => ?_
  have hcount := congrFun h t
  have hsome : ∀ {c d : VectorClock} {e : VCElem}, c.Inv → find VCElem.threadid t c.vc = some e →
      c.count t = d.count t → ∃ f, find VCElem.threadid t d.vc = some f ∧ f = e := by
    intro c d e hc he hcd
    have hpos := hc.positive e (find_some he).1
    rw [count_of_find he] at hcd
    cases hd : find VCElem.threadid t d.vc with
    | none =>
      rw [count_of_none hd] at hcd
      exact absurd hpos (hcd ▸ Nat.lt_irrefl 0)
    | some f =>
      rw [count_of_find hd] at hcd
      refine ⟨f, rfl, ?_⟩
      cases e
      cases f
      simp only [VCElem.mk.injEq]
      exact ⟨(find_some hd).2.trans (find_some he).2.symm, hcd.symm⟩
  cases hfa : find VCElem.threadid t a.vc with
  | some e =>
    obtain ⟨f, hf, rfl⟩ := hsome (d := b) ha hfa hcount
    exact hf.symm
  | none =>
    cases hfb : find VCElem.threadid t b.vc with
    | none => rfl
    | some e =>
      obtain ⟨f, hf, -⟩ := hsome (d := a) hb hfb hcount.symm
      exact absurd hf (by simp [hfa])

theorem vcCheck_of_ordered (ha : a.Ordered) : vcCheck a = .ok () := by
  have hchain : a.vc.IsChain fun a b => a.threadid < b.threadid := List.Pairwise.isChain ha.sorted
  rw [vcCheck, assertThat_of ha.fits, assertThat_of hchain]
  rfl

theorem vcReserve_of_pos {newCapacity : Nat} (h : 0 < newCapacity) :
    vcReserve a newCapacity = .ok { a with capacity := max a.capacity newCapacity } := by
  rw [vcReserve]
  by_cases hc : newCapacity > a.capacity
  · simp only [if_pos hc]
    rw [assertThat_of (.inr (Nat.ne_of_gt h)), Nat.max_eq_right hc.le]
    rfl
  · have hle := Nat.not_lt.mp hc
    simp only [if_neg hc]
    rw [assertThat_of (.inr (by omega)), Nat.max_eq_left hle]
    rfl

theorem inv_maxElems (ha : a.Inv) (hb : b.Inv) {capacity : Nat}
    (hfits : (maxElems a.vc b.vc).length ≤ capacity) :
    (VectorClock.mk capacity (maxElems a.vc b.vc)).Inv := by
  have hsorted := Sorted.merge maxElem_threadid ha.sorted hb.sorted
  refine ⟨⟨hfits, hsorted⟩, fun e he => ?_⟩
  have hfind := find_merge maxElem_threadid ha.sorted hb.sorted e.threadid
  rw [hsorted.find_of_mem he] at hfind
  cases hfa : find VCElem.threadid e.threadid a.vc with
  | none =>
    rw [hfa] at hfind
    exact hb.positive e (find_some hfind.symm).1
  | some f =>
    have hf := ha.positive f (find_some hfa).1
    rw [hfa] at hfind
    cases hfb : find VCElem.threadid e.threadid b.vc with
    | none =>
      rw [hfb] at hfind
      cases hfind
      exact hf
    | some g =>
      rw [hfb] at hfind
      cases hfind
      exact lt_of_lt_of_le hf (le_max_left _ _)

/-- **Combining** returns a clock with the larger counters, and whether the clocks were almost
equal. -/
theorem vcCombine2_spec (ha : a.Ordered) (hb : b.Ordered) (tid : ThreadId) :
    ∃ r, vcCombine2 a b tid =
      .ok (⟨max a.capacity (maxElems a.vc b.vc).length, maxElems a.vc b.vc⟩, r) ∧
      (r = true ↔ Almost tid a.vc b.vc) := by
  have hsize : a.size + b.size - shared a.vc b.vc = (maxElems a.vc b.vc).length := by
    have := shared_add_length ha.sorted hb.sorted
    rw [VectorClock.size, VectorClock.size]
    omega
  obtain ⟨cap, hcap⟩ : ∃ cap, cap = max a.capacity (maxElems a.vc b.vc).length := ⟨_, rfl⟩
  have hinv : (VectorClock.mk cap a.vc).Ordered := ⟨le_trans ha.fits (hcap ▸ le_max_left _ _), ha.sorted⟩
  have hinv' : (VectorClock.mk cap (maxElems a.vc b.vc)).Ordered :=
    ⟨hcap ▸ le_max_right _ _, Sorted.merge maxElem_threadid ha.sorted hb.sorted⟩
  obtain ⟨r, hr, halmost⟩ := combineFrom_spec tid (p := []) true ha.sorted hb.sorted
    (show 0 + (maxElems a.vc b.vc).length ≤ cap from by rw [hcap]; omega)
  rw [List.nil_append, List.nil_append, List.length_nil] at hr
  -- what is done after the reservation
  have hrest : (do
      vcCheck ⟨cap, a.vc⟩
      let (result, almostEqual) ← combineFrom tid ⟨cap, a.vc⟩ 0 true b.vc
      vcCheck result
      assertThat (result.size = (maxElems a.vc b.vc).length)
      return (result, almostEqual)) = Except.ok (VectorClock.mk cap (maxElems a.vc b.vc), r) := by
    rw [vcCheck_of_ordered hinv, hr]
    simp only [ok_bind, vcCheck_of_ordered hinv']
    have hnew : VectorClock.size ⟨cap, maxElems a.vc b.vc⟩ = (maxElems a.vc b.vc).length := rfl
    rw [assertThat_of hnew]
    rfl
  refine ⟨r, ?_, halmost.trans (and_iff_right rfl)⟩
  rw [vcCombine2, vcCheck_of_ordered ha, ← hcap]
  simp only [ok_bind, hsize]
  by_cases hgt : (maxElems a.vc b.vc).length > a.capacity
  · rw [if_pos hgt, vcReserve_of_pos (Nat.zero_lt_of_lt hgt), ← hcap]
    exact hrest
  · obtain rfl : cap = a.capacity := by rw [hcap, Nat.max_eq_left (Nat.not_lt.mp hgt)]
    rw [if_neg hgt]
    exact hrest

theorem vcCombine_spec (ha : a.Inv) (hb : b.Inv) :
    vcCombine a b = .ok ⟨max a.capacity (maxElems a.vc b.vc).length, maxElems a.vc b.vc⟩ := by
  obtain ⟨r, hr, -⟩ := vcCombine2_spec ha.toOrdered hb.toOrdered 0xFFFFFFFF
  rw [vcCombine, hr]
  rfl

theorem vcInit_spec (l : List VCElem) : vcInit l = .ok ⟨l.length, l⟩ := by
  rcases Nat.eq_zero_or_pos l.length with h | h
  · obtain rfl := List.length_eq_zero_iff.mp h
    rfl
  · rw [vcInit, vcReserve_of_pos h]
    simp only [ok_bind, Nat.max_eq_right (Nat.zero_le _)]
    rw [assertThat_of (.inr (Nat.ne_of_gt h))]
    rfl

theorem vcCleanup_spec : vcCleanup a = .ok a := by
  rw [vcCleanup, vcReserve, if_neg (Nat.not_lt_zero _), assertThat_of (.inl rfl)]
  rfl

theorem vcCopy_spec : vcCopy a = .ok ⟨a.size, a.vc⟩ := vcInit_spec a.vc

theorem vcAssign_spec : vcAssign a b = .ok ⟨b.size, b.vc⟩ := by
  rw [vcAssign, vcCleanup_spec]
  exact vcCopy_spec

theorem incrementElem_none {l : List VCElem} :
    incrementElem t l = none ↔ find VCElem.threadid t l = none := by
  induction l with
  | nil => simp [incrementElem]
  | cons e l ih =>
    rw [incrementElem]
    by_cases he : e.threadid = t
    · rw [if_pos he, find_cons_self he]
      simp
    · rw [if_neg he, find_cons_of_ne he, Option.map_eq_none_iff]
      exact ih

/-- The element of the thread is incremented, unless its counter is the largest number. -/
theorem incrementElem_some {l : List VCElem} {e : VCElem} (h : find VCElem.threadid t l = some e) :
    ∃ p q, l = p ++ e :: q ∧ (∀ f ∈ p, f.threadid ≠ t) ∧
      incrementElem t l = some (if e.count + 1 < 2 ^ 32 then .ok (p ++ { e with count := e.count + 1 } :: q)
        else .error .assertFailed) := by
  induction l with
  | nil => exact nomatch h
  | cons f l ih =>
    by_cases hf : f.threadid = t
    · rw [find_cons_self hf] at h
      cases h
      refine ⟨[], l, rfl, fun _ hm => (nomatch hm), ?_⟩
      rw [incrementElem, if_pos hf]
      refine congrArg some ?_
      by_cases hlt : e.count + 1 < 2 ^ 32
      · rw [if_pos hlt, Nat.mod_eq_of_lt hlt]
        simp only []
        rw [assertThat_of (Nat.lt_succ_self _)]
        rfl
      · rw [if_neg hlt]
        have hwrap : ¬ e.count < (e.count + 1) % 2 ^ 32 := by omega
        simp only [assertThat, if_neg hwrap]
        rfl
    · rw [find_cons_of_ne hf] at h
      obtain ⟨p, q, rfl, hp, hinc⟩ := ih h
      refine ⟨f :: p, q, rfl, List.forall_mem_cons.mpr ⟨hf, hp⟩, ?_⟩
      rw [incrementElem, if_neg hf, hinc, Option.map_some]
      refine congrArg some ?_
      split <;> rfl

/-- **Incrementing** fails exactly when the counter would wrap around; else it raises the
counter of the thread by one. -/
theorem vcIncrement_spec (ha : a.Inv) (t : ThreadId) :
    if a.count t + 1 < 2 ^ 32 then
      ∃ a', vcIncrement a t = .ok a' ∧ a'.Inv ∧ a'.count = Function.update a.count t (a.count t + 1)
    else vcIncrement a t = .error .assertFailed := by
  cases hfind : find VCElem.threadid t a.vc with
  | none =>
    have hone : (VectorClock.mk 1 [⟨t, 1⟩]).Inv := ⟨⟨Nat.le_refl _, by simp [Sorted]⟩, by simp⟩
    rw [count_of_none hfind, if_pos (by norm_num)]
    refine ⟨⟨max a.capacity (maxElems a.vc [⟨t, 1⟩]).length, maxElems a.vc [⟨t, 1⟩]⟩, ?_,
      inv_maxElems ha hone (le_max_right _ _), ?_⟩
    · rw [vcIncrement, incrementElem_none.mpr hfind]
      simp only [vcInit_spec, ok_bind, List.length_singleton, vcCombine_spec ha hone, vcCleanup_spec]
      rfl
    · rw [count_maxElems ha hone]
      funext u
      have hu : (VectorClock.mk 1 [⟨t, 1⟩]).count u = if u = t then 1 else 0 := by
        by_cases h : u = t
        · rw [if_pos h, count_of_find (find_cons_self h.symm)]
        · rw [if_neg h, count_of_none (find_cons_of_ne (Ne.symm h))]
      rw [Pi.sup_apply, hu, Function.update_apply]
      split
      · rename_i h
        rw [h, count_of_none hfind]
        rfl
      · simp
  | some e =>
    obtain ⟨p, q, hpq, hp, hinc⟩ := incrementElem_some hfind
    obtain ⟨hmem, rfl⟩ := find_some hfind
    rw [count_of_find hfind]
    by_cases hlt : e.count + 1 < 2 ^ 32
    · rw [if_pos hlt]
      rw [if_pos hlt] at hinc
      obtain ⟨e', he'⟩ : ∃ e', e' = ({ e with count := e.count + 1 } : VCElem) := ⟨_, rfl⟩
      have hkey : e'.threadid = e.threadid := by rw [he']
      have hsorted : Sorted VCElem.threadid (p ++ e' :: q) := by
        have hs := ha.sorted
        rw [hpq] at hs
        unfold Sorted at hs ⊢
        rw [List.pairwise_append, List.pairwise_cons] at hs ⊢
        simpa only [List.forall_mem_cons, hkey] using hs
      refine ⟨⟨a.capacity, p ++ e' :: q⟩, ?_, ⟨⟨?_, hsorted⟩, ?_⟩, ?_⟩
      · rw [vcIncrement, hinc, he']
        rfl
      · have := ha.fits
        rw [VectorClock.size, hpq] at this
        simpa [VectorClock.size] using this
      · intro f hf
        have hpos : ∀ f ∈ p ++ e :: q, 0 < f.count := hpq ▸ ha.positive
        simp only [List.mem_append, List.mem_cons] at hf hpos
        rcases hf with hf | rfl | hf
        · exact hpos f (.inl hf)
        · rw [he']
          exact Nat.succ_pos _
        · exact hpos f (.inr (.inr hf))
      · funext u
        rw [Function.update_apply]
        split
        · rename_i hu
          have hself : find VCElem.threadid u (p ++ e' :: q) = some e' := by
            rw [hu, ← hkey]
            exact hsorted.find_of_mem (by simp)
          rw [count_of_find hself, he']
        · rename_i hu
          unfold VectorClock.count
          rw [hpq]
          simp only [find, List.find?_append, List.find?_cons, hkey, decide_eq_false (Ne.symm hu)]
    · rw [if_neg hlt]
      rw [if_neg hlt] at hinc
      rw [vcIncrement, hinc]
      rfl

/-! ## Clocks that are built -/

/-- The clocks that the operations build from arrays with increasing thread ids and
positive counters. -/
inductive Built : VectorClock → Prop where
  | init {l vc} (hsorted : Sorted VCElem.threadid l) (hpos : ∀ e ∈ l, 0 < e.count)
    (h : vcInit l = .ok vc) : Built vc
  | increment {a vc t} (ha : Built a) (h : vcIncrement a t = .ok vc) : Built vc
  | combine {a b vc} (ha : Built a) (hb : Built b) (h : vcCombine a b = .ok vc) : Built vc
  | assign {a b vc} (ha : Built a) (hb : Built b) (h : vcAssign a b = .ok vc) : Built vc
  | copy {a vc} (ha : Built a) (h : vcCopy a = .ok vc) : Built vc

theorem Built.inv {vc : VectorClock} (h : Built vc) : vc.Inv := by
  induction h with
  | init hsorted hpos h =>
    rw [vcInit_spec] at h
    cases h
    exact ⟨⟨Nat.le_refl _, hsorted⟩, hpos⟩
  | @increment a vc t _ h ih =>
    have hspec := vcIncrement_spec ih t
    split at hspec
    · obtain ⟨a', ha', hinv, -⟩ := hspec
      rw [ha'] at h
      cases h
      exact hinv
    · rw [hspec] at h
      exact nomatch h
  | combine _ _ h iha ihb =>
    rw [vcCombine_spec iha ihb] at h
    cases h
    exact inv_maxElems iha ihb (le_max_right _ _)
  | assign _ _ h _ ihb =>
    rw [vcAssign_spec] at h
    cases h
    exact ⟨⟨Nat.le_refl _, ihb.sorted⟩, ihb.positive⟩
  | copy _ h iha =>
    rw [vcCopy_spec] at h
    cases h
    exact ⟨⟨Nat.le_refl _, iha.sorted⟩, iha.positive⟩

/-- What combining two clocks is known to return. -/
theorem vcCombine_count (ha : a.Inv) (hb : b.Inv) :
    ∃ c, vcCombine a b = .ok c ∧ c.Inv ∧ c.count = a.count ⊔ b.count :=
  ⟨_, vcCombine_spec ha hb, inv_maxElems ha hb (le_max_right _ _), count_maxElems ha hb _⟩

/-- Combining a clock into one that is not smaller changes nothing. -/
theorem vcCombine_of_le (ha : a.Inv) (hb : b.Inv) (h : a.count ≤ b.count) : vcCombine b a = .ok b := by
  have hinv := inv_maxElems hb ha (le_refl (maxElems b.vc a.vc).length)
  have hvc : maxElems b.vc a.vc = b.vc := hinv.ext hb ((count_maxElems hb ha _).trans (sup_of_le_left h))
  rw [vcCombine_spec hb ha, hvc]
  exact congrArg (fun n => Except.ok (VectorClock.mk n b.vc)) (Nat.max_eq_left hb.fits)

theorem vcCombine_eq_iff (ha : a.Inv) (hb : b.Inv) : vcLte a b = true ↔ vcCombine b a = .ok b := by
  rw [vcLte_iff ha hb]
  refine ⟨vcCombine_of_le ha hb, fun h => ?_⟩
  obtain ⟨c, hc, -, hcount⟩ := vcCombine_count hb ha
  rw [h] at hc
  cases hc
  exact hcount ▸ le_sup_right

end Operations

/-- **Vector clocks are a join semilattice**: the array of a clock that is built stays
strictly sorted and within its capacity, `vc_lte` is the pointwise order, `vc_combine` is
the pointwise maximum and the least upper bound, and `vc_increment` raises one component,
whenever the counter does not wrap around, by one. -/
theorem built_semilattice {a b c : VectorClock} (ha : Built a) (hb : Built b) (hc : Built c) :
    (Sorted VCElem.threadid a.vc ∧ a.size ≤ a.capacity) ∧
    (vcLte a b = true ↔ ∀ t, a.count t ≤ b.count t) ∧
    (vcLte a b = true → vcLte b a = true → a.vc = b.vc) ∧
    (∃ ab, vcCombine a b = .ok ab ∧ (∀ t, ab.count t = max (a.count t) (b.count t)) ∧
      vcLte a ab = true ∧ vcLte b ab = true ∧
      (vcLte a c = true → vcLte b c = true → vcLte ab c = true) ∧
      (∃ ba, vcCombine b a = .ok ba ∧ ba.vc = ab.vc) ∧
      ∃ bc l r, vcCombine b c = .ok bc ∧ vcCombine ab c = .ok l ∧ vcCombine a bc = .ok r ∧ l.vc = r.vc) ∧
    vcCombine a a = .ok a ∧
    (vcLte a b = true ↔ vcCombine b a = .ok b) ∧
    ∀ t, if a.count t + 1 < 2 ^ 32 then
        ∃ a', vcIncrement a t = .ok a' ∧ ∀ u, a'.count u = if u = t then a.count t + 1 else a.count u
      else vcIncrement a t = .error .assertFailed := by
  have ia := ha.inv
  have ib := hb.inv
  have ic := hc.inv
  obtain ⟨ab, hab, iab, hcab⟩ := vcCombine_count ia ib
  obtain ⟨ba, hba, iba, hcba⟩ := vcCombine_count ib ia
  obtain ⟨bc, hbc, ibc, hcbc⟩ := vcCombine_count ib ic
  obtain ⟨l, hl, il, hcl⟩ := vcCombine_count iab ic
  obtain ⟨r, hr, ir, hcr⟩ := vcCombine_count ia ibc
  refine ⟨⟨ia.sorted, ia.fits⟩, vcLte_iff ia ib, fun h₁ h₂ => ?_,
    ⟨ab, hab, fun t => congrFun hcab t, ?_, ?_, fun h₁ h₂ => ?_, ⟨ba, hba, ?_⟩,
      bc, l, r, hbc, hl, hr, ?_⟩, ?_, vcCombine_eq_iff ia ib, fun t => ?_⟩
  · exact ia.ext ib (le_antisymm ((vcLte_iff ia ib).mp h₁) ((vcLte_iff ib ia).mp h₂))
  · exact (vcLte_iff ia iab).mpr (hcab ▸ le_sup_left)
  · exact (vcLte_iff ib iab).mpr (hcab ▸ le_sup_right)
  · exact (vcLte_iff iab ic).mpr (hcab ▸ sup_le ((vcLte_iff ia ic).mp h₁) ((vcLte_iff ib ic).mp h₂))
  · exact iba.ext iab (by rw [hcba, hcab, sup_comm])
  · exact il.ext ir (by rw [hcl, hcab, hcr, hcbc, sup_assoc])
  · exact vcCombine_of_le ia ia (le_refl _)
  · have hspec := vcIncrement_spec ia t
    split at hspec
    · rename_i hlt
      obtain ⟨a', ha', -, hcount⟩ := hspec
      rw [if_pos hlt]
      exact ⟨a', ha', fun u => by rw [hcount, Function.update_apply]⟩
    · rename_i hlt
      rw [if_neg hlt]
      exact hspec

/-- The clocks `vc1` and `vc2` of the unit test of the source. -/
theorem built_semilattice_unitTest :
    vcLte ⟨2, [⟨3, 7⟩, ⟨5, 8⟩]⟩ ⟨2, [⟨1, 4⟩, ⟨3, 9⟩]⟩ = false ∧
    ∃ c, vcCombine ⟨2, [⟨3, 7⟩, ⟨5, 8⟩]⟩ ⟨2, [⟨1, 4⟩, ⟨3, 9⟩]⟩ = .ok c ∧ ∀ t, c.count t =
      max ((VectorClock.mk 2 [⟨3, 7⟩, ⟨5, 8⟩]).count t) ((VectorClock.mk 2 [⟨1, 4⟩, ⟨3, 9⟩]).count t) := by
  have h₁ : Built ⟨2, [⟨3, 7⟩, ⟨5, 8⟩]⟩ := .init (by decide) (by decide) (vcInit_spec [⟨3, 7⟩, ⟨5, 8⟩])
  have h₂ : Built ⟨2, [⟨1, 4⟩, ⟨3, 9⟩]⟩ := .init (by decide) (by decide) (vcInit_spec [⟨1, 4⟩, ⟨3, 9⟩])
  obtain ⟨-, -, -, ⟨c, hc, hmax, -⟩, -⟩ := built_semilattice h₁ h₂ h₁
  exact ⟨by decide, c, hc, hmax⟩

/-! ## The flag of `vc_combine2` -/

section Flag

variable {a b : VectorClock} {tid t : ThreadId}

/-- The clocks have the same components, that of `tid` apart; a component that one of them lacks
is not the same. -/
def AgreeExcept (a b : VectorClock) (tid : ThreadId) : Prop :=
  ∀ t, t ≠ tid → find VCElem.threadid t a.vc = find VCElem.threadid t b.vc

/-- The same, as far as the elements of `b` go. -/
def AgreeUpTo (a b : VectorClock) (tid : ThreadId) : Prop :=
  ∀ t, t ≠ tid → (∃ g ∈ b.vc, t ≤ g.threadid) → find VCElem.threadid t a.vc = find VCElem.threadid t b.vc

/-- Some element but the last has another thread id. -/
def Early (b : VectorClock) (tid : ThreadId) : Prop :=
  ∃ f ∈ b.vc, f.threadid ≠ tid ∧ ∃ g ∈ b.vc, f.threadid < g.threadid

/-- Behind all elements of `b` there is one with another thread id. -/
def Trailing (a b : VectorClock) (tid : ThreadId) : Prop :=
  ∃ e ∈ a.vc, e.threadid ≠ tid ∧ ∀ g ∈ b.vc, g.threadid < e.threadid

/-- An element that both clocks have is not the only one below the end of `b`. -/
theorem almost_iff (ha : a.Ordered) (hb : b.Ordered) :
    Almost tid a.vc b.vc ↔ AgreeUpTo a b tid ∧ ¬ Early b tid := by
  constructor
  · intro h
    refine ⟨fun t ht hle => ?_, fun ⟨f, hf, hne, g, hg, hlt⟩ => ?_⟩
    · by_cases hlast : ∃ f ∈ b.vc, f.threadid = t ∧ ∀ g ∈ b.vc, g.threadid ≤ t
      · obtain ⟨f, hf, rfl, hmax⟩ := hlast
        obtain ⟨e, he, hid, hcount⟩ := (h.last f hf hmax).resolve_left ht
        obtain rfl : e = f := by
          cases e
          cases f
          simp_all
        rw [ha.sorted.find_of_mem he, hb.sorted.find_of_mem hf]
      · -- neither clock has a component there
        have hnone : ∀ e, e ∈ a.vc ∨ e ∈ b.vc → e.threadid ≠ t := by
          rintro e he rfl
          have hmax := h.below e he ht
          obtain ⟨g, hg, hge⟩ := hle
          exact hlast ⟨g, hg, Nat.le_antisymm (hmax g hg) hge, hmax⟩
        rw [find_eq_none.mpr fun e he => hnone e (.inl he), find_eq_none.mpr fun e he => hnone e (.inr he)]
    · exact Nat.not_lt.mpr (h.below f (.inr hf) hne g hg) hlt
  · rintro ⟨hagree, hearly⟩
    refine ⟨fun e he hne g hg => ?_, fun f hf hmax => ?_⟩
    · by_contra hlt
      have heq := hagree e.threadid hne ⟨g, hg, (Nat.not_le.mp hlt).le⟩
      have hmem : ∃ f ∈ b.vc, f.threadid = e.threadid := by
        rcases he with he | he
        · rw [ha.sorted.find_of_mem he] at heq
          exact ⟨e, (find_some heq.symm).1, rfl⟩
        · exact ⟨e, he, rfl⟩
      obtain ⟨f, hf, hid⟩ := hmem
      exact hearly ⟨f, hf, hid ▸ hne, g, hg, hid ▸ Nat.not_le.mp hlt⟩
    · by_cases htid : f.threadid = tid
      · exact .inl htid
      · have heq := hagree f.threadid htid ⟨f, hf, Nat.le_refl _⟩
        rw [hb.sorted.find_of_mem hf] at heq
        exact .inr ⟨f, (find_some heq).1, rfl, rfl⟩

theorem agreeExcept_iff (ha : a.Ordered) : AgreeExcept a b tid ↔ AgreeUpTo a b tid ∧ ¬ Trailing a b tid := by
  constructor
  · refine fun h => ⟨fun t ht _ => h t ht, fun ⟨e, he, hne, hmax⟩ => ?_⟩
    have heq := h e.threadid hne
    rw [ha.sorted.find_of_mem he] at heq
    exact Nat.lt_irrefl _ (hmax e (find_some heq.symm).1)
  · rintro ⟨hagree, htrailing⟩ t ht
    by_cases hle : ∃ g ∈ b.vc, t ≤ g.threadid
    · exact hagree t ht hle
    · have hlt : ∀ g ∈ b.vc, g.threadid < t := fun g hg => Nat.not_le.mp fun hge => hle ⟨g, hg, hge⟩
      have hnone : ∀ e ∈ a.vc, e.threadid ≠ t := by
        rintro e he rfl
        exact htrailing ⟨e, he, ht, hlt⟩
      rw [find_eq_none.mpr hnone, find_eq_none.mpr fun g hg => (hlt g hg).ne]

/-- **The flag of `vc_combine2`**: it says whether the clocks are equal, the component of `tid`
apart, unless they agree up to the end of `rhs` and only one of these is the case: an element of
`rhs` but the last is looked at once more, or elements behind the end of `rhs` are not looked at. -/
theorem vcCombine2_flag_iff (ha : a.Ordered) (hb : b.Ordered) :
    (∃ r flag, vcCombine2 a b tid = .ok (r, flag) ∧ (flag = true ↔ AgreeExcept a b tid)) ↔
      ¬ AgreeUpTo a b tid ∨ (Early b tid ↔ Trailing a b tid) := by
  obtain ⟨flag, hrun, hflag⟩ := vcCombine2_spec ha hb tid
  rw [almost_iff ha hb] at hflag
  have hiff : (∃ r flag, vcCombine2 a b tid = .ok (r, flag) ∧ (flag = true ↔ AgreeExcept a b tid)) ↔
      (flag = true ↔ AgreeExcept a b tid) := by
    constructor
    · rintro ⟨r, flag', hrun', h⟩
      rw [hrun] at hrun'
      cases hrun'
      exact h
    · exact fun h => ⟨_, flag, hrun, h⟩
  rw [hiff, hflag, agreeExcept_iff ha]
  grind

end Flag

/-- A clock that lacks the component of the thread itself. -/
theorem vcCombine2_flag_iff_sample :
    ∃ r flag, vcCombine2 ⟨1, [⟨3, 7⟩]⟩ ⟨2, [⟨1, 4⟩, ⟨3, 7⟩]⟩ 1 = .ok (r, flag) ∧
      (flag = true ↔ AgreeExcept ⟨1, [⟨3, 7⟩]⟩ ⟨2, [⟨1, 4⟩, ⟨3, 7⟩]⟩ 1) :=
  (vcCombine2_flag_iff ⟨by decide, by decide⟩ ⟨by decide, by decide⟩).mpr (.inr (by
    constructor
    · rintro ⟨f, hf, hne, g, hg, hlt⟩
      simp at hf hg
      rcases hf with rfl | rfl <;> rcases hg with rfl | rfl <;> simp_all
    · rintro ⟨e, he, -, hmax⟩
      simp at he
      exact absurd (hmax ⟨3, 7⟩ (by simp)) (by simp [he])))

/-- Two clocks that are equal: the first of their two elements is looked at once more. -/
theorem vcCombine2_equal : ¬ ∃ r flag, vcCombine2 ⟨2, [⟨1, 4⟩, ⟨3, 7⟩]⟩ ⟨2, [⟨1, 4⟩, ⟨3, 7⟩]⟩ 9 = .ok (r, flag) ∧
    (flag = true ↔ AgreeExcept ⟨2, [⟨1, 4⟩, ⟨3, 7⟩]⟩ ⟨2, [⟨1, 4⟩, ⟨3, 7⟩]⟩ 9) := by
  rintro ⟨r, flag, hrun, hflag⟩
  have hfalse : vcCombine2 ⟨2, [⟨1, 4⟩, ⟨3, 7⟩]⟩ ⟨2, [⟨1, 4⟩, ⟨3, 7⟩]⟩ 9 =
      .ok (⟨2, [⟨1, 4⟩, ⟨3, 7⟩]⟩, false) := by decide
  rw [hfalse] at hrun
  cases hrun
  exact absurd (hflag.mpr fun _ _ => rfl) (by decide)

end Valgrind.Drd
