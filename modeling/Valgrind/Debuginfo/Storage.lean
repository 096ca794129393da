import Valgrind.Basics.Machine
import Valgrind.Basics.Result
import Valgrind.Lib.CutRanges

/-!
# Tables of addresses (`m_debuginfo/storage.c`)

The location table and the call frame table are sorted by the start of the address ranges,
overlapping ranges are cut, and the empty ones are dropped; after that the tables are
searched by bisection. `canonicaliseLoctab_search` and `canonicaliseCFI_search` say what a
search finds, in terms of the table before.
-/

namespace Valgrind.Debuginfo

open CutRanges

/-! ## Sorting and searching -/

/-- `VG_(ssort)` with the comparison `compar`: the elements in order. In which order it leaves
elements that compare equal is not said. -/
structure Ssort {α : Type} (compar : α → α → Int) where
  sort : List α → List α
  perm : ∀ l, (sort l).Perm l
  sorted : ∀ l, (sort l).Pairwise fun a b => compar a b ≤ 0

/-- Insertion, which is how `VG_(ssort)` sorts less than 7 elements. -/
def insertionSsort {α : Type} (compar : α → α → Int) (htotal : ∀ a b, compar a b ≤ 0 ∨ compar b a ≤ 0)
    (htrans : ∀ a b c, compar a b ≤ 0 → compar b c ≤ 0 → compar a c ≤ 0) : Ssort compar where
  sort := List.insertionSort fun a b => compar a b ≤ 0
  perm l := List.perm_insertionSort _ l
  sorted l := by
    have : Std.Total fun a b => compar a b ≤ 0 := ⟨htotal⟩
    have : IsTrans α fun a b => compar a b ≤ 0 := ⟨htrans⟩
    exact List.pairwise_insertionSort _ l

/-- The conversion to `Int`. -/
def toInt (n : Nat) : Int := Int.bmod n (2 ^ 32)

/-- `x[i]` as the range of addresses that the element covers. -/
def readRange {α : Type} (range : α → Result (Nat × Nat)) (tab : List α) (i : Nat) : Result (Nat × Nat) :=
  match tab[i]? with
  | some x => range x
  | none => throw .fault

/-- The loop of `ML_(search_one_symtab)`, `ML_(search_one_loctab)` and
`ML_(search_one_cfitab)`: the current unsearched space is from `lo` to `hi`, inclusive. -/
def searchOne (range : Nat → Result (Nat × Nat)) (ptr : Nat) (lo hi : Int) : Result Int :=
  if lo > hi then return -1
  else do
    let mid := (lo + hi) / 2
    let (aMidLo, aMidHi) ← range mid.toNat
    if ptr < aMidLo then searchOne range ptr lo (mid - 1)
    else if ptr > aMidHi then searchOne range ptr (mid + 1) hi
    else do
      assertThat (ptr ≥ aMidLo ∧ ptr ≤ aMidHi)
      return mid
  termination_by (hi + 1 - lo).toNat

/-! ## The location table -/

/-- `DiLoc`. -/
structure DiLoc where
  addr : Nat
  size : Nat
  lineno : Nat
  filename : List Char
  dirname : Option (List Char)
  deriving DecidableEq, Repr

/-- `MAX_LOC_SIZE`. -/
def maxLocSize : Nat := 2 ^ 12 - 1

/-- `compare_DiLoc`. -/
def compareDiLoc (a b : DiLoc) : Int :=
  if a.addr < b.addr then -1 else if a.addr > b.addr then 1 else 0

section Loctab

variable [Machine]

/-- If two adjacent entries overlap, truncate the first. -/
def truncateLoc (a b : DiLoc) : Result DiLoc := do
  assertThat (a.size < 10000)
  if addW a.addr a.size > b.addr then do
    let newSize := toInt (subW b.addr a.addr)
    if newSize < 0 then return { a with size := 0 }
    else if newSize > maxLocSize then return { a with size := maxLocSize }
    else return { a with size := newSize.toNat }
  else return a

/-- The loop over the adjacent entries; only the first of the two is changed. -/
def truncateLocs : List DiLoc → Result (List DiLoc)
  | [] => return []
  | [a] => return [a]
  | a :: b :: l => do
    let a' ← truncateLoc a b
    let l' ← truncateLocs (b :: l)
    return a' :: l'

/-- The postconditions. -/
def checkLocs : List DiLoc → Result Unit
  | [] => return ()
  | [_] => return ()
  | a :: b :: l => do
    assertThat (a.size > 0)
    assertThat (a.addr < b.addr)
    assertThat (subW (addW a.addr a.size) 1 < b.addr)
    checkLocs (b :: l)

/-- `canonicaliseLoctab`. -/
def canonicaliseLoctab (ssort : Ssort compareDiLoc) (loctab : List DiLoc) : Result (List DiLoc) :=
  if loctab.length = 0 then return loctab
  else do
    let loctab := ssort.sort loctab
    let loctab ← truncateLocs loctab
    let loctab := loctab.filter fun a => decide (a.size > 0)
    checkLocs loctab
    return loctab

/-- `ML_(search_one_loctab)`. -/
def searchOneLoctab (loctab : List DiLoc) (ptr : Nat) : Result Int :=
  let range a := return (a.addr, subW (addW a.addr a.size) 1)
  searchOne (readRange range loctab) ptr 0 (loctab.length - 1)

end Loctab

/-! ## The call frame table -/

/-- `DiCfSI`. -/
structure DiCfSI where
  base : Nat
  len : Nat
  cfaHow : Nat
  raHow : Nat
  spHow : Nat
  fpHow : Nat
  cfaOff : Int
  raOff : Int
  spOff : Int
  fpOff : Int
  deriving DecidableEq, Repr

/-- `compare_DiCfSI`. -/
def compareDiCfSI (a b : DiCfSI) : Int :=
  if a.base < b.base then -1 else if a.base > b.base then 1 else 0

/-- The call frame table of a `DebugInfo`. -/
structure CfiTab where
  cfsi : List DiCfSI
  minavma : Nat
  maxavma : Nat
  deriving DecidableEq, Repr

section Cfi

variable [Machine]

/-- The entire address range of the entries, where `range` is that of the ones before. -/
def summarise (range : Nat × Nat) (a : DiCfSI) : Nat × Nat :=
  let hereMin := a.base
  let hereMax := subW (addW a.base a.len) 1
  (if hereMin < range.1 then hereMin else range.1, if hereMax > range.2 then hereMax else range.2)

/-- If two adjacent entries overlap, truncate the first. -/
def truncateCfi (a b : DiCfSI) : Result DiCfSI :=
  if addW a.base a.len > b.base then do
    let newLen := toInt (subW b.base a.base)
    assertThat (newLen ≥ 0)
    assertThat (newLen.toNat ≤ a.len)
    return { a with len := newLen.toNat }
  else return a

/-- The loop over the adjacent entries; only the first of the two is changed. -/
def truncateCfis : List DiCfSI → Result (List DiCfSI)
  | [] => return []
  | [a] => return [a]
  | a :: b :: l => do
    let a' ← truncateCfi a b
    let l' ← truncateCfis (b :: l)
    return a' :: l'

/-- The postconditions for one entry. -/
def checkCfi (minavma maxavma : Nat) (a : DiCfSI) : Result Unit := do
  assertThat (a.len > 0)
  assertThat (a.base ≥ minavma)
  assertThat (subW (addW a.base a.len) 1 ≤ maxavma)

/-- The postconditions. -/
def checkCfis (minavma maxavma : Nat) : List DiCfSI → Result Unit
  | [] => return ()
  | [a] => checkCfi minavma maxavma a
  | a :: b :: l => do
    checkCfi minavma maxavma a
    assertThat (a.base < b.base)
    assertThat (subW (addW a.base a.len) 1 < b.base)
    checkCfis minavma maxavma (b :: l)

/-- `canonicaliseCFI`. -/
def canonicaliseCFI (ssort : Ssort compareDiCfSI) (cfsi : List DiCfSI) : Result CfiTab := do
  let (minavma, maxavma) := cfsi.foldl summarise (addrMax, 0)
  let cfsi := ssort.sort cfsi
  let cfsi ← truncateCfis cfsi
  let cfsi := cfsi.filter fun a => decide (a.len > 0)
  checkCfis minavma maxavma cfsi
  return ⟨cfsi, minavma, maxavma⟩

/-- `ML_(search_one_cfitab)`. The length of an entry goes through an `Int`. -/
def searchOneCfitab (tab : CfiTab) (ptr : Nat) : Result Int :=
  let range a := do
    let size := (toInt a.len % wordMod).toNat
    let aMidHi := subW (addW a.base size) 1
    assertThat (aMidHi ≥ a.base)
    return (a.base, aMidHi)
  searchOne (readRange range tab.cfsi) ptr 0 (tab.cfsi.length - 1)

end Cfi

/-! ## What a search finds -/

section Search

variable {α : Type} {o : RangeOps α} {tab : List α} {range : Nat → Result (Nat × Nat)} {ptr : Nat}

/-- The index that a search returns. -/
def found (i : Option Nat) : Int := i.elim (-1) fun i => i

/-- The loop is the binary search over the ranges. -/
theorem searchOne_eq {loAt hiAt : Nat → Nat} {n : Nat}
    (hrange : ∀ i < n, range i = .ok (loAt i, hiAt i - 1) ∧ loAt i < hiAt i) (ptr fuel : Nat) {lo hi : Int}
    (hlo : 0 ≤ lo) (hhi : hi < n) (hfuel : hi - lo < fuel) :
    searchOne range ptr lo hi = .ok (found (Intervals.searchLoop loAt hiAt ptr fuel lo hi)) := by
  induction fuel generalizing lo hi with
  | zero =>
    rw [searchOne, if_pos (by omega)]
    rfl
  | succ fuel ih =>
    rw [searchOne, Intervals.searchLoop]
    by_cases hgt : lo > hi
    · rw [if_pos hgt, if_pos hgt]
      rfl
    rw [if_neg hgt, if_neg hgt]
    have hmid : (((lo + hi) / 2).toNat : Int) = (lo + hi) / 2 := by omega
    obtain ⟨hread, hlt⟩ := hrange ((lo + hi) / 2).toNat (by omega)
    simp only [hread, ok_bind]
    by_cases hbelow : ptr < loAt ((lo + hi) / 2).toNat
    · rw [if_pos hbelow, if_pos hbelow, ih hlo (by omega) (by omega), hmid]
    · rw [if_neg hbelow, if_neg hbelow]
      by_cases habove : hiAt ((lo + hi) / 2).toNat ≤ ptr
      · rw [if_pos (by omega), if_pos habove, ih (by omega) hhi (by omega), hmid]
      · rw [if_neg (by omega), if_neg habove, assertThat_of (by omega), ok_bind]
        exact congrArg Except.ok hmid.symm

/-- The start and the end of the ranges, by their index. -/
theorem ascending_of_disjoint (h : o.Disjoint tab) :
    Intervals.Ascending (fun i => (tab[i]?.map o.start).getD 0)
      (fun i => (tab[i]?.map fun x => o.start x + o.len x).getD 0) tab.length := by
  intro i j hij hj
  have hi : i < tab.length := by omega
  have hle := List.pairwise_iff_getElem.mp h.2 i j hi hj hij
  have hpi := h.1 _ (List.getElem_mem hi)
  have hpj := h.1 _ (List.getElem_mem hj)
  simp only [List.getElem?_eq_getElem hi, List.getElem?_eq_getElem hj, Option.map_some, Option.getD_some]
  omega

/-- **A search** finds the entry that covers the address. -/
theorem searchOne_spec (h : o.Disjoint tab)
    (hrange : ∀ i x, tab[i]? = some x → range i = .ok (o.start x, o.start x + o.len x - 1)) (ptr : Nat) :
    (∃ i x, tab[i]? = some x ∧ o.Covers x ptr ∧ searchOne range ptr 0 (tab.length - 1) = .ok (i : Nat)) ∨
      (∀ x ∈ tab, ¬ o.Covers x ptr) ∧ searchOne range ptr 0 (tab.length - 1) = .ok (-1) := by
  have hrange' : ∀ i < tab.length, range i = .ok ((tab[i]?.map o.start).getD 0,
      (tab[i]?.map fun x => o.start x + o.len x).getD 0 - 1) ∧
      (tab[i]?.map o.start).getD 0 < (tab[i]?.map fun x => o.start x + o.len x).getD 0 := by
    intro i hi
    have hget := List.getElem?_eq_getElem hi
    have hpos := h.1 _ (List.getElem_mem hi)
    rw [hget, hrange i _ hget]
    exact ⟨rfl, by simpa using hpos⟩
  have hrun := searchOne_eq hrange' ptr (tab.length + 1) (le_refl 0)
    (by omega : (tab.length - 1 : Int) < tab.length) (by omega)
  have hsearch := fun i => Intervals.search_eq_some_iff (a := ptr) (i := i) (ascending_of_disjoint h)
  rw [Intervals.search] at hsearch
  rw [hrun]
  cases hres : Intervals.searchLoop (fun i => (tab[i]?.map o.start).getD 0)
      (fun i => (tab[i]?.map fun x => o.start x + o.len x).getD 0) ptr (tab.length + 1) 0 (tab.length - 1) with
  | some i =>
    obtain ⟨hi, hlo, hhi⟩ := (hsearch i).mp hres
    rw [List.getElem?_eq_getElem hi] at hlo hhi
    exact .inl ⟨i, tab[i], List.getElem?_eq_getElem hi, ⟨hlo, hhi⟩, rfl⟩
  | none =>
    refine .inr ⟨fun x hx hcov => ?_, rfl⟩
    obtain ⟨i, hi, rfl⟩ := List.getElem_of_mem hx
    have hsome := (hsearch i).mpr ⟨hi, by simpa [List.getElem?_eq_getElem hi, RangeOps.Covers] using hcov⟩
    rw [hres] at hsome
    exact nomatch hsome

/-- What a search for the address `ptr` in the table `tab` is to return, `l` being the sorted
table before the ranges were cut: an entry if the last one that starts at or before the
address covers it, namely that entry, cut. -/
def Finds (o : RangeOps α) (l tab : List α) (ptr : Nat) (r : Int) : Prop :=
  (∃ (i : Nat) (x x' : α), r = i ∧ tab[i]? = some x' ∧ x' = o.setLen x (o.len x') ∧
    o.lastStart l ptr = some x ∧ o.Covers x ptr) ∨
  r = -1 ∧ ∀ x, o.lastStart l ptr = some x → ¬ o.Covers x ptr

/-- **A search in a table that has been cut.** -/
theorem searchOne_finds {l : List α} (h : o.Sorted l) (htab : tab = o.nonempty (o.cut l))
    (hrange : ∀ i x, tab[i]? = some x → range i = .ok (o.start x, o.start x + o.len x - 1)) (ptr : Nat) :
    ∃ r, searchOne range ptr 0 (tab.length - 1) = .ok r ∧ Finds o l tab ptr r := by
  rcases searchOne_spec (htab ▸ RangeOps.disjoint_cut h) hrange ptr with ⟨i, x', hi, hcov, hrun⟩ | ⟨hno, hrun⟩
  · have hmem : x' ∈ o.nonempty (o.cut l) := htab ▸ List.mem_of_getElem? hi
    obtain ⟨x, hlast, hx, heq⟩ := RangeOps.lastStart_of_covers h (List.mem_filter.mp hmem).1 hcov
    exact ⟨i, hrun, .inl ⟨i, x, x', rfl, hi, heq, hlast, hx⟩⟩
  · refine ⟨-1, hrun, .inr ⟨rfl, fun x hlast hx => ?_⟩⟩
    obtain ⟨x', hx', hcov, -⟩ := RangeOps.exists_covers h hlast hx
    exact hno x' (htab ▸ RangeOps.mem_nonempty_of_covers hx' hcov) hcov

end Search

/-! ## The location table, cut -/

/-- The ranges of locations. -/
def locOps : RangeOps DiLoc where
  start := DiLoc.addr
  len := DiLoc.size
  setLen a n := { a with size := n }
  start_setLen _ _ := rfl
  len_setLen _ _ := rfl
  setLen_len _ := rfl

/-- The ranges of call frame entries. -/
def cfiOps : RangeOps DiCfSI where
  start := DiCfSI.base
  len := DiCfSI.len
  setLen a n := { a with len := n }
  start_setLen _ _ := rfl
  len_setLen _ _ := rfl
  setLen_len _ := rfl

theorem toInt_eq {n : Nat} (h : n < 2 ^ 31) : toInt n = n := by
  unfold toInt
  exact Int.bmod_eq_of_le (by omega) (by omega)

section Words

variable [Machine] {a n b : Nat}

/-- The last address of a range. -/
theorem subW_addW_one (hn : 0 < n) (h : a + n < wordMod) : subW (addW a n) 1 = a + n - 1 := by
  rw [addW_of_lt h, subW_of_le h (by omega)]

end Words

section Loctab

variable [Machine] {a b : DiLoc} {l : List DiLoc}

/-- A location as the claims about the table have it: the size fits, and the range does not
wrap. -/
def DiLoc.Ok (a : DiLoc) : Prop := 1 ≤ a.size ∧ a.size ≤ maxLocSize ∧ a.addr + a.size < wordMod

instance (a : DiLoc) : Decidable a.Ok := inferInstanceAs (Decidable (_ ∧ _))

theorem truncateLoc_eq (ha : a.Ok) (hb : b.addr < wordMod) (hab : a.addr ≤ b.addr) :
    truncateLoc a b = .ok (locOps.cutAt a b.addr) := by
  obtain ⟨hpos, hmax, hwrap⟩ := ha
  unfold maxLocSize at hmax
  rw [truncateLoc, assertThat_of (by omega), ok_bind, addW_of_lt hwrap]
  show _ = Except.ok (if b.addr < a.addr + a.size then { a with size := b.addr - a.addr } else a)
  by_cases h : a.addr + a.size > b.addr
  · have hint : toInt (b.addr - a.addr) = (b.addr - a.addr : Nat) := toInt_eq (by omega)
    have hmax' : ¬ ((b.addr - a.addr : Nat) : Int) > (maxLocSize : Nat) := by unfold maxLocSize; omega
    rw [if_pos h, if_pos h, subW_of_le hb hab]
    simp only [hint]
    rw [if_neg (by omega), if_neg hmax', Int.toNat_natCast]
    rfl
  · rw [if_neg h, if_neg h]
    rfl

theorem truncateLocs_eq (hl : ∀ a ∈ l, a.Ok) (hsorted : locOps.Sorted l) :
    truncateLocs l = .ok (locOps.cut l) := by
  induction l using truncateLocs.induct with
  | case1 => rfl
  | case2 a => rfl
  | case3 a b l ih =>
    obtain ⟨ha, hrest⟩ := List.pairwise_cons.mp hsorted
    obtain ⟨-, -, hwrap⟩ := hl b (List.mem_cons_of_mem _ List.mem_cons_self)
    rw [truncateLocs, truncateLoc_eq (hl a List.mem_cons_self) (by omega) (ha b List.mem_cons_self), ok_bind,
      ih (fun c hc => hl c (List.mem_cons_of_mem _ hc)) hrest]
    rfl

/-- The postconditions are those of disjoint ranges. -/
theorem checkLocs_eq (hl : ∀ a ∈ l, a.addr + a.size < wordMod) (h : locOps.Disjoint l) : checkLocs l = .ok () := by
  induction l using checkLocs.induct with
  | case1 => rfl
  | case2 a => rfl
  | case3 a b l ih =>
    obtain ⟨hpos, hpair⟩ := h
    obtain ⟨ha, hrest⟩ := List.pairwise_cons.mp hpair
    have hsize : 0 < a.size := hpos a List.mem_cons_self
    have hle : a.addr + a.size ≤ b.addr := ha b List.mem_cons_self
    have hwrap := hl a List.mem_cons_self
    rw [checkLocs, assertThat_of hsize, ok_bind, assertThat_of (by omega), ok_bind, subW_addW_one hsize hwrap,
      assertThat_of (by omega), ok_bind]
    exact ih (fun c hc => hl c (List.mem_cons_of_mem _ hc)) ⟨fun c hc => hpos c (List.mem_cons_of_mem _ hc), hrest⟩

omit [Machine] in
theorem compareDiLoc_le {a b : DiLoc} : compareDiLoc a b ≤ 0 ↔ a.addr ≤ b.addr := by
  unfold compareDiLoc
  split
  · omega
  · split <;> omega

omit [Machine] in
theorem sorted_ssort (ssort : Ssort compareDiLoc) (l : List DiLoc) : locOps.Sorted (ssort.sort l) :=
  (ssort.sorted l).imp compareDiLoc_le.mp

/-- **The location table**: the canonical table is that of the cut ranges. -/
theorem canonicaliseLoctab_eq (ssort : Ssort compareDiLoc) (hl : ∀ a ∈ l, a.Ok) :
    canonicaliseLoctab ssort l = .ok (locOps.nonempty (locOps.cut (ssort.sort l))) := by
  have hperm := ssort.perm l
  have hsorted := sorted_ssort ssort l
  unfold canonicaliseLoctab
  by_cases hnil : l.length = 0
  · rw [if_pos hnil, List.length_eq_zero_iff.mp (hperm.length_eq.trans hnil), List.length_eq_zero_iff.mp hnil]
    rfl
  · have hok : ∀ a ∈ ssort.sort l, a.Ok := fun a ha => hl a (hperm.mem_iff.mp ha)
    have hcheck : checkLocs (locOps.nonempty (locOps.cut (ssort.sort l))) = .ok () := by
      refine checkLocs_eq (fun a ha => ?_) (RangeOps.disjoint_cut hsorted)
      obtain ⟨b, hb, hstart, hlen⟩ := RangeOps.le_of_mem_cut (List.mem_filter.mp ha).1 hsorted
      have hwrap := (hok b hb).2.2
      have hstart' : a.addr = b.addr := hstart
      have hlen' : a.size ≤ b.size := hlen
      omega
    rw [if_neg hnil]
    show (truncateLocs (ssort.sort l) >>= _) = _
    rw [truncateLocs_eq hok hsorted, ok_bind]
    show (checkLocs (locOps.nonempty (locOps.cut (ssort.sort l))) >>= _) = _
    rw [hcheck]
    rfl

theorem wrap_of_mem (hok : ∀ a ∈ l, a.Ok) (hsorted : locOps.Sorted l)
    (ha : a ∈ locOps.nonempty (locOps.cut l)) : 0 < a.size ∧ a.addr + a.size < wordMod := by
  obtain ⟨hmem, hpos⟩ := List.mem_filter.mp ha
  obtain ⟨b, hb, hstart, hlen⟩ := RangeOps.le_of_mem_cut hmem hsorted
  have hwrap := (hok b hb).2.2
  have hpos' : 0 < a.size := of_decide_eq_true hpos
  have hstart' : a.addr = b.addr := hstart
  have hlen' : a.size ≤ b.size := hlen
  omega

/-- **The canonical location table** and its searches. -/
theorem loctab_search (ssort : Ssort compareDiLoc) (hl : ∀ a ∈ l, a.Ok) :
    ∃ tab, canonicaliseLoctab ssort l = .ok tab ∧ ∀ ptr, ∃ r, searchOneLoctab tab ptr = .ok r ∧
      Finds locOps (ssort.sort l) tab ptr r := by
  have hsorted := sorted_ssort ssort l
  refine ⟨_, canonicaliseLoctab_eq ssort hl, fun ptr => searchOne_finds hsorted rfl (fun i a ha => ?_) ptr⟩
  have hok : ∀ a ∈ ssort.sort l, a.Ok := fun a ha => hl a ((ssort.perm l).mem_iff.mp ha)
  obtain ⟨hpos, hwrap⟩ := wrap_of_mem hok hsorted (List.mem_of_getElem? ha)
  simp only [readRange, ha, subW_addW_one hpos hwrap]
  rfl

end Loctab

/-! ## The call frame table, cut -/

section Cfi

variable [Machine] {a b : DiCfSI} {l : List DiCfSI}

/-- A call frame entry whose length is a positive `Int`, or 0, and whose range does not wrap. -/
def DiCfSI.Ok (a : DiCfSI) : Prop := a.len < 2 ^ 31 ∧ a.base + a.len < wordMod

instance (a : DiCfSI) : Decidable a.Ok := inferInstanceAs (Decidable (_ ∧ _))

theorem truncateCfi_eq (ha : a.Ok) (hb : b.base < wordMod) (hab : a.base ≤ b.base) :
    truncateCfi a b = .ok (cfiOps.cutAt a b.base) := by
  obtain ⟨hmax, hwrap⟩ := ha
  rw [truncateCfi, addW_of_lt hwrap]
  show _ = Except.ok (if b.base < a.base + a.len then { a with len := b.base - a.base } else a)
  by_cases h : a.base + a.len > b.base
  · have hint : toInt (b.base - a.base) = (b.base - a.base : Nat) := toInt_eq (by omega)
    rw [if_pos h, if_pos h, subW_of_le hb hab]
    simp only [hint, Int.toNat_natCast]
    rw [assertThat_of (by omega), ok_bind, assertThat_of (by omega), ok_bind]
    rfl
  · rw [if_neg h, if_neg h]
    rfl

theorem truncateCfis_eq (hl : ∀ a ∈ l, a.Ok) (hsorted : cfiOps.Sorted l) :
    truncateCfis l = .ok (cfiOps.cut l) := by
  induction l using truncateCfis.induct with
  | case1 => rfl
  | case2 a => rfl
  | case3 a b l ih =>
    obtain ⟨ha, hrest⟩ := List.pairwise_cons.mp hsorted
    obtain ⟨-, hwrap⟩ := hl b (List.mem_cons_of_mem _ List.mem_cons_self)
    rw [truncateCfis, truncateCfi_eq (hl a List.mem_cons_self) (by omega) (ha b List.mem_cons_self), ok_bind,
      ih (fun c hc => hl c (List.mem_cons_of_mem _ hc)) hrest]
    rfl

/-- The summary covers the ranges of the entries. -/
theorem summarise_le (l : List DiCfSI) (range : Nat × Nat) :
    (l.foldl summarise range).1 ≤ range.1 ∧ range.2 ≤ (l.foldl summarise range).2 ∧
      ∀ a ∈ l, (l.foldl summarise range).1 ≤ a.base ∧
        subW (addW a.base a.len) 1 ≤ (l.foldl summarise range).2 := by
  induction l generalizing range with
  | nil => exact ⟨le_refl _, le_refl _, fun a ha => nomatch ha⟩
  | cons b l ih =>
    obtain ⟨hmin, hmax, hall⟩ := ih (summarise range b)
    have hstep : (summarise range b).1 ≤ range.1 ∧ (summarise range b).1 ≤ b.base ∧
        range.2 ≤ (summarise range b).2 ∧ subW (addW b.base b.len) 1 ≤ (summarise range b).2 := by
      simp only [summarise]
      refine ⟨?_, ?_, ?_, ?_⟩ <;> split <;> omega
    obtain ⟨h₁, h₂, h₃, h₄⟩ := hstep
    rw [List.foldl_cons]
    refine ⟨hmin.trans h₁, h₃.trans hmax, fun a ha => ?_⟩
    rcases List.mem_cons.mp ha with rfl | ha
    · exact ⟨hmin.trans h₂, h₄.trans hmax⟩
    · exact hall a ha

theorem checkCfi_eq {minavma maxavma : Nat} (hpos : 0 < a.len) (hmin : minavma ≤ a.base)
    (hmax : subW (addW a.base a.len) 1 ≤ maxavma) : checkCfi minavma maxavma a = .ok () := by
  rw [checkCfi, assertThat_of hpos, ok_bind, assertThat_of hmin, ok_bind, assertThat_of hmax]

/-- The postconditions are those of disjoint ranges within the summary. -/
theorem checkCfis_eq {minavma maxavma : Nat} (hl : ∀ a ∈ l, 0 < a.len ∧ a.base + a.len < wordMod ∧
    minavma ≤ a.base ∧ subW (addW a.base a.len) 1 ≤ maxavma) (h : cfiOps.Disjoint l) :
    checkCfis minavma maxavma l = .ok () := by
  induction l using checkCfis.induct with
  | case1 => rfl
  | case2 a =>
    obtain ⟨hpos, -, hmin, hmax⟩ := hl a List.mem_cons_self
    exact checkCfi_eq hpos hmin hmax
  | case3 a b l ih =>
    obtain ⟨hlen, hpair⟩ := h
    obtain ⟨ha, hrest⟩ := List.pairwise_cons.mp hpair
    obtain ⟨hpos, hwrap, hmin, hmax⟩ := hl a List.mem_cons_self
    have hle : a.base + a.len ≤ b.base := ha b List.mem_cons_self
    rw [checkCfis, checkCfi_eq hpos hmin hmax, ok_bind, assertThat_of (by omega), ok_bind,
      subW_addW_one hpos hwrap, assertThat_of (by omega), ok_bind]
    exact ih (fun c hc => hl c (List.mem_cons_of_mem _ hc)) ⟨fun c hc => hlen c (List.mem_cons_of_mem _ hc), hrest⟩

omit [Machine] in
theorem compareDiCfSI_le {a b : DiCfSI} : compareDiCfSI a b ≤ 0 ↔ a.base ≤ b.base := by
  unfold compareDiCfSI
  split
  · omega
  · split <;> omega

/-- **The canonical call frame table** and its searches. -/
theorem cfitab_search (ssort : Ssort compareDiCfSI) (hl : ∀ a ∈ l, a.Ok) :
    ∃ tab, canonicaliseCFI ssort l = .ok tab ∧ ∀ ptr, ∃ r, searchOneCfitab tab ptr = .ok r ∧
      Finds cfiOps (ssort.sort l) tab.cfsi ptr r := by
  have hperm := ssort.perm l
  have hsorted : cfiOps.Sorted (ssort.sort l) := (ssort.sorted l).imp compareDiCfSI_le.mp
  have hok : ∀ a ∈ ssort.sort l, a.Ok := fun a ha => hl a (hperm.mem_iff.mp ha)
  have hmem : ∀ a ∈ cfiOps.nonempty (cfiOps.cut (ssort.sort l)), 0 < a.len ∧
      ∃ b ∈ l, b.Ok ∧ a.base = b.base ∧ a.len ≤ b.len := fun a ha => by
    obtain ⟨hmem, hpos⟩ := List.mem_filter.mp ha
    obtain ⟨b, hb, hstart, hlen⟩ := RangeOps.le_of_mem_cut hmem hsorted
    exact ⟨of_decide_eq_true hpos, b, hperm.mem_iff.mp hb, hok b hb, hstart, hlen⟩
  obtain ⟨minavma, maxavma, hsum⟩ : ∃ m n, l.foldl summarise (addrMax, 0) = (m, n) := ⟨_, _, rfl⟩
  obtain ⟨-, -, hrange⟩ := summarise_le l (addrMax, 0)
  rw [hsum] at hrange
  have hcheck : checkCfis minavma maxavma (cfiOps.nonempty (cfiOps.cut (ssort.sort l))) = .ok () := by
    refine checkCfis_eq (fun a ha => ?_) (RangeOps.disjoint_cut hsorted)
    obtain ⟨hpos, b, hb, ⟨-, hwrap⟩, hbase, hlen⟩ := hmem a ha
    obtain ⟨hmin, hmax⟩ := hrange b hb
    rw [subW_addW_one (by omega) hwrap] at hmax
    refine ⟨hpos, by omega, by omega, ?_⟩
    rw [subW_addW_one hpos (by omega)]
    simp only at hmax
    omega
  have hrun : canonicaliseCFI ssort l =
      .ok ⟨cfiOps.nonempty (cfiOps.cut (ssort.sort l)), minavma, maxavma⟩ := by
    rw [canonicaliseCFI, hsum]
    show (truncateCfis (ssort.sort l) >>= _) = _
    rw [truncateCfis_eq hok hsorted, ok_bind]
    show (checkCfis minavma maxavma (cfiOps.nonempty (cfiOps.cut (ssort.sort l))) >>= _) = _
    rw [hcheck]
    rfl
  refine ⟨_, hrun, fun ptr => searchOne_finds hsorted rfl (fun i a ha => ?_) ptr⟩
  obtain ⟨hpos, b, -, ⟨hmax, hwrap⟩, hbase, hlen⟩ := hmem a (List.mem_of_getElem? ha)
  have hsize : (toInt a.len % wordMod).toNat = a.len := by
    rw [toInt_eq (by omega)]
    norm_cast
    exact Nat.mod_eq_of_lt (by omega)
  simp only [readRange, ha, hsize, subW_addW_one hpos (by omega : a.base + a.len < wordMod)]
  rw [assertThat_of (by omega)]
  rfl

end Cfi

/-! ## Both tables -/

/-- **Lookups after canonicalisation**: the assertions hold, and a search finds the last entry that
starts at or before the address if that entry covered the address before the tables were
canonicalised, and nothing otherwise. -/
theorem canonicalise_search [Machine] (ssortLoc : Ssort compareDiLoc) (ssortCfi : Ssort compareDiCfSI)
    (loctab : List DiLoc) (cfsi : List DiCfSI) (hloc : ∀ a ∈ loctab, a.Ok) (hcfi : ∀ a ∈ cfsi, a.Ok) :
    (∃ tab, canonicaliseLoctab ssortLoc loctab = .ok tab ∧ ∀ ptr, ∃ r, searchOneLoctab tab ptr = .ok r ∧
      Finds locOps (ssortLoc.sort loctab) tab ptr r) ∧
    ∃ tab, canonicaliseCFI ssortCfi cfsi = .ok tab ∧ ∀ ptr, ∃ r, searchOneCfitab tab ptr = .ok r ∧
      Finds cfiOps (ssortCfi.sort cfsi) tab.cfsi ptr r :=
  ⟨loctab_search ssortLoc hloc, cfitab_search ssortCfi hcfi⟩

/-- Locations in the order of their addresses. -/
def insertionLoc : Ssort compareDiLoc :=
  insertionSsort compareDiLoc (by simp only [compareDiLoc_le]; omega) (by simp only [compareDiLoc_le]; omega)

/-- Call frame entries in the order of their addresses. -/
def insertionCfi : Ssort compareDiCfSI :=
  insertionSsort compareDiCfSI (by simp only [compareDiCfSI_le]; omega) (by simp only [compareDiCfSI_le]; omega)

/-- Two locations that overlap and a call frame entry. -/
theorem canonicalise_search_overlap :
    (∃ tab, @canonicaliseLoctab amd64Linux insertionLoc [⟨4100, 4, 8, ['f'], none⟩, ⟨4096, 8, 7, ['f'], none⟩] = .ok tab ∧
      ∀ ptr, ∃ r, @searchOneLoctab amd64Linux tab ptr = .ok r ∧
        Finds locOps (insertionLoc.sort [⟨4100, 4, 8, ['f'], none⟩, ⟨4096, 8, 7, ['f'], none⟩]) tab ptr r) ∧
    ∃ tab, @canonicaliseCFI amd64Linux insertionCfi [⟨4096, 8, 1, 7, 5, 5, 8, -8, 0, 0⟩] = .ok tab ∧
      ∀ ptr, ∃ r, @searchOneCfitab amd64Linux tab ptr = .ok r ∧
        Finds cfiOps (insertionCfi.sort [⟨4096, 8, 1, 7, 5, 5, 8, -8, 0, 0⟩]) tab.cfsi ptr r :=
  @canonicalise_search amd64Linux insertionLoc insertionCfi _ _ (by decide) (by decide)

/-- An entry longer than those that `ML_(addDiCfSI)` admits. -/
def longCfi : DiCfSI := ⟨2 ^ 32, 2 ^ 31, 1, 7, 5, 5, 8, -8, 0, 0⟩

/-- The length of such an entry is negative as an `Int`, and the search for an address that
the entry covers fails an assertion. -/
theorem searchOneCfitab_long :
    cfiOps.lastStart (insertionCfi.sort [longCfi]) (2 ^ 32) = some longCfi ∧ cfiOps.Covers longCfi (2 ^ 32) ∧
      ∃ tab, @canonicaliseCFI amd64Linux insertionCfi [longCfi] = .ok tab ∧
        @searchOneCfitab amd64Linux tab (2 ^ 32) = .error .assertFailed := by
  refine ⟨by decide, ⟨by decide, by decide⟩, ⟨[longCfi], 2 ^ 32, 2 ^ 32 + 2 ^ 31 - 1⟩, by decide +kernel, ?_⟩
  unfold searchOneCfitab searchOne
  decide

end Valgrind.Debuginfo
