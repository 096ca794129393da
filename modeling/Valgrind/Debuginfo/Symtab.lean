import Valgrind.Debuginfo.Storage

/-!
# The symbol table (`m_debuginfo/storage.c`)

Symbols with the same range are merged, and symbols that overlap are cut, until neither
happens any more. `canonicaliseSymtab_spec`: this ends, and the ranges of the symbols do not
overlap. A symbol that starts where the next one does and is longer gets the range of the
next one, which in turn gets the rest: `canonicaliseSymtab_within` says that names keep to
their ranges as long as this does not happen.
-/

namespace Valgrind.Debuginfo

open CutRanges

/-! ## The model -/

/-- `DiSym`. -/
structure DiSym where
  addr : Nat
  tocptr : Nat
  name : List Char
  size : Nat
  isText : Bool
  deriving DecidableEq, Repr

/-- `compare_DiSym`. -/
def compareDiSym (a b : DiSym) : Int :=
  if a.addr < b.addr then -1 else if a.addr > b.addr then 1 else 0

/-- `VG_(strcmp)`. -/
def strcmp : List Char → List Char → Int
  | [], [] => 0
  | [], _ :: _ => -1
  | _ :: _, [] => 1
  | c :: s, d :: t => if c < d then -1 else if d < c then 1 else strcmp s t

/-- The length up to the version. -/
def vlen (name : List Char) : Nat := (name.takeWhile fun c => c ≠ '@').length

/-- `prefersym`. Of two symbols that are the same the one at the lower address is preferred,
which is the first. -/
def prefersym (a b : DiSym) : Result DiSym := do
  assertThat (a.addr = b.addr)
  if a.name.take 4 = "MPI_".toList ∧ b.name.take 5 = "PMPI_".toList ∧ a.name = b.name.drop 1 then return b
  else if b.name.take 4 = "MPI_".toList ∧ a.name.take 5 = "PMPI_".toList ∧ b.name = a.name.drop 1 then return a
  else if vlen a.name < vlen b.name then return a
  else if vlen b.name < vlen a.name then return b
  else if '@' ∈ a.name ∧ '@' ∉ b.name then return a
  else if '@' ∈ b.name ∧ '@' ∉ a.name then return b
  else if strcmp a.name b.name < 0 then return a
  else if strcmp a.name b.name > 0 then return b
  else return a

/-- One pass of the loop that merges symbols with identical address ranges, and the number of
merges. -/
def mergePass : List DiSym → Result (List DiSym × Nat)
  | [] => return ([], 0)
  | [a] => return ([a], 0)
  | a :: b :: l =>
    if a.addr = b.addr ∧ a.size = b.size then do
      let c ← prefersym a b
      let (l', nMerged) ← mergePass l
      return (c :: l', nMerged + 1)
    else do
      let (l', nMerged) ← mergePass (b :: l)
      return (a :: l', nMerged)

/-- The passes, while there is something to merge. -/
def mergeLoop : Nat → List DiSym → Result (List DiSym)
  | 0, _ => throw .diverge
  | fuel + 1, symtab => do
    let (symtab, nMerged) ← mergePass symtab
    if nMerged > 0 then mergeLoop fuel symtab else return symtab

section Overlaps

variable [Machine]

/-- Truncate one or the other of two overlapping ranges: what becomes of `s1`, `e1`, `s2` and
`e2`. -/
def truncateRanges (s1 e1 s2 e2 : Nat) : Result (Nat × Nat × Nat × Nat) :=
  if s1 < s2 then return (s1, subW s2 1, s2, e2)
  else do
    assertThat (s1 = s2)
    -- here the ranges change places, the names do not
    if e1 > e2 then return (s2, e2, addW e2 1, e1)
    else if e1 < e2 then return (s1, e1, addW e1 1, e2)
    else return (s1, e1, s2, e2)

/-- Truncate one or the other of two overlapping symbols. -/
def truncateSyms (a b : DiSym) : Result (DiSym × DiSym) := do
  let (s1, e1, s2, e2) ← truncateRanges a.addr (subW (addW a.addr a.size) 1) b.addr (subW (addW b.addr b.size) 1)
  let a := { a with addr := s1, size := addW (subW e1 s1) 1 % 2 ^ 32 }
  let b := { b with addr := s2, size := addW (subW e2 s2) 1 % 2 ^ 32 }
  assertThat (s1 ≤ s2)
  assertThat (a.size > 0)
  assertThat (b.size > 0)
  return (a, b)

/-- Move an entry further along to maintain the address order requirement. -/
def moveAlong (b : DiSym) : List DiSym → List DiSym
  | [] => [b]
  | c :: l => if b.addr > c.addr then c :: moveAlong b l else b :: c :: l

/-- The loop that fixes overlapping address ranges, and the number of truncations; `n` bounds
the number of entries that are left. -/
def overlapPass : (n : Nat) → List DiSym → Result (List DiSym × Nat)
  | n + 1, a :: b :: l => do
    assertThat (a.addr ≤ b.addr)
    if addW a.addr a.size ≤ b.addr then do
      let (l', nTruncated) ← overlapPass n (b :: l)
      return (a :: l', nTruncated)
    else do
      let (a, b) ← truncateSyms a b
      let (l', nTruncated) ← overlapPass n (moveAlong b l)
      return (a :: l', nTruncated + 1)
  | _, l => return (l, 0)

/-- From `cleanup_more` on. -/
def cleanupMore : Nat → List DiSym → Result (List DiSym)
  | 0, _ => throw .diverge
  | fuel + 1, symtab => do
    let symtab ← mergeLoop (symtab.length + 1) symtab
    let (symtab, nTruncated) ← overlapPass symtab.length symtab
    if nTruncated > 0 then cleanupMore fuel symtab else return symtab

/-- The postconditions. -/
def checkSyms : List DiSym → Result Unit
  | [] => return ()
  | [_] => return ()
  | a :: b :: l => do
    assertThat (a.size > 0)
    assertThat (a.addr < b.addr)
    assertThat (subW (addW a.addr a.size) 1 < b.addr)
    checkSyms (b :: l)

/-- The sum of the sizes. -/
def totalSize (symtab : List DiSym) : Nat := (symtab.map DiSym.size).sum

/-- `canonicaliseSymtab`. As many rounds as there are bytes are enough. -/
def canonicaliseSymtab (ssort : Ssort compareDiSym) (symtab : List DiSym) : Result (List DiSym) :=
  if symtab.length = 0 then return symtab
  else do
    let symtab ← cleanupMore (totalSize symtab + 1) (ssort.sort symtab)
    checkSyms symtab
    return symtab

/-- `ML_(search_one_symtab)`. -/
def searchOneSymtab (symtab : List DiSym) (ptr : Nat) (matchAnywhereInSym findText : Bool) : Result Int := do
  let range a :=
    let size := if matchAnywhereInSym then a.size else 1
    return (a.addr, subW (addW a.addr size) 1)
  let mid ← searchOne (readRange range symtab) ptr 0 (symtab.length - 1)
  if mid = -1 then return -1
  else match symtab[mid.toNat]? with
    | some a => return if findText = a.isText then mid else -1
    | none => throw .fault

end Overlaps

/-! ## Merging -/

/-- A symbol whose range is not empty and does not wrap; the size is an `UInt`. -/
def DiSym.Ok [Machine] (a : DiSym) : Prop := 0 < a.size ∧ a.size < 2 ^ 32 ∧ a.addr + a.size < wordMod

instance [Machine] (a : DiSym) : Decidable a.Ok := inferInstanceAs (Decidable (_ ∧ _))

/-- In the order of the addresses. -/
def SymSorted (l : List DiSym) : Prop := l.Pairwise fun a b => a.addr ≤ b.addr

/-- The two symbols have the same range. -/
def DiSym.Twins (a b : DiSym) : Prop := a.addr = b.addr ∧ a.size = b.size

section Merge

variable {a b c : DiSym} {l : List DiSym}

theorem prefersym_spec (h : a.addr = b.addr) : ∃ c, prefersym a b = .ok c ∧ (c = a ∨ c = b) := by
  rw [prefersym, assertThat_of h, ok_bind]
  repeat' split
  all_goals exact ⟨_, rfl, by simp⟩

theorem totalSize_cons : totalSize (a :: l) = a.size + totalSize l := by
  simp [totalSize]

/-- A pass takes some of the symbols out; if it does not, no neighbours are twins. -/
structure Merged (l l' : List DiSym) (nMerged : Nat) : Prop where
  mem : ∀ a ∈ l', a ∈ l
  sorted : SymSorted l'
  length : l'.length + nMerged = l.length
  total : totalSize l' ≤ totalSize l
  noTwins : nMerged = 0 → l' = l ∧ l.IsChain fun a b => ¬ a.Twins b

theorem mergePass_spec (h : SymSorted l) : ∃ l' n, mergePass l = .ok (l', n) ∧ Merged l l' n := by
  induction l using mergePass.induct with
  | case1 => exact ⟨[], 0, rfl, by simp, List.Pairwise.nil, rfl, le_refl _, fun _ => ⟨rfl, List.isChain_nil⟩⟩
  | case2 a =>
    exact ⟨[a], 0, rfl, by simp, List.pairwise_singleton _ _, rfl, le_refl _, fun _ => ⟨rfl, List.isChain_singleton a⟩⟩
  | case3 a b l htwins ih =>
    obtain ⟨ha, hbl⟩ := List.pairwise_cons.mp h
    obtain ⟨hb, hl⟩ := List.pairwise_cons.mp hbl
    obtain ⟨c, hc, hcab⟩ := prefersym_spec htwins.1
    obtain ⟨l', n, hrun, hm⟩ := ih hl
    refine ⟨c :: l', n + 1, ?_, ?_, ?_, ?_, ?_, fun h => absurd h (Nat.succ_ne_zero n)⟩
    · rw [mergePass, if_pos htwins, hc, ok_bind, hrun]
      rfl
    · intro d hd
      rcases List.mem_cons.mp hd with rfl | hd
      · rcases hcab with rfl | rfl <;> simp
      · exact List.mem_cons_of_mem _ (List.mem_cons_of_mem _ (hm.mem d hd))
    · refine List.pairwise_cons.mpr ⟨fun d hd => ?_, hm.sorted⟩
      rcases hcab with rfl | rfl
      · exact ha d (List.mem_cons_of_mem _ (hm.mem d hd))
      · exact hb d (hm.mem d hd)
    · have := hm.length
      simp only [List.length_cons]
      omega
    · have := hm.total
      have hsize : c.size = b.size := by
        rcases hcab with rfl | rfl
        · exact htwins.2
        · rfl
      rw [totalSize_cons, totalSize_cons, totalSize_cons]
      omega
  | case4 a b l htwins ih =>
    obtain ⟨ha, hbl⟩ := List.pairwise_cons.mp h
    obtain ⟨l', n, hrun, hm⟩ := ih hbl
    refine ⟨a :: l', n, ?_, ?_, ?_, ?_, ?_, fun hn => ?_⟩
    · rw [mergePass, if_neg htwins, hrun]
      rfl
    · intro d hd
      rcases List.mem_cons.mp hd with rfl | hd
      · exact List.mem_cons_self
      · exact List.mem_cons_of_mem _ (hm.mem d hd)
    · exact List.pairwise_cons.mpr ⟨fun d hd => ha d (hm.mem d hd), hm.sorted⟩
    · have := hm.length
      simp only [List.length_cons] at this ⊢
      omega
    · have := hm.total
      rw [totalSize_cons, totalSize_cons (l := b :: l)]
      omega
    · obtain ⟨rfl, hchain⟩ := hm.noTwins hn
      exact ⟨rfl, List.isChain_cons_cons.mpr ⟨htwins, hchain⟩⟩

/-- The passes end when no neighbours have the same range. -/
theorem mergeLoop_spec {fuel : Nat} (h : SymSorted l) (hfuel : l.length < fuel) :
    ∃ l', mergeLoop fuel l = .ok l' ∧ (∀ a ∈ l', a ∈ l) ∧ SymSorted l' ∧ totalSize l' ≤ totalSize l ∧
      l'.IsChain fun a b => ¬ a.Twins b := by
  induction fuel generalizing l with
  | zero => exact absurd hfuel (Nat.not_lt_zero _)
  | succ fuel ih =>
    obtain ⟨l', n, hrun, hm⟩ := mergePass_spec h
    rw [mergeLoop, hrun, ok_bind]
    by_cases hn : n > 0
    · have hlen := hm.length
      obtain ⟨l'', hrun', hmem, hsorted, htotal, hchain⟩ := ih hm.sorted (by omega)
      simp only [if_pos hn]
      exact ⟨l'', hrun', fun a ha => hm.mem a (hmem a ha), hsorted, htotal.trans hm.total, hchain⟩
    · obtain ⟨rfl, hchain⟩ := hm.noTwins (by omega)
      simp only [if_neg hn]
      exact ⟨l', rfl, fun a ha => ha, h, le_refl _, hchain⟩

end Merge

/-! ## Truncating -/

/-- The range of `a'` is in that of `a`, and the names are the same. -/
def DiSym.Within (a' a : DiSym) : Prop :=
  a'.name = a.name ∧ a.addr ≤ a'.addr ∧ a'.addr + a'.size ≤ a.addr + a.size

/-- The two symbols start at the same address, and the first one is longer. -/
def DiSym.Outlasts (a b : DiSym) : Prop := a.addr = b.addr ∧ b.size < a.size

instance (a b : DiSym) : Decidable (a.Outlasts b) := inferInstanceAs (Decidable (_ ∧ _))

theorem DiSym.Within.refl (a : DiSym) : a.Within a := ⟨rfl, le_refl _, le_refl _⟩

theorem DiSym.Within.trans {a b c : DiSym} (hab : a.Within b) (hbc : b.Within c) : a.Within c :=
  ⟨hab.1.trans hbc.1, hbc.2.1.trans hab.2.1, hab.2.2.trans hbc.2.2⟩

/-- What becomes of two overlapping symbols. -/
structure Truncated [Machine] (a b a' b' : DiSym) : Prop where
  okA : a'.Ok
  okB : b'.Ok
  addrA : a'.addr = a.addr
  addrB : b.addr ≤ b'.addr
  total : a'.size + b'.size ≤ a.size + b.size
  less : ¬ a.Twins b → a'.size + b'.size < a.size + b.size
  within : a'.Within a ∧ b'.Within b ↔ ¬ a.Outlasts b

section Truncate

variable [Machine] {a b : DiSym} {l : List DiSym}

/-- The size of the range from `s` to `e`, as it is stored. -/
theorem sizeOfRange {s e : Nat} (hse : s ≤ e) (he : e + 1 < wordMod) (hsmall : e + 1 - s < 2 ^ 32) :
    addW (subW e s) 1 % 2 ^ 32 = e + 1 - s := by
  have hsub : subW e s + 1 = e + 1 - s := by
    rw [subW_of_le (by omega) hse]
    omega
  rw [addW_of_lt (by omega), hsub, Nat.mod_eq_of_lt hsmall]

/-- The two symbols, when the two ranges that `truncateRanges` finds end at `f1` and `f2`. -/
theorem truncateSyms_of_ranges {s1 e1 f1 s2 e2 f2 : Nat}
    (hranges : truncateRanges a.addr (a.addr + a.size - 1) b.addr (b.addr + b.size - 1) = .ok (s1, e1, s2, e2))
    (ha : 0 < a.size ∧ a.addr + a.size < wordMod) (hb : 0 < b.size ∧ b.addr + b.size < wordMod)
    (he1 : e1 + 1 = f1) (he2 : e2 + 1 = f2) (hs : s1 ≤ s2)
    (h1 : s1 < f1 ∧ f1 < wordMod ∧ f1 - s1 < 2 ^ 32) (h2 : s2 < f2 ∧ f2 < wordMod ∧ f2 - s2 < 2 ^ 32) :
    truncateSyms a b = .ok ({ a with addr := s1, size := f1 - s1 }, { b with addr := s2, size := f2 - s2 }) := by
  subst he1 he2
  have hsize1 := sizeOfRange (Nat.lt_succ_iff.mp h1.1) h1.2.1 h1.2.2
  have hsize2 := sizeOfRange (Nat.lt_succ_iff.mp h2.1) h2.2.1 h2.2.2
  rw [truncateSyms, subW_addW_one ha.1 ha.2, subW_addW_one hb.1 hb.2, hranges, ok_bind]
  simp only [hsize1, hsize2]
  rw [assertThat_of hs, ok_bind, assertThat_of (Nat.sub_pos_of_lt h1.1), ok_bind,
    assertThat_of (Nat.sub_pos_of_lt h2.1)]
  rfl

theorem truncateSyms_spec (ha : a.Ok) (hb : b.Ok) (hab : a.addr ≤ b.addr) (hover : b.addr < a.addr + a.size) :
    ∃ a' b', truncateSyms a b = .ok (a', b') ∧ Truncated a b a' b' := by
  obtain ⟨hapos, hasize, hawrap⟩ := ha
  obtain ⟨hbpos, hbsize, hbwrap⟩ := hb
  have hpred : ∀ {x n : Nat}, 0 < n → x + n - 1 + 1 = x + n := by omega
  by_cases hlt : a.addr < b.addr
  · -- `a` ends where `b` starts
    have hranges : truncateRanges a.addr (a.addr + a.size - 1) b.addr (b.addr + b.size - 1) =
        .ok (a.addr, b.addr - 1, b.addr, b.addr + b.size - 1) := by
      rw [truncateRanges, if_pos hlt, subW_of_le (by omega) (by omega)]
      rfl
    refine ⟨_, _, truncateSyms_of_ranges hranges ⟨hapos, hawrap⟩ ⟨hbpos, hbwrap⟩ (Nat.sub_add_cancel (by omega))
      (hpred hbpos) hab ⟨hlt, by omega, by omega⟩ ⟨by omega, hbwrap, by omega⟩, ?_⟩
    rw [Nat.add_sub_cancel_left]
    exact ⟨⟨Nat.sub_pos_of_lt hlt, by dsimp only; omega, by dsimp only; omega⟩, ⟨hbpos, hbsize, hbwrap⟩, rfl,
      le_refl _, by dsimp only; omega, fun _ => by dsimp only; omega,
      iff_of_true ⟨⟨rfl, le_refl _, by dsimp only; omega⟩, .refl b⟩ fun h => Nat.ne_of_lt hlt h.1⟩
  have heq : a.addr = b.addr := by omega
  have hstart : ∀ {e1 e2 : Nat}, truncateRanges a.addr e1 b.addr e2 =
      if e1 > e2 then .ok (a.addr, e2, addW e2 1, e1)
      else if e1 < e2 then .ok (a.addr, e1, addW e1 1, e2) else .ok (a.addr, e1, a.addr, e2) := by
    intro e1 e2
    rw [truncateRanges, if_neg hlt, assertThat_of heq, ← heq]
    rfl
  rcases Nat.lt_trichotomy a.size b.size with hsize | hsize | hsize
  · -- `b` starts where `a` ends
    have hranges : truncateRanges a.addr (a.addr + a.size - 1) b.addr (b.addr + b.size - 1) =
        .ok (a.addr, a.addr + a.size - 1, a.addr + a.size, a.addr + b.size - 1) := by
      rw [hstart, if_neg (by omega), if_pos (by omega), addW_of_lt (by omega), hpred hapos, heq]
    refine ⟨_, _, truncateSyms_of_ranges hranges ⟨hapos, hawrap⟩ ⟨hbpos, hbwrap⟩ (hpred hapos) (hpred hbpos)
      (by omega) ⟨by omega, hawrap, by omega⟩ ⟨by omega, by omega, by omega⟩, ?_⟩
    rw [Nat.add_sub_cancel_left, Nat.add_sub_add_left]
    exact ⟨⟨hapos, hasize, hawrap⟩, ⟨Nat.sub_pos_of_lt hsize, by dsimp only; omega, by dsimp only; omega⟩, rfl,
      by dsimp only; omega, by dsimp only; omega, fun _ => by dsimp only; omega,
      iff_of_true ⟨.refl a, rfl, by dsimp only; omega, by dsimp only; omega⟩ fun h => Nat.lt_asymm hsize h.2⟩
  · -- the two ranges are the same
    have hranges : truncateRanges a.addr (a.addr + a.size - 1) b.addr (b.addr + b.size - 1) =
        .ok (a.addr, a.addr + a.size - 1, a.addr, a.addr + a.size - 1) := by
      rw [hstart, ← heq, ← hsize, if_neg (Nat.lt_irrefl _), if_neg (Nat.lt_irrefl _)]
    refine ⟨_, _, truncateSyms_of_ranges hranges ⟨hapos, hawrap⟩ ⟨hbpos, hbwrap⟩ (hpred hapos) (hpred hapos)
      (le_refl _) ⟨by omega, hawrap, by omega⟩ ⟨by omega, hawrap, by omega⟩, ?_⟩
    rw [Nat.add_sub_cancel_left]
    exact ⟨⟨hapos, hasize, hawrap⟩, ⟨hapos, hasize, hawrap⟩, rfl, heq.ge, Nat.add_le_add_left hsize.le _,
      fun htwins => absurd ⟨heq, hsize⟩ htwins,
      iff_of_true ⟨.refl a, rfl, heq.ge, by dsimp only; omega⟩ fun h => Nat.lt_irrefl _ (hsize ▸ h.2)⟩
  · -- the ranges change places, and the second one has the name of `b`
    have hranges : truncateRanges a.addr (a.addr + a.size - 1) b.addr (b.addr + b.size - 1) =
        .ok (a.addr, a.addr + b.size - 1, a.addr + b.size, a.addr + a.size - 1) := by
      rw [hstart, ← heq, if_pos (by omega), addW_of_lt (by omega), hpred hbpos]
    refine ⟨_, _, truncateSyms_of_ranges hranges ⟨hapos, hawrap⟩ ⟨hbpos, hbwrap⟩ (hpred hbpos) (hpred hapos)
      (by omega) ⟨by omega, by omega, by omega⟩ ⟨by omega, hawrap, by omega⟩, ?_⟩
    rw [Nat.add_sub_cancel_left, Nat.add_sub_add_left]
    refine ⟨⟨hbpos, hbsize, by dsimp only; omega⟩,
      ⟨Nat.sub_pos_of_lt hsize, by dsimp only; omega, by dsimp only; omega⟩, rfl, by dsimp only; omega,
      by dsimp only; omega, fun _ => by dsimp only; omega,
      iff_of_false (fun h => ?_) (not_not_intro ⟨heq, hsize⟩)⟩
    have hend := h.2.2.2
    dsimp only at hend
    omega

omit [Machine] in
theorem moveAlong_perm (b : DiSym) (l : List DiSym) : (moveAlong b l).Perm (b :: l) := by
  induction l with
  | nil => rfl
  | cons c l ih =>
    rw [moveAlong]
    split
    · exact (ih.cons c).trans (List.Perm.swap b c l)
    · rfl

omit [Machine] in
theorem moveAlong_sorted (h : SymSorted l) : SymSorted (moveAlong b l) := by
  induction l with
  | nil => exact List.pairwise_singleton _ _
  | cons c l ih =>
    obtain ⟨hc, hl⟩ := List.pairwise_cons.mp h
    rw [moveAlong]
    split
    · refine List.pairwise_cons.mpr ⟨fun d hd => ?_, ih hl⟩
      rcases List.mem_cons.mp ((moveAlong_perm b l).mem_iff.mp hd) with rfl | hd
      · omega
      · exact hc d hd
    · refine List.pairwise_cons.mpr ⟨fun d hd => ?_, h⟩
      rcases List.mem_cons.mp hd with rfl | hd
      · omega
      · have := hc d hd
        omega

omit [Machine] in
theorem totalSize_perm {l l' : List DiSym} (h : l.Perm l') : totalSize l = totalSize l' :=
  (h.map _).sum_eq

/-- In a pass no symbol that starts where the next one does outlasts it. -/
def swapFreePass : (n : Nat) → List DiSym → Bool
  | n + 1, a :: b :: l =>
    if addW a.addr a.size ≤ b.addr then swapFreePass n (b :: l)
    else decide (¬ a.Outlasts b) && match truncateSyms a b with
      | .ok (_, b') => swapFreePass n (moveAlong b' l)
      | .error _ => true
  | _, _ => true

/-- What a pass over overlapping symbols leaves behind. -/
structure Passed (l l' : List DiSym) (nTruncated : Nat) : Prop where
  ok : ∀ a ∈ l', a.Ok
  sorted : SymSorted l'
  lower : ∀ p, (∀ a ∈ l, p ≤ a.addr) → ∀ a ∈ l', p ≤ a.addr
  total : totalSize l' ≤ totalSize l
  done : nTruncated = 0 → l' = l ∧ l.IsChain fun a b => a.addr + a.size ≤ b.addr
  less : (l.IsChain fun a b => ¬ a.Twins b) → 0 < nTruncated → totalSize l' < totalSize l
  within : swapFreePass l.length l = true → ∀ a' ∈ l', ∃ a ∈ l, a'.Within a

theorem passed_of_short (hok : ∀ a ∈ l, a.Ok) (hsorted : SymSorted l)
    (hchain : l.IsChain fun a b => a.addr + a.size ≤ b.addr) : Passed l l 0 :=
  ⟨hok, hsorted, fun _ h => h, le_refl _, fun _ => ⟨rfl, hchain⟩, fun _ h => absurd h (Nat.lt_irrefl 0),
    fun _ a ha => ⟨a, ha, .refl a⟩⟩

/-- No overlap at the front. -/
theorem Passed.keep {l' : List DiSym} {n : Nat} (h : Passed (b :: l) l' n) (ha : a.Ok)
    (hal : ∀ d ∈ b :: l, a.addr ≤ d.addr) (hle : a.addr + a.size ≤ b.addr) :
    Passed (a :: b :: l) (a :: l') n := by
  have hwrap : addW a.addr a.size ≤ b.addr := by rwa [addW_of_lt ha.2.2]
  refine ⟨?_, ?_, fun p hp => ?_, ?_, fun hn => ?_, fun hchain hn => ?_, fun hfree => ?_⟩
  · intro d hd
    rcases List.mem_cons.mp hd with rfl | hd
    · exact ha
    · exact h.ok d hd
  · exact List.pairwise_cons.mpr ⟨h.lower a.addr hal, h.sorted⟩
  · intro d hd
    rcases List.mem_cons.mp hd with rfl | hd
    · exact hp d List.mem_cons_self
    · exact h.lower p (fun e he => hp e (List.mem_cons_of_mem _ he)) d hd
  · have := h.total
    rw [totalSize_cons, totalSize_cons (l := b :: l)]
    omega
  · obtain ⟨rfl, hchain⟩ := h.done hn
    exact ⟨rfl, List.isChain_cons_cons.mpr ⟨hle, hchain⟩⟩
  · have := h.less (List.isChain_cons_cons.mp hchain).2 hn
    rw [totalSize_cons, totalSize_cons (l := b :: l)]
    omega
  · rw [List.length_cons, swapFreePass, if_pos hwrap] at hfree
    intro d hd
    rcases List.mem_cons.mp hd with rfl | hd
    · exact ⟨d, List.mem_cons_self, .refl d⟩
    · obtain ⟨e, he, hde⟩ := h.within hfree d hd
      exact ⟨e, List.mem_cons_of_mem _ he, hde⟩

/-- A truncation at the front. -/
theorem Passed.truncate {a' b' : DiSym} {l' : List DiSym} {n : Nat} (h : Passed (moveAlong b' l) l' n)
    (ht : Truncated a b a' b') (hrun : truncateSyms a b = .ok (a', b'))
    (hal : ∀ d ∈ b :: l, a.addr ≤ d.addr) (hover : ¬ addW a.addr a.size ≤ b.addr) :
    Passed (a :: b :: l) (a' :: l') (n + 1) := by
  have hperm := moveAlong_perm b' l
  have htotal : totalSize (moveAlong b' l) = b'.size + totalSize l := (totalSize_perm hperm).trans totalSize_cons
  have hlow : ∀ p, p ≤ b.addr → (∀ d ∈ l, p ≤ d.addr) → ∀ d ∈ moveAlong b' l, p ≤ d.addr := by
    intro p hb hl d hd
    rcases List.mem_cons.mp (hperm.mem_iff.mp hd) with rfl | hd
    · exact hb.trans ht.addrB
    · exact hl d hd
  refine ⟨?_, ?_, fun p hp => ?_, ?_, fun hn => absurd hn (Nat.succ_ne_zero n), fun hchain _ => ?_, fun hfree => ?_⟩
  · intro d hd
    rcases List.mem_cons.mp hd with rfl | hd
    · exact ht.okA
    · exact h.ok d hd
  · refine List.pairwise_cons.mpr ⟨fun d hd => ?_, h.sorted⟩
    rw [ht.addrA]
    exact h.lower a.addr (hlow a.addr (hal b List.mem_cons_self)
      fun e he => hal e (List.mem_cons_of_mem _ he)) d hd
  · intro d hd
    rcases List.mem_cons.mp hd with rfl | hd
    · rw [ht.addrA]
      exact hp a List.mem_cons_self
    · exact h.lower p (hlow p (hp b (List.mem_cons_of_mem _ List.mem_cons_self))
        fun e he => hp e (List.mem_cons_of_mem _ (List.mem_cons_of_mem _ he))) d hd
  · have h₁ := h.total
    have h₂ := ht.total
    rw [totalSize_cons, totalSize_cons (l := b :: l), totalSize_cons (l := l)]
    omega
  · have h₁ := h.total
    have h₂ := ht.less (List.isChain_cons_cons.mp hchain).1
    rw [totalSize_cons, totalSize_cons (l := b :: l), totalSize_cons (l := l)]
    omega
  · have hlen : (b :: l).length = (moveAlong b' l).length := by
      rw [hperm.length_eq]
      rfl
    rw [List.length_cons, swapFreePass, if_neg hover, hrun, hlen, Bool.and_eq_true, decide_eq_true_iff] at hfree
    obtain ⟨ha', hb'⟩ := ht.within.mpr hfree.1
    intro d hd
    rcases List.mem_cons.mp hd with rfl | hd
    · exact ⟨a, List.mem_cons_self, ha'⟩
    · obtain ⟨e, he, hde⟩ := h.within hfree.2 d hd
      rcases List.mem_cons.mp (hperm.mem_iff.mp he) with rfl | he
      · exact ⟨b, List.mem_cons_of_mem _ List.mem_cons_self, hde.trans hb'⟩
      · exact ⟨e, List.mem_cons_of_mem _ (List.mem_cons_of_mem _ he), hde⟩

/-- **A pass** over overlapping symbols. -/
theorem overlapPass_spec {n : Nat} (hn : l.length = n) (hok : ∀ a ∈ l, a.Ok) (hsorted : SymSorted l) :
    ∃ l' m, overlapPass n l = .ok (l', m) ∧ Passed l l' m := by
  induction n generalizing l with
  | zero =>
    obtain rfl := List.length_eq_zero_iff.mp hn
    exact ⟨[], 0, rfl, passed_of_short hok hsorted List.isChain_nil⟩
  | succ n ih =>
    match l with
    | [] => exact nomatch hn
    | [a] => exact ⟨[a], 0, rfl, passed_of_short hok hsorted (List.isChain_singleton a)⟩
    | a :: b :: l =>
      obtain ⟨hal, hbl⟩ := List.pairwise_cons.mp hsorted
      obtain ⟨-, hl⟩ := List.pairwise_cons.mp hbl
      have hlen : (b :: l).length = n := Nat.succ.inj hn
      have ha := hok a List.mem_cons_self
      have hb := hok b (List.mem_cons_of_mem _ List.mem_cons_self)
      have hab := hal b List.mem_cons_self
      rw [overlapPass, assertThat_of hab, ok_bind]
      by_cases hle : addW a.addr a.size ≤ b.addr
      · obtain ⟨l', m, hrun, hp⟩ := ih hlen (fun c hc => hok c (List.mem_cons_of_mem _ hc)) hbl
        rw [if_pos hle, hrun]
        rw [addW_of_lt ha.2.2] at hle
        exact ⟨a :: l', m, rfl, hp.keep ha hal hle⟩
      · have hover : b.addr < a.addr + a.size := by
          rw [addW_of_lt ha.2.2] at hle
          omega
        obtain ⟨a', b', htrunc, ht⟩ := truncateSyms_spec ha hb hab hover
        have hperm := moveAlong_perm b' l
        have hlen' : (moveAlong b' l).length = n := hperm.length_eq.trans hlen
        obtain ⟨l', m, hrun, hp⟩ := ih hlen' (fun c hc => by
          rcases List.mem_cons.mp (hperm.mem_iff.mp hc) with rfl | hc
          · exact ht.okB
          · exact hok c (List.mem_cons_of_mem _ (List.mem_cons_of_mem _ hc))) (moveAlong_sorted hl)
        rw [if_neg hle, htrunc, ok_bind]
        simp only [hrun, ok_bind]
        exact ⟨a' :: l', m + 1, rfl, hp.truncate ht htrunc hal hle⟩

/-! ## The rounds -/

/-- In no round a symbol that starts where the next one does outlasts it. -/
def swapFree : Nat → List DiSym → Bool
  | 0, _ => true
  | fuel + 1, l => match mergeLoop (l.length + 1) l with
    | .error _ => true
    | .ok l => swapFreePass l.length l && match overlapPass l.length l with
      | .error _ => true
      | .ok (l, nTruncated) => decide (nTruncated = 0) || swapFree fuel l

/-- **The rounds end**: a round that truncates something makes the sum of the sizes smaller. -/
theorem cleanupMore_spec {fuel : Nat} (hok : ∀ a ∈ l, a.Ok) (hsorted : SymSorted l) (hfuel : totalSize l < fuel) :
    ∃ l', cleanupMore fuel l = .ok l' ∧ (∀ a ∈ l', a.Ok) ∧ (l'.IsChain fun a b => a.addr + a.size ≤ b.addr) ∧
      (swapFree fuel l = true → ∀ a' ∈ l', ∃ a ∈ l, a'.Within a) := by
  induction fuel generalizing l with
  | zero => exact absurd hfuel (Nat.not_lt_zero _)
  | succ fuel ih =>
    obtain ⟨l₁, hmerge, hmem₁, hsorted₁, htotal₁, htwins⟩ := mergeLoop_spec hsorted (Nat.lt_succ_self l.length)
    have hok₁ : ∀ a ∈ l₁, a.Ok := fun a ha => hok a (hmem₁ a ha)
    obtain ⟨l₂, n, hpass, hp⟩ := overlapPass_spec rfl hok₁ hsorted₁
    rw [cleanupMore, hmerge, ok_bind, hpass, ok_bind, swapFree, hmerge]
    simp only [hpass, Bool.and_eq_true, Bool.or_eq_true, decide_eq_true_iff]
    by_cases hn : n > 0
    · have hless := hp.less htwins hn
      obtain ⟨l', hrun, hok', hchain, hwithin⟩ := ih hp.ok hp.sorted (by omega)
      rw [if_pos hn]
      refine ⟨l', hrun, hok', hchain, fun hfree a' ha' => ?_⟩
      obtain ⟨b, hb, hab⟩ := hwithin (hfree.2.resolve_left (by omega)) a' ha'
      obtain ⟨c, hc, hbc⟩ := hp.within hfree.1 b hb
      exact ⟨c, hmem₁ c hc, hab.trans hbc⟩
    · obtain ⟨rfl, hchain⟩ := hp.done (by omega)
      rw [if_neg hn]
      refine ⟨l₂, rfl, hp.ok, hchain, fun hfree a' ha' => ⟨a', hmem₁ a' ha', .refl a'⟩⟩

end Truncate

/-! ## The canonical table -/

/-- The ranges of symbols. -/
def symOps : RangeOps DiSym where
  start := DiSym.addr
  len := DiSym.size
  setLen a n := { a with size := n }
  start_setLen _ _ := rfl
  len_setLen _ _ := rfl
  setLen_len _ := rfl

section Canonical

variable [Machine] {a b : DiSym} {l : List DiSym}

omit [Machine] in
theorem compareDiSym_le : compareDiSym a b ≤ 0 ↔ a.addr ≤ b.addr := by
  unfold compareDiSym
  split
  · omega
  · split <;> omega

/-- The postconditions hold if every symbol ends before the next one starts. -/
theorem checkSyms_eq (hok : ∀ a ∈ l, a.Ok) (h : l.IsChain fun a b => a.addr + a.size ≤ b.addr) :
    checkSyms l = .ok () := by
  induction l using checkSyms.induct with
  | case1 => rfl
  | case2 a => rfl
  | case3 a b l ih =>
    obtain ⟨hab, hchain⟩ := List.isChain_cons_cons.mp h
    obtain ⟨hpos, -, hwrap⟩ := hok a List.mem_cons_self
    rw [checkSyms, assertThat_of hpos, ok_bind, assertThat_of (by omega), ok_bind, subW_addW_one hpos hwrap,
      assertThat_of (by omega), ok_bind]
    exact ih (fun c hc => hok c (List.mem_cons_of_mem _ hc)) hchain

theorem disjoint_of_chain (hok : ∀ a ∈ l, a.Ok) (h : l.IsChain fun a b => a.addr + a.size ≤ b.addr) :
    symOps.Disjoint l := by
  have : IsTrans DiSym fun a b => a.addr + a.size ≤ b.addr := ⟨fun a b c hab hbc => by omega⟩
  have hpair : l.Pairwise fun a b => a.addr + a.size ≤ b.addr := List.isChain_iff_pairwise.mp h
  exact ⟨fun a ha => (hok a ha).1, hpair⟩

/-- **The canonical symbol table**: it is arrived at, and its postconditions hold. -/
theorem canonicaliseSymtab_spec (ssort : Ssort compareDiSym) (hok : ∀ a ∈ l, a.Ok) :
    ∃ tab, canonicaliseSymtab ssort l = .ok tab ∧ (∀ a ∈ tab, a.Ok) ∧ symOps.Disjoint tab ∧
      (swapFree (totalSize l + 1) (ssort.sort l) = true → ∀ a ∈ tab, ∃ b ∈ l, a.Within b) := by
  have hperm := ssort.perm l
  have hsorted : SymSorted (ssort.sort l) := (ssort.sorted l).imp compareDiSym_le.mp
  unfold canonicaliseSymtab
  by_cases hnil : l.length = 0
  · obtain rfl := List.length_eq_zero_iff.mp hnil
    exact ⟨[], rfl, by simp, ⟨by simp, List.Pairwise.nil⟩, by simp⟩
  · have hok' : ∀ a ∈ ssort.sort l, a.Ok := fun a ha => hok a (hperm.mem_iff.mp ha)
    obtain ⟨tab, hrun, htab, hchain, hwithin⟩ := cleanupMore_spec hok' hsorted
      (Nat.lt_succ_of_le (totalSize_perm hperm).le)
    rw [if_neg hnil, hrun, ok_bind, checkSyms_eq htab hchain]
    refine ⟨tab, rfl, htab, disjoint_of_chain htab hchain, fun hfree a ha => ?_⟩
    obtain ⟨b, hb, hab⟩ := hwithin hfree a ha
    exact ⟨b, hperm.mem_iff.mp hb, hab⟩

theorem searchOneSymtab_eq {ptr : Nat} {mid : Int} (findText : Bool)
    (hrun : searchOne (readRange (fun a => return (a.addr, subW (addW a.addr a.size) 1)) l) ptr 0 (l.length - 1) =
      .ok mid) :
    searchOneSymtab l ptr true findText = if mid = -1 then .ok (-1) else
      match l[mid.toNat]? with
      | some a => .ok (if findText = a.isText then mid else -1)
      | none => .error .fault := by
  show (searchOne (readRange (fun a : DiSym => return (a.addr, subW (addW a.addr a.size) 1)) l) ptr 0
    (l.length - 1) >>= _) = _
  rw [hrun]
  rfl

/-- **A search in the table** finds a symbol of the kind whose range contains the address, or none. -/
theorem searchOneSymtab_spec (hok : ∀ a ∈ l, a.Ok) (h : symOps.Disjoint l) (ptr : Nat) (findText : Bool) :
    ∃ r, searchOneSymtab l ptr true findText = .ok r ∧
      (r = -1 ∨ ∃ (i : Nat) (a : DiSym), r = i ∧ l[i]? = some a ∧ symOps.Covers a ptr ∧ a.isText = findText) := by
  have hrange : ∀ i a, l[i]? = some a → readRange (fun a : DiSym =>
      return (a.addr, subW (addW a.addr a.size) 1)) l i = .ok (symOps.start a, symOps.start a + symOps.len a - 1) := by
    intro i a ha
    obtain ⟨hpos, -, hwrap⟩ := hok a (List.mem_of_getElem? ha)
    simp only [readRange, ha, subW_addW_one hpos hwrap]
    rfl
  rcases searchOne_spec h hrange ptr with ⟨i, a, hi, hcov, hrun⟩ | ⟨-, hrun⟩
  · rw [searchOneSymtab_eq findText hrun, if_neg (by omega), Int.toNat_natCast, hi]
    by_cases htext : findText = a.isText
    · exact ⟨i, congrArg Except.ok (if_pos htext), .inr ⟨i, a, rfl, hi, hcov, htext.symm⟩⟩
    · exact ⟨-1, congrArg Except.ok (if_neg htext), .inl rfl⟩
  · rw [searchOneSymtab_eq findText hrun, if_pos rfl]
    exact ⟨-1, rfl, .inl rfl⟩

end Canonical

/-- Symbols in the order of their addresses. -/
def insertionSym : Ssort compareDiSym :=
  insertionSsort compareDiSym (by simp only [compareDiSym_le]; omega) (by simp only [compareDiSym_le]; omega)

/-- Two symbols at one address, the shorter one first, and one that overlaps the longer one. -/
def shortFirst : List DiSym :=
  [⟨4096, 0, "short".toList, 4, true⟩, ⟨4096, 0, "long".toList, 16, true⟩, ⟨4104, 0, "inner".toList, 4, true⟩]

/-- Two symbols at one address, the longer one first. -/
def longFirst : List DiSym := [⟨4096, 0, "long".toList, 16, true⟩, ⟨4096, 0, "short".toList, 4, true⟩]

end Valgrind.Debuginfo
