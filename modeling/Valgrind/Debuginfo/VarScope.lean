import Valgrind.Avl.OSet
import Valgrind.Basics.Machine
import Valgrind.Lib.Intervals

/-!
# Variables of a scope (`m_debuginfo/storage.c`)

A scope is an `OSet` of address ranges with the variables that exist there. To add a variable for a range,
`add_var_to_arange` splits the ranges at its two ends, by changing the bounds of a range inside the tree
and inserting the other part, and then visits the ranges between the ends.

`varScope_partition`: after any additions the ranges follow one another from the first to the last address,
every range has the variables that have been added for its addresses, in that order, and no assertion has
failed on the way.
-/

namespace Valgrind.Debuginfo

open AvlTree Avl Intervals

/-! ## The code -/

/-- `DiAddrRange`. -/
structure DiAddrRange (V : Type) where
  aMin : Nat
  aMax : Nat
  vars : Option (List V)
  deriving DecidableEq

/-- `ML_(cmp_for_DiAddrRange_range)`. -/
def cmpForDiAddrRangeRange {V : Type} (key : Nat) (elem : DiAddrRange V) : Int :=
  if key < elem.aMin then -1 else if key > elem.aMax then 1 else 0

/-- A node of the set. -/
abbrev RangeNode (V : Type) := ONode (DiAddrRange V)

/-- The set, and the address of the node that is allocated next. -/
structure Scope (V : Type) where
  set : OSet Nat (DiAddrRange V)
  fresh : Nat

/-- `vg_assert` of a pointer. -/
def assertSome {α : Type} : Option α → Result α
  | some a => pure a
  | none => throw .assertFailed

@[simp] theorem assertSome_some {α : Type} (a : α) : assertSome (some a) = .ok a := rfl

/-- A pointer is followed without an assertion. -/
def derefSome {α : Type} : Option α → Result α
  | some a => pure a
  | none => throw .fault

namespace Scope

variable {V : Type}

/-- The nodes in order. -/
def nodes (s : Scope V) : List (RangeNode V) := s.set.root.toList

/-- `VG_(OSetGen_Lookup)`. -/
def lookup (s : Scope V) (a : Nat) : Option (RangeNode V) := avlLookup DiAddrRange.aMin id s.set a

/-- `VG_(OSetGen_AllocNode)` and `VG_(OSetGen_Insert)`. -/
def insert (s : Scope V) (r : DiAddrRange V) : Result (Scope V × RangeNode V) := do
  let n : RangeNode V := ⟨s.fresh, r⟩
  let set ← osetInsert DiAddrRange.aMin id s.set n
  return (⟨set, s.fresh + 1⟩, n)

/-- Change the range at an address; the tree does not notice. -/
def edit (s : Scope V) (addr : Nat) (f : DiAddrRange V → DiAddrRange V) : Scope V :=
  { s with set := { s.set with root := s.set.root.map fun n => if n.addr = addr then ⟨n.addr, f n.elem⟩ else n } }

/-- `VG_(OSetGen_ResetIterAt)`, and what `VG_(OSetGen_Next)` returns from then on
(`osetIterateAt_spec`). -/
def iterAt (s : Scope V) (a : Nat) : List (RangeNode V) :=
  fromCut (wayOSet DiAddrRange.aMin id s.set.cmp a) s.nodes

end Scope

/-- The list of variables with one more. -/
def DiAddrRange.push {V : Type} (var : V) (r : DiAddrRange V) : DiAddrRange V :=
  { r with vars := r.vars.map fun vars => vars ++ [var] }

section Code

variable [Machine] {V : Type}

/-- A scope with a single range that covers the entire address space. -/
def newScope (V : Type) : Result (Scope V) := do
  let (s, _) ← Scope.insert ⟨osetCreate (some cmpForDiAddrRangeRange), 0⟩ ⟨0, wordMod - 1, some []⟩
  return s

/-- Split the range that the lower end of the new one falls into. -/
def splitFirst (s : Scope V) (first : RangeNode V) (aMin : Nat) : Result (Scope V × RangeNode V) :=
  if first.elem.aMin < aMin then do
    let tmp := first.elem.aMax
    let s := s.edit first.addr fun r => { r with aMax := subW aMin 1 }
    assertThat (first.elem.aMin ≤ subW aMin 1)
    assertThat (aMin ≤ tmp)
    let vars ← assertSome first.elem.vars
    s.insert ⟨aMin, tmp, some vars⟩
  else return (s, first)

/-- Split the range that the upper end of the new one falls into. -/
def splitLast (s : Scope V) (last : RangeNode V) (aMax : Nat) : Result (Scope V × RangeNode V) :=
  if aMax < last.elem.aMax then do
    let tmp := last.elem.aMin
    let s := s.edit last.addr fun r => { r with aMin := addW aMax 1 }
    assertThat (addW aMax 1 ≤ last.elem.aMax)
    assertThat (tmp ≤ aMax)
    let vars ← assertSome last.elem.vars
    s.insert ⟨tmp, aMax, some vars⟩
  else return (s, last)

/-- The sanity checks of a range: it is the first one, or it follows the one before. -/
def checkFollows (aMin : Nat) (xxRangep : Option (RangeNode V)) (range : RangeNode V) : Result Unit :=
  match xxRangep with
  | none => assertThat (range.elem.aMin = aMin)
  | some xxRangep => assertThat (addW xxRangep.elem.aMax 1 = range.elem.aMin)

/-- The loop that adds the variable: `xxRangep` and `xxIters` at its end. -/
def addLoop (aMin aMax : Nat) (var : V) :
    List (RangeNode V) → Option (RangeNode V) → Nat → Scope V → Result (Scope V × Option (RangeNode V) × Nat)
  | [], xxRangep, xxIters, s => return (s, xxRangep, xxIters)
  | range :: ranges, xxRangep, xxIters, s =>
    if range.elem.aMin > aMax then return (s, xxRangep, xxIters)
    else do
      checkFollows aMin xxRangep range
      let _ ← assertSome range.elem.vars
      addLoop aMin aMax var ranges (some range) (xxIters + 1) (s.edit range.addr (DiAddrRange.push var))

/-- The part of `add_var_to_arange` that makes both ends fall on boundaries. -/
def splitEnds (s : Scope V) (first : RangeNode V) (aMin aMax : Nat) : Result (Scope V) := do
  let (s, first) ← splitFirst s first aMin
  assertThat (first.elem.aMin = aMin)
  let last ← derefSome (s.lookup aMax)
  assertThat (last.elem.aMin ≤ last.elem.aMax)
  assertThat (last.elem.aMin ≤ aMax ∧ aMax ≤ last.elem.aMax)
  let (s, last) ← splitLast s last aMax
  assertThat (aMax = last.elem.aMax)
  return s

/-- The part of `add_var_to_arange` that visits the ranges from one end to the other. Nodes are the
same when their addresses are. -/
def addBetween (s : Scope V) (aMin aMax : Nat) (var : V) : Result (Scope V) := do
  let xxFirst ← assertSome (s.lookup aMin)
  let xxLast ← assertSome (s.lookup aMax)
  assertThat (xxFirst.elem.aMin = aMin)
  assertThat (xxLast.elem.aMax = aMax)
  assertThat (xxFirst.addr ≠ xxLast.addr → xxFirst.elem.aMax < xxLast.elem.aMin)
  let (s, xxRangep, xxIters) ← addLoop aMin aMax var (s.iterAt aMin) none 0 s
  assertThat (xxIters ≥ 1)
  assertThat (xxIters = 1 → xxFirst.addr = xxLast.addr)
  assertThat (xxFirst.addr = xxLast.addr → xxIters = 1)
  let xxRangep ← assertSome xxRangep
  assertThat (xxRangep.elem.aMax = aMax)
  assertThat (xxRangep.addr = xxLast.addr)
  return s

/-- `add_var_to_arange`. -/
def addVarToArange (s : Scope V) (aMin aMax : Nat) (var : V) : Result (Scope V) := do
  assertThat (aMin ≤ aMax)
  let first ← assertSome (s.lookup aMin)
  assertThat (first.elem.aMin ≤ first.elem.aMax)
  assertThat (first.elem.aMin ≤ aMin ∧ aMin ≤ first.elem.aMax)
  if first.elem.aMin = aMin ∧ first.elem.aMax = aMax then do
    let _ ← assertSome first.elem.vars
    return s.edit first.addr (DiAddrRange.push var)
  else do
    let s ← splitEnds s first aMin aMax
    addBetween s aMin aMax var

/-- The iteration of `canonicaliseVarInfo` over a local scope: `nInThisScope` at its end. -/
def canonicaliseLoop : List (RangeNode V) → Option (RangeNode V) → Nat → Result Nat
  | [], rangep, nInThisScope => do
    let rangep ← assertSome rangep
    assertThat (rangep.elem.aMax = wordMod - 1)
    return nInThisScope
  | range :: ranges, rangep, nInThisScope => do
    assertThat (range.elem.aMin ≤ range.elem.aMax)
    let _ ← assertSome range.elem.vars
    checkFollows 0 rangep range
    canonicaliseLoop ranges (some range) (nInThisScope + 1)

/-- The range at address 0 is the only one. -/
def checkSingle (s : Scope V) : Result (RangeNode V) := do
  assertThat (s.set.nElems = 1)
  let range ← assertSome (s.lookup 0)
  assertThat (range.elem.aMin = 0)
  assertThat (range.elem.aMax = wordMod - 1)
  return range

/-- `canonicaliseVarInfo`, for the scope at level `i`. -/
def canonicaliseScope (i : Nat) (s : Scope V) : Result Unit :=
  if i = 0 then do
    let _ ← checkSingle s
    return ()
  else do
    let nInThisScope ← canonicaliseLoop s.nodes none 0
    assertThat (nInThisScope > 0)
    if nInThisScope = 1 then do
      let range ← checkSingle s
      let vars ← assertSome range.elem.vars
      assertThat (vars.length = 0)
    else return ()

end Code

/-! ## The tree -/

/-- The nodes of the tree, and nothing that the bounds of the ranges have to do with. -/
structure Scope.Holds {V : Type} (s : Scope V) (l : List (RangeNode V)) : Prop where
  list : s.nodes = l
  avl : s.set.root.IsAvl
  cmp : s.set.cmp = some cmpForDiAddrRangeRange
  count : s.set.nElems = l.length
  addrs : (l.map ONode.addr).Nodup
  fresh : ∀ n ∈ l, n.addr < s.fresh

/-- The ranges follow one another from `p` to `e`. -/
abbrev Follow {V : Type} (p e : Nat) (l : List (RangeNode V)) : Prop :=
  Tiled (fun n => n.elem.aMin) (fun n => n.elem.aMax + 1) p e l

section Tree

variable {V : Type} {s : Scope V} {l l₁ l₂ : List (RangeNode V)} {n : RangeNode V} {r : DiAddrRange V} {p e a : Nat}

theorem way_gt (H : s.Holds l) (h : n.elem.aMax < a) (hn : n.elem.aMin ≤ n.elem.aMax) :
    wayOSet DiAddrRange.aMin id s.set.cmp a n = .gt := by
  rw [H.cmp]
  unfold wayOSet cmpElem cmpForDiAddrRangeRange
  dsimp only
  rw [if_neg (by omega), if_pos h]
  rfl

theorem way_lt (H : s.Holds l) (h : a < n.elem.aMin) : wayOSet DiAddrRange.aMin id s.set.cmp a n = .lt := by
  rw [H.cmp]
  unfold wayOSet cmpElem cmpForDiAddrRangeRange
  dsimp only
  rw [if_pos h]
  rfl

theorem way_eq (H : s.Holds l) (h : n.elem.aMin ≤ a ∧ a ≤ n.elem.aMax) :
    wayOSet DiAddrRange.aMin id s.set.cmp a n = .eq := by
  rw [H.cmp]
  unfold wayOSet cmpElem cmpForDiAddrRangeRange
  dsimp only
  rw [if_neg (by omega), if_neg (by omega)]
  rfl

/-- The ranges before an address. -/
theorem Follow.gt (h : Follow p e l) (H : s.Holds l₂) (ha : e ≤ a) :
    ∀ n ∈ l, wayOSet DiAddrRange.aMin id s.set.cmp a n = .gt := fun n hn => by
  have hb := h.mem_bounds hn
  exact way_gt H (by omega) (by omega)

/-- The ranges after an address. -/
theorem Follow.lt (h : Follow p e l) (H : s.Holds l₂) (ha : a < p) :
    ∀ n ∈ l, wayOSet DiAddrRange.aMin id s.set.cmp a n = .lt := fun n hn => by
  have hb := h.mem_bounds hn
  exact way_lt H (by omega)

/-- The parts of ranges that follow one another. -/
theorem follow_split (h : Follow p e (l₁ ++ n :: l₂)) :
    Follow p n.elem.aMin l₁ ∧ n.elem.aMin ≤ n.elem.aMax ∧ Follow (n.elem.aMax + 1) e l₂ := by
  obtain ⟨q, h₁, hq, hlt, h₂⟩ := tiled_append.mp h
  dsimp only at hq hlt
  exact ⟨hq ▸ h₁, by omega, h₂⟩

/-- **Lookup** finds the range of the address. -/
theorem lookup_spec (H : s.Holds (l₁ ++ n :: l₂)) (h : Follow p e (l₁ ++ n :: l₂))
    (ha : n.elem.aMin ≤ a ∧ a ≤ n.elem.aMax) : s.lookup a = some n := by
  obtain ⟨h₁, -, h₂⟩ := follow_split h
  exact avlLookup_between H.list (Follow.gt h₁ H ha.1) (way_eq H ha) (Follow.lt h₂ H (Nat.lt_succ_of_le ha.2))

theorem exists_range (h : Follow p e l) (h₁ : p ≤ a) (h₂ : a < e) :
    ∃ (l₁ : List (RangeNode V)) (n : RangeNode V) (l₂ : List (RangeNode V)), l = l₁ ++ n :: l₂ ∧
      n.elem.aMin ≤ a ∧ a ≤ n.elem.aMax := by
  obtain ⟨n, hn⟩ := h.exists_locate h₁ h₂
  obtain ⟨hmem, hlo, hhi⟩ := mem_of_locate hn
  obtain ⟨l₁, l₂, rfl⟩ := List.append_of_mem hmem
  exact ⟨l₁, n, l₂, rfl, hlo, Nat.le_of_lt_succ hhi⟩

/-- **Changing a range** inside the tree. -/
theorem Scope.Holds.edit (H : s.Holds (l₁ ++ n :: l₂)) (f : DiAddrRange V → DiAddrRange V) :
    (s.edit n.addr f).Holds (l₁ ++ ⟨n.addr, f n.elem⟩ :: l₂) := by
  have hne : ∀ m, m ∈ l₁ ∨ m ∈ l₂ → m.addr ≠ n.addr := fun m hm => by
    have h := H.addrs
    rw [List.map_append, List.map_cons, List.nodup_middle, List.nodup_cons, List.mem_append] at h
    have hmap : ∀ {l : List (RangeNode V)}, m ∈ l → m.addr ∈ l.map ONode.addr := List.mem_map_of_mem
    exact fun heq => h.1 (heq ▸ hm.imp hmap hmap)
  refine ⟨?_, H.avl.map, H.cmp, ?_, ?_, ?_⟩
  · have hlist := H.list
    unfold nodes at hlist
    unfold nodes Scope.edit
    rw [BinTree.toList_map, hlist, List.map_append, List.map_cons, if_pos rfl]
    congr 1
    · exact (List.map_congr_left fun m hm => if_neg (hne m (.inl hm))).trans (List.map_id _)
    · congr 1
      exact (List.map_congr_left fun m hm => if_neg (hne m (.inr hm))).trans (List.map_id _)
  · have hcount := H.count
    rw [List.length_append, List.length_cons] at hcount ⊢
    exact hcount
  · have haddrs := H.addrs
    rw [List.map_append, List.map_cons] at haddrs ⊢
    exact haddrs
  · intro m hm
    rcases List.mem_append.mp hm with hm | hm
    · exact H.fresh m (List.mem_append_left _ hm)
    rcases List.mem_cons.mp hm with rfl | hm
    · exact H.fresh n (List.mem_append_right _ List.mem_cons_self)
    · exact H.fresh m (List.mem_append_right _ (List.mem_cons_of_mem _ hm))

/-- **Inserting a range** between what is before and what is after it. -/
theorem Scope.Holds.insert (H : s.Holds (l₁ ++ l₂))
    (h₁ : ∀ m ∈ l₁, wayOSet DiAddrRange.aMin id s.set.cmp r.aMin m = .gt)
    (h₂ : ∀ m ∈ l₂, wayOSet DiAddrRange.aMin id s.set.cmp r.aMin m = .lt) :
    ∃ s', s.insert r = .ok (s', ⟨s.fresh, r⟩) ∧ s'.Holds (l₁ ++ ⟨s.fresh, r⟩ :: l₂) := by
  obtain ⟨root, hrun, havl, hlist⟩ :=
    @osetInsert_between _ _ DiAddrRange.aMin id s.set ⟨s.fresh, r⟩ _ _ H.avl H.list h₁ h₂
  refine ⟨⟨{ s.set with root, nElems := s.set.nElems + 1, stack := [] }, s.fresh + 1⟩, ?_, hlist, havl, H.cmp, ?_, ?_,
    ?_⟩
  · rw [Scope.insert]
    dsimp only
    rw [hrun]
    rfl
  · have hcount := H.count
    dsimp only
    rw [hcount, List.length_append, List.length_append, List.length_cons]
    omega
  · have haddrs := H.addrs
    rw [List.map_append] at haddrs
    rw [List.map_append, List.map_cons, List.nodup_middle, List.nodup_cons, ← List.map_append]
    refine ⟨fun hmem => ?_, List.map_append (f := ONode.addr) ▸ haddrs⟩
    obtain ⟨m, hm, heq⟩ := List.mem_map.mp hmem
    exact absurd (H.fresh m hm) (by rw [heq]; exact Nat.lt_irrefl _)
  · intro m hm
    rcases List.mem_append.mp hm with hm | hm
    · exact Nat.lt_succ_of_lt (H.fresh m (List.mem_append_left _ hm))
    rcases List.mem_cons.mp hm with rfl | hm
    · exact Nat.lt_succ_self _
    · exact Nat.lt_succ_of_lt (H.fresh m (List.mem_append_right _ hm))

end Tree

/-! ## Splitting -/

/-- A part of a range, with a new bound or with that of the range. -/
structure PartOf {V : Type} (aMin aMax : Nat) (r r' : DiAddrRange V) : Prop where
  vars : r'.vars = r.vars
  lo : r.aMin ≤ r'.aMin
  hi : r'.aMax ≤ r.aMax
  bound : r'.aMin = r.aMin ∨ r'.aMin = aMin ∨ r'.aMin = aMax + 1

/-- All ranges are parts of what there was before. -/
def Parts {V : Type} (aMin aMax : Nat) (l l' : List (RangeNode V)) : Prop :=
  ∀ n' ∈ l', ∃ n ∈ l, PartOf aMin aMax n.elem n'.elem

section Splitting

variable {V : Type} {s : Scope V} {l l' l'' l₁ l₂ : List (RangeNode V)} {n : RangeNode V} {p e aMin aMax : Nat}

theorem PartOf.refl (r : DiAddrRange V) : PartOf aMin aMax r r := ⟨rfl, Nat.le_refl _, Nat.le_refl _, .inl rfl⟩

theorem PartOf.trans {r r' r'' : DiAddrRange V} (h : PartOf aMin aMax r r') (h' : PartOf aMin aMax r' r'') :
    PartOf aMin aMax r r'' := by
  refine ⟨h'.vars.trans h.vars, h.lo.trans h'.lo, h'.hi.trans h.hi, ?_⟩
  rcases h'.bound with hb | hb
  · rw [hb]
    exact h.bound
  · exact .inr hb

theorem Parts.refl (l : List (RangeNode V)) : Parts aMin aMax l l := fun n hn => ⟨n, hn, PartOf.refl _⟩

theorem Parts.trans (h : Parts aMin aMax l l') (h' : Parts aMin aMax l' l'') : Parts aMin aMax l l'' := by
  intro n'' hn''
  obtain ⟨n', hn', hpart'⟩ := h' n'' hn''
  obtain ⟨n, hn, hpart⟩ := h n' hn'
  exact ⟨n, hn, hpart.trans hpart'⟩

/-- A range is replaced by two of its parts. -/
theorem Parts.split {x y : RangeNode V} (hx : PartOf aMin aMax n.elem x.elem) (hy : PartOf aMin aMax n.elem y.elem) :
    Parts aMin aMax (l₁ ++ n :: l₂) (l₁ ++ x :: y :: l₂) := by
  intro n' hn'
  rw [List.mem_append, List.mem_cons, List.mem_cons] at hn'
  rcases hn' with hn' | rfl | rfl | hn'
  · exact ⟨n', List.mem_append_left _ hn', PartOf.refl _⟩
  · exact ⟨n, List.mem_append_right _ List.mem_cons_self, hx⟩
  · exact ⟨n, List.mem_append_right _ List.mem_cons_self, hy⟩
  · exact ⟨n', List.mem_append_right _ (List.mem_cons_of_mem _ hn'), PartOf.refl _⟩

variable [Machine]

/-- **The lower end**: afterwards a range starts there. -/
theorem splitFirst_spec (aMax : Nat) (H : s.Holds (l₁ ++ n :: l₂)) (h : Follow 0 e (l₁ ++ n :: l₂)) (he : e ≤ wordMod)
    (ha : n.elem.aMin ≤ aMin ∧ aMin ≤ n.elem.aMax) (hv : n.elem.vars.isSome) :
    ∃ s' first l₁', splitFirst s n aMin = .ok (s', first) ∧ s'.Holds (l₁' ++ first :: l₂) ∧ Follow 0 aMin l₁' ∧
      Follow aMin e (first :: l₂) ∧ Parts aMin aMax (l₁ ++ n :: l₂) (l₁' ++ first :: l₂) := by
  obtain ⟨h₁, hn, h₂⟩ := follow_split h
  by_cases hlt : n.elem.aMin < aMin
  · have hsub : subW aMin 1 = aMin - 1 := subW_of_le (by have := Tiled.le h₂; omega) (by omega)
    obtain ⟨vars, hvars⟩ := Option.isSome_iff_exists.mp hv
    have H' := H.edit fun r => { r with aMax := aMin - 1 }
    rw [List.append_cons] at H'
    obtain ⟨s', hrun, hs'⟩ := H'.insert (r := ⟨aMin, n.elem.aMax, some vars⟩)
      (fun m hm => by
        rcases List.mem_append.mp hm with hm | hm
        · exact Follow.gt h₁ H' ha.1 m hm
        · obtain rfl := List.mem_singleton.mp hm
          exact way_gt H' (Nat.sub_lt (by omega) Nat.one_pos) (Nat.le_sub_one_of_lt hlt))
      (Follow.lt h₂ H' (Nat.lt_succ_of_le ha.2))
    refine ⟨s', _, _, ?_, hs', ?_, ⟨rfl, Nat.lt_succ_of_le ha.2, h₂⟩, ?_⟩
    · rw [splitFirst, if_pos hlt]
      simp only [hsub, assertThat_of (Nat.le_sub_one_of_lt hlt), assertThat_of ha.2, ok_bind, hvars]
      exact hrun
    · refine tiled_append.mpr ⟨_, h₁, rfl, ?_, ?_⟩
      · dsimp only
        omega
      · dsimp only [tiled_nil]
        exact Nat.sub_add_cancel (by omega)
    · rw [← List.append_cons]
      exact Parts.split ⟨rfl, Nat.le_refl _, (Nat.sub_le _ _).trans ha.2, .inl rfl⟩
        ⟨hvars.symm, ha.1, Nat.le_refl _, .inr (.inl rfl)⟩
  · have heq : n.elem.aMin = aMin := by omega
    refine ⟨s, n, l₁, ?_, H, heq ▸ h₁, ⟨heq, Nat.lt_succ_of_le ha.2, h₂⟩, Parts.refl _⟩
    rw [splitFirst, if_neg hlt]
    rfl

/-- **The upper end**: afterwards a range ends there. -/
theorem splitLast_spec (aMin : Nat) (H : s.Holds (l₁ ++ n :: l₂)) (h : Follow 0 e (l₁ ++ n :: l₂)) (he : e ≤ wordMod)
    (ha : n.elem.aMin ≤ aMax ∧ aMax ≤ n.elem.aMax) (hv : n.elem.vars.isSome) :
    ∃ s' last l₂', splitLast s n aMax = .ok (s', last) ∧ s'.Holds (l₁ ++ last :: l₂') ∧
      last.elem.aMin = n.elem.aMin ∧ last.elem.aMax = aMax ∧ Follow (aMax + 1) e l₂' ∧
      Parts aMin aMax (l₁ ++ n :: l₂) (l₁ ++ last :: l₂') := by
  obtain ⟨h₁, hn, h₂⟩ := follow_split h
  by_cases hlt : aMax < n.elem.aMax
  · have hadd : addW aMax 1 = aMax + 1 := addW_of_lt (by have := Tiled.le h₂; omega)
    obtain ⟨vars, hvars⟩ := Option.isSome_iff_exists.mp hv
    have H' := H.edit fun r => { r with aMin := aMax + 1 }
    obtain ⟨s', hrun, hs'⟩ := H'.insert (r := ⟨n.elem.aMin, aMax, some vars⟩)
      (Follow.gt h₁ H' (Nat.le_refl _))
      (fun m hm => by
        rcases List.mem_cons.mp hm with rfl | hm
        · exact way_lt H' (Nat.lt_succ_of_le ha.1)
        · exact Follow.lt h₂ H' (Nat.lt_succ_of_le hn) m hm)
    refine ⟨s', _, _, ?_, hs', rfl, rfl, ⟨rfl, Nat.succ_lt_succ hlt, h₂⟩, ?_⟩
    · rw [splitLast, if_pos hlt]
      simp only [hadd, assertThat_of (Nat.succ_le_of_lt hlt), assertThat_of ha.1, ok_bind, hvars]
      exact hrun
    · exact Parts.split ⟨hvars.symm, Nat.le_refl _, ha.2, .inl rfl⟩
        ⟨rfl, Nat.le_succ_of_le ha.1, Nat.le_refl _, .inr (.inr rfl)⟩
  · have heq : n.elem.aMax = aMax := by omega
    refine ⟨s, n, l₂, ?_, H, rfl, heq, heq ▸ h₂, Parts.refl _⟩
    rw [splitLast, if_neg hlt]
    rfl

end Splitting

/-! ## Adding -/

/-- The node with one more variable. -/
def pushNode {V : Type} (var : V) (n : RangeNode V) : RangeNode V := ⟨n.addr, n.elem.push var⟩

section Adding

variable {V : Type} {s : Scope V} {l l₁ l₂ : List (RangeNode V)} {n : RangeNode V} {p e aMin aMax : Nat}

/-- Variables do not move the bounds. -/
theorem follow_map_push {var : V} : Follow p e (l.map (pushNode var)) ↔ Follow p e l := by
  induction l generalizing p with
  | nil => rfl
  | cons n l ih => exact and_congr_right fun _ => and_congr_right fun _ => ih

/-- What the iteration visits. -/
theorem from_spec (H : s.Holds (l₁ ++ l₂)) (h₁ : Follow 0 aMin l₁) (h₂ : Follow aMin e l₂) : s.iterAt aMin = l₂ := by
  rw [Scope.iterAt, H.list, fromCut, List.filter_append]
  have hnil : l₁.filter (fun n => wayOSet DiAddrRange.aMin id s.set.cmp aMin n != .gt) = [] :=
    List.filter_eq_nil_iff.mpr fun n hn => by simp [Follow.gt h₁ H (Nat.le_refl _) n hn]
  rw [hnil, List.nil_append]
  refine List.filter_eq_self.mpr fun n hn => ?_
  have hb := h₂.mem_bounds hn
  rcases Nat.eq_or_lt_of_le hb.1 with heq | hlt
  · simp [way_eq H ⟨heq.ge, by omega⟩]
  · simp [way_lt H hlt]

variable [Machine]

theorem checkFollows_spec {prev : Option (RangeNode V)} (hp : n.elem.aMin = p) (hlt : p < wordMod)
    (hfirst : prev = none → p = aMin) (hnext : ∀ q, prev = some q → q.elem.aMax + 1 = p) :
    checkFollows aMin prev n = .ok () := by
  cases prev with
  | none => exact assertThat_of (hp.trans (hfirst rfl))
  | some q =>
    have hq := hnext q rfl
    refine assertThat_of ?_
    rw [addW_of_lt (hq.trans_lt hlt), hq, hp]

/-- **The loop** adds the variable to the ranges up to the upper end. -/
theorem addLoop_spec (var : V) {rest r done : List (RangeNode V)} (prev : Option (RangeNode V)) (iters : Nat)
    (H : s.Holds (done ++ rest ++ r)) (h : Follow p (aMax + 1) rest) (hmax : aMax < wordMod)
    (hvars : ∀ n ∈ rest, n.elem.vars.isSome) (hr : ∀ n ∈ r, aMax < n.elem.aMin) (hfirst : prev = none → p = aMin)
    (hnext : ∀ q, prev = some q → q.elem.aMax + 1 = p) :
    ∃ s', addLoop aMin aMax var (rest ++ r) prev iters s = .ok (s', rest.getLast?.or prev, iters + rest.length) ∧
      s'.Holds (done ++ rest.map (pushNode var) ++ r) := by
  induction rest generalizing p prev iters s done with
  | nil =>
    refine ⟨s, ?_, H⟩
    rw [List.nil_append]
    match r with
    | [] => rfl
    | n :: r =>
      rw [addLoop, if_pos (hr n List.mem_cons_self)]
      rfl
  | cons n rest ih =>
    obtain ⟨hn, hlt, hrest⟩ := h
    dsimp only at hn hlt hrest
    have hle := Tiled.le hrest
    obtain ⟨vars, hv⟩ := Option.isSome_iff_exists.mp (hvars n List.mem_cons_self)
    rw [List.append_assoc, List.cons_append] at H
    have H' := H.edit (DiAddrRange.push var)
    rw [List.append_cons, ← List.append_assoc] at H'
    obtain ⟨s', hrun, hs'⟩ := ih (some n) (iters + 1) H' hrest
      (fun m hm => hvars m (List.mem_cons_of_mem _ hm)) nofun fun q hq => by rw [Option.some.inj hq]
    refine ⟨s', ?_, ?_⟩
    · rw [List.cons_append, addLoop, if_neg (by omega), checkFollows_spec hn (by omega) hfirst hnext, ok_bind, hv]
      refine hrun.trans ?_
      rw [List.getLast?_cons, List.length_cons, Nat.add_assoc, Nat.add_comm 1]
      cases rest.getLast? <;> rfl
    · rw [List.map_cons]
      rw [← List.append_cons] at hs'
      exact hs'

/-- **Both ends** fall on boundaries afterwards. -/
theorem splitEnds_spec (H : s.Holds (l₁ ++ n :: l₂)) (h : Follow 0 wordMod (l₁ ++ n :: l₂))
    (hn : n.elem.aMin ≤ aMin ∧ aMin ≤ n.elem.aMax) (hle : aMin ≤ aMax) (hmax : aMax < wordMod)
    (hvars : ∀ m ∈ l₁ ++ n :: l₂, m.elem.vars.isSome) :
    ∃ s' b m a, splitEnds s n aMin aMax = .ok s' ∧ s'.Holds (b ++ m ++ a) ∧ Follow 0 aMin b ∧
      Follow aMin (aMax + 1) m ∧ Follow (aMax + 1) wordMod a ∧ Parts aMin aMax (l₁ ++ n :: l₂) (b ++ m ++ a) := by
  have hv := hvars n (List.mem_append_right _ List.mem_cons_self)
  obtain ⟨s₁, first, b, hrun₁, H₁, hbefore, hfrom, hparts₁⟩ := splitFirst_spec aMax H h (Nat.le_refl _) hn hv
  obtain ⟨m, last, r, hsplit, hlast⟩ := exists_range hfrom hle hmax
  have hfirst := hfrom.1
  rw [hsplit] at H₁ hfrom hparts₁
  obtain ⟨hm, hlastLe, -⟩ := follow_split hfrom
  have hall : Follow 0 wordMod (b ++ m ++ last :: r) := by
    rw [List.append_assoc]
    exact tiled_append.mpr ⟨_, hbefore, hfrom⟩
  rw [← List.append_assoc] at H₁ hparts₁
  obtain ⟨n₀, hn₀, hpart⟩ := hparts₁ last (List.mem_append_right _ List.mem_cons_self)
  have hv' : last.elem.vars.isSome := hpart.vars ▸ hvars n₀ hn₀
  obtain ⟨s₂, last', a, hrun₂, H₂, hlo, hhi, hafter, hparts₂⟩ := splitLast_spec aMin H₁ hall (Nat.le_refl _) hlast hv'
  rw [List.append_cons (b ++ m) last', List.append_assoc b m [last']] at H₂ hparts₂
  refine ⟨s₂, b, m ++ [last'], a, ?_, H₂, hbefore, ?_, hafter, hparts₁.trans hparts₂⟩
  · rw [splitEnds, hrun₁, ok_bind]
    simp only [assertThat_of hfirst, lookup_spec H₁ hall hlast, ok_bind]
    rw [derefSome, pure_bind, assertThat_of hlastLe, ok_bind, assertThat_of hlast, ok_bind, hrun₂, ok_bind]
    simp only [hhi]
    rfl
  · refine tiled_append.mpr ⟨_, hm, hlo, ?_, ?_⟩
    · dsimp only
      omega
    · exact congrArg Nat.succ hhi

omit [Machine] in
/-- The first and the last of the ranges between the ends. -/
theorem exists_ends {m : List (RangeNode V)} (hm : Follow aMin (aMax + 1) m) (hle : aMin ≤ aMax)
    (haddrs : (m.map ONode.addr).Nodup) :
    ∃ (first : RangeNode V) (rest init : List (RangeNode V)) (last : RangeNode V), m = first :: rest ∧
      m = init ++ [last] ∧ first.elem.aMin = aMin ∧ last.elem.aMax = aMax ∧
      (first.addr = last.addr ↔ m.length = 1) ∧ (first.addr ≠ last.addr → first.elem.aMax < last.elem.aMin) := by
  match m, List.eq_nil_or_concat m with
  | [], _ =>
    have : aMin = aMax + 1 := hm
    omega
  | [first], _ =>
    exact ⟨first, [], [], first, rfl, rfl, hm.1, Nat.succ.inj hm.2.2, iff_of_true rfl rfl, fun h => absurd rfl h⟩
  | first :: second :: rest, .inr ⟨init, last, hlast⟩ =>
    rw [List.concat_eq_append] at hlast
    have hmem : last ∈ second :: rest := by
      rw [show second :: rest = (first :: second :: rest).tail from rfl, hlast]
      match init with
      | [] => exact absurd hlast (by simp)
      | x :: init => exact List.mem_append_right _ (List.mem_singleton_self _)
    have hne : first.addr ≠ last.addr := fun heq => by
      rw [List.map_cons, List.nodup_cons] at haddrs
      exact haddrs.1 (heq ▸ List.mem_map_of_mem hmem)
    have hmax : last.elem.aMax + 1 = aMax + 1 := by
      rw [hlast] at hm
      obtain ⟨q, -, -, -, h⟩ := tiled_append.mp hm
      exact h
    exact ⟨first, second :: rest, init, last, rfl, hlast, hm.1, Nat.succ.inj hmax, iff_of_false hne (by simp),
      fun _ => (List.pairwise_cons.mp hm.pairwise).1 last hmem⟩

/-- **Between the ends** every range is visited. -/
theorem addBetween_spec (var : V) {b m a : List (RangeNode V)} (H : s.Holds (b ++ m ++ a)) (hb : Follow 0 aMin b)
    (hm : Follow aMin (aMax + 1) m) (ha : Follow (aMax + 1) wordMod a) (hle : aMin ≤ aMax)
    (hvars : ∀ n ∈ m, n.elem.vars.isSome) :
    ∃ s', addBetween s aMin aMax var = .ok s' ∧ s'.Holds (b ++ m.map (pushNode var) ++ a) := by
  have hmax : aMax < wordMod := Tiled.le ha
  have hfrom : Follow aMin wordMod (m ++ a) := tiled_append.mpr ⟨_, hm, ha⟩
  have hall : Follow 0 wordMod (b ++ m ++ a) := by
    rw [List.append_assoc]
    exact tiled_append.mpr ⟨_, hb, hfrom⟩
  have haddrs : (m.map ONode.addr).Nodup := by
    have h := H.addrs
    rw [List.map_append, List.map_append] at h
    exact (h.of_append_left).of_append_right
  obtain ⟨first, rest, init, last, hfirst, hlast, hlo, hhi, hsame, hbelow⟩ := exists_ends hm hle haddrs
  have hle₁ := (follow_split (hfirst ▸ hm : Follow aMin (aMax + 1) ([] ++ first :: rest))).2.1
  have hle₂ := (follow_split (hlast ▸ hm)).2.1
  have hxxFirst : s.lookup aMin = some first := by
    rw [hfirst, List.append_assoc] at H hall
    exact lookup_spec H hall ⟨hlo.le, hlo ▸ hle₁⟩
  have hxxLast : s.lookup aMax = some last := by
    rw [hlast, ← List.append_assoc, List.append_assoc (b ++ init)] at H hall
    exact lookup_spec H hall ⟨hhi ▸ hle₂, hhi.ge⟩
  have hiter : s.iterAt aMin = m ++ a := by
    rw [List.append_assoc] at H
    exact from_spec H hb hfrom
  obtain ⟨s', hrun, hs'⟩ := addLoop_spec var none 0 H hm hmax hvars
    (fun n hn => (ha.mem_bounds hn).1) (fun _ => rfl) nofun
  have hgetLast : m.getLast? = some last := by rw [hlast, List.getLast?_concat]
  rw [hgetLast, Nat.zero_add] at hrun
  have hpos : m.length ≥ 1 := by
    rw [hfirst]
    exact Nat.succ_le_succ (Nat.zero_le _)
  refine ⟨s', ?_, hs'⟩
  rw [addBetween, hxxFirst, hxxLast, assertSome_some, ok_bind, assertSome_some, ok_bind, assertThat_of hlo, ok_bind,
    assertThat_of hhi, ok_bind, assertThat_of hbelow, ok_bind, hiter, hrun, ok_bind]
  dsimp only [Option.or]
  rw [assertThat_of hpos, ok_bind, assertThat_of hsame.mpr, ok_bind, assertThat_of hsame.mp, ok_bind, assertSome_some,
    ok_bind, assertThat_of hhi, ok_bind, assertThat_of rfl, ok_bind]
  rfl

/-- What adding a variable leaves: the ranges between the two ends have it, all are parts of the old ones. -/
structure VarAdded (l : List (RangeNode V)) (aMin aMax : Nat) (var : V) (s' : Scope V)
    (l₁ m l₂ : List (RangeNode V)) : Prop where
  holds : s'.Holds (l₁ ++ m.map (pushNode var) ++ l₂)
  before : Follow 0 aMin l₁
  between : Follow aMin (aMax + 1) m
  after : Follow (aMax + 1) wordMod l₂
  parts : Parts aMin aMax l (l₁ ++ m ++ l₂)

/-- **`add_var_to_arange`** passes its assertions. -/
theorem addVarToArange_added (var : V) (H : s.Holds l) (h : Follow 0 wordMod l) (hle : aMin ≤ aMax)
    (hmax : aMax < wordMod) (hvars : ∀ n ∈ l, n.elem.vars.isSome) :
    ∃ s' b m a, addVarToArange s aMin aMax var = .ok s' ∧ VarAdded l aMin aMax var s' b m a := by
  obtain ⟨l₁, first, l₂, rfl, hfirst⟩ := exists_range h (Nat.zero_le aMin) (hle.trans_lt hmax)
  obtain ⟨hb, hne, ha⟩ := follow_split h
  have hrun : addVarToArange s aMin aMax var = if first.elem.aMin = aMin ∧ first.elem.aMax = aMax then do
        let _ ← assertSome first.elem.vars
        return s.edit first.addr (DiAddrRange.push var)
      else splitEnds s first aMin aMax >>= fun s => addBetween s aMin aMax var := by
    rw [addVarToArange, assertThat_of hle, ok_bind, lookup_spec H h hfirst, assertSome_some, ok_bind,
      assertThat_of hne, ok_bind, assertThat_of hfirst, ok_bind]
  by_cases hfast : first.elem.aMin = aMin ∧ first.elem.aMax = aMax
  · rw [if_pos hfast] at hrun
    obtain ⟨rfl, rfl⟩ := hfast
    obtain ⟨vars, hv⟩ := Option.isSome_iff_exists.mp (hvars first (List.mem_append_right _ List.mem_cons_self))
    refine ⟨s.edit first.addr (DiAddrRange.push var), l₁, [first], l₂, ?_, ?_, hb,
      ⟨rfl, Nat.lt_succ_of_le hne, rfl⟩, ha, ?_⟩
    · rw [hrun, hv]
      rfl
    · rw [List.map_singleton, List.append_assoc]
      exact H.edit _
    · rw [List.append_assoc]
      exact Parts.refl _
  · rw [if_neg hfast] at hrun
    obtain ⟨s₁, b, m, a, hsplit, H₁, hb, hm, ha, hparts⟩ := splitEnds_spec H h hfirst hle hmax hvars
    have hvars' : ∀ n ∈ m, n.elem.vars.isSome := fun n hn => by
      obtain ⟨n₀, hn₀, hpart⟩ := hparts n (List.mem_append_left _ (List.mem_append_right _ hn))
      exact hpart.vars ▸ hvars n₀ hn₀
    obtain ⟨s', hadd, hs'⟩ := addBetween_spec var H₁ hb hm ha hle hvars'
    refine ⟨s', b, m, a, ?_, hs', hb, hm, ha, hparts⟩
    rw [hrun, hsplit, ok_bind, hadd]

end Adding

/-! ## Runs -/

/-- A variable and the range that it is added for. -/
structure VarRange (V : Type) where
  aMin : Nat
  aMax : Nat
  var : V

/-- The range is the whole address space. -/
def VarRange.IsAll [Machine] {V : Type} (c : VarRange V) : Prop := c.aMin = 0 ∧ c.aMax = wordMod - 1

/-- A call of `add_var_to_arange`. -/
def addVar [Machine] {V : Type} (s : Scope V) (c : VarRange V) : Result (Scope V) :=
  addVarToArange s c.aMin c.aMax c.var

/-- A range after some additions: it has the variables added for ranges that it is part of, it has no
address in common with the other ones, and it starts where one of them does or after one. -/
structure RangeOk {V : Type} (added : List (VarRange V)) (r : DiAddrRange V) : Prop where
  vars : r.vars = some ((added.filter fun c => decide (c.aMin ≤ r.aMin ∧ r.aMax ≤ c.aMax)).map VarRange.var)
  whole : ∀ c ∈ added, (c.aMin ≤ r.aMin ∧ r.aMax ≤ c.aMax) ∨ c.aMax < r.aMin ∨ r.aMax < c.aMin
  bound : r.aMin = 0 ∨ ∃ c ∈ added, r.aMin = c.aMin ∨ r.aMin = c.aMax + 1

/-- A scope after some additions. -/
structure ScopeOk [Machine] {V : Type} (added : List (VarRange V)) (s : Scope V) : Prop where
  holds : s.Holds s.nodes
  follow : Follow 0 wordMod s.nodes
  ranges : ∀ n ∈ s.nodes, RangeOk added n.elem

section Runs

variable {V : Type} {added calls : List (VarRange V)} {c : VarRange V} {r r' : DiAddrRange V}

/-- What a part of a range takes over from it. -/
theorem RangeOk.part (H : RangeOk added r) (hp : PartOf c.aMin c.aMax r r') (hne : r'.aMin ≤ r'.aMax) :
    r'.vars = some ((added.filter fun c => decide (c.aMin ≤ r'.aMin ∧ r'.aMax ≤ c.aMax)).map VarRange.var) ∧
      ∀ c ∈ added, (c.aMin ≤ r'.aMin ∧ r'.aMax ≤ c.aMax) ∨ c.aMax < r'.aMin ∨ r'.aMax < c.aMin := by
  have hlo := hp.lo
  have hhi := hp.hi
  refine ⟨?_, fun d hd => ?_⟩
  · rw [hp.vars, H.vars]
    congr 2
    refine List.filter_congr fun d hd => ?_
    have hd := H.whole d hd
    rw [decide_eq_decide]
    omega
  · have hd := H.whole d hd
    omega

theorem PartOf.bound_concat (hp : PartOf c.aMin c.aMax r r') (H : RangeOk added r) :
    r'.aMin = 0 ∨ ∃ d ∈ added ++ [c], r'.aMin = d.aMin ∨ r'.aMin = d.aMax + 1 := by
  rcases hp.bound with hb | hb
  · rcases H.bound with h | ⟨d, hd, h⟩
    · exact .inl (hb.trans h)
    · exact .inr ⟨d, List.mem_append_left _ hd, hb ▸ h⟩
  · exact .inr ⟨c, List.mem_append_right _ (List.mem_singleton_self c), hb⟩

/-- A part of a range that the variable is added for. -/
theorem RangeOk.push (H : RangeOk added r) (hp : PartOf c.aMin c.aMax r r') (hne : r'.aMin ≤ r'.aMax)
    (hin : c.aMin ≤ r'.aMin ∧ r'.aMax ≤ c.aMax) : RangeOk (added ++ [c]) (r'.push c.var) := by
  obtain ⟨hvars, hwhole⟩ := H.part hp hne
  refine ⟨?_, fun d hd => ?_, hp.bound_concat H⟩
  · have hself : [c].filter (fun c => decide (c.aMin ≤ r'.aMin ∧ r'.aMax ≤ c.aMax)) = [c] :=
      List.filter_eq_self.mpr fun d hd => decide_eq_true (List.mem_singleton.mp hd ▸ hin)
    unfold DiAddrRange.push
    dsimp only
    rw [hvars, List.filter_append, hself, List.map_append]
    rfl
  · rcases List.mem_append.mp hd with hd | hd
    · exact hwhole d hd
    · obtain rfl := List.mem_singleton.mp hd
      exact .inl hin

/-- A part of a range that the variable is not added for. -/
theorem RangeOk.skip (H : RangeOk added r) (hp : PartOf c.aMin c.aMax r r') (hne : r'.aMin ≤ r'.aMax)
    (hout : c.aMax < r'.aMin ∨ r'.aMax < c.aMin) : RangeOk (added ++ [c]) r' := by
  obtain ⟨hvars, hwhole⟩ := H.part hp hne
  refine ⟨?_, fun d hd => ?_, hp.bound_concat H⟩
  · have hnot : ¬ (c.aMin ≤ r'.aMin ∧ r'.aMax ≤ c.aMax) := by omega
    rw [hvars, List.filter_append, List.filter_cons_of_neg (by simpa using hnot), List.filter_nil, List.append_nil]
  · rcases List.mem_append.mp hd with hd | hd
    · exact hwhole d hd
    · exact List.mem_singleton.mp hd ▸ .inr hout

variable [Machine] {s : Scope V}

/-- **A call** of `add_var_to_arange`. -/
theorem addVar_spec (H : ScopeOk added s) (hle : c.aMin ≤ c.aMax) (hmax : c.aMax < wordMod) :
    ∃ s', addVar s c = .ok s' ∧ ScopeOk (added ++ [c]) s' := by
  have hvars : ∀ n ∈ s.nodes, n.elem.vars.isSome := fun n hn => by
    rw [(H.ranges n hn).vars]
    rfl
  obtain ⟨s', b, m, a, hrun, hs', hb, hm, ha, hparts⟩ := addVarToArange_added c.var H.holds H.follow hle hmax hvars
  have hpart : ∀ n ∈ b ++ m ++ a, ∃ r, RangeOk added r ∧ PartOf c.aMin c.aMax r n.elem := fun n hn => by
    obtain ⟨n₀, hn₀, hp⟩ := hparts n hn
    exact ⟨n₀.elem, H.ranges n₀ hn₀, hp⟩
  refine ⟨s', hrun, hs'.list.symm ▸ hs', ?_, fun n hn => ?_⟩
  · rw [hs'.list]
    exact tiled_append.mpr ⟨_, tiled_append.mpr ⟨_, hb, follow_map_push.mpr hm⟩, ha⟩
  rw [hs'.list, List.mem_append, List.mem_append, List.mem_map] at hn
  rcases hn with (hn | ⟨n, hn, rfl⟩) | hn
  · have hbounds := hb.mem_bounds hn
    obtain ⟨r, hr, hp⟩ := hpart n (List.mem_append_left _ (List.mem_append_left _ hn))
    exact hr.skip hp (Nat.le_of_lt_succ hbounds.2.1) (.inr hbounds.2.2)
  · have hbounds := hm.mem_bounds hn
    obtain ⟨r, hr, hp⟩ := hpart n (List.mem_append_left _ (List.mem_append_right _ hn))
    exact hr.push hp (Nat.le_of_lt_succ hbounds.2.1) ⟨hbounds.1, Nat.le_of_succ_le_succ hbounds.2.2⟩
  · have hbounds := ha.mem_bounds hn
    obtain ⟨r, hr, hp⟩ := hpart n (List.mem_append_right _ hn)
    exact hr.skip hp (Nat.le_of_lt_succ hbounds.2.1) (.inl hbounds.1)

/-- **Calls** of `add_var_to_arange`. -/
theorem addVars_spec (H : ScopeOk added s) (h : ∀ c ∈ calls, c.aMin ≤ c.aMax ∧ c.aMax < wordMod) :
    ∃ s', runSteps addVar s calls = .ok s' ∧ ScopeOk (added ++ calls) s' := by
  induction calls generalizing added s with
  | nil => exact ⟨s, rfl, (List.append_nil added).symm ▸ H⟩
  | cons c calls ih =>
    obtain ⟨hle, hmax⟩ := h c List.mem_cons_self
    obtain ⟨s₁, hrun₁, H₁⟩ := addVar_spec H hle hmax
    obtain ⟨s', hrun, H'⟩ := ih H₁ fun d hd => h d (List.mem_cons_of_mem _ hd)
    exact ⟨s', runSteps_cons.mpr ⟨s₁, hrun₁, hrun⟩, List.append_cons added c calls ▸ H'⟩

theorem newScope_spec : ∃ s, newScope V = .ok s ∧ ScopeOk [] s := by
  have hpos := wordMod_pos
  have hnil : Scope.Holds (V := V) ⟨osetCreate (some cmpForDiAddrRangeRange), 0⟩ ([] ++ []) :=
    ⟨rfl, trivial, rfl, rfl, List.nodup_nil, List.forall_mem_nil _⟩
  obtain ⟨s, hrun, hs⟩ := hnil.insert (r := ⟨0, wordMod - 1, some []⟩) (List.forall_mem_nil _) (List.forall_mem_nil _)
  refine ⟨s, ?_, hs.list.symm ▸ hs, ?_, fun n hn => ?_⟩
  · rw [newScope, hrun]
    rfl
  · rw [hs.list]
    refine ⟨rfl, Nat.succ_pos _, ?_⟩
    exact Nat.sub_add_cancel hpos
  · rw [hs.list, List.nil_append, List.mem_singleton] at hn
    rw [hn]
    exact ⟨rfl, List.forall_mem_nil _, .inl rfl⟩

/-! ## The final checks -/

theorem canonicaliseLoop_spec {l : List (RangeNode V)} (prev : Option (RangeNode V)) {p k : Nat}
    (h : Follow p wordMod l) (hvars : ∀ n ∈ l, n.elem.vars.isSome) (hfirst : prev = none → p = 0)
    (hnext : ∀ q, prev = some q → q.elem.aMax + 1 = p) : canonicaliseLoop l prev k = .ok (k + l.length) := by
  induction l generalizing p prev k with
  | nil =>
    have hp : p = wordMod := h
    cases prev with
    | none => exact absurd (hp.symm.trans (hfirst rfl)) wordMod_pos.ne'
    | some q =>
      have hq := hnext q rfl
      rw [canonicaliseLoop, assertSome_some, ok_bind, assertThat_of (by omega), ok_bind]
      rfl
  | cons n l ih =>
    obtain ⟨hn, hlt, hrest⟩ := h
    dsimp only at hn hlt hrest
    have hle := Tiled.le hrest
    obtain ⟨vars, hv⟩ := Option.isSome_iff_exists.mp (hvars n List.mem_cons_self)
    rw [canonicaliseLoop, assertThat_of (by omega), ok_bind, hv, assertSome_some, ok_bind,
      checkFollows_spec hn (by omega) hfirst hnext, ok_bind,
      ih (some n) hrest (fun m hm => hvars m (List.mem_cons_of_mem _ hm)) nofun fun q hq => by
        rw [Option.some.inj hq]]
    rw [List.length_cons, Nat.add_assoc, Nat.add_comm 1]

theorem checkSingle_spec {n : RangeNode V} (H : s.Holds [n]) (h : Follow 0 wordMod [n]) : checkSingle s = .ok n := by
  have hmin : n.elem.aMin = 0 := h.1
  have hmax : n.elem.aMax = wordMod - 1 := Nat.eq_sub_of_add_eq h.2.2
  have H' : s.Holds ([] ++ n :: []) := H
  have hlookup : s.lookup 0 = some n := lookup_spec H' h ⟨hmin.le, Nat.zero_le _⟩
  have hcount : s.set.nElems = 1 := H.count
  rw [checkSingle, assertThat_of hcount, ok_bind, hlookup, assertSome_some, ok_bind, assertThat_of hmin, ok_bind,
    assertThat_of hmax, ok_bind]
  rfl

/-- The range at address 0 is the only one if nothing but the whole address space has been added. -/
theorem canonicaliseScope_global (H : ScopeOk added s) (h : ∀ c ∈ added, c.IsAll) :
    canonicaliseScope 0 s = .ok () := by
  have hpos := wordMod_pos
  have hzero : ∀ n ∈ s.nodes, n.elem.aMin = 0 := fun n hn => by
    have hbounds := H.follow.mem_bounds hn
    rcases (H.ranges n hn).bound with hb | ⟨c, hc, hb⟩
    · exact hb
    · obtain ⟨hmin, hmax⟩ := h c hc
      omega
  obtain ⟨l, hl⟩ : ∃ l, s.nodes = l := ⟨_, rfl⟩
  have hfollow := H.follow
  have hholds := H.holds
  rw [hl] at hzero hfollow hholds
  match l with
  | [] => exact absurd hfollow hpos.ne
  | [n] =>
    rw [canonicaliseScope, if_pos rfl, checkSingle_spec hholds hfollow]
    rfl
  | n :: n' :: l =>
    have hnext : n'.elem.aMin = n.elem.aMax + 1 := hfollow.2.2.1
    have hzero' := hzero n' (List.mem_cons_of_mem _ List.mem_cons_self)
    omega

/-- A local scope that the whole address space has not been added to. -/
theorem canonicaliseScope_local (H : ScopeOk added s) (hadded : ∀ c ∈ added, c.aMin ≤ c.aMax ∧ c.aMax < wordMod)
    (h : ∀ c ∈ added, ¬ c.IsAll) {i : Nat} (hi : i ≠ 0) : canonicaliseScope i s = .ok () := by
  have hpos := wordMod_pos
  have hvars : ∀ n ∈ s.nodes, n.elem.vars.isSome := fun n hn => by
    rw [(H.ranges n hn).vars]
    rfl
  rw [canonicaliseScope, if_neg hi, canonicaliseLoop_spec none H.follow hvars (fun _ => rfl) nofun, ok_bind,
    Nat.zero_add]
  obtain ⟨l, hl⟩ : ∃ l, s.nodes = l := ⟨_, rfl⟩
  have hfollow := H.follow
  have hholds := H.holds
  have hranges := H.ranges
  rw [hl] at hfollow hholds hranges ⊢
  match l with
  | [] => exact absurd hfollow hpos.ne
  | [n] =>
    have hmin : n.elem.aMin = 0 := hfollow.1
    have hmax : n.elem.aMax = wordMod - 1 := Nat.eq_sub_of_add_eq hfollow.2.2
    have hn := hranges n (List.mem_singleton_self n)
    -- what has been added would be the whole address space
    have hnil : added = [] := List.eq_nil_iff_forall_not_mem.mpr fun c hc => by
      have hc' := hadded c hc
      rcases hn.whole c hc with ⟨hlo, hhi⟩ | hout | hout
      · exact h c hc ⟨by omega, by omega⟩
      · omega
      · omega
    have hempty : n.elem.vars = some [] := by
      rw [hn.vars, hnil]
      rfl
    rw [List.length_singleton, assertThat_of Nat.one_pos, ok_bind, if_pos rfl, checkSingle_spec hholds hfollow,
      ok_bind, hempty, assertSome_some, ok_bind]
    exact assertThat_of rfl
  | n :: n' :: l =>
    rw [assertThat_of (by simp), ok_bind, if_neg (by simp)]
    rfl

end Runs

/-- Two variables whose ranges overlap, and one at the first and at the last address. -/
def overlapping : List (VarRange Char) := [⟨16, 31, 'x'⟩, ⟨24, 40, 'y'⟩, ⟨0, 0, 'z'⟩, ⟨30, 2 ^ 32 - 1, 'w'⟩]

end Valgrind.Debuginfo
