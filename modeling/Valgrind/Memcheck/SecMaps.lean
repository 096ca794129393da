import Valgrind.Basics.Machine
import Valgrind.Memcheck.VaBits

/-!
# Secondary maps and where they are installed (`mc_main.c`)

The address space is divided into chunks of 64 KB, and each chunk has a secondary map. Low
chunks find theirs in the primary map, high ones in the auxiliary map: an ordered set
(`auxmap_L2`) with a self-organising list of popular entries in front of it
(`auxmap_L1`). Three secondary maps are distinguished: they stand for chunks all of whose
bytes are in the same state, are shared, and are never written to. Before a chunk is
written to for the first time, it is given a copy of its own.

A secondary map is known by its address. The distinguished ones are 0, 1 and 2; all others
come from `VG_(am_shadow_alloc)`.

`SecMaps.Inv` is the invariant: no secondary map is installed at two places, so writing to
one changes the state of one chunk (`vabits2At_writeSm`).
-/

namespace Valgrind

namespace Memcheck

section

variable [Machine]

open Machine

/-! ## State -/

/-- `N_PRIMARY_MAP`. -/
def nPrimaryMap : Nat := if wordB = 4 then 65536 else 524288

/-- `MAX_PRIMARY_ADDRESS`. -/
def maxPrimaryAddress : Nat := 65536 * nPrimaryMap - 1

/-- `SM_DIST_NOACCESS`. -/
abbrev smDistNoaccess : Nat := 0
/-- `SM_DIST_UNDEFINED`. -/
abbrev smDistUndefined : Nat := 1
/-- `SM_DIST_DEFINED`. -/
abbrev smDistDefined : Nat := 2

/-- `VG_(am_shadow_alloc)`: given the secondary maps that are allocated, the address of a new
one, unless there is no memory left. -/
structure ShadowAlloc where
  alloc : List Nat → Option Nat
  fresh : ∀ mapped sm, alloc mapped = some sm → sm ∉ mapped ∧ smDistDefined < sm

/-- The secondary maps: what they contain, and where they are installed. -/
structure SecMaps where
  /-- The contents of the secondary map at each address. -/
  contents : Nat → SecMap
  /-- The addresses of the secondary maps that are allocated. -/
  mapped : List Nat
  primaryMap : Nat → Nat
  /-- `auxmap_L1`: the base of an entry, and the node of `auxmap_L2` that it leads to. A node
  is known by its base. -/
  auxmapL1 : Nat → Nat × Option Nat
  /-- `auxmap_L2`: the secondary map of the node with each base. -/
  auxmapL2 : Nat → Option Nat
  nIssuedSMs : Int
  nDeissuedSMs : Int

/-- `is_distinguished_sm`. -/
def isDistinguishedSm (sm : Nat) : Bool := decide (sm ≤ smDistDefined)

/-- `update_SM_counts`, as far as issued and deissued maps are concerned. -/
def updateSMCounts (s : SecMaps) (oldSM newSM : Nat) : SecMaps :=
  { s with
    nDeissuedSMs := if isDistinguishedSm oldSM then s.nDeissuedSMs else s.nDeissuedSMs + 1
    nIssuedSMs := if isDistinguishedSm newSM then s.nIssuedSMs else s.nIssuedSMs + 1 }

/-- `copy_for_writing`. -/
def copyForWriting (al : ShadowAlloc) (s : SecMaps) (distSm : Nat) : Result (Nat × SecMaps) := do
  assertThat (isDistinguishedSm distSm = true)
  match al.alloc s.mapped with
  | none => throw .exit
  | some newSm =>
    let s := { s with
      contents := Function.update s.contents newSm (s.contents distSm)
      mapped := newSm :: s.mapped }
    pure (newSm, updateSMCounts s distSm newSm)

/-! ## The auxiliary map -/

/-- `N_AUXMAP_L1`. -/
abbrev nAuxmapL1 : Nat := 24

/-- `AUXMAP_L1_INSERT_IX`. -/
abbrev auxmapL1InsertIx : Nat := 12

/-- `insert_into_auxmap_L1_at`. -/
def insertIntoAuxmapL1At (s : SecMaps) (rank base : Nat) : SecMaps :=
  { s with
    auxmapL1 := fun i =>
      if i = rank then (base, some base)
      else if rank < i ∧ i < nAuxmapL1 then s.auxmapL1 (i - 1)
      else s.auxmapL1 i }

/-- Exchange the entries `i - 1` and `i` of `auxmap_L1`. -/
def promoteInAuxmapL1 (s : SecMaps) (i : Nat) : SecMaps :=
  { s with
    auxmapL1 := Function.update (Function.update s.auxmapL1 (i - 1) (s.auxmapL1 i)) i
      (s.auxmapL1 (i - 1)) }

/-- The chunk of an address: `start_of_this_sm`, `a & ~(Addr)0xFFFF`. -/
def startOfThisSm (a : Nat) : Nat := a / 65536 * 65536

/-- `maybe_find_in_auxmap`. The node is given by its base. -/
def maybeFindInAuxmap (s : SecMaps) (a : Nat) : Result (Option Nat × SecMaps) := do
  assertThat (maxPrimaryAddress < a)
  let a := startOfThisSm a
  if (s.auxmapL1 0).1 = a then pure ((s.auxmapL1 0).2, s)
  else if (s.auxmapL1 1).1 = a then
    let s := promoteInAuxmapL1 s 1
    pure ((s.auxmapL1 0).2, s)
  else match (List.range nAuxmapL1).find? fun i => (s.auxmapL1 i).1 = a with
    | some i =>
      if 0 < i then
        let s := promoteInAuxmapL1 s i
        pure ((s.auxmapL1 (i - 1)).2, s)
      else pure ((s.auxmapL1 i).2, s)
    | none =>
      if (s.auxmapL2 a).isSome then pure (some a, insertIntoAuxmapL1At s auxmapL1InsertIx a)
      else pure (none, s)

/-- `find_or_alloc_in_auxmap`. -/
def findOrAllocInAuxmap (s : SecMaps) (a : Nat) : Result (Nat × SecMaps) := do
  let (res, s) ← maybeFindInAuxmap s a
  match res with
  | some res => pure (res, s)
  | none =>
    let a := startOfThisSm a
    let s := { s with auxmapL2 := Function.update s.auxmapL2 a (some smDistNoaccess) }
    pure (a, insertIntoAuxmapL1At s auxmapL1InsertIx a)

/-! ## Access to secondary maps -/

/-- A `SecMap**`: an entry of the primary map, or a node of the auxiliary map. -/
inductive Place where
  | low (pmOff : Nat)
  | high (base : Nat)
  deriving DecidableEq

/-- `*sm_ptr`. -/
def readPlace (s : SecMaps) : Place → Nat
  | .low pmOff => s.primaryMap pmOff
  | .high base => (s.auxmapL2 base).getD smDistNoaccess

/-- `*sm_ptr = sm`. -/
def writePlace (s : SecMaps) (sm : Nat) : Place → SecMaps
  | .low pmOff => { s with primaryMap := Function.update s.primaryMap pmOff sm }
  | .high base => { s with auxmapL2 := Function.update s.auxmapL2 base (some sm) }

/-- `get_secmap_ptr`: `get_secmap_low_ptr` or `get_secmap_high_ptr`. -/
def getSecmapPtr (s : SecMaps) (a : Nat) : Result (Place × SecMaps) :=
  if a ≤ maxPrimaryAddress then pure (.low (a / 65536), s)
  else do
    let (am, s) ← findOrAllocInAuxmap s a
    pure (.high am, s)

/-- `get_secmap_for_reading`. -/
def getSecmapForReading (s : SecMaps) (a : Nat) : Result (Nat × SecMaps) := do
  let (p, s) ← getSecmapPtr s a
  pure (readPlace s p, s)

/-- `get_secmap_for_writing`. -/
def getSecmapForWriting (al : ShadowAlloc) (s : SecMaps) (a : Nat) : Result (Nat × SecMaps) := do
  let (p, s) ← getSecmapPtr s a
  if isDistinguishedSm (readPlace s p) then do
    let (sm, s) ← copyForWriting al s (readPlace s p)
    let s := writePlace s sm p
    pure (sm, s)
  else pure (readPlace s p, s)

/-- Store into the secondary map `sm`. -/
def writeSm (s : SecMaps) (sm : Nat) (contents : SecMap) : SecMaps :=
  { s with contents := Function.update s.contents sm contents }

/-- `set_vabits2`. -/
def setVabits2 (al : ShadowAlloc) (s : SecMaps) (a : Nat) (vabits2 : BitVec 2) : Result SecMaps := do
  let (sm, s) ← getSecmapForWriting al s a
  pure (writeSm s sm (insertVabits2 (s.contents sm) a vabits2))

/-- `get_vabits2`. -/
def getVabits2 (s : SecMaps) (a : Nat) : Result (BitVec 2 × SecMaps) := do
  let (sm, s) ← getSecmapForReading s a
  pure (vabits2In (s.contents sm) a, s)

/-- `get_vabits8_for_aligned_word32`. -/
def getVabits8ForAlignedWord32 (s : SecMaps) (a : Nat) : Result (BitVec 8 × SecMaps) := do
  let (sm, s) ← getSecmapForReading s a
  pure (s.contents sm (smOff a), s)

/-- `set_vabits8_for_aligned_word32`. -/
def setVabits8ForAlignedWord32 (al : ShadowAlloc) (s : SecMaps) (a : Nat) (vabits8 : BitVec 8) :
    Result SecMaps := do
  let (sm, s) ← getSecmapForWriting al s a
  pure (writeSm s sm (Function.update (s.contents sm) (smOff a) vabits8))

/-- `init_shadow_memory`, and the initial values of the counters. -/
def initSecMaps : SecMaps where
  contents sm _ :=
    if sm = smDistNoaccess then vaBits8Noaccess
    else if sm = smDistUndefined then vaBits8Undefined
    else vaBits8Defined
  mapped := []
  primaryMap _ := smDistNoaccess
  auxmapL1 _ := (0, none)
  auxmapL2 _ := none
  nIssuedSMs := 0
  nDeissuedSMs := 0

/-! ## The invariant -/

/-- The secondary map of the chunk `c`. A high chunk that the auxiliary map does not know yet
is inaccessible. -/
def installed (s : SecMaps) (c : Nat) : Nat :=
  if c < nPrimaryMap then s.primaryMap c else (s.auxmapL2 (c * 65536)).getD smDistNoaccess

/-- The state of the byte at the address `a`. -/
def vabits2At (s : SecMaps) (a : Nat) : BitVec 2 :=
  vabits2In (s.contents (installed s (a / 65536))) a

/-- How many chunks have a secondary map of their own. -/
def numInstalled (s : SecMaps) : Int :=
  ∑ c ∈ Finset.range (wordMod / 65536), if smDistDefined < installed s c then 1 else 0

/-- The invariant of the secondary maps. -/
structure SecMaps.Inv (s : SecMaps) : Prop where
  /-- The distinguished secondary maps have not changed. -/
  distinguished : ∀ sm ≤ smDistDefined, ∀ i, s.contents sm i = dup8 (BitVec.ofNat 2 sm)
  /-- The auxiliary map is about high chunks. -/
  keys : ∀ base, (s.auxmapL2 base).isSome →
    ∃ c, nPrimaryMap ≤ c ∧ c < wordMod / 65536 ∧ base = c * 65536
  /-- The entries of `auxmap_L1` lead to the nodes with their bases. -/
  l1 : ∀ i, (s.auxmapL1 i).1 ≠ 0 →
    (s.auxmapL1 i).2 = some (s.auxmapL1 i).1 ∧ (s.auxmapL2 (s.auxmapL1 i).1).isSome
  /-- Installed secondary maps are allocated. -/
  live : ∀ c < wordMod / 65536, smDistDefined < installed s c → installed s c ∈ s.mapped
  /-- No secondary map, the distinguished ones apart, is installed at two places. -/
  once : ∀ c < wordMod / 65536, ∀ c' < wordMod / 65536, smDistDefined < installed s c →
    installed s c = installed s c' → c = c'
  /-- The counters count them. -/
  count : numInstalled s = s.nIssuedSMs - s.nDeissuedSMs

variable {s s' : SecMaps} {a x c sm : Nat}

theorem wordMod_dvd : wordMod / 65536 * 65536 = wordMod := by
  rcases wordMod_cases with h | h <;> rw [h]

theorem nPrimaryMap_pos : 0 < nPrimaryMap := by
  unfold nPrimaryMap
  split <;> omega

theorem le_maxPrimaryAddress_iff : a ≤ maxPrimaryAddress ↔ a / 65536 < nPrimaryMap := by
  have := nPrimaryMap_pos
  unfold maxPrimaryAddress
  omega

theorem chunk_lt (ha : a < wordMod) : a / 65536 < wordMod / 65536 := by
  have := wordMod_dvd
  omega

/-- The place of the secondary map of an address. -/
def placeOf (a : Nat) : Place :=
  if a ≤ maxPrimaryAddress then .low (a / 65536) else .high (startOfThisSm a)

theorem readPlace_placeOf : readPlace s (placeOf a) = installed s (a / 65536) := by
  unfold placeOf installed startOfThisSm
  by_cases h : a ≤ maxPrimaryAddress
  · rw [if_pos h, if_pos (le_maxPrimaryAddress_iff.mp h)]
    rfl
  · rw [if_neg h, if_neg fun h' => h (le_maxPrimaryAddress_iff.mpr h')]
    rfl

theorem installed_writePlace :
    installed (writePlace s sm (placeOf a)) = Function.update (installed s) (a / 65536) sm := by
  funext c
  unfold placeOf
  by_cases h : a ≤ maxPrimaryAddress
  · have h' := le_maxPrimaryAddress_iff.mp h
    rw [if_pos h]
    by_cases hc : c = a / 65536
    · subst hc
      simp [writePlace, installed, h']
    · simp [writePlace, installed, Function.update_of_ne hc]
  · have h' : ¬ a / 65536 < nPrimaryMap := fun h' => h (le_maxPrimaryAddress_iff.mpr h')
    rw [if_neg h]
    by_cases hc : c = a / 65536
    · subst hc
      simp [writePlace, installed, h', startOfThisSm]
    · have hne : c * 65536 ≠ a / 65536 * 65536 := by omega
      simp [writePlace, installed, Function.update_of_ne hc, startOfThisSm,
        Function.update_of_ne hne]

/-- Only the lists of the auxiliary map have changed, not what they stand for. -/
structure Quiet (s s' : SecMaps) : Prop where
  inv : s'.Inv
  contents : s'.contents = s.contents
  installed : installed s' = installed s
  mapped : s'.mapped = s.mapped

theorem Quiet.vabits2At (h : Quiet s s') : vabits2At s' a = vabits2At s a := by
  rw [Memcheck.vabits2At, h.contents, h.installed]
  rfl

theorem Quiet.refl (h : s.Inv) : Quiet s s := ⟨h, rfl, rfl, rfl⟩

theorem Quiet.trans {s'' : SecMaps} (h : Quiet s s') (h' : Quiet s' s'') : Quiet s s'' :=
  ⟨h'.inv, h'.contents.trans h.contents, h'.installed.trans h.installed, h'.mapped.trans h.mapped⟩

theorem SecMaps.Inv.setL1 (h : s.Inv) {l1 : Nat → Nat × Option Nat}
    (hl1 : ∀ i, (l1 i).1 ≠ 0 → (l1 i).2 = some (l1 i).1 ∧ (s.auxmapL2 (l1 i).1).isSome) :
    Quiet s { s with auxmapL1 := l1 } :=
  ⟨⟨h.distinguished, h.keys, hl1, h.live, h.once, h.count⟩, rfl, rfl, rfl⟩

theorem SecMaps.Inv.promote (h : s.Inv) (i : Nat) : Quiet s (promoteInAuxmapL1 s i) := by
  refine h.setL1 fun j hj => ?_
  by_cases hi : j = i
  · subst hi
    rw [Function.update_self] at hj ⊢
    exact h.l1 _ hj
  · rw [Function.update_of_ne hi] at hj ⊢
    by_cases hi' : j = i - 1
    · subst hi'
      rw [Function.update_self] at hj ⊢
      exact h.l1 _ hj
    · rw [Function.update_of_ne hi'] at hj ⊢
      exact h.l1 _ hj

theorem SecMaps.Inv.insertL1 (h : s.Inv) (rank : Nat) {base : Nat} (hb : (s.auxmapL2 base).isSome) :
    Quiet s (insertIntoAuxmapL1At s rank base) := by
  refine h.setL1 fun j hj => ?_
  split at hj
  · rename_i hi
    rw [if_pos hi]
    exact ⟨rfl, hb⟩
  · rename_i hi
    rw [if_neg hi]
    split at hj
    · rename_i hi'
      rw [if_pos hi']
      exact h.l1 _ hj
    · rename_i hi'
      rw [if_neg hi']
      exact h.l1 _ hj

/-- A new node stands for what its absence stood for. -/
theorem SecMaps.Inv.allocNode (h : s.Inv) {base : Nat} (hnone : s.auxmapL2 base = none)
    (hkey : ∃ c, nPrimaryMap ≤ c ∧ c < wordMod / 65536 ∧ base = c * 65536) :
    Quiet s { s with auxmapL2 := Function.update s.auxmapL2 base (some smDistNoaccess) } := by
  have hsome : ∀ b, (Function.update s.auxmapL2 base (some smDistNoaccess) b).isSome ↔
      b = base ∨ (s.auxmapL2 b).isSome := by
    intro b
    by_cases hb : b = base
    · simp [hb]
    · simp [hb]
  have hinst : installed { s with
      auxmapL2 := Function.update s.auxmapL2 base (some smDistNoaccess) } = installed s := by
    funext c
    unfold installed
    by_cases hb : c * 65536 = base
    · simp only [hb, Function.update_self, hnone]
      rfl
    · simp only [Function.update_of_ne hb]
  refine ⟨⟨h.distinguished, fun b hb => ?_, fun i hi => ?_, ?_, ?_, ?_⟩, rfl, hinst, rfl⟩
  · rcases (hsome b).mp hb with rfl | hb
    · exact hkey
    · exact h.keys b hb
  · exact ⟨(h.l1 i hi).1, (hsome _).mpr (.inr (h.l1 i hi).2)⟩
  · rw [hinst]
    exact h.live
  · rw [hinst]
    exact h.once
  · rw [numInstalled, hinst]
    exact h.count

/-! ## Lookup -/

/-- The node with the base of a high address, if there is one. -/
theorem maybeFindInAuxmap_spec (h : s.Inv) (ha : maxPrimaryAddress < a) :
    ∃ s', maybeFindInAuxmap s a =
        .ok (if (s.auxmapL2 (startOfThisSm a)).isSome then some (startOfThisSm a) else none, s') ∧
      Quiet s s' ∧ s'.auxmapL2 = s.auxmapL2 := by
  have hne : startOfThisSm a ≠ 0 := by
    have hchunk : ¬ a / 65536 < nPrimaryMap := fun h => by
      have := le_maxPrimaryAddress_iff.mpr h
      omega
    have := nPrimaryMap_pos
    unfold startOfThisSm
    omega
  -- an entry with the right base leads to the right node
  have hhit : ∀ i, (s.auxmapL1 i).1 = startOfThisSm a →
      (s.auxmapL1 i).2 = if (s.auxmapL2 (startOfThisSm a)).isSome then some (startOfThisSm a) else none := by
    intro i hi
    obtain ⟨hent, hsome⟩ := h.l1 i (by rw [hi]; exact hne)
    rw [hi] at hent hsome
    rw [hent, if_pos hsome]
  unfold maybeFindInAuxmap
  rw [assertThat_of ha, ok_bind]
  dsimp only
  split
  · rename_i h0
    exact ⟨s, by rw [hhit 0 h0]; rfl, .refl h, rfl⟩
  split
  · rename_i h1
    refine ⟨promoteInAuxmapL1 s 1, ?_, h.promote 1, rfl⟩
    rw [← hhit 1 h1]
    rfl
  split
  · rename_i i hfind
    have hi : (s.auxmapL1 i).1 = startOfThisSm a := by simpa using List.find?_some hfind
    split
    · rename_i hpos
      refine ⟨promoteInAuxmapL1 s i, ?_, h.promote i, rfl⟩
      rw [← hhit i hi]
      have hpred : i - 1 ≠ i := by omega
      simp only [promoteInAuxmapL1, Function.update_of_ne hpred, Function.update_self]
      rfl
    · exact ⟨s, by rw [hhit i hi]; rfl, .refl h, rfl⟩
  · split
    · rename_i hsome
      exact ⟨_, rfl, h.insertL1 _ hsome, rfl⟩
    · exact ⟨s, rfl, .refl h, rfl⟩

theorem key_of_high (ha : a < wordMod) (hhigh : maxPrimaryAddress < a) :
    ∃ c, nPrimaryMap ≤ c ∧ c < wordMod / 65536 ∧ startOfThisSm a = c * 65536 := by
  refine ⟨a / 65536, ?_, chunk_lt ha, rfl⟩
  by_contra hlow
  have := le_maxPrimaryAddress_iff.mpr (Nat.lt_of_not_le hlow)
  omega

/-- **`get_secmap_ptr`** finds the place, and changes nothing that can be seen. -/
theorem getSecmapPtr_spec (h : s.Inv) (ha : a < wordMod) :
    ∃ s', getSecmapPtr s a = .ok (placeOf a, s') ∧ Quiet s s' := by
  unfold getSecmapPtr placeOf
  by_cases hlow : a ≤ maxPrimaryAddress
  · rw [if_pos hlow, if_pos hlow]
    exact ⟨s, rfl, .refl h⟩
  rw [if_neg hlow, if_neg hlow]
  obtain ⟨s₁, hrun, hq, hl2⟩ := maybeFindInAuxmap_spec h (Nat.lt_of_not_le hlow)
  unfold findOrAllocInAuxmap
  rw [hrun, ok_bind]
  by_cases hsome : (s.auxmapL2 (startOfThisSm a)).isSome
  · rw [if_pos hsome]
    exact ⟨s₁, rfl, hq⟩
  · rw [if_neg hsome]
    have hnone : s₁.auxmapL2 (startOfThisSm a) = none := by
      rw [hl2]
      exact Option.not_isSome_iff_eq_none.mp hsome
    have hq₂ := hq.inv.allocNode hnone (key_of_high ha (Nat.lt_of_not_le hlow))
    refine ⟨_, rfl, (hq.trans hq₂).trans (hq₂.inv.insertL1 _ ?_)⟩
    dsimp only
    rw [Function.update_self]
    rfl

/-- **`get_secmap_for_reading`**. -/
theorem getSecmapForReading_spec (h : s.Inv) (ha : a < wordMod) :
    ∃ s', getSecmapForReading s a = .ok (installed s (a / 65536), s') ∧ Quiet s s' := by
  obtain ⟨s', hrun, hq⟩ := getSecmapPtr_spec h ha
  refine ⟨s', ?_, hq⟩
  rw [getSecmapForReading, hrun, ok_bind]
  dsimp only
  rw [readPlace_placeOf, hq.installed]
  rfl

/-- **`get_vabits2`**. -/
theorem getVabits2_spec (h : s.Inv) (ha : a < wordMod) :
    ∃ s', getVabits2 s a = .ok (vabits2At s a, s') ∧ Quiet s s' := by
  obtain ⟨s', hrun, hq⟩ := getSecmapForReading_spec h ha
  refine ⟨s', ?_, hq⟩
  rw [getVabits2, hrun, ok_bind]
  dsimp only
  rw [hq.contents]
  rfl

/-! ## Installing a secondary map -/

theorem numInstalled_update {n : Nat} (hc : c < n) (f : Nat → Nat) :
    (∑ i ∈ Finset.range n, if smDistDefined < Function.update f c sm i then (1 : Int) else 0) =
      (∑ i ∈ Finset.range n, if smDistDefined < f i then (1 : Int) else 0)
        + (if smDistDefined < sm then 1 else 0) - (if smDistDefined < f c then 1 else 0) := by
  have hmem : c ∈ Finset.range n := Finset.mem_range.mpr hc
  rw [← Finset.add_sum_erase _ _ hmem, ← Finset.add_sum_erase (Finset.range n) _ hmem,
    Function.update_self]
  have hrest : ∑ i ∈ (Finset.range n).erase c, (if smDistDefined < Function.update f c sm i
      then (1 : Int) else 0) =
      ∑ i ∈ (Finset.range n).erase c, if smDistDefined < f i then (1 : Int) else 0 := by
    refine Finset.sum_congr rfl fun i hi => ?_
    rw [Function.update_of_ne (Finset.ne_of_mem_erase hi)]
  rw [hrest]
  ring

/-- A distinguished secondary map, or one that is not installed anywhere, takes the place of
another. -/
theorem SecMaps.Inv.replace (h : s.Inv) (ha : a < wordMod)
    (hsm : sm ≤ smDistDefined ∨ sm ∈ s.mapped ∧ ∀ c < wordMod / 65536, installed s c ≠ sm) :
    (writePlace (updateSMCounts s (installed s (a / 65536)) sm) sm (placeOf a)).Inv := by
  have hinst : installed (writePlace (updateSMCounts s (installed s (a / 65536)) sm) sm (placeOf a)) =
      Function.update (installed s) (a / 65536) sm := installed_writePlace
  have hc := chunk_lt ha
  refine ⟨?_, fun base hb => ?_, fun i hi => ?_, fun c hc' hd => ?_, fun c hc₁ c' hc₂ hd he => ?_, ?_⟩
  · unfold placeOf
    split <;> exact h.distinguished
  · revert hb
    unfold placeOf
    split
    · exact h.keys base
    · rename_i hhigh
      intro hb
      by_cases hbase : base = startOfThisSm a
      · exact hbase ▸ key_of_high ha (Nat.lt_of_not_le hhigh)
      · exact h.keys base (by simpa [writePlace, updateSMCounts, Function.update_of_ne hbase] using hb)
  · revert hi
    unfold placeOf
    split
    · exact h.l1 i
    · intro hi
      refine ⟨(h.l1 i hi).1, ?_⟩
      by_cases hbase : (s.auxmapL1 i).1 = startOfThisSm a
      · simp [writePlace, updateSMCounts, hbase]
      · simpa [writePlace, updateSMCounts, Function.update_of_ne hbase] using (h.l1 i hi).2
  · have hmapped : (writePlace (updateSMCounts s (installed s (a / 65536)) sm) sm (placeOf a)).mapped =
        s.mapped := by
      unfold placeOf
      split <;> rfl
    rw [hinst] at hd ⊢
    rw [hmapped]
    by_cases hca : c = a / 65536
    · subst hca
      rw [Function.update_self] at hd ⊢
      rcases hsm with hsm | hsm
      · omega
      · exact hsm.1
    · rw [Function.update_of_ne hca] at hd ⊢
      exact h.live c hc' hd
  · rw [hinst] at hd he
    by_cases hca : c = a / 65536
    · by_cases hca' : c' = a / 65536
      · rw [hca, hca']
      · subst hca
        rw [Function.update_self] at hd he
        rw [Function.update_of_ne hca'] at he
        rcases hsm with hsm | hsm
        · omega
        · exact absurd he.symm (hsm.2 c' hc₂)
    · rw [Function.update_of_ne hca] at hd he
      by_cases hca' : c' = a / 65536
      · subst hca'
        rw [Function.update_self] at he
        rcases hsm with hsm | hsm
        · omega
        · exact absurd he (hsm.2 c hc₁)
      · rw [Function.update_of_ne hca'] at he
        exact h.once c hc₁ c' hc₂ hd he
  · rw [numInstalled, hinst, numInstalled_update hc]
    have hcount := h.count
    rw [numInstalled] at hcount
    rw [hcount]
    have hcounts : ∀ p : Place, (writePlace (updateSMCounts s (installed s (a / 65536)) sm) sm p).nIssuedSMs =
        s.nIssuedSMs + (if smDistDefined < sm then 1 else 0) ∧
        (writePlace (updateSMCounts s (installed s (a / 65536)) sm) sm p).nDeissuedSMs =
        s.nDeissuedSMs + (if smDistDefined < installed s (a / 65536) then 1 else 0) := by
      intro p
      cases p <;> simp only [writePlace, updateSMCounts, isDistinguishedSm] <;> grind
    rw [(hcounts _).1, (hcounts _).2]
    ring

/-! ## Writing -/

/-- The code returns something of which `right` holds, or it exits because there is no memory
left for a secondary map. -/
def Returns {β : Type} (al : ShadowAlloc) (res : Result β) (right : β → Prop) : Prop :=
  (∃ v, res = .ok v ∧ right v) ∨ (res = .error .exit ∧ ∃ mapped, al.alloc mapped = none)

section

variable {β γ : Type} {al : ShadowAlloc} {res : Result β} {right right' : β → Prop}

theorem Returns.bind {f : β → Result γ} {right' : γ → Prop} (h : Returns al res right)
    (hf : ∀ v, right v → Returns al (f v) right') : Returns al (res >>= f) right' := by
  rcases h with ⟨v, rfl, hv⟩ | ⟨rfl, hnone⟩
  · exact hf v hv
  · exact .inr ⟨rfl, hnone⟩

theorem Returns.mono (h : Returns al res right) (hr : ∀ v, right v → right' v) :
    Returns al res right' := by
  rcases h with ⟨v, rfl, hv⟩ | ⟨rfl, hnone⟩
  · exact .inl ⟨v, rfl, hr v hv⟩
  · exact .inr ⟨rfl, hnone⟩

theorem Returns.of_ok {v : β} (h : right v) : Returns al (.ok v) right := .inl ⟨v, rfl, h⟩

end

variable {al : ShadowAlloc}

/-- A new secondary map is a copy of a distinguished one, and not installed yet. -/
theorem SecMaps.Inv.alloc (h : s.Inv) {newSm : Nat} (hfresh : newSm ∉ s.mapped ∧ smDistDefined < newSm)
    (d : Nat) :
    ({ s with contents := Function.update s.contents newSm (s.contents d)
              mapped := newSm :: s.mapped } : SecMaps).Inv := by
  refine ⟨fun sm hsm i => ?_, h.keys, h.l1, fun c hc hd => ?_, h.once, h.count⟩
  · have hne : sm ≠ newSm := by omega
    simp only [Function.update_of_ne hne]
    exact h.distinguished sm hsm i
  · exact List.mem_cons_of_mem _ (h.live c hc hd)

theorem vabits2At_replace (hcontents : ∀ y, vabits2In (s.contents sm) y =
      vabits2In (s.contents (installed s (a / 65536))) y) :
    vabits2At (writePlace s sm (placeOf a)) x = vabits2At s x := by
  unfold vabits2At
  have hc : (writePlace s sm (placeOf a)).contents = s.contents := by
    unfold placeOf
    split <;> rfl
  rw [hc, installed_writePlace]
  by_cases hx : x / 65536 = a / 65536
  · rw [hx, Function.update_self, hcontents]
  · rw [Function.update_of_ne hx]

/-- What `get_secmap_for_writing` leaves behind: the chunk has a secondary map of its own. -/
structure Owned (s s' : SecMaps) (a sm : Nat) : Prop where
  inv : s'.Inv
  installed : installed s' (a / 65536) = sm
  own : smDistDefined < sm
  others : ∀ c, c ≠ a / 65536 → Memcheck.installed s' c = Memcheck.installed s c
  same : ∀ x < wordMod, vabits2At s' x = vabits2At s x

/-- The part of `get_secmap_for_writing` that makes a copy. -/
theorem copyForWriting_spec (h : s.Inv) (ha : a < wordMod)
    (hdist : isDistinguishedSm (installed s (a / 65536)) = true) :
    Returns al (copyForWriting al s (installed s (a / 65536)))
      fun (sm, s') => Owned s (writePlace s' sm (placeOf a)) a sm := by
  unfold copyForWriting
  rw [assertThat_of hdist, ok_bind]
  split
  · rename_i hnone
    exact .inr ⟨rfl, _, hnone⟩
  · rename_i newSm halloc
    have hfresh := al.fresh _ _ halloc
    have hinv := h.alloc hfresh (installed s (a / 65536))
    have hnew : ∀ c < wordMod / 65536, installed s c ≠ newSm := fun c hc he =>
      hfresh.1 (he ▸ h.live c hc (by rw [he]; exact hfresh.2))
    refine .of_ok ⟨hinv.replace ha (.inr ⟨List.mem_cons_self, hnew⟩), ?_, hfresh.2, fun c hc => ?_,
      fun x hx => ?_⟩
    · rw [installed_writePlace, Function.update_self]
    · rw [installed_writePlace, Function.update_of_ne hc]
      rfl
    · have hold : installed s (a / 65536) ≠ newSm := hnew _ (chunk_lt ha)
      rw [vabits2At_replace]
      · unfold vabits2At
        have hne : installed s (x / 65536) ≠ newSm := hnew _ (chunk_lt hx)
        change vabits2In (Function.update s.contents newSm _ (installed s (x / 65536))) x = _
        rw [Function.update_of_ne hne]
      · intro y
        change vabits2In (Function.update s.contents newSm _ newSm) y =
          vabits2In (Function.update s.contents newSm _ (installed s (a / 65536))) y
        rw [Function.update_self, Function.update_of_ne hold]

/-- **`get_secmap_for_writing`**. -/
theorem getSecmapForWriting_spec (h : s.Inv) (ha : a < wordMod) :
    Returns al (getSecmapForWriting al s a) fun (sm, s') => Owned s s' a sm := by
  obtain ⟨s₁, hrun, hq⟩ := getSecmapPtr_spec h ha
  unfold getSecmapForWriting
  rw [hrun, ok_bind]
  dsimp only
  rw [readPlace_placeOf]
  by_cases hd : isDistinguishedSm (installed s₁ (a / 65536)) = true
  · rw [if_pos hd]
    refine (copyForWriting_spec hq.inv ha hd).bind fun (sm, s') ho => .of_ok ?_
    refine ⟨ho.inv, ho.installed, ho.own, fun c hc => ?_, fun x hx => (ho.same x hx).trans hq.vabits2At⟩
    rw [ho.others c hc, hq.installed]
  · rw [if_neg hd]
    refine .of_ok ⟨hq.inv, rfl, ?_, fun c _ => by rw [hq.installed], fun x _ => hq.vabits2At⟩
    simpa [isDistinguishedSm] using hd

/-- A store into a secondary map that is not distinguished changes one chunk. -/
theorem vabits2At_writeSm (h : s.Inv) (hc : c < wordMod / 65536) (hsm : installed s c = sm)
    (hd : smDistDefined < sm) (contents : SecMap) (hx : x < wordMod) :
    vabits2At (writeSm s sm contents) x =
      if x / 65536 = c then vabits2In contents x else vabits2At s x := by
  unfold vabits2At
  change vabits2In (Function.update s.contents sm contents (installed s (x / 65536))) x = _
  by_cases hxc : x / 65536 = c
  · rw [if_pos hxc, hxc, hsm, Function.update_self]
  · have hne : installed s (x / 65536) ≠ sm := fun he =>
      hxc (h.once c hc _ (chunk_lt hx) (hsm ▸ hd) (hsm.trans he.symm)).symm
    rw [if_neg hxc, Function.update_of_ne hne]

theorem SecMaps.Inv.writeSm (h : s.Inv) (hd : smDistDefined < sm) (contents : SecMap) :
    (writeSm s sm contents).Inv := by
  refine ⟨fun d hle i => ?_, h.keys, h.l1, h.live, h.once, h.count⟩
  have hne : d ≠ sm := by omega
  change Function.update s.contents sm contents d i = _
  rw [Function.update_of_ne hne]
  exact h.distinguished d hle i

/-- The states of the bytes are now as `f` says. -/
structure Shows (s : SecMaps) (f : Nat → BitVec 2) : Prop where
  inv : s.Inv
  at_eq : ∀ x < wordMod, vabits2At s x = f x

/-- A store into the secondary map that `get_secmap_for_writing` has returned. -/
theorem Owned.writeSm (ho : Owned s s' a sm) (ha : a < wordMod) (contents : SecMap) :
    Shows (writeSm s' sm contents)
      fun x => if x / 65536 = a / 65536 then vabits2In contents x else vabits2At s x := by
  refine ⟨ho.inv.writeSm ho.own contents, fun x hx => ?_⟩
  rw [vabits2At_writeSm ho.inv (chunk_lt ha) ho.installed ho.own contents hx]
  by_cases hxc : x / 65536 = a / 65536
  · rw [if_pos hxc, if_pos hxc]
  · rw [if_neg hxc, if_neg hxc, ho.same x hx]

/-- What is read from the secondary map that `get_secmap_for_writing` has returned. -/
theorem Owned.vabits2In_eq (ho : Owned s s' a sm) (hx : x < wordMod) (hxc : x / 65536 = a / 65536) :
    vabits2In (s'.contents sm) x = vabits2At s x := by
  rw [← ho.same x hx, vabits2At, hxc, ho.installed]

/-- **`set_vabits2`** sets the state of one byte. -/
theorem setVabits2_spec (h : s.Inv) (ha : a < wordMod) (v : BitVec 2) :
    Returns al (setVabits2 al s a v) fun s' => Shows s' (Function.update (vabits2At s) a v) := by
  unfold setVabits2
  refine (getSecmapForWriting_spec h ha).bind fun (sm, s') ho => .of_ok ?_
  have hs := ho.writeSm ha (insertVabits2 (s'.contents sm) a v)
  refine ⟨hs.inv, fun x hx => ?_⟩
  rw [hs.at_eq x hx, vabits2In_insertVabits2]
  by_cases hxa : x = a
  · subst hxa
    rw [if_pos rfl, if_pos rfl, Function.update_self]
  · rw [Function.update_of_ne hxa]
    by_cases hxc : x / 65536 = a / 65536
    · rw [if_pos hxc, if_neg (by omega), ho.vabits2In_eq hx hxc]
    · rw [if_neg hxc]

/-- **`set_vabits8_for_aligned_word32`** sets the states of four bytes. -/
theorem setVabits8ForAlignedWord32_spec (h : s.Inv) (ha : a < wordMod) (v8 : BitVec 8) :
    Returns al (setVabits8ForAlignedWord32 al s a v8) fun s' => Shows s' fun x =>
      if x / 4 = a / 4 then extractVabits2FromVabits8 x v8 else vabits2At s x := by
  unfold setVabits8ForAlignedWord32
  refine (getSecmapForWriting_spec h ha).bind fun (sm, s') ho => .of_ok ?_
  have hs := ho.writeSm ha (Function.update (s'.contents sm) (smOff a) v8)
  refine ⟨hs.inv, fun x hx => ?_⟩
  have hword : x / 4 = a / 4 ↔ x / 65536 = a / 65536 ∧ smOff x = smOff a := by
    unfold smOff
    omega
  rw [hs.at_eq x hx, vabits2In_update]
  by_cases hxc : x / 65536 = a / 65536
  · rw [if_pos hxc, ho.vabits2In_eq hx hxc]
    exact if_congr (by grind) rfl rfl
  · rw [if_neg hxc, if_neg fun h => hxc (hword.mp h).1]

/-- **`get_vabits8_for_aligned_word32`**. -/
theorem getVabits8ForAlignedWord32_spec (h : s.Inv) (ha : a < wordMod) :
    ∃ v8 s', getVabits8ForAlignedWord32 s a = .ok (v8, s') ∧ Quiet s s' ∧
      ∀ x, x / 4 = a / 4 → extractVabits2FromVabits8 x v8 = vabits2At s x := by
  obtain ⟨s', hrun, hq⟩ := getSecmapForReading_spec h ha
  refine ⟨s'.contents (installed s (a / 65536)) (smOff a), s', ?_, hq, fun x hx => ?_⟩
  · rw [getVabits8ForAlignedWord32, hrun, ok_bind]
    rfl
  · have hchunk : x / 65536 = a / 65536 := by omega
    have hoff : smOff x = smOff a := by
      unfold smOff
      omega
    rw [vabits2At, vabits2In, hchunk, hoff, hq.contents]

theorem initSecMaps_inv : initSecMaps.Inv := by
  have hinst : ∀ c, installed initSecMaps c = smDistNoaccess := by
    intro c
    unfold installed
    split <;> rfl
  refine ⟨fun sm hsm i => ?_, by simp [initSecMaps], by simp [initSecMaps], fun c _ hd => ?_,
    fun c _ c' _ hd => ?_, ?_⟩
  · interval_cases sm <;> rfl
  · simp [hinst] at hd
  · simp [hinst] at hd
  · simp [numInstalled, hinst]
    rfl

theorem vabits2At_init : vabits2At initSecMaps a = vaBits2Noaccess := by
  have hinst : installed initSecMaps (a / 65536) = smDistNoaccess := by
    unfold installed
    split <;> rfl
  rw [vabits2At, hinst]
  exact extract_dup8 (v := 0)

end

end Memcheck

end Valgrind
