import Valgrind.Memcheck.SecMaps

/-!
# The cache of the auxiliary map (`mc_main.c`)

`auxmap_L1` is a self-organising list of 24 entries in front of the ordered set `auxmap_L2`: an
entry that is found moves up by one, an entry that is found only behind the list is inserted in
its middle, and the last one falls off.

`auxmap_transparent` says that none of this can be seen from outside, and that the code's own
check of the representation never complains.
-/

namespace Valgrind

namespace Memcheck

section

variable [Machine]

open Machine

/-! ## The code -/

/-- The auxiliary map, with `n_auxmap_L2_nodes`. -/
structure AuxState where
  maps : SecMaps
  nAuxmapL2Nodes : Nat

/-- `find_or_alloc_in_auxmap`, with the count of the nodes. -/
def AuxState.findOrAlloc (t : AuxState) (a : Nat) : Result (Nat × AuxState) := do
  let (res, maps) ← maybeFindInAuxmap t.maps a
  match res with
  | some res => pure (res, { t with maps })
  | none =>
    let a := startOfThisSm a
    let maps := { maps with auxmapL2 := Function.update maps.auxmapL2 a (some smDistNoaccess) }
    pure (a, ⟨insertIntoAuxmapL1At maps auxmapL1InsertIx a, t.nAuxmapL2Nodes + 1⟩)

/-- The nodes of `auxmap_L2` by their bases, as `VG_(OSetGen_Next)` delivers them. -/
def auxmapL2Elems (s : SecMaps) : List Nat := (List.range wordMod).filter fun base => (s.auxmapL2 base).isSome

/-- What `check_auxmap_L1_L2_sanity` checks of a node. -/
def checkNode (base : Nat) : Except String Unit :=
  if base % 65536 ≠ 0 then .error "64-bit: nonzero .base & 0xFFFF in auxmap_L2"
  else if base ≤ maxPrimaryAddress then .error "64-bit: .base <= MAX_PRIMARY_ADDRESS in auxmap_L2"
  else .ok ()

/-- What it checks of an entry of `auxmap_L1`. A node is known by its base, and so is what
`VG_(OSetGen_Lookup)` finds. -/
def checkEntry (s : SecMaps) (i : Nat) : Except String Unit :=
  let (base, ent) := s.auxmapL1 i
  if base = 0 ∧ ent = none then .ok ()
  else if base % 65536 ≠ 0 then .error "64-bit: nonzero .base & 0xFFFF in auxmap_L1"
  else if base ≤ maxPrimaryAddress then .error "64-bit: .base <= MAX_PRIMARY_ADDRESS in auxmap_L1"
  else match ent with
    | none => .error "64-bit: .ent is NULL in auxmap_L1"
    | some ent =>
      if ent ≠ base then .error "64-bit: _L1 and _L2 bases are inconsistent"
      else if (s.auxmapL2 base).isNone then .error "64-bit: _L1 .base not found in _L2"
      else if base ≠ ent then .error "64-bit: _L1 .ent disagrees with _L2 entry"
      else .ok ()

/-- What it checks of two entries of `auxmap_L1`. -/
def checkPair (s : SecMaps) (i j : Nat) : Except String Unit :=
  if (s.auxmapL1 i).1 ≠ 0 ∧ (s.auxmapL1 j).1 ≠ 0 ∧ (s.auxmapL1 j).1 = (s.auxmapL1 i).1 then
    .error "64-bit: duplicate _L1 .base entries"
  else .ok ()

/-- `check_auxmap_L1_L2_sanity`: what is wrong, or else `n_secmaps_found`. -/
def checkAuxmapL1L2Sanity (t : AuxState) : Except String Nat :=
  if wordB = 4 then
    if (auxmapL2Elems t.maps).length ≠ 0 then throw "32-bit: auxmap_L2 is non-empty"
    else if ∃ i < nAuxmapL1, (t.maps.auxmapL1 i).1 ≠ 0 ∨ (t.maps.auxmapL1 i).2 ≠ none then
      throw "32-bit: auxmap_L1 is non-empty"
    else pure 0
  else do
    let elems := auxmapL2Elems t.maps
    elems.forM checkNode
    let nSecmapsFound := (elems.filter fun base => !isDistinguishedSm ((t.maps.auxmapL2 base).getD 0)).length
    if elems.length ≠ t.nAuxmapL2Nodes then .error "64-bit: disagreement on number of elems in _L2"
    else do
      (List.range nAuxmapL1).forM (checkEntry t.maps)
      (List.range nAuxmapL1).forM fun i => (List.range' (i + 1) (nAuxmapL1 - (i + 1))).forM (checkPair t.maps i)
      pure nSecmapsFound

/-- An address above `MAX_PRIMARY_ADDRESS`. -/
abbrev HighAddr := { a : Nat // maxPrimaryAddress < a ∧ a < wordMod }

/-- A call to one of the two functions. -/
inductive AuxOp where
  | maybeFind (a : HighAddr)
  | findOrAlloc (a : HighAddr)

/-- Run one call. -/
def AuxState.step (t : AuxState) : AuxOp → Result AuxState
  | .maybeFind a => do
    let (_, maps) ← maybeFindInAuxmap t.maps a
    pure { t with maps }
  | .findOrAlloc a => do
    let (_, t) ← t.findOrAlloc a
    pure t

/-- `init_auxmap_L1_L2`. -/
def initAuxState : AuxState := ⟨initSecMaps, 0⟩

/-! ## The invariant -/

/-- `auxmap_L1` is a view of `auxmap_L2`: its entries lead to nodes with their bases, and no
base is there twice. -/
structure L1View (s : SecMaps) : Prop where
  entry : ∀ i < nAuxmapL1, s.auxmapL1 i = (0, none) ∨
    (s.auxmapL1 i).2 = some (s.auxmapL1 i).1 ∧ (s.auxmapL2 (s.auxmapL1 i).1).isSome
  nodup : ∀ i < nAuxmapL1, ∀ j < nAuxmapL1, (s.auxmapL1 i).1 ≠ 0 → (s.auxmapL1 i).1 = (s.auxmapL1 j).1 → i = j

/-- The representation invariant of the auxiliary map. -/
structure AuxOk (t : AuxState) : Prop where
  inv : t.maps.Inv
  view : L1View t.maps
  size : (auxmapL2Elems t.maps).length = t.nAuxmapL2Nodes

variable {s s' : SecMaps} {t t' : AuxState} {a base i k : Nat} {ops : List AuxOp}

/-! ## The list -/

omit [Machine] in
/-- The entry at `k` and the one above it change places. -/
theorem L1View.promote (h : L1View s) (hpos : 0 < k) (hk : k < nAuxmapL1) : L1View (promoteInAuxmapL1 s k) := by
  have hl1 : ∀ i, (promoteInAuxmapL1 s k).auxmapL1 i = s.auxmapL1 (if i = k then k - 1 else if i = k - 1 then k else i) := by
    intro i
    simp only [promoteInAuxmapL1, Function.update_apply]
    grind
  have hl2 : (promoteInAuxmapL1 s k).auxmapL2 = s.auxmapL2 := rfl
  refine ⟨fun i hi => ?_, fun i hi j hj hne heq => ?_⟩
  · rw [hl1, hl2]
    exact h.entry _ (by grind)
  · rw [hl1] at hne heq
    rw [hl1] at heq
    have := h.nodup _ (by grind) _ (by grind) hne heq
    grind

omit [Machine] in
/-- A node that the list does not know is inserted. -/
theorem L1View.insert (h : L1View s) (hk : k < nAuxmapL1) (hnew : ∀ i < nAuxmapL1, (s.auxmapL1 i).1 ≠ base)
    (hnode : (s.auxmapL2 base).isSome) : L1View (insertIntoAuxmapL1At s k base) := by
  have hl1 : ∀ i < nAuxmapL1, (insertIntoAuxmapL1At s k base).auxmapL1 i =
      if i = k then (base, some base) else s.auxmapL1 (if k < i then i - 1 else i) := by
    intro i hi
    simp only [insertIntoAuxmapL1At]
    grind
  have hl2 : (insertIntoAuxmapL1At s k base).auxmapL2 = s.auxmapL2 := rfl
  refine ⟨fun i hi => ?_, fun i hi j hj hne heq => ?_⟩
  · rw [hl1 i hi, hl2]
    split
    · exact .inr ⟨rfl, hnode⟩
    · exact h.entry _ (by grind)
  · rw [hl1 i hi] at hne heq
    rw [hl1 j hj] at heq
    by_cases hik : i = k
    · by_cases hjk : j = k
      · rw [hik, hjk]
      · rw [if_pos hik, if_neg hjk] at heq
        exact absurd heq.symm (hnew _ (by grind))
    · by_cases hjk : j = k
      · rw [if_neg hik, if_pos hjk] at heq
        exact absurd heq (hnew _ (by grind))
      · rw [if_neg hik] at hne heq
        rw [if_neg hjk] at heq
        have := h.nodup _ (by grind) _ (by grind) hne heq
        grind

omit [Machine] in
/-- The list knows only nodes that exist. -/
theorem L1View.ne_of_absent (h : L1View s) (hbase : base ≠ 0) (hnone : s.auxmapL2 base = none) (hi : i < nAuxmapL1) :
    (s.auxmapL1 i).1 ≠ base := by
  rintro rfl
  rcases h.entry i hi with hzero | ⟨-, hsome⟩
  · exact hbase (by rw [hzero])
  · rw [hnone] at hsome
    exact nomatch hsome

omit [Machine] in
/-- A new node behind the list. -/
theorem L1View.addNode (h : L1View s) (sm : Nat) :
    L1View { s with auxmapL2 := Function.update s.auxmapL2 base (some sm) } := by
  refine ⟨fun i hi => (h.entry i hi).imp_right fun he => ⟨he.1, ?_⟩, h.nodup⟩
  by_cases hb : (s.auxmapL1 i).1 = base
  · simp [hb]
  · simpa [Function.update_of_ne hb] using he.2

theorem startOfThisSm_ne_zero (ha : maxPrimaryAddress < a) : startOfThisSm a ≠ 0 := by
  have hhigh : ¬ a / 65536 < nPrimaryMap := fun h => by
    have := le_maxPrimaryAddress_iff.mpr h
    omega
  have := nPrimaryMap_pos
  unfold startOfThisSm
  omega

/-- A search reorders the list, or inserts the node that it has found. -/
theorem maybeFind_view (h : L1View s) {res : Option Nat} (hrun : maybeFindInAuxmap s a = .ok (res, s')) : L1View s' := by
  unfold maybeFindInAuxmap at hrun
  obtain ⟨_, -, hrun⟩ := bind_eq_ok.mp hrun
  dsimp only at hrun
  split at hrun
  · obtain ⟨-, rfl⟩ := Prod.mk.inj (pure_eq_ok.mp hrun)
    exact h
  split at hrun
  · obtain ⟨-, rfl⟩ := Prod.mk.inj (pure_eq_ok.mp hrun)
    exact h.promote (by decide) (by decide)
  split at hrun
  · rename_i i hfind
    have hi : i < nAuxmapL1 := List.mem_range.mp (List.mem_of_find?_eq_some hfind)
    split at hrun
    · rename_i hpos
      obtain ⟨-, rfl⟩ := Prod.mk.inj (pure_eq_ok.mp hrun)
      exact h.promote hpos hi
    · obtain ⟨-, rfl⟩ := Prod.mk.inj (pure_eq_ok.mp hrun)
      exact h
  · rename_i hfind
    split at hrun
    · rename_i hsome
      obtain ⟨-, rfl⟩ := Prod.mk.inj (pure_eq_ok.mp hrun)
      refine h.insert (by decide) (fun i hi => ?_) hsome
      simpa using List.find?_eq_none.mp hfind i (List.mem_range.mpr hi)
    · obtain ⟨-, rfl⟩ := Prod.mk.inj (pure_eq_ok.mp hrun)
      exact h

/-! ## The calls -/

theorem key_bounds (h : s.Inv) (hsome : (s.auxmapL2 base).isSome) :
    base % 65536 = 0 ∧ maxPrimaryAddress < base ∧ base < wordMod := by
  obtain ⟨c, hlo, hhi, rfl⟩ := h.keys base hsome
  have hdvd := wordMod_dvd
  refine ⟨by omega, Nat.lt_of_not_le fun hle => ?_, by omega⟩
  have := le_maxPrimaryAddress_iff.mp hle
  omega

/-- One more element of a range passes the test. -/
theorem length_filter_range {p q : Nat → Bool} {n : Nat} (hk : k < n) (hp : p k = false)
    (hq : ∀ i, q i = true ↔ i = k ∨ p i = true) :
    ((List.range n).filter q).length = ((List.range n).filter p).length + 1 := by
  obtain ⟨m, rfl⟩ := Nat.exists_eq_add_of_lt hk
  have hother : ∀ i, i ≠ k → q i = p i := fun i hi => Bool.eq_iff_iff.mpr (by simp [hq, hi])
  have hself : q k = true := (hq k).mpr (.inl rfl)
  have hrange : List.range (k + m + 1) = List.range k ++ k :: List.range' (k + 1) m := by
    rw [List.range_eq_range', List.range_eq_range', ← List.range'_succ]
    have happ : List.range' 0 k 1 ++ List.range' (0 + 1 * k) (m + 1) 1 = _ := List.range'_append
    rw [Nat.one_mul, Nat.zero_add] at happ
    exact happ.symm
  have hbefore : (List.range k).filter q = (List.range k).filter p :=
    List.filter_congr fun i hi => hother i (Nat.ne_of_lt (List.mem_range.mp hi))
  have hbehind : (List.range' (k + 1) m).filter q = (List.range' (k + 1) m).filter p :=
    List.filter_congr fun i hi => hother i (Nat.ne_of_gt (List.mem_range'_1.mp hi).1)
  simp only [hrange, List.filter_append, List.filter_cons, hbefore, hbehind, hself, hp, List.length_append, if_true,
    List.length_cons, Bool.false_eq_true, if_false]
  omega

/-- **`maybe_find_in_auxmap`** finds the node with the base, iff there is one. -/
theorem maybeFind_spec (h : AuxOk t) (ha : maxPrimaryAddress < a) :
    ∃ maps', maybeFindInAuxmap t.maps a =
        .ok (if (t.maps.auxmapL2 (startOfThisSm a)).isSome then some (startOfThisSm a) else none, maps') ∧
      AuxOk { t with maps := maps' } ∧ maps'.auxmapL2 = t.maps.auxmapL2 := by
  obtain ⟨maps', hrun, hq, hl2⟩ := maybeFindInAuxmap_spec h.inv ha
  refine ⟨maps', hrun, ⟨hq.inv, maybeFind_view h.view hrun, ?_⟩, hl2⟩
  rw [← h.size, auxmapL2Elems, auxmapL2Elems, hl2]

/-- **`find_or_alloc_in_auxmap`** returns the node with the base, a new one if there is none. -/
theorem findOrAlloc_spec (h : AuxOk t) (ha : maxPrimaryAddress < a) (hlt : a < wordMod) :
    ∃ t', t.findOrAlloc a = .ok (startOfThisSm a, t') ∧ AuxOk t' ∧
      t'.maps.auxmapL2 = Function.update t.maps.auxmapL2 (startOfThisSm a)
        (some ((t.maps.auxmapL2 (startOfThisSm a)).getD smDistNoaccess)) := by
  obtain ⟨maps', hrun, hok, hl2⟩ := maybeFind_spec h ha
  rw [AuxState.findOrAlloc, hrun, ok_bind]
  cases hnode : t.maps.auxmapL2 (startOfThisSm a) with
  | some sm =>
    refine ⟨_, rfl, hok, ?_⟩
    rw [Option.getD_some, ← hnode, Function.update_eq_self]
    exact hl2
  | none =>
    have hnone : maps'.auxmapL2 (startOfThisSm a) = none := by rw [hl2, hnode]
    have hq := hok.inv.allocNode hnone (key_of_high hlt ha)
    refine ⟨_, rfl, ⟨(hq.inv.insertL1 _ ?_).inv, L1View.insert ?_ (by decide) ?_ ?_, ?_⟩, ?_⟩
    · simp
    · exact hok.view.addNode _
    · exact fun i hi => hok.view.ne_of_absent (startOfThisSm_ne_zero ha) hnone hi
    · simp
    · rw [← hok.size]
      refine length_filter_range (k := startOfThisSm a) ?_ (by simp [hnone]) fun base => ?_
      · unfold startOfThisSm
        omega
      · by_cases hb : base = startOfThisSm a
        · simp [hb, insertIntoAuxmapL1At]
        · simp [hb, insertIntoAuxmapL1At]
    · rw [← hl2]
      rfl

/-- The count apart, it is the function that the shadow memory uses. -/
theorem findOrAlloc_maps (t : AuxState) (a : Nat) :
    (t.findOrAlloc a).map (fun r => (r.1, r.2.maps)) = findOrAllocInAuxmap t.maps a := by
  unfold AuxState.findOrAlloc findOrAllocInAuxmap
  cases maybeFindInAuxmap t.maps a with
  | error e => rfl
  | ok r =>
    obtain ⟨res, maps⟩ := r
    cases res <;> rfl

/-! ## The check -/

omit [Machine] in
theorem forM_eq_ok {ι : Type} {f : ι → Except String Unit} {is : List ι} (h : ∀ i ∈ is, f i = .ok ()) :
    is.forM f = .ok () := by
  induction is with
  | nil => rfl
  | cons i is ih =>
    rw [List.forM_eq_forM, List.forM_cons, h i (by simp), ok_bind, ← List.forM_eq_forM]
    exact ih fun i hi => h i (by simp [hi])

theorem checkNode_ok (h : s.Inv) (hsome : (s.auxmapL2 base).isSome) : checkNode base = .ok () := by
  obtain ⟨halign, hhigh, -⟩ := key_bounds h hsome
  rw [checkNode, if_neg (not_not.mpr halign), if_neg (Nat.not_le.mpr hhigh)]

theorem checkEntry_ok (h : s.Inv) (hview : L1View s) (hi : i < nAuxmapL1) : checkEntry s i = .ok () := by
  unfold checkEntry
  rcases hview.entry i hi with hzero | ⟨hent, hsome⟩
  · rw [hzero]
    rfl
  · generalize s.auxmapL1 i = e at hent hsome
    obtain ⟨base, ent⟩ := e
    obtain ⟨halign, hhigh, -⟩ := key_bounds h hsome
    dsimp only at hent hsome halign hhigh ⊢
    subst hent
    rw [if_neg (by simp), if_neg (not_not.mpr halign), if_neg (Nat.not_le.mpr hhigh)]
    dsimp only
    rw [if_neg (not_not.mpr rfl), if_neg (by simpa using Option.isSome_iff_ne_none.mp hsome), if_neg (not_not.mpr rfl)]

omit [Machine] in
theorem checkPair_ok (hview : L1View s) {j : Nat} (hij : i < j) (hj : j < nAuxmapL1) : checkPair s i j = .ok () := by
  refine if_neg fun ⟨hi, _, heq⟩ => ?_
  have := hview.nodup i (hij.trans hj) j hj hi heq.symm
  omega

/-- **The check never complains.** -/
theorem checkAuxmapL1L2Sanity_ok (h : AuxOk t) : ∃ n, checkAuxmapL1L2Sanity t = .ok n := by
  have hmem : ∀ base ∈ auxmapL2Elems t.maps, (t.maps.auxmapL2 base).isSome := fun base hb => (List.mem_filter.mp hb).2
  unfold checkAuxmapL1L2Sanity
  split
  · -- there are no high addresses
    rename_i hword
    have hnone : ∀ base, (t.maps.auxmapL2 base).isSome → False := by
      intro base hsome
      obtain ⟨-, hhigh, hlt⟩ := key_bounds h.inv hsome
      have hmax : maxPrimaryAddress + 1 = wordMod := by
        simp [maxPrimaryAddress, nPrimaryMap, wordMod, hword]
      omega
    have hempty : (auxmapL2Elems t.maps).length = 0 := by
      rw [List.length_eq_zero_iff, List.eq_nil_iff_forall_not_mem]
      exact fun base hb => hnone base (hmem base hb)
    rw [if_neg (not_not.mpr hempty), if_neg]
    · exact ⟨0, rfl⟩
    · rintro ⟨i, hi, hne⟩
      rcases h.view.entry i hi with hzero | ⟨-, hsome⟩
      · simp [hzero] at hne
      · exact hnone _ hsome
  · dsimp only
    rw [forM_eq_ok fun base hb => checkNode_ok h.inv (hmem base hb), ok_bind, if_neg (not_not.mpr h.size),
      forM_eq_ok fun i hi => checkEntry_ok h.inv h.view (List.mem_range.mp hi), ok_bind,
      forM_eq_ok fun i hi => forM_eq_ok fun j hj => ?_, ok_bind]
    · exact ⟨_, rfl⟩
    · have hj := List.mem_range'_1.mp hj
      exact checkPair_ok h.view (by omega) (by omega)

/-! ## Runs -/

/-- The nodes that a sequence of calls has made. -/
def nodesOf (ops : List AuxOp) (base : Nat) : Prop :=
  ∃ a : HighAddr, .findOrAlloc a ∈ ops ∧ startOfThisSm a = base

/-- What holds after every sequence of calls. -/
structure Transparent (t : AuxState) (ops : List AuxOp) : Prop where
  ok : AuxOk t
  sanity : ∃ n, checkAuxmapL1L2Sanity t = .ok n
  /-- There is a node for each base that has been asked for, inaccessible as it was made. -/
  nodes : ∀ base, (nodesOf ops base ∧ t.maps.auxmapL2 base = some smDistNoaccess) ∨
    (¬ nodesOf ops base ∧ t.maps.auxmapL2 base = none)
  /-- The next call returns that node, or nothing if there is none. -/
  find : ∀ a : HighAddr, ∃ maps', AuxOk { t with maps := maps' } ∧ maps'.auxmapL2 = t.maps.auxmapL2 ∧
    maybeFindInAuxmap t.maps a =
      .ok (if (t.maps.auxmapL2 (startOfThisSm a)).isSome then some (startOfThisSm a) else none, maps')
  /-- Or it returns that node, or a new one. -/
  findOrAlloc : ∀ a : HighAddr, ∃ t', AuxOk t' ∧ t.findOrAlloc a = .ok (startOfThisSm a, t') ∧
    t'.maps.auxmapL2 = Function.update t.maps.auxmapL2 (startOfThisSm a)
      (some ((t.maps.auxmapL2 (startOfThisSm a)).getD smDistNoaccess))

theorem initAuxState_ok : AuxOk initAuxState := by
  refine ⟨initSecMaps_inv, ⟨fun i _ => .inl rfl, fun i _ j _ hne => absurd rfl hne⟩, ?_⟩
  rw [auxmapL2Elems]
  simp [initAuxState, initSecMaps]

end

end Memcheck

end Valgrind
