import Valgrind.Basics.Result

/-!
# Massif: the XTree

The tree of execution points of `ms_main.c`: one `XPt` for every stack trace that led to an
allocation and for every outer part of one. The `XPt`s are never freed, so a pointer to one is
its number in the order of their creation, and `alloc_xpt` is number 0.

The expansion of the children arrays, the counters for the statistics and the warning about
malformed traces are left out. `get_IPs` is the trace that `get_XCon` is given.
-/

namespace Valgrind.Massif

/-! ## Where a run of the tool stops -/

/-- A failed assertion, with the function it stands in, or another stop. -/
inductive Site where
  | updateXCon
  | isSnapshotInUse
  | sanityCheckSnapshotsArray
  | cullSnapshots
  | takeSnapshot
  | maybeTakeSnapshot
  | updateHeapStats
  /-- An assertion of the core. -/
  | core
  | newBlock
  | renewBlock
  /-- A pointer or an index that is outside of everything. -/
  | outOfBounds
  /-- A loop that does not terminate. -/
  | diverge
  deriving DecidableEq, Repr

/-- The outcome of a function of the tool. -/
abbrev Checked (α : Type) := Except Site α

/-- `tl_assert(p)`. -/
def tlAssert (site : Site) (p : Prop) [Decidable p] : Checked Unit :=
  if p then .ok () else .error site

theorem tlAssert_of {site : Site} {p : Prop} [Decidable p] (h : p) : tlAssert site p = .ok () := if_pos h

@[simp] theorem tlAssert_eq_ok {site : Site} {p : Prop} [Decidable p] {u : Unit} : tlAssert site p = .ok u ↔ p := by
  unfold tlAssert
  split <;> simp_all

/-! ## Integers of 64 and 32 bits -/

/-- A `SizeT`. -/
def sizeT (x : Int) : Nat := (x % 2 ^ 64).toNat

/-- An `SSizeT`, or a `Long`. -/
def sSizeT (x : Int) : Int := x.bmod (2 ^ 64)

/-- An `Int`. -/
def int32 (x : Int) : Int := x.bmod (2 ^ 32)

theorem sizeT_of {x : Int} (h₀ : 0 ≤ x) (h : x < 2 ^ 64) : (sizeT x : Int) = x := by
  unfold sizeT
  omega

theorem sizeT_nat {n : Nat} (h : n < 2 ^ 64) : sizeT n = n := by
  unfold sizeT
  omega

theorem sSizeT_of {x : Int} (h₀ : -2 ^ 63 ≤ x) (h : x < 2 ^ 63) : sSizeT x = x := by
  unfold sSizeT
  rw [Int.bmod_def]
  split <;> omega

theorem int32_of {x : Int} (h₀ : -2 ^ 31 ≤ x) (h : x < 2 ^ 31) : int32 x = x := by
  unfold int32
  rw [Int.bmod_def]
  split <;> omega

/-! ## The tree -/

/-- `struct _XPt`. -/
structure XPt where
  ip : Nat
  szB : Nat
  parent : Option Nat
  children : List Nat
  deriving Repr

/-- `struct _SXPt`: the copy of an `XPt`, or a few of them taken together. -/
inductive SXPt where
  | sig (szB ip : Nat) (children : List SXPt)
  | insig (szB nXpts : Nat)

/-- The field `szB` of either. -/
def SXPt.szB : SXPt → Nat
  | .sig szB _ _ => szB
  | .insig szB _ => szB

/-- `new_XPt`. -/
def newXPt (ip : Nat) (parent : Option Nat) : XPt := { ip, szB := 0, parent, children := [] }

/-- `alloc_xpt`, as it is made in `ms_pre_clo_init`. -/
def initXTree : List XPt := [newXPt 0 none]

/-- `*xpt`. -/
def readXPt (tree : List XPt) (xpt : Nat) : Checked XPt :=
  match tree[xpt]? with
  | some x => .ok x
  | none => .error .outOfBounds

/-- `new_XPt` and `add_child_xpt`. -/
def addChildXPt (tree : List XPt) (parent ip : Nat) : List XPt :=
  (tree.modify parent fun x => { x with children := x.children ++ [tree.length] }) ++ [newXPt ip (some parent)]

/-- The search of `get_XCon` for an `ip` among the children. -/
def findChild (tree : List XPt) (ip : Nat) : List Nat → Checked (Option Nat)
  | [] => .ok none
  | ch :: children => do
    let x ← readXPt tree ch
    if ip = x.ip then return some ch
    findChild tree ip children

/-- The loop of `get_XCon`, from `xpt` on. -/
def getXConFrom (tree : List XPt) (xpt : Nat) : List Nat → Checked (List XPt × Nat)
  | [] => .ok (tree, xpt)
  | ip :: ips => do
    let x ← readXPt tree xpt
    match ← findChild tree ip x.children with
    | none => getXConFrom (addChildXPt tree xpt ip) tree.length ips
    | some ch => getXConFrom tree ch ips

/-- `get_XCon`: the tree with the trace put in, and its last `XPt`. -/
def getXCon (tree : List XPt) (ips : List Nat) : Checked (List XPt × Nat) := getXConFrom tree 0 ips

/-- The loop of `update_XCon`, and its last update, of `alloc_xpt`. -/
def percolate (spaceDelta : Int) : Nat → List XPt → Nat → Checked (List XPt)
  | 0, _, _ => .error .diverge
  | fuel + 1, tree, xpt => do
    let x ← readXPt tree xpt
    tlAssert .updateXCon (spaceDelta < 0 → sizeT (-spaceDelta) ≤ x.szB)
    let tree := tree.set xpt { x with szB := sizeT (x.szB + spaceDelta) }
    if xpt = 0 then .ok tree
    else
      match x.parent with
      | none => .error .outOfBounds
      | some parent => percolate spaceDelta fuel tree parent

/-- `update_XCon`. -/
def updateXCon (cloHeap : Bool) (tree : List XPt) (xpt : Option Nat) (spaceDelta : Int) : Checked (List XPt) := do
  tlAssert .updateXCon (cloHeap = true)
  match xpt with
  | none => .error .updateXCon
  | some xpt => if spaceDelta = 0 then .ok tree else percolate spaceDelta tree.length tree xpt

/-- `dup_XTree`, with the sum of the insignificant children as `insig_children_szB`. -/
def dupXTree (tree : List XPt) (sigChildThresholdSzB : Nat) : Nat → Nat → Checked SXPt
  | 0, _ => .error .diverge
  | fuel + 1, xpt => do
    let x ← readXPt tree xpt
    let children ← x.children.mapM fun ch => do return (ch, (← readXPt tree ch).szB)
    let insig := children.filter fun ch => ch.2 < sigChildThresholdSzB
    let sig := children.filter fun ch => sigChildThresholdSzB ≤ ch.2
    let sxpts ← sig.mapM fun ch => dupXTree tree sigChildThresholdSzB fuel ch.1
    if insig = [] then return .sig x.szB x.ip sxpts
    return .sig x.szB x.ip (sxpts ++ [.insig (sizeT (insig.map Prod.snd).sum) insig.length])

/-! ## The links of the tree -/

section Links

variable {tree tree' : List XPt} {i j p c d w : Nat} {x y z : XPt} {l : List Nat}

/-- The parents and the children agree, the children of an `XPt` are newer than it, and they
have different code addresses. -/
structure Linked (tree : List XPt) : Prop where
  root : ∃ x : XPt, tree[0]? = some x ∧ x.parent = none
  parent : ∀ {i : Nat} {x : XPt}, tree[i]? = some x → i ≠ 0 →
    ∃ (p : Nat) (y : XPt), x.parent = some p ∧ p < i ∧ tree[p]? = some y ∧ i ∈ y.children
  child : ∀ {i c : Nat} {x : XPt}, tree[i]? = some x → c ∈ x.children →
    i < c ∧ ∃ y : XPt, tree[c]? = some y ∧ y.parent = some i
  ips : ∀ {i c d : Nat} {x y z : XPt}, tree[i]? = some x → c ∈ x.children → d ∈ x.children →
    tree[c]? = some y → tree[d]? = some z → y.ip = z.ip → c = d

theorem linked_initXTree : Linked initXTree where
  root := ⟨_, rfl, rfl⟩
  parent := by
    rintro (_ | i) x h hi
    · exact absurd rfl hi
    · exact nomatch h
  child := by
    rintro (_ | i) c x h hc
    · cases h
      exact nomatch hc
    · exact nomatch h
  ips := by
    rintro (_ | i) c d x y z h hc
    · cases h
      exact nomatch hc
    · exact nomatch h

theorem Linked.pos (h : Linked tree) : 0 < tree.length := by
  obtain ⟨x, hx, -⟩ := h.root
  exact (List.getElem?_eq_some_iff.mp hx).1

/-- The addresses from the top-`XPt` down to this one, after so many steps at most. -/
def contextUpTo (tree : List XPt) : Nat → Nat → List Nat
  | 0, _ => []
  | fuel + 1, i =>
    match tree[i]? with
    | none => []
    | some x =>
      match x.parent with
      | none => []
      | some p => contextUpTo tree fuel p ++ [x.ip]

/-- The execution context of an `XPt`: the addresses from the top-`XPt` down to it. -/
def context (tree : List XPt) (i : Nat) : List Nat := contextUpTo tree (i + 1) i

theorem Linked.ne_zero (h : Linked tree) (hx : tree[i]? = some x) (hp : x.parent = some p) : i ≠ 0 := by
  rintro rfl
  obtain ⟨r, hr, hnone⟩ := h.root
  obtain rfl : x = r := Option.some.inj (hx.symm.trans hr)
  exact nomatch hp.symm.trans hnone

theorem Linked.parent_lt (h : Linked tree) (hx : tree[i]? = some x) (hp : x.parent = some p) : p < i := by
  obtain ⟨q, y, hq, hlt, -⟩ := h.parent hx (h.ne_zero hx hp)
  obtain rfl : p = q := Option.some.inj (hp.symm.trans hq)
  exact hlt

theorem contextUpTo_eq (h : Linked tree) {m n : Nat} (hm : i < m) (hn : i < n) :
    contextUpTo tree m i = contextUpTo tree n i := by
  induction m generalizing i n with
  | zero => omega
  | succ m ih =>
    obtain ⟨n, rfl⟩ : ∃ k, n = k + 1 := ⟨n - 1, by omega⟩
    rw [contextUpTo, contextUpTo]
    cases hx : tree[i]? with
    | none => rfl
    | some x =>
      cases hp : x.parent with
      | none => simp only [hp]
      | some p =>
        have hlt := h.parent_lt hx hp
        simp only [hp]
        rw [ih (by omega) (by omega : p < n)]

theorem context_root (h : Linked tree) : context tree 0 = [] := by
  obtain ⟨x, hx, hp⟩ := h.root
  simp only [context, contextUpTo, hx, hp]

/-- The context of a child is the one of its parent and its own address. -/
theorem context_child (h : Linked tree) (hx : tree[i]? = some x) (hp : x.parent = some p) :
    context tree i = context tree p ++ [x.ip] := by
  have hlt := h.parent_lt hx hp
  rw [context, contextUpTo]
  simp only [hx, hp]
  rw [contextUpTo_eq h (n := p + 1) hlt (Nat.lt_succ_self p), context]

/-- **Two `XPt`s have different contexts.** -/
theorem context_injective (h : Linked tree) (hx : tree[i]? = some x) (hy : tree[j]? = some y)
    (heq : context tree i = context tree j) : i = j := by
  induction i using Nat.strong_induction_on generalizing j x y with
  | _ i ih =>
    rcases Nat.eq_zero_or_pos i with rfl | hi
    · rcases Nat.eq_zero_or_pos j with rfl | hj
      · rfl
      · obtain ⟨q, -, hq, -⟩ := h.parent hy (by omega)
        rw [context_root h, context_child h hy hq] at heq
        simp at heq
    · obtain ⟨p, u, hp, hlt, hu, hiu⟩ := h.parent hx (by omega)
      rcases Nat.eq_zero_or_pos j with rfl | hj
      · rw [context_root h, context_child h hx hp] at heq
        simp at heq
      · obtain ⟨q, v, hq, -, hv, hjv⟩ := h.parent hy (by omega)
        rw [context_child h hx hp, context_child h hy hq] at heq
        obtain ⟨hctx, hip⟩ := List.append_inj' heq rfl
        obtain rfl := ih p hlt hu hv hctx
        obtain rfl : u = v := Option.some.inj (hu.symm.trans hv)
        exact h.ips hu hiu hjv hx hy (List.singleton_inj.mp hip)

/-- The outer parts of a context are the contexts of `XPt`s. -/
theorem exists_of_prefix (h : Linked tree) (hx : tree[w]? = some x) (hl : l <+: context tree w) :
    ∃ k, k < tree.length ∧ context tree k = l := by
  induction w using Nat.strong_induction_on generalizing x with
  | _ w ih =>
    rcases Nat.eq_zero_or_pos w with rfl | hw
    · rw [context_root h, List.prefix_nil] at hl
      exact ⟨0, h.pos, by rw [context_root h, hl]⟩
    · obtain ⟨p, u, hp, hlt, hu, -⟩ := h.parent hx (by omega)
      rcases List.prefix_concat_iff.mp (context_child h hx hp ▸ hl) with heq | hpre
      · exact ⟨w, (List.getElem?_eq_some_iff.mp hx).1, (context_child h hx hp).trans heq.symm⟩
      · exact ih p hlt hu hpre

/-- An `XPt` but for its size. -/
def XPt.bare (x : XPt) : XPt := { x with szB := 0 }

theorem bare_getElem? (h : tree.map XPt.bare = tree'.map XPt.bare) (i : Nat) :
    (tree[i]?).map XPt.bare = (tree'[i]?).map XPt.bare := by
  rw [← List.getElem?_map, ← List.getElem?_map, h]

/-- The other tree has an `XPt` with the same links there. -/
theorem exists_of_bare (h : tree.map XPt.bare = tree'.map XPt.bare) (hx : tree'[i]? = some x) :
    ∃ y, tree[i]? = some y ∧ y.ip = x.ip ∧ y.parent = x.parent ∧ y.children = x.children := by
  have hb := bare_getElem? h i
  rw [hx] at hb
  obtain ⟨y, hy, hyx⟩ := Option.map_eq_some_iff.mp hb
  simp only [XPt.bare, XPt.mk.injEq] at hyx
  exact ⟨y, hy, hyx.1, hyx.2.2.1, hyx.2.2.2⟩

/-- The context does not depend on the sizes. -/
theorem context_congr (h : tree.map XPt.bare = tree'.map XPt.bare) (i : Nat) : context tree i = context tree' i := by
  unfold context
  generalize i + 1 = fuel
  induction fuel generalizing i with
  | zero => rfl
  | succ fuel ih =>
    rw [contextUpTo, contextUpTo]
    cases hx : tree'[i]? with
    | none =>
      have hb := bare_getElem? h i
      rw [hx, Option.map_none, Option.map_eq_none_iff] at hb
      rw [hb]
    | some x =>
      obtain ⟨y, hy, hip, hparent, -⟩ := exists_of_bare h hx
      simp only [hy, hip, hparent]
      cases x.parent with
      | none => rfl
      | some p => exact congrArg (· ++ [x.ip]) (ih p)

/-- Nor do the links. -/
theorem Linked.congr (h : Linked tree) (heq : tree.map XPt.bare = tree'.map XPt.bare) : Linked tree' where
  root := by
    obtain ⟨x, hx, hp⟩ := h.root
    obtain ⟨y, hy, -, hparent, -⟩ := exists_of_bare heq.symm hx
    exact ⟨y, hy, hparent.trans hp⟩
  parent := by
    intro i x hx hi
    obtain ⟨y, hy, -, hparent, -⟩ := exists_of_bare heq hx
    obtain ⟨p, u, hp, hlt, hu, hmem⟩ := h.parent hy hi
    obtain ⟨v, hv, -, -, hchildren⟩ := exists_of_bare heq.symm hu
    exact ⟨p, v, hparent ▸ hp, hlt, hv, hchildren ▸ hmem⟩
  child := by
    intro i c x hx hc
    obtain ⟨y, hy, -, -, hchildren⟩ := exists_of_bare heq hx
    obtain ⟨hlt, u, hu, hp⟩ := h.child hy (hchildren ▸ hc)
    obtain ⟨v, hv, -, hparent, -⟩ := exists_of_bare heq.symm hu
    exact ⟨hlt, v, hv, hparent.trans hp⟩
  ips := by
    intro i c d x y z hx hc hd hy hz hip
    obtain ⟨x', hx', -, -, hchildren⟩ := exists_of_bare heq hx
    obtain ⟨y', hy', hipy, -⟩ := exists_of_bare heq hy
    obtain ⟨z', hz', hipz, -⟩ := exists_of_bare heq hz
    exact h.ips hx' (hchildren ▸ hc) (hchildren ▸ hd) hy' hz' (hipy.trans (hip.trans hipz.symm))

end Links

/-! ## The sizes -/

section Sizes

variable {tree tree' : List XPt} {i j p w : Nat} {x y : XPt} {l : List Nat} {delta : Int}

/-- The size of every `XPt` that the context passes through is changed. -/
def addAlong (tree : List XPt) (l : List Nat) (delta : Int) : List XPt :=
  tree.mapIdx fun i x => if context tree i <+: l then { x with szB := sizeT (x.szB + delta) } else x

theorem addAlong_getElem? (hx : tree[i]? = some x) :
    (addAlong tree l delta)[i]? = some (if context tree i <+: l then { x with szB := sizeT (x.szB + delta) } else x) := by
  rw [addAlong, List.getElem?_mapIdx, hx, Option.map_some]

@[simp] theorem addAlong_bare : (addAlong tree l delta).map XPt.bare = tree.map XPt.bare := by
  refine List.ext_getElem? fun i => ?_
  rw [List.getElem?_map, List.getElem?_map, addAlong, List.getElem?_mapIdx, Option.map_map]
  refine congrArg (fun f => Option.map f _) (funext fun x => ?_)
  simp only [Function.comp, XPt.bare]
  split <;> rfl

@[simp] theorem length_addAlong : (addAlong tree l delta).length = tree.length := List.length_mapIdx

/-- The size of the `XPt` alone. -/
theorem bare_set {n : Nat} (hx : tree[i]? = some x) :
    (tree.set i { x with szB := n }).map XPt.bare = tree.map XPt.bare := by
  rw [List.map_set]
  refine List.ext_getElem? fun k => ?_
  rw [List.getElem?_set]
  split
  · next hk =>
    subst hk
    rw [List.getElem?_map, hx, List.length_map, if_pos (List.getElem?_eq_some_iff.mp hx).1]
    rfl
  · rfl

/-- Upwards from the last `XPt` of a context, all of them are changed. -/
theorem percolate_spec (h : Linked tree) (hi : tree[i]? = some y) {fuel : Nat} (hfuel : i < fuel)
    (hlo : -2 ^ 63 ≤ delta)
    (hfit : ∀ {j x}, tree[j]? = some x → context tree j <+: context tree i → 0 ≤ x.szB + delta) :
    percolate delta fuel tree i = .ok (addAlong tree (context tree i) delta) := by
  induction fuel generalizing tree i y with
  | zero => omega
  | succ fuel ih =>
    have hassert : delta < 0 → sizeT (-delta) ≤ y.szB := by
      intro hneg
      have hy := hfit hi List.prefix_rfl
      have hsz : (sizeT (-delta) : Int) = -delta := sizeT_of (by omega) (by omega)
      omega
    rw [percolate, readXPt, hi, ok_bind, tlAssert_of hassert, ok_bind]
    have hbare := bare_set (n := sizeT (y.szB + delta)) hi
    by_cases hi0 : i = 0
    · subst hi0
      simp only [if_true]
      refine congrArg Except.ok (List.ext_getElem? fun j => ?_)
      rw [addAlong, List.getElem?_mapIdx, List.getElem?_set]
      split
      · next hj =>
        subst hj
        rw [if_pos h.pos, hi]
        simp
      · next hj =>
        cases hx : tree[j]? with
        | none => rfl
        | some x =>
          rw [Option.map_some, if_neg]
          rw [context_root h, List.prefix_nil, ← context_root h]
          exact fun heq => hj (context_injective h hx hi heq).symm
    · obtain ⟨p, u, hp, hlt, hu, hmem⟩ := h.parent hi hi0
      have hctx := context_child h hi hp
      have hset : ∀ {j x}, (tree.set i { y with szB := sizeT (y.szB + delta) })[j]? = some x → j ≠ i → tree[j]? = some x := by
        intro j x hx hj
        rwa [List.getElem?_set_ne (Ne.symm hj)] at hx
      have hpre : ∀ {j x}, tree[j]? = some x →
          (context tree j <+: context tree i ↔ j = i ∨ context tree j <+: context tree p) := by
        intro j x hx
        rw [hctx, List.prefix_concat_iff]
        refine or_congr_left ⟨fun heq => context_injective h hx hi (heq.trans hctx.symm), ?_⟩
        rintro rfl
        exact hctx
      have hnot : ¬ context tree i <+: context tree p := by
        rw [hctx]
        intro hle
        simpa using hle.length_le
      have hup : (tree.set i { y with szB := sizeT (y.szB + delta) })[p]? = some u := by
        rw [List.getElem?_set_ne (by omega), hu]
      rw [if_neg hi0]
      split
      · next hnone => exact nomatch hp.symm.trans hnone
      next q hq =>
      obtain rfl : q = p := Option.some.inj (hq.symm.trans hp)
      rw [ih (h.congr hbare.symm) hup (by omega), ← context_congr hbare.symm q]
      · refine congrArg Except.ok (List.ext_getElem? fun j => ?_)
        rw [addAlong, List.getElem?_mapIdx, addAlong, List.getElem?_mapIdx, List.getElem?_set]
        by_cases hj : i = j
        · subst hj
          rw [if_pos rfl, if_pos (List.getElem?_eq_some_iff.mp hi).1, hi, Option.map_some, Option.map_some,
            if_neg (by rwa [← context_congr hbare.symm]), if_pos List.prefix_rfl]
        · rw [if_neg hj]
          cases hx : tree[j]? with
          | none => rfl
          | some x =>
            rw [Option.map_some, Option.map_some, ← context_congr hbare.symm]
            simp only [hpre hx, Ne.symm hj, false_or]
      · intro j x hx hle
        rw [← context_congr hbare.symm, ← context_congr hbare.symm] at hle
        have hji : j ≠ i := by
          rintro rfl
          exact hnot hle
        exact hfit (hset hx hji) ((hpre (hset hx hji)).mpr (.inr hle))

/-- **`update_XCon`** changes the sizes along the context, and nothing else. -/
theorem updateXCon_spec (h : Linked tree) (hi : tree[i]? = some y) (hlo : -2 ^ 63 ≤ delta)
    (hsz : ∀ {j : Nat} {x : XPt}, tree[j]? = some x → x.szB < 2 ^ 64)
    (hfit : ∀ {j x}, tree[j]? = some x → context tree j <+: context tree i → 0 ≤ x.szB + delta) :
    updateXCon true tree (some i) delta = .ok (addAlong tree (context tree i) delta) := by
  rw [updateXCon, tlAssert_of rfl, ok_bind]
  split
  · next hzero =>
    refine congrArg Except.ok (List.ext_getElem? fun j => ?_)
    rw [addAlong, List.getElem?_mapIdx]
    cases hx : tree[j]? with
    | none => rfl
    | some x =>
      rw [Option.map_some, hzero, add_zero, sizeT_nat (hsz hx), ite_self]
  · exact percolate_spec h hi (List.getElem?_eq_some_iff.mp hi).1 hlo hfit

end Sizes

/-! ## New contexts -/

section Grow

variable {tree tree' tree'' : List XPt} {i j p w ip : Nat} {x y : XPt} {ips : List Nat}

/-- The second tree has the `XPt`s of the first, under the same contexts and with the same
sizes, and those it has besides are empty. -/
structure Grows (tree tree' : List XPt) : Prop where
  old : ∀ {i x}, tree[i]? = some x →
    context tree' i = context tree i ∧ ∃ y : XPt, tree'[i]? = some y ∧ y.szB = x.szB
  new : ∀ {i x}, tree'[i]? = some x → tree.length ≤ i → x.szB = 0

theorem Grows.refl : Grows tree tree where
  old := fun hx => ⟨rfl, _, hx, rfl⟩
  new := fun hx hle => absurd (List.getElem?_eq_some_iff.mp hx).1 (Nat.not_lt.mpr hle)

theorem Grows.trans (h : Grows tree tree') (h' : Grows tree' tree'') : Grows tree tree'' where
  old := by
    intro i x hx
    obtain ⟨hctx, y, hy, hsz⟩ := h.old hx
    obtain ⟨hctx', z, hz, hsz'⟩ := h'.old hy
    exact ⟨hctx'.trans hctx, z, hz, hsz'.trans hsz⟩
  new := by
    intro i x hx hle
    by_cases hi : i < tree'.length
    · obtain ⟨-, z, hz, hsz⟩ := h'.old (List.getElem?_eq_getElem hi)
      obtain rfl : x = z := Option.some.inj (hx.symm.trans hz)
      rw [hsz, h.new (List.getElem?_eq_getElem hi) hle]
    · exact h'.new hx (Nat.le_of_not_lt hi)

@[simp] theorem length_addChildXPt : (addChildXPt tree p ip).length = tree.length + 1 := by
  simp [addChildXPt]

theorem addChildXPt_new : (addChildXPt tree p ip)[tree.length]? = some (newXPt ip (some p)) := by
  rw [addChildXPt, List.getElem?_append_right (by simp)]
  simp

theorem addChildXPt_old (hx : tree[i]? = some x) :
    (addChildXPt tree p ip)[i]? = some (if p = i then { x with children := x.children ++ [tree.length] } else x) := by
  have hi := (List.getElem?_eq_some_iff.mp hx).1
  rw [addChildXPt, List.getElem?_append_left (by simpa using hi), List.getElem?_modify, hx]
  rfl

/-- The `XPt`s with a new child are the old ones and the child. -/
theorem addChildXPt_cases (hx : (addChildXPt tree p ip)[i]? = some x) :
    (i = tree.length ∧ x = newXPt ip (some p)) ∨
      ∃ y, tree[i]? = some y ∧ x = if p = i then { y with children := y.children ++ [tree.length] } else y := by
  rcases lt_trichotomy i tree.length with hi | rfl | hi
  · have hy := List.getElem?_eq_getElem hi
    exact .inr ⟨_, hy, Option.some.inj (hx.symm.trans (addChildXPt_old hy))⟩
  · exact .inl ⟨rfl, Option.some.inj (hx.symm.trans addChildXPt_new)⟩
  · have hlt := (List.getElem?_eq_some_iff.mp hx).1
    rw [length_addChildXPt] at hlt
    omega

/-- An old `XPt` is the same but for one child perhaps. -/
theorem addChildXPt_keeps (p ip : Nat) (hx : tree[i]? = some x) :
    ∃ y, (addChildXPt tree p ip)[i]? = some y ∧ y.ip = x.ip ∧ y.szB = x.szB ∧ y.parent = x.parent ∧
      x.children ⊆ y.children := by
  refine ⟨_, addChildXPt_old hx, ?_⟩
  split
  · exact ⟨rfl, rfl, rfl, List.subset_append_left _ _⟩
  · exact ⟨rfl, rfl, rfl, List.Subset.refl _⟩

theorem Linked.addChild (h : Linked tree) (hp : tree[p]? = some x)
    (hfresh : ∀ {c y}, c ∈ x.children → tree[c]? = some y → y.ip ≠ ip) : Linked (addChildXPt tree p ip) where
  root := by
    obtain ⟨r, hr, hnone⟩ := h.root
    obtain ⟨r', hr', -, -, hparent, -⟩ := addChildXPt_keeps p ip hr
    exact ⟨r', hr', hparent.trans hnone⟩
  parent := by
    intro i u hu hi
    rcases addChildXPt_cases hu with ⟨rfl, rfl⟩ | ⟨v, hv, rfl⟩
    · refine ⟨p, _, rfl, (List.getElem?_eq_some_iff.mp hp).1, addChildXPt_old hp, ?_⟩
      rw [if_pos rfl]
      exact List.mem_append_right _ List.mem_cons_self
    · obtain ⟨q, w, hq, hlt, hw, hmem⟩ := h.parent hv hi
      obtain ⟨w', hw', -, -, -, hsub⟩ := addChildXPt_keeps p ip hw
      refine ⟨q, w', ?_, hlt, hw', hsub hmem⟩
      split <;> exact hq
  child := by
    intro i c u hu hc
    rcases addChildXPt_cases hu with ⟨rfl, rfl⟩ | ⟨v, hv, rfl⟩
    · exact nomatch hc
    · have hold : c ∈ v.children → i < c ∧ ∃ y : XPt, (addChildXPt tree p ip)[c]? = some y ∧ y.parent = some i := by
        intro hc
        obtain ⟨hlt, y, hy, hparent⟩ := h.child hv hc
        obtain ⟨y', hy', -, -, hparent', -⟩ := addChildXPt_keeps p ip hy
        exact ⟨hlt, y', hy', hparent'.trans hparent⟩
      split at hc
      · next hpi =>
        rcases List.mem_append.mp hc with hc | hc
        · exact hold hc
        · obtain rfl := List.mem_singleton.mp hc
          exact ⟨(List.getElem?_eq_some_iff.mp hv).1, _, addChildXPt_new, congrArg some hpi⟩
      · exact hold hc
  ips := by
    intro i c d u y z hu hc hd hy hz hip
    rcases addChildXPt_cases hu with ⟨rfl, rfl⟩ | ⟨v, hv, rfl⟩
    · exact nomatch hc
    -- an old child keeps its address, and the new one has an address of its own
    have hold : ∀ {e w}, e ∈ v.children → (addChildXPt tree p ip)[e]? = some w →
        ∃ w', tree[e]? = some w' ∧ w.ip = w'.ip := by
      intro e w he hw
      obtain ⟨-, w', hw', -⟩ := h.child hv he
      obtain ⟨w'', hw'', hipw, -⟩ := addChildXPt_keeps p ip hw'
      obtain rfl : w = w'' := Option.some.inj (hw.symm.trans hw'')
      exact ⟨w', hw', hipw⟩
    have hboth : c ∈ v.children → d ∈ v.children → c = d := by
      intro hc hd
      obtain ⟨y', hy', hipy⟩ := hold hc hy
      obtain ⟨z', hz', hipz⟩ := hold hd hz
      exact h.ips hv hc hd hy' hz' (hipy.symm.trans (hip.trans hipz))
    split at hc
    · next hpi =>
      rw [if_pos hpi] at hd
      subst hpi
      obtain rfl : x = v := Option.some.inj (hp.symm.trans hv)
      have hnew : ∀ {w}, (addChildXPt tree p ip)[tree.length]? = some w → w.ip = ip := by
        intro w hw
        rw [Option.some.inj (hw.symm.trans addChildXPt_new)]
        rfl
      rcases List.mem_append.mp hc with hc | hc <;> rcases List.mem_append.mp hd with hd | hd
      · exact hboth hc hd
      · obtain rfl := List.mem_singleton.mp hd
        obtain ⟨y', hy', hipy⟩ := hold hc hy
        exact absurd (hipy.symm.trans (hip.trans (hnew hz))) (hfresh hc hy')
      · obtain rfl := List.mem_singleton.mp hc
        obtain ⟨z', hz', hipz⟩ := hold hd hz
        exact absurd (hipz.symm.trans (hip.symm.trans (hnew hy))) (hfresh hd hz')
      · exact (List.mem_singleton.mp hc).trans (List.mem_singleton.mp hd).symm
    · next hpi =>
      rw [if_neg hpi] at hd
      exact hboth hc hd

theorem context_addChildXPt (h : Linked tree) (hx : tree[i]? = some x) :
    context (addChildXPt tree p ip) i = context tree i := by
  unfold context
  generalize i + 1 = fuel
  induction fuel generalizing i x with
  | zero => rfl
  | succ fuel ih =>
    obtain ⟨y, hy, hip, -, hparent, -⟩ := addChildXPt_keeps p ip hx
    rw [contextUpTo, contextUpTo, hx, hy]
    simp only [hip, hparent]
    cases hq : x.parent with
    | none => rfl
    | some q =>
      obtain ⟨q', z, hq', -, hz, -⟩ := h.parent hx (h.ne_zero hx hq)
      obtain rfl : q = q' := Option.some.inj (hq.symm.trans hq')
      exact congrArg (· ++ [x.ip]) (ih hz)

theorem grows_addChildXPt (h : Linked tree) : Grows tree (addChildXPt tree p ip) where
  old := by
    intro i x hx
    obtain ⟨y, hy, -, hsz, -⟩ := addChildXPt_keeps p ip hx
    exact ⟨context_addChildXPt h hx, y, hy, hsz⟩
  new := by
    intro i x hx hle
    rcases addChildXPt_cases hx with ⟨-, rfl⟩ | ⟨y, hy, -⟩
    · rfl
    · have hlt := (List.getElem?_eq_some_iff.mp hy).1
      omega

theorem readXPt_of (hx : tree[i]? = some x) : readXPt tree i = .ok x := by
  rw [readXPt, hx]

theorem findChild_spec (ip : Nat) {children : List Nat} (h : ∀ c ∈ children, ∃ y, tree[c]? = some y) :
    (∃ c y, findChild tree ip children = .ok (some c) ∧ c ∈ children ∧ tree[c]? = some y ∧ y.ip = ip) ∨
      (findChild tree ip children = .ok none ∧ ∀ {c y}, c ∈ children → tree[c]? = some y → y.ip ≠ ip) := by
  induction children with
  | nil => exact .inr ⟨rfl, fun hc => nomatch hc⟩
  | cons ch children ih =>
    obtain ⟨u, hu⟩ := h ch List.mem_cons_self
    rw [findChild, readXPt_of hu, ok_bind]
    by_cases hip : ip = u.ip
    · exact .inl ⟨ch, u, by rw [if_pos hip]; rfl, List.mem_cons_self, hu, hip.symm⟩
    · rw [if_neg hip]
      rcases ih fun c hc => h c (List.mem_cons_of_mem _ hc) with ⟨c, y, hfind, hc, hy⟩ | ⟨hfind, hall⟩
      · exact .inl ⟨c, y, hfind, List.mem_cons_of_mem _ hc, hy⟩
      · refine .inr ⟨hfind, fun {c y} hc hy => ?_⟩
        rcases List.mem_cons.mp hc with rfl | hc
        · rw [Option.some.inj (hy.symm.trans hu)]
          exact fun heq => hip heq.symm
        · exact hall hc hy

/-- **`get_XCon`** puts the trace into the tree: the `XPt` it returns has the trace as its
context, and nothing that was in the tree has changed. -/
theorem getXConFrom_spec (h : Linked tree) (hx : tree[i]? = some x) :
    ∃ tree' w y, getXConFrom tree i ips = .ok (tree', w) ∧ Linked tree' ∧ Grows tree tree' ∧
      tree'[w]? = some y ∧ context tree' w = context tree i ++ ips := by
  induction ips generalizing tree i x with
  | nil => exact ⟨tree, i, x, rfl, h, Grows.refl, hx, (List.append_nil _).symm⟩
  | cons ip ips ih =>
    rw [getXConFrom, readXPt_of hx, ok_bind]
    have hchildren : ∀ c ∈ x.children, ∃ y, tree[c]? = some y := by
      intro c hc
      obtain ⟨-, y, hy, -⟩ := h.child hx hc
      exact ⟨y, hy⟩
    rcases findChild_spec ip hchildren with ⟨c, y, hfind, hc, hy, rfl⟩ | ⟨hfind, hfresh⟩
    · rw [hfind, ok_bind]
      obtain ⟨tree', w, z, hget, hlinked, hgrows, hz, hctx⟩ := ih h hy
      obtain ⟨-, y', hy', hparent⟩ := h.child hx hc
      obtain rfl : y = y' := Option.some.inj (hy.symm.trans hy')
      refine ⟨tree', w, z, hget, hlinked, hgrows, hz, ?_⟩
      rw [hctx, context_child h hy hparent, List.append_assoc]
      rfl
    · rw [hfind, ok_bind]
      have hlinked := h.addChild hx hfresh
      obtain ⟨tree', w, z, hget, hlinked', hgrows, hz, hctx⟩ := ih hlinked addChildXPt_new
      refine ⟨tree', w, z, hget, hlinked', (grows_addChildXPt h).trans hgrows, hz, ?_⟩
      rw [hctx, context_child hlinked addChildXPt_new rfl, context_addChildXPt h hx, List.append_assoc]
      rfl

end Grow

/-! ## Copies -/

theorem mapM_of {α β : Type} {f : α → Checked β} {P : α → β → Prop} {l : List α}
    (h : ∀ a ∈ l, ∃ b, f a = .ok b ∧ P a b) : ∃ bs, l.mapM f = .ok bs ∧ ∀ b ∈ bs, ∃ a ∈ l, P a b := by
  induction l with
  | nil => exact ⟨[], rfl, List.forall_mem_nil _⟩
  | cons a l ih =>
    obtain ⟨b, hb, hP⟩ := h a List.mem_cons_self
    obtain ⟨bs, hbs, hall⟩ := ih fun a' ha' => h a' (List.mem_cons_of_mem _ ha')
    refine ⟨b :: bs, by rw [List.mapM_cons, hb, ok_bind, hbs, ok_bind]; rfl, ?_⟩
    refine List.forall_mem_cons.mpr ⟨⟨a, List.mem_cons_self, hP⟩, fun b' hb' => ?_⟩
    obtain ⟨a', ha', hP'⟩ := hall b' hb'
    exact ⟨a', List.mem_cons_of_mem _ ha', hP'⟩

/-- The copy of an `XPt` can be made, and has its size. -/
theorem dupXTree_spec {tree : List XPt} (h : Linked tree) (threshold fuel : Nat) {i : Nat} {x : XPt} (hx : tree[i]? = some x)
    (hfuel : tree.length < fuel + i) : ∃ sxpt, dupXTree tree threshold fuel i = .ok sxpt ∧ sxpt.szB = x.szB := by
  induction fuel generalizing i x with
  | zero =>
    have hlt := (List.getElem?_eq_some_iff.mp hx).1
    omega
  | succ fuel ih =>
    rw [dupXTree, readXPt_of hx, ok_bind]
    obtain ⟨children, hchildren, hall⟩ := mapM_of (f := fun ch => do return (ch, (← readXPt tree ch).szB))
      (P := fun ch pair => pair.1 = ch) (l := x.children) fun ch hch => by
        obtain ⟨-, y, hy, -⟩ := h.child hx hch
        exact ⟨(ch, y.szB), by rw [readXPt_of hy]; rfl, rfl⟩
    have hmem : ∀ pair ∈ children, pair.1 ∈ x.children := by
      intro pair hpair
      obtain ⟨ch, hch, heq⟩ := hall pair hpair
      rwa [heq]
    obtain ⟨sxpts, hsxpts, -⟩ := mapM_of (f := fun ch : Nat × Nat => dupXTree tree threshold fuel ch.1)
      (P := fun _ _ => True) (l := children.filter fun ch => threshold ≤ ch.2) fun pair hpair => by
        obtain ⟨hlt, y, hy, -⟩ := h.child hx (hmem pair (List.mem_filter.mp hpair).1)
        obtain ⟨sxpt, hdup, -⟩ := ih hy (by omega)
        exact ⟨sxpt, hdup, trivial⟩
    rw [hchildren, ok_bind]
    simp only [hsxpts, ok_bind]
    split
    · exact ⟨_, rfl, rfl⟩
    · exact ⟨_, rfl, rfl⟩

end Valgrind.Massif
