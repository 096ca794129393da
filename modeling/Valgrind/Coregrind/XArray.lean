import Valgrind.Debuginfo.Storage

/-!
# Arrays that grow (`m_xarray.c`)

An `XArray` is a list of elements in a block of memory with room for more. The memory is a list
of elements too: that the operations move elements as a whole is plain from the `memcpy`s. The
allocator never fails and returns memory with anything in it. The costs centre and the functions
that allocate and free are left out.

A clone has no more room than it needs. A clone of an array that has become empty has a block of
memory without any room, which `ensureSpaceXA` takes for an error.
-/

namespace Valgrind.Coregrind

open Debuginfo

/-! ## The code -/

/-- A comparison function that orders the elements. -/
structure CmpFn (α : Type) where
  cmp : α → α → Int
  swap : ∀ a b, cmp a b ≤ 0 ↔ 0 ≤ cmp b a
  trans : ∀ a b c, cmp a b ≤ 0 → cmp b c ≤ 0 → cmp a c ≤ 0

/-- `struct _XArray`. -/
structure XArray (α : Type) where
  cmpFn : Option (CmpFn α)
  elemSzB : Nat
  /-- The memory, with `totsizeE` elements. -/
  arr : Option (List α)
  usedsizeE : Nat
  totsizeE : Nat
  sorted : Bool

/-- What the rest of the program contributes. -/
structure XEnv (α : Type) where
  /-- What is in memory that has just been allocated. -/
  junk : Nat → List α
  length_junk : ∀ n, (junk n).length = n
  /-- `VG_(ssort)`. -/
  ssort : ∀ c : CmpFn α, Ssort c.cmp

section

variable {α : Type} (env : XEnv α)

/-- `VG_(newXA)`. -/
def newXA (elemSzB : Nat) : Result (XArray α) := do
  assertThat (elemSzB > 0)
  return ⟨none, elemSzB, none, 0, 0, false⟩

/-- `VG_(memcpy)` of some elements. -/
def memcpyE (dst src : List α) (n : Nat) : List α := src.take n ++ dst.drop n

/-- `VG_(cloneXA)`. -/
def cloneXA (xa : XArray α) : Result (XArray α) := do
  assertThat (xa.elemSzB ≥ 1)
  match xa.arr with
  | none => return xa
  | some arr => return { xa with totsizeE := xa.usedsizeE, arr := some (memcpyE (env.junk xa.usedsizeE) arr xa.usedsizeE) }

/-- `VG_(setCmpFnXA)`. -/
def setCmpFnXA (xa : XArray α) (compar : CmpFn α) : XArray α := { xa with cmpFn := some compar, sorted := false }

/-- `VG_(indexXA)`, and what it points to. -/
def indexXA (xa : XArray α) (n : Int) : Result α := do
  assertThat (n ≥ 0)
  assertThat (n < xa.usedsizeE)
  match xa.arr with
  | none => throw .fault
  | some arr =>
    match arr[n.toNat]? with
    | none => throw .fault
    | some x => return x

/-- The new size in `ensureSpaceXA`. -/
def newSizeE (xa : XArray α) : Nat :=
  if xa.totsizeE = 0 then
    if xa.elemSzB = 1 then 8 else if xa.elemSzB = 2 then 4 else 2
  else 1 + 3 * xa.totsizeE / 2

/-- `ensureSpaceXA`. -/
def ensureSpaceXA (xa : XArray α) : Result (XArray α) :=
  if xa.usedsizeE = xa.totsizeE then do
    if xa.totsizeE = 0 then assertThat (xa.arr.isNone)
    if xa.totsizeE > 0 then assertThat (xa.arr.isSome)
    let newsz := newSizeE xa
    let tmp := env.junk newsz
    let tmp := if xa.usedsizeE > 0 then memcpyE tmp (xa.arr.getD []) xa.usedsizeE else tmp
    return { xa with arr := some tmp, totsizeE := newsz }
  else return xa

/-- One more element, for which there must be room. -/
def appendE (xa : XArray α) (elem : α) : Result (XArray α) := do
  let xa ← ensureSpaceXA env xa
  assertThat (xa.usedsizeE < xa.totsizeE)
  match xa.arr with
  | none => throw .assertFailed
  | some arr => return { xa with arr := some (arr.set xa.usedsizeE elem), usedsizeE := xa.usedsizeE + 1 }

/-- `VG_(addToXA)`. -/
def addToXA (xa : XArray α) (elem : α) : Result (XArray α × Nat) := do
  assertThat (xa.usedsizeE ≤ xa.totsizeE)
  let xa ← appendE env xa elem
  let xa := { xa with sorted := false }
  return (xa, xa.usedsizeE - 1)

/-- `VG_(addBytesToXA)`. -/
def addBytesToXA (xa : XArray α) (bytes : List α) : Result (XArray α × Nat) := do
  assertThat (xa.elemSzB = 1)
  assertThat (xa.usedsizeE ≤ xa.totsizeE)
  let r := xa.usedsizeE
  let xa ← bytes.foldlM (appendE env) xa
  return ({ xa with sorted := false }, r)

/-- `VG_(sortXA)`. -/
def sortXA (xa : XArray α) : Result (XArray α) :=
  match xa.cmpFn with
  | none => throw .assertFailed
  | some c => return { xa with
      arr := xa.arr.map fun arr => (env.ssort c).sort (arr.take xa.usedsizeE) ++ arr.drop xa.usedsizeE
      sorted := true }

/-- `VG_(dropTailXA)`. -/
def dropTailXA (xa : XArray α) (n : Nat) : Result (XArray α) := do
  assertThat (n ≤ xa.usedsizeE)
  return { xa with usedsizeE := xa.usedsizeE - n }

/-- The first of the two loops that expand the match. -/
def expandFirst (xa : XArray α) (c : CmpFn α) (key : α) : Nat → Result Nat
  | 0 => return 0
  | first + 1 => do
    let x ← indexXA xa first
    if c.cmp key x = 0 then expandFirst xa c key first else return first + 1

/-- The second one; `usedsizeE - 1` minus `last` is the first argument. -/
def expandLast (xa : XArray α) (c : CmpFn α) (key : α) : Nat → Nat → Result Nat
  | 0, last => return last
  | room + 1, last => do
    let x ← indexXA xa (last + 1)
    if c.cmp key x = 0 then expandLast xa c key room (last + 1) else return last

/-- The loop of `VG_(lookupXA)`. -/
def lookupXALoop (xa : XArray α) (c : CmpFn α) (key : α) : Nat → Int → Int → Result (Option (Nat × Nat))
  | 0, _, _ => .error .diverge
  | fuel + 1, lo, hi =>
    if lo > hi then return none
    else do
      let mid := (lo + hi) / 2
      let midv ← indexXA xa mid
      let cres := c.cmp key midv
      if cres < 0 then lookupXALoop xa c key fuel lo (mid - 1)
      else if cres > 0 then lookupXALoop xa c key fuel (mid + 1) hi
      else do
        let lov ← indexXA xa lo
        assertThat (c.cmp key lov ≥ 0)
        let hiv ← indexXA xa hi
        assertThat (c.cmp key hiv ≤ 0)
        let first ← expandFirst xa c key mid.toNat
        let last ← expandLast xa c key (xa.usedsizeE - 1 - mid.toNat) mid.toNat
        return some (first, last)

/-- `VG_(lookupXA)`: what `*first` and `*last` become, if it returns `True`. -/
def lookupXA (xa : XArray α) (key : α) : Result (Option (Nat × Nat)) :=
  match xa.cmpFn with
  | none => throw .assertFailed
  | some c => do
    assertThat (xa.sorted = true)
    lookupXALoop xa c key (xa.usedsizeE + 1) 0 (xa.usedsizeE - 1)

/-! ## Runs -/

/-- The operations. An array is named by the number of arrays that there were before it. -/
inductive XOp (α : Type) where
  | new (elemSzB : Nat)
  | add (xa : Nat) (elem : α)
  | addBytes (xa : Nat) (bytes : List α)
  | dropTail (xa n : Nat)
  | clone (xa : Nat)
  | setCmpFn (xa : Nat) (compar : CmpFn α)
  | sort (xa : Nat)
  | index (xa n : Nat)

/-- An array is changed. -/
def modifyXA (st : List (XArray α)) (i : Nat) (f : XArray α → Result (XArray α)) : Result (List (XArray α)) :=
  match st[i]? with
  | none => throw .fault
  | some xa => do return st.set i (← f xa)

/-- One operation. -/
def xaStep (st : List (XArray α)) : XOp α → Result (List (XArray α))
  | .new elemSzB => do return st ++ [← newXA elemSzB]
  | .add i elem => modifyXA st i fun xa => do return (← addToXA env xa elem).1
  | .addBytes i bytes => modifyXA st i fun xa => do return (← addBytesToXA env xa bytes).1
  | .dropTail i n => modifyXA st i fun xa => dropTailXA xa n
  | .clone i =>
    match st[i]? with
    | none => throw .fault
    | some xa => do return st ++ [← cloneXA env xa]
  | .setCmpFn i compar => modifyXA st i fun xa => .ok (setCmpFnXA xa compar)
  | .sort i => modifyXA st i (sortXA env)
  | .index i n => modifyXA st i fun xa => do
      let _ ← indexXA xa n
      return xa

/-- The array that an operation uses. -/
def XOp.on : XOp α → Option Nat
  | .new _ => none
  | .add i _ | .addBytes i _ | .dropTail i _ | .clone i | .setCmpFn i _ | .sort i | .index i _ => some i

/-- What a caller sees to, of the array that is used. -/
def XOp.fits : XOp α → XArray α → Prop
  | .addBytes _ _, xa => xa.elemSzB = 1
  | .dropTail _ n, xa => n ≤ xa.usedsizeE
  | .sort _, xa => xa.cmpFn.isSome = true
  | .index _ n, xa => n < xa.usedsizeE
  | _, _ => True

/-- The arguments are in range. -/
def InRange (st : List (XArray α)) (op : XOp α) : Prop :=
  (∀ elemSzB, op = .new elemSzB → elemSzB > 0) ∧ ∀ i ∈ op.on, ∃ xa ∈ st[i]?, op.fits xa

/-- The operation adds elements. -/
def XOp.adds : XOp α → Bool
  | .add _ _ => true
  | .addBytes _ bytes => !bytes.isEmpty
  | _ => false

/-- No element is added to an array that has a block of memory without room. -/
def HasNoEmptyBlock (st : List (XArray α)) (op : XOp α) : Prop :=
  op.adds = true → ∀ i ∈ op.on, ∀ xa ∈ st[i]?, xa.totsizeE = 0 → xa.arr = none

/-! ## Lists -/

/-- What an array is for: its elements, and the order that it is sorted by. -/
structure AList (α : Type) where
  elems : List α
  cmpFn : Option (CmpFn α)

/-- The elements of the array. -/
def XArray.elems (xa : XArray α) : List α := (xa.arr.getD []).take xa.usedsizeE

/-- The array as a list. -/
def XArray.abs (xa : XArray α) : AList α := ⟨xa.elems, xa.cmpFn⟩

/-- What the operations mean. -/
def absStep (st : List (AList α)) : XOp α → List (AList α)
  | .new _ => st ++ [⟨[], none⟩]
  | .add i elem => st.modify i fun l => { l with elems := l.elems ++ [elem] }
  | .addBytes i bytes => st.modify i fun l => { l with elems := l.elems ++ bytes }
  | .dropTail i n => st.modify i fun l => { l with elems := l.elems.take (l.elems.length - n) }
  | .clone i => st ++ st[i]?.toList
  | .setCmpFn i compar => st.modify i fun l => { l with cmpFn := some compar }
  | .sort i => st.modify i fun l =>
      { l with elems := (l.cmpFn.elim l.elems fun c => (env.ssort c).sort l.elems) }
  | .index _ _ => st

variable {env} {xa xa' : XArray α} {st : List (XArray α)} {op : XOp α} {elem key : α} {c : CmpFn α}

/-! ## One array -/

/-- What holds of every array, sorted or not. -/
structure XArray.Sane (xa : XArray α) : Prop where
  size : 0 < xa.elemSzB
  used_le : xa.usedsizeE ≤ xa.totsizeE
  room : ∀ arr ∈ xa.arr, arr.length = xa.totsizeE
  null : xa.arr = none → xa.totsizeE = 0

/-- The elements of an array that says so are sorted. -/
structure XArray.Ok (xa : XArray α) : Prop extends xa.Sane where
  inOrder : xa.sorted = true → ∃ c ∈ xa.cmpFn, xa.elems.Pairwise fun a b => c.cmp a b ≤ 0

theorem XArray.Sane.length_elems (h : xa.Sane) : xa.elems.length = xa.usedsizeE := by
  have hused := h.used_le
  rw [XArray.elems, List.length_take]
  cases harr : xa.arr with
  | none =>
    have := h.null harr
    simp only [Option.getD_none, List.length_nil]
    omega
  | some arr =>
    have := h.room arr harr
    simp only [Option.getD_some]
    omega

/-- An element is read. -/
theorem indexXA_spec (h : xa.Sane) {n : Nat} (hn : n < xa.elems.length) : indexXA xa n = .ok xa.elems[n] := by
  have hlen := h.length_elems
  have hused := h.used_le
  rw [indexXA, assertThat_of (Int.natCast_nonneg n), ok_bind, assertThat_of (by omega), ok_bind]
  cases harr : xa.arr with
  | none =>
    have := h.null harr
    omega
  | some arr =>
    have hroom := h.room arr harr
    have hget : arr[n]? = some xa.elems[n] := by
      rw [List.getElem?_eq_getElem (by omega)]
      simp [XArray.elems, harr]
    simp only [Int.toNat_natCast, hget]
    rfl

theorem length_memcpyE {dst src : List α} {n : Nat} (hsrc : n ≤ src.length) (hdst : n ≤ dst.length) :
    (memcpyE dst src n).length = dst.length := by
  rw [memcpyE, List.length_append, List.length_take, List.length_drop]
  omega

theorem take_memcpyE {dst src : List α} {n : Nat} (hsrc : n ≤ src.length) : (memcpyE dst src n).take n = src.take n := by
  rw [memcpyE, List.take_append_of_le_length (by rw [List.length_take]; omega), List.take_take, min_self]

/-- Room is made for one more element. -/
theorem ensureSpaceXA_spec (env : XEnv α) (h : xa.Sane) (hblock : xa.totsizeE = 0 → xa.arr = none) :
    ∃ xa', ensureSpaceXA env xa = .ok xa' ∧ xa'.Sane ∧ xa'.elems = xa.elems ∧ xa'.usedsizeE = xa.usedsizeE ∧
      xa'.usedsizeE < xa'.totsizeE ∧ xa'.cmpFn = xa.cmpFn ∧ xa'.elemSzB = xa.elemSzB := by
  have hused := h.used_le
  rw [ensureSpaceXA]
  by_cases hfull : xa.usedsizeE = xa.totsizeE
  · have hroom : xa.usedsizeE ≤ (xa.arr.getD []).length := by
      cases harr : xa.arr with
      | none => exact le_of_eq (hfull.trans (h.null harr))
      | some arr => exact le_of_eq (hfull.trans (h.room arr harr).symm)
    have hnew : xa.usedsizeE < newSizeE xa := by
      unfold newSizeE
      split
      · split
        · omega
        · split <;> omega
      · omega
    rw [if_pos hfull]
    refine ⟨{ xa with
      arr := some (if xa.usedsizeE > 0 then memcpyE (env.junk (newSizeE xa)) (xa.arr.getD []) xa.usedsizeE
        else env.junk (newSizeE xa))
      totsizeE := newSizeE xa }, ?_, ?_, ?_, rfl, hnew, rfl, rfl⟩
    · by_cases htot : xa.totsizeE = 0
      · rw [if_pos htot, hblock htot, if_neg (by omega)]
        rfl
      · have hsome : xa.arr.isSome := by
          rw [Option.isSome_iff_ne_none]
          exact fun hnone => htot (h.null hnone)
        rw [if_neg htot, if_pos (by omega)]
        simp only [hsome, assertThat_of, ok_bind]
        rfl
    · refine ⟨h.size, hnew.le, fun arr harr => ?_, fun hnone => ?_⟩
      · obtain rfl := Option.some.inj harr
        dsimp only
        split
        · rw [length_memcpyE hroom (by rw [env.length_junk]; omega), env.length_junk]
        · exact env.length_junk _
      · cases hnone
    · rw [XArray.elems, XArray.elems]
      dsimp only [Option.getD_some]
      split
      · exact take_memcpyE hroom
      · next hzero =>
        rw [show xa.usedsizeE = 0 by omega, List.take_zero, List.take_zero]
  · rw [if_neg hfull]
    exact ⟨xa, rfl, h, rfl, rfl, by omega, rfl, rfl⟩

/-- **One more element.** -/
theorem appendE_spec (env : XEnv α) (h : xa.Sane) (hblock : xa.totsizeE = 0 → xa.arr = none) (elem : α) :
    ∃ xa', appendE env xa elem = .ok xa' ∧ xa'.Sane ∧ xa'.elems = xa.elems ++ [elem] ∧ xa'.cmpFn = xa.cmpFn ∧
      0 < xa'.totsizeE ∧ xa'.elemSzB = xa.elemSzB ∧ xa'.usedsizeE = xa.usedsizeE + 1 := by
  obtain ⟨xa₁, hrun, h₁, helems, hused, hlt, hcmp, hsz⟩ := ensureSpaceXA_spec env h hblock
  rw [appendE, hrun, ok_bind, assertThat_of hlt, ok_bind]
  cases harr : xa₁.arr with
  | none =>
    have := h₁.null harr
    omega
  | some arr =>
    have hroom := h₁.room arr harr
    refine ⟨_, rfl, ⟨h₁.size, hlt, fun arr' harr' => ?_, fun hnone => ?_⟩, ?_, hcmp, by dsimp only; omega, hsz, ?_⟩
    · obtain rfl := Option.some.inj harr'
      exact (List.length_set ..).trans hroom
    · cases hnone
    · rw [← helems, XArray.elems, XArray.elems, harr]
      dsimp only [Option.getD_some]
      rw [List.take_add_one, List.take_set_of_le le_rfl, List.getElem?_set_self (by omega)]
      rfl
    · dsimp only
      rw [hused]

/-- A block of memory without room is taken for an error. -/
theorem appendE_fails (env : XEnv α) (h : xa.Sane) (htot : xa.totsizeE = 0) (harr : xa.arr ≠ none) (elem : α) :
    appendE env xa elem = .error .assertFailed := by
  have hused := h.used_le
  have hnot : ¬ xa.arr.isNone = true := by
    rw [Option.isNone_iff_eq_none]
    exact harr
  rw [appendE, ensureSpaceXA, if_pos (by omega), if_pos htot, assertThat, if_neg hnot]
  rfl

/-- Elements that are there already are copied. -/
theorem cloneXA_spec (env : XEnv α) (h : xa.Ok) : ∃ xa', cloneXA env xa = .ok xa' ∧ xa'.Ok ∧ xa'.abs = xa.abs := by
  have hused := h.used_le
  rw [cloneXA, assertThat_of (show xa.elemSzB ≥ 1 from h.size), ok_bind]
  cases harr : xa.arr with
  | none => exact ⟨xa, rfl, h, rfl⟩
  | some arr =>
    have hroom := h.room arr harr
    have helems : (memcpyE (env.junk xa.usedsizeE) arr xa.usedsizeE).take xa.usedsizeE = xa.elems := by
      rw [take_memcpyE (by omega), XArray.elems, harr]
      rfl
    refine ⟨_, rfl, ⟨⟨h.size, le_rfl, fun arr' harr' => ?_, fun hnone => ?_⟩, fun hsorted => ?_⟩, ?_⟩
    · obtain rfl := Option.some.inj harr'
      rw [length_memcpyE (by omega) (env.length_junk _).ge, env.length_junk]
    · cases hnone
    · obtain ⟨c, hc, hord⟩ := h.inOrder hsorted
      refine ⟨c, hc, ?_⟩
      rw [XArray.elems]
      dsimp only [Option.getD_some]
      rwa [helems]
    · rw [XArray.abs, XArray.abs, XArray.elems]
      dsimp only [Option.getD_some]
      rw [helems]

/-- The array is sorted. -/
theorem sortXA_spec (env : XEnv α) (h : xa.Ok) (hc : xa.cmpFn = some c) :
    ∃ xa', sortXA env xa = .ok xa' ∧ xa'.Ok ∧ xa'.abs = ⟨(env.ssort c).sort xa.elems, some c⟩ := by
  have hused := h.used_le
  have hlen := h.length_elems
  have helems : (((xa.arr.map fun arr => (env.ssort c).sort (arr.take xa.usedsizeE) ++ arr.drop xa.usedsizeE).getD []).take
      xa.usedsizeE) = (env.ssort c).sort xa.elems := by
    cases harr : xa.arr with
    | none =>
      have hnil : xa.elems = [] := by simp [XArray.elems, harr]
      rw [hnil, ((env.ssort c).perm []).eq_nil]
      simp
    | some arr =>
      have hsorted : (env.ssort c).sort (arr.take xa.usedsizeE) = (env.ssort c).sort xa.elems := by
        rw [XArray.elems, harr]
        rfl
      simp only [Option.map_some, Option.getD_some, hsorted]
      rw [List.take_append_of_le_length (by rw [((env.ssort c).perm _).length_eq]; omega),
        List.take_of_length_le (by rw [((env.ssort c).perm _).length_eq]; omega)]
  rw [sortXA, hc]
  refine ⟨_, rfl, ⟨⟨h.size, hused, fun arr' harr' => ?_, fun hnone => ?_⟩, fun _ => ⟨c, rfl, ?_⟩⟩, ?_⟩
  · obtain ⟨arr, harr, rfl⟩ := Option.map_eq_some_iff.mp harr'
    have hroom := h.room arr harr
    rw [List.length_append, ((env.ssort c).perm _).length_eq, ← List.length_append, List.take_append_drop]
    exact hroom
  · exact h.null (Option.map_eq_none_iff.mp hnone)
  · rw [XArray.elems]
    dsimp only
    rw [helems]
    exact (env.ssort c).sorted _
  · rw [XArray.abs, XArray.elems]
    dsimp only
    rw [helems]

/-- The last elements go. -/
theorem dropTailXA_spec (h : xa.Ok) {n : Nat} (hn : n ≤ xa.usedsizeE) :
    ∃ xa', dropTailXA xa n = .ok xa' ∧ xa'.Ok ∧ xa'.abs = ⟨xa.elems.take (xa.elems.length - n), xa.cmpFn⟩ := by
  have hused := h.used_le
  have helems : (xa.arr.getD []).take (xa.usedsizeE - n) = xa.elems.take (xa.elems.length - n) := by
    rw [h.length_elems, XArray.elems, List.take_take, min_eq_left (Nat.sub_le _ _)]
  rw [dropTailXA, assertThat_of hn, ok_bind]
  refine ⟨_, rfl, ⟨⟨h.size, (Nat.sub_le _ _).trans hused, h.room, h.null⟩, fun hsorted => ?_⟩, ?_⟩
  · obtain ⟨c, hc, hord⟩ := h.inOrder hsorted
    refine ⟨c, hc, ?_⟩
    rw [XArray.elems]
    dsimp only
    rw [helems]
    exact hord.sublist (List.take_sublist _ _)
  · rw [XArray.abs, XArray.elems]
    dsimp only
    rw [helems]

/-! ## Searching -/

/-- Sorted elements compare with a key as a search wants it: those that come before it, those
that are equal to it, and those that come after it. -/
theorem cmp_of_pairwise {l : List α} (hord : l.Pairwise fun a b => c.cmp a b ≤ 0) (key : α) {i j : Nat} (hij : i ≤ j)
    (hj : j < l.length) : (c.cmp key l[i] < 0 → c.cmp key l[j] < 0) ∧ (0 < c.cmp key l[j] → 0 < c.cmp key l[i]) := by
  have hle : c.cmp l[i] l[j] ≤ 0 := by
    rcases Nat.lt_or_eq_of_le hij with hlt | rfl
    · exact List.pairwise_iff_getElem.mp hord i j (by omega) hj hlt
    · rcases le_total (c.cmp l[i] l[i]) 0 with h | h
      · exact h
      · exact (c.swap _ _).mpr h
  constructor
  · intro hlt
    by_contra hge
    have hback := c.trans _ _ _ hle ((c.swap _ _).mpr (not_lt.mp hge))
    exact absurd ((c.swap _ _).mp hback) (not_le.mpr hlt)
  · intro hgt
    by_contra hle'
    exact absurd (c.trans _ _ _ (not_lt.mp hle') hle) (not_le.mpr hgt)

/-- The array is searched, and its elements are read. -/
structure Searched (xa : XArray α) (c : CmpFn α) (key : α) : Prop where
  read : ∀ n (hn : n < xa.elems.length), indexXA xa n = .ok xa.elems[n]
  length : xa.elems.length = xa.usedsizeE
  order : xa.elems.Pairwise fun a b => c.cmp a b ≤ 0

/-- The first loop ends at the first of the equal elements. -/
theorem expandFirst_spec (h : Searched xa c key) {first : Nat} (hlt : first < xa.elems.length)
    (heq : c.cmp key xa.elems[first] = 0) : ∃ r, expandFirst xa c key first = .ok r ∧ r ≤ first ∧
      ∀ i (hi : i < xa.elems.length), i ≤ first → (c.cmp key xa.elems[i] = 0 ↔ r ≤ i) := by
  induction first with
  | zero =>
    refine ⟨0, rfl, le_rfl, fun i hi hle => ?_⟩
    obtain rfl : i = 0 := by omega
    exact iff_of_true heq le_rfl
  | succ first ih =>
    rw [expandFirst, h.read first (by omega), ok_bind]
    by_cases hbefore : c.cmp key xa.elems[first] = 0
    · rw [if_pos hbefore]
      obtain ⟨r, hrun, hle, hr⟩ := ih (by omega) hbefore
      refine ⟨r, hrun, by omega, fun i hi hle' => ?_⟩
      rcases Nat.lt_or_eq_of_le hle' with hlt' | rfl
      · exact hr i hi (by omega)
      · exact iff_of_true heq (by omega)
    · rw [if_neg hbefore]
      refine ⟨first + 1, rfl, le_rfl, fun i hi hle' => ?_⟩
      rcases Nat.lt_or_eq_of_le hle' with hlt' | rfl
      · refine iff_of_false (fun h0 => hbefore ?_) (by omega)
        have h₁ := (cmp_of_pairwise h.order key (show i ≤ first by omega) (by omega)).2
        have h₂ := (cmp_of_pairwise h.order key (show first ≤ first + 1 by omega) hlt).1
        omega
      · exact iff_of_true heq le_rfl

/-- The second loop ends at the last of them. -/
theorem expandLast_spec (h : Searched xa c key) (room : Nat) {last : Nat} (hlt : last < xa.elems.length)
    (hroom : last + room + 1 = xa.elems.length) (heq : c.cmp key xa.elems[last] = 0) :
    ∃ r, expandLast xa c key room last = .ok r ∧ last ≤ r ∧ r < xa.elems.length ∧
      ∀ i (hi : i < xa.elems.length), last ≤ i → (c.cmp key xa.elems[i] = 0 ↔ i ≤ r) := by
  induction room generalizing last with
  | zero =>
    refine ⟨last, rfl, le_rfl, hlt, fun i hi hle => ?_⟩
    obtain rfl : i = last := by omega
    exact iff_of_true heq le_rfl
  | succ room ih =>
    have hread : indexXA xa ((last : Int) + 1) = .ok xa.elems[last + 1] := h.read (last + 1) (by omega)
    rw [expandLast, hread, ok_bind]
    by_cases hafter : c.cmp key xa.elems[last + 1] = 0
    · rw [if_pos hafter]
      obtain ⟨r, hrun, hle, hr, hiff⟩ := ih (by omega) (by omega) hafter
      refine ⟨r, hrun, by omega, hr, fun i hi hle' => ?_⟩
      rcases Nat.lt_or_eq_of_le hle' with hlt' | rfl
      · exact hiff i hi (by omega)
      · exact iff_of_true heq (by omega)
    · rw [if_neg hafter]
      refine ⟨last, rfl, le_rfl, hlt, fun i hi hle' => ?_⟩
      rcases Nat.lt_or_eq_of_le hle' with hlt' | rfl
      · refine iff_of_false (fun h0 => hafter ?_) (by omega)
        have h₁ := (cmp_of_pairwise h.order key (show last ≤ last + 1 by omega) (by omega)).2
        have h₂ := (cmp_of_pairwise h.order key (show last + 1 ≤ i by omega) hi).1
        omega
      · exact iff_of_true heq le_rfl

/-- What a search should answer. -/
def Finds (xa : XArray α) (c : CmpFn α) (key : α) : Option (Nat × Nat) → Prop
  | none => ∀ x ∈ xa.elems, c.cmp key x ≠ 0
  | some (first, last) => first ≤ last ∧ last < xa.elems.length ∧
      ∀ i (hi : i < xa.elems.length), c.cmp key xa.elems[i] = 0 ↔ first ≤ i ∧ i ≤ last

/-- The elements outside of the unsearched space are not equal to the key. -/
structure Unsearched (xa : XArray α) (c : CmpFn α) (key : α) (lo hi : Int) : Prop where
  lo_nonneg : 0 ≤ lo
  hi_lt : hi < xa.elems.length
  before : ∀ i (h : i < xa.elems.length), (i : Int) < lo → 0 < c.cmp key xa.elems[i]
  after : ∀ i (h : i < xa.elems.length), hi < i → c.cmp key xa.elems[i] < 0

/-- **The loop of a search.** -/
theorem lookupXALoop_spec (h : Searched xa c key) {fuel : Nat} {lo hi : Int} (hspace : Unsearched xa c key lo hi)
    (hfuel : hi - lo + 1 < fuel) (hpos : 0 < fuel) : ∃ r, lookupXALoop xa c key fuel lo hi = .ok r ∧ Finds xa c key r := by
  induction fuel generalizing lo hi with
  | zero => omega
  | succ fuel ih =>
    obtain ⟨hlo, hhi, hbefore, hafter⟩ := hspace
    rw [lookupXALoop]
    by_cases hdone : lo > hi
    · refine ⟨none, by rw [if_pos hdone]; rfl, fun x hx => ?_⟩
      obtain ⟨i, hi', rfl⟩ := List.mem_iff_getElem.mp hx
      rcases lt_or_ge (i : Int) lo with hlt | hge
      · exact (hbefore i hi' hlt).ne'
      · exact (hafter i hi' (by omega)).ne
    · rw [if_neg hdone]
      have hmid : lo ≤ (lo + hi) / 2 ∧ (lo + hi) / 2 ≤ hi := by omega
      obtain ⟨mid, hmid_eq⟩ := Int.eq_ofNat_of_zero_le (hlo.trans hmid.1)
      have hmidlt : mid < xa.elems.length := by omega
      have hread := h.read mid hmidlt
      simp only [hmid_eq] at hmid ⊢
      rw [hread, ok_bind]
      have hmono := fun {i j : Nat} => cmp_of_pairwise h.order key (i := i) (j := j)
      by_cases hlt : c.cmp key xa.elems[mid] < 0
      · rw [if_pos hlt]
        refine ih ⟨hlo, by omega, hbefore, fun i hi' hgt => ?_⟩ (by omega) (by omega)
        exact (hmono (show mid ≤ i by omega) hi').1 hlt
      · by_cases hgt : c.cmp key xa.elems[mid] > 0
        · rw [if_neg hlt, if_pos hgt]
          refine ih ⟨by omega, hhi, fun i hi' hlt' => ?_, hafter⟩ (by omega) (by omega)
          exact (hmono (show i ≤ mid by omega) hmidlt).2 hgt
        · rw [if_neg hlt, if_neg hgt]
          have heq : c.cmp key xa.elems[mid] = 0 := by omega
          obtain ⟨l, rfl⟩ := Int.eq_ofNat_of_zero_le hlo
          obtain ⟨u, rfl⟩ := Int.eq_ofNat_of_zero_le (show 0 ≤ hi by omega)
          have hlov : c.cmp key xa.elems[l] ≥ 0 := by
            have := (hmono (show l ≤ mid by omega) hmidlt).1
            omega
          have hhiv : c.cmp key xa.elems[u] ≤ 0 := by
            have := (hmono (show mid ≤ u by omega) (by omega)).2
            omega
          obtain ⟨first, hfirst, hfle, hf⟩ := expandFirst_spec h hmidlt heq
          obtain ⟨last, hlast, hlle, hllt, hl⟩ := expandLast_spec h (xa.usedsizeE - 1 - mid) hmidlt
            (by have := h.length; omega) heq
          refine ⟨some (first, last), ?_, hfle.trans hlle, hllt, fun i hi' => ?_⟩
          · rw [h.read l (by omega), ok_bind, assertThat_of hlov, ok_bind, h.read u (by omega), ok_bind,
              assertThat_of hhiv, ok_bind]
            simp only [Int.toNat_natCast, hfirst, hlast, ok_bind]
            rfl
          · rcases le_total i mid with hle | hge
            · rw [hf i hi' hle]
              exact (and_iff_left (hle.trans hlle)).symm
            · rw [hl i hi' hge]
              exact (and_iff_right (hfle.trans hge)).symm

/-- **`VG_(lookupXA)`** on a sorted array. -/
theorem lookupXA_spec (h : xa.Ok) (hc : xa.cmpFn = some c) (hsorted : xa.sorted = true) (key : α) :
    ∃ r, lookupXA xa key = .ok r ∧ Finds xa c key r := by
  obtain ⟨c', hc', hord⟩ := h.inOrder hsorted
  obtain rfl := Option.some.inj (hc.symm.trans hc')
  have hlen := h.length_elems
  rw [lookupXA, hc]
  dsimp only
  rw [assertThat_of hsorted, ok_bind]
  refine lookupXALoop_spec ⟨fun n hn => indexXA_spec h.toSane hn, hlen, hord⟩ ⟨le_rfl, by omega, fun i hi hlt => ?_,
    fun i hi hgt => ?_⟩ (by omega) (Nat.succ_pos _)
  · omega
  · omega

/-! ## All runs -/

/-- The arrays are sane and stand for the lists. -/
structure Refines (st : List (XArray α)) (lists : List (AList α)) : Prop where
  ok : ∀ xa ∈ st, xa.Ok
  lists : st.map XArray.abs = lists

variable {lists : List (AList α)} {i : Nat}

/-- An operation on one array. -/
theorem Refines.modify (h : Refines st lists) (hi : st[i]? = some xa) {f : XArray α → Result (XArray α)}
    {g : AList α → AList α} (hf : ∃ xa', f xa = .ok xa' ∧ xa'.Ok ∧ xa'.abs = g xa.abs) :
    ∃ st', modifyXA st i f = .ok st' ∧ Refines st' (lists.modify i g) := by
  obtain ⟨xa', hrun, hok, habs⟩ := hf
  refine ⟨st.set i xa', by rw [modifyXA, hi]; dsimp only; rw [hrun]; rfl, fun xa hxa => ?_, ?_⟩
  · rcases List.mem_or_eq_of_mem_set hxa with hold | rfl
    · exact h.ok xa hold
    · exact hok
  · have hlt := (List.getElem?_eq_some_iff.mp hi).1
    rw [← h.lists, List.map_set, habs]
    refine List.ext_getElem? fun j => ?_
    rw [List.getElem?_set, List.getElem?_modify]
    by_cases hij : i = j
    · subst hij
      have hget : st[i] = xa := (List.getElem?_eq_some_iff.mp hi).2
      simp [hlt, hget]
    · simp [hij]

/-- One more array. -/
theorem Refines.append (h : Refines st lists) (hok : xa.Ok) : Refines (st ++ [xa]) (lists ++ [xa.abs]) := by
  refine ⟨fun y hy => ?_, ?_⟩
  · rcases List.mem_append.mp hy with hy | hy
    · exact h.ok y hy
    · rwa [List.mem_singleton.mp hy]
  · rw [List.map_append, h.lists]
    rfl

/-- A row of elements is added. -/
theorem appendAll_spec (env : XEnv α) (h : xa.Sane) (bytes : List α)
    (hblock : bytes ≠ [] → xa.totsizeE = 0 → xa.arr = none) :
    ∃ xa', bytes.foldlM (appendE env) xa = .ok xa' ∧ xa'.Sane ∧ xa'.elems = xa.elems ++ bytes ∧ xa'.cmpFn = xa.cmpFn := by
  induction bytes generalizing xa with
  | nil => exact ⟨xa, rfl, h, (List.append_nil _).symm, rfl⟩
  | cons b bytes ih =>
    obtain ⟨xa₁, hrun, h₁, helems₁, hcmp₁, hpos, -⟩ := appendE_spec env h (hblock (List.cons_ne_nil _ _)) b
    obtain ⟨xa', hrest, h', helems', hcmp'⟩ := ih h₁ fun _ h0 => absurd h0 hpos.ne'
    refine ⟨xa', by rw [List.foldlM_cons, hrun, ok_bind, hrest], h', ?_, hcmp'.trans hcmp₁⟩
    rw [helems', helems₁, List.append_assoc]
    rfl

/-- An array that has just been changed does not say that it is sorted. -/
theorem XArray.Sane.unsorted (h : xa.Sane) : ({ xa with sorted := false } : XArray α).Ok :=
  ⟨⟨h.size, h.used_le, h.room, h.null⟩, fun hf => (Bool.false_ne_true hf).elim⟩

/-- **One operation** means what it should, if it does not add to a block without room. -/
theorem xaStep_refines (env : XEnv α) (h : Refines st lists) (hin : InRange st op) (hblock : HasNoEmptyBlock st op) :
    ∃ st', xaStep env st op = .ok st' ∧ Refines st' (absStep env lists op) := by
  have hon : ∀ i, op.on = some i → ∃ xa, st[i]? = some xa ∧ xa.Ok ∧ op.fits xa := by
    intro i hi
    obtain ⟨xa, hxa, hfits⟩ := hin.2 i hi
    exact ⟨xa, hxa, h.ok xa (List.mem_of_getElem? hxa), hfits⟩
  cases op with
  | new elemSzB =>
    have hsz := hin.1 elemSzB rfl
    have hok : (⟨none, elemSzB, none, 0, 0, false⟩ : XArray α).Ok := by
      refine ⟨⟨hsz, le_rfl, fun arr harr => ?_, fun _ => rfl⟩, fun hf => (Bool.false_ne_true hf).elim⟩
      cases harr
    refine ⟨st ++ [⟨none, elemSzB, none, 0, 0, false⟩], ?_, h.append hok⟩
    rw [xaStep, newXA, assertThat_of hsz]
    rfl
  | add i elem =>
    obtain ⟨xa, hi, hxa, -⟩ := hon i rfl
    refine h.modify hi ?_
    obtain ⟨xa', hrun, h', helems, hcmp, -⟩ := appendE_spec env hxa.toSane (hblock rfl i rfl xa hi) elem
    refine ⟨_, ?_, h'.unsorted, ?_⟩
    · rw [addToXA, assertThat_of hxa.used_le, ok_bind, hrun]
      rfl
    · show (⟨xa'.elems, xa'.cmpFn⟩ : AList α) = _
      rw [helems, hcmp]
      rfl
  | addBytes i bytes =>
    obtain ⟨xa, hi, hxa, hfits⟩ := hon i rfl
    refine h.modify hi ?_
    obtain ⟨xa', hrun, h', helems, hcmp⟩ := appendAll_spec env hxa.toSane bytes fun hne => by
      refine hblock ?_ i rfl xa hi
      cases bytes with
      | nil => exact absurd rfl hne
      | cons b bytes => rfl
    refine ⟨_, ?_, h'.unsorted, ?_⟩
    · rw [addBytesToXA, assertThat_of (show xa.elemSzB = 1 from hfits), ok_bind, assertThat_of hxa.used_le, ok_bind]
      dsimp only
      rw [hrun]
      rfl
    · show (⟨xa'.elems, xa'.cmpFn⟩ : AList α) = _
      rw [helems, hcmp]
      rfl
  | dropTail i n =>
    obtain ⟨xa, hi, hxa, hfits⟩ := hon i rfl
    exact h.modify hi (dropTailXA_spec hxa hfits)
  | clone i =>
    obtain ⟨xa, hi, hxa, -⟩ := hon i rfl
    obtain ⟨xa', hrun, h', habs⟩ := cloneXA_spec env hxa
    refine ⟨st ++ [xa'], ?_, ?_⟩
    · rw [xaStep, hi]
      dsimp only
      rw [hrun]
      rfl
    · have hlist : lists[i]?.toList = [xa'.abs] := by
        rw [← h.lists, List.getElem?_map, hi, habs]
        rfl
      rw [absStep, hlist]
      exact h.append h'
  | setCmpFn i compar =>
    obtain ⟨xa, hi, hxa, -⟩ := hon i rfl
    have hsane : ({ xa with cmpFn := some compar } : XArray α).Sane := ⟨hxa.size, hxa.used_le, hxa.room, hxa.null⟩
    exact h.modify hi ⟨_, rfl, hsane.unsorted, rfl⟩
  | sort i =>
    obtain ⟨xa, hi, hxa, hfits⟩ := hon i rfl
    obtain ⟨c, hc⟩ := Option.isSome_iff_exists.mp hfits
    obtain ⟨xa', hrun, h', habs⟩ := sortXA_spec env hxa hc
    refine h.modify hi ⟨xa', hrun, h', ?_⟩
    rw [habs, XArray.abs, hc]
    rfl
  | index i n =>
    obtain ⟨xa, hi, hxa, hfits⟩ := hon i rfl
    have hread := indexXA_spec hxa.toSane (n := n) (by rw [hxa.length_elems]; exact hfits)
    obtain ⟨st', hrun, hst'⟩ := h.modify hi (f := fun xa => do
      let _ ← indexXA xa n
      return xa) (g := id) ⟨xa, by rw [hread]; rfl, hxa, rfl⟩
    refine ⟨st', hrun, ?_⟩
    rwa [List.modify_id] at hst'

/-- Other operations end in a failed assertion. -/
theorem xaStep_fails (env : XEnv α) (h : Refines st lists) (hin : InRange st op) (hblock : ¬ HasNoEmptyBlock st op) :
    xaStep env st op = .error .assertFailed := by
  simp only [HasNoEmptyBlock, not_forall] at hblock
  obtain ⟨hadds, i, hi, xa, hxa, htot, harr⟩ := hblock
  have hok := h.ok xa (List.mem_of_getElem? hxa)
  obtain ⟨xa', hxa', hfits⟩ := hin.2 i hi
  obtain rfl := Option.some.inj ((Option.mem_def.mp hxa).symm.trans hxa')
  cases op with
  | add j elem =>
    obtain rfl := Option.some.inj hi
    rw [xaStep, modifyXA, hxa]
    dsimp only
    rw [addToXA, assertThat_of hok.used_le, ok_bind, appendE_fails env hok.toSane htot harr]
    rfl
  | addBytes j bytes =>
    obtain rfl := Option.some.inj hi
    cases bytes with
    | nil => cases hadds
    | cons b bytes =>
      rw [xaStep, modifyXA, hxa]
      dsimp only
      rw [addBytesToXA, assertThat_of (show xa.elemSzB = 1 from hfits), ok_bind, assertThat_of hok.used_le, ok_bind,
        List.foldlM_cons, appendE_fails env hok.toSane htot harr]
      rfl
  | _ => cases hadds

end

/-- **Arrays are lists.** A run of operations with arguments in range returns if and only if no
element is added to an array that has a block of memory without room. Then each array is the list
that the operations make, its elements can be read, and a search in a sorted array finds all the
elements that are equal to the key and no others. -/
theorem xarray_runs {α : Type} (env : XEnv α) {ops : List (XOp α)} (hin : runMeets (xaStep env) InRange [] ops) :
    ((∃ st, runSteps (xaStep env) [] ops = .ok st) ↔ runMeets (xaStep env) HasNoEmptyBlock [] ops) ∧
    ∀ st, runSteps (xaStep env) [] ops = .ok st → st.map XArray.abs = ops.foldl (absStep env) [] ∧ ∀ xa ∈ st,
      (∀ n (hn : n < xa.elems.length), indexXA xa n = .ok xa.elems[n]) ∧
      ∀ c key, xa.cmpFn = some c → xa.sorted = true → ∃ r, lookupXA xa key = .ok r ∧ Finds xa c key r := by
  have hempty : Refines ([] : List (XArray α)) [] := ⟨by simp, rfl⟩
  have hiff : (∃ st, runSteps (xaStep env) [] ops = .ok st) ↔ runMeets (xaStep env) HasNoEmptyBlock [] ops :=
    runSteps_iff_meets (fun st => ∃ lists, Refines st lists) (fun st op h hin hblock => by
      obtain ⟨lists, h⟩ := h
      obtain ⟨st', hrun, h'⟩ := xaStep_refines env h hin hblock
      exact ⟨st', hrun, _, h'⟩)
    (fun st op h hin hblock => by
      obtain ⟨lists, h⟩ := h
      exact ⟨_, xaStep_fails env h hin hblock⟩) ⟨[], hempty⟩ hin
  have hstep : ∀ st lists op, Refines st lists → InRange st op ∧ HasNoEmptyBlock st op →
      ∃ st', xaStep env st op = .ok st' ∧ Refines st' (absStep env lists op) :=
    fun st lists op h hP => xaStep_refines env h hP.1 hP.2
  refine ⟨hiff, fun st hrun => ?_⟩
  obtain ⟨st', hrun', h'⟩ : ∃ st', runSteps (xaStep env) [] ops = .ok st' ∧ Refines st' (ops.foldl (absStep env) []) :=
    runSteps_sim hstep hempty (runMeets_and hin (hiff.mp ⟨st, hrun⟩))
  obtain rfl := Except.ok.inj (hrun.symm.trans hrun')
  exact ⟨h'.lists, fun xa hxa => ⟨fun n hn => indexXA_spec (h'.ok xa hxa).toSane hn,
    fun c key hc hsorted => lookupXA_spec (h'.ok xa hxa) hc hsorted key⟩⟩

/-- The numbers in their order. -/
def natCmp : CmpFn Nat where
  cmp := fun a b => (a : Int) - b
  swap := by
    intro a b
    omega
  trans := by
    intro a b c
    omega

/-- New memory is full of zeros, and the arrays are sorted by insertion. -/
def natXEnv : XEnv Nat where
  junk := fun n => List.replicate n 0
  length_junk := fun _ => List.length_replicate
  ssort := fun c => insertionSsort c.cmp (fun a b => (le_total (c.cmp a b) 0).imp id (c.swap b a).mpr) c.trans

theorem inRange_of {st : List (XArray Nat)} {op : XOp Nat} (hnew : ∀ elemSzB, op ≠ .new elemSzB) {i : Nat} {xa : XArray Nat}
    (hon : op.on = some i) (hxa : st[i]? = some xa) (hfits : op.fits xa) : InRange st op := by
  refine ⟨fun elemSzB h => absurd h (hnew elemSzB), fun j hj => ⟨xa, ?_, hfits⟩⟩
  obtain rfl := Option.some.inj (hon.symm.trans hj)
  exact hxa

/-- Two elements are added, and the last one goes. -/
theorem xarray_runs_two :
    ((∃ st, runSteps (xaStep natXEnv) [] [.new 4, .add 0 7, .add 0 5, .dropTail 0 1] = .ok st) ↔
      runMeets (xaStep natXEnv) HasNoEmptyBlock [] [.new 4, .add 0 7, .add 0 5, .dropTail 0 1]) ∧
    ∀ st, runSteps (xaStep natXEnv) [] [.new 4, .add 0 7, .add 0 5, .dropTail 0 1] = .ok st →
      st.map XArray.abs = [.new 4, .add 0 7, .add 0 5, .dropTail 0 1].foldl (absStep natXEnv) [] ∧ ∀ xa ∈ st,
      (∀ n (hn : n < xa.elems.length), indexXA xa n = .ok xa.elems[n]) ∧
      ∀ c key, xa.cmpFn = some c → xa.sorted = true → ∃ r, lookupXA xa key = .ok r ∧ Finds xa c key r := by
  refine xarray_runs natXEnv ⟨⟨fun n h => ?_, fun i hi => by cases hi⟩, fun st₁ h₁ => ?_⟩
  · obtain rfl := XOp.new.inj h
    decide
  obtain rfl := Except.ok.inj h₁
  refine ⟨inRange_of (by simp) rfl rfl trivial, fun st₂ h₂ => ?_⟩
  obtain rfl := Except.ok.inj h₂
  refine ⟨inRange_of (by simp) rfl rfl trivial, fun st₃ h₃ => ?_⟩
  obtain rfl := Except.ok.inj h₃
  exact ⟨inRange_of (by simp) rfl rfl (Nat.le_add_left 1 1), fun _ _ => trivial⟩

/-- An array becomes empty and is cloned; nothing can be added to the clone. -/
theorem emptyClone_add : runMeets (xaStep natXEnv) InRange [] [.new 4, .add 0 7, .dropTail 0 1, .clone 0, .add 1 7] ∧
    ¬ ∃ st, runSteps (xaStep natXEnv) [] [.new 4, .add 0 7, .dropTail 0 1, .clone 0, .add 1 7] = .ok st := by
  constructor
  · refine ⟨⟨fun n h => ?_, fun i hi => by cases hi⟩, fun st₁ h₁ => ?_⟩
    · obtain rfl := XOp.new.inj h
      decide
    obtain rfl := Except.ok.inj h₁
    refine ⟨inRange_of (by simp) rfl rfl trivial, fun st₂ h₂ => ?_⟩
    obtain rfl := Except.ok.inj h₂
    refine ⟨inRange_of (by simp) rfl rfl (Nat.le_refl 1), fun st₃ h₃ => ?_⟩
    obtain rfl := Except.ok.inj h₃
    refine ⟨inRange_of (by simp) rfl rfl trivial, fun st₄ h₄ => ?_⟩
    obtain rfl := Except.ok.inj h₄
    exact ⟨inRange_of (by simp) rfl rfl trivial, fun _ _ => trivial⟩
  · rintro ⟨st, hrun⟩
    cases hrun

end Valgrind.Coregrind
