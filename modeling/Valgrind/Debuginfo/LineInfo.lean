import Valgrind.Debuginfo.Storage

/-!
# Adding to the location table (`m_debuginfo/storage.c`)

`ML_(addLineInfo)` computes the size of an entry as an `Int`, whatever the width of the addresses,
and keeps it in a field of 12 bits. `addLineInfo_iff` says when the entry that is stored has the
size that is meant, and no assertion fails.
-/

namespace Valgrind.Debuginfo

/-! ## The model -/

section

variable [Machine]

/-- `DebugInfo`, as far as it is about locations: `loctab` has `loctab_used` entries. -/
structure DebugInfo where
  haveRxMap : Bool
  haveRwMap : Bool
  rxMapAvma : Nat
  rxMapSize : Nat
  loctabSize : Nat
  loctab : List DiLoc
  deriving DecidableEq, Repr

/-- `MAX_LINENO`. -/
def maxLineno : Nat := 2 ^ 20 - 1

/-- The size of the table that replaces a full one. -/
def newSz (loctabSize : Nat) : Nat :=
  let newSz := 2 * loctabSize % 2 ^ 32
  if newSz = 0 then 500 else newSz

/-- `addLoc`. The entries are copied to the new table, whatever its size. -/
def addLoc (di : DebugInfo) (loc : DiLoc) : Result DebugInfo := do
  assertThat (loc.size > 0)
  let di ← (if di.loctab.length = di.loctabSize then
      if di.loctab.length < newSz di.loctabSize then pure { di with loctabSize := newSz di.loctabSize }
      else throw .fault
    else pure di)
  let di := { di with loctab := di.loctab ++ [loc] }
  assertThat (di.loctab.length ≤ di.loctabSize)
  return di

/-- `(UShort)size`, in a field of 12 bits. -/
def sizeField (size : Int) : Nat := (size % 2 ^ 16 % 2 ^ 12).toNat

/-- The entry falls outside the r-x mapped area. -/
def Outside (di : DebugInfo) (this next : Nat) : Prop :=
  subW next 1 < di.rxMapAvma ∨ this ≥ addW di.rxMapAvma di.rxMapSize

instance (di : DebugInfo) (this next : Nat) : Decidable (Outside di this next) :=
  inferInstanceAs (Decidable (_ ∨ _))

/-- `ML_(addLineInfo)`. -/
def addLineInfo (di : DebugInfo) (filename : List Char) (dirname : Option (List Char)) (this next : Nat)
    (lineno : Int) : Result DebugInfo :=
  let size := toInt (subW next this)
  if this = next then return di
  else do
    let size := if this > next then 1 else size
    let size := if size > maxLocSize then 1 else size
    assertThat (di.haveRxMap = true ∧ di.haveRwMap = true)
    if Outside di this next then return di
    else do
      assertThat (lineno ≥ 0)
      if lineno > maxLineno then return di
      else addLoc di ⟨this, sizeField size, lineno.toNat, filename, dirname⟩

/-! ## The size of an entry -/

/-- The size that is meant. -/
def locSize (this next : Nat) : Nat := if this < next ∧ next - this ≤ maxLocSize then next - this else 1

/-- The difference of the addresses survives the conversion to `Int` and the field of 12 bits: it is
small enough, or its lower half is a large positive `Int`, or what is left of it is 1. -/
def Survives (d : Nat) : Prop :=
  d ≤ maxLocSize ∨ (maxLocSize < d % 2 ^ 32 ∧ d % 2 ^ 32 < 2 ^ 31) ∨
    (d % 2 ^ 12 = 1 ∧ (d % 2 ^ 32 = 1 ∨ 2 ^ 31 ≤ d % 2 ^ 32))

instance (d : Nat) : Decidable (Survives d) := inferInstanceAs (Decidable (_ ∨ _ ∨ _))

variable {di : DebugInfo} {this next d : Nat} {lineno : Int} {filename : List Char} {dirname : Option (List Char)}

omit [Machine] in
/-- The field for the difference `d` of two addresses that are in order. -/
theorem sizeField_iff (hd : 0 < d) :
    sizeField (if toInt d > maxLocSize then 1 else toInt d) = (if d ≤ maxLocSize then d else 1) ↔ Survives d := by
  unfold sizeField toInt Survives maxLocSize
  rw [Int.bmod_def]
  split_ifs <;> omega

/-- The field for any two addresses. -/
theorem sizeField_eq_iff (hnext : next < wordMod) (hne : this ≠ next) :
    sizeField (if (if this > next then 1 else toInt (subW next this)) > (maxLocSize : Int) then 1 else
      if this > next then 1 else toInt (subW next this)) = locSize this next ↔ next < this ∨ Survives (next - this) := by
  rcases Nat.lt_or_gt_of_ne hne with hlt | hgt
  · have hloc : locSize this next = if next - this ≤ maxLocSize then next - this else 1 := by
      unfold locSize
      simp only [hlt, true_and]
    rw [if_neg hlt.asymm, subW_of_le hnext hlt.le, hloc, sizeField_iff (Nat.sub_pos_of_lt hlt)]
    exact (or_iff_right hlt.asymm).symm
  · have hloc : locSize this next = 1 := if_neg fun h => hgt.asymm h.1
    rw [if_pos hgt, hloc]
    exact iff_of_true (by decide) (.inl hgt)

omit [Machine] in
theorem locSize_pos (this next : Nat) : 0 < locSize this next := by
  unfold locSize
  split <;> omega

/-! ## Adding an entry -/

/-- The table has room for an entry, or twice its size is still an `UInt`. -/
def Grows (di : DebugInfo) : Prop := di.loctab.length < di.loctabSize ∨ 2 * di.loctabSize < 2 ^ 32

instance (di : DebugInfo) : Decidable (Grows di) := inferInstanceAs (Decidable (_ ∨ _))

omit [Machine] in
theorem lt_newSz_iff {n : Nat} (hn : n < 2 ^ 32) : n < newSz n ↔ 2 * n < 2 ^ 32 := by
  unfold newSz
  dsimp only
  split_ifs <;> omega

omit [Machine] in
/-- An entry is appended when it is not empty and the table can grow. -/
theorem addLoc_iff (hused : di.loctab.length ≤ di.loctabSize) (hsize : di.loctabSize < 2 ^ 32) {loc : DiLoc}
    {P : List DiLoc → Prop} :
    (∃ di', addLoc di loc = .ok di' ∧ P di'.loctab) ↔ 0 < loc.size ∧ Grows di ∧ P (di.loctab ++ [loc]) := by
  unfold addLoc
  by_cases hpos : loc.size > 0
  · rw [assertThat_of hpos, ok_bind, and_iff_right (show 0 < loc.size from hpos)]
    have hdone : ∀ n, di.loctab.length < n → (do
        let di' ← (pure { di with loctabSize := n } : Result DebugInfo)
        let di' := { di' with loctab := di'.loctab ++ [loc] }
        assertThat (di'.loctab.length ≤ di'.loctabSize)
        return di') = .ok { di with loctabSize := n, loctab := di.loctab ++ [loc] } := fun n hn => by
      rw [pure_bind]
      dsimp only
      rw [assertThat_of (show (di.loctab ++ [loc]).length ≤ n by simpa using hn)]
      rfl
    by_cases hfull : di.loctab.length = di.loctabSize
    · have hgrows : Grows di ↔ di.loctab.length < newSz di.loctabSize := by
        unfold Grows
        rw [hfull, lt_newSz_iff hsize, or_iff_right (Nat.lt_irrefl _)]
      rw [if_pos hfull, hgrows]
      by_cases hnew : di.loctab.length < newSz di.loctabSize
      · rw [if_pos hnew, hdone _ hnew]
        simp [hnew]
      · rw [if_neg hnew]
        refine iff_of_false ?_ fun h => hnew h.1
        rintro ⟨di', h, -⟩
        cases h
    · have hlt := Nat.lt_of_le_of_ne hused hfull
      have hrun := hdone _ hlt
      rw [if_neg hfull, hrun, and_iff_right (show Grows di from .inl hlt)]
      simp
  · refine iff_of_false ?_ fun h => hpos h.1
    rintro ⟨di', h, -⟩
    rw [assertThat, if_neg hpos] at h
    cases h

/-- The call returns, and the entry that it has added, if it has added one, starts at `this` and has
the size that is meant. -/
def Added (di : DebugInfo) (filename : List Char) (dirname : Option (List Char)) (this next : Nat) (lineno : Int) :
    Prop :=
  ∃ di', addLineInfo di filename dirname this next lineno = .ok di' ∧
    (di'.loctab = di.loctab ∨
      ∃ loc, di'.loctab = di.loctab ++ [loc] ∧ loc.addr = this ∧ loc.size = locSize this next)

/-- **Adding an entry** works out unless the difference of the addresses does not survive, or the table
cannot grow. -/
theorem addLineInfo_iff (hmaps : di.haveRxMap = true ∧ di.haveRwMap = true)
    (hused : di.loctab.length ≤ di.loctabSize) (hsize : di.loctabSize < 2 ^ 32) (hnext : next < wordMod)
    (hlineno : 0 ≤ lineno ∧ lineno ≤ maxLineno) :
    Added di filename dirname this next lineno ↔
      this = next ∨ Outside di this next ∨ (next < this ∨ Survives (next - this)) ∧ Grows di := by
  unfold Added addLineInfo
  by_cases hne : this = next
  · rw [if_pos hne]
    exact iff_of_true ⟨di, rfl, .inl rfl⟩ (.inl hne)
  rw [if_neg hne, assertThat_of hmaps, or_iff_right hne]
  by_cases hout : Outside di this next
  · simp only [ok_bind, if_pos hout]
    exact iff_of_true ⟨di, rfl, .inl rfl⟩ (.inl hout)
  simp only [ok_bind, if_neg hout, assertThat_of hlineno.1, if_neg (not_lt.mpr hlineno.2), or_iff_right hout]
  rw [← sizeField_eq_iff hnext hne]
  refine (addLoc_iff (P := fun l => l = di.loctab ∨
    ∃ loc, l = di.loctab ++ [loc] ∧ loc.addr = this ∧ loc.size = locSize this next) hused hsize).trans ?_
  constructor
  · rintro ⟨-, hgrows, habs | ⟨loc, hloc, -, hlocSize⟩⟩
    · simp at habs
    · obtain rfl := List.singleton_inj.mp (List.append_cancel_left hloc)
      exact ⟨hlocSize, hgrows⟩
  · rintro ⟨heq, hgrows⟩
    exact ⟨heq ▸ locSize_pos this next, hgrows, .inr ⟨_, rfl, rfl, heq⟩⟩

end

/-- A mapping of one page, and an empty table. -/
def sampleInfo : DebugInfo := ⟨true, true, 4194304, 4096, 0, []⟩

/-- Three lines of ten bytes. -/
theorem addLineInfo_iff_sample : @Added amd64Linux sampleInfo ['a'] none 4194304 4194314 3 :=
  (@addLineInfo_iff amd64Linux sampleInfo 4194304 4194314 3 ['a'] none ⟨rfl, rfl⟩ (by decide) (by decide)
    (by decide) (by decide)).mpr (.inr (.inr ⟨.inr (by decide), by decide⟩))

/-- The addresses are 4 GB apart: the difference is zero as an `Int`, and an assertion fails. -/
theorem addLineInfo_far : ¬ @Added amd64Linux sampleInfo ['a'] none 4194304 4299161600 3 := by
  rintro ⟨di', h, -⟩
  have hfail : @addLineInfo amd64Linux sampleInfo ['a'] none 4194304 4299161600 3 = .error .assertFailed := by decide
  rw [hfail] at h
  exact nomatch h

end Valgrind.Debuginfo
