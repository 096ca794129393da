import Valgrind.Basics.Machine
import Valgrind.Basics.Result
import Valgrind.Lib.Intervals

/-!
# The segment array of the address space manager

`m_aspacemgr/aspacemgr-linux.c` keeps one array `nsegments[]` that describes the
whole address space, page by page, and one table `segnames[]` of file names that
the segments refer to by index. This module holds the data types and the
functions that read and rewrite the array itself: the sanity predicate
`sane_NSegment`, merging, splitting, preening and `add_segment`. Everything the
rest of Valgrind calls is built from these (`Aspacemgr/Ops.lean`).

The array is a list: `nsegments[0 .. nsegments_used-1]`. Sliding entries up or
down to open or close a hole is taking and dropping of list segments. The file
name table is `segnames[0 .. segnames_used-1]`.
-/

namespace Valgrind.Aspacemgr

open Machine

/-! ## Data -/

/-- `SegKind`. -/
inductive SegKind where
  | skFree
  | skAnonC
  | skAnonV
  | skFileC
  | skFileV
  | skShmC
  | skResvn
  deriving DecidableEq, Repr

/-- A file mapping, of the client or of Valgrind. -/
def SegKind.isFile : SegKind → Bool
  | .skFileC | .skFileV => true
  | _ => false

/-- `ShrinkMode`: how a reservation can be resized. -/
inductive ShrinkMode where
  | smLower
  | smFixed
  | smUpper
  deriving DecidableEq, Repr

/-- `NSegment`. `start` and `end_` are the lowest and the highest address; the
file offset is a 64-bit quantity on every host. -/
structure NSegment where
  kind : SegKind
  start : Nat
  end_ : Nat
  smode : ShrinkMode
  dev : Nat
  ino : Nat
  mode : Nat
  offset : BitVec 64
  fnIdx : Int
  hasR : Bool
  hasW : Bool
  hasX : Bool
  hasT : Bool
  isCH : Bool
  mark : Bool
  deriving DecidableEq, Repr

/-- `init_nsegment`. -/
def initNsegment : NSegment where
  kind := .skFree
  start := 0
  end_ := 0
  smode := .smFixed
  dev := 0
  ino := 0
  mode := 0
  offset := 0
  fnIdx := -1
  hasR := false
  hasW := false
  hasX := false
  hasT := false
  isCH := false
  mark := false

instance : Inhabited NSegment := ⟨initNsegment⟩

/-- `SegName`: one slot of the file name table. -/
structure SegName where
  inUse : Bool
  mark : Bool
  fname : List UInt8
  deriving DecidableEq, Repr

/-- The state of the address space manager: the two tables and the limits that
`VG_(am_startup)` chooses. -/
structure Aspacem where
  nsegments : List NSegment
  segnames : List SegName
  minAddr : Nat
  maxAddr : Nat
  cStart : Nat
  vStart : Nat
  deriving DecidableEq, Repr

/-- `VG_N_SEGMENTS`. -/
def nSegmentsMax : Nat := 5000

/-- `VG_N_SEGNAMES`. -/
def nSegnamesMax : Nat := 1000

/-- `VG_MAX_SEGNAMELEN`. -/
def maxSegnameLen : Nat := 1000

/-- The name slot `j` exists and is in use. -/
def slotInUse (names : List SegName) (j : Int) : Bool :=
  decide (0 ≤ j ∧ j < names.length) && (names[j.toNat]?.map (·.inUse)).getD false

section Functions

variable [Machine]

/-! ## Sanity and merging -/

/-- `sane_NSegment`. -/
def saneNSegment (names : List SegName) (s : NSegment) : Bool :=
  -- no zero sized segments and no wraparounds
  decide (s.start < s.end_) && !s.mark
    && decide (isPageAligned s.start) && decide (isPageAligned (addW s.end_ 1))
    && match s.kind with
      | .skFree =>
        decide (s.smode = .smFixed)
          && decide (s.dev = 0 ∧ s.ino = 0 ∧ s.offset = 0 ∧ s.fnIdx = -1)
          && !s.hasR && !s.hasW && !s.hasX && !s.hasT && !s.isCH
      | .skAnonC | .skAnonV | .skShmC =>
        decide (s.smode = .smFixed)
          && decide (s.dev = 0 ∧ s.ino = 0 ∧ s.offset = 0 ∧ s.fnIdx = -1)
          && (if s.kind = .skAnonC then true else !s.isCH)
      | .skFileC | .skFileV =>
        decide (s.smode = .smFixed)
          && (decide (s.fnIdx = -1) || slotInUse names s.fnIdx)
          && !s.isCH
      | .skResvn =>
        decide (s.dev = 0 ∧ s.ino = 0 ∧ s.offset = 0 ∧ s.fnIdx = -1)
          && !s.hasR && !s.hasW && !s.hasX && !s.hasT && !s.isCH

/-- `maybe_merge_nsegments`: `s1` with `s2` merged into it, if they can be. -/
def maybeMergeNsegments (s1 s2 : NSegment) : Option NSegment :=
  if s1.kind ≠ s2.kind then none
  else if addW s1.end_ 1 ≠ s2.start then none
  else if s1.start > s2.end_ then none  -- would wrap around
  else
    match s1.kind with
    | .skFree => some { s1 with end_ := s2.end_ }
    | .skAnonC | .skAnonV =>
      if s1.hasR = s2.hasR ∧ s1.hasW = s2.hasW ∧ s1.hasX = s2.hasX ∧ s1.isCH = s2.isCH then
        some { s1 with end_ := s2.end_, hasT := s1.hasT || s2.hasT }
      else none
    | .skFileC | .skFileV =>
      if s1.hasR = s2.hasR ∧ s1.hasW = s2.hasW ∧ s1.hasX = s2.hasX
          ∧ s1.dev = s2.dev ∧ s1.ino = s2.ino
          ∧ s2.offset = s1.offset + BitVec.ofNat 64 s2.start - BitVec.ofNat 64 s1.start then
        some { s1 with end_ := s2.end_, hasT := s1.hasT || s2.hasT }
      else none
    | .skShmC => none
    | .skResvn =>
      if s1.smode = .smFixed ∧ s2.smode = .smFixed then some { s1 with end_ := s2.end_ }
      else none

/-! ## Preening -/

/-- Pass 1 of `preen_nsegments`, from the second entry on: every segment is sane
and starts where the previous one ended. -/
def preenCheckRest (names : List SegName) : NSegment → List NSegment → Result Unit
  | _, [] => .ok ()
  | prev, s :: rest => do
    assertThat (saneNSegment names s)
    assertThat (addW prev.end_ 1 = s.start)
    preenCheckRest names s rest

/-- Pass 2 of `preen_nsegments`: `w` is the entry being written, the list what
is still to be read. -/
def preenMerge : NSegment → List NSegment → List NSegment
  | w, [] => [w]
  | w, r :: rest =>
    match maybeMergeNsegments w r with
    | some w' => preenMerge w' rest
    | none => w :: preenMerge r rest

/-- Pass 3 of `preen_nsegments`, the marking loop: every name index is in range
and refers to a slot in use. -/
def preenMark (names : List SegName) : List NSegment → Result Unit
  | [] => .ok ()
  | s :: rest => do
    assertThat (-1 ≤ s.fnIdx ∧ s.fnIdx < names.length)
    if 0 ≤ s.fnIdx then assertThat (slotInUse names s.fnIdx)
    preenMark names rest

/-- Pass 3 of `preen_nsegments`, the release loop: slots that no segment refers
to are given up. -/
def preenRelease (segs : List NSegment) (names : List SegName) : List SegName :=
  names.mapIdx fun i n =>
    if segs.any fun s => decide (s.fnIdx = i) then { n with mark := true }
    else { inUse := false, mark := false, fname := [] }

/-- `preen_nsegments`. -/
def preenNsegments (am : Aspacem) : Result Aspacem :=
  match am.nsegments with
  | [] => .error .assertFailed
  | s :: rest => do
    assertThat (s.start = 0)
    assertThat (((s :: rest).getLastD s).end_ = addrMax)
    assertThat (saneNSegment am.segnames s)
    preenCheckRest am.segnames s rest
    let segs := preenMerge s rest
    preenMark am.segnames segs
    return { am with nsegments := segs, segnames := preenRelease segs am.segnames }

/-! ## Low level access and modification -/

/-- `nsegments[i]`. -/
def Aspacem.seg (am : Aspacem) (i : Nat) : NSegment := am.nsegments.getD i default

/-- `find_nsegment_idx`: binary search; not finding the address is a barf. -/
def findNsegmentIdx (am : Aspacem) (a : Nat) : Result Nat :=
  match Intervals.search (fun i => (am.seg i).start) (fun i => (am.seg i).end_ + 1)
      am.nsegments.length a with
  | some i => .ok i
  | none => .error .panic

/-- `VG_(am_find_nsegment)`: the index of the segment holding `a`, unless that is
free space. -/
def amFindNsegment (am : Aspacem) (a : Nat) : Result (Option Nat) := do
  let i ← findNsegmentIdx am a
  return if (am.seg i).kind = .skFree then none else some i

/-- `split_nsegment_at`. -/
def splitNsegmentAt (am : Aspacem) (a : Nat) : Result Aspacem := do
  assertThat (0 < a)
  assertThat (isPageAligned a)
  let i ← findNsegmentIdx am a
  let s := am.seg i
  if s.start = a then return am
  if nSegmentsMax ≤ am.nsegments.length then throw .tooLow
  let s₁ := { s with end_ := a - 1 }
  let s₂ := { s with
    start := a
    offset := if s.kind.isFile then s.offset + BitVec.ofNat 64 a - BitVec.ofNat 64 s.start
      else s.offset }
  assertThat (saneNSegment am.segnames s₁)
  assertThat (saneNSegment am.segnames s₂)
  return { am with
    nsegments := am.nsegments.take i ++ s₁ :: s₂ :: am.nsegments.drop (i + 1) }

/-- `split_nsegments_lo_and_hi`: the array split at both ends of the range, and
the indices of its first and last segment. -/
def splitNsegmentsLoAndHi (am : Aspacem) (sLo sHi : Nat) : Result (Aspacem × Nat × Nat) := do
  assertThat (sLo < sHi)
  assertThat (isPageAligned sLo)
  assertThat (isPageAligned (addW sHi 1))
  let am ← (if 0 < sLo then splitNsegmentAt am sLo else pure am)
  let am ← (if sHi < addW sHi 1 then splitNsegmentAt am (addW sHi 1) else pure am)
  let iLo ← findNsegmentIdx am sLo
  let iHi ← findNsegmentIdx am sHi
  assertThat (iLo ≤ iHi)
  assertThat ((am.seg iLo).start = sLo)
  assertThat ((am.seg iHi).end_ = sHi)
  return (am, iLo, iHi)

/-- `add_segment`: `seg` replaces whatever it overlaps. -/
def addSegment (am : Aspacem) (seg : NSegment) : Result Aspacem := do
  assertThat (seg.start ≤ seg.end_)
  assertThat (isPageAligned seg.start)
  assertThat (isPageAligned (addW seg.end_ 1))
  assertThat (saneNSegment am.segnames seg)
  let (am, iLo, iHi) ← splitNsegmentsLoAndHi am seg.start seg.end_
  preenNsegments { am with
    nsegments := am.nsegments.take iLo ++ seg :: am.nsegments.drop (iHi + 1) }

end Functions

end Valgrind.Aspacemgr
