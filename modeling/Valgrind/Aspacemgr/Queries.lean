import Valgrind.Aspacemgr.Segment

/-!
# Queries, the advisor and startup

The functions of `aspacemgr-linux.c` that only read the segment array, the file
name table allocator, and `VG_(am_startup)`. What the kernel answers is an
argument here: the list of mappings found in `/proc/self/maps`, and what is
known about a file descriptor.

A loop `for (i = iLo; i <= iHi; i++)` over the array is a fold over
`Aspacem.slice iLo iHi`.
-/

namespace Valgrind.Aspacemgr

open Machine

/-- What the kernel knows about a file descriptor: its device, inode and mode
(`get_inode_for_fd`), and its name (`get_name_for_fd`). -/
structure FdInfo where
  inode : Option (Nat × Nat × Nat)
  name : Option (List UInt8)
  deriving DecidableEq, Repr

/-- `prot & VKI_PROT_READ`. -/
def protR (prot : Nat) : Bool := prot.testBit 0

/-- `prot & VKI_PROT_WRITE`. -/
def protW (prot : Nat) : Bool := prot.testBit 1

/-- `prot & VKI_PROT_EXEC`. -/
def protX (prot : Nat) : Bool := prot.testBit 2

/-- `nsegments[iLo .. iHi]`, empty when `iHi < iLo`. -/
def Aspacem.slice (am : Aspacem) (iLo iHi : Nat) : List NSegment :=
  (am.nsegments.take (iHi + 1)).drop iLo

/-- `RKind`. -/
inductive RKind where
  | mFixed
  | mHint
  | mAny
  deriving DecidableEq, Repr

/-- `MapRequest`. -/
structure MapRequest where
  rkind : RKind
  start : Nat
  len : Nat
  deriving DecidableEq, Repr

/-- One line of `/proc/self/maps`, as `parse_procselfmaps` hands it to its
callback. -/
structure MapsLine where
  addr : Nat
  len : Nat
  prot : Nat
  dev : Nat
  ino : Nat
  offset : BitVec 64
  filename : Option (List UInt8)
  deriving DecidableEq, Repr

/-! ## The file name table -/

/-- `allocate_segname`: the slot of a name, and the table with the name in it;
`-1` if the name is too long to store. -/
def allocateSegname (names : List SegName) (name : List UInt8) : Result (List SegName × Int) :=
  if maxSegnameLen - 1 ≤ name.length then .ok (names, -1)
  else
    match names.findIdx? fun n => n.inUse && decide (n.fname = name) with
    | some i => .ok (names, i)
    | none =>
      match names.findIdx? fun n => !n.inUse with
      | some i => .ok (names.modify i fun n => { n with inUse := true, fname := name }, i)
      | none =>
        -- no free slots: advance the high-water mark
        if names.length + 1 < nSegnamesMax then
          .ok (names ++ [⟨true, false, name⟩], names.length)
        else .error .tooLow

/-- The tail shared by every function that maps a file: the device, inode, mode
and name of the descriptor go into the segment. -/
def attachFile (am : Aspacem) (fd : FdInfo) (seg : NSegment) : Result (Aspacem × NSegment) := do
  let seg := match fd.inode with
    | some (dev, ino, mode) => { seg with dev := dev, ino := ino, mode := mode }
    | none => seg
  match fd.name with
  | some name =>
    let (names, i) ← allocateSegname am.segnames name
    return ({ am with segnames := names }, { seg with fnIdx := i })
  | none => return (am, seg)

section Functions

variable [Machine]

/-! ## Reading the array -/

/-- `any_Ts_in_range`. -/
def anyTsInRange (am : Aspacem) (start len : Nat) : Result Bool := do
  assertThat (0 < len)
  assertThat (start < addW start len)
  let iLo ← findNsegmentIdx am start
  let iHi ← findNsegmentIdx am (subW (addW start len) 1)
  return (am.slice iLo iHi).any (·.hasT)

/-- The kinds of segment that `is_valid_for_client` lets pass. -/
def SegKind.clientOk (freeOk : Bool) : SegKind → Bool
  | .skFileC | .skAnonC | .skShmC => true
  | .skFree | .skResvn => freeOk
  | .skAnonV | .skFileV => false

/-- `is_valid_for_client`. -/
def isValidForClient (am : Aspacem) (start len prot : Nat) (freeOk : Bool) : Result Bool :=
  if len = 0 then .ok true  -- somewhat dubious case
  else if addW start len < start then .ok false  -- reject wraparounds
  else do
    let iLo ← findNsegmentIdx am start
    assertThat ((am.seg iLo).start ≤ start)
    -- the second search is skipped when the first segment already reaches far enough
    let iHi ← (if subW (addW start len) 1 ≤ (am.seg iLo).end_ then pure iLo
      else findNsegmentIdx am (subW (addW start len) 1))
    return (am.slice iLo iHi).all fun s =>
      s.kind.clientOk freeOk && (!protR prot || s.hasR) && (!protW prot || s.hasW)
        && (!protX prot || s.hasX)

/-- `VG_(am_is_valid_for_client)`. -/
def amIsValidForClient (am : Aspacem) (start len prot : Nat) : Result Bool :=
  isValidForClient am start len prot false

/-- `VG_(am_is_valid_for_client_or_free_or_resvn)`. -/
def amIsValidForClientOrFreeOrResvn (am : Aspacem) (start len prot : Nat) : Result Bool :=
  isValidForClient am start len prot true

/-- `is_valid_for_valgrind`. -/
def isValidForValgrind (am : Aspacem) (start len : Nat) : Result Bool :=
  if len = 0 then .ok true  -- somewhat dubious case
  else if addW start len < start then .ok false  -- reject wraparounds
  else do
    let iLo ← findNsegmentIdx am start
    let iHi ← findNsegmentIdx am (subW (addW start len) 1)
    return (am.slice iLo iHi).all fun s => decide (s.kind = .skFileV ∨ s.kind = .skAnonV)

/-! ## The advisor -/

/-- The hole that the default policy of `VG_(am_get_advisory)` looks at: a
request at `[reqStart, reqEnd]` fits into it as it stands. -/
def holdsFixed (s : NSegment) (reqStart reqEnd : Nat) : Bool :=
  decide (s.start ≤ reqStart) && decide (reqEnd ≤ s.end_)

/-- The search loop of `VG_(am_get_advisory)`: `n` segments are still to be
examined, `i` is the next one. Yields `(fixedIdx, floatIdx)`. -/
def advisoryLoop (am : Aspacem) (reqStart reqEnd reqLen : Nat) (fixedNotRequired : Bool) :
    Nat → Nat → Option Nat → Option Nat → Result (Option Nat × Option Nat)
  | 0, _, fixedIdx, floatIdx => .ok (fixedIdx, floatIdx)
  | n + 1, i, fixedIdx, floatIdx =>
    let s := am.seg i
    let next := if am.nsegments.length ≤ i + 1 then 0 else i + 1
    if s.kind ≠ .skFree then
      advisoryLoop am reqStart reqEnd reqLen fixedNotRequired n next fixedIdx floatIdx
    else do
      -- stay sane
      assertThat (s.start ≤ s.end_)
      assertThat (am.minAddr ≤ s.start)
      assertThat (s.end_ ≤ am.maxAddr)
      let holeLen := addW (subW s.end_ s.start) 1
      let fixedIdx :=
        if fixedIdx = none ∧ holdsFixed s reqStart reqEnd then some i else fixedIdx
      let floatIdx := if floatIdx = none ∧ reqLen ≤ holeLen then some i else floatIdx
      if (fixedNotRequired || fixedIdx.isSome) && floatIdx.isSome then
        return (fixedIdx, floatIdx)
      else advisoryLoop am reqStart reqEnd reqLen fixedNotRequired n next fixedIdx floatIdx

/-- An index found by the search is in the array and denotes free space. -/
def checkIdx (am : Aspacem) : Option Nat → Result Unit
  | none => .ok ()
  | some i => do
    assertThat (i < am.nsegments.length)
    assertThat ((am.seg i).kind = .skFree)

/-- The default policy of `VG_(am_get_advisory)`. -/
def defaultPolicy (am : Aspacem) (req : MapRequest) (startPoint reqStart reqEnd : Nat) :
    Result (Option Nat) := do
  let i ← findNsegmentIdx am startPoint
  let (fixedIdx, floatIdx) ← advisoryLoop am reqStart reqEnd req.len
    (decide (req.rkind = .mAny)) am.nsegments.length i none none
  checkIdx am fixedIdx
  checkIdx am floatIdx
  return match req.rkind with
    | .mFixed => fixedIdx.map fun _ => req.start
    | .mHint => (fixedIdx.map fun _ => req.start).or (floatIdx.map fun j => (am.seg j).start)
    | .mAny => floatIdx.map fun j => (am.seg j).start

/-- `VG_(am_get_advisory)`: the advised address, or nothing if the request is
vetoed. -/
def amGetAdvisory (am : Aspacem) (req : MapRequest) (forClient : Bool) : Result (Option Nat) := do
  let startPoint := if forClient then am.cStart else am.vStart
  let reqStart := if req.rkind = .mAny then 0 else req.start
  let reqEnd := subW (addW reqStart req.len) 1
  assertThat (0 < am.nsegments.length)
  if req.len = 0 then return none
  else if (req.rkind = .mFixed ∨ req.rkind = .mHint) ∧ addW req.start req.len < req.start then
    return none
  else if forClient = true ∧ req.rkind = .mFixed then
    -- policy exception 1: the client may trash its own mappings
    let iLo ← findNsegmentIdx am reqStart
    let iHi ← findNsegmentIdx am reqEnd
    return if (am.slice iLo iHi).all fun s => s.kind.clientOk true then some reqStart else none
  else if forClient = true ∧ req.rkind = .mHint then
    -- policy exception 2: anywhere it likes in free or reserved space
    let iLo ← findNsegmentIdx am reqStart
    let iHi ← findNsegmentIdx am reqEnd
    if (am.slice iLo iHi).all fun s => decide (s.kind = .skFree ∨ s.kind = .skResvn) then
      return some reqStart
    else defaultPolicy am req startPoint reqStart reqEnd
  else defaultPolicy am req startPoint reqStart reqEnd

/-- `VG_(am_get_advisory_client_simple)`. -/
def amGetAdvisoryClientSimple (am : Aspacem) (start len : Nat) : Result (Option Nat) :=
  amGetAdvisory am ⟨if start = 0 then .mAny else .mFixed, start, len⟩ true

/-! ## Startup -/

/-- `init_resvn`. -/
def initResvn (start end_ : Nat) : Result NSegment := do
  assertThat (start < end_)
  assertThat (isPageAligned start)
  assertThat (isPageAligned (addW end_ 1))
  return { initNsegment with kind := .skResvn, start := start, end_ := end_ }

/-- `read_maps_callback`. -/
def readMapsCallback (am : Aspacem) (l : MapsLine) : Result Aspacem := do
  let seg := { initNsegment with
    start := l.addr
    end_ := subW (addW l.addr l.len) 1
    dev := l.dev
    ino := l.ino
    offset := l.offset
    hasR := protR l.prot
    hasW := protW l.prot
    hasX := protX l.prot
    kind := if l.dev ≠ 0 ∧ l.ino ≠ 0 then .skFileV else .skAnonV }
  let (am, seg) ← attachFile am ⟨none, l.filename⟩ seg
  addSegment am seg

/-- The limits that `VG_(am_startup)` computes from the stack pointer, with the
single free segment it begins with. -/
def startupLimits (spAtStartup : Nat) : Aspacem :=
  let minAddr := 0x04000000
  let maxAddr := if wordB = 8 then 0x800000000 - 1 else subW (pgRoundDn spAtStartup) 1
  { nsegments := [{ initNsegment with start := 0, end_ := addrMax }]
    segnames := []
    minAddr := minAddr
    maxAddr := maxAddr
    cStart := minAddr
    vStart := pgRoundUp (addW (addW minAddr maxAddr) 1 / 2) }

/-- `VG_(am_startup)`, with the mappings that `/proc/self/maps` lists. Returns
the suggested end of the client's stack. -/
def amStartup (spAtStartup : Nat) (maps : List MapsLine) : Result (Aspacem × Nat) := do
  let am := startupLimits spAtStartup
  let suggestedClstackTop := addW (subW am.maxAddr (16 * 1024 * 1024)) pageSzB
  assertThat (isPageAligned am.minAddr)
  assertThat (isPageAligned (addW am.maxAddr 1))
  assertThat (isPageAligned am.cStart)
  assertThat (isPageAligned am.vStart)
  assertThat (isPageAligned (addW suggestedClstackTop 1))
  let am ← (if 0 < am.cStart then do addSegment am (← initResvn 0 (am.cStart - 1)) else pure am)
  let am ← (if am.maxAddr < addrMax then do
    addSegment am (← initResvn (am.maxAddr + 1) addrMax) else pure am)
  -- a reservation of one page at the notional client/valgrind boundary
  let am ← addSegment am (← initResvn am.vStart (subW (addW am.vStart pageSzB) 1))
  let am ← runSteps readMapsCallback am maps
  return (am, suggestedClstackTop)

end Functions

end Valgrind.Aspacemgr
