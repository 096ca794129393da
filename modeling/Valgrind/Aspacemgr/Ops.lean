import Valgrind.Aspacemgr.Queries

/-!
# The operations on the address space

Every function of `aspacemgr-linux.c` that changes the segment array after
startup. A system call made on the way is represented by its result, an extra
argument `kres`; calls that only repair a failed attempt leave the array alone
and are left out.

`TOp` are the operations that take part in keeping track of translations: those
that report a discard flag, those that change the map without one, and the one
that sets `hasT`. `Op` adds the mappings that Valgrind makes of its own accord.
A pointer `NSegment*` is the index of the entry it points at, `none` a pointer
to anything else.
-/

namespace Valgrind.Aspacemgr

open Machine

/-- `SysRes`: the result of a system call. -/
inductive SysRes where
  | success (res : Nat)
  | error (err : Nat)
  deriving DecidableEq, Repr

/-- `VKI_EINVAL`, as an error result. -/
def eINVAL : SysRes := .error 22

/-- `flags & VKI_MAP_ANONYMOUS`. -/
def mapAnonymous (flags : Nat) : Bool := flags.testBit 5

section Functions

variable [Machine]

/-- `start + len - 1`. -/
def lastByte (start len : Nat) : Nat := subW (addW start len) 1

/-! ## Notifications -/

/-- `VG_(am_notify_client_mmap)`. -/
def amNotifyClientMmap (am : Aspacem) (a len prot flags : Nat) (fd : FdInfo)
    (offset : BitVec 64) : Result (Aspacem × Bool) := do
  assertThat (0 < len)
  assertThat (isPageAligned a)
  assertThat (isPageAligned len)
  assertThat (isPageAligned offset.toNat)
  -- discard is needed if any of the just-trashed range had T
  let needDiscard ← anyTsInRange am a len
  let seg := { initNsegment with
    kind := if mapAnonymous flags then .skAnonC else .skFileC
    start := a
    end_ := lastByte a len
    hasR := protR prot
    hasW := protW prot
    hasX := protX prot }
  let (am, seg) ← (if mapAnonymous flags then pure (am, seg)
    else attachFile am fd { seg with offset := offset })
  let am ← addSegment am seg
  return (am, needDiscard)

/-- `VG_(am_notify_client_shmat)`. -/
def amNotifyClientShmat (am : Aspacem) (a len prot : Nat) : Result (Aspacem × Bool) := do
  assertThat (0 < len)
  assertThat (isPageAligned a)
  assertThat (isPageAligned len)
  let needDiscard ← anyTsInRange am a len
  let am ← addSegment am { initNsegment with
    kind := .skShmC
    start := a
    end_ := lastByte a len
    offset := 0
    hasR := protR prot
    hasW := protW prot
    hasX := protX prot }
  return (am, needDiscard)

/-- The body of the loop of `VG_(am_notify_mprotect)`: the permissions go into
every mapped segment. -/
def NSegment.protect (s : NSegment) (prot : Nat) : NSegment :=
  match s.kind with
  | .skFree | .skResvn => s
  | _ => { s with hasR := protR prot, hasW := protW prot, hasX := protX prot }

/-- `VG_(am_notify_mprotect)`. -/
def amNotifyMprotect (am : Aspacem) (start len prot : Nat) : Result (Aspacem × Bool) := do
  assertThat (isPageAligned start)
  assertThat (isPageAligned len)
  if len = 0 then return (am, false)
  else do
    -- discard is needed if we're dumping X permission
    let ts ← anyTsInRange am start len
    let needDiscard := ts && !protX prot
    let (am, _, _) ← splitNsegmentsLoAndHi am start (lastByte start len)
    let iLo ← findNsegmentIdx am start
    let iHi ← findNsegmentIdx am (lastByte start len)
    let mid := (am.slice iLo iHi).map (·.protect prot)
    assertThat (mid.all fun s =>
      decide (s.kind = .skFree ∨ s.kind = .skResvn) || saneNSegment am.segnames s)
    let am ← preenNsegments { am with
      nsegments := am.nsegments.take iLo ++ mid ++ am.nsegments.drop (iHi + 1) }
    return (am, needDiscard)

/-- The kind that an unmapped range gets in `VG_(am_notify_munmap)`. -/
def unmapKind (am : Aspacem) (start end_ : Nat) : SegKind :=
  if am.maxAddr < start ∧ am.maxAddr < addrMax then .skResvn
  else if end_ < am.minAddr ∧ 0 < am.minAddr then .skResvn
  else .skFree

/-- `VG_(am_notify_munmap)`. -/
def amNotifyMunmap (am : Aspacem) (start len : Nat) : Result (Aspacem × Bool) := do
  assertThat (isPageAligned start)
  assertThat (isPageAligned len)
  if len = 0 then return (am, false)
  else do
    let needDiscard ← anyTsInRange am start len
    let am ← addSegment am { initNsegment with
      kind := unmapKind am start (lastByte start len)
      start := start
      end_ := lastByte start len }
    return (am, needDiscard)

/-! ## Mapping and unmapping -/

/-- The shape of the `VG_(am_mmap_*)` functions: ask the advisor, hand the
request to the kernel, and record `seg` at the address that both agreed on. -/
def mmapAdvised (am : Aspacem) (req : MapRequest) (forClient : Bool) (kres : SysRes)
    (fd : Option FdInfo) (seg : NSegment) : Result (Aspacem × SysRes) := do
  match ← amGetAdvisory am req forClient with
  | none => return (am, eINVAL)
  | some advised =>
    if req.rkind = .mFixed ∧ advised ≠ req.start then return (am, eINVAL)
    else match kres with
      | .error e => return (am, .error e)
      | .success res =>
        if res ≠ advised then return (am, eINVAL)
        else do
          let seg := { seg with
            start := advised
            end_ := subW (addW advised (pgRoundUp req.len)) 1 }
          let (am, seg) ← (match fd with
            | some fd => attachFile am fd seg
            | none => pure (am, seg))
          let am ← addSegment am seg
          return (am, .success res)

/-- A fresh segment of the given kind and protection. -/
def newSegment (kind : SegKind) (prot : Nat) : NSegment :=
  { initNsegment with kind := kind, hasR := protR prot, hasW := protW prot, hasX := protX prot }

/-- `VG_(am_mmap_file_fixed_client)`. -/
def amMmapFileFixedClient (am : Aspacem) (start length prot : Nat) (fd : FdInfo)
    (offset : BitVec 64) (kres : SysRes) : Result (Aspacem × SysRes) :=
  if length = 0 ∨ ¬ isPageAligned start ∨ ¬ isPageAligned offset.toNat then .ok (am, eINVAL)
  else mmapAdvised am ⟨.mFixed, start, length⟩ true kres (some fd)
    { newSegment .skFileC prot with offset := offset }

/-- `VG_(am_mmap_anon_fixed_client)`. -/
def amMmapAnonFixedClient (am : Aspacem) (start length prot : Nat) (kres : SysRes) :
    Result (Aspacem × SysRes) :=
  if length = 0 ∨ ¬ isPageAligned start then .ok (am, eINVAL)
  else mmapAdvised am ⟨.mFixed, start, length⟩ true kres none (newSegment .skAnonC prot)

/-- `VG_(am_mmap_anon_float_client)`. -/
def amMmapAnonFloatClient (am : Aspacem) (length prot : Nat) (kres : SysRes) :
    Result (Aspacem × SysRes) :=
  if length = 0 then .ok (am, eINVAL)
  else mmapAdvised am ⟨.mAny, 0, length⟩ true kres none (newSegment .skAnonC prot)

/-- `VG_(am_sbrk_anon_float_client)`. -/
def amSbrkAnonFloatClient (am : Aspacem) (length prot : Nat) (kres : SysRes) :
    Result (Aspacem × SysRes) :=
  amMmapAnonFloatClient am length prot kres

/-- `VKI_PROT_READ|VKI_PROT_WRITE|VKI_PROT_EXEC`. -/
def protRWX : Nat := 7

/-- `VG_(am_mmap_anon_float_valgrind)`. -/
def amMmapAnonFloatValgrind (am : Aspacem) (length : Nat) (kres : SysRes) :
    Result (Aspacem × SysRes) :=
  if length = 0 then .ok (am, eINVAL)
  else mmapAdvised am ⟨.mAny, 0, length⟩ false kres none (newSegment .skAnonV protRWX)

/-- `VG_(am_sbrk_anon_float_valgrind)`. -/
def amSbrkAnonFloatValgrind (am : Aspacem) (cszB : Nat) (kres : SysRes) :
    Result (Aspacem × SysRes) :=
  amMmapAnonFloatValgrind am cszB kres

/-- `VG_(am_mmap_file_float_valgrind)`. It asks the advisor for a client
address. -/
def amMmapFileFloatValgrind (am : Aspacem) (length prot : Nat) (fd : FdInfo)
    (offset : BitVec 64) (kres : SysRes) : Result (Aspacem × SysRes) :=
  if length = 0 ∨ ¬ isPageAligned offset.toNat then .ok (am, eINVAL)
  else mmapAdvised am ⟨.mAny, 0, length⟩ true kres (some fd)
    { newSegment .skFileV prot with offset := offset }

/-- `am_munmap_both_wrk`: the result, and `*need_discard` where it is written. -/
def amMunmapBothWrk (am : Aspacem) (start len : Nat) (forClient : Bool) (kres : SysRes) :
    Result (Aspacem × SysRes × Option Bool) := do
  if ¬ isPageAligned start then return (am, eINVAL, none)
  else if len = 0 then return (am, .success 0, some false)
  else if addW start len < len then return (am, eINVAL, none)
  else do
    let len := pgRoundUp len
    assertThat (isPageAligned start)
    assertThat (isPageAligned len)
    let valid ← (if forClient then amIsValidForClientOrFreeOrResvn am start len 0
      else isValidForValgrind am start len)
    if !valid then return (am, eINVAL, none)
    else do
      let d ← anyTsInRange am start len
      match kres with
      | .error e => return (am, .error e, none)
      | .success res => do
        let (am, _) ← amNotifyMunmap am start len
        return (am, .success res, some d)

/-- `VG_(am_munmap_client)`. -/
def amMunmapClient (am : Aspacem) (start len : Nat) (kres : SysRes) :
    Result (Aspacem × SysRes × Option Bool) :=
  amMunmapBothWrk am start len true kres

/-- `VG_(am_munmap_valgrind)`. -/
def amMunmapValgrind (am : Aspacem) (start len : Nat) (kres : SysRes) :
    Result (Aspacem × SysRes) := do
  let (am, r, needDiscard) ← amMunmapBothWrk am start len false kres
  -- translations are never made from a V-owned section
  assertThat (needDiscard ≠ some true)
  return (am, r)

/-- `VG_(am_change_ownership_v_to_c)`. -/
def amChangeOwnershipVToC (am : Aspacem) (start len : Nat) : Result (Aspacem × Bool) := do
  if len = 0 then return (am, true)
  else if addW start len < start then return (am, false)
  else if ¬ isPageAligned start ∨ ¬ isPageAligned len then return (am, false)
  else do
    let i ← findNsegmentIdx am start
    if (am.seg i).kind ≠ .skFileV ∧ (am.seg i).kind ≠ .skAnonV then return (am, false)
    else if (am.seg i).end_ < lastByte start len then return (am, false)
    else do
      assertThat ((am.seg i).start ≤ start)
      assertThat (lastByte start len ≤ (am.seg i).end_)
      let (am, iLo, iHi) ← splitNsegmentsLoAndHi am start (lastByte start len)
      assertThat (iLo = iHi)
      let s ← (match (am.seg iLo).kind with
        | .skFileV => pure { am.seg iLo with kind := .skFileC }
        | .skAnonV => pure { am.seg iLo with kind := .skAnonC }
        | _ => throw .assertFailed)
      let am ← preenNsegments { am with
        nsegments := am.nsegments.take iLo ++ s :: am.nsegments.drop (iLo + 1) }
      return (am, true)

/-! ## Flags -/

/-- `segAddr_to_index` and the assertion its callers make about the result. -/
def segIndex (am : Aspacem) (seg : Option Nat) : Result Nat :=
  match seg with
  | none => .error .assertFailed
  | some i => if i < am.nsegments.length then .ok i else .error .assertFailed

/-- `VG_(am_set_segment_isCH_if_SkAnonC)`. -/
def amSetSegmentIsCHIfSkAnonC (am : Aspacem) (seg : Option Nat) : Result Aspacem := do
  let i ← segIndex am seg
  if (am.seg i).kind = .skAnonC then
    return { am with nsegments := am.nsegments.set i { am.seg i with isCH := true } }
  else do
    assertThat ((am.seg i).isCH = false)
    return am

/-- `VG_(am_set_segment_hasT_if_SkFileC_or_SkAnonC)`. -/
def amSetSegmentHasTIfSkFileCOrSkAnonC (am : Aspacem) (seg : Option Nat) : Result Aspacem := do
  let i ← segIndex am seg
  if (am.seg i).kind = .skAnonC ∨ (am.seg i).kind = .skFileC then
    return { am with nsegments := am.nsegments.set i { am.seg i with hasT := true } }
  else return am

/-! ## Reservations -/

/-- A signed word as the word that is added: `x + extra` of the source. -/
def addSW (x : Nat) (extra : Int) : Nat := ((x + extra) % (wordMod : Int)).toNat

/-- `VG_(am_create_reservation)`. -/
def amCreateReservation (am : Aspacem) (start length : Nat) (smode : ShrinkMode)
    (extra : Int) : Result (Aspacem × Bool) := do
  -- start and end, not taking into account the extra space
  let start1 := start
  let end1 := lastByte start length
  -- start and end, taking into account the extra space
  let start2 := if extra < 0 then addSW start1 extra else start1
  let end2 := if 0 < extra then addSW end1 extra else end1
  assertThat (isPageAligned start)
  assertThat (isPageAligned (addW start length))
  assertThat (isPageAligned start2)
  assertThat (isPageAligned (addW end2 1))
  let startI ← findNsegmentIdx am start2
  let endI ← findNsegmentIdx am end2
  if startI ≠ endI then return (am, false)
  else if (am.seg startI).kind ≠ .skFree then return (am, false)
  else do
    assertThat ((am.seg startI).start ≤ start2)
    assertThat (end2 ≤ (am.seg startI).end_)
    let am ← addSegment am { initNsegment with
      kind := .skResvn
      start := start1
      end_ := end1
      smode := smode }
    return (am, true)

/-- The size of a segment, as the source computes it. -/
def NSegment.size (s : NSegment) : Nat := addW (subW s.end_ s.start) 1

/-- The forward half of `VG_(am_extend_into_adjacent_reservation_client)`. -/
def extendForwards (am : Aspacem) (segA delta : Nat) (kres : SysRes) :
    Result (Aspacem × Bool) := do
  let segR := segA + 1
  let a := am.seg segA
  let r := am.seg segR
  if am.nsegments.length ≤ segR ∨ r.kind ≠ .skResvn ∨ r.smode ≠ .smLower
      ∨ r.start ≠ addW a.end_ 1 ∨ r.size < addW delta pageSzB then
    return (am, false)
  else match kres with
    | .error _ => return (am, false)
    | .success res =>
      if res ≠ r.start then return (am, false)
      else do
        assertThat (addW r.start delta ≤ r.end_)
        return ({ am with
          nsegments := (am.nsegments.set segR { r with start := addW r.start delta }).set segA
            { a with end_ := addW a.end_ delta } }, true)

/-- The backward half of `VG_(am_extend_into_adjacent_reservation_client)`. -/
def extendBackwards (am : Aspacem) (segA delta : Nat) (kres : SysRes) :
    Result (Aspacem × Bool) := do
  let a := am.seg segA
  let segR := segA - 1
  let r := am.seg segR
  if segA = 0 ∨ r.kind ≠ .skResvn ∨ r.smode ≠ .smUpper
      ∨ addW r.end_ 1 ≠ a.start ∨ r.size < addW delta pageSzB then
    return (am, false)
  else match kres with
    | .error _ => return (am, false)
    | .success res =>
      if res ≠ subW a.start delta then return (am, false)
      else do
        assertThat (r.start ≤ subW r.end_ delta)
        return ({ am with
          nsegments := (am.nsegments.set segR { r with end_ := subW r.end_ delta }).set segA
            { a with start := subW a.start delta } }, true)

/-- `VG_(am_extend_into_adjacent_reservation_client)`. -/
def amExtendIntoAdjacentReservationClient (am : Aspacem) (seg : Option Nat) (delta : Int)
    (kres : SysRes) : Result (Aspacem × Bool) := do
  let segA ← segIndex am seg
  if (am.seg segA).kind ≠ .skAnonC then return (am, false)
  else if delta = 0 then return (am, true)
  else do
    assertThat (isPageAligned delta.natAbs)
    if 0 < delta then extendForwards am segA delta.natAbs kres
    else do
      -- negating the least signed word does not make it positive
      assertThat (2 * delta.natAbs < wordMod)
      extendBackwards am segA delta.natAbs kres

/-! ## Resizing and moving -/

/-- `VG_(am_extend_map_client)`: the result, and `*need_discard` where it is
written. -/
def amExtendMapClient (am : Aspacem) (i delta : Nat) (kres : SysRes) :
    Result (Aspacem × Bool × Option Bool) := do
  let seg := am.seg i
  if seg.kind ≠ .skFileC ∧ seg.kind ≠ .skAnonC then return (am, false, none)
  else if delta = 0 ∨ ¬ isPageAligned delta then return (am, false, none)
  else do
    let xStart := addW seg.end_ 1
    if addW xStart delta < delta then return (am, false, none)
    else do
      let valid ← amIsValidForClientOrFreeOrResvn am xStart delta 0
      if !valid then return (am, false, none)
      else match kres with
        | .error _ => return (am, false, none)
        | .success res => do
          -- the area must not have moved
          assertThat (res = seg.start)
          let needDiscard ← anyTsInRange am xStart delta
          let am ← addSegment am { seg with end_ := addW seg.end_ delta }
          return (am, true, some needDiscard)

/-- `VG_(am_relocate_nooverlap_client)`: the result, and `*need_discard` where
it is written. -/
def amRelocateNooverlapClient (am : Aspacem) (oldAddr oldLen newAddr newLen : Nat)
    (kres : SysRes) : Result (Aspacem × Bool × Option Bool) := do
  if oldLen = 0 ∨ newLen = 0 then return (am, false, none)
  else if ¬ isPageAligned oldAddr ∨ ¬ isPageAligned oldLen ∨ ¬ isPageAligned newAddr
      ∨ ¬ isPageAligned newLen then return (am, false, none)
  else if addW oldAddr oldLen < oldAddr ∨ addW newAddr newLen < newAddr then
    return (am, false, none)
  else if ¬ (lastByte oldAddr oldLen < newAddr ∨ lastByte newAddr newLen < oldAddr) then
    return (am, false, none)
  else do
    let iLo ← findNsegmentIdx am oldAddr
    let iHi ← findNsegmentIdx am (lastByte oldAddr oldLen)
    if iLo ≠ iHi then return (am, false, none)
    else if (am.seg iLo).kind ≠ .skFileC ∧ (am.seg iLo).kind ≠ .skAnonC then
      return (am, false, none)
    else match kres with
      | .error _ => return (am, false, none)
      | .success res => do
        assertThat (res = newAddr)
        let oldTs ← anyTsInRange am oldAddr oldLen
        let needDiscard ← (if oldTs then pure true else anyTsInRange am newAddr newLen)
        let seg := am.seg iLo
        assertThat (seg.kind = .skAnonC → seg.offset = 0)
        -- mark the new area based on the old seg
        let am ← addSegment am { seg with
          offset := if seg.kind = .skFileC then
              seg.offset + (BitVec.ofNat 64 oldAddr - BitVec.ofNat 64 seg.start)
            else seg.offset
          start := newAddr
          end_ := lastByte newAddr newLen }
        -- create a free hole in the old location
        let am ← addSegment am { initNsegment with
          start := oldAddr
          end_ := lastByte oldAddr oldLen
          kind := if am.maxAddr < oldAddr ∧ am.maxAddr < addrMax then .skResvn else .skFree }
        return (am, true, some needDiscard)

/-! ## Steps -/

/-- A word of the host, `Addr` or `SizeT`. -/
abbrev Word := Fin wordMod

/-- A signed word of the host, `SSizeT`. -/
abbrev SWord := { d : Int // -(wordMod : Int) ≤ 2 * d ∧ 2 * d < wordMod }

/-- The operations that take part in keeping track of translations. -/
inductive TOp where
  | notifyClientMmap (a len : Word) (prot flags : Nat) (fd : FdInfo) (offset : BitVec 64)
  | notifyClientShmat (a len : Word) (prot : Nat)
  | notifyMprotect (start len : Word) (prot : Nat)
  | notifyMunmap (start len : Word)
  | munmapClient (start len : Word) (kres : SysRes)
  | changeOwnershipVToC (start len : Word)
  | createReservation (start length : Word) (smode : ShrinkMode) (extra : SWord)
  | extendIntoAdjacentReservationClient (seg : Option Nat) (delta : SWord) (kres : SysRes)
  | extendMapClient (seg : Nat) (delta : Word) (kres : SysRes)
  | relocateNooverlapClient (oldAddr oldLen newAddr newLen : Word) (kres : SysRes)
  | setSegmentHasT (seg : Option Nat)

/-- All operations. -/
inductive Op where
  | t (op : TOp)
  | mmapFileFixedClient (start length : Word) (prot : Nat) (fd : FdInfo) (offset : BitVec 64)
      (kres : SysRes)
  | mmapAnonFixedClient (start length : Word) (prot : Nat) (kres : SysRes)
  | mmapAnonFloatClient (length : Word) (prot : Nat) (kres : SysRes)
  | mmapAnonFloatValgrind (length : Word) (kres : SysRes)
  | mmapFileFloatValgrind (length : Word) (prot : Nat) (fd : FdInfo) (offset : BitVec 64)
      (kres : SysRes)
  | munmapValgrind (start len : Word) (kres : SysRes)
  | setSegmentIsCH (seg : Option Nat)

/-- Run an operation; the flag says that the caller was told to discard
translations. -/
def TOp.run (am : Aspacem) : TOp → Result (Aspacem × Bool)
  | .notifyClientMmap a len prot flags fd offset =>
    amNotifyClientMmap am a len prot flags fd offset
  | .notifyClientShmat a len prot => amNotifyClientShmat am a len prot
  | .notifyMprotect start len prot => amNotifyMprotect am start len prot
  | .notifyMunmap start len => amNotifyMunmap am start len
  | .munmapClient start len kres => do
    let (am, _, d) ← amMunmapClient am start len kres
    return (am, d.getD false)
  | .changeOwnershipVToC start len => do
    let (am, _) ← amChangeOwnershipVToC am start len
    return (am, false)
  | .createReservation start length smode extra => do
    let (am, _) ← amCreateReservation am start length smode extra
    return (am, false)
  | .extendIntoAdjacentReservationClient seg delta kres => do
    let (am, _) ← amExtendIntoAdjacentReservationClient am seg delta kres
    return (am, false)
  | .extendMapClient seg delta kres => do
    let (am, _, d) ← amExtendMapClient am seg delta kres
    return (am, d.getD false)
  | .relocateNooverlapClient oldAddr oldLen newAddr newLen kres => do
    let (am, _, d) ← amRelocateNooverlapClient am oldAddr oldLen newAddr newLen kres
    return (am, d.getD false)
  | .setSegmentHasT seg => do
    let am ← amSetSegmentHasTIfSkFileCOrSkAnonC am seg
    return (am, false)

/-- One step of the address space manager. -/
def step (am : Aspacem) : Op → Result Aspacem
  | .t op => Prod.fst <$> op.run am
  | .mmapFileFixedClient start length prot fd offset kres =>
    Prod.fst <$> amMmapFileFixedClient am start length prot fd offset kres
  | .mmapAnonFixedClient start length prot kres =>
    Prod.fst <$> amMmapAnonFixedClient am start length prot kres
  | .mmapAnonFloatClient length prot kres =>
    Prod.fst <$> amMmapAnonFloatClient am length prot kres
  | .mmapAnonFloatValgrind length kres => Prod.fst <$> amMmapAnonFloatValgrind am length kres
  | .mmapFileFloatValgrind length prot fd offset kres =>
    Prod.fst <$> amMmapFileFloatValgrind am length prot fd offset kres
  | .munmapValgrind start len kres => Prod.fst <$> amMunmapValgrind am start len kres
  | .setSegmentIsCH seg => amSetSegmentIsCHIfSkAnonC am seg

end Functions

end Valgrind.Aspacemgr
