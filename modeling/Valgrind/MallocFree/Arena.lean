import Mathlib.Data.List.DropRight
import Valgrind.MallocFree.Block

/-!
# Allocating and freeing (`m_mallocfree.c`)

The free lists and the core-visible functions: `VG_(arena_malloc)`,
`VG_(arena_free)`, `VG_(arena_memalign)`, `VG_(arena_payload_szB)`,
`VG_(arena_calloc)` and `VG_(arena_realloc)`.

`arena_malloc` is one function of 170 lines with a `goto` in the source. Here its
three parts have names: `scanLists` looks for a free block that is big enough,
`growArena` makes a superblock into one when there is none, and `obtainBlock` is
everything after the label `obtained_block`.
-/

namespace Valgrind

namespace MallocFree

open ByteMem Machine

section

variable [Machine] (g : Config)

/-! ## Functions for working with freelists -/

/-- The bounds of `pszB_to_listNo`: list `64 + i` holds the sizes, counted in units of
`VG_MIN_MALLOC_SZB`, below entry `i`. -/
def listBounds : List Nat :=
  [67, 70, 74, 77, 81, 85, 90, 94, 99, 104, 109, 114, 120, 126, 133, 139,
   153, 169, 185, 204, 224, 247, 272, 299, 329, 362, 398, 438, 482, 530, 583, 641,
   770, 924, 1109, 1331, 1597, 1916, 2300, 2760, 3312, 3974, 4769, 5723, 6868, 8241, 9890]

/-- The list number that `pszB_to_listNo` computes, its assertion apart. -/
def listNo (pszB : Nat) : Nat :=
  let n := pszB / minMallocSzB
  if n < 64 then n else 64 + listBounds.findIdx (n < ·)

/-- `pszB_to_listNo`. -/
def pszBToListNo (pszB : Nat) : Result Nat := do
  assertThat (pszB % minMallocSzB = 0)
  pure (listNo pszB)

/-- The loop of `swizzle`. -/
def swizzleLoop (m : Mem) : Nat → Nat → Nat → Nat → Result Nat
  | 0, _, _, pBest => pure pBest
  | i + 1, pn, pp, pBest => do
    let pn ← getNextB g m pn
    let pp := getPrevB g m pp
    let pBest := if pn < pBest then pn else pBest
    let pBest := if pp < pBest then pp else pBest
    swizzleLoop m i pn pp pBest

/-- `a->freelist[lno] = b`. -/
def Heap.setFreelist (h : Heap) (lno b : Nat) : Heap :=
  { h with arena := { h.arena with freelist := Function.update h.arena.freelist lno b } }

/-- `swizzle`. -/
def swizzle (h : Heap) (lno : Nat) : Result Heap := do
  let first := h.arena.freelist lno
  if first = 0 then pure h else do
    let pBest ← swizzleLoop g h.mem 5 first first first
    if pBest < first then pure (h.setFreelist lno pBest) else pure h

/-! ## Sanity-check machinery -/

/-- The byte that red zones are filled with: the low byte of the block's address,
mixed with `REDZONE_LO_MASK` or `REDZONE_HI_MASK`. -/
def rzByte (b mask : Nat) : UInt8 := UInt8.ofNat ((b &&& 0xff) ^^^ mask)

/-- The loop of `blockSane` over the red-zone bytes from number `i` on. -/
def blockSaneLoop (m : Mem) (b : Nat) : Nat → Nat → Result Bool
  | 0, _ => pure true
  | left + 1, i => do
    if getRzLoByte g m b i ≠ rzByte b 0x31 then pure false else do
      let hi ← getRzHiByte g m b i
      if hi ≠ rzByte b 0x7c then pure false else blockSaneLoop m b left (i + 1)

/-- `blockSane`. -/
def blockSane (a : Arena) (m : Mem) (b : Nat) : Result Bool := do
  if a.clientmem then pure true else do
    let inuse ← isInuseBlock g m b
    if inuse then blockSaneLoop g m b a.rzSzB 0 else pure true

/-! ## Creating and deleting blocks -/

/-- The second half of `mkFreeBlock`: add a block to the relevant list. -/
def addToFreelist (h : Heap) (b bLno : Nat) : Result Heap :=
  if h.arena.freelist bLno = 0 then do
    let m := setPrevB g h.mem b b
    let m ← setNextB g m b b
    pure (Heap.setFreelist { h with mem := m } bLno b)
  else do
    let bPrev := getPrevB g h.mem (h.arena.freelist bLno)
    let bNext := h.arena.freelist bLno
    let m ← setNextB g h.mem bPrev b
    let m := setPrevB g m bNext b
    let m ← setNextB g m b bNext
    let m := setPrevB g m b bPrev
    pure { h with mem := m }

/-- `mkFreeBlock`. -/
def mkFreeBlock (h : Heap) (b bszB bLno : Nat) : Result Heap := do
  let pszB ← bszBToPszB g h.arena bszB
  let lno ← pszBToListNo pszB
  assertThat (bLno = lno)
  let marked ← mkFreeBszB bszB
  let m ← setBszB g h.mem b marked
  addToFreelist g { h with mem := m } b bLno

/-- The loop of `mkInuseBlock` over the red-zone bytes from number `i` on. -/
def paintRedzones (m : Mem) (b : Nat) : Nat → Nat → Result Mem
  | 0, _ => pure m
  | left + 1, i => do
    let m := setRzLoByte g m b i (rzByte b 0x31)
    let m ← setRzHiByte g m b i (rzByte b 0x7c)
    paintRedzones m b left (i + 1)

/-- `mkInuseBlock`. -/
def mkInuseBlock (a : Arena) (m : Mem) (b bszB : Nat) : Result Mem := do
  assertThat (minUsefulBszB g a ≤ bszB)
  let marked ← mkInuseBszB bszB
  let m ← setBszB g m b marked
  let m := setPrevB g m b 0
  let m ← setNextB g m b 0
  if a.clientmem then pure m else paintRedzones g m b a.rzSzB 0

/-- The first half of `unlinkBlock`: make the neighbours of a block on its list
forget it. A block that is alone on its list is treated specially. -/
def takeOffFreelist (h : Heap) (b listno : Nat) : Result Heap :=
  if getPrevB g h.mem b = b then do
    let next ← getNextB g h.mem b
    assertThat (next = b)
    pure (h.setFreelist listno 0)
  else do
    let bPrev := getPrevB g h.mem b
    let bNext ← getNextB g h.mem b
    let h := h.setFreelist listno bPrev
    let m ← setNextB g h.mem bPrev bNext
    let m := setPrevB g m bNext bPrev
    swizzle g { h with mem := m } listno

/-- `unlinkBlock`. -/
def unlinkBlock (h : Heap) (b listno : Nat) : Result Heap := do
  assertThat (listno < nMallocLists)
  let h ← takeOffFreelist g h b listno
  let m := setPrevB g h.mem b 0
  let m ← setNextB g m b 0
  pure { h with mem := m }

/-! ## Core-visible functions -/

/-- `align_req_pszB`. -/
def alignReqPszB (reqPszB : Nat) : Nat := roundUp reqPszB minMallocSzB

/-- The inner loop of `arena_malloc`: walk one free list from `b` until a block of
`reqBszB` bytes turns up or the walk is back at the start. A walk that is not back
after as many blocks as there are addresses never is. -/
def scanList (m : Mem) (reqBszB start : Nat) : Nat → Nat → Result (Option Nat)
  | 0, _ => throw .diverge
  | fuel + 1, b => do
    let bszB ← getBszB g m b
    if reqBszB ≤ bszB then pure (some b) else do
      let b ← getNextB g m b
      if b = start then pure none else scanList m reqBszB start fuel b

/-- The outer loop of `arena_malloc`, over the `left` free lists from `lno` on. -/
def scanLists (h : Heap) (reqBszB : Nat) : Nat → Nat → Result (Option (Nat × Nat))
  | 0, _ => pure none
  | left + 1, lno =>
    if h.arena.freelist lno = 0 then scanLists h reqBszB left (lno + 1) else do
      let found ← scanList g h.mem reqBszB (h.arena.freelist lno) wordMod (h.arena.freelist lno)
      match found with
      | some b => pure (some (b, lno))
      | none => scanLists h reqBszB left (lno + 1)

/-- Enter a superblock into the sorted array: the entries above it move up. -/
def insertSblock (sblocks : List Nat) (sb : Nat) : List Nat :=
  sblocks.rdropWhile (sb < ·) ++ sb :: sblocks.rtakeWhile (sb < ·)

/-- The part of `arena_malloc` that makes a new superblock into one free block.
`sbrk` answers `newSuperblock`'s request, `arrayOk` the one for a bigger array of
superblocks. The result is the block and its list, or `none` when the client's
address space is full. -/
def growArena (h : Heap) (reqBszB : Nat) (sbrk : Nat → Option Nat) (arrayOk : Bool) :
    Result (Option (Nat × Nat) × Heap) := do
  let (newSb, h) ← newSuperblock g h reqBszB sbrk
  if newSb = 0 then do
    assertThat (h.arena.clientmem = true)
    pure (none, h)
  else do
    assertThat (h.arena.sblocks.length ≤ h.arena.sblocksSize)
    let size ← (if h.arena.sblocks.length = h.arena.sblocksSize then
        if arrayOk then pure (h.arena.sblocksSize * 2) else throw .exit
      else pure h.arena.sblocksSize)
    assertThat (h.arena.sblocks.length < size)
    let h : Heap := { h with arena := { h.arena with
      sblocks := insertSblock h.arena.sblocks newSb, sblocksSize := size } }
    let b := payloadBytes newSb
    let pszB ← bszBToPszB g h.arena (nPayloadBytes g h.mem newSb)
    let lno ← pszBToListNo pszB
    let h ← mkFreeBlock g h b (nPayloadBytes g h.mem newSb) lno
    let m ← chargeCc g h.mem b (g.adminCc .freeNewSb1)
    pure (some (b, lno), { h with mem := m })

/-- The statistics at the end of `arena_malloc`. The next profile is due after 10%
more growth. -/
def updateStats (h : Heap) (pszB : Nat) : Result Heap := do
  let a := { h.arena with bytesOnLoan := addW h.arena.bytesOnLoan pszB }
  if a.bytesOnLoanMax < a.bytesOnLoan then do
    let a := { a with bytesOnLoanMax := a.bytesOnLoan }
    if a.nextProfileAt ≤ a.bytesOnLoanMax then do
      let a := { a with nextProfileAt := a.bytesOnLoanMax * 110 % 2 ^ 64 / 100 % wordMod }
      if g.profileHeap then do
        g.ccAnalyse h.mem a
        pure { h with arena := a }
      else pure { h with arena := a }
    else pure { h with arena := a }
  else pure { h with arena := a }

/-- Take a block of `bszB` bytes off its list and into use. If that leaves a useful
fragment, the block is split in two and the fragment put on the appropriate list.
The result is the size of the block in use. -/
def splitBlock (h : Heap) (cc reqBszB b bszB lno : Nat) : Result (Nat × Heap) :=
  let fragBszB := bszB - reqBszB
  if minUsefulBszB g h.arena ≤ fragBszB then do
    let h ← unlinkBlock g h b lno
    let m ← mkInuseBlock g h.arena h.mem b reqBszB
    let m ← chargeCc g m b cc
    let frag := addW b reqBszB
    let fragPszB ← bszBToPszB g h.arena fragBszB
    let fragLno ← pszBToListNo fragPszB
    let h ← mkFreeBlock g { h with mem := m } frag fragBszB fragLno
    let m ← chargeCc g h.mem frag (g.adminCc .fragmentation1)
    let bszB ← getBszB g m b
    pure (bszB, { h with mem := m })
  else do
    let h ← unlinkBlock g h b lno
    let m ← mkInuseBlock g h.arena h.mem b bszB
    let m ← chargeCc g m b cc
    pure (bszB, { h with mem := m })

/-- `arena_malloc` from the label `obtained_block` on: allocate from `b`, which is on
list `lno`. -/
def obtainBlock (h : Heap) (cc reqBszB b lno : Nat) : Result (Nat × Heap) := do
  assertThat (b ≠ 0)
  assertThat (lno < nMallocLists)
  assertThat (h.arena.freelist lno ≠ 0)
  let bszB ← getBszB g h.mem b
  assertThat (reqBszB ≤ bszB)
  let (bszB, h) ← splitBlock g h cc reqBszB b bszB lno
  let pszB ← bszBToPszB g h.arena bszB
  let h ← updateStats g h pszB
  let v := getBlockPayload g h.arena b
  assertThat (v % minMallocSzB = 0)
  pure (v, h)

/-- `VG_(arena_malloc)`. The result 0 is the null pointer. -/
def arenaMalloc (h : Heap) (cc reqPszB : Nat) (sbrk : Nat → Option Nat) (arrayOk : Bool) :
    Result (Nat × Heap) := do
  assertThat (reqPszB < maxPszB)
  let reqPszB := alignReqPszB reqPszB
  let reqBszB := pszBToBszB g h.arena reqPszB
  assertThat (cc ≠ 0)
  let lno ← pszBToListNo reqPszB
  let found ← scanLists g h reqBszB (nMallocLists - lno) lno
  match found with
  | some (b, lno) => obtainBlock g h cc reqBszB b lno
  | none => do
    let (fresh, h) ← growArena g h reqBszB sbrk arrayOk
    match fresh with
    | none => pure (0, h)
    | some (b, lno) => obtainBlock g h cc reqBszB b lno

/-- The part of `arena_free` that merges `b`, which is on list `bListno`, with its
successor. -/
def mergeSuccessor (h : Heap) (sbEnd b bBszB bListno : Nat) : Result (Nat × Nat × Heap) := do
  let otherB := addW b bBszB
  if subW (addW otherB (minUsefulBszB g h.arena)) 1 ≤ sbEnd then do
    let otherBszB ← getBszB g h.mem otherB
    let inuse ← isInuseBlock g h.mem otherB
    if inuse then pure (bBszB, bListno, h)
    else do
      let h ← unlinkBlock g h b bListno
      let otherPszB ← bszBToPszB g h.arena otherBszB
      let otherLno ← pszBToListNo otherPszB
      let h ← unlinkBlock g h otherB otherLno
      let bBszB := addW bBszB otherBszB
      let bPszB ← bszBToPszB g h.arena bBszB
      let bListno ← pszBToListNo bPszB
      let h ← mkFreeBlock g h b bBszB bListno
      let m ← chargeCc g h.mem b (g.adminCc .free2)
      pure (bBszB, bListno, { h with mem := m })
  else do
    assertThat (subW otherB 1 = sbEnd)
    pure (bBszB, bListno, h)

/-- The part of `arena_free` that merges `b` with its predecessor. -/
def mergePredecessor (h : Heap) (sbStart b bBszB bListno : Nat) : Result Heap := do
  if addW sbStart (minUsefulBszB g h.arena) ≤ b then do
    let otherB ← getPredecessorBlock g h.mem b
    let otherBszB ← getBszB g h.mem otherB
    let inuse ← isInuseBlock g h.mem otherB
    if inuse then pure h
    else do
      let h ← unlinkBlock g h b bListno
      let otherPszB ← bszBToPszB g h.arena otherBszB
      let otherLno ← pszBToListNo otherPszB
      let h ← unlinkBlock g h otherB otherLno
      let bBszB := addW bBszB otherBszB
      let bPszB ← bszBToPszB g h.arena bBszB
      let bListno ← pszBToListNo bPszB
      let h ← mkFreeBlock g h otherB bBszB bListno
      let m ← chargeCc g h.mem otherB (g.adminCc .free3)
      pure { h with mem := m }
  else do
    assertThat (sbStart = b)
    pure h

/-- The second half of `arena_free`: put the chunk `b` back on a list and merge it with
its neighbours. -/
def putBack (h : Heap) (sbStart sbEnd b bBszB bListno : Nat) : Result Heap := do
  let h ← mkFreeBlock g h b bBszB bListno
  let m ← chargeCc g h.mem b (g.adminCc .free1)
  let (bBszB, bListno, h) ← mergeSuccessor g { h with mem := m } sbEnd b bBszB bListno
  mergePredecessor g h sbStart b bBszB bListno

/-- `VG_(arena_free)`. -/
def arenaFree (h : Heap) (ptr : Nat) : Result Heap := do
  if ptr = 0 then pure h else do
    let b := getPayloadBlock g h.arena ptr
    let sane ← (if h.arena.clientmem then pure true else blockSane g h.arena h.mem b)
    assertThat (sane = true)
    let bBszB ← getBszB g h.mem b
    let bPszB ← bszBToPszB g h.arena bBszB
    let sb ← findSb g h b
    let sbStart := payloadBytes sb
    let sbEnd := addW (payloadBytes sb) (subW (nPayloadBytes g h.mem sb) 1)
    let a := { h.arena with bytesOnLoan := subW h.arena.bytesOnLoan bPszB }
    let m := if a.clientmem then h.mem else fill h.mem ptr 0xdd bPszB
    let bListno ← pszBToListNo bPszB
    putBack g { mem := m, arena := a } sbStart sbEnd b bBszB bListno

/-- `VG_(log2)` does not return -1. -/
def isPowerOf2 (x : Nat) : Bool := (List.range 32).any fun i => 2 ^ i == x

/-- The second half of `arena_memalign`: split the block with payload `baseP` in two,
free the lower part, and return the upper one, whose payload is aligned. -/
def splitAligned (h : Heap) (cc reqAlignB reqPszB baseP : Nat) : Result (Nat × Heap) := do
  let baseB := getPayloadBlock g h.arena baseP
  let alignP := alignUpwards
    (addW (addW baseB (2 * overheadSzBLo g h.arena)) (overheadSzBHi h.arena)) reqAlignB
  let alignB := getPayloadBlock g h.arena alignP
  let fragBszB := subW alignB baseB
  assertThat (minUsefulBszB g h.arena ≤ fragBszB)
  let basePszBAct ← getPszB g h.arena h.mem baseB
  let fragPszB ← bszBToPszB g h.arena fragBszB
  let fragLno ← pszBToListNo fragPszB
  let h ← mkFreeBlock g h baseB fragBszB fragLno
  let m ← chargeCc g h.mem baseB (g.adminCc .fragMemalign1)
  let m ← mkInuseBlock g h.arena m alignB
    (subW (addW (addW baseP basePszBAct) (overheadSzBHi h.arena)) alignB)
  let m ← chargeCc g m alignB cc
  let inuse ← isInuseBlock g m (getPayloadBlock g h.arena alignP)
  assertThat (inuse = true)
  let pszB ← getPszB g h.arena m (getPayloadBlock g h.arena alignP)
  assertThat (reqPszB ≤ pszB)
  let a : Arena := { h.arena with bytesOnLoan := addW h.arena.bytesOnLoan pszB }
  let a : Arena := if a.bytesOnLoanMax < a.bytesOnLoan
    then { a with bytesOnLoanMax := a.bytesOnLoan } else a
  assertThat (alignP % reqAlignB = 0)
  pure (alignP, { mem := m, arena := a })

/-- `VG_(arena_memalign)`. -/
def arenaMemalign (h : Heap) (cc reqAlignB reqPszB : Nat) (sbrk : Nat → Option Nat)
    (arrayOk : Bool) : Result (Nat × Heap) := do
  assertThat (reqPszB < maxPszB)
  assertThat (cc ≠ 0)
  if reqAlignB < minMallocSzB ∨ 1048576 < reqAlignB ∨ isPowerOf2 reqAlignB = false then
    throw .panic
  else do
    assertThat (reqAlignB % minMallocSzB = 0)
    let reqPszB := alignReqPszB reqPszB
    let basePszBReq := addW (addW reqPszB (minUsefulBszB g h.arena)) reqAlignB
    let savedBytesOnLoan := h.arena.bytesOnLoan
    let (baseP, h) ← arenaMalloc g h cc basePszBReq sbrk arrayOk
    let h := { h with arena := { h.arena with bytesOnLoan := savedBytesOnLoan } }
    if baseP = 0 then pure (0, h) else splitAligned g h cc reqAlignB reqPszB baseP

/-- `VG_(arena_payload_szB)`. -/
def arenaPayloadSzB (h : Heap) (ptr : Nat) : Result Nat :=
  getPszB g h.arena h.mem (getPayloadBlock g h.arena ptr)

/-- `VG_(memset)`, which stores at address 0 if told to: through the null pointer, or beyond
the end of the address space. -/
def memset (m : Mem) (dest : Nat) (c : UInt8) (sz : Nat) : Result Mem :=
  if sz ≠ 0 ∧ (dest = 0 ∨ wordMod < dest + sz) then throw .fault else pure (fill m dest c sz)

/-- `VG_(arena_calloc)`. The product is computed in a word. -/
def arenaCalloc (h : Heap) (cc nmemb bytesPerMemb : Nat) (sbrk : Nat → Option Nat)
    (arrayOk : Bool) : Result (Nat × Heap) := do
  let size := nmemb * bytesPerMemb % wordMod
  assertThat (nmemb ≤ size ∧ bytesPerMemb ≤ size)
  let (p, h) ← arenaMalloc g h cc size sbrk arrayOk
  let m ← memset h.mem p 0 size
  pure (p, { h with mem := m })

/-- `VG_(memcpy)`, which stores through the null pointer if told to. -/
def memcpy (m : Mem) (dest src sz : Nat) : Result Mem :=
  if dest = 0 ∧ sz ≠ 0 then throw .fault else pure (copy m dest src sz)

/-- `VG_(arena_realloc)`. -/
def arenaRealloc (h : Heap) (cc ptr reqPszB : Nat) (sbrk : Nat → Option Nat) (arrayOk : Bool) :
    Result (Nat × Heap) := do
  assertThat (reqPszB < maxPszB)
  let b := getPayloadBlock g h.arena ptr
  let sane ← blockSane g h.arena h.mem b
  assertThat (sane = true)
  let inuse ← isInuseBlock g h.mem b
  assertThat (inuse = true)
  let oldPszB ← getPszB g h.arena h.mem b
  if reqPszB ≤ oldPszB then pure (ptr, h) else do
    let (pNew, h) ← arenaMalloc g h cc reqPszB sbrk arrayOk
    let m ← memcpy h.mem pNew ptr oldPszB
    let h ← arenaFree g { h with mem := m } ptr
    pure (pNew, h)

end

end MallocFree

end Valgrind
