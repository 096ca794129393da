import Valgrind.Basics.Machine
import Valgrind.Basics.Result
import Valgrind.Lib.ByteMem

/-!
# Arenas and blocks (`m_mallocfree.c`)

The low-level half of the allocator: an arena, its superblocks, and the words
that the source reads and writes at raw offsets from a block's address.

    cost centre   (8 bytes, only with `--profile-heap=yes`)
    total size    (a word; bit 0 set iff the block is free)
    red zone      (its first word is the `prev` link while the block is free)
    payload
    red zone      (its last word is the `next` link while the block is free)
    total size    (again)

A block is its address. All of this lives in byte memory: the functions below
read and write it through word-sized loads and stores, and offsets are computed
in word arithmetic, so a wrapped size is a wrapped offset.
-/

namespace Valgrind

namespace MallocFree

open ByteMem Machine

/-- `Arena`. `sblocks` is the array of superblocks, of which `sblocksSize` entries
are allocated. -/
structure Arena where
  clientmem : Bool
  rzSzB : Nat
  minSblockSzB : Nat
  freelist : Nat → Nat
  sblocks : List Nat
  sblocksSize : Nat
  bytesOnLoan : Nat
  bytesMmaped : Nat
  bytesOnLoanMax : Nat
  nextProfileAt : Nat

/-- The cost centres that the allocator itself charges free blocks to. -/
inductive AdminCc where
  | freeNewSb1
  | fragmentation1
  | free1
  | free2
  | free3
  | fragMemalign1
  deriving DecidableEq, Repr

/-- What is fixed for a whole run: the byte order of the host, the setting of
`VG_(clo_profile_heap)`, and where the string constants of the allocator live.
`ccAnalyse` is `cc_analyse_alloc_arena`, which looks at the arena, prints, and may
fail an assertion, but changes nothing. -/
structure Config where
  order : Order
  profileHeap : Bool
  adminCc : AdminCc → Nat
  ccAnalyse : Mem → Arena → Result Unit

/-- Memory and one arena: the state that the calls on an arena change. -/
structure Heap where
  mem : Mem
  arena : Arena

/-- `VG_MIN_MALLOC_SZB`. -/
def minMallocSzB : Nat := 8

/-- `N_MALLOC_LISTS`. -/
def nMallocLists : Nat := 112

section

variable [Machine] (g : Config)

/-- `*(SizeT*)a`. -/
def loadW (m : Mem) (a : Nat) : Nat := load g.order wordB m a

/-- `*(SizeT*)a = v`. -/
def storeW (m : Mem) (a v : Nat) : Mem := store g.order wordB m a v

/-- `MAX_PSZB`. -/
def maxPszB : Nat := wordMod - 1

/-- `sizeof(Superblock)`: two words, padded to a multiple of `VG_MIN_MALLOC_SZB`
that is never 0. -/
def sizeofSuperblock : Nat := 2 * wordB + (minMallocSzB - 2 * wordB % minMallocSzB)

/-! ## Low-level functions for working with blocks -/

/-- `mk_inuse_bszB`. -/
def mkInuseBszB (bszB : Nat) : Result Nat := do
  assertThat (bszB ≠ 0)
  pure (roundDn bszB 2)

/-- `mk_free_bszB`. -/
def mkFreeBszB (bszB : Nat) : Result Nat := do
  assertThat (bszB ≠ 0)
  pure (bszB ||| 1)

/-- `mk_plain_bszB`. -/
def mkPlainBszB (bszB : Nat) : Result Nat := do
  assertThat (bszB ≠ 0)
  pure (roundDn bszB 2)

/-- `hp_overhead_szB`. -/
def hpOverheadSzB : Nat := if g.profileHeap then 8 else 0

/-- `get_bszB_as_is`. -/
def getBszBAsIs (m : Mem) (b : Nat) : Result Nat := do
  let bszBLo := loadW g m (addW b (hpOverheadSzB g))
  let plain ← mkPlainBszB bszBLo
  let bszBHi := loadW g m (addW b (subW plain wordB))
  assertThat (bszBLo = bszBHi)
  pure bszBLo

/-- `get_bszB`. -/
def getBszB (m : Mem) (b : Nat) : Result Nat := do
  let bszB ← getBszBAsIs g m b
  mkPlainBszB bszB

/-- `set_bszB`. -/
def setBszB (m : Mem) (b bszB : Nat) : Result Mem := do
  let m := storeW g m (addW b (hpOverheadSzB g)) bszB
  let plain ← mkPlainBszB bszB
  pure (storeW g m (addW b (subW plain wordB)) bszB)

/-- `is_inuse_block`. -/
def isInuseBlock (m : Mem) (b : Nat) : Result Bool := do
  let bszB ← getBszBAsIs g m b
  assertThat (bszB ≠ 0)
  pure (decide (bszB % 2 = 0))

/-- `overhead_szB_lo`. -/
def overheadSzBLo (a : Arena) : Nat := hpOverheadSzB g + wordB + a.rzSzB

/-- `overhead_szB_hi`. -/
def overheadSzBHi (a : Arena) : Nat := a.rzSzB + wordB

/-- `overhead_szB`. -/
def overheadSzB (a : Arena) : Nat := overheadSzBLo g a + overheadSzBHi a

/-- `min_useful_bszB`. -/
def minUsefulBszB (a : Arena) : Nat := overheadSzB g a

/-- `pszB_to_bszB`. -/
def pszBToBszB (a : Arena) (pszB : Nat) : Nat := addW pszB (overheadSzB g a)

/-- `bszB_to_pszB`. -/
def bszBToPszB (a : Arena) (bszB : Nat) : Result Nat := do
  assertThat (overheadSzB g a ≤ bszB)
  pure (bszB - overheadSzB g a)

/-- `get_pszB`. -/
def getPszB (a : Arena) (m : Mem) (b : Nat) : Result Nat := do
  let bszB ← getBszB g m b
  bszBToPszB g a bszB

/-- `get_block_payload`. -/
def getBlockPayload (a : Arena) (b : Nat) : Nat := addW b (overheadSzBLo g a)

/-- `get_payload_block`. -/
def getPayloadBlock (a : Arena) (payload : Nat) : Nat := subW payload (overheadSzBLo g a)

/-- `set_prev_b`. -/
def setPrevB (m : Mem) (b prevP : Nat) : Mem := storeW g m (addW b (hpOverheadSzB g + wordB)) prevP

/-- `set_next_b`. -/
def setNextB (m : Mem) (b nextP : Nat) : Result Mem := do
  let bszB ← getBszB g m b
  pure (storeW g m (addW b (subW (subW bszB wordB) wordB)) nextP)

/-- `get_prev_b`. -/
def getPrevB (m : Mem) (b : Nat) : Nat := loadW g m (addW b (hpOverheadSzB g + wordB))

/-- `get_next_b`. -/
def getNextB (m : Mem) (b : Nat) : Result Nat := do
  let bszB ← getBszB g m b
  pure (loadW g m (addW b (subW (subW bszB wordB) wordB)))

/-- `set_cc`. -/
def setCc (m : Mem) (b cc : Nat) : Result Mem := do
  assertThat (g.profileHeap = true)
  pure (storeW g m b cc)

/-- `if (VG_(clo_profile_heap)) set_cc(b, cc)`: the only form in which it is
called. -/
def chargeCc (m : Mem) (b cc : Nat) : Result Mem :=
  if g.profileHeap then setCc g m b cc else pure m

/-- `get_predecessor_block`. -/
def getPredecessorBlock (m : Mem) (b : Nat) : Result Nat := do
  let bszB ← mkPlainBszB (loadW g m (subW b wordB))
  pure (subW b bszB)

/-- `set_rz_lo_byte`. -/
def setRzLoByte (m : Mem) (b rzByteno : Nat) (v : UInt8) : Mem :=
  fill m (addW b (hpOverheadSzB g + wordB + rzByteno)) v 1

/-- `set_rz_hi_byte`. -/
def setRzHiByte (m : Mem) (b rzByteno : Nat) (v : UInt8) : Result Mem := do
  let bszB ← getBszB g m b
  pure (fill m (addW b (subW (subW (subW bszB wordB) rzByteno) 1)) v 1)

/-- `get_rz_lo_byte`. -/
def getRzLoByte (m : Mem) (b rzByteno : Nat) : UInt8 :=
  m (addW b (hpOverheadSzB g + wordB + rzByteno))

/-- `get_rz_hi_byte`. -/
def getRzHiByte (m : Mem) (b rzByteno : Nat) : Result UInt8 := do
  let bszB ← getBszB g m b
  pure (m (addW b (subW (subW (subW bszB wordB) rzByteno) 1)))

/-! ## Arena management -/

/-- The loop of `arena_init` that makes the red zones bigger until the block admin
sections are whole multiples of `VG_MIN_MALLOC_SZB`: at most 7 turns. -/
def elasticRzSzB : Nat → Nat → Nat
  | 0, rzSzB => rzSzB
  | turns + 1, rzSzB =>
    if (hpOverheadSzB g + wordB + rzSzB) % minMallocSzB ≠ 0 then elasticRzSzB turns (rzSzB + 1)
    else rzSzB

/-- `arena_init`. -/
def arenaInit (clientmem : Bool) (rzSzB minSblockSzB : Nat) : Result Arena := do
  assertThat (rzSzB < 128)
  let rzSzB := if rzSzB < wordB then wordB else rzSzB
  assertThat (minSblockSzB % pageSzB = 0)
  let a : Arena :=
    { clientmem
      rzSzB := elasticRzSzB g (minMallocSzB - 1) rzSzB
      minSblockSzB
      freelist := fun _ => 0
      sblocks := []
      sblocksSize := 50
      bytesOnLoan := 0
      bytesMmaped := 0
      bytesOnLoanMax := 0
      nextProfileAt := 25 * 1000 * 1000 }
  assertThat (overheadSzBLo g a % minMallocSzB = 0)
  assertThat (overheadSzBHi a % minMallocSzB = 0)
  pure a

/-! ## Superblock management -/

/-- `align_upwards`. -/
def alignUpwards (p align : Nat) : Nat :=
  if p % align = 0 then p else addW (p - p % align) align

/-- How much `newSuperblock` asks the address space manager for. -/
def superblockSzB (a : Arena) (cszB : Nat) : Nat :=
  let cszB := addW cszB sizeofSuperblock
  let cszB := if cszB < a.minSblockSzB then a.minSblockSzB else cszB
  pgRoundUp cszB

/-- `newSuperblock`. `sbrk` answers `VG_(am_sbrk_anon_float_client)` or
`VG_(am_sbrk_anon_float_valgrind)`; `none` is an error. The result is the null
pointer when the client's address space is full. -/
def newSuperblock (h : Heap) (cszB : Nat) (sbrk : Nat → Option Nat) : Result (Nat × Heap) := do
  let cszB := superblockSzB h.arena cszB
  match sbrk cszB with
  | none => if h.arena.clientmem then pure (0, h) else throw .exit
  | some sb => do
    assertThat (sb ≠ 0)
    assertThat (sb % minMallocSzB = 0)
    let mem := storeW g h.mem sb (subW cszB sizeofSuperblock)
    pure (sb, { mem, arena := { h.arena with bytesMmaped := addW h.arena.bytesMmaped cszB } })

/-- `&sb->payload_bytes[0]`. -/
def payloadBytes (sb : Nat) : Nat := addW sb sizeofSuperblock

/-- `sb->n_payload_bytes`. -/
def nPayloadBytes (m : Mem) (sb : Nat) : Nat := loadW g m sb

/-- The loop of `findSb`. The bounds are unsigned: `max` may wrap below 0, upon
which the assertion on `pos` fails. -/
def findSbLoop (h : Heap) (b : Nat) : Nat → Nat → Nat → Result Nat
  | 0, _, _ => throw .diverge
  | fuel + 1, min, max =>
    if min ≤ max then do
      let pos := addW min (subW max min / 2)
      assertThat (pos < h.arena.sblocks.length)
      let sb := h.arena.sblocks.getD pos 0
      if payloadBytes sb ≤ b ∧ b < addW (payloadBytes sb) (nPayloadBytes g h.mem sb) then pure sb
      else if payloadBytes sb ≤ b then findSbLoop h b fuel (addW pos 1) max
      else findSbLoop h b fuel min (subW pos 1)
    else throw .panic

/-- `findSb`. -/
def findSb (h : Heap) (b : Nat) : Result Nat :=
  findSbLoop g h b wordMod 0 h.arena.sblocks.length

end

end MallocFree

end Valgrind
