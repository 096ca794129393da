import Valgrind.Basics.Machine
import Valgrind.Debuginfo.Storage

/-!
# The leak checker (`mc_leakcheck.c`)

At the end of a run Memcheck looks for heap blocks that the client can no longer reach.
It works on an array of *shadows*, one record for each block, sorted by address
(`findActiveShadows`), and a mark stack that is threaded through a second array, with one
entry for each block: its state, its successor on the stack, and, for a leaked block, how
many bytes are lost with it.

Marking pushes every block that a word in a root or in a reached block points to. Then
`fullReport` sorts the rest into cliques, each with a leader, and reports the blocks by
state and place of allocation, and `makeSummary` just adds them up.

An index of -1 is `none` here, and indices are of any size. `ε` is the type of execution
contexts.
-/

namespace Valgrind

namespace Memcheck

open Machine Debuginfo

/-- `Reachedness`. -/
inductive Reachedness where
  | unreached
  | indirectLeak
  | interior
  | proper
  deriving DecidableEq, Repr

/-- `MC_Chunk`, as far as the leak checker reads it. -/
structure McChunk (ε : Type) where
  data : Nat
  szB : Nat
  where_ : ε
  deriving DecidableEq, Repr

/-- `MarkStack`: an entry in the mark stack. -/
structure MarkStack where
  /-- The index of the next entry in the mark stack. -/
  next : Option Nat
  state : Reachedness
  /-- If `unreached`, how much is unreachable from here. -/
  indirect : Nat
  deriving DecidableEq, Repr

/-- `LossRecord`. -/
structure LossRecord (ε : Type) where
  allocatedAt : ε
  lossMode : Reachedness
  totalBytes : Nat
  indirectBytes : Nat
  numBlocks : Nat
  deriving DecidableEq, Repr

/-- `lc_markstack` and `lc_markstack_top`. -/
@[ext]
structure Lc where
  markstack : Nat → MarkStack
  top : Option Nat

/-- Client memory as the leak checker sees it: `isValid` and `isReadable` are
`VG_(am_is_valid_for_client)` for one byte and no permissions, and for a word and read
permission; then the two functions that Memcheck passes in; and `word a` is the word at `a`,
unless `faults a`: reading it raises a signal. -/
structure Client where
  isValid : Nat → Bool
  isReadable : Nat → Bool
  isWithinValidSecondary : Nat → Bool
  isValidAlignedWord : Nat → Bool
  word : Nat → Nat
  faults : Nat → Bool

/-- `SM_SIZE`. -/
def smSize : Nat := 65536

/-- `lc_compar`. -/
def lcCompar {ε : Type} (n1 n2 : McChunk ε) : Int :=
  if n1.data < n2.data then -1 else if n1.data > n2.data then 1 else 0

section

variable [Machine] {ε : Type}

/-! ## Looking up a block -/

/-- The end of a block as `find_shadow_for` computes it: blocks of size 0 are treated as if they
had size 1. -/
def McChunk.hi (mc : McChunk ε) : Nat :=
  if mc.szB = 0 then addW (addW mc.data mc.szB) 1 else addW mc.data mc.szB

/-- The loop of `find_shadow_for`. The unsearched space is from `lo` to `hi`, inclusive. -/
def findShadowLoop (ptr : Nat) (shadows : List (McChunk ε)) : Nat → Int → Int → Result (Option Nat)
  | 0, _, _ => throw .diverge
  | fuel + 1, lo, hi =>
    if lo > hi then pure none
    else
      let mid := (lo + hi) / 2
      match shadows[mid.toNat]? with
      | none => throw .fault
      | some mc =>
        if ptr < mc.data then findShadowLoop ptr shadows fuel lo (mid - 1)
        else if ptr ≥ mc.hi then findShadowLoop ptr shadows fuel (mid + 1) hi
        else do
          assertThat (ptr ≥ mc.data ∧ ptr < mc.hi)
          pure (some mid.toNat)

/-- `find_shadow_for`. -/
def findShadowFor (ptr : Nat) (shadows : List (McChunk ε)) : Result (Option Nat) :=
  findShadowLoop ptr shadows (shadows.length + 1) 0 (shadows.length - 1)

/-! ## The mark stack -/

/-- `lc_markstack[i].state = state`. -/
def Lc.setState (lc : Lc) (i : Nat) (state : Reachedness) : Lc :=
  { lc with markstack := Function.update lc.markstack i { lc.markstack i with state } }

/-- `lc_markstack[i].indirect = indirect`. -/
def Lc.setIndirect (lc : Lc) (i indirect : Nat) : Lc :=
  { lc with markstack := Function.update lc.markstack i { lc.markstack i with indirect } }

/-- Link the block `i` in at the top of the mark stack. -/
def Lc.link (lc : Lc) (i : Nat) : Lc :=
  { markstack := Function.update lc.markstack i { lc.markstack i with next := lc.top }
    top := some i }

/-- What `lc_markstack_push_WRK` does about the clique leader: an unmarked block joins the
clique, with its size and, if it was itself a clique leader, with what is lost with it. -/
def joinClique (shadows : List (McChunk ε)) (lc : Lc) (shNo szB clique : Nat) : Result Lc := do
  assertThat (clique < shadows.length)
  if (lc.markstack shNo).state = .unreached then do
    let lc := lc.setState shNo .indirectLeak
    if shNo ≠ clique then
      let lc := lc.setIndirect clique (addW (lc.markstack clique).indirect szB)
      let lc := lc.setIndirect clique
        (addW (lc.markstack clique).indirect (lc.markstack shNo).indirect)
      pure (lc.setIndirect shNo 0)
    else pure lc
  else pure lc

/-- `lc_markstack_push_WRK`. -/
def lcMarkstackPushWRK (c : Client) (shadows : List (McChunk ε)) (clique : Option Nat) (lc : Lc)
    (ptr : Nat) : Result Lc := do
  if c.isValid ptr = false then pure lc
  else do
    let found ← findShadowFor ptr shadows
    match found with
    | none => pure lc
    | some shNo =>
      match shadows[shNo]? with
      | none => throw .assertFailed
      | some mc => do
        assertThat (ptr ≥ mc.data)
        assertThat (ptr < addW (addW mc.data mc.szB) (if mc.szB = 0 then 1 else 0))
        let lc ← (if (lc.markstack shNo).state = .unreached then do
            assertThat ((lc.markstack shNo).next = none)
            pure (lc.link shNo)
          else pure lc)
        match clique with
        | some clique => joinClique shadows lc shNo mc.szB clique
        | none =>
          if ptr = mc.data then pure (lc.setState shNo .proper)
          else if (lc.markstack shNo).state = .unreached then pure (lc.setState shNo .interior)
          else pure lc

/-- `lc_markstack_pop`. -/
def lcMarkstackPop (lc : Lc) : Option Nat × Lc :=
  match lc.top with
  | none => (none, lc)
  | some ret =>
    (some ret,
      { markstack := Function.update lc.markstack ret { lc.markstack ret with next := none }
        top := (lc.markstack ret).next })

/-! ## Scanning memory -/

/-- The loop of `lc_scan_memory_WRK` from `ptr` on: the words that it finds. -/
def scanLoop (c : Client) (stop : Nat) : Nat → Nat → Result (List Nat)
  | 0, _ => throw .diverge
  | fuel + 1, ptr =>
    if ptr < stop then
      if c.isWithinValidSecondary ptr = false then scanLoop c stop fuel (roundUp (addW ptr 1) smSize)
      else
        let ptr := if ptr % pageSzB = 0 ∧ c.isReadable ptr = false then addW ptr pageSzB else ptr
        if c.isValidAlignedWord ptr then
          if c.faults ptr then scanLoop c stop fuel (pgRoundUp (addW ptr 1))
          else do
            let ws ← scanLoop c stop fuel (addW ptr wordB)
            pure (c.word ptr :: ws)
        else scanLoop c stop fuel (addW ptr wordB)
    else pure []

/-- The words that `lc_scan_memory_WRK` finds in `[start, start + len)`. -/
def scanWords (c : Client) (start len : Nat) : Result (List Nat) :=
  let ptr := roundUp start wordB
  let stop := roundDn (addW start len) wordB
  let ptr := if c.isReadable ptr = false then pgRoundUp (addW ptr 1) else ptr
  scanLoop c stop wordMod ptr

/-- `lc_scan_memory_WRK`. Scanning does not depend on what becomes of the words found. -/
def lcScanMemoryWRK (c : Client) (shadows : List (McChunk ε)) (start len : Nat)
    (clique : Option Nat) (lc : Lc) : Result Lc := do
  let ws ← scanWords c start len
  ws.foldlM (lcMarkstackPushWRK c shadows clique) lc

/-- The loop of `lc_do_leakcheck`. Every block is on the stack at most once. -/
def leakcheckLoop (c : Client) (shadows : List (McChunk ε)) (clique : Option Nat) :
    Nat → Lc → Result Lc
  | 0, _ => throw .diverge
  | fuel + 1, lc =>
    match lcMarkstackPop lc with
    | (none, lc) => pure lc
    | (some top, lc) =>
      match shadows[top]? with
      | none => throw .assertFailed
      | some mc => do
        assertThat ((lc.markstack top).state ≠ .unreached)
        let lc ← lcScanMemoryWRK c shadows mc.data mc.szB clique lc
        leakcheckLoop c shadows clique fuel lc

/-- `lc_do_leakcheck`. -/
def lcDoLeakcheck (c : Client) (shadows : List (McChunk ε)) (clique : Option Nat) (lc : Lc) :
    Result Lc :=
  leakcheckLoop c shadows clique (shadows.length + 1) lc

/-! ## The report -/

/-- One turn of the loop of `full_report` that gathers cliques. -/
def gatherClique (c : Client) (shadows : List (McChunk ε)) (lc : Lc) (i : Nat) : Result Lc :=
  match shadows[i]? with
  | none => throw .fault
  | some mc =>
    if (lc.markstack i).state ≠ .unreached then pure lc
    else do
      assertThat (lc.top = none)
      let lc ← lcMarkstackPushWRK c shadows (some i) lc mc.data
      let lc ← lcDoLeakcheck c shadows (some i) lc
      assertThat (lc.top = none)
      assertThat ((lc.markstack i).state = .indirectLeak ∨ (lc.markstack i).state = .unreached)
      pure (lc.setState i .unreached)

/-- The first loop of `full_report`: group lost structures into cliques. -/
def gatherCliques (c : Client) (shadows : List (McChunk ε)) (lc : Lc) : Result Lc :=
  (List.range shadows.length).foldlM (gatherClique c shadows) lc

variable (eqExeContext : ε → ε → Bool)

/-- Add a block to the first loss record that it goes with; `none` if there is none. -/
def addToRecord (mark : MarkStack) (mc : McChunk ε) : List (LossRecord ε) → Option (List (LossRecord ε))
  | [] => none
  | p :: ps =>
    if p.lossMode = mark.state ∧ eqExeContext p.allocatedAt mc.where_ = true then
      some ({ p with
        numBlocks := p.numBlocks + 1
        totalBytes := addW p.totalBytes mc.szB
        indirectBytes := addW p.indirectBytes mark.indirect } :: ps)
    else (addToRecord mark mc ps).map (p :: ·)

/-- One turn of the second loop of `full_report`. -/
def commonUp (mark : MarkStack) (errlist : List (LossRecord ε)) (mc : McChunk ε) : List (LossRecord ε) :=
  match addToRecord eqExeContext mark mc errlist with
  | some errlist => errlist
  | none => ⟨mc.where_, mark.state, mc.szB, mark.indirect, 1⟩ :: errlist

/-- The second loop of `full_report`: common up the lost blocks. -/
def lossRecords (shadows : List (McChunk ε)) (lc : Lc) : List (LossRecord ε) :=
  shadows.zipIdx.foldl (fun errlist x => commonUp eqExeContext (lc.markstack x.2) errlist x.1) []

/-- The loop of `full_report` that looks for the record to report next, from number `i` on. -/
def selectMin : List (LossRecord ε) → Nat → Nat → Option Nat → Option Nat
  | [], _, _, pMin => pMin
  | p :: ps, i, nMin, pMin =>
    if p.numBlocks > 0 ∧ p.totalBytes < nMin then
      selectMin ps (i + 1) (addW p.totalBytes p.indirectBytes) (some i)
    else selectMin ps (i + 1) nMin pMin

/-- The loop of `full_report` that reports the records, `left` more of them. -/
def reportLoop : Nat → List (LossRecord ε) → Result (List (LossRecord ε))
  | 0, _ => pure []
  | left + 1, errlist =>
    match selectMin errlist 0 (wordMod - 1) none with
    | none => throw .assertFailed
    | some i =>
      match errlist[i]? with
      | none => throw .fault
      | some pMin => do
        let out ← reportLoop left (errlist.set i { pMin with numBlocks := 0 })
        pure (pMin :: out)

/-- The records in the order in which `full_report` reports them. -/
def reported (errlist : List (LossRecord ε)) : Result (List (LossRecord ε)) :=
  reportLoop errlist.length errlist

/-- A number of blocks and a number of bytes. -/
structure Tally where
  blocks : Nat
  bytes : Nat
  deriving DecidableEq, Repr

/-- The five pairs of counters that the leak summary prints. -/
structure Totals where
  leaked : Tally
  indirect : Tally
  dubious : Tally
  reachable : Tally
  suppressed : Tally
  deriving DecidableEq, Repr

/-- All counters at 0. -/
def Totals.zero : Totals := ⟨⟨0, 0⟩, ⟨0, 0⟩, ⟨0, 0⟩, ⟨0, 0⟩, ⟨0, 0⟩⟩

/-- Count `blocks` blocks of `bytes` bytes. -/
def Tally.add (t : Tally) (blocks bytes : Nat) : Tally := ⟨addW t.blocks blocks, addW t.bytes bytes⟩

/-- Count blocks in the counters for their state. -/
def Totals.add (t : Totals) (state : Reachedness) (blocks bytes : Nat) : Totals :=
  match state with
  | .unreached => { t with leaked := t.leaked.add blocks bytes }
  | .indirectLeak => { t with indirect := t.indirect.add blocks bytes }
  | .interior => { t with dubious := t.dubious.add blocks bytes }
  | .proper => { t with reachable := t.reachable.add blocks bytes }

/-- What `full_report` does with the record that it reports as number `i`:
`MC_(record_leak_error)` says whether the error is suppressed. -/
def tallyRecord (showReachable : Bool) (recordLeakError : Nat → LossRecord ε → Bool → Bool) (t : Totals)
    (x : LossRecord ε × Nat) : Totals :=
  let pMin := x.1
  let printRecord := showReachable || pMin.lossMode = .unreached || pMin.lossMode = .interior
  if recordLeakError (x.2 + 1) pMin printRecord then
    { t with suppressed := t.suppressed.add pMin.numBlocks pMin.totalBytes }
  else t.add pMin.lossMode pMin.numBlocks pMin.totalBytes

/-- `full_report`: the mark stack that it leaves behind, the records in the order in which they
are reported, and the counters. -/
def fullReport (c : Client) (shadows : List (McChunk ε)) (showReachable : Bool)
    (recordLeakError : Nat → LossRecord ε → Bool → Bool) (lc : Lc) :
    Result (Lc × List (LossRecord ε) × Totals) := do
  let lc ← gatherCliques c shadows lc
  let out ← reported (lossRecords eqExeContext shadows lc)
  pure (lc, out, out.zipIdx.foldl (tallyRecord showReachable recordLeakError) .zero)

/-- `make_summary`. -/
def makeSummary (shadows : List (McChunk ε)) (lc : Lc) : Totals :=
  shadows.zipIdx.foldl (fun t x => t.add (lc.markstack x.2).state 1 x.1.szB) .zero

/-! ## The blocks and the roots -/

/-- The address of the last byte of a mempool chunk. -/
def McChunk.last (mc : McChunk ε) : Nat := addW mc.data (mc.szB - 1)

/-- Invalidate the malloc chunk that holds `ptr`, if any. The state is `n_shadows` and
`malloc_chunk_holds_a_pool_chunk`. -/
def invalidate (mallocs : List (McChunk ε)) (ptr : Nat) (st : Nat × List Bool) :
    Result (Nat × List Bool) := do
  let m ← findShadowFor ptr mallocs
  match m with
  | none => pure st
  | some m =>
    match st.2[m]? with
    | none => throw .fault
    | some holds =>
      if holds = false then do
        assertThat (st.1 > 0)
        pure (st.1 - 1, st.2.set m true)
      else pure st

/-- One turn of the first loop of `find_active_shadows` over the mempool chunks. -/
def countPoolChunk (mallocs : List (McChunk ε)) (st : Nat × List Bool) (mc : McChunk ε) :
    Result (Nat × List Bool) := do
  let st ← invalidate mallocs mc.data (st.1 + 1, st.2)
  if mc.szB > 1 then invalidate mallocs mc.last st else pure st

/-- `shadows[s++] = mc`, into an array of `n` entries. -/
def pushShadow (n : Nat) (shadows : List (McChunk ε)) (mc : McChunk ε) : Result (List (McChunk ε)) := do
  assertThat (shadows.length < n)
  pure (shadows ++ [mc])

/-- `find_active_shadows`, for the chunks of `MC_(malloc_list)` and, pool by pool, of
`MC_(mempool_list)`: the array and `n_shadows`. -/
def findActiveShadows (ssort : Ssort (lcCompar (ε := ε))) (mallocList : List (McChunk ε))
    (mempoolList : List (List (McChunk ε))) : Result (List (McChunk ε) × Nat) := do
  if mallocList.length = 0 then pure ([], 0)
  else do
    let mallocs := ssort.sort mallocList
    let (nShadows, holds) ← mempoolList.flatten.foldlM (countPoolChunk mallocs)
      (mallocs.length, List.replicate mallocs.length false)
    assertThat (nShadows > 0)
    let shadows ← mempoolList.flatten.foldlM (pushShadow nShadows) []
    let shadows ← ((mallocs.zip holds).filterMap fun x => if x.2 = false then some x.1 else none).foldlM
      (pushShadow nShadows) shadows
    assertThat (shadows.length = nShadows)
    pure (shadows, nShadows)

/-- `lc_markstack` before marking. -/
def markstackInit : Lc := ⟨fun _ => ⟨none, .unreached, 0⟩, none⟩

/-- The marking phase of `MC_(do_detect_memory_leaks)`. `roots` are the segments of the client
that pass the tests of the loop over the segments, with their lengths, and `regs` the general
purpose registers of all threads. -/
def markPhase (c : Client) (shadows : List (McChunk ε)) (roots : List (Nat × Nat)) (regs : List Nat) :
    Result Lc := do
  let lc ← roots.foldlM (fun lc r => lcScanMemoryWRK c shadows r.1 r.2 none lc) markstackInit
  let lc ← regs.foldlM (lcMarkstackPushWRK c shadows none) lc
  lcDoLeakcheck c shadows none lc

end

end Memcheck

end Valgrind
