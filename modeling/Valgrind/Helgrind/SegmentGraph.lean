import Mathlib.Logic.Function.Basic
import Valgrind.Helgrind.LockEvents
import Valgrind.Helgrind.ShadowValue
import Valgrind.Helgrind.Timestamps

/-!
# The graph of segments (`hg_main.c`)

The events that synchronise threads start new segments. A segment points back to the one
before it in its thread (`prev`), and to one of another thread that it had to wait for
(`other`); and it has a vector timestamp. `happens_before` compares timestamps, remembers
answers in a small cache, and can compare its answer with a search of the graph.

Segments and threads are never freed. A segment is named by the number of segments that there
were before it; a thread by its address, which matters for the order of timestamps.
-/

namespace Valgrind

namespace Helgrind

/-- `hg_zalloc`, as `mk_Thread` uses it: a new address for each thread. -/
structure ThreadAddrs where
  addr : Nat → Nat
  injective : Function.Injective addr
  ne_zero : ∀ n, addr n ≠ 0

/-- `Segment`. -/
structure Segment where
  thr : Option Nat
  prev : Option Nat
  other : Option Nat
  vts : Option VTS

/-- `mk_Segment`. -/
def mkSegment (thr prev other : Option Nat) : Segment := ⟨thr, prev, other, none⟩

/-- `HBeforeCacheEnt`. -/
structure HBeforeCacheEnt where
  segid1 : SegmentID
  segid2 : SegmentID
  result : Bool
  deriving DecidableEq, Repr

/-- The state. -/
structure SegState where
  /-- All segments, the oldest first. -/
  segs : List Segment
  /-- The marks of the depth-first search. -/
  dfsver : Nat → Nat
  dfsverCurrent : Nat
  /-- `next` in `alloc_SegmentID`. -/
  nextSegid : SegmentID
  mapSegments : SegmentID → Option Nat
  /-- How many threads there are. -/
  nThreads : Nat
  /-- `thr->csegid`, for addresses of threads. -/
  csegid : Nat → Option SegmentID
  mapThreads : Nat → Option Nat
  /-- `map_cond_to_Segment`. -/
  mapCond : Nat → Option Nat
  /-- `map_sem_to_Segment_stack`; the last element is on top. -/
  mapSem : Nat → Option (List Nat)
  cache : List HBeforeCacheEnt
  /-- The errors that `record_error_Misc` records. -/
  errors : List (Nat × String)

section Segments

variable (st : SegState)

/-- The segment at `p`. -/
def SegState.seg (p : Nat) : Result Segment :=
  match st.segs[p]? with
  | some s => return s
  | none => throw .fault

/-- The timestamp of the segment at `p`, which must not be NULL. -/
def SegState.vts (p : Nat) : Result VTS := do
  let s ← st.seg p
  match s.vts with
  | some v => return v
  | none => throw .assertFailed

/-- A new segment, and where it is. -/
def SegState.newSegment (s : Segment) : Nat × SegState := (st.segs.length, { st with segs := st.segs ++ [s] })

/-- `seg->thr = thr`. -/
def SegState.setThr (p thr : Nat) : SegState :=
  { st with segs := st.segs.modify p fun s => { s with thr := some thr } }

/-- `seg->other = other`. -/
def SegState.setOther (p other : Nat) : SegState :=
  { st with segs := st.segs.modify p fun s => { s with other := some other } }

/-- `seg->vts = vts`. -/
def SegState.setVts (p : Nat) (vts : VTS) : SegState :=
  { st with segs := st.segs.modify p fun s => { s with vts := some vts } }

/-- `record_error_Misc`. -/
def SegState.misc (thr : Nat) (errstr : String) : SegState := { st with errors := st.errors ++ [(thr, errstr)] }

/-- `alloc_SegmentID`. -/
def allocSegmentID : Result (SegmentID × SegState) := do
  assertThat (isSaneSegmentID st.nextSegid)
  return (st.nextSegid, { st with nextSegid := st.nextSegid + 1 })

/-- `map_segments_lookup`. -/
def mapSegmentsLookup (segid : SegmentID) : Result Nat := do
  assertThat (isSaneSegmentID segid)
  match st.mapSegments segid with
  | some p => return p
  | none => throw .assertFailed

/-- `map_segments_add`. -/
def mapSegmentsAdd (segid : SegmentID) (p : Nat) : Result SegState := do
  assertThat (st.mapSegments segid = none)
  return { st with mapSegments := Function.update st.mapSegments segid (some p) }

/-- `mk_Thread`. -/
def mkThread (mem : ThreadAddrs) (csegid : SegmentID) : Nat × SegState :=
  (mem.addr st.nThreads,
    { st with nThreads := st.nThreads + 1, csegid := Function.update st.csegid (mem.addr st.nThreads) (some csegid) })

/-- `map_threads_maybe_lookup`, where the thread must exist. -/
def SegState.lookupThread (tid : Nat) : Result Nat := do
  assertThat (tid < vgNThreads)
  match st.mapThreads tid with
  | some thr => return thr
  | none => throw .assertFailed

/-- The segment that `thr->csegid` stands for. -/
def SegState.current (thr : Nat) : Result Nat :=
  match st.csegid thr with
  | some segid => mapSegmentsLookup st segid
  | none => throw .assertFailed

/-- `evhH__start_new_segment_for_thread`: where the new segment is, and where the one before it. -/
def startNewSegmentForThread (thr : Nat) : Result (Nat × Nat × SegState) := do
  let curSeg ← st.current thr
  let s ← st.seg curSeg
  assertThat (s.thr = some thr)
  let (newSeg, st) := st.newSegment (mkSegment (some thr) (some curSeg) none)
  let (newSegid, st) ← allocSegmentID st
  let st ← mapSegmentsAdd st newSegid newSeg
  return (newSeg, curSeg, { st with csegid := Function.update st.csegid thr (some newSegid) })

/-- A new segment for `thr`, with `vts = tick_VTS(new_seg->thr, new_seg->prev->vts)`. Yields
`new_seg->prev`. -/
def tickedSegment (thr : Nat) : Result (Nat × SegState) := do
  let (newSeg, prev, st) ← startNewSegmentForThread st thr
  let v ← st.vts prev
  let r ← tickVTS thr v
  return (prev, st.setVts newSeg r)

/-- A new segment for `thr` that depends on `other`, with
`vts = tickL_and_joinR_VTS(new_seg->thr, new_seg->prev->vts, new_seg->other->vts)`. -/
def joinedSegment (thr other : Nat) : Result SegState := do
  let (newSeg, prev, st) ← startNewSegmentForThread st thr
  let st := st.setOther newSeg other
  let a ← st.vts prev
  let b ← st.vts other
  let r ← tickLAndJoinRVTS thr a b
  return st.setVts newSeg r

end Segments

/-! ## The handlers -/

section Handlers

variable (mem : ThreadAddrs) (cloHappensBefore : Nat) (st : SegState)

/-- `evh__pre_thread_ll_create`, from `if (clo_happens_before >= 1)` on. -/
def linkCreated (thrP thrC segC : Nat) : Result SegState := do
  if cloHappensBefore ≥ 1 then
    -- the child's new segment depends on the parent
    let other ← st.current thrP
    let st := st.setOther segC other
    let v ← st.vts other
    let r ← tickVTS thrC v
    let st := st.setVts segC r
    -- and the parent starts a new segment
    let (_, st) ← tickedSegment st thrP
    return st
  else return st

/-- `evh__pre_thread_ll_create`. -/
def preThreadLlCreate (parent child : Nat) : Result SegState := do
  if parent = 0 then return st
  else
    assertThat (child < vgNThreads)
    assertThat (parent ≠ child)
    let thrP ← st.lookupThread parent
    assertThat (st.mapThreads child = none)
    let (segidC, st) ← allocSegmentID st
    let (segC, st) := st.newSegment (mkSegment none none none)
    let st ← mapSegmentsAdd st segidC segC
    let (thrC, st) := mkThread st mem segidC
    let st := st.setThr segC thrC
    let st := { st with mapThreads := Function.update st.mapThreads child (some thrC) }
    linkCreated cloHappensBefore st thrP thrC segC

/-- `evh__pre_thread_ll_exit`: what it does to `map_threads`. -/
def preThreadLlExit (quitTid : Nat) : Result SegState := do
  let _ ← st.lookupThread quitTid
  return { st with mapThreads := Function.update st.mapThreads quitTid none }

/-- `evh__HG_PTHREAD_JOIN_POST`, up to the scan of the shadow memory. -/
def pthreadJoinPost (stayTid quitThr : Nat) : Result SegState := do
  let thrS ← st.lookupThread stayTid
  assertThat (quitThr ≠ 0)
  assertThat (thrS ≠ quitThr)
  if cloHappensBefore ≥ 1 then
    let other ← st.current quitThr
    joinedSegment st thrS other
  else return st

/-- `evh__HG_PTHREAD_COND_SIGNAL_PRE`. -/
def pthreadCondSignalPre (tid cond : Nat) : Result SegState := do
  let thr ← st.lookupThread tid
  if cloHappensBefore ≥ 2 then
    let (prev, st) ← tickedSegment st thr
    return { st with mapCond := Function.update st.mapCond cond (some prev) }
  else return st

/-- `evh__HG_PTHREAD_COND_WAIT_POST`. -/
def pthreadCondWaitPost (tid cond : Nat) : Result SegState := do
  let thr ← st.lookupThread tid
  if cloHappensBefore ≥ 2 then
    match st.mapCond cond with
    | some signallingSeg => joinedSegment st thr signallingSeg
    | none => do
      let (_, st) ← tickedSegment (st.misc thr
        "Bug in libpthread: pthread_cond_wait succeeded on without prior pthread_cond_post") thr
      return st
  else return st

/-- `push_Segment_for_sem`. -/
def pushSegmentForSem (sem seg : Nat) : SegState :=
  { st with mapSem := Function.update st.mapSem sem (some (((st.mapSem sem).getD []) ++ [seg])) }

/-- `mb_pop_Segment_for_sem`. -/
def mbPopSegmentForSem (sem : Nat) : Option Nat × SegState :=
  match st.mapSem sem with
  | none => (none, st)
  | some xa =>
    match xa.getLast? with
    | none => (none, st)
    | some seg => (some seg, { st with mapSem := Function.update st.mapSem sem (some xa.dropLast) })

/-- `do { seg = mb_pop_Segment_for_sem( sem ); } while (seg);`, which ends after at most `n` rounds. -/
def popAll (sem : Nat) : Nat → SegState → SegState
  | 0, st => st
  | n + 1, st =>
    match mbPopSegmentForSem st sem with
    | (some _, st) => popAll sem n st
    | (none, st) => st

/-- Empty out the stack of a semaphore. -/
def emptyStack (sem : Nat) : SegState := popAll sem (((st.mapSem sem).getD []).length + 1) st

/-- `evh__HG_POSIX_SEM_DESTROY_PRE`. -/
def posixSemDestroyPre (sem : Nat) : Result SegState := return emptyStack st sem

/-- `while (value > 0) { push_Segment_for_sem( sem, seg ); value--; }`. -/
def pushTimes (sem seg : Nat) : Nat → SegState → SegState
  | 0, st => st
  | value + 1, st => pushTimes sem seg value (pushSegmentForSem st sem seg)

/-- `evh__HG_POSIX_SEM_INIT_POST`. -/
def posixSemInitPost (tid sem value : Nat) : Result SegState := do
  let st := emptyStack st sem
  if value > 0 then
    let thr ← st.lookupThread tid
    let (prev, st) ← tickedSegment st thr
    if value > 10000 then
      return pushTimes sem prev 10000 (st.misc thr "sem_init: initial value exceeds 10000; using 10000")
    else return pushTimes sem prev value st
  else return st

/-- `evh__HG_POSIX_SEM_POST_PRE`. -/
def posixSemPostPre (tid sem : Nat) : Result SegState := do
  let thr ← st.lookupThread tid
  if cloHappensBefore ≥ 2 then
    let (prev, st) ← tickedSegment st thr
    return pushSegmentForSem st sem prev
  else return st

/-- `evh__HG_POSIX_SEM_WAIT_POST`. -/
def posixSemWaitPost (tid sem : Nat) : Result SegState := do
  let thr ← st.lookupThread tid
  if cloHappensBefore ≥ 2 then
    match mbPopSegmentForSem st sem with
    | (some postingSeg, st) => joinedSegment st thr postingSeg
    | (none, st) => do
      let (_, st) ← tickedSegment (st.misc thr
        "Bug in libpthread: sem_wait succeeded on semaphore without prior sem_post") thr
      return st
  else return st

end Handlers

/-! ## Searching the graph -/

/-- The loop of `happens_before_do_dfs_from_to`; `cur` is `dfsver_current`. The head of the list is
the node that is considered, the rest is the stack: where the code goes on with an only child
at once, the child is put on the stack here and comes off it next. `fuel` bounds the number
of nodes that are considered. -/
def dfsLoop (segs : List Segment) (cur dst : Nat) : Nat → (Nat → Nat) → List Nat → Result (Bool × (Nat → Nat))
  | _, ver, [] => return (false, ver)
  | 0, _, _ :: _ => throw .diverge
  | fuel + 1, ver, here :: stack =>
    if here = dst then return (true, ver)
    else do
      assertThat (ver here ≤ cur)
      if ver here = cur then dfsLoop segs cur dst fuel ver stack
      else
        match segs[here]? with
        | none => throw .fault
        | some s =>
          dfsLoop segs cur dst fuel (Function.update ver here cur) (s.other.toList ++ s.prev.toList ++ stack)

/-- `happens_before_do_dfs_from_to`, after `dfsver_current` has been incremented. -/
def happensBeforeDoDfsFromTo (st : SegState) (src dst : Nat) : Result (Bool × SegState) := do
  let s ← st.seg src
  -- fast track common case
  if s.prev = some dst ∨ s.other = some dst then return (true, st)
  else
    let (r, ver) ← dfsLoop st.segs st.dfsverCurrent dst (2 * st.segs.length + 1) st.dfsver [src]
    return (r, { st with dfsver := ver })

/-- `happens_before_wrk`. -/
def happensBeforeWrk (st : SegState) (seg1 seg2 : Nat) : Result (Bool × SegState) := do
  assertThat (st.dfsverCurrent < 0xFFFFFFFF)
  happensBeforeDoDfsFromTo { st with dfsverCurrent := st.dfsverCurrent + 1 } seg2 seg1

/-- `HBEFORE__N_CACHE`. -/
def hbeforeNCache : Nat := 64

/-- `hbefore__invalidate_cache`: what the cache is then. -/
def hbeforeInvalidCache : List HBeforeCacheEnt := List.replicate hbeforeNCache ⟨0, 0, false⟩

/-- Look for the entry of a pair: the answer, and the cache with the entry one step closer to
the front. -/
def probeCache (segid1 segid2 : SegmentID) (cache : List HBeforeCacheEnt) : Option (Bool × List HBeforeCacheEnt) :=
  match cache.findIdx? fun e => segid1 = e.segid1 ∧ segid2 = e.segid2 with
  | none => none
  | some i =>
    match cache[i]?, cache[i - 1]? with
    | some e, some before => some (e.result, if i = 0 then cache else (cache.set i before).set (i - 1) e)
    | _, _ => none

/-- Add an entry: the ones from the insertion point on move one step towards the end. -/
def insertCache (e : HBeforeCacheEnt) (cache : List HBeforeCacheEnt) : List HBeforeCacheEnt :=
  (cache.take (hbeforeNCache / 4 - 1) ++ e :: cache.drop (hbeforeNCache / 4 - 1)).take hbeforeNCache

/-- `happens_before`; `crosscheck` is `clo_sanity_flags & SCE_HBEFORE`. -/
def happensBefore (crosscheck : Bool) (st : SegState) (segid1 segid2 : SegmentID) : Result (Bool × SegState) := do
  assertThat (isSaneSegmentID segid1)
  assertThat (isSaneSegmentID segid2)
  assertThat (segid1 ≠ segid2)
  match probeCache segid1 segid2 st.cache with
  | some (result, cache) => return (result, { st with cache := cache })
  | none => do
    let seg1 ← mapSegmentsLookup st segid1
    let seg2 ← mapSegmentsLookup st segid2
    assertThat (seg1 ≠ seg2)
    let vts1 ← st.vts seg1
    let vts2 ← st.vts seg2
    let hbV := cmpGEQVTS vts2 vts1
    let (hbG, st) ← if crosscheck then happensBeforeWrk st seg1 seg2 else pure (hbV, st)
    assertThat (hbV = hbG)
    return (hbG, { st with cache := insertCache ⟨segid1, segid2, hbG⟩ st.cache })

/-! ## Runs -/

/-- The state after `initialise_data_structures`: the root thread, whose `ThreadId` is 1. -/
def segInit (mem : ThreadAddrs) : SegState where
  segs := [⟨some (mem.addr 0), none, none, some [⟨mem.addr 0, 1⟩]⟩]
  dfsver := fun _ => 0
  dfsverCurrent := 0
  nextSegid := 0x1000001
  mapSegments := Function.update (fun _ => none) 0x1000000 (some 0)
  nThreads := 1
  csegid := Function.update (fun _ => none) (mem.addr 0) (some 0x1000000)
  mapThreads := Function.update (fun _ => none) 1 (some (mem.addr 0))
  mapCond := fun _ => none
  mapSem := fun _ => none
  cache := hbeforeInvalidCache
  errors := []

/-- What happens to threads, and questions about the order of segments. -/
inductive SegEvent where
  | create (parent child : Nat)
  | exit (tid : Nat)
  | join (stayTid quitThr : Nat)
  | condSignal (tid cond : Nat)
  | condWait (tid cond : Nat)
  | semInit (tid sem value : Nat)
  | semDestroy (sem : Nat)
  | semPost (tid sem : Nat)
  | semWait (tid sem : Nat)
  | ask (crosscheck : Bool) (segid1 segid2 : SegmentID)

/-- One event. -/
def segStep (mem : ThreadAddrs) (cloHappensBefore : Nat) (st : SegState) : SegEvent → Result SegState
  | .create parent child => preThreadLlCreate mem cloHappensBefore st parent child
  | .exit tid => preThreadLlExit st tid
  | .join stayTid quitThr => pthreadJoinPost cloHappensBefore st stayTid quitThr
  | .condSignal tid cond => pthreadCondSignalPre cloHappensBefore st tid cond
  | .condWait tid cond => pthreadCondWaitPost cloHappensBefore st tid cond
  | .semInit tid sem value => posixSemInitPost st tid sem value
  | .semDestroy sem => posixSemDestroyPre st sem
  | .semPost tid sem => posixSemPostPre cloHappensBefore st tid sem
  | .semWait tid sem => posixSemWaitPost cloHappensBefore st tid sem
  | .ask crosscheck segid1 segid2 => do
    let (_, st) ← happensBefore crosscheck st segid1 segid2
    return st

end Helgrind

end Valgrind
