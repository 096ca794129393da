import Valgrind.Coregrind.HashTable
import Valgrind.Massif.SnapshotSpecs

/-!
# Massif: heap management

`new_block`, `die_block` and `renew_block` of `ms_main.c`: the list of the client's blocks, the
sums over them that are kept up to date, and the calls into the XTree and the snapshot table.

What the allocator and `get_IPs` answer are arguments, as is what `get_time` reads from
outside. A block that is allocated gets its `where` before it is put into `malloc_list`; the
source puts it there first. Zeroing and copying memory and freeing the client's blocks are left
out.
-/

namespace Valgrind.Massif

open Coregrind

/-! ## The state -/

/-- `HP_Chunk`. -/
structure HPChunk where
  data : Nat
  reqSzB : Nat
  slopSzB : Nat
  whereXPt : Option Nat
  deriving Repr

/-- `--time-unit`. -/
inductive TimeUnit where
  | timeI
  | timeMS
  | timeB
  deriving DecidableEq, Repr

/-- The options of Massif. -/
structure Options extends Config where
  cloTimeUnit : TimeUnit

/-- The state of the tool. -/
structure Massif where
  mallocList : HashTable HPChunk
  statics : Statics
  totalAllocsDeallocsSzB : Nat
  table : SnapshotTable

/-- What one call of `maybe_take_snapshot` is told from outside: the number of instructions or
of milliseconds, and the excess for a new peak. -/
structure Moment where
  clock : Int
  excessSzB : Nat
  deriving Repr

/-- What `VG_(cli_malloc)` returns and the size that `VG_(malloc_usable_size)` gives it, or
`NULL`. -/
abbrev Malloced := Option (Nat × Nat)

/-- The tool when the first block of code is about to be executed. -/
def initMassif (cloMaxSnapshots : Nat) : Massif where
  mallocList := htConstruct HPChunk
  statics := { haveStartedExecutingCode := true, heapSzB := 0, heapExtraSzB := 0, stacksSzB := 0, xtree := initXTree }
  totalAllocsDeallocsSzB := 0
  table := initTable cloMaxSnapshots

/-! ## The functions -/

/-- `get_time`. -/
def getTime (opts : Options) (st : Massif) (now : Moment) : Int :=
  match opts.cloTimeUnit with
  | .timeI => now.clock
  | .timeMS => now.clock
  | .timeB => sSizeT st.totalAllocsDeallocsSzB

/-- A call of `maybe_take_snapshot`. -/
def snapshotAt (opts : Options) (st : Massif) (kind : SnapshotKind) (now : Moment) : Checked Massif := do
  let request := { kind, time := getTime opts st now, statics := st.statics, excessSzB := now.excessSzB }
  let table ← maybeTakeSnapshot opts.toConfig st.table request
  return { st with table }

/-- `VG_(HT_add_node)(malloc_list, hc)`. -/
def addChunk (st : Massif) (hc : HPChunk) : Checked Massif :=
  match htAddNode HPChunk.data st.mallocList hc with
  | .ok mallocList => .ok { st with mallocList }
  | .error _ => .error .core

/-- `update_alloc_stats`. -/
def updateAllocStats (st : Massif) (szBDelta : Int) : Massif :=
  { st with totalAllocsDeallocsSzB := sizeT (st.totalAllocsDeallocsSzB + if szBDelta < 0 then sSizeT (-szBDelta) else szBDelta) }

/-- `update_heap_stats`. -/
def updateHeapStats (st : Massif) (heapSzBDelta heapExtraSzBDelta : Int) : Checked Massif := do
  tlAssert .updateHeapStats (heapSzBDelta < 0 → sizeT (-heapSzBDelta) ≤ st.statics.heapSzB)
  tlAssert .updateHeapStats (heapExtraSzBDelta < 0 → sizeT (int32 (-heapExtraSzBDelta)) ≤ st.statics.heapExtraSzB)
  let statics := { st.statics with
    heapExtraSzB := sizeT (st.statics.heapExtraSzB + heapExtraSzBDelta)
    heapSzB := sizeT (st.statics.heapSzB + heapSzBDelta) }
  return updateAllocStats { st with statics } (sSizeT (heapSzBDelta + heapExtraSzBDelta))

/-- The XTree alone. -/
def Massif.setXTree (st : Massif) (xtree : List XPt) : Massif := { st with statics := { st.statics with xtree } }

/-- `new_block` from where the chunk is made. -/
def recordBlock (opts : Options) (st : Massif) (p reqSzB slopSzB : Nat) (ips : List Nat) (now : Moment) :
    Checked Massif :=
  if opts.cloHeap then do
    let st ← updateHeapStats st (sSizeT reqSzB) (int32 (opts.cloHeapAdmin + slopSzB))
    let (xtree, xpt) ← getXCon st.statics.xtree ips
    let xtree ← updateXCon opts.cloHeap xtree (some xpt) (sSizeT reqSzB)
    let st ← addChunk (st.setXTree xtree) ⟨p, reqSzB, slopSzB, some xpt⟩
    snapshotAt opts st .normal now
  else addChunk st ⟨p, reqSzB, slopSzB, none⟩

/-- `new_block`; the address is `NULL` unless the client has placed the block itself. -/
def newBlock (opts : Options) (st : Massif) (p reqSzB : Nat) (malloced : Malloced) (ips : List Nat) (now : Moment) :
    Checked (Massif × Nat) :=
  if p = 0 then
    match malloced with
    | none => .ok (st, 0)
    | some (p, actualSzB) => do
      tlAssert .newBlock (reqSzB ≤ actualSzB)
      let st ← recordBlock opts st p reqSzB (actualSzB - reqSzB) ips now
      return (st, p)
  else do
    let st ← recordBlock opts st p reqSzB 0 ips now
    return (st, p)

/-- `ms_calloc`. -/
def msCalloc (opts : Options) (st : Massif) (m szB : Nat) (malloced : Malloced) (ips : List Nat) (now : Moment) :
    Checked (Massif × Nat) := newBlock opts st 0 (sizeT (m * szB)) malloced ips now

/-- `die_block`. -/
def dieBlock (opts : Options) (st : Massif) (p : Nat) (peak now : Moment) : Checked Massif :=
  match htRemove HPChunk.data st.mallocList p with
  | none => .ok st
  | some (hc, mallocList) =>
    if opts.cloHeap then do
      let st ← snapshotAt opts { st with mallocList } .peak peak
      let st ← updateHeapStats st (sSizeT (-hc.reqSzB)) (int32 (-opts.cloHeapAdmin - hc.slopSzB))
      let xtree ← updateXCon opts.cloHeap st.statics.xtree hc.whereXPt (sSizeT (-hc.reqSzB))
      snapshotAt opts (st.setXTree xtree) .normal now
    else .ok { st with mallocList }

/-- `renew_block` from where the chunk is updated; the new address is never `NULL` here. -/
def updateChunk (opts : Options) (st : Massif) (hc : HPChunk) (pNew newReqSzB newSlopSzB : Nat) (ips : List Nat)
    (now : Moment) : Checked (Massif × Nat) :=
  if opts.cloHeap then do
    let (xtree, newWhere) ← getXCon st.statics.xtree ips
    let xtree ← updateXCon opts.cloHeap xtree hc.whereXPt (sSizeT (-hc.reqSzB))
    let xtree ← updateXCon opts.cloHeap xtree (some newWhere) (sSizeT newReqSzB)
    let st ← addChunk (st.setXTree xtree) ⟨pNew, newReqSzB, newSlopSzB, some newWhere⟩
    let st ← updateHeapStats st (sSizeT (newReqSzB - hc.reqSzB)) (int32 (newSlopSzB - hc.slopSzB))
    let st ← snapshotAt opts st .normal now
    return (st, pNew)
  else do
    let st ← addChunk st ⟨pNew, newReqSzB, newSlopSzB, none⟩
    return (st, pNew)

/-- `renew_block` from where it does the allocation, if necessary. If that fails, the chunk is
not put back into `malloc_list`. -/
def reallocate (opts : Options) (st : Massif) (hc : HPChunk) (pOld newReqSzB : Nat) (malloced : Malloced)
    (ips : List Nat) (now : Moment) : Checked (Massif × Nat) :=
  if newReqSzB ≤ sizeT (hc.reqSzB + hc.slopSzB) then
    updateChunk opts st hc pOld newReqSzB (sizeT (hc.slopSzB + (hc.reqSzB - newReqSzB))) ips now
  else
    match malloced with
    | none => .ok (st, 0)
    | some (pNew, actualSzB) => do
      tlAssert .renewBlock (newReqSzB ≤ actualSzB)
      updateChunk opts st hc pNew newReqSzB (actualSzB - newReqSzB) ips now

/-- `renew_block`. -/
def renewBlock (opts : Options) (st : Massif) (pOld newReqSzB : Nat) (malloced : Malloced) (ips : List Nat)
    (peak now : Moment) : Checked (Massif × Nat) :=
  match htRemove HPChunk.data st.mallocList pOld with
  | none => .ok (st, 0)
  | some (hc, mallocList) => do
    let st := { st with mallocList }
    let st ← (if opts.cloHeap ∧ newReqSzB < hc.reqSzB then snapshotAt opts st .peak peak else .ok st)
    reallocate opts st hc pOld newReqSzB malloced ips now

/-- What the client and the core can call: the first snapshot is taken when the first block of
code is instrumented. -/
inductive Op where
  | startup (now : Moment)
  | newBlock (p reqSzB : Nat) (malloced : Malloced) (ips : List Nat) (now : Moment)
  | dieBlock (p : Nat) (peak now : Moment)
  | renewBlock (pOld newReqSzB : Nat) (malloced : Malloced) (ips : List Nat) (peak now : Moment)

/-- One call. -/
def step (opts : Options) (st : Massif) : Op → Checked Massif
  | .startup now => snapshotAt opts st .normal now
  | .newBlock p reqSzB malloced ips now => do return (← newBlock opts st p reqSzB malloced ips now).1
  | .dieBlock p peak now => dieBlock opts st p peak now
  | .renewBlock pOld newReqSzB malloced ips peak now => do
    return (← renewBlock opts st pOld newReqSzB malloced ips peak now).1

end Valgrind.Massif
