import Valgrind.Helgrind.ShadowValue
import Valgrind.Helgrind.WordSetSets

/-!
# The memory state machine (`hg_main.c`, 2814–3306)

`msm__handle_read` and `msm__handle_write` make the new shadow word of a location from the
old one, and report races on the way. They intern thread sets and lock sets; a lock that a
location has lost last is remembered for the error message.
-/

namespace Valgrind

namespace Helgrind

/-- `Thread`: its address, and the fields that change. -/
structure Thread where
  addr : Nat
  locksetA : WordSet
  locksetW : WordSet
  csegid : SegmentID
  deriving DecidableEq, Repr

/-- What the state machine asks about segments and locks. The thread of a segment and the order
of two segments never change once the segments exist. -/
structure World where
  /-- `map_segments_lookup(segid)->thr`. -/
  segThr : SegmentID → Option Nat
  /-- `happens_before`. -/
  happensBefore : SegmentID → SegmentID → Bool
  /-- `__bus_lock_Lock`. -/
  busLock : Nat
  /-- `lk->appeared_at`. -/
  appearedAt : Nat → Option Nat

/-- What the state machine changes. -/
structure Msm where
  univTsets : WordSetU
  univLsets : WordSetU
  /-- `ga_to_lastlock`. -/
  gaToLastlock : Nat → Option Nat

/-- The `XE_Race` that `record_error_Race` records. -/
structure Race where
  thr : Nat
  dataAddr : Nat
  isWrite : Bool
  szB : Nat
  oldState : SVal
  newState : SVal
  mbLastlock : Option Nat
  deriving DecidableEq, Repr

/-- What one byte sees of an access: the thread, its slot in `map_threads`, and the address and
size of the whole access. -/
structure Access where
  isWrite : Bool
  thr : Thread
  tid : Option Nat
  a : Nat
  szB : Nat
  deriving DecidableEq, Repr

section Functions

variable (w : World) (st : Msm)

/-- `add_BHL`. -/
def addBHL (lockset : WordSet) : Result (Msm × WordSet) := do
  let (univLsets, r) ← addToWS st.univLsets lockset w.busLock
  return ({ st with univLsets := univLsets }, r)

/-- `del_BHL`. -/
def delBHL (lockset : WordSet) : Result (Msm × WordSet) := do
  let (univLsets, r) ← delFromWS st.univLsets lockset w.busLock
  return ({ st with univLsets := univLsets }, r)

/-- `maybe_get_lastlock_initpoint`. -/
def maybeGetLastlockInitpoint (ga : Nat) : Option Nat := st.gaToLastlock ga

/-- The end of `record_last_lock_lossage`, once the new lockset is known to be empty. -/
def recordLossage (gaOfAccess : Nat) (lsetOld : WordSet) : Result Msm := do
  let (st, lsetOld) ← delBHL w st lsetOld
  let cardOld ← cardinalityWS st.univLsets lsetOld
  if cardOld = 0 then return st
  else do
    assertThat (cardOld > 0)
    let empty ← isEmptyWS st.univLsets lsetOld
    assertThat (empty = false)
    let lk ← anyElementOfWS st.univLsets lsetOld
    match w.appearedAt lk with
    | none => return st
    | some ec => return { st with gaToLastlock := Function.update st.gaToLastlock gaOfAccess (some ec) }

/-- `record_last_lock_lossage`. -/
def recordLastLockLossage (gaOfAccess : Nat) (lsetOld lsetNew : WordSet) : Result Msm := do
  assertThat (lsetOld ≠ lsetNew)
  let (st, lsetNew) ← delBHL w st lsetNew
  let empty ← isEmptyWS st.univLsets lsetNew
  if empty = false then return st
  else do
    let cardNew ← cardinalityWS st.univLsets lsetNew
    assertThat (cardNew = 0)
    recordLossage w st gaOfAccess lsetOld

/-- `record_error_Race`. -/
def recordErrorRace (x : Access) (oldSv newSv : SVal) (mbLastlock : Option Nat) : Result Race := do
  assertThat (x.szB = 8 ∨ x.szB = 4 ∨ x.szB = 2 ∨ x.szB = 1)
  -- `map_threads_reverse_lookup_SLOW`
  assertThat (x.tid.isSome)
  return ⟨x.thr.addr, x.a, x.isWrite, x.szB, oldSv, newSv, mbLastlock⟩

/-- The locks that count for an access: a read uses all locks, and the bus lock; a write uses
only the locks that are held for writing. -/
def accessLocks (x : Access) : Result (Msm × WordSet) :=
  if x.isWrite then return (st, x.thr.locksetW) else addBHL w st x.thr.locksetA

/-- `Excl` to a shared state: the sets. -/
def enterShared (x : Access) (segidOld : SegmentID) : Result (Msm × WordSet × WordSet) := do
  match w.segThr segidOld with
  | none => throw .assertFailed
  | some thrOld => do
    let (univTsets, tset) ← doubletonWS st.univTsets thrOld x.thr.addr
    let (st, lset) ← accessLocks w { st with univTsets := univTsets } x
    return (st, tset, lset)

/-- Shared to shared: the refined sets. -/
def refineShared (x : Access) (tsetOld lsetOld : WordSet) : Result (Msm × WordSet × WordSet) := do
  let (univTsets, tsetNew) ← addToWS st.univTsets tsetOld x.thr.addr
  let (st, locks) ← accessLocks w { st with univTsets := univTsets } x
  let (univLsets, lsetNew) ← intersectWS st.univLsets lsetOld locks
  return ({ st with univLsets := univLsets }, tsetNew, lsetNew)

/-- What both handlers do when they have made the new word of a shared state. -/
def noteLossage (x : Access) (lsetOld lsetNew : WordSet) : Result Msm :=
  if lsetOld ≠ lsetNew then recordLastLockLossage w st x.a lsetOld lsetNew else return st

/-- `msm__handle_read`: the new word, and the race if one is reported. -/
def msmHandleRead (x : Access) (wold : SVal) : Result (Msm × SVal × List Race) :=
  -- Exclusive
  if isShvalExcl wold then do
    let segidOld ← unShvalExcl wold
    assertThat (isSaneSegmentID segidOld)
    if segidOld = x.thr.csegid then return (st, wold, [])
    else if w.happensBefore segidOld x.thr.csegid then do
      let wnew ← mkShvalExcl x.thr.csegid
      return (st, wnew, [])
    else do
      let (st, tset, lset) ← enterShared w st x segidOld
      let wnew ← mkShvalShR tset lset
      return (st, wnew, [])
  -- Shared-Readonly
  else if isShvalShR wold then do
    let tsetOld ← unShvalShRTset wold
    let lsetOld ← unShvalShRLset wold
    let (st, tsetNew, lsetNew) ← refineShared w st x tsetOld lsetOld
    let wnew ← mkShvalShR tsetNew lsetNew
    let st ← noteLossage w st x lsetOld lsetNew
    return (st, wnew, [])
  -- Shared-Modified
  else if isShvalShM wold then do
    let tsetOld ← unShvalShMTset wold
    let lsetOld ← unShvalShMLset wold
    let (st, tsetNew, lsetNew) ← refineShared w st x tsetOld lsetOld
    let wnew ← mkShvalShM tsetNew lsetNew
    let st ← noteLossage w st x lsetOld lsetNew
    let emptyNew ← isEmptyWS st.univLsets lsetNew
    let emptyOld ← isEmptyWS st.univLsets lsetOld
    if emptyNew = true ∧ emptyOld = false then do
      let race ← recordErrorRace x wold wnew (maybeGetLastlockInitpoint st x.a)
      return (st, wnew, [race])
    else return (st, wnew, [])
  -- New
  else if isShvalNew wold then do
    let wnew ← mkShvalExcl x.thr.csegid
    return (st, wnew, [])
  -- NoAccess
  else if isShvalNoAccess wold then return (st, wold, [])
  else throw .assertFailed

/-- `msm__handle_write`. -/
def msmHandleWrite (x : Access) (wold : SVal) : Result (Msm × SVal × List Race) :=
  -- New
  if isShvalNew wold then do
    let wnew ← mkShvalExcl x.thr.csegid
    return (st, wnew, [])
  -- Exclusive
  else if isShvalExcl wold then do
    let segidOld ← unShvalExcl wold
    assertThat (isSaneSegmentID segidOld)
    if segidOld = x.thr.csegid then return (st, wold, [])
    else if w.happensBefore segidOld x.thr.csegid then do
      let wnew ← mkShvalExcl x.thr.csegid
      return (st, wnew, [])
    else do
      let (st, tset, lset) ← enterShared w st x segidOld
      let wnew ← mkShvalShM tset lset
      let empty ← isEmptyWS st.univLsets lset
      if empty = true then do
        let race ← recordErrorRace x wold wnew (maybeGetLastlockInitpoint st x.a)
        return (st, wnew, [race])
      else return (st, wnew, [])
  -- Shared-Readonly: here the old lockset does not matter for the report
  else if isShvalShR wold then do
    let tsetOld ← unShvalShRTset wold
    let lsetOld ← unShvalShRLset wold
    let (st, tsetNew, lsetNew) ← refineShared w st x tsetOld lsetOld
    let wnew ← mkShvalShM tsetNew lsetNew
    let st ← noteLossage w st x lsetOld lsetNew
    let emptyNew ← isEmptyWS st.univLsets lsetNew
    if emptyNew = true then do
      let race ← recordErrorRace x wold wnew (maybeGetLastlockInitpoint st x.a)
      return (st, wnew, [race])
    else return (st, wnew, [])
  -- Shared-Modified
  else if isShvalShM wold then do
    let tsetOld ← unShvalShMTset wold
    let lsetOld ← unShvalShMLset wold
    let (st, tsetNew, lsetNew) ← refineShared w st x tsetOld lsetOld
    let wnew ← mkShvalShM tsetNew lsetNew
    let st ← noteLossage w st x lsetOld lsetNew
    let emptyNew ← isEmptyWS st.univLsets lsetNew
    let emptyOld ← isEmptyWS st.univLsets lsetOld
    if emptyNew = true ∧ emptyOld = false then do
      let race ← recordErrorRace x wold wnew (maybeGetLastlockInitpoint st x.a)
      return (st, wnew, [race])
    else return (st, wnew, [])
  -- NoAccess
  else if isShvalNoAccess wold then return (st, wold, [])
  else throw .assertFailed

/-- The handler of an access. -/
def msmHandle (x : Access) (wold : SVal) : Result (Msm × SVal × List Race) :=
  if x.isWrite then msmHandleWrite w st x wold else msmHandleRead w st x wold

end Functions

end Helgrind

end Valgrind
