import Valgrind.Helgrind.LockGraph

/-!
# Events about locks (`hg_main.c`)

What Helgrind does when the client initialises, destroys, takes or gives back a mutex or a
reader-writer lock. The kind of a `Lock` is fixed when its address is first seen. It stays
when the client destroys the lock and makes one of another kind there.

A `Thread*` and a `Lock*` are numbers. A `WordBag` is a multiset. The sanity checks of
`--hg-sanity-flags` and the texts of the trace are left out.
-/

namespace Valgrind

namespace Helgrind

/-! ## Threads and locks -/

/-- `LockKind`. -/
inductive LockKind where
  | mbRec
  | nonRec
  | rdwr
  deriving DecidableEq, Repr

/-- `Lock`. -/
structure LockN (ε : Type) extends Lock ε where
  appearedAt : Option ε
  kind : LockKind
  heldW : Bool
  /-- A thread is in the bag as often as it holds the lock. -/
  heldBy : Option (Multiset Nat)

/-- `Thread`, as far as it is about locks. -/
structure HgThread where
  locksetA : WordSet
  locksetW : WordSet
  deriving DecidableEq, Repr

/-- The errors that are recorded about the use of a lock. -/
inductive LockError where
  | misc (thr : Nat) (text : String)
  | unlockBogus (thr lockGa : Nat)
  | unlockUnlocked (thr lock : Nat)
  | unlockForeign (thr owner lock : Nat)
  deriving DecidableEq, Repr

/-- What the rest of the program contributes. -/
structure LockEnv (ε : Type) where
  /-- `VG_(record_ExeContext)` for a thread. -/
  context : Nat → ε
  /-- `VG_(anyElementOfBag)`: the bag is searched at the root of its tree. -/
  anyElement : Multiset Nat → Nat
  any_mem : ∀ bag, bag ≠ 0 → anyElement bag ∈ bag

/-- `VG_N_THREADS`. -/
def vgNThreads : Nat := 300

/-- `map_threads`, `map_locks`, all threads and locks there are, and what they refer to. -/
structure LockState (ε : Type) where
  mapThreads : Nat → Option Nat
  threads : Nat → Option HgThread
  mapLocks : Nat → Option Nat
  locks : Nat → LockN ε
  nLocks : Nat
  /-- `mbHasLocks` by the base of the secondary map. -/
  hasLocks : Nat → Bool
  univLsets : WordSetU
  laog : Laog ε
  errors : List LockError

section

variable {ε : Type}

/-- `is_sane_LockN`. All threads that have ever been made are sane. -/
def LockN.isSane (threads : Nat → Option HgThread) (lk : LockN ε) : Bool :=
  match lk.heldBy with
  | none => lk.acquiredAt.isNone && !lk.heldW
  | some heldBy =>
    lk.acquiredAt.isSome && decide (heldBy ≠ 0) && decide (∀ thr ∈ heldBy, (threads thr).isSome) &&
      if lk.heldW then decide (lk.kind = .mbRec ∨ heldBy.card = 1) else decide (lk.kind = .rdwr)

/-- `shmem__round_to_SecMap_base`. -/
def roundToSecMapBase (a : Nat) : Nat := a - a % 2 ^ 13

/-- `shmem__set_mbHasLocks` to `True`. -/
def LockState.setHasLocks (st : LockState ε) (a : Nat) : LockState ε :=
  { st with hasLocks := Function.update st.hasLocks (roundToSecMapBase a) true }

/-- An error is recorded. -/
def LockState.record (st : LockState ε) (e : LockError) : LockState ε := { st with errors := st.errors ++ [e] }

/-- `map_threads_maybe_lookup`, by a caller to whom the thread must be known. -/
def LockState.lookupThread (st : LockState ε) (tid : Nat) : Result Nat := do
  assertThat (tid < vgNThreads)
  match st.mapThreads tid with
  | none => throw .assertFailed
  | some thr => return thr

/-- `map_threads_maybe_reverse_lookup_SLOW`: 0 is `VG_INVALID_THREADID`. -/
def LockState.maybeReverseLookup (st : LockState ε) (thr : Nat) : Result Nat := do
  assertThat ((st.threads thr).isSome)
  assertThat ((st.mapThreads 0).isNone)
  return ((List.range vgNThreads).find? fun i => i ≠ 0 ∧ st.mapThreads i = some thr).getD 0

/-- `map_threads_reverse_lookup_SLOW`. -/
def LockState.reverseLookup (st : LockState ε) (thr : Nat) : Result Nat := do
  let tid ← st.maybeReverseLookup thr
  assertThat (tid ≠ 0)
  return tid

section Events

variable (env : LockEnv ε)

/-! ## Changing a lock -/

/-- "EXPOSITION only": where a lock that nobody held is taken. -/
def noteAcquired (st : LockState ε) (lk : LockN ε) (thr : Nat) : Result (LockN ε) :=
  match lk.acquiredAt with
  | none => do
    assertThat (lk.heldBy.isNone)
    let tid ← st.maybeReverseLookup thr
    return { lk with acquiredAt := some (env.context tid) }
  | some _ => do
    assertThat (lk.heldBy.isSome)
    return lk

/-- The case `LK_nonRec` of `lockN_acquire_writer`. -/
def acquireUnheld (lk : LockN ε) (thr : Nat) : Result (LockN ε) := do
  assertThat (lk.heldBy.isNone)
  assertThat (lk.heldW = false)
  return { lk with heldW := true, heldBy := some {thr} }

/-- The switch in `lockN_acquire_writer`. -/
def acquireByKind (lk : LockN ε) (thr : Nat) : Result (LockN ε) :=
  match lk.kind with
  | .nonRec => acquireUnheld lk thr
  | .mbRec =>
    match lk.heldBy with
    | none => acquireUnheld lk thr
    | some heldBy => do
      assertThat (lk.heldW = true)
      assertThat (heldBy.toFinset.card = 1)
      assertThat (heldBy.count thr = heldBy.card)
      return { lk with heldBy := some (thr ::ₘ heldBy) }
  | .rdwr => do
    assertThat (lk.heldBy.isNone ∧ lk.heldW = false)
    acquireUnheld lk thr

/-- `lockN_acquire_writer`. -/
def lockNAcquireWriter (st : LockState ε) (lk : LockN ε) (thr : Nat) : Result (LockN ε) := do
  assertThat (lk.isSane st.threads)
  assertThat ((st.threads thr).isSome)
  let lk ← noteAcquired env st lk thr
  let lk ← acquireByKind lk thr
  assertThat (lk.isSane st.threads)
  return lk

/-- `lockN_acquire_reader`. -/
def lockNAcquireReader (st : LockState ε) (lk : LockN ε) (thr : Nat) : Result (LockN ε) := do
  assertThat (lk.isSane st.threads)
  assertThat ((st.threads thr).isSome)
  assertThat (lk.kind = .rdwr)
  assertThat (lk.heldBy.isNone ∨ lk.heldW = false)
  let lk ← noteAcquired env st lk thr
  let lk : LockN ε :=
    match lk.heldBy with
    | some heldBy => { lk with heldBy := some (thr ::ₘ heldBy) }
    | none => { lk with heldW := false, heldBy := some {thr} }
  assertThat (lk.heldW = false)
  assertThat (lk.isSane st.threads)
  return lk

/-- `lockN_release`. -/
def lockNRelease (st : LockState ε) (lk : LockN ε) (thr : Nat) : Result (LockN ε) := do
  assertThat (lk.isSane st.threads)
  assertThat ((st.threads thr).isSome)
  match lk.heldBy with
  | none => throw .assertFailed
  | some heldBy => do
    assertThat (thr ∈ heldBy)
    assertThat (lk.acquiredAt.isSome)
    let lk : LockN ε :=
      if heldBy.erase thr = 0 then { lk with heldBy := none, heldW := false, acquiredAt := none }
      else { lk with heldBy := some (heldBy.erase thr) }
    assertThat (lk.isSane st.threads)
    return lk

/-- The lock at `p` is changed. -/
def LockState.setLock (st : LockState ε) (p : Nat) (lk : LockN ε) : LockState ε :=
  { st with locks := Function.update st.locks p lk }

/-! ## The map of locks -/

/-- `map_locks_lookup_or_create`. -/
def mapLocksLookupOrCreate (st : LockState ε) (lkk : LockKind) (ga tid : Nat) : Result (Nat × LockState ε) := do
  assertThat (tid < vgNThreads)
  match st.mapLocks ga with
  | none => do
    let p := st.nLocks
    let lock : LockN ε := ⟨⟨ga, none⟩, some (env.context tid), lkk, false, none⟩
    assertThat (lock.isSane st.threads)
    let st := { st with
      locks := Function.update st.locks p lock, nLocks := p + 1
      mapLocks := Function.update st.mapLocks ga (some p) }
    return (p, st.setHasLocks ga)
  | some p => do
    assertThat ((st.locks p).isSane st.threads)
    assertThat ((st.locks p).guestaddr = ga)
    assertThat (st.hasLocks (roundToSecMapBase ga) = true)
    return (p, st)

/-- `map_locks_maybe_lookup`. -/
def mapLocksMaybeLookup (st : LockState ε) (ga : Nat) : Result (Option Nat) :=
  match st.mapLocks ga with
  | none => return none
  | some p => do
    assertThat (st.hasLocks (roundToSecMapBase ga) = true)
    return some p

/-! ## Handlers -/

/-- From `noerror` on: the lock order, and the lock sets of the thread. -/
def noteHolder (st : LockState ε) (thr p : Nat) (isW : Bool) : Result (LockState ε) :=
  match st.threads thr with
  | none => throw .assertFailed
  | some t => do
    let laog ← laogPreThreadAcquiresLock st.univLsets (fun q => (st.locks q).toLock) thr t.locksetA p st.laog
    let (univLsets, locksetA) ← addToWS st.univLsets t.locksetA p
    let (univLsets, locksetW) ← (if isW then addToWS univLsets t.locksetW p else .ok (univLsets, t.locksetW))
    return { st with laog, univLsets, threads := Function.update st.threads thr (some ⟨locksetA, locksetW⟩) }

/-- `evhH__post_thread_w_acquires_lock`, when the lock has been looked up. -/
def writeAcquired (st : LockState ε) (thr p : Nat) : Result (LockState ε) := do
  let lk := st.locks p
  match lk.heldBy with
  | none => do
    assertThat (lk.heldW = false)
    let lk ← lockNAcquireWriter env st lk thr
    noteHolder (st.setLock p lk) thr p true
  | some heldBy =>
    if lk.heldW = false then
      return st.record (.misc thr "Bug in libpthread: write lock granted on rwlock which is currently rd-held")
    else do
      assertThat (heldBy.toFinset.card = 1)
      assertThat (heldBy ≠ 0)
      if thr ≠ env.anyElement heldBy then
        return st.record (.misc thr ("Bug in libpthread: write lock granted on mutex/rwlock which is currently " ++
          "wr-held by a different thread"))
      else if lk.kind ≠ .mbRec then
        return st.record (.misc thr ("Bug in libpthread: recursive write lock granted on mutex/wrlock which does not " ++
          "support recursion"))
      else do
        let lk ← lockNAcquireWriter env st lk thr
        noteHolder (st.setLock p lk) thr p true

/-- `evhH__post_thread_r_acquires_lock`, when the lock has been looked up. -/
def readAcquired (st : LockState ε) (thr p : Nat) : Result (LockState ε) := do
  let lk := st.locks p
  match lk.heldBy with
  | none => do
    assertThat (lk.heldW = false)
    let lk ← lockNAcquireReader env st lk thr
    noteHolder (st.setLock p lk) thr p false
  | some _ =>
    if lk.heldW = true then
      return st.record (.misc thr "Bug in libpthread: read lock granted on rwlock which is currently wr-held")
    else do
      let lk ← lockNAcquireReader env st lk thr
      noteHolder (st.setLock p lk) thr p false

/-- `evhH__post_thread_w_acquires_lock` or `evhH__post_thread_r_acquires_lock`. -/
def postThreadAcquiresLock (isW : Bool) (st : LockState ε) (thr : Nat) (lkk : LockKind) (lockGa : Nat) :
    Result (LockState ε) := do
  let st := st.setHasLocks lockGa
  assertThat ((st.threads thr).isSome)
  if !isW then assertThat (lkk = .rdwr)
  let tid ← st.reverseLookup thr
  let (p, st) ← mapLocksLookupOrCreate env st lkk lockGa tid
  assertThat ((st.locks p).isSane st.threads)
  let st := st.setHasLocks lockGa
  let st ← (if isW then writeAcquired env st thr p else readAcquired env st thr p)
  assertThat ((st.locks p).isSane st.threads)
  return st

/-- `evhH__pre_thread_releases_lock`, when the thread holds the lock. -/
def releaseHeld (st : LockState ε) (thr p : Nat) (t : HgThread) (heldBy : Multiset Nat) : Result (LockState ε) := do
  let n := heldBy.count thr
  let lk ← lockNRelease st (st.locks p) thr
  let st := st.setLock p lk
  if n - 1 > 0 then do
    match lk.heldBy with
    | none => throw .assertFailed
    | some heldBy => do
      assertThat (n - 1 = heldBy.count thr)
      assertThat (lk.kind = .mbRec ∨ (lk.kind = .rdwr ∧ lk.heldW = false))
      assertThat (← elemWS st.univLsets t.locksetA p)
      let inW ← elemWS st.univLsets t.locksetW p
      assertThat (inW = lk.heldW)
      return st
  else do
    assertThat (∀ heldBy ∈ lk.heldBy, heldBy.count thr = 0)
    let (univLsets, locksetA) ← delFromWS st.univLsets t.locksetA p
    let (univLsets, locksetW) ← delFromWS univLsets t.locksetW p
    return { st with univLsets, threads := Function.update st.threads thr (some ⟨locksetA, locksetW⟩) }

/-- The lock is in neither of the thread's lock sets. -/
def assertNotHeld (st : LockState ε) (t : HgThread) (p : Nat) : Result Unit := do
  let inA ← elemWS st.univLsets t.locksetA p
  assertThat (inA = false)
  let inW ← elemWS st.univLsets t.locksetW p
  assertThat (inW = false)

/-- `evhH__pre_thread_releases_lock`, when the lock is known. -/
def releaseKnown (st : LockState ε) (thr p : Nat) (t : HgThread) : Result (LockState ε) :=
  match (st.locks p).heldBy with
  | none => do
    assertThat ((st.locks p).heldW = false)
    assertNotHeld st t p
    return st.record (.unlockUnlocked thr p)
  | some heldBy =>
    if heldBy.count thr = 0 then do
      assertThat (heldBy ≠ 0)
      let realOwner := env.anyElement heldBy
      assertThat ((st.threads realOwner).isSome)
      assertThat (realOwner ≠ thr)
      assertNotHeld st t p
      return st.record (.unlockForeign thr realOwner p)
    else releaseHeld st thr p t heldBy

/-- The complaint about a lock of the other kind. -/
def noteWrongKind (st : LockState ε) (thr : Nat) (kind : LockKind) (isRDWR : Bool) : LockState ε :=
  if isRDWR = true ∧ kind ≠ .rdwr then
    st.record (.misc thr "pthread_rwlock_unlock with a pthread_mutex_t* argument ")
  else if isRDWR = false ∧ kind = .rdwr then
    st.record (.misc thr "pthread_mutex_unlock with a pthread_rwlock_t* argument ")
  else st

/-- `evhH__pre_thread_releases_lock`. -/
def preThreadReleasesLock (st : LockState ε) (thr lockGa : Nat) (isRDWR : Bool) : Result (LockState ε) := do
  let st := st.setHasLocks lockGa
  match st.threads thr with
  | none => throw .assertFailed
  | some t => do
    match ← mapLocksMaybeLookup st lockGa with
    | none => return st.record (.unlockBogus thr lockGa)
    | some p => do
      assertThat ((st.locks p).guestaddr = lockGa)
      assertThat ((st.locks p).isSane st.threads)
      let st := noteWrongKind st thr (st.locks p).kind isRDWR
      let st ← releaseKnown env st thr p t
      assertThat ((st.locks p).isSane st.threads)
      return st

/-- The loop body of `remove_Lock_from_locksets_of_all_owning_Threads`. -/
def removeFromLocksets (p : Nat) (heldW : Bool) (st : LockState ε) (thr : Nat) : Result (LockState ε) :=
  match st.threads thr with
  | none => throw .assertFailed
  | some t => do
    assertThat (← elemWS st.univLsets t.locksetA p)
    let (univLsets, locksetA) ← delFromWS st.univLsets t.locksetA p
    if heldW then
      assertThat (← elemWS univLsets t.locksetW p)
      let (univLsets, locksetW) ← delFromWS univLsets t.locksetW p
      return { st with univLsets, threads := Function.update st.threads thr (some ⟨locksetA, locksetW⟩) }
    else return { st with univLsets, threads := Function.update st.threads thr (some ⟨locksetA, t.locksetW⟩) }

/-- `evh__HG_PTHREAD_MUTEX_DESTROY_PRE` and `evh__HG_PTHREAD_RWLOCK_DESTROY_PRE`; `right` says
which kinds of locks can be destroyed so. -/
def destroyPre (right : LockKind → Bool) (invalid locked : String) (st : LockState ε) (tid a : Nat) :
    Result (LockState ε) := do
  let thr ← st.lookupThread tid
  assertThat ((st.threads thr).isSome)
  match ← mapLocksMaybeLookup st a with
  | none => return st.record (.misc thr invalid)
  | some p => do
    let lk := st.locks p
    let st := if right lk.kind then st else st.record (.misc thr invalid)
    assertThat (lk.isSane st.threads)
    assertThat (lk.guestaddr = a)
    match lk.heldBy with
    | none => return st
    | some heldBy => do
      let st := st.record (.misc thr locked)
      let st ← (heldBy.toFinset.sort (· ≤ ·)).foldlM (removeFromLocksets p lk.heldW) st
      let lk : LockN ε := { lk with heldBy := none, heldW := false, acquiredAt := none }
      assertThat (lk.isSane st.threads)
      return st.setLock p lk

/-- `evh__HG_PTHREAD_MUTEX_INIT_POST`. -/
def mutexInitPost (st : LockState ε) (tid mutex : Nat) (mbRec : Bool) : Result (LockState ε) := do
  let (_, st) ← mapLocksLookupOrCreate env st (if mbRec then .mbRec else .nonRec) mutex tid
  return st

/-- `evh__HG_PTHREAD_MUTEX_DESTROY_PRE`. -/
def mutexDestroyPre (st : LockState ε) (tid mutex : Nat) : Result (LockState ε) :=
  destroyPre (fun kind => kind = .nonRec || kind = .mbRec) "pthread_mutex_destroy with invalid argument"
    "pthread_mutex_destroy of a locked mutex" st tid mutex

/-- `evh__HG_PTHREAD_MUTEX_LOCK_POST`. -/
def mutexLockPost (st : LockState ε) (tid mutex : Nat) : Result (LockState ε) := do
  let thr ← st.lookupThread tid
  postThreadAcquiresLock env true st thr .mbRec mutex

/-- `evh__HG_PTHREAD_MUTEX_UNLOCK_PRE`. -/
def mutexUnlockPre (st : LockState ε) (tid mutex : Nat) : Result (LockState ε) := do
  let thr ← st.lookupThread tid
  preThreadReleasesLock env st thr mutex false

/-- `evh__HG_PTHREAD_RWLOCK_INIT_POST`. -/
def rwlockInitPost (st : LockState ε) (tid rwl : Nat) : Result (LockState ε) := do
  let (_, st) ← mapLocksLookupOrCreate env st .rdwr rwl tid
  return st

/-- `evh__HG_PTHREAD_RWLOCK_DESTROY_PRE`. -/
def rwlockDestroyPre (st : LockState ε) (tid rwl : Nat) : Result (LockState ε) :=
  destroyPre (fun kind => kind = .rdwr) "pthread_rwlock_destroy with invalid argument"
    "pthread_rwlock_destroy of a locked mutex" st tid rwl

/-- `evh__HG_PTHREAD_RWLOCK_LOCK_POST`. -/
def rwlockLockPost (st : LockState ε) (tid rwl : Nat) (isW : Bool) : Result (LockState ε) := do
  let thr ← st.lookupThread tid
  postThreadAcquiresLock env isW st thr .rdwr rwl

/-- `evh__HG_PTHREAD_RWLOCK_UNLOCK_PRE`. -/
def rwlockUnlockPre (st : LockState ε) (tid rwl : Nat) : Result (LockState ε) := do
  let thr ← st.lookupThread tid
  preThreadReleasesLock env st thr rwl true

/-! ## Runs -/

/-- The events. The flags are `Word`s in the source, which the wrappers set to 0 or 1. -/
inductive LockEvent where
  | mutexInitPost (tid mutex : Nat) (mbRec : Bool)
  | mutexDestroyPre (tid mutex : Nat)
  | mutexLockPost (tid mutex : Nat)
  | mutexUnlockPre (tid mutex : Nat)
  | rwlockInitPost (tid rwl : Nat)
  | rwlockDestroyPre (tid rwl : Nat)
  | rwlockLockPost (tid rwl : Nat) (isW : Bool)
  | rwlockUnlockPre (tid rwl : Nat)
  deriving DecidableEq, Repr

/-- One event. -/
def lockStep (st : LockState ε) : LockEvent → Result (LockState ε)
  | .mutexInitPost tid mutex mbRec => mutexInitPost env st tid mutex mbRec
  | .mutexDestroyPre tid mutex => mutexDestroyPre st tid mutex
  | .mutexLockPost tid mutex => mutexLockPost env st tid mutex
  | .mutexUnlockPre tid mutex => mutexUnlockPre env st tid mutex
  | .rwlockInitPost tid rwl => rwlockInitPost env st tid rwl
  | .rwlockDestroyPre tid rwl => rwlockDestroyPre st tid rwl
  | .rwlockLockPost tid rwl isW => rwlockLockPost env st tid rwl isW
  | .rwlockUnlockPre tid rwl => rwlockUnlockPre env st tid rwl

/-- The thread an event is about. -/
def LockEvent.tid : LockEvent → Nat
  | .mutexInitPost tid .. | .mutexDestroyPre tid _ | .mutexLockPost tid _ | .mutexUnlockPre tid _
  | .rwlockInitPost tid _ | .rwlockDestroyPre tid _ | .rwlockLockPost tid .. | .rwlockUnlockPre tid _ => tid

/-- A lock that is granted for reading was first seen as a reader-writer lock, or somebody has
it for writing. -/
def ReadsRwlock (st : LockState ε) : LockEvent → Prop
  | .rwlockLockPost _ rwl false => ∀ p, st.mapLocks rwl = some p → (st.locks p).kind = .rdwr ∨ (st.locks p).heldW = true
  | _ => True

/-- `initialise_data_structures`: the only lock is that of the bus. The threads that run hold
no lock. -/
def lockInit (mapThreads : Nat → Option Nat) (thrs : List Nat) (busLock : Nat) : Result (LockState ε) := do
  let univLsets ← newWordSetU 8
  let laog ← laogInit
  let lock : LockN ε := ⟨⟨busLock, none⟩, none, .nonRec, false, none⟩
  let st : LockState ε := {
    mapThreads
    threads := fun thr => if thr ∈ thrs then some ⟨emptyWS univLsets, emptyWS univLsets⟩ else none
    mapLocks := Function.update (fun _ => none) busLock (some 0)
    locks := fun _ => lock
    nLocks := 1
    hasLocks := fun _ => false
    univLsets, laog
    errors := [] }
  return st.setHasLocks busLock

end Events

end

end Helgrind

end Valgrind
