import Valgrind.Helgrind.WordSet

/-!
# The lock order acquisition graph (`hg_main.c`)

Whenever a thread acquires a lock, there is an edge from each lock that it holds to the new
one. If the new lock already leads to a lock that the thread holds, the two have been
acquired in different orders, and that is reported. When locks are freed they are taken out
of the graph, and what led to such a lock is joined to what it led to.

Each node has two sets, of its predecessors and of its successors, both in `univ_laog`. The
locks of a thread are a set in another universe, `univ_lsets`, that this code only reads. A
`Lock*` is a number. `ε` is the type of execution contexts.
-/

namespace Valgrind

namespace Helgrind

/-- `Lock`, as far as this code reads it. -/
structure Lock (ε : Type) where
  guestaddr : Nat
  /-- `acquired_at`: not null while the lock is held. -/
  acquiredAt : Option ε

/-- `LAOGLinks`. -/
structure LAOGLinks where
  inns : WordSet
  outs : WordSet
  deriving DecidableEq, Repr

/-- What `record_error_LockOrder` is called with; the contexts are those that the exposition
has, if it has any. -/
structure LockOrderError (ε : Type) where
  thr : Nat
  beforeGa : Nat
  afterGa : Nat
  ecs : Option (ε × ε)

/-- `laog`, `univ_laog` and `laog_exposition`, and the errors that have been recorded. -/
structure Laog (ε : Type) where
  laog : Nat → Option LAOGLinks
  univLaog : WordSetU
  exposition : Nat × Nat → Option (ε × ε)
  errors : List (LockOrderError ε)

/-- `HG_(getPayloadWS)`. -/
def getPayloadWS (wsu : WordSetU) (ws : WordSet) : Result (List Nat) := doIx2vec wsu ws

section

variable {ε : Type}

/-- The empty graph, in a universe that has just been made. -/
def laogInit : Result (Laog ε) := do
  let univLaog ← newWordSetU 24
  return ⟨fun _ => none, univLaog, fun _ => none, []⟩

/-! ## Edges -/

/-- `laog__add_edge`: update the out edges for `src`. The flag is `presentF`. -/
def laogAddOut (lg : Laog ε) (src dst : Nat) : Result (Laog ε × Bool) :=
  match lg.laog src with
  | some links => do
    let (univLaog, outsNew) ← addToWS lg.univLaog links.outs dst
    return ({ lg with univLaog, laog := Function.update lg.laog src (some { links with outs := outsNew }) },
      decide (outsNew = links.outs))
  | none => do
    let inns := emptyWS lg.univLaog
    let (univLaog, outs) ← singletonWS lg.univLaog dst
    return ({ lg with univLaog, laog := Function.update lg.laog src (some ⟨inns, outs⟩) }, false)

/-- `laog__add_edge`: update the in edges for `dst`. The flag is `presentR`. -/
def laogAddInn (lg : Laog ε) (src dst : Nat) : Result (Laog ε × Bool) :=
  match lg.laog dst with
  | some links => do
    let (univLaog, innsNew) ← addToWS lg.univLaog links.inns src
    return ({ lg with univLaog, laog := Function.update lg.laog dst (some { links with inns := innsNew }) },
      decide (innsNew = links.inns))
  | none => do
    let (univLaog, inns) ← singletonWS lg.univLaog src
    let outs := emptyWS univLaog
    return ({ lg with univLaog, laog := Function.update lg.laog dst (some ⟨inns, outs⟩) }, false)

/-- `laog__add_edge`: record where the edge was created, unless it is there already. -/
def laogExpose (locks : Nat → Lock ε) (lg : Laog ε) (src dst : Nat) : Laog ε :=
  match (locks src).acquiredAt, (locks dst).acquiredAt with
  | some srcEc, some dstEc =>
    let key := ((locks src).guestaddr, (locks dst).guestaddr)
    match lg.exposition key with
    | some _ => lg
    | none => { lg with exposition := Function.update lg.exposition key (some (srcEc, dstEc)) }
  | _, _ => lg

/-- `laog__add_edge`. -/
def laogAddEdge (locks : Nat → Lock ε) (lg : Laog ε) (src dst : Nat) : Result (Laog ε) := do
  let (lg, presentF) ← laogAddOut lg src dst
  let (lg, presentR) ← laogAddInn lg src dst
  assertThat ((presentF = true ∧ presentR = true) ∨ (presentF = false ∧ presentR = false))
  return (if presentF then lg else laogExpose locks lg src dst)

/-- `laog__del_edge`: update the out edges for `src`. -/
def laogDelOut (lg : Laog ε) (src dst : Nat) : Result (Laog ε) :=
  match lg.laog src with
  | some links => do
    let (univLaog, outs) ← delFromWS lg.univLaog links.outs dst
    return { lg with univLaog, laog := Function.update lg.laog src (some { links with outs }) }
  | none => return lg

/-- `laog__del_edge`: update the in edges for `dst`. -/
def laogDelInn (lg : Laog ε) (src dst : Nat) : Result (Laog ε) :=
  match lg.laog dst with
  | some links => do
    let (univLaog, inns) ← delFromWS lg.univLaog links.inns src
    return { lg with univLaog, laog := Function.update lg.laog dst (some { links with inns }) }
  | none => return lg

/-- `laog__del_edge`. -/
def laogDelEdge (lg : Laog ε) (src dst : Nat) : Result (Laog ε) := do
  let lg ← laogDelOut lg src dst
  laogDelInn lg src dst

/-- `laog__succs`. -/
def laogSuccs (lg : Laog ε) (lk : Nat) : WordSet :=
  match lg.laog lk with
  | some links => links.outs
  | none => emptyWS lg.univLaog

/-- `laog__preds`. -/
def laogPreds (lg : Laog ε) (lk : Nat) : WordSet :=
  match lg.laog lk with
  | some links => links.inns
  | none => emptyWS lg.univLaog

/-! ## The search -/

/-- The loop of `laog__do_dfs_from_to`. The stack has its top in front. -/
def laogDfsLoop (lg : Laog ε) (univLsets : WordSetU) (dsts : WordSet) :
    Nat → List Nat → List Nat → Result (Option Nat)
  | 0, _, _ => throw .diverge
  | _ + 1, [], _ => return none
  | fuel + 1, here :: stack, visited => do
    let found ← elemWS univLsets dsts here
    if found then return some here
    else if here ∈ visited then laogDfsLoop lg univLsets dsts fuel stack visited
    else do
      let succsWords ← getPayloadWS lg.univLaog (laogSuccs lg here)
      laogDfsLoop lg univLsets dsts fuel (succsWords.reverse ++ stack) (here :: visited)

/-- The number of words in all the sets that `univ_laog` has stored. -/
def laogWords (lg : Laog ε) : Nat := (lg.univLaog.ix2vec.map List.length).sum

/-- `laog__do_dfs_from_to`. No node is expanded twice, and every successor is a word of some
set of `univ_laog`. -/
def laogDoDfsFromTo (lg : Laog ε) (univLsets : WordSetU) (src : Nat) (dsts : WordSet) : Result (Option Nat) := do
  let noDsts ← isEmptyWS univLsets dsts
  if noDsts then return none
  else laogDfsLoop lg univLsets dsts ((laogWords lg + 1) * (laogWords lg + 1) + 2) [src] []

/-! ## Acquiring and deleting locks -/

/-- `laog__pre_thread_acquires_lock`: complain that `lk` should have been acquired before
`other`. -/
def laogComplain (locks : Nat → Lock ε) (thr lk : Nat) (lg : Laog ε) : Option Nat → Laog ε
  | some other =>
    let key := ((locks lk).guestaddr, (locks other).guestaddr)
    { lg with errors := lg.errors ++ [⟨thr, key.1, key.2, lg.exposition key⟩] }
  | none => lg

/-- `laog__pre_thread_acquires_lock`; `locksetA` is that of the thread `thr`. -/
def laogPreThreadAcquiresLock (univLsets : WordSetU) (locks : Nat → Lock ε) (thr : Nat) (locksetA : WordSet)
    (lk : Nat) (lg : Laog ε) : Result (Laog ε) := do
  let held ← elemWS univLsets locksetA lk
  if held then return lg
  else do
    let other ← laogDoDfsFromTo lg univLsets lk locksetA
    let lg := laogComplain locks thr lk lg other
    assertThat ((locks lk).acquiredAt.isSome)
    let lsWords ← getPayloadWS univLsets locksetA
    lsWords.foldlM (fun lg old => do
      assertThat ((locks old).acquiredAt.isSome)
      laogAddEdge locks lg old lk) lg

/-- `laog__handle_one_lock_deletion`. -/
def laogHandleOneLockDeletion (locks : Nat → Lock ε) (lg : Laog ε) (lk : Nat) : Result (Laog ε) := do
  let preds := laogPreds lg lk
  let succs := laogSuccs lg lk
  let predsWords ← getPayloadWS lg.univLaog preds
  let lg ← predsWords.foldlM (fun lg p => laogDelEdge lg p lk) lg
  let succsWords ← getPayloadWS lg.univLaog succs
  let lg ← succsWords.foldlM (fun lg s => laogDelEdge lg lk s) lg
  predsWords.foldlM (fun lg p => succsWords.foldlM (fun lg s =>
    if p ≠ s then laogAddEdge locks lg p s else return lg) lg) lg

/-- `laog__handle_lock_deletions`. -/
def laogHandleLockDeletions (univLsets : WordSetU) (locks : Nat → Lock ε) (locksToDelete : WordSet)
    (lg : Laog ε) : Result (Laog ε) := do
  let wsWords ← getPayloadWS univLsets locksToDelete
  wsWords.foldlM (laogHandleOneLockDeletion locks) lg

/-! ## Runs -/

/-- What the rest of Helgrind asks for. Universe, locks and sets are as they are at that
time. -/
inductive LaogOp (ε : Type) where
  | acquire (univLsets : WordSetU) (locks : Nat → Lock ε) (thr : Nat) (locksetA : WordSet) (lk : Nat)
  | delete (univLsets : WordSetU) (locks : Nat → Lock ε) (locksToDelete : WordSet)

/-- One call. -/
def laogStep (lg : Laog ε) : LaogOp ε → Result (Laog ε)
  | .acquire univLsets locks thr locksetA lk => laogPreThreadAcquiresLock univLsets locks thr locksetA lk lg
  | .delete univLsets locks locksToDelete => laogHandleLockDeletions univLsets locks locksToDelete lg

end

end Helgrind

end Valgrind
