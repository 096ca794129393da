import Valgrind.Basics.Machine
import Valgrind.Basics.Result
import Valgrind.Avl.CoreSpecs
import Valgrind.Lib.SortedMerge

/-!
# Sets of words, with unique set identifiers (`hg_wordset.c`)

A universe stores every set of words that has come up once, as a sorted vector; a
`WordSet` is the index of a vector. A tree finds the index of a vector again. Four
operations remember their last results in small caches.

`wordSet_canonical`: whatever operations are made, an index denotes one set for ever, equal
sets have equal indices, every result is the one that set theory prescribes, and it is the
same with the caches emptied.
-/

namespace Valgrind

namespace Helgrind

open AvlTree SortedMerge
open Avl (insertNode findNode)

/-! ## The word caches -/

/-- `WCacheEnt`. -/
structure WCacheEnt where
  arg1 : Nat
  arg2 : Nat
  res : Nat
  deriving DecidableEq, Repr

/-- `WCache`: `ent` are the entries in use. -/
structure WCache where
  dynMax : Nat
  ent : List WCacheEnt
  deriving DecidableEq, Repr

/-- `N_WCACHE_STAT_MAX`. -/
def nWCacheStatMax : Nat := 32

/-- `WCache_INIT`. -/
def wCacheInit (dynMax : Nat) : Result WCache := do
  assertThat (1 ≤ dynMax)
  assertThat (dynMax ≤ nWCacheStatMax)
  return ⟨dynMax, []⟩

/-- The assertions of every use of a cache. -/
def wCacheCheck (cache : WCache) : Result Unit := do
  assertThat (1 ≤ cache.dynMax)
  assertThat (cache.dynMax ≤ nWCacheStatMax)
  assertThat (cache.ent.length ≤ cache.dynMax)

/-- The search behind the first entry: what is found changes places with the entry before
it. -/
def wCacheSwap (arg1 arg2 : Nat) : List WCacheEnt → Option (Nat × List WCacheEnt)
  | [] => none
  | [_] => none
  | tmp :: e :: rest =>
    if e.arg1 = arg1 ∧ e.arg2 = arg2 then some (e.res, e :: tmp :: rest)
    else (wCacheSwap arg1 arg2 (e :: rest)).map fun (res, ent) => (res, tmp :: ent)

/-- `WCache_LOOKUP_AND_RETURN`: the result, if it returns one. -/
def wCacheLookup (cache : WCache) (arg1 arg2 : Nat) : Result (Option (Nat × WCache)) := do
  wCacheCheck cache
  match cache.ent with
  | [] => return none
  | e :: rest =>
    if e.arg1 = arg1 ∧ e.arg2 = arg2 then return some (e.res, cache)
    else return (wCacheSwap arg1 arg2 (e :: rest)).map fun (res, ent) => (res, { cache with ent := ent })

/-- `WCache_UPDATE`: the last entry goes if all of them are in use. -/
def wCacheUpdate (cache : WCache) (arg1 arg2 res : Nat) : Result WCache := do
  wCacheCheck cache
  let kept := if cache.ent.length < cache.dynMax then cache.ent else cache.ent.dropLast
  return { cache with ent := ⟨arg1, arg2, res⟩ :: kept }

/-! ## Word vectors -/

/-- `WordVec`, its owner apart: the words. -/
abbrev WordVec := List Nat

/-- `WordSet`: an index. -/
abbrev WordSet := Nat

/-- `cmp_WordVecs_for_FM`. -/
def cmpWordVecs : WordVec → WordVec → Int
  | [], [] => 0
  | [], _ :: _ => -1
  | _ :: _, [] => 1
  | w₁ :: wv₁, w₂ :: wv₂ =>
    if w₁ = w₂ then cmpWordVecs wv₁ wv₂ else if w₁ < w₂ then -1 else 1

/-- The first pass over two vectors, which counts the words that the second pass is going to
store. -/
def passSize (keep₁ keep₁₂ keep₂ : Bool) : WordVec → WordVec → Nat
  | [], wv₂ => if keep₂ then wv₂.length else 0
  | w₁ :: wv₁, [] => if keep₁ then (w₁ :: wv₁).length else 0
  | w₁ :: wv₁, w₂ :: wv₂ =>
    if w₁ < w₂ then (if keep₁ then 1 else 0) + passSize keep₁ keep₁₂ keep₂ wv₁ (w₂ :: wv₂)
    else if w₂ < w₁ then (if keep₂ then 1 else 0) + passSize keep₁ keep₁₂ keep₂ (w₁ :: wv₁) wv₂
    else (if keep₁₂ then 1 else 0) + passSize keep₁ keep₁₂ keep₂ wv₁ wv₂
  termination_by wv₁ wv₂ => wv₁.length + wv₂.length

/-- The two passes, and the assertion that they agree. -/
def twoPasses (keep₁ keep₁₂ keep₂ : Bool) (wv₁ wv₂ : WordVec) : Result WordVec := do
  let sz := passSize keep₁ keep₁₂ keep₂ wv₁ wv₂
  let wvNew := select keep₁ keep₁₂ keep₂ wv₁ wv₂
  assertThat (wvNew.length = sz)
  return wvNew

/-- The new vector of `HG_(unionWS)`. -/
def unionWords (wv₁ wv₂ : WordVec) : Result WordVec := twoPasses true true true wv₁ wv₂

/-- The new vector of `HG_(intersectWS)`. -/
def intersectWords (wv₁ wv₂ : WordVec) : Result WordVec := twoPasses false true false wv₁ wv₂

/-- The new vector of `HG_(minusWS)`. -/
def minusWords (wv₁ wv₂ : WordVec) : Result WordVec := twoPasses true false false wv₁ wv₂

/-- The new vector of `HG_(addToWS)`. -/
def addWord (wv : WordVec) (w : Nat) : Result WordVec := do
  let front := wv.takeWhile fun x => decide (x < w)
  let back := wv.dropWhile fun x => decide (x < w)
  assertThat (∀ x ∈ back, x > w)
  let wvNew := front ++ w :: back
  assertThat (wvNew.length = wv.length + 1)
  return wvNew

/-- The new vector of `HG_(delFromWS)`; `i` is where the word is. -/
def delWord (wv : WordVec) (i : Nat) : Result WordVec := do
  assertThat (i < wv.length)
  assertThat (wv.length > 0)
  let wvNew := wv.eraseIdx i
  assertThat (wvNew.length = wv.length - 1)
  return wvNew

/-! ## The universe -/

/-- A node of `vec2ix`. -/
structure VecNode where
  key : WordVec
  ix : Nat
  deriving DecidableEq

/-- The operations that have a cache. -/
inductive CacheId where
  | addTo
  | delFrom
  | intersect
  | minus
  deriving DecidableEq

/-- `WordSetU`: `ix2vec` are the entries in use. -/
structure WordSetU where
  vec2ix : BinTree VecNode
  ix2vec : List WordVec
  empty : WordSet
  cache : CacheId → WCache

/-- The way that a search for a vector takes at a node. -/
def wayVec (wv : WordVec) (n : VecNode) : Ordering := compare 0 (cmpWordVecs n.key wv)

/-- `VG_(addToFM)` for `vec2ix`. No two nodes have the same index, so that it serves as their
address. -/
def addToVec2ix (n : VecNode) : BinTree VecNode → Result (BinTree VecNode)
  | .nil => return .node n 0 .nil .nil
  | root => do
    let (root, _, _) ← insertNode VecNode.ix true (wayVec n.key) (fun m => return { m with ix := n.ix }) n root
    return root

/-- `do_ix2vec`. -/
def doIx2vec (wsu : WordSetU) (ws : WordSet) : Result WordVec :=
  match wsu.ix2vec[ws]? with
  | some wv => return wv
  | none => throw .assertFailed

/-- `add_or_dealloc_WordVec`. -/
def addOrDeallocWordVec (wsu : WordSetU) (wvNew : WordVec) : Result (WordSetU × WordSet) :=
  match findNode (wayVec wvNew) wsu.vec2ix with
  | some old => do
    assertThat (old.ix < wsu.ix2vec.length)
    assertThat (wsu.ix2vec[old.ix]? = some old.key)
    return (wsu, old.ix)
  | none => do
    let ix := wsu.ix2vec.length
    let vec2ix ← addToVec2ix ⟨wvNew, ix⟩ wsu.vec2ix
    return ({ wsu with vec2ix := vec2ix, ix2vec := wsu.ix2vec ++ [wvNew] }, ix)

/-- `HG_(newWordSetU)`. -/
def newWordSetU (cacheSize : Nat) : Result WordSetU := do
  let cache ← wCacheInit cacheSize
  let wsu : WordSetU := { vec2ix := .nil, ix2vec := [], empty := 0, cache := fun _ => cache }
  let (wsu, empty) ← addOrDeallocWordVec wsu []
  return { wsu with empty := empty }

/-! ## The operations -/

/-- Look the arguments up in a cache; if they are not there, compute the result and put it
there. -/
def throughCache (id : CacheId) (wsu : WordSetU) (arg1 arg2 : Nat)
    (compute : Result (WordSetU × WordSet)) : Result (WordSetU × WordSet) := do
  match ← wCacheLookup (wsu.cache id) arg1 arg2 with
  | some (res, cache) => return ({ wsu with cache := Function.update wsu.cache id cache }, res)
  | none => do
    let (wsu, result) ← compute
    let cache ← wCacheUpdate (wsu.cache id) arg1 arg2 result
    return ({ wsu with cache := Function.update wsu.cache id cache }, result)

section Operations

variable (wsu : WordSetU) (ws ws₁ ws₂ : WordSet) (w w₁ w₂ : Nat)

/-- `HG_(emptyWS)`. -/
def emptyWS : WordSet := wsu.empty

/-- `HG_(isEmptyWS)`. -/
def isEmptyWS : Result Bool := do
  let wv ← doIx2vec wsu ws
  if wv.length = 0 then do
    assertThat (ws = wsu.empty)
    return true
  else do
    assertThat (ws ≠ wsu.empty)
    return false

/-- `HG_(isSingletonWS)`. -/
def isSingletonWS : Result Bool := do
  let wv ← doIx2vec wsu ws
  return decide (wv.length = 1 ∧ wv[0]? = some w)

/-- `HG_(cardinalityWS)`. -/
def cardinalityWS : Result Nat := do
  let wv ← doIx2vec wsu ws
  return wv.length

/-- `HG_(elemWS)`. -/
def elemWS : Result Bool := do
  let wv ← doIx2vec wsu ws
  return wv.any fun x => x = w

/-- `HG_(doubletonWS)`. -/
def doubletonWS : Result (WordSetU × WordSet) :=
  if w₁ = w₂ then addOrDeallocWordVec wsu [w₁]
  else if w₁ < w₂ then addOrDeallocWordVec wsu [w₁, w₂]
  else do
    assertThat (w₁ > w₂)
    addOrDeallocWordVec wsu [w₂, w₁]

/-- `HG_(singletonWS)`. -/
def singletonWS : Result (WordSetU × WordSet) := doubletonWS wsu w w

/-- `HG_(addToWS)`. -/
def addToWS : Result (WordSetU × WordSet) :=
  throughCache .addTo wsu ws w do
    let wv ← doIx2vec wsu ws
    if w ∈ wv then return (wsu, ws)
    let wvNew ← addWord wv w
    addOrDeallocWordVec wsu wvNew

/-- `HG_(delFromWS)`. -/
def delFromWS : Result (WordSetU × WordSet) := do
  let wv ← doIx2vec wsu ws
  if wv.length = 0 then do
    assertThat (ws = wsu.empty)
    return (wsu, ws)
  else throughCache .delFrom wsu ws w do
    let i := wv.idxOf w
    if i = wv.length then return (wsu, ws)
    let wvNew ← delWord wv i
    let (wsu', result) ← addOrDeallocWordVec wsu wvNew
    if wv.length = 1 then assertThat (result = wsu'.empty)
    return (wsu', result)

/-- `HG_(unionWS)`. -/
def unionWS : Result (WordSetU × WordSet) := do
  let wv₁ ← doIx2vec wsu ws₁
  let wv₂ ← doIx2vec wsu ws₂
  let wvNew ← unionWords wv₁ wv₂
  addOrDeallocWordVec wsu wvNew

/-- What `HG_(intersectWS)` and `HG_(minusWS)` do when the cache does not know the result. -/
def uncachedWS (words : WordVec → WordVec → Result WordVec) : Result (WordSetU × WordSet) := do
  let wv₁ ← doIx2vec wsu ws₁
  let wv₂ ← doIx2vec wsu ws₂
  let wvNew ← words wv₁ wv₂
  let (wsu', wsNew) ← addOrDeallocWordVec wsu wvNew
  if wvNew.length = 0 then assertThat (wsNew = wsu'.empty)
  return (wsu', wsNew)

/-- `HG_(intersectWS)`. The arguments are put in order for the cache. -/
def intersectWS : Result (WordSetU × WordSet) :=
  if ws₁ = ws₂ then return (wsu, ws₁)
  else if ws₁ > ws₂ then throughCache .intersect wsu ws₂ ws₁ (uncachedWS wsu ws₂ ws₁ intersectWords)
  else throughCache .intersect wsu ws₁ ws₂ (uncachedWS wsu ws₁ ws₂ intersectWords)

/-- `HG_(minusWS)`. -/
def minusWS : Result (WordSetU × WordSet) :=
  throughCache .minus wsu ws₁ ws₂ (uncachedWS wsu ws₁ ws₂ minusWords)

/-- `HG_(isSubsetOf)`. -/
def isSubsetOf (small big : WordSet) : Result (WordSetU × Bool) := do
  let (wsu, ws) ← intersectWS wsu small big
  return (wsu, decide (small = ws))

end Operations

end Helgrind

end Valgrind
