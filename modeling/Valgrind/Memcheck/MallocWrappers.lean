import Valgrind.Coregrind.ExeContext
import Valgrind.Coregrind.HashTable
import Valgrind.Memcheck.LeakCheck
import Valgrind.Memcheck.Stack

/-!
# Memcheck: the replacements of `malloc` and its relatives

`mc_malloc_wrappers.c`, as far as blocks are allocated and given back: the record of a block is
put into a hash table, and the shadow memory of the block gets its new state. A memory pool has a
table of its own for the blocks that the client announces.

What the allocators and `VG_(record_ExeContext)` answer are parameters. Filling the client's
memory, messages and statistics are left out.
-/

namespace Valgrind.Memcheck

open Machine Coregrind

section

variable [Machine]

/-! ## The state -/

/-- `MC_AllocKind`. -/
inductive McAllocKind where
  | malloc
  | new
  | newVec
  | custom
  deriving DecidableEq, Repr

/-- `MC_Chunk`. -/
structure HeapChunk (ε : Type) extends McChunk ε where
  allockind : McAllocKind
  deriving DecidableEq, Repr

/-- A value of the field `szB` of `MC_Chunk`, which has two bits less than a word. -/
def chunkSzB (szB : Nat) : Nat := szB % (wordMod / 4)

/-- The table under whose keys a chunk stands. -/
def HeapChunk.key {ε : Type} (mc : HeapChunk ε) : Nat := mc.data

/-- `sizeof(MC_Chunk)`: four words. -/
def sizeofMcChunk : Nat := 4 * wordB

/-- `MC_Mempool`. -/
structure Mempool (ε : Type) where
  pool : Nat
  rzB : Nat
  isZeroed : Bool
  chunks : HashTable (HeapChunk ε)

/-- The errors that are recorded about the client's calls. -/
inductive HeapError where
  | free (a : Nat)
  | illegalMempool (a : Nat)
  deriving DecidableEq, Repr

/-- The freed blocks queue, the oldest first, and `VG_(free_queue_volume)`. -/
structure FreedQueue (ε : Type) where
  list : List (HeapChunk ε)
  volume : Int

/-- What the options and the rest of the program contribute. -/
structure HeapEnv (ε : Type) where
  al : ShadowAlloc
  cloAlignment : Nat
  cloMallocFill : Int
  cloFreeFill : Int
  cloFreelistVol : Int
  /-- What `VG_(cli_malloc)` returns for an alignment and a size; 0 is `NULL`. -/
  cliMalloc : Nat → Nat → Nat
  /-- Where `VG_(malloc)` puts the next `MC_Chunk`. -/
  chunkAt : Nat
  /-- What `VG_(record_ExeContext)` returns. -/
  context : ε
  /-- `VG_(get_ECU_from_ExeContext)`. -/
  ecuOf : ε → Nat

/-- The blocks, the pools and the shadow memory. A pool is known by its address. -/
structure HeapState (ε : Type) where
  mallocList : HashTable (HeapChunk ε)
  mempoolList : Nat → Option (Mempool ε)
  freed : FreedQueue ε
  secmaps : SecMaps
  errors : List HeapError

section Operations

variable {ε : Type} (env : HeapEnv ε)

/-! ## Allocation -/

/-- The word is negative as an `SSizeT`. -/
def isNegative (x : Nat) : Bool := decide (wordMod / 2 ≤ x)

/-- `complain_about_silly_args2`. -/
def complainAboutSillyArgs2 (n sizeB : Nat) : Bool := isNegative n || isNegative sizeB

/-- The fill value of an option: `tl_assert(fill >= 0x00 && fill <= 0xFF)`, if there is one. -/
def assertFill (fill : Int) : Result Unit := if fill ≠ -1 then assertThat (0 ≤ fill ∧ fill ≤ 0xFF) else .ok ()

/-- `MC_(check_mem_is_noaccess)`, without the bad address. -/
def checkMemIsNoaccess (s : SecMaps) (a : Nat) : Nat → Result (Bool × SecMaps)
  | 0 => .ok (true, s)
  | len + 1 => do
    let (vabits2, s) ← getVabits2 s a
    if vabits2 ≠ vaBits2Noaccess then return (false, s) else checkMemIsNoaccess s (addW a 1) len

/-- `create_MC_Chunk`. -/
def createMcChunk (s : SecMaps) (p szB : Nat) (kind : McAllocKind) : Result (HeapChunk ε × SecMaps) := do
  let (hidden, s) ← checkMemIsNoaccess s env.chunkAt sizeofMcChunk
  if hidden then return (⟨⟨p, chunkSzB szB, env.context⟩, kind⟩, s) else .error .panic

/-- `MC_(new_block)` from where the block is there: it is recorded, and its memory gets its
state. -/
def recordBlock (s : SecMaps) (p szB : Nat) (isZeroed : Bool) (kind : McAllocKind) (table : HashTable (HeapChunk ε)) :
    Result (HashTable (HeapChunk ε) × SecMaps) := do
  let (mc, s) ← createMcChunk env s p szB kind
  let table ← htAddNode HeapChunk.key table mc
  if isZeroed then
    let s ← makeMemDefined env.al s p szB
    return (table, s)
  assertThat (isPlausibleECU (env.ecuOf env.context))
  let s ← makeMemUndefined env.al s p szB
  return (table, s)

/-- `MC_(new_block)`: the address of the block, or `NULL`. -/
def newBlock (s : SecMaps) (p szB alignB : Nat) (isZeroed : Bool) (kind : McAllocKind)
    (table : HashTable (HeapChunk ε)) : Result (Nat × HashTable (HeapChunk ε) × SecMaps) := do
  if p ≠ 0 then
    assertThat (kind = .custom)
    return (p, ← recordBlock env s p szB isZeroed kind table)
  assertThat (kind ≠ .custom)
  let p := env.cliMalloc alignB szB
  if p = 0 then return (0, table, s)
  if !isZeroed then assertFill env.cloMallocFill
  return (p, ← recordBlock env s p szB isZeroed kind table)

/-- `MC_(calloc)`. -/
def mcCalloc (st : HeapState ε) (nmemb size1 : Nat) : Result (Nat × HeapState ε) :=
  if complainAboutSillyArgs2 nmemb size1 then .ok (0, st)
  else do
    let (p, mallocList, secmaps) ←
      newBlock env st.secmaps 0 (nmemb * size1 % wordMod) env.cloAlignment true .malloc st.mallocList
    return (p, { st with mallocList, secmaps })

/-! ## Giving back -/

/-- The oldest blocks of the queue are released until its volume is below `--freelist-vol`. -/
def releaseOldest (volume : Int) : List (HeapChunk ε) → Result (FreedQueue ε)
  | [] => do
    assertThat (volume ≤ env.cloFreelistVol)
    return ⟨[], volume⟩
  | mc :: list =>
    if volume > env.cloFreelistVol then do
      assertThat (0 ≤ volume - mc.szB)
      releaseOldest (volume - mc.szB) list
    else .ok ⟨mc :: list, volume⟩

/-- `add_to_freed_queue`. -/
def addToFreedQueue (freed : FreedQueue ε) (mc : HeapChunk ε) : Result (FreedQueue ε) :=
  let volume : Int := if freed.list = [] then mc.szB else freed.volume + mc.szB
  releaseOldest env volume (freed.list ++ [mc])

/-- `die_and_free_mem`. A block of a memory pool is not kept. -/
def dieAndFreeMem (freed : FreedQueue ε) (s : SecMaps) (mc : HeapChunk ε) (rzB : Nat) :
    Result (FreedQueue ε × SecMaps) := do
  assertFill env.cloFreeFill
  let s ← makeMemNoaccess env.al s (subW mc.data rzB) ((mc.szB + 2 * rzB) % wordMod)
  if mc.allockind ≠ .custom then
    let freed ← addToFreedQueue env freed { mc with where_ := env.context }
    return (freed, s)
  return (freed, s)

/-! ## Memory pools -/

/-- `check_mempool_sane`. All it does about a pool that is not is to print messages. -/
def checkMempoolSane (mp : Mempool ε) : Result Unit := do
  let _ ← htToArray mp.chunks
  return ()

/-- `EXTENT_CONTAINS(x)`. -/
def extentContains (addr szB x : Nat) : Prop := addr ≤ x ∧ x < addW addr szB

instance (addr szB x : Nat) : Decidable (extentContains addr szB x) := inferInstanceAs (Decidable (_ ∧ _))

/-- The last address of a chunk. -/
def HeapChunk.hi (mc : HeapChunk ε) : Nat := if mc.szB = 0 then mc.data else subW (addW mc.data mc.szB) 1

/-- The bounds of a chunk that is trimmed: `min`, `lo`, `hi`, `max`. -/
def trimBounds (addr szB : Nat) (mc : HeapChunk ε) : (Nat × Nat) × (Nat × Nat) :=
  (if mc.data < addr then (mc.data, addr) else (addr, mc.data),
    if addW mc.data szB > addW addr szB then (addW addr szB, addW mc.data szB) else (addW mc.data szB, addW addr szB))

/-- The chunk with its new bounds. -/
def HeapChunk.resized (mc : HeapChunk ε) (lo hi : Nat) : HeapChunk ε :=
  { mc with data := lo, szB := chunkSzB ((hi - lo) % 2 ^ 32) }

/-- The states of the bytes that a chunk loses when it is trimmed. -/
def clearTrimmed (addr szB : Nat) (s : SecMaps) (mc : HeapChunk ε) : Result SecMaps := do
  let ((min, lo), (hi, max)) := trimBounds addr szB mc
  assertThat (min ≤ lo)
  assertThat (lo < hi)
  assertThat (hi ≤ max)
  let s ← (if min < lo ∧ ¬ extentContains addr szB min then makeMemNoaccess env.al s min (lo - min) else .ok s)
  if hi < max ∧ ¬ extentContains addr szB max then makeMemNoaccess env.al s hi (max - hi) else .ok s

/-- The chunks of the pool that is trimmed, with what else is changed. -/
structure Trim (ε : Type) where
  chunks : HashTable (HeapChunk ε)
  freed : FreedQueue ε
  secmaps : SecMaps

/-- The body of the loop of `MC_(mempool_trim)`; there is no result when the chunk is not in the
table. -/
def trimChunk (rzB addr szB : Nat) (t : Trim ε) (mc : HeapChunk ε) : Result (Option (Trim ε)) :=
  let lo := mc.data
  let hi := mc.hi
  if extentContains addr szB lo ∧ extentContains addr szB hi then .ok (some t)
  else if ¬ extentContains addr szB lo ∧ ¬ extentContains addr szB hi then
    match htRemove HeapChunk.key t.chunks mc.data with
    | none => .ok none
    | some (_, chunks) => do
      let (freed, secmaps) ← dieAndFreeMem env t.freed t.secmaps mc rzB
      return some { chunks, freed, secmaps }
  else do
    assertThat (extentContains addr szB lo ∨ extentContains addr szB hi)
    match htRemove HeapChunk.key t.chunks mc.data with
    | none => return none
    | some (_, chunks) =>
      let secmaps ← clearTrimmed env addr szB t.secmaps mc
      let ((_, lo), (hi, _)) := trimBounds addr szB mc
      let chunks ← htAddNode HeapChunk.key chunks (mc.resized lo hi)
      return some { t with chunks, secmaps }

/-- The loop of `MC_(mempool_trim)`, and the address of a chunk that is not in the table. -/
def trimChunks (rzB addr szB : Nat) : Trim ε → List (HeapChunk ε) → Result (Trim ε × Option Nat)
  | t, [] => .ok (t, none)
  | t, mc :: mcs => do
    match ← trimChunk env rzB addr szB t mc with
    | none => return (t, some mc.data)
    | some t => trimChunks rzB addr szB t mcs

/-- The state after the pool has been trimmed. -/
def HeapState.trimmed (st : HeapState ε) (pool : Nat) (mp : Mempool ε) (t : Trim ε) (missing : Option Nat) : HeapState ε :=
  { st with
    mempoolList := Function.update st.mempoolList pool (some { mp with chunks := t.chunks })
    freed := t.freed
    secmaps := t.secmaps
    errors := st.errors ++ (missing.map HeapError.free).toList }

/-- `MC_(mempool_trim)`. -/
def mempoolTrim (st : HeapState ε) (pool addr szB : Nat) : Result (HeapState ε) :=
  match st.mempoolList pool with
  | none => .ok { st with errors := st.errors ++ [.illegalMempool pool] }
  | some mp => do
    checkMempoolSane mp
    match ← htToArray mp.chunks with
    | none => return st
    | some chunks =>
      let (t, missing) ← trimChunks env mp.rzB addr szB ⟨mp.chunks, st.freed, st.secmaps⟩ chunks
      checkMempoolSane { mp with chunks := t.chunks }
      return st.trimmed pool mp t missing

end Operations

/-! ## What an allocation leaves behind -/

variable {ε : Type} {env : HeapEnv ε} {s : SecMaps} {a p szB : Nat} {kind : McAllocKind}
  {table : HashTable (HeapChunk ε)} {nodes : Multiset (HeapChunk ε)}

/-- **`MC_(check_mem_is_noaccess)`** of a range of which it is true. -/
theorem checkMemIsNoaccess_spec {len : Nat} (h : s.Inv) (ha : a < wordMod)
    (hall : ∀ i < len, vabits2At s (addW a i) = vaBits2Noaccess) :
    ∃ s', checkMemIsNoaccess s a len = .ok (true, s') ∧ Quiet s s' := by
  induction len generalizing s a with
  | zero => exact ⟨s, rfl, .refl h⟩
  | succ len ih =>
    obtain ⟨s₁, hget, hq⟩ := getVabits2_spec h ha
    have hfirst := hall 0 (Nat.succ_pos len)
    rw [addW_zero ha] at hfirst
    obtain ⟨s₂, hrest, hq'⟩ := ih hq.inv (addW_lt a 1) fun i hi => by
      rw [hq.vabits2At, addW_addW, Nat.add_comm 1 i]
      exact hall (i + 1) (Nat.succ_lt_succ hi)
    refine ⟨s₂, ?_, hq.trans hq'⟩
    rw [checkMemIsNoaccess, hget, ok_bind]
    simp only [hfirst, ne_eq, not_true_eq_false, if_false]
    exact hrest

/-- The memory that the next `MC_Chunk` is put into is off-limits to the client. -/
structure Hidden (env : HeapEnv ε) (s : SecMaps) : Prop where
  lt : env.chunkAt < wordMod
  noaccess : ∀ i < sizeofMcChunk, vabits2At s (addW env.chunkAt i) = vaBits2Noaccess

/-- **A zeroed block is recorded**, with the size that the field can hold. -/
theorem recordBlock_zeroed (h : s.Inv) (hhidden : Hidden env s) (hnodes : Stores HeapChunk.key table nodes)
    (hp : p < wordMod) (hszB : szB < wordMod) :
    Returns env.al (recordBlock env s p szB true kind table) fun r =>
      Stores HeapChunk.key r.1 (⟨⟨p, chunkSzB szB, env.context⟩, kind⟩ ::ₘ nodes) := by
  obtain ⟨s₁, hcheck, hq⟩ := checkMemIsNoaccess_spec h hhidden.lt hhidden.noaccess
  obtain ⟨table', hadd, hnodes'⟩ := htAddNode_spec hnodes (⟨⟨p, chunkSzB szB, env.context⟩, kind⟩ : HeapChunk ε)
  have hcreate : createMcChunk env s p szB kind = .ok (⟨⟨p, chunkSzB szB, env.context⟩, kind⟩, s₁) := by
    rw [createMcChunk, hcheck, ok_bind]
    rfl
  rw [recordBlock, hcreate, ok_bind]
  simp only [hadd, ok_bind, if_true]
  exact (makeMem_spec .defined hq.inv hp hszB).bind fun s₂ _ => .of_ok hnodes'

variable {st : HeapState ε} {nmemb size1 : Nat}

/-- There is nothing to be had, or nothing is asked for that could be had. -/
theorem mcCalloc_null (h : complainAboutSillyArgs2 nmemb size1 = true ∨
    env.cliMalloc env.cloAlignment (nmemb * size1 % wordMod) = 0) : mcCalloc env st nmemb size1 = .ok (0, st) := by
  rw [mcCalloc]
  split
  · rfl
  · next hsilly =>
    simp only [newBlock, h.resolve_left hsilly]
    rfl

/-- **`MC_(calloc)`** records the block that it returns. -/
theorem mcCalloc_spec (h : st.secmaps.Inv) (hhidden : Hidden env st.secmaps)
    (hnodes : Stores HeapChunk.key st.mallocList nodes)
    (hargs : complainAboutSillyArgs2 nmemb size1 = false)
    (hmalloc : env.cliMalloc env.cloAlignment (nmemb * size1 % wordMod) = p) (hnull : p ≠ 0) (hp : p < wordMod) :
    Returns env.al (mcCalloc env st nmemb size1) fun r => r.1 = p ∧ Stores HeapChunk.key r.2.mallocList
      (⟨⟨p, chunkSzB (nmemb * size1 % wordMod), env.context⟩, .malloc⟩ ::ₘ nodes) := by
  have hnew : newBlock env st.secmaps 0 (nmemb * size1 % wordMod) env.cloAlignment true .malloc st.mallocList = (do
      let r ← recordBlock env st.secmaps p (nmemb * size1 % wordMod) true .malloc st.mallocList
      return (p, r)) := by
    rw [newBlock, if_neg (not_not_intro rfl), assertThat_of (by decide), hmalloc]
    simp only [ok_bind, if_neg hnull]
    rfl
  rw [mcCalloc, hargs, if_neg (by decide), hnew, bind_assoc]
  exact (recordBlock_zeroed h hhidden hnodes hp (Nat.mod_lt _ wordMod_pos)).bind fun r hr => .of_ok ⟨rfl, hr⟩

end

end Valgrind.Memcheck
