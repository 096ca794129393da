import Valgrind.Basics.Machine
import Valgrind.Coregrind.HashTable

/-!
# Helgrind: the replacement of `calloc`

`handle_alloc` of `hg_main.c` and what calls it for `calloc`. What the allocator answers, and
what becomes of the shadow memory of the new block, are parameters. Zeroing the client's memory is
left out.
-/

namespace Valgrind.Helgrind

open Machine Coregrind

section

variable [Machine]

/-- `MallocMeta`. -/
structure MallocMeta (ε τ : Type) where
  payload : Nat
  szB : Nat
  where_ : ε
  thr : τ
  deriving DecidableEq, Repr

/-- What the rest of the program contributes. -/
structure AllocEnv (ε τ σ : Type) where
  cloAlignment : Nat
  /-- What `VG_(cli_malloc)` returns for an alignment and a size; 0 is `NULL`. -/
  cliMalloc : Nat → Nat → Nat
  /-- What `VG_(record_ExeContext)` returns. -/
  context : ε
  /-- `map_threads`. -/
  mapThreads : Nat → Option τ
  /-- `evh__new_mem_heap`, as a function of the shadow memory. -/
  evhNewMemHeap : σ → Nat → Nat → Bool → Result σ

/-- `hg_mallocmeta_table`, and the shadow memory. -/
structure AllocState (ε τ σ : Type) where
  mallocmetaTable : HashTable (MallocMeta ε τ)
  shadow : σ

section Operations

variable {ε τ σ : Type} (env : AllocEnv ε τ σ)

/-- `VG_N_THREADS`. -/
def nThreads : Nat := 300

/-- `map_threads_lookup`. -/
def mapThreadsLookup (coretid : Nat) : Result τ := do
  assertThat (coretid < nThreads)
  match env.mapThreads coretid with
  | none => .error .assertFailed
  | some thr => return thr

/-- `handle_alloc`. -/
def handleAlloc (st : AllocState ε τ σ) (tid szB alignB : Nat) (isZeroed : Bool) : Result (Nat × AllocState ε τ σ) := do
  -- as an `SSizeT`
  assertThat (szB < wordMod / 2)
  let p := env.cliMalloc alignB szB
  if p = 0 then return (0, st)
  let thr ← mapThreadsLookup env tid
  let mallocmetaTable ← htAddNode MallocMeta.payload st.mallocmetaTable ⟨p, szB, env.context, thr⟩
  let shadow ← env.evhNewMemHeap st.shadow p szB isZeroed
  return (p, { mallocmetaTable, shadow })

/-- `hg_cli__calloc`. -/
def hgCliCalloc (st : AllocState ε τ σ) (tid nmemb size1 : Nat) : Result (Nat × AllocState ε τ σ) :=
  if wordMod / 2 ≤ nmemb ∨ wordMod / 2 ≤ size1 then .ok (0, st)
  else handleAlloc env st tid (nmemb * size1 % wordMod) env.cloAlignment true

end Operations

end

end Valgrind.Helgrind
