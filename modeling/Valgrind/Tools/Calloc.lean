import Valgrind.Helgrind.MallocMeta
import Valgrind.Massif.FailedRealloc
import Valgrind.Memcheck.LoadStoreSpecs
import Valgrind.Memcheck.MallocWrappers

/-!
# The three replacements of `calloc`

Memcheck, Helgrind and Massif each multiply the number of members by their size in one machine
word. Memcheck and Helgrind reject an argument that is negative as a signed word, which does not
keep the product from wrapping around; Massif rejects nothing. `calloc_iff` says when the
block that is handed out, and recorded, has room for the members all the same.
-/

namespace Valgrind.Tools

open Machine Coregrind

/-! ## What a `calloc` promises -/

section Serves

variable {α τ σ : Type}

/-- The blocks in a table: their addresses and the sizes that are recorded for them. -/
def Blocks (key szB : α → Nat) (table : HashTable α) (blocks : Multiset (Nat × Nat)) : Prop :=
  ∃ nodes, Stores key table nodes ∧ nodes.map (fun node => (key node, szB node)) = blocks

/-- The call fails no assertion, although the process may exit. A block that it returns is recorded
with at least as many bytes as the product, which fits into a word then. -/
def Serves (wordMod product : Nat) (outcome : Except τ (Nat × σ)) (exits : τ → Prop)
    (blocks : σ → Multiset (Nat × Nat) → Prop) (before : Multiset (Nat × Nat)) : Prop :=
  (∀ e, outcome = .error e → exits e) ∧
    ∀ p st, outcome = .ok (p, st) → p ≠ 0 →
      product < wordMod ∧ ∃ szB, product ≤ szB ∧ blocks st ((p, szB) ::ₘ before)

/-- The table decides what its blocks are. -/
theorem Blocks.unique {key szB : α → Nat} {table : HashTable α} {blocks blocks' : Multiset (Nat × Nat)}
    (h : Blocks key szB table blocks) (h' : Blocks key szB table blocks') : blocks = blocks' := by
  obtain ⟨nodes, hnodes, rfl⟩ := h
  obtain ⟨nodes', hnodes', rfl⟩ := h'
  rw [← hnodes.coe_nodes, ← hnodes'.coe_nodes]

variable {wordMod product recorded p : Nat} {st : σ} {exits : τ → Prop} {blocks : σ → Multiset (Nat × Nat) → Prop}
  {before : Multiset (Nat × Nat)}

theorem serves_null : Serves wordMod product (.ok (0, st) : Except τ (Nat × σ)) exits blocks before := by
  refine ⟨fun e h => (nomatch h), fun p st' h hp => ?_⟩
  exact absurd (Prod.mk.inj (Except.ok.inj h)).1.symm hp

/-- A block is returned: the promise is about the size that is recorded. -/
theorem serves_ok_iff (blocks : σ → Multiset (Nat × Nat) → Prop) (hp : p ≠ 0)
    (hblocks : blocks st ((p, recorded) ::ₘ before))
    (hunique : ∀ {b b'}, blocks st b → blocks st b' → b = b') :
    Serves wordMod product (.ok (p, st) : Except τ (Nat × σ)) exits blocks before ↔
      product < wordMod ∧ product ≤ recorded := by
  constructor
  · intro h
    obtain ⟨hlt, szB, hle, hb⟩ := h.2 p st rfl hp
    obtain ⟨-, rfl⟩ := Prod.mk.inj ((Multiset.cons_inj_left before).mp (hunique hblocks hb))
    exact ⟨hlt, hle⟩
  · rintro ⟨hlt, hle⟩
    refine ⟨fun e h => (nomatch h), fun p' st' h _ => ?_⟩
    obtain ⟨rfl, rfl⟩ := Prod.mk.inj (Except.ok.inj h)
    exact ⟨hlt, recorded, hle, hblocks⟩

end Serves

/-! ## Memcheck -/

section Memcheck

open Memcheck

variable [Machine] {ε : Type} {env : HeapEnv ε} {st : HeapState ε} {before : Multiset (Nat × Nat)} {nmemb size1 : Nat}

/-- The blocks in `malloc_list`. -/
abbrev McBlocks (table : HashTable (HeapChunk ε)) : Multiset (Nat × Nat) → Prop :=
  Blocks HeapChunk.key (fun mc => mc.szB) table

/-- What Memcheck's allocation functions can count on. -/
structure McReady (env : HeapEnv ε) (st : HeapState ε) (before : Multiset (Nat × Nat)) : Prop where
  inv : st.secmaps.Inv
  blocks : McBlocks st.mallocList before
  /-- The block is in the address space. -/
  malloc_lt : ∀ alignB szB, env.cliMalloc alignB szB < wordMod
  hidden : Hidden env st.secmaps

/-- Whatever becomes of the shadow memory, the call keeps its promise. -/
def McServes (env : HeapEnv ε) (st : HeapState ε) (before : Multiset (Nat × Nat)) (nmemb size1 : Nat) : Prop :=
  ∀ al, Serves wordMod (nmemb * size1) (mcCalloc { env with al } st nmemb size1) (· = .exit)
    (fun st' => McBlocks st'.mallocList) before

/-- The field that holds the size has two bits less than a word. -/
theorem chunkSzB_le_iff {product : Nat} :
    product < wordMod ∧ product ≤ chunkSzB (product % wordMod) ↔ product < wordMod / 4 := by
  have hfour := wordMod_cases
  unfold chunkSzB
  constructor
  · rintro ⟨-, hle⟩
    have := Nat.mod_lt (product % wordMod) (show 0 < wordMod / 4 by omega)
    omega
  · intro hlt
    rw [Nat.mod_eq_of_lt (show product < wordMod by omega), Nat.mod_eq_of_lt hlt]
    exact ⟨by omega, le_refl _⟩

/-- A call that returns the block unless there is no memory for the shadow memory. -/
theorem serves_of_returns {σ : Type} {al : ShadowAlloc} {outcome : Result (Nat × σ)} {product recorded p : Nat}
    (blocks : σ → Multiset (Nat × Nat) → Prop) (hunique : ∀ {st b b'}, blocks st b → blocks st b' → b = b') (hp : p ≠ 0)
    (h : Returns al outcome fun r => r.1 = p ∧ blocks r.2 ((p, recorded) ::ₘ before)) :
    (product < wordMod ∧ product ≤ recorded → Serves wordMod product outcome (· = .exit) blocks before) ∧
      ((∀ mapped, al.alloc mapped ≠ none) → Serves wordMod product outcome (· = .exit) blocks before →
        product < wordMod ∧ product ≤ recorded) := by
  rcases h with ⟨⟨_, st⟩, rfl, rfl, hblocks⟩ | ⟨rfl, mapped, hnone⟩
  · have hiff : Serves wordMod product (.ok (_, st) : Result (Nat × σ)) (· = .exit) blocks before ↔ _ :=
      serves_ok_iff blocks hp hblocks hunique
    exact ⟨hiff.mpr, fun _ => hiff.mp⟩
  · refine ⟨fun _ => ⟨fun e he => (Except.error.inj he).symm, fun p st' hok => (nomatch hok)⟩, fun hall => ?_⟩
    exact absurd hnone (hall mapped)

/-- **Memcheck.** -/
theorem mcCalloc_iff (h : McReady env st before) : McServes env st before nmemb size1 ↔
    isNegative nmemb = true ∨ isNegative size1 = true ∨
      env.cliMalloc env.cloAlignment (nmemb * size1 % wordMod) = 0 ∨ nmemb * size1 < wordMod / 4 := by
  rw [← or_assoc, ← Bool.or_eq_true, ← complainAboutSillyArgs2]
  by_cases hnull : complainAboutSillyArgs2 nmemb size1 = true ∨
      env.cliMalloc env.cloAlignment (nmemb * size1 % wordMod) = 0
  · refine iff_of_true (fun al => ?_) (or_assoc.mp (.inl hnull))
    have hrun : mcCalloc { env with al } st nmemb size1 = .ok (0, st) := mcCalloc_null hnull
    rw [hrun]
    exact serves_null
  rw [← or_assoc, or_iff_right hnull, ← chunkSzB_le_iff]
  obtain ⟨hargs, hp⟩ := not_or.mp hnull
  obtain ⟨nodes, hnodes, hbefore⟩ := h.blocks
  have hrun : ∀ al, Returns al (mcCalloc { env with al } st nmemb size1) fun r =>
      r.1 = env.cliMalloc env.cloAlignment (nmemb * size1 % wordMod) ∧ McBlocks r.2.mallocList
        ((env.cliMalloc env.cloAlignment (nmemb * size1 % wordMod), chunkSzB (nmemb * size1 % wordMod)) ::ₘ before) := by
    intro al
    have hhidden : Hidden { env with al } st.secmaps := ⟨h.hidden.lt, h.hidden.noaccess⟩
    refine (mcCalloc_spec h.inv hhidden hnodes (Bool.eq_false_iff.mpr hargs) rfl hp (h.malloc_lt _ _)).mono fun r hr => ?_
    exact ⟨hr.1, _, hr.2, hbefore ▸ Multiset.map_cons _ _ _⟩
  constructor
  · intro hserves
    have hplenty : ∀ mapped, bumpAlloc.alloc mapped ≠ none := fun mapped h => Option.some_ne_none _ h
    exact (serves_of_returns (fun st' : HeapState ε => McBlocks st'.mallocList) Blocks.unique hp (hrun bumpAlloc)).2
      hplenty (hserves bumpAlloc)
  · intro hfits al
    exact (serves_of_returns (fun st' : HeapState ε => McBlocks st'.mallocList) Blocks.unique hp (hrun al)).1 hfits

end Memcheck

/-! ## Helgrind -/

section Helgrind

open Helgrind

variable [Machine] {ε τ σ : Type} {env : AllocEnv ε τ σ} {st : AllocState ε τ σ} {before : Multiset (Nat × Nat)}
  {tid nmemb size1 : Nat}

/-- The blocks in `hg_mallocmeta_table`. -/
abbrev HgBlocks (table : HashTable (MallocMeta ε τ)) : Multiset (Nat × Nat) → Prop :=
  Blocks MallocMeta.payload MallocMeta.szB table

/-- What Helgrind's allocation functions can count on. -/
structure HgReady (env : AllocEnv ε τ σ) (st : AllocState ε τ σ) (before : Multiset (Nat × Nat)) (tid : Nat) : Prop where
  blocks : HgBlocks st.mallocmetaTable before
  /-- The caller is a thread that is alive. -/
  tid_lt : tid < nThreads
  alive : ∃ thr, env.mapThreads tid = some thr
  shadow : ∀ s a len isZeroed, ∃ s', env.evhNewMemHeap s a len isZeroed = .ok s'

/-- The call keeps its promise. -/
def HgServes (env : AllocEnv ε τ σ) (st : AllocState ε τ σ) (before : Multiset (Nat × Nat)) (tid nmemb size1 : Nat) :
    Prop :=
  Serves wordMod (nmemb * size1) (hgCliCalloc env st tid nmemb size1) (fun _ => False)
    (fun st' => HgBlocks st'.mallocmetaTable) before

/-- **Helgrind**: what has wrapped around must not be negative as a signed word, or an assertion
fails. -/
theorem hgCliCalloc_iff (h : HgReady env st before tid) : HgServes env st before tid nmemb size1 ↔
    wordMod / 2 ≤ nmemb ∨ wordMod / 2 ≤ size1 ∨ nmemb * size1 % wordMod < wordMod / 2 ∧
      (nmemb * size1 < wordMod ∨ env.cliMalloc env.cloAlignment (nmemb * size1 % wordMod) = 0) := by
  unfold HgServes hgCliCalloc
  by_cases hsilly : wordMod / 2 ≤ nmemb ∨ wordMod / 2 ≤ size1
  · rw [if_pos hsilly, ← or_assoc]
    exact iff_of_true serves_null (.inl hsilly)
  rw [if_neg hsilly, ← or_assoc, or_iff_right hsilly, handleAlloc]
  by_cases hneg : nmemb * size1 % wordMod < wordMod / 2
  · rw [assertThat_of hneg, ok_bind, and_iff_right hneg]
    by_cases hnull : env.cliMalloc env.cloAlignment (nmemb * size1 % wordMod) = 0
    · simp only [hnull, if_true]
      exact iff_of_true serves_null (.inr trivial)
    obtain ⟨nodes, hnodes, hbefore⟩ := h.blocks
    obtain ⟨thr, hthr⟩ := h.alive
    obtain ⟨table, hadd, hnodes'⟩ := htAddNode_spec hnodes
      ⟨env.cliMalloc env.cloAlignment (nmemb * size1 % wordMod), nmemb * size1 % wordMod, env.context, thr⟩
    obtain ⟨shadow, hshadow⟩ := h.shadow st.shadow (env.cliMalloc env.cloAlignment (nmemb * size1 % wordMod))
      (nmemb * size1 % wordMod) true
    have hlookup : mapThreadsLookup env tid = .ok thr := by
      rw [mapThreadsLookup, assertThat_of h.tid_lt, ok_bind, hthr]
      rfl
    simp only [if_neg hnull, hlookup, ok_bind, hadd, hshadow]
    have hblocks : HgBlocks (AllocState.mk table shadow).mallocmetaTable
        ((env.cliMalloc env.cloAlignment (nmemb * size1 % wordMod), nmemb * size1 % wordMod) ::ₘ before) := ⟨_, hnodes', hbefore ▸ Multiset.map_cons _ _ _⟩
    rw [or_iff_left hnull]
    refine (serves_ok_iff (fun st' : AllocState ε τ σ => HgBlocks st'.mallocmetaTable) hnull hblocks Blocks.unique).trans ?_
    exact ⟨And.left, fun hlt => ⟨hlt, by rw [Nat.mod_eq_of_lt hlt]⟩⟩
  · rw [assertThat, if_neg hneg]
    exact iff_of_false (fun hserves => hserves.1 _ rfl) fun hfits => hneg hfits.1

end Helgrind

/-! ## Massif -/

section Massif

open Massif

variable {opts : Options} {st : Massif} {before : Multiset (Nat × Nat)} {m szB : Nat} {malloced : Malloced}
  {ips : List Nat} {now : Moment}

/-- The blocks in `malloc_list`. -/
abbrev MsBlocks (table : HashTable HPChunk) : Multiset (Nat × Nat) → Prop := Blocks HPChunk.data HPChunk.reqSzB table

/-- The time after the block has been accounted for. -/
def timeAfter (opts : Options) (st : Massif) (reqSzB slopSzB : Nat) (now : Moment) : Int :=
  getTime opts { st with
    totalAllocsDeallocsSzB := sizeT (st.totalAllocsDeallocsSzB + (reqSzB + (opts.cloHeapAdmin + slopSzB) : Nat)) } now

/-- The heap is profiled: the accounts are right, the snapshot table has its invariant, time has
not gone back, and no sum overflows with the new block. -/
structure Profiled (opts : Options) (st : Massif) (reqSzB slopSzB : Nat) (now : Moment) : Prop where
  accounts : ∃ owned, Accounts opts st owned
  table : ∃ N hist past, 10 ≤ N ∧ TableInv N st.table hist past ∧ (∀ r ∈ hist, r.Valid opts.toConfig) ∧
    st.table.nextSnapshotI < N ∧ past ≤ timeAfter opts st reqSzB slopSzB now
  time_nonneg : 0 ≤ timeAfter opts st reqSzB slopSzB now
  time_le : timeAfter opts st reqSzB slopSzB now ≤ maxTime
  heap_lt : st.statics.heapSzB + reqSzB < 2 ^ 62
  extra_lt : st.statics.heapExtraSzB + (opts.cloHeapAdmin + slopSzB) < 2 ^ 62
  delta_lt : opts.cloHeapAdmin + slopSzB < 2 ^ 31
  stacks_lt : st.statics.stacksSzB < 2 ^ 62
  noStacks : opts.cloStacks = false → st.statics.stacksSzB = 0
  excess_le : now.excessSzB ≤ 2 ^ 62

/-- What Massif's allocation functions can count on. -/
structure MsReady (opts : Options) (st : Massif) (before : Multiset (Nat × Nat)) (reqSzB : Nat) (malloced : Malloced)
    (now : Moment) : Prop where
  blocks : MsBlocks st.mallocList before
  /-- The block has room for what was asked for, and `VG_(malloc_usable_size)` says so. -/
  usable : ∀ p actualSzB, malloced = some (p, actualSzB) → p ≠ 0 ∧ reqSzB ≤ actualSzB ∧
    (opts.cloHeap = true → Profiled opts st reqSzB (actualSzB - reqSzB) now)

/-- The call keeps its promise. -/
def MsServes (opts : Options) (st : Massif) (before : Multiset (Nat × Nat)) (m szB : Nat) (malloced : Malloced)
    (ips : List Nat) (now : Moment) : Prop :=
  Serves (2 ^ 64) (m * szB) ((msCalloc opts st m szB malloced ips now).map Prod.swap) (fun _ => False)
    (fun st' => MsBlocks st'.mallocList) before

/-- The block is recorded, and the snapshot taken. -/
theorem recordBlock_returns {reqSzB slopSzB p : Nat} (hblocks : MsBlocks st.mallocList before)
    (h : opts.cloHeap = true → Profiled opts st reqSzB slopSzB now) :
    ∃ st', recordBlock opts st p reqSzB slopSzB ips now = .ok st' ∧ MsBlocks st'.mallocList ((p, reqSzB) ::ₘ before) := by
  obtain ⟨nodes, hnodes, hbefore⟩ := hblocks
  have hadded : ∀ {hc table}, hc.data = p → hc.reqSzB = reqSzB → htAddNode HPChunk.data st.mallocList hc = .ok table →
      MsBlocks table ((p, reqSzB) ::ₘ before) := by
    rintro hc table rfl rfl hadd
    obtain ⟨table', hadd', hnodes'⟩ := htAddNode_spec hnodes hc
    obtain rfl := Except.ok.inj (hadd.symm.trans hadd')
    exact ⟨_, hnodes', hbefore ▸ Multiset.map_cons _ _ _⟩
  by_cases hheap : opts.cloHeap = true
  · obtain ⟨⟨owned, hacc⟩, ⟨N, hist, past, hN, hinv, hhist, hlt, hpast⟩, hnonneg, hle, hheapLt, hextraLt, hdelta, hstacks,
      hno, hexcess⟩ := h hheap
    have hr := hacc.heap
    have he := hacc.extra
    have hreqOf : reqOf (⟨p, reqSzB, slopSzB, ips⟩ ::ₘ owned) = reqSzB + reqOf owned := reqOf_cons
    have hextraOf : extraOf opts (⟨p, reqSzB, slopSzB, ips⟩ ::ₘ owned) = opts.cloHeapAdmin + slopSzB + extraOf opts owned :=
      extraOf_cons
    obtain ⟨st₁, hrecord, hacc₁, htable₁, hstacks₁, htotal₁, xpt, hadd⟩ := recordBlock_spec hheap hacc ips now
      (show reqSzB ≤ 2 ^ 62 by omega) (by omega) hdelta
      (show reqOf (⟨p, reqSzB, slopSzB, ips⟩ ::ₘ owned) < 2 ^ 64 by omega) (by omega)
    have htime : getTime opts st₁ now = timeAfter opts st reqSzB slopSzB now := by
      rw [timeAfter, getTime, getTime, htotal₁]
    have hheap₁ := hacc₁.heap
    have hextra₁ := hacc₁.extra
    have hvalid : Request.Valid opts.toConfig ⟨.normal, getTime opts st₁ now, st₁.statics, now.excessSzB⟩ := by
      refine ⟨(by decide : SnapshotKind.normal ≠ .unused), by rwa [htime], by rwa [htime], hacc₁.ready, ?_, ?_, ?_, hexcess,
        fun hoff => ?_, fun hoff => ?_⟩
      · show st₁.statics.heapSzB < 2 ^ 62
        omega
      · show st₁.statics.heapExtraSzB < 2 ^ 62
        omega
      · exact hstacks₁ ▸ hstacks
      · exact absurd (hheap.symm.trans hoff) (by decide)
      · exact hstacks₁ ▸ hno hoff
    obtain ⟨table, htake, -⟩ := maybeTakeSnapshot_spec hN (htable₁ ▸ hinv) hhist (htable₁ ▸ hlt) hvalid (htime ▸ hpast)
    refine ⟨{ st₁ with table }, ?_, hadded rfl rfl hadd⟩
    rw [hrecord, snapshotAt, htake]
    rfl
  · obtain ⟨table, hadd, -⟩ := htAddNode_spec hnodes (⟨p, reqSzB, slopSzB, none⟩ : HPChunk)
    refine ⟨{ st with mallocList := table }, ?_, hadded rfl rfl hadd⟩
    rw [recordBlock, if_neg hheap, addChunk, hadd]

/-- **Massif.** -/
theorem msCalloc_iff (h : MsReady opts st before (m * szB % 2 ^ 64) malloced now) :
    MsServes opts st before m szB malloced ips now ↔ m * szB < 2 ^ 64 ∨ malloced = none := by
  unfold MsServes msCalloc
  have hreq : sizeT (m * szB) = m * szB % 2 ^ 64 := by
    unfold sizeT
    omega
  rw [hreq]
  cases malloced with
  | none => exact iff_of_true serves_null (.inr rfl)
  | some answer =>
    obtain ⟨p, actualSzB⟩ := answer
    obtain ⟨hnull, hle, hprofiled⟩ := h.usable p actualSzB rfl
    obtain ⟨st', hrecord, hblocks⟩ : ∃ st',
        recordBlock opts st p (m * szB % 2 ^ 64) (actualSzB - m * szB % 2 ^ 64) ips now = .ok st' ∧ _ :=
      recordBlock_returns h.blocks hprofiled
    have hrun : (newBlock opts st 0 (m * szB % 2 ^ 64) (some (p, actualSzB)) ips now).map Prod.swap = .ok (p, st') := by
      rw [newBlock, if_pos rfl, tlAssert_of hle, ok_bind, hrecord]
      rfl
    rw [hrun, or_iff_left (Option.some_ne_none _)]
    refine (serves_ok_iff (fun st' : Massif => MsBlocks st'.mallocList) hnull hblocks Blocks.unique).trans ?_
    exact ⟨And.left, fun hlt => ⟨hlt, by rw [Nat.mod_eq_of_lt hlt]⟩⟩

end Massif

/-! ## The three of them -/

section Calloc

open Memcheck Helgrind Massif

variable [Machine] {ε τ σ : Type}

/-- **When `calloc` keeps its promise**, in each of the three tools. -/
theorem calloc_iff {mcEnv : HeapEnv ε} {mcSt : HeapState ε} {hgEnv : AllocEnv ε τ σ} {hgSt : AllocState ε τ σ}
    {opts : Options} {msSt : Massif} {mcBlocks hgBlocks msBlocks : Multiset (Nat × Nat)} {tid nmemb size1 m szB : Nat}
    {malloced : Malloced} {ips : List Nat} {now : Moment} (hmc : McReady mcEnv mcSt mcBlocks)
    (hhg : HgReady hgEnv hgSt hgBlocks tid) (hms : MsReady opts msSt msBlocks (m * szB % 2 ^ 64) malloced now) :
    (McServes mcEnv mcSt mcBlocks nmemb size1 ↔
      isNegative nmemb = true ∨ isNegative size1 = true ∨
        mcEnv.cliMalloc mcEnv.cloAlignment (nmemb * size1 % wordMod) = 0 ∨ nmemb * size1 < wordMod / 4) ∧
    (HgServes hgEnv hgSt hgBlocks tid nmemb size1 ↔
      wordMod / 2 ≤ nmemb ∨ wordMod / 2 ≤ size1 ∨ nmemb * size1 % wordMod < wordMod / 2 ∧
        (nmemb * size1 < wordMod ∨ hgEnv.cliMalloc hgEnv.cloAlignment (nmemb * size1 % wordMod) = 0)) ∧
    (MsServes opts msSt msBlocks m szB malloced ips now ↔ m * szB < 2 ^ 64 ∨ malloced = none) :=
  ⟨mcCalloc_iff hmc, hgCliCalloc_iff hhg, msCalloc_iff hms⟩

/-- Memcheck before the client has allocated anything; the next block is at 4096. -/
def sampleMcEnv : HeapEnv Unit where
  al := bumpAlloc
  cloAlignment := 8
  cloMallocFill := -1
  cloFreeFill := -1
  cloFreelistVol := 10000000
  cliMalloc := fun _ _ => 4096
  chunkAt := 0x70000000
  context := ()
  ecuOf := fun _ => 4

/-- Memcheck's tables. -/
def sampleMcState : HeapState Unit where
  mallocList := htConstruct _
  mempoolList := fun _ => none
  freed := ⟨[], 0⟩
  secmaps := initSecMaps
  errors := []

/-- Helgrind, of which the shadow memory only says which bytes are new. -/
def sampleHgEnv : AllocEnv Unit Unit (Nat → Bool) where
  cloAlignment := 8
  cliMalloc := fun _ _ => 4096
  context := ()
  mapThreads := fun tid => if tid = 1 then some () else none
  evhNewMemHeap := fun shadow a len _ => .ok fun x => if a ≤ x ∧ x < a + len then true else shadow x

/-- Helgrind's table. -/
def sampleHgState : AllocState Unit Unit (Nat → Bool) := ⟨htConstruct _, fun _ => false⟩

omit [Machine] in
theorem blocks_htConstruct {α : Type} {key szB : α → Nat} : Blocks key szB (htConstruct α) 0 :=
  ⟨0, stores_htConstruct, rfl⟩

omit [Machine] in
theorem mcReady_sample : letI : Machine := x86Linux; McReady sampleMcEnv sampleMcState 0 := by
  let _ : Machine := x86Linux
  exact ⟨initSecMaps_inv, blocks_htConstruct, fun _ _ => (by decide : 4096 < 2 ^ 32), (by decide : 0x70000000 < 2 ^ 32),
    fun _ _ => vabits2At_init⟩

omit [Machine] in
theorem hgReady_sample : HgReady sampleHgEnv sampleHgState 0 1 :=
  ⟨blocks_htConstruct, by decide, ⟨(), rfl⟩, fun _ _ _ _ => ⟨_, rfl⟩⟩

omit [Machine] in
theorem msReady_sample {reqSzB : Nat} (h : reqSzB < 2 ^ 62) :
    MsReady defaultOptions (initMassif 100) 0 reqSzB (some (4096, reqSzB)) ⟨0, 0⟩ := by
  refine ⟨blocks_htConstruct, fun p actualSzB hanswer => ?_⟩
  obtain ⟨rfl, rfl⟩ := Prod.mk.inj (Option.some.inj hanswer)
  refine ⟨by decide, le_refl _, fun _ => ⟨⟨0, accounts_initMassif (by decide)⟩, ?_, ?_, ?_, ?_, ?_, ?_, ?_, fun _ => rfl, ?_⟩⟩
  · exact ⟨100, [], 0, by decide, tableInv_initTable, List.forall_mem_nil _, by decide, le_refl _⟩
  · exact le_refl _
  · exact (by decide : (0 : Int) ≤ maxTime)
  · exact Nat.zero_add _ ▸ h
  · rw [Nat.sub_self]
    decide
  · rw [Nat.sub_self]
    decide
  · decide
  · decide

omit [Machine] in
/-- Sixteen members of a hundred bytes. -/
theorem calloc_iff_sixteen : letI : Machine := x86Linux
    McServes sampleMcEnv sampleMcState 0 16 100 ∧ HgServes sampleHgEnv sampleHgState 0 1 16 100 ∧
      MsServes defaultOptions (initMassif 100) 0 16 100 (some (4096, 1600)) [1] ⟨0, 0⟩ := by
  let _ : Machine := x86Linux
  obtain ⟨hmc, hhg, hms⟩ : (McServes sampleMcEnv sampleMcState 0 16 100 ↔ _) ∧
      (HgServes sampleHgEnv sampleHgState 0 1 16 100 ↔ _) ∧
      (MsServes defaultOptions (initMassif 100) 0 16 100 (some (4096, 1600)) [1] ⟨0, 0⟩ ↔ _) :=
    calloc_iff mcReady_sample hgReady_sample (msReady_sample (show 16 * 100 % 2 ^ 64 < 2 ^ 62 by decide))
  exact ⟨hmc.mpr (by decide), hhg.mpr (by decide), hms.mpr (by decide)⟩

omit [Machine] in
/-- 65536 members of 65536 bytes, with words of 32 bits: the block that Memcheck hands out is
recorded with no bytes at all. -/
theorem calloc_wraps : letI : Machine := x86Linux
    (mcCalloc sampleMcEnv sampleMcState 65536 65536).holds (fun r => r.1 = 4096 ∧
      (htRemove HeapChunk.key r.2.mallocList 4096).map (fun c => c.1.szB) = some 0) = true ∧
    ¬ McServes sampleMcEnv sampleMcState 0 65536 65536 := by
  let _ : Machine := x86Linux
  refine ⟨by decide, fun hserves => ?_⟩
  exact absurd ((mcCalloc_iff mcReady_sample).mp hserves) (by decide)

end Calloc

end Valgrind.Tools
