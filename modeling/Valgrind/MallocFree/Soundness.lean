import Valgrind.MallocFree.Runs

/-!
# What the allocator promises

Three results about every state that a run reaches, in the terms of the source: the
boundary tags that `get_bszB` reads, the links that `get_next_b` and `get_prev_b` read,
and the size that `VG_(arena_payload_szB)` reports.

- `arena_invariant`: the representation invariant of an arena.
- `allocation_sound`: what a call returns is aligned, big enough, inside one superblock,
  and disjoint from all live payloads.
- `payload_frame`: no call changes a byte of a payload that stays live.

Each of them needs that sizes do not wrap around, and each is followed by a run in which
one does.
-/

namespace Valgrind

namespace MallocFree

open ByteMem Machine Ring Intervals

section

variable [Machine] (g : Config)

/-! ## The arena heap invariant -/

/-- `is_inuse_block(b)` returns true. -/
def InUse (m : Mem) (b : Nat) : Prop := isInuseBlock g m b = .ok true

/-- `get_next_b(b)` returns `c`, and `get_prev_b(c)` returns `b`. -/
def Follows (m : Mem) (b c : Nat) : Prop := getNextB g m b = .ok c ∧ getPrevB g m c = b

/-- The representation invariant of an arena. `sbs` lists the superblocks, each with the
addresses and sizes of its blocks; `lists` the free blocks on each free list, from its
head on. -/
structure ArenaInvariant (h : Heap) (sbs : List (Nat × List (Nat × Nat)))
    (lists : Nat → List Nat) : Prop where
  array : h.arena.sblocks = sbs.map Prod.fst
  sorted : h.arena.sblocks.Pairwise (· < ·)
  /-- The blocks tile the payload of the superblock. -/
  tiled : ∀ s ∈ sbs, Tiled Prod.fst (fun b => b.1 + b.2) (s.1 + sizeofSuperblock)
    (s.1 + sizeofSuperblock + nPayloadBytes g h.mem s.1) s.2
  /-- Low and high size words are equal and hold the size of the block. -/
  tags : ∀ s ∈ sbs, ∀ b ∈ s.2, getBszB g h.mem b.1 = .ok b.2 ∧
    loadW g h.mem (b.1 + hpOverheadSzB g) = loadW g h.mem (b.1 + (b.2 - wordB))
  coalesced : ∀ s ∈ sbs, s.2.IsChain fun b c => InUse g h.mem b.1 ∨ InUse g h.mem c.1
  head : ∀ lno < nMallocLists, h.arena.freelist lno = (lists lno).headD 0
  nodup : ∀ lno < nMallocLists, (lists lno).Nodup
  ring : ∀ lno < nMallocLists, (lists lno : Cycle Nat).Chain (Follows g h.mem)
  /-- The blocks on a list are the free blocks whose payload size belongs there. -/
  onList : ∀ lno < nMallocLists, ∀ b, b ∈ lists lno ↔
    (∃ s ∈ sbs, ∃ n, (b, n) ∈ s.2) ∧ ¬ InUse g h.mem b ∧
      (getPszB g h.arena h.mem b >>= pszBToListNo) = .ok lno
  loan : h.arena.bytesOnLoan = (((sbs.flatMap Prod.snd).filter fun b =>
    (isInuseBlock g h.mem b.1).holds id).map fun b => b.2 - overheadSzB g h.arena).sum

variable {g} {rz : Nat} {h h' : Heap} {s s' : State} {c d u : Cell} {sbs sbs' : List Sblock}
  {grant : Option (Nat × Nat)} {arrayOk : Bool} {p : Nat}

/-- Where a cell is, and how long. -/
def Cell.range (c : Cell) : Nat × Nat := (c.addr, c.size)

/-- The superblocks of a shape, as `ArenaInvariant` lists them. -/
def blocksOf (sbs : List Sblock) : List (Nat × List (Nat × Nat)) :=
  sbs.map fun s => (s.addr, s.cells.map Cell.range)

omit [Machine] in
theorem mem_blocksOf {x : Nat × List (Nat × Nat)} :
    x ∈ blocksOf sbs ↔ ∃ s ∈ sbs, (s.addr, s.cells.map Cell.range) = x := List.mem_map

omit [Machine] in
theorem tiled_range {p q : Nat} {cs : List Cell} (h : Tiled Cell.addr Cell.stop p q cs) :
    Tiled Prod.fst (fun b => b.1 + b.2) p q (cs.map Cell.range) := by
  induction cs generalizing p with
  | nil => exact h
  | cons c cs ih => exact ⟨h.1, h.2.1, ih h.2.2⟩

/-- The block of a cell that is not in limbo is in use iff the cell is. -/
theorem HeapOk.isInuseBlock_eq (O : HeapOk g rz h sbs) (hc : c ∈ cellsOf sbs) :
    isInuseBlock g h.mem c.addr = .ok (decide (c.st = .used)) := by
  have hlimbo := O.settled c hc
  rw [MallocFree.isInuseBlock_eq O.marked.rzOk (O.marked.fits c hc)
    (O.marked.tagged c hc hlimbo)]
  cases hst : c.st with
  | used => simp
  | free => simp
  | limbo => exact absurd hst hlimbo

theorem HeapOk.inUse_iff (O : HeapOk g rz h sbs) (hc : c ∈ cellsOf sbs) :
    InUse g h.mem c.addr ↔ c.st = .used := by
  rw [InUse, O.isInuseBlock_eq hc]
  simp

theorem HeapOk.coalesced_blocks (O : HeapOk g rz h sbs) {s : Sblock} (hs : s ∈ sbs) :
    (s.cells.map Cell.range).IsChain fun b c => InUse g h.mem b.1 ∨ InUse g h.mem c.1 := by
  rw [List.isChain_map]
  refine (O.coalesced s hs).imp_of_mem_imp fun b c hb hc hn => ?_
  have hb' := mem_cellsOf.mpr ⟨s, hs, hb⟩
  have hc' := mem_cellsOf.mpr ⟨s, hs, hc⟩
  change InUse g h.mem b.addr ∨ InUse g h.mem c.addr
  rw [O.inUse_iff hb', O.inUse_iff hc']
  have hlb := O.settled b hb'
  have hlc := O.settled c hc'
  cases hb'' : b.st <;> cases hc'' : c.st <;> simp_all

/-- A free list, read from its head. -/
theorem HeapOk.exists_list (O : HeapOk g rz h sbs) (lno : Nat) : ∃ l : List Nat,
    h.arena.freelist lno = l.headD 0 ∧ l.Nodup ∧ (l : Cycle Nat).Chain (Follows g h.mem) ∧
      ∀ b, b ∈ l ↔ ∃ c, OnList g rz (cellsOf sbs) lno c ∧ c.addr = b := by
  have hz := O.marked.rzOk
  obtain ⟨ring, hl, hm⟩ := O.marked.lists lno
  rcases hl.head with ⟨rfl, h0⟩ | ⟨c, hc, hhead⟩
  · refine ⟨[], h0, List.nodup_nil, Cycle.Chain.nil _, fun b => ?_⟩
    simp only [List.not_mem_nil, false_iff]
    rintro ⟨c, hc, -⟩
    exact Cycle.notMem_nil c ((hm c).mpr hc)
  · obtain ⟨l, rfl⟩ := exists_coe_cons hc
    have hcell : ∀ d ∈ c :: l, OnList g rz (cellsOf sbs) lno d := fun d hd =>
      (hm d).mp (Cycle.mem_coe_iff.mpr hd)
    have hlinks := hl.links
    refine ⟨(c :: l).map Cell.addr, by simpa using hhead, ?_, ?_, fun b => ?_⟩
    · refine (Cycle.nodup_coe_iff.mp hlinks.nodup).map_on fun x hx y hy he => ?_
      exact O.marked.apart.eq_of_addr O.marked.fits hz (hcell x hx).1 (hcell y hy).1 he
    · rw [← Cycle.map_coe, Cycle.chain_map]
      refine chain_imp_of_mem hlinks.chain fun x hx y hy hxy => ?_
      have hx' := hcell x (Cycle.mem_coe_iff.mp hx)
      have hy' := hcell y (Cycle.mem_coe_iff.mp hy)
      have Fx := O.marked.fits x hx'.1
      have Fy := O.marked.fits y hy'.1
      have Tx := O.marked.tagged x hx'.1 (by simp [hx'.2.1])
      have hnext : word g h.mem x .next = y.addr := hxy.1
      have hprev : word g h.mem y .prev = x.addr := hxy.2
      refine ⟨?_, ?_⟩
      · rw [getNextB_eq hz Fx Tx, hnext]
      · rw [getPrevB_eq hz Fy, hprev]
    · rw [List.mem_map]
      constructor
      · rintro ⟨d, hd, rfl⟩
        exact ⟨d, hcell d hd, rfl⟩
      · rintro ⟨d, hd, rfl⟩
        exact ⟨d, Cycle.mem_coe_iff.mp ((hm d).mpr hd), rfl⟩

/-- Which free list a block belongs on, as `mkFreeBlock` computes it. -/
theorem HeapOk.listOf_eq (O : HeapOk g rz h sbs) (hc : c ∈ cellsOf sbs) (lno : Nat) :
    (getPszB g h.arena h.mem c.addr >>= pszBToListNo) = .ok lno ↔ listNo (c.psz g rz) = lno := by
  have hz := O.marked.rzOk
  have F := O.marked.fits c hc
  have T := O.marked.tagged c hc (O.settled c hc)
  have hdvd : 8 ∣ c.psz g rz := Nat.dvd_sub F.dvd hz.dvd
  rw [getPszB_eq hz F T O.marked.rz_eq, ok_bind, pszBToListNo_of_dvd hdvd]
  simp

theorem HeapOk.onList_iff (O : HeapOk g rz h sbs) (lno b : Nat) :
    (∃ c, OnList g rz (cellsOf sbs) lno c ∧ c.addr = b) ↔
      (∃ s ∈ blocksOf sbs, ∃ n, (b, n) ∈ s.2) ∧ ¬ InUse g h.mem b ∧
        (getPszB g h.arena h.mem b >>= pszBToListNo) = .ok lno := by
  constructor
  · rintro ⟨c, ⟨hc, hfree, hno⟩, rfl⟩
    obtain ⟨s, hs, hcs⟩ := mem_cellsOf.mp hc
    refine ⟨⟨_, mem_blocksOf.mpr ⟨s, hs, rfl⟩, c.size, List.mem_map_of_mem hcs⟩, ?_, ?_⟩
    · rw [O.inUse_iff hc]
      simp [hfree]
    · exact (O.listOf_eq hc lno).mpr hno
  · rintro ⟨⟨x, hx, n, hb⟩, huse, hno⟩
    obtain ⟨s, hs, rfl⟩ := mem_blocksOf.mp hx
    obtain ⟨c, hcs, he⟩ := List.mem_map.mp hb
    have hc := mem_cellsOf.mpr ⟨s, hs, hcs⟩
    have hb' : c.addr = b := congrArg Prod.fst he
    subst hb'
    refine ⟨c, ⟨hc, ?_, (O.listOf_eq hc lno).mp hno⟩, rfl⟩
    rw [O.inUse_iff hc] at huse
    have hlimbo := O.settled c hc
    cases hst : c.st with
    | used => exact absurd hst huse
    | free => rfl
    | limbo => exact absurd hst hlimbo

theorem HeapOk.loan_blocks (O : HeapOk g rz h sbs) :
    h.arena.bytesOnLoan = ((((blocksOf sbs).flatMap Prod.snd).filter fun b =>
      (isInuseBlock g h.mem b.1).holds id).map fun b => b.2 - overheadSzB g h.arena).sum := by
  have hflat : (blocksOf sbs).flatMap Prod.snd = (cellsOf sbs).map Cell.range := by
    simp [blocksOf, cellsOf, List.flatMap_map, List.map_flatMap]
  have huse : (cellsOf sbs).filter (fun c => (isInuseBlock g h.mem c.range.1).holds id) =
      (cellsOf sbs).filter fun c => c.st = .used := by
    refine List.filter_congr fun c hc => ?_
    change (isInuseBlock g h.mem c.addr).holds id = _
    rw [O.isInuseBlock_eq hc]
    rfl
  rw [hflat, List.filter_map, List.map_map, O.loan_eq, loan]
  simp only [Function.comp_def, huse]
  rw [overheadSzB_eq, O.marked.rz_eq]
  rfl

/-- A heap between calls meets the invariant. -/
theorem HeapOk.arenaInvariant (O : HeapOk g rz h sbs) :
    ∃ lists, ArenaInvariant g h (blocksOf sbs) lists := by
  choose lists hhead hnodup hring hon using O.exists_list
  have harray : h.arena.sblocks = (blocksOf sbs).map Prod.fst := by
    rw [O.sup.array]
    simp [blocksOf, Sblock.ext]
  refine ⟨lists, harray, ?_, ?_, ?_, ?_, fun lno _ => hhead lno, fun lno _ => hnodup lno,
    fun lno _ => hring lno, fun lno _ b => (hon lno b).trans (O.onList_iff lno b), O.loan_blocks⟩
  · rw [O.sup.array, List.pairwise_map]
    have hsz := sizeofSuperblock_bounds.1
    have hword : wordB = 4 ∨ wordB = 8 := word_ok
    exact O.sup.order.imp fun hxy => by omega
  · intro x hx
    obtain ⟨s, hs, rfl⟩ := mem_blocksOf.mp hx
    have hn : nPayloadBytes g h.mem s.addr = s.n := O.sup.header _ (List.mem_map_of_mem hs)
    dsimp only
    rw [hn]
    exact tiled_range (O.tiled s hs)
  · intro x hx b hb
    obtain ⟨s, hs, rfl⟩ := mem_blocksOf.mp hx
    obtain ⟨c, hcs, rfl⟩ := List.mem_map.mp hb
    have hc := mem_cellsOf.mpr ⟨s, hs, hcs⟩
    have T := O.marked.tagged c hc (O.settled c hc)
    exact ⟨getBszB_eq O.marked.rzOk (O.marked.fits c hc) T, T.lo.trans T.hi.symm⟩
  · intro x hx
    obtain ⟨s, hs, rfl⟩ := mem_blocksOf.mp hx
    exact O.coalesced_blocks hs

/-- **The arena heap invariant.** It holds in every state that a run reaches, if no size that
`arena_memalign` or `arena_realloc` computes on the way wraps around. -/
theorem arena_invariant {clientmem : Bool} {rzSzB minSblockSzB : Nat} {a : Arena}
    (hinit : arenaInit g clientmem rzSzB minSblockSzB = .ok a)
    (hrun : Reached g (Sound g) a s) :
    ∃ sbs lists, ArenaInvariant g s.heap sbs lists := by
  obtain ⟨sbs, T⟩ := reached_tracked hinit hrun
  exact ⟨blocksOf sbs, T.ok.arenaInvariant⟩

end

/-- The first block of a tiling, as its boundary tag has it. -/
theorem first_block [Machine] {g : Config} {m : Mem} {p q n : Nat} {bs : List (Nat × Nat)}
    (h : Tiled Prod.fst (fun b => b.1 + b.2) p q bs)
    (htags : ∀ b ∈ bs, getBszB g m b.1 = .ok b.2) (hpq : p < q)
    (hn : (getBszB g m p).holds (· = n) = true) :
    ∃ bs', Tiled Prod.fst (fun b => b.1 + b.2) (p + n) q bs' ∧ ∀ b ∈ bs', b ∈ bs := by
  cases bs with
  | nil => exact absurd h (Nat.ne_of_lt hpq)
  | cons b bs =>
    obtain ⟨rfl, -, htail⟩ := h
    have hb : b.2 = n := by simpa [htags b (by simp), Result.holds] using hn
    subst hb
    exact ⟨bs, htail, fun c hc => by simp [hc]⟩

/-- Two blocks, the first of them given back. -/
def mallocFreeRun : ClientRun (@Sound x86Linux plainConfig) where
  events :=
    [.call (.malloc 1 48) (some (1048576, 0x10000000)) true,
      .call (.malloc 1 100) none true, .call (.free 0x10000020) none true]
  test := fun s => s.live = [0x10000070]
  passes := by decide +kernel

/-- Two blocks, the first of them given back. -/
theorem arena_invariant_mallocFree :
    letI : Machine := x86Linux
    ∃ s, Reached plainConfig (Sound plainConfig) clientArena s ∧ s.live = [0x10000070] ∧
      ∃ sbs lists, ArenaInvariant plainConfig s.heap sbs lists := by
  obtain ⟨s, hs, ht⟩ := mallocFreeRun.exists_reached
  let _ : Machine := x86Linux
  exact ⟨s, hs, of_decide_eq_true ht, arena_invariant arenaInit_clientArena hs⟩

/-- A superblock whose upper half is made a block of 4 GB. -/
def memalignWrapRun : ClientRun (@Admissible x86Linux plainConfig) where
  events := [.call (.memalign 1 1048576 0xFFEFFFE0) (some (1048576, 0x10000000)) true]
  test := fun s => letI : Machine := x86Linux
    s.heap.arena.sblocks = [0x10000000] &&
    nPayloadBytes plainConfig s.heap.mem 0x10000000 = 0xFFFF0 &&
    (getBszB plainConfig s.heap.mem 0x10000010).holds (· = 0xFFFE0) &&
    (getBszB plainConfig s.heap.mem 0x100FFFF0).holds (· = 0xFFF00040)
  passes := by decide +kernel

/-- `arena_memalign` of almost everything at an alignment of 1 MB. The size of the base
block wraps around to 0, and the upper half of a block of 1 MB is made 4 GB long. -/
theorem arena_invariant_memalignWrap :
    letI : Machine := x86Linux
    ∃ s, Reached plainConfig (Admissible plainConfig) clientArena s ∧
      ¬ ∃ sbs lists, ArenaInvariant plainConfig s.heap sbs lists := by
  obtain ⟨s, hs, ht⟩ := memalignWrapRun.exists_reached
  let _ : Machine := x86Linux
  refine ⟨s, hs, ?_⟩
  simp only [memalignWrapRun, Bool.and_eq_true, decide_eq_true_eq] at ht
  obtain ⟨⟨⟨hsb, hn⟩, h₁⟩, h₂⟩ := ht
  rintro ⟨sbs, lists, I⟩
  obtain ⟨⟨sb, bs⟩, hmem, rfl⟩ : ∃ x ∈ sbs, x.1 = 0x10000000 := by
    have harray := I.array
    rw [hsb] at harray
    have : 0x10000000 ∈ sbs.map Prod.fst := by simp [← harray]
    exact List.mem_map.mp this
  have htiled := I.tiled _ hmem
  have htags := fun b hb => (I.tags _ hmem b hb).1
  dsimp only at htiled htags hn
  rw [hn] at htiled
  obtain ⟨bs₁, ht₁, hsub⟩ := first_block htiled htags (by decide) h₁
  obtain ⟨bs₂, ht₂, -⟩ := first_block ht₁ (fun b hb => htags b (hsub b hb)) (by decide) h₂
  exact absurd ht₂.le (by decide)

section

variable [Machine] {g : Config} {rz : Nat} {h' : Heap} {s : State} {u : Cell}
  {sbs sbs' : List Sblock} {grant : Option (Nat × Nat)} {arrayOk : Bool} {p : Nat}

/-! ## Allocation -/

/-- The alignment and the size that a call asks for. -/
def Call.request : Call → Option (Nat × Nat)
  | .malloc _ req => some (minMallocSzB, req)
  | .free _ => none
  | .memalign _ align req => some (align, req)
  | .realloc _ _ _ => none

variable (g) in
/-- What is right about a payload pointer `p` that a call which asked for `req` bytes at
alignment `align` returned, when `live` were the payload pointers before it. -/
structure AllocationOk (h' : Heap) (live : List Nat) (align req p : Nat) : Prop where
  aligned : align ∣ p
  /-- The payload is big enough, lies in one superblock, and away from all others. -/
  payload : ∃ n, arenaPayloadSzB g h' p = .ok n ∧ req ≤ n ∧
    (∃ sb ∈ h'.arena.sblocks, payloadBytes sb ≤ p ∧
      p + n ≤ payloadBytes sb + nPayloadBytes g h'.mem sb) ∧
    ∀ q ∈ live, ∃ n', arenaPayloadSzB g h' q = .ok n' ∧ (p + n ≤ q ∨ q + n' ≤ p)

/-- The size and the place of what an allocation returns. -/
theorem Allocated.payload_ok (T : Tracked g rz s sbs) (hA : Allocated g rz s.heap sbs u h' sbs')
    {req : Nat} (hreq : req ≤ u.psz g rz) :
    ∃ n, arenaPayloadSzB g h' (u.payload g rz) = .ok n ∧ req ≤ n ∧
      (∃ sb ∈ h'.arena.sblocks, payloadBytes sb ≤ u.payload g rz ∧
        u.payload g rz + n ≤ payloadBytes sb + nPayloadBytes g h'.mem sb) ∧
      ∀ q ∈ s.live, ∃ n', arenaPayloadSzB g h' q = .ok n' ∧
        (u.payload g rz + n ≤ q ∨ q + n' ≤ u.payload g rz) := by
  have O := hA.ok
  have hu := (O.marked.fits u hA.mem).payload_bounds
  refine ⟨u.psz g rz, O.arenaPayloadSzB_eq hA.mem hA.used, hreq, ?_, ?_⟩
  · obtain ⟨t, ht, hut⟩ := mem_cellsOf.mp hA.mem
    have hext : t.ext ∈ sbs'.map Sblock.ext := List.mem_map_of_mem ht
    have hin : t.addr ∈ h'.arena.sblocks := by
      rw [O.sup.array]
      exact List.mem_map_of_mem hext
    have hn : nPayloadBytes g h'.mem t.addr = t.n := O.sup.header _ hext
    have hroom := (O.sup.inside _ hext).2
    change t.addr + sizeofSuperblock + t.n + pageSzB ≤ wordMod at hroom
    have hpage : pageSzB = 4096 ∨ pageSzB = 65536 := page_ok
    have hstart : payloadBytes t.addr = t.start := addW_of_lt (by omega)
    have hb := O.toShaped.cell_bounds ht hut
    rw [← hn] at hb
    refine ⟨t.addr, hin, ?_, ?_⟩ <;> omega
  · intro q hq
    obtain ⟨d, hd, hst, rfl⟩ := (T.live_iff q).mp hq
    have hd' := (hA.others d hst).mpr (.inr hd)
    have hdb := (O.marked.fits d hd').payload_bounds
    have hne : u ≠ d := fun he => hA.fresh (he ▸ hd)
    refine ⟨d.psz g rz, O.arenaPayloadSzB_eq hd' hst, ?_⟩
    have := O.marked.apart.stop_le hA.mem hd' hne
    omega

/-- **Allocation soundness.** In every state that a run reaches, if no size that
`arena_memalign` or `arena_realloc` computes on the way wraps around, whatever
`arena_malloc` or `arena_memalign` return for a size whose rounding does not wrap around
either is aligned, big enough, in one superblock, and disjoint from every live payload. -/
theorem allocation_sound {clientmem : Bool} {rzSzB minSblockSzB : Nat} {a : Arena}
    (hinit : arenaInit g clientmem rzSzB minSblockSzB = .ok a) (hrun : Reached g (Sound g) a s)
    {c : Call} (hS : Sound g s (.call c grant arrayOk)) {align req : Nat}
    (hreq : c.request = some (align, req)) (hfit : req + 7 < wordMod)
    (hcall : c.run g s.heap grant arrayOk = .ok (p, h')) (hp : p ≠ 0) :
    AllocationOk g h' s.live align req p := by
  obtain ⟨sbs, T⟩ := reached_tracked hinit hrun
  obtain ⟨⟨hg, -⟩, hw⟩ := hS
  cases c with
  | malloc cc req' =>
    simp only [Call.request, Option.some.injEq, Prod.mk.injEq] at hreq
    obtain ⟨rfl, rfl⟩ := hreq
    rcases arenaMalloc_spec T.ok hg.sbrkOk hcall with ⟨rfl, -⟩ | ⟨k, u, rest, hH, rfl, h8, hle⟩
    · exact absurd rfl hp
    · exact ⟨h8, hH.allocated.payload_ok T (hle hfit)⟩
  | free ptr => simp [Call.request] at hreq
  | memalign cc align' req' =>
    simp only [Call.request, Option.some.injEq, Prod.mk.injEq] at hreq
    obtain ⟨rfl, rfl⟩ := hreq
    simp only [NoWrap, overheadSzB_eq, T.ok.marked.rz_eq] at hw
    rcases arenaMemalign_spec T.ok hg.sbrkOk hw hcall with ⟨rfl, -⟩ | ⟨u, sbs', hA, rfl, hdvd, hle⟩
    · exact absurd rfl hp
    · exact ⟨hdvd, hA.payload_ok T (Nat.le_trans (le_alignReqPszB hfit) hle)⟩
  | realloc cc ptr req' => simp [Call.request] at hreq

end

/-- One block, after which 100 bytes at an alignment of 64 fit. -/
def memalignRun : ClientRun (@Sound x86Linux plainConfig) where
  events := [.call (.malloc 1 48) (some (1048576, 0x10000000)) true]
  test := fun s => letI : Machine := x86Linux
    Sound plainConfig s (.call (.memalign 1 64 100) none true) &&
    ((Call.memalign 1 64 100).run plainConfig s.heap none true).holds (·.1 = 0x100000C0)
  passes := by decide +kernel

/-- 100 bytes at an alignment of 64 after a block of 48. -/
theorem allocation_sound_memalign :
    letI : Machine := x86Linux
    ∃ s h', Reached plainConfig (Sound plainConfig) clientArena s ∧
      (Call.memalign 1 64 100).run plainConfig s.heap none true = .ok (0x100000C0, h') ∧
      AllocationOk plainConfig h' s.live 64 100 0x100000C0 := by
  obtain ⟨s, hs, ht⟩ := memalignRun.exists_reached
  let _ : Machine := x86Linux
  simp only [memalignRun, Bool.and_eq_true, decide_eq_true_eq] at ht
  obtain ⟨⟨p, h'⟩, hcall, hp⟩ := Result.exists_of_holds ht.2
  have hp' : p = 0x100000C0 := of_decide_eq_true hp
  subst hp'
  exact ⟨s, h', hs, hcall, allocation_sound arenaInit_clientArena hs ht.1 rfl (by decide) hcall
    (by decide)⟩

/-- `arena_malloc` of the largest size it accepts. The size rounds up to 0, and a block with
an empty payload is returned. -/
theorem allocation_sound_mallocWrap :
    letI : Machine := x86Linux
    ∃ h', 0xFFFFFFFE < maxPszB ∧ GrantOk plainConfig clientStart.heap (some (1048576, 0x10000000)) ∧
      (Call.malloc 1 0xFFFFFFFE).run plainConfig clientStart.heap
        (some (1048576, 0x10000000)) true = .ok (0x10000020, h') ∧
      ¬ AllocationOk plainConfig h' clientStart.live minMallocSzB 0xFFFFFFFE 0x10000020 := by
  have hgrant : letI : Machine := x86Linux
      GrantOk plainConfig clientStart.heap (some (1048576, 0x10000000)) := by decide
  have hrun : letI : Machine := x86Linux
      ((Call.malloc 1 0xFFFFFFFE).run plainConfig clientStart.heap
        (some (1048576, 0x10000000)) true).holds (fun x => x.1 = 0x10000020 &&
          (arenaPayloadSzB plainConfig x.2 0x10000020).holds (· = 0)) = true := by
    decide +kernel
  let _ : Machine := x86Linux
  obtain ⟨⟨p, h'⟩, hcall, hp⟩ := Result.exists_of_holds hrun
  simp only [Bool.and_eq_true, decide_eq_true_eq] at hp
  obtain ⟨rfl, hsize⟩ := hp
  refine ⟨h', by decide, hgrant, hcall, ?_⟩
  rintro ⟨-, n, hn, hle, -⟩
  rw [hn] at hsize
  have h0 : n = 0 := of_decide_eq_true hsize
  rw [h0] at hle
  exact absurd hle (by decide)

section

variable [Machine] {g : Config} {rz : Nat} {h' : Heap} {s : State} {sbs : List Sblock}
  {grant : Option (Nat × Nat)} {arrayOk : Bool} {p : Nat}

/-! ## The frame -/

/-- A call leaves the payloads of the blocks alone that are live before and after it. -/
theorem Tracked.frame (T : Tracked g rz s sbs) {c : Call} (hE : Effect g rz s sbs c p h') {q : Nat}
    (hq : q ∈ s.live) (hq' : q ∈ c.after s.live p) {x : Nat} (hx : InPayload g s.heap q x) :
    h'.mem x = s.heap.mem x := by
  obtain ⟨d, hd, hst, rfl⟩ := (T.live_iff q).mp hq
  obtain ⟨hlo, hhi⟩ := (T.ok.inPayload_iff hd hst).mp hx
  have hb := (T.ok.marked.fits d hd).payload_bounds
  have hx₁ : d.addr ≤ x := by omega
  have hx₂ : x < d.stop := by omega
  cases hE with
  | none hh => rw [hh]
  | alloc u sbs' hA => exact hA.frame d hd hst x hx₁ hx₂
  | free y sbs' hy hyst hG hlive =>
    rw [hlive] at hq'
    have hne : d ≠ y := fun he => (T.nodup.mem_erase_iff.mp hq').1 (he ▸ rfl)
    exact hG.frame d hd hst hne x hx₁ hx₂
  | move y u sbs' cc req hy hyst hM hc hp =>
    by_cases hne : d = y
    · -- a block that moves stays live only if it comes back to where it was
      subst hne hc
      have hback : p = d.payload g rz := by
        by_contra hp'
        simp only [Call.after, if_neg hp'] at hq'
        split at hq'
        · exact (T.nodup.mem_erase_iff.mp hq').1 rfl
        · rcases List.mem_cons.mp hq' with he | he
          · exact hp' he.symm
          · exact (T.nodup.mem_erase_iff.mp he).1 rfl
      have hcopy := hM.copied (x - d.payload g rz) (by omega)
      rw [← hp, hback] at hcopy
      rwa [Nat.add_sub_cancel' hlo] at hcopy
    · exact hM.frame d hd hst hne x hx₁ hx₂

/-- What `arena_realloc` copies into the block it moves to. -/
theorem Tracked.copied (T : Tracked g rz s sbs) {cc ptr req : Nat}
    (hptr : ptr ∈ s.live) (hE : Effect g rz s sbs (.realloc cc ptr req) p h') (hp : p ≠ ptr)
    (hp0 : p ≠ 0) {i : Nat} (hi : InPayload g s.heap ptr (ptr + i)) :
    h'.mem (p + i) = s.heap.mem (ptr + i) := by
  cases hE with
  | none hh hlive hstay => exact absurd (hstay cc ptr req rfl) hp
  | alloc u sbs' hA _ _ hnew => exact absurd rfl (hnew cc ptr req)
  | free y sbs' hy hyst hG hlive h0 => exact absurd h0 hp0
  | move y u sbs' cc' req' hy hyst hM hc hu =>
    simp only [Call.realloc.injEq] at hc
    obtain ⟨-, rfl, -⟩ := hc
    have hlt := ((T.ok.inPayload_iff hy hyst).mp hi).2
    rw [hu]
    exact hM.copied i (by omega)

/-- **The payload frame.** In every state that a run reaches, if no size that
`arena_memalign` or `arena_realloc` computes on the way or in the call itself wraps around,
a call changes no byte of a payload that is live before and after it, and the payload that
`arena_realloc` moves arrives unchanged. -/
theorem payload_frame {clientmem : Bool} {rzSzB minSblockSzB : Nat} {a : Arena}
    (hinit : arenaInit g clientmem rzSzB minSblockSzB = .ok a) (hrun : Reached g (Sound g) a s)
    {c : Call} (hS : Sound g s (.call c grant arrayOk))
    (hcall : c.run g s.heap grant arrayOk = .ok (p, h')) :
    (∀ q ∈ s.live, q ∈ c.after s.live p → ∀ x, InPayload g s.heap q x →
      h'.mem x = s.heap.mem x) ∧
    ∀ cc ptr req, c = .realloc cc ptr req → p ≠ ptr → p ≠ 0 →
      ∀ i, InPayload g s.heap ptr (ptr + i) → h'.mem (p + i) = s.heap.mem (ptr + i) := by
  obtain ⟨sbs, T⟩ := reached_tracked hinit hrun
  have hE := T.effect hS hcall
  refine ⟨fun q hq hq' x hx => T.frame hE hq hq' hx, ?_⟩
  rintro cc ptr req rfl hp hp0 i hi
  exact T.copied hS.1.2 hE hp hp0 hi

end

/-- Two blocks of 64 bytes, with a byte written to the first one. -/
def reallocRun : ClientRun (@Sound x86Linux plainConfig) where
  events :=
    [.call (.malloc 1 64) (some (1048576, 0x10000000)) true, .call (.malloc 1 64) none true,
      .poke (0x10000020 + 5) 7]
  test := fun s => letI : Machine := x86Linux
    Sound plainConfig s (.call (.realloc 1 0x10000020 200) none true) &&
    ((Call.realloc 1 0x10000020 200).run plainConfig s.heap none true).holds
      (·.1 = 0x100000E0) &&
    InPayload plainConfig s.heap 0x10000020 (0x10000020 + 5) &&
    s.heap.mem (0x10000020 + 5) = 7
  passes := by decide +kernel

/-- A block of 64 bytes moves to one of 200. -/
theorem payload_frame_realloc :
    letI : Machine := x86Linux
    ∃ s h', Reached plainConfig (Sound plainConfig) clientArena s ∧
      (Call.realloc 1 0x10000020 200).run plainConfig s.heap none true = .ok (0x100000E0, h') ∧
      s.heap.mem (0x10000020 + 5) = 7 ∧ h'.mem (0x100000E0 + 5) = 7 := by
  obtain ⟨s, hs, ht⟩ := reallocRun.exists_reached
  let _ : Machine := x86Linux
  simp only [reallocRun, Bool.and_eq_true, decide_eq_true_eq] at ht
  obtain ⟨⟨⟨hS, hrun⟩, hin⟩, h7⟩ := ht
  obtain ⟨⟨p, h'⟩, hcall, hp⟩ := Result.exists_of_holds hrun
  have hp' : p = 0x100000E0 := of_decide_eq_true hp
  subst hp'
  refine ⟨s, h', hs, hcall, h7, ?_⟩
  have hcopy := (payload_frame arenaInit_clientArena hs hS hcall).2 1 0x10000020 200 rfl
    (by decide) (by decide) 5 hin
  rw [hcopy]
  exact h7

/-- A block of 64 bytes, a freed block behind it, and a third one. -/
def reallocWrapRun : ClientRun (@Admissible x86Linux plainConfig) where
  events :=
    [.call (.malloc 1 64) (some (1048576, 0x10000000)) true, .call (.malloc 1 0) none true,
      .call (.malloc 1 64) none true, .poke (0x10000020 + 12) 0x20, .poke (0x10000020 + 40) 1,
      .call (.free 0x10000080) none true]
  test := fun s => letI : Machine := x86Linux
    Admissible plainConfig s (.call (.realloc 1 0x10000020 0xFFFFFFFE) none true) &&
    s.live = [0x100000A0, 0x10000020] &&
    InPayload plainConfig s.heap 0x100000A0 0x100000A8 &&
    ((Call.realloc 1 0x10000020 0xFFFFFFFE).run plainConfig s.heap none true).holds
      (fun x => x.1 = 0x10000080 && x.2.mem 0x100000A8 ≠ s.heap.mem 0x100000A8)
  passes := by decide +kernel

/-- `arena_realloc` to the largest size it accepts. The block it moves to has an empty
payload, and the 64 bytes of the old one are copied over its neighbours. -/
theorem payload_frame_reallocWrap :
    letI : Machine := x86Linux
    ∃ s h', Reached plainConfig (Admissible plainConfig) clientArena s ∧
      Admissible plainConfig s (.call (.realloc 1 0x10000020 0xFFFFFFFE) none true) ∧
      (Call.realloc 1 0x10000020 0xFFFFFFFE).run plainConfig s.heap none true =
        .ok (0x10000080, h') ∧
      0x100000A0 ∈ s.live ∧
      0x100000A0 ∈ (Call.realloc 1 0x10000020 0xFFFFFFFE).after s.live 0x10000080 ∧
      InPayload plainConfig s.heap 0x100000A0 0x100000A8 ∧
      h'.mem 0x100000A8 ≠ s.heap.mem 0x100000A8 := by
  obtain ⟨s, hs, ht⟩ := reallocWrapRun.exists_reached
  let _ : Machine := x86Linux
  simp only [reallocWrapRun, Bool.and_eq_true, decide_eq_true_eq] at ht
  obtain ⟨⟨⟨hadm, hlive⟩, hin⟩, hrun⟩ := ht
  obtain ⟨⟨p, h'⟩, hcall, hp⟩ := Result.exists_of_holds hrun
  simp only [Bool.and_eq_true, decide_eq_true_eq] at hp
  obtain ⟨rfl, hne⟩ := hp
  refine ⟨s, h', hs, hadm, hcall, ?_, ?_, hin, hne⟩
  · simp [hlive]
  · simp [Call.after, hlive]

end MallocFree

end Valgrind
