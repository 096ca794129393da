import Valgrind.Aspacemgr.Window

/-!
# Marking the client heap

`newSuperblock` (in `m_mallocfree.c`) obtains the superblocks of the client arena
from the address space manager and then marks the segment at the superblock's
address as client heap, so that the leak checker does not take it for root
memory. By then `add_segment` has merged the new segment with its neighbours, if
they have the same permissions; the flag goes to all of them.

`clientHeap_exact` says when the marking is exact nevertheless: when no such
neighbour has a page outside the heap. `clientHeap_exact_neighbour` is a run
where one has: an executable anonymous mapping of the client's, followed by the
first allocation.
-/

namespace Valgrind.Aspacemgr

open Machine Intervals

/-- The address space, with the superblocks of the client arena. -/
structure HeapState where
  am : Aspacem
  superblocks : List (Nat × Nat)

/-- The page at `x` belongs to a superblock. -/
def HeapState.InSuperblock (s : HeapState) (x : Nat) : Prop :=
  ∃ b ∈ s.superblocks, b.1 ≤ x ∧ x < b.1 + b.2

section ClientHeap

variable [Machine]

/-- Client anonymous mmaps, in the three ways they reach the address space
manager, and superblock allocations of `cszB` bytes, which `newSuperblock` has
rounded up to whole pages. -/
inductive HeapOp where
  | notifyAnonMmap (a len : Word) (prot flags : Nat) (fd : FdInfo) (offset : BitVec 64)
  | mmapAnonFixed (start length : Word) (prot : Nat) (kres : SysRes)
  | mmapAnonFloat (length : Word) (prot : Nat) (kres : SysRes)
  | superblock (cszB : Word) (pages : isPageAligned cszB) (kres : SysRes)

/-- What `newSuperblock` does to the address space, for an arena in client
memory: `cszB` is the size after rounding. Yields the superblock's address. -/
def newSuperblockClient (am : Aspacem) (cszB : Nat) (kres : SysRes) :
    Result (Aspacem × Option Nat) := do
  let (am, sres) ← amSbrkAnonFloatClient am cszB protRWX kres
  match sres with
  | .error _ => return (am, none)
  | .success sb => do
    let seg ← amFindNsegment am sb
    let am ← amSetSegmentIsCHIfSkAnonC am seg
    return (am, some sb)

/-- One step. `MAP_ANONYMOUS` is set in the flags of a client anonymous mmap. -/
def HeapState.step (s : HeapState) : HeapOp → Result HeapState
  | .notifyAnonMmap a len prot flags fd offset => do
    let (am, _) ← amNotifyClientMmap s.am a len prot (flags ||| 0x20) fd offset
    return { s with am := am }
  | .mmapAnonFixed start length prot kres => do
    let (am, _) ← amMmapAnonFixedClient s.am start length prot kres
    return { s with am := am }
  | .mmapAnonFloat length prot kres => do
    let (am, _) ← amMmapAnonFloatClient s.am length prot kres
    return { s with am := am }
  | .superblock cszB _ kres => do
    let (am, sb) ← newSuperblockClient s.am cszB kres
    return match sb with
      | none => { s with am := am }
      | some sb => ⟨am, (sb, cszB.val) :: s.superblocks⟩

/-- Anonymous client memory with all permissions that is not marked as heap:
what a new superblock's segment can be merged with. -/
def MergesWithHeap (am : Aspacem) (x : Nat) : Prop :=
  ∃ p, pageMap am.nsegments x = some p ∧ p.kind = .skAnonC ∧ p.hasR = true ∧ p.hasW = true ∧
    p.hasX = true ∧ p.isCH = false

/-- The condition on an allocation: every page of the stretch of such memory that
abuts the advised range, on either side, belongs to a superblock already. -/
def HeapOp.abutsHeapOnly (s : HeapState) : HeapOp → Prop
  | .superblock cszB _ _ => ∀ advised,
    amGetAdvisory s.am ⟨.mAny, 0, cszB⟩ true = .ok (some advised) →
      (∀ x, x < advised → (∀ y, x ≤ y → y < advised → MergesWithHeap s.am y) →
        s.InSuperblock x) ∧
      (∀ x, advised + cszB ≤ x →
        (∀ y, advised + cszB ≤ y → y ≤ x → MergesWithHeap s.am y) →
        s.InSuperblock x)
  | _ => True

/-- The invariant: marked pages belong to superblocks. -/
structure HeapInv (s : HeapState) : Prop where
  inv : ArrayInv s.am
  marked : ∀ x p, pageMap s.am.nsegments x = some p → p.isCH = true → s.InSuperblock x

variable {am am' : Aspacem} {s s' : HeapState} {seg : NSegment} {x : Nat}

/-! ## Mapping -/

/-- Mapping a segment that is not marked marks no page. -/
theorem Added.heapInv {sbs : List (Nat × Nat)} (hinv : HeapInv ⟨am, sbs⟩)
    (h : Added am seg am') (hch : seg.isCH = false) : HeapInv ⟨am', sbs⟩ := by
  refine ⟨h.inv, fun x p hp hx => ?_⟩
  simp only at hp
  rw [h.map] at hp
  split_ifs at hp with hin
  · rw [Option.some.injEq] at hp
    rw [← hp, NSegment.attrsAt] at hx
    exact absurd (hch.symm.trans hx) Bool.false_ne_true
  · exact hinv.marked x p hp hx

theorem mmapGuarded_heapInv {sbs : List (Nat × Nat)} (hinv : HeapInv ⟨am, sbs⟩)
    {req : MapRequest} {forClient : Bool} {kres r : SysRes} {fd : Option FdInfo} {c : Prop}
    [Decidable c] (hch : seg.isCH = false)
    (h : (if c then .ok (am, eINVAL) else mmapAdvised am req forClient kres fd seg)
      = (.ok (am', r) : Result (Aspacem × SysRes))) : HeapInv ⟨am', sbs⟩ := by
  split_ifs at h
  · rw [Except.ok.injEq, Prod.mk.injEq] at h
    exact h.1 ▸ hinv
  · obtain ⟨rfl, -⟩ | ⟨advised, seg', -, -, hadd, -, -, -, hch', -⟩ :=
      mmapAdvised_spec hinv.inv.wf h
    · exact hinv
    · exact hadd.heapInv hinv (hch'.trans hch)

/-! ## Allocating a superblock -/

/-- A range whose last byte lies above its first did not wrap around. -/
theorem lastByte_of_lt {start len e : Nat} (hlen : 0 < len) (hl : len < wordMod)
    (he : e = lastByte start len) (hlt : start < e) : e + 1 = start + len := by
  have hew : e < wordMod := he ▸ lastByte_lt
  unfold lastByte at he
  rcases Nat.lt_trichotomy (start + len) wordMod with h | h | h
  · rw [addW_of_lt h, subW_of_le h (by omega)] at he
    omega
  · rw [addW_of_ge (by omega) hl (by omega), h, Nat.sub_self, subW_of_gt (by omega) (by omega)]
      at he
    omega
  · rw [addW_of_ge (by omega) hl (by omega), subW_of_le (by omega) (by omega)] at he
    omega

/-- What a successful allocation did: a fresh segment at the advised address, and
the segment found there afterwards marked. -/
theorem newSuperblockClient_spec {cszB : Nat} {kres : SysRes} {r : Option Nat}
    (hinv : ArrayInv am) (h : newSuperblockClient am cszB kres = .ok (am', r)) :
    (am' = am ∧ r = none) ∨
    ∃ sb seg mid found, r = some sb ∧
      0 < cszB ∧ amGetAdvisory am ⟨.mAny, 0, cszB⟩ true = .ok (some sb) ∧
      Added am seg mid ∧ seg.start = sb ∧ seg.end_ = lastByte sb (pgRoundUp cszB) ∧
      seg.kind = .skAnonC ∧ seg.isCH = false ∧ seg.hasR = true ∧ seg.hasW = true ∧
      seg.hasX = true ∧ found ∈ mid.nsegments ∧ found.start ≤ sb ∧ sb ≤ found.end_ ∧
      Edited mid found.start found.end_ PageAttrs.markCH am' := by
  simp only [newSuperblockClient, bind_eq_ok, Prod.exists] at h
  obtain ⟨mid, sres, hsbrk, h⟩ := h
  have hcases : (mid = am ∧ ∃ e, sres = .error e) ∨ ∃ sb seg, sres = .success sb ∧
      0 < cszB ∧ amGetAdvisory am ⟨.mAny, 0, cszB⟩ true = .ok (some sb) ∧ Added am seg mid ∧
      seg.start = sb ∧ seg.end_ = lastByte sb (pgRoundUp cszB) ∧
      seg.kind = .skAnonC ∧ seg.isCH = false ∧ seg.hasR = true ∧ seg.hasW = true ∧
      seg.hasX = true := by
    unfold amSbrkAnonFloatClient amMmapAnonFloatClient at hsbrk
    split_ifs at hsbrk with h0
    · rw [Except.ok.injEq, Prod.mk.injEq] at hsbrk
      exact .inl ⟨hsbrk.1.symm, _, hsbrk.2.symm⟩
    · obtain h | ⟨sb, seg, hadv, hr, hadd, hs, he, hk, hch, hR, hW, hX⟩ :=
        mmapAdvised_spec hinv.wf hsbrk
      · exact .inl h
      · exact .inr ⟨sb, seg, hr, by omega, hadv, hadd, hs, he, hk, hch, hR, hW, hX⟩
  obtain ⟨rfl, e, rfl⟩ | ⟨sb, seg, rfl, hcsz, hadv, hadd, hs, he, hk, hch, hR, hW, hX⟩ :=
    hcases
  · rw [pure_eq_ok, Prod.mk.injEq] at h
    exact .inl ⟨h.1.symm, h.2.symm⟩
  · simp only [bind_eq_ok, pure_eq_ok, Prod.mk.injEq] at h
    obtain ⟨ptr, hfind, am₂, hset, rfl, rfl⟩ := h
    simp only [amFindNsegment, bind_eq_ok, pure_eq_ok] at hfind
    obtain ⟨i, hi, rfl⟩ := hfind
    have hlt := hadd.lt
    have hend : seg.end_ < wordMod := he ▸ lastByte_lt
    obtain ⟨hget, h₁, h₂⟩ := findNsegmentIdx_getElem? hadd.inv.wf.tiled
      (show sb < wordMod by omega) hi
    have hmem := List.mem_of_getElem? hget
    -- the segment found is the new one, perhaps grown, so it is `skAnonC`
    have hkind : (mid.seg i).kind = .skAnonC := by
      have hmap := hadd.map sb
      rw [if_pos ⟨by omega, by omega⟩, pageMap, segAt_of_mem hadd.inv.wf hmem h₁ h₂,
        Option.map_some, Option.some.injEq] at hmap
      exact (congrArg PageAttrs.kind hmap).trans hk
    rw [if_neg (by rw [hkind]; rintro ⟨⟩)] at hset
    obtain ⟨j, hj, hed⟩ := amSetSegmentIsCHIfSkAnonC_spec hadd.inv hset
    have hil : i < mid.nsegments.length := (List.getElem?_eq_some_iff.mp hget).1
    simp only [segIndex, hil, if_true, Except.ok.injEq] at hj
    exact .inr ⟨sb, seg, mid, mid.seg i, rfl, hcsz, hadv, hadd, hs, he, hk, hch, hR, hW, hX, hmem,
      h₁, h₂, hj ▸ hed⟩

/-- Every page of the segment found is like the new one, and outside the new range
it was so before. -/
theorem mergesWithHeap_of_found {mid : Aspacem} {found : NSegment} {sb y : Nat}
    (hadd : Added am seg mid) (hk : seg.kind = .skAnonC) (hch : seg.isCH = false)
    (hR : seg.hasR = true) (hW : seg.hasW = true) (hX : seg.hasX = true)
    (hmem : found ∈ mid.nsegments) (hsb : found.start ≤ sb ∧ sb ≤ found.end_)
    (hin : seg.start ≤ sb ∧ sb ≤ seg.end_) (hy : found.start ≤ y ∧ y ≤ found.end_)
    (hout : ¬ (seg.start ≤ y ∧ y ≤ seg.end_)) : MergesWithHeap am y := by
  have hatsb := hadd.map sb
  rw [if_pos hin, pageMap, segAt_of_mem hadd.inv.wf hmem hsb.1 hsb.2, Option.map_some,
    Option.some.injEq] at hatsb
  have haty := hadd.map y
  rw [if_neg hout, pageMap, segAt_of_mem hadd.inv.wf hmem hy.1 hy.2, Option.map_some] at haty
  refine ⟨found.attrsAt y, haty.symm, ?_, ?_, ?_, ?_, ?_⟩
  · exact (congrArg PageAttrs.kind hatsb).trans hk
  · exact (congrArg PageAttrs.hasR hatsb).trans hR
  · exact (congrArg PageAttrs.hasW hatsb).trans hW
  · exact (congrArg PageAttrs.hasX hatsb).trans hX
  · exact (congrArg PageAttrs.isCH hatsb).trans hch

theorem superblock_heapInv {cszB : Word} {pages : isPageAligned cszB} {kres : SysRes}
    (hinv : HeapInv s) (hop : (HeapOp.superblock cszB pages kres).abutsHeapOnly s)
    (h : s.step (.superblock cszB pages kres) = .ok s') : HeapInv s' := by
  simp only [HeapState.step, bind_eq_ok, Prod.exists, pure_eq_ok] at h
  obtain ⟨am', r, hnew, rfl⟩ := h
  obtain ⟨rfl, rfl⟩ | ⟨sb, seg, mid, found, rfl, hcsz, hadv, hadd, hs, he, hk, hch, hR, hW, hX, hmem,
    hf₁, hf₂, hed⟩ := newSuperblockClient_spec hinv.inv hnew
  · exact hinv
  · obtain ⟨hbelow, habove⟩ := hop sb hadv
    have hlt := hadd.lt
    rw [pgRoundUp_eq pages cszB.isLt] at he
    have hend : seg.end_ + 1 = sb + cszB := lastByte_of_lt hcsz cszB.isLt (by omega) (by omega)
    have hmid : HeapInv ⟨mid, s.superblocks⟩ := hadd.heapInv hinv hch
    have hwith : ∀ x, s.InSuperblock x →
        HeapState.InSuperblock ⟨am', (sb, cszB.val) :: s.superblocks⟩ x := by
      rintro x ⟨b, hb, hx⟩
      exact ⟨b, List.mem_cons_of_mem _ hb, hx⟩
    have hnear : ∀ y, found.start ≤ y ∧ y ≤ found.end_ → ¬ (seg.start ≤ y ∧ y ≤ seg.end_) →
        MergesWithHeap s.am y := fun y hy hout =>
      mergesWithHeap_of_found hadd hk hch hR hW hX hmem ⟨hf₁, hf₂⟩ ⟨by omega, by omega⟩ hy hout
    refine ⟨hed.inv, fun x p hp hx => ?_⟩
    simp only at hp ⊢
    by_cases hfound : found.start ≤ x ∧ x ≤ found.end_
    · rcases Nat.lt_or_ge x sb with hlo | hge
      · exact hwith x (hbelow x hlo fun y h₁ h₂ => hnear y ⟨by omega, by omega⟩ (by omega))
      · rcases Nat.lt_or_ge x (sb + cszB) with hhi | hge'
        · exact ⟨(sb, cszB.val), by simp, hge, hhi⟩
        · exact hwith x (habove x hge' fun y h₁ h₂ => hnear y ⟨by omega, by omega⟩ (by omega))
    · rw [hed.map] at hp
      simp only [if_neg hfound, Option.map_id'] at hp
      exact hwith x (hmid.marked x p hp hx)

theorem heapInv_step {op : HeapOp} (hinv : HeapInv s) (hop : op.abutsHeapOnly s)
    (h : s.step op = .ok s') : HeapInv s' := by
  cases op with
  | notifyAnonMmap a len prot flags fd offset =>
    simp only [HeapState.step, bind_eq_ok, Prod.exists, pure_eq_ok] at h
    obtain ⟨am', d, hmap, rfl⟩ := h
    obtain ⟨-, seg, hadd, -, -, -, hch⟩ := amNotifyClientMmap_spec hinv.inv.wf a.isLt len.isLt hmap
    exact hadd.heapInv hinv hch
  | mmapAnonFixed start length prot kres =>
    simp only [HeapState.step, bind_eq_ok, Prod.exists, pure_eq_ok] at h
    obtain ⟨am', r, hmap, rfl⟩ := h
    exact mmapGuarded_heapInv hinv (by simp [newSegment, initNsegment]) hmap
  | mmapAnonFloat length prot kres =>
    simp only [HeapState.step, bind_eq_ok, Prod.exists, pure_eq_ok] at h
    obtain ⟨am', r, hmap, rfl⟩ := h
    exact mmapGuarded_heapInv hinv (by simp [newSegment, initNsegment]) hmap
  | superblock cszB pages kres => exact superblock_heapInv hinv hop h

/-! ## Startup and runs -/

/-- A reservation made at startup marks nothing. -/
theorem reserve_heapInv {start end_ : Nat} (hinv : HeapInv ⟨am, []⟩) (he : end_ < wordMod)
    (h : (initResvn start end_ >>= addSegment am) = .ok am') : HeapInv ⟨am', []⟩ := by
  obtain ⟨seg, hseg, hadd⟩ := bind_eq_ok.mp h
  simp only [initResvn, bind_eq_ok, assertThat_eq_ok, exists_const, pure_eq_ok] at hseg
  obtain ⟨-, -, -, rfl⟩ := hseg
  exact (addSegment_added' hinv.inv.wf he hadd).heapInv hinv rfl

theorem readMapsCallback_heapInv {l : MapsLine} (hinv : HeapInv ⟨am, []⟩)
    (h : readMapsCallback am l = .ok am') : HeapInv ⟨am', []⟩ := by
  simp only [readMapsCallback, bind_eq_ok, Prod.exists] at h
  obtain ⟨am₁, seg, hseg, hadd⟩ := h
  obtain ⟨names, dev, ino, mode, k, rfl, hg, rfl⟩ := attachFile_spec hseg
  exact (addSegment_added hinv.inv.wf hg (subW_lt _ _) hadd).heapInv hinv rfl

/-- After startup no page is marked. -/
theorem heapInv_amStartup {sp top : Nat} {maps : List MapsLine}
    (h : amStartup sp maps = .ok (am, top)) : HeapInv ⟨am, []⟩ := by
  have hinv₀ : HeapInv ⟨startupLimits sp, []⟩ := by
    refine ⟨arrayInv_startupLimits sp, fun x p hp hx => ?_⟩
    obtain ⟨s, hs, rfl⟩ := Option.map_eq_some_iff.mp hp
    have hmem := (mem_of_locate hs).1
    simp only [startupLimits, List.mem_singleton] at hmem
    rw [hmem] at hx
    cases hx
  have hclt := (startupLimits_lt sp).2.1
  have hmax := addrMax_add_one
  simp only [amStartup, bind_eq_ok, assertThat_eq_ok, exists_const, pure_eq_ok,
    Prod.mk.injEq] at h
  generalize startupLimits sp = am₀ at h hinv₀ hclt
  obtain ⟨-, -, -, -, -, am₁, h₁, am₂, h₂, seg₃, hseg₃, am₃, h₃, am₄, h₄, rfl, -⟩ := h
  have hinv₁ : HeapInv ⟨am₁, []⟩ := by
    split_ifs at h₁
    · exact reserve_heapInv hinv₀ (by omega) h₁
    · exact pure_eq_ok.mp h₁ ▸ hinv₀
  have hinv₂ : HeapInv ⟨am₂, []⟩ := by
    split_ifs at h₂
    · exact reserve_heapInv hinv₁ (by omega) h₂
    · exact pure_eq_ok.mp h₂ ▸ hinv₁
  have hinv₃ : HeapInv ⟨am₃, []⟩ :=
    reserve_heapInv hinv₂ (subW_lt _ _) (bind_eq_ok.mpr ⟨seg₃, hseg₃, h₃⟩)
  have hstep : ∀ {s s' l}, HeapInv ⟨s, []⟩ → readMapsCallback s l = .ok s' → HeapInv ⟨s', []⟩ :=
    readMapsCallback_heapInv
  exact runSteps_inv hstep hinv₃ h₄

/-- **Marked pages are heap pages**, in every run of anonymous mmaps and
superblock allocations from startup in which no allocation is placed next to
executable, writable anonymous memory that is not heap. -/
theorem clientHeap_exact (sp top : Nat) (maps : List MapsLine) (ops : List HeapOp)
    (am₀ : Aspacem) (s : HeapState) (hstart : amStartup sp maps = .ok (am₀, top))
    (hops : runMeets HeapState.step (fun s op => op.abutsHeapOnly s) ⟨am₀, []⟩ ops)
    (hrun : runSteps HeapState.step ⟨am₀, []⟩ ops = .ok s) :
    ∀ x p, pageMap s.am.nsegments x = some p → p.isCH = true → s.InSuperblock x :=
  (runSteps_inv_of_meets (fun hs hop hstep => heapInv_step hs hop hstep)
    (heapInv_amStartup hstart) hops hrun).marked

end ClientHeap

/-- The first allocation, with no mapping of the client's before it. -/
theorem clientHeap_exact_first :
    letI : Machine := amd64Linux
    ∃ am₀ top s, amStartup 0 [] = .ok (am₀, top) ∧
      runSteps HeapState.step ⟨am₀, []⟩
        [.superblock ⟨0x100000, by decide⟩ (by decide) (.success 0x4000000)] = .ok s ∧
      (pageMap s.am.nsegments 0x4000000).any (·.isCH) = true ∧
      ∀ x p, pageMap s.am.nsegments x = some p → p.isCH = true → s.InSuperblock x := by
  let _ : Machine := amd64Linux
  obtain ⟨⟨am₀, top⟩, h₀, h⟩ := Result.exists_of_holds (r := amStartup 0 [])
    (p := fun r => decide (amGetAdvisory r.1 ⟨.mAny, 0, 0x100000⟩ true = .ok (some 0x4000000) ∧
        (pageMap r.1.nsegments 0x3FFFFFF).map (·.kind) = some .skResvn ∧
        (pageMap r.1.nsegments (0x4000000 + (⟨0x100000, by decide⟩ : Word))).map (·.kind)
          = some .skFree) &&
      (runSteps HeapState.step ⟨r.1, []⟩
        [.superblock ⟨0x100000, by decide⟩ (by decide) (.success 0x4000000)]).holds fun s =>
          (pageMap s.am.nsegments 0x4000000).any (·.isCH)) (by decide)
  rw [Bool.and_eq_true, decide_eq_true_eq] at h
  obtain ⟨⟨hadv, hlo, hhi⟩, h⟩ := h
  obtain ⟨s, hrun, hch⟩ := Result.exists_of_holds h
  -- below the range lies the reservation made at startup, above it free space
  have hno : ∀ y k, (pageMap am₀.nsegments y).map (·.kind) = some k → k ≠ .skAnonC →
      ¬ MergesWithHeap am₀ y := by
    rintro y k hy hk ⟨p, hp, hpk, -⟩
    rw [hp, Option.map_some, Option.some.injEq] at hy
    exact hk (hy.symm.trans hpk)
  refine ⟨am₀, top, s, h₀, hrun, hch, clientHeap_exact 0 top [] _ am₀ s h₀ ?_ hrun⟩
  refine ⟨fun advised hadv' => ?_, fun _ _ => trivial⟩
  obtain rfl : 0x4000000 = advised := Option.some.inj (Except.ok.inj (hadv.symm.trans hadv'))
  refine ⟨fun x hx hall => ?_, fun x hx hall => ?_⟩
  · exact absurd (hall 0x3FFFFFF (by omega) (by omega)) (hno _ _ hlo (by decide))
  · exact absurd (hall _ le_rfl hx) (hno _ _ hhi (by decide))

/-- A page of executable anonymous memory, then the first allocation: the advisor
places the superblock right behind the page, and the page is marked too. -/
theorem clientHeap_exact_neighbour :
    letI : Machine := amd64Linux
    ∃ am₀ top s, amStartup 0 [] = .ok (am₀, top) ∧
      runSteps HeapState.step ⟨am₀, []⟩
        [.mmapAnonFloat ⟨0x1000, by decide⟩ 7 (.success 0x4000000),
          .superblock ⟨0x100000, by decide⟩ (by decide) (.success 0x4001000)] = .ok s ∧
      s.superblocks = [(0x4001000, 0x100000)] ∧
      (pageMap s.am.nsegments 0x4000000).any (·.isCH) = true ∧
      ¬ s.InSuperblock 0x4000000 := by
  let _ : Machine := amd64Linux
  obtain ⟨⟨am₀, top⟩, h₀, h⟩ := Result.exists_of_holds (r := amStartup 0 [])
    (p := fun r => (runSteps HeapState.step ⟨r.1, []⟩
        [.mmapAnonFloat ⟨0x1000, by decide⟩ 7 (.success 0x4000000),
          .superblock ⟨0x100000, by decide⟩ (by decide) (.success 0x4001000)]).holds fun s =>
      decide (s.superblocks = [(0x4001000, 0x100000)]) &&
        (pageMap s.am.nsegments 0x4000000).any (·.isCH)) (by decide)
  obtain ⟨s, hrun, h⟩ := Result.exists_of_holds h
  rw [Bool.and_eq_true, decide_eq_true_eq] at h
  refine ⟨am₀, top, s, h₀, hrun, h.1, h.2, ?_⟩
  rintro ⟨b, hb, h₁, h₂⟩
  rw [h.1, List.mem_singleton] at hb
  rw [hb] at h₁
  exact absurd h₁ (by decide)

end Valgrind.Aspacemgr
