import Valgrind.MallocFree.Soundness

/-!
# When a superblock is needed

The search of `arena_malloc` in full: on one list it visits the free blocks in ring
order and takes the first that is big enough (`scanList_eq`), and it goes through the
lists from the one for the requested size upwards. `pszB_to_listNo` is monotone, so no
block that is big enough lies on a lower list, as long as the requested block size does
not wrap around (`freeSpace_complete`).
-/

namespace Valgrind

namespace MallocFree

open ByteMem Machine Ring Intervals

/-! ## The list numbers are monotone -/

theorem findIdx_mono {l : List Nat} {m n : Nat} (h : m ≤ n) :
    l.findIdx (m < ·) ≤ l.findIdx (n < ·) := by
  rcases Nat.lt_or_ge (l.findIdx (n < ·)) l.length with hlt | hge
  · have hfound := List.findIdx_getElem (w := hlt)
    by_contra hback
    have hnot := List.not_of_lt_findIdx (Nat.lt_of_not_le hback)
    simp only [decide_eq_true_eq, decide_eq_false_iff_not] at hfound hnot
    omega
  · exact List.findIdx_le_length.trans hge

theorem listNo_mono {p q : Nat} (h : p ≤ q) : listNo p ≤ listNo q := by
  have hdiv : p / minMallocSzB ≤ q / minMallocSzB := Nat.div_le_div_right h
  have hidx := findIdx_mono (l := listBounds) hdiv
  unfold listNo
  dsimp only
  split <;> split <;> omega

section

variable [Machine] (g : Config)

/-- The block size that `arena_malloc` looks for. -/
def reqBszB (a : Arena) (req : Nat) : Nat := pszBToBszB g a (alignReqPszB req)

/-- The search of `arena_malloc` for a free block. -/
def findBlock (h : Heap) (req : Nat) : Result (Option (Nat × Nat)) := do
  let lno ← pszBToListNo (alignReqPszB req)
  scanLists g h (reqBszB g h.arena req) (nMallocLists - lno) lno

/-- `arena_malloc` gets to the call of `newSuperblock`. -/
def CallsNewSuperblock (h : Heap) (cc req : Nat) : Prop :=
  req < maxPszB ∧ cc ≠ 0 ∧ findBlock g h req = .ok none

variable {g} {rz : Nat} {h h' : Heap} {m : Mem} {s : State} {c d : Cell} {cs l pre suf : List Cell}
  {sbs : List Sblock} {cc req lno fuel : Nat}

/-! ## What the search does -/

theorem arenaMalloc_eq (sbrk : Nat → Option Nat) (arrayOk : Bool) :
    arenaMalloc g h cc req sbrk arrayOk = (do
      assertThat (req < maxPszB)
      assertThat (cc ≠ 0)
      let found ← findBlock g h req
      match found with
      | some (b, lno) => obtainBlock g h cc (reqBszB g h.arena req) b lno
      | none => do
        let (fresh, h') ← growArena g h (reqBszB g h.arena req) sbrk arrayOk
        match fresh with
        | none => pure (0, h')
        | some (b, lno) => obtainBlock g h' cc (reqBszB g h.arena req) b lno) := by
  simp only [arenaMalloc, findBlock, reqBszB, bind_assoc] <;> rfl

/-- Only a call that gets to `newSuperblock` depends on what the address space manager
answers. -/
theorem arenaMalloc_of_not_callsNewSuperblock (hn : ¬ CallsNewSuperblock g h cc req)
    (sbrk sbrk' : Nat → Option Nat) (arrayOk arrayOk' : Bool) :
    arenaMalloc g h cc req sbrk arrayOk = arenaMalloc g h cc req sbrk' arrayOk' := by
  rw [arenaMalloc_eq, arenaMalloc_eq]
  by_cases hreq : req < maxPszB
  · by_cases hcc : cc ≠ 0
    · rw [assertThat_of hreq, assertThat_of hcc]
      cases hfound : findBlock g h req with
      | error e => rfl
      | ok found =>
        cases found with
        | none => exact absurd ⟨hreq, hcc, hfound⟩ hn
        | some bl => rfl
    · simp only [assertThat, if_neg hcc]
      rfl
  · simp only [assertThat, if_neg hreq]
    rfl

/-- A call that gets to `newSuperblock` continues with what that gives it. -/
theorem arenaMalloc_of_callsNewSuperblock (hc : CallsNewSuperblock g h cc req)
    (sbrk : Nat → Option Nat) (arrayOk : Bool) :
    arenaMalloc g h cc req sbrk arrayOk = (do
      let (fresh, h') ← growArena g h (reqBszB g h.arena req) sbrk arrayOk
      match fresh with
      | none => pure (0, h')
      | some (b, lno) => obtainBlock g h' cc (reqBszB g h.arena req) b lno) := by
  obtain ⟨hreq, hcc, hfound⟩ := hc
  rw [arenaMalloc_eq, assertThat_of hreq, assertThat_of hcc, hfound]
  rfl

/-- The walk along a free list takes the first block that is big enough. The induction is
on what is left of the list before the walk is back at its head. -/
theorem scanList_eq (hz : RzOk g rz)
    (hr : IsRing Cell.addr (word g m · .next) (word g m · .prev) ↑(c :: l))
    (hA : ∀ x ∈ c :: l, ∀ y ∈ c :: l, x.addr = y.addr → x = y)
    (hF : ∀ x ∈ c :: l, x.Fits g rz) (hT : ∀ x ∈ c :: l, Tagged g m x)
    (hsplit : c :: l = pre ++ d :: suf) (hfuel : suf.length < fuel) :
    scanList g m req c.addr fuel d.addr =
      .ok (((d :: suf).find? fun x => req ≤ x.size).map Cell.addr) := by
  induction suf generalizing pre d fuel with
  | nil =>
    obtain ⟨fuel, rfl⟩ := Nat.exists_eq_succ_of_ne_zero (Nat.ne_of_gt hfuel)
    have hd : d ∈ c :: l := hsplit ▸ by simp
    have hlast : (c :: l).getLast (List.cons_ne_nil c l) = d := by simp [hsplit]
    have hnext : word g m d .next = c.addr := by
      have := (isRing_coe_cons.mp hr).2.2.1
      rwa [hlast] at this
    simp only [scanList, getBszB_eq hz (hF d hd) (hT d hd), getNextB_eq hz (hF d hd) (hT d hd),
      ok_bind, hnext, if_true]
    by_cases hle : req ≤ d.size <;> simp [hle]
  | cons n suf ih =>
    obtain ⟨fuel, rfl⟩ := Nat.exists_eq_succ_of_ne_zero (Nat.ne_of_gt (Nat.zero_lt_of_lt hfuel))
    have hd : d ∈ c :: l := hsplit ▸ by simp
    have hn : n ∈ c :: l := hsplit ▸ by simp
    have hnext : word g m d .next = n.addr := by
      have hc := (isRing_coe_cons.mp hr).2.1
      rw [hsplit] at hc
      exact (List.isChain_cons_cons.mp (List.isChain_append.mp hc).2.1).1.1
    have hback : n.addr ≠ c.addr := by
      intro he
      obtain rfl := hA n hn c (by simp) he
      have hnd := Cycle.nodup_coe_iff.mp hr.nodup
      rw [hsplit] at hnd
      cases pre with
      | nil =>
        obtain ⟨rfl, -⟩ := List.cons.inj hsplit
        simp at hnd
      | cons p pre =>
        obtain ⟨rfl, -⟩ := List.cons.inj hsplit
        simp at hnd
    simp only [scanList, getBszB_eq hz (hF d hd) (hT d hd), getNextB_eq hz (hF d hd) (hT d hd),
      ok_bind, hnext, if_neg hback]
    by_cases hle : req ≤ d.size
    · simp [hle]
    · have hsplit' : c :: l = (pre ++ [d]) ++ n :: suf := by simpa using hsplit
      rw [if_neg hle, ih hsplit' (by simpa using Nat.lt_of_succ_lt_succ hfuel)]
      simp [hle]

/-- Distinct nodes of a list have distinct addresses, so there are at most as many as
there are addresses. -/
theorem Marked.length_le (M : Marked g rz h cs) (hl : ∀ x ∈ l, x ∈ cs) (hn : l.Nodup) :
    l.length ≤ wordMod := by
  have hnodup : (l.map Cell.addr).Nodup := hn.map_on fun x hx y hy he =>
    M.apart.eq_of_addr M.fits M.rzOk (hl x hx) (hl y hy) he
  have hsub : l.map Cell.addr ⊆ List.range wordMod := by
    intro a ha
    obtain ⟨x, hx, rfl⟩ := List.mem_map.mp ha
    have hlt := (M.fits x (hl x hx)).lt
    unfold Cell.stop at hlt
    exact List.mem_range.mpr (by omega)
  simpa using (hnodup.subperm hsub).length_le

/-- The walk along one list finds nothing iff no block on it is big enough. -/
theorem Marked.scanList_head (M : Marked g rz h cs) (req : Nat) (hne : h.arena.freelist lno ≠ 0) :
    ∃ found, scanList g h.mem req (h.arena.freelist lno) wordMod (h.arena.freelist lno) = .ok found ∧
      (found = none ↔ ∀ c ∈ cs, c.st = .free → listNo (c.psz g rz) = lno → c.size < req) := by
  obtain ⟨ring, hl, hm⟩ := M.lists lno
  rcases hl.head with ⟨-, h0⟩ | ⟨c, hc, hhead⟩
  · exact absurd h0 hne
  · obtain ⟨l, rfl⟩ := exists_coe_cons hc
    have hon : ∀ x, x ∈ c :: l ↔ OnList g rz cs lno x := fun x =>
      Cycle.mem_coe_iff.symm.trans (hm x)
    have hcs : ∀ x ∈ c :: l, x ∈ cs := fun x hx => ((hon x).mp hx).1
    have hlen := M.length_le hcs (Cycle.nodup_coe_iff.mp hl.links.nodup)
    rw [hhead, scanList_eq M.rzOk hl.links
      (fun x hx y hy he => M.apart.eq_of_addr M.fits M.rzOk (hcs x hx) (hcs y hy) he)
      (fun x hx => M.fits x (hcs x hx))
      (fun x hx => M.tagged x (hcs x hx) (by simp [((hon x).mp hx).2.1]))
      (show c :: l = [] ++ c :: l from rfl) hlen]
    refine ⟨_, rfl, ?_⟩
    rw [Option.map_eq_none_iff, List.find?_eq_none]
    constructor
    · intro hnone x hx hfree hno
      have := hnone x ((hon x).mpr ⟨hx, hfree, hno⟩)
      simpa using this
    · intro hsmall x hx
      obtain ⟨hx, hfree, hno⟩ := (hon x).mp hx
      simpa using hsmall x hx hfree hno

/-- The search finds nothing iff no block on the lists it goes through is big enough. -/
theorem Marked.scanLists_none_iff (M : Marked g rz h cs) {left : Nat} :
    scanLists g h req left lno = .ok none ↔ ∀ c ∈ cs, c.st = .free →
      lno ≤ listNo (c.psz g rz) → listNo (c.psz g rz) < lno + left → c.size < req := by
  induction left generalizing lno with
  | zero =>
    simp only [scanLists, pure_eq_ok, true_iff]
    intro c _ _ h₁ h₂
    omega
  | succ left ih =>
    have hsplit : (∀ c ∈ cs, c.st = .free → lno ≤ listNo (c.psz g rz) →
          listNo (c.psz g rz) < lno + (left + 1) → c.size < req) ↔
        (∀ c ∈ cs, c.st = .free → listNo (c.psz g rz) = lno → c.size < req) ∧
          ∀ c ∈ cs, c.st = .free → lno + 1 ≤ listNo (c.psz g rz) →
            listNo (c.psz g rz) < lno + 1 + left → c.size < req := by
      constructor
      · intro hall
        exact ⟨fun c hc hf hno => hall c hc hf (by omega) (by omega),
          fun c hc hf h₁ h₂ => hall c hc hf (by omega) (by omega)⟩
      · rintro ⟨hhere, habove⟩ c hc hf h₁ h₂
        rcases Nat.eq_or_lt_of_le h₁ with he | hlt
        · exact hhere c hc hf he.symm
        · exact habove c hc hf hlt (by omega)
    rw [hsplit, ← ih, scanLists]
    by_cases h0 : h.arena.freelist lno = 0
    · rw [if_pos h0]
      refine (and_iff_right ?_).symm
      intro c hc hf hno
      obtain ⟨ring, hl, hm⟩ := M.lists lno
      have hin := (hm c).mpr ⟨hc, hf, hno⟩
      rcases hl.head with ⟨rfl, -⟩ | ⟨e, he, hhead⟩
      · exact absurd hin (Cycle.notMem_nil c)
      · have hpos := (M.fits e ((hm e).mp he).1).pos
        omega
    · obtain ⟨found, hscan, hnone⟩ := M.scanList_head req h0
      rw [if_neg h0, hscan, ok_bind, ← hnone]
      cases found <;> simp

/-! ## No block that fits is skipped -/

theorem Marked.findBlock_none_iff (M : Marked g rz h cs) :
    findBlock g h req = .ok none ↔ ∀ c ∈ cs, c.st = .free →
      listNo (alignReqPszB req) ≤ listNo (c.psz g rz) → c.size < reqBszB g h.arena req := by
  have hlt := listNo_lt (alignReqPszB req)
  rw [findBlock, pszBToListNo_of_dvd (alignReqPszB_dvd req), ok_bind, M.scanLists_none_iff]
  refine forall₄_congr fun c _ _ _ => ?_
  have hc := listNo_lt (c.psz g rz)
  exact ⟨fun h => h (by omega), fun h _ => h⟩

theorem Marked.freelist_eq_zero_iff (M : Marked g rz h cs) :
    h.arena.freelist lno = 0 ↔ ∀ c, ¬ OnList g rz cs lno c := by
  obtain ⟨ring, hl, hm⟩ := M.lists lno
  rcases hl.head with ⟨rfl, h0⟩ | ⟨e, he, hhead⟩
  · exact ⟨fun _ c hc => Cycle.notMem_nil c ((hm c).mpr hc), fun _ => h0⟩
  · have hon := (hm e).mp he
    have hpos := (M.fits e hon.1).pos
    exact ⟨fun h0 => absurd (hhead.symm.trans h0) (by omega), fun hno => absurd hon (hno e)⟩

/-- A block size that wraps around is smaller than every block, and is looked for on the
last list only. -/
theorem Marked.reqBszB_wrap (M : Marked g rz h cs)
    (hwrap : wordMod ≤ alignReqPszB req + overheadSzB g h.arena) :
    reqBszB g h.arena req < overhead g rz ∧ listNo (alignReqPszB req) = 111 := by
  have hsmall := M.rzOk.small
  have hR := alignReqPszB_lt req
  have hrz : overheadSzB g h.arena = overhead g rz := by
    rw [overheadSzB_eq, M.rz_eq]
  have hmod : overhead g rz < wordMod := by
    rcases wordMod_cases with h | h <;> omega
  rw [hrz] at hwrap
  constructor
  · rw [reqBszB, pszBToBszB, hrz, addW_of_ge hR hmod hwrap]
    omega
  · rw [listNo_eq_last_iff]
    rcases wordMod_cases with h | h <;> omega

/-- What it takes for the search to skip no block that is big enough. -/
theorem Marked.findBlock_complete_iff (M : Marked g rz h cs) :
    (findBlock g h req = .ok none → ∀ c ∈ cs, c.st = .free → c.size < reqBszB g h.arena req) ↔
      alignReqPszB req + overheadSzB g h.arena < wordMod ∨ h.arena.freelist 111 ≠ 0 ∨
        ∀ lno < nMallocLists, h.arena.freelist lno = 0 := by
  have hrz : overheadSzB g h.arena = overhead g rz := by
    rw [overheadSzB_eq, M.rz_eq]
  constructor
  · intro hcomplete
    by_contra hnot
    push Not at hnot
    obtain ⟨hwrap, hlast, lno, -, hne⟩ := hnot
    obtain ⟨hreq, hno⟩ := M.reqBszB_wrap hwrap
    have hempty := M.freelist_eq_zero_iff.mp hlast
    have hnone : findBlock g h req = .ok none := by
      refine M.findBlock_none_iff.mpr fun c hc hfree hle => absurd ⟨hc, hfree, ?_⟩ (hempty c)
      have hlt := listNo_lt (c.psz g rz)
      unfold nMallocLists at hlt
      omega
    obtain ⟨c, hc⟩ := not_forall_not.mp fun hall => hne (M.freelist_eq_zero_iff.mpr hall)
    have hroom := (M.fits c hc.1).room
    have := hcomplete hnone c hc.1 hc.2.1
    omega
  · intro hcond hnone c hc hfree
    rw [M.findBlock_none_iff] at hnone
    by_contra hbig
    by_cases hwrap : alignReqPszB req + overheadSzB g h.arena < wordMod
    · refine hbig (hnone c hc hfree (listNo_mono ?_))
      have hreq : reqBszB g h.arena req = alignReqPszB req + overheadSzB g h.arena :=
        addW_of_lt hwrap
      unfold Cell.psz
      omega
    · obtain ⟨hreq, hno⟩ := M.reqBszB_wrap (Nat.not_lt.mp hwrap)
      rcases hcond.resolve_left hwrap with hlast | hempty
      · obtain ⟨e, he, hfree', hlno⟩ := not_forall_not.mp fun hall =>
          hlast (M.freelist_eq_zero_iff.mpr hall)
        have hroom := (M.fits e he).room
        have := hnone e he hfree' (by omega)
        omega
      · exact M.freelist_eq_zero_iff.mp (hempty _ (listNo_lt _)) c ⟨hc, hfree, rfl⟩

/-- **A superblock is mapped only if no free block would do.** In every state that a run
reaches, that is so for a request iff the block size it asks for does not wrap around, or
the last free list has a block, or there is no free block at all. -/
theorem freeSpace_complete {clientmem : Bool} {rzSzB minSblockSzB : Nat} {a : Arena}
    (hinit : arenaInit g clientmem rzSzB minSblockSzB = .ok a)
    (hrun : Reached g (Sound g) a s) :
    ∃ sbs lists, ArenaInvariant g s.heap sbs lists ∧ ∀ cc req, req < maxPszB → cc ≠ 0 →
      ((CallsNewSuperblock g s.heap cc req → ∀ x ∈ sbs, ∀ b ∈ x.2, ¬ InUse g s.heap.mem b.1 →
          b.2 < reqBszB g s.heap.arena req) ↔
        alignReqPszB req + overheadSzB g s.heap.arena < wordMod ∨ s.heap.arena.freelist 111 ≠ 0 ∨
          ∀ lno < nMallocLists, s.heap.arena.freelist lno = 0) := by
  obtain ⟨sbs, T⟩ := reached_tracked hinit hrun
  obtain ⟨lists, hI⟩ := T.ok.arenaInvariant
  refine ⟨blocksOf sbs, lists, hI, fun cc req hreq hcc => ?_⟩
  rw [← T.ok.marked.findBlock_complete_iff]
  have hcalls : CallsNewSuperblock g s.heap cc req ↔ findBlock g s.heap req = .ok none :=
    ⟨fun h => h.2.2, fun h => ⟨hreq, hcc, h⟩⟩
  rw [hcalls]
  refine imp_congr_right fun _ => ⟨fun hall c hc hfree => ?_, fun hall x hx b hb hfree => ?_⟩
  · obtain ⟨t, ht, hct⟩ := mem_cellsOf.mp hc
    refine hall _ (mem_blocksOf.mpr ⟨t, ht, rfl⟩) c.range (List.mem_map_of_mem hct) ?_
    rw [Cell.range, T.ok.inUse_iff hc]
    simp [hfree]
  · obtain ⟨t, ht, rfl⟩ := mem_blocksOf.mp hx
    obtain ⟨c, hct, rfl⟩ := List.mem_map.mp hb
    have hc := mem_cellsOf.mpr ⟨t, ht, hct⟩
    refine hall c hc ?_
    have hlimbo := T.ok.settled c hc
    rw [Cell.range, T.ok.inUse_iff hc] at hfree
    cases hst : c.st with
    | used => exact absurd hst hfree
    | free => rfl
    | limbo => exact absurd hst hlimbo

end

/-- One block in a superblock. -/
def oneBlockRun : ClientRun (@Sound x86Linux plainConfig) where
  events := [.call (.malloc 1 48) (some (1048576, 0x10000000)) true]
  test := fun s => s.live = [0x10000020]
  passes := by decide +kernel

/-- One block, and the rest of its superblock. -/
theorem freeSpace_complete_malloc :
    letI : Machine := x86Linux
    ∃ s, Reached plainConfig (Sound plainConfig) clientArena s ∧ s.live = [0x10000020] ∧
      ∃ sbs lists, ArenaInvariant plainConfig s.heap sbs lists ∧ ∀ cc req, req < maxPszB → cc ≠ 0 →
        ((CallsNewSuperblock plainConfig s.heap cc req → ∀ x ∈ sbs, ∀ b ∈ x.2,
            ¬ InUse plainConfig s.heap.mem b.1 → b.2 < reqBszB plainConfig s.heap.arena req) ↔
          alignReqPszB req + overheadSzB plainConfig s.heap.arena < wordMod ∨
            s.heap.arena.freelist 111 ≠ 0 ∨
            ∀ lno < nMallocLists, s.heap.arena.freelist lno = 0) := by
  obtain ⟨s, hs, ht⟩ := oneBlockRun.exists_reached
  let _ : Machine := x86Linux
  exact ⟨s, hs, of_decide_eq_true ht, freeSpace_complete arenaInit_clientArena hs⟩

theorem sizeofSuperblock_x86 : @sizeofSuperblock x86Linux = 16 := by decide

/-- A superblock of which all but 64 bytes is in use. -/
def almostFullRun : ClientRun (@Sound x86Linux plainConfig) where
  events := [.call (.malloc 1 1048464) (some (1048576, 0x10000000)) true]
  test := fun s => letI : Machine := x86Linux
    s.heap.arena.sblocks = [0x10000000] &&
    nPayloadBytes plainConfig s.heap.mem 0x10000000 = 1048560 &&
    (getBszB plainConfig s.heap.mem 0x10000010).holds (· = 1048496) &&
    (getBszB plainConfig s.heap.mem 0x100FFFC0).holds (· = 64) &&
    (isInuseBlock plainConfig s.heap.mem 0x100FFFC0).holds (· = false) &&
    (findBlock plainConfig s.heap 0xFFFFFFF0).holds (· = none) &&
    reqBszB plainConfig s.heap.arena 0xFFFFFFF0 = 16
  passes := by decide +kernel

/-- All of a superblock but 64 bytes is in use when almost everything is asked for. The block
size wraps around to 16, the last free list is empty, and a new superblock is mapped. -/
theorem freeSpace_complete_wrap :
    letI : Machine := x86Linux
    ∃ s, Reached plainConfig (Sound plainConfig) clientArena s ∧
      CallsNewSuperblock plainConfig s.heap 1 0xFFFFFFF0 ∧
      ∀ sbs lists, ArenaInvariant plainConfig s.heap sbs lists →
        ∃ x ∈ sbs, ∃ b ∈ x.2, ¬ InUse plainConfig s.heap.mem b.1 ∧
          reqBszB plainConfig s.heap.arena 0xFFFFFFF0 ≤ b.2 := by
  obtain ⟨s, hs, ht⟩ := almostFullRun.exists_reached
  let _ : Machine := x86Linux
  simp only [almostFullRun, Bool.and_eq_true, decide_eq_true_eq] at ht
  obtain ⟨⟨⟨⟨⟨⟨hsb, hn⟩, h₁⟩, h₂⟩, hfree⟩, hfind⟩, hreq⟩ := ht
  refine ⟨s, hs, ⟨by decide, by decide, ?_⟩, fun sbs lists I => ?_⟩
  · obtain ⟨found, hfound, hnone⟩ := Result.exists_of_holds hfind
    rw [hfound, of_decide_eq_true hnone]
  · obtain ⟨⟨sb, bs⟩, hmem, rfl⟩ : ∃ x ∈ sbs, x.1 = 0x10000000 := by
      have harray := I.array
      rw [hsb] at harray
      have : 0x10000000 ∈ sbs.map Prod.fst := by simp [← harray]
      exact List.mem_map.mp this
    have htiled := I.tiled _ hmem
    have htags := fun b hb => (I.tags _ hmem b hb).1
    dsimp only at htiled htags hn
    rw [hn] at htiled
    obtain ⟨bs₁, ht₁, hsub⟩ := first_block htiled htags (by decide) h₁
    rw [show sizeofSuperblock = 16 from sizeofSuperblock_x86] at ht₁
    cases bs₁ with
    | nil => simp at ht₁
    | cons b bs₁ =>
      have hb : b.1 = 0x100FFFC0 := by
        have := ht₁.1
        omega
      have hbs := hsub b (by simp)
      refine ⟨_, hmem, b, hbs, ?_, ?_⟩
      · obtain ⟨inuse, hin, hf⟩ := Result.exists_of_holds hfree
        rw [InUse, hb, hin, of_decide_eq_true hf]
        simp
      · have hsize := htags b hbs
        rw [hb] at hsize
        rw [hsize] at h₂
        have hb64 : b.2 = 64 := of_decide_eq_true h₂
        rw [hreq, hb64]
        decide

end MallocFree

end Valgrind
