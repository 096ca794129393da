import Valgrind.MallocFree.Complete

/-!
# `VG_(arena_calloc)`

The product of the two arguments is computed in a word, and compared with each of them
to find out whether it wrapped around. `calloc_sound` says for which arguments that is
enough: `CallocOk` is the promise, over all arenas and all states that runs reach.

A superblock begins at a page above address 0 and does not reach the last page
(`reached_pages`), so a payload has at most `maxPayloadSzB` bytes; and an arena that has
just been set up can hand out that many (`arenaMalloc_fresh`).
-/

namespace Valgrind

namespace MallocFree

open ByteMem Machine Ring Intervals

section

variable [Machine] {g : Config} {rz : Nat} {h h' : Heap} {m m' : Mem} {s s' : State} {c u : Cell}
  {L R rest : List Cell} {sbs : List Sblock} {k : Place} {sbrk : Nat → Option Nat} {arrayOk : Bool}
  {cc req b n lno p q : Nat}

/-! ## Where superblocks come from -/

theorem addToFreelist_sblocks (H : addToFreelist g h b lno = .ok h') :
    h'.arena.sblocks = h.arena.sblocks := by
  unfold addToFreelist at H
  split at H
  · simp only [bind_eq_ok, pure_eq_ok] at H
    obtain ⟨_, -, rfl⟩ := H
    rfl
  · simp only [bind_eq_ok, pure_eq_ok] at H
    obtain ⟨_, -, _, -, rfl⟩ := H
    rfl

theorem mkFreeBlock_sblocks (H : mkFreeBlock g h b n lno = .ok h') :
    h'.arena.sblocks = h.arena.sblocks := by
  simp only [mkFreeBlock, bind_eq_ok] at H
  obtain ⟨_, -, _, -, _, -, _, -, m, -, H⟩ := H
  have e := addToFreelist_sblocks H
  exact e

theorem swizzle_sblocks (H : swizzle g h lno = .ok h') : h'.arena.sblocks = h.arena.sblocks := by
  unfold swizzle at H
  dsimp only at H
  split at H
  · rw [pure_eq_ok] at H
    rw [H]
  · obtain ⟨_, -, H⟩ := bind_eq_ok.mp H
    split at H
    · rw [pure_eq_ok] at H
      rw [← H]
      rfl
    · rw [pure_eq_ok] at H
      rw [H]

theorem takeOffFreelist_sblocks (H : takeOffFreelist g h b lno = .ok h') :
    h'.arena.sblocks = h.arena.sblocks := by
  unfold takeOffFreelist at H
  split at H
  · simp only [bind_eq_ok, pure_eq_ok] at H
    obtain ⟨_, -, _, -, rfl⟩ := H
    rfl
  · simp only [bind_eq_ok] at H
    obtain ⟨_, -, _, -, H⟩ := H
    have e := swizzle_sblocks H
    exact e

theorem unlinkBlock_sblocks (H : unlinkBlock g h b lno = .ok h') :
    h'.arena.sblocks = h.arena.sblocks := by
  simp only [unlinkBlock, bind_eq_ok, pure_eq_ok] at H
  obtain ⟨_, -, h₁, htake, _, -, rfl⟩ := H
  have e := takeOffFreelist_sblocks htake
  exact e

theorem splitBlock_sblocks (H : splitBlock g h cc req b n lno = .ok (p, h')) :
    h'.arena.sblocks = h.arena.sblocks := by
  unfold splitBlock at H
  dsimp only at H
  split at H
  · simp only [bind_eq_ok, pure_eq_ok, Prod.mk.injEq] at H
    obtain ⟨h₁, hu, _, -, _, -, _, -, _, -, h₂, hf, _, -, _, -, -, rfl⟩ := H
    have e₁ := unlinkBlock_sblocks hu
    have e₂ := mkFreeBlock_sblocks hf
    exact e₂.trans e₁
  · simp only [bind_eq_ok, pure_eq_ok, Prod.mk.injEq] at H
    obtain ⟨h₁, hu, _, -, _, -, -, rfl⟩ := H
    have e := unlinkBlock_sblocks hu
    exact e

theorem obtainBlock_sblocks (H : obtainBlock g h cc req b lno = .ok (p, h')) :
    h'.arena.sblocks = h.arena.sblocks := by
  simp only [obtainBlock, bind_eq_ok, Prod.exists, pure_eq_ok, Prod.mk.injEq] at H
  obtain ⟨_, -, _, -, _, -, _, -, _, -, _, h₁, hs, _, -, h₂, hstats, _, -, -, rfl⟩ := H
  exact (updateStats_spec hstats).2.2.sblocks.trans (splitBlock_sblocks hs)

/-- Every superblock is an old one or was handed out by the address space manager. -/
def Sbrked (sbrk : Nat → Option Nat) (h h' : Heap) : Prop :=
  ∀ sb ∈ h'.arena.sblocks, sb ∈ h.arena.sblocks ∨ ∃ size, sbrk size = some sb ∧ sb ≠ 0

omit [Machine] in
theorem Sbrked.of_eq (he : h'.arena.sblocks = h.arena.sblocks) : Sbrked sbrk h h' :=
  fun _ hsb => .inl (he ▸ hsb)

omit [Machine] in
theorem mem_insertSblock {l : List Nat} {x sb : Nat} : x ∈ insertSblock l sb ↔ x = sb ∨ x ∈ l := by
  have hl : l = l.rdropWhile (sb < ·) ++ l.rtakeWhile (sb < ·) := by
    unfold List.rdropWhile List.rtakeWhile
    rw [← List.reverse_append, List.takeWhile_append_dropWhile, List.reverse_reverse]
  conv_rhs => rw [hl]
  exact List.perm_middle.mem_iff.trans List.mem_cons

theorem growArena_sbrked {fresh : Option (Nat × Nat)}
    (H : growArena g h req sbrk arrayOk = .ok (fresh, h')) : Sbrked sbrk h h' := by
  simp only [growArena, bind_eq_ok, Prod.exists] at H
  obtain ⟨sb, h₁, hnew, H⟩ := H
  rcases newSuperblock_spec hnew with ⟨rfl, rfl⟩ | ⟨hne, hs, rfl⟩
  · simp only [if_true, bind_eq_ok, pure_eq_ok, Prod.mk.injEq] at H
    obtain ⟨_, -, -, rfl⟩ := H
    exact .of_eq rfl
  · simp only [if_neg hne, bind_eq_ok, pure_eq_ok, Prod.mk.injEq] at H
    obtain ⟨_, -, _, -, _, -, _, -, _, -, h₂, hf, _, -, -, rfl⟩ := H
    intro x hx
    have e := mkFreeBlock_sblocks hf
    change x ∈ h₂.arena.sblocks at hx
    rw [e, mem_insertSblock] at hx
    rcases hx with rfl | hx
    · exact .inr ⟨_, hs, hne⟩
    · exact .inl hx

theorem arenaMalloc_sbrked (H : arenaMalloc g h cc req sbrk arrayOk = .ok (p, h')) :
    Sbrked sbrk h h' := by
  simp only [arenaMalloc, bind_eq_ok] at H
  obtain ⟨_, -, _, -, _, -, found, -, H⟩ := H
  cases found with
  | some bl => exact .of_eq (obtainBlock_sblocks H)
  | none =>
    simp only [bind_eq_ok, Prod.exists] at H
    obtain ⟨fresh, h₁, hgrow, H⟩ := H
    have h₂ := growArena_sbrked hgrow
    cases fresh with
    | none =>
      simp only [pure_eq_ok, Prod.mk.injEq] at H
      exact H.2 ▸ h₂
    | some bl =>
      intro x hx
      rw [obtainBlock_sblocks H] at hx
      exact h₂ x hx

theorem arenaFree_sblocks (H : arenaFree g h p = .ok h') : h'.arena.sblocks = h.arena.sblocks := by
  unfold arenaFree at H
  split at H
  · rw [pure_eq_ok] at H
    rw [H]
  · simp only [bind_eq_ok] at H
    obtain ⟨_, -, _, -, _, -, _, -, _, -, _, -, H⟩ := H
    simp only [putBack, bind_eq_ok, Prod.exists] at H
    obtain ⟨h₁, hf, _, -, _, _, h₂, hsucc, H⟩ := H
    have e₁ := mkFreeBlock_sblocks hf
    have e₂ : h₂.arena.sblocks = h₁.arena.sblocks := by
      unfold mergeSuccessor at hsucc
      dsimp only at hsucc
      split at hsucc
      · simp only [bind_eq_ok] at hsucc
        obtain ⟨_, -, _, -, hsucc⟩ := hsucc
        split at hsucc
        · simp only [pure_eq_ok, Prod.mk.injEq] at hsucc
          rw [← hsucc.2.2]
        · simp only [bind_eq_ok, pure_eq_ok, Prod.mk.injEq] at hsucc
          obtain ⟨_, hu, _, -, _, -, _, hu', _, -, _, -, _, hf', _, -, -, -, rfl⟩ := hsucc
          have e₂ := unlinkBlock_sblocks hu
          have e₃ := unlinkBlock_sblocks hu'
          have e₄ := mkFreeBlock_sblocks hf'
          exact e₄.trans (e₃.trans e₂)
      · simp only [bind_eq_ok, pure_eq_ok, Prod.mk.injEq] at hsucc
        obtain ⟨_, -, -, -, rfl⟩ := hsucc
        rfl
    have e₃ : h'.arena.sblocks = h₂.arena.sblocks := by
      unfold mergePredecessor at H
      split at H
      · simp only [bind_eq_ok] at H
        obtain ⟨_, -, _, -, _, -, H⟩ := H
        split at H
        · rw [pure_eq_ok] at H
          rw [H]
        · simp only [bind_eq_ok, pure_eq_ok] at H
          obtain ⟨_, hu, _, -, _, -, _, hu', _, -, _, -, _, hf', _, -, rfl⟩ := H
          have e₂ := unlinkBlock_sblocks hu
          have e₃ := unlinkBlock_sblocks hu'
          have e₄ := mkFreeBlock_sblocks hf'
          exact e₄.trans (e₃.trans e₂)
      · simp only [bind_eq_ok, pure_eq_ok] at H
        obtain ⟨_, -, rfl⟩ := H
        rfl
    exact e₃.trans (e₂.trans e₁)

theorem splitAligned_sblocks {align base : Nat}
    (H : splitAligned g h cc align req base = .ok (p, h')) : h'.arena.sblocks = h.arena.sblocks := by
  simp only [splitAligned, bind_eq_ok, pure_eq_ok, Prod.mk.injEq] at H
  obtain ⟨_, -, _, -, _, -, _, -, h₁, hf, _, -, _, -, _, -, _, -, _, -, _, -, _, -, _, -, -, rfl⟩ := H
  have := mkFreeBlock_sblocks hf
  dsimp only
  split <;> exact this

theorem step_sbrked {e : Event} {grant : Option (Nat × Nat)} {call : Call}
    (he : e = .call call grant arrayOk) (H : step g s e = .ok s') :
    Sbrked (sbrkOf grant) s.heap s'.heap := by
  subst he
  simp only [step, bind_eq_ok, Prod.exists, pure_eq_ok] at H
  obtain ⟨p, h', hrun, rfl⟩ := H
  cases call with
  | malloc cc req => exact arenaMalloc_sbrked hrun
  | free ptr =>
    simp only [Call.run, bind_eq_ok, pure_eq_ok, Prod.mk.injEq] at hrun
    obtain ⟨h₁, hfree, -, rfl⟩ := hrun
    exact .of_eq (arenaFree_sblocks hfree)
  | memalign cc align req =>
    simp only [Call.run, arenaMemalign, bind_eq_ok] at hrun
    obtain ⟨_, -, _, -, hrun⟩ := hrun
    split at hrun
    · exact absurd hrun throw_eq_ok
    · simp only [bind_eq_ok, Prod.exists] at hrun
      obtain ⟨_, -, base, h₁, hm, hrun⟩ := hrun
      have h₂ := arenaMalloc_sbrked hm
      split at hrun
      · simp only [pure_eq_ok, Prod.mk.injEq] at hrun
        obtain ⟨-, rfl⟩ := hrun
        exact h₂
      · intro x hx
        rw [splitAligned_sblocks hrun] at hx
        exact h₂ x hx
  | realloc cc ptr req =>
    simp only [Call.run, arenaRealloc, bind_eq_ok] at hrun
    obtain ⟨_, -, _, -, _, -, _, -, _, -, _, -, hrun⟩ := hrun
    split at hrun
    · simp only [pure_eq_ok, Prod.mk.injEq] at hrun
      exact .of_eq (congrArg (fun h : Heap => h.arena.sblocks) hrun.2.symm)
    · simp only [bind_eq_ok, Prod.exists, pure_eq_ok, Prod.mk.injEq] at hrun
      obtain ⟨_, h₁, hm, _, -, h₂, hfree, -, rfl⟩ := hrun
      intro x hx
      rw [arenaFree_sblocks hfree] at hx
      exact arenaMalloc_sbrked hm x hx

/-- No superblock begins in the first page. -/
theorem reached_pages {clientmem : Bool} {z min : Nat} {a : Arena}
    (hinit : arenaInit g clientmem z min = .ok a) (hR : Reached g (Sound g) a s) :
    ∀ sb ∈ s.heap.arena.sblocks, pageSzB ≤ sb := by
  obtain ⟨m, es, hP, hrun⟩ := hR
  refine @runSteps_inv_of_meets State Event (step g) (Sound g)
    (fun s => ∀ sb ∈ s.heap.arena.sblocks, pageSzB ≤ sb) ?_ _ _ ?_ _ hP hrun
  · intro s s' e hs hS hstep sb hsb
    cases e with
    | poke addr byte =>
      simp only [step, pure_eq_ok] at hstep
      subst hstep
      exact hs sb hsb
    | call call grant arrayOk =>
      rcases step_sbrked rfl hstep sb hsb with hold | ⟨size, hsize, hne⟩
      · exact hs sb hold
      · have hpage := (hS.1.1.sbrkOk size sb hsize).2.1
        exact Nat.le_of_dvd (Nat.pos_of_ne_zero hne) (isPageAligned_iff.mp hpage)
  · simp [(arenaInit_rzOk hinit).2.1]

/-! ## What a call returns -/

/-- The biggest payload that an arena can hand out: the superblock begins with the second
page and ends before the last, and the red zones are one word each. -/
def maxPayloadSzB : Nat := wordMod - (2 * pageSzB + sizeofSuperblock + 4 * wordB)

theorem four_wordB_le_overhead (hz : RzOk g rz) : 4 * wordB ≤ overhead g rz := by
  have h := hz.word_le
  unfold overhead
  omega

/-- No block is bigger. -/
theorem HeapOk.psz_le (O : HeapOk g rz h sbs) (hpages : ∀ sb ∈ h.arena.sblocks, pageSzB ≤ sb)
    (hc : c ∈ cellsOf sbs) : c.psz g rz ≤ maxPayloadSzB := by
  obtain ⟨t, ht, -, hlo, hhi⟩ := O.toShaped.mem_bounds hc
  have hin : t.addr ∈ h.arena.sblocks := by
    rw [O.sup.array]
    exact List.mem_map_of_mem (List.mem_map_of_mem ht)
  have hpage := hpages _ hin
  have htop : t.addr + sizeofSuperblock + t.n + pageSzB ≤ wordMod :=
    (O.sup.inside _ (List.mem_map_of_mem ht)).2
  have hov := four_wordB_le_overhead O.marked.rzOk
  unfold Sblock.start Cell.stop at *
  unfold Cell.psz maxPayloadSzB
  omega

omit [Machine] in
theorem fill_zero_eq {x : Nat} (h₁ : p ≤ x) (h₂ : x < p + n) : fill m p 0 n x = 0 :=
  if_pos ⟨h₁, h₂⟩

theorem memset_eq_ok {v : UInt8} (H : memset m p v n = .ok m') :
    (n = 0 ∨ p ≠ 0 ∧ p + n ≤ wordMod) ∧ m' = fill m p v n := by
  unfold memset at H
  split at H
  · exact absurd H throw_eq_ok
  · rw [pure_eq_ok] at H
    refine ⟨?_, H.symm⟩
    omega

/-- What `arena_calloc` returns, in terms of the product as the code computes it. -/
theorem arenaCalloc_spec {clientmem : Bool} {z min : Nat} {a : Arena} {nmemb bytesPerMemb : Nat}
    {grant : Option (Nat × Nat)} (hinit : arenaInit g clientmem z min = .ok a)
    (hR : Reached g (Sound g) a s) (hg : GrantOk g s.heap grant) (hp : p ≠ 0)
    (hq : q = nmemb * bytesPerMemb % wordMod)
    (H : arenaCalloc g s.heap cc nmemb bytesPerMemb (sbrkOf grant) arrayOk = .ok (p, h')) :
    nmemb ≤ q ∧ bytesPerMemb ≤ q ∧ q ≤ maxPayloadSzB ∧
      ∃ n, arenaPayloadSzB g h' p = .ok n ∧ q ≤ n ∧ ∀ x, p ≤ x → x < p + q → h'.mem x = 0 := by
  obtain ⟨sbs, T⟩ := reached_tracked hinit hR
  simp only [arenaCalloc, ← hq, bind_eq_ok, assertThat_eq_ok, Prod.exists, pure_eq_ok,
    Prod.mk.injEq] at H
  obtain ⟨_, ⟨h₁, h₂⟩, p, h₃, hmalloc, m, hset, rfl, rfl⟩ := H
  obtain ⟨hrange, rfl⟩ := memset_eq_ok hset
  rcases arenaMalloc_spec T.ok hg.sbrkOk hmalloc with ⟨h0, -⟩ | ⟨k, u, rest, hH, rfl, -, hbig⟩
  · exact absurd h0 hp
  · have hA := hH.allocated
    have F := hA.ok.marked.fits u hA.mem
    have hz := hA.ok.marked.rzOk
    have hpages : ∀ sb ∈ h₃.arena.sblocks, pageSzB ≤ sb := by
      intro sb hsb
      rcases arenaMalloc_sbrked hmalloc sb hsb with hold | ⟨size, hsize, hne⟩
      · exact reached_pages hinit hR sb hold
      · exact Nat.le_of_dvd (Nat.pos_of_ne_zero hne)
          (isPageAligned_iff.mp (hg.sbrkOk size sb hsize).2.1)
    -- a size that is rounded up to 0 cannot be filled
    have hsmall : q + 7 < wordMod := by
      have hw : wordB = 4 ∨ wordB = 8 := word_ok
      have hword := hz.word_le
      have hpos := F.pos
      unfold Cell.payload at hrange
      have hmod := wordMod_pos
      rcases hrange with h0 | ⟨-, hle⟩
      · rcases wordMod_cases with h | h <;> omega
      · omega
    have hpsz := hbig hsmall
    have O' : HeapOk g a.rzSzB { h₃ with mem := fill h₃.mem (u.payload g a.rzSzB) 0 q } _ :=
      hA.ok.write_payload hA.mem hA.used (fill_sameOff _ _ _ _) (Nat.le_refl _) (by omega)
    exact ⟨h₁, h₂, hpsz.trans (hA.ok.psz_le hpages hA.mem), u.psz g a.rzSzB,
      O'.arenaPayloadSzB_eq hA.mem hA.used, hpsz, fun x hx₁ hx₂ => fill_zero_eq hx₁ hx₂⟩

/-! ## An arena that has just been set up -/

theorem updateStats_total (hprof : g.profileHeap = false) (h : Heap) (n : Nat) :
    ∃ h', updateStats g h n = .ok h' := by
  unfold updateStats
  simp only [hprof, Bool.false_eq_true, if_false]
  split
  · split <;> exact ⟨_, rfl⟩
  · exact ⟨_, rfl⟩

/-- Allocating from a free block that is big enough. -/
theorem obtainBlock_total (cc req : Nat) (hprof : g.profileHeap = false) (M : Marked g rz h (L ++ c :: R))
    (hfree : c.st = .free) (haddr : 8 ∣ c.addr) (hdvd : 8 ∣ req) (hreq : req ≤ c.size)
    (hroom : overhead g rz ≤ req) :
    ∃ h', obtainBlock g h cc req c.addr (listNo (c.psz g rz)) = .ok (c.payload g rz, h') := by
  have F := M.fits c (by simp)
  have T := M.tagged c (by simp) (by simp [hfree])
  have hpos := F.pos
  have hhead : h.arena.freelist (listNo (c.psz g rz)) ≠ 0 := by
    intro h0
    exact M.freelist_eq_zero_iff.mp h0 c ⟨by simp, hfree, rfl⟩
  obtain ⟨u, rest, h₁, hsplit, hC, M₁, K₁⟩ := splitBlock_carves cc M hfree hdvd hreq
    fun _ => hroom
  have Fu := M₁.fits u (by simp)
  obtain ⟨h₂, hstats⟩ := updateStats_total hprof h₁ (u.psz g rz)
  have hrz₂ : h₂.arena.rzSzB = rz := (updateStats_spec hstats).2.2.rzSzB.trans M₁.rz_eq
  have hpay : getBlockPayload g h₂.arena c.addr = c.payload g rz := F.payload_eq hrz₂
  have halign : c.payload g rz % minMallocSzB = 0 :=
    Nat.mod_eq_zero_of_dvd (Nat.dvd_add haddr M.rzOk.lo_dvd)
  refine ⟨h₂, ?_⟩
  simp only [obtainBlock, assertThat_of (show c.addr ≠ 0 by omega), assertThat_of (listNo_lt _),
    assertThat_of hhead, getBszB_eq M.rzOk F T, assertThat_of hreq, hsplit,
    bszBToPszB_eq M₁.rz_eq Fu, hstats, hpay, assertThat_of halign, ok_bind]
  rfl

/-- The first superblock of an arena becomes one free block. -/
theorem growArena_first (req : Nat) (sbrk : Nat → Option Nat) (arrayOk : Bool) (M : Marked g rz h []) (hsb : h.arena.sblocks = [])
    (hsize : h.arena.sblocksSize = 50)
    (hn : n = superblockSzB h.arena req) (hs : sbrk n = some p) (hp : isPageAligned p) (hpos : 0 < p)
    (hlt : p + n < wordMod) (hroom : sizeofSuperblock + overhead g rz ≤ n) :
    ∃ c h', growArena g h req sbrk arrayOk = .ok (some (c.addr, listNo (c.psz g rz)), h') ∧
      Marked g rz h' [c] ∧ c.st = .free ∧ 8 ∣ c.addr ∧ c.size = n - sizeofSuperblock := by
  obtain ⟨hs₁, hs₂, hs₃⟩ := sizeofSuperblock_bounds
  have hn8 : 8 ∣ n := by
    refine Dvd.dvd.trans ?_ (isPageAligned_iff.mp (hn ▸ superblockSzB_aligned h.arena req))
    rcases page_ok with h | h <;> rw [h] <;> decide
  have hp8 : 8 ∣ p := by
    refine Dvd.dvd.trans ?_ (isPageAligned_iff.mp hp)
    rcases page_ok with h | h <;> rw [h] <;> decide
  obtain ⟨c, hc⟩ : ∃ c : Cell, c = ⟨p + sizeofSuperblock, n - sizeofSuperblock, .limbo⟩ := ⟨_, rfl⟩
  have hca : c.addr = p + sizeofSuperblock := by rw [hc]
  have hcs : c.size = n - sizeofSuperblock := by rw [hc]
  have hcl : c.st = .limbo := by rw [hc]
  have F : c.Fits g rz := by
    refine ⟨?_, ?_, ?_, ?_⟩
    · omega
    · omega
    · rw [hcs]
      exact Nat.dvd_sub hn8 (Nat.dvd_of_mod_eq_zero hs₃)
    · unfold Cell.stop
      omega
  obtain ⟨h₂, hh₂⟩ : ∃ h₂ : Heap, h₂ =
      { mem := storeW g h.mem p (n - sizeofSuperblock)
        arena := { h.arena with
          bytesMmaped := addW h.arena.bytesMmaped n
          sblocks := [p], sblocksSize := 50 } } := ⟨_, rfl⟩
  have M₂ : Marked g rz h₂ ([] ++ c :: []) := by
    have M₁ : Marked g rz h₂ [] := M.congr (by rw [hh₂]) (by rw [hh₂]) (by simp)
    exact M₁.addLimbo (L := []) (R := []) F hcl (by simp [Apart])
  obtain ⟨h₃, hfree, M₃, -⟩ := mkFreeBlock_spec M₂ hcl
  obtain ⟨m₄, hcc, M₄, -⟩ := chargeCc_spec M₃ (c := c.become .free) (by simp) (g.adminCc .freeNewSb1)
  have hhead : nPayloadBytes g (storeW g h.mem p (n - sizeofSuperblock)) p = n - sizeofSuperblock :=
    load_store_self (by rw [← wordMod_eq_pow]; omega)
  have hbytes : payloadBytes p = p + sizeofSuperblock := addW_of_lt (by omega)
  have hins : insertSblock [] p = [p] := rfl
  have hnew : newSuperblock g h req sbrk = .ok (p,
      { mem := storeW g h.mem p (n - sizeofSuperblock)
        arena := { h.arena with bytesMmaped := addW h.arena.bytesMmaped n } }) := by
    unfold newSuperblock
    dsimp only
    rw [← hn, hs]
    simp only [assertThat_of (show p ≠ 0 by omega),
      assertThat_of (show p % minMallocSzB = 0 from Nat.mod_eq_zero_of_dvd hp8), ok_bind,
      subW_of_le (show n < wordMod by omega) (show sizeofSuperblock ≤ n by omega)]
    rfl
  refine ⟨c.become .free, { h₃ with mem := m₄ }, ?_, by simpa using M₄, rfl, ?_, hcs⟩
  · simp only [growArena, hnew, ok_bind, if_neg (show p ≠ 0 by omega), hsb, hsize, List.length_nil]
    rw [assertThat_of (Nat.zero_le 50), ok_bind, if_neg (show (0 : Nat) ≠ 50 by omega)]
    change (do
      assertThat (0 < 50)
      let pszB ← bszBToPszB g _ (nPayloadBytes g (storeW g h.mem p (n - sizeofSuperblock)) p)
      let lno ← pszBToListNo pszB
      let h ← mkFreeBlock g _ (payloadBytes p)
        (nPayloadBytes g (storeW g h.mem p (n - sizeofSuperblock)) p) lno
      let m ← chargeCc g h.mem (payloadBytes p) (g.adminCc AdminCc.freeNewSb1)
      pure (some (payloadBytes p, lno), { h with mem := m })) = _
    rw [assertThat_of (show 0 < 50 by omega), ok_bind, hhead, hbytes, ← hca, ← hcs,
      bszBToPszB_eq (by exact M.rz_eq) F, ok_bind, pszBToListNo_eq M.rzOk F, ok_bind]
    rw [hh₂, ← hins, ← hcs] at hfree
    rw [hfree, ok_bind, show chargeCc g h₃.mem c.addr _ = _ from hcc]
    rfl
  · show 8 ∣ c.addr
    rw [hca]
    exact Nat.dvd_add hp8 (Nat.dvd_of_mod_eq_zero hs₃)

/-- The client's arena with the smallest red zones, before the first call. -/
def smallArena : Arena := ⟨true, wordB, 0, fun _ => 0, [], 50, 0, 0, 0, 25000000⟩

theorem arenaInit_smallArena : arenaInit plainConfig true 0 0 = .ok smallArena := by
  have hw : wordB = 4 ∨ wordB = 8 := word_ok
  have hhp : hpOverheadSzB plainConfig = 0 := rfl
  have hpos : 0 < wordB := by omega
  have hrz : elasticRzSzB plainConfig (8 - 1) wordB = wordB := by
    simp only [elasticRzSzB, hhp, minMallocSzB]
    rw [if_neg (by omega)]
  simp only [arenaInit, assertThat_of (show 0 < 128 by omega), if_pos hpos, hrz, ok_bind,
    assertThat_of (Nat.zero_mod pageSzB), overheadSzBLo, overheadSzBHi, hhp, minMallocSzB,
    assertThat_of (show (0 + wordB + wordB) % 8 = 0 by omega),
    assertThat_of (show (wordB + wordB) % 8 = 0 by omega)]
  rfl

theorem eight_dvd_maxPayloadSzB : 8 ∣ maxPayloadSzB := by
  have hw : wordB = 4 ∨ wordB = 8 := word_ok
  have hs := sizeofSuperblock_bounds.2.2
  unfold maxPayloadSzB
  refine Nat.dvd_sub eight_dvd_wordMod ?_
  rcases page_ok with h | h <;> omega

/-- The room that a superblock for the biggest payload takes. -/
theorem superblockSzB_small {R : Nat} (hR : R ≤ maxPayloadSzB) :
    sizeofSuperblock + (R + 4 * wordB) ≤ superblockSzB smallArena (R + 4 * wordB) ∧
      superblockSzB smallArena (R + 4 * wordB) + 2 * pageSzB ≤ wordMod := by
  have hw : wordB = 4 ∨ wordB = 8 := word_ok
  obtain ⟨-, hs, -⟩ := sizeofSuperblock_bounds
  have hpage : pageSzB = 4096 ∨ pageSzB = 65536 := page_ok
  have hpos := pageSzB_pos
  have hroom : 2 * pageSzB + sizeofSuperblock + 4 * wordB ≤ wordMod := by
    rcases wordMod_cases with h | h <;> omega
  have hsum : R + 4 * wordB + sizeofSuperblock + 2 * pageSzB ≤ wordMod := by
    unfold maxPayloadSzB at hR
    omega
  obtain ⟨k, hk⟩ := pageSzB_dvd_wordMod
  have hdm := Nat.div_add_mod (R + 4 * wordB + sizeofSuperblock + (pageSzB - 1)) pageSzB
  have hlt := Nat.mod_lt (R + 4 * wordB + sizeofSuperblock + (pageSzB - 1)) hpos
  have hval : superblockSzB smallArena (R + 4 * wordB) =
      R + 4 * wordB + sizeofSuperblock + (pageSzB - 1) -
        (R + 4 * wordB + sizeofSuperblock + (pageSzB - 1)) % pageSzB := by
    simp only [superblockSzB, smallArena, Nat.not_lt_zero, if_false]
    rw [addW_of_lt (by omega)]
    unfold pgRoundUp roundUp roundDn
    rw [addW_of_lt (by omega)]
  rw [hval]
  refine ⟨by omega, ?_⟩
  -- both sides are whole numbers of pages
  have halign : isPageAligned (R + 4 * wordB + sizeofSuperblock + (pageSzB - 1) -
      (R + 4 * wordB + sizeofSuperblock + (pageSzB - 1)) % pageSzB + pageSzB) :=
    isPageAligned_iff.mpr (Nat.dvd_add (Nat.dvd_sub_mod _) (Nat.dvd_refl _))
  have := halign.add_le isPageAligned_wordMod (by omega)
  omega

/-- An arena that has just been set up can hand out any payload up to the maximum. -/
theorem arenaMalloc_fresh (hq : q ≤ maxPayloadSzB) :
    ∃ grant, GrantOk plainConfig ⟨fun _ => 0, smallArena⟩ grant ∧ ∃ p h',
      arenaMalloc plainConfig ⟨fun _ => 0, smallArena⟩ 1 q (sbrkOf grant) true = .ok (p, h') ∧
      p ≠ 0 ∧ p + q ≤ wordMod := by
  have hw : wordB = 4 ∨ wordB = 8 := word_ok
  have hpage : pageSzB = 4096 ∨ pageSzB = 65536 := page_ok
  obtain ⟨h₀, hh₀⟩ : ∃ h₀ : Heap, h₀ = ⟨fun _ => 0, smallArena⟩ := ⟨_, rfl⟩
  obtain ⟨R, hR⟩ : ∃ R, R = alignReqPszB q := ⟨_, rfl⟩
  have hmax : maxPayloadSzB + 7 < wordMod := by
    unfold maxPayloadSzB
    rcases wordMod_cases with h | h <;> omega
  have hqR : q ≤ R := hR ▸ le_alignReqPszB (by omega)
  have hRmax : R ≤ maxPayloadSzB := by
    obtain ⟨i, hi⟩ := eight_dvd_maxPayloadSzB
    have hR8 : R = (q + 7) - (q + 7) % 8 := by
      rw [hR]
      unfold alignReqPszB roundUp roundDn minMallocSzB
      rw [addW_of_lt (by omega)]
    omega
  obtain ⟨hlo, hhi⟩ := superblockSzB_small hRmax
  obtain ⟨n, hn⟩ : ∃ n, n = superblockSzB smallArena (R + 4 * wordB) := ⟨_, rfl⟩
  rw [← hn] at hlo hhi
  have hpos : 0 < n := by omega
  have T := tracked_init (g := plainConfig) arenaInit_smallArena fun _ => 0
  rw [← hh₀] at T ⊢
  have M : Marked plainConfig wordB h₀ [] := T.ok.marked
  have hov : overhead plainConfig wordB = 4 * wordB := by
    unfold overhead
    rw [show hpOverheadSzB plainConfig = 0 from rfl]
    omega
  have hreq : reqBszB plainConfig h₀.arena q = R + 4 * wordB := by
    have hoh : overheadSzB plainConfig h₀.arena = 4 * wordB := by
      rw [overheadSzB_eq, hh₀]
      exact hov
    rw [reqBszB, pszBToBszB, hoh, ← hR, addW_of_lt (by omega)]
  refine ⟨some (n, pageSzB), ?_, ?_⟩
  · rintro x ⟨⟩
    refine ⟨hpos, Nat.mod_self _, by omega, ?_⟩
    rw [hh₀]
    simp [smallArena]
  · have hnone : findBlock plainConfig h₀ q = .ok none := M.findBlock_none_iff.mpr (by simp)
    have hcalls : CallsNewSuperblock plainConfig h₀ 1 q :=
      ⟨by unfold maxPszB; omega, by omega, hnone⟩
    obtain ⟨c, h₁, hgrow, M₁, hfree, haddr, hsize⟩ := growArena_first (R + 4 * wordB)
      (sbrkOf (some (n, pageSzB))) true (p := pageSzB) (n := n) M
      (by rw [hh₀]; rfl) (by rw [hh₀]; rfl) (by rw [hh₀]; exact hn) (if_pos rfl)
      (Nat.mod_self _) (by omega) (by omega) (by omega)
    have F := M₁.fits c (by simp)
    have hstop := F.payload_bounds
    have hlt := F.lt
    have hR8 : 8 ∣ R := hR ▸ alignReqPszB_dvd q
    obtain ⟨h₂, hobtain⟩ := obtainBlock_total 1 (R + 4 * wordB) (L := []) (R := []) rfl M₁
      hfree haddr (by omega) (by omega) (by omega)
    refine ⟨c.payload plainConfig wordB, h₂, ?_, ?_, ?_⟩
    · rw [arenaMalloc_of_callsNewSuperblock hcalls, hreq, hgrow]
      exact hobtain
    · have := F.payload_pos
      omega
    · have hpsz : c.psz plainConfig wordB = c.size - 4 * wordB := by rw [Cell.psz, hov]
      omega

/-! ## The promise -/

/-- What `arena_calloc` is for, over all arenas and all states that runs reach. -/
structure CallocOk (nmemb bytesPerMemb : Nat) : Prop where
  /-- A product that fits into a word passes the check against overflow. -/
  accepted : nmemb * bytesPerMemb < wordMod →
    nmemb ≤ nmemb * bytesPerMemb % wordMod ∧ bytesPerMemb ≤ nmemb * bytesPerMemb % wordMod
  /-- A block is handed out only if the product fits; it has room for it, and the room is
  zero. -/
  returned : ∀ (g : Config) (clientmem : Bool) (rzSzB minSblockSzB : Nat) (a : Arena) (s : State),
    arenaInit g clientmem rzSzB minSblockSzB = .ok a → Reached g (Sound g) a s →
    ∀ cc grant arrayOk, GrantOk g s.heap grant → ∀ p h',
      arenaCalloc g s.heap cc nmemb bytesPerMemb (sbrkOf grant) arrayOk = .ok (p, h') → p ≠ 0 →
      nmemb * bytesPerMemb < wordMod ∧ ∃ n, arenaPayloadSzB g h' p = .ok n ∧
        nmemb * bytesPerMemb ≤ n ∧ ∀ x, p ≤ x → x < p + nmemb * bytesPerMemb → h'.mem x = 0

/-- A wrapped product that passes the check and can be allocated gives a block that is too
small. -/
theorem not_callocOk_of_wrap {nmemb bytesPerMemb : Nat} (hwrap : wordMod ≤ nmemb * bytesPerMemb)
    (hq : q = nmemb * bytesPerMemb % wordMod) (h₁ : nmemb ≤ q) (h₂ : bytesPerMemb ≤ q)
    (hmax : q ≤ maxPayloadSzB) : ¬ CallocOk nmemb bytesPerMemb := by
  intro hok
  obtain ⟨grant, hg, p, h', hmalloc, hp, hroom⟩ := arenaMalloc_fresh hmax
  have hset : memset h'.mem p 0 q = .ok (fill h'.mem p 0 q) := if_neg (by omega)
  have hcalloc : arenaCalloc plainConfig ⟨fun _ => 0, smallArena⟩ 1 nmemb bytesPerMemb
      (sbrkOf grant) true = .ok (p, { h' with mem := fill h'.mem p 0 q }) := by
    simp only [arenaCalloc, ← hq, assertThat_of (And.intro h₁ h₂), hmalloc, hset, ok_bind]
    rfl
  have hlt := (hok.returned plainConfig true 0 0 smallArena ⟨⟨fun _ => 0, smallArena⟩, []⟩
    arenaInit_smallArena ⟨_, [], trivial, rfl⟩ 1 grant true hg p _ hcalloc hp).1
  omega

/-- **`VG_(arena_calloc)`** keeps its promise iff a product that fits is 0 only for two
zeros, and a product that does not fit wraps around to something smaller than one of the
factors or to more than there ever is. -/
theorem calloc_sound (nmemb bytesPerMemb : Nat) :
    CallocOk nmemb bytesPerMemb ↔
      (nmemb * bytesPerMemb < wordMod → (nmemb = 0 ↔ bytesPerMemb = 0)) ∧
      (wordMod ≤ nmemb * bytesPerMemb →
        nmemb * bytesPerMemb % wordMod < nmemb ∨ nmemb * bytesPerMemb % wordMod < bytesPerMemb ∨
          maxPayloadSzB < nmemb * bytesPerMemb % wordMod) := by
  obtain ⟨q, hq⟩ : ∃ q, q = nmemb * bytesPerMemb % wordMod := ⟨_, rfl⟩
  constructor
  · intro hok
    refine ⟨fun hfits => ?_, fun hwrap => ?_⟩
    · obtain ⟨h₁, h₂⟩ := hok.accepted hfits
      rw [Nat.mod_eq_of_lt hfits] at h₁ h₂
      constructor
      · rintro rfl
        simpa using h₂
      · rintro rfl
        simpa using h₁
    · rw [← hq]
      by_contra hnot
      push Not at hnot
      exact not_callocOk_of_wrap hwrap hq hnot.1 hnot.2.1 hnot.2.2 hok
  · rintro ⟨hfits, hwrap⟩
    refine ⟨fun hlt => ?_, fun g clientmem z min a s hinit hR cc grant arrayOk hg p h' H hp => ?_⟩
    · rw [Nat.mod_eq_of_lt hlt]
      rcases Nat.eq_zero_or_pos nmemb with h0 | hpos
      · have hb := (hfits hlt).mp h0
        simp [h0, hb]
      · have hb : bytesPerMemb ≠ 0 := fun hb => absurd ((hfits hlt).mpr hb) (by omega)
        exact ⟨Nat.le_mul_of_pos_right _ (by omega), Nat.le_mul_of_pos_left _ hpos⟩
    · obtain ⟨h₁, h₂, hmax, n, hn, hqn, hzero⟩ := arenaCalloc_spec hinit hR hg hp hq H
      have hlt : nmemb * bytesPerMemb < wordMod := by
        by_contra hge
        have := hwrap (by omega)
        omega
      rw [Nat.mod_eq_of_lt hlt] at hq
      rw [hq] at hqn hzero
      exact ⟨hlt, n, hn, hqn, hzero⟩

end

/-- On a 32-bit host 65537 members of 65537 bytes are taken for 131073 bytes, and no
members of 8 bytes for an overflow. -/
theorem not_callocOk_wrap :
    letI : Machine := x86Linux
    ¬ CallocOk 65537 65537 ∧ ¬ CallocOk 0 8 := by
  let _ : Machine := x86Linux
  refine ⟨not_callocOk_of_wrap (q := 131073) (by decide) (by decide) (by decide) (by decide) (by decide),
    fun hok => ?_⟩
  have h := (hok.accepted (by decide)).2
  exact absurd h (by decide)

end MallocFree

end Valgrind
