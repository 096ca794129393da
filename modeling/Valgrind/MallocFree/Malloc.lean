import Valgrind.MallocFree.Shape

/-!
# `VG_(arena_malloc)`

`HeapOk` is the heap between calls: no block is in limbo, no two neighbours are
both free, and the bytes on loan are the payloads of the blocks in use.

`arenaMalloc_spec` says what a call that returns does to it. A block of the heap,
or the single block of a new superblock, is carved up (`Carved`): its lower part
goes into use, and what is left over, if it can be a block, becomes free.
-/

namespace Valgrind

namespace MallocFree

open ByteMem Machine Ring Intervals

/-- No two neighbours are both free. -/
def Coalesced (cs : List Cell) : Prop := cs.IsChain fun x y => ¬ (x.st = .free ∧ y.st = .free)

section

variable [Machine] (g : Config) (rz : Nat)

/-- The payload bytes of the cells in use. -/
def loan (cs : List Cell) : Nat := ((cs.filter fun c => c.st = .used).map (Cell.psz g rz)).sum

/-- Where the payload of a cell begins. -/
def Cell.payload (c : Cell) : Nat := c.addr + (hpOverheadSzB g + wordB + rz)

/-- The heap between calls. -/
structure HeapOk (h : Heap) (sbs : List Sblock) : Prop extends Shaped g rz h sbs where
  settled : ∀ c ∈ cellsOf sbs, c.st ≠ .limbo
  coalesced : ∀ s ∈ sbs, Coalesced s.cells
  loan_eq : h.arena.bytesOnLoan = loan g rz (cellsOf sbs)

variable {g rz} {h h' : Heap} {m m' : Mem} {c d u : Cell} {k : Place}
  {L R K K' cs rest : List Cell} {sbs : List Sblock} {x cc req lno v : Nat}

/-! ## Bytes on loan -/

@[simp] theorem loan_append : loan g rz (L ++ R) = loan g rz L + loan g rz R := by
  simp [loan]

@[simp] theorem loan_nil : loan g rz [] = 0 := rfl

theorem loan_cons :
    loan g rz (c :: R) = (if c.st = .used then c.psz g rz else 0) + loan g rz R := by
  unfold loan
  by_cases hc : c.st = .used <;> simp [hc]

theorem loan_eq_zero (h : ∀ c ∈ cs, c.st ≠ .used) : loan g rz cs = 0 := by
  unfold loan
  rw [List.filter_eq_nil_iff.mpr (by simpa using h)]
  rfl

/-- Blocks that stand apart have no more bytes than there are addresses. -/
theorem loan_le {p N : Nat} (hA : Apart cs) (hp : ∀ c ∈ cs, p ≤ c.addr) (hN : ∀ c ∈ cs, c.stop ≤ N)
    (hpN : p ≤ N) : p + loan g rz cs ≤ N := by
  induction cs generalizing p with
  | nil => exact hpN
  | cons c cs ih =>
    obtain ⟨hc, hA⟩ := List.pairwise_cons.mp hA
    have hrest := ih hA hc (fun d hd => hN d (by simp [hd])) (hN c (by simp))
    have hfirst := hp c (by simp)
    have hpsz : c.psz g rz ≤ c.size := Nat.sub_le _ _
    rw [loan_cons]
    unfold Cell.stop at hrest
    split <;> omega

theorem Spread.loan_lt (S : Spread g rz cs) : loan g rz cs < wordMod := by
  have hpos := wordMod_pos
  have h : 0 + loan g rz cs ≤ wordMod - 1 :=
    loan_le S.apart (fun c _ => Nat.zero_le _)
      (fun c hc => by have := (S.fits c hc).lt; omega) (Nat.zero_le _)
  omega

/-! ## Carving up a block -/

variable (g rz) in
/-- `u` is what `arena_malloc` puts into use of the block `c`, and `rest` what it
leaves over. -/
inductive Carved (c : Cell) (req : Nat) : Cell → List Cell → Prop where
  | whole : c.size - req < overhead g rz → req ≤ c.size → Carved c req (c.become .used) []
  | split : overhead g rz ≤ c.size - req → overhead g rz ≤ req →
    Carved c req ⟨c.addr, req, .used⟩ [⟨c.addr + req, c.size - req, .free⟩]

theorem Carved.addr_eq (h : Carved g rz c req u rest) : u.addr = c.addr := by
  cases h <;> rfl

theorem Carved.used (h : Carved g rz c req u rest) : u.st = .used := by
  cases h <;> rfl

theorem Carved.req_le (h : Carved g rz c req u rest) : req ≤ u.size := by
  cases h with
  | whole _ h => exact h
  | split => exact Nat.le_refl _

theorem Carved.tiled (h : Carved g rz c req u rest) {p q : Nat}
    (hT : Tiled Cell.addr Cell.stop p q [c]) : Tiled Cell.addr Cell.stop p q (u :: rest) := by
  have hw : wordB = 4 ∨ wordB = 8 := word_ok
  cases h with
  | whole => exact hT
  | split h₁ h₂ =>
    obtain ⟨h₃, h₄, h₅⟩ := hT
    unfold overhead at h₁ h₂
    simp only [tiled_cons, tiled_nil, Cell.stop] at h₄ h₅ ⊢
    refine ⟨h₃, ?_, trivial, ?_, ?_⟩ <;> omega

theorem mkInuseBlock_room {a : Arena} {b bszB : Nat} (h : mkInuseBlock g a m b bszB = .ok m') :
    overhead g a.rzSzB ≤ bszB := by
  simp only [mkInuseBlock, bind_eq_ok, assertThat_eq_ok] at h
  obtain ⟨_, h, -⟩ := h
  exact h

/-- Of two neighbours in limbo, the lower one goes into use and the upper one becomes
free. -/
theorem useAndFree_spec (cc : Nat) {lo f : Cell} (M : Marked g rz h (L ++ lo :: f :: R)) (hlo : lo.st = .limbo)
    (hf : f.st = .limbo) :
    ∃ h', (do
        let m ← mkInuseBlock g h.arena h.mem lo.addr lo.size
        let m ← chargeCc g m lo.addr cc
        let fragPszB ← bszBToPszB g h.arena f.size
        let fragLno ← pszBToListNo fragPszB
        let h ← mkFreeBlock g { h with mem := m } f.addr f.size fragLno
        let m ← chargeCc g h.mem f.addr (g.adminCc .fragmentation1)
        let bszB ← getBszB g m lo.addr
        pure (bszB, { h with mem := m }) : Result (Nat × Heap)) = .ok (lo.size, h') ∧
      Marked g rz h' (L ++ lo.become .used :: f.become .free :: R) ∧
      Kept (L ++ lo :: f :: R) h h' := by
  have Flo := M.fits lo (by simp)
  have Ff := M.fits f (by simp)
  obtain ⟨m₁, hm₁, M₁, hs₁⟩ := mkInuseBlock_spec M hlo
  obtain ⟨m₂, hm₂, M₂, hs₂⟩ := chargeCc_spec M₁ (c := lo.become .used) (by simp) cc
  have M₂' : Marked g rz { h with mem := m₂ } ((L ++ [lo.become .used]) ++ f :: R) := by
    simpa using M₂
  obtain ⟨h₃, hm₃, M₃, K₃⟩ := mkFreeBlock_spec M₂' hf
  obtain ⟨m₄, hm₄, M₄, hs₄⟩ := chargeCc_spec M₃ (c := f.become .free) (by simp)
    (g.adminCc .fragmentation1)
  have T₄ := M₄.tagged (lo.become .used) (by simp) (by simp)
  have hsize := getBszB_eq M.rzOk (Flo.become .used) T₄
  refine ⟨{ h₃ with mem := m₄ }, ?_, by simpa using M₄, ?_⟩
  · simp only [Cell.become_addr, Cell.become_size] at hm₂ hm₄ hsize
    simp only [hm₁, hm₂, ok_bind, bszBToPszB_eq M.rz_eq Ff, pszBToListNo_eq M.rzOk Ff, hm₃, hm₄, hsize]
    rfl
  · have k₁ : Kept (L ++ lo :: f :: R) h { h with mem := m₂ } :=
      .of_sameOff (c := lo) (by simp) (by simp [hlo]) (hs₁.trans hs₂)
    have k₂ : Kept (L ++ lo :: f :: R) h₃ { h₃ with mem := m₄ } :=
      .of_sameOff (c := f) (by simp) (by simp [hf]) hs₄
    refine (k₁.trans K₃ ?_).trans k₂ fun _ hx => hx
    intro x hx
    simp only [spared_append, spared_cons, Cell.become_st] at hx ⊢
    exact ⟨⟨hx.1, fun h => absurd rfl h, fun _ hd => by cases hd⟩, hx.2.2⟩

/-- **The split**: a free cell is carved up. Nothing can go wrong if what is asked for can
be a block by itself whenever the cell is cut in two. -/
theorem splitBlock_carves (cc : Nat) (M : Marked g rz h (L ++ c :: R)) (hfree : c.st = .free) (hdvd : 8 ∣ req)
    (hreq : req ≤ c.size) (hroom : overhead g rz ≤ c.size - req → overhead g rz ≤ req) :
    ∃ u rest h', splitBlock g h cc req c.addr c.size (listNo (c.psz g rz)) = .ok (u.size, h') ∧
      Carved g rz c req u rest ∧ Marked g rz h' (L ++ u :: rest ++ R) ∧ Kept (L ++ c :: R) h h' := by
  have hst : c.st ≠ .used := by simp [hfree]
  have F := M.fits c (by simp)
  obtain ⟨h₁, hunlink, M₁, K₁⟩ := unlinkBlock_spec M hfree
  have hmin : minUsefulBszB g h.arena = overhead g rz := by
    rw [← M.rz_eq]
    rfl
  unfold splitBlock
  dsimp only
  rw [hmin, hunlink]
  by_cases hfrag : overhead g rz ≤ c.size - req
  · -- enough is left over for a fragment
    have hroom := hroom hfrag
    have hovpos : 0 < overhead g rz := by
      have hw : wordB = 4 ∨ wordB = 8 := word_ok
      unfold overhead
      omega
    have hlt : c.addr + c.size < wordMod := F.lt
    have hpos := F.pos
    have hcut : Marked g rz h₁
        (L ++ [⟨c.addr, req, .limbo⟩, ⟨c.addr + req, c.size - req, .limbo⟩] ++ R) := by
      have M₁' : Marked g rz h₁ (L ++ [c.become .limbo] ++ R) := by simpa using M₁
      refine M₁'.retile (List.cons_ne_nil _ _) (p := c.addr) (q := c.addr + c.size) ?_ (by simp) ?_
        (by simp) ?_
      · refine ⟨rfl, ?_, rfl⟩
        show c.addr < c.addr + c.size
        omega
      · refine ⟨rfl, ?_, rfl, ?_, ?_⟩ <;> simp only [Cell.stop, tiled_nil] <;> omega
      · intro d hd
        simp only [List.mem_cons, List.not_mem_nil, or_false] at hd
        rcases hd with rfl | rfl
        · refine ⟨hpos, hroom, hdvd, ?_⟩
          simp only [Cell.stop]
          omega
        · refine ⟨?_, hfrag, Nat.dvd_sub F.dvd hdvd, ?_⟩ <;> simp only [Cell.stop] <;> omega
    obtain ⟨h₂, hcode, M₂, K₂⟩ := useAndFree_spec cc (L := L) (R := R) (h := h₁)
      (by simpa using hcut) rfl rfl
    have hadd : addW c.addr req = c.addr + req := addW_of_lt (by omega)
    refine ⟨_, _, h₂, ?_, .split hfrag hroom, by simpa [Cell.become] using M₂, K₁.trans K₂ ?_⟩
    · rw [if_pos hfrag, hadd]
      exact hcode
    · intro x hx
      simp only [spared_append, spared_cons, Cell.stop, ne_eq, reduceCtorEq, not_false_eq_true,
        forall_const, hst] at hx ⊢
      refine ⟨hx.1, ?_, ?_, hx.2.2⟩ <;> omega
  · -- the block is used as it is
    obtain ⟨m₂, hm₂, M₂, hs₂⟩ := mkInuseBlock_spec M₁ rfl
    obtain ⟨m₃, hm₃, M₃, hs₃⟩ := chargeCc_spec M₂ (c := c.become .used) (by simp) cc
    simp only [Cell.become_addr, Cell.become_size] at hm₂ hm₃
    refine ⟨c.become .used, [], { h₁ with mem := m₃ }, ?_, .whole (by omega) hreq, by simpa using M₃, ?_⟩
    · rw [if_neg hfrag]
      simp only [ok_bind, hm₂, hm₃]
      rfl
    · exact K₁.trans (.of_sameOff (h := h₁) (c := c) (by simp) hst (hs₂.trans hs₃)) fun _ hx => hx

theorem splitBlock_spec (M : Marked g rz h (L ++ c :: R)) (hfree : c.st = .free) (hdvd : 8 ∣ req)
    (hreq : req ≤ c.size) {bszB : Nat}
    (H : splitBlock g h cc req c.addr c.size (listNo (c.psz g rz)) = .ok (bszB, h')) :
    ∃ u rest, Carved g rz c req u rest ∧ bszB = u.size ∧
      Marked g rz h' (L ++ u :: rest ++ R) ∧ Kept (L ++ c :: R) h h' := by
  have hroom : overhead g rz ≤ c.size - req → overhead g rz ≤ req := by
    intro hfrag
    obtain ⟨h₁, hunlink, M₁, -⟩ := unlinkBlock_spec M hfree
    have hmin : minUsefulBszB g h.arena = overhead g rz := by
      rw [← M.rz_eq]
      rfl
    unfold splitBlock at H
    dsimp only at H
    rw [hmin, if_pos hfrag, hunlink, ok_bind] at H
    obtain ⟨m₂, hm₂, -⟩ := bind_eq_ok.mp H
    rw [← M₁.rz_eq]
    exact mkInuseBlock_room hm₂
  obtain ⟨u, rest, h₁, hcode, hC, M₁, K₁⟩ := splitBlock_carves cc M hfree hdvd hreq hroom
  rw [hcode] at H
  simp only [Except.ok.injEq, Prod.mk.injEq] at H
  obtain ⟨rfl, rfl⟩ := H
  exact ⟨u, rest, hC, rfl, M₁, K₁⟩

/-- The arena with another number of bytes on loan. -/
def Arena.lend (a : Arena) (n : Nat) : Arena := { a with bytesOnLoan := n }

theorem updateStats_spec {pszB : Nat} (H : updateStats g h pszB = .ok h') :
    h'.mem = h.mem ∧ h'.arena.freelist = h.arena.freelist ∧
      SameArena (h.arena.lend (addW h.arena.bytesOnLoan pszB)) h'.arena := by
  unfold updateStats at H
  dsimp only at H
  split at H
  · split at H
    · split at H
      · obtain ⟨_, -, H⟩ := bind_eq_ok.mp H
        simp only [pure_eq_ok] at H
        subst H
        exact ⟨rfl, rfl, ⟨rfl, rfl, rfl, rfl, rfl, rfl⟩⟩
      · simp only [pure_eq_ok] at H
        subst H
        exact ⟨rfl, rfl, ⟨rfl, rfl, rfl, rfl, rfl, rfl⟩⟩
    · simp only [pure_eq_ok] at H
      subst H
      exact ⟨rfl, rfl, ⟨rfl, rfl, rfl, rfl, rfl, rfl⟩⟩
  · simp only [pure_eq_ok] at H
    subst H
    exact ⟨rfl, rfl, ⟨rfl, rfl, rfl, rfl, rfl, rfl⟩⟩

theorem Cell.Fits.payload_eq {a : Arena} (F : c.Fits g rz) (ha : a.rzSzB = rz) :
    getBlockPayload g a c.addr = c.payload g rz := by
  have h := F.room
  unfold overhead at h
  unfold getBlockPayload overheadSzBLo
  rw [ha]
  exact F.addW_eq (by omega)

/-- **`obtained_block`**: a free cell is carved up and its lower part handed out. -/
theorem obtainBlock_spec (M : Marked g rz h (L ++ c :: R)) (hfree : c.st = .free) (hdvd : 8 ∣ req)
    (H : obtainBlock g h cc req c.addr (listNo (c.psz g rz)) = .ok (v, h')) :
    ∃ u rest, Carved g rz c req u rest ∧ v = u.payload g rz ∧ 8 ∣ v ∧
      Marked g rz h' (L ++ u :: rest ++ R) ∧ Frame (L ++ c :: R) h.mem h'.mem ∧
      SameArena (h.arena.lend (addW h.arena.bytesOnLoan (u.psz g rz))) h'.arena := by
  have F := M.fits c (by simp)
  have T := M.tagged c (by simp) (by simp [hfree])
  simp only [obtainBlock, getBszB_eq M.rzOk F T, ok_bind, bind_eq_ok, assertThat_eq_ok] at H
  obtain ⟨_, -, _, -, _, -, _, hreq, ⟨bszB, h₁⟩, hsplit, pszB, hpsz, h₂, hstats, _, halign, H⟩ := H
  obtain ⟨u, rest, hC, rfl, M₁, K₁⟩ := splitBlock_spec M hfree hdvd hreq hsplit
  have Fu := M₁.fits u (by simp)
  obtain ⟨hmem, hfl, hA⟩ := updateStats_spec hstats
  rw [bszBToPszB_eq M₁.rz_eq Fu] at hpsz
  cases hpsz
  have hrz₂ : h₂.arena.rzSzB = rz := hA.rzSzB.trans M₁.rz_eq
  have hpay : getBlockPayload g h₂.arena c.addr = u.payload g rz := by
    rw [← hC.addr_eq]
    exact Fu.payload_eq hrz₂
  simp only [pure_eq_ok, Prod.mk.injEq] at H
  obtain ⟨rfl, rfl⟩ := H
  refine ⟨u, rest, hC, hpay, Nat.dvd_of_mod_eq_zero halign, ?_, ?_, ?_⟩
  · exact M₁.congr (hA.rzSzB) hfl fun d _ _ f _ => by rw [hmem]
  · rw [hmem]
    exact K₁.frame
  · obtain ⟨h₃, h₄, h₅, h₆, h₇, h₈⟩ := hA
    refine ⟨h₃.trans K₁.arena.1, h₄.trans K₁.arena.2, h₅.trans K₁.arena.3, h₆.trans K₁.arena.4,
      h₇.trans K₁.arena.5, h₈.trans ?_⟩
    show addW h₁.arena.bytesOnLoan _ = addW h.arena.bytesOnLoan _
    rw [K₁.arena.bytesOnLoan]

/-! ## Looking for a block -/

theorem scanList_spec {ring : Cycle Cell} (hz : RzOk g rz)
    (hr : IsRing Cell.addr (word g m · .next) (word g m · .prev) ring)
    (hF : ∀ d ∈ ring, d.Fits g rz) (hT : ∀ d ∈ ring, Tagged g m d) {start fuel b : Nat}
    (hc : c ∈ ring) (H : scanList g m req start fuel c.addr = .ok (some b)) :
    ∃ d ∈ ring, b = d.addr ∧ req ≤ d.size := by
  induction fuel generalizing c with
  | zero => exact absurd H throw_eq_ok
  | succ fuel ih =>
    obtain ⟨n, hn, hnext, -⟩ := hr.exists_next hc
    simp only [scanList, getBszB_eq hz (hF c hc) (hT c hc), getNextB_eq hz (hF c hc) (hT c hc),
      ok_bind, hnext] at H
    split at H
    · rename_i hle
      simp only [pure_eq_ok, Option.some.injEq] at H
      exact ⟨c, hc, H.symm, hle⟩
    · split at H
      · simp at H
      · exact ih hn H

/-- What the search finds is a free block that is big enough, on the list it was found
on. -/
theorem scanLists_spec (M : Marked g rz h cs) {left b l : Nat}
    (H : scanLists g h req left lno = .ok (some (b, l))) :
    ∃ c ∈ cs, c.st = .free ∧ b = c.addr ∧ l = listNo (c.psz g rz) ∧ req ≤ c.size ∧ lno ≤ l := by
  induction left generalizing lno with
  | zero => simp [scanLists] at H
  | succ left ih =>
    unfold scanLists at H
    split at H
    · obtain ⟨c, h₁, h₂, h₃, h₄, h₅, h₆⟩ := ih H
      exact ⟨c, h₁, h₂, h₃, h₄, h₅, by omega⟩
    · rename_i hne
      obtain ⟨found, hscan, H⟩ := bind_eq_ok.mp H
      cases found with
      | none =>
        obtain ⟨c, h₁, h₂, h₃, h₄, h₅, h₆⟩ := ih H
        exact ⟨c, h₁, h₂, h₃, h₄, h₅, by omega⟩
      | some b' =>
        simp only [pure_eq_ok, Option.some.injEq, Prod.mk.injEq] at H
        obtain ⟨rfl, rfl⟩ := H
        obtain ⟨ring, hl, hm⟩ := M.lists lno
        rcases hl.head with ⟨-, h0⟩ | ⟨e, he, hhead⟩
        · exact absurd h0 hne
        · rw [hhead] at hscan
          have hin : ∀ d ∈ ring, d ∈ cs ∧ d.st = .free ∧ listNo (d.psz g rz) = lno := fun d hd =>
            (hm d).mp hd
          obtain ⟨d, hd, rfl, hle⟩ := scanList_spec M.rzOk hl.links
            (fun d hd => M.fits d (hin d hd).1)
            (fun d hd => M.tagged d (hin d hd).1 (by simp [(hin d hd).2.1])) he hscan
          exact ⟨d, (hin d hd).1, (hin d hd).2.1, rfl, (hin d hd).2.2.symm, hle, Nat.le_refl _⟩

/-! ## A new superblock -/

variable (g) in
/-- What the allocator relies on the address space manager for: a superblock it hands
out is a page-aligned range of addresses disjoint from all superblocks of the arena.
Nothing of length 0 is ever mapped, nor the last byte of the address space. -/
def SbrkOk (h : Heap) (sbrk : Nat → Option Nat) : Prop :=
  ∀ size p, sbrk size = some p → 0 < size ∧ isPageAligned p ∧ p + size < wordMod ∧
    ∀ sb ∈ h.arena.sblocks,
      p + size ≤ sb ∨ sb + sizeofSuperblock + nPayloadBytes g h.mem sb ≤ p

omit [Machine] in
/-- A list that is sorted with respect to `p` splits where `p` stops to hold. -/
theorem exists_split {α : Type} {r : α → α → Prop} {p : α → Prop} {l : List α} (hl : l.Pairwise r)
    (hp : ∀ x y, x ∈ l → y ∈ l → r x y → p y → p x) :
    ∃ A B, l = A ++ B ∧ (∀ x ∈ A, p x) ∧ ∀ x ∈ B, ¬ p x := by
  induction l with
  | nil => exact ⟨[], [], rfl, by simp, by simp⟩
  | cons a l ih =>
    obtain ⟨ha, hl⟩ := List.pairwise_cons.mp hl
    by_cases hpa : p a
    · obtain ⟨A, B, rfl, hA, hB⟩ := ih hl fun x y hx hy => hp x y (by simp [hx]) (by simp [hy])
      refine ⟨a :: A, B, rfl, ?_, hB⟩
      intro x hx
      rcases List.mem_cons.mp hx with rfl | hx
      · exact hpa
      · exact hA x hx
    · refine ⟨[], a :: l, rfl, by simp, ?_⟩
      intro x hx
      rcases List.mem_cons.mp hx with rfl | hx
      · exact hpa
      · exact fun hpx => hpa (hp a x (by simp) (by simp [hx]) (ha x hx) hpx)

omit [Machine] in
/-- The array stays sorted. -/
theorem insertSblock_eq {A B : List Nat} {sb : Nat} (hA : ∀ a ∈ A, a < sb) (hB : ∀ b ∈ B, sb < b) :
    insertSblock (A ++ B) sb = A ++ sb :: B := by
  have hA' : A.reverse.takeWhile (fun x => decide (sb < x)) = [] := by
    rw [List.takeWhile_eq_nil_iff]
    intro h
    have := hA _ (List.mem_reverse.mp (List.get_mem A.reverse ⟨0, h⟩))
    simp only [decide_eq_true_eq]
    omega
  have hA'' : A.reverse.dropWhile (fun x => decide (sb < x)) = A.reverse := by
    have := List.takeWhile_append_dropWhile (p := fun x => decide (sb < x)) (l := A.reverse)
    rwa [hA', List.nil_append] at this
  have hB' : ∀ b ∈ B.reverse, decide (sb < b) = true := by
    intro b hb
    simpa using hB b (List.mem_reverse.mp hb)
  unfold insertSblock List.rdropWhile List.rtakeWhile
  rw [List.reverse_append, List.takeWhile_append_of_pos hB', List.dropWhile_append_of_pos hB', hA',
    hA'']
  simp

/-- A cell in limbo appears where there was none. -/
theorem Marked.addLimbo (M : Marked g rz h (L ++ R)) (F : c.Fits g rz) (hst : c.st = .limbo)
    (hA : Apart (L ++ c :: R)) : Marked g rz h (L ++ c :: R) := by
  have hcases : ∀ d ∈ L ++ c :: R, d = c ∨ d ∈ L ++ R := fun d hd =>
    List.mem_cons.mp (List.perm_middle.mem_iff.mp hd)
  refine ⟨⟨M.rzOk, hA, ?_⟩, M.rz_eq, ?_, ?_⟩
  · intro d hd
    rcases hcases d hd with rfl | hd
    · exact F
    · exact M.fits d hd
  · intro d hd hdst
    rcases hcases d hd with rfl | hd
    · exact absurd hst hdst
    · exact M.tagged d hd hdst
  · intro lno
    obtain ⟨ring, hl, hm⟩ := M.lists lno
    exact ⟨ring, hl, fun d => by rw [hm d, onList_of_not_free (by simp [hst])]⟩

/-- Every cell lies inside one of the superblocks. -/
theorem Shaped.mem_bounds (S : Shaped g rz h sbs) (hc : c ∈ cellsOf sbs) :
    ∃ s ∈ sbs, c ∈ s.cells ∧ s.start ≤ c.addr ∧ c.stop ≤ s.start + s.n := by
  obtain ⟨s, hs, hcs⟩ := mem_cellsOf.mp hc
  exact ⟨s, hs, hcs, S.cell_bounds hs hcs⟩

/-- A new superblock, still a single cell in limbo, takes its place in the heap. -/
theorem Shaped.addSuperblock (S : Shaped g rz h sbs) {sb n : Nat}
    (hmem : SameOff h.mem h'.mem sb (sb + sizeofSuperblock)) (hn : nPayloadBytes g h'.mem sb = n)
    (hfl : h'.arena.freelist = h.arena.freelist) (hrz : h'.arena.rzSzB = h.arena.rzSzB)
    (harr : h'.arena.sblocks = insertSblock h.arena.sblocks sb)
    (hpos : 0 < sb) (hlt : sb + sizeofSuperblock + n + pageSzB ≤ wordMod)
    (F : Cell.Fits g rz ⟨sb + sizeofSuperblock, n, .limbo⟩)
    (hdis : ∀ s ∈ sbs, sb + sizeofSuperblock + n ≤ s.addr ∨ s.start + s.n ≤ sb) :
    ∃ A B, sbs = A ++ B ∧
      Shaped g rz h' (A ++ ⟨sb, n, [⟨sb + sizeofSuperblock, n, .limbo⟩]⟩ :: B) := by
  have horder : sbs.Pairwise fun s t => s.start + s.n ≤ t.addr := by
    have := S.sup.order
    rw [List.pairwise_map] at this
    exact this
  obtain ⟨A, B, rfl, hA, hB⟩ := exists_split (p := fun s => s.addr < sb) horder (by
    intro s t hs ht hst hlt'
    simp only [Sblock.start] at hst
    omega)
  have hw := F.room
  have hword : wordB = 4 ∨ wordB = 8 := word_ok
  have hnpos : 0 < n := by
    simp only [overhead] at hw
    omega
  have hA' : ∀ s ∈ A, s.start + s.n ≤ sb := by
    intro s hs
    have h₁ := hA s hs
    have h₂ := hdis s (by simp [hs])
    omega
  have hB' : ∀ s ∈ B, sb + sizeofSuperblock + n ≤ s.addr := by
    intro s hs
    have h₁ := hB s hs
    have h₂ := hdis s (by simp [hs])
    have h₃ := sizeofSuperblock_bounds.1
    simp only [Sblock.start] at h₂
    omega
  have hcA : ∀ c ∈ cellsOf A, c.stop ≤ sb := by
    intro c hc
    obtain ⟨s, hs, hcs⟩ := mem_cellsOf.mp hc
    have := S.cell_bounds (by simp [hs]) hcs
    exact this.2.trans (hA' s hs)
  have hcB : ∀ c ∈ cellsOf B, sb + sizeofSuperblock + n ≤ c.addr := by
    intro c hc
    obtain ⟨s, hs, hcs⟩ := mem_cellsOf.mp hc
    have h₁ := S.cell_bounds (by simp [hs]) hcs
    have h₂ := hB' s hs
    simp only [Sblock.start] at h₁
    omega
  have hcells : cellsOf (A ++ B) = cellsOf A ++ cellsOf B := by simp [cellsOf]
  refine ⟨A, B, rfl, ?_, ?_, ?_⟩
  · -- the cells, old and new
    have M' : Marked g rz h' (cellsOf A ++ cellsOf B) := by
      rw [← hcells]
      refine S.marked.congr hrz hfl fun c hc _ f _ => ?_
      have Fc := S.marked.fits c hc
      have hb := Fc.at_bounds S.marked.rzOk f
      rw [hcells] at hc
      refine hmem.load_eq ?_
      rcases List.mem_append.mp hc with hc | hc
      · have := hcA c hc
        omega
      · have := hcB c hc
        omega
    have hM := M'.addLimbo F rfl (by
      have hAp := M'.apart
      simp only [Apart, List.pairwise_append, List.pairwise_cons, List.mem_cons,
        forall_eq_or_imp] at hAp ⊢
      refine ⟨hAp.1, ⟨hcB, hAp.2.1⟩, fun a ha => ⟨?_, hAp.2.2 a ha⟩⟩
      have := hcA a ha
      show a.stop ≤ sb + sizeofSuperblock
      omega)
    simpa [cellsOf] using hM
  · -- the array and the size words
    have hsup := S.sup
    rw [List.map_append] at hsup
    refine ⟨?_, ?_, ?_, ?_⟩
    · rw [harr, hsup.array, List.map_append, insertSblock_eq]
      · simp [Sblock.ext]
      · simpa [Sblock.ext] using hA
      · intro b hb
        simp only [List.mem_map, exists_exists_and_eq_and] at hb
        obtain ⟨s, hs, rfl⟩ := hb
        have := hB' s hs
        show sb < s.addr
        omega
    · have ho := hsup.order
      simp only [List.map_append, List.map_cons, List.pairwise_append, List.pairwise_cons,
        List.mem_map, List.mem_cons, forall_eq_or_imp, forall_exists_index, and_imp,
        forall_apply_eq_imp_iff₂] at ho ⊢
      exact ⟨ho.1, ⟨hB', ho.2.1⟩, fun s hs => ⟨hA' s hs, ho.2.2 s hs⟩⟩
    · intro x hx
      simp only [List.map_append, List.map_cons, List.mem_append, List.mem_cons, List.mem_map] at hx
      have hold : ∀ s ∈ A ++ B, nPayloadBytes g h'.mem s.addr = s.n := by
        intro s hs
        have hh : nPayloadBytes g h.mem s.addr = s.n := S.sup.header s.ext (List.mem_map_of_mem hs)
        rw [← hh]
        refine hmem.load_eq ?_
        have hsz := sizeofSuperblock_bounds.1
        show s.addr + wordB ≤ sb ∨ sb + sizeofSuperblock ≤ s.addr
        rcases List.mem_append.mp hs with hs | hs
        · have := hA' s hs
          simp only [Sblock.start] at this
          omega
        · have := hB' s hs
          omega
      rcases hx with ⟨s, hs, rfl⟩ | rfl | ⟨s, hs, rfl⟩
      · exact hold s (by simp [hs])
      · exact hn
      · exact hold s (by simp [hs])
    · intro x hx
      simp only [List.map_append, List.map_cons, List.mem_append, List.mem_cons] at hx
      rcases hx with hx | rfl | hx
      · exact hsup.inside x (by simp [hx])
      · exact ⟨hpos, hlt⟩
      · exact hsup.inside x (by simp [hx])
  · intro s hs
    simp only [List.mem_append, List.mem_cons] at hs
    rcases hs with hs | rfl | hs
    · exact S.tiled s (by simp [hs])
    · refine ⟨rfl, ?_, rfl⟩
      show sb + sizeofSuperblock < sb + sizeofSuperblock + n
      omega
    · exact S.tiled s (by simp [hs])

/-- The bytes of the blocks in use have not changed. -/
def UsedSame (cs : List Cell) (m m' : Mem) : Prop :=
  ∀ d ∈ cs, d.st = .used → ∀ x, d.addr ≤ x → x < d.stop → m' x = m x

omit [Machine] in
theorem Frame.usedSame (hF : Frame cs m m') (hA : Apart cs) : UsedSame cs m m' := by
  intro d hd hst x h₁ h₂
  refine hF x fun c hc hcst => ?_
  have hne : c ≠ d := by
    rintro rfl
    exact hcst hst
  rcases hA.stop_le hc hd hne with h | h <;> omega

/-- The size of a new superblock is a whole number of pages. -/
theorem superblockSzB_aligned (a : Arena) (cszB : Nat) : isPageAligned (superblockSzB a cszB) :=
  pgRoundUp_aligned _

theorem newSuperblock_spec {sbrk : Nat → Option Nat} {sb : Nat}
    (H : newSuperblock g h req sbrk = .ok (sb, h')) :
    (sb = 0 ∧ h' = h) ∨
    (sb ≠ 0 ∧ sbrk (superblockSzB h.arena req) = some sb ∧
      h' = { mem := storeW g h.mem sb (subW (superblockSzB h.arena req) sizeofSuperblock)
             arena := { h.arena with
               bytesMmaped := addW h.arena.bytesMmaped (superblockSzB h.arena req) } }) := by
  unfold newSuperblock at H
  dsimp only at H
  cases hs : sbrk (superblockSzB h.arena req) with
  | none =>
    simp only [hs] at H
    split at H
    · simp only [pure_eq_ok, Prod.mk.injEq] at H
      exact .inl ⟨H.1.symm, H.2.symm⟩
    · exact absurd H throw_eq_ok
  | some p =>
    simp only [hs, bind_eq_ok, assertThat_eq_ok, pure_eq_ok, Prod.mk.injEq] at H
    obtain ⟨_, hne, _, -, rfl, rfl⟩ := H
    exact .inr ⟨hne, rfl, rfl⟩

/-- **A new superblock** becomes a heap with one more free block. -/
theorem growArena_spec (S : Shaped g rz h sbs) {sbrk : Nat → Option Nat} {arrayOk : Bool}
    (hsbrk : SbrkOk g h sbrk) {b l : Nat}
    (H : growArena g h req sbrk arrayOk = .ok (some (b, l), h')) :
    ∃ A B sb n, ∃ c : Cell, sbs = A ++ B ∧ c.st = .free ∧ b = c.addr ∧ l = listNo (c.psz g rz) ∧
      4072 ≤ c.size ∧ Shaped g rz h' (A ++ ⟨sb, n, [c]⟩ :: B) ∧
      UsedSame (cellsOf sbs) h.mem h'.mem ∧
      h'.arena.clientmem = h.arena.clientmem ∧ h'.arena.bytesOnLoan = h.arena.bytesOnLoan := by
  have hz := S.marked.rzOk
  unfold growArena at H
  obtain ⟨⟨sb, h₁⟩, hnew, H⟩ := bind_eq_ok.mp H
  dsimp only at H
  split at H
  · simp only [bind_eq_ok, pure_eq_ok, Prod.mk.injEq] at H
    obtain ⟨_, -, H, -⟩ := H
    cases H
  · rename_i hne
    rcases newSuperblock_spec hnew with ⟨h0, -⟩ | ⟨-, hs, rfl⟩
    · exact absurd h0 hne
    obtain ⟨hpos, hpage, hlt, hdis⟩ := hsbrk _ _ hs
    obtain ⟨size, hsize⟩ : ∃ size, size = superblockSzB h.arena req := ⟨_, rfl⟩
    rw [← hsize] at hpos hlt hdis H
    have hsaligned : isPageAligned size := hsize ▸ superblockSzB_aligned h.arena req
    have hpg := isPageAligned_zero.add_le hsaligned hpos
    have htop := (hpage.add hsaligned).add_le isPageAligned_wordMod hlt
    have hpage8 : 8 ∣ size := by
      refine Dvd.dvd.trans ?_ (isPageAligned_iff.mp hsaligned)
      rcases page_ok with h | h <;> rw [h] <;> decide
    obtain ⟨hs₁, hs₂, hs₃⟩ := sizeofSuperblock_bounds
    have h4096 : 4096 ≤ size := by
      rcases page_ok with h | h <;> omega
    obtain ⟨n, hn⟩ : ∃ n, n = size - sizeofSuperblock := ⟨_, rfl⟩
    have hsub : subW size sizeofSuperblock = n := by
      rw [subW_of_le (by omega) (by omega), hn]
    rw [hsub] at H
    simp only [bind_eq_ok, assertThat_eq_ok] at H
    obtain ⟨_, -, asize, -, _, -, pszB, hpsz, lno, hlno, h₃, hfree, m₄, hcc, H⟩ := H
    obtain ⟨h₂, hh₂⟩ : ∃ h₂ : Heap, h₂ = { mem := storeW g h.mem sb n, arena := { h.arena with
      bytesMmaped := addW h.arena.bytesMmaped size
      sblocks := insertSblock h.arena.sblocks sb, sblocksSize := asize } } := ⟨_, rfl⟩
    rw [← hh₂] at hfree
    have hbytes : payloadBytes sb = sb + sizeofSuperblock := addW_of_lt (by omega)
    have hhead : nPayloadBytes g (storeW g h.mem sb n) sb = n :=
      load_store_self (by rw [← wordMod_eq_pow]; omega)
    rw [hbytes] at hfree hcc H
    rw [hhead] at hpsz hfree
    have hroom : overhead g rz ≤ n := by
      simp only [bszBToPszB, bind_eq_ok, assertThat_eq_ok, overheadSzB_eq, S.marked.rz_eq] at hpsz
      obtain ⟨_, h, -⟩ := hpsz
      exact h
    have F : Cell.Fits g rz ⟨sb + sizeofSuperblock, n, .limbo⟩ := by
      refine ⟨?_, hroom, ?_, ?_⟩
      · show 0 < sb + sizeofSuperblock
        omega
      · show 8 ∣ n
        omega
      · show sb + sizeofSuperblock + n < wordMod
        omega
    have hsame : SameOff h.mem h₂.mem sb (sb + sizeofSuperblock) := by
      rw [hh₂]
      exact (store_sameOff _ _ _).mono (Nat.le_refl _) (by omega)
    have hdis' : ∀ s ∈ sbs, sb + size ≤ s.addr ∨ s.start + s.n ≤ sb := by
      intro s hs
      have hx : s.ext ∈ sbs.map Sblock.ext := List.mem_map_of_mem hs
      have hin : s.addr ∈ h.arena.sblocks := by
        rw [S.sup.array]
        exact List.mem_map_of_mem hx
      have hhd : nPayloadBytes g h.mem s.addr = s.n := S.sup.header _ hx
      have := hdis s.addr hin
      rwa [hhd] at this
    obtain ⟨A, B, rfl, S₂⟩ := S.addSuperblock (n := n) hsame (by rw [hh₂]; exact hhead)
      (by rw [hh₂]) (by rw [hh₂]) (by rw [hh₂]) (by omega) (by omega) F (by
        intro s hs
        have := hdis' s hs
        omega)
    obtain ⟨c, hc⟩ : ∃ c : Cell, c = ⟨sb + sizeofSuperblock, n, .limbo⟩ := ⟨_, rfl⟩
    obtain ⟨k, hk⟩ : ∃ k : Place, k = ⟨A, sb, n, [], [], B⟩ := ⟨_, rfl⟩
    have hca : c.addr = sb + sizeofSuperblock := by rw [hc]
    have hcs : c.size = n := by rw [hc]
    have hcl : c.st = .limbo := by rw [hc]
    have hfill : ∀ d : Cell, A ++ ⟨sb, n, [d]⟩ :: B = k.fill [d] := by
      intro d
      rw [hk]
      rfl
    rw [← hc] at F
    rw [← hc, hfill c] at S₂
    have M₂ : Marked g rz h₂ (k.lefts ++ c :: k.rights) := by
      have := S₂.marked
      rw [cellsOf_fill] at this
      simpa using this
    have hrz₂ : h₂.arena.rzSzB = rz := M₂.rz_eq
    -- the new block is put on its list
    obtain ⟨h₃', hfree', M₃, K₃⟩ := mkFreeBlock_spec M₂ hcl
    have hpsz' : pszB = c.psz g rz := by
      have := bszBToPszB_eq (a := h.arena) S.marked.rz_eq F
      rw [hcs] at this
      exact Except.ok.inj (hpsz.symm.trans this)
    have hlno' : lno = listNo (c.psz g rz) := by
      rw [hpsz', pszBToListNo_eq hz F] at hlno
      exact (Except.ok.inj hlno).symm
    rw [← hca, ← hcs, hlno', hfree'] at hfree
    cases hfree
    obtain ⟨m₅, hcc', M₅, hs₅⟩ := chargeCc_spec M₃ (c := c.become .free) (by simp)
      (g.adminCc .freeNewSb1)
    rw [← hca] at hcc
    simp only [Cell.become_addr, hcc, Except.ok.injEq] at hcc'
    subst hcc'
    simp only [pure_eq_ok, Prod.mk.injEq, Option.some.injEq] at H
    obtain ⟨⟨rfl, rfl⟩, rfl⟩ := H
    have hfr : Frame (k.lefts ++ [c] ++ k.rights) h₂.mem m₄ := by
      have h₁ : Frame (k.lefts ++ c :: k.rights) h₃.mem m₄ :=
        .of_sameOff (c := c) (by simp) (by simp [hcl]) hs₅
      simpa using K₃.frame.trans h₁ fun _ hx => hx
    have S₅ : Shaped g rz { h₃ with mem := m₄ } (k.fill [c.become .free]) := by
      refine S₂.refill ?_ (fun h => h) hfr ?_
      · simpa using M₅
      · exact K₃.arena.sblocks
    refine ⟨A, B, sb, n, c.become .free, rfl, rfl, hca.symm, hlno', ?_, ?_, ?_, ?_, ?_⟩
    · show 4072 ≤ c.size
      omega
    · rw [hfill]
      exact S₅
    · intro d hd hst x h₁ h₂
      have hd' : d ∈ k.lefts ++ [c] ++ k.rights := by
        rw [cellsOf, List.flatMap_append] at hd
        rcases List.mem_append.mp hd with hd | hd
        · simp [hk, Place.lefts, cellsOf, hd]
        · simp [hk, Place.rights, cellsOf, hd]
      have hout : x < sb ∨ sb + sizeofSuperblock ≤ x := by
        obtain ⟨s, hs, -, hb₁, hb₂⟩ := S.mem_bounds hd
        have := hdis' s hs
        simp only [Sblock.start] at this hb₁ hb₂
        omega
      have happ : Apart (k.lefts ++ [c] ++ k.rights) := by simpa using M₂.apart
      exact (hfr.usedSame happ d hd' hst x h₁ h₂).trans (hsame x hout)
    · show h₃.arena.clientmem = _
      rw [K₃.arena.clientmem, hh₂]
    · show h₃.arena.bytesOnLoan = _
      rw [K₃.arena.bytesOnLoan, hh₂]

theorem growArena_none {sbrk : Nat → Option Nat} {arrayOk : Bool}
    (H : growArena g h req sbrk arrayOk = .ok (none, h')) : h' = h := by
  unfold growArena at H
  obtain ⟨⟨sb, h₁⟩, hnew, H₁⟩ := bind_eq_ok.mp H
  dsimp only at H₁
  split at H₁
  · rename_i h0
    rcases newSuperblock_spec hnew with ⟨-, he⟩ | ⟨hne, -⟩
    · obtain ⟨_, -, H₂⟩ := bind_eq_ok.mp H₁
      simp only [pure_eq_ok, Prod.mk.injEq, true_and] at H₂
      exact H₂.symm.trans he
    · exact absurd h0 hne
  · simp only [bind_eq_ok, pure_eq_ok] at H₁
    obtain ⟨_, -, _, -, _, -, _, -, _, -, _, -, _, -, H₂⟩ := H₁
    cases congrArg Prod.fst H₂

/-! ## The heap after an allocation -/

omit [Machine] in
/-- Neighbours around a free cell are not free; with the cell in use instead, anything
may stand next to it. -/
theorem Coalesced.around {P Q : List Cell} (h : Coalesced (P ++ [c] ++ Q)) (hc : c.st = .free) :
    Coalesced P ∧ Coalesced Q ∧ (∀ d ∈ P.getLast?, d.st ≠ .free) ∧ ∀ d ∈ Q.head?, d.st ≠ .free := by
  simp only [Coalesced, List.isChain_append, List.isChain_singleton, List.head?_cons,
    Option.mem_some_iff, forall_eq', true_and] at h
  obtain ⟨⟨hP, hl⟩, hQ, hr⟩ := h
  refine ⟨hP, hQ, fun d hd hf => hl d hd ⟨hf, hc⟩, fun d hd hf => hr c ?_ d hd ⟨hc, hf⟩⟩
  simp

variable (g rz) in
/-- What a successful `arena_malloc` does to the heap: `u`, at the place `k`, is in use
besides what was, and no byte of what was in use has changed. -/
structure Handed (h : Heap) (sbs : List Sblock) (h' : Heap) (k : Place) (u : Cell)
    (rest : List Cell) : Prop where
  ok : HeapOk g rz h' (k.fill (u :: rest))
  used : u.st = .used
  left_busy : ∀ d ∈ k.left.getLast?, d.st ≠ .free
  others : ∀ d, d.st = .used → (d ∈ k.lefts ++ k.rights ↔ d ∈ cellsOf sbs)
  rest_free : ∀ d ∈ rest, d.st = .free
  loan_eq : loan g rz (cellsOf sbs) = loan g rz k.lefts + loan g rz k.rights
  frame : UsedSame (cellsOf sbs) h.mem h'.mem
  clientmem : h'.arena.clientmem = h.arena.clientmem

theorem Carved.rest_free (h : Carved g rz c req u rest) : ∀ d ∈ rest, d.st = .free := by
  cases h <;> simp

theorem Carved.coalesced (hC : Carved g rz c req u rest) {P Q : List Cell}
    (h : Coalesced (P ++ [c] ++ Q)) (hc : c.st = .free) : Coalesced (P ++ u :: rest ++ Q) := by
  obtain ⟨hP, hQ, -, hr⟩ := h.around hc
  have hu := hC.used
  have hrest : Coalesced (u :: rest) ∧ ∀ d ∈ (u :: rest).getLast?, ∀ e ∈ Q.head?,
      ¬ (d.st = .free ∧ e.st = .free) := by
    cases hC with
    | whole =>
      refine ⟨List.isChain_singleton _, ?_⟩
      rintro d hd e he ⟨-, h₂⟩
      exact hr e he h₂
    | split =>
      refine ⟨List.isChain_pair.mpr (by simp), ?_⟩
      rintro d hd e he ⟨-, h₂⟩
      exact hr e he h₂
  refine List.isChain_append.mpr ⟨List.isChain_append.mpr ⟨hP, hrest.1, ?_⟩, hQ, ?_⟩
  · intro d _ e he
    simp only [List.head?_cons, Option.mem_some_iff] at he
    subst he
    simp [hu]
  · intro d hd e he
    rw [List.getLast?_append_of_ne_nil _ (List.cons_ne_nil _ _)] at hd
    exact hrest.2 d hd e he

/-- Handing out part of a free block of the heap. -/
theorem HeapOk.hand (O : HeapOk g rz h (k.fill [c])) (hfree : c.st = .free) (hdvd : 8 ∣ req)
    (H : obtainBlock g h cc req c.addr (listNo (c.psz g rz)) = .ok (v, h')) :
    ∃ u rest, Handed g rz h (k.fill [c]) h' k u rest ∧ Carved g rz c req u rest ∧
      v = u.payload g rz ∧ 8 ∣ v := by
  have hst : c.st ≠ .used := by simp [hfree]
  have hM := O.marked
  rw [cellsOf_fill] at hM
  have M : Marked g rz h (k.lefts ++ c :: k.rights) := by simpa using hM
  obtain ⟨u, rest, hC, hv, hv8, M', hF, hA⟩ := obtainBlock_spec M hfree hdvd H
  have hF' : Frame (k.lefts ++ [c] ++ k.rights) h.mem h'.mem := by simpa using hF
  have hcs : cellsOf (k.fill [c]) = k.lefts ++ [c] ++ k.rights := cellsOf_fill k [c]
  have hloan : loan g rz (cellsOf (k.fill [c])) = loan g rz k.lefts + loan g rz k.rights := by
    rw [hcs]
    simp [loan_cons, hst]
  have S' : Shaped g rz h' (k.fill (u :: rest)) :=
    O.toShaped.refill M' (fun hT => hC.tiled hT) hF' (hA.sblocks)
  refine ⟨u, rest, ⟨⟨S', ?_, ?_, ?_⟩, hC.used, ?_, ?_, hC.rest_free, hloan, ?_, hA.clientmem⟩, hC,
    hv, hv8⟩
  · intro d hd
    rw [cellsOf_fill] at hd
    simp only [List.mem_append, List.mem_cons] at hd
    rcases hd with (hd | rfl | hd) | hd
    · exact O.settled d (by rw [hcs]; simp [hd])
    · simp [hC.used]
    · simp [hC.rest_free d hd]
    · exact O.settled d (by rw [hcs]; simp [hd])
  · intro s hs
    rcases mem_fill_cases [c] hs with rfl | hs
    · exact hC.coalesced (O.coalesced ⟨k.addr, k.n, k.left ++ [c] ++ k.right⟩
        (by simp [Place.fill])) hfree
    · exact O.coalesced s hs
  · have hlt := S'.marked.toSpread.loan_lt
    rw [cellsOf_fill] at hlt ⊢
    have hrest : loan g rz rest = 0 := by
      cases hC with
      | whole => rfl
      | split => simp [loan_cons]
    simp only [loan_append, loan_cons, hC.used, if_true, hrest] at hlt ⊢
    rw [hA.bytesOnLoan]
    show addW h.arena.bytesOnLoan (u.psz g rz) = _
    rw [O.loan_eq, hloan, addW_of_lt (by omega)]
    omega
  · exact ((O.coalesced ⟨k.addr, k.n, k.left ++ [c] ++ k.right⟩
      (by simp [Place.fill])).around hfree).2.2.1
  · intro d hd
    rw [hcs]
    simp only [List.mem_append, List.mem_singleton]
    constructor
    · rintro (h₁ | h₁)
      · exact .inl (.inl h₁)
      · exact .inr h₁
    · rintro ((h₁ | rfl) | h₁)
      · exact .inl h₁
      · exact absurd hd hst
      · exact .inr h₁
  · rw [hcs]
    exact hF'.usedSame (by simpa using M.apart)

/-! ## How much is handed out -/

omit [Machine] in
/-- The last list is for the biggest blocks. -/
theorem listNo_eq_last_iff {p : Nat} : listNo p = 111 ↔ 79120 ≤ p := by
  have hlen : listBounds.length = 47 := rfl
  have hlt : listBounds.findIdx (p / 8 < ·) < listBounds.length ↔ p / 8 < 9890 := by
    rw [List.findIdx_lt_length]
    constructor
    · rintro ⟨x, hx, h⟩
      have hmax : ∀ x ∈ listBounds, x ≤ 9890 := by decide
      have := hmax x hx
      simp only [decide_eq_true_eq] at h
      omega
    · intro h
      exact ⟨9890, by decide, by simpa using h⟩
  have hle : listBounds.findIdx (p / 8 < ·) ≤ 47 := List.findIdx_le_length
  unfold listNo minMallocSzB
  dsimp only
  split <;> omega

theorem alignReqPszB_dvd (req : Nat) : 8 ∣ alignReqPszB req := roundDn_dvd _ _

theorem alignReqPszB_lt (req : Nat) : alignReqPszB req < wordMod :=
  (roundDn_le _ _).trans_lt (addW_lt _ _)

theorem le_alignReqPszB (h : req + 7 < wordMod) : req ≤ alignReqPszB req := by
  unfold alignReqPszB roundUp roundDn minMallocSzB
  rw [addW_of_lt h]
  omega

theorem eight_dvd_addW {a b : Nat} (ha : 8 ∣ a) (hb : 8 ∣ b) : 8 ∣ addW a b :=
  (Nat.dvd_mod_iff eight_dvd_wordMod).mpr (Nat.dvd_add ha hb)

/-- Although the block size asked for is computed in word arithmetic, the block handed
out is never too small: when the sum wraps, the block that was found is so big that
it would have been split, into a part too small to be a block. -/
theorem Carved.psz_ge {R : Nat} (hC : Carved g rz c (addW R (overhead g rz)) u rest)
    (hz : RzOk g rz) (hR : R < wordMod)
    (hbig : wordMod ≤ R + overhead g rz → 2 * overhead g rz ≤ c.size) : R ≤ u.psz g rz := by
  have hsmall := hz.small
  have hmod : overhead g rz < wordMod := by
    rcases wordMod_cases with h | h <;> omega
  rcases Nat.lt_or_ge (R + overhead g rz) wordMod with h | h
  · have := hC.req_le
    rw [addW_of_lt h] at this
    unfold Cell.psz
    omega
  · have hw := addW_of_ge hR hmod h
    have hbig := hbig h
    cases hC with
    | whole h₁ _ => omega
    | split _ h₂ => omega

/-- **`VG_(arena_malloc)`**: a call that returns hands out a block or, in the client's
arena only, the null pointer. -/
theorem arenaMalloc_spec (O : HeapOk g rz h sbs) {sbrk : Nat → Option Nat} {arrayOk : Bool}
    (hsbrk : SbrkOk g h sbrk) {p : Nat} (H : arenaMalloc g h cc req sbrk arrayOk = .ok (p, h')) :
    (p = 0 ∧ h' = h) ∨ ∃ k u rest, Handed g rz h sbs h' k u rest ∧ p = u.payload g rz ∧ 8 ∣ p ∧
      (req + 7 < wordMod → req ≤ u.psz g rz) := by
  have hz := O.marked.rzOk
  have hsmall := hz.small
  have hR := alignReqPszB_lt req
  have hbszB : pszBToBszB g h.arena (alignReqPszB req) =
      addW (alignReqPszB req) (overhead g rz) := by
    rw [← O.marked.rz_eq]
    rfl
  have hdvd : 8 ∣ addW (alignReqPszB req) (overhead g rz) :=
    eight_dvd_addW (alignReqPszB_dvd req) hz.dvd
  simp only [arenaMalloc, hbszB, pszBToListNo_of_dvd (alignReqPszB_dvd req), ok_bind, bind_eq_ok, assertThat_eq_ok] at H
  obtain ⟨_, -, _, -, found, hscan, H⟩ := H
  cases found with
  | some bl =>
    obtain ⟨b, l⟩ := bl
    obtain ⟨c, hc, hfree, rfl, rfl, hle, hlno⟩ := scanLists_spec O.marked hscan
    obtain ⟨k, rfl⟩ := exists_place hc
    obtain ⟨u, rest, hH, hC, hp, hp8⟩ := O.hand hfree hdvd H
    refine .inr ⟨k, u, rest, hH, hp, hp8, fun hreq => ?_⟩
    refine (le_alignReqPszB hreq).trans (hC.psz_ge hz hR fun hwrap => ?_)
    -- a request that wraps is looked for on the last list only
    have hlast : listNo (alignReqPszB req) = 111 := by
      rw [listNo_eq_last_iff]
      rcases wordMod_cases with h | h <;> omega
    have hlt := listNo_lt (c.psz g rz)
    have hcl : listNo (c.psz g rz) = 111 := by
      unfold nMallocLists at hlt
      omega
    rw [listNo_eq_last_iff] at hcl
    unfold Cell.psz at hcl
    omega
  | none =>
    obtain ⟨⟨fresh, h₁⟩, hgrow, H⟩ := bind_eq_ok.mp H
    cases fresh with
    | none =>
      simp only [pure_eq_ok, Prod.mk.injEq] at H
      exact .inl ⟨H.1.symm, H.2 ▸ growArena_none hgrow⟩
    | some bl =>
      obtain ⟨b, l⟩ := bl
      obtain ⟨A, B, sb, n, c, rfl, hfree, rfl, rfl, hbig, S₁, hU, hcm, hbl⟩ :=
        growArena_spec O.toShaped hsbrk hgrow
      have hst : c.st ≠ .used := by simp [hfree]
      have hcells : ∀ d, d ∈ cellsOf (A ++ ⟨sb, n, [c]⟩ :: B) ↔ d = c ∨ d ∈ cellsOf (A ++ B) := by
        intro d
        rw [cellsOf, cellsOf, List.flatMap_append, List.flatMap_append, List.flatMap_cons]
        exact List.perm_middle.mem_iff.trans List.mem_cons
      have hloan : loan g rz (cellsOf (A ++ ⟨sb, n, [c]⟩ :: B)) = loan g rz (cellsOf (A ++ B)) := by
        simp [cellsOf, loan_cons, hst]
      have O₁ : HeapOk g rz h₁ (A ++ ⟨sb, n, [c]⟩ :: B) := by
        refine ⟨S₁, fun d hd => ?_, fun s hs => ?_, ?_⟩
        · rcases (hcells d).mp hd with rfl | hd
          · simp [hfree]
          · exact O.settled d hd
        · simp only [List.mem_append, List.mem_cons] at hs
          rcases hs with hs | rfl | hs
          · exact O.coalesced s (by simp [hs])
          · exact List.isChain_singleton _
          · exact O.coalesced s (by simp [hs])
        · rw [hbl, O.loan_eq, hloan]
      obtain ⟨k, hk⟩ := exists_place ((hcells c).mpr (.inl rfl))
      rw [hk] at O₁
      obtain ⟨u, rest, hH, hC, hp, hp8⟩ := O₁.hand hfree hdvd H
      rw [← hk] at hH
      refine .inr ⟨k, u, rest, ⟨hH.ok, hH.used, hH.left_busy, fun d hd => ?_, hH.rest_free, ?_, ?_, ?_⟩,
        hp, hp8, fun hreq => ?_⟩
      · rw [hH.others d hd, hcells d]
        refine ⟨fun h => h.resolve_left ?_, .inr⟩
        rintro rfl
        exact hst hd
      · rw [← hloan]
        exact hH.loan_eq
      · intro d hd hdst x h₁ h₂
        exact (hH.frame d ((hcells d).mpr (.inr hd)) hdst x h₁ h₂).trans (hU d hd hdst x h₁ h₂)
      · exact hH.clientmem.trans hcm
      · exact (le_alignReqPszB hreq).trans (hC.psz_ge hz hR fun _ => by omega)

end

end MallocFree

end Valgrind
