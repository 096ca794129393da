import Valgrind.MallocFree.Malloc

/-!
# `VG_(arena_free)`

A block that is given back becomes free and is then merged with its successor and
its predecessor in the superblock, as far as they are free. In a heap where no two
free blocks are neighbours, that leaves none.
-/

namespace Valgrind

namespace MallocFree

open ByteMem Machine Ring Intervals

/-- Two neighbouring cells as one. -/
def Cell.fuse (x y : Cell) (st : Status) : Cell := ⟨x.addr, x.size + y.size, st⟩

/-- Merging a free cell with the successor, if that is free. -/
inductive AbsorbRight (b : Cell) : List Cell → Cell → List Cell → Prop where
  | keep {right : List Cell} : (∀ d ∈ right.head?, d.st ≠ .free) → AbsorbRight b right b right
  | merge {d : Cell} {right : List Cell} : d.st = .free → AbsorbRight b (d :: right) (b.fuse d .free) right

/-- Merging a free cell with the predecessor, if that is free. -/
inductive AbsorbLeft (b : Cell) : List Cell → Cell → List Cell → Prop where
  | keep {left : List Cell} : (∀ d ∈ left.getLast?, d.st ≠ .free) → AbsorbLeft b left b left
  | merge {d : Cell} {left : List Cell} : d.st = .free → AbsorbLeft b (left ++ [d]) (d.fuse b .free) left

section

variable [Machine] {g : Config} {rz : Nat} {h h' : Heap} {m m' : Mem} {b c d x y : Cell} {k : Place}
  {L R left right : List Cell} {sbs : List Sblock} {cc lno start stop : Nat}

/-! ## Merging two neighbours -/

omit [Machine] in
theorem Spared.fuse {z : Nat} (hxy : x.stop = y.addr) (hx : x.st ≠ .used) (hy : y.st ≠ .used)
    (h : Spared (L ++ x :: y :: R) z) (st : Status) : Spared (L ++ x.fuse y st :: R) z := by
  simp only [spared_append, spared_cons] at h ⊢
  refine ⟨h.1, fun _ => ?_, h.2.2.2⟩
  have h₁ := h.2.1 hx
  have h₂ := h.2.2.1 hy
  simp only [Cell.fuse, Cell.stop] at hxy h₁ h₂ ⊢
  omega

theorem Cell.Fits.fuse (Fx : x.Fits g rz) (Fy : y.Fits g rz) (hxy : x.stop = y.addr) (st : Status) :
    (x.fuse y st).Fits g rz := by
  refine ⟨Fx.pos, Fx.room.trans (Nat.le_add_right _ _), Nat.dvd_add Fx.dvd Fy.dvd, ?_⟩
  have := Fy.lt
  simp only [Cell.fuse, Cell.stop] at hxy this ⊢
  omega

/-- Two neighbours in limbo become one free block. -/
theorem fuse_spec (M : Marked g rz h (L ++ x :: y :: R)) (hx : x.st = .limbo) (hy : y.st = .limbo)
    (hxy : x.stop = y.addr) (cc : Nat) :
    ∃ h₁ m₂, mkFreeBlock g h x.addr (x.size + y.size) (listNo ((x.fuse y .free).psz g rz)) = .ok h₁ ∧
      chargeCc g h₁.mem x.addr cc = .ok m₂ ∧
      Marked g rz { h₁ with mem := m₂ } (L ++ x.fuse y .free :: R) ∧
      Kept (L ++ x :: y :: R) h { h₁ with mem := m₂ } := by
  have Fx := M.fits x (by simp)
  have Fy := M.fits y (by simp)
  have hwx := Fx.words M.rzOk
  have hwy := Fy.words M.rzOk
  have F := Fx.fuse Fy hxy .limbo
  have M₁ : Marked g rz h (L ++ x.fuse y .limbo :: R) := by
    have M' : Marked g rz h (L ++ [x, y] ++ R) := by simpa using M
    have hcut : Marked g rz h (L ++ [x.fuse y .limbo] ++ R) := M'.retile (p := x.addr) (q := y.stop) (List.cons_ne_nil _ _)
      ?_ (by simp [hx, hy]) ?_ (by simp [Cell.fuse]) (by simpa using F)
    · simpa using hcut
    · refine ⟨rfl, ?_, hxy.symm, ?_, rfl⟩ <;> simp only [Cell.stop] at hxy ⊢ <;> omega
    · refine ⟨rfl, ?_, ?_⟩
      · simp only [Cell.fuse, Cell.stop]
        omega
      · simp only [tiled_nil, Cell.fuse, Cell.stop] at hxy ⊢
        omega
  obtain ⟨h₂, hfree, M₂, K₂⟩ := mkFreeBlock_spec M₁ rfl
  obtain ⟨m₃, hcc, M₃, hs₃⟩ := chargeCc_spec M₂ (c := x.fuse y .free) (by simp [Cell.become, Cell.fuse]) cc
  refine ⟨h₂, m₃, hfree, hcc, M₃, ?_⟩
  have k₁ : Kept (L ++ x.fuse y .limbo :: R) h { h₂ with mem := m₃ } :=
    K₂.trans (.of_sameOff (c := x.fuse y .limbo) (by simp) (by simp [Cell.fuse]) hs₃) fun _ hz => hz
  exact ⟨k₁.arena, fun z hz => k₁.frame z (hz.fuse hxy (by simp [hx]) (by simp [hy]) _)⟩

/-- Two free neighbours become one, whichever is unlinked first. -/
theorem unlinkBoth_spec (M : Marked g rz h (L ++ x :: y :: R)) (hx : x.st = .free)
    (hy : y.st = .free) :
    (∃ h₁ h₂, unlinkBlock g h x.addr (listNo (x.psz g rz)) = .ok h₁ ∧
      unlinkBlock g h₁ y.addr (listNo (y.psz g rz)) = .ok h₂ ∧
      Marked g rz h₂ (L ++ x.become .limbo :: y.become .limbo :: R) ∧
      Kept (L ++ x :: y :: R) h h₂ ∧ h₁.arena.rzSzB = rz) ∧
    ∃ h₁ h₂, unlinkBlock g h y.addr (listNo (y.psz g rz)) = .ok h₁ ∧
      unlinkBlock g h₁ x.addr (listNo (x.psz g rz)) = .ok h₂ ∧
      Marked g rz h₂ (L ++ x.become .limbo :: y.become .limbo :: R) ∧
      Kept (L ++ x :: y :: R) h h₂ ∧ h₁.arena.rzSzB = rz := by
  have hspare : ∀ z, Spared (L ++ x :: y :: R) z →
      Spared (L ++ x.become .limbo :: y.become .limbo :: R) z := by
    intro z hz
    simp only [spared_append, spared_cons, Cell.become_st, Cell.become_addr, Cell.become_stop, hx, hy]
      at hz ⊢
    simpa using hz
  constructor
  · obtain ⟨h₁, e₁, M₁, K₁⟩ := unlinkBlock_spec M hx
    have M₁' : Marked g rz h₁ ((L ++ [x.become .limbo]) ++ y :: R) := by simpa using M₁
    obtain ⟨h₂, e₂, M₂, K₂⟩ := unlinkBlock_spec M₁' hy
    refine ⟨h₁, h₂, e₁, e₂, by simpa using M₂, K₁.trans K₂ fun z hz => ?_, M₁.rz_eq⟩
    have := hspare z hz
    simp only [spared_append, spared_cons, Cell.become_st, Cell.become_addr, Cell.become_stop, hy]
      at this ⊢
    simpa [and_assoc] using this
  · have M' : Marked g rz h ((L ++ [x]) ++ y :: R) := by simpa using M
    obtain ⟨h₁, e₁, M₁, K₁⟩ := unlinkBlock_spec M' hy
    have M₁' : Marked g rz h₁ (L ++ x :: y.become .limbo :: R) := by simpa using M₁
    obtain ⟨h₂, e₂, M₂, K₂⟩ := unlinkBlock_spec M₁' hx
    refine ⟨h₁, h₂, e₁, e₂, M₂, ?_, M₁.rz_eq⟩
    have K₁' : Kept (L ++ x :: y :: R) h h₁ := by simpa using K₁
    refine K₁'.trans K₂ fun z hz => ?_
    have := hspare z hz
    simp only [spared_append, spared_cons, Cell.become_st, Cell.become_addr, Cell.become_stop, hx]
      at this ⊢
    simpa using this

/-! ## The two merges of `arena_free` -/

theorem minUsefulBszB_eq (M : Marked g rz h L) : minUsefulBszB g h.arena = overhead g rz := by
  rw [← M.rz_eq]
  rfl

theorem overhead_pos : 0 < overhead g rz := by
  have hw : wordB = 4 ∨ wordB = 8 := word_ok
  unfold overhead
  omega

/-- **Merging with the successor.** The test of the source (is there room for another
block before the end of the superblock?) finds a successor exactly if there is one. -/
theorem mergeSuccessor_spec (M : Marked g rz h (L ++ b :: (right ++ R))) (hb : b.st = .free)
    (hT : Tiled Cell.addr Cell.stop b.stop stop right) (htop : stop + overhead g rz ≤ wordMod)
    (hset : ∀ d ∈ right, d.st ≠ .limbo) {bsz : Nat}
    (H : mergeSuccessor g h (stop - 1) b.addr b.size (listNo (b.psz g rz)) = .ok (bsz, lno, h')) :
    ∃ b' right', AbsorbRight b right b' right' ∧ bsz = b'.size ∧ lno = listNo (b'.psz g rz) ∧
      Marked g rz h' (L ++ b' :: (right' ++ R)) ∧ Kept (L ++ b :: (right ++ R)) h h' := by
  have hz := M.rzOk
  have Fb := M.fits b (by simp)
  have hpos : 0 < overhead g rz := overhead_pos
  have hle := hT.le
  have hstop : b.stop < wordMod := Fb.lt
  have hadd : addW b.addr b.size = b.stop := addW_of_lt Fb.lt
  have hcond : (subW (addW b.stop (overhead g rz)) 1 ≤ stop - 1) ↔ b.stop + overhead g rz ≤ stop := by
    have hbpos : 0 < b.stop := by
      have := Fb.pos
      unfold Cell.stop
      omega
    rcases Nat.lt_or_ge (b.stop + overhead g rz) wordMod with hlt | hge
    · rw [addW_of_lt hlt, subW_of_le hlt (by omega)]
      omega
    · -- only the very end of the address space is left
      have he : b.stop + overhead g rz = wordMod := by omega
      have h0 : addW b.stop (overhead g rz) = 0 := by
        rw [addW, he, Nat.mod_self]
      have h1 : subW 0 1 = wordMod - 1 := by
        rw [subW_of_gt (by omega) (by omega)]
        omega
      rw [h0, h1]
      omega
  unfold mergeSuccessor at H
  dsimp only at H
  rw [hadd, minUsefulBszB_eq M] at H
  cases right with
  | nil =>
    have hend : b.stop = stop := hT
    rw [if_neg (by rw [hcond]; omega)] at H
    simp only [bind_eq_ok, pure_eq_ok, Prod.mk.injEq] at H
    obtain ⟨_, -, rfl, rfl, rfl⟩ := H
    exact ⟨b, [], .keep (by simp), rfl, rfl, M, ⟨.refl _, .refl⟩⟩
  | cons d right =>
    have hdin : d ∈ L ++ b :: (d :: right ++ R) := by simp
    have Fd := M.fits d hdin
    have Td := M.tagged d hdin (hset d (by simp))
    have hd : d.addr = b.stop := hT.1
    have hbd := (hT.2.2).le
    rw [if_pos (by
      rw [hcond]
      have := Fd.room
      simp only [Cell.stop] at hd hbd ⊢
      omega), ← hd] at H
    simp only [getBszB_eq hz Fd Td, isInuseBlock_eq hz Fd Td, ok_bind] at H
    by_cases hfree : d.st = .free
    · have hM : Marked g rz h (L ++ b :: d :: (right ++ R)) := by simpa using M
      obtain ⟨h₁, h₂, e₁, e₂, M₂, K₂, hrz₁⟩ := (unlinkBoth_spec hM hb hfree).1
      have hsum : addW b.size d.size = b.size + d.size := by
        have := Fd.lt
        simp only [Cell.stop] at hd this
        exact addW_of_lt (by omega)
      have Ff := Fb.fuse Fd hd.symm .free
      have hfpsz : bszBToPszB g h₂.arena (b.size + d.size) = .ok ((b.fuse d .free).psz g rz) :=
        bszBToPszB_eq M₂.rz_eq Ff
      obtain ⟨h₃, m₄, e₃, e₄, M₄, K₄⟩ := fuse_spec M₂ rfl rfl hd.symm (g.adminCc .free2)
      simp only [Cell.become_addr, Cell.become_size] at e₃ e₄
      have hlfuse : listNo (((b.become .limbo).fuse (d.become .limbo) .free).psz g rz) =
          listNo ((b.fuse d .free).psz g rz) := rfl
      rw [hlfuse] at e₃
      simp only [hfree, ne_eq, not_true_eq_false, decide_false, Bool.false_eq_true, if_false, e₁,
        ok_bind, bszBToPszB_eq hrz₁ Fd, pszBToListNo_eq hz Fd, e₂, hsum, hfpsz,
        pszBToListNo_eq hz Ff, e₃, e₄, pure_eq_ok, Prod.mk.injEq] at H
      obtain ⟨rfl, rfl, rfl⟩ := H
      refine ⟨b.fuse d .free, right, .merge hfree, rfl, rfl, M₄, ?_⟩
      have K : Kept (L ++ b :: d :: (right ++ R)) h { h₃ with mem := m₄ } :=
        K₂.trans K₄ fun z hz => by
          simp only [spared_append, spared_cons, Cell.become_st, Cell.become_addr, Cell.become_stop,
            hb, hfree] at hz ⊢
          simpa using hz
      simpa using K
    · simp only [hfree, ne_eq, not_false_eq_true, decide_true, if_true, pure_eq_ok,
        Prod.mk.injEq] at H
      obtain ⟨rfl, rfl, rfl⟩ := H
      refine ⟨b, d :: right, .keep ?_, rfl, rfl, M, ⟨.refl _, .refl⟩⟩
      intro e he
      simp only [List.head?_cons, Option.mem_some_iff] at he
      exact he ▸ hfree

theorem getPredecessorBlock_eq (hz : RzOk g rz) (Fd : d.Fits g rz) (Td : Tagged g m d)
    (hd : d.stop = b.addr) : getPredecessorBlock g m b.addr = .ok d.addr := by
  have hw := Fd.words hz
  have hlt : b.addr < wordMod := hd ▸ Fd.lt
  simp only [Cell.stop] at hd
  have hat : subW b.addr wordB = d.at g .hi := by
    rw [subW_of_le hlt (by omega)]
    simp only [Cell.at]
    omega
  have hsub : subW b.addr d.size = d.addr := by
    rw [subW_of_le hlt (by omega)]
    omega
  have hload : loadW g m (d.at g .hi) = d.tag := Td.hi
  simp only [getPredecessorBlock, hat, hload, mkPlainBszB_tag Fd, ok_bind, hsub]
  rfl

/-- **Merging with the predecessor.** -/
theorem mergePredecessor_spec (M : Marked g rz h (L ++ left ++ b :: R)) (hb : b.st = .free)
    (hT : Tiled Cell.addr Cell.stop start b.addr left) (hset : ∀ d ∈ left, d.st ≠ .limbo)
    (H : mergePredecessor g h start b.addr b.size (listNo (b.psz g rz)) = .ok h') :
    ∃ b' left', AbsorbLeft b left b' left' ∧ Marked g rz h' (L ++ left' ++ b' :: R) ∧
      Kept (L ++ left ++ b :: R) h h' := by
  have hz := M.rzOk
  have Fb := M.fits b (by simp)
  have hpos : 0 < overhead g rz := overhead_pos
  have hle := hT.le
  have hadd : addW start (overhead g rz) = start + overhead g rz := by
    have h₁ := Fb.lt
    have h₂ := Fb.room
    simp only [Cell.stop] at h₁
    exact addW_of_lt (by omega)
  unfold mergePredecessor at H
  rw [minUsefulBszB_eq M, hadd] at H
  rcases List.eq_nil_or_concat left with rfl | ⟨left, d, rfl⟩
  · have hend : start = b.addr := hT
    rw [if_neg (by omega)] at H
    simp only [bind_eq_ok, pure_eq_ok] at H
    obtain ⟨_, -, rfl⟩ := H
    exact ⟨b, [], .keep (by simp), M, ⟨.refl _, .refl⟩⟩
  · rw [List.concat_eq_append] at *
    have hdin : d ∈ L ++ (left ++ [d]) ++ b :: R := by simp
    have Fd := M.fits d hdin
    have Td := M.tagged d hdin (hset d (by simp))
    obtain ⟨q, hTl, rfl, -, hd⟩ := tiled_append.mp hT
    have hd : d.stop = b.addr := hd
    have hql := hTl.le
    rw [if_pos (by
      have := Fd.room
      simp only [Cell.stop] at hd
      omega)] at H
    simp only [getPredecessorBlock_eq hz Fd Td hd, getBszB_eq hz Fd Td, isInuseBlock_eq hz Fd Td,
      ok_bind] at H
    by_cases hfree : d.st = .free
    · have hM : Marked g rz h ((L ++ left) ++ d :: b :: R) := by simpa using M
      obtain ⟨h₁, h₂, e₁, e₂, M₂, K₂, hrz₁⟩ := (unlinkBoth_spec hM hfree hb).2
      have hsum : addW b.size d.size = d.size + b.size := by
        have := Fb.lt
        simp only [Cell.stop] at hd this
        rw [addW_of_lt (by omega), Nat.add_comm]
      have Ff := Fd.fuse Fb hd .free
      have hfpsz : bszBToPszB g h₂.arena (d.size + b.size) = .ok ((d.fuse b .free).psz g rz) :=
        bszBToPszB_eq M₂.rz_eq Ff
      obtain ⟨h₃, m₄, e₃, e₄, M₄, K₄⟩ := fuse_spec M₂ rfl rfl hd (g.adminCc .free3)
      simp only [Cell.become_addr, Cell.become_size] at e₃ e₄
      have hlfuse : listNo (((d.become .limbo).fuse (b.become .limbo) .free).psz g rz) =
          listNo ((d.fuse b .free).psz g rz) := rfl
      rw [hlfuse] at e₃
      simp only [hfree, ne_eq, not_true_eq_false, decide_false, Bool.false_eq_true, if_false, e₁,
        ok_bind, bszBToPszB_eq hrz₁ Fd, pszBToListNo_eq hz Fd, e₂, hsum, hfpsz,
        pszBToListNo_eq hz Ff, e₃, e₄, pure_eq_ok] at H
      subst H
      refine ⟨d.fuse b .free, left, .merge hfree, M₄, ?_⟩
      have K : Kept ((L ++ left) ++ d :: b :: R) h { h₃ with mem := m₄ } :=
        K₂.trans K₄ fun z hz => by
          simp only [spared_append, spared_cons, Cell.become_st, Cell.become_addr, Cell.become_stop,
            hb, hfree] at hz ⊢
          simpa using hz
      simpa using K
    · simp only [hfree, ne_eq, not_false_eq_true, decide_true, if_true, pure_eq_ok] at H
      subst H
      refine ⟨b, left ++ [d], .keep ?_, M, ⟨.refl _, .refl⟩⟩
      intro e he
      simp only [List.getLast?_append, List.getLast?_singleton, Option.some_or,
        Option.mem_some_iff] at he
      exact he ▸ hfree

/-! ## Which superblock -/

theorem findSbLoop_spec {p : Nat} {fuel min max sb : Nat}
    (H : findSbLoop g h p fuel min max = .ok sb) :
    sb ∈ h.arena.sblocks ∧ payloadBytes sb ≤ p ∧
      p < addW (payloadBytes sb) (nPayloadBytes g h.mem sb) := by
  induction fuel generalizing min max with
  | zero => exact absurd H throw_eq_ok
  | succ fuel ih =>
    unfold findSbLoop at H
    split at H
    · obtain ⟨_, hpos, H⟩ := bind_eq_ok.mp H
      rw [assertThat_eq_ok] at hpos
      dsimp only at H
      split at H
      · rename_i hin
        simp only [pure_eq_ok] at H
        subst H
        refine ⟨?_, hin⟩
        rw [List.getD_eq_getElem?_getD, List.getElem?_eq_getElem hpos]
        exact List.getElem_mem hpos
      · split at H
        · exact ih H
        · exact ih H
    · exact absurd H throw_eq_ok

/-- `findSb` finds the superblock around a cell. -/
theorem findSb_spec (S : Shaped g rz h (k.fill [c])) {sb : Nat}
    (H : findSb g h c.addr = .ok sb) : sb = k.addr := by
  obtain ⟨hin, h₁, h₂⟩ := findSbLoop_spec H
  rw [S.sup.array, List.mem_map] at hin
  obtain ⟨x, hx, rfl⟩ := hin
  have hk : (k.addr, k.n) ∈ (k.fill [c]).map Sblock.ext := by
    rw [exts_fill]
    simp
  have hcin := S.cell_bounds (c := c) (s := ⟨k.addr, k.n, k.left ++ [c] ++ k.right⟩)
    (by simp [Place.fill]) (by simp)
  have hpage := pageSzB_pos
  have htop := (S.sup.inside x hx).2
  have hbytes : payloadBytes x.1 = x.1 + sizeofSuperblock := addW_of_lt (by omega)
  rw [S.sup.header x hx, hbytes, addW_of_lt (by omega)] at h₂
  rw [hbytes] at h₁
  have Fc := S.marked.fits c (by rw [cellsOf_fill]; simp)
  have hw := Fc.words S.marked.rzOk
  simp only [Sblock.start, Cell.stop] at hcin
  rcases S.sup.apart hx hk with he | he | he
  · rw [he]
  · simp only at he
    omega
  · simp only at he
    omega

/-! ## The heap after a free -/

variable (g rz) in
/-- What `arena_free` does to the heap: the block `c` is not in use any more, and no
byte of the other blocks in use has changed. -/
structure GivenBack (h : Heap) (sbs : List Sblock) (c : Cell) (h' : Heap) (sbs' : List Sblock) :
    Prop where
  ok : HeapOk g rz h' sbs'
  used : ∀ d, d.st = .used → (d ∈ cellsOf sbs' ↔ d ∈ cellsOf sbs ∧ d ≠ c)
  frame : ∀ d ∈ cellsOf sbs, d.st = .used → d ≠ c → ∀ z, d.addr ≤ z → z < d.stop →
    h'.mem z = h.mem z
  clientmem : h'.arena.clientmem = h.arena.clientmem

theorem getPayloadBlock_eq {a : Arena} (ha : a.rzSzB = rz) (F : c.Fits g rz) :
    getPayloadBlock g a (c.payload g rz) = c.addr := by
  have h₁ := F.room
  have h₂ := F.lt
  unfold overhead at h₁
  simp only [Cell.stop] at h₂
  unfold getPayloadBlock overheadSzBLo Cell.payload
  rw [ha, subW_of_le (by omega) (by omega)]
  omega

omit [Machine] in
theorem AbsorbRight.coalesced {b' : Cell} {right' : List Cell} (hR : AbsorbRight b right b' right')
    (hr : Coalesced right) : Coalesced right' ∧ ∀ d ∈ right'.head?, d.st ≠ .free := by
  cases hR with
  | keep h => exact ⟨hr, h⟩
  | merge hd =>
    obtain ⟨h₁, h₂⟩ := List.isChain_cons.mp hr
    exact ⟨h₂, fun e he hf => h₁ e he ⟨hd, hf⟩⟩

omit [Machine] in
theorem AbsorbLeft.coalesced {b' : Cell} {left' : List Cell} (hL : AbsorbLeft b left b' left')
    (hl : Coalesced left) : Coalesced left' ∧ ∀ d ∈ left'.getLast?, d.st ≠ .free := by
  cases hL with
  | keep h => exact ⟨hl, h⟩
  | merge hd =>
    obtain ⟨h₁, -, h₂⟩ := List.isChain_append.mp hl
    exact ⟨h₁, fun e he hf => h₂ e he _ (by simp) ⟨hf, hd⟩⟩

omit [Machine] in
/-- A cell between neighbours that are not free. -/
theorem coalesced_middle (hl : Coalesced left) (hr : Coalesced right)
    (hl' : ∀ d ∈ left.getLast?, d.st ≠ .free) (hr' : ∀ d ∈ right.head?, d.st ≠ .free) :
    Coalesced (left ++ [b] ++ right) := by
  refine List.isChain_append.mpr ⟨List.isChain_append.mpr ⟨hl, List.isChain_singleton _, ?_⟩, hr, ?_⟩
  · rintro d hd e - ⟨hf, -⟩
    exact hl' d hd hf
  · rintro d - e he ⟨-, hf⟩
    exact hr' e he hf

omit [Machine] in
/-- The merges touch no block in use. -/
theorem AbsorbRight.mem_iff {b' : Cell} {right' : List Cell} (hR : AbsorbRight b right b' right')
    (hd : d.st = .used) : d ∈ right' ↔ d ∈ right := by
  cases hR with
  | keep => rfl
  | merge he =>
    rw [List.mem_cons]
    refine ⟨.inr, fun h => h.resolve_left ?_⟩
    rintro rfl
    simp [hd] at he

omit [Machine] in
theorem AbsorbLeft.mem_iff {b' : Cell} {left' : List Cell} (hL : AbsorbLeft b left b' left')
    (hd : d.st = .used) : d ∈ left' ↔ d ∈ left := by
  cases hL with
  | keep => rfl
  | merge he =>
    rw [List.mem_append, List.mem_singleton]
    refine ⟨.inl, fun h => h.resolve_right ?_⟩
    rintro rfl
    simp [hd] at he

omit [Machine] in
theorem AbsorbRight.subset {b' : Cell} {right' : List Cell} (hR : AbsorbRight b right b' right')
    (d : Cell) (hd : d ∈ right') : d ∈ right := by
  cases hR with
  | keep => exact hd
  | merge => exact List.mem_cons_of_mem _ hd

omit [Machine] in
theorem AbsorbLeft.subset {b' : Cell} {left' : List Cell} (hL : AbsorbLeft b left b' left')
    (d : Cell) (hd : d ∈ left') : d ∈ left := by
  cases hL with
  | keep => exact hd
  | merge => exact List.mem_append_left _ hd

theorem AbsorbRight.loan_eq {b' : Cell} {right' : List Cell} (hR : AbsorbRight b right b' right') :
    loan g rz right' = loan g rz right := by
  cases hR with
  | keep => rfl
  | merge he => simp [loan_cons, he]

theorem AbsorbLeft.loan_eq {b' : Cell} {left' : List Cell} (hL : AbsorbLeft b left b' left') :
    loan g rz left' = loan g rz left := by
  cases hL with
  | keep => rfl
  | merge he => simp [loan_cons, he]

omit [Machine] in
theorem AbsorbRight.free {b' : Cell} {right' : List Cell} (hR : AbsorbRight b right b' right')
    (hb : b.st = .free) : b'.st = .free := by
  cases hR with
  | keep => exact hb
  | merge => rfl

omit [Machine] in
theorem AbsorbLeft.free {b' : Cell} {left' : List Cell} (hL : AbsorbLeft b left b' left')
    (hb : b.st = .free) : b'.st = .free := by
  cases hL with
  | keep => exact hb
  | merge => rfl

omit [Machine] in
theorem AbsorbRight.addr_eq {b' : Cell} {right' : List Cell}
    (hR : AbsorbRight b right b' right') : b'.addr = b.addr := by
  cases hR <;> rfl

omit [Machine] in
/-- The merged cells cover what the cells covered before. -/
theorem AbsorbRight.tiled {b' : Cell} {right' : List Cell} (hR : AbsorbRight b right b' right')
    {p q : Nat} (hT : Tiled Cell.addr Cell.stop p q (b :: right)) :
    Tiled Cell.addr Cell.stop p q (b' :: right') := by
  cases hR with
  | keep => exact hT
  | merge =>
    obtain ⟨h₁, h₂, h₃, h₄, h₅⟩ := hT
    have hs : ∀ {x y : Cell}, y.addr = x.stop → (x.fuse y .free).stop = y.stop := by
      intro x y hxy
      simp only [Cell.fuse, Cell.stop] at hxy ⊢
      omega
    refine ⟨h₁, ?_, ?_⟩
    · rw [hs h₃]
      omega
    · rw [hs h₃]
      exact h₅

omit [Machine] in
theorem AbsorbLeft.tiled {b' : Cell} {left' : List Cell} (hL : AbsorbLeft b left b' left')
    {p q : Nat} (hT : Tiled Cell.addr Cell.stop p q (left ++ [b])) :
    Tiled Cell.addr Cell.stop p q (left' ++ [b']) := by
  cases hL with
  | keep => exact hT
  | merge =>
    rw [List.append_assoc] at hT
    obtain ⟨r, hl, h₁, h₂, h₃, h₄, h₅⟩ := tiled_append.mp hT
    refine tiled_append.mpr ⟨r, hl, h₁, ?_, ?_⟩
    · simp only [Cell.fuse, Cell.stop] at h₂ h₃ h₄ ⊢
      omega
    · simp only [tiled_nil, Cell.fuse, Cell.stop] at h₃ h₅ ⊢
      omega

omit [Machine] in
/-- The merged cell covers no byte of a block in use. -/
theorem AbsorbRight.spared {b' : Cell} {right' : List Cell} (hR : AbsorbRight b right b' right')
    (hb : b.st = .free) (hadj : ∀ d ∈ right.head?, b.stop = d.addr) {z : Nat}
    (hz : Spared (L ++ b :: (right ++ R)) z) : Spared (L ++ b' :: (right' ++ R)) z := by
  cases hR with
  | keep => exact hz
  | merge hd => exact Spared.fuse (hadj _ (by simp)) (by simp [hb]) (by simp [hd]) hz .free

/-- **Putting a block back**: a cell in limbo becomes, together with the free cells next
to it, one free cell. -/
theorem putBack_spec (S : Shaped g rz h (k.fill [c])) (hc : c.st = .limbo)
    (hsl : ∀ d ∈ k.left, d.st ≠ .limbo) (hsr : ∀ d ∈ k.right, d.st ≠ .limbo)
    (H : putBack g h (k.addr + sizeofSuperblock) (k.addr + sizeofSuperblock + k.n - 1) c.addr c.size
      (listNo (c.psz g rz)) = .ok h') :
    ∃ b b' left right, AbsorbRight (c.become .free) k.right b right ∧ AbsorbLeft b k.left b' left ∧
      Shaped g rz h' (Place.fill ⟨k.before, k.addr, k.n, left, right, k.after⟩ [b']) ∧
      Kept (k.lefts ++ c :: k.rights) h h' := by
  have M : Marked g rz h (k.lefts ++ c :: k.rights) := by
    have := S.marked
    rw [cellsOf_fill] at this
    simpa using this
  obtain ⟨p, q, hTl, ⟨rfl, hpq, rfl⟩, hTr⟩ := S.tiled_fill
  have hx : (k.addr, k.n) ∈ (k.fill [c]).map Sblock.ext := by
    rw [exts_fill]
    simp
  have hpage : 4096 ≤ pageSzB := by
    rcases page_ok with h | h <;> omega
  have htop : k.addr + sizeofSuperblock + k.n + pageSzB ≤ wordMod := (S.sup.inside _ hx).2
  obtain ⟨h₁, e₁, M₁, K₁⟩ := mkFreeBlock_spec M hc
  obtain ⟨m₂, e₂, M₂, hs₂⟩ := chargeCc_spec M₁ (c := c.become .free) (by simp) (g.adminCc .free1)
  simp only [Cell.become_addr] at e₂
  simp only [putBack, e₁, e₂, ok_bind] at H
  obtain ⟨⟨bsz, l, h₃⟩, hsucc, H⟩ := bind_eq_ok.mp H
  obtain ⟨b, right, hR, rfl, rfl, M₃, K₃⟩ := mergeSuccessor_spec (b := c.become .free) M₂ rfl hTr
    (by have := M.rzOk.small; omega) hsr hsucc
  have hb := hR.free rfl
  have hba : b.addr = c.addr := hR.addr_eq
  dsimp only at H
  rw [← hba] at H hTl
  obtain ⟨b', left, hL, M₄, K₄⟩ := mergePredecessor_spec M₃ hb hTl hsl H
  have hK : Kept (k.lefts ++ c :: k.rights) h h' := by
    have hst : c.st ≠ .used := by simp [hc]
    have hsp : ∀ z, Spared (k.lefts ++ c :: k.rights) z →
        Spared (k.lefts ++ c.become .free :: k.rights) z := by
      intro z hz
      simp only [spared_append, spared_cons, Cell.become_st, Cell.become_addr, Cell.become_stop]
        at hz ⊢
      exact ⟨hz.1, fun _ => hz.2.1 hst, hz.2.2⟩
    have k₂ : Kept (k.lefts ++ c :: k.rights) h { h₁ with mem := m₂ } :=
      K₁.trans (.of_sameOff (c := c) (by simp) hst hs₂) fun _ hz => hz
    refine (k₂.trans K₃ hsp).trans K₄ fun z hz => ?_
    refine hR.spared rfl ?_ (hsp z hz)
    intro d hd
    obtain ⟨d', r, hdr⟩ : ∃ d' r, k.right = d' :: r := by
      cases hr : k.right with
      | nil => simp [hr] at hd
      | cons d' r => exact ⟨d', r, rfl⟩
    rw [hdr] at hTr hd
    simp only [List.head?_cons, Option.mem_some_iff] at hd
    subst hd
    exact hTr.1.symm
  refine ⟨b, b', left, right, hR, hL, ?_, hK⟩
  -- the whole superblock is rewritten
  have hfill : k.fill [c] = Place.fill ⟨k.before, k.addr, k.n, [], [], k.after⟩
      (k.left ++ [c] ++ k.right) := by
    simp [Place.fill]
  have hfill' : Place.fill ⟨k.before, k.addr, k.n, left, right, k.after⟩ [b'] =
      Place.fill ⟨k.before, k.addr, k.n, [], [], k.after⟩ (left ++ [b'] ++ right) := by
    simp [Place.fill]
  rw [hfill] at S
  rw [hfill']
  refine S.refill ?_ ?_ ?_ hK.arena.sblocks
  · simpa [Place.lefts, Place.rights] using M₄
  · intro p q hT
    obtain ⟨r, hT₁, hT₂⟩ := tiled_append.mp hT
    obtain ⟨r', hT₃, hT₄⟩ := tiled_append.mp hT₁
    have hT₅ : Tiled Cell.addr Cell.stop r' q (c.become .free :: k.right) :=
      tiled_append.mpr ⟨r, hT₄, hT₂⟩
    obtain ⟨h₁, h₂, hT₆⟩ := hR.tiled hT₅
    have hT₇ := hL.tiled (tiled_append.mpr ⟨r', hT₃, h₁, h₂, rfl⟩)
    exact tiled_append.mpr ⟨b.stop, hT₇, hT₆⟩
  · simpa [Place.lefts, Place.rights] using hK.frame

/-- **`VG_(arena_free)`** of a block in use. -/
theorem arenaFree_spec (O : HeapOk g rz h (k.fill [c])) (hc : c.st = .used)
    (H : arenaFree g h (c.payload g rz) = .ok h') :
    ∃ sbs', GivenBack g rz h (k.fill [c]) c h' sbs' := by
  have hz := O.marked.rzOk
  have hcs : cellsOf (k.fill [c]) = k.lefts ++ [c] ++ k.rights := cellsOf_fill k [c]
  have M : Marked g rz h (k.lefts ++ c :: k.rights) := by
    have := O.marked
    rw [hcs] at this
    simpa using this
  have F := M.fits c (by simp)
  have T := M.tagged c (by simp) (by simp [hc])
  have hrz : h.arena.rzSzB = rz := M.rz_eq
  obtain ⟨p, q, hTl, ⟨rfl, hpq, rfl⟩, hTr⟩ := O.toShaped.tiled_fill
  have hpay : c.payload g rz ≠ 0 := by
    have := F.pos
    unfold Cell.payload
    omega
  -- the lookups that precede the change
  unfold arenaFree at H
  rw [if_neg hpay] at H
  simp only [getPayloadBlock_eq hrz F, getBszB_eq hz F T, bszBToPszB_eq hrz F, pszBToListNo_eq hz F,
    ok_bind] at H
  obtain ⟨_, -, H⟩ := bind_eq_ok.mp H
  obtain ⟨_, -, H⟩ := bind_eq_ok.mp H
  obtain ⟨sb, hsb, H⟩ := bind_eq_ok.mp H
  obtain rfl := findSb_spec O.toShaped hsb
  have hx : (k.addr, k.n) ∈ (k.fill [c]).map Sblock.ext := by
    rw [exts_fill]
    simp
  have hpage : 4096 ≤ pageSzB := by
    rcases page_ok with h | h <;> omega
  have htop : k.addr + sizeofSuperblock + k.n + pageSzB ≤ wordMod := (O.sup.inside _ hx).2
  have hbytes : payloadBytes k.addr = k.addr + sizeofSuperblock := addW_of_lt (by omega)
  have hn : nPayloadBytes g h.mem k.addr = k.n := O.sup.header _ hx
  have hnpos : 0 < k.n := by
    have h₁ := hTl.le
    have h₂ := hTr.le
    omega
  have hend : addW (payloadBytes k.addr) (subW (nPayloadBytes g h.mem k.addr) 1) =
      k.addr + sizeofSuperblock + k.n - 1 := by
    rw [hbytes, hn, subW_of_le (by omega) (by omega), addW_of_lt (by omega)]
    omega
  rw [hend, hbytes] at H
  -- the block is in limbo from here on
  obtain ⟨a, ha⟩ : ∃ a, a = h.arena.lend (subW h.arena.bytesOnLoan (c.psz g rz)) := ⟨_, rfl⟩
  obtain ⟨m, hm, hoff⟩ : ∃ m, (if h.arena.clientmem = true then h.mem
      else fill h.mem (c.payload g rz) 0xdd (c.psz g rz)) = m ∧
      SameOff h.mem m c.addr c.stop := by
    refine ⟨_, rfl, ?_⟩
    split
    · exact .refl
    · refine (fill_sameOff _ _ _ _).mono (Nat.le_add_right _ _) ?_
      have := F.room
      unfold Cell.payload Cell.psz Cell.stop
      unfold overhead at this ⊢
      omega
  have H' : putBack g { mem := m, arena := a } (k.addr + sizeofSuperblock)
      (k.addr + sizeofSuperblock + k.n - 1) c.addr c.size (listNo (c.psz g rz)) = .ok h' := by
    rw [← hm, ha]
    exact H
  have hcl : (c.become .limbo).st ≠ .used := by simp
  have M₀ : Marked g rz h (k.lefts ++ c.become .limbo :: k.rights) :=
    M.become (by simp [hc]) (by simp) fun h => absurd rfl h
  have M₁ : Marked g rz { mem := m, arena := a } (k.lefts ++ c.become .limbo :: k.rights) := by
    have h₂ := M₀.of_sameOff (c := c.become .limbo) (by simp) rfl hoff
    exact h₂.congr (by rw [ha]; rfl) (by rw [ha]; rfl) fun _ _ _ _ _ => rfl
  have S₁ : Shaped g rz { mem := m, arena := a } (k.fill [c.become .limbo]) := by
    have S₀ : Shaped g rz h (k.fill [c.become .limbo]) :=
      O.toShaped.refill (by simpa using M₀) (fun h => h) .refl rfl
    refine S₀.refill (by simpa using M₁) (fun h => h) ?_ (by rw [ha]; rfl)
    exact .of_sameOff (c := c.become .limbo) (by simp) hcl hoff
  have hset : ∀ d ∈ k.left ++ k.right, d.st ≠ .limbo :=
    fun d hd => O.settled d (mem_cellsOf_fill.mpr (.inr (mem_sides hd)))
  obtain ⟨b, b', left, right, hR, hL, S', K⟩ := putBack_spec S₁ rfl
    (fun d hd => hset d (by simp [hd])) (fun d hd => hset d (by simp [hd])) H'
  have hcoal : Coalesced (k.left ++ [c] ++ k.right) :=
    O.coalesced ⟨k.addr, k.n, k.left ++ [c] ++ k.right⟩ (by simp [Place.fill])
  obtain ⟨hcoal', hcr, -⟩ := List.isChain_append.mp hcoal
  obtain ⟨hcl', -, -⟩ := List.isChain_append.mp hcoal'
  have hb' : b'.st = .free := hL.free (hR.free rfl)
  have hcells : cellsOf (Place.fill ⟨k.before, k.addr, k.n, left, right, k.after⟩ [b']) =
      cellsOf k.before ++ left ++ [b'] ++ (right ++ cellsOf k.after) := cellsOf_fill _ _
  have hmem : ∀ d, d.st = .used → (d ∈ cellsOf (Place.fill ⟨k.before, k.addr, k.n, left, right,
      k.after⟩ [b']) ↔ d ∈ k.lefts ++ k.rights) := by
    intro d hd
    have hdb : d ≠ b' := by
      rintro rfl
      simp [hd] at hb'
    rw [hcells]
    simp only [Place.lefts, Place.rights, List.mem_append, List.mem_singleton, hL.mem_iff hd,
      hR.mem_iff hd, hdb, or_false]
  have hother : ∀ d ∈ k.lefts ++ k.rights, d ≠ c := fun d hd => M.ne_of_mem hd
  have hloan : loan g rz (cellsOf (k.fill [c])) =
      loan g rz k.lefts + c.psz g rz + loan g rz k.rights := by
    rw [hcs]
    simp only [loan_append, loan_cons, hc, if_true, loan_nil]
    omega
  refine ⟨_, ⟨S', ?_, ?_, ?_⟩, ?_, ?_, ?_⟩
  · intro d hd
    rw [hcells] at hd
    have hold : d ∈ k.lefts ++ k.rights → d.st ≠ .limbo := fun hin =>
      O.settled d (mem_cellsOf_fill.mpr (.inr hin))
    rcases List.mem_append.mp hd with hd | hd
    · rcases List.mem_append.mp hd with hd | hd
      · refine hold (List.mem_append_left _ ?_)
        rcases List.mem_append.mp hd with hd | hd
        · exact List.mem_append_left _ hd
        · exact List.mem_append_right _ (hL.subset d hd)
      · simp [List.mem_singleton.mp hd, hb']
    · refine hold (List.mem_append_right _ ?_)
      rcases List.mem_append.mp hd with hd | hd
      · exact List.mem_append_left _ (hR.subset d hd)
      · exact List.mem_append_right _ hd
  · intro s hs
    have hcases : s = ⟨k.addr, k.n, left ++ [b'] ++ right⟩ ∨ s ∈ k.fill [c] := by
      rcases List.mem_append.mp hs with hs | hs
      · exact .inr (List.mem_append_left _ hs)
      rcases List.mem_cons.mp hs with rfl | hs
      · exact .inl rfl
      · exact .inr (List.mem_append_right _ (List.mem_cons_of_mem _ hs))
    rcases hcases with rfl | hs
    · obtain ⟨h₁, h₂⟩ := hL.coalesced hcl'
      obtain ⟨h₃, h₄⟩ := hR.coalesced hcr
      exact coalesced_middle h₁ h₃ h₂ h₄
    · exact O.coalesced s hs
  · have hlt := O.marked.toSpread.loan_lt
    rw [K.arena.bytesOnLoan, ha]
    show subW h.arena.bytesOnLoan (c.psz g rz) = _
    rw [O.loan_eq, subW_of_le hlt (by omega), hloan, hcells]
    simp only [Place.lefts, Place.rights, loan_append, loan_cons, hb', loan_nil, hL.loan_eq,
      hR.loan_eq]
    simp
    omega
  · intro d hd
    rw [hmem d hd, mem_cellsOf_fill]
    constructor
    · exact fun h => ⟨.inr h, hother d h⟩
    · rintro ⟨h₁, h₂⟩
      exact h₁.resolve_left fun h => h₂ (List.mem_singleton.mp h)
  · intro d hd hst hdc z h₁ h₂
    have hd' : d ∈ k.lefts ++ c.become .limbo :: k.rights :=
      mem_insert_middle ((mem_cellsOf_fill.mp hd).resolve_left fun h => hdc (List.mem_singleton.mp h))
    have hfr : Frame (k.lefts ++ c.become .limbo :: k.rights) h.mem h'.mem :=
      (Frame.of_sameOff (c := c.become .limbo) (by simp) hcl hoff).trans K.frame fun _ hz => hz
    exact hfr.usedSame M₀.apart d hd' hst z h₁ h₂
  · rw [K.arena.clientmem, ha]
    rfl

end

end MallocFree

end Valgrind
