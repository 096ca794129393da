import Valgrind.MallocFree.Marks

/-!
# What `unlinkBlock`, `mkFreeBlock` and `mkInuseBlock` do

Each of the three is total on a well-marked heap, and changes the status of one
cell. Their effect on memory is a handful of field writes; `word_put` turns these
into updates of the function from fields to words, on which the ring edits of the
library are stated.
-/

namespace Valgrind

namespace MallocFree

open ByteMem Machine Ring Intervals

/-! ## Arenas -/

section

variable {a a' a'' : Arena} {lno : Nat}

@[simp] theorem setFreelist_mem (h : Heap) (lno b : Nat) : (h.setFreelist lno b).mem = h.mem := rfl

theorem setFreelist_self (h : Heap) (lno b : Nat) :
    (h.setFreelist lno b).arena.freelist lno = b := Function.update_self ..

theorem setFreelist_of_ne (h : Heap) (b : Nat) {l : Nat} (hl : l ≠ lno) :
    (h.setFreelist lno b).arena.freelist l = h.arena.freelist l := Function.update_of_ne hl ..

theorem listNo_lt (pszB : Nat) : listNo pszB < nMallocLists := by
  have h : listBounds.findIdx (pszB / minMallocSzB < ·) ≤ 47 := List.findIdx_le_length
  unfold listNo nMallocLists
  dsimp only
  split <;> omega

/-- Everything an operation on blocks leaves alone in the arena: all but the free
lists. -/
structure SameArena (a a' : Arena) : Prop where
  clientmem : a'.clientmem = a.clientmem
  rzSzB : a'.rzSzB = a.rzSzB
  minSblockSzB : a'.minSblockSzB = a.minSblockSzB
  sblocks : a'.sblocks = a.sblocks
  sblocksSize : a'.sblocksSize = a.sblocksSize
  bytesOnLoan : a'.bytesOnLoan = a.bytesOnLoan

theorem SameArena.refl (a : Arena) : SameArena a a := ⟨rfl, rfl, rfl, rfl, rfl, rfl⟩

theorem SameArena.trans (h : SameArena a a') (h' : SameArena a' a'') : SameArena a a'' :=
  ⟨h'.1.trans h.1, h'.2.trans h.2, h'.3.trans h.3, h'.4.trans h.4, h'.5.trans h.5, h'.6.trans h.6⟩

theorem sameArena_setFreelist (h : Heap) (lno b : Nat) :
    SameArena h.arena (h.setFreelist lno b).arena := ⟨rfl, rfl, rfl, rfl, rfl, rfl⟩

/-- What an operation on blocks leaves behind. -/
structure Kept (cs : List Cell) (h h' : Heap) : Prop where
  arena : SameArena h.arena h'.arena
  frame : Frame cs h.mem h'.mem

theorem Kept.trans {cs cs' : List Cell} {h h' h'' : Heap} (k : Kept cs h h') (k' : Kept cs' h' h'')
    (hs : ∀ x, Spared cs x → Spared cs' x) : Kept cs h h'' :=
  ⟨k.arena.trans k'.arena, k.frame.trans k'.frame hs⟩

/-- A change inside a cell that is not in use. -/
theorem Kept.of_sameOff {cs : List Cell} {c : Cell} {h : Heap} {m' : Mem} (hc : c ∈ cs)
    (hst : c.st ≠ .used) (hs : SameOff h.mem m' c.addr c.stop) :
    Kept cs h { h with mem := m' } :=
  ⟨.refl _, .of_sameOff hc hst hs⟩

end

section

variable [Machine] {g : Config} {rz : Nat} {h h' : Heap} {m m' : Mem} {c d : Cell}
  {cs L R : List Cell} {lno v : Nat}

theorem Cell.Fits.addr_lt (F : c.Fits g rz) : c.addr < wordMod := by
  have := F.lt
  unfold Cell.stop at this
  omega

/-! ## Fields of marked cells -/

/-- `word_put`, for the cells of a heap. -/
theorem Spread.word_put (M : Spread g rz cs) (hc : c ∈ cs) (hd : d ∈ cs) (hv : v < wordMod)
    (f f' : Field) :
    word g (put g m c f v) d f' = if d = c ∧ f' = f then v else word g m d f' :=
  MallocFree.word_put M.rzOk M.fits M.apart hc hd hv f f'

/-- Writing a link leaves the size words alone. -/
theorem Tagged.put_link (M : Spread g rz cs) (T : Tagged g m d) (hc : c ∈ cs) (hd : d ∈ cs)
    (hv : v < wordMod) {f : Field} (hf : f = .prev ∨ f = .next) : Tagged g (put g m c f v) d := by
  constructor
  · rw [M.word_put hc hd hv, if_neg, T.lo]
    rintro ⟨-, rfl⟩
    simp at hf
  · rw [M.word_put hc hd hv, if_neg, T.hi]
    rintro ⟨-, rfl⟩
    simp at hf

/-- Writing a link of a cell that is not in use. -/
theorem Frame.put (M : Spread g rz cs) (hc : c ∈ cs) (hst : c.st ≠ .used) (f : Field) :
    Frame cs m (put g m c f v) :=
  .of_sameOff hc hst ((M.fits c hc).put_sameOff M.rzOk m f v)

/-! ## `swizzle` -/

section Swizzle

variable {ring : Cycle Cell} (hz : RzOk g rz)
  (hr : IsRing Cell.addr (word g m · .next) (word g m · .prev) ring)
  (hF : ∀ d ∈ ring, d.Fits g rz) (hT : ∀ d ∈ ring, Tagged g m d)

include hz hr hF hT

/-- The walks of `swizzle` stay on the list. -/
theorem swizzleLoop_mem (i : Nat) {x y z : Cell} (hx : x ∈ ring) (hy : y ∈ ring) (hz' : z ∈ ring) :
    ∃ d ∈ ring, swizzleLoop g m i x.addr y.addr z.addr = .ok d.addr := by
  induction i generalizing x y z with
  | zero => exact ⟨z, hz', rfl⟩
  | succ i ih =>
    obtain ⟨x', hx', hnext, -⟩ := hr.exists_next hx
    obtain ⟨y', hy', -, hprev⟩ := hr.exists_prev hy
    simp only [swizzleLoop, getNextB_eq hz (hF x hx) (hT x hx), getPrevB_eq hz (hF y hy), ok_bind,
      hnext, hprev]
    split
    · split
      · exact ih hx' hy' hy'
      · exact ih hx' hy' hx'
    · split
      · exact ih hx' hy' hy'
      · exact ih hx' hy' hz'

end Swizzle

/-- `swizzle` moves the head of a list to some block of it. -/
theorem swizzle_mem {ring : Cycle Cell} (hz : RzOk g rz)
    (hr : IsRing Cell.addr (word g h.mem · .next) (word g h.mem · .prev) ring)
    (hF : ∀ d ∈ ring, d.Fits g rz) (hT : ∀ d ∈ ring, Tagged g h.mem d)
    (hc : c ∈ ring) (hhead : h.arena.freelist lno = c.addr) :
    ∃ d ∈ ring, swizzle g h lno = .ok (h.setFreelist lno d.addr) := by
  have hne : c.addr ≠ 0 := (hF c hc).pos.ne'
  have hself : h.setFreelist lno c.addr = h := by
    unfold Heap.setFreelist
    rw [← hhead, Function.update_eq_self]
  obtain ⟨d, hd, hloop⟩ := swizzleLoop_mem hz hr hF hT 5 hc hc hc
  simp only [swizzle, hhead, if_neg hne, hloop, ok_bind]
  split
  · exact ⟨d, hd, rfl⟩
  · exact ⟨c, hc, by rw [hself]; rfl⟩

/-! ## `unlinkBlock` -/

omit [Machine] in
theorem mem_insert_middle (hd : d ∈ L ++ R) : d ∈ L ++ c :: R :=
  List.perm_middle.mem_iff.mpr (List.mem_cons_of_mem c hd)

/-- The other cells are other cells. -/
theorem Spread.ne_of_mem (S : Spread g rz (L ++ c :: R)) (hd : d ∈ L ++ R) : d ≠ c := by
  rintro rfl
  have hout := S.apart.notMem (S.fits d (by simp)) S.rzOk
  simp only [List.mem_append] at hd
  exact hd.elim hout.1 hout.2

section TakeOff

variable (M : Marked g rz h (L ++ c :: R)) (hfree : c.st = .free)

include M hfree

/-- A block that is alone on its list leaves the list empty. -/
theorem takeOffFreelist_alone
    (hm : ∀ d, d ∈ (↑[c] : Cycle Cell) ↔ OnList g rz (L ++ c :: R) (listNo (c.psz g rz)) d)
    (hnext : word g h.mem c .next = c.addr) (hprev : word g h.mem c .prev = c.addr) :
    ∃ h', takeOffFreelist g h c.addr (listNo (c.psz g rz)) = .ok h' ∧
      Marked g rz h' (L ++ c.become .limbo :: R) ∧ Kept (L ++ c :: R) h h' ∧
      Tagged g h'.mem c := by
  have hc : c ∈ L ++ c :: R := by simp
  have F := M.fits c hc
  have T := M.tagged c hc (by simp [hfree])
  refine ⟨h.setFreelist (listNo (c.psz g rz)) 0, ?_, ?_, ?_, T⟩
  · simp only [takeOffFreelist, getPrevB_eq M.rzOk F, hprev, if_true, getNextB_eq M.rzOk F T, hnext,
      ok_bind, assertThat_of]
    rfl
  · refine M.relist rfl rfl (fun _ _ _ _ => rfl) (fun h => absurd rfl h)
      (fun l hl => setFreelist_of_ne h 0 hl) ?_
    refine ⟨Cycle.nil, ⟨isRing_nil, .inl ⟨rfl, setFreelist_self h _ 0⟩⟩, fun d => ?_⟩
    rw [onList_of_not_free (by simp)]
    refine ⟨fun hd => absurd hd (Cycle.notMem_nil d), fun hd => ?_⟩
    have hd' := (hm d).mpr ((onList_of_free hfree).mpr (.inr hd))
    simp only [Cycle.mem_coe_iff, List.mem_singleton] at hd'
    exact absurd hd' (M.ne_of_mem hd.1)
  · exact ⟨sameArena_setFreelist h _ 0, .refl⟩

/-- A block between two others of its list (which may be the same one) leaves these
two pointing at each other. -/
theorem takeOffFreelist_between {ring ring' : Cycle Cell} {p n : Cell}
    (hm : ∀ d, d ∈ ring ↔ OnList g rz (L ++ c :: R) (listNo (c.psz g rz)) d)
    (hp : p ∈ ring') (hn : n ∈ ring') (hcn : c ∉ ring') (hrm : ∀ d, d ∈ ring ↔ d = c ∨ d ∈ ring')
    (hprev : word g h.mem c .prev = p.addr) (hnext : word g h.mem c .next = n.addr)
    (hring' : ∀ fwd bwd : Cell → Nat, fwd p = n.addr → bwd n = p.addr →
      (∀ y ∈ ring', y ≠ p → fwd y = word g h.mem y .next) →
      (∀ y ∈ ring', y ≠ n → bwd y = word g h.mem y .prev) →
      IsRing Cell.addr fwd bwd ring') :
    ∃ h', takeOffFreelist g h c.addr (listNo (c.psz g rz)) = .ok h' ∧
      Marked g rz h' (L ++ c.become .limbo :: R) ∧ Kept (L ++ c :: R) h h' ∧
      Tagged g h'.mem c := by
  have hz := M.rzOk
  have hc : c ∈ L ++ c :: R := by simp
  have F := M.fits c hc
  have T := M.tagged c hc (by simp [hfree])
  have hon : ∀ d, d ∈ ring' ↔ OnList g rz (L ++ R) (listNo (c.psz g rz)) d := by
    intro d
    constructor
    · intro hd
      rcases (onList_of_free hfree).mp ((hm d).mp ((hrm d).mpr (.inr hd))) with hd' | hd'
      · exact absurd (hd'.1 ▸ hd) hcn
      · exact hd'
    · intro hd
      rcases (hrm d).mp ((hm d).mpr ((onList_of_free hfree).mpr (.inr hd))) with hd' | hd'
      · exact absurd hd' (M.ne_of_mem hd.1)
      · exact hd'
  have hin : ∀ d ∈ ring', d ∈ L ++ c :: R ∧ d.st = .free := fun d hd =>
    ⟨mem_insert_middle ((hon d).mp hd).1, ((hon d).mp hd).2.1⟩
  have htag : ∀ d ∈ ring', Tagged g h.mem d := fun d hd =>
    M.tagged d (hin d hd).1 (by simp [(hin d hd).2])
  obtain ⟨hpin, hpfree⟩ := hin p hp
  obtain ⟨hnin, hnfree⟩ := hin n hn
  have Fp := M.fits p hpin
  have Fn := M.fits n hnin
  have hpe : p.addr ≠ c.addr := fun he =>
    hcn (M.apart.eq_of_addr M.fits hz hpin hc he ▸ hp)
  obtain ⟨m₁, hm₁⟩ : ∃ m₁, m₁ = put g h.mem p .next n.addr := ⟨_, rfl⟩
  obtain ⟨m₂, hm₂⟩ : ∃ m₂, m₂ = put g m₁ n .prev p.addr := ⟨_, rfl⟩
  have hw : ∀ d ∈ L ++ c :: R, ∀ f, word g m₂ d f = if d = n ∧ f = .prev then p.addr
      else if d = p ∧ f = .next then n.addr else word g h.mem d f := by
    intro d hd f
    rw [hm₂, M.word_put hnin hd Fp.addr_lt, hm₁, M.word_put hpin hd Fn.addr_lt]
  have hT : ∀ d ∈ L ++ c :: R, Tagged g h.mem d → Tagged g m₂ d := by
    intro d hd hT
    rw [hm₂, hm₁]
    exact (hT.put_link M.toSpread hpin hd Fn.addr_lt (.inr rfl)).put_link M.toSpread hnin hd
      Fp.addr_lt (.inl rfl)
  have hr : IsRing Cell.addr (word g m₂ · .next) (word g m₂ · .prev) ring' := by
    refine hring' _ _ ?_ ?_ ?_ ?_
    · simp [hw p hpin]
    · simp [hw n hnin]
    · intro y hy hyp
      simp [hw y (hin y hy).1, hyp]
    · intro y hy hyn
      simp [hw y (hin y hy).1, hyn]
  have hhead : (h.setFreelist (listNo (c.psz g rz)) p.addr).arena.freelist
      (listNo (c.psz g rz)) = p.addr := setFreelist_self h _ _
  obtain ⟨e, he, hsw⟩ := swizzle_mem (h := { h.setFreelist (listNo (c.psz g rz)) p.addr with
    mem := m₂ }) hz hr (fun d hd => M.fits d (hin d hd).1)
    (fun d hd => hT d (hin d hd).1 (htag d hd)) hp hhead
  refine ⟨{ h.setFreelist (listNo (c.psz g rz)) e.addr with mem := m₂ }, ?_, ?_, ?_, hT c hc T⟩
  · have hset₁ : setNextB g h.mem p.addr n.addr = .ok m₁ := by
      rw [setNextB_eq hz Fp (htag p hp), hm₁]
    have hset₂ : setPrevB g m₁ n.addr p.addr = m₂ := by
      rw [setPrevB_eq hz Fn, hm₂]
    simp only [takeOffFreelist, ok_bind, getPrevB_eq hz F, hprev, if_neg hpe, getNextB_eq hz F T,
      hnext, setFreelist_mem, hset₁, hset₂, hsw]
    simp [Heap.setFreelist]
  · refine M.relist rfl rfl ?_ (fun h => absurd rfl h) (fun l hl => setFreelist_of_ne h _ hl) ?_
    · intro d hd f hf
      rw [hw d (mem_insert_middle hd), if_neg, if_neg]
      · rintro ⟨rfl, rfl⟩
        simp [((hon d).mp hp).2.2] at hf
      · rintro ⟨rfl, rfl⟩
        simp [((hon d).mp hn).2.2] at hf
    · refine ⟨ring', ⟨hr, .inr ⟨e, he, setFreelist_self h _ _⟩⟩, fun d => ?_⟩
      rw [hon d, onList_of_not_free (by simp)]
  · refine ⟨sameArena_setFreelist h _ _, ?_⟩
    rw [hm₂, hm₁]
    exact (Frame.put M.toSpread hpin (by simp [hpfree]) .next).trans
      (Frame.put M.toSpread hnin (by simp [hnfree]) .prev) fun _ hx => hx

/-- **`unlinkBlock`** takes a free cell off its list. -/
theorem unlinkBlock_spec :
    ∃ h', unlinkBlock g h c.addr (listNo (c.psz g rz)) = .ok h' ∧
      Marked g rz h' (L ++ c.become .limbo :: R) ∧ Kept (L ++ c :: R) h h' := by
  have hz := M.rzOk
  have hc : c ∈ L ++ c :: R := by simp
  have F := M.fits c hc
  have htake : ∃ h', takeOffFreelist g h c.addr (listNo (c.psz g rz)) = .ok h' ∧
      Marked g rz h' (L ++ c.become .limbo :: R) ∧ Kept (L ++ c :: R) h h' ∧
      Tagged g h'.mem c := by
    obtain ⟨ring, hl, hm⟩ := M.lists (listNo (c.psz g rz))
    rcases hl.links.unlink ((hm c).mpr ⟨hc, hfree, rfl⟩) with
      ⟨rfl, hnext, hprev⟩ | ⟨ring', p, hp, n, hn, hcn, hrm, hprev, hnext, hring'⟩
    · exact takeOffFreelist_alone M hfree hm hnext hprev
    · exact takeOffFreelist_between M hfree hm hp hn hcn hrm hprev hnext hring'
  obtain ⟨h₁, htake, M₁, K₁, T₁⟩ := htake
  -- the links of the block itself are cleared
  have T₂ : Tagged g (put g h₁.mem c .prev 0) c :=
    T₁.put_link M.toSpread hc hc wordMod_pos (.inl rfl)
  have hoff : SameOff h₁.mem (put g (put g h₁.mem c .prev 0) c .next 0) c.addr c.stop :=
    (F.put_sameOff hz _ _ _).trans (F.put_sameOff hz _ _ _)
  refine ⟨{ h₁ with mem := put g (put g h₁.mem c .prev 0) c .next 0 }, ?_, ?_, ?_⟩
  · simp only [unlinkBlock, assertThat_of (listNo_lt _), htake, ok_bind, setPrevB_eq hz F,
      setNextB_eq hz F T₂]
    rfl
  · exact M₁.of_sameOff (c := c.become .limbo) (by simp) rfl hoff
  · exact K₁.trans (.of_sameOff hc (by simp [hfree]) hoff) fun _ hx => hx

end TakeOff

/-! ## `mkFreeBlock` -/

/-- Writing both size words of a cell. -/
theorem setBszB_spec (hz : RzOk g rz) (F : c.Fits g rz) (m : Mem) :
    ∃ m', setBszB g m c.addr c.tag = .ok m' ∧ Tagged g m' c ∧ SameOff m m' c.addr c.stop := by
  refine ⟨_, setBszB_tag hz F m, ⟨?_, ?_⟩, ?_⟩
  · rw [word_put_field hz F (by decide), word_put_self F.tag_lt]
  · exact word_put_self F.tag_lt _
  · exact (F.put_sameOff hz m .lo _).trans (F.put_sameOff hz _ .hi _)

theorem mkFreeBszB_eq (F : c.Fits g rz) : mkFreeBszB c.size = .ok (c.become .free).tag := by
  have hpos : c.size ≠ 0 := by
    have h₁ := F.room
    have h₂ : wordB = 4 ∨ wordB = 8 := word_ok
    unfold overhead at h₁
    omega
  obtain ⟨k, hk⟩ := F.dvd
  have heven : c.size = 2 ^ 1 * (4 * k) := by omega
  have hor : c.size ||| 1 = c.size + 1 := by
    rw [heven]
    exact (Nat.two_pow_add_eq_or_of_lt (by decide) _).symm
  simp only [mkFreeBszB, assertThat_of hpos, ok_bind, hor]
  rfl

theorem bszBToPszB_eq {a : Arena} (ha : a.rzSzB = rz) (F : c.Fits g rz) :
    bszBToPszB g a c.size = .ok (c.psz g rz) := by
  simp only [bszBToPszB, overheadSzB_eq, ha, assertThat_of F.room, ok_bind]
  rfl

omit [Machine] in
theorem pszBToListNo_of_dvd {p : Nat} (hp : 8 ∣ p) : pszBToListNo p = .ok (listNo p) := by
  have h : p % minMallocSzB = 0 := Nat.mod_eq_zero_of_dvd hp
  simp only [pszBToListNo, assertThat_of h, ok_bind]
  rfl

theorem pszBToListNo_eq (hz : RzOk g rz) (F : c.Fits g rz) :
    pszBToListNo (c.psz g rz) = .ok (listNo (c.psz g rz)) :=
  pszBToListNo_of_dvd (Nat.dvd_sub F.dvd hz.dvd)

/-- A cell whose size words already say that it is free is added to its list, at the
end of it: before the head. -/
theorem addToFreelist_spec (M : Marked g rz h (L ++ c :: R)) (hst : c.st = .limbo)
    (T : Tagged g h.mem (c.become .free)) :
    ∃ h', addToFreelist g h c.addr (listNo (c.psz g rz)) = .ok h' ∧
      Marked g rz h' (L ++ c.become .free :: R) ∧ Kept (L ++ c :: R) h h' := by
  have hz := M.rzOk
  have hc : c ∈ L ++ c :: R := by simp
  have hstu : c.st ≠ .used := by simp [hst]
  obtain ⟨b, hb⟩ : ∃ b, b = c.become .free := ⟨_, rfl⟩
  have hba : c.addr = b.addr := by rw [hb]; rfl
  have hbz : b.psz g rz = c.psz g rz := by rw [hb]; rfl
  have S : Spread g rz (L ++ b :: R) := hb ▸ M.toSpread.become .free
  rw [← hb] at T ⊢
  have hbin : b ∈ L ++ b :: R := by simp
  have F : b.Fits g rz := S.fits b hbin
  have hbv := F.addr_lt
  obtain ⟨ring, hl, hm⟩ := M.lists (listNo (c.psz g rz))
  have hon : ∀ d, d ∈ ring ↔ OnList g rz (L ++ R) (listNo (c.psz g rz)) d := fun d => by
    rw [hm d, onList_of_not_free (by simp [hst])]
  have hnew : ∀ d, OnList g rz (L ++ b :: R) (listNo (c.psz g rz)) d ↔ d = b ∨ d ∈ ring := by
    intro d
    rw [onList_of_free (by rw [hb]; rfl), hbz, hon d]
    simp
  have hin : ∀ d ∈ ring, d ∈ L ++ b :: R ∧ d.st = .free := fun d hd =>
    ⟨mem_insert_middle ((hon d).mp hd).1, ((hon d).mp hd).2.1⟩
  have hbring : b ∉ ring := fun hbr => S.ne_of_mem ((hon b).mp hbr).1 rfl
  rw [hba]
  rcases hl.head with ⟨rfl, hhead⟩ | ⟨e, he, hhead⟩
  · -- the list is empty
    obtain ⟨m', hm'⟩ : ∃ m', m' = put g (put g h.mem b .prev b.addr) b .next b.addr := ⟨_, rfl⟩
    have hw : ∀ d ∈ L ++ b :: R, ∀ f, word g m' d f =
        if d = b ∧ f = .next then b.addr else if d = b ∧ f = .prev then b.addr
        else word g h.mem d f := by
      intro d hd f
      rw [hm', S.word_put hbin hd hbv, S.word_put hbin hd hbv]
    refine ⟨Heap.setFreelist { h with mem := m' } (listNo (c.psz g rz)) b.addr, ?_, ?_, ?_⟩
    · simp only [addToFreelist, hhead, if_true, setPrevB_eq hz F,
        setNextB_eq hz F (T.put_link S hbin hbin hbv (.inl rfl)), ← hm', ok_bind]
      rfl
    · subst hb
      refine M.relist rfl rfl ?_ ?_ (fun l hl => setFreelist_of_ne _ _ hl) ?_
      · intro d hd f _
        simp [hw d (mem_insert_middle hd), S.ne_of_mem hd]
      · intro _
        exact ⟨by simp [hw _ hbin, T.lo], by simp [hw _ hbin, T.hi]⟩
      · refine ⟨↑[c.become .free], ⟨?_, .inr ⟨_, by simp, setFreelist_self _ _ _⟩⟩, ?_⟩
        · exact isRing_singleton (by simp [hw _ hbin]) (by simp [hw _ hbin])
        · intro d
          rw [hnew d]
          simp
    · refine ⟨⟨rfl, rfl, rfl, rfl, rfl, rfl⟩, ?_⟩
      rw [hm', hb]
      exact (Frame.put M.toSpread hc hstu .prev).trans (Frame.put M.toSpread hc hstu .next)
        fun _ hx => hx
  · -- the new block goes between the head `e` and its predecessor `p`
    obtain ⟨p, hp, hprev, hins⟩ := hl.links.insert he hbring
    obtain ⟨hein, hefree⟩ := hin e he
    obtain ⟨hpin, hpfree⟩ := hin p hp
    have Fe := S.fits e hein
    have Fp := S.fits p hpin
    have heb : e ≠ b := fun h => hbring (h ▸ he)
    have hpb : p ≠ b := fun h => hbring (h ▸ hp)
    have Tp : Tagged g h.mem p :=
      M.tagged p (mem_insert_middle ((hon p).mp hp).1) (by simp [hpfree])
    have hene : e.addr ≠ 0 := Fe.pos.ne'
    obtain ⟨m₁, hm₁⟩ : ∃ m₁, m₁ = put g h.mem p .next b.addr := ⟨_, rfl⟩
    obtain ⟨m₂, hm₂⟩ : ∃ m₂, m₂ = put g m₁ e .prev b.addr := ⟨_, rfl⟩
    obtain ⟨m₃, hm₃⟩ : ∃ m₃, m₃ = put g m₂ b .next e.addr := ⟨_, rfl⟩
    obtain ⟨m₄, hm₄⟩ : ∃ m₄, m₄ = put g m₃ b .prev p.addr := ⟨_, rfl⟩
    have T₂ : Tagged g m₂ b := by
      rw [hm₂, hm₁]
      exact (T.put_link S hpin hbin hbv (.inr rfl)).put_link S hein hbin hbv (.inl rfl)
    have hw : ∀ d ∈ L ++ b :: R, ∀ f, word g m₄ d f = if d = b ∧ f = .prev then p.addr
        else if d = b ∧ f = .next then e.addr else if d = e ∧ f = .prev then b.addr
        else if d = p ∧ f = .next then b.addr else word g h.mem d f := by
      intro d hd f
      rw [hm₄, S.word_put hbin hd Fp.addr_lt, hm₃, S.word_put hbin hd Fe.addr_lt, hm₂,
        S.word_put hein hd hbv, hm₁, S.word_put hpin hd hbv]
    refine ⟨{ h with mem := m₄ }, ?_, ?_, ?_⟩
    · simp only [addToFreelist, hhead, if_neg hene, getPrevB_eq hz Fe, hprev,
        setNextB_eq hz Fp Tp, ← hm₁, ok_bind, setPrevB_eq hz Fe, ← hm₂, setNextB_eq hz F T₂, ← hm₃,
        setPrevB_eq hz F, ← hm₄]
      rfl
    · subst hb
      refine M.relist rfl rfl ?_ ?_ (fun l hl => rfl) ?_
      · intro d hd f hf
        have hdb := S.ne_of_mem hd
        rw [hw d (mem_insert_middle hd), if_neg fun h => hdb h.1, if_neg fun h => hdb h.1, if_neg,
          if_neg]
        · rintro ⟨rfl, rfl⟩
          simp [((hon d).mp hp).2.2] at hf
        · rintro ⟨rfl, rfl⟩
          simp [((hon d).mp he).2.2] at hf
      · intro _
        exact ⟨by simp [hw _ hbin, T.lo], by simp [hw _ hbin, T.hi]⟩
      · obtain ⟨ring', hring', hmem'⟩ := hins (word g m₄ · .next) (word g m₄ · .prev)
          (by simp [hw p hpin, hpb]) (by simp [hw _ hbin]) (by simp [hw _ hbin])
          (by simp [hw e hein, heb])
          (fun z hz hzp => by
            have hzb : z ≠ c.become .free := fun h => hbring (h ▸ hz)
            simp [hw z (hin z hz).1, hzp, hzb])
          (fun z hz hze => by
            have hzb : z ≠ c.become .free := fun h => hbring (h ▸ hz)
            simp [hw z (hin z hz).1, hze, hzb])
        refine ⟨ring', ⟨hring', .inr ⟨e, (hmem' e).mpr (.inr he), hhead⟩⟩, fun d => ?_⟩
        rw [hmem' d, hnew d]
    · refine ⟨.refl _, ?_⟩
      have hpc : p ∈ L ++ c :: R := mem_insert_middle ((hon p).mp hp).1
      have hec : e ∈ L ++ c :: R := mem_insert_middle ((hon e).mp he).1
      have hf₁ : Frame (L ++ c :: R) h.mem m₁ :=
        hm₁ ▸ Frame.put M.toSpread hpc (by simp [hpfree]) .next
      have hf₂ : Frame (L ++ c :: R) m₁ m₂ :=
        hm₂ ▸ Frame.put M.toSpread hec (by simp [hefree]) .prev
      have hf₃ : Frame (L ++ c :: R) m₂ m₄ := by
        rw [hm₄, hm₃, hb]
        exact (Frame.put M.toSpread hc hstu .next).trans (Frame.put M.toSpread hc hstu .prev)
          fun _ hx => hx
      exact (hf₁.trans hf₂ fun _ hx => hx).trans hf₃ fun _ hx => hx

/-- **`mkFreeBlock`** puts a cell in limbo on its list. -/
theorem mkFreeBlock_spec (M : Marked g rz h (L ++ c :: R)) (hst : c.st = .limbo) :
    ∃ h', mkFreeBlock g h c.addr c.size (listNo (c.psz g rz)) = .ok h' ∧
      Marked g rz h' (L ++ c.become .free :: R) ∧ Kept (L ++ c :: R) h h' := by
  have hc : c ∈ L ++ c :: R := by simp
  have F := M.fits c hc
  obtain ⟨m, hset, T, hoff⟩ := setBszB_spec M.rzOk (F.become .free) h.mem
  have M' : Marked g rz { h with mem := m } (L ++ c :: R) := M.of_sameOff hc hst hoff
  obtain ⟨h', hadd, M'', K⟩ := addToFreelist_spec M' hst T
  refine ⟨h', ?_, M'', ?_⟩
  · simp only [Cell.become_addr] at hset
    simp only [mkFreeBlock, bszBToPszB_eq M.rz_eq F, pszBToListNo_eq M.rzOk F, ok_bind, assertThat_of,
      mkFreeBszB_eq F, hset, hadd]
  · exact (Kept.of_sameOff (h := h) hc (by simp [hst]) hoff).trans K fun _ hx => hx

/-! ## `mkInuseBlock` and the cost centre -/

/-- Writes between the size words leave them alone. -/
theorem Tagged.of_inner (T : Tagged g m c) {lo hi : Nat}
    (hs : SameOff m m' lo hi) (hlo : c.addr + (hpOverheadSzB g + wordB) ≤ lo)
    (hhi : hi ≤ c.addr + (c.size - wordB)) : Tagged g m' c := by
  constructor
  · refine (hs.load_eq ?_).trans T.lo
    simp only [Cell.at]
    omega
  · refine (hs.load_eq ?_).trans T.hi
    simp only [Cell.at]
    omega

/-- Painting the red zones stays between the size words. -/
theorem paintRedzones_spec (hz : RzOk g rz) (F : c.Fits g rz) {left i : Nat} (T : Tagged g m c)
    (hi : i + left ≤ rz) :
    ∃ m', paintRedzones g m c.addr left i = .ok m' ∧ Tagged g m' c ∧
      SameOff m m' (c.addr + (hpOverheadSzB g + wordB)) (c.addr + (c.size - wordB)) := by
  induction left generalizing m i with
  | zero => exact ⟨m, rfl, T, .refl⟩
  | succ left ih =>
    have hw := F.words hz
    have hroom := F.room
    unfold overhead at hroom
    have hlo : addW c.addr (hpOverheadSzB g + wordB + i) = c.addr + (hpOverheadSzB g + wordB + i) :=
      F.addW_eq (by omega)
    have hhi : addW c.addr (subW (subW (subW c.size wordB) i) 1) =
        c.addr + (c.size - wordB - i - 1) := by
      have h₁ : subW c.size wordB = c.size - wordB := F.subW_eq (Nat.le_refl _) (by omega)
      have h₂ : subW (c.size - wordB) i = c.size - wordB - i := F.subW_eq (by omega) (by omega)
      have h₃ : subW (c.size - wordB - i) 1 = c.size - wordB - i - 1 :=
        F.subW_eq (by omega) (by omega)
      rw [h₁, h₂, h₃]
      exact F.addW_eq (by omega)
    have hs₁ : SameOff m (setRzLoByte g m c.addr i (rzByte c.addr 0x31))
        (c.addr + (hpOverheadSzB g + wordB)) (c.addr + (c.size - wordB)) := by
      unfold setRzLoByte
      rw [hlo]
      exact (fill_sameOff _ _ _ _).mono (by omega) (by omega)
    have T₁ := T.of_inner hs₁ (Nat.le_refl _) (Nat.le_refl _)
    obtain ⟨m₂, hm₂, hs₂⟩ : ∃ m₂, setRzHiByte g (setRzLoByte g m c.addr i (rzByte c.addr 0x31))
        c.addr i (rzByte c.addr 0x7c) = .ok m₂ ∧
        SameOff (setRzLoByte g m c.addr i (rzByte c.addr 0x31)) m₂
          (c.addr + (hpOverheadSzB g + wordB)) (c.addr + (c.size - wordB)) := by
      simp only [setRzHiByte, getBszB_eq hz F T₁, ok_bind, hhi]
      exact ⟨_, rfl, (fill_sameOff _ _ _ _).mono (by omega) (by omega)⟩
    have T₂ := T₁.of_inner hs₂ (Nat.le_refl _) (Nat.le_refl _)
    obtain ⟨m', hm', T', hs'⟩ := ih T₂ (by omega : i + 1 + left ≤ rz)
    refine ⟨m', ?_, T', (hs₁.trans hs₂).trans hs'⟩
    simp only [paintRedzones, hm₂, ok_bind, hm']

/-- **`mkInuseBlock`** hands out a cell in limbo. -/
theorem mkInuseBlock_spec (M : Marked g rz h (L ++ c :: R)) (hst : c.st = .limbo) :
    ∃ m', mkInuseBlock g h.arena h.mem c.addr c.size = .ok m' ∧
      Marked g rz { h with mem := m' } (L ++ c.become .used :: R) ∧
      SameOff h.mem m' c.addr c.stop := by
  have hz := M.rzOk
  have hc : c ∈ L ++ c :: R := by simp
  have F := M.fits c hc
  have Fu : (c.become .used).Fits g rz := F.become .used
  have hroom : minUsefulBszB g h.arena ≤ c.size := by
    show overhead g h.arena.rzSzB ≤ c.size
    rw [M.rz_eq]
    exact F.room
  have hmark : mkInuseBszB c.size = .ok (c.become .used).tag := mkPlainBszB_size F
  obtain ⟨m₁, hset, T₁, hs₁⟩ := setBszB_spec hz Fu h.mem
  have S : Spread g rz (L ++ c.become .used :: R) := M.toSpread.become .used
  have hu : c.become .used ∈ L ++ c.become .used :: R := by simp
  have T₂ : Tagged g (put g m₁ (c.become .used) .prev 0) (c.become .used) :=
    T₁.put_link S hu hu wordMod_pos (.inl rfl)
  have T₃ := T₂.put_link S hu hu wordMod_pos (.inr rfl)
  obtain ⟨m₃, hm₃⟩ : ∃ m₃, m₃ = put g (put g m₁ (c.become .used) .prev 0) (c.become .used) .next 0 :=
    ⟨_, rfl⟩
  rw [← hm₃] at T₃
  have hs₃ : SameOff h.mem m₃ c.addr c.stop := by
    rw [hm₃]
    exact (hs₁.trans (Fu.put_sameOff hz _ _ _)).trans (Fu.put_sameOff hz _ _ _)
  -- only the arenas that are not the client's have painted red zones
  have hpaint : ∃ m', (if h.arena.clientmem then pure m₃
      else paintRedzones g m₃ c.addr h.arena.rzSzB 0) = .ok m' ∧ Tagged g m' (c.become .used) ∧
      SameOff h.mem m' c.addr c.stop := by
    split
    · exact ⟨m₃, rfl, T₃, hs₃⟩
    · obtain ⟨m', hm', T', hs'⟩ := paintRedzones_spec (i := 0) hz Fu T₃
        (by rw [M.rz_eq]; omega : 0 + h.arena.rzSzB ≤ rz)
      refine ⟨m', hm', T', hs₃.trans (hs'.mono ?_ ?_)⟩
      · exact Nat.le_add_right ..
      · have hw := F.words hz
        simp only [Cell.become_addr, Cell.become_size, Cell.stop]
        omega
  obtain ⟨m', hm', T', hs'⟩ := hpaint
  refine ⟨m', ?_, ?_, hs'⟩
  · have hprev : setPrevB g m₁ c.addr 0 = put g m₁ (c.become .used) .prev 0 :=
      setPrevB_eq hz Fu m₁
    have hnext : setNextB g (put g m₁ (c.become .used) .prev 0) c.addr 0 = .ok m₃ := by
      show setNextB g _ (c.become .used).addr 0 = .ok m₃
      rw [setNextB_eq hz Fu T₂, hm₃]
    simp only [Cell.become_addr] at hset
    simp only [mkInuseBlock, assertThat_of hroom, ok_bind, hmark, hset, hprev, hnext, hm']
  · exact (M.of_sameOff hc hst hs').become (by simp [hst]) (by simp) fun _ => T'

/-- Charging a block to a cost centre writes before its lower size word. -/
theorem chargeCc_spec (M : Marked g rz h cs) (hc : c ∈ cs) (cc : Nat) :
    ∃ m', chargeCc g h.mem c.addr cc = .ok m' ∧ Marked g rz { h with mem := m' } cs ∧
      SameOff h.mem m' c.addr c.stop := by
  unfold chargeCc
  cases hp : g.profileHeap with
  | false => exact ⟨h.mem, rfl, M, .refl⟩
  | true =>
    have hhp : hpOverheadSzB g = 8 := by simp [hpOverheadSzB, hp]
    have hw := (M.fits c hc).words M.rzOk
    have hs : SameOff h.mem (storeW g h.mem c.addr cc) c.addr (c.addr + hpOverheadSzB g) :=
      (store_sameOff _ _ _).mono (Nat.le_refl _) (by omega)
    have hs' : SameOff h.mem (storeW g h.mem c.addr cc) c.addr c.stop :=
      hs.mono (Nat.le_refl _) (by unfold Cell.stop; omega)
    refine ⟨storeW g h.mem c.addr cc, ?_, ?_, hs'⟩
    · simp only [if_true, setCc, hp, assertThat_of, ok_bind]
      rfl
    · refine M.congr rfl rfl fun d hd _ f _ => ?_
      by_cases hdc : d = c
      · subst hdc
        refine hs.load_eq (.inr ?_)
        cases f <;> simp only [Cell.at] <;> omega
      · exact word_of_sameOff M.rzOk hs' (M.fits d hd) (M.apart.stop_le hc hd (Ne.symm hdc)) f

end

end MallocFree

end Valgrind
