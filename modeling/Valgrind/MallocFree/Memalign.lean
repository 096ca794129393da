import Valgrind.MallocFree.Free

/-!
# `VG_(arena_memalign)` and `VG_(arena_realloc)`

`arena_memalign` allocates a block that is bigger than it needs, frees the lower
part of it, and returns the upper part. How much bigger is computed in word
arithmetic without a check; when the sum does not wrap, the upper part is a block
of the heap that is big enough.

`arena_realloc` allocates a block, copies, and frees. It relies on the new block
being at least as big as the old one.
-/

namespace Valgrind

namespace MallocFree

open ByteMem Machine Ring Intervals

section

variable [Machine] (g : Config) (rz : Nat)

/-- What a successful allocation does to the heap: `u` is in use besides what was, and
no byte of what was in use has changed. -/
structure Allocated (h : Heap) (sbs : List Sblock) (u : Cell) (h' : Heap) (sbs' : List Sblock) :
    Prop where
  ok : HeapOk g rz h' sbs'
  mem : u ∈ cellsOf sbs'
  used : u.st = .used
  others : ∀ d, d.st = .used → (d ∈ cellsOf sbs' ↔ d = u ∨ d ∈ cellsOf sbs)
  fresh : u ∉ cellsOf sbs
  frame : UsedSame (cellsOf sbs) h.mem h'.mem
  clientmem : h'.arena.clientmem = h.arena.clientmem

variable {g rz} {h h' : Heap} {m m' : Mem} {c d u f v : Cell} {k : Place}
  {L R rest : List Cell} {sbs : List Sblock} {cc req A p : Nat}

/-- The blocks in use after `arena_malloc`. -/
theorem Handed.mem_iff (hH : Handed g rz h sbs h' k u rest) (hd : d.st = .used) :
    d ∈ cellsOf (k.fill (u :: rest)) ↔ d = u ∨ d ∈ cellsOf sbs := by
  have hr : d ∉ rest := fun hr => by simp [hH.rest_free d hr] at hd
  rw [mem_cellsOf_fill, ← hH.others d hd, List.mem_cons, or_iff_left hr]

theorem Handed.allocated (hH : Handed g rz h sbs h' k u rest) :
    Allocated g rz h sbs u h' (k.fill (u :: rest)) := by
  refine ⟨hH.ok, (hH.mem_iff hH.used).mpr (.inl rfl), hH.used, fun d hd => hH.mem_iff hd, ?_,
    hH.frame, hH.clientmem⟩
  rw [← hH.others u hH.used]
  intro hu
  have M := hH.ok.marked
  rw [cellsOf_fill, List.append_assoc] at M
  have M' : Marked g rz h' (k.lefts ++ u :: (rest ++ k.rights)) := by simpa using M
  have hout := M'.apart.notMem (M'.fits u (by simp)) M'.rzOk
  rcases List.mem_append.mp hu with hu | hu
  · exact hout.1 hu
  · exact hout.2 (List.mem_append_right _ hu)

/-! ## `arena_memalign` -/

/-- Of two neighbours in limbo, the lower one becomes free and the upper one goes into
use. -/
theorem freeAndUse_spec (cc : Nat) (M : Marked g rz h (L ++ f :: v :: R)) (hf : f.st = .limbo)
    (hv : v.st = .limbo) (cc' : Nat) :
    ∃ h₁ m₂ m₃ m₄, mkFreeBlock g h f.addr f.size (listNo (f.psz g rz)) = .ok h₁ ∧
      chargeCc g h₁.mem f.addr cc' = .ok m₂ ∧
      mkInuseBlock g h₁.arena m₂ v.addr v.size = .ok m₃ ∧ chargeCc g m₃ v.addr cc = .ok m₄ ∧
      Marked g rz { h₁ with mem := m₄ } (L ++ f.become .free :: v.become .used :: R) ∧
      Kept (L ++ f :: v :: R) h { h₁ with mem := m₄ } := by
  obtain ⟨h₁, e₁, M₁, K₁⟩ := mkFreeBlock_spec M hf
  obtain ⟨m₂, e₂, M₂, hs₂⟩ := chargeCc_spec M₁ (c := f.become .free) (by simp) cc'
  have M₂' : Marked g rz { h₁ with mem := m₂ } ((L ++ [f.become .free]) ++ v :: R) := by
    simpa using M₂
  obtain ⟨m₃, e₃, M₃, hs₃⟩ := mkInuseBlock_spec M₂' hv
  obtain ⟨m₄, e₄, M₄, hs₄⟩ := chargeCc_spec M₃ (c := v.become .used) (by simp) cc
  refine ⟨h₁, m₂, m₃, m₄, e₁, e₂, e₃, e₄, by simpa using M₄, ?_⟩
  have k₂ : Kept (L ++ f :: v :: R) h₁ { h₁ with mem := m₂ } :=
    .of_sameOff (c := f) (by simp) (by simp [hf]) hs₂
  have k₄ : Kept (L ++ f :: v :: R) { h₁ with mem := m₂ } { h₁ with mem := m₄ } :=
    .of_sameOff (c := v) (h := { h₁ with mem := m₂ }) (by simp) (by simp [hv]) (hs₃.trans hs₄)
  exact (K₁.trans k₂ fun _ hx => hx).trans k₄ fun _ hx => hx

/-- Where the aligned block of `arena_memalign` begins. -/
theorem alignUpwards_bounds {x : Nat} (hA : 0 < A) (hx : x + A < wordMod) :
    x ≤ alignUpwards x A ∧ alignUpwards x A < x + A := by
  have hmod := Nat.mod_lt x hA
  have hle := Nat.mod_le x A
  unfold alignUpwards
  split
  · omega
  · rename_i hne
    rw [addW_of_lt (by omega)]
    omega

section

variable {addr size lo hi frag ov : Nat}

/-- The least address of the aligned block is one of the base block. -/
theorem addW_base (hlt : addr + size < wordMod) (hbig : req + (lo + hi) + A ≤ size - (lo + hi)) :
    addW (addW addr (2 * lo)) hi = addr + 2 * lo + hi := by
  rw [addW_of_lt (show addr + 2 * lo < wordMod by omega), addW_of_lt (by omega)]

/-- The aligned block leaves room for the fragment below it, and is itself big enough. -/
theorem exists_frag (hApos : 0 < A) (hlt : addr + size < wordMod)
    (hbig : req + (lo + hi) + A ≤ size - (lo + hi)) :
    ∃ frag, alignUpwards (addr + 2 * lo + hi) A = addr + frag + lo ∧ lo + hi ≤ frag ∧
      frag + req + (lo + hi) ≤ size := by
  obtain ⟨hle, hlt'⟩ := alignUpwards_bounds (x := addr + 2 * lo + hi) hApos (by omega)
  refine ⟨alignUpwards (addr + 2 * lo + hi) A - lo - addr, ?_, ?_, ?_⟩ <;> omega

theorem frag_lt (hlt : addr + size < wordMod) (hfhi : frag + req + ov ≤ size) :
    addr + (frag + ov) < wordMod := by
  omega

omit [Machine] in
theorem frag_room (hfhi : frag + req + ov ≤ size) : frag + ov ≤ size := by
  omega

omit [Machine] in
theorem frag_le (hfhi : frag + req + ov ≤ size) : frag ≤ size := by
  omega

theorem subW_add_right (h : addr + lo < wordMod) : subW (addr + lo) lo = addr := by
  rw [subW_of_le h (by omega), Nat.add_sub_cancel]

theorem subW_add_left (h : addr + lo < wordMod) : subW (addr + lo) addr = lo := by
  rw [subW_of_le h (by omega), Nat.add_sub_cancel_left]

theorem subW_stop (hlt : addr + size < wordMod) (hle : frag ≤ size) :
    subW (addr + size) (addr + frag) = size - frag := by
  rw [subW_of_le hlt (by omega), Nat.add_sub_add_left]

end

/-- The way to the end of a block from its payload. -/
theorem Cell.Fits.stop_eq (F : c.Fits g rz) :
    addW (addW (c.payload g rz) (c.psz g rz)) (rz + wordB) = c.addr + c.size := by
  have hroom := F.room
  have hlt : c.addr + c.size < wordMod := F.lt
  have heq : c.payload g rz + c.psz g rz + (rz + wordB) = c.addr + c.size := by
    unfold Cell.payload Cell.psz
    unfold overhead at hroom ⊢
    omega
  rw [addW_of_lt (show c.payload g rz + c.psz g rz < wordMod by omega), addW_of_lt (by omega), heq]

/-- **Carving the aligned block out of the base block**: the lower `frag` bytes of the
block just handed out become free again. -/
theorem Handed.carve (cc : Nat) {h₁ h₂ : Heap} (hH : Handed g rz h sbs h₁ k u rest) {frag : Nat}
    (hmem : h₂.mem = h₁.mem) (hfl : h₂.arena.freelist = h₁.arena.freelist)
    (hA : SameArena (h₁.arena.lend (loan g rz (cellsOf sbs))) h₂.arena)
    (hlo : overhead g rz ≤ frag) (hdvd : 8 ∣ frag) (hhi : frag + overhead g rz ≤ u.size) :
    ∃ h₃ m₄ m₅ m₆, ∃ v : Cell, v = ⟨u.addr + frag, u.size - frag, .used⟩ ∧ v.Fits g rz ∧
      mkFreeBlock g h₂ u.addr frag (listNo (frag - overhead g rz)) = .ok h₃ ∧
      chargeCc g h₃.mem u.addr (g.adminCc .fragMemalign1) = .ok m₄ ∧
      mkInuseBlock g h₃.arena m₄ v.addr v.size = .ok m₅ ∧ chargeCc g m₅ v.addr cc = .ok m₆ ∧
      Tagged g m₆ v ∧ h₃.arena.rzSzB = rz ∧ SameArena h₂.arena h₃.arena ∧
      ∀ a, a.freelist = h₃.arena.freelist →
        SameArena (h₃.arena.lend (addW (loan g rz (cellsOf sbs)) (v.psz g rz))) a →
        ∃ sbs', Allocated g rz h sbs v { mem := m₆, arena := a } sbs' := by
  have hcs : cellsOf (k.fill (u :: rest)) = k.lefts ++ (u :: rest) ++ k.rights := cellsOf_fill _ _
  have M₁ : Marked g rz h₁ (k.lefts ++ u :: (rest ++ k.rights)) := by
    have := hH.ok.marked
    rw [hcs] at this
    simpa using this
  have Fu := M₁.fits u (by simp)
  have hpos := Fu.pos
  have hlt : u.addr + u.size < wordMod := Fu.lt
  have hovpos : 0 < overhead g rz := overhead_pos
  have M₂ : Marked g rz h₂ (k.lefts ++ u.become .limbo :: (rest ++ k.rights)) :=
    (M₁.congr hA.rzSzB hfl fun _ _ _ _ _ => by rw [hmem]).become (by simp [hH.used]) (by simp)
      fun h => absurd rfl h
  obtain ⟨f, hf⟩ : ∃ f : Cell, f = ⟨u.addr, frag, .limbo⟩ := ⟨_, rfl⟩
  obtain ⟨w, hw⟩ : ∃ w : Cell, w = ⟨u.addr + frag, u.size - frag, .limbo⟩ := ⟨_, rfl⟩
  have htile : Tiled Cell.addr Cell.stop u.addr u.stop [f, w] := by
    rw [hf, hw]
    refine ⟨rfl, ?_, rfl, ?_, ?_⟩ <;> simp only [tiled_nil, Cell.stop] <;> omega
  have M₃ : Marked g rz h₂ (k.lefts ++ f :: w :: (rest ++ k.rights)) := by
    have M' : Marked g rz h₂ (k.lefts ++ [u.become .limbo] ++ (rest ++ k.rights)) := by
      simpa using M₂
    have := M'.retile (p := u.addr) (q := u.stop) (List.cons_ne_nil _ _)
      ⟨rfl, by show u.addr < u.addr + u.size; omega, rfl⟩ (by simp) htile (by simp [hf, hw]) ?_
    · simpa using this
    · intro d hd
      simp only [List.mem_cons, List.not_mem_nil, or_false] at hd
      rcases hd with rfl | rfl
      · rw [hf]
        refine ⟨hpos, hlo, hdvd, ?_⟩
        show u.addr + frag < wordMod
        omega
      · rw [hw]
        refine ⟨?_, ?_, Nat.dvd_sub Fu.dvd hdvd, ?_⟩
        · show 0 < u.addr + frag
          omega
        · show overhead g rz ≤ u.size - frag
          omega
        · show u.addr + frag + (u.size - frag) < wordMod
          omega
  obtain ⟨h₃, m₄, m₅, m₆, e₁, e₂, e₃, e₄, M₆, K₆⟩ :=
    freeAndUse_spec cc M₃ (by rw [hf]) (by rw [hw]) (g.adminCc .fragMemalign1)
  have hfa : f.addr = u.addr := by rw [hf]
  have hfs : f.size = frag := by rw [hf]
  have hfp : f.psz g rz = frag - overhead g rz := by rw [hf]; rfl
  rw [hfa, hfs, hfp] at e₁
  rw [hfa] at e₂
  have hv : w.become .used = ⟨u.addr + frag, u.size - frag, .used⟩ := by rw [hw]; rfl
  refine ⟨h₃, m₄, m₅, m₆, w.become .used, hv, M₆.fits _ (by simp), e₁, e₂, e₃, e₄,
    M₆.tagged _ (by simp) (by simp), M₆.rz_eq, K₆.arena, ?_⟩
  intro a hafl haA
  -- the shape, by way of the base block in limbo
  have M₇ : Marked g rz { mem := m₆, arena := a }
      (k.lefts ++ f.become .free :: w.become .used :: (rest ++ k.rights)) :=
    M₆.congr haA.rzSzB hafl fun _ _ _ _ _ => rfl
  have hspare : ∀ z, Spared (k.lefts ++ u.become .limbo :: (rest ++ k.rights)) z →
      Spared (k.lefts ++ f :: w :: (rest ++ k.rights)) z := by
    intro z hz
    simp only [spared_append, spared_cons, Cell.become_st, Cell.become_addr, Cell.become_size, ne_eq,
      reduceCtorEq, not_false_eq_true, forall_const, hf, hw, Cell.stop] at hz ⊢
    refine ⟨hz.1, ?_, ?_, hz.2.2⟩ <;> omega
  have hframe : Frame (k.lefts ++ u.become .limbo :: (rest ++ k.rights)) h₁.mem m₆ := by
    intro z hz
    rw [← hmem]
    exact K₆.frame z (hspare z hz)
  have hS : Shaped g rz { mem := m₆, arena := a }
      (k.fill (f.become .free :: w.become .used :: rest)) := by
    have S₂ : Shaped g rz h₂ (k.fill (u.become .limbo :: rest)) := by
      refine hH.ok.toShaped.refill (by simpa using M₂) (fun h => h) ?_ hA.sblocks
      rw [hmem]
      exact .refl
    refine S₂.refill (by simpa using M₇) ?_ ?_ (haA.sblocks.trans K₆.arena.sblocks)
    · rintro p q ⟨rfl, -, hT⟩
      obtain ⟨h₁, h₂, h₃, h₄, h₅⟩ := htile
      refine ⟨h₁, h₂, h₃, h₄, ?_⟩
      have h₆ : w.stop = u.stop := h₅
      show Tiled Cell.addr Cell.stop w.stop q rest
      rw [h₆]
      exact hT
    · rw [hmem]
      simpa using hframe
  have hcs' : cellsOf (k.fill (f.become .free :: w.become .used :: rest)) =
      k.lefts ++ (f.become .free :: w.become .used :: rest) ++ k.rights := cellsOf_fill _ _
  have hrest : loan g rz rest = 0 := loan_eq_zero fun d hd => by simp [hH.rest_free d hd]
  have hmemiff : ∀ d, d.st = .used → (d ∈ cellsOf (k.fill (f.become .free :: w.become .used :: rest)) ↔
      d = w.become .used ∨ d ∈ cellsOf sbs) := by
    intro d hd
    have hdf : d ≠ f.become .free := by
      rintro rfl
      simp at hd
    have hr : d ∉ rest := fun hr => by simp [hH.rest_free d hr] at hd
    rw [mem_cellsOf_fill, ← hH.others d hd, List.mem_cons, List.mem_cons, or_iff_right hdf, or_iff_left hr]
  refine ⟨_, ⟨hS, ?_, ?_, ?_⟩, (hmemiff _ rfl).mpr (.inl rfl), rfl, hmemiff, ?_, ?_, ?_⟩
  · intro d hd
    rcases mem_cellsOf_fill.mp hd with hd | hd
    · rcases List.mem_cons.mp hd with rfl | hd
      · simp
      rcases List.mem_cons.mp hd with rfl | hd
      · simp
      · exact hH.ok.settled d (mem_cellsOf_fill.mpr (.inl (List.mem_cons_of_mem u hd)))
    · exact hH.ok.settled d (mem_cellsOf_fill.mpr (.inr hd))
  · intro s hs
    rcases mem_fill_cases (u :: rest) hs with rfl | hs
    · have hold : Coalesced (k.left ++ (u :: (rest ++ k.right))) := by
        have := hH.ok.coalesced ⟨k.addr, k.n, k.left ++ (u :: rest) ++ k.right⟩ (by simp [Place.fill])
        simpa using this
      obtain ⟨hl, hr, -⟩ := List.isChain_append.mp hold
      obtain ⟨-, hr⟩ := List.isChain_cons.mp hr
      have hnew : Coalesced (k.left ++ (f.become .free :: w.become .used :: (rest ++ k.right))) := by
        refine List.isChain_append.mpr ⟨hl, ?_, ?_⟩
        · refine List.isChain_cons.mpr ⟨by simp, List.isChain_cons.mpr ⟨?_, hr⟩⟩
          rintro d - ⟨h, -⟩
          simp at h
        · rintro d hd e - ⟨hf', -⟩
          exact hH.left_busy d hd hf'
      simpa using hnew
    · exact hH.ok.coalesced s hs
  · have hlt' := hS.marked.toSpread.loan_lt
    rw [hcs'] at hlt' ⊢
    rw [haA.bytesOnLoan]
    show addW (loan g rz (cellsOf sbs)) ((w.become .used).psz g rz) = _
    simp only [loan_append, loan_cons, Cell.become_st, reduceCtorEq, if_false, if_true, hrest]
      at hlt' ⊢
    rw [hH.loan_eq, addW_of_lt (by omega)]
    omega
  · rw [← hH.others _ rfl]
    intro hin
    have M₈ : Marked g rz { mem := m₆, arena := a }
        ((k.lefts ++ [f.become .free]) ++ w.become .used :: (rest ++ k.rights)) := by
      simpa using M₇
    have hout := M₈.apart.notMem (M₈.fits _ (by simp)) M₈.rzOk
    rcases List.mem_append.mp hin with hin | hin
    · exact hout.1 (List.mem_append_left _ hin)
    · exact hout.2 (List.mem_append_right _ hin)
  · intro d hd hst z h₁ h₂
    refine Eq.trans ?_ (hH.frame d hd hst z h₁ h₂)
    refine hframe.usedSame M₂.apart d ?_ hst z h₁ h₂
    rcases List.mem_append.mp ((hH.others d hst).mpr hd) with hd | hd
    · exact List.mem_append_left _ hd
    · exact List.mem_append_right _ (by simp [hd])
  · exact (haA.clientmem.trans K₆.arena.clientmem).trans (hA.clientmem.trans hH.clientmem)

/-- **The split of `arena_memalign`**, of a block with room for a fragment, the aligned
block and the bytes skipped in between. -/
theorem splitAligned_spec {h₁ h₂ : Heap} (hH : Handed g rz h sbs h₁ k u rest)
    (hmem : h₂.mem = h₁.mem) (hfl : h₂.arena.freelist = h₁.arena.freelist)
    (hA : SameArena (h₁.arena.lend (loan g rz (cellsOf sbs))) h₂.arena) (hApos : 0 < A)
    (hbig : req + overhead g rz + A ≤ u.psz g rz)
    (H : splitAligned g h₂ cc A req (u.payload g rz) = .ok (p, h')) :
    ∃ v sbs', Allocated g rz h sbs v h' sbs' ∧ p = v.payload g rz ∧ A ∣ p ∧ req ≤ v.psz g rz := by
  have M₁ : Marked g rz h₁ (cellsOf (k.fill (u :: rest))) := hH.ok.marked
  have hz := M₁.rzOk
  have huin : u ∈ cellsOf (k.fill (u :: rest)) := (hH.mem_iff hH.used).mpr (.inl rfl)
  have Fu := M₁.fits u huin
  have Tu : Tagged g h₂.mem u := hmem ▸ M₁.tagged u huin (by simp [hH.used])
  have hlt : u.addr + u.size < wordMod := Fu.lt
  have hrz₂ : h₂.arena.rzSzB = rz := hA.rzSzB.trans M₁.rz_eq
  have hlo : overheadSzBLo g h₂.arena = hpOverheadSzB g + wordB + rz := by
    rw [overheadSzBLo, hrz₂]
  have hhi : overheadSzBHi h₂.arena = rz + wordB := by
    rw [overheadSzBHi, hrz₂]
  have hov : overhead g rz = hpOverheadSzB g + wordB + rz + (rz + wordB) := rfl
  have hpsz : u.psz g rz = u.size - overhead g rz := rfl
  -- where the aligned block begins
  rw [hpsz, hov] at hbig
  have hXeq : addW (addW u.addr (2 * overheadSzBLo g h₂.arena)) (overheadSzBHi h₂.arena) =
      u.addr + 2 * (hpOverheadSzB g + wordB + rz) + (rz + wordB) := by
    rw [hlo, hhi]
    exact addW_base hlt hbig
  obtain ⟨frag, hfrag, hflo, hfhi⟩ := exists_frag hApos hlt hbig
  rw [← hov] at hflo hfhi
  have hflt : u.addr + (frag + overhead g rz) < wordMod := frag_lt hlt hfhi
  have hblock : subW (u.addr + frag + (hpOverheadSzB g + wordB + rz))
      (hpOverheadSzB g + wordB + rz) = u.addr + frag :=
    subW_add_right (lt_of_le_of_lt (by rw [hov]; omega) hflt)
  have hblock₂ : getPayloadBlock g h₂.arena (alignUpwards (u.addr +
      2 * (hpOverheadSzB g + wordB + rz) + (rz + wordB)) A) = u.addr + frag := by
    rw [getPayloadBlock, hlo, hfrag, hblock]
  have hsub : subW (u.addr + frag) u.addr = frag := subW_add_left (lt_of_le_of_lt (Nat.add_le_add_left (Nat.le_add_right ..) _) hflt)
  unfold splitAligned at H
  simp only [getPayloadBlock_eq hrz₂ Fu, hXeq, hblock₂, hsub, getPszB_eq hz Fu Tu hrz₂,
    ok_bind, bind_eq_ok, assertThat_eq_ok] at H
  obtain ⟨_, -, fp, hfp, fl, hfl', h₃, hfree, m₄, hcc, m₅, huse, m₆, hcc₂, _, -, _, -, psz, hpsz',
    _, hle, _, hal, H⟩ := H
  rw [bszBToPszB, overheadSzB_eq, hrz₂, assertThat_of hflo] at hfp
  have hfp' : frag - overhead g rz = fp := Except.ok.inj hfp
  subst hfp'
  simp only [pszBToListNo, bind_eq_ok, assertThat_eq_ok, pure_eq_ok] at hfl'
  obtain ⟨_, hmod, rfl⟩ := hfl'
  have hdvd : 8 ∣ frag := by
    rw [← Nat.sub_add_cancel hflo]
    exact Nat.dvd_add (Nat.dvd_of_mod_eq_zero hmod) hz.dvd
  obtain ⟨h₃', m₄', m₅', m₆', v, hv, Fv, e₁, e₂, e₃, e₄, Tv, hrz₃, hA₃, hall⟩ :=
    hH.carve cc hmem hfl hA hflo hdvd (frag_room hfhi)
  have hva : v.addr = u.addr + frag := by rw [hv]
  have hvs : v.size = u.size - frag := by rw [hv]
  -- the calls are those of the carving
  rw [e₁] at hfree
  cases hfree
  rw [e₂] at hcc
  cases hcc
  have hsize : subW (addW (addW (u.payload g rz) (u.psz g rz)) (overheadSzBHi h₃.arena))
      (u.addr + frag) = v.size := by
    have h₂ : overheadSzBHi h₃.arena = rz + wordB := by rw [overheadSzBHi, hrz₃]
    rw [h₂, Fu.stop_eq, hvs]
    exact subW_stop hlt (frag_le hfhi)
  rw [hsize, ← hva, e₃] at huse
  cases huse
  rw [← hva, e₄] at hcc₂
  cases hcc₂
  have hblock₃ : getPayloadBlock g h₃.arena (alignUpwards (u.addr +
      2 * (hpOverheadSzB g + wordB + rz) + (rz + wordB)) A) = v.addr := by
    rw [getPayloadBlock, overheadSzBLo, hrz₃, hfrag, hblock, hva]
  rw [hblock₃, getPszB_eq hz Fv Tv hrz₃] at hpsz'
  cases hpsz'
  simp only [pure_eq_ok, Prod.mk.injEq] at H
  obtain ⟨rfl, rfl⟩ := H
  have hloan₃ : h₃.arena.bytesOnLoan = loan g rz (cellsOf sbs) :=
    hA₃.bytesOnLoan.trans hA.bytesOnLoan
  obtain ⟨sbs', hal'⟩ := hall (if h₃.arena.bytesOnLoanMax < addW h₃.arena.bytesOnLoan (v.psz g rz)
    then { h₃.arena with
      bytesOnLoan := addW h₃.arena.bytesOnLoan (v.psz g rz)
      bytesOnLoanMax := addW h₃.arena.bytesOnLoan (v.psz g rz) }
    else { h₃.arena with bytesOnLoan := addW h₃.arena.bytesOnLoan (v.psz g rz) })
    (by split <;> rfl) (by rw [← hloan₃]; split <;> exact ⟨rfl, rfl, rfl, rfl, rfl, rfl⟩)
  refine ⟨v, sbs', hal', ?_, Nat.dvd_of_mod_eq_zero hal, hle⟩
  rw [hfrag, Cell.payload, hva]

/-- **`VG_(arena_memalign)`**, when the size of the base block does not wrap. -/
theorem arenaMemalign_spec (O : HeapOk g rz h sbs) {sbrk : Nat → Option Nat} {arrayOk : Bool}
    (hsbrk : SbrkOk g h sbrk) (hroom : alignReqPszB req + overhead g rz + A < wordMod)
    (H : arenaMemalign g h cc A req sbrk arrayOk = .ok (p, h')) :
    (p = 0 ∧ h' = h) ∨ ∃ u sbs', Allocated g rz h sbs u h' sbs' ∧ p = u.payload g rz ∧ A ∣ p ∧
      alignReqPszB req ≤ u.psz g rz := by
  have hz := O.marked.rzOk
  unfold arenaMemalign at H
  simp only [bind_eq_ok, assertThat_eq_ok] at H
  obtain ⟨_, -, _, -, H⟩ := H
  split at H
  · exact absurd H throw_eq_ok
  rename_i hAok
  have hApos : 0 < A := by
    unfold minMallocSzB at hAok
    omega
  simp only [bind_eq_ok, assertThat_eq_ok] at H
  obtain ⟨_, hA8, ⟨baseP, h₁⟩, hmalloc, H⟩ := H
  have hA8' : 8 ∣ A := Nat.dvd_of_mod_eq_zero hA8
  have hbase : addW (addW (alignReqPszB req) (minUsefulBszB g h.arena)) A =
      alignReqPszB req + overhead g rz + A := by
    have h₁ : addW (alignReqPszB req) (overhead g rz) = alignReqPszB req + overhead g rz :=
      addW_of_lt (by omega)
    rw [minUsefulBszB_eq O.marked, h₁, addW_of_lt hroom]
  rw [hbase] at hmalloc
  dsimp only at H
  rcases arenaMalloc_spec O hsbrk hmalloc with ⟨rfl, rfl⟩ | ⟨k, u, rest, hH, rfl, -, hsize⟩
  · simp only [if_true, pure_eq_ok, Prod.mk.injEq] at H
    exact .inl ⟨H.1.symm, H.2.symm⟩
  · -- the block handed out has room for the fragment and the aligned block
    have hbig : alignReqPszB req + overhead g rz + A ≤ u.psz g rz := by
      refine hsize ?_
      have h₁ := Nat.dvd_add (Nat.dvd_add (alignReqPszB_dvd req) hz.dvd) hA8'
      have h₂ := eight_dvd_wordMod
      omega
    have hpay : u.payload g rz ≠ 0 := by
      have huin : u ∈ cellsOf (k.fill (u :: rest)) := (hH.mem_iff hH.used).mpr (.inl rfl)
      have := (hH.ok.marked.fits u huin).pos
      unfold Cell.payload
      omega
    rw [if_neg hpay] at H
    obtain ⟨h₂, hh₂⟩ : ∃ h₂ : Heap, { h₁ with arena := h₁.arena.lend h.arena.bytesOnLoan } = h₂ :=
      ⟨_, rfl⟩
    change splitAligned g { h₁ with arena := h₁.arena.lend h.arena.bytesOnLoan } cc A
      (alignReqPszB req) (u.payload g rz) = .ok (p, h') at H
    rw [hh₂] at H
    refine .inr (splitAligned_spec hH (by rw [← hh₂]) (by rw [← hh₂]; rfl) ?_ hApos hbig H)
    rw [← hh₂, O.loan_eq]
    exact .refl _

/-! ## Writes that the allocator does not notice -/

/-- The heap depends on the size words of blocks and superblocks and on the links of the
free blocks only. -/
theorem HeapOk.congr_mem (O : HeapOk g rz h sbs)
    (hw : ∀ c ∈ cellsOf sbs, ∀ f, c.st = .free ∨ f = .lo ∨ f = .hi →
      word g m' c f = word g h.mem c f)
    (hh : ∀ s ∈ sbs, nPayloadBytes g m' s.addr = nPayloadBytes g h.mem s.addr) :
    HeapOk g rz { h with mem := m' } sbs := by
  refine ⟨⟨?_, ?_, O.tiled⟩, O.settled, O.coalesced, O.loan_eq⟩
  · exact O.marked.congr rfl rfl fun c hc _ f hf => hw c hc f hf
  · refine ⟨O.sup.array, O.sup.order, fun x hx => ?_, O.sup.inside⟩
    rw [← O.sup.header x hx]
    obtain ⟨s, hs, rfl⟩ := List.mem_map.mp hx
    exact hh s hs

/-- Writes to the payload of a block in use. -/
theorem HeapOk.write_payload (O : HeapOk g rz h sbs) (hc : c ∈ cellsOf sbs) (hst : c.st = .used)
    {lo hi : Nat} (hs : SameOff h.mem m' lo hi) (hlo : c.payload g rz ≤ lo)
    (hhi : hi ≤ c.payload g rz + c.psz g rz) : HeapOk g rz { h with mem := m' } sbs := by
  have hz := O.marked.rzOk
  have F := O.marked.fits c hc
  have hroom := F.room
  have hin : SameOff h.mem m' c.addr c.stop := by
    refine hs.mono ?_ ?_
    · unfold Cell.payload at hlo
      omega
    · unfold Cell.payload Cell.psz at hhi
      unfold overhead at hroom hhi
      unfold Cell.stop
      omega
  refine O.congr_mem ?_ ?_
  · intro d hd f hf
    by_cases hdc : d = c
    · subst hdc
      refine hs.load_eq ?_
      unfold Cell.payload at hlo hhi
      unfold Cell.psz at hhi
      unfold overhead at hroom hhi
      rcases hf with hf | rfl | rfl
      · simp [hst] at hf
      · simp only [Cell.at]
        omega
      · simp only [Cell.at]
        omega
    · exact word_of_sameOff hz hin (O.marked.fits d hd)
        (O.marked.apart.stop_le hc hd (Ne.symm hdc)) f
  · intro s hss
    refine load_congr fun y h₁ h₂ => hin y ?_
    have hsz := sizeofSuperblock_bounds.1
    exact O.toShaped.admin_outside hss h₁ (by unfold Sblock.start; omega) hc

/-- Writes outside the superblocks of the arena. -/
theorem HeapOk.write_outside (O : HeapOk g rz h sbs) {z : Nat} {b : UInt8}
    (hz : ∀ sb ∈ h.arena.sblocks, z < sb ∨ sb + sizeofSuperblock + nPayloadBytes g h.mem sb ≤ z) :
    HeapOk g rz { h with mem := fill h.mem z b 1 } sbs := by
  have hs : SameOff h.mem (fill h.mem z b 1) z (z + 1) := fill_sameOff _ _ _ _
  have hout : ∀ s ∈ sbs, z < s.addr ∨ s.start + s.n ≤ z := by
    intro s hss
    have hx : s.ext ∈ sbs.map Sblock.ext := List.mem_map_of_mem hss
    have hin : s.addr ∈ h.arena.sblocks := by
      rw [O.sup.array]
      exact List.mem_map_of_mem hx
    have hhd : nPayloadBytes g h.mem s.addr = s.n := O.sup.header _ hx
    have := hz s.addr hin
    rwa [hhd] at this
  refine O.congr_mem ?_ ?_
  · intro c hc f _
    obtain ⟨s, hss, -, h₁, h₂⟩ := O.toShaped.mem_bounds hc
    have hb := (O.marked.fits c hc).at_bounds O.marked.rzOk f
    have := hout s hss
    refine hs.load_eq ?_
    unfold Sblock.start at *
    omega
  · intro s hss
    have hsz := sizeofSuperblock_bounds.1
    have := hout s hss
    refine hs.load_eq ?_
    unfold Sblock.start at this
    omega

/-! ## `arena_realloc` -/

variable (g rz) in
/-- What `arena_realloc` does when it moves a block: `u` is in use in place of `c`, with the
bytes of `c` in it, and no byte of another block in use has changed. -/
structure Moved (h : Heap) (sbs : List Sblock) (c u : Cell) (h' : Heap) (sbs' : List Sblock) :
    Prop where
  ok : HeapOk g rz h' sbs'
  mem : u ∈ cellsOf sbs'
  used : u.st = .used
  others : ∀ d, d.st = .used → (d ∈ cellsOf sbs' ↔ d = u ∨ d ∈ cellsOf sbs ∧ d ≠ c)
  fresh : u ∉ cellsOf sbs
  frame : ∀ d ∈ cellsOf sbs, d.st = .used → d ≠ c → ∀ z, d.addr ≤ z → z < d.stop →
    h'.mem z = h.mem z
  copied : ∀ i < c.psz g rz, h'.mem (u.payload g rz + i) = h.mem (c.payload g rz + i)
  clientmem : h'.arena.clientmem = h.arena.clientmem

omit [Machine] in
theorem copy_zero (m : Mem) (dst src : Nat) : copy m dst src 0 = m := by
  funext x
  exact if_neg (by omega)

/-- **`VG_(arena_realloc)`** of a block in use, for a size whose rounding does not wrap. -/
theorem arenaRealloc_spec (O : HeapOk g rz h sbs) (hc : c ∈ cellsOf sbs) (hst : c.st = .used)
    {sbrk : Nat → Option Nat} {arrayOk : Bool} (hsbrk : SbrkOk g h sbrk)
    (hreq : req + 7 < wordMod ∨ req ≤ c.psz g rz ∨ c.psz g rz = 0)
    (H : arenaRealloc g h cc (c.payload g rz) req sbrk arrayOk = .ok (p, h')) :
    (p = c.payload g rz ∧ h' = h ∧ req ≤ c.psz g rz) ∨
    (p = 0 ∧ c.psz g rz = 0 ∧ ∃ sbs', GivenBack g rz h sbs c h' sbs') ∨
    ∃ u sbs', Moved g rz h sbs c u h' sbs' ∧ p = u.payload g rz := by
  have hz := O.marked.rzOk
  have F := O.marked.fits c hc
  have T := O.marked.tagged c hc (by simp [hst])
  have hrz := O.marked.rz_eq
  simp only [arenaRealloc, getPayloadBlock_eq hrz F, getPszB_eq hz F T hrz, ok_bind, bind_eq_ok,
    assertThat_eq_ok] at H
  obtain ⟨_, -, _, -, _, -, _, -, _, -, H⟩ := H
  split at H
  · rename_i hle
    simp only [pure_eq_ok, Prod.mk.injEq] at H
    exact .inl ⟨H.1.symm, H.2.symm, hle⟩
  · rename_i hlt
    obtain ⟨⟨pNew, h₁⟩, hmalloc, H⟩ := bind_eq_ok.mp H
    obtain ⟨m₂, hcopy, H⟩ := bind_eq_ok.mp H
    obtain ⟨h₃, hfree, H⟩ := bind_eq_ok.mp H
    simp only [pure_eq_ok, Prod.mk.injEq] at H
    obtain ⟨rfl, rfl⟩ := H
    dsimp only at hcopy hfree
    unfold memcpy at hcopy
    split at hcopy
    · exact absurd hcopy throw_eq_ok
    rename_i hnull
    simp only [pure_eq_ok] at hcopy
    subst hcopy
    rcases arenaMalloc_spec O hsbrk hmalloc with ⟨rfl, rfl⟩ | ⟨k, u, rest, hH, rfl, -, hsize⟩
    · -- nothing was to be copied, and nothing was allocated
      have h0 : c.psz g rz = 0 := by
        by_contra hne
        exact hnull ⟨rfl, hne⟩
      rw [h0, copy_zero] at hfree
      obtain ⟨k, rfl⟩ := exists_place hc
      exact .inr (.inl ⟨rfl, h0, arenaFree_spec O hst hfree⟩)
    · refine .inr (.inr ?_)
      have hAl := hH.allocated
      have hfit : c.psz g rz ≤ u.psz g rz := by
        rcases hreq with hreq | hreq | hreq
        · have := hsize hreq
          omega
        · exact absurd hreq hlt
        · omega
      obtain ⟨m₂, hm₂⟩ : ∃ m₂, m₂ = copy h₁.mem (u.payload g rz) (c.payload g rz) (c.psz g rz) :=
        ⟨_, rfl⟩
      rw [← hm₂] at hfree
      have hoff : SameOff h₁.mem m₂ (u.payload g rz) (u.payload g rz + c.psz g rz) := by
        rw [hm₂]
        exact copy_sameOff _ _ _ _
      have O₂ : HeapOk g rz { h₁ with mem := m₂ } (k.fill (u :: rest)) :=
        hAl.ok.write_payload hAl.mem hAl.used hoff (Nat.le_refl _) (by omega)
      have hc₁ : c ∈ cellsOf (k.fill (u :: rest)) := (hAl.others c hst).mpr (.inr hc)
      have huc : u ≠ c := by
        rintro rfl
        exact hAl.fresh hc
      obtain ⟨k', hk'⟩ := exists_place hc₁
      rw [hk'] at O₂
      obtain ⟨sbs', hG⟩ := arenaFree_spec O₂ hst hfree
      rw [← hk'] at hG
      have hpayload : ∀ {d : Cell} {i : Nat}, d.Fits g rz → i < d.psz g rz →
          d.addr ≤ d.payload g rz + i ∧ d.payload g rz + i < d.stop := by
        intro d i Fd hi
        have := Fd.room
        unfold Cell.psz at hi
        unfold overhead at this hi
        unfold Cell.payload Cell.stop
        omega
      have Fu := hAl.ok.marked.fits u hAl.mem
      refine ⟨u, sbs', ⟨hG.ok, (hG.used u hAl.used).mpr ⟨hAl.mem, huc⟩, hAl.used, fun d hd => ?_,
        hAl.fresh, ?_, ?_, hG.clientmem.trans hAl.clientmem⟩, rfl⟩
      · rw [hG.used d hd, hAl.others d hd]
        constructor
        · rintro ⟨rfl | h, hne⟩
          · exact .inl rfl
          · exact .inr ⟨h, hne⟩
        · rintro (rfl | ⟨h, hne⟩)
          · exact ⟨.inl rfl, huc⟩
          · exact ⟨.inr h, hne⟩
      · intro d hd hdst hdc z h₁ h₂
        have hd₁ := (hAl.others d hdst).mpr (.inr hd)
        have hdu : d ≠ u := by
          rintro rfl
          exact hAl.fresh hd
        have hout : m₂ z = _ := hoff z (by
          have hp := Fu.room
          have ha := hAl.ok.marked.apart.stop_le hd₁ hAl.mem hdu
          unfold Cell.psz at hfit
          unfold Cell.stop at ha h₂
          unfold overhead at hp hfit
          unfold Cell.payload Cell.psz
          unfold overhead
          omega)
        exact ((hG.frame d hd₁ hdst hdc z h₁ h₂).trans hout).trans (hAl.frame d hd hdst z h₁ h₂)
      · intro i hi
        obtain ⟨h₁, h₂⟩ := hpayload Fu (show i < u.psz g rz by omega)
        obtain ⟨h₃, h₄⟩ := hpayload F hi
        rw [hG.frame u hAl.mem hAl.used huc _ h₁ h₂]
        show m₂ _ = _
        rw [hm₂, copy_apply hi]
        exact hAl.frame c hc hst _ h₃ h₄

end

end MallocFree

end Valgrind
