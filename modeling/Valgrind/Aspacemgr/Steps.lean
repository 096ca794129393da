import Valgrind.Aspacemgr.OpSpecs

/-!
# Steps and the invariant of the segment array

`Step` says, in terms of the page map, everything the later results need to know
about one operation: the array invariant holds again, the limits are unchanged,
where free space can have appeared, and which pages can have lost their `hasT`
bit or their execute permission. It is proved once, operation by operation
(`step_spec`); `segmentArray_invariant` and the results of `Window.lean` and
`Translations.lean` are inductions over runs that use only this.
-/

namespace Valgrind.Aspacemgr

open Machine Intervals

/-- The page at `x` is free space. -/
def FreeAt (am : Aspacem) (x : Nat) : Prop :=
  ∃ p, pageMap am.nsegments x = some p ∧ p.kind = .skFree

/-- The page at `x` has execute permission. -/
def ExecAt (am : Aspacem) (x : Nat) : Prop :=
  ∃ p, pageMap am.nsegments x = some p ∧ p.hasX = true

section Steps

variable [Machine]

/-! ## What an operation is about -/

/-- The pages that an operation remaps, unmaps or takes execute permission from,
among those that report a discard flag. -/
def TOp.affects (am : Aspacem) : TOp → Nat → Prop
  | .notifyClientMmap a len .. => fun x => a ≤ x ∧ x < a + len
  | .notifyClientShmat a len _ => fun x => a ≤ x ∧ x < a + len
  | .notifyMprotect start len prot =>
    fun x => protX prot = false ∧ start ≤ x ∧ x < start + len
  | .notifyMunmap start len => fun x => start ≤ x ∧ x < start + len
  | .munmapClient start len _ => fun x => start ≤ x ∧ x < start + pgRoundUp len
  | .extendMapClient i delta _ =>
    fun x => addW (am.seg i).end_ 1 ≤ x ∧ x < addW (am.seg i).end_ 1 + delta
  | .relocateNooverlapClient oldAddr oldLen newAddr newLen _ =>
    fun x => (oldAddr ≤ x ∧ x < oldAddr + oldLen) ∨ (newAddr ≤ x ∧ x < newAddr + newLen)
  | _ => fun _ => False

/-- The extra space asked for with a reservation does not wrap around the end of
the address space. -/
def TOp.extraFits : TOp → Prop
  | .createReservation start length _ extra =>
    -extra.val ≤ start ∧ lastByte start length + extra.val < wordMod
  | _ => True

/-- The pages that an unmapping of `len` bytes at `start` turns into free space. -/
def unmapFrees (am : Aspacem) (start len x : Nat) : Prop :=
  start ≤ x ∧ x < start + len ∧ unmapKind am start (start + len - 1) = .skFree

/-- The pages that an operation turns into free space. -/
def Op.frees (am : Aspacem) : Op → Nat → Prop
  | .t (.notifyMunmap start len) => unmapFrees am start len
  | .t (.munmapClient start len _) => unmapFrees am start (pgRoundUp len)
  | .munmapValgrind start len _ => unmapFrees am start (pgRoundUp len)
  | .t (.relocateNooverlapClient oldAddr oldLen _ _ _) =>
    fun x => oldAddr ≤ x ∧ x < oldAddr + oldLen ∧
      ¬ (am.maxAddr < oldAddr ∧ am.maxAddr < addrMax)
  | _ => fun _ => False

variable {am am' mid : Aspacem} {seg : NSegment} {op : TOp} {d : Bool} {x start len : Nat}

/-- Everything one step can do. That no bit is lost silently depends, for
reservations, on the extra space: `fits`. -/
structure Step (am : Aspacem) (frees affects : Nat → Prop) (fits : Prop) (d : Bool)
    (am' : Aspacem) : Prop where
  inv : ArrayInv am'
  limits : SameLimits am am'
  free : ∀ x, FreeAt am' x → FreeAt am x ∨ frees x
  hasT : fits → ∀ x, pageT am.nsegments x = true →
    pageT am'.nsegments x = true ∨ (d = true ∧ affects x)
  hasX : fits → ∀ x, pageT am.nsegments x = true → ExecAt am x →
    ExecAt am' x ∨ (d = true ∧ affects x)

variable {frees affects : Nat → Prop} {fits : Prop}

theorem Step.refl (h : ArrayInv am) : Step am frees affects fits d am :=
  ⟨h, SameLimits.refl am, fun _ => .inl, fun _ _ => .inl, fun _ _ _ => .inl⟩

/-! ## From the shape of a change to the step -/

theorem Added.free (h : Added am seg am') (hx : FreeAt am' x) :
    FreeAt am x ∨ (seg.kind = .skFree ∧ seg.start ≤ x ∧ x ≤ seg.end_) := by
  obtain ⟨p, hp, hk⟩ := hx
  rw [h.map] at hp
  split_ifs at hp with hin
  · rw [Option.some.injEq] at hp
    subst hp
    exact .inr ⟨hk, hin⟩
  · exact .inl ⟨p, hp, hk⟩

theorem Added.exec_out (h : Added am seg am') (hx : ¬ (seg.start ≤ x ∧ x ≤ seg.end_))
    (he : ExecAt am x) : ExecAt am' x := by
  obtain ⟨p, hp, hX⟩ := he
  exact ⟨p, by rw [h.map, if_neg hx, hp], hX⟩

/-- Writing anything but free space frees no page, and takes the range out of it. -/
theorem Added.free_sub (h : Added am seg am') (hk : seg.kind ≠ .skFree) (hx : FreeAt am' x) :
    FreeAt am x ∧ ¬ (seg.start ≤ x ∧ x ≤ seg.end_) := by
  obtain ⟨p, hp, hkf⟩ := hx
  rw [h.map] at hp
  split_ifs at hp with hin
  · rw [Option.some.injEq] at hp
    subst hp
    exact absurd hkf hk
  · exact ⟨⟨p, hp, hkf⟩, hin⟩

/-- A segment written over a range: pages that carried a bit are lost only where
the range is affected and the flag set. -/
theorem Added.step (h : Added am seg am')
    (hfree : seg.kind = .skFree → ∀ x, seg.start ≤ x → x ≤ seg.end_ → frees x)
    (hlost : fits → ∀ x, seg.start ≤ x → x ≤ seg.end_ → pageT am.nsegments x = true →
      (seg.hasT = true ∧ (ExecAt am x → seg.hasX = true)) ∨ (d = true ∧ affects x)) :
    Step am frees affects fits d am' := by
  refine ⟨h.inv, h.limits, fun x hx => ?_, fun hf x hT => ?_, fun hf x hT hX => ?_⟩
  · obtain hx | ⟨hk, h₁, h₂⟩ := h.free hx
    · exact .inl hx
    · exact .inr (hfree hk x h₁ h₂)
  · by_cases hin : seg.start ≤ x ∧ x ≤ seg.end_
    · obtain ⟨hseg, -⟩ | hd := hlost hf x hin.1 hin.2 hT
      · exact .inl (h.hasT_in x hin hseg)
      · exact .inr hd
    · exact .inl (h.hasT_out x hin hT)
  · by_cases hin : seg.start ≤ x ∧ x ≤ seg.end_
    · obtain ⟨-, hseg⟩ | hd := hlost hf x hin.1 hin.2 hT
      · exact .inl ⟨seg.attrsAt x, by rw [h.map, if_pos hin], hseg hX⟩
      · exact .inr hd
    · exact .inl (h.exec_out hin hX)

/-- A segment written over a range whose bits the flag reports. -/
theorem Added.step_discard (h : Added am seg am') (hd : DiscardOf am start len d)
    (hs : seg.start = start) (he : seg.end_ = start + len - 1)
    (hfree : seg.kind = .skFree → ∀ x, seg.start ≤ x → x ≤ seg.end_ → frees x)
    (haff : ∀ x, start ≤ x → x < start + len → affects x) :
    Step am frees affects fits d am' := by
  have hpos := hd.pos
  refine h.step hfree fun _ x h₁ h₂ hT => .inr ?_
  exact ⟨hd.iff.mpr ⟨x, by omega, by omega, hT⟩, haff x (by omega) (by omega)⟩

theorem Edited.free {lo hi : Nat} {g : PageAttrs → PageAttrs} (h : Edited am lo hi g am')
    (hg : ∀ p, (g p).kind = .skFree → p.kind = .skFree) (hx : FreeAt am' x) : FreeAt am x := by
  obtain ⟨p, hp, hk⟩ := hx
  rw [h.map] at hp
  obtain ⟨q, hq, rfl⟩ := Option.map_eq_some_iff.mp hp
  refine ⟨q, hq, ?_⟩
  split_ifs at hk
  · exact hg q hk
  · exact hk

/-- An edit that takes execute permission only from pages that are affected and
reported. -/
theorem Edited.step {lo hi : Nat} {g : PageAttrs → PageAttrs} (h : Edited am lo hi g am')
    (hk : ∀ p, (g p).kind = .skFree → p.kind = .skFree)
    (hg : ∀ x p, lo ≤ x → x ≤ hi → pageT am.nsegments x = true → p.hasX = true →
      (g p).hasX = true ∨ (d = true ∧ affects x)) :
    Step am frees affects fits d am' := by
  refine ⟨h.inv, h.limits, fun x hx => .inl (h.free hk hx), fun _ x hT => .inl (h.hasT x hT),
    fun _ x hT ⟨p, hp, hX⟩ => ?_⟩
  have hmap := h.map x
  rw [hp, Option.map_some] at hmap
  by_cases hin : lo ≤ x ∧ x ≤ hi
  · rw [if_pos hin] at hmap
    obtain hX' | hd := hg x p hin.1 hin.2 hT hX
    · exact .inl ⟨g p, hmap, hX'⟩
    · exact .inr hd
  · rw [if_neg hin] at hmap
    exact .inl ⟨p, hmap, hX⟩

theorem Grown.step {lo hi : Nat} {s : NSegment} (h : Grown am lo hi s am')
    (hs : s.kind = .skAnonC) : Step am frees affects fits d am' := by
  refine ⟨h.inv, h.limits, fun x hkeep => ?_, fun _ x hT => .inl (h.hasT x hT), fun _ x hT hmap => ?_⟩
  · obtain ⟨p, hp, hk⟩ := hkeep
    rw [h.map] at hp
    split_ifs at hp
    · rw [Option.some.injEq] at hp
      rw [← hp, NSegment.attrsAt, hs] at hk
      cases hk
    · exact .inl ⟨p, hp, hk⟩
  · obtain ⟨p, hp, hX⟩ := hmap
    refine .inl ⟨p, ?_, hX⟩
    rw [h.map, if_neg, hp]
    rintro ⟨h₁, h₂⟩
    rw [h.bare x h₁ h₂] at hT
    cases hT

/-! ## The operations, one by one -/

omit [Machine] in
theorem SegKind.toClient_free {k : SegKind} (h : k.toClient = .skFree) : k = .skFree := by
  cases k <;> first | rfl | exact nomatch h

omit [Machine] in
theorem PageAttrs.protect_kind (p : PageAttrs) (prot : Nat) : (p.protect prot).kind = p.kind := by
  unfold PageAttrs.protect
  split <;> rfl

/-- Pages of a sane free segment carry no bit. -/
theorem pageT_free (hwf : Wf am.segnames am.nsegments) {hole : NSegment}
    (hmem : hole ∈ am.nsegments) (hk : hole.kind = .skFree) (h₁ : hole.start ≤ x)
    (h₂ : x ≤ hole.end_) : pageT am.nsegments x = false := by
  rw [pageT, segAt_of_mem hwf hmem h₁ h₂]
  exact ((hwf.sane hole hmem).bare (.inl hk)).2.2.2.1

theorem addSW_of_fits (e : Nat) (extra : Int) (h₁ : 0 ≤ e + extra) (h₂ : e + extra < wordMod) :
    (addSW e extra : Int) = e + extra := by
  unfold addSW
  rw [Int.emod_eq_of_lt h₁ h₂]
  omega

/-- Growing a segment over what follows it: its own pages keep their bit and
their permissions, the new area is reported. -/
theorem Added.step_extend {delta : Nat} (hwf : Wf am.segnames am.nsegments)
    (hmem : seg ∈ am.nsegments) (hk : seg.kind ≠ .skFree)
    (hd : DiscardOf am (addW seg.end_ 1) delta d)
    (h : Added am { seg with end_ := addW seg.end_ delta } am') :
    Step am frees
      (fun x => addW seg.end_ 1 ≤ x ∧ x < addW seg.end_ 1 + delta) fits d am' := by
  refine h.step (fun hf => absurd hf hk) fun _ x h₁ h₂ hT => ?_
  by_cases hin : addW seg.end_ 1 ≤ x ∧ x < addW seg.end_ 1 + delta
  · exact .inr ⟨hd.iff.mpr ⟨x, hin.1, hin.2, hT⟩, hin⟩
  · simp only at h₁ h₂
    have hnw := hd.nowrap
    have hend := (hwf.tiled.mem_bounds hmem).2.2
    -- a segment that reaches the top wraps, and then everything written is new
    rcases Nat.lt_or_ge (seg.end_ + 1) wordMod with hlt | hge
    · rw [addW_of_lt hlt] at hin hnw
      rw [addW_of_lt (by omega)] at h₂
      have hat := segAt_of_mem hwf hmem h₁ (by omega)
      refine .inl ⟨?_, fun ⟨p, hp, hX⟩ => ?_⟩
      · rw [pageT, hat] at hT
        exact hT
      · rw [pageMap, hat, Option.map_some, Option.some.injEq] at hp
        rw [← hp] at hX
        exact hX
    · have hone : 1 < wordMod := by
        rcases wordMod_cases with h | h <;> omega
      have htop : addW seg.end_ 1 = 0 := by
        rw [addW_of_ge (by omega) hone (by omega)]
        omega
      have hnew : addW seg.end_ delta = delta - 1 := by
        have := hd.pos
        rw [addW_of_ge (by omega) (by omega) (by omega)]
        omega
      have hpos := hd.pos
      rw [htop] at hin
      rw [hnew] at h₂
      omega

theorem Relocated.step {oldAddr oldLen newAddr newLen : Nat}
    (h : Relocated am oldAddr oldLen newAddr newLen d am') :
    Step am (fun x => oldAddr ≤ x ∧ x < oldAddr + oldLen ∧
        ¬ (am.maxAddr < oldAddr ∧ am.maxAddr < addrMax))
      (fun x => (oldAddr ≤ x ∧ x < oldAddr + oldLen) ∨ (newAddr ≤ x ∧ x < newAddr + newLen))
      fits d am' := by
  obtain ⟨mid, seg, hole, ha₁, ha₂, hs, he, hk, hhs, hhe, hhk⟩ := h.moved
  have ho := h.old
  have hn := h.new
  -- a page with a bit is in one of the two ranges, and reported, or left alone twice
  have hkeep : ∀ x, pageT am.nsegments x = true →
      (¬ (seg.start ≤ x ∧ x ≤ seg.end_) ∧ ¬ (hole.start ≤ x ∧ x ≤ hole.end_)) ∨
      (d = true ∧ ((oldAddr ≤ x ∧ x < oldAddr + oldLen) ∨
        (newAddr ≤ x ∧ x < newAddr + newLen))) := by
    intro x hT
    by_cases hin : (oldAddr ≤ x ∧ x < oldAddr + oldLen) ∨ (newAddr ≤ x ∧ x < newAddr + newLen)
    · refine .inr ⟨?_, hin⟩
      by_contra hd
      rw [h.silent (Bool.not_eq_true d ▸ hd) x hin] at hT
      exact nomatch hT
    · exact .inl (by omega)
  refine ⟨ha₂.inv, ha₁.limits.trans ha₂.limits, fun x hx => ?_, fun _ x hT => ?_,
    fun _ x hT hX => ?_⟩
  · obtain hx | ⟨hkf, h₁, h₂⟩ := ha₂.free hx
    · obtain hx | ⟨hkf, -, -⟩ := ha₁.free hx
      · exact .inl hx
      · rcases hk with hk | hk <;> exact nomatch hk.symm.trans hkf
    · rw [hhk] at hkf
      split_ifs at hkf with hres
      exact .inr ⟨by omega, by omega, hres⟩
  · obtain ⟨h₁, h₂⟩ | hd := hkeep x hT
    · exact .inl (ha₂.hasT_out x h₂ (ha₁.hasT_out x h₁ hT))
    · exact .inr hd
  · obtain ⟨h₁, h₂⟩ | hd := hkeep x hT
    · exact .inl (ha₂.exec_out h₂ (ha₁.exec_out h₁ hX))
    · exact .inr hd

/-- **One step**, for the operations that keep track of translations. -/
theorem TOp.run_step (hinv : ArrayInv am) (h : op.run am = .ok (am', d)) :
    Step am ((Op.t op).frees am) (op.affects am) op.extraFits d am' := by
  have hwf := hinv.wf
  cases op with
  | notifyClientMmap a len prot flags fd offset =>
    obtain ⟨hd, seg, hadd, hs, he, hk, -⟩ := amNotifyClientMmap_spec hwf a.isLt len.isLt h
    refine hadd.step_discard hd hs he (fun hf => ?_) fun x h₁ h₂ => ⟨h₁, h₂⟩
    rw [hk] at hf
    split_ifs at hf
  | notifyClientShmat a len prot =>
    obtain ⟨hd, seg, hadd, hs, he, hk⟩ := amNotifyClientShmat_spec hwf a.isLt len.isLt h
    refine hadd.step_discard hd hs he (fun hf => ?_) fun x h₁ h₂ => ⟨h₁, h₂⟩
    cases hk.symm.trans hf
  | notifyMprotect start len prot =>
    obtain ⟨-, rfl, -⟩ | ⟨d', hd, rfl, hed⟩ := amNotifyMprotect_spec hwf start.isLt len.isLt h
    · exact Step.refl hinv
    · have hpos := hd.pos
      refine hed.step (fun p hp => by rwa [PageAttrs.protect_kind] at hp)
        fun x p h₁ h₂ hT hX => ?_
      cases hprot : protX prot with
      | true =>
        refine .inl ?_
        unfold PageAttrs.protect
        split
        · exact hX
        · exact hX
        · exact hprot
      | false =>
        have hd' := hd.iff.mpr ⟨x, h₁, by omega, hT⟩
        exact .inr ⟨by rw [hd']; rfl, hprot, h₁, by omega⟩
  | notifyMunmap start len =>
    obtain ⟨-, rfl, -⟩ | ⟨hd, seg, hadd, hs, he, hk⟩ :=
      amNotifyMunmap_spec hwf start.isLt len.isLt h
    · exact Step.refl hinv
    · have hpos := hd.pos
      refine hadd.step_discard hd hs he (fun hf x h₁ h₂ => ?_) fun x h₁ h₂ => ⟨h₁, h₂⟩
      exact ⟨by omega, by omega, hk.symm.trans hf⟩
  | munmapClient start len kres =>
    simp only [TOp.run, bind_eq_ok, Prod.exists, pure_eq_ok, Prod.mk.injEq] at h
    obtain ⟨am₁, r, d₁, h, rfl, rfl⟩ := h
    obtain ⟨rfl, -⟩ | ⟨hd, seg, hadd, hs, he, hk⟩ := amMunmapBothWrk_spec hwf start.isLt h
    · exact Step.refl hinv
    · have hpos := hd.pos
      refine hadd.step_discard hd hs he (fun hf x h₁ h₂ => ?_) fun x h₁ h₂ => ⟨h₁, h₂⟩
      exact ⟨by omega, by omega, hk.symm.trans hf⟩
  | changeOwnershipVToC start len =>
    simp only [TOp.run, bind_eq_ok, Prod.exists, pure_eq_ok, Prod.mk.injEq] at h
    obtain ⟨am₁, r, h, rfl, rfl⟩ := h
    obtain rfl | hed := amChangeOwnershipVToC_spec hwf start.isLt len.isLt h
    · exact Step.refl hinv
    · exact hed.step (fun p hp => SegKind.toClient_free hp) fun x p _ _ _ hX => .inl hX
  | createReservation start length smode extra =>
    simp only [TOp.run, bind_eq_ok, Prod.exists, pure_eq_ok, Prod.mk.injEq] at h
    obtain ⟨am₁, r, h, rfl, rfl⟩ := h
    obtain rfl | ⟨seg, hole, hadd, hk, hs, he, hmem, hfree, h₁, h₂⟩ :=
      amCreateReservation_spec hwf start.isLt h
    · exact Step.refl hinv
    · refine hadd.step (fun hf => by cases hk.symm.trans hf) fun hfits x hx₁ hx₂ hT => ?_
      -- the whole reservation lies in the hole, where no page carries a bit
      obtain ⟨hlo, hhi⟩ := hfits
      have hs' : hole.start ≤ seg.start := by
        split_ifs at h₁ with hneg
        · have := addSW_of_fits start extra (by omega) (by omega)
          omega
        · omega
      have he' : seg.end_ ≤ hole.end_ := by
        split_ifs at h₂ with hpos
        · have := addSW_of_fits seg.end_ extra (by omega) (by rw [he]; exact hhi)
          omega
        · exact h₂
      rw [pageT_free hwf hmem hfree (by omega) (by omega)] at hT
      cases hT
  | extendIntoAdjacentReservationClient seg delta kres =>
    simp only [TOp.run, bind_eq_ok, Prod.exists, pure_eq_ok, Prod.mk.injEq] at h
    obtain ⟨am₁, r, h, rfl, rfl⟩ := h
    obtain rfl | ⟨lo, hi, s, hg, hs⟩ := amExtendIntoAdjacentReservationClient_spec hinv
      (by have := delta.property; omega) h
    · exact Step.refl hinv
    · exact hg.step hs
  | extendMapClient i delta kres =>
    simp only [TOp.run, bind_eq_ok, Prod.exists, pure_eq_ok, Prod.mk.injEq] at h
    obtain ⟨am₁, r, d₁, h, rfl, rfl⟩ := h
    obtain ⟨rfl, -⟩ | ⟨hd, hmem, hk, hadd⟩ := amExtendMapClient_spec hwf delta.isLt h
    · exact Step.refl hinv
    · refine Added.step_extend hwf hmem (fun hf => ?_) hd hadd
      rw [hf] at hk
      rcases hk with hk | hk <;> cases hk
  | relocateNooverlapClient oldAddr oldLen newAddr newLen kres =>
    simp only [TOp.run, bind_eq_ok, Prod.exists, pure_eq_ok, Prod.mk.injEq] at h
    obtain ⟨am₁, r, d₁, h, rfl, rfl⟩ := h
    obtain ⟨rfl, -⟩ | hrel := amRelocateNooverlapClient_spec hwf oldAddr.isLt oldLen.isLt
      newAddr.isLt newLen.isLt h
    · exact Step.refl hinv
    · exact hrel.step
  | setSegmentHasT seg =>
    simp only [TOp.run, bind_eq_ok, pure_eq_ok, Prod.mk.injEq] at h
    obtain ⟨am₁, h, rfl, rfl⟩ := h
    obtain ⟨i, -, hed, -⟩ := amSetSegmentHasT_spec hinv h
    exact hed.step (fun p hp => hp) fun x p _ _ _ hX => .inl hX

/-- The `VG_(am_mmap_*)` functions: a request that is refused at once, or a
mapping made through the advisor, which frees nothing. -/
theorem mmapGuarded_spec (hinv : ArrayInv am) {req : MapRequest} {forClient : Bool}
    {kres r : SysRes} {fd : Option FdInfo} {c : Prop} [Decidable c] (hk : seg.kind ≠ .skFree)
    (h : (if c then .ok (am, eINVAL) else mmapAdvised am req forClient kres fd seg)
      = (.ok (am', r) : Result (Aspacem × SysRes))) :
    ArrayInv am' ∧ SameLimits am am' ∧ ∀ x, FreeAt am' x → FreeAt am x ∨ frees x := by
  split_ifs at h
  · rw [Except.ok.injEq, Prod.mk.injEq] at h
    obtain ⟨rfl, -⟩ := h
    exact ⟨hinv, SameLimits.refl am, fun _ => .inl⟩
  · obtain ⟨rfl, -⟩ | ⟨advised, seg', -, -, hadd, -, -, hkind, -⟩ := mmapAdvised_spec hinv.wf h
    · exact ⟨hinv, SameLimits.refl am', fun _ => .inl⟩
    · refine ⟨hadd.inv, hadd.limits, fun x hx => ?_⟩
      obtain hx | ⟨hf, -, -⟩ := hadd.free hx
      · exact .inl hx
      · exact absurd (hkind.symm.trans hf) hk

omit [Machine] in
theorem map_fst_eq_ok {α β : Type} {r : Result (α × β)} {a : α} :
    (Prod.fst <$> r) = .ok a ↔ ∃ b, r = .ok (a, b) := by
  cases r with
  | error e => simp [Functor.map, Except.map]
  | ok p =>
    obtain ⟨a', b⟩ := p
    simp [Functor.map, Except.map]

/-- **One step**, for all operations. -/
theorem step_spec {op : Op} (hinv : ArrayInv am) (h : step am op = .ok am') :
    ArrayInv am' ∧ SameLimits am am' ∧ ∀ x, FreeAt am' x → FreeAt am x ∨ op.frees am x := by
  cases op with
  | t op =>
    obtain ⟨d, h⟩ := map_fst_eq_ok.mp h
    have hstep := TOp.run_step hinv h
    exact ⟨hstep.inv, hstep.limits, hstep.free⟩
  | mmapFileFixedClient start length prot fd offset kres =>
    obtain ⟨r, h⟩ := map_fst_eq_ok.mp h
    exact mmapGuarded_spec hinv (by simp [newSegment]) h
  | mmapAnonFixedClient start length prot kres =>
    obtain ⟨r, h⟩ := map_fst_eq_ok.mp h
    exact mmapGuarded_spec hinv (by simp [newSegment]) h
  | mmapAnonFloatClient length prot kres =>
    obtain ⟨r, h⟩ := map_fst_eq_ok.mp h
    exact mmapGuarded_spec hinv (by simp [newSegment]) h
  | mmapAnonFloatValgrind length kres =>
    obtain ⟨r, h⟩ := map_fst_eq_ok.mp h
    exact mmapGuarded_spec hinv (by simp [newSegment]) h
  | mmapFileFloatValgrind length prot fd offset kres =>
    obtain ⟨r, h⟩ := map_fst_eq_ok.mp h
    exact mmapGuarded_spec hinv (by simp [newSegment]) h
  | munmapValgrind start len kres =>
    obtain ⟨r, h'⟩ := map_fst_eq_ok.mp h
    simp only [amMunmapValgrind, bind_eq_ok, Prod.exists, assertThat_eq_ok, pure_eq_ok,
      Prod.mk.injEq] at h'
    obtain ⟨am₁, r₁, d₁, h', -, -, rfl, -⟩ := h'
    obtain ⟨rfl, -⟩ | ⟨hd, seg, hadd, hs, he, hk⟩ := amMunmapBothWrk_spec hinv.wf start.isLt h'
    · exact ⟨hinv, SameLimits.refl am₁, fun _ => .inl⟩
    · refine ⟨hadd.inv, hadd.limits, fun x hx => ?_⟩
      obtain hx | ⟨hf, h₁, h₂⟩ := hadd.free hx
      · exact .inl hx
      · have hpos := hd.pos
        exact .inr ⟨by omega, by omega, hk.symm.trans hf⟩
  | setSegmentIsCH seg =>
    obtain ⟨i, -, hed⟩ := amSetSegmentIsCHIfSkAnonC_spec hinv h
    refine ⟨hed.inv, hed.limits, fun x hx => .inl (hed.free (fun p hp => ?_) hx)⟩
    unfold PageAttrs.markCH at hp
    split_ifs at hp <;> exact hp

theorem run_inv {ops : List Op} (hinv : ArrayInv am) (h : runSteps step am ops = .ok am') :
    ArrayInv am' :=
  runSteps_inv (fun hs hstep => (step_spec hs hstep).1) hinv h

/-! ## The invariant, entry by entry -/

theorem arrayInv_startupLimits (sp : Nat) : ArrayInv (startupLimits sp) :=
  ⟨wf_freeEverywhere, List.isChain_singleton _⟩

/-- The invariant of the segment array, as its own comments put it: the entries
cover the address space from the first to the last address, abut, are sane, name
slots in use, and free space is maximal. -/
structure SegmentArrayOk (am : Aspacem) : Prop where
  used : 0 < am.nsegments.length
  first : (am.seg 0).start = 0
  last : (am.seg (am.nsegments.length - 1)).end_ = addrMax
  abut : ∀ i, i + 1 < am.nsegments.length → (am.seg i).end_ + 1 = (am.seg (i + 1)).start
  sane : ∀ i, i < am.nsegments.length → saneNSegment am.segnames (am.seg i) = true
  names : ∀ i, i < am.nsegments.length → 0 ≤ (am.seg i).fnIdx →
    slotInUse am.segnames (am.seg i).fnIdx = true
  free : ∀ i, i + 1 < am.nsegments.length →
    ¬ ((am.seg i).kind = .skFree ∧ (am.seg (i + 1)).kind = .skFree)

theorem ArrayInv.segmentArrayOk (h : ArrayInv am) : SegmentArrayOk am := by
  obtain ⟨s, rest, hne⟩ := h.wf.ne_nil
  have htiled := h.wf.tiled
  have hsane : ∀ i, i < am.nsegments.length → Sane am.segnames (am.seg i) :=
    fun i hi => h.wf.sane _ (seg_mem hi)
  refine ⟨by simp [hne], ?_, ?_, fun i hi => ?_, hsane, fun i hi hfn => ?_, fun i hi => ?_⟩
  · rw [hne] at htiled
    simpa [Aspacem.seg, hne] using (segTiled_cons.mp htiled).1
  · rw [hne] at htiled
    have hlast := htiled.getLastD_end s
    have hmax := addrMax_add_one
    have hget : am.seg (am.nsegments.length - 1) = (s :: rest).getLastD s := by
      rw [Aspacem.seg, hne, List.getLastD_eq_getLast?, List.getLast?_eq_getElem?,
        List.getD_eq_getElem?_getD]
      simp
    rw [hget]
    omega
  · obtain ⟨L, R, hseg, -⟩ := exists_two_entries hi
    rw [hseg] at htiled
    obtain ⟨q, -, -, -, habut, -⟩ := tiled_append.mp htiled
    exact habut.symm
  · obtain hno | hin := (hsane i hi).fnIdx
    · omega
    · exact hin
  · obtain ⟨L, R, hseg, -⟩ := exists_two_entries hi
    have hfree := h.free
    rw [hseg, NoAdjFree, List.map_append, List.map_cons, List.map_cons] at hfree
    exact (List.isChain_append_cons_cons.mp hfree).2.1

/-- **The segment array invariant.** Whatever operations are run, in whatever
order, on the single free segment that startup begins with: the array they leave
behind is in order. -/
theorem segmentArray_invariant (sp : Nat) (ops : List Op) (am : Aspacem)
    (h : runSteps step (startupLimits sp) ops = .ok am) : SegmentArrayOk am :=
  (run_inv (arrayInv_startupLimits sp) h).segmentArrayOk

end Steps

/-- Two pages mapped, the second unmapped again. -/
theorem segmentArray_invariant_mapUnmap :
    letI : Machine := amd64Linux
    ∃ am, runSteps step (startupLimits 0)
        [.t (.notifyClientMmap ⟨0x5000000, by decide⟩ ⟨0x2000, by decide⟩ 3 0x20 ⟨none, none⟩ 0),
          .t (.notifyMunmap ⟨0x5001000, by decide⟩ ⟨0x1000, by decide⟩)] = .ok am ∧
      SegmentArrayOk am := by
  let _ : Machine := amd64Linux
  obtain ⟨am, ham, -⟩ := Result.exists_of_holds (r := runSteps step (startupLimits 0)
    [.t (.notifyClientMmap ⟨0x5000000, by decide⟩ ⟨0x2000, by decide⟩ 3 0x20 ⟨none, none⟩ 0),
      .t (.notifyMunmap ⟨0x5001000, by decide⟩ ⟨0x1000, by decide⟩)])
    (p := fun _ => true) (by decide)
  exact ⟨am, ham, segmentArray_invariant 0 _ am ham⟩

end Valgrind.Aspacemgr
