import Valgrind.Aspacemgr.Steps

/-!
# Free space and the allocatable window

`VG_(am_get_advisory)` asserts, for every free segment it meets, that it lies
within `[aspacem_minAddr, aspacem_maxAddr]`. Startup reserves everything outside
the window, and most operations never create free space. Two do: unmapping and
relocation. Each decides from the ends of its range whether the hole becomes
free space or a reservation, and neither splits a range that straddles a limit;
relocation also lacks the rule for ranges below the window.

`Op.staysInWindow` is the condition under which that is enough
(`freeSpace_inWindow`), and `freeSpace_inWindow_straddle` a run that leaves it.
-/

namespace Valgrind.Aspacemgr

open Machine Intervals

section Window

variable [Machine]

/-- The range is empty, or lies wholly above, wholly below or wholly within the
window. -/
def clearOfLimits (am : Aspacem) (start len : Nat) : Prop :=
  len = 0 ∨ am.maxAddr < start ∨ start + len - 1 < am.minAddr ∨
    (am.minAddr ≤ start ∧ start + len - 1 ≤ am.maxAddr)

/-- The condition on an operation: a range that is unmapped does not straddle a
limit, and a range that is moved away does not reach below the window either. -/
def Op.staysInWindow (am : Aspacem) : Op → Prop
  | .t (.notifyMunmap start len) => clearOfLimits am start len
  | .t (.munmapClient start len _) => clearOfLimits am start (pgRoundUp len)
  | .munmapValgrind start len _ => clearOfLimits am start (pgRoundUp len)
  | .t (.relocateNooverlapClient oldAddr oldLen _ _ _) =>
    oldLen.val = 0 ∨ am.maxAddr < oldAddr ∨
      (am.minAddr ≤ oldAddr ∧ oldAddr + oldLen - 1 ≤ am.maxAddr)
  | _ => True

/-- The invariant: the array is in order, free pages lie in the window, and the
points where the advisor starts searching are addresses. -/
structure WindowInv (am : Aspacem) : Prop where
  inv : ArrayInv am
  free : ∀ x, FreeAt am x → am.minAddr ≤ x ∧ x ≤ am.maxAddr
  cStart : am.cStart < wordMod
  vStart : am.vStart < wordMod

variable {am am' : Aspacem} {op : Op} {seg : NSegment} {x start len end_ : Nat}

/-! ## One step -/

theorem unmapFrees_inWindow (hs : start < wordMod) (hc : clearOfLimits am start len)
    (h : unmapFrees am start len x) : am.minAddr ≤ x ∧ x ≤ am.maxAddr := by
  obtain ⟨h₁, h₂, hk⟩ := h
  unfold unmapKind at hk
  have hmax := addrMax_add_one
  split_ifs at hk with hhi hlo
  rcases hc with hc | hc | hc | hc <;> omega

theorem frees_inWindow (hop : op.staysInWindow am) (h : op.frees am x) :
    am.minAddr ≤ x ∧ x ≤ am.maxAddr := by
  have hmax := addrMax_add_one
  cases op with
  | t op =>
    cases op with
    | notifyMunmap start len => exact unmapFrees_inWindow start.isLt hop h
    | munmapClient start len kres => exact unmapFrees_inWindow start.isLt hop h
    | relocateNooverlapClient oldAddr oldLen newAddr newLen kres =>
      obtain ⟨h₁, h₂, h₃⟩ := h
      have := oldAddr.isLt
      rcases hop with hop | hop | hop <;> omega
    | _ => exact absurd h id
  | munmapValgrind start len kres => exact unmapFrees_inWindow start.isLt hop h
  | _ => exact absurd h id

theorem windowInv_step (hinv : WindowInv am) (hop : op.staysInWindow am)
    (h : step am op = .ok am') : WindowInv am' := by
  obtain ⟨hi, ⟨hmin, hmax, hc, hv⟩, hfree⟩ := step_spec hinv.inv h
  refine ⟨hi, fun x hx => ?_, by rw [hc]; exact hinv.cStart, by rw [hv]; exact hinv.vStart⟩
  rw [hmin, hmax]
  obtain hx | hx := hfree x hx
  · exact hinv.free x hx
  · exact frees_inWindow hop hx

/-! ## Startup -/

theorem FreeAt.lt (hwf : Wf am.segnames am.nsegments) (h : FreeAt am x) : x < wordMod := by
  obtain ⟨p, hp, -⟩ := h
  obtain ⟨s, hs, -⟩ := Option.map_eq_some_iff.mp hp
  obtain ⟨hmem, -, h₂⟩ := mem_of_locate hs
  have := (hwf.tiled.mem_bounds hmem).2.2
  omega

theorem initResvn_eq_ok (h : initResvn start end_ = .ok seg) :
    seg.kind = .skResvn ∧ seg.start = start ∧ seg.end_ = end_ := by
  simp only [initResvn, bind_eq_ok, assertThat_eq_ok, exists_const, pure_eq_ok] at h
  obtain ⟨-, -, -, rfl⟩ := h
  exact ⟨rfl, rfl, rfl⟩

/-- A reservation made at startup takes its range out of free space. -/
theorem reserve_spec (hinv : ArrayInv am) (he : end_ < wordMod)
    (h : (initResvn start end_ >>= addSegment am) = .ok am') :
    ArrayInv am' ∧ SameLimits am am' ∧
      ∀ x, FreeAt am' x → FreeAt am x ∧ ¬ (start ≤ x ∧ x ≤ end_) := by
  obtain ⟨seg, hseg, hadd⟩ := bind_eq_ok.mp h
  obtain ⟨hk, hs, hend⟩ := initResvn_eq_ok hseg
  have hadd := addSegment_added' hinv.wf (hend ▸ he) hadd
  refine ⟨hadd.inv, hadd.limits, fun x hx => ?_⟩
  rw [← hs, ← hend]
  exact hadd.free_sub (by rw [hk]; exact nofun) hx

theorem readMapsCallback_spec {l : MapsLine} (hinv : WindowInv am)
    (h : readMapsCallback am l = .ok am') : WindowInv am' := by
  simp only [readMapsCallback, bind_eq_ok, Prod.exists] at h
  obtain ⟨am₁, seg, hseg, hadd⟩ := h
  obtain ⟨names, dev, ino, mode, k, rfl, hg, rfl⟩ := attachFile_spec hseg
  have hadd := addSegment_added hinv.inv.wf hg (subW_lt _ _) hadd
  obtain ⟨hmin, hmax, hc, hv⟩ := hadd.limits
  refine ⟨hadd.inv, fun x hx => ?_, by rw [hc]; exact hinv.cStart, by rw [hv]; exact hinv.vStart⟩
  rw [hmin, hmax]
  refine hinv.free x (hadd.free_sub ?_ hx).1
  simp only
  split_ifs <;> rintro ⟨⟩

theorem startupLimits_lt (sp : Nat) :
    (startupLimits sp).maxAddr < wordMod ∧ (startupLimits sp).cStart < wordMod ∧
      (startupLimits sp).vStart < wordMod ∧
      (startupLimits sp).cStart = (startupLimits sp).minAddr := by
  refine ⟨?_, ?_, lt_of_le_of_lt (roundDn_le _ _) (addW_lt _ _), rfl⟩
  · simp only [startupLimits]
    split_ifs with hw
    · simp [wordMod, hw]
    · exact subW_lt _ _
  · simp only [startupLimits]
    rcases wordMod_cases with h | h <;> omega

theorem windowInv_amStartup {sp top : Nat} {maps : List MapsLine}
    (h : amStartup sp maps = .ok (am, top)) : WindowInv am := by
  obtain ⟨hmaxlt, hclt, hvlt, hcmin⟩ := startupLimits_lt sp
  have hinv₀ := arrayInv_startupLimits sp
  have hmax := addrMax_add_one
  simp only [amStartup, bind_eq_ok, assertThat_eq_ok, exists_const, pure_eq_ok,
    Prod.mk.injEq] at h
  generalize startupLimits sp = am₀ at h hmaxlt hclt hvlt hcmin hinv₀
  obtain ⟨-, -, -, -, -, am₁, h₁, am₂, h₂, seg₃, hseg₃, am₃, h₃, am₄, h₄, rfl, -⟩ := h
  -- everything below the window is reserved
  have hlow : ArrayInv am₁ ∧ SameLimits am₀ am₁ ∧ ∀ x, FreeAt am₁ x → am₀.minAddr ≤ x := by
    split_ifs at h₁ with hpos
    · obtain ⟨hi, hl, hf⟩ := reserve_spec hinv₀ (by omega) h₁
      exact ⟨hi, hl, fun x hx => by have := (hf x hx).2; omega⟩
    · obtain rfl := pure_eq_ok.mp h₁
      exact ⟨hinv₀, SameLimits.refl am₀, fun x _ => by omega⟩
  obtain ⟨hinv₁, hl₁, hf₁⟩ := hlow
  have hmax₁ : am₁.maxAddr = am₀.maxAddr := hl₁.2.1
  -- everything above the window is reserved
  have hhigh : ArrayInv am₂ ∧ SameLimits am₁ am₂ ∧
      ∀ x, FreeAt am₂ x → am₀.minAddr ≤ x ∧ x ≤ am₀.maxAddr := by
    split_ifs at h₂ with hpos
    · obtain ⟨hi, hl, hf⟩ := reserve_spec hinv₁ (by omega) h₂
      refine ⟨hi, hl, fun x hx => ⟨hf₁ x (hf x hx).1, ?_⟩⟩
      have hlt := (hf x hx).1.lt hinv₁.wf
      have := (hf x hx).2
      omega
    · obtain rfl := pure_eq_ok.mp h₂
      refine ⟨hinv₁, SameLimits.refl am₁, fun x hx => ⟨hf₁ x hx, ?_⟩⟩
      have hlt := hx.lt hinv₁.wf
      omega
  obtain ⟨hinv₂, hl₂, hf₂⟩ := hhigh
  have hl₀₂ := hl₁.trans hl₂
  obtain ⟨hinv₃, hl₃, hf₃⟩ := reserve_spec hinv₂ (subW_lt _ _) (bind_eq_ok.mpr ⟨seg₃, hseg₃, h₃⟩)
  obtain ⟨hmn, hmx, hc, hv⟩ := hl₀₂.trans hl₃
  have hw : WindowInv am₃ := by
    refine ⟨hinv₃, fun x hx => ?_, by rw [hc]; exact hclt, by rw [hv]; exact hvlt⟩
    rw [hmn, hmx]
    exact hf₂ x (hf₃ x hx).1
  exact runSteps_inv (fun hs hstep => readMapsCallback_spec hs hstep) hw h₄

/-! ## The advisor -/

/-- An index the search has recorded denotes free space. -/
def FreeIdx (am : Aspacem) (o : Option Nat) : Prop :=
  ∀ i, o = some i → i < am.nsegments.length ∧ (am.seg i).kind = .skFree

theorem WindowInv.seg_bounds (hinv : WindowInv am) {i : Nat} (hi : i < am.nsegments.length)
    (hk : (am.seg i).kind = .skFree) :
    (am.seg i).start ≤ (am.seg i).end_ ∧ am.minAddr ≤ (am.seg i).start ∧
      (am.seg i).end_ ≤ am.maxAddr := by
  have hmem := seg_mem hi
  have hlt := (hinv.inv.wf.sane _ hmem).lt
  have hat : ∀ x, (am.seg i).start ≤ x → x ≤ (am.seg i).end_ → FreeAt am x := fun x h₁ h₂ =>
    ⟨(am.seg i).attrsAt x, by rw [pageMap, segAt_of_mem hinv.inv.wf hmem h₁ h₂]; rfl, hk⟩
  have h₁ := hinv.free _ (hat _ le_rfl hlt.le)
  have h₂ := hinv.free _ (hat _ hlt.le le_rfl)
  omega

/-- The search never fails an assertion while free space is in the window. -/
theorem advisoryLoop_ok (hinv : WindowInv am) (reqStart reqEnd reqLen : Nat) (b : Bool)
    (n : Nat) {i : Nat} {fixedIdx floatIdx : Option Nat} (hi : i < am.nsegments.length)
    (hfix : FreeIdx am fixedIdx) (hflo : FreeIdx am floatIdx) :
    ∃ f g, advisoryLoop am reqStart reqEnd reqLen b n i fixedIdx floatIdx = .ok (f, g) ∧
      FreeIdx am f ∧ FreeIdx am g := by
  induction n generalizing i fixedIdx floatIdx with
  | zero => exact ⟨fixedIdx, floatIdx, rfl, hfix, hflo⟩
  | succ n ih =>
    have hnext : (if am.nsegments.length ≤ i + 1 then 0 else i + 1) < am.nsegments.length := by
      split_ifs <;> omega
    unfold advisoryLoop
    simp only
    by_cases hk : (am.seg i).kind = .skFree
    · obtain ⟨h₁, h₂, h₃⟩ := hinv.seg_bounds hi hk
      rw [if_neg (not_not.mpr hk)]
      simp only [assertThat_of, h₁, h₂, h₃, ok_bind]
      have hrec : ∀ {c : Prop} [Decidable c] {o : Option Nat}, FreeIdx am o →
          FreeIdx am (if c then some i else o) := by
        intro c _ o ho
        split_ifs
        · rintro j hj
          rw [← Option.some.inj hj]
          exact ⟨hi, hk⟩
        · exact ho
      have hfix' := hrec (c := fixedIdx = none ∧ holdsFixed (am.seg i) reqStart reqEnd) hfix
      have hflo' := hrec (c := floatIdx = none ∧
        reqLen ≤ addW (subW (am.seg i).end_ (am.seg i).start) 1) hflo
      generalize (if fixedIdx = none ∧ holdsFixed (am.seg i) reqStart reqEnd then some i
        else fixedIdx) = f at hfix'
      generalize (if floatIdx = none ∧ reqLen ≤ addW (subW (am.seg i).end_ (am.seg i).start) 1
        then some i else floatIdx) = g at hflo'
      by_cases hdone : ((b || f.isSome) && g.isSome) = true
      · rw [if_pos hdone]
        exact ⟨f, g, rfl, hfix', hflo'⟩
      · rw [if_neg hdone]
        exact ih hnext hfix' hflo'
    · rw [if_pos hk]
      exact ih hnext hfix hflo

omit [Machine] in
theorem checkIdx_ok {o : Option Nat} (h : FreeIdx am o) : checkIdx am o = .ok () := by
  cases o with
  | none => rfl
  | some i =>
    obtain ⟨hi, hk⟩ := h i rfl
    simp only [checkIdx, assertThat_of, hi, hk, ok_bind]

theorem defaultPolicy_ok (hinv : WindowInv am) {req : MapRequest}
    {startPoint reqStart reqEnd : Nat} (hs : startPoint < wordMod) :
    ∃ r, defaultPolicy am req startPoint reqStart reqEnd = .ok r := by
  obtain ⟨L, s, R, hLR, hfind, -, -⟩ := findNsegmentIdx_spec hinv.inv.wf.tiled hs
  have hnone : FreeIdx am none := fun _ h => nomatch h
  obtain ⟨f, g, hloop, hf, hg⟩ := advisoryLoop_ok hinv reqStart reqEnd req.len
    (decide (req.rkind = .mAny)) am.nsegments.length
    (show L.length < am.nsegments.length by simp [hLR]) hnone hnone
  unfold defaultPolicy
  simp only [hfind, ok_bind, hloop, checkIdx_ok hf, checkIdx_ok hg]
  exact ⟨_, rfl⟩

/-- While free space is in the window, the advisor answers every request. -/
theorem amGetAdvisory_ok (hinv : WindowInv am) {req : MapRequest} (forClient : Bool)
    (hreq : req.start < wordMod) : ∃ r, amGetAdvisory am req forClient = .ok r := by
  have hpos : 0 < am.nsegments.length := by
    obtain ⟨s, rest, hne⟩ := hinv.inv.wf.ne_nil
    simp [hne]
  have hstart : (if forClient = true then am.cStart else am.vStart) < wordMod := by
    split_ifs
    · exact hinv.cStart
    · exact hinv.vStart
  have hreqStart : (if req.rkind = .mAny then 0 else req.start) < wordMod := by
    split_ifs
    · exact wordMod_pos
    · exact hreq
  have hfind : ∀ a, a < wordMod → ∃ i, findNsegmentIdx am a = .ok i := by
    intro a ha
    obtain ⟨L, s, R, -, h, -⟩ := findNsegmentIdx_spec hinv.inv.wf.tiled ha
    exact ⟨_, h⟩
  obtain ⟨iLo, hLo⟩ := hfind _ hreqStart
  obtain ⟨iHi, hHi⟩ := hfind _ (subW_lt (addW (if req.rkind = .mAny then 0 else req.start)
    req.len) 1)
  have hdef : ∃ r, defaultPolicy am req (if forClient = true then am.cStart else am.vStart)
      (if req.rkind = .mAny then 0 else req.start)
      (subW (addW (if req.rkind = .mAny then 0 else req.start) req.len) 1) = .ok r :=
    defaultPolicy_ok hinv hstart
  unfold amGetAdvisory
  simp only [assertThat_of, hpos, ok_bind, hLo, hHi]
  split
  · exact ⟨_, rfl⟩
  split
  · exact ⟨_, rfl⟩
  split
  · exact ⟨_, rfl⟩
  split
  · split
    · exact ⟨_, rfl⟩
    · exact hdef
  · exact hdef

/-! ## Runs -/

/-- **Free space stays in the window** in every run from startup none of whose
unmappings straddles a limit and none of whose relocations leaves a place below
the window; and the assertions of the advisor cannot fail there. -/
theorem freeSpace_inWindow (sp top : Nat) (maps : List MapsLine) (ops : List Op)
    (am₀ am : Aspacem) (hstart : amStartup sp maps = .ok (am₀, top))
    (hops : runMeets step (fun am op => op.staysInWindow am) am₀ ops)
    (hrun : runSteps step am₀ ops = .ok am) :
    (∀ s ∈ am.nsegments, s.kind = .skFree → am.minAddr ≤ s.start ∧ s.end_ ≤ am.maxAddr) ∧
    ∀ (req : MapRequest) (forClient : Bool), req.start < wordMod →
      ∃ r, amGetAdvisory am req forClient = .ok r := by
  have hinv : WindowInv am := runSteps_inv_of_meets
    (fun hs hop hstep => windowInv_step hs hop hstep) (windowInv_amStartup hstart) hops hrun
  refine ⟨fun s hs hk => ?_, fun req forClient hreq => amGetAdvisory_ok hinv forClient hreq⟩
  obtain ⟨i, hi, rfl⟩ := List.mem_iff_getElem.mp hs
  have hseg : am.seg i = am.nsegments[i] := by
    simp [Aspacem.seg, List.getD_eq_getElem?_getD, List.getElem?_eq_getElem hi]
  have := hinv.seg_bounds hi (hseg ▸ hk)
  rw [hseg] at this
  exact this.2

end Window

/-- A run that maps a page and unmaps it again, from startup on amd64. -/
theorem freeSpace_inWindow_mapUnmap :
    letI : Machine := amd64Linux
    ∃ am₀ top am, amStartup 0 [] = .ok (am₀, top) ∧
      runSteps step am₀
        [.t (.notifyClientMmap ⟨0x5000000, by decide⟩ ⟨0x1000, by decide⟩ 3 0x20 ⟨none, none⟩ 0),
          .t (.notifyMunmap ⟨0x5000000, by decide⟩ ⟨0x1000, by decide⟩)] = .ok am ∧
      ∀ s ∈ am.nsegments, s.kind = .skFree → am.minAddr ≤ s.start ∧ s.end_ ≤ am.maxAddr := by
  let _ : Machine := amd64Linux
  obtain ⟨⟨am₀, top⟩, h₀, h⟩ := Result.exists_of_holds (r := amStartup 0 [])
    (p := fun r => decide (r.1.minAddr = 0x4000000 ∧ r.1.maxAddr = 0x7FFFFFFFF) &&
      (runSteps step r.1
        [.t (.notifyClientMmap ⟨0x5000000, by decide⟩ ⟨0x1000, by decide⟩ 3 0x20 ⟨none, none⟩ 0),
          .t (.notifyMunmap ⟨0x5000000, by decide⟩ ⟨0x1000, by decide⟩)]).holds fun _ => true)
    (by decide)
  rw [Bool.and_eq_true, decide_eq_true_eq] at h
  obtain ⟨am, hrun, -⟩ := Result.exists_of_holds h.2
  refine ⟨am₀, top, am, h₀, hrun, (freeSpace_inWindow 0 top [] _ am₀ am h₀ ?_ hrun).1⟩
  refine ⟨trivial, fun am₁ h₁ => ⟨?_, fun _ _ => trivial⟩⟩
  have hlim := (step_spec (windowInv_amStartup h₀).inv h₁).2.1
  refine .inr (.inr (.inr ?_))
  rw [hlim.1, hlim.2.1, h.1.1, h.1.2]
  exact ⟨by decide, by decide⟩

/-- Unmapping two pages around the lower limit, right after startup: the hole is
recorded as free although its first page is not in the window, and the next
request fails the assertion. -/
theorem freeSpace_inWindow_straddle :
    letI : Machine := amd64Linux
    ∃ am₀ top am, amStartup 0 [] = .ok (am₀, top) ∧
      runSteps step am₀ [.t (.notifyMunmap ⟨0x3FFF000, by decide⟩ ⟨0x2000, by decide⟩)]
        = .ok am ∧
      (∃ s ∈ am.nsegments, s.kind = .skFree ∧ ¬ (am.minAddr ≤ s.start ∧ s.end_ ≤ am.maxAddr)) ∧
      amGetAdvisory am ⟨.mAny, 0, 0x1000⟩ true = .error .assertFailed := by
  let _ : Machine := amd64Linux
  obtain ⟨⟨am₀, top⟩, h₀, h⟩ := Result.exists_of_holds (r := amStartup 0 [])
    (p := fun r => (runSteps step r.1
      [.t (.notifyMunmap ⟨0x3FFF000, by decide⟩ ⟨0x2000, by decide⟩)]).holds fun am =>
        decide (∃ s ∈ am.nsegments, s.kind = .skFree ∧
          ¬ (am.minAddr ≤ s.start ∧ s.end_ ≤ am.maxAddr)) &&
        decide (amGetAdvisory am ⟨.mAny, 0, 0x1000⟩ true = .error .assertFailed)) (by decide)
  obtain ⟨am, hrun, h⟩ := Result.exists_of_holds h
  rw [Bool.and_eq_true, decide_eq_true_eq, decide_eq_true_eq] at h
  exact ⟨am₀, top, am, h₀, hrun, h.1, h.2⟩

end Valgrind.Aspacemgr
