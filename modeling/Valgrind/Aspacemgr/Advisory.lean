import Valgrind.Aspacemgr.Window

/-!
# What the advisor grants

`VG_(am_get_advisory)` decides where a mapping may go. A fixed request of the client is
granted over everything that is not Valgrind's; a hint of the client where there is nothing
but free and reserved space; and everything else in one hole, a floating request in the
first hole that is big enough, in cyclic order from the segment of `aspacem_cStart` or
`aspacem_vStart` on.

`advisory_exact` says so, and what a refusal means.
-/

namespace Valgrind.Aspacemgr

open Machine Intervals

section Advisory

variable [Machine]

/-- A hole that is big enough for a floating request. -/
def NSegment.Sufficient (len : Nat) (s : NSegment) : Prop := s.kind = .skFree ∧ len ≤ s.end_ + 1 - s.start

/-- A hole that holds `[a, b]`. -/
def NSegment.HoldsRange (a b : Nat) (s : NSegment) : Prop := s.kind = .skFree ∧ s.start ≤ a ∧ b ≤ s.end_

instance (len : Nat) (s : NSegment) : Decidable (s.Sufficient len) := inferInstanceAs (Decidable (_ ∧ _))
instance (a b : Nat) (s : NSegment) : Decidable (s.HoldsRange a b) := inferInstanceAs (Decidable (_ ∧ _))

/-- Where the search for a hole begins. -/
def startPoint (am : Aspacem) (forClient : Bool) : Nat := if forClient then am.cStart else am.vStart

/-- What it means that a request is granted at `advised`. -/
structure Granted (am : Aspacem) (req : MapRequest) (forClient : Bool) (advised : Nat) : Prop where
  /-- The range is not empty and does not wrap. -/
  noWrap : 0 < req.len ∧ advised + req.len ≤ wordMod
  /-- A fixed request of the client. -/
  fixedClient : forClient = true → req.rkind = .mFixed → advised = req.start ∧
    ∀ x, advised ≤ x → x < advised + req.len → ∃ s, segAt am.nsegments x = some s ∧ s.kind.clientOk true = true
  /-- All other requests. -/
  other : ¬ (forClient = true ∧ req.rkind = .mFixed) →
    (∃ s ∈ am.nsegments, s.kind = .skFree ∧ s.start ≤ advised ∧ advised + req.len ≤ s.end_ + 1) ∨
    (forClient = true ∧ req.rkind = .mHint ∧ advised = req.start ∧ ∀ x, advised ≤ x → x < advised + req.len →
      ∃ s, segAt am.nsegments x = some s ∧ (s.kind = .skFree ∨ s.kind = .skResvn))
  /-- Floating requests, and hints that are not granted where they hint at. -/
  floating : req.rkind = .mAny ∨ req.rkind = .mHint ∧ advised ≠ req.start → ∃ i s,
    findNsegmentIdx am (startPoint am forClient) = .ok i ∧
    (am.nsegments.rotate i).find? (·.Sufficient req.len) = some s ∧ advised = s.start
  /-- Whole pages. -/
  rounded : isPageAligned advised → ∀ len, len < req.len + pageSzB → isPageAligned len →
    advised + len ≤ wordMod ∧ ∀ x, advised ≤ x → x < advised + len →
      ∃ y, advised ≤ y ∧ y < advised + req.len ∧ segAt am.nsegments x = segAt am.nsegments y

/-- What it means that a request is refused. -/
structure Refused (am : Aspacem) (req : MapRequest) (forClient : Bool) : Prop where
  any : req.rkind = .mAny → 0 < req.len → ∀ s ∈ am.nsegments, s.kind = .skFree → s.end_ + 1 - s.start < req.len
  fixedClient : forClient = true → req.rkind = .mFixed → req.len = 0 ∨ wordMod ≤ req.start + req.len ∨
    ∃ x s, req.start ≤ x ∧ x < req.start + req.len ∧ segAt am.nsegments x = some s ∧ s.kind.clientOk true = false

variable {am : Aspacem} {req : MapRequest} {forClient : Bool} {advised a b i : Nat} {s : NSegment}

/-! ## The search -/

/-- Taking the first index that passes the test. -/
theorem or_find? {p : Nat → Prop} [DecidablePred p] (o : Option Nat) (i : Nat) (l : List Nat) :
    (if o = none ∧ p i then some i else o).or (l.find? p) = o.or ((i :: l).find? p) := by
  cases o with
  | some j => simp
  | none =>
    by_cases h : p i <;> simp [h]

theorem next_index {n j : Nat} (hn : 0 < n) : (if n ≤ j % n + 1 then 0 else j % n + 1) = (j + 1) % n := by
  have hlt := Nat.mod_lt j hn
  rw [show (j + 1) % n = (j % n + 1) % n from (Nat.mod_add_mod j n 1).symm]
  split
  · rw [show j % n + 1 = n by omega, Nat.mod_self]
  · rw [Nat.mod_eq_of_lt (show j % n + 1 < n by omega)]

/-- The loop finds the first hole that is big enough, and, if it has to, the first one that
holds the range as it stands. -/
theorem advisoryLoop_find (hmin : 0 < am.minAddr) (hend : ∀ s ∈ am.nsegments, s.end_ < wordMod)
    (hpos : 0 < am.nsegments.length) {reqStart reqEnd reqLen n j : Nat} {fixedNotRequired : Bool}
    {fixedIdx floatIdx f g : Option Nat}
    (h : advisoryLoop am reqStart reqEnd reqLen fixedNotRequired n (j % am.nsegments.length) fixedIdx floatIdx =
      .ok (f, g)) :
    let l := (List.range' j n).map (· % am.nsegments.length)
    g = floatIdx.or (l.find? fun k => (am.seg k).Sufficient reqLen) ∧
    (fixedNotRequired = false → f = fixedIdx.or (l.find? fun k => (am.seg k).HoldsRange reqStart reqEnd)) := by
  induction n generalizing j fixedIdx floatIdx with
  | zero =>
    obtain ⟨rfl, rfl⟩ := Prod.mk.inj (Except.ok.inj h)
    simp
  | succ n ih =>
    rw [advisoryLoop, next_index hpos] at h
    simp only [List.range'_succ, List.map_cons]
    generalize hs : am.seg (j % am.nsegments.length) = s at h
    by_cases hk : s.kind = .skFree
    · rw [if_neg (not_not.mpr hk)] at h
      simp only [bind_eq_ok, assertThat_eq_ok, exists_const] at h
      obtain ⟨h₁, h₂, -, h⟩ := h
      have hlt : s.end_ < wordMod := by
        rw [← hs]
        exact hend _ (seg_mem (Nat.mod_lt _ hpos))
      have hlen : addW (subW s.end_ s.start) 1 = s.end_ + 1 - s.start := by
        rw [subW_of_le hlt h₁, addW_of_lt (by omega)]
        omega
      have hfix : (if fixedIdx = none ∧ holdsFixed s reqStart reqEnd = true then
          some (j % am.nsegments.length) else fixedIdx) =
          if fixedIdx = none ∧ (am.seg (j % am.nsegments.length)).HoldsRange reqStart reqEnd then
            some (j % am.nsegments.length) else fixedIdx := by
        simp [holdsFixed, NSegment.HoldsRange, hs, hk]
      have hflo : (if floatIdx = none ∧ reqLen ≤ addW (subW s.end_ s.start) 1 then
          some (j % am.nsegments.length) else floatIdx) =
          if floatIdx = none ∧ (am.seg (j % am.nsegments.length)).Sufficient reqLen then
            some (j % am.nsegments.length) else floatIdx := by
        simp [NSegment.Sufficient, hs, hk, hlen]
      rw [hfix, hflo] at h
      rw [← or_find? (p := fun k => (am.seg k).Sufficient reqLen),
        ← or_find? (p := fun k => (am.seg k).HoldsRange reqStart reqEnd)]
      generalize (if floatIdx = none ∧ (am.seg (j % am.nsegments.length)).Sufficient reqLen then
        some (j % am.nsegments.length) else floatIdx) = g' at h ⊢
      generalize (if fixedIdx = none ∧ (am.seg (j % am.nsegments.length)).HoldsRange reqStart reqEnd then
        some (j % am.nsegments.length) else fixedIdx) = f' at h ⊢
      by_cases hdone : ((fixedNotRequired || f'.isSome) && g'.isSome) = true
      · rw [if_pos hdone] at h
        obtain ⟨rfl, rfl⟩ := Prod.mk.inj (Except.ok.inj h)
        rw [Bool.and_eq_true, Bool.or_eq_true] at hdone
        refine ⟨(Option.or_of_isSome hdone.2).symm, fun hb => ?_⟩
        exact (Option.or_of_isSome (hdone.1.resolve_left (by simp [hb]))).symm
      · rw [if_neg hdone] at h
        exact ih h
    · rw [if_pos hk] at h
      have h₁ : ¬ s.Sufficient reqLen := fun hsuff => hk hsuff.1
      have h₂ : ¬ s.HoldsRange reqStart reqEnd := fun hholds => hk hholds.1
      rw [List.find?_cons_of_neg (by simpa [hs] using h₁), List.find?_cons_of_neg (by simpa [hs] using h₂)]
      exact ih h

omit [Machine] in
/-- The indices that the loop goes through are the array in cyclic order. -/
theorem map_seg_range' (i : Nat) : ((List.range' i am.nsegments.length).map (· % am.nsegments.length)).map am.seg =
    am.nsegments.rotate i := by
  refine List.ext_getElem (by simp) fun k h₁ h₂ => ?_
  have hk : k < am.nsegments.length := by simpa using h₁
  have hlt : (k + i) % am.nsegments.length < am.nsegments.length := Nat.mod_lt _ (by omega)
  rw [List.getElem_rotate, List.getElem_map, List.getElem_map, List.getElem_range', Aspacem.seg,
    List.getD_eq_getElem?_getD]
  simp only [Nat.one_mul, Nat.add_comm i k, List.getElem?_eq_getElem hlt, Option.getD_some]

omit [Machine] in
theorem find?_rotate (am : Aspacem) (i : Nat) (p : NSegment → Prop) [DecidablePred p] :
    (((List.range' i am.nsegments.length).map (· % am.nsegments.length)).find? fun k => p (am.seg k)).map am.seg =
      (am.nsegments.rotate i).find? p := by
  rw [← map_seg_range']
  exact (List.find?_map (f := am.seg) (p := fun s => decide (p s))).symm

/-- The default policy. -/
theorem defaultPolicy_spec (hwf : Wf am.segnames am.nsegments) (hmin : 0 < am.minAddr) {start reqStart reqEnd : Nat}
    (hstart : start < wordMod) {r : Option Nat} (h : defaultPolicy am req start reqStart reqEnd = .ok r) : ∃ i,
    findNsegmentIdx am start = .ok i ∧
    let hole := (am.nsegments.rotate i).find? (·.Sufficient req.len)
    let fixed := (am.nsegments.rotate i).find? (·.HoldsRange reqStart reqEnd)
    r = match req.rkind with
      | .mFixed => fixed.map fun _ => req.start
      | .mHint => (fixed.map fun _ => req.start).or (hole.map NSegment.start)
      | .mAny => hole.map NSegment.start := by
  unfold defaultPolicy at h
  simp only [bind_eq_ok, Prod.exists, pure_eq_ok] at h
  obtain ⟨i, hi, f, g, hloop, -, -, -, -, rfl⟩ := h
  obtain ⟨L, s, R, hLR, hL, -⟩ := findNsegmentIdx_inv hwf.tiled hstart hi
  have hlt : i < am.nsegments.length := by simp [hLR, ← hL]
  have hend : ∀ s ∈ am.nsegments, s.end_ < wordMod := fun s hs => by
    have := (hwf.tiled.mem_bounds hs).2.2
    omega
  rw [← Nat.mod_eq_of_lt hlt] at hloop
  obtain ⟨hg, hf⟩ := advisoryLoop_find hmin hend (by omega) hloop
  rw [Option.none_or] at hg
  refine ⟨i, hi, ?_⟩
  have hhole := find?_rotate am i fun s => s.Sufficient req.len
  have hfixed := find?_rotate am i fun s => s.HoldsRange reqStart reqEnd
  rw [← hg] at hhole
  dsimp only
  rw [← hhole]
  cases hk : req.rkind with
  | mAny => simp [Function.comp_def]
  | mFixed =>
    rw [← hfixed, ← Option.none_or (o := List.find? _ _), ← hf (by simp [hk])]
    simp [Function.comp_def]
  | mHint =>
    rw [← hfixed, ← Option.none_or (o := List.find? _ _), ← hf (by simp [hk])]
    simp [Function.comp_def]

/-! ## Ranges of pages -/

/-- The segments that the two policy exceptions look at. -/
theorem slice_all_iff (hwf : Wf am.segnames am.nsegments) {lo hi i j : Nat} (hle : lo ≤ hi) (hhi : hi < wordMod)
    (hi₁ : findNsegmentIdx am lo = .ok i) (hi₂ : findNsegmentIdx am hi = .ok j) (p : NSegment → Bool) :
    (am.slice i j).all p = true ↔ ∀ x, lo ≤ x → x ≤ hi → ∃ s, segAt am.nsegments x = some s ∧ p s = true := by
  rw [List.all_eq_true]
  constructor
  · intro hall x h₁ h₂
    obtain ⟨s, hmem, hat, hs₁, hs₂⟩ := hwf.exists_segAt (show x < wordMod by omega)
    refine ⟨s, hat, hall s ?_⟩
    exact (mem_slice_iff hwf.tiled hle hhi hi₁ hi₂).mpr ⟨hmem, by omega, by omega⟩
  · intro hall s hs
    obtain ⟨hmem, h₁, h₂⟩ := (mem_slice_iff hwf.tiled hle hhi hi₁ hi₂).mp hs
    have hlt := (hwf.sane s hmem).lt
    obtain ⟨s', hat, hp⟩ := hall (max lo s.start) (by omega) (by omega)
    rw [segAt_of_mem hwf hmem (by omega) (by omega)] at hat
    exact Option.some.inj hat ▸ hp

/-- Addresses of one page are in one segment. -/
theorem segAt_eq_of_page (hwf : Wf am.segnames am.nsegments) {x y : Nat} (hx : x < wordMod)
    (hpage : x / pageSzB = y / pageSzB) : segAt am.nsegments x = segAt am.nsegments y := by
  obtain ⟨s, hmem, hat, h₁, h₂⟩ := hwf.exists_segAt hx
  have hstart := (hwf.sane s hmem).start_aligned
  have hend := (hwf.sane s hmem).end_aligned
  have hpos := pageSzB_pos
  rw [hat, segAt_of_mem hwf hmem]
  · unfold isPageAligned at hstart
    have := Nat.div_le_div_right (c := pageSzB) h₁
    have h₃ := Nat.div_mul_le_self y pageSzB
    have h₄ := Nat.div_add_mod s.start pageSzB
    have h₅ := Nat.mul_le_mul_right pageSzB (hpage ▸ this)
    rw [Nat.mul_comm] at h₄
    omega
  · unfold isPageAligned at hend
    have h₃ := Nat.div_add_mod y pageSzB
    have h₄ := Nat.div_add_mod (s.end_ + 1) pageSzB
    have h₅ := Nat.mod_lt y hpos
    have h₆ : x / pageSzB < (s.end_ + 1) / pageSzB := by
      rw [Nat.div_lt_iff_lt_mul hpos, Nat.mul_comm]
      omega
    have h₇ := Nat.mul_le_mul_left pageSzB (Nat.succ_le_of_lt h₆)
    rw [hpage, Nat.mul_succ] at h₇
    omega

/-- Whole pages, from a page boundary on. -/
theorem rounded_range (hwf : Wf am.segnames am.nsegments) {len n : Nat} (hpos : 0 < n)
    (hfit : advised + n ≤ wordMod) (ha : isPageAligned advised) (hlen : len < n + pageSzB) (hl : isPageAligned len) :
    advised + len ≤ wordMod ∧ ∀ x, advised ≤ x → x < advised + len →
      ∃ y, advised ≤ y ∧ y < advised + n ∧ segAt am.nsegments x = segAt am.nsegments y := by
  have hp := pageSzB_pos
  obtain ⟨k, hk⟩ := Nat.dvd_of_mod_eq_zero (show (advised + len) % pageSzB = 0 from by
    unfold isPageAligned at ha hl
    rw [Nat.add_mod, ha, hl, Nat.zero_add, Nat.zero_mod])
  -- the last page of the range is the last page of its first `n` bytes
  have hle : advised + len ≤ wordMod := by
    obtain ⟨w, hw⟩ := pageSzB_dvd_wordMod
    have hlt : pageSzB * k < pageSzB * (w + 1) := by
      rw [Nat.mul_succ]
      omega
    have := Nat.mul_le_mul_left pageSzB (Nat.lt_succ_iff.mp (Nat.lt_of_mul_lt_mul_left hlt))
    omega
  refine ⟨hle, fun x h₁ h₂ => ?_⟩
  by_cases hx : x < advised + n
  · exact ⟨x, h₁, hx, rfl⟩
  · refine ⟨advised + n - 1, by omega, by omega, segAt_eq_of_page hwf (by omega) ?_⟩
    have hkpos : 0 < k := by
      rcases Nat.eq_zero_or_pos k with rfl | hk'
      · omega
      · exact hk'
    obtain ⟨m, rfl⟩ := Nat.exists_eq_succ_of_ne_zero hkpos.ne'
    rw [Nat.mul_succ] at hk
    have hdiv : ∀ z, pageSzB * m ≤ z → z < pageSzB * m + pageSzB → z / pageSzB = m := by
      intro z hz₁ hz₂
      rw [Nat.div_eq_iff hp, Nat.mul_comm]
      omega
    rw [hdiv x (by omega) (by omega), hdiv (advised + n - 1) (by omega) (by omega)]

/-! ## Grants and refusals -/

theorem Wf.end_lt (hwf : Wf am.segnames am.nsegments) (hs : s ∈ am.nsegments) : s.end_ < wordMod := by
  have := (hwf.tiled.mem_bounds hs).2.2
  omega

omit [Machine] in
theorem mem_of_find?_rotate {p : NSegment → Prop} [DecidablePred p] (h : (am.nsegments.rotate i).find? p = some s) :
    s ∈ am.nsegments ∧ p s := by
  refine ⟨List.mem_rotate.mp (List.mem_of_find?_eq_some h), ?_⟩
  simpa using List.find?_some h

/-- A floating request that is granted in a hole. -/
theorem granted_hole (hwf : Wf am.segnames am.nsegments) (hlen : 0 < req.len)
    (hk : req.rkind ≠ .mFixed) (hi : findNsegmentIdx am (startPoint am forClient) = .ok i)
    (hs : (am.nsegments.rotate i).find? (·.Sufficient req.len) = some s) : Granted am req forClient s.start := by
  obtain ⟨hmem, hfree, hfit⟩ := mem_of_find?_rotate hs
  have hend := hwf.end_lt hmem
  have hlt := (hwf.sane s hmem).lt
  have hno : s.start + req.len ≤ wordMod := by omega
  exact ⟨⟨hlen, hno⟩, fun _ h => absurd h hk, fun _ => .inl ⟨s, hmem, hfree, Nat.le_refl _, by omega⟩,
    fun _ => ⟨i, s, hi, hs, rfl⟩, fun ha len hlen' hl => rounded_range hwf hlen hno ha hlen' hl⟩

/-- A request that is granted as it stands, in one hole. -/
theorem granted_fixed (hwf : Wf am.segnames am.nsegments) (hlen : 0 < req.len) (hno : req.start + req.len < wordMod)
    (hk : req.rkind ≠ .mAny) (hc : ¬ (forClient = true ∧ req.rkind = .mFixed)) (hs : s ∈ am.nsegments)
    (hholds : s.HoldsRange req.start (req.start + req.len - 1)) : Granted am req forClient req.start := by
  obtain ⟨hfree, h₁, h₂⟩ := hholds
  refine ⟨⟨hlen, hno.le⟩, fun h h' => absurd ⟨h, h'⟩ hc, fun _ => .inl ⟨s, hs, hfree, h₁, by omega⟩, ?_,
    fun ha len hlen' hl => rounded_range hwf hlen hno.le ha hlen' hl⟩
  rintro (h | ⟨-, h⟩)
  · exact absurd h hk
  · exact absurd rfl h

/-- **The advisor is exact**: every grant is where the policy allows it, and every refusal has
a reason. While free space is in the window it answers every request. -/
theorem advisory_exact (hwf : Wf am.segnames am.nsegments) (hmin : 0 < am.minAddr) (hc : am.cStart < wordMod)
    (hv : am.vStart < wordMod) (req : MapRequest) (hstart : req.start < wordMod) (hlen : req.len < wordMod)
    (forClient : Bool) :
    (∀ r, amGetAdvisory am req forClient = .ok r →
      (∀ advised, r = some advised → Granted am req forClient advised) ∧ (r = none → Refused am req forClient)) ∧
    (WindowInv am → ∃ r, amGetAdvisory am req forClient = .ok r) := by
  refine ⟨fun r h => ?_, fun hinv => amGetAdvisory_ok hinv forClient hstart⟩
  have hpoint : startPoint am forClient < wordMod := by
    unfold startPoint
    split
    · exact hc
    · exact hv
  unfold amGetAdvisory at h
  obtain ⟨_, -, h⟩ := bind_eq_ok.mp h
  by_cases hzero : req.len = 0
  · rw [if_pos hzero] at h
    obtain rfl := Except.ok.inj h
    exact ⟨by simp, fun _ => ⟨fun _ hpos => by omega, fun _ _ => .inl hzero⟩⟩
  rw [if_neg hzero] at h
  have hpos : 0 < req.len := Nat.pos_of_ne_zero hzero
  by_cases hwrap : (req.rkind = .mFixed ∨ req.rkind = .mHint) ∧ addW req.start req.len < req.start
  · rw [if_pos hwrap] at h
    obtain rfl := Except.ok.inj h
    refine ⟨by simp, fun _ => ⟨fun hk => ?_, fun _ _ => .inr (.inl ((addW_lt_self_iff hstart hlen).mp hwrap.2))⟩⟩
    rcases hwrap.1 with h | h <;> simp [h] at hk
  rw [if_neg hwrap] at h
  -- a request for a certain place: its last byte
  have hfits : req.rkind ≠ .mAny → req.start + req.len < wordMod := by
    intro hk
    have hnot : ¬ addW req.start req.len < req.start := fun hlt => hwrap ⟨by cases hr : req.rkind <;> simp_all, hlt⟩
    rw [addW_lt_self_iff hstart hlen] at hnot
    omega
  have hreqStart : req.rkind ≠ .mAny → (if req.rkind = .mAny then 0 else req.start) = req.start := fun hk => if_neg hk
  have hreqEnd : req.rkind ≠ .mAny →
      subW (addW (if req.rkind = .mAny then 0 else req.start) req.len) 1 = req.start + req.len - 1 := by
    intro hk
    rw [if_neg hk]
    exact lastByte_eq (hfits hk) hpos
  by_cases hcf : forClient = true ∧ req.rkind = .mFixed
  · have hk : req.rkind ≠ .mAny := by simp [hcf.2]
    have hno := hfits hk
    rw [if_pos hcf, hreqEnd hk, hreqStart hk] at h
    simp only [bind_eq_ok, pure_eq_ok] at h
    obtain ⟨iLo, hLo, iHi, hHi, rfl⟩ := h
    have hslice := slice_all_iff hwf (by omega) (by omega) hLo hHi fun s => s.kind.clientOk true
    constructor
    · intro advised hadv
      split at hadv
      · rename_i hall
        obtain rfl := Option.some.inj hadv
        have hrange := hslice.mp hall
        refine ⟨⟨hpos, hno.le⟩, fun _ _ => ⟨rfl, fun x h₁ h₂ => hrange x h₁ (by omega)⟩, fun hnot => absurd hcf hnot, ?_,
          fun ha len hlen' hl => rounded_range hwf hpos hno.le ha hlen' hl⟩
        rintro (h | ⟨h, -⟩) <;> simp [hcf.2] at h
      · cases hadv
    · intro hnone
      split at hnone
      · cases hnone
      · rename_i hall
        refine ⟨fun h => absurd h hk, fun _ _ => .inr (.inr ?_)⟩
        rw [hslice] at hall
        push Not at hall
        obtain ⟨x, h₁, h₂, hx⟩ := hall
        obtain ⟨s, -, hat, -, -⟩ := hwf.exists_segAt (show x < wordMod by omega)
        exact ⟨x, s, h₁, by omega, hat, by simpa using hx s hat⟩
  rw [if_neg hcf] at h
  -- what the default policy grants and refuses
  have hdefault : ∀ r, defaultPolicy am req (startPoint am forClient) (if req.rkind = .mAny then 0 else req.start)
      (subW (addW (if req.rkind = .mAny then 0 else req.start) req.len) 1) = .ok r →
      (∀ advised, r = some advised → Granted am req forClient advised) ∧ (r = none → Refused am req forClient) := by
    intro r h
    obtain ⟨i, hi, hr⟩ := defaultPolicy_spec hwf hmin hpoint h
    dsimp only at hr
    refine ⟨fun advised hadv => ?_, fun hnone => ⟨fun hk _ s hs hfree => ?_, fun h₁ h₂ => absurd ⟨h₁, h₂⟩ hcf⟩⟩
    · rw [hadv] at hr
      cases hk : req.rkind with
      | mAny =>
        rw [hk] at hr
        obtain ⟨s, hs, rfl⟩ := Option.map_eq_some_iff.mp hr.symm
        exact granted_hole hwf hpos (by simp [hk]) hi hs
      | mFixed =>
        have hne : req.rkind ≠ .mAny := by simp [hk]
        rw [hreqEnd hne, hreqStart hne, hk] at hr
        obtain ⟨s, hs, rfl⟩ := Option.map_eq_some_iff.mp hr.symm
        obtain ⟨hmem, hholds⟩ := mem_of_find?_rotate hs
        exact granted_fixed hwf hpos (hfits hne) hne hcf hmem hholds
      | mHint =>
        have hne : req.rkind ≠ .mAny := by simp [hk]
        rw [hreqEnd hne, hreqStart hne, hk] at hr
        rcases Option.or_eq_some_iff.mp hr.symm with hr | ⟨-, hr⟩
        · obtain ⟨s, hs, rfl⟩ := Option.map_eq_some_iff.mp hr
          obtain ⟨hmem, hholds⟩ := mem_of_find?_rotate hs
          exact granted_fixed hwf hpos (hfits hne) hne hcf hmem hholds
        · obtain ⟨s, hs, rfl⟩ := Option.map_eq_some_iff.mp hr
          exact granted_hole hwf hpos (by simp [hk]) hi hs
    · rw [hnone, hk] at hr
      have hfind := Option.map_eq_none_iff.mp hr.symm
      have hnot : ¬ s.Sufficient req.len := by
        simpa using List.find?_eq_none.mp hfind s (List.mem_rotate.mpr hs)
      exact Nat.not_le.mp fun hle => hnot ⟨hfree, hle⟩
  by_cases hch : forClient = true ∧ req.rkind = .mHint
  · have hk : req.rkind ≠ .mAny := by simp [hch.2]
    have hno := hfits hk
    rw [if_pos hch] at h
    obtain ⟨iLo, hLo, h⟩ := bind_eq_ok.mp h
    obtain ⟨iHi, hHi, h⟩ := bind_eq_ok.mp h
    split at h
    · rename_i hall
      obtain rfl := Except.ok.inj h
      rw [hreqEnd hk] at hHi
      rw [hreqStart hk] at hLo
      rw [slice_all_iff hwf (by omega) (by omega) hLo hHi] at hall
      refine ⟨fun advised hadv => ?_, fun hnone => (by cases hnone)⟩
      obtain rfl := Option.some.inj hadv
      refine ⟨⟨hpos, hno.le⟩, fun h₁ h₂ => absurd ⟨h₁, h₂⟩ hcf, fun _ => .inr ⟨hch.1, hch.2, rfl, fun x h₁ h₂ => ?_⟩, ?_,
        fun ha len hlen' hl => rounded_range hwf hpos hno.le ha hlen' hl⟩
      · simpa using hall x h₁ (by omega)
      · rintro (h | ⟨-, h⟩)
        · exact absurd h hk
        · exact absurd rfl h
    · have hrest := hdefault r
      rw [hreqStart hk] at hrest
      exact hrest h
  · rw [if_neg hch] at h
    exact hdefault r h

end Advisory

/-- A floating request of the client, right after startup. -/
theorem advisory_exact_startup :
    letI : Machine := amd64Linux
    ∃ am top, amStartup 0 [] = .ok (am, top) ∧
      amGetAdvisory am ⟨.mAny, 0, 0x1001⟩ true = .ok (some 0x4000000) ∧
      Granted am ⟨.mAny, 0, 0x1001⟩ true 0x4000000 := by
  let _ : Machine := amd64Linux
  obtain ⟨⟨am, top⟩, h₀, h⟩ := Result.exists_of_holds (r := amStartup 0 [])
    (p := fun r => decide (amGetAdvisory r.1 ⟨.mAny, 0, 0x1001⟩ true = .ok (some 0x4000000) ∧ 0 < r.1.minAddr))
    (by decide)
  obtain ⟨hadv, hmin⟩ := of_decide_eq_true h
  have hinv := windowInv_amStartup h₀
  exact ⟨am, top, h₀, hadv, ((advisory_exact hinv.inv.wf hmin hinv.cStart hinv.vStart ⟨.mAny, 0, 0x1001⟩ (by decide)
    (by decide) true).1 _ hadv).1 _ rfl⟩

/-- The client may not have the last page of the address space, reserved as it is, and a range
that does not begin with a page may be granted although its last page is in another segment. -/
theorem lastPage_refused :
    letI : Machine := amd64Linux
    ∃ am top, amStartup 0 [] = .ok (am, top) ∧
      amGetAdvisory am ⟨.mFixed, 0xFFFFFFFFFFFFF000, 0x1000⟩ true = .ok none ∧
      0xFFFFFFFFFFFFF000 + 0x1000 - 1 = addrMax ∧
      (am.nsegments.getLast?.map fun s => (s.kind, decide (s.start ≤ 0xFFFFFFFFFFFFF000 ∧ s.end_ = addrMax))) =
        some (.skResvn, true) ∧
      amGetAdvisory am ⟨.mFixed, 0x3FFF800, 0x400⟩ true = .ok (some 0x3FFF800) ∧
      pgRoundUp 0x400 = 0x1000 ∧
      (segAt am.nsegments 0x3FFF800).map (·.kind) = some .skResvn ∧
      (segAt am.nsegments (0x3FFF800 + 0x1000 - 1)).map (·.kind) = some .skFree := by
  let _ : Machine := amd64Linux
  obtain ⟨⟨am, top⟩, h₀, h⟩ := Result.exists_of_holds (r := amStartup 0 [])
    (p := fun r => decide (amGetAdvisory r.1 ⟨.mFixed, 0xFFFFFFFFFFFFF000, 0x1000⟩ true = .ok none ∧
      0xFFFFFFFFFFFFF000 + 0x1000 - 1 = addrMax ∧
      (r.1.nsegments.getLast?.map fun s => (s.kind, decide (s.start ≤ 0xFFFFFFFFFFFFF000 ∧ s.end_ = addrMax))) =
        some (.skResvn, true) ∧
      amGetAdvisory r.1 ⟨.mFixed, 0x3FFF800, 0x400⟩ true = .ok (some 0x3FFF800) ∧
      pgRoundUp 0x400 = 0x1000 ∧
      (segAt r.1.nsegments 0x3FFF800).map (·.kind) = some .skResvn ∧
      (segAt r.1.nsegments (0x3FFF800 + 0x1000 - 1)).map (·.kind) = some .skFree)) (by decide)
  exact ⟨am, top, h₀, of_decide_eq_true h⟩

end Valgrind.Aspacemgr
