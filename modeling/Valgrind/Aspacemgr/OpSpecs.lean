import Valgrind.Aspacemgr.PageMap
import Valgrind.Aspacemgr.Ops

/-!
# What the operations do to the page map

One lemma for each operation of `Aspacemgr/Ops.lean` that says everything a
returning call can have done: which range was rewritten, with which attributes,
which `hasT` bits survive, and what the discard flag says about the range. The
invariants of the address space manager are derived from these lemmas and never
look at the operations again.
-/

namespace Valgrind.Aspacemgr

open Machine Intervals

/-- Every name slot in use stays in use. -/
def NamesGrow (names names' : List SegName) : Prop :=
  ∀ j, slotInUse names j = true → slotInUse names' j = true

/-- An operation changes the two tables and nothing else. -/
def SameLimits (am am' : Aspacem) : Prop :=
  am'.minAddr = am.minAddr ∧ am'.maxAddr = am.maxAddr ∧ am'.cStart = am.cStart ∧
    am'.vStart = am.vStart

theorem SameLimits.refl (am : Aspacem) : SameLimits am am := ⟨rfl, rfl, rfl, rfl⟩

theorem SameLimits.trans {a b c : Aspacem} (h₁ : SameLimits a b) (h₂ : SameLimits b c) :
    SameLimits a c :=
  ⟨h₂.1.trans h₁.1, h₂.2.1.trans h₁.2.1, h₂.2.2.1.trans h₁.2.2.1, h₂.2.2.2.trans h₁.2.2.2⟩

/-- No two neighbours are both free. -/
def NoAdjFree (segs : List NSegment) : Prop :=
  (segs.map (·.kind)).IsChain fun x y => ¬ (x = .skFree ∧ y = .skFree)

section Specs

variable [Machine] {am am' : Aspacem} {names : List SegName} {s seg seg' : NSegment}
  {segs : List NSegment} {a b lo hi i j start len : Nat} {fd : FdInfo}

/-! ## The array invariant -/

/-- **The array invariant**: the segments cover the address space exactly, each
is sane, and free space is never split. -/
structure ArrayInv (am : Aspacem) : Prop where
  wf : Wf am.segnames am.nsegments
  free : NoAdjFree am.nsegments

/-- Neighbours in free space can always be merged, so a preened array has none. -/
theorem noAdjFree_of_preened {p e : Nat} (ht : SegTiled p e segs) (he : e ≤ wordMod)
    (h : Preened segs) : NoAdjFree segs := by
  induction segs generalizing p with
  | nil => exact List.isChain_nil
  | cons x l ih =>
    cases l with
    | nil => exact List.isChain_singleton _
    | cons y l =>
      obtain ⟨hxy, hrest⟩ := List.isChain_cons_cons.mp h
      obtain ⟨h₀, h₁, hx'⟩ := segTiled_cons.mp ht
      obtain ⟨h₂, h₃, h₄⟩ := segTiled_cons.mp hx'
      have hle := Tiled.le h₄
      refine List.isChain_cons_cons.mpr ⟨fun ⟨hxf, hyf⟩ => ?_, ih hx' hrest⟩
      have htest : MergeTest x y := by
        unfold MergeTest
        simp only [show x.kind = .skFree from hxf]
      have hm := maybeMergeNsegments_eq_some_iff.mpr
        ⟨hxf.trans hyf.symm, by rw [addW_of_lt (by omega), h₂], by omega, htest, rfl⟩
      rw [hm] at hxy
      exact nomatch hxy

theorem AddOf.inv (h : AddOf am seg am') : ArrayInv am' :=
  ⟨h.wf, noAdjFree_of_preened h.wf.tiled le_rfl h.preened⟩

theorem AddOf.sameLimits (h : AddOf am seg am') : SameLimits am am' := by
  obtain ⟨segs, names, rfl⟩ := h.limits
  exact ⟨rfl, rfl, rfl, rfl⟩

/-! ## File names -/

omit [Machine] in
theorem allocateSegname_grow {names' : List SegName} {name : List UInt8} {k : Int}
    (h : allocateSegname names name = .ok (names', k)) : NamesGrow names names' := by
  unfold allocateSegname at h
  intro j hj
  obtain ⟨h₀, hlt, n, hn, hu⟩ := slotInUse_iff.mp hj
  have hjl : j.toNat < names.length := by omega
  split at h
  case isTrue =>
    rw [Except.ok.injEq, Prod.mk.injEq] at h
    exact h.1 ▸ hj
  case isFalse =>
    split at h
    case h_1 =>
      rw [Except.ok.injEq, Prod.mk.injEq] at h
      exact h.1 ▸ hj
    case h_2 =>
      split at h
      case h_1 i hi =>
        rw [Except.ok.injEq, Prod.mk.injEq] at h
        rw [← h.1]
        refine slotInUse_iff.mpr ⟨h₀, by simpa using hlt, ?_⟩
        by_cases hij : i = j.toNat
        · exact ⟨{ n with inUse := true, fname := name }, by simp [hij, hn], rfl⟩
        · exact ⟨n, by simp [hij, hn], hu⟩
      case h_2 =>
        split at h
        case isTrue =>
          rw [Except.ok.injEq, Prod.mk.injEq] at h
          rw [← h.1]
          refine slotInUse_iff.mpr ⟨h₀, by simp only [List.length_append]; omega, n, ?_, hu⟩
          rw [List.getElem?_append_left hjl]
          exact hn
        case isFalse => exact nomatch h

omit [Machine] in
/-- The fields that `attachFile` may set. -/
theorem attachFile_spec (h : attachFile am fd seg = .ok (am', seg')) :
    ∃ names dev ino mode fnIdx, am' = { am with segnames := names } ∧
      NamesGrow am.segnames names ∧
      seg' = { seg with dev := dev, ino := ino, mode := mode, fnIdx := fnIdx } := by
  unfold attachFile at h
  cases hn : fd.name with
  | none =>
    simp only [hn, pure_eq_ok, Prod.mk.injEq] at h
    obtain ⟨rfl, rfl⟩ := h
    cases hi : fd.inode with
    | none => exact ⟨am.segnames, seg.dev, seg.ino, seg.mode, seg.fnIdx, rfl, fun _ => id, rfl⟩
    | some d => exact ⟨am.segnames, d.1, d.2.1, d.2.2, seg.fnIdx, rfl, fun _ => id, rfl⟩
  | some name =>
    simp only [hn, bind_eq_ok, Prod.exists, pure_eq_ok, Prod.mk.injEq] at h
    obtain ⟨names, k, hal, rfl, rfl⟩ := h
    have hg := allocateSegname_grow hal
    cases hi : fd.inode with
    | none => exact ⟨names, seg.dev, seg.ino, seg.mode, k, rfl, hg, rfl⟩
    | some d => exact ⟨names, d.1, d.2.1, d.2.2, k, rfl, hg, rfl⟩

/-- A bigger name table keeps the array well formed. -/
theorem wf_names {names' : List SegName} (h : Wf names segs) (hg : NamesGrow names names') :
    Wf names' segs :=
  ⟨h.tiled, fun s hs => sane_names (h.sane s hs) (hg _)⟩

/-! ## Slices and ranges -/

omit [Machine] in
theorem mem_slice : s ∈ am.slice i j ↔ ∃ k, i ≤ k ∧ k ≤ j ∧ am.nsegments[k]? = some s := by
  unfold Aspacem.slice
  rw [List.mem_iff_getElem?]
  constructor
  · rintro ⟨k, hk⟩
    rw [List.getElem?_drop, List.getElem?_take] at hk
    split_ifs at hk with hlt
    exact ⟨i + k, by omega, by omega, hk⟩
  · rintro ⟨k, h₁, h₂, hk⟩
    refine ⟨k - i, ?_⟩
    rw [List.getElem?_drop, List.getElem?_take, if_pos (by omega), Nat.add_sub_cancel' h₁]
    exact hk

omit [Machine] in
/-- Entries of the array lie in address order. -/
theorem SegTiled.index_lt {p e k l : Nat} {s t : NSegment} (ht : SegTiled p e segs)
    (hk : segs[k]? = some s) (hl : segs[l]? = some t) (hkl : k < l) : s.end_ < t.start := by
  obtain ⟨hk₁, rfl⟩ := List.getElem?_eq_some_iff.mp hk
  obtain ⟨hl₁, rfl⟩ := List.getElem?_eq_some_iff.mp hl
  exact List.pairwise_iff_getElem.mp ht.pairwise k l hk₁ hl₁ hkl

theorem findNsegmentIdx_getElem? (ht : SegTiled 0 wordMod am.nsegments) (ha : a < wordMod)
    (hi : findNsegmentIdx am a = .ok i) :
    am.nsegments[i]? = some (am.seg i) ∧ (am.seg i).start ≤ a ∧ a ≤ (am.seg i).end_ := by
  obtain ⟨L, s, R, hLR, hlen, hseg, -, -, h₁, h₂⟩ := findNsegmentIdx_inv ht ha hi
  rw [hseg]
  exact ⟨by rw [hLR, ← hlen]; simp, h₁, h₂⟩

/-- The entries between the two ends of a range are those that meet it. -/
theorem mem_slice_iff (ht : SegTiled 0 wordMod am.nsegments) (hle : lo ≤ hi)
    (hhi : hi < wordMod) (hi₁ : findNsegmentIdx am lo = .ok i)
    (hi₂ : findNsegmentIdx am hi = .ok j) :
    s ∈ am.slice i j ↔ s ∈ am.nsegments ∧ s.start ≤ hi ∧ lo ≤ s.end_ := by
  obtain ⟨hgi, hs₁, hs₂⟩ := findNsegmentIdx_getElem? ht (by omega) hi₁
  obtain ⟨hgj, ht₁, ht₂⟩ := findNsegmentIdx_getElem? ht hhi hi₂
  rw [mem_slice]
  constructor
  · rintro ⟨k, h₁, h₂, hk⟩
    have hmem := List.mem_of_getElem? hk
    have hb := (ht.mem_bounds hmem).2.1
    refine ⟨hmem, ?_, ?_⟩
    · rcases Nat.eq_or_lt_of_le h₂ with rfl | hlt
      · rw [hk, Option.some.injEq] at hgj
        rw [hgj]
        exact ht₁
      · have := SegTiled.index_lt ht hk hgj hlt
        omega
    · rcases Nat.eq_or_lt_of_le h₁ with rfl | hlt
      · rw [hk, Option.some.injEq] at hgi
        rw [hgi]
        exact hs₂
      · have := SegTiled.index_lt ht hgi hk hlt
        omega
  · rintro ⟨hmem, h₁, h₂⟩
    obtain ⟨k, hk⟩ := List.mem_iff_getElem?.mp hmem
    refine ⟨k, ?_, ?_, hk⟩
    · by_contra hlt
      have := SegTiled.index_lt ht hk hgi (by omega)
      omega
    · by_contra hlt
      have := SegTiled.index_lt ht hgj hk (by omega)
      omega

theorem lastByte_eq (h : start + len < wordMod) (hlen : 0 < len) :
    lastByte start len = start + len - 1 := by
  unfold lastByte
  rw [addW_of_lt h, subW_of_le h (by omega)]

theorem lastByte_lt : lastByte start len < wordMod := subW_lt _ _

/-- **The discard test is exact**: `any_Ts_in_range` returns for proper ranges
only, and says whether some page of the range has its `hasT` bit set. -/
theorem anyTsInRange_spec (hwf : Wf am.segnames am.nsegments) (hs : start < wordMod)
    (hl : len < wordMod) {d : Bool} (h : anyTsInRange am start len = .ok d) :
    0 < len ∧ start + len < wordMod ∧
      (d = true ↔ ∃ x, start ≤ x ∧ x < start + len ∧ pageT am.nsegments x = true) := by
  simp only [anyTsInRange, bind_eq_ok, assertThat_eq_ok, exists_const, pure_eq_ok] at h
  obtain ⟨hpos, hlt, i, hi, j, hj, rfl⟩ := h
  have hnw : start + len < wordMod := by
    by_contra hge
    rw [addW_of_ge hs hl (by omega)] at hlt
    omega
  have hlast := lastByte_eq hnw hpos
  unfold lastByte at hlast
  rw [hlast] at hj
  have hslice : ∀ s, s ∈ am.slice i j ↔ _ := fun s =>
    mem_slice_iff hwf.tiled (by omega) (by omega) hi hj
  refine ⟨hpos, hnw, ?_⟩
  rw [List.any_eq_true]
  constructor
  · rintro ⟨s, hs, hT⟩
    obtain ⟨hmem, h₁, h₂⟩ := (hslice s).mp hs
    have hb := (hwf.sane s hmem).lt
    -- the lowest address that both the segment and the range hold
    refine ⟨max start s.start, by omega, by omega, ?_⟩
    have hat := hwf.tiled.locate_eq_some_iff.mpr
      (show s ∈ am.nsegments ∧ s.start ≤ max start s.start ∧ max start s.start < s.end_ + 1 from
        ⟨hmem, by omega, by omega⟩)
    rw [pageT, segAt, hat]
    exact hT
  · rintro ⟨x, h₁, h₂, hT⟩
    obtain ⟨s, hmem, hat, hs₁, hs₂⟩ := hwf.exists_segAt (show x < wordMod by omega)
    rw [pageT, hat] at hT
    exact ⟨s, (hslice s).mpr ⟨hmem, by omega, by omega⟩, hT⟩

/-! ## Operations that add a segment -/

/-- `seg` has been written over the map. -/
structure Added (am : Aspacem) (seg : NSegment) (am' : Aspacem) : Prop where
  inv : ArrayInv am'
  map : ∀ x, pageMap am'.nsegments x =
    if seg.start ≤ x ∧ x ≤ seg.end_ then some (seg.attrsAt x) else pageMap am.nsegments x
  hasT_in : ∀ x, seg.start ≤ x ∧ x ≤ seg.end_ → seg.hasT = true → pageT am'.nsegments x = true
  hasT_out : ∀ x, ¬ (seg.start ≤ x ∧ x ≤ seg.end_) → pageT am.nsegments x = true →
    pageT am'.nsegments x = true
  limits : SameLimits am am'
  lt : seg.start < seg.end_

theorem addSegment_added (h : Wf am.segnames am.nsegments) (hg : NamesGrow am.segnames names)
    (hend : seg.end_ < wordMod) (hok : addSegment { am with segnames := names } seg = .ok am') :
    Added am seg am' := by
  have hwf : Wf (Aspacem.segnames { am with segnames := names })
      (Aspacem.nsegments { am with segnames := names }) := wf_names h hg
  have hadd := addSegment_spec hwf hend hok
  simp only [addSegment, bind_eq_ok, assertThat_eq_ok, exists_const] at hok
  exact ⟨hadd.inv, hadd.map, hadd.hasT_in, hadd.hasT_out, hadd.sameLimits, Sane.lt hok.2.2.2.1⟩

/-- Adding a segment without touching the name table. -/
theorem addSegment_added' (h : Wf am.segnames am.nsegments) (hend : seg.end_ < wordMod)
    (hok : addSegment am seg = .ok am') : Added am seg am' :=
  addSegment_added h (show NamesGrow am.segnames am.segnames from fun _ => id) hend hok

/-- What the discard flag `d` says about a range. -/
structure DiscardOf (am : Aspacem) (start len : Nat) (d : Bool) : Prop where
  pos : 0 < len
  nowrap : start + len < wordMod
  iff : d = true ↔ ∃ x, start ≤ x ∧ x < start + len ∧ pageT am.nsegments x = true

theorem discardOf (hwf : Wf am.segnames am.nsegments) (hs : start < wordMod)
    (hl : len < wordMod) {d : Bool} (h : anyTsInRange am start len = .ok d) :
    DiscardOf am start len d := by
  obtain ⟨h₁, h₂, h₃⟩ := anyTsInRange_spec hwf hs hl h
  exact ⟨h₁, h₂, h₃⟩

theorem DiscardOf.last {d : Bool} (h : DiscardOf am start len d) :
    lastByte start len = start + len - 1 := lastByte_eq h.nowrap h.pos

theorem amNotifyClientMmap_spec (hwf : Wf am.segnames am.nsegments) (ha : a < wordMod)
    (hl : len < wordMod) {prot flags : Nat} {offset : BitVec 64} {d : Bool}
    (h : amNotifyClientMmap am a len prot flags fd offset = .ok (am', d)) :
    DiscardOf am a len d ∧ ∃ seg, Added am seg am' ∧ seg.start = a ∧ seg.end_ = a + len - 1 ∧
      seg.kind = (if mapAnonymous flags then .skAnonC else .skFileC) ∧ seg.isCH = false := by
  simp only [amNotifyClientMmap, bind_eq_ok, assertThat_eq_ok, exists_const, Prod.exists,
    pure_eq_ok, Prod.mk.injEq] at h
  obtain ⟨-, -, -, -, d', hd, am₁, seg, hseg, am₂, hadd, rfl, rfl⟩ := h
  have hdis := discardOf hwf ha hl hd
  refine ⟨hdis, seg, ?_⟩
  cases hf : mapAnonymous flags with
  | true =>
    simp only [hf, if_true, pure_eq_ok, Prod.mk.injEq] at hseg
    obtain ⟨rfl, rfl⟩ := hseg
    exact ⟨addSegment_added' hwf lastByte_lt hadd, rfl, hdis.last, rfl, rfl⟩
  | false =>
    simp only [hf, Bool.false_eq_true, if_false] at hseg
    obtain ⟨names, dev, ino, mode, k, rfl, hg, rfl⟩ := attachFile_spec hseg
    exact ⟨addSegment_added hwf hg lastByte_lt hadd, rfl, hdis.last, rfl, rfl⟩

theorem amNotifyClientShmat_spec (hwf : Wf am.segnames am.nsegments) (ha : a < wordMod)
    (hl : len < wordMod) {prot : Nat} {d : Bool}
    (h : amNotifyClientShmat am a len prot = .ok (am', d)) :
    DiscardOf am a len d ∧ ∃ seg, Added am seg am' ∧ seg.start = a ∧ seg.end_ = a + len - 1 ∧
      seg.kind = .skShmC := by
  simp only [amNotifyClientShmat, bind_eq_ok, assertThat_eq_ok, exists_const,
    pure_eq_ok, Prod.mk.injEq] at h
  obtain ⟨-, -, -, d', hd, am₁, hadd, rfl, rfl⟩ := h
  have hdis := discardOf hwf ha hl hd
  exact ⟨hdis, _, addSegment_added' hwf lastByte_lt hadd, rfl, hdis.last, rfl⟩

theorem amNotifyMunmap_spec (hwf : Wf am.segnames am.nsegments) (hs : start < wordMod)
    (hl : len < wordMod) {d : Bool} (h : amNotifyMunmap am start len = .ok (am', d)) :
    (len = 0 ∧ am' = am ∧ d = false) ∨
    (DiscardOf am start len d ∧ ∃ seg, Added am seg am' ∧ seg.start = start ∧
      seg.end_ = start + len - 1 ∧ seg.kind = unmapKind am start (start + len - 1)) := by
  simp only [amNotifyMunmap, bind_eq_ok, assertThat_eq_ok, exists_const] at h
  obtain ⟨-, -, h⟩ := h
  by_cases h0 : len = 0
  · rw [if_pos h0, pure_eq_ok, Prod.mk.injEq] at h
    exact .inl ⟨h0, h.1.symm, h.2.symm⟩
  · rw [if_neg h0] at h
    simp only [bind_eq_ok, pure_eq_ok, Prod.mk.injEq] at h
    obtain ⟨d', hd, am₁, hadd, rfl, rfl⟩ := h
    have hdis := discardOf hwf hs hl hd
    refine .inr ⟨hdis, _, addSegment_added' hwf lastByte_lt hadd, rfl, hdis.last, ?_⟩
    simp only [hdis.last]

theorem amMunmapBothWrk_spec (hwf : Wf am.segnames am.nsegments) (hs : start < wordMod)
    {forClient : Bool} {kres r : SysRes} {d : Option Bool}
    (h : amMunmapBothWrk am start len forClient kres = .ok (am', r, d)) :
    (am' = am ∧ d.getD false = false) ∨
    (DiscardOf am start (pgRoundUp len) (d.getD false) ∧ ∃ seg, Added am seg am' ∧
      seg.start = start ∧ seg.end_ = start + pgRoundUp len - 1 ∧
      seg.kind = unmapKind am start (start + pgRoundUp len - 1)) := by
  unfold amMunmapBothWrk at h
  split at h
  case isTrue =>
    simp only [pure_eq_ok, Prod.mk.injEq] at h
    obtain ⟨rfl, -, rfl⟩ := h
    exact .inl ⟨rfl, rfl⟩
  split at h
  case isTrue =>
    simp only [pure_eq_ok, Prod.mk.injEq] at h
    obtain ⟨rfl, -, rfl⟩ := h
    exact .inl ⟨rfl, rfl⟩
  split at h
  case isTrue =>
    simp only [pure_eq_ok, Prod.mk.injEq] at h
    obtain ⟨rfl, -, rfl⟩ := h
    exact .inl ⟨rfl, rfl⟩
  simp only [bind_eq_ok, assertThat_eq_ok, exists_const] at h
  obtain ⟨-, -, valid, -, h⟩ := h
  split at h
  case isTrue =>
    simp only [pure_eq_ok, Prod.mk.injEq] at h
    obtain ⟨rfl, -, rfl⟩ := h
    exact .inl ⟨rfl, rfl⟩
  simp only [bind_eq_ok] at h
  obtain ⟨d', hd, h⟩ := h
  cases kres with
  | error e =>
    simp only [pure_eq_ok, Prod.mk.injEq] at h
    obtain ⟨rfl, -, rfl⟩ := h
    exact .inl ⟨rfl, rfl⟩
  | success res =>
    simp only [bind_eq_ok, Prod.exists, pure_eq_ok, Prod.mk.injEq] at h
    obtain ⟨am₁, d₁, hmun, rfl, -, rfl⟩ := h
    have hlt : pgRoundUp len < wordMod :=
      lt_of_le_of_lt (roundDn_le _ _) (addW_lt _ _)
    have hdis := discardOf hwf hs hlt hd
    -- the range is not empty, or the discard test would have failed
    obtain ⟨h0, -, -⟩ | ⟨-, seg, hadd, h₁, h₂, h₃⟩ := amNotifyMunmap_spec hwf hs hlt hmun
    · have := hdis.pos
      omega
    · exact .inr ⟨hdis, seg, hadd, h₁, h₂, h₃⟩

/-- A mapping made through the advisor is not made at all, or recorded at the
advised address. -/
theorem mmapAdvised_spec (hwf : Wf am.segnames am.nsegments) {req : MapRequest}
    {forClient : Bool} {kres r : SysRes} {fd : Option FdInfo}
    (h : mmapAdvised am req forClient kres fd seg = .ok (am', r)) :
    (am' = am ∧ ∃ e, r = .error e) ∨
    ∃ advised seg', amGetAdvisory am req forClient = .ok (some advised) ∧
      r = .success advised ∧ Added am seg' am' ∧ seg'.start = advised ∧
      seg'.end_ = lastByte advised (pgRoundUp req.len) ∧ seg'.kind = seg.kind ∧
      seg'.isCH = seg.isCH ∧ seg'.hasR = seg.hasR ∧ seg'.hasW = seg.hasW ∧
      seg'.hasX = seg.hasX := by
  simp only [mmapAdvised, bind_eq_ok] at h
  obtain ⟨adv, hadv, h⟩ := h
  cases adv with
  | none =>
    simp only [pure_eq_ok, Prod.mk.injEq] at h
    exact .inl ⟨h.1.symm, _, h.2.symm⟩
  | some advised =>
    simp only at h
    split at h
    case isTrue =>
      simp only [pure_eq_ok, Prod.mk.injEq] at h
      exact .inl ⟨h.1.symm, _, h.2.symm⟩
    cases kres with
    | error e =>
      simp only [pure_eq_ok, Prod.mk.injEq] at h
      exact .inl ⟨h.1.symm, _, h.2.symm⟩
    | success res =>
      simp only at h
      split at h
      case isTrue =>
        simp only [pure_eq_ok, Prod.mk.injEq] at h
        exact .inl ⟨h.1.symm, _, h.2.symm⟩
      case isFalse hres =>
        obtain rfl : res = advised := not_not.mp hres
        simp only [bind_eq_ok, Prod.exists, pure_eq_ok, Prod.mk.injEq] at h
        obtain ⟨am₁, seg₁, hseg, am₂, hadd, rfl, rfl⟩ := h
        refine .inr ⟨res, seg₁, hadv, rfl, ?_⟩
        cases fd with
        | none =>
          simp only [pure_eq_ok, Prod.mk.injEq] at hseg
          obtain ⟨rfl, rfl⟩ := hseg
          exact ⟨addSegment_added' hwf lastByte_lt hadd, rfl, rfl, rfl, rfl, rfl, rfl, rfl⟩
        | some fd =>
          obtain ⟨names, dev, ino, mode, k, rfl, hg, rfl⟩ := attachFile_spec hseg
          exact ⟨addSegment_added hwf hg lastByte_lt hadd, rfl, rfl, rfl, rfl, rfl, rfl, rfl⟩

/-! ## Operations that edit segments in place -/

/-- An edit that keeps the extent and the sanity of every segment it is applied
to. -/
structure EditsInPlace (names : List SegName) (f : NSegment → NSegment) : Prop where
  start : ∀ s, (f s).start = s.start
  end_ : ∀ s, (f s).end_ = s.end_
  sane : ∀ s, Sane names s → Sane names (f s)

theorem EditsInPlace.tiled {f : NSegment → NSegment} {p e : Nat} (hf : EditsInPlace names f)
    (h : SegTiled p e segs) : SegTiled p e (segs.map f) := by
  induction segs generalizing p with
  | nil => exact h
  | cons s l ih =>
    obtain ⟨h₁, h₂, h₃⟩ := segTiled_cons.mp h
    rw [List.map_cons]
    exact segTiled_cons.mpr ⟨(hf.start s).trans h₁, by rwa [hf.end_], by rw [hf.end_]; exact ih h₃⟩

theorem EditsInPlace.segAt_map {f : NSegment → NSegment} (hf : EditsInPlace names f) :
    segAt (segs.map f) a = (segAt segs a).map f := by
  induction segs with
  | nil => rfl
  | cons s l ih =>
    rw [List.map_cons, segAt_cons, segAt_cons, hf.start, hf.end_, ih]
    split_ifs <;> rfl

/-- Editing the segments of a range: inside it every segment is edited, outside
nothing happens. -/
theorem EditsInPlace.range {pre mid post : List NSegment} {f : NSegment → NSegment}
    (hf : EditsInPlace names f) (hwf : Wf names segs) (hr : RangeOf lo hi segs pre mid post) :
    Wf names (pre ++ mid.map f ++ post) ∧
      ∀ x, segAt (pre ++ mid.map f ++ post) x =
        (segAt segs x).map fun s => if lo ≤ x ∧ x ≤ hi then f s else s := by
  have hsane : ∀ s ∈ mid.map f, Sane names s := by
    intro s hs
    obtain ⟨t, ht, rfl⟩ := List.mem_map.mp hs
    exact hf.sane t (hwf.sane t (by simp [hr.eq, ht]))
  obtain ⟨hwf', hr'⟩ := hr.replace hwf (hf.tiled hr.mid_tiled) hsane
  refine ⟨hwf', fun x => ?_⟩
  by_cases hx : lo ≤ x ∧ x ≤ hi
  · rw [hr'.segAt_mid hx, hr.segAt_mid hx, hf.segAt_map]
    simp only [if_pos hx]
  · rw [hr'.segAt_out hx, hr.segAt_out hx]
    simp only [if_neg hx, Option.map_id']

/-- How an edit of segments reads on the page map: `g` on the attributes of the
pages of `[lo, hi]`, and no `hasT` bit lost. -/
structure Edited (am : Aspacem) (lo hi : Nat) (g : PageAttrs → PageAttrs) (am' : Aspacem) :
    Prop where
  inv : ArrayInv am'
  map : ∀ x, pageMap am'.nsegments x =
    (pageMap am.nsegments x).map fun p => if lo ≤ x ∧ x ≤ hi then g p else p
  hasT : ∀ x, pageT am.nsegments x = true → pageT am'.nsegments x = true
  limits : SameLimits am am'

/-- **Splitting, editing and preening**, the scheme of `mprotect` and of the
change of ownership. -/
theorem editRange_spec {pre mid post : List NSegment} {f : NSegment → NSegment}
    {g : PageAttrs → PageAttrs} (hsp : SplitOf am.segnames am.nsegments segs)
    (hr : RangeOf lo hi segs pre mid post) (hf : EditsInPlace am.segnames f)
    (hT : ∀ s, (f s).hasT = s.hasT) (hg : ∀ s x, (f s).attrsAt x = g (s.attrsAt x))
    (h : preenNsegments { am with nsegments := pre ++ mid.map f ++ post } = .ok am') :
    Edited am lo hi g am' := by
  obtain ⟨hwf', hat⟩ := hf.range hsp.wf hr
  obtain ⟨segs', names', hpre, hof⟩ := preenNsegments_spec
    { am with nsegments := pre ++ mid.map f ++ post } hwf'
  rw [hpre, Except.ok.injEq] at h
  subst h
  refine ⟨⟨hof.wf, noAdjFree_of_preened hof.tiled le_rfl hof.preened⟩, fun x => ?_,
    fun x hx => ?_, ⟨rfl, rfl, rfl, rfl⟩⟩
  · rw [hof.map, ← hsp.map, pageMap, hat, pageMap, Option.map_map, Option.map_map]
    congr 1
    funext s
    simp only [Function.comp_apply]
    split_ifs with hx
    · exact hg s x
    · rfl
  · refine hof.hasT x ?_
    rw [← hsp.hasT, pageT] at hx
    rw [pageT, hat, Option.map_map]
    rw [← hx]
    congr 2
    funext s
    simp only [Function.comp_apply]
    split_ifs
    · exact hT s
    · rfl

/-- The effect of `mprotect` on the attributes of a page. -/
def PageAttrs.protect (p : PageAttrs) (prot : Nat) : PageAttrs :=
  match p.kind with
  | .skFree | .skResvn => p
  | _ => { p with hasR := protR prot, hasW := protW prot, hasX := protX prot }

theorem editsInPlace_protect (prot : Nat) : EditsInPlace names (·.protect prot) := by
  refine ⟨fun s => ?_, fun s => ?_, fun s hs => ?_⟩
  · unfold NSegment.protect
    split <;> rfl
  · unfold NSegment.protect
    split <;> rfl
  · cases hk : s.kind <;> simp_all [NSegment.protect, Sane, saneNSegment]

omit [Machine] in
theorem NSegment.protect_attrsAt (s : NSegment) (prot x : Nat) :
    (s.protect prot).attrsAt x = (s.attrsAt x).protect prot := by
  cases hk : s.kind <;> simp [NSegment.protect, PageAttrs.protect, NSegment.attrsAt, hk]

omit [Machine] in
theorem NSegment.protect_hasT (s : NSegment) (prot : Nat) : (s.protect prot).hasT = s.hasT := by
  unfold NSegment.protect
  split <;> rfl

theorem amNotifyMprotect_spec (hwf : Wf am.segnames am.nsegments) (hs : start < wordMod)
    (hl : len < wordMod) {prot : Nat} {d : Bool}
    (h : amNotifyMprotect am start len prot = .ok (am', d)) :
    (len = 0 ∧ am' = am ∧ d = false) ∨
    ∃ d', DiscardOf am start len d' ∧ d = (d' && !protX prot) ∧
      Edited am start (start + len - 1) (·.protect prot) am' := by
  simp only [amNotifyMprotect, bind_eq_ok, assertThat_eq_ok, exists_const] at h
  obtain ⟨-, -, h⟩ := h
  by_cases h0 : len = 0
  · rw [if_pos h0, pure_eq_ok, Prod.mk.injEq] at h
    exact .inl ⟨h0, h.1.symm, h.2.symm⟩
  · rw [if_neg h0] at h
    simp only [bind_eq_ok, Prod.exists, assertThat_eq_ok, exists_const, pure_eq_ok,
      Prod.mk.injEq] at h
    obtain ⟨d', hd, am₁, iLo, iHi, hsplit, i, hi, j, hj, -, am₂, hpre, rfl, rfl⟩ := h
    have hdis := discardOf hwf hs hl hd
    rw [hdis.last] at hsplit hj
    obtain ⟨segs, rfl, hsp, hi', hj', hr⟩ :=
      splitNsegmentsLoAndHi_spec hwf (by have := hdis.nowrap; omega) hsplit
    -- the indices found again are those the split returned
    obtain rfl : iLo = i := Except.ok.inj (hi'.symm.trans hi)
    obtain rfl : iHi = j := Except.ok.inj (hj'.symm.trans hj)
    exact .inr ⟨d', hdis, rfl, editRange_spec hsp hr (editsInPlace_protect prot)
      (·.protect_hasT prot) (fun s x => s.protect_attrsAt prot x) hpre⟩

/-- The kind of a segment of Valgrind's that is handed to the client. -/
def SegKind.toClient : SegKind → SegKind
  | .skFileV => .skFileC
  | .skAnonV => .skAnonC
  | k => k

theorem editsInPlace_toClient :
    EditsInPlace names fun s => { s with kind := s.kind.toClient } := by
  refine ⟨fun _ => rfl, fun _ => rfl, fun s hs => ?_⟩
  cases hk : s.kind <;> simp_all [SegKind.toClient, Sane, saneNSegment]

theorem amChangeOwnershipVToC_spec (hwf : Wf am.segnames am.nsegments) (hs : start < wordMod)
    (hl : len < wordMod) {r : Bool}
    (h : amChangeOwnershipVToC am start len = .ok (am', r)) :
    am' = am ∨ Edited am start (start + len - 1)
      (fun p => { p with kind := p.kind.toClient }) am' := by
  unfold amChangeOwnershipVToC at h
  split at h
  case isTrue =>
    rw [pure_eq_ok, Prod.mk.injEq] at h
    exact .inl h.1.symm
  case isFalse h0 =>
  split at h
  case isTrue =>
    rw [pure_eq_ok, Prod.mk.injEq] at h
    exact .inl h.1.symm
  case isFalse hw =>
  split at h
  case isTrue =>
    rw [pure_eq_ok, Prod.mk.injEq] at h
    exact .inl h.1.symm
  simp only [bind_eq_ok] at h
  obtain ⟨k, -, h⟩ := h
  split at h
  case isTrue =>
    rw [pure_eq_ok, Prod.mk.injEq] at h
    exact .inl h.1.symm
  split at h
  case isTrue =>
    rw [pure_eq_ok, Prod.mk.injEq] at h
    exact .inl h.1.symm
  simp only [bind_eq_ok, Prod.exists, assertThat_eq_ok, exists_const, pure_eq_ok,
    Prod.mk.injEq] at h
  obtain ⟨-, -, am₁, iLo, iHi, hsplit, rfl, s, hkind, am₂, hpre, rfl, -⟩ := h
  have hnw : start + len < wordMod := by
    by_contra hge
    exact hw ((addW_lt_self_iff hs hl).mpr (by omega))
  rw [lastByte_eq hnw (by omega)] at hsplit
  obtain ⟨segs, rfl, hsp, hi, hj, hr⟩ := splitNsegmentsLoAndHi_spec hwf (by omega) hsplit
  obtain ⟨hget, -, -⟩ := findNsegmentIdx_getElem? hsp.wf.tiled hs hi
  -- the range is the single entry found at both ends
  have hmid : (segs.take (iLo + 1)).drop iLo
      = [Aspacem.seg { am with nsegments := segs } iLo] := by
    simp only at hget
    rw [List.take_add_one, hget, Option.toList_some, List.drop_left']
    obtain ⟨hlt, -⟩ := List.getElem?_eq_some_iff.mp hget
    simp
    omega
  have hs' : s = { Aspacem.seg { am with nsegments := segs } iLo with
      kind := (Aspacem.seg { am with nsegments := segs } iLo).kind.toClient } := by
    split at hkind
    case h_1 hk => rw [← pure_eq_ok.mp hkind, hk]; rfl
    case h_2 hk => rw [← pure_eq_ok.mp hkind, hk]; rfl
    case h_3 => exact absurd hkind throw_eq_ok
  rw [hmid] at hr
  refine .inr (editRange_spec hsp hr editsInPlace_toClient (fun _ => rfl) (fun t x => ?_) ?_)
  · have hf : t.kind.toClient.isFile = t.kind.isFile := by cases t.kind <;> rfl
    simp only [NSegment.attrsAt, hf]
  · rw [List.map_singleton, ← hs', List.append_assoc]
    exact hpre

/-- Editing one entry of the array, without preening. -/
theorem editEntry_spec {f : NSegment → NSegment} {g : PageAttrs → PageAttrs}
    (hinv : ArrayInv am) (hi : i < am.nsegments.length) (hf : EditsInPlace am.segnames f)
    (hk : ∀ s, (f s).kind = s.kind) (hT : ∀ s, s.hasT = true → (f s).hasT = true)
    (hg : ∀ s x, (f s).attrsAt x = g (s.attrsAt x)) :
    Edited am (am.seg i).start (am.seg i).end_ g
        { am with nsegments := am.nsegments.set i (f (am.seg i)) } ∧
      ∀ x, (am.seg i).start ≤ x → x ≤ (am.seg i).end_ →
        pageT (am.nsegments.set i (f (am.seg i))) x = (f (am.seg i)).hasT := by
  have hget : am.nsegments[i]? = some (am.seg i) := by
    simp [Aspacem.seg, List.getD_eq_getElem?_getD, List.getElem?_eq_getElem hi]
  have hsplit : am.nsegments = am.nsegments.take i ++ am.seg i :: am.nsegments.drop (i + 1) := by
    obtain ⟨hlt, heq⟩ := List.getElem?_eq_some_iff.mp hget
    rw [← heq, List.getElem_cons_drop, List.take_append_drop]
  have hset : am.nsegments.set i (f (am.seg i))
      = am.nsegments.take i ++ [am.seg i].map f ++ am.nsegments.drop (i + 1) := by
    rw [List.set_eq_take_append_cons_drop, if_pos hi]
    simp
  obtain ⟨q, hpre, hs, hlt, hpost⟩ := tiled_append.mp (hsplit ▸ hinv.wf.tiled)
  have hr : RangeOf (am.seg i).start (am.seg i).end_ am.nsegments (am.nsegments.take i)
      [am.seg i] (am.nsegments.drop (i + 1)) := by
    refine ⟨by simpa using hsplit, hs ▸ hpre, ?_, hpost⟩
    exact segTiled_cons.mpr ⟨rfl, hs ▸ hlt, rfl⟩
  obtain ⟨hwf, hat⟩ := hf.range hinv.wf hr
  rw [← hset] at hwf hat
  have hkinds : (am.nsegments.set i (f (am.seg i))).map (·.kind)
      = am.nsegments.map (·.kind) := by
    rw [hset]
    conv_rhs => rw [hsplit]
    simp [hk]
  refine ⟨⟨⟨hwf, ?_⟩, fun x => ?_, fun x hx => ?_, ⟨rfl, rfl, rfl, rfl⟩⟩, fun x h₁ h₂ => ?_⟩
  · unfold NoAdjFree
    rw [hkinds]
    exact hinv.free
  · rw [pageMap, hat, pageMap, Option.map_map, Option.map_map]
    congr 1
    funext s
    simp only [Function.comp_apply]
    split_ifs with hx
    · exact hg s x
    · rfl
  · rw [pageT] at hx
    rw [pageT, hat, Option.map_map]
    cases hs : segAt am.nsegments x with
    | none => simp [hs] at hx
    | some s =>
      simp only [hs, Option.map_some, Option.getD_some, Function.comp_apply] at hx ⊢
      split_ifs
      · exact hT s hx
      · exact hx
  · have hloc := hinv.wf.tiled.locate_eq_some_iff.mpr
      (show am.seg i ∈ am.nsegments ∧ (am.seg i).start ≤ x ∧ x < (am.seg i).end_ + 1 from
        ⟨List.mem_of_getElem? hget, h₁, by omega⟩)
    rw [pageT, hat, segAt, hloc, Option.map_some, if_pos ⟨h₁, h₂⟩]
    rfl

omit [Machine] in
theorem segIndex_eq_ok {seg : Option Nat} (h : segIndex am seg = .ok i) :
    i < am.nsegments.length := by
  unfold segIndex at h
  split at h
  · exact nomatch h
  · split_ifs at h with hlt
    exact Except.ok.inj h ▸ hlt

/-- The entry that `VG_(am_set_segment_isCH_if_SkAnonC)` writes. -/
def NSegment.markCH (s : NSegment) : NSegment :=
  if s.kind = .skAnonC then { s with isCH := true } else s

/-- The entry that `VG_(am_set_segment_hasT_if_SkFileC_or_SkAnonC)` writes. -/
def NSegment.markT (s : NSegment) : NSegment :=
  if s.kind = .skAnonC ∨ s.kind = .skFileC then { s with hasT := true } else s

/-- The effect of marking client heap on the attributes of a page. -/
def PageAttrs.markCH (p : PageAttrs) : PageAttrs :=
  if p.kind = .skAnonC then { p with isCH := true } else p

theorem editsInPlace_markCH : EditsInPlace names NSegment.markCH := by
  refine ⟨fun s => ?_, fun s => ?_, fun s hs => ?_⟩ <;> unfold NSegment.markCH <;> split_ifs with hk
  · rfl
  · rfl
  · rfl
  · rfl
  · simp_all [Sane, saneNSegment]
  · exact hs

theorem editsInPlace_markT : EditsInPlace names NSegment.markT := by
  refine ⟨fun s => ?_, fun s => ?_, fun s hs => ?_⟩ <;> unfold NSegment.markT <;> split_ifs with hk
  · rfl
  · rfl
  · rfl
  · rfl
  · refine sane_setT hs fun hbare => ?_
    rcases hk with hk | hk <;> rcases hbare with hb | hb <;> exact nomatch hk.symm.trans hb
  · exact hs

omit [Machine] in
theorem seg_mem (hi : i < am.nsegments.length) : am.seg i ∈ am.nsegments := by
  unfold Aspacem.seg
  rw [List.getD_eq_getElem?_getD, List.getElem?_eq_getElem hi]
  exact List.getElem_mem hi

/-- What the array says about a page of the segment `seg`. -/
theorem segAt_of_mem (hwf : Wf names segs) (hmem : seg ∈ segs) (h₁ : seg.start ≤ a)
    (h₂ : a ≤ seg.end_) : segAt segs a = some seg :=
  hwf.tiled.locate_eq_some_iff.mpr ⟨hmem, h₁, Nat.lt_succ_of_le h₂⟩

/-- Marking client heap marks the pages of one segment, if it is anonymous. -/
theorem amSetSegmentIsCHIfSkAnonC_spec {ptr : Option Nat} (hinv : ArrayInv am)
    (h : amSetSegmentIsCHIfSkAnonC am ptr = .ok am') :
    ∃ i, segIndex am ptr = .ok i ∧
      Edited am (am.seg i).start (am.seg i).end_ PageAttrs.markCH am' := by
  simp only [amSetSegmentIsCHIfSkAnonC, bind_eq_ok] at h
  obtain ⟨i, hi, h⟩ := h
  refine ⟨i, hi, ?_⟩
  split at h
  case isTrue hk =>
    have hed := editEntry_spec (f := NSegment.markCH) (g := PageAttrs.markCH) hinv
      (segIndex_eq_ok hi) editsInPlace_markCH
      (fun s => by unfold NSegment.markCH; split_ifs <;> rfl)
      (fun s => by unfold NSegment.markCH; split_ifs <;> exact id)
      (fun s x => by
        unfold NSegment.markCH PageAttrs.markCH NSegment.attrsAt
        split_ifs <;> simp_all)
    unfold NSegment.markCH at hed
    rw [if_pos hk, pure_eq_ok.mp h] at hed
    exact hed.1
  case isFalse hk =>
    simp only [bind_eq_ok, pure_eq_ok] at h
    obtain ⟨-, -, rfl⟩ := h
    refine ⟨hinv, fun x => ?_, fun x hx => hx, SameLimits.refl am⟩
    by_cases hx : (am.seg i).start ≤ x ∧ x ≤ (am.seg i).end_
    · rw [pageMap, segAt_of_mem hinv.wf (seg_mem (segIndex_eq_ok hi)) hx.1 hx.2, Option.map_some,
        Option.map_some, if_pos hx]
      unfold PageAttrs.markCH
      rw [if_neg (show ¬ ((am.seg i).attrsAt x).kind = .skAnonC from hk)]
    · simp only [if_neg hx, Option.map_id']

theorem amSetSegmentHasT_spec {ptr : Option Nat} (hinv : ArrayInv am)
    (h : amSetSegmentHasTIfSkFileCOrSkAnonC am ptr = .ok am') :
    ∃ i, segIndex am ptr = .ok i ∧ Edited am (am.seg i).start (am.seg i).end_ id am' ∧
      ((am.seg i).kind = .skAnonC ∨ (am.seg i).kind = .skFileC →
        ∀ x, (am.seg i).start ≤ x → x ≤ (am.seg i).end_ → pageT am'.nsegments x = true) := by
  simp only [amSetSegmentHasTIfSkFileCOrSkAnonC, bind_eq_ok] at h
  obtain ⟨i, hi, h⟩ := h
  refine ⟨i, hi, ?_⟩
  split at h
  case isTrue hk =>
    have hed := editEntry_spec (f := NSegment.markT) (g := id) hinv (segIndex_eq_ok hi)
      editsInPlace_markT
      (fun s => by unfold NSegment.markT; split_ifs <;> rfl)
      (fun s hs => by unfold NSegment.markT; split_ifs <;> first | rfl | exact hs)
      (fun s x => by unfold NSegment.markT; split_ifs <;> rfl)
    unfold NSegment.markT at hed
    rw [if_pos hk] at hed
    rw [← pure_eq_ok.mp h]
    exact ⟨hed.1, fun _ x h₁ h₂ => hed.2 x h₁ h₂⟩
  case isFalse hk =>
    obtain rfl : am = am' := pure_eq_ok.mp h
    exact ⟨⟨hinv, fun x => by simp, fun x hx => hx, SameLimits.refl am⟩, fun h => absurd h hk⟩

/-! ## Reservations -/

theorem addSW_lt (x : Nat) (extra : Int) : addSW x extra < wordMod := by
  unfold addSW
  have hpos := wordMod_pos
  have := Int.emod_lt_of_pos (x + extra) (show (0 : Int) < wordMod by omega)
  have := Int.emod_nonneg (x + extra) (show (wordMod : Int) ≠ 0 by omega)
  omega

/-- The free segment that a reservation was granted in, and what was written. -/
theorem amCreateReservation_spec (hwf : Wf am.segnames am.nsegments) (hs : start < wordMod)
    {length : Nat} {smode : ShrinkMode} {extra : Int} {r : Bool}
    (h : amCreateReservation am start length smode extra = .ok (am', r)) :
    am' = am ∨ ∃ seg hole, Added am seg am' ∧ seg.kind = .skResvn ∧ seg.start = start ∧
      seg.end_ = lastByte start length ∧ hole ∈ am.nsegments ∧ hole.kind = .skFree ∧
      hole.start ≤ (if extra < 0 then addSW start extra else start) ∧
      (if 0 < extra then addSW seg.end_ extra else seg.end_) ≤ hole.end_ := by
  simp only [amCreateReservation, bind_eq_ok, assertThat_eq_ok, exists_const] at h
  obtain ⟨-, -, -, -, i, hi, j, hj, h⟩ := h
  split at h
  case isTrue =>
    rw [pure_eq_ok, Prod.mk.injEq] at h
    exact .inl h.1.symm
  split at h
  case isTrue =>
    rw [pure_eq_ok, Prod.mk.injEq] at h
    exact .inl h.1.symm
  case isFalse hk =>
    simp only [bind_eq_ok, assertThat_eq_ok, exists_const, pure_eq_ok, Prod.mk.injEq] at h
    obtain ⟨h₁, h₂, am₁, hadd, rfl, -⟩ := h
    have hlt : (if extra < 0 then addSW start extra else start) < wordMod := by
      split_ifs
      · exact addSW_lt _ _
      · exact hs
    obtain ⟨hget, -, -⟩ := findNsegmentIdx_getElem? hwf.tiled hlt hi
    exact .inr ⟨_, am.seg i, addSegment_added' hwf lastByte_lt hadd, rfl, rfl, rfl,
      List.mem_of_getElem? hget, not_not.mp hk, h₁, h₂⟩

/-- Pages `[lo, hi]` have been taken into the existing segment `s`. -/
structure Grown (am : Aspacem) (lo hi : Nat) (s : NSegment) (am' : Aspacem) : Prop where
  inv : ArrayInv am'
  map : ∀ x, pageMap am'.nsegments x =
    if lo ≤ x ∧ x ≤ hi then some (s.attrsAt x) else pageMap am.nsegments x
  hasT : ∀ x, pageT am.nsegments x = true → pageT am'.nsegments x = true
  bare : ∀ x, lo ≤ x → x ≤ hi → pageT am.nsegments x = false
  limits : SameLimits am am'

/-- In `segs` the address `m` separates `x` from `y`; around them nothing differs
from `am`. -/
structure SeamAt (am : Aspacem) (x y : NSegment) (m : Nat) (segs : List NSegment) : Prop where
  left : ∀ p, x.start ≤ p → p < m →
    pageMap segs p = some (x.attrsAt p) ∧ pageT segs p = x.hasT
  right : ∀ p, m ≤ p → p ≤ y.end_ →
    pageMap segs p = some (y.attrsAt p) ∧ pageT segs p = y.hasT
  out : ∀ p, ¬ (x.start ≤ p ∧ p ≤ y.end_) →
    pageMap segs p = pageMap am.nsegments p ∧ pageT segs p = pageT am.nsegments p

/-- Moving the seam between two neighbours, neither of which maps a file. -/
theorem moveSeam {L R : List NSegment} {x y : NSegment} {m : Nat} (hinv : ArrayInv am)
    (hseg : am.nsegments = L ++ x :: y :: R) (hm : isPageAligned m) (h₁ : x.start < m)
    (h₂ : m ≤ y.end_) (hx : x.kind.isFile = false) (hy : y.kind.isFile = false) :
    let segs := L ++ { x with end_ := m - 1 } :: { y with start := m } :: R
    ArrayInv { am with nsegments := segs } ∧ SeamAt am x y m segs := by
  intro segs
  have hwf := hinv.wf
  have hsx := hwf.sane x (by simp [hseg])
  have hsy := hwf.sane y (by simp [hseg])
  have ht := hwf.tiled
  rw [hseg] at ht
  obtain ⟨q, hL, hxs, hxl, hys, hyl, hR⟩ := tiled_append.mp ht
  have hpage : 2 ≤ pageSzB := by rcases page_ok with h | h <;> omega
  have hroom₁ := hsx.start_aligned.add_le hm h₁
  have hroom₂ := hm.add_le hsy.end_aligned (by omega)
  have hr : RangeOf x.start y.end_ am.nsegments L [x, y] R :=
    ⟨by simpa using hseg, hxs ▸ hL, ⟨rfl, hxs ▸ hxl, hys, hyl, rfl⟩, hR⟩
  have hmid : SegTiled x.start (y.end_ + 1) [{ x with end_ := m - 1 }, { y with start := m }] :=
    ⟨rfl, by simp only; omega, by simp only; omega, by simp only; omega, rfl⟩
  obtain ⟨hwf', hr'⟩ := hr.replace hwf hmid (fun s hs => by
    rcases List.mem_cons.mp hs with rfl | hs
    · exact sane_resize hsx (by omega) hsx.start_aligned
        (by rwa [Nat.sub_add_cancel (by omega)]) (fun _ => rfl)
    · rw [List.mem_singleton.mp hs]
      exact sane_resize hsy (by omega) hm hsy.end_aligned (fun _ => rfl))
  have hsegs : L ++ [{ x with end_ := m - 1 }, { y with start := m }] ++ R = segs := by
    simp [segs]
  rw [hsegs] at hwf' hr'
  refine ⟨⟨hwf', ?_⟩, fun p h₁ h₂ => ?_, fun p h₁ h₂ => ?_, fun p hp => ?_⟩
  · have := hinv.free
    rw [hseg] at this
    simpa [NoAdjFree, segs] using this
  · have hat := hr'.segAt_mid ⟨h₁, by omega⟩
    rw [segAt_cons, if_pos ⟨h₁, by simp only; omega⟩] at hat
    rw [pageMap, pageT, hat]
    simp [NSegment.attrsAt, hx]
  · have hat := hr'.segAt_mid ⟨by omega, h₂⟩
    rw [segAt_cons, segAt_cons, if_neg (by simp only; omega), if_pos ⟨h₁, by simp only; omega⟩]
      at hat
    rw [pageMap, pageT, hat]
    simp [NSegment.attrsAt, hy]
  · rw [pageMap, pageT, pageMap, pageT, hr'.segAt_out hp, hr.segAt_out hp]
    exact ⟨rfl, rfl⟩

/-- Moving the seam to the right lets the left neighbour grow into pages that had
no `hasT` bit; moving it to the left lets the right neighbour grow. -/
theorem moveSeam_grown {L R : List NSegment} {x y : NSegment} {m : Nat} (hinv : ArrayInv am)
    (hseg : am.nsegments = L ++ x :: y :: R) (hm : isPageAligned m) (h₁ : x.start < m)
    (h₂ : m ≤ y.end_) (hx : x.kind.isFile = false) (hy : y.kind.isFile = false) :
    let am' := { am with
      nsegments := L ++ { x with end_ := m - 1 } :: { y with start := m } :: R }
    (y.start ≤ m → y.hasT = false → Grown am y.start (m - 1) x am') ∧
      (m ≤ y.start → x.hasT = false → Grown am m (y.start - 1) y am') := by
  intro am'
  have ht := hinv.wf.tiled
  have hsx := hinv.wf.sane x (by simp [hseg])
  have hsy := hinv.wf.sane y (by simp [hseg])
  have hxl := hsx.lt
  have hyl := hsy.lt
  rw [hseg] at ht
  obtain ⟨q, -, -, -, hys, -, -⟩ := tiled_append.mp ht
  simp only at hys
  obtain ⟨hinv', hnew⟩ := moveSeam hinv hseg hm h₁ h₂ hx hy
  -- the map before is the case where the seam stays where it is
  have hold := (moveSeam hinv hseg hsy.start_aligned (by omega) (by omega) hx hy).2
  have hsame : L ++ { x with end_ := y.start - 1 } :: { y with start := y.start } :: R
      = am.nsegments := by
    rw [hseg, show y.start - 1 = x.end_ by omega]
  rw [hsame] at hold
  have hlim : SameLimits am am' := ⟨rfl, rfl, rfl, rfl⟩
  constructor
  · intro hle hT
    have hcase : ∀ p, pageMap am'.nsegments p =
        (if y.start ≤ p ∧ p ≤ m - 1 then some (x.attrsAt p) else pageMap am.nsegments p) ∧
        (pageT am.nsegments p = true → pageT am'.nsegments p = true) := by
      intro p
      by_cases hp : x.start ≤ p ∧ p ≤ y.end_
      · rcases Nat.lt_or_ge p y.start with hlt | hge
        · obtain ⟨ho, hoT⟩ := hold.left p hp.1 hlt
          obtain ⟨hn, hnT⟩ := hnew.left p hp.1 (by omega)
          rw [if_neg (by omega), hn, hnT, ho, hoT]
          exact ⟨rfl, id⟩
        · obtain ⟨ho, hoT⟩ := hold.right p hge hp.2
          rcases Nat.lt_or_ge p m with hlt | hgem
          · obtain ⟨hn, hnT⟩ := hnew.left p hp.1 hlt
            rw [if_pos (by omega), hoT, hT]
            exact ⟨hn, fun h => nomatch h⟩
          · obtain ⟨hn, hnT⟩ := hnew.right p hgem hp.2
            rw [if_neg (by omega), ho, hoT, hnT]
            exact ⟨hn, id⟩
      · obtain ⟨hn, hnT⟩ := hnew.out p hp
        rw [if_neg (by omega), hnT]
        exact ⟨hn, id⟩
    exact ⟨hinv', fun p => (hcase p).1, fun p => (hcase p).2,
      fun p h h' => (hold.right p h (by omega)).2.trans hT, hlim⟩
  · intro hle hT
    have hcase : ∀ p, pageMap am'.nsegments p =
        (if m ≤ p ∧ p ≤ y.start - 1 then some (y.attrsAt p) else pageMap am.nsegments p) ∧
        (pageT am.nsegments p = true → pageT am'.nsegments p = true) := by
      intro p
      by_cases hp : x.start ≤ p ∧ p ≤ y.end_
      · rcases Nat.lt_or_ge p y.start with hlt | hge
        · obtain ⟨ho, hoT⟩ := hold.left p hp.1 hlt
          rcases Nat.lt_or_ge p m with hltm | hgem
          · obtain ⟨hn, hnT⟩ := hnew.left p hp.1 hltm
            rw [if_neg (by omega), ho, hoT, hnT]
            exact ⟨hn, id⟩
          · obtain ⟨hn, hnT⟩ := hnew.right p hgem hp.2
            rw [if_pos (by omega), hoT, hT]
            exact ⟨hn, fun h => nomatch h⟩
        · obtain ⟨ho, hoT⟩ := hold.right p hge hp.2
          obtain ⟨hn, hnT⟩ := hnew.right p (by omega) hp.2
          rw [if_neg (by omega), hn, hnT, ho, hoT]
          exact ⟨rfl, id⟩
      · obtain ⟨hn, hnT⟩ := hnew.out p hp
        rw [if_neg (by omega), hnT]
        exact ⟨hn, id⟩
    exact ⟨hinv', fun p => (hcase p).1, fun p => (hcase p).2,
      fun p h h' => (hold.left p (by omega) (by omega)).2.trans hT, hlim⟩

omit [Machine] in
/-- Two neighbouring entries and what is around them. -/
theorem exists_two_entries (hi : i + 1 < am.nsegments.length) :
    ∃ L R, am.nsegments = L ++ am.seg i :: am.seg (i + 1) :: R ∧ L.length = i := by
  refine ⟨am.nsegments.take i, am.nsegments.drop (i + 2), ?_, by simp; omega⟩
  have h₁ : am.seg i = am.nsegments[i] := by
    simp [Aspacem.seg, List.getD_eq_getElem?_getD, List.getElem?_eq_getElem (Nat.lt_of_succ_lt hi)]
  have h₂ : am.seg (i + 1) = am.nsegments[i + 1] := by
    simp [Aspacem.seg, List.getD_eq_getElem?_getD, List.getElem?_eq_getElem hi]
  rw [h₁, h₂, List.getElem_cons_drop, List.getElem_cons_drop, List.take_append_drop]

theorem extendForwards_spec (hinv : ArrayInv am) {delta : Nat} {kres : SysRes} {r : Bool}
    (hA : (am.seg i).kind = .skAnonC) (hd : isPageAligned delta) (hpos : 0 < delta)
    (hdw : 2 * delta ≤ wordMod) (h : extendForwards am i delta kres = .ok (am', r)) :
    am' = am ∨ ∃ lo hi, Grown am lo hi (am.seg i) am' := by
  simp only [extendForwards] at h
  split at h
  case isTrue =>
    rw [pure_eq_ok, Prod.mk.injEq] at h
    exact .inl h.1.symm
  case isFalse hg =>
  push Not at hg
  obtain ⟨hlen, hk, -, hseam, hsize⟩ := hg
  cases kres with
  | error e =>
    rw [pure_eq_ok, Prod.mk.injEq] at h
    exact .inl h.1.symm
  | success res =>
  simp only at h
  split at h
  case isTrue =>
    rw [pure_eq_ok, Prod.mk.injEq] at h
    exact .inl h.1.symm
  simp only [bind_eq_ok, assertThat_eq_ok, exists_const, pure_eq_ok, Prod.mk.injEq] at h
  obtain ⟨hle, rfl, -⟩ := h
  obtain ⟨L, R, hseg, hL⟩ := exists_two_entries (by omega)
  generalize ha : am.seg i = a at *
  generalize hr : am.seg (i + 1) = r' at *
  have hsa := hinv.wf.sane a (by simp [hseg])
  have hsr := hinv.wf.sane r' (by simp [hseg])
  have ht := hinv.wf.tiled
  rw [hseg] at ht
  obtain ⟨q, -, hq, hql, hrs, hrl, hR⟩ := tiled_append.mp ht
  simp only at hrs
  have hre := Tiled.le hR
  simp only at hre
  have hpage := pageSzB_lt_wordMod
  have hal := hsa.lt
  have hrl' := hsr.lt
  -- a whole page of the reservation stays behind
  have hsz : r'.size = r'.end_ - r'.start + 1 := by
    unfold NSegment.size
    rw [subW_of_le (by omega) (by omega), addW_of_lt (by omega)]
  rw [hsz, addW_of_lt (by omega)] at hsize
  have hpp := pageSzB_pos
  have haw : addW r'.start delta = r'.start + delta := addW_of_lt (by omega)
  have hae : addW a.end_ delta = a.end_ + delta := addW_of_lt (by omega)
  have hm : isPageAligned (r'.start + delta) := hsr.start_aligned.add hd
  have hset : (am.nsegments.set (i + 1) { r' with start := r'.start + delta }).set i
        { a with end_ := a.end_ + delta }
      = L ++ { a with end_ := r'.start + delta - 1 } :: { r' with start := r'.start + delta } :: R := by
    have : a.end_ + delta = r'.start + delta - 1 := by omega
    rw [hseg, ← hL, this]
    simp
  refine .inr ⟨r'.start, r'.start + delta - 1, ?_⟩
  rw [haw, hae, hset]
  exact (moveSeam_grown hinv hseg hm (by omega) (by omega) (by rw [hA]; rfl)
    (by rw [hk]; rfl)).1 (by omega) (hsr.bare (.inr hk)).2.2.2.1

theorem extendBackwards_spec (hinv : ArrayInv am) {delta : Nat} {kres : SysRes} {r : Bool}
    (hi : i < am.nsegments.length) (hA : (am.seg i).kind = .skAnonC) (hd : isPageAligned delta)
    (hpos : 0 < delta) (hdw : 2 * delta ≤ wordMod)
    (h : extendBackwards am i delta kres = .ok (am', r)) :
    am' = am ∨ ∃ lo hi, Grown am lo hi (am.seg i) am' := by
  simp only [extendBackwards] at h
  split at h
  case isTrue =>
    rw [pure_eq_ok, Prod.mk.injEq] at h
    exact .inl h.1.symm
  case isFalse hg =>
  push Not at hg
  obtain ⟨hi0, hk, -, hseam, hsize⟩ := hg
  cases kres with
  | error e =>
    rw [pure_eq_ok, Prod.mk.injEq] at h
    exact .inl h.1.symm
  | success res =>
  simp only at h
  split at h
  case isTrue =>
    rw [pure_eq_ok, Prod.mk.injEq] at h
    exact .inl h.1.symm
  simp only [bind_eq_ok, assertThat_eq_ok, exists_const, pure_eq_ok, Prod.mk.injEq] at h
  obtain ⟨hle, rfl, -⟩ := h
  obtain ⟨k, rfl⟩ : ∃ k, i = k + 1 := ⟨i - 1, by omega⟩
  simp only [Nat.add_sub_cancel] at *
  obtain ⟨L, R, hseg, hL⟩ := exists_two_entries hi
  generalize ha : am.seg (k + 1) = a at *
  generalize hr : am.seg k = r' at *
  have hsa := hinv.wf.sane a (by simp [hseg])
  have hsr := hinv.wf.sane r' (by simp [hseg])
  have ht := hinv.wf.tiled
  rw [hseg] at ht
  obtain ⟨q, -, hq, hql, has, hal, hR⟩ := tiled_append.mp ht
  simp only at has
  have hre := Tiled.le hR
  simp only at hre
  have hpage := pageSzB_lt_wordMod
  have hal' := hsa.lt
  have hrl := hsr.lt
  have hsz : r'.size = r'.end_ - r'.start + 1 := by
    unfold NSegment.size
    rw [subW_of_le (by omega) (by omega), addW_of_lt (by omega)]
  rw [hsz, addW_of_lt (by omega)] at hsize
  have hpp := pageSzB_pos
  have hrw : subW r'.end_ delta = r'.end_ - delta := subW_of_le (by omega) (by omega)
  have haw : subW a.start delta = a.start - delta := subW_of_le (by omega) (by omega)
  have hm : isPageAligned (a.start - delta) :=
    isPageAligned_iff.mpr (Nat.dvd_sub (isPageAligned_iff.mp hsa.start_aligned)
      (isPageAligned_iff.mp hd))
  have hset : (am.nsegments.set k { r' with end_ := r'.end_ - delta }).set (k + 1)
        { a with start := a.start - delta }
      = L ++ { r' with end_ := a.start - delta - 1 } :: { a with start := a.start - delta } :: R := by
    have : r'.end_ - delta = a.start - delta - 1 := by omega
    rw [hseg, ← hL, this]
    simp
  refine .inr ⟨a.start - delta, a.start - 1, ?_⟩
  rw [hrw, haw, hset]
  exact (moveSeam_grown hinv hseg hm (by omega) (by omega) (by rw [hk]; rfl)
    (by rw [hA]; rfl)).2 (by omega) (hsr.bare (.inr hk)).2.2.2.1

theorem amExtendIntoAdjacentReservationClient_spec (hinv : ArrayInv am) {ptr : Option Nat}
    {delta : Int} {kres : SysRes} {r : Bool} (hdw : 2 * delta.natAbs ≤ wordMod)
    (h : amExtendIntoAdjacentReservationClient am ptr delta kres = .ok (am', r)) :
    am' = am ∨ ∃ lo hi s, Grown am lo hi s am' ∧ s.kind = .skAnonC := by
  simp only [amExtendIntoAdjacentReservationClient, bind_eq_ok] at h
  obtain ⟨i, hi, h⟩ := h
  split at h
  case isTrue =>
    rw [pure_eq_ok, Prod.mk.injEq] at h
    exact .inl h.1.symm
  case isFalse hk =>
  split at h
  case isTrue =>
    rw [pure_eq_ok, Prod.mk.injEq] at h
    exact .inl h.1.symm
  case isFalse h0 =>
  simp only [bind_eq_ok, assertThat_eq_ok, exists_const] at h
  obtain ⟨hal, h⟩ := h
  have hA := not_not.mp hk
  have hpos : 0 < delta.natAbs := by omega
  split at h
  case isTrue =>
    obtain h | ⟨lo, hi', hg⟩ := extendForwards_spec hinv hA hal hpos hdw h
    · exact .inl h
    · exact .inr ⟨lo, hi', _, hg, hA⟩
  case isFalse =>
    simp only [bind_eq_ok, assertThat_eq_ok, exists_const] at h
    obtain h | ⟨lo, hi', hg⟩ :=
      extendBackwards_spec hinv (segIndex_eq_ok hi) hA hal hpos hdw h.2
    · exact .inl h
    · exact .inr ⟨lo, hi', _, hg, hA⟩

/-! ## Resizing and moving -/

theorem amExtendMapClient_spec (hwf : Wf am.segnames am.nsegments) {delta : Nat}
    (hdl : delta < wordMod) {kres : SysRes} {r : Bool} {d : Option Bool}
    (h : amExtendMapClient am i delta kres = .ok (am', r, d)) :
    (am' = am ∧ d.getD false = false) ∨
    (DiscardOf am (addW (am.seg i).end_ 1) delta (d.getD false) ∧
      am.seg i ∈ am.nsegments ∧ ((am.seg i).kind = .skFileC ∨ (am.seg i).kind = .skAnonC) ∧
      Added am { am.seg i with end_ := addW (am.seg i).end_ delta } am') := by
  simp only [amExtendMapClient] at h
  split at h
  case isTrue =>
    simp only [pure_eq_ok, Prod.mk.injEq] at h
    obtain ⟨rfl, -, rfl⟩ := h
    exact .inl ⟨rfl, rfl⟩
  case isFalse hk =>
  split at h
  case isTrue =>
    simp only [pure_eq_ok, Prod.mk.injEq] at h
    obtain ⟨rfl, -, rfl⟩ := h
    exact .inl ⟨rfl, rfl⟩
  split at h
  case isTrue =>
    simp only [pure_eq_ok, Prod.mk.injEq] at h
    obtain ⟨rfl, -, rfl⟩ := h
    exact .inl ⟨rfl, rfl⟩
  simp only [bind_eq_ok] at h
  obtain ⟨valid, -, h⟩ := h
  split at h
  case isTrue =>
    simp only [pure_eq_ok, Prod.mk.injEq] at h
    obtain ⟨rfl, -, rfl⟩ := h
    exact .inl ⟨rfl, rfl⟩
  cases kres with
  | error e =>
    simp only [pure_eq_ok, Prod.mk.injEq] at h
    obtain ⟨rfl, -, rfl⟩ := h
    exact .inl ⟨rfl, rfl⟩
  | success res =>
    simp only [bind_eq_ok, assertThat_eq_ok, exists_const, pure_eq_ok, Prod.mk.injEq] at h
    obtain ⟨-, d', hd, am₁, hadd, rfl, -, rfl⟩ := h
    have hkind : (am.seg i).kind = .skFileC ∨ (am.seg i).kind = .skAnonC := by
      by_contra hno
      exact hk (not_or.mp hno)
    -- a missing entry would read as free
    have hmem : am.seg i ∈ am.nsegments := by
      rcases Nat.lt_or_ge i am.nsegments.length with hlt | hge
      · unfold Aspacem.seg
        rw [List.getD_eq_getElem?_getD, List.getElem?_eq_getElem hlt]
        exact List.getElem_mem hlt
      · have : (am.seg i).kind = .skFree := by
          unfold Aspacem.seg
          rw [List.getD_eq_getElem?_getD, List.getElem?_eq_none hge]
          rfl
        rw [this] at hkind
        rcases hkind with hkind | hkind <;> cases hkind
    exact .inr ⟨discardOf hwf (addW_lt _ _) hdl hd, hmem, hkind,
      addSegment_added' hwf (addW_lt _ _) hadd⟩

/-- A relocation that happened: the new area got the attributes of the old
segment, the old area became a hole. -/
structure Relocated (am : Aspacem) (oldAddr oldLen newAddr newLen : Nat) (d : Bool)
    (am' : Aspacem) : Prop where
  old : 0 < oldLen ∧ oldAddr + oldLen < wordMod
  new : 0 < newLen ∧ newAddr + newLen < wordMod
  silent : d = false → ∀ x, (oldAddr ≤ x ∧ x < oldAddr + oldLen) ∨
    (newAddr ≤ x ∧ x < newAddr + newLen) → pageT am.nsegments x = false
  moved : ∃ mid seg hole, Added am seg mid ∧ Added mid hole am' ∧
    seg.start = newAddr ∧ seg.end_ = newAddr + newLen - 1 ∧
    (seg.kind = .skFileC ∨ seg.kind = .skAnonC) ∧
    hole.start = oldAddr ∧ hole.end_ = oldAddr + oldLen - 1 ∧
    hole.kind = if am.maxAddr < oldAddr ∧ am.maxAddr < addrMax then .skResvn else .skFree

theorem amRelocateNooverlapClient_spec (hwf : Wf am.segnames am.nsegments)
    {oldAddr oldLen newAddr newLen : Nat} (ho : oldAddr < wordMod) (hol : oldLen < wordMod)
    (hn : newAddr < wordMod) (hnl : newLen < wordMod) {kres : SysRes} {r : Bool}
    {d : Option Bool}
    (h : amRelocateNooverlapClient am oldAddr oldLen newAddr newLen kres = .ok (am', r, d)) :
    (am' = am ∧ d.getD false = false) ∨
      Relocated am oldAddr oldLen newAddr newLen (d.getD false) am' := by
  unfold amRelocateNooverlapClient at h
  split at h
  case isTrue =>
    simp only [pure_eq_ok, Prod.mk.injEq] at h
    obtain ⟨rfl, -, rfl⟩ := h
    exact .inl ⟨rfl, rfl⟩
  case isFalse h0 =>
  split at h
  case isTrue =>
    simp only [pure_eq_ok, Prod.mk.injEq] at h
    obtain ⟨rfl, -, rfl⟩ := h
    exact .inl ⟨rfl, rfl⟩
  split at h
  case isTrue =>
    simp only [pure_eq_ok, Prod.mk.injEq] at h
    obtain ⟨rfl, -, rfl⟩ := h
    exact .inl ⟨rfl, rfl⟩
  case isFalse hw =>
  split at h
  case isTrue =>
    simp only [pure_eq_ok, Prod.mk.injEq] at h
    obtain ⟨rfl, -, rfl⟩ := h
    exact .inl ⟨rfl, rfl⟩
  simp only [bind_eq_ok] at h
  obtain ⟨iLo, -, iHi, -, h⟩ := h
  split at h
  case isTrue =>
    simp only [pure_eq_ok, Prod.mk.injEq] at h
    obtain ⟨rfl, -, rfl⟩ := h
    exact .inl ⟨rfl, rfl⟩
  split at h
  case isTrue =>
    simp only [pure_eq_ok, Prod.mk.injEq] at h
    obtain ⟨rfl, -, rfl⟩ := h
    exact .inl ⟨rfl, rfl⟩
  case isFalse hk =>
  cases kres with
  | error e =>
    simp only [pure_eq_ok, Prod.mk.injEq] at h
    obtain ⟨rfl, -, rfl⟩ := h
    exact .inl ⟨rfl, rfl⟩
  | success res =>
    simp only [bind_eq_ok, assertThat_eq_ok, exists_const, pure_eq_ok, Prod.mk.injEq] at h
    obtain ⟨-, oldTs, hold, d', hd', -, am₁, hadd₁, am₂, hadd₂, rfl, -, rfl⟩ := h
    have hkind : (am.seg iLo).kind = .skFileC ∨ (am.seg iLo).kind = .skAnonC := by
      by_contra hno
      exact hk (not_or.mp hno)
    have hno : oldAddr + oldLen < wordMod := by
      by_contra hge
      exact hw (.inl ((addW_lt_self_iff ho hol).mpr (by omega)))
    have hnn : newAddr + newLen < wordMod := by
      by_contra hge
      exact hw (.inr ((addW_lt_self_iff hn hnl).mpr (by omega)))
    have ha₁ := addSegment_added' hwf lastByte_lt hadd₁
    have ha₂ := addSegment_added' ha₁.inv.wf lastByte_lt hadd₂
    refine .inr ⟨⟨by omega, hno⟩, ⟨by omega, hnn⟩, fun hf x hx => ?_,
      am₁, _, _, ha₁, ha₂, rfl, lastByte_eq hnn (by omega), hkind, rfl,
      lastByte_eq hno (by omega), by simp only [ha₁.limits.2.1]⟩
    -- the flag is false only if neither range had a bit set
    rw [Option.getD_some] at hf
    cases oldTs with
    | true =>
      rw [if_pos rfl, pure_eq_ok] at hd'
      exact absurd (hd'.trans hf) (by decide)
    | false =>
      rw [if_neg (by decide)] at hd'
      have hdo := (discardOf hwf ho hol hold).iff
      have hdn := (discardOf hwf hn hnl hd').iff
      rw [hf] at hdn
      rw [← Bool.not_eq_true]
      rintro hT
      rcases hx with hx | hx
      · exact absurd (hdo.mpr ⟨x, hx.1, hx.2, hT⟩) (by decide)
      · exact absurd (hdn.mpr ⟨x, hx.1, hx.2, hT⟩) (by decide)

end Specs

end Valgrind.Aspacemgr
