import Valgrind.Aspacemgr.Segment

/-!
# The segment array as a map from pages to attributes

What the segment array is for: it says, for every page, what is mapped there.
`pageMap segs a` reads it so. The array functions are then specified in these
terms, and every later result about the address space manager uses only these
specifications:

- `splitNsegmentAt` and `preenNsegments` leave `pageMap` alone
  (`splitNsegmentAt_spec`, `preenNsegments_spec`);
- `addSegment` is a plain function update (`addSegment_spec`).

`pageT` reads the `hasT` bit of a page. It is kept apart because merging may set
it: the bit is an over-approximation by design.
-/

namespace Valgrind.Aspacemgr

open Machine Intervals

/-- What the array records about one page. The offset is that of the byte at
the address itself; it is meaningful for file mappings only. -/
structure PageAttrs where
  kind : SegKind
  hasR : Bool
  hasW : Bool
  hasX : Bool
  isCH : Bool
  dev : Nat
  ino : Nat
  offset : BitVec 64
  deriving DecidableEq, Repr

/-- The attributes a segment gives to the address `a`. -/
def NSegment.attrsAt (s : NSegment) (a : Nat) : PageAttrs where
  kind := s.kind
  hasR := s.hasR
  hasW := s.hasW
  hasX := s.hasX
  isCH := s.isCH
  dev := s.dev
  ino := s.ino
  offset := if s.kind.isFile then s.offset + BitVec.ofNat 64 a - BitVec.ofNat 64 s.start else 0

/-- The segment that holds `a`. -/
def segAt (segs : List NSegment) (a : Nat) : Option NSegment :=
  locate NSegment.start (fun s => s.end_ + 1) segs a

/-- The array as a map from addresses to attributes. -/
def pageMap (segs : List NSegment) (a : Nat) : Option PageAttrs :=
  (segAt segs a).map (·.attrsAt a)

/-- The `hasT` bit of the segment that holds `a`. -/
def pageT (segs : List NSegment) (a : Nat) : Bool :=
  ((segAt segs a).map (·.hasT)).getD false

section Specs

variable [Machine]

/-- The segments tile `[p, e)`. -/
abbrev SegTiled (p e : Nat) (segs : List NSegment) : Prop :=
  Tiled NSegment.start (fun s => s.end_ + 1) p e segs

/-- The sanity check, as a proposition. -/
def Sane (names : List SegName) (s : NSegment) : Prop := saneNSegment names s = true

instance (names : List SegName) (s : NSegment) : Decidable (Sane names s) :=
  inferInstanceAs (Decidable (_ = _))

/-- The part of the array invariant that every array function needs: the
segments cover the address space exactly and are sane. -/
structure Wf (names : List SegName) (segs : List NSegment) : Prop where
  tiled : SegTiled 0 wordMod segs
  sane : ∀ s ∈ segs, Sane names s

/-! ## Sanity, field by field -/

variable {names : List SegName} {s w r m seg : NSegment} {segs rest L R : List NSegment}
  {am am' : Aspacem} {a b p e : Nat}

theorem Sane.lt (h : Sane names s) : s.start < s.end_ := by
  simp only [Sane, saneNSegment, Bool.and_eq_true, decide_eq_true_eq] at h
  exact h.1.1.1.1

theorem Sane.start_aligned (h : Sane names s) : isPageAligned s.start := by
  simp only [Sane, saneNSegment, Bool.and_eq_true, decide_eq_true_eq] at h
  exact h.1.1.2

theorem Sane.end_aligned (h : Sane names s) : isPageAligned (s.end_ + 1) := by
  simp only [Sane, saneNSegment, Bool.and_eq_true, decide_eq_true_eq] at h
  exact isPageAligned_addW.mp h.1.2

/-- Sanity constrains the extent and, apart from it, only the remaining fields:
moving the ends of a sane segment to other page boundaries keeps it sane. -/
theorem sane_resize (h : Sane names s) {start' end' : Nat} {off : BitVec 64}
    (hlt : start' < end') (hs : isPageAligned start') (he : isPageAligned (end' + 1))
    (hoff : s.kind.isFile = false → off = s.offset) :
    Sane names { s with start := start', end_ := end', offset := off } := by
  have he' : isPageAligned (addW end' 1) := isPageAligned_addW.mpr he
  cases hk : s.kind <;>
    simp_all [Sane, saneNSegment, SegKind.isFile]

theorem Sane.fnIdx (h : Sane names s) :
    s.fnIdx = -1 ∨ slotInUse names s.fnIdx := by
  cases hk : s.kind <;> simp_all [Sane, saneNSegment]

/-- Free space and reservations carry no permissions and no flags. -/
theorem Sane.bare (h : Sane names s)
    (hk : s.kind = .skFree ∨ s.kind = .skResvn) :
    s.hasR = false ∧ s.hasW = false ∧ s.hasX = false ∧ s.hasT = false ∧ s.isCH = false ∧
      s.dev = 0 ∧ s.ino = 0 := by
  rcases hk with hk | hk <;> simp_all [Sane, saneNSegment]

/-- Only file mappings have a file. -/
theorem Sane.noFile (h : Sane names s) (hk : s.kind.isFile = false) :
    s.dev = 0 ∧ s.ino = 0 ∧ s.offset = 0 ∧ s.fnIdx = -1 := by
  cases hkind : s.kind <;> simp_all [Sane, saneNSegment, SegKind.isFile]

/-- Only anonymous client segments may be marked as client heap. -/
theorem Sane.notHeap (h : Sane names s) (hk : s.kind ≠ .skAnonC) : s.isCH = false := by
  cases hkind : s.kind <;> simp_all [Sane, saneNSegment]

/-- Sanity looks at the name table only through the slot the segment names. -/
theorem sane_names {names' : List SegName} (h : Sane names s)
    (hslot : slotInUse names s.fnIdx → slotInUse names' s.fnIdx) : Sane names' s := by
  have hor : ∀ {q : Prop}, q ∨ slotInUse names s.fnIdx = true →
      q ∨ slotInUse names' s.fnIdx = true := fun hq => hq.imp_right hslot
  cases hk : s.kind <;> simp_all [Sane, saneNSegment]

/-! ## Merging -/

/-- The condition under which neighbours of one kind are merged. -/
def MergeTest (s1 s2 : NSegment) : Prop :=
  match s1.kind with
  | .skFree => True
  | .skAnonC | .skAnonV =>
    s1.hasR = s2.hasR ∧ s1.hasW = s2.hasW ∧ s1.hasX = s2.hasX ∧ s1.isCH = s2.isCH
  | .skFileC | .skFileV =>
    s1.hasR = s2.hasR ∧ s1.hasW = s2.hasW ∧ s1.hasX = s2.hasX ∧ s1.dev = s2.dev
      ∧ s1.ino = s2.ino
      ∧ s2.offset = s1.offset + BitVec.ofNat 64 s2.start - BitVec.ofNat 64 s1.start
  | .skShmC => False
  | .skResvn => s1.smode = .smFixed ∧ s2.smode = .smFixed

/-- The `hasT` bit of the merged segment. -/
def mergedT (s1 s2 : NSegment) : Bool :=
  match s1.kind with
  | .skFree | .skResvn => s1.hasT
  | _ => s1.hasT || s2.hasT

theorem maybeMergeNsegments_eq_some_iff :
    maybeMergeNsegments w r = some m ↔
      w.kind = r.kind ∧ addW w.end_ 1 = r.start ∧ w.start ≤ r.end_ ∧ MergeTest w r ∧
        m = { w with end_ := r.end_, hasT := mergedT w r } := by
  have hite : ∀ {p : Prop} [Decidable p] {x : NSegment}, (if p then some x else none) = some m ↔ p ∧ m = x := by
    intro p _ x
    by_cases hp : p
    · rw [if_pos hp, Option.some.injEq, and_iff_right hp, eq_comm]
    · rw [if_neg hp]
      exact iff_of_false (fun h => nomatch h) fun h => hp h.1
  unfold maybeMergeNsegments
  by_cases hk : w.kind = r.kind
  swap
  · rw [if_pos hk]
    exact iff_of_false (fun h => nomatch h) fun h => hk h.1
  by_cases hs : addW w.end_ 1 = r.start
  swap
  · rw [if_neg (not_not_intro hk), if_pos hs]
    exact iff_of_false (fun h => nomatch h) fun h => hs h.2.1
  by_cases hw : w.start ≤ r.end_
  swap
  · rw [if_neg (not_not_intro hk), if_neg (not_not_intro hs), if_pos (Nat.lt_of_not_le hw)]
    exact iff_of_false (fun h => nomatch h) fun h => hw h.2.2.1
  rw [if_neg (not_not_intro hk), if_neg (not_not_intro hs), if_neg (Nat.not_lt.mpr hw), and_iff_right hk,
    and_iff_right hs, and_iff_right hw]
  unfold MergeTest mergedT
  cases w.kind with
  | skFree => rw [true_and, Option.some.injEq, eq_comm]
  | skShmC => exact iff_of_false (fun h => nomatch h) fun h => h.1
  | skAnonC | skAnonV | skFileC | skFileV | skResvn => exact hite

/-- Sane free space and reservations have no `hasT` bit, so the merged bit is
always the disjunction. -/
theorem mergedT_eq (hr : Sane names r) (hk : w.kind = r.kind) :
    mergedT w r = (w.hasT || r.hasT) := by
  unfold mergedT
  split
  case h_1 h =>
    rw [(hr.bare (.inl (hk ▸ h))).2.2.2.1, Bool.or_false]
  case h_2 h =>
    rw [(hr.bare (.inr (hk ▸ h))).2.2.2.1, Bool.or_false]
  case h_3 => rfl

/-- The `hasT` bit may be set on any sane segment that is not free and not a
reservation. -/
theorem sane_setT (h : Sane names s) {t : Bool}
    (ht : (s.kind = .skFree ∨ s.kind = .skResvn) → t = false) :
    Sane names { s with hasT := t } := by
  cases hk : s.kind <;> simp_all [Sane, saneNSegment]

/-- Merging is only done between segments that give every address the same
attributes. -/
theorem MergeTest.attrsAt (hw : Sane names w) (hr : Sane names r) (hk : w.kind = r.kind)
    (h : MergeTest w r) (a : Nat) : w.attrsAt a = r.attrsAt a := by
  have hkr : r.kind = w.kind := hk.symm
  unfold MergeTest at h
  unfold NSegment.attrsAt
  cases hkw : w.kind <;> rw [hkw] at h hkr <;> simp only [hkr] at h ⊢
  case skFree =>
    simp [hw.bare (.inl hkw), hr.bare (.inl hkr), SegKind.isFile]
  case skResvn =>
    simp [hw.bare (.inr hkw), hr.bare (.inr hkr), SegKind.isFile]
  case skAnonC | skAnonV =>
    simp [h, hw.noFile (by rw [hkw]; rfl), hr.noFile (by rw [hkr]; rfl), SegKind.isFile]
  case skFileC | skFileV =>
    obtain ⟨h₁, h₂, h₃, h₄, h₅, h₆⟩ := h
    have hoff : w.offset + BitVec.ofNat 64 a - BitVec.ofNat 64 w.start
        = r.offset + BitVec.ofNat 64 a - BitVec.ofNat 64 r.start := by
      rw [h₆]
      grind
    simp [h₁, h₂, h₃, h₄, h₅, hoff, hw.notHeap (by simp [hkw]), hr.notHeap (by simp [hkr])]

/-- What a successful merge of two neighbours yields: the union, with the
attributes of either. -/
structure MergeOf (names : List SegName) (w r m : NSegment) : Prop where
  start : m.start = w.start
  end_ : m.end_ = r.end_
  sane : Sane names m
  attrs_left : ∀ a, m.attrsAt a = w.attrsAt a
  attrs_right : ∀ a, m.attrsAt a = r.attrsAt a
  hasT : m.hasT = (w.hasT || r.hasT)

theorem maybeMergeNsegments_spec (hw : Sane names w) (hr : Sane names r)
    (hseam : w.end_ + 1 = r.start) (h : maybeMergeNsegments w r = some m) :
    MergeOf names w r m := by
  obtain ⟨hk, -, -, htest, rfl⟩ := maybeMergeNsegments_eq_some_iff.mp h
  have hT := mergedT_eq hr hk
  refine ⟨rfl, rfl, ?_, fun a => rfl, fun a => htest.attrsAt hw hr hk a, hT⟩
  have hlt : w.start < r.end_ := by
    have := hw.lt
    have := hr.lt
    omega
  refine sane_setT (sane_resize hw hlt hw.start_aligned hr.end_aligned (fun _ => rfl)) ?_
  rintro hbare
  rw [hT, (hw.bare hbare).2.2.2.1, (hr.bare (hk ▸ hbare)).2.2.2.1]
  rfl

/-! ## Preening -/

omit [Machine] in
theorem segTiled_cons :
    SegTiled p e (s :: segs) ↔
      s.start = p ∧ p < s.end_ + 1 ∧ SegTiled (s.end_ + 1) e segs := Iff.rfl

omit [Machine] in
theorem segAt_cons :
    segAt (s :: segs) a = if s.start ≤ a ∧ a < s.end_ + 1 then some s else segAt segs a :=
  locate_cons

/-- Merging the first two segments changes neither the page map nor any set
`hasT` bit. -/
theorem pageMap_merge (hm : MergeOf names w r m) (hseam : w.end_ + 1 = r.start)
    (hw : Sane names w) (hr : Sane names r) (a : Nat) :
    pageMap (m :: rest) a = pageMap (w :: r :: rest) a ∧
      (pageT (w :: r :: rest) a = true → pageT (m :: rest) a = true) := by
  have := hw.lt
  have := hr.lt
  have hs := hm.start
  have he := hm.end_
  unfold pageMap pageT
  rw [segAt_cons, segAt_cons, segAt_cons]
  by_cases h₁ : w.start ≤ a ∧ a < w.end_ + 1
  · rw [if_pos h₁, if_pos (by omega)]
    simp only [Option.map_some, Option.getD_some, hm.attrs_left, hm.hasT, true_and]
    exact fun h => by rw [h, Bool.true_or]
  · rw [if_neg h₁]
    by_cases h₂ : r.start ≤ a ∧ a < r.end_ + 1
    · rw [if_pos h₂, if_pos (by omega)]
      simp only [Option.map_some, Option.getD_some, hm.attrs_right, hm.hasT, true_and]
      exact fun h => by rw [h, Bool.or_true]
    · rw [if_neg h₂, if_neg (by omega)]
      exact ⟨rfl, id⟩

/-- No two neighbours of the list can be merged. -/
def Preened (segs : List NSegment) : Prop :=
  segs.IsChain fun x y => maybeMergeNsegments x y = none

/-- What `preenMerge` does to the array. -/
structure PreenOf (names : List SegName) (p e : Nat) (old new : List NSegment) : Prop where
  tiled : SegTiled p e new
  sane : ∀ s ∈ new, Sane names s
  map : ∀ a, pageMap new a = pageMap old a
  hasT : ∀ a, pageT old a = true → pageT new a = true
  preened : Preened new

/-- The first entry that `preenMerge w rest` writes is `w`, grown to the right. -/
theorem preenMerge_head (h : SegTiled p e (w :: rest)) :
    ∃ h t, preenMerge w rest = h :: t ∧ h = { w with end_ := h.end_, hasT := h.hasT } ∧
      w.end_ ≤ h.end_ := by
  induction rest generalizing w with
  | nil => exact ⟨w, [], rfl, rfl, le_refl _⟩
  | cons r rest ih =>
    unfold preenMerge
    cases hm : maybeMergeNsegments w r with
    | none => exact ⟨w, _, rfl, rfl, le_refl _⟩
    | some m =>
      obtain ⟨-, -, -, -, rfl⟩ := maybeMergeNsegments_eq_some_iff.mp hm
      obtain ⟨h₁, h₂, hrest⟩ := segTiled_cons.mp h
      obtain ⟨h₃, h₄, h₅⟩ := segTiled_cons.mp hrest
      obtain ⟨hd, t, hp, hf, hle⟩ := ih (w := { w with end_ := r.end_, hasT := mergedT w r })
        (segTiled_cons.mpr ⟨h₁, by simp only; omega, h₅⟩)
      refine ⟨hd, t, hp, hf, ?_⟩
      simp only at hle
      omega

/-- Whether `x` can be merged with its right neighbour does not depend on how
far that neighbour reaches, nor on its `hasT` bit. -/
theorem maybeMergeNsegments_eq_none_grow {x : NSegment} {h : NSegment}
    (hf : h = { w with end_ := h.end_, hasT := h.hasT }) (hx : x.start ≤ w.end_) (hn : maybeMergeNsegments x w = none) :
    maybeMergeNsegments x h = none := by
  rw [Option.eq_none_iff_forall_ne_some] at hn ⊢
  intro m hm
  obtain ⟨hk, hs, -, ht, -⟩ := maybeMergeNsegments_eq_some_iff.mp hm
  rw [hf] at hk hs ht
  refine hn _ (maybeMergeNsegments_eq_some_iff.mpr ⟨hk, hs, hx, ?_, rfl⟩)
  unfold MergeTest at ht ⊢
  exact ht

theorem preenMerge_spec (ht : SegTiled p e (w :: rest))
    (hs : ∀ s ∈ w :: rest, Sane names s) :
    PreenOf names p e (w :: rest) (preenMerge w rest) := by
  induction rest generalizing w p with
  | nil => exact ⟨ht, hs, fun _ => rfl, fun _ => id, List.isChain_singleton _⟩
  | cons r rest ih =>
    obtain ⟨h₁, h₂, ht'⟩ := segTiled_cons.mp ht
    obtain ⟨h₃, h₄, h₅⟩ := segTiled_cons.mp ht'
    have hw := hs w (by simp)
    have hr := hs r (by simp)
    have hrest : ∀ s ∈ rest, Sane names s := fun s hmem => hs s (by simp [hmem])
    unfold preenMerge
    cases hm : maybeMergeNsegments w r with
    | some m =>
      -- the merged segment takes the place of both
      have hmo := maybeMergeNsegments_spec hw hr h₃.symm hm
      have htm : SegTiled p e (m :: rest) := segTiled_cons.mpr
        ⟨hmo.start.trans h₁, by rw [hmo.end_]; omega, by rw [hmo.end_]; exact h₅⟩
      have := ih htm (fun s hmem => by
        rcases List.mem_cons.mp hmem with rfl | hmem
        · exact hmo.sane
        · exact hrest s hmem)
      refine ⟨this.tiled, this.sane, fun a => ?_, fun a ha => ?_, this.preened⟩
      · rw [this.map, (pageMap_merge hmo h₃.symm hw hr a).1]
      · exact this.hasT a ((pageMap_merge hmo h₃.symm hw hr a).2 ha)
    | none =>
      show PreenOf names p e (w :: r :: rest) (w :: preenMerge r rest)
      have := ih ht' (fun s hmem => hs s (List.mem_cons_of_mem _ hmem))
      refine ⟨⟨h₁, h₂, this.tiled⟩, fun s hmem => ?_, fun a => ?_, fun a => ?_, ?_⟩
      · rcases List.mem_cons.mp hmem with rfl | hmem
        · exact hw
        · exact this.sane s hmem
      · have hmap := this.map a
        unfold pageMap at hmap ⊢
        rw [segAt_cons (s := w), segAt_cons (s := w)]
        split_ifs
        · rfl
        · exact hmap
      · have hT := this.hasT a
        unfold pageT at hT ⊢
        rw [segAt_cons (s := w), segAt_cons (s := w)]
        split_ifs
        · exact id
        · exact hT
      · -- `w` could not be merged with `r`, hence not with what `r` grew into
        obtain ⟨hd, t, hp, hf, -⟩ := preenMerge_head ht'
        have hch := this.preened
        unfold Preened at hch ⊢
        rw [hp] at hch ⊢
        refine List.isChain_cons_cons.mpr ⟨?_, hch⟩
        exact maybeMergeNsegments_eq_none_grow hf (by omega) hm

/-- A list without mergeable neighbours is left as it is. -/
theorem preenMerge_of_preened (h : Preened (w :: rest)) : preenMerge w rest = w :: rest := by
  induction rest generalizing w with
  | nil => rfl
  | cons r rest ih =>
    obtain ⟨hn, ht⟩ := List.isChain_cons_cons.mp h
    unfold preenMerge
    rw [hn]
    simp only [ih ht]

omit [Machine] in
theorem slotInUse_iff {j : Int} :
    slotInUse names j = true ↔
      0 ≤ j ∧ j < names.length ∧ ∃ n, names[j.toNat]? = some n ∧ n.inUse = true := by
  unfold slotInUse
  cases hj : names[j.toNat]? <;> simp [and_assoc]

omit [Machine] in
/-- Releasing name slots keeps those that some segment refers to. -/
theorem slotInUse_preenRelease {j : Int} (hs : s ∈ segs) (hj : s.fnIdx = j)
    (h : slotInUse names j) : slotInUse (preenRelease segs names) j := by
  obtain ⟨h₁, h₂, n, hn, hu⟩ := slotInUse_iff.mp h
  have hany : (segs.any fun s => decide (s.fnIdx = (j.toNat : Int))) = true :=
    List.any_eq_true.mpr ⟨s, hs, by simp [hj, h₁]⟩
  refine slotInUse_iff.mpr ⟨h₁, by simpa [preenRelease] using h₂, { n with mark := true }, ?_, hu⟩
  rw [preenRelease, List.getElem?_mapIdx, hn, Option.map_some, if_pos hany]

omit [Machine] in
theorem preenRelease_idem :
    preenRelease segs (preenRelease segs names) = preenRelease segs names := by
  apply List.ext_getElem?
  intro i
  simp only [preenRelease, List.getElem?_mapIdx, Option.map_map]
  congr 1
  funext n
  simp only [Function.comp_apply]
  split_ifs <;> rfl

theorem sane_preenRelease (h : ∀ s ∈ segs, Sane names s) :
    ∀ s ∈ segs, Sane (preenRelease segs names) s :=
  fun s hs => sane_names (h s hs) (slotInUse_preenRelease hs rfl)

theorem preenCheckRest_ok (ht : SegTiled p e (w :: rest)) (he : e ≤ wordMod)
    (hs : ∀ s ∈ rest, Sane names s) : preenCheckRest names w rest = .ok () := by
  induction rest generalizing w p with
  | nil => rfl
  | cons r rest ih =>
    obtain ⟨-, -, ht'⟩ := segTiled_cons.mp ht
    obtain ⟨h₃, h₄, h₅⟩ := segTiled_cons.mp ht'
    have hle := Tiled.le h₅
    have hseam : addW w.end_ 1 = r.start := by rw [addW_of_lt (by omega), h₃]
    simp only [preenCheckRest, bind_eq_ok, assertThat_eq_ok, exists_const]
    exact ⟨hs r (by simp), hseam, ih ht' fun s hmem => hs s (List.mem_cons_of_mem _ hmem)⟩

theorem preenMark_ok (hs : ∀ s ∈ segs, Sane names s) : preenMark names segs = .ok () := by
  induction segs with
  | nil => rfl
  | cons s segs ih =>
    have hrest := ih fun t ht => hs t (List.mem_cons_of_mem _ ht)
    rcases (hs s (by simp)).fnIdx with h | h
    · simp [preenMark, h, assertThat, hrest]
      omega
    · obtain ⟨h₁, h₂, -⟩ := slotInUse_iff.mp h
      have h₃ : -1 ≤ s.fnIdx := by omega
      simp [preenMark, h, h₁, h₂, h₃, assertThat, hrest]

omit [Machine] in
theorem SegTiled.getLastD_end (h : SegTiled p e (s :: segs)) (d : NSegment) :
    ((s :: segs).getLastD d).end_ + 1 = e := by
  induction segs generalizing s p d with
  | nil => exact (segTiled_cons.mp h).2.2
  | cons r segs ih =>
    exact ih (segTiled_cons.mp h).2.2 s

theorem preenNsegments_eq (h : Wf am.segnames am.nsegments) (hc : am.nsegments = s :: rest) :
    preenNsegments am = .ok { am with
      nsegments := preenMerge s rest
      segnames := preenRelease (preenMerge s rest) am.segnames } := by
  rw [hc] at h
  have hlast := h.tiled.getLastD_end s
  have hstart : s.start = 0 := (segTiled_cons.mp h.tiled).1
  have hend : ((s :: rest).getLastD s).end_ = addrMax := by
    have := addrMax_add_one
    omega
  have hsane : saneNSegment am.segnames s = true := h.sane s (by simp)
  have hp := preenMerge_spec h.tiled h.sane
  simp only [preenNsegments, hc, hend, hstart, hsane, assertThat_of, ok_bind,
    preenCheckRest_ok h.tiled (le_refl _) (fun t ht => h.sane t (List.mem_cons_of_mem _ ht)),
    preenMark_ok hp.sane]
  rfl

theorem Wf.ne_nil (h : Wf names segs) : ∃ s rest, segs = s :: rest := by
  have hpos := wordMod_pos
  cases segs with
  | nil =>
    have := h.tiled
    simp only [tiled_nil] at this
    omega
  | cons s rest => exact ⟨s, rest, rfl⟩

/-- **Preening.** On a well-formed array `preen_nsegments` returns; it changes
nothing but the number of segments used for the same map, the name slots nobody
refers to, and `hasT` bits from false to true. -/
theorem preenNsegments_spec (am : Aspacem) (h : Wf am.segnames am.nsegments) :
    ∃ segs names, preenNsegments am = .ok { am with nsegments := segs, segnames := names } ∧
      PreenOf names 0 wordMod am.nsegments segs := by
  obtain ⟨s, rest, hc⟩ := h.ne_nil
  have hp := preenMerge_spec (hc ▸ h.tiled) (hc ▸ h.sane)
  refine ⟨_, _, preenNsegments_eq h hc, hp.tiled, sane_preenRelease hp.sane, ?_, ?_, hp.preened⟩
  · rw [hc]
    exact hp.map
  · rw [hc]
    exact hp.hasT

theorem PreenOf.wf {old new : List NSegment} (h : PreenOf names 0 wordMod old new) :
    Wf names new := ⟨h.tiled, h.sane⟩

/-- `preen_nsegments` is idempotent: a preened array is a fixed point. -/
theorem preenNsegments_idem (h : Wf am.segnames am.nsegments)
    (hp : preenNsegments am = .ok am') : preenNsegments am' = .ok am' := by
  obtain ⟨s, rest, hc⟩ := h.ne_nil
  have hspec := preenMerge_spec (hc ▸ h.tiled) (hc ▸ h.sane)
  obtain ⟨hd, t, hm, -, -⟩ := preenMerge_head (hc ▸ h.tiled)
  rw [preenNsegments_eq h hc, Except.ok.injEq] at hp
  subst hp
  have hwf : Wf (preenRelease (preenMerge s rest) am.segnames) (preenMerge s rest) :=
    ⟨hspec.tiled, sane_preenRelease hspec.sane⟩
  rw [preenNsegments_eq hwf hm]
  have hfix : preenMerge hd t = preenMerge s rest := by
    rw [hm]
    exact preenMerge_of_preened (hm ▸ hspec.preened)
  simp only [hfix, preenRelease_idem]

/-! ## Finding and splitting -/

/-- The binary search finds the segment that holds the address. -/
theorem findNsegmentIdx_spec (ht : SegTiled 0 wordMod am.nsegments) (ha : a < wordMod) :
    ∃ (L : List NSegment) (s : NSegment) (R : List NSegment), am.nsegments = L ++ s :: R ∧
      findNsegmentIdx am a = .ok L.length ∧
      s.start ≤ a ∧ a ≤ s.end_ := by
  obtain ⟨s, hs⟩ := ht.exists_locate (Nat.zero_le a) ha
  obtain ⟨hmem, h₁, h₂⟩ := mem_of_locate hs
  obtain ⟨L, R, hLR⟩ := List.append_of_mem hmem
  refine ⟨L, s, R, hLR, ?_, h₁, by omega⟩
  have hseg : am.seg L.length = s := by
    simp [Aspacem.seg, hLR]
  have hfound := (search_eq_some_iff ht.ascending).mpr
    (show L.length < am.nsegments.length ∧ _ from
      ⟨by simp [hLR], by simpa [Aspacem.seg, hLR] using h₁, by simpa [Aspacem.seg, hLR] using h₂⟩)
  unfold findNsegmentIdx Aspacem.seg
  rw [hfound]

/-- The index found determines the list around it. -/
theorem findNsegmentIdx_inv (ht : SegTiled 0 wordMod am.nsegments) (ha : a < wordMod) {i : Nat}
    (hi : findNsegmentIdx am a = .ok i) :
    ∃ L s R, am.nsegments = L ++ s :: R ∧ L.length = i ∧ am.seg i = s ∧
      am.nsegments.take i = L ∧ am.nsegments.drop (i + 1) = R ∧ s.start ≤ a ∧ a ≤ s.end_ := by
  obtain ⟨L, s, R, hLR, hL, h₁, h₂⟩ := findNsegmentIdx_spec ht ha
  rw [hL, Except.ok.injEq] at hi
  subst hi
  refine ⟨L, s, R, hLR, rfl, ?_, ?_, ?_, h₁, h₂⟩ <;> simp [hLR, Aspacem.seg]

omit [Machine] in
theorem pageMap_append : pageMap (L ++ R) a = (pageMap L a).or (pageMap R a) := by
  unfold pageMap segAt
  rw [locate_append]
  cases locate NSegment.start (fun s => s.end_ + 1) L a <;> rfl

omit [Machine] in
theorem pageT_append (hL : SegTiled p b L) (hR : SegTiled b e R) :
    pageT (L ++ R) a = if a < b then pageT L a else pageT R a := by
  unfold pageT segAt
  split_ifs with h
  · rw [locate_append_left hR h]
  · rw [locate_append_right hL (by omega)]

/-- Some segment starts at `b`. -/
def StartsAt (b : Nat) (segs : List NSegment) : Prop := ∃ s ∈ segs, s.start = b

/-- What splitting does to the array: more boundaries, the same map. -/
structure SplitOf (names : List SegName) (old new : List NSegment) : Prop where
  wf : Wf names new
  map : ∀ x, pageMap new x = pageMap old x
  hasT : ∀ x, pageT new x = pageT old x
  starts : ∀ b, StartsAt b old → StartsAt b new

theorem SplitOf.refl (h : Wf names segs) : SplitOf names segs segs :=
  ⟨h, fun _ => rfl, fun _ => rfl, fun _ => id⟩

theorem SplitOf.trans {x y z : List NSegment} (h₁ : SplitOf names x y) (h₂ : SplitOf names y z) :
    SplitOf names x z :=
  ⟨h₂.wf, fun a => (h₂.map a).trans (h₁.map a), fun a => (h₂.hasT a).trans (h₁.hasT a),
    fun b hb => h₂.starts b (h₁.starts b hb)⟩

/-- The lower half of a segment split at `a`. -/
def NSegment.lowerHalf (s : NSegment) (a : Nat) : NSegment := { s with end_ := a - 1 }

/-- The upper half of a segment split at `a`. -/
def NSegment.upperHalf (s : NSegment) (a : Nat) : NSegment :=
  { s with
    start := a
    offset := if s.kind.isFile then s.offset + BitVec.ofNat 64 a - BitVec.ofNat 64 s.start
      else s.offset }

omit [Machine] in
/-- Both halves of a split segment give the attributes that the whole gave. -/
theorem NSegment.upperHalf_attrsAt (s : NSegment) (a x : Nat) :
    (s.upperHalf a).attrsAt x = s.attrsAt x := by
  unfold NSegment.upperHalf NSegment.attrsAt
  cases hk : s.kind.isFile <;> simp only [PageAttrs.mk.injEq, true_and, if_true]
  · simp
  · grind

omit [Machine] in
/-- The two halves hold the same addresses, with the same attributes, as the
whole did. -/
theorem segAt_halves (h₁ : s.start < a) (h₂ : a ≤ s.end_) (x : Nat) :
    (segAt (s.lowerHalf a :: s.upperHalf a :: R) x).map (fun t => (t.attrsAt x, t.hasT))
      = (segAt (s :: R) x).map (fun t => (t.attrsAt x, t.hasT)) := by
  rw [segAt_cons, segAt_cons, segAt_cons]
  have hlo : (s.lowerHalf a).end_ = a - 1 := rfl
  have hst : (s.upperHalf a).start = a := rfl
  have hen : (s.upperHalf a).end_ = s.end_ := rfl
  rw [hlo, hst, hen]
  by_cases hx₁ : (s.lowerHalf a).start ≤ x ∧ x < a - 1 + 1
  · have : (s.lowerHalf a).start = s.start := rfl
    rw [if_pos hx₁, if_pos (by omega)]
    rfl
  · have : (s.lowerHalf a).start = s.start := rfl
    rw [if_neg hx₁]
    by_cases hx₂ : a ≤ x ∧ x < s.end_ + 1
    · rw [if_pos hx₂, if_pos (by omega), Option.map_some, Option.map_some,
        NSegment.upperHalf_attrsAt]
      rfl
    · rw [if_neg hx₂, if_neg (by omega)]

/-- Cutting one segment in two. -/
theorem splitOf_cut (h : Wf names (L ++ s :: R)) (ha : isPageAligned a) (h₁ : s.start < a)
    (h₂ : a ≤ s.end_) :
    SplitOf names (L ++ s :: R) (L ++ s.lowerHalf a :: s.upperHalf a :: R) := by
  obtain ⟨q, hL, hrest⟩ := tiled_append.mp h.tiled
  obtain ⟨hs, hlt, hR⟩ := segTiled_cons.mp hrest
  have hsane : Sane names s := h.sane s (by simp)
  have hroom₁ := hsane.start_aligned.add_le ha h₁
  have hroom₂ := ha.add_le hsane.end_aligned (by omega)
  have hpage : 2 ≤ pageSzB := by rcases page_ok with h | h <;> omega
  have hnew : SegTiled q wordMod (s.lowerHalf a :: s.upperHalf a :: R) :=
    ⟨hs, by simp only [NSegment.lowerHalf]; omega,
      by simp only [NSegment.lowerHalf, NSegment.upperHalf]; omega,
      by simp only [NSegment.lowerHalf, NSegment.upperHalf]; omega, hR⟩
  refine ⟨⟨tiled_append.mpr ⟨q, hL, hnew⟩, ?_⟩, fun x => ?_, fun x => ?_, ?_⟩
  · intro t ht
    rcases List.mem_append.mp ht with ht | ht
    · exact h.sane t (List.mem_append_left _ ht)
    rcases List.mem_cons.mp ht with rfl | ht
    · exact sane_resize hsane (by omega) hsane.start_aligned
        (by rwa [Nat.sub_add_cancel (by omega)]) (fun _ => rfl)
    rcases List.mem_cons.mp ht with rfl | ht
    · refine sane_resize hsane (by omega) ha hsane.end_aligned (fun hk => ?_)
      simp only [hk, Bool.false_eq_true, if_false]
    · exact h.sane t (by simp [ht])
  · have hat := congrArg (Option.map Prod.fst) (segAt_halves (R := R) h₁ h₂ x)
    simp only [Option.map_map] at hat
    rw [pageMap_append, pageMap_append]
    exact congrArg _ hat
  · have hat := congrArg (fun o => (o.map Prod.snd).getD false) (segAt_halves (R := R) h₁ h₂ x)
    simp only [Option.map_map] at hat
    rw [pageT_append hL hnew, pageT_append hL hrest]
    exact congrArg _ hat
  · rintro b ⟨t, ht, rfl⟩
    rcases List.mem_append.mp ht with ht | ht
    · exact ⟨t, List.mem_append_left _ ht, rfl⟩
    rcases List.mem_cons.mp ht with rfl | ht
    · exact ⟨t.lowerHalf a, by simp, rfl⟩
    · exact ⟨t, by simp [ht], rfl⟩

/-- **Splitting.** `split_nsegment_at` makes `a` a segment boundary and leaves
the page map and the `hasT` bits alone. It returns unless the array is full. -/
theorem splitNsegmentAt_spec (h : Wf am.segnames am.nsegments) (ha : a < wordMod)
    (hok : splitNsegmentAt am a = .ok am') :
    ∃ segs, am' = { am with nsegments := segs } ∧ SplitOf am.segnames am.nsegments segs ∧
      StartsAt a segs := by
  simp only [splitNsegmentAt, bind_eq_ok, assertThat_eq_ok, exists_const] at hok
  obtain ⟨hpos, hal, i, hi, hok⟩ := hok
  obtain ⟨L, s, R, hLR, hlen, hseg, htake, hdrop, h₁, h₂⟩ := findNsegmentIdx_inv h.tiled ha hi
  rw [hseg] at hok
  by_cases hsa : s.start = a
  · rw [if_pos hsa, pure_eq_ok] at hok
    exact ⟨am.nsegments, hok.symm, .refl h, s, by simp [hLR], hsa⟩
  · rw [if_neg hsa] at hok
    by_cases hfull : nSegmentsMax ≤ am.nsegments.length
    · simp [hfull] at hok
    · simp only [hfull, if_false, htake, hdrop, bind_eq_ok, assertThat_eq_ok, exists_const,
        pure_eq_ok] at hok
      refine ⟨_, hok.2.2.symm, ?_, s.upperHalf a, by simp [NSegment.upperHalf], rfl⟩
      rw [hLR] at h ⊢
      exact splitOf_cut h hal (by omega) h₂

theorem splitNsegmentAt_ok (am : Aspacem) (h : Wf am.segnames am.nsegments) (ha : a < wordMod)
    (hpos : 0 < a) (hal : isPageAligned a) (hlen : am.nsegments.length < nSegmentsMax) :
    ∃ am', splitNsegmentAt am a = .ok am' ∧
      am'.nsegments.length ≤ am.nsegments.length + 1 := by
  obtain ⟨L, s, R, hLR, hL, h₁, h₂⟩ := findNsegmentIdx_spec h.tiled ha
  have hseg : am.seg L.length = s := by simp [Aspacem.seg, hLR]
  unfold splitNsegmentAt
  simp only [assertThat_of, hpos, hal, hL, ok_bind, hseg]
  by_cases hsa : s.start = a
  · exact ⟨am, if_pos hsa, Nat.le_succ _⟩
  · rw [if_neg hsa, if_neg (by omega)]
    have hcut := (splitOf_cut (hLR ▸ h) hal (by omega) h₂).wf.sane
    have hlo : saneNSegment am.segnames (s.lowerHalf a) = true := hcut _ (by simp)
    have hup : saneNSegment am.segnames (s.upperHalf a) = true := hcut _ (by simp)
    unfold NSegment.lowerHalf at hlo
    unfold NSegment.upperHalf at hup
    refine ⟨_, by simp only [assertThat_of, hlo, hup, ok_bind]; rfl, ?_⟩
    simp [hLR]
    omega

/-- A range of the array: `mid` are the segments that tile `[sLo, sHi]`, with
nothing sticking out on either side. -/
structure RangeOf (sLo sHi : Nat) (segs pre mid post : List NSegment) : Prop where
  eq : segs = pre ++ mid ++ post
  pre_tiled : SegTiled 0 sLo pre
  mid_tiled : SegTiled sLo (sHi + 1) mid
  post_tiled : SegTiled (sHi + 1) wordMod post

variable {sLo sHi iLo iHi : Nat} {pre mid mid' post : List NSegment}

/-- The two indices found at the ends of a range cut the array there. -/
theorem rangeOf_of_find (ht : SegTiled 0 wordMod am.nsegments) (hlt : sLo < sHi)
    (hhi : sHi < wordMod) (hLo : findNsegmentIdx am sLo = .ok iLo)
    (hHi : findNsegmentIdx am sHi = .ok iHi) (hle : iLo ≤ iHi)
    (hs : (am.seg iLo).start = sLo) (he : (am.seg iHi).end_ = sHi) :
    RangeOf sLo sHi am.nsegments (am.nsegments.take iLo)
      ((am.nsegments.take (iHi + 1)).drop iLo) (am.nsegments.drop (iHi + 1)) := by
  obtain ⟨L₁, s, R₁, hLR₁, hlen₁, hseg₁, htake₁, -, -, -⟩ :=
    findNsegmentIdx_inv ht (by omega) hLo
  obtain ⟨L₂, t, R₂, hLR₂, hlen₂, hseg₂, htake₂, hdrop₂, -, -⟩ :=
    findNsegmentIdx_inv ht hhi hHi
  rw [hseg₁] at hs
  rw [hseg₂] at he
  -- the tiling cut below the first segment of the range
  have hcut₁ : SegTiled 0 sLo L₁ := by
    obtain ⟨q, hq, hs', -⟩ := tiled_append.mp (hLR₁ ▸ ht)
    rwa [← hs, hs']
  -- and above its last one
  have htake : am.nsegments.take (iHi + 1) = L₂ ++ [t] := by
    rw [hLR₂, ← hlen₂]
    simp [List.take_append]
  have hcut₂ : SegTiled 0 (sHi + 1) (L₂ ++ [t]) ∧ SegTiled (sHi + 1) wordMod R₂ := by
    obtain ⟨q, hq, ht', hlt', hR⟩ := tiled_append.mp (hLR₂ ▸ ht)
    simp only [he] at hR hlt'
    exact ⟨tiled_append.mpr ⟨q, hq, ht', by simp only [he]; exact hlt', by simp [he]⟩, hR⟩
  have hsplit : am.nsegments.take iLo ++ (am.nsegments.take (iHi + 1)).drop iLo = L₂ ++ [t] := by
    rw [← htake]
    conv_rhs => rw [← List.take_append_drop iLo (am.nsegments.take (iHi + 1))]
    rw [List.take_take, Nat.min_eq_left (by omega)]
  refine ⟨?_, by rwa [htake₁], ?_, by rw [hdrop₂]; exact hcut₂.2⟩
  · rw [hsplit, ← htake, List.take_append_drop]
  · obtain ⟨q, hq₁, hq₂⟩ := tiled_append.mp (hsplit ▸ hcut₂.1)
    rw [htake₁] at hq₁
    rwa [hq₁.end_unique hcut₁] at hq₂

/-- **Splitting at both ends of a range.** -/
theorem splitNsegmentsLoAndHi_spec (h : Wf am.segnames am.nsegments) (hhi : sHi < wordMod)
    (hok : splitNsegmentsLoAndHi am sLo sHi = .ok (am', iLo, iHi)) :
    ∃ segs, am' = { am with nsegments := segs } ∧ SplitOf am.segnames am.nsegments segs ∧
      findNsegmentIdx am' sLo = .ok iLo ∧ findNsegmentIdx am' sHi = .ok iHi ∧
      RangeOf sLo sHi segs (segs.take iLo) ((segs.take (iHi + 1)).drop iLo)
        (segs.drop (iHi + 1)) := by
  simp only [splitNsegmentsLoAndHi, bind_eq_ok, assertThat_eq_ok, exists_const, pure_eq_ok,
    Prod.mk.injEq] at hok
  obtain ⟨hlt, -, -, am₁, hok₁, am₂, hok₂, i, hi, j, hj, hle, hs, he, rfl, rfl, rfl⟩ := hok
  have h₁ : ∃ segs, am₁ = { am with nsegments := segs } ∧
      SplitOf am.segnames am.nsegments segs := by
    split_ifs at hok₁
    · obtain ⟨segs, rfl, hsp, -⟩ := splitNsegmentAt_spec h (by omega) hok₁
      exact ⟨segs, rfl, hsp⟩
    · exact ⟨am.nsegments, (pure_eq_ok.mp hok₁).symm, .refl h⟩
  obtain ⟨segs₁, rfl, hsp₁⟩ := h₁
  have h₂ : ∃ segs, am₂ = { am with nsegments := segs } ∧
      SplitOf am.segnames am.nsegments segs := by
    split_ifs at hok₂
    · obtain ⟨segs, rfl, hsp, -⟩ := splitNsegmentAt_spec hsp₁.wf (addW_lt _ _) hok₂
      exact ⟨segs, rfl, hsp₁.trans hsp⟩
    · exact ⟨segs₁, (pure_eq_ok.mp hok₂).symm, hsp₁⟩
  obtain ⟨segs₂, rfl, hsp₂⟩ := h₂
  exact ⟨segs₂, rfl, hsp₂, hi, hj, rangeOf_of_find hsp₂.wf.tiled hlt hhi hi hj hle hs he⟩

/-- A segment that holds a segment start begins there. -/
theorem start_of_startsAt (ht : SegTiled 0 wordMod segs) (hb : StartsAt b segs) (hs : s ∈ segs)
    (h₁ : s.start ≤ b) (h₂ : b ≤ s.end_) : s.start = b := by
  obtain ⟨t, htm, rfl⟩ := hb
  have htb := (ht.mem_bounds htm).2.1
  rw [ht.eq_of_common hs htm ⟨h₁, by omega⟩ ⟨le_refl _, htb⟩]

/-- Splitting at both ends succeeds when the array has room for two more
segments. -/
theorem splitNsegmentsLoAndHi_ok (h : Wf am.segnames am.nsegments) (hlt : sLo < sHi)
    (hhi : sHi < wordMod) (hal : isPageAligned sLo) (hah : isPageAligned (sHi + 1))
    (hlen : am.nsegments.length + 2 ≤ nSegmentsMax) :
    ∃ r, splitNsegmentsLoAndHi am sLo sHi = .ok r := by
  have h₁ : ∃ segs, (if 0 < sLo then splitNsegmentAt am sLo else pure am)
        = .ok { am with nsegments := segs } ∧ SplitOf am.segnames am.nsegments segs ∧
      segs.length ≤ am.nsegments.length + 1 ∧ (0 < sLo → StartsAt sLo segs) := by
    split_ifs with hpos
    · obtain ⟨am₁, hok, hle⟩ := splitNsegmentAt_ok am h (by omega) hpos hal (by omega)
      obtain ⟨segs, rfl, hsp, hst⟩ := splitNsegmentAt_spec h (by omega) hok
      exact ⟨segs, hok, hsp, hle, fun _ => hst⟩
    · exact ⟨am.nsegments, rfl, .refl h, Nat.le_succ _, fun hpos' => absurd hpos' hpos⟩
  obtain ⟨segs₁, hok₁, hsp₁, hle₁, hst₁⟩ := h₁
  have h₂ : ∃ segs, (if sHi < addW sHi 1 then
          splitNsegmentAt { am with nsegments := segs₁ } (addW sHi 1)
        else pure { am with nsegments := segs₁ }) = .ok { am with nsegments := segs } ∧
      SplitOf am.segnames segs₁ segs ∧ (sHi + 1 < wordMod → StartsAt (sHi + 1) segs) := by
    split_ifs with hpos
    · obtain ⟨am₂, hok, -⟩ := splitNsegmentAt_ok { am with nsegments := segs₁ } hsp₁.wf
        (addW_lt sHi 1) (by omega) (isPageAligned_addW.mpr hah) (by simp only; omega)
      obtain ⟨segs, rfl, hsp, hst⟩ := splitNsegmentAt_spec hsp₁.wf (addW_lt sHi 1) hok
      exact ⟨segs, hok, hsp, fun hw => by rwa [addW_of_lt hw] at hst⟩
    · refine ⟨segs₁, rfl, .refl hsp₁.wf, fun hw => absurd ?_ hpos⟩
      rw [addW_of_lt hw]
      omega
  obtain ⟨segs₂, hok₂, hsp₂, hst₂⟩ := h₂
  have ht : SegTiled 0 wordMod (Aspacem.nsegments { am with nsegments := segs₂ }) :=
    hsp₂.wf.tiled
  obtain ⟨L₁, s, R₁, hLR₁, hfind₁, hs₁, hs₂⟩ :=
    findNsegmentIdx_spec ht (show sLo < wordMod by omega)
  obtain ⟨L₂, t, R₂, hLR₂, hfind₂, ht₁, ht₂⟩ := findNsegmentIdx_spec ht hhi
  simp only at hLR₁ hLR₂
  have hseg₁ : Aspacem.seg { am with nsegments := segs₂ } L₁.length = s := by
    simp [Aspacem.seg, hLR₁]
  have hseg₂ : Aspacem.seg { am with nsegments := segs₂ } L₂.length = t := by
    simp [Aspacem.seg, hLR₂]
  have hs : s ∈ segs₂ := by simp [hLR₁]
  have ht' : t ∈ segs₂ := by simp [hLR₂]
  have hslo : s.start = sLo := by
    rcases Nat.eq_zero_or_pos sLo with h0 | hpos
    · omega
    · exact start_of_startsAt ht (hsp₂.starts _ (hst₁ hpos)) hs hs₁ hs₂
  have hthi : t.end_ = sHi := by
    by_contra hne
    have := (ht.mem_bounds ht').2.2
    have := start_of_startsAt ht (hst₂ (by omega)) ht' (by omega) (by omega)
    omega
  have hle : L₁.length ≤ L₂.length := by
    by_contra hgt
    have hasc := ht.ascending L₂.length L₁.length (by omega) (by simp [hLR₁])
    change _ ∧ _ ≤ (Aspacem.seg { am with nsegments := segs₂ } L₁.length).start ∧ _ at hasc
    simp only [hseg₁, hslo] at hasc
    have htd : segs₂.getD L₂.length default = t := hseg₂
    rw [htd] at hasc
    omega
  refine ⟨({ am with nsegments := segs₂ }, L₁.length, L₂.length), ?_⟩
  unfold splitNsegmentsLoAndHi
  simp only [assertThat_of, hlt, hal, isPageAligned_addW.mpr hah, hok₁, hok₂, hfind₁, hfind₂,
    hseg₁, hseg₂, hslo, hthi, hle, ok_bind]
  rfl

/-- Rewriting the segments of one range, the rest staying as it is. -/
theorem RangeOf.replace (h : RangeOf sLo sHi segs pre mid post) (hwf : Wf names segs)
    (ht : SegTiled sLo (sHi + 1) mid') (hs : ∀ s ∈ mid', Sane names s) :
    Wf names (pre ++ mid' ++ post) ∧ RangeOf sLo sHi (pre ++ mid' ++ post) pre mid' post := by
  refine ⟨⟨?_, fun s hmem => ?_⟩, rfl, h.pre_tiled, ht, h.post_tiled⟩
  · exact tiled_append.mpr ⟨_, tiled_append.mpr ⟨_, h.pre_tiled, ht⟩, h.post_tiled⟩
  · simp only [List.mem_append] at hmem
    rcases hmem with (hmem | hmem) | hmem
    · exact hwf.sane s (by simp [h.eq, hmem])
    · exact hs s hmem
    · exact hwf.sane s (by simp [h.eq, hmem])

/-- Addresses of the range are looked up in the range. -/
theorem RangeOf.segAt_mid (h : RangeOf sLo sHi segs pre mid post) (ha : sLo ≤ a ∧ a ≤ sHi) :
    segAt segs a = segAt mid a := by
  unfold segAt
  rw [h.eq, locate_append_left h.post_tiled (by omega), locate_append_right h.pre_tiled ha.1]

/-- Addresses outside the range do not see it. -/
theorem RangeOf.segAt_out (h : RangeOf sLo sHi segs pre mid post) (ha : ¬ (sLo ≤ a ∧ a ≤ sHi)) :
    segAt segs a = segAt (pre ++ post) a := by
  unfold segAt
  have hmid := h.mid_tiled.locate_eq_none (a := a) (by omega)
  rw [h.eq, locate_append, locate_append, locate_append, hmid, Option.or_none]

/-- **Adding a segment.** -/
structure AddOf (am : Aspacem) (seg : NSegment) (am' : Aspacem) : Prop where
  wf : Wf am'.segnames am'.nsegments
  preened : Preened am'.nsegments
  map : ∀ a, pageMap am'.nsegments a =
    if seg.start ≤ a ∧ a ≤ seg.end_ then some (seg.attrsAt a) else pageMap am.nsegments a
  hasT_in : ∀ a, seg.start ≤ a ∧ a ≤ seg.end_ → seg.hasT = true → pageT am'.nsegments a = true
  hasT_out : ∀ a, ¬ (seg.start ≤ a ∧ a ≤ seg.end_) → pageT am.nsegments a = true →
    pageT am'.nsegments a = true
  limits : ∃ segs names, am' = { am with nsegments := segs, segnames := names }

/-- `add_segment` overwrites the map on the range of the segment, and leaves the
array preened. -/
theorem addSegment_spec (h : Wf am.segnames am.nsegments) (hend : seg.end_ < wordMod)
    (hok : addSegment am seg = .ok am') : AddOf am seg am' := by
  simp only [addSegment, bind_eq_ok, assertThat_eq_ok, exists_const, Prod.exists] at hok
  obtain ⟨-, -, -, hsane, am₁, iLo, iHi, hsplit, hpreen⟩ := hok
  obtain ⟨segs, rfl, hsp, -, -, hr⟩ := splitNsegmentsLoAndHi_spec h hend hsplit
  have hlt : seg.start < seg.end_ := Sane.lt hsane
  have hseg : SegTiled seg.start (seg.end_ + 1) [seg] :=
    segTiled_cons.mpr ⟨rfl, by omega, rfl⟩
  obtain ⟨hwf, hr'⟩ := hr.replace hsp.wf hseg (fun s hs => by
    rw [List.mem_singleton.mp hs]
    exact hsane)
  simp only [List.append_assoc, List.singleton_append] at hwf hr'
  obtain ⟨segs', names', hpre, hof⟩ := preenNsegments_spec
    { am with nsegments := segs.take iLo ++ seg :: segs.drop (iHi + 1) } hwf
  rw [hpre, Except.ok.injEq] at hpreen
  subst hpreen
  have hin : ∀ a, seg.start ≤ a ∧ a ≤ seg.end_ →
      segAt (segs.take iLo ++ seg :: segs.drop (iHi + 1)) a = some seg := by
    intro a ha
    rw [hr'.segAt_mid ha, segAt_cons, if_pos ⟨ha.1, by omega⟩]
  have hout : ∀ a, ¬ (seg.start ≤ a ∧ a ≤ seg.end_) →
      segAt (segs.take iLo ++ seg :: segs.drop (iHi + 1)) a = segAt segs a := by
    intro a ha
    rw [hr'.segAt_out ha, hr.segAt_out ha]
  refine ⟨hof.wf, hof.preened, fun a => ?_, fun a ha hT => ?_, fun a ha hT => ?_, _, _, rfl⟩
  · rw [hof.map]
    split_ifs with ha
    · rw [pageMap, hin a ha]
      rfl
    · rw [pageMap, hout a ha]
      exact hsp.map a
  · refine hof.hasT a ?_
    rw [pageT, hin a ha]
    exact hT
  · refine hof.hasT a ?_
    rw [pageT, hout a ha]
    exact (hsp.hasT a).trans hT

/-- `add_segment` returns when the segment is sane and the array has room for
two more entries. -/
theorem addSegment_ok (h : Wf am.segnames am.nsegments) (hs : Sane am.segnames seg)
    (hend : seg.end_ < wordMod) (hlen : am.nsegments.length + 2 ≤ nSegmentsMax) :
    ∃ am', addSegment am seg = .ok am' := by
  obtain ⟨⟨am₁, iLo, iHi⟩, hsplit⟩ :=
    splitNsegmentsLoAndHi_ok h hs.lt hend hs.start_aligned hs.end_aligned hlen
  obtain ⟨segs, rfl, hsp, -, -, hr⟩ := splitNsegmentsLoAndHi_spec h hend hsplit
  have hseg : SegTiled seg.start (seg.end_ + 1) [seg] :=
    segTiled_cons.mpr ⟨rfl, Nat.lt_succ_of_lt hs.lt, rfl⟩
  obtain ⟨hwf, -⟩ := hr.replace hsp.wf hseg (fun s hmem => by
    rw [List.mem_singleton.mp hmem]
    exact hs)
  simp only [List.append_assoc, List.singleton_append] at hwf
  obtain ⟨segs', names', hpre, -⟩ := preenNsegments_spec
    { am with nsegments := segs.take iLo ++ seg :: segs.drop (iHi + 1) } hwf
  have hsane : saneNSegment am.segnames seg = true := hs
  refine ⟨{ am with nsegments := segs', segnames := names' }, ?_⟩
  unfold addSegment
  simp only [assertThat_of, hs.lt.le, hs.start_aligned, isPageAligned_addW.mpr hs.end_aligned,
    hsane, hsplit, ok_bind]
  exact hpre

/-! ## The array refines the page map -/

/-- Every page of the address space has attributes. -/
theorem Wf.exists_segAt (h : Wf names segs) (ha : a < wordMod) :
    ∃ s ∈ segs, segAt segs a = some s ∧ s.start ≤ a ∧ a ≤ s.end_ := by
  obtain ⟨s, hs⟩ := h.tiled.exists_locate (Nat.zero_le a) ha
  obtain ⟨hmem, h₁, h₂⟩ := mem_of_locate hs
  exact ⟨s, hmem, hs, h₁, Nat.lt_succ_iff.mp h₂⟩

/-- The single free segment that `VG_(am_startup)` begins with. -/
def freeEverywhere : NSegment := { initNsegment with start := 0, end_ := addrMax }

theorem wf_freeEverywhere : Wf names [freeEverywhere] := by
  have hmax := addrMax_add_one
  have hpage := pageSzB_lt_wordMod
  have hpos := pageSzB_pos
  have hend : isPageAligned (addW addrMax 1) := by
    rw [isPageAligned_addW, hmax]
    exact isPageAligned_wordMod
  refine ⟨segTiled_cons.mpr ⟨rfl, ?_, ?_⟩, fun s hs => ?_⟩
  · simp only [freeEverywhere]
    omega
  · simpa [freeEverywhere] using hmax
  · rw [List.mem_singleton.mp hs]
    have hlt : 0 < addrMax := by omega
    simp [Sane, saneNSegment, freeEverywhere, initNsegment, hlt, hend, isPageAligned_zero]

/-- **The segment array refines the page map.** On every well-formed array:
`add_segment` of a sane segment is the update of the map on the segment's range
(and it returns as long as the array has room for the two entries it may need);
`split_nsegment_at` and `preen_nsegments` do not change the map, and `hasT` bits
are at most set; preening leaves no mergeable neighbours and is idempotent. -/
theorem segmentArray_refines_pageMap (am : Aspacem) (h : Wf am.segnames am.nsegments) :
    (∀ seg, Sane am.segnames seg → seg.end_ < wordMod →
      (∀ am', addSegment am seg = .ok am' → ∀ a, pageMap am'.nsegments a =
        if seg.start ≤ a ∧ a ≤ seg.end_ then some (seg.attrsAt a)
        else pageMap am.nsegments a) ∧
      (am.nsegments.length + 2 ≤ nSegmentsMax → ∃ am', addSegment am seg = .ok am')) ∧
    (∀ a am', a < wordMod → splitNsegmentAt am a = .ok am' →
      ∀ x, pageMap am'.nsegments x = pageMap am.nsegments x ∧
        pageT am'.nsegments x = pageT am.nsegments x) ∧
    (∃ am', preenNsegments am = .ok am' ∧
      (∀ x, pageMap am'.nsegments x = pageMap am.nsegments x ∧
        (pageT am.nsegments x = true → pageT am'.nsegments x = true)) ∧
      Preened am'.nsegments ∧ preenNsegments am' = .ok am') := by
  refine ⟨fun seg hs hend => ⟨fun am' hok => (addSegment_spec h hend hok).map,
    addSegment_ok h hs hend⟩, fun a am' ha hok x => ?_, ?_⟩
  · obtain ⟨segs, rfl, hsp, -⟩ := splitNsegmentAt_spec h ha hok
    exact ⟨hsp.map x, hsp.hasT x⟩
  · obtain ⟨segs, names, hok, hof⟩ := preenNsegments_spec am h
    exact ⟨_, hok, fun x => ⟨hof.map x, hof.hasT x⟩, hof.preened, preenNsegments_idem h hok⟩

end Specs

/-- A segment of one page, mapped into an empty address space. -/
theorem segmentArray_refines_pageMap_onePage :
    letI : Machine := amd64Linux
    let am : Aspacem := ⟨[freeEverywhere], [], 0x4000000, 0xFFFFFFFFF, 0x4000000, 0x800000000⟩
    let seg : NSegment := { initNsegment with
      kind := .skAnonC, start := 0x5000000, end_ := 0x5000FFF, hasR := true }
    ∃ am', addSegment am seg = .ok am' ∧
      pageMap am'.nsegments 0x5000000 = some (seg.attrsAt 0x5000000) := by
  let _ : Machine := amd64Linux
  intro am seg
  obtain ⟨hadd, -, -⟩ := segmentArray_refines_pageMap am wf_freeEverywhere
  obtain ⟨hmap, hok⟩ := hadd seg (by decide) (by decide)
  obtain ⟨am', ham⟩ := hok (by decide)
  refine ⟨am', ham, ?_⟩
  rw [hmap am' ham, if_pos (by decide)]

end Valgrind.Aspacemgr
