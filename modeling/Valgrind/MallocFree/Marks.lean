import Valgrind.MallocFree.Cells

/-!
# Memory and cells

`Marked g rz h cs` says that the memory and the free lists of the heap `h` are
those of the cells `cs`. The three functions of the allocator that create and
delete blocks each change the status of one cell:

- `unlinkBlock` takes a free cell to limbo,
- `mkFreeBlock` takes a cell from limbo to a free list,
- `mkInuseBlock` takes a cell from limbo to use.

Each of them returns (no assertion in it fails) and writes only to cells that
are not in use: `Frame cs m m'`. Cutting and gluing cells in limbo changes
nothing in memory (`Marked.retile`).
-/

namespace Valgrind

namespace MallocFree

open ByteMem Machine Ring Intervals

section

variable [Machine] (g : Config) (rz : Nat)

/-- The links of a free list form a ring through the cells `ring`, and the head of
the list is one of them. -/
structure FreeList (h : Heap) (lno : Nat) (ring : Cycle Cell) : Prop where
  links : IsRing Cell.addr (word g h.mem · .next) (word g h.mem · .prev) ring
  head : (ring = Cycle.nil ∧ h.arena.freelist lno = 0) ∨
    ∃ c ∈ ring, h.arena.freelist lno = c.addr

/-- The cell belongs on the free list `lno`. -/
def OnList (cs : List Cell) (lno : Nat) (c : Cell) : Prop :=
  c ∈ cs ∧ c.st = .free ∧ listNo (c.psz g rz) = lno

/-- Cells that can be blocks, one after the other. -/
structure Spread (cs : List Cell) : Prop where
  rzOk : RzOk g rz
  apart : Apart cs
  fits : ∀ c ∈ cs, c.Fits g rz

/-- Memory and free lists are those of the cells. -/
structure Marked (h : Heap) (cs : List Cell) : Prop extends Spread g rz cs where
  rz_eq : h.arena.rzSzB = rz
  tagged : ∀ c ∈ cs, c.st ≠ .limbo → Tagged g h.mem c
  lists : ∀ lno, ∃ ring, FreeList g h lno ring ∧ ∀ c, c ∈ ring ↔ OnList g rz cs lno c

/-- The byte belongs to no cell that is free or in limbo. -/
def Spared (cs : List Cell) (x : Nat) : Prop :=
  ∀ c ∈ cs, c.st ≠ .used → x < c.addr ∨ c.stop ≤ x

/-- Only bytes of cells that are not in use have changed. -/
def Frame (cs : List Cell) (m m' : Mem) : Prop := ∀ x, Spared cs x → m' x = m x

variable {g rz} {h h' : Heap} {m m' m'' : Mem} {c d : Cell} {cs cs' L R : List Cell}
  {lno v x : Nat}

/-! ## Frames -/

omit [Machine] in
@[simp] theorem spared_append : Spared (L ++ R) x ↔ Spared L x ∧ Spared R x := by
  simp only [Spared, List.mem_append]
  constructor
  · intro h
    exact ⟨fun c hc => h c (.inl hc), fun c hc => h c (.inr hc)⟩
  · rintro ⟨h₁, h₂⟩ c (hc | hc)
    · exact h₁ c hc
    · exact h₂ c hc

omit [Machine] in
@[simp] theorem spared_cons :
    Spared (c :: R) x ↔ (c.st ≠ .used → x < c.addr ∨ c.stop ≤ x) ∧ Spared R x := by
  simp [Spared]

omit [Machine] in
@[simp] theorem spared_nil : Spared [] x := by simp [Spared]

omit [Machine] in
theorem Frame.refl : Frame cs m m := fun _ _ => rfl

omit [Machine] in
theorem Frame.trans (h₁ : Frame cs m m') (h₂ : Frame cs' m' m'')
    (hs : ∀ x, Spared cs x → Spared cs' x) : Frame cs m m'' :=
  fun x hx => (h₂ x (hs x hx)).trans (h₁ x hx)

omit [Machine] in
theorem Frame.of_sameOff (hc : c ∈ cs) (hst : c.st ≠ .used) (hs : SameOff m m' c.addr c.stop) :
    Frame cs m m' :=
  fun x hx => hs x (hx c hc hst)

/-! ## Lists of cells -/

omit [Machine] in
theorem apart_become (st : Status) (h : Apart (L ++ c :: R)) : Apart (L ++ c.become st :: R) := by
  simp only [Apart, List.pairwise_append, List.pairwise_cons, List.mem_cons, forall_eq_or_imp] at h ⊢
  exact h

/-- A cell does not occur again among its neighbours. -/
theorem Apart.notMem (hA : Apart (L ++ c :: R)) (F : c.Fits g rz) (hz : RzOk g rz) :
    c ∉ L ∧ c ∉ R := by
  have hw := F.words hz
  have hlt : ¬ c.stop ≤ c.addr := by
    unfold Cell.stop
    omega
  obtain ⟨-, hr, hl⟩ := List.pairwise_append.mp hA
  constructor
  · intro hc
    exact hlt (hl c hc c (by simp))
  · intro hc
    exact hlt ((List.pairwise_cons.mp hr).1 c hc)

theorem Spread.become (S : Spread g rz (L ++ c :: R)) (st : Status) :
    Spread g rz (L ++ c.become st :: R) := by
  refine ⟨S.rzOk, apart_become st S.apart, fun d hd => ?_⟩
  rcases List.mem_append.mp hd with hd | hd
  · exact S.fits d (by simp [hd])
  · rcases List.mem_cons.mp hd with rfl | hd
    · exact (S.fits c (by simp)).become st
    · exact S.fits d (by simp [hd])

theorem onList_of_not_free (hc : c.st ≠ .free) :
    OnList g rz (L ++ c :: R) lno d ↔ OnList g rz (L ++ R) lno d := by
  simp only [OnList, List.mem_append, List.mem_cons]
  constructor
  · rintro ⟨h₁ | rfl | h₁, h₂⟩
    · exact ⟨.inl h₁, h₂⟩
    · exact absurd h₂.1 hc
    · exact ⟨.inr h₁, h₂⟩
  · rintro ⟨h₁ | h₁, h₂⟩
    · exact ⟨.inl h₁, h₂⟩
    · exact ⟨.inr (.inr h₁), h₂⟩

theorem onList_of_free (hc : c.st = .free) :
    OnList g rz (L ++ c :: R) lno d ↔
      (d = c ∧ listNo (c.psz g rz) = lno) ∨ OnList g rz (L ++ R) lno d := by
  simp only [OnList, List.mem_append, List.mem_cons]
  constructor
  · rintro ⟨h₁ | rfl | h₁, h₂⟩
    · exact .inr ⟨.inl h₁, h₂⟩
    · exact .inl ⟨rfl, h₂.2⟩
    · exact .inr ⟨.inr h₁, h₂⟩
  · rintro (⟨rfl, h₁⟩ | ⟨h₁ | h₁, h₂⟩)
    · exact ⟨.inr (.inl rfl), hc, h₁⟩
    · exact ⟨.inl h₁, h₂⟩
    · exact ⟨.inr (.inr h₁), h₂⟩

theorem OnList.mem_left (h : OnList g rz (L ++ R) lno d) : d ∈ L ++ c :: R :=
  List.perm_middle.mem_iff.mpr (List.mem_cons_of_mem c h.1)

/-! ## The words that matter -/

/-- A free list depends on its links and its head. -/
theorem FreeList.congr {ring : Cycle Cell} (hl : FreeList g h lno ring)
    (hfl : h'.arena.freelist lno = h.arena.freelist lno)
    (hw : ∀ c ∈ ring, word g h'.mem c .next = word g h.mem c .next ∧
      word g h'.mem c .prev = word g h.mem c .prev) : FreeList g h' lno ring :=
  ⟨hl.links.congr (fun c hc => (hw c hc).1) fun c hc => (hw c hc).2, by rw [hfl]; exact hl.head⟩

/-- The heap depends on the size words of its blocks, the links of the free ones,
and the heads of the lists. -/
theorem Marked.congr (M : Marked g rz h cs) (hrz : h'.arena.rzSzB = h.arena.rzSzB)
    (hfl : h'.arena.freelist = h.arena.freelist)
    (hw : ∀ c ∈ cs, c.st ≠ .limbo → ∀ f, c.st = .free ∨ f = .lo ∨ f = .hi →
      word g h'.mem c f = word g h.mem c f) : Marked g rz h' cs := by
  refine ⟨M.toSpread, hrz.trans M.rz_eq, ?_, ?_⟩
  · intro c hc hst
    have hT := M.tagged c hc hst
    exact ⟨(hw c hc hst .lo (by simp)).trans hT.lo, (hw c hc hst .hi (by simp)).trans hT.hi⟩
  · intro lno
    obtain ⟨ring, hl, hm⟩ := M.lists lno
    refine ⟨ring, hl.congr (by rw [hfl]) ?_, hm⟩
    intro c hc
    obtain ⟨hmem, hfree, -⟩ := (hm c).mp hc
    have hst : c.st ≠ .limbo := by
      rw [hfree]
      decide
    exact ⟨hw c hmem hst .next (.inl hfree), hw c hmem hst .prev (.inl hfree)⟩

/-- A change inside a cell in limbo goes unnoticed. -/
theorem Marked.of_sameOff (M : Marked g rz h cs) (hc : c ∈ cs) (hst : c.st = .limbo)
    (hs : SameOff h.mem m' c.addr c.stop) : Marked g rz { h with mem := m' } cs := by
  refine M.congr rfl rfl ?_
  intro d hd hdst f _
  refine word_of_sameOff M.rzOk hs (M.fits d hd) (M.apart.stop_le hc hd ?_) f
  rintro rfl
  exact hdst hst

/-- Between use and limbo nothing but the size words matters. -/
theorem Marked.become (M : Marked g rz h (L ++ c :: R)) {st : Status} (hc : c.st ≠ .free)
    (hst : st ≠ .free) (hT : st ≠ .limbo → Tagged g h.mem (c.become st)) :
    Marked g rz h (L ++ c.become st :: R) := by
  refine ⟨M.toSpread.become st, M.rz_eq, ?_, ?_⟩
  · intro d hd hdst
    rcases List.mem_append.mp hd with hd | hd
    · exact M.tagged d (by simp [hd]) hdst
    · rcases List.mem_cons.mp hd with rfl | hd
      · exact hT hdst
      · exact M.tagged d (by simp [hd]) hdst
  · intro lno
    obtain ⟨ring, hl, hm⟩ := M.lists lno
    refine ⟨ring, hl, fun d => ?_⟩
    rw [hm d, onList_of_not_free hc, onList_of_not_free (by exact hst)]

/-- Cells in limbo can be cut up in another way. -/
theorem Marked.retile {K K' : List Cell} (M : Marked g rz h (L ++ K ++ R)) {p q : Nat}
    (hne : K ≠ []) (hK : Tiled Cell.addr Cell.stop p q K) (hl : ∀ c ∈ K, c.st = .limbo)
    (hK' : Tiled Cell.addr Cell.stop p q K') (hl' : ∀ c ∈ K', c.st = .limbo)
    (hF : ∀ c ∈ K', c.Fits g rz) : Marked g rz h (L ++ K' ++ R) := by
  have hon : ∀ {K : List Cell} {lno d}, (∀ c ∈ K, c.st = .limbo) →
      (OnList g rz (L ++ K ++ R) lno d ↔ OnList g rz (L ++ R) lno d) := by
    intro K lno d hK
    simp only [OnList, List.mem_append]
    constructor
    · rintro ⟨(h₁ | h₁) | h₁, h₂⟩
      · exact ⟨.inl h₁, h₂⟩
      · rw [hK d h₁] at h₂
        exact nomatch h₂.1
      · exact ⟨.inr h₁, h₂⟩
    · rintro ⟨h₁ | h₁, h₂⟩
      · exact ⟨.inl (.inl h₁), h₂⟩
      · exact ⟨.inr h₁, h₂⟩
  refine ⟨⟨M.rzOk, ?_, ?_⟩, M.rz_eq, ?_, ?_⟩
  · have hA := M.apart
    simp only [Apart, List.pairwise_append, List.mem_append] at hA ⊢
    obtain ⟨⟨hL, -, hLK⟩, hR, hLR⟩ := hA
    obtain ⟨c, K₁, rfl⟩ := List.exists_cons_of_ne_nil hne
    have hlast := List.getLast_mem (List.cons_ne_nil c K₁)
    have hq : ((c :: K₁).getLast (List.cons_ne_nil c K₁)).stop = q := by
      have hsplit := List.dropLast_append_getLast (List.cons_ne_nil c K₁)
      rw [← hsplit, tiled_append] at hK
      obtain ⟨r, -, -, -, h₁⟩ := hK
      exact h₁
    refine ⟨⟨hL, hK'.pairwise, fun x hx y hy => ?_⟩, hR, ?_⟩
    · have h₁ := hLK x hx c (by simp)
      rw [hK.1] at h₁
      exact h₁.trans (hK'.mem_bounds hy).1
    · rintro x (hx | hx) z hz
      · exact hLR x (.inl hx) z hz
      · have h₁ := hLR _ (.inr hlast) z hz
        rw [hq] at h₁
        exact (hK'.mem_bounds hx).2.2.trans h₁
  · intro c hc
    simp only [List.mem_append] at hc
    rcases hc with (hc | hc) | hc
    · exact M.fits c (by simp [hc])
    · exact hF c hc
    · exact M.fits c (by simp [hc])
  · intro c hc hst
    simp only [List.mem_append] at hc
    rcases hc with (hc | hc) | hc
    · exact M.tagged c (by simp [hc]) hst
    · exact absurd (hl' c hc) hst
    · exact M.tagged c (by simp [hc]) hst
  · intro lno
    obtain ⟨ring, hlist, hm⟩ := M.lists lno
    exact ⟨ring, hlist, fun d => by rw [hm d, hon hl, hon hl']⟩

/-- One cell changes its status, and with it one free list. -/
theorem Marked.relist (M : Marked g rz h (L ++ c :: R)) {st : Status}
    (hrz : h'.arena.rzSzB = h.arena.rzSzB) (hlno : listNo (c.psz g rz) = lno)
    (hw : ∀ d ∈ L ++ R, ∀ f, f = .lo ∨ f = .hi ∨ listNo (d.psz g rz) ≠ lno →
      word g h'.mem d f = word g h.mem d f)
    (hT : st ≠ .limbo → Tagged g h'.mem (c.become st))
    (hfl : ∀ l, l ≠ lno → h'.arena.freelist l = h.arena.freelist l)
    (hring : ∃ ring, FreeList g h' lno ring ∧
      ∀ d, d ∈ ring ↔ OnList g rz (L ++ c.become st :: R) lno d) :
    Marked g rz h' (L ++ c.become st :: R) := by
  have htags : ∀ d ∈ L ++ R, Tagged g h.mem d → Tagged g h'.mem d := fun d hd hT =>
    ⟨(hw d hd .lo (by simp)).trans hT.lo, (hw d hd .hi (by simp)).trans hT.hi⟩
  refine ⟨M.toSpread.become st, hrz.trans M.rz_eq, ?_, ?_⟩
  · intro d hd hdst
    rcases List.mem_append.mp hd with hd | hd
    · exact htags d (by simp [hd]) (M.tagged d (by simp [hd]) hdst)
    · rcases List.mem_cons.mp hd with rfl | hd
      · exact hT hdst
      · exact htags d (by simp [hd]) (M.tagged d (by simp [hd]) hdst)
  · intro l
    by_cases hll : l = lno
    · subst hll
      exact hring
    · obtain ⟨ring, hlist, hm⟩ := M.lists l
      -- neither before nor after does the cell belong on list `l`
      have hon : ∀ {e : Cell}, e.psz g rz = c.psz g rz → ∀ d,
          OnList g rz (L ++ e :: R) l d ↔ OnList g rz (L ++ R) l d := by
        intro e he d
        by_cases hfree : e.st = .free
        · rw [onList_of_free hfree, he, hlno]
          constructor
          · rintro (⟨-, h₁⟩ | h₁)
            · exact absurd h₁.symm hll
            · exact h₁
          · exact .inr
        · exact onList_of_not_free hfree
      refine ⟨ring, hlist.congr (hfl l hll) ?_, fun d => ?_⟩
      · intro d hd
        have hd' := (hon rfl d).mp ((hm d).mp hd)
        have hdl : listNo (d.psz g rz) ≠ lno := by
          rw [hd'.2.2]
          exact hll
        exact ⟨hw d hd'.1 .next (.inr (.inr hdl)), hw d hd'.1 .prev (.inr (.inr hdl))⟩
      · rw [hm d, hon rfl, hon (e := c.become st) rfl]

end

end MallocFree

end Valgrind
