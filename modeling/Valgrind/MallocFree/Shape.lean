import Valgrind.MallocFree.BlockSpecs

/-!
# The shape of a heap

A heap is a list of superblocks in address order, each cut into cells from end to
end. `Shaped` ties such a shape to the arena: the array of superblocks, the size
word at the head of each, and the marks of all the cells together.

Every operation of the allocator rewrites a run of cells of one superblock. A
`Place` is the rest of the heap around such a run; `Shaped.refill` is the one
argument that a rewriting keeps the shape.
-/

namespace Valgrind

namespace MallocFree

open ByteMem Machine Ring Intervals

/-- A superblock: its address, the number of its payload bytes, and how these are
divided. -/
structure Sblock where
  addr : Nat
  n : Nat
  cells : List Cell

/-- Where a superblock is. -/
def Sblock.ext (s : Sblock) : Nat × Nat := (s.addr, s.n)

/-- The cells of all superblocks, in address order. -/
def cellsOf (sbs : List Sblock) : List Cell := sbs.flatMap Sblock.cells

/-- The heap around a run of cells of one superblock. -/
structure Place where
  before : List Sblock
  addr : Nat
  n : Nat
  left : List Cell
  right : List Cell
  after : List Sblock

/-- A run of cells put in its place. -/
def Place.fill (k : Place) (K : List Cell) : List Sblock :=
  k.before ++ ⟨k.addr, k.n, k.left ++ K ++ k.right⟩ :: k.after

/-- All cells below the place. -/
def Place.lefts (k : Place) : List Cell := cellsOf k.before ++ k.left

/-- All cells above the place. -/
def Place.rights (k : Place) : List Cell := k.right ++ cellsOf k.after

theorem cellsOf_fill (k : Place) (K : List Cell) :
    cellsOf (k.fill K) = k.lefts ++ K ++ k.rights := by
  simp [cellsOf, Place.fill, Place.lefts, Place.rights]

theorem mem_cellsOf_fill {k : Place} {K : List Cell} {d : Cell} :
    d ∈ cellsOf (k.fill K) ↔ d ∈ K ∨ d ∈ k.lefts ++ k.rights := by
  rw [cellsOf_fill, List.append_assoc]
  exact List.perm_append_comm_assoc .. |>.mem_iff.trans List.mem_append

/-- The superblocks with other cells in the place. -/
theorem mem_fill_cases {k : Place} {K : List Cell} (K' : List Cell) {s : Sblock} (hs : s ∈ k.fill K) :
    s = ⟨k.addr, k.n, k.left ++ K ++ k.right⟩ ∨ s ∈ k.fill K' := by
  rcases List.mem_append.mp hs with hs | hs
  · exact .inr (List.mem_append_left _ hs)
  rcases List.mem_cons.mp hs with rfl | hs
  · exact .inl rfl
  · exact .inr (List.mem_append_right _ (List.mem_cons_of_mem _ hs))

theorem mem_sides {k : Place} {d : Cell} (hd : d ∈ k.left ++ k.right) : d ∈ k.lefts ++ k.rights := by
  rcases List.mem_append.mp hd with hd | hd
  · exact List.mem_append_left _ (List.mem_append_right _ hd)
  · exact List.mem_append_right _ (List.mem_append_left _ hd)

theorem exts_fill (k : Place) (K : List Cell) :
    (k.fill K).map Sblock.ext =
      k.before.map Sblock.ext ++ (k.addr, k.n) :: k.after.map Sblock.ext := by
  simp [Place.fill, Sblock.ext]

theorem mem_cellsOf {c : Cell} {sbs : List Sblock} :
    c ∈ cellsOf sbs ↔ ∃ s ∈ sbs, c ∈ s.cells := by
  simp [cellsOf]

/-- Every cell has a place. -/
theorem exists_place {c : Cell} {sbs : List Sblock} (hc : c ∈ cellsOf sbs) :
    ∃ k : Place, sbs = k.fill [c] := by
  obtain ⟨s, hs, hcs⟩ := mem_cellsOf.mp hc
  obtain ⟨before, after, rfl⟩ := List.append_of_mem hs
  obtain ⟨left, right, hcells⟩ := List.append_of_mem hcs
  refine ⟨⟨before, s.addr, s.n, left, right, after⟩, ?_⟩
  simp [Place.fill, ← hcells]

section

variable [Machine] (g : Config) (rz : Nat)

/-- The arena's array of superblocks, sorted by address, and their size words. -/
structure Superblocks (h : Heap) (xs : List (Nat × Nat)) : Prop where
  array : h.arena.sblocks = xs.map Prod.fst
  order : xs.Pairwise fun x y => x.1 + sizeofSuperblock + x.2 ≤ y.1
  header : ∀ x ∈ xs, nPayloadBytes g h.mem x.1 = x.2
  inside : ∀ x ∈ xs, 0 < x.1 ∧ x.1 + sizeofSuperblock + x.2 + pageSzB ≤ wordMod

/-- Where the cells of a superblock begin. -/
def Sblock.start (s : Sblock) : Nat := s.addr + sizeofSuperblock

/-- The heap has the shape `sbs`. -/
structure Shaped (h : Heap) (sbs : List Sblock) : Prop where
  marked : Marked g rz h (cellsOf sbs)
  sup : Superblocks g h (sbs.map Sblock.ext)
  tiled : ∀ s ∈ sbs, Tiled Cell.addr Cell.stop s.start (s.start + s.n) s.cells

variable {g rz} {h h' : Heap} {m m' : Mem} {c d : Cell} {k : Place} {K K' : List Cell}
  {sbs : List Sblock} {x : Nat}

theorem sizeofSuperblock_bounds :
    wordB ≤ sizeofSuperblock ∧ sizeofSuperblock ≤ 24 ∧ sizeofSuperblock % 8 = 0 := by
  unfold sizeofSuperblock minMallocSzB
  rcases word_ok with h | h <;> rw [h] <;> decide

/-- A cell lies inside its superblock. -/
theorem Shaped.cell_bounds (S : Shaped g rz h sbs) {s : Sblock} (hs : s ∈ sbs) (hc : c ∈ s.cells) :
    s.start ≤ c.addr ∧ c.stop ≤ s.start + s.n := by
  have hb := (S.tiled s hs).mem_bounds hc
  exact ⟨hb.1, hb.2.2⟩

/-- The superblocks of a heap stand apart. -/
theorem Superblocks.apart {xs : List (Nat × Nat)} (S : Superblocks g h xs) {x y : Nat × Nat}
    (hx : x ∈ xs) (hy : y ∈ xs) :
    x = y ∨ x.1 + sizeofSuperblock + x.2 ≤ y.1 ∨ y.1 + sizeofSuperblock + y.2 ≤ x.1 := by
  obtain ⟨l₁, l₂, rfl⟩ := List.append_of_mem hx
  obtain ⟨-, hr, hl⟩ := List.pairwise_append.mp S.order
  rcases List.mem_append.mp hy with hy | hy
  · exact .inr (.inr (hl y hy x (by simp)))
  · rcases List.mem_cons.mp hy with rfl | hy
    · exact .inl rfl
    · exact .inr (.inl ((List.pairwise_cons.mp hr).1 y hy))

/-- The admin bytes of a superblock belong to no cell. -/
theorem Shaped.admin_outside (S : Shaped g rz h sbs) {s : Sblock} (hs : s ∈ sbs) (h₁ : s.addr ≤ x)
    (h₂ : x < s.start) (hc : c ∈ cellsOf sbs) : x < c.addr ∨ c.stop ≤ x := by
  obtain ⟨t, ht, hct⟩ := mem_cellsOf.mp hc
  have hb := S.cell_bounds ht hct
  unfold Sblock.start at *
  rcases S.sup.apart (List.mem_map_of_mem hs) (List.mem_map_of_mem ht) with he | he | he
  · have h₃ : s.addr = t.addr := congrArg Prod.fst he
    omega
  · change s.addr + sizeofSuperblock + s.n ≤ t.addr at he
    omega
  · change t.addr + sizeofSuperblock + t.n ≤ s.addr at he
    omega

/-- The size words of the superblocks are out of reach of the operations on blocks. -/
theorem Shaped.sup_of_frame (S : Shaped g rz h sbs) (hF : Frame (cellsOf sbs) h.mem h'.mem)
    (ha : h'.arena.sblocks = h.arena.sblocks) : Superblocks g h' (sbs.map Sblock.ext) := by
  refine ⟨ha.trans S.sup.array, S.sup.order, fun x hx => ?_, S.sup.inside⟩
  rw [← S.sup.header x hx]
  obtain ⟨s, hs, rfl⟩ := List.mem_map.mp hx
  refine load_congr fun y h₁ h₂ => hF y fun c hc _ => S.admin_outside hs h₁ ?_ hc
  have := sizeofSuperblock_bounds.1
  change y < s.addr + wordB at h₂
  unfold Sblock.start
  omega

/-- The part of a superblock that a run of cells covers. -/
theorem Shaped.tiled_fill (S : Shaped g rz h (k.fill K)) :
    ∃ p q, Tiled Cell.addr Cell.stop (k.addr + sizeofSuperblock) p k.left ∧
      Tiled Cell.addr Cell.stop p q K ∧
      Tiled Cell.addr Cell.stop q (k.addr + sizeofSuperblock + k.n) k.right := by
  have hT := S.tiled ⟨k.addr, k.n, k.left ++ K ++ k.right⟩ (by simp [Place.fill])
  obtain ⟨q, hT, hr⟩ := tiled_append.mp hT
  obtain ⟨p, hl, hK⟩ := tiled_append.mp hT
  exact ⟨p, q, hl, hK, hr⟩

/-- **Rewriting a run of cells**: if the cells of the heap are marked after it, and
the new cells cover what the old ones covered, the heap keeps its shape. -/
theorem Shaped.refill (S : Shaped g rz h (k.fill K)) (M : Marked g rz h' (k.lefts ++ K' ++ k.rights))
    (hT : ∀ {p q}, Tiled Cell.addr Cell.stop p q K → Tiled Cell.addr Cell.stop p q K')
    (hF : Frame (k.lefts ++ K ++ k.rights) h.mem h'.mem)
    (ha : h'.arena.sblocks = h.arena.sblocks) : Shaped g rz h' (k.fill K') := by
  refine ⟨by rw [cellsOf_fill]; exact M, ?_, ?_⟩
  · rw [exts_fill, ← exts_fill k K]
    exact S.sup_of_frame (by rw [cellsOf_fill]; exact hF) ha
  · obtain ⟨p, q, hl, hK, hr⟩ := S.tiled_fill
    intro s hs
    rcases mem_fill_cases K hs with rfl | hs
    · exact tiled_append.mpr ⟨q, tiled_append.mpr ⟨p, hl, hT hK⟩, hr⟩
    · exact S.tiled s hs

end

end MallocFree

end Valgrind
