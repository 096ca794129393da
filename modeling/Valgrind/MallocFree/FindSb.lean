import Valgrind.MallocFree.Block

/-!
# The superblock of a block (`findSb`)

The binary search starts with bounds of which the upper one is past the end of the array, and its
bounds are unsigned. While the superblock looked for is between the bounds, the place that is
probed is in the array, and the upper bound is lowered only from a place behind that superblock,
so that it does not wrap.
-/

namespace Valgrind

namespace MallocFree

open ByteMem Machine Relation

section

variable [Machine] (g : Config) (h : Heap) (b : Nat)

/-- The superblocks of an arena are sorted and disjoint. The address behind a superblock is an
address, as it is for every object of C. -/
structure SortedSblocks : Prop where
  order : h.arena.sblocks.Pairwise fun x y => x + sizeofSuperblock + nPayloadBytes g h.mem x ≤ y
  inside : ∀ sb ∈ h.arena.sblocks, sb + sizeofSuperblock + nPayloadBytes g h.mem sb < wordMod

/-- The block is in the payload of the superblock. -/
def InPayloadOf (sb : Nat) : Prop := sb + sizeofSuperblock ≤ b ∧ b < sb + sizeofSuperblock + nPayloadBytes g h.mem sb

/-- `pos`, from the bounds `min` and `max`. -/
def findSbPos (bounds : Nat × Nat) : Nat := addW bounds.1 (subW bounds.2 bounds.1 / 2)

/-- `sb`, from the bounds. -/
def findSbProbe (bounds : Nat × Nat) : Nat := h.arena.sblocks.getD (findSbPos bounds) 0

/-- A turn of the loop of `findSb` after which the search goes on, and its bounds then. -/
inductive FindSbTurn : Nat × Nat → Nat × Nat → Prop where
  | up {bounds : Nat × Nat} : bounds.1 ≤ bounds.2 → payloadBytes (findSbProbe h bounds) ≤ b →
      ¬ b < addW (payloadBytes (findSbProbe h bounds)) (nPayloadBytes g h.mem (findSbProbe h bounds)) →
      FindSbTurn bounds (addW (findSbPos bounds) 1, bounds.2)
  | down {bounds : Nat × Nat} : bounds.1 ≤ bounds.2 → ¬ payloadBytes (findSbProbe h bounds) ≤ b →
      FindSbTurn bounds (bounds.1, subW (findSbPos bounds) 1)

/-- The superblock at place `k` is between the bounds. -/
structure Brackets (k : Nat) (bounds : Nat × Nat) : Prop where
  min_le : bounds.1 ≤ k
  le_max : k ≤ bounds.2
  max_le : bounds.2 ≤ h.arena.sblocks.length

variable {g h b} {bounds bounds' : Nat × Nat} {i j k x y sb fuel : Nat}

theorem SortedSblocks.before (S : SortedSblocks g h) (hi : h.arena.sblocks[i]? = some x)
    (hj : h.arena.sblocks[j]? = some y) (hij : i < j) : x + sizeofSuperblock + nPayloadBytes g h.mem x ≤ y := by
  obtain ⟨hi', rfl⟩ := List.getElem?_eq_some_iff.mp hi
  obtain ⟨hj', rfl⟩ := List.getElem?_eq_some_iff.mp hj
  exact List.pairwise_iff_getElem.mp S.order i j hi' hj' hij

theorem one_lt_sizeofSuperblock : 1 < sizeofSuperblock := by
  unfold sizeofSuperblock
  have hword : 0 < wordB := by rcases word_ok with h | h <;> omega
  omega

/-- The superblocks are at ascending addresses, so that there are fewer of them than addresses. -/
theorem SortedSblocks.index_le (S : SortedSblocks g h) (hi : h.arena.sblocks[i]? = some x) : i ≤ x := by
  induction i generalizing x with
  | zero => exact Nat.zero_le x
  | succ i ih =>
    have hlt := Nat.lt_of_succ_lt (List.getElem?_eq_some_iff.mp hi).1
    have hget := List.getElem?_eq_getElem hlt
    have hle := ih hget
    have hb := S.before hget hi (Nat.lt_succ_self i)
    have hsize := one_lt_sizeofSuperblock
    omega

theorem SortedSblocks.length_lt (S : SortedSblocks g h) (hne : h.arena.sblocks ≠ []) :
    h.arena.sblocks.length + 1 < wordMod := by
  have hpos : 0 < h.arena.sblocks.length := List.length_pos_iff.mpr hne
  have hget := List.getElem?_eq_getElem (Nat.sub_lt hpos one_pos)
  have hle := S.index_le hget
  have hin := S.inside _ (List.mem_of_getElem? hget)
  have hsize := one_lt_sizeofSuperblock
  omega

theorem SortedSblocks.payloadBytes_eq (S : SortedSblocks g h) (hx : h.arena.sblocks[i]? = some x) :
    payloadBytes x = x + sizeofSuperblock ∧
      addW (payloadBytes x) (nPayloadBytes g h.mem x) = x + sizeofSuperblock + nPayloadBytes g h.mem x := by
  have hin := S.inside x (List.mem_of_getElem? hx)
  have hpay : payloadBytes x = x + sizeofSuperblock := addW_of_lt (by omega)
  exact ⟨hpay, by rw [hpay, addW_of_lt hin]⟩

/-- While the superblock is between the bounds, the loop probes the array, between the bounds. -/
theorem Brackets.pos (B : Brackets h k bounds) (hk : k < h.arena.sblocks.length) (hlen : h.arena.sblocks.length + 1 < wordMod) :
    findSbPos bounds < h.arena.sblocks.length ∧ bounds.1 ≤ findSbPos bounds ∧ findSbPos bounds ≤ bounds.2 := by
  have h₁ := B.min_le
  have h₂ := B.le_max
  have h₃ := B.max_le
  have hpos : findSbPos bounds = bounds.1 + (bounds.2 - bounds.1) / 2 := by
    rw [findSbPos, subW_of_le (by omega) (h₁.trans h₂), addW_of_lt (by omega)]
  omega

/-- What is probed is in the array. -/
theorem Brackets.probe (B : Brackets h k bounds) (hk : k < h.arena.sblocks.length) (hlen : h.arena.sblocks.length + 1 < wordMod) :
    h.arena.sblocks[findSbPos bounds]? = some (findSbProbe h bounds) := by
  have hget := List.getElem?_eq_getElem (B.pos hk hlen).1
  rw [findSbProbe, List.getD_eq_getElem?_getD, hget]
  rfl

/-- The probe is the superblock, or it is on one side of it. -/
theorem SortedSblocks.side (S : SortedSblocks g h) (hi : h.arena.sblocks[i]? = some x) (hsb : h.arena.sblocks[k]? = some sb)
    (hb : InPayloadOf g h b sb) : i = k ∧ x = sb ∨ i < k ∧ x + sizeofSuperblock + nPayloadBytes g h.mem x ≤ b ∨
      k < i ∧ b < x + sizeofSuperblock := by
  obtain ⟨hlo, hhi⟩ := hb
  rcases Nat.lt_trichotomy i k with hlt | rfl | hgt
  · have hord := S.before hi hsb hlt
    exact .inr (.inl ⟨hlt, by omega⟩)
  · exact .inl ⟨rfl, Option.some.inj (hi.symm.trans hsb)⟩
  · have hord := S.before hsb hi hgt
    exact .inr (.inr ⟨hgt, by omega⟩)

/-- **One turn** keeps the superblock between the bounds and moves them closer. The upper bound is
lowered from a place behind the superblock only, so that it does not wrap. -/
theorem Brackets.turn (S : SortedSblocks g h) (B : Brackets h k bounds) (hsb : h.arena.sblocks[k]? = some sb)
    (hb : InPayloadOf g h b sb) (hturn : FindSbTurn g h b bounds bounds') :
    Brackets h k bounds' ∧ bounds'.2 + 1 - bounds'.1 < bounds.2 + 1 - bounds.1 := by
  have hk := (List.getElem?_eq_some_iff.mp hsb).1
  have hlen := S.length_lt (List.ne_nil_of_length_pos (Nat.zero_lt_of_lt hk))
  obtain ⟨hpos, hmin, hmax⟩ := B.pos hk hlen
  have hprobe := B.probe hk hlen
  obtain ⟨hpay, hend⟩ := S.payloadBytes_eq hprobe
  obtain ⟨hlo, hhi⟩ := hb
  cases hturn with
  | up hle hup hnot =>
    rw [hend] at hnot
    have hbelow : findSbPos bounds < k := by
      rcases S.side hprobe hsb ⟨hlo, hhi⟩ with ⟨-, he⟩ | ⟨hlt, -⟩ | ⟨-, hb⟩
      · rw [he] at hnot
        omega
      · exact hlt
      · omega
    rw [addW_of_lt (by omega)]
    exact ⟨⟨hbelow, B.le_max, B.max_le⟩, by dsimp only; omega⟩
  | down hle hdown =>
    have habove : k < findSbPos bounds := by
      rcases S.side hprobe hsb ⟨hlo, hhi⟩ with ⟨-, he⟩ | ⟨-, hb⟩ | ⟨hgt, -⟩
      · rw [hpay, he] at hdown
        omega
      · omega
      · exact hgt
    rw [subW_of_le (by omega) (by omega)]
    exact ⟨⟨B.min_le, by dsimp only; omega, by dsimp only; omega⟩, by dsimp only; omega⟩

theorem findSbLoop_eq (hle : bounds.1 ≤ bounds.2) (hpos : findSbPos bounds < h.arena.sblocks.length) :
    findSbLoop g h b (fuel + 1) bounds.1 bounds.2 =
      if payloadBytes (findSbProbe h bounds) ≤ b ∧
          b < addW (payloadBytes (findSbProbe h bounds)) (nPayloadBytes g h.mem (findSbProbe h bounds)) then
        .ok (findSbProbe h bounds)
      else if payloadBytes (findSbProbe h bounds) ≤ b then findSbLoop g h b fuel (addW (findSbPos bounds) 1) bounds.2
      else findSbLoop g h b fuel bounds.1 (subW (findSbPos bounds) 1) := by
  rw [findSbLoop, if_pos hle]
  dsimp only
  rw [← findSbPos, assertThat_of hpos, ok_bind]
  rfl

/-- The loop goes on as the turn says. -/
theorem FindSbTurn.loop (hturn : FindSbTurn g h b bounds bounds') (hpos : findSbPos bounds < h.arena.sblocks.length) :
    findSbLoop g h b (fuel + 1) bounds.1 bounds.2 = findSbLoop g h b fuel bounds'.1 bounds'.2 := by
  cases hturn with
  | up hle hup hnot =>
    rw [findSbLoop_eq hle hpos, if_neg fun h => hnot h.2, if_pos hup]
  | down hle hdown =>
    rw [findSbLoop_eq hle hpos, if_neg fun h => hdown h.1, if_neg hdown]

/-- **The loop** finds the superblock that is between its bounds. -/
theorem Brackets.found (S : SortedSblocks g h) (B : Brackets h k bounds) (hsb : h.arena.sblocks[k]? = some sb)
    (hb : InPayloadOf g h b sb) (hfuel : bounds.2 + 1 - bounds.1 < fuel) :
    findSbLoop g h b fuel bounds.1 bounds.2 = .ok sb := by
  have hk := (List.getElem?_eq_some_iff.mp hsb).1
  have hlen := S.length_lt (List.ne_nil_of_length_pos (Nat.zero_lt_of_lt hk))
  induction fuel generalizing bounds with
  | zero => exact absurd hfuel (Nat.not_lt_zero _)
  | succ fuel ih =>
    have hle := B.min_le.trans B.le_max
    have hpos := (B.pos hk hlen).1
    have hgoes : ∀ bounds', FindSbTurn g h b bounds bounds' → findSbLoop g h b (fuel + 1) bounds.1 bounds.2 = .ok sb := by
      intro bounds' hturn
      obtain ⟨B', hless⟩ := B.turn S hsb hb hturn
      rw [hturn.loop hpos]
      exact ih B' (by omega)
    by_cases hup : payloadBytes (findSbProbe h bounds) ≤ b
    · by_cases hend : b < addW (payloadBytes (findSbProbe h bounds)) (nPayloadBytes g h.mem (findSbProbe h bounds))
      · rw [findSbLoop_eq hle hpos, if_pos ⟨hup, hend⟩]
        have hprobe := B.probe hk hlen
        obtain ⟨hpay, hstop⟩ := S.payloadBytes_eq hprobe
        rw [hstop] at hend
        rw [hpay] at hup
        rcases S.side hprobe hsb hb with ⟨-, he⟩ | ⟨-, hout⟩ | ⟨-, hout⟩
        · rw [he]
        · omega
        · omega
      · exact hgoes _ (.up hle hup hend)
    · exact hgoes _ (.down hle hup)

/-- **`findSb`** returns the superblock in whose payload the block is. Whenever the head of the
loop is reached, the superblock is between the bounds, the upper bound has not wrapped, and the
place that is probed is in the array. -/
theorem findSb_finds (S : SortedSblocks g h) (hsb : h.arena.sblocks[k]? = some sb) (hb : InPayloadOf g h b sb) :
    findSb g h b = .ok sb ∧ ∀ bounds, ReflTransGen (FindSbTurn g h b) (0, h.arena.sblocks.length) bounds →
      bounds.1 ≤ k ∧ k ≤ bounds.2 ∧ bounds.2 ≤ h.arena.sblocks.length ∧ findSbPos bounds < h.arena.sblocks.length := by
  have hk := (List.getElem?_eq_some_iff.mp hsb).1
  have hlen := S.length_lt (List.ne_nil_of_length_pos (Nat.zero_lt_of_lt hk))
  have B₀ : Brackets h k (0, h.arena.sblocks.length) := ⟨Nat.zero_le k, hk.le, Nat.le_refl _⟩
  refine ⟨?_, fun bounds hreach => ?_⟩
  · exact B₀.found S hsb hb (by dsimp only; omega)
  · have B : Brackets h k bounds := by
      induction hreach with
      | refl => exact B₀
      | tail _ hturn ih => exact (ih.turn S hsb hb hturn).1
    exact ⟨B.min_le, B.le_max, B.max_le, (B.pos hk hlen).1⟩

/-- Two superblocks with payloads of 16843009 bytes each. -/
def twoSuperblocks : Heap where
  mem := fun _ => 1
  arena := {
    clientmem := false
    rzSzB := 8
    minSblockSzB := 1048576
    freelist := fun _ => 0
    sblocks := [4096, 33554432]
    sblocksSize := 50
    bytesOnLoan := 0
    bytesMmaped := 0
    bytesOnLoanMax := 0
    nextProfileAt := 0 }

omit [Machine] in
/-- A block in the second of two superblocks. -/
theorem findSb_finds_second :
    letI : Machine := x86Linux
    findSb ⟨.little, false, fun _ => 1, fun _ _ => .ok ()⟩ twoSuperblocks 33554496 = .ok 33554432 ∧
      ∀ bounds, ReflTransGen (FindSbTurn ⟨.little, false, fun _ => 1, fun _ _ => .ok ()⟩ twoSuperblocks 33554496) (0, 2) bounds →
        bounds.1 ≤ 1 ∧ 1 ≤ bounds.2 ∧ bounds.2 ≤ 2 ∧ findSbPos bounds < 2 := by
  let _ : Machine := x86Linux
  exact findSb_finds (k := 1) ⟨by decide, by decide⟩ rfl ⟨by decide, by decide⟩

end

end MallocFree

end Valgrind
