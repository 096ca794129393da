import Valgrind.Drd.BitmapHeap
import Valgrind.Drd.BitmapWords

/-!
# Accesses to ranges of addresses

`BmHeap.has` is the set of accesses that a bitmap has recorded. The queries return what it says
(`bmHas1_spec`, `bmHasAny_spec`), and the functions that record and clear accesses change it
for one bitmap only (`Edits`). A loop over the blocks of a range is covered by `forBlocks_rule`.
-/

namespace Valgrind.Drd

open BitArray

section

variable [Machine]

open Machine

/-! ## Blocks and addresses -/

theorem addr0Count_dvd : addr0Count * nBlocks = wordMod := by
  unfold nBlocks
  rw [addr0Count_eq]
  rcases wordMod_cases with h | h <;> rw [h]

theorem div_lt_nBlocks {a : Nat} (ha : a < wordMod) : a / addr0Count < nBlocks := by
  rw [Nat.div_lt_iff_lt_mul (by decide), Nat.mul_comm, addr0Count_dvd]
  exact ha

/-- The address has been accessed. -/
def BmHeap.has (h : BmHeap) (b a : Nat) (x : Row) : Bool :=
  bit ((h.content b (a / addr0Count)).bm0 x) (a % addr0Count)

variable {h h' h'' : BmHeap} {b c k a a1 a2 p : Nat} {m : Bitmap} {x : Row}

theorem has_of_none (href : h.ref b (a / addr0Count) = none) : h.has b a x = false := by
  rw [BmHeap.has, content_of_none href]
  unfold Bitmap1.zero bit
  simp

theorem SameContent.has (hs : SameContent h h') : h'.has b a x = h.has b a x := by
  rw [BmHeap.has, BmHeap.has, hs.content]

/-! ## Edits -/

/-- One bitmap has changed, and `f` says how. -/
structure Edits (h h' : BmHeap) (b : Nat) (f : Nat → Row → Bool → Bool) : Prop where
  live : ∀ c, (h'.bms c).isSome = (h.bms c).isSome
  nextBm : h'.nextBm = h.nextBm
  has : ∀ a x, h'.has b a x = f a x (h.has b a x)
  other : ∀ c, c ≠ b → ∀ a x, h'.has c a x = h.has c a x

variable {f g : Nat → Row → Bool → Bool}

theorem Edits.of_same (hs : SameContent h h') : Edits h h' b fun _ _ v => v :=
  ⟨hs.live, hs.nextBm, fun _ _ => hs.has, fun _ _ _ _ => hs.has⟩

theorem Edits.trans (he : Edits h h' b f) (he' : Edits h' h'' b g) : Edits h h'' b fun a x v => g a x (f a x v) :=
  ⟨fun c => (he'.live c).trans (he.live c), he'.nextBm.trans he.nextBm,
    fun a x => by rw [he'.has, he.has], fun c hc a x => (he'.other c hc a x).trans (he.other c hc a x)⟩

theorem Edits.congr (he : Edits h h' b f) (hfg : ∀ a x v, f a x v = g a x v) : Edits h h' b g :=
  ⟨he.live, he.nextBm, fun a x => (he.has a x).trans (hfg a x _), he.other⟩

theorem Edits.congr' (he : Edits h h' b f) (hfg : ∀ a x, f a x (h.has b a x) = g a x (h.has b a x)) : Edits h h' b g :=
  ⟨he.live, he.nextBm, fun a x => (he.has a x).trans (hfg a x), he.other⟩

theorem Edits.exists_bm (he : Edits h h' b f) (hm : h.bms b = some m) : ∃ m', h'.bms b = some m' := by
  have hlive := he.live b
  rw [hm] at hlive
  exact Option.isSome_iff_exists.mp hlive

/-- The map of a block, which is not shared, is modified. -/
theorem edits_modify (hok : h.Ok) (hown : Owns h b k p) {F : Bitmap1 → Bitmap1}
    (hF : ∀ a x, a / addr0Count = k → bit ((F (h.content b k)).bm0 x) (a % addr0Count) =
      f a x (bit ((h.content b k).bm0 x) (a % addr0Count))) :
    ∃ h', h.modifyBm1 p F = .ok h' ∧ h'.Ok ∧
      Edits h h' b fun a x v => if a / addr0Count = k then f a x v else v := by
  obtain ⟨h', hrun, hok', hset, -⟩ := modifyBm1_spec hok hown F
  refine ⟨h', hrun, hok', hset.live, hset.nextBm, fun a x => ?_, fun c hc a x => ?_⟩
  · rw [BmHeap.has, BmHeap.has]
    by_cases ha : a / addr0Count = k
    · rw [if_pos ha, ha, hset.here, hF a x ha]
    · rw [if_neg ha, hset.other b _ fun h => ha h.2]
  · rw [BmHeap.has, BmHeap.has, hset.other c _ fun h => hc h.1]

theorem modify_bm0 (p1 : Bitmap1) (x y : Row) (F : Bm0 → Bm0) :
    (p1.modify x F).bm0 y = if y = x then F (p1.bm0 x) else p1.bm0 y := by
  unfold Bitmap1.modify
  dsimp only
  rw [Function.update_apply]

/-! ## Loops over blocks -/

omit [Machine] in
theorem addr0Msb_eq (c : Nat) : addr0Msb c = c / addr0Count * addr0Count := by
  rw [addr0Msb, roundDn, Nat.sub_eq_iff_eq_add (Nat.mod_le ..), Nat.div_add_mod']

theorem bNext_spec (hc : c < a2) (ha2 : a2 + addr0Count ≤ wordMod) :
    c < bNext a2 c ∧ bNext a2 c ≤ a2 ∧ bNext a2 c ≤ c / addr0Count * addr0Count + addr0Count ∧
      (bNext a2 c = a2 ∨ bNext a2 c = c / addr0Count * addr0Count + addr0Count) := by
  have hle := Nat.div_mul_le_self c addr0Count
  have hlt := Nat.lt_div_mul_add (a := c) (b := addr0Count) (by decide)
  unfold bNext
  rw [addr0Msb_eq, addW_of_lt (by omega)]
  split <;> omega

/-- The place in a loop over blocks: at the beginning of the range, or of a block. -/
def AtBlock (a1 c : Nat) : Prop := c = a1 ∨ (a1 ≤ c ∧ c % addr0Count = 0)

omit [Machine] in
theorem AtBlock.le (hc : AtBlock a1 c) : a1 ≤ c := by
  rcases hc with rfl | hc
  · exact Nat.le_refl _
  · exact hc.1

omit [Machine] in
/-- Within one block the places of addresses are ordered as the addresses. -/
theorem mod_le_mod_of_le {c e n : Nat} (hle : c ≤ e) (he : e < c / n * n + n) : c % n ≤ e % n := by
  have hc : c / n * n + c % n = c := Nat.div_add_mod' c n
  obtain ⟨r, hr⟩ := Nat.exists_eq_add_of_le (show c / n * n ≤ e by omega)
  rw [hr, Nat.mul_add_mod_self_right, Nat.mod_eq_of_lt (show r < n by omega)]
  omega

omit [Machine] in
theorem div_eq_of_le_of_lt {c e n : Nat} (hle : c ≤ e) (he : e < c / n * n + n) : e / n = c / n := by
  refine le_antisymm (Nat.le_of_lt_succ ?_) (Nat.div_le_div_right hle)
  rw [← Nat.succ_mul] at he
  exact Nat.div_lt_of_lt_mul (he.trans_eq (Nat.mul_comm ..))

omit [Machine] in
/-- The numbers between two numbers of one block are those of the block whose places are in between. -/
theorem mem_block_iff {a c e n : Nat} (hce : e / n = c / n) :
    (c ≤ a ∧ a ≤ e) ↔ a / n = c / n ∧ c % n ≤ a % n ∧ a % n ≤ e % n := by
  have ha := Nat.div_add_mod' a n
  have hc := Nat.div_add_mod' c n
  have he := Nat.div_add_mod' e n
  rw [hce] at he
  constructor
  · rintro ⟨hca, hae⟩
    have hq : a / n = c / n :=
      le_antisymm ((Nat.div_le_div_right hae).trans_eq hce) (Nat.div_le_div_right hca)
    rw [hq] at ha
    exact ⟨hq, by omega, by omega⟩
  · rintro ⟨hq, hca, hae⟩
    rw [hq] at ha
    exact ⟨by omega, by omega⟩

theorem blockStart_eq (c : Nat) (hc : c < wordMod) : blockStart (c / addr0Count) = c / addr0Count * addr0Count :=
  Nat.mod_eq_of_lt ((Nat.div_mul_le_self c addr0Count).trans_lt hc)

/-- Where the part of the range in the block begins. -/
theorem clipStart_eq (hat : AtBlock a1 c) (hc : c < a2) (ha2 : a2 + addr0Count ≤ wordMod) :
    (if blockStart (c / addr0Count) < a1 then some a1 else
      if blockStart (c / addr0Count) < a2 then some (blockStart (c / addr0Count)) else none) = some c := by
  have hle := Nat.div_mul_le_self c addr0Count
  rw [blockStart_eq c (by omega)]
  rcases hat with rfl | ⟨ha1, hc0⟩
  · rcases hle.lt_or_eq with hlt | heq
    · rw [if_pos hlt]
    · rw [heq, if_neg (Nat.lt_irrefl c), if_pos hc]
  · rw [Nat.div_mul_cancel (Nat.dvd_of_mod_eq_zero hc0), if_neg (Nat.not_lt.mpr ha1), if_pos hc]

/-- Where it ends. -/
theorem clipEnd_eq (hc : c < a2) (ha2 : a2 + addr0Count ≤ wordMod) :
    (if addW (blockStart (c / addr0Count)) addr0Count < a2 then addW (blockStart (c / addr0Count)) addr0Count else a2) =
      bNext a2 c := by
  have hle := Nat.div_mul_le_self c addr0Count
  have hadd : addW (c / addr0Count * addr0Count) addr0Count = c / addr0Count * addr0Count + addr0Count :=
    addW_of_lt (by omega)
  rw [bNext, addr0Msb_eq, blockStart_eq c (by omega), hadd]
  split <;> split <;> omega

/-- The part of the range that is in the block. -/
theorem clipToBlock_eq (hat : AtBlock a1 c) (hc : c < a2) (ha2 : a2 + addr0Count ≤ wordMod) :
    clipToBlock (c / addr0Count) a1 a2 = .ok (some (c, bNext a2 c)) := by
  obtain ⟨hlt, hle, hblock, -⟩ := bNext_spec hc ha2
  have ha1 : a1 ≤ bNext a2 c := hat.le.trans hlt.le
  have hmods : c % addr0Count ≤ (bNext a2 c - 1) % addr0Count :=
    mod_le_mod_of_le (Nat.le_sub_one_of_lt hlt) (Nat.sub_one_lt_of_le (Nat.zero_lt_of_lt hlt) hblock)
  rw [clipToBlock, clipStart_eq hat hc ha2]
  dsimp only
  rw [clipEnd_eq hc ha2, assertThat_of ⟨hat.le, hc.le⟩, ok_bind, assertThat_of ⟨ha1, hle⟩, ok_bind,
    assertThat_of hlt, ok_bind, assertThat_of hmods]
  rfl

/-- The rule for loops over the blocks of a range: what each turn keeps, and what a turn that leaves the
function establishes. -/
theorem forBlocks_rule {α : Type} (body : BmHeap → Nat → Nat → Result (Option α × BmHeap)) (P : BmHeap → Nat → Prop)
    (Q : α → BmHeap → Prop) (ha2 : a2 + addr0Count ≤ wordMod)
    (hbody : ∀ h c, AtBlock a1 c → c < a2 → P h c → ∃ r h', body h c (bNext a2 c) = .ok (r, h') ∧
      match r with
      | none => P h' (bNext a2 c)
      | some v => Q v h')
    {fuel : Nat} (hfuel : a2 - c < fuel) (hat : AtBlock a1 c ∨ c = a2) (hle : c ≤ a2) (hP : P h c) :
    ∃ r h', forBlocks a2 body fuel h c = .ok (r, h') ∧
      match r with
      | none => P h' a2
      | some v => Q v h' := by
  induction fuel generalizing h c with
  | zero => omega
  | succ fuel ih =>
    unfold forBlocks
    by_cases hc : c < a2
    · rw [if_pos hc]
      have hat : AtBlock a1 c := hat.resolve_right (Nat.ne_of_lt hc)
      obtain ⟨hlt, hle', -, hend⟩ := bNext_spec hc ha2
      obtain ⟨r, h', hrun, hr⟩ := hbody h c hat hc hP
      rw [hrun, ok_bind]
      cases r with
      | some v => exact ⟨some v, h', rfl, hr⟩
      | none =>
        refine ih (by omega) ?_ hle' hr
        rcases hend with hend | hend
        · exact .inr hend
        · have ha1 := hat.le
          refine .inl (.inr ⟨by omega, ?_⟩)
          rw [hend, Nat.add_mod_right, Nat.mul_mod_left]
    · rw [if_neg hc]
      obtain rfl : c = a2 := by omega
      exact ⟨none, h, rfl, hP⟩

/-- The addresses of the range that are in the block. -/
theorem mem_addr0Range (hc : c < a2) (ha2 : a2 + addr0Count ≤ wordMod) :
    (c ≤ a ∧ a < bNext a2 c) ↔ a / addr0Count = c / addr0Count ∧ a % addr0Count ∈ addr0Range c (bNext a2 c) := by
  obtain ⟨hlt, -, hblock, -⟩ := bNext_spec hc ha2
  have hmods : c % addr0Count ≤ (bNext a2 c - 1) % addr0Count :=
    mod_le_mod_of_le (Nat.le_sub_one_of_lt hlt) (Nat.sub_one_lt_of_le (Nat.zero_lt_of_lt hlt) hblock)
  have hlast : (bNext a2 c - 1) / addr0Count = c / addr0Count :=
    div_eq_of_le_of_lt (Nat.le_sub_one_of_lt hlt) (Nat.sub_one_lt_of_le (Nat.zero_lt_of_lt hlt) hblock)
  have hrange : a % addr0Count ∈ addr0Range c (bNext a2 c) ↔
      c % addr0Count ≤ a % addr0Count ∧ a % addr0Count ≤ (bNext a2 c - 1) % addr0Count := by
    rw [addr0Range, List.mem_range'_1]
    omega
  rw [hrange, ← mem_block_iff hlast]
  omega

/-! ## Recording and clearing -/

/-- One turn of `bm_access_range`. -/
theorem accessBlock_spec (hok : h.Ok) (hm : h.bms b = some m) (hat : AtBlock a1 c) (hc : c < a2)
    (ha2 : a2 + addr0Count ≤ wordMod) : ∃ h', accessBlock b a1 a2 x h c = .ok (none, h') ∧ h'.Ok ∧
      Edits h h' b fun a y v => v || (decide (y = x) && decide (c ≤ a ∧ a < bNext a2 c)) := by
  obtain ⟨p, g, hrun, hok', hs, hown⟩ := bm2LookupOrInsertExclusive_spec hok hm (div_lt_nBlocks (a := c) (by omega))
  obtain ⟨m2, hm2, hmk, -⟩ := hok'.map_of_ref hown.ref
  obtain ⟨h', hmod, hok'', hed⟩ := edits_modify (f := fun a y v => v || (decide (y = x) &&
      decide (a % addr0Count ∈ addr0Range c (bNext a2 c)))) hok' hown
    (F := fun p1 => p1.modify x fun bm0 => (addr0Range c (bNext a2 c)).foldl bm0Set bm0) (by
      intro a y hak
      rw [modify_bm0]
      by_cases hy : y = x
      · rw [if_pos hy, bit_foldl_bm0Set, decide_eq_true hy, Bool.true_and, hy]
      · rw [if_neg hy, decide_eq_false hy, Bool.false_and, Bool.or_false])
  refine ⟨h', ?_, hok'', ((Edits.of_same hs).trans hed).congr fun a y v => ?_⟩
  · unfold accessBlock
    rw [hrun, ok_bind]
    dsimp only
    rw [bm2_eq hm2, ok_bind, hmk, clipToBlock_eq hat hc ha2, ok_bind]
    dsimp only
    rw [hmod]
    rfl
  · by_cases hak : a / addr0Count = c / addr0Count
    · rw [if_pos hak, ← decide_eq_decide.mpr (show (c ≤ a ∧ a < bNext a2 c) ↔ a % addr0Count ∈ addr0Range c (bNext a2 c) by
        rw [mem_addr0Range hc ha2]
        grind)]
    · have hnot : ¬ (c ≤ a ∧ a < bNext a2 c) := fun h => hak ((mem_addr0Range hc ha2).mp h).1
      rw [if_neg hak, decide_eq_false hnot, Bool.and_false, Bool.or_false]

/-- `bm_access_range` records the accesses of the range. -/
theorem bmAccessRange_spec (hok : h.Ok) (hm : h.bms b = some m) (hlt : a1 < a2) (ha2 : a2 + addr0Count < wordMod)
    (t : BmAccessType) : ∃ h', bmAccessRange h b a1 a2 t = .ok h' ∧ h'.Ok ∧
      Edits h h' b fun a y v => v || (decide (y = t.row) && decide (a1 ≤ a ∧ a < a2)) := by
  obtain ⟨r, h', hrun, hr⟩ := forBlocks_rule (h := h) (c := a1)
    (fun h c _ => accessBlock b a1 a2 t.row h c)
    (fun h' c => h'.Ok ∧ Edits h h' b fun a y v => v || (decide (y = t.row) && decide (a1 ≤ a ∧ a < c)))
    (fun _ _ => False) ha2.le
    (by
      rintro g c hat hc ⟨hgok, hge⟩
      obtain ⟨mg, hmg⟩ := hge.exists_bm hm
      obtain ⟨g', hrun, hok', he⟩ := accessBlock_spec (x := t.row) hgok hmg hat hc ha2.le
      refine ⟨none, g', hrun, hok', (hge.trans he).congr fun a y v => ?_⟩
      have hstart := hat.le
      have hnext := (bNext_spec hc ha2.le).1
      have hiff : decide (a1 ≤ a ∧ a < bNext a2 c) = (decide (a1 ≤ a ∧ a < c) || decide (c ≤ a ∧ a < bNext a2 c)) := by
        rw [← Bool.decide_or, decide_eq_decide]
        omega
      rw [hiff, Bool.and_or_distrib_left, Bool.or_assoc])
    (Nat.lt_succ_self (a2 - a1)) (.inl (.inl rfl)) hlt.le ⟨hok, (Edits.of_same (.refl h)).congr fun a y v => by
      rw [decide_eq_false (show ¬ (a1 ≤ a ∧ a < a1) by omega), Bool.and_false, Bool.or_false]⟩
  unfold bmAccessRange
  rw [assertThat_of hlt, ok_bind, addW_of_lt ha2, assertThat_of (Nat.lt_add_of_pos_right (by decide)), ok_bind, hrun]
  cases r with
  | none => exact ⟨h', rfl, hr⟩
  | some v => exact absurd hr id

theorem bitsPerUWord_dvd : bitsPerUWord ∣ addr0Count := by
  rw [addr0Count_eq]
  rcases bitsPerUWord_cases with h | h <;> rw [h] <;> decide

/-- An aligned access lies in one word. -/
theorem aligned_fits {size : Nat} (hsize : size ∈ [1, 2, 4, 8]) (ha : a1 % size = 0) :
    size < bitsPerUWord ∧ a1 % addr0Count % bitsPerUWord + size ≤ bitsPerUWord ∧
      a1 % addr0Count + size ≤ addr0Count := by
  rw [addr0Count_eq]
  simp only [List.mem_cons, List.not_mem_nil, or_false] at hsize
  rcases hsize with rfl | rfl | rfl | rfl <;> rcases bitsPerUWord_cases with h | h <;> rw [h] <;> omega

omit [Machine] in
/-- The addresses of an aligned access. -/
theorem mem_aligned {size : Nat} (hfit : a1 % addr0Count + size ≤ addr0Count) :
    (a1 ≤ a ∧ a < a1 + size) ↔ a / addr0Count = a1 / addr0Count ∧
      (a1 % addr0Count ≤ a % addr0Count ∧ a % addr0Count < a1 % addr0Count + size) := by
  rw [addr0Count_eq] at hfit ⊢
  omega

/-- `bm_access_aligned_load` and `bm_access_aligned_store`. -/
theorem bmAccessAligned_spec (hok : h.Ok) (hm : h.bms b = some m) (ha1 : a1 < wordMod) {size : Nat}
    (hsize : size ∈ [1, 2, 4, 8]) (hdvd : a1 % size = 0) : ∃ h', bmAccessAligned h b a1 size x = .ok h' ∧ h'.Ok ∧
      Edits h h' b fun a y v => v || (decide (y = x) && decide (a1 ≤ a ∧ a < a1 + size)) := by
  obtain ⟨hlt, hword, hfit⟩ := aligned_fits hsize hdvd
  obtain ⟨p, g, hrun, hok', hs, hown⟩ := bm2LookupOrInsertExclusive_spec hok hm (div_lt_nBlocks ha1)
  obtain ⟨h', hmod, hok'', hed⟩ := edits_modify (f := fun a y v => v || (decide (y = x) &&
      decide (a1 % addr0Count ≤ a % addr0Count ∧ a % addr0Count < a1 % addr0Count + size))) hok' hown
    (F := fun p1 => p1.modify x fun bm0 => bm0SetRange bm0 (a1 % addr0Count) size) (by
      intro a y hak
      rw [modify_bm0]
      by_cases hy : y = x
      · rw [if_pos hy, bit_bm0SetRange hlt hword, decide_eq_true hy, Bool.true_and, hy]
      · rw [if_neg hy, decide_eq_false hy, Bool.false_and, Bool.or_false])
  refine ⟨h', by rw [bmAccessAligned, hrun]; exact hmod, hok'', ((Edits.of_same hs).trans hed).congr fun a y v => ?_⟩
  have hiff := mem_aligned (a := a) hfit
  by_cases hak : a / addr0Count = a1 / addr0Count
  · rw [if_pos hak, decide_eq_decide.mpr (hiff.trans (and_iff_right hak))]
  · have hnot : ¬ (a1 ≤ a ∧ a < a1 + size) := fun h => hak (hiff.mp h).1
    rw [if_neg hak, decide_eq_false hnot, Bool.and_false, Bool.or_false]

/-- What one turn of `bm_clear` clears: from the beginning of the word. -/
theorem clearInBlock_spec (hok : h.Ok) (hm : h.bms b = some m) (hc : c < a2) (ha2 : a2 + addr0Count ≤ wordMod) :
    ∃ h', clearInBlock b h c (bNext a2 c) = .ok (none, h') ∧ h'.Ok ∧
      Edits h h' b fun a _ v => v && decide (¬ (uwordMsb c ≤ a ∧ a < bNext a2 c)) := by
  obtain ⟨hlt, hle, hblock, -⟩ := bNext_spec hc ha2
  have hin : ∀ a, uwordMsb c ≤ a → a < bNext a2 c → a / addr0Count = c / addr0Count := by
    intro a h₁ h₂
    have hdvd := bitsPerUWord_dvd
    unfold uwordMsb roundDn at h₁
    rw [addr0Count_eq] at hblock ⊢
    rcases bitsPerUWord_cases with h | h <;> rw [h] at h₁ <;> omega
  obtain ⟨o, g, hrun, hok', hs, ho⟩ := bm2LookupExclusive_spec hok hm (div_lt_nBlocks (a := c) (by omega))
  unfold clearInBlock
  rw [hrun, ok_bind]
  cases o with
  | none =>
    refine ⟨g, rfl, hok', hs.live, hs.nextBm, fun a x => ?_, fun _ _ _ _ => hs.has⟩
    rw [hs.has]
    by_cases ha : uwordMsb c ≤ a ∧ a < bNext a2 c
    · rw [has_of_none (by rw [hin a ha.1 ha.2]; exact ho)]
      rfl
    · rw [decide_eq_true ha, Bool.and_true]
  | some p =>
    obtain ⟨m2, hm2, -, hcont⟩ := hok'.map_of_ref ho.ref
    obtain ⟨r, hr, hclr⟩ := clearBlock_spec rfl hlt hblock (by omega) (m2.bm1.bm0 .r)
    obtain ⟨w, hw, hclw⟩ := clearBlock_spec rfl hlt hblock (by omega) (m2.bm1.bm0 .w)
    obtain ⟨h', hmod, hok'', hed⟩ := edits_modify (f := fun a _ v => v && decide (¬ (uwordMsb c ≤ a ∧ a < bNext a2 c)))
      hok' ho (F := fun p1 => (p1.modify .r fun _ => r).modify .w fun _ => w) (by
        intro a x hak
        rw [modify_bm0, modify_bm0, hcont]
        cases x with
        | r => exact hclr a hak
        | w => exact hclw a hak)
    refine ⟨h', ?_, hok'', ((Edits.of_same hs).trans hed).congr fun a x v => ?_⟩
    · dsimp only
      rw [bm2_eq hm2, ok_bind, hr, ok_bind, hw, ok_bind, hmod]
      rfl
    · by_cases hak : a / addr0Count = c / addr0Count
      · rw [if_pos hak]
      · have hnot : ¬ (uwordMsb c ≤ a ∧ a < bNext a2 c) := fun ha => hak (hin a ha.1 ha.2)
        rw [if_neg hak, decide_eq_true hnot, Bool.and_true]

theorem uwordMsb_le (a : Nat) : uwordMsb a ≤ a := roundDn_le _ _

/-- `bm_clear` clears the accesses from the beginning of the first word on. -/
theorem bmClear_spec (hok : h.Ok) (hm : h.bms b = some m) (ha1 : a1 ≠ 0) (hle : a1 ≤ a2)
    (ha2 : a2 + addr0Count ≤ wordMod) : ∃ h', bmClear h b a1 a2 = .ok h' ∧ h'.Ok ∧
      Edits h h' b fun a _ v => v && decide (¬ (a1 < a2 ∧ uwordMsb a1 ≤ a ∧ a < a2)) := by
  obtain ⟨r, h', hrun, hr⟩ := forBlocks_rule (h := h) (c := a1) (clearInBlock b)
    (fun h' c => h'.Ok ∧ Edits h h' b fun a _ v => v && decide (¬ (a1 < c ∧ uwordMsb a1 ≤ a ∧ a < c)))
    (fun _ _ => False) ha2
    (by
      rintro g c hat hc ⟨hgok, hge⟩
      obtain ⟨mg, hmg⟩ := hge.exists_bm hm
      obtain ⟨g', hrun, hok', he⟩ := clearInBlock_spec hgok hmg hc ha2
      refine ⟨none, g', hrun, hok', (hge.trans he).congr fun a y v => ?_⟩
      have hnext := (bNext_spec hc ha2).1
      have hmsb := uwordMsb_le a1
      have hfirst : c = a1 ∨ (a1 < c ∧ uwordMsb c = c) := by
        rcases hat with hat | ⟨h₁, h₂⟩
        · exact .inl hat
        refine (Nat.eq_or_lt_of_le h₁).imp Eq.symm fun h₁ => ⟨h₁, ?_⟩
        have hzero : c % bitsPerUWord = 0 :=
          Nat.mod_eq_zero_of_dvd (bitsPerUWord_dvd.trans (Nat.dvd_of_mod_eq_zero h₂))
        rw [uwordMsb, roundDn, hzero, Nat.sub_zero]
      rw [Bool.and_assoc, ← Bool.decide_and]
      congr 1
      rw [decide_eq_decide]
      rcases hfirst with rfl | ⟨h₁, h₂⟩
      · omega
      · rw [h₂]
        omega)
    (Nat.lt_succ_self (a2 - a1)) (.inl (.inl rfl)) hle ⟨hok, (Edits.of_same (.refl h)).congr fun a y v => by
      rw [decide_eq_true (show ¬ (a1 < a1 ∧ uwordMsb a1 ≤ a ∧ a < a1) by omega), Bool.and_true]⟩
  unfold bmClear
  rw [assertThat_of ha1, ok_bind, assertThat_of hle, ok_bind, hrun]
  cases r with
  | none => exact ⟨h', rfl, hr⟩
  | some v => exact absurd hr id

/-- The bit of an address is cleared in the map of its block, if there is one. -/
theorem clearAddr_spec (hok : h.Ok) (hm : h.bms b = some m) (ha : a1 < wordMod) :
    ∃ h', clearAddr b x h a1 = .ok h' ∧ h'.Ok ∧ Edits h h' b fun a y v => v && decide (¬ (y = x ∧ a = a1)) := by
  obtain ⟨o, g, hrun, hok', hs, ho⟩ := bm2LookupExclusive_spec hok hm (div_lt_nBlocks ha)
  unfold clearAddr
  rw [hrun, ok_bind]
  cases o with
  | none =>
    refine ⟨g, rfl, hok', hs.live, hs.nextBm, fun a y => ?_, fun _ _ _ _ => hs.has⟩
    rw [hs.has]
    by_cases hay : y = x ∧ a = a1
    · rw [has_of_none (by rw [hay.2]; exact ho)]
      rfl
    · rw [decide_eq_true hay, Bool.and_true]
  | some p =>
    obtain ⟨h', hmod, hok'', hed⟩ := edits_modify
      (f := fun a y v => v && decide (¬ (y = x ∧ a % addr0Count = a1 % addr0Count)))
      hok' ho (F := fun p1 => p1.modify x fun bm0 => bm0Clear bm0 (a1 % addr0Count)) (by
        intro a y _
        rw [modify_bm0]
        by_cases hy : y = x
        · rw [if_pos hy, bit_bm0Clear, hy]
          simp
        · simp [hy])
    refine ⟨h', hmod, hok'', ((Edits.of_same hs).trans hed).congr fun a y v => ?_⟩
    have hiff : a = a1 ↔ a / addr0Count = a1 / addr0Count ∧ a % addr0Count = a1 % addr0Count := by
      rw [addr0Count_eq]
      omega
    by_cases hak : a / addr0Count = a1 / addr0Count
    · rw [if_pos hak]
      congr 1
      rw [decide_eq_decide, hiff]
      grind
    · have hnot : ¬ (y = x ∧ a = a1) := fun h => hak (by rw [h.2])
      rw [if_neg hak, decide_eq_true hnot, Bool.and_true]

/-- The loops of `bm_clear_load` and `bm_clear_store`. -/
theorem bmClearRow_spec (hok : h.Ok) (hm : h.bms b = some m) {n : Nat} (ha : a1 + n ≤ wordMod) :
    ∃ h', bmClearRow b x n h a1 = .ok h' ∧ h'.Ok ∧
      Edits h h' b fun a y v => v && decide (¬ (y = x ∧ a1 ≤ a ∧ a < a1 + n)) := by
  induction n generalizing h a1 m with
  | zero =>
    refine ⟨h, rfl, hok, (Edits.of_same (.refl h)).congr fun a y v => ?_⟩
    rw [decide_eq_true (show ¬ (y = x ∧ a1 ≤ a ∧ a < a1 + 0) by omega), Bool.and_true]
  | succ n ih =>
    obtain ⟨g, hrun, hok', he⟩ := clearAddr_spec (x := x) hok hm (show a1 < wordMod by omega)
    obtain ⟨m', hm'⟩ := he.exists_bm hm
    obtain ⟨h', hrest, hok'', he'⟩ := ih hok' hm' (show a1 + 1 + n ≤ wordMod by omega)
    refine ⟨h', ?_, hok'', (he.trans he').congr fun a y v => ?_⟩
    · unfold bmClearRow
      rw [hrun, ok_bind]
      exact hrest
    · rw [Bool.and_assoc, ← Bool.decide_and]
      congr 1
      rw [decide_eq_decide]
      by_cases hy : y = x
      · simp only [hy, true_and]
        omega
      · simp [hy]

end

end Valgrind.Drd
