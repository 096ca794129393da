import Valgrind.Drd.BitmapRuns

/-!
# Comparing and exchanging bitmaps

`bm_equal` walks the nodes of two bitmaps side by side. It skips nodes of `lhs` without accesses
but asserts that those of `rhs` have some, and it takes the highest block of all for empty, since
the end of that block is the address 0. `equalExact_iff` says for which bitmaps the answer is
right. `bm_swap` exchanges the ordered sets of two bitmaps and leaves the caches: later queries
see the exchange iff the bitmaps agree in the blocks that are in one of the caches
(`swapExact_iff`).
-/

namespace Valgrind.Drd

open BitArray KeyedList

section

variable [Machine]

open Machine

/-! ## The walk over blocks -/

/-- What `bm_has_any_access` says about a block: the highest block counts as empty. -/
def BlockUsed (f : Nat → Row → Bool) (k : Nat) : Prop := k + 1 < nBlocks ∧ ∃ a x, a / addr0Count = k ∧ f a x = true

/-- The same accesses in all blocks below `k`. -/
def Agree (f g : Nat → Row → Bool) (k : Nat) : Prop := ∀ a x, a / addr0Count < k → f a x = g a x

/-- The walk comes to a block of the second bitmap that counts as empty: in front of it, there are only blocks in
which the bitmaps agree. -/
def Stuck (f g : Nat → Row → Bool) (B : Nat → Prop) : Prop :=
  ∃ k, B k ∧ ¬ BlockUsed g k ∧ ∀ j < k, B j → BlockUsed g j ∧ Agree f g (j + 1)

/-- What remains to be compared, where the blocks below `k` have been. `B` are the blocks of the second bitmap. -/
structure WalkInv (f g : Nat → Row → Bool) (B : Nat → Prop) (lOset rOset : List Bitmap2ref) (k : Nat) : Prop where
  lasc : Ascending Bitmap2ref.addr lOset
  rasc : Ascending Bitmap2ref.addr rOset
  lge : ∀ n ∈ lOset, k ≤ n.addr
  rge : ∀ n ∈ rOset, k ≤ n.addr ∧ B n.addr
  left : ∀ j, k ≤ j → BlockUsed f j → ∃ n ∈ lOset, n.addr = j
  right : ∀ j, k ≤ j → B j → ∃ n ∈ rOset, n.addr = j
  covers : ∀ a x, g a x = true → B (a / addr0Count)
  agree : Agree f g k
  used : ∀ j < k, B j → BlockUsed g j

variable {f g : Nat → Row → Bool} {B : Nat → Prop} {lOset rOset : List Bitmap2ref} {l r : Bitmap2ref} {j k : Nat}

namespace WalkInv

/-- The first bitmap has nothing in a block without a node. -/
theorem left_empty (hw : WalkInv f g B lOset rOset k) (hk : k ≤ j) (hj : j + 1 < nBlocks)
    (hno : ∀ n ∈ lOset, n.addr ≠ j) {a : Nat} {x : Row} (ha : a / addr0Count = j) : f a x = false := by
  by_contra hne
  obtain ⟨n, hn, hnj⟩ := hw.left j hk ⟨hj, a, x, ha, by simpa using hne⟩
  exact hno n hn hnj

/-- Nor has the second one. -/
theorem right_empty (hw : WalkInv f g B lOset rOset k) (hk : k ≤ j)
    (hno : ∀ n ∈ rOset, n.addr ≠ j) {a : Nat} {x : Row} (ha : a / addr0Count = j) : g a x = false := by
  by_contra hne
  obtain ⟨n, hn, hnj⟩ := hw.right j hk (ha ▸ hw.covers a x (by simpa using hne))
  exact hno n hn hnj

theorem skip (hw : WalkInv f g B (l :: lOset) rOset k) (hl : ¬ BlockUsed f l.addr) : WalkInv f g B lOset rOset k :=
  { hw with
    lasc := (List.pairwise_cons.mp hw.lasc).2
    lge := fun n hn => hw.lge n (List.mem_cons_of_mem _ hn)
    left := fun j hk hj => by
      obtain ⟨n, hn, rfl⟩ := hw.left j hk hj
      rcases List.mem_cons.mp hn with rfl | hn
      · exact absurd hj hl
      · exact ⟨n, hn, rfl⟩ }

/-- Two nodes for the same block with the same accesses. -/
theorem take (hw : WalkInv f g B (l :: lOset) (r :: rOset) k) (hr : BlockUsed g r.addr) (heq : l.addr = r.addr)
    (hsame : ∀ a x, a / addr0Count = l.addr → f a x = g a x) : WalkInv f g B lOset rOset (l.addr + 1) := by
  obtain ⟨hlmin, hlasc⟩ := List.pairwise_cons.mp hw.lasc
  obtain ⟨hrmin, hrasc⟩ := List.pairwise_cons.mp hw.rasc
  have hkl := hw.lge l List.mem_cons_self
  refine ⟨hlasc, hrasc, fun n hn => hlmin n hn, fun n hn => ⟨?_, (hw.rge n (List.mem_cons_of_mem _ hn)).2⟩,
    fun j hk hj => ?_, fun j hk hj => ?_, hw.covers, fun a x ha => ?_, fun j hj hB => ?_⟩
  · rw [heq]
    exact hrmin n hn
  · obtain ⟨n, hn, rfl⟩ := hw.left j (by omega) hj
    rcases List.mem_cons.mp hn with rfl | hn
    · omega
    · exact ⟨n, hn, rfl⟩
  · obtain ⟨n, hn, rfl⟩ := hw.right j (by omega) hj
    rcases List.mem_cons.mp hn with rfl | hn
    · omega
    · exact ⟨n, hn, rfl⟩
  · rcases Nat.lt_or_ge (a / addr0Count) k with hlt | hge
    · exact hw.agree a x hlt
    rcases Nat.lt_or_ge (a / addr0Count) l.addr with hlt | hge'
    · -- between the blocks, there are no accesses
      have hf := hw.left_empty (x := x) hge (by have := hr.1; omega) (fun n hn => by
        rcases List.mem_cons.mp hn with rfl | hn
        · omega
        · have := hlmin n hn
          omega) rfl
      have hg := hw.right_empty (x := x) hge (fun n hn => by
        rcases List.mem_cons.mp hn with rfl | hn
        · omega
        · have := hrmin n hn
          omega) rfl
      rw [hf, hg]
    · exact hsame a x (by omega)
  · rcases Nat.lt_or_ge j k with hlt | hge
    · exact hw.used j hlt hB
    · obtain ⟨n, hn, rfl⟩ := hw.right j hge hB
      rcases List.mem_cons.mp hn with rfl | hn
      · exact hr
      · have := hrmin n hn
        omega

theorem stuck (hw : WalkInv f g B lOset (r :: rOset) k) (hr : ¬ BlockUsed g r.addr) : Stuck f g B := by
  have hrmin := (List.pairwise_cons.mp hw.rasc).1
  refine ⟨r.addr, (hw.rge r List.mem_cons_self).2, hr, fun j hj hB => ?_⟩
  have hjk : j < k := by
    by_contra hge
    obtain ⟨n, hn, rfl⟩ := hw.right j (by omega) hB
    rcases List.mem_cons.mp hn with rfl | hn
    · omega
    · have := hrmin n hn
      omega
  exact ⟨hw.used j hjk hB, fun a x ha => hw.agree a x (by omega)⟩

/-- The walk ends where the bitmaps differ, at the next node of the second one or in front of it. -/
theorem not_stuck (hw : WalkInv f g B lOset rOset k)
    (hr : ∀ n ∈ rOset.head?, BlockUsed g n.addr ∧ ¬ Agree f g (n.addr + 1)) : ¬ Stuck f g B := by
  rintro ⟨i, hB, hi, hbefore⟩
  rcases Nat.lt_or_ge i k with hlt | hge
  · exact hi (hw.used i hlt hB)
  · obtain ⟨n, hn, rfl⟩ := hw.right i hge hB
    cases rOset with
    | nil => exact nomatch hn
    | cons r rOset =>
      obtain ⟨hused, hdiff⟩ := hr r rfl
      rcases List.mem_cons.mp hn with rfl | hn
      · exact hi hused
      · have hlt := (List.pairwise_cons.mp hw.rasc).1 n hn
        exact hdiff (hbefore r.addr hlt (hw.rge r List.mem_cons_self).2).2

/-- Nothing is left. -/
theorem done (hw : WalkInv f g B [] [] k) : (∀ j, B j → BlockUsed g j) ∧ Agree f g (nBlocks - 1) := by
  refine ⟨fun j hB => ?_, fun a x ha => ?_⟩
  · refine hw.used j ?_ hB
    by_contra hge
    obtain ⟨n, hn, -⟩ := hw.right j (by omega) hB
    exact nomatch hn
  · rcases Nat.lt_or_ge (a / addr0Count) k with hlt | hge
    · exact hw.agree a x hlt
    · rw [hw.left_empty hge (by omega) (fun n hn => (nomatch hn)) rfl, hw.right_empty hge (fun n hn => (nomatch hn)) rfl]

end WalkInv

omit [Machine] in
theorem not_agree {a : Nat} {x : Row} (hne : f a x ≠ g a x) (ha : a / addr0Count < k) : ¬ Agree f g k :=
  fun hagree => hne (hagree a x ha)

/-- In the block of the next node of the first bitmap, the second one has no node. -/
theorem differ_left (hw : WalkInv f g B (l :: lOset) rOset k) (hl : BlockUsed f l.addr)
    (hno : ∀ n ∈ rOset, n.addr ≠ l.addr) : ∃ a x, a / addr0Count = l.addr ∧ f a x ≠ g a x := by
  obtain ⟨-, a, x, ha, hf⟩ := hl
  refine ⟨a, x, ha, ?_⟩
  rw [hf, hw.right_empty (hw.lge l List.mem_cons_self) hno ha]
  exact Bool.false_ne_true.symm

/-- In the block of the next node of the second bitmap, the first one has no node. -/
theorem differ_right (hw : WalkInv f g B lOset (r :: rOset) k) (hr : BlockUsed g r.addr)
    (hno : ∀ n ∈ lOset, n.addr ≠ r.addr) : ∃ a x, a / addr0Count = r.addr ∧ f a x ≠ g a x := by
  obtain ⟨hlt, a, x, ha, hg⟩ := hr
  refine ⟨a, x, ha, ?_⟩
  rw [hg, hw.left_empty (hw.rge r List.mem_cons_self).1 hlt hno ha]
  exact Bool.false_ne_true

/-! ## The comparison of two maps -/

theorem same_iff {p1 p1' : Bitmap1} :
    p1.same p1' ↔ ∀ x, ∀ a0 < addr0Count, bit (p1.bm0 x) a0 = bit (p1'.bm0 x) a0 := by
  constructor
  · intro hsame x a0 ha0
    obtain ⟨hr, hw⟩ := hsame (a0 / bitsPerUWord) (lt_wordCount ha0)
    unfold bit
    cases x with
    | r => rw [hr]
    | w => rw [hw]
  · intro hbits k hk
    have hword : ∀ x, p1.bm0 x k = p1'.bm0 x k := fun x => by
      refine BitVec.eq_of_getLsbD_eq fun i hi => ?_
      have hpos := bitsPerUWord_pos
      have hbit := hbits x (k * bitsPerUWord + i) (lt_addr0Count hk hi)
      unfold bit at hbit
      rw [Nat.mul_comm, Nat.mul_add_div hpos, Nat.div_eq_of_lt hi, Nat.add_zero, Nat.mul_add_mod, Nat.mod_eq_of_lt hi] at hbit
      exact hbit
    exact ⟨hword .r, hword .w⟩

/-- The map of a node shows the accesses in its block. -/
def NodeShows (bm2s : Nat → Option Bitmap2) (f : Nat → Row → Bool) (n : Bitmap2ref) : Prop :=
  ∃ m, MapOf bm2s n m ∧ ∀ a x, a / addr0Count = n.addr → f a x = bit (m.bm1.bm0 x) (a % addr0Count)

/-- The test that leaves the walk: the maps are different ones, and for different blocks or with different accesses. -/
theorem differ_of_maps {ml mr : Bitmap2} {bm2s : Nat → Option Bitmap2} (hml : MapOf bm2s l ml) (hmr : MapOf bm2s r mr)
    (hf : ∀ a x, a / addr0Count = l.addr → f a x = bit (ml.bm1.bm0 x) (a % addr0Count))
    (hg : ∀ a x, a / addr0Count = r.addr → g a x = bit (mr.bm1.bm0 x) (a % addr0Count)) :
    (¬ (l.bm2 ≠ r.bm2 ∧ (ml.addr ≠ mr.addr ∨ ¬ ml.bm1.same mr.bm1))) ↔
      l.addr = r.addr ∧ ∀ a x, a / addr0Count = l.addr → f a x = g a x := by
  have hsame : l.addr = r.addr → (ml.bm1.same mr.bm1 ↔ ∀ a x, a / addr0Count = l.addr → f a x = g a x) := by
    intro heq
    rw [same_iff]
    constructor
    · intro hbits a x ha
      rw [hf a x ha, hg a x (ha.trans heq)]
      exact hbits x _ (Nat.mod_lt _ (by decide))
    · intro hall x a0 ha0
      have hdiv : (l.addr * addr0Count + a0) / addr0Count = l.addr := by
        rw [addr0Count_eq] at ha0 ⊢
        omega
      have hmod : (l.addr * addr0Count + a0) % addr0Count = a0 := by
        rw [addr0Count_eq] at ha0 ⊢
        omega
      have ha := hall (l.addr * addr0Count + a0) x hdiv
      rw [hf _ x hdiv, hg _ x (hdiv.trans heq), hmod] at ha
      exact ha
  rw [hml.2, hmr.2]
  by_cases hp : l.bm2 = r.bm2
  · -- the same map
    have hm : ml = mr := by
      have h₁ := hml.1
      rw [hp, hmr.1] at h₁
      exact (Option.some.inj h₁).symm
    have heq : l.addr = r.addr := by rw [← hml.2, ← hmr.2, hm]
    refine ⟨fun _ => ⟨heq, (hsame heq).mp ?_⟩, fun _ hne => hne.1 hp⟩
    rw [hm]
    exact fun k _ => ⟨rfl, rfl⟩
  · constructor
    · intro hnot
      have heq : l.addr = r.addr := by
        by_contra hne
        exact hnot ⟨hp, .inl hne⟩
      refine ⟨heq, (hsame heq).mp ?_⟩
      by_contra hne
      exact hnot ⟨hp, .inr hne⟩
    · rintro ⟨heq, hall⟩ ⟨-, hne | hne⟩
      · exact hne heq
      · exact hne ((hsame heq).mpr hall)

/-! ## `bm_equal` -/

variable {h h' : BmHeap} {S : Nat → Nat → Row → Bool} {lhs rhs b c : Nat} {m ml mr mb mc : Bitmap}

/-- `bm_has_any_access` for a block. -/
theorem blockHasAccess_spec (hr : ReadOk h S) (hm : h.bms b = some m) (hk : k < nBlocks) :
    ∃ v h', blockHasAccess h b k = .ok (v, h') ∧ Reads S h h' ∧ (v = true ↔ BlockUsed (S b) k) := by
  have hcount := addr0Count_dvd
  have hpos : 0 < addr0Count := by decide
  have hmul : ∀ {i j : Nat}, i ≤ j → i * addr0Count ≤ j * addr0Count := fun h => Nat.mul_le_mul_right _ h
  have hstart : blockStart k = k * addr0Count := by
    have hle := hmul (show k + 1 ≤ nBlocks from hk)
    rw [Nat.mul_comm nBlocks, hcount, Nat.add_mul, Nat.one_mul] at hle
    exact Nat.mod_eq_of_lt (by omega)
  have hend : blockStart (k + 1) + addr0Count ≤ wordMod ∧
      ((k + 1 < nBlocks ∧ blockStart (k + 1) = (k + 1) * addr0Count) ∨ (¬ k + 1 < nBlocks ∧ blockStart (k + 1) = 0)) := by
    by_cases hlt : k + 1 < nBlocks
    · have hle := hmul (show k + 1 + 1 ≤ nBlocks from hlt)
      rw [Nat.mul_comm nBlocks, hcount, Nat.add_mul (k + 1), Nat.one_mul] at hle
      have heq : blockStart (k + 1) = (k + 1) * addr0Count := Nat.mod_eq_of_lt (by omega)
      rw [heq]
      exact ⟨hle, .inl ⟨hlt, rfl⟩⟩
    · -- the highest block
      have hmax : k + 1 = nBlocks := by omega
      have heq : blockStart (k + 1) = 0 := by
        rw [blockStart, hmax, Nat.mul_comm, hcount, Nat.mod_self]
      have hle := hmul (show 1 ≤ nBlocks by omega)
      rw [Nat.mul_comm nBlocks, hcount, Nat.one_mul] at hle
      rw [heq]
      exact ⟨by omega, .inr ⟨hlt, rfl⟩⟩
  obtain ⟨v, h', hrun, hreads, hv⟩ := bmHasAnyAccess_spec (blockStart k) hr hm hend.1
  refine ⟨v, h', hrun, hreads, hv.trans ?_⟩
  rw [hstart]
  rcases hend.2 with ⟨hlt, heq⟩ | ⟨hge, heq⟩
  · rw [heq]
    unfold BlockUsed
    have hin : ∀ a, (k * addr0Count ≤ a ∧ a < (k + 1) * addr0Count) ↔ a / addr0Count = k := fun a => by
      rw [addr0Count_eq]
      omega
    constructor
    · rintro ⟨a, h₁, h₂, hhit⟩
      obtain ⟨x, hx⟩ := hit_or_iff.mp hhit
      exact ⟨hlt, a, x, (hin a).mp ⟨h₁, h₂⟩, hx⟩
    · rintro ⟨-, a, x, ha, hx⟩
      obtain ⟨h₁, h₂⟩ := (hin a).mpr ha
      exact ⟨a, h₁, h₂, hit_or_iff.mpr ⟨x, hx⟩⟩
  · rw [heq]
    exact ⟨fun ⟨a, _, h₂, _⟩ => absurd h₂ (Nat.not_lt_zero a), fun hused => absurd hused.1 hge⟩

/-- The ways in which the comparison can end. -/
def EqualResult (f g : Nat → Row → Bool) (B : Nat → Prop) (res : Result (Bool × BmHeap)) : Prop :=
  (res = .error .assertFailed ∧ Stuck f g B) ∨
  (∃ h', res = .ok (true, h') ∧ (∀ j, B j → BlockUsed g j) ∧ Agree f g (nBlocks - 1)) ∨
  (∃ h', res = .ok (false, h') ∧ ¬ Stuck f g B ∧ ¬ Agree f g (nBlocks - 1))

theorem bmEqualLoop_spec (hr : ReadOk h S) (hl : h.bms lhs = some ml) (hrhs : h.bms rhs = some mr)
    (hlm : ∀ n ∈ lOset, NodeShows h.bm2s (S lhs) n ∧ n.addr < nBlocks)
    (hrm : ∀ n ∈ rOset, NodeShows h.bm2s (S rhs) n ∧ n.addr < nBlocks)
    (hw : WalkInv (S lhs) (S rhs) B lOset rOset k) :
    EqualResult (S lhs) (S rhs) B (bmEqualLoop lhs rhs lOset rOset h) := by
  induction lOset generalizing h ml mr rOset k with
  | nil =>
    cases rOset with
    | nil =>
      obtain ⟨hused, hagree⟩ := hw.done
      exact .inr (.inl ⟨h, rfl, hused, hagree⟩)
    | cons r rOset =>
      obtain ⟨⟨mr2, hmr2, -⟩, hlt⟩ := hrm r List.mem_cons_self
      obtain ⟨v, h', hrun, -, hv⟩ := blockHasAccess_spec hr hrhs hlt
      unfold bmEqualLoop
      rw [bm2_eq hmr2.1, ok_bind, hmr2.2, hrun, ok_bind]
      cases v with
      | false => exact .inl ⟨rfl, hw.stuck fun hused => Bool.false_ne_true (hv.mpr hused)⟩
      | true =>
        have hused := hv.mp rfl
        obtain ⟨a, x, ha, hne⟩ := differ_right hw hused fun n hn => by cases hn
        refine .inr (.inr ⟨h', rfl, hw.not_stuck ?_, not_agree hne (by have := hused.1; omega)⟩)
        rintro _ ⟨rfl⟩
        exact ⟨hused, not_agree hne (by omega)⟩
  | cons l lOset ih =>
    obtain ⟨⟨ml2, hml2, hf⟩, hlt⟩ := hlm l List.mem_cons_self
    obtain ⟨v, h', hrun, hreads, hv⟩ := blockHasAccess_spec hr hl hlt
    have hsame := hreads.learns.sameMaps.bm2s
    obtain ⟨ml', hl'⟩ := hreads.learns.sameMaps.exists_bm hl
    obtain ⟨mr', hrhs'⟩ := hreads.learns.sameMaps.exists_bm hrhs
    unfold bmEqualLoop
    rw [bm2_eq hml2.1, ok_bind, hml2.2, hrun, ok_bind]
    dsimp only
    cases v with
    | false =>
      rw [if_neg Bool.false_ne_true]
      exact ih hreads.readOk hl' hrhs' (by rw [hsame]; exact fun n hn => hlm n (List.mem_cons_of_mem _ hn))
        (by rw [hsame]; exact hrm) (hw.skip fun hused => Bool.false_ne_true (hv.mpr hused))
    | true =>
      have hused := hv.mp rfl
      rw [if_pos rfl]
      cases rOset with
      | nil =>
        obtain ⟨a, x, ha, hne⟩ := differ_left hw hused fun n hn => by cases hn
        exact .inr (.inr ⟨h', rfl, hw.not_stuck fun n hn => (by cases hn), not_agree hne (by have := hused.1; omega)⟩)
      | cons r rOset =>
        obtain ⟨⟨mr2, hmr2, hg⟩, hlt'⟩ := hrm r List.mem_cons_self
        obtain ⟨v', h'', hrun', hreads', hv'⟩ := blockHasAccess_spec hreads.readOk hrhs' hlt'
        have hmr2' : h'.bm2s r.bm2 = some mr2 := by
          rw [hsame]
          exact hmr2.1
        dsimp only
        rw [bm2_eq hmr2', ok_bind, hmr2.2, hrun', ok_bind]
        cases v' with
        | false => exact .inl ⟨rfl, hw.stuck fun hused => Bool.false_ne_true (hv'.mpr hused)⟩
        | true =>
          have hused' := hv'.mp rfl
          have hcmp := differ_of_maps hml2 hmr2 hf hg
          rw [hml2.2, hmr2.2] at hcmp
          rw [assertThat_of rfl, ok_bind]
          dsimp only
          split
          · rename_i hleave
            -- the first block in which the bitmaps differ is not behind the one of `r`
            have hdiff : ∃ a x, a / addr0Count ≤ r.addr ∧ S lhs a x ≠ S rhs a x := by
              rcases lt_trichotomy l.addr r.addr with hlr | hlr | hlr
              · obtain ⟨a, x, ha, hne⟩ := differ_left hw hused fun n hn => by
                  rcases List.mem_cons.mp hn with rfl | hn
                  · omega
                  · have := (List.pairwise_cons.mp hw.rasc).1 n hn
                    omega
                exact ⟨a, x, by omega, hne⟩
              · by_contra hno
                refine (hcmp.mpr ⟨hlr, fun a x ha => ?_⟩) hleave
                by_contra hne
                exact hno ⟨a, x, by omega, hne⟩
              · obtain ⟨a, x, ha, hne⟩ := differ_right hw hused' fun n hn => by
                  rcases List.mem_cons.mp hn with rfl | hn
                  · omega
                  · have := (List.pairwise_cons.mp hw.lasc).1 n hn
                    omega
                exact ⟨a, x, by omega, hne⟩
            obtain ⟨a, x, ha, hne⟩ := hdiff
            refine .inr (.inr ⟨h'', rfl, hw.not_stuck ?_, not_agree hne (by have := hused'.1; omega)⟩)
            rintro _ ⟨rfl⟩
            exact ⟨hused', not_agree hne (by omega)⟩
          · rename_i hgo
            obtain ⟨heq, hall⟩ := hcmp.mp hgo
            have hsame' : h''.bm2s = h.bm2s := hreads'.learns.sameMaps.bm2s.trans hsame
            obtain ⟨ml'', hl''⟩ := hreads'.learns.sameMaps.exists_bm hl'
            obtain ⟨mr'', hrhs''⟩ := hreads'.learns.sameMaps.exists_bm hrhs'
            exact ih hreads'.readOk hl'' hrhs'' (by rw [hsame']; exact fun n hn => hlm n (List.mem_cons_of_mem _ hn))
              (by rw [hsame']; exact fun n hn => hrm n (List.mem_cons_of_mem _ hn)) (hw.take hused' heq hall)

theorem BmHeap.Ok.nodeShows (hok : h.Ok) (hm : h.bms b = some m) {n : Bitmap2ref} (hn : n ∈ m.oset) :
    NodeShows h.bm2s (h.has b) n ∧ n.addr < nBlocks := by
  obtain ⟨m2, hm2⟩ := hok.haveMaps hm n hn
  refine ⟨⟨m2, hm2, fun a x ha => ?_⟩, hok.keys b m hm n hn⟩
  rw [← has_of_mapOf hok hm hn hm2 (Nat.mod_lt _ (by decide)), ← ha, Nat.div_add_mod']

/-- The bitmap has a map for the block. -/
def HasBlock (h : BmHeap) (b k : Nat) : Prop := h.ref b k ≠ none

theorem hasBlock_iff (hm : h.bms b = some m) : HasBlock h b k ↔ ∃ n ∈ m.oset, n.addr = k := by
  rw [HasBlock, ne_eq, ref_eq_none hm]
  constructor
  · intro hne
    obtain ⟨n, hn⟩ := Option.ne_none_iff_exists'.mp hne
    exact ⟨n, mem_of_find hn, key_of_find hn⟩
  · rintro ⟨n, hn, hk⟩ hnone
    exact find_eq_none.mp hnone n hn hk

theorem bmEqual_spec (hok : h.Ok) (hne : lhs ≠ rhs) (hl : h.bms lhs = some ml) (hr : h.bms rhs = some mr) :
    EqualResult (h.has lhs) (h.has rhs) (HasBlock h rhs) (bmEqual h lhs rhs) := by
  unfold bmEqual
  rw [assertThat_of hne, ok_bind, bm_eq hl, ok_bind, bm_eq hr, ok_bind]
  refine bmEqualLoop_spec (k := 0) hok.readOk hl hr (fun n hn => hok.nodeShows hl hn) (fun n hn => hok.nodeShows hr hn)
    ⟨hok.ascending lhs ml hl, hok.ascending rhs mr hr, fun n _ => Nat.zero_le _, fun n hn => ⟨Nat.zero_le _, ?_⟩,
      fun j _ hj => ?_, fun j _ hB => (hasBlock_iff hr).mp hB, fun a x ha => ?_, fun a x ha => absurd ha (Nat.not_lt_zero _),
      fun j hj => absurd hj (Nat.not_lt_zero _)⟩
  · exact (hasBlock_iff hr).mpr ⟨n, hn, rfl⟩
  · obtain ⟨-, a, x, rfl, ha⟩ := hj
    exact exists_node_of_has hl ha
  · exact (hasBlock_iff hr).mpr (exists_node_of_has hr ha)

/-- The walk comes to its end, but the first bitmap has an access in the highest block. -/
def TopMissed (f g : Nat → Row → Bool) (B : Nat → Prop) : Prop :=
  (∀ j, B j → BlockUsed g j) ∧ Agree f g (nBlocks - 1) ∧ ∃ a x, nBlocks - 1 ≤ a / addr0Count ∧ f a x = true

/-- `bm_equal` returns, and says whether the bitmaps have recorded the same accesses. -/
def EqualExact (h : BmHeap) (lhs rhs : Nat) : Prop :=
  ∃ res h', bmEqual h lhs rhs = .ok (res, h') ∧ (res = true ↔ ∀ a x, h.has lhs a x = h.has rhs a x)

/-- When `bm_equal` is right. -/
theorem equalExact_iff (hok : h.Ok) (hne : lhs ≠ rhs) (hl : h.bms lhs = some ml) (hr : h.bms rhs = some mr) :
    EqualExact h lhs rhs ↔ ¬ Stuck (h.has lhs) (h.has rhs) (HasBlock h rhs) ∧
      ¬ TopMissed (h.has lhs) (h.has rhs) (HasBlock h rhs) := by
  rcases bmEqual_spec hok hne hl hr with ⟨hrun, hstuck⟩ | ⟨h', hrun, hused, hagree⟩ | ⟨h', hrun, hnot, hdiff⟩
  · refine ⟨fun ⟨res, g, hrun', _⟩ => ?_, fun hn => absurd hstuck hn.1⟩
    rw [hrun] at hrun'
    exact nomatch hrun'
  · have hnot : ¬ Stuck (h.has lhs) (h.has rhs) (HasBlock h rhs) := fun ⟨j, hB, hj, _⟩ => hj (hused j hB)
    -- the second bitmap has nothing in the highest block
    have hempty : ∀ a x, nBlocks - 1 ≤ a / addr0Count → h.has rhs a x = false := by
      intro a x ha
      by_contra hne'
      obtain ⟨hlt, -⟩ := hused _ ((hasBlock_iff hr).mpr (exists_node_of_has hr (by simpa using hne')))
      omega
    constructor
    · rintro ⟨res, g, hrun', hres⟩
      rw [hrun] at hrun'
      obtain ⟨rfl, -⟩ := Prod.mk.inj (Except.ok.inj hrun')
      refine ⟨hnot, fun ⟨_, _, a, x, ha, hhas⟩ => ?_⟩
      rw [hres.mp rfl a x, hempty a x ha] at hhas
      exact nomatch hhas
    · rintro ⟨-, htop⟩
      refine ⟨true, h', hrun, fun _ a x => ?_, fun _ => rfl⟩
      rcases Nat.lt_or_ge (a / addr0Count) (nBlocks - 1) with hlt | hge
      · exact hagree a x hlt
      · rw [hempty a x hge]
        by_contra hne'
        exact htop ⟨hused, hagree, a, x, hge, by simpa using hne'⟩
  · refine ⟨fun _ => ⟨hnot, fun htop => hdiff htop.2.1⟩, fun _ => ⟨false, h', hrun, fun hf => (nomatch hf), fun hall => ?_⟩⟩
    exact absurd (fun a x _ => hall a x) hdiff

/-! ## `bm_swap` -/

/-- Only queries have been made. -/
inductive Asked : BmHeap → BmHeap → Prop where
  | refl (h : BmHeap) : Asked h h
  | ask {h g g' : BmHeap} {d : Nat} {q : BmQuery} {res : Bool} :
      Asked h g → g.Live d → q.Valid → q.run g d = .ok (res, g') → Asked h g'

/-- `bm_swap` returns, and all later queries answer for the exchanged bitmaps. -/
def SwapExact (h : BmHeap) (b c : Nat) : Prop :=
  ∃ h', bmSwap h b c = .ok h' ∧ ∀ g, Asked h' g → ∀ d (q : BmQuery), g.Live d → q.Valid →
    ∃ res g', q.run g d = .ok (res, g') ∧ (res = true ↔ q.Holds (h.has (Equiv.swap b c d)))

/-- The bitmaps have the same accesses in the blocks that are in one of the caches. -/
def CachesAgree (h : BmHeap) (b c : Nat) : Prop :=
  ∀ m m', h.bms b = some m → h.bms c = some m' → ∀ k < nBlocks,
    (bmCacheLookup m.cache k ≠ none ∨ bmCacheLookup m'.cache k ≠ none) →
      ∀ a x, a / addr0Count = k → h.has b a x = h.has c a x

theorem Asked.reads {h' g : BmHeap} (hasked : Asked h' g) (hr : ReadOk h' S) : Reads S h' g := by
  induction hasked with
  | refl => exact .refl hr
  | ask _ hlive hq hrun ih =>
    obtain ⟨m, hm⟩ := hlive
    obtain ⟨res, g'', hrun', hreads, -⟩ := query_spec ih.readOk hm hq
    rw [hrun'] at hrun
    obtain ⟨-, rfl⟩ := Prod.mk.inj (Except.ok.inj hrun)
    exact ih.trans hreads

theorem Shows.congr {bm2s : BmHeap} {o : Option Nat} (hs : Shows bm2s k o f)
    (hfg : ∀ a x, a / addr0Count = k → f a x = g a x) : Shows bm2s k o g := by
  cases o with
  | none => exact fun a x ha => (hfg a x ha).symm.trans (hs a x ha)
  | some p =>
    obtain ⟨m, hm, hk, hbits⟩ := hs
    exact ⟨m, hm, hk, fun a x ha => (hbits a x ha).trans (hfg a x ha)⟩

/-- A bitmap after the exchange: the ordered set of the other one behind its own cache. -/
theorem shows_swapped (hok : h.Ok) {h' : BmHeap} (hbm2s : h'.bm2s = h.bm2s) {b : Nat} (c : Nat)
    (hm : h.bms b = some m) (hk : k < nBlocks)
    (hagree : bmCacheLookup m.cache k ≠ none → ∀ a x, a / addr0Count = k → h.has b a x = h.has c a x) :
    Shows h' k (h.ref c k) (h.has c) ∧ ∀ v, bmCacheLookup m.cache k = some v → Shows h' k v (h.has c) := by
  have hshows : ∀ {o f}, Shows h k o f → Shows h' k o f := by
    intro o f hs
    cases o with
    | none => exact hs
    | some p =>
      obtain ⟨m2, hm2, hrest⟩ := hs
      exact ⟨m2, hbm2s ▸ hm2, hrest⟩
  refine ⟨hshows (shows_ref hok c k), fun v hv => ?_⟩
  rw [hok.cached b m hm k hk v hv]
  exact (hshows (shows_ref hok b k)).congr (hagree fun hnone => nomatch hnone.symm.trans hv)

/-- When later queries see the exchange. -/
theorem swapExact_iff (hok : h.Ok) (hne : b ≠ c) (hb : h.bms b = some mb) (hc : h.bms c = some mc) :
    SwapExact h b c ↔ CachesAgree h b c := by
  obtain ⟨h', hrun, hbm2s, -, -, hbms⟩ := bms_swap hb hc
  have hlive : ∀ {d}, h.Live d → h'.Live d := by
    rintro d ⟨m, hm⟩
    rw [BmHeap.Live, hbms]
    split
    · exact ⟨_, rfl⟩
    · split
      · exact ⟨_, rfl⟩
      · exact ⟨m, hm⟩
  have hb' : h'.bms b = some { mb with oset := mc.oset } := by
    rw [hbms, if_neg hne, if_pos rfl]
  have hc' : h'.bms c = some { mc with oset := mb.oset } := by
    rw [hbms, if_pos rfl]
  constructor
  · -- the block of a cache entry is looked up before the ordered set, in the bitmap that had it before
    rintro ⟨g, hg, hexact⟩ m m' hm hm' k hk hcached a x ha
    rw [hrun] at hg
    obtain rfl := Except.ok.inj hg
    obtain rfl := Option.some.inj (hb.symm.trans hm)
    obtain rfl := Option.some.inj (hc.symm.trans hm')
    have haw : a < wordMod := by
      have hlt := blockStart_add_lt hk (Nat.mod_lt a (show 0 < addr0Count by decide))
      rw [← ha, Nat.div_add_mod'] at hlt
      exact hlt
    obtain ⟨t, ht⟩ : ∃ t : BmAccessType, t.row = x := by
      cases x with
      | r => exact ⟨.eLoad, rfl⟩
      | w => exact ⟨.eStore, rfl⟩
    have hask : ∀ {d d' : Nat} {md : Bitmap} {v : Option Nat}, Equiv.swap b c d = d' → h'.bms d = some md →
        bmCacheLookup md.cache k = some v → v = h.ref d k → h.has d a x = h.has d' a x := by
      intro d d' md v hswap hmd hv hvref
      obtain ⟨res, g', hq, hres⟩ := hexact h' (.refl h') d (.has1 a t) ⟨md, hmd⟩ haw
      rw [hswap] at hres
      have hans : bmHas1 h' d a t = .ok (h.has d a x, h') := by
        have hlook : bm2Lookup h' d (a / addr0Count) = .ok (v, h') := by
          unfold bm2Lookup
          rw [bm_eq hmd, ok_bind, ha, hv]
          rfl
        unfold bmHas1
        rw [hlook, ok_bind]
        have hshows := hvref ▸ shows_ref hok d k
        cases v with
        | none =>
          rw [hshows a x ha]
          rfl
        | some p =>
          obtain ⟨m2, hm2, -, hbits⟩ := hshows
          have hm2' : h'.bm2s p = some m2 := by
            rw [hbm2s]
            exact hm2
          dsimp only
          rw [bm2_eq hm2', ok_bind, bm0IsSet_ne_zero, ht, hbits a x ha]
          rfl
      change bmHas1 h' d a t = _ at hq
      rw [hans] at hq
      obtain ⟨rfl, -⟩ := Prod.mk.inj (Except.ok.inj hq)
      have hholds : (BmQuery.has1 a t).Holds (h.has d') ↔ h.has d' a x = true := by
        rw [← ht]
        exact Iff.rfl
      exact Bool.eq_iff_iff.mpr (hres.trans hholds)
    rcases hcached with hcached | hcached
    · obtain ⟨v, hv⟩ := Option.ne_none_iff_exists'.mp hcached
      exact hask (Equiv.swap_apply_left b c) hb' hv (hok.cached b mb hb k hk v hv)
    · obtain ⟨v, hv⟩ := Option.ne_none_iff_exists'.mp hcached
      exact (hask (Equiv.swap_apply_right b c) hc' hv (hok.cached c mc hc k hk v hv)).symm
  · intro hagree
    have hread : ReadOk h' fun d => h.has (Equiv.swap b c d) := by
      intro d md hmd k hk
      have href : ∀ {d' : Nat} {mo : Bitmap}, h.bms d' = some mo → md.oset = mo.oset → h'.ref d k = h.ref d' k := by
        intro d' mo hmo hoset
        rw [ref_of_bms hmd, ref_of_bms hmo, hoset]
      dsimp only
      rw [hbms] at hmd
      split at hmd
      · rename_i hd
        obtain rfl := Option.some.inj hmd
        rw [hd, Equiv.swap_apply_right, ← hd, href hb rfl]
        exact shows_swapped (m := mc) hok hbm2s b hc hk fun hcached a x ha => (hagree mb mc hb hc k hk (.inr hcached) a x ha).symm
      · rename_i hdc
        split at hmd
        · rename_i hd
          obtain rfl := Option.some.inj hmd
          rw [hd, Equiv.swap_apply_left, ← hd, href hc rfl]
          exact shows_swapped (m := mb) hok hbm2s c hb hk fun hcached => hagree mb mc hb hc k hk (.inl hcached)
        · rename_i hdb
          rw [Equiv.swap_apply_of_ne_of_ne hdb hdc, href hmd rfl]
          exact shows_swapped hok hbm2s d hmd hk fun _ _ _ _ => rfl
    refine ⟨h', hrun, fun g hasked d q ⟨md, hmd⟩ hq => ?_⟩
    obtain ⟨res, g', hqrun, -, hres⟩ := query_spec (hasked.reads hread).readOk hmd hq
    exact ⟨res, g', hqrun, hres⟩

/-! ## Both -/

/-- **When comparing and exchanging are right.** -/
theorem equal_swap_iff (hreach : Reach h) (hne : lhs ≠ rhs) (hlhs : h.Live lhs) (hrhs : h.Live rhs) :
    (EqualExact h lhs rhs ∧ SwapExact h lhs rhs) ↔
      (¬ Stuck (h.has lhs) (h.has rhs) (HasBlock h rhs) ∧ ¬ TopMissed (h.has lhs) (h.has rhs) (HasBlock h rhs)) ∧
        CachesAgree h lhs rhs := by
  obtain ⟨ml, hl⟩ := hlhs
  obtain ⟨mr, hr⟩ := hrhs
  exact and_congr (equalExact_iff hreach.ok hne hl hr) (swapExact_iff hreach.ok hne hl hr)

omit [Machine] in
/-- Two bitmaps without accesses. -/
theorem equal_swap_iff_new : letI : Machine := amd64Linux
    (EqualExact (newBitmaps 2) 0 1 ∧ SwapExact (newBitmaps 2) 0 1) ↔
      (¬ Stuck ((newBitmaps 2).has 0) ((newBitmaps 2).has 1) (HasBlock (newBitmaps 2) 1) ∧
        ¬ TopMissed ((newBitmaps 2).has 0) ((newBitmaps 2).has 1) (HasBlock (newBitmaps 2) 1)) ∧
        CachesAgree (newBitmaps 2) 0 1 :=
  letI : Machine := amd64Linux
  equal_swap_iff (reach_newBitmaps 2) (by decide) (live_newBitmaps (by decide)) (live_newBitmaps (by decide))

omit [Machine] in
/-- A bitmap with a store to the address 8 is exchanged with one without accesses whose cache says that there is no
map for the block: afterwards the store is not found. -/
theorem swap_forgets : letI : Machine := amd64Linux
    ∃ h, runSteps bmStep (newBitmaps 2) [.access1 0 8 .eStore, .query 1 (.has1 8 .eStore)] = .ok h ∧ Reach h ∧
      ¬ (EqualExact h 0 1 ∧ SwapExact h 0 1) := by
  letI : Machine := amd64Linux
  refine ⟨_, rfl, .step (.step (reach_newBitmaps 2)
    (show BmOp.Allowed _ (.access1 0 8 .eStore) from ⟨⟨_, rfl⟩, by decide⟩) rfl)
    (show BmOp.Allowed _ (.query 1 (.has1 8 .eStore)) from ⟨_, rfl⟩) rfl, ?_⟩
  rintro ⟨-, h', hswap, hexact⟩
  obtain rfl := Except.ok.inj hswap
  obtain ⟨res, g, hrun, hres⟩ := hexact _ (.refl _) 1 (.has1 8 .eStore) ⟨_, rfl⟩
    (show 8 < wordMod by decide)
  -- the cache answers
  obtain ⟨rfl, -⟩ := Prod.mk.inj (Except.ok.inj hrun)
  exact absurd (hres.mpr rfl) Bool.false_ne_true

end

end Valgrind.Drd
