import Valgrind.Memcheck.LeakCheck

/-!
# The set of blocks

`find_shadow_for` is a binary search. What it returns holds the address
(`findShadowFor_sound`); on blocks that stand apart it also finds whatever there is to find
(`findShadowFor_eq_some`).

`find_active_shadows` looks up both ends of every mempool chunk and marks the malloc chunks
found. `activeShadows_exact` says when its result is the set of blocks it is meant to be.
-/

namespace Valgrind

namespace Memcheck

open Machine Debuginfo

section

variable [Machine] {ε : Type} {shadows mallocs : List (McChunk ε)} {mc : McChunk ε} {ptr m : Nat}
  {lo hi : Int} {r : Option Nat}

/-- The block holds the byte at `x`. A block of size 0 counts as one of size 1. -/
def McChunk.Holds (mc : McChunk ε) (x : Nat) : Prop := mc.data ≤ x ∧ x < mc.data + max mc.szB 1

instance (mc : McChunk ε) (x : Nat) : Decidable (mc.Holds x) := inferInstanceAs (Decidable (_ ∧ _))

/-- The block does not reach the end of the address space. -/
def McChunk.Fits (mc : McChunk ε) : Prop := mc.data + max mc.szB 1 < wordMod

/-- The blocks are in order and apart. -/
def BlocksApart (shadows : List (McChunk ε)) : Prop :=
  shadows.Pairwise fun a b => a.data + max a.szB 1 ≤ b.data

/-! ## Looking up a block -/

theorem McChunk.hi_le (mc : McChunk ε) : mc.hi ≤ mc.data + max mc.szB 1 := by
  have h₁ : addW mc.data mc.szB ≤ mc.data + mc.szB := Nat.mod_le _ _
  have h₂ : addW (addW mc.data mc.szB) 1 ≤ addW mc.data mc.szB + 1 := Nat.mod_le _ _
  unfold McChunk.hi
  split <;> omega

theorem McChunk.Fits.hi_eq (h : mc.Fits) : mc.hi = mc.data + max mc.szB 1 := by
  unfold McChunk.Fits at h
  unfold McChunk.hi
  have hsum : addW mc.data mc.szB = mc.data + mc.szB := addW_of_lt (by omega)
  rw [hsum]
  split
  · rw [addW_of_lt (by omega)]
    omega
  · omega

/-- The binary search returns, and what it returns holds the address. If the blocks in the
unsearched space stand apart, it returns nothing only if none of them holds the address. -/
theorem findShadowLoop_spec (ptr : Nat) (shadows : List (McChunk ε)) (fuel : Nat) (lo hi : Int) (hlo : 0 ≤ lo)
    (hhi : hi < shadows.length) (hpos : 0 < fuel) (hfuel : hi - lo + 1 < fuel) :
    ∃ r, findShadowLoop ptr shadows fuel lo hi = .ok r ∧
      (∀ m : Nat, r = some m → ∃ mc, shadows[m]? = some mc ∧ mc.Holds ptr) ∧
      (r = none → BlocksApart shadows → (∀ mc ∈ shadows, mc.Fits) →
        ∀ (m : Nat) (mc : McChunk ε), lo ≤ (m : Int) → (m : Int) ≤ hi → shadows[m]? = some mc → ¬ mc.Holds ptr) := by
  induction fuel generalizing lo hi with
  | zero => exact absurd hpos (by omega)
  | succ fuel ih =>
    rw [findShadowLoop]
    by_cases hempty : lo > hi
    · rw [if_pos hempty]
      refine ⟨none, rfl, by simp, fun _ _ _ m mc h₁ h₂ => ?_⟩
      omega
    · rw [if_neg hempty]
      obtain ⟨mid, hmid⟩ : ∃ mid : Nat, (lo + hi) / 2 = mid := ⟨((lo + hi) / 2).toNat, by omega⟩
      have hlt : mid < shadows.length := by omega
      obtain ⟨mc, hget⟩ : ∃ mc, shadows[mid]? = some mc := ⟨_, List.getElem?_eq_getElem hlt⟩
      have hmem : mc ∈ shadows := List.mem_of_getElem? hget
      -- blocks that stand apart are in order
      have hbefore : BlocksApart shadows → ∀ m mc', m < mid → shadows[m]? = some mc' →
          mc'.data + max mc'.szB 1 ≤ mc.data := by
        intro hA m mc' hm hget'
        obtain ⟨h₁, rfl⟩ := List.getElem?_eq_some_iff.mp hget'
        obtain ⟨h₂, rfl⟩ := List.getElem?_eq_some_iff.mp hget
        exact List.pairwise_iff_getElem.mp hA m mid h₁ h₂ hm
      have hafter : BlocksApart shadows → ∀ m mc', mid < m → shadows[m]? = some mc' →
          mc.data + max mc.szB 1 ≤ mc'.data := by
        intro hA m mc' hm hget'
        obtain ⟨h₁, rfl⟩ := List.getElem?_eq_some_iff.mp hget'
        obtain ⟨h₂, rfl⟩ := List.getElem?_eq_some_iff.mp hget
        exact List.pairwise_iff_getElem.mp hA mid m h₂ h₁ hm
      simp only [hmid, Int.toNat_natCast, hget]
      by_cases hbelow : ptr < mc.data
      · rw [if_pos hbelow]
        obtain ⟨r, hr, hsound, hnone⟩ := ih lo (mid - 1) hlo (by omega) (by omega) (by omega)
        refine ⟨r, hr, hsound, fun hn hA hF m mc' h₁ h₂ hget' hholds => ?_⟩
        rcases Nat.lt_or_ge m mid with hm | hm
        · exact hnone hn hA hF m mc' h₁ (by omega) hget' hholds
        · unfold McChunk.Holds at hholds
          rcases Nat.eq_or_lt_of_le hm with rfl | hm
          · obtain rfl := Option.some.inj (hget.symm.trans hget')
            omega
          · have := hafter hA m mc' hm hget'
            omega
      · rw [if_neg hbelow]
        by_cases habove : ptr ≥ mc.hi
        · rw [if_pos habove]
          obtain ⟨r, hr, hsound, hnone⟩ := ih (mid + 1) hi (by omega) hhi (by omega) (by omega)
          refine ⟨r, hr, hsound, fun hn hA hF m mc' h₁ h₂ hget' hholds => ?_⟩
          rcases Nat.lt_or_ge mid m with hm | hm
          · exact hnone hn hA hF m mc' (by omega) h₂ hget' hholds
          · have hhi' := (hF mc hmem).hi_eq
            unfold McChunk.Holds at hholds
            rcases Nat.eq_or_lt_of_le hm with rfl | hm
            · obtain rfl := Option.some.inj (hget.symm.trans hget')
              omega
            · have := hbefore hA m mc' hm hget'
              omega
        · have hle := mc.hi_le
          rw [if_neg habove, assertThat_of ⟨by omega, by omega⟩]
          refine ⟨some mid, rfl, ?_, by simp⟩
          rintro m ⟨⟩
          exact ⟨mc, hget, by omega, by omega⟩

theorem findShadowFor_spec (ptr : Nat) (shadows : List (McChunk ε)) :
    ∃ r, findShadowFor ptr shadows = .ok r ∧
      (∀ m : Nat, r = some m → ∃ mc, shadows[m]? = some mc ∧ mc.Holds ptr) ∧
      (r = none → BlocksApart shadows → (∀ mc ∈ shadows, mc.Fits) →
        ∀ (m : Nat) (mc : McChunk ε), shadows[m]? = some mc → ¬ mc.Holds ptr) := by
  obtain ⟨r, hr, hsound, hnone⟩ := findShadowLoop_spec ptr shadows (shadows.length + 1) 0
    (shadows.length - 1) (Int.le_refl 0) (by omega) (by omega) (by omega)
  refine ⟨r, hr, hsound, fun hn hA hF m mc hget => ?_⟩
  have hlt := (List.getElem?_eq_some_iff.mp hget).1
  exact hnone hn hA hF m mc (by omega) (by omega) hget

/-- What is found holds the address. -/
theorem findShadowFor_sound (h : findShadowFor ptr shadows = .ok (some m)) :
    ∃ mc, shadows[m]? = some mc ∧ mc.Holds ptr := by
  obtain ⟨r, hr, hsound, -⟩ := findShadowFor_spec ptr shadows
  exact hsound m (Except.ok.inj (hr.symm.trans h))

omit [Machine] in
/-- At most one of several blocks that stand apart holds an address. -/
theorem BlocksApart.unique (hA : BlocksApart shadows) {m' : Nat} {mc' : McChunk ε}
    (h : shadows[m]? = some mc) (h' : shadows[m']? = some mc') (hp : mc.Holds ptr) (hp' : mc'.Holds ptr) :
    m = m' := by
  obtain ⟨hm, rfl⟩ := List.getElem?_eq_some_iff.mp h
  obtain ⟨hm', rfl⟩ := List.getElem?_eq_some_iff.mp h'
  unfold McChunk.Holds at hp hp'
  rcases Nat.lt_trichotomy m m' with hlt | he | hgt
  · have := List.pairwise_iff_getElem.mp hA m m' hm hm' hlt
    omega
  · exact he
  · have := List.pairwise_iff_getElem.mp hA m' m hm' hm hgt
    omega

/-- On blocks that stand apart, the search finds the block that holds the address. -/
theorem findShadowFor_eq_some (hA : BlocksApart shadows) (hF : ∀ mc ∈ shadows, mc.Fits)
    (h : shadows[m]? = some mc) (hp : mc.Holds ptr) : findShadowFor ptr shadows = .ok (some m) := by
  obtain ⟨r, hr, hsound, hnone⟩ := findShadowFor_spec ptr shadows
  cases r with
  | none => exact absurd hp (hnone rfl hA hF m mc h)
  | some m' =>
    obtain ⟨mc', h', hp'⟩ := hsound m' rfl
    rw [hr, hA.unique h h' hp hp']

/-! ## Malloc chunks with mempool chunks in them -/

/-- The ends of a mempool chunk, as `find_active_shadows` looks them up. -/
def McChunk.ends (mc : McChunk ε) : List Nat := if mc.szB > 1 then [mc.data, mc.last] else [mc.data]

/-- The malloc chunk holds the first or the last byte of a mempool chunk. -/
def HoldsEnd (mempoolList : List (List (McChunk ε))) (mc : McChunk ε) : Prop :=
  ∃ p ∈ mempoolList.flatten, ∃ x ∈ p.ends, mc.Holds x

instance (mempoolList : List (List (McChunk ε))) (mc : McChunk ε) : Decidable (HoldsEnd mempoolList mc) :=
  inferInstanceAs (Decidable (∃ p ∈ mempoolList.flatten, ∃ x ∈ p.ends, mc.Holds x))

/-- `n_shadows` and the marks after `k` mempool chunks have been counted and the addresses in
`seen` looked up. -/
structure Counted (mallocs : List (McChunk ε)) (k : Nat) (seen : List Nat) (st : Nat × List Bool) : Prop where
  length : st.2.length = mallocs.length
  count : st.1 + st.2.count true = mallocs.length + k
  marked : ∀ m, st.2[m]? = some true ↔ ∃ x ∈ seen, findShadowFor x mallocs = .ok (some m)

variable {k : Nat} {seen : List Nat} {st : Nat × List Bool} {chunks out : List (McChunk ε)} {n : Nat}

omit [Machine] in
theorem count_set_true {l : List Bool} (h : l[m]? = some false) :
    (l.set m true).count true = l.count true + 1 := by
  obtain ⟨hm, he⟩ := List.getElem?_eq_some_iff.mp h
  rw [List.count_set hm, he]
  simp

theorem invalidate_spec (h : Counted mallocs k seen st) (x : Nat) :
    ∃ st', invalidate mallocs x st = .ok st' ∧ Counted mallocs k (seen ++ [x]) st' := by
  obtain ⟨r, hr, hsound, -⟩ := findShadowFor_spec x mallocs
  have hseen : ∀ m, (∃ y ∈ seen ++ [x], findShadowFor y mallocs = .ok (some m)) ↔
      st.2[m]? = some true ∨ r = some m := by
    intro m
    rw [h.marked m]
    simp only [List.mem_append, List.mem_singleton, or_and_right, exists_or, exists_eq_left, hr,
      Except.ok.injEq]
  rw [invalidate, hr, ok_bind]
  cases r with
  | none => exact ⟨st, rfl, h.length, h.count, fun m => by rw [hseen]; simp⟩
  | some m =>
    obtain ⟨mc, hget, -⟩ := hsound m rfl
    have hlt : m < st.2.length := h.length ▸ (List.getElem?_eq_some_iff.mp hget).1
    obtain ⟨holds, hholds⟩ : ∃ holds, st.2[m]? = some holds := ⟨_, List.getElem?_eq_getElem hlt⟩
    simp only [hholds]
    cases holds with
    | true =>
      refine ⟨st, rfl, h.length, h.count, fun m' => ?_⟩
      rw [hseen, Option.some.injEq]
      refine (or_iff_left_of_imp ?_).symm
      rintro rfl
      exact hholds
    | false =>
      -- not all malloc chunks are marked, so there is a shadow left to count down
      have hcount : st.2.count true < mallocs.length := by
        rw [← h.length]
        refine List.count_lt_length_iff.mpr ⟨false, List.mem_of_getElem? hholds, by simp⟩
      have hpos : st.1 > 0 := by
        have := h.count
        omega
      rw [if_pos rfl, assertThat_of hpos, ok_bind]
      refine ⟨_, rfl, ?_, ?_, fun m' => ?_⟩
      · simpa using h.length
      · have := h.count
        have := count_set_true hholds
        dsimp only
        omega
      · rw [hseen, Option.some.injEq]
        dsimp only
        rw [List.getElem?_set]
        by_cases he : m = m'
        · subst he
          simp [hlt]
        · simp [he]

theorem countPoolChunk_spec (h : Counted mallocs k seen st) (mc : McChunk ε) :
    ∃ st', countPoolChunk mallocs st mc = .ok st' ∧ Counted mallocs (k + 1) (seen ++ mc.ends) st' := by
  have h' : Counted mallocs (k + 1) seen (st.1 + 1, st.2) :=
    ⟨h.length, by have := h.count; dsimp only; omega, h.marked⟩
  obtain ⟨st₁, hst₁, h₁⟩ := invalidate_spec h' mc.data
  rw [countPoolChunk, hst₁, ok_bind, McChunk.ends]
  by_cases hsz : mc.szB > 1
  · obtain ⟨st₂, hst₂, h₂⟩ := invalidate_spec h₁ mc.last
    rw [if_pos hsz, if_pos hsz]
    refine ⟨st₂, hst₂, ?_⟩
    simpa using h₂
  · rw [if_neg hsz, if_neg hsz]
    exact ⟨st₁, rfl, h₁⟩

theorem countPoolChunks_spec (chunks : List (McChunk ε)) (h : Counted mallocs k seen st) :
    ∃ st', chunks.foldlM (countPoolChunk mallocs) st = .ok st' ∧
      Counted mallocs (k + chunks.length) (seen ++ chunks.flatMap McChunk.ends) st' := by
  induction chunks generalizing k seen st with
  | nil => exact ⟨st, rfl, by simpa using h⟩
  | cons mc chunks ih =>
    obtain ⟨st₁, hst₁, h₁⟩ := countPoolChunk_spec h mc
    obtain ⟨st₂, hst₂, h₂⟩ := ih h₁
    refine ⟨st₂, ?_, ?_⟩
    · rw [List.foldlM_cons, hst₁]
      exact hst₂
    · simpa [Nat.add_assoc, Nat.add_comm 1] using h₂

/-! ## Copying -/

omit [Machine] in
theorem pushShadows_eq (hn : out.length + chunks.length ≤ n) :
    chunks.foldlM (pushShadow n) out = .ok (out ++ chunks) := by
  induction chunks generalizing out with
  | nil => simp [pure, Except.pure]
  | cons mc chunks ih =>
    rw [List.length_cons] at hn
    have hlt : out.length < n := by omega
    rw [List.foldlM_cons, pushShadow, assertThat_of hlt, ok_bind]
    have hn' : (out ++ [mc]).length + chunks.length ≤ n := by
      simp only [List.length_append, List.length_singleton]
      omega
    simpa using ih hn'

/-- The malloc chunks that are not marked. -/
def unmarked (mallocs : List (McChunk ε)) (holds : List Bool) : List (McChunk ε) :=
  (mallocs.zip holds).filterMap fun x => if x.2 = false then some x.1 else none

omit [Machine] in
theorem unmarked_length {holds : List Bool} (h : holds.length = mallocs.length) :
    (unmarked mallocs holds).length + holds.count true = mallocs.length := by
  induction mallocs generalizing holds with
  | nil =>
    obtain rfl := List.length_eq_zero_iff.mp h
    rfl
  | cons mc mallocs ih =>
    cases holds with
    | nil => simp at h
    | cons b holds =>
      have := ih (by simpa using h)
      cases b <;> simp [unmarked] at this ⊢ <;> omega

/-- The blocks that are found, when nothing goes wrong. -/
theorem findActiveShadows_eq (ssort : Ssort (lcCompar (ε := ε))) {mallocList : List (McChunk ε)}
    (hne : mallocList ≠ []) (mempoolList : List (List (McChunk ε))) :
    ∃ holds : List Bool, holds.length = mallocList.length ∧
      (∀ m, holds[m]? = some true ↔ ∃ p ∈ mempoolList.flatten, ∃ x ∈ p.ends,
        findShadowFor x (ssort.sort mallocList) = .ok (some m)) ∧
      findActiveShadows ssort mallocList mempoolList =
        .ok (mempoolList.flatten ++ unmarked (ssort.sort mallocList) holds,
          (mempoolList.flatten ++ unmarked (ssort.sort mallocList) holds).length) := by
  obtain ⟨mallocs, hmallocs⟩ : ∃ mallocs, mallocs = ssort.sort mallocList := ⟨_, rfl⟩
  have hlen : mallocs.length = mallocList.length := hmallocs ▸ (ssort.perm mallocList).length_eq
  have hpos : 0 < mallocList.length := List.length_pos_iff.mpr hne
  have hinit : Counted mallocs 0 [] (mallocs.length, List.replicate mallocs.length false) := by
    refine ⟨by simp, by simp [List.count_replicate], fun m => ?_⟩
    simp [List.getElem?_replicate]
  obtain ⟨⟨n, holds⟩, hcount, h⟩ := countPoolChunks_spec mempoolList.flatten hinit
  have hkept : (unmarked mallocs holds).length + holds.count true = mallocs.length :=
    unmarked_length h.length
  have hsum : n + holds.count true = mallocs.length + (0 + mempoolList.flatten.length) := h.count
  have hn : n = mempoolList.flatten.length + (unmarked mallocs holds).length := by
    omega
  have hnpos : n > 0 := by
    have hle : holds.count true ≤ holds.length := List.count_le_length
    have : holds.length = mallocs.length := h.length
    by_contra h0
    have hnone : mempoolList.flatten = [] := List.length_eq_zero_iff.mp (by omega)
    have hfalse : holds.count true = 0 := by
      rw [List.count_eq_zero]
      intro hin
      obtain ⟨m, hm⟩ := List.mem_iff_getElem?.mp hin
      obtain ⟨x, hx, -⟩ := (h.marked m).mp hm
      simp [hnone] at hx
    omega
  refine ⟨holds, h.length.trans hlen, fun m => ?_, ?_⟩
  · rw [h.marked m, ← hmallocs]
    simp only [List.nil_append, List.mem_flatMap]
    constructor
    · rintro ⟨x, ⟨p, hp, hx⟩, hf⟩
      exact ⟨p, hp, x, hx, hf⟩
    · rintro ⟨p, hp, x, hx, hf⟩
      exact ⟨x, ⟨p, hp, hx⟩, hf⟩
  · have h₁ : mempoolList.flatten.foldlM (pushShadow n) [] = .ok mempoolList.flatten := by
      rw [pushShadows_eq (by rw [List.length_nil]; omega)]
      rfl
    have h₂ : (unmarked mallocs holds).foldlM (pushShadow n) mempoolList.flatten =
        .ok (mempoolList.flatten ++ unmarked mallocs holds) := pushShadows_eq (by omega)
    have h₃ : (mempoolList.flatten ++ unmarked mallocs holds).length = n := by
      rw [List.length_append]
      omega
    rw [findActiveShadows, if_neg (by omega), ← hmallocs]
    dsimp only
    rw [hcount, ok_bind]
    dsimp only
    rw [assertThat_of hnpos, ok_bind, h₁, ok_bind]
    change (unmarked mallocs holds).foldlM (pushShadow n) mempoolList.flatten >>= _ = _
    rw [h₂, ok_bind, assertThat_of h₃, ok_bind, h₃]
    rfl

/-! ## The set of blocks -/

omit [Machine] in
/-- What is left out of a list by marks that only elements with the property have is what the
property leaves out, up to the order, iff all elements with the property are marked. -/
theorem unmarked_perm_iff {P : McChunk ε → Prop} [DecidablePred P] {holds : List Bool}
    (hlen : holds.length = mallocs.length)
    (hP : ∀ (m : Nat) (mc : McChunk ε), mallocs[m]? = some mc → holds[m]? = some true → P mc) :
    (unmarked mallocs holds).Perm (mallocs.filter fun mc => ¬ P mc) ↔
      ∀ (m : Nat) (mc : McChunk ε), mallocs[m]? = some mc → P mc → holds[m]? = some true := by
  obtain ⟨z, hz⟩ : ∃ z, z = mallocs.zip holds := ⟨_, rfl⟩
  have hfst : mallocs = z.map Prod.fst := by rw [hz, List.map_fst_zip (Nat.le_of_eq hlen.symm)]
  have hmem : ∀ x ∈ z, ∃ m : Nat, mallocs[m]? = some x.1 ∧ holds[m]? = some x.2 := by
    intro x hx
    obtain ⟨m, hm⟩ := List.mem_iff_getElem?.mp (hz ▸ hx)
    exact ⟨m, List.getElem?_zip_eq_some.mp hm⟩
  have hun : unmarked mallocs holds = (z.filter fun x => x.2 = false).map Prod.fst := by
    have hall : ∀ z : List (McChunk ε × Bool), (z.filterMap fun x => if x.2 = false then some x.1 else none) =
        (z.filter fun x => x.2 = false).map Prod.fst := by
      intro z
      induction z with
      | nil => rfl
      | cons x z ih => cases hx : x.2 <;> simp [hx, ih]
    rw [unmarked, ← hz, hall]
  have hfil : (mallocs.filter fun mc => ¬ P mc) = (z.filter fun x => ¬ P x.1).map Prod.fst := by
    rw [hfst, List.filter_map]
    rfl
  have himp : ∀ x ∈ z, ¬ P x.1 → x.2 = false := by
    intro x hx hn
    obtain ⟨m, h₁, h₂⟩ := hmem x hx
    cases hb : x.2 with
    | false => rfl
    | true => exact absurd (hP m x.1 h₁ (hb ▸ h₂)) hn
  rw [hun, hfil]
  constructor
  · intro hperm m mc hget hp
    have hlt : m < holds.length := hlen ▸ (List.getElem?_eq_some_iff.mp hget).1
    obtain ⟨b, hb⟩ : ∃ b, holds[m]? = some b := ⟨_, List.getElem?_eq_getElem hlt⟩
    cases b with
    | true => exact hb
    | false =>
      have hcut : (z.filter fun x => ¬ P x.1) = (z.filter fun x => x.2 = false).filter fun x => ¬ P x.1 := by
        rw [List.filter_filter]
        refine List.filter_congr fun x hx => ?_
        have := himp x hx
        by_cases hp : P x.1 <;> simp [hp]
        exact this hp
      have hlength := hperm.length_eq
      rw [List.length_map, List.length_map, hcut] at hlength
      have hin : (mc, false) ∈ z.filter fun x => x.2 = false := by
        refine List.mem_filter.mpr ⟨?_, by simp⟩
        rw [hz]
        exact List.mem_of_getElem? (List.getElem?_zip_eq_some.mpr ⟨hget, hb⟩)
      have := List.length_filter_eq_length_iff.mp hlength.symm _ hin
      exact absurd hp (by simpa using this)
  · intro hall
    have heq : (z.filter fun x => x.2 = false) = z.filter fun x => ¬ P x.1 := by
      refine List.filter_congr fun x hx => ?_
      obtain ⟨m, h₁, h₂⟩ := hmem x hx
      by_cases hp : P x.1
      · have hb := Option.some.inj (h₂.symm.trans (hall m x.1 h₁ hp))
        simp [hp, hb]
      · simp [hp, himp x hx hp]
    rw [heq]

/-- **The set of blocks.** The result consists of the mempool chunks and of the malloc chunks
that hold no end of one, each of them once, iff there is a malloc chunk or no mempool chunk,
and every malloc chunk that holds an end of a mempool chunk is found for one of the ends. -/
theorem activeShadows_exact (ssort : Ssort (lcCompar (ε := ε))) (mallocList : List (McChunk ε))
    (mempoolList : List (List (McChunk ε))) :
    (∃ shadows, findActiveShadows ssort mallocList mempoolList = .ok (shadows, shadows.length) ∧
        shadows.Perm (mempoolList.flatten ++ mallocList.filter fun mc => ¬ HoldsEnd mempoolList mc)) ↔
      (mallocList ≠ [] ∨ mempoolList.flatten = []) ∧
      ∀ (m : Nat) (mc : McChunk ε), (ssort.sort mallocList)[m]? = some mc → HoldsEnd mempoolList mc →
        ∃ p ∈ mempoolList.flatten, ∃ x ∈ p.ends,
          findShadowFor x (ssort.sort mallocList) = .ok (some m) := by
  by_cases hnil : mallocList = []
  · subst hnil
    have hsort : ssort.sort [] = [] := List.length_eq_zero_iff.mp (ssort.perm []).length_eq
    have hcode : findActiveShadows ssort [] mempoolList = .ok ([], 0) := rfl
    rw [hcode, hsort]
    simp only [List.filter_nil, List.append_nil, ne_eq, not_true_eq_false, false_or,
      List.getElem?_nil, reduceCtorEq, false_implies, implies_true, and_true]
    constructor
    · rintro ⟨shadows, he, hperm⟩
      obtain ⟨rfl, -⟩ := Prod.mk.inj (Except.ok.inj he)
      exact List.nil_perm.mp hperm
    · intro h0
      exact ⟨[], rfl, h0 ▸ .nil⟩
  · obtain ⟨holds, hlen, hmarked, hcode⟩ := findActiveShadows_eq ssort hnil mempoolList
    have hperm := ssort.perm mallocList
    have hmarkedP : ∀ (m : Nat) (mc : McChunk ε), (ssort.sort mallocList)[m]? = some mc → holds[m]? = some true →
        HoldsEnd mempoolList mc := by
      intro m mc hget hm
      obtain ⟨p, hp, x, hx, hf⟩ := (hmarked m).mp hm
      obtain ⟨mc', hget', hholds⟩ := findShadowFor_sound hf
      obtain rfl := Option.some.inj (hget'.symm.trans hget)
      exact ⟨p, hp, x, hx, hholds⟩
    have hiff := unmarked_perm_iff (hlen.trans hperm.length_eq.symm) hmarkedP
    rw [and_iff_right (Or.inl hnil)]
    simp only [hmarked] at hiff
    rw [← hiff, hcode]
    have hfil := hperm.filter fun mc => ¬ HoldsEnd mempoolList mc
    constructor
    · rintro ⟨shadows, he, h⟩
      obtain ⟨rfl, -⟩ := Prod.mk.inj (Except.ok.inj he)
      exact ((List.perm_append_left_iff _).mp h).trans hfil.symm
    · intro h
      exact ⟨_, rfl, (h.trans hfil).append_left _⟩

/-- On malloc chunks that stand apart, whatever holds an end of a mempool chunk is found. -/
theorem found_of_blocksApart (ssort : Ssort (lcCompar (ε := ε))) {mallocList : List (McChunk ε)}
    {mempoolList : List (List (McChunk ε))} (hA : BlocksApart (ssort.sort mallocList))
    (hF : ∀ mc ∈ mallocList, mc.Fits) (h : (ssort.sort mallocList)[m]? = some mc)
    (hp : HoldsEnd mempoolList mc) : ∃ p ∈ mempoolList.flatten, ∃ x ∈ p.ends,
      findShadowFor x (ssort.sort mallocList) = .ok (some m) := by
  obtain ⟨p, hin, x, hx, hholds⟩ := hp
  exact ⟨p, hin, x, hx, findShadowFor_eq_some hA
    (fun mc hmc => hF mc ((ssort.perm mallocList).mem_iff.mp hmc)) h hholds⟩

end

theorem lcCompar_le {ε : Type} {a b : McChunk ε} : lcCompar a b ≤ 0 ↔ a.data ≤ b.data := by
  unfold lcCompar
  split
  · simp; omega
  · split <;> simp <;> omega

/-- Sorting blocks by address. -/
def lcSsort (ε : Type) : Ssort (lcCompar (ε := ε)) :=
  insertionSsort lcCompar
    (fun a b => by simpa only [lcCompar_le] using Nat.le_total a.data b.data)
    (fun a b c => by simpa only [lcCompar_le] using Nat.le_trans)

/-- There is a mempool chunk but no malloc chunk, and no block is found. -/
theorem activeShadows_noMallocs :
    letI : Machine := x86Linux
    ∃ shadows, findActiveShadows (lcSsort Unit) [] [[⟨0x1000, 16, ()⟩]] = .ok (shadows, 0) ∧
      ⟨0x1000, 16, ()⟩ ∉ shadows :=
  ⟨[], rfl, by simp⟩

end Memcheck

end Valgrind
