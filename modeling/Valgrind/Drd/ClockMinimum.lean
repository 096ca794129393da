import Valgrind.Drd.VectorClock

/-!
# The minimum of two vector clocks

`vc_min` takes the elements of both clocks in the order of their thread ids. An element of
`result` is visited for the first time when an element of `rhs` with the same thread id, or a
larger one, comes up; an element that both clocks have is visited again, and taken for one that
`rhs` lacks, when the next element of `rhs` comes up. The elements behind the end of `rhs` are not
visited at all. `vcMin_spec` is what becomes of an element, and `vcMin_iff` says when this is the
minimum.
-/

namespace Valgrind.Drd

open SortedMerge

/-! ## The model -/

/-- The count is cleared. -/
def VCElem.clear (e : VCElem) : VCElem := { e with count := 0 }

/-- The loop of `vc_min`: the lists are what `result` and `rhs` have from index `i` and from index
`j` on. -/
def minFrom : List VCElem → List VCElem → Result (List VCElem)
  | result, [] => return result
  | result, f :: rhs => do
    -- thread ids that are missing in the second vector clock
    let missing := (result.takeWhile fun e => decide (e.threadid < f.threadid)).map VCElem.clear
    match result.dropWhile fun e => decide (e.threadid < f.threadid) with
    | [] => return missing
    | e :: result =>
      if e.threadid ≤ f.threadid then do
        assertThat (e.threadid = f.threadid)
        let e := if f.count < e.count then { e with count := f.count } else e
        let result ← minFrom (e :: result) rhs
        return missing ++ result
      else do
        let result ← minFrom (e :: result) rhs
        return missing ++ result

/-- `vc_min`. -/
def vcMin (result rhs : VectorClock) : Result VectorClock := do
  vcCheck result
  let vc ← minFrom result.vc rhs.vc
  let result := { result with vc := vc }
  vcCheck result
  return result

/-! ## What becomes of an element -/

/-- There is an element with a larger thread id. -/
def Passed (rhs : List VCElem) (t : ThreadId) : Prop := ∃ g ∈ rhs, t < g.threadid

instance (rhs : List VCElem) (t : ThreadId) : Decidable (Passed rhs t) :=
  inferInstanceAs (Decidable (∃ g ∈ rhs, _))

/-- What `vc_min` makes of an element: it is cleared if `rhs` goes on behind it, and else compared
with the one that `rhs` ends with. -/
def minElem (rhs : List VCElem) (e : VCElem) : VCElem :=
  if Passed rhs e.threadid then e.clear
  else match find VCElem.threadid e.threadid rhs with
    | some f => { e with count := min e.count f.count }
    | none => e

section Elems

variable {q rhs : List VCElem} {e f : VCElem} {t : ThreadId}

theorem minElem_threadid (rhs : List VCElem) (e : VCElem) : (minElem rhs e).threadid = e.threadid := by
  unfold minElem
  split
  · rfl
  · split <;> rfl

theorem minElem_of_passed (h : Passed rhs e.threadid) : minElem rhs e = e.clear := if_pos h

theorem minElem_nil (e : VCElem) : minElem [] e = e := by
  unfold minElem
  rw [if_neg fun ⟨_, hg, _⟩ => (nomatch hg)]
  rfl

/-- An element behind the first one of `rhs`. -/
theorem minElem_cons (h : f.threadid < e.threadid) : minElem (f :: rhs) e = minElem rhs e := by
  have hpassed : Passed (f :: rhs) e.threadid ↔ Passed rhs e.threadid := by
    simp only [Passed, List.exists_mem_cons_iff, h.asymm, false_or]
  unfold minElem
  rw [find_cons_of_ne h.ne]
  by_cases hp : Passed rhs e.threadid
  · rw [if_pos hp, if_pos (hpassed.mpr hp)]
  · rw [if_neg hp, if_neg fun h => hp (hpassed.mp h)]

/-- An element that `rhs` starts with as well: the minimum is taken, which is what is looked at
again. -/
theorem minElem_shared (hf : Sorted VCElem.threadid (f :: rhs)) (h : e.threadid = f.threadid) :
    minElem (f :: rhs) e = minElem rhs { e with count := min e.count f.count } := by
  have hlt := (sorted_cons.mp hf).1
  have hpassed : Passed (f :: rhs) e.threadid ↔ Passed rhs e.threadid := by
    simp only [Passed, List.exists_mem_cons_iff, h, Nat.lt_irrefl, false_or]
  unfold minElem
  rw [find_cons_self h.symm]
  by_cases hp : Passed rhs e.threadid
  · rw [if_pos (hpassed.mpr hp), if_pos hp]
    rfl
  · rw [if_neg fun h => hp (hpassed.mp h), if_neg hp]
    rw [find_eq_none.mpr fun g hg => (h ▸ hlt g hg).ne']

/-- **The loop** makes of every element what `minElem` says. -/
theorem minFrom_eq (hq : Sorted VCElem.threadid q) (hrhs : Sorted VCElem.threadid rhs) :
    minFrom q rhs = .ok (q.map (minElem rhs)) := by
  induction rhs generalizing q with
  | nil =>
    have hmap : q.map (minElem []) = q := (List.map_congr_left fun e _ => minElem_nil e).trans (List.map_id q)
    rw [hmap, minFrom]
    rfl
  | cons f rhs ih =>
    obtain ⟨hf, hrhs'⟩ := sorted_cons.mp hrhs
    obtain ⟨p, hp⟩ : ∃ p, p = q.takeWhile fun e => decide (e.threadid < f.threadid) := ⟨_, rfl⟩
    obtain ⟨d, hd⟩ : ∃ d, d = q.dropWhile fun e => decide (e.threadid < f.threadid) := ⟨_, rfl⟩
    have hpd : p ++ d = q := by rw [hp, hd, List.takeWhile_append_dropWhile]
    have hclear : p.map VCElem.clear = p.map (minElem (f :: rhs)) := List.map_congr_left fun e he => by
      have hdec := List.mem_takeWhile_imp (hp ▸ he)
      exact (minElem_of_passed ⟨f, List.mem_cons_self, of_decide_eq_true hdec⟩).symm
    have hdsorted : Sorted VCElem.threadid d := hd ▸ hq.sublist (List.dropWhile_sublist _)
    rw [minFrom, ← hp, ← hd, hclear, ← hpd, List.map_append]
    cases d with
    | nil => simp only [List.map_nil, List.append_nil]; rfl
    | cons e d =>
      obtain ⟨hlt, hd'⟩ := sorted_cons.mp hdsorted
      have hle : f.threadid ≤ e.threadid := dropLower_cons hd.symm
      by_cases heq : e.threadid ≤ f.threadid
      · have hid : e.threadid = f.threadid := Nat.le_antisymm heq hle
        have hmin : (if f.count < e.count then { e with count := f.count } else e) =
            { e with count := min e.count f.count } := by
          split
          · rename_i hc
            rw [Nat.min_eq_right hc.le]
          · rename_i hc
            rw [Nat.min_eq_left (Nat.not_lt.mp hc)]
        have hsorted : Sorted VCElem.threadid ({ e with count := min e.count f.count } :: d) :=
          sorted_cons.mpr ⟨hlt, hd'⟩
        have hrest : d.map (minElem rhs) = d.map (minElem (f :: rhs)) := List.map_congr_left fun a ha =>
          (minElem_cons (hid ▸ hlt a ha)).symm
        simp only [if_pos heq, assertThat_of hid, ok_bind, hmin]
        rw [ih hsorted hrhs', ok_bind, List.map_cons, List.map_cons, ← minElem_shared hrhs hid, hrest]
        rfl
      · have hgt : f.threadid < e.threadid := Nat.not_le.mp heq
        have hrest : (e :: d).map (minElem rhs) = (e :: d).map (minElem (f :: rhs)) :=
          List.map_congr_left fun a ha => by
            rcases List.mem_cons.mp ha with rfl | ha
            · exact (minElem_cons hgt).symm
            · exact (minElem_cons (hgt.trans (hlt a ha))).symm
        simp only [if_neg heq]
        rw [ih hdsorted hrhs', ok_bind, hrest]
        rfl

theorem find_map_minElem (t : ThreadId) : find VCElem.threadid t (q.map (minElem rhs)) =
    (find VCElem.threadid t q).map (minElem rhs) := by
  unfold find
  rw [List.find?_map]
  simp only [Function.comp_def, minElem_threadid]

theorem sorted_map_minElem (hq : Sorted VCElem.threadid q) : Sorted VCElem.threadid (q.map (minElem rhs)) := by
  unfold Sorted at hq ⊢
  rw [List.pairwise_map]
  simpa only [minElem_threadid] using hq

end Elems

/-! ## The minimum of two clocks -/

section Minimum

variable {a b : VectorClock} {e : VCElem} {t : ThreadId}

/-- **`vc_min`** goes through the elements of `result`. -/
theorem vcMin_spec (ha : a.Ordered) (hb : b.Ordered) :
    vcMin a b = .ok { a with vc := a.vc.map (minElem b.vc) } ∧
      VectorClock.Ordered { a with vc := a.vc.map (minElem b.vc) } := by
  have hord : VectorClock.Ordered { a with vc := a.vc.map (minElem b.vc) } := by
    refine ⟨?_, sorted_map_minElem ha.sorted⟩
    rw [VectorClock.size, List.length_map]
    exact ha.fits
  refine ⟨?_, hord⟩
  rw [vcMin, vcCheck_of_ordered ha, minFrom_eq ha.sorted hb.sorted]
  simp only [ok_bind, vcCheck_of_ordered hord]
  rfl

/-- The count that `vc_min` leaves for an element of `result`. -/
theorem count_minElem (ha : a.Ordered) (he : e ∈ a.vc) :
    VectorClock.count { a with vc := a.vc.map (minElem b.vc) } e.threadid = (minElem b.vc e).count := by
  unfold VectorClock.count
  rw [find_map_minElem, ha.sorted.find_of_mem he]
  rfl

/-- The elements for which the minimum is zero or not meant to be taken: those that `rhs` goes on
behind have a zero count in one of the clocks, and those behind the end of `rhs` are zero. -/
def MinKept (a b : VectorClock) : Prop :=
  ∀ e ∈ a.vc, (∀ f ∈ b.vc, f.threadid = e.threadid → Passed b.vc e.threadid → e.count = 0 ∨ f.count = 0) ∧
    ((∀ f ∈ b.vc, f.threadid < e.threadid) → e.count = 0)

theorem minElem_count_iff (hb : b.Ordered) (e : VCElem) :
    (minElem b.vc e).count = min e.count (b.count e.threadid) ↔
      (∀ f ∈ b.vc, f.threadid = e.threadid → Passed b.vc e.threadid → e.count = 0 ∨ f.count = 0) ∧
        ((∀ f ∈ b.vc, f.threadid < e.threadid) → e.count = 0) := by
  cases hfind : find VCElem.threadid e.threadid b.vc with
  | none =>
    have hnone := find_eq_none.mp hfind
    rw [count_of_none hfind, Nat.min_zero]
    have hfirst : ∀ f ∈ b.vc, f.threadid = e.threadid → Passed b.vc e.threadid → e.count = 0 ∨ f.count = 0 :=
      fun f hf hid => absurd hid (hnone f hf)
    rw [and_iff_right hfirst]
    by_cases hp : Passed b.vc e.threadid
    · obtain ⟨g, hg, hlt⟩ := hp
      rw [minElem_of_passed ⟨g, hg, hlt⟩]
      exact iff_of_true rfl fun h => absurd (h g hg) hlt.asymm
    · have hall : ∀ f ∈ b.vc, f.threadid < e.threadid := fun f hf =>
        Nat.lt_of_le_of_ne (Nat.not_lt.mp fun hlt => hp ⟨f, hf, hlt⟩) (hnone f hf)
      have heq : minElem b.vc e = e := by
        unfold minElem
        rw [if_neg hp, hfind]
      rw [heq]
      exact ⟨fun h _ => h, fun h => h hall⟩
  | some f =>
    obtain ⟨hf, hid⟩ := find_some hfind
    rw [count_of_find hfind]
    have hsecond : (∀ f ∈ b.vc, f.threadid < e.threadid) → e.count = 0 := fun h => absurd (h f hf) (hid ▸ Nat.lt_irrefl _)
    rw [and_iff_left hsecond]
    by_cases hp : Passed b.vc e.threadid
    · rw [minElem_of_passed hp]
      have hunique : ∀ g ∈ b.vc, g.threadid = e.threadid → g = f := fun g hg hgid => by
        have hg' := hb.sorted.find_of_mem hg
        rw [hgid, hfind] at hg'
        exact (Option.some.inj hg').symm
      constructor
      · intro h g hg hgid _
        obtain rfl := hunique g hg hgid
        have hzero : min e.count g.count = 0 := h.symm
        omega
      · intro h
        have hzero : e.count = 0 ∨ f.count = 0 := h f hf hid hp
        show 0 = min e.count f.count
        omega
    · have heq : minElem b.vc e = { e with count := min e.count f.count } := by
        unfold minElem
        rw [if_neg hp, hfind]
      rw [heq]
      exact iff_of_true rfl fun _ _ _ h => absurd h hp

/-- **The minimum of two clocks**: every component of `result` becomes the minimum exactly when
those that `rhs` has as well, its last one apart, are zero in one of the clocks, and those behind
the last one of `rhs` are zero. -/
theorem vcMin_iff (ha : a.Ordered) (hb : b.Ordered) :
    (∃ r, vcMin a b = .ok r ∧ ∀ e ∈ a.vc, r.count e.threadid = min (a.count e.threadid) (b.count e.threadid)) ↔
      MinKept a b := by
  have hiff : (∃ r, vcMin a b = .ok r ∧
      ∀ e ∈ a.vc, r.count e.threadid = min (a.count e.threadid) (b.count e.threadid)) ↔
      ∀ e ∈ a.vc, (minElem b.vc e).count = min e.count (b.count e.threadid) := by
    rw [(vcMin_spec ha hb).1]
    simp only [Except.ok.injEq, exists_eq_left']
    refine forall₂_congr fun e he => ?_
    rw [count_minElem ha he, count_of_find (ha.sorted.find_of_mem he)]
  rw [hiff]
  exact forall₂_congr fun e _ => minElem_count_iff hb e

end Minimum

/-- A clock with one component, which is the last one of `rhs`. -/
theorem vcMin_iff_sample : ∃ r, vcMin ⟨1, [⟨3, 7⟩]⟩ ⟨2, [⟨1, 4⟩, ⟨3, 5⟩]⟩ = .ok r ∧
    ∀ e ∈ (VectorClock.mk 1 [⟨3, 7⟩]).vc, r.count e.threadid =
      min ((VectorClock.mk 1 [⟨3, 7⟩]).count e.threadid) ((VectorClock.mk 2 [⟨1, 4⟩, ⟨3, 5⟩]).count e.threadid) :=
  (vcMin_iff ⟨by decide, by decide⟩ ⟨by decide, by decide⟩).mpr (by unfold MinKept; decide)

/-- Two clocks that are equal: the component of the first thread is cleared. -/
theorem vcMin_equal : ¬ ∃ r, vcMin ⟨2, [⟨1, 4⟩, ⟨3, 7⟩]⟩ ⟨2, [⟨1, 4⟩, ⟨3, 7⟩]⟩ = .ok r ∧
    ∀ e ∈ (VectorClock.mk 2 [⟨1, 4⟩, ⟨3, 7⟩]).vc, r.count e.threadid =
      min ((VectorClock.mk 2 [⟨1, 4⟩, ⟨3, 7⟩]).count e.threadid)
        ((VectorClock.mk 2 [⟨1, 4⟩, ⟨3, 7⟩]).count e.threadid) := by
  rintro ⟨r, hrun, h⟩
  have hcleared : vcMin ⟨2, [⟨1, 4⟩, ⟨3, 7⟩]⟩ ⟨2, [⟨1, 4⟩, ⟨3, 7⟩]⟩ = .ok ⟨2, [⟨1, 0⟩, ⟨3, 7⟩]⟩ := by decide
  rw [hcleared] at hrun
  cases hrun
  exact absurd (h ⟨1, 4⟩ (by decide)) (by decide)

end Valgrind.Drd
