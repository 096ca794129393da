import Mathlib.Tactic

/-!
# Reference counts

Owners `0 .. n - 1` have maps from keys to the addresses of cells, and a cell may belong to
several owners, but to all of them under the same key. `Sharing` says that every address in a
map is that of a cell with that key, and that the reference count of a cell is the number of owners
that have it.

An owner's entry for one key is changed at a time (`Changed`). The lemmas say how the counts
must change with it: for a new cell, for a cell that gets one more owner, for an owner that gets
a copy of its own, and for an owner that drops a cell. A cell whose count is one belongs to a
single owner (`Sharing.unique`), who may thus modify it.
-/

namespace Sharing

variable {κ π : Type}

/-- The number of owners that have the cell under the key. -/
def owners [DecidableEq π] (n : Nat) (ref : Nat → κ → Option π) (k : κ) (p : π) : Nat :=
  ((Finset.range n).filter fun b => ref b k = some p).card

/-- The cells and their reference counts agree with the maps of the owners. -/
structure Counted [DecidableEq π] (n : Nat) (ref : Nat → κ → Option π) (cell : π → Option (κ × Nat)) : Prop where
  points : ∀ b k p, ref b k = some p → b < n ∧ ∃ r, cell p = some (k, r)
  counted : ∀ p k r, cell p = some (k, r) → r = owners n ref k p ∧ 0 < r

/-- One entry of one map has been changed. -/
structure Changed (ref ref' : Nat → κ → Option π) (b : Nat) (k : κ) (o : Option π) : Prop where
  here : ref' b k = o
  other : ∀ c k', ¬ (c = b ∧ k' = k) → ref' c k' = ref c k'

section

variable [DecidableEq π] {n b c : Nat} {k k' : κ} {p p' : π} {r : Nat} {o : Option π}
  {ref ref' : Nat → κ → Option π} {cell cell' : π → Option (κ × Nat)}

theorem owners_congr (h : ∀ b < n, ref b k = some p ↔ ref' b k = some p) : owners n ref k p = owners n ref' k p := by
  unfold owners
  congr 1
  exact Finset.filter_congr fun b hb => h b (Finset.mem_range.mp hb)

/-- The change of a count, with the old entry on the left and the new one on the right. -/
theorem owners_changed (h : Changed ref ref' b k o) (hb : b < n) (p : π) :
    owners n ref' k p + (if ref b k = some p then 1 else 0) = owners n ref k p + (if o = some p then 1 else 0) := by
  have hsplit : ∀ f : Nat → κ → Option π, owners n f k p =
      (if f b k = some p then 1 else 0) + ∑ c ∈ (Finset.range n).erase b, if f c k = some p then 1 else 0 := by
    intro f
    rw [owners, Finset.card_filter,
      Finset.add_sum_erase (Finset.range n) (fun c => if f c k = some p then 1 else 0) (Finset.mem_range.mpr hb)]
  have hrest : ∑ c ∈ (Finset.range n).erase b, (if ref' c k = some p then 1 else 0) =
      ∑ c ∈ (Finset.range n).erase b, if ref c k = some p then 1 else 0 := by
    refine Finset.sum_congr rfl fun c hc => ?_
    rw [h.other c k fun hcb => Finset.ne_of_mem_erase hc hcb.1]
  rw [hsplit, hsplit ref, hrest, h.here]
  omega

theorem owners_other (h : Changed ref ref' b k o) (hk : k' ≠ k) (p : π) : owners n ref' k' p = owners n ref k' p :=
  owners_congr fun c _ => by rw [h.other c k' fun hc => hk hc.2]

omit [DecidableEq π] in
theorem Changed.entry_cases (h : Changed ref ref' b k o) (hp : ref' c k' = some p) :
    (c = b ∧ k' = k ∧ o = some p) ∨ (¬ (c = b ∧ k' = k) ∧ ref c k' = some p) := by
  by_cases hc : c = b ∧ k' = k
  · obtain ⟨rfl, rfl⟩ := hc
    exact .inl ⟨rfl, rfl, h.here ▸ hp⟩
  · exact .inr ⟨hc, h.other c k' hc ▸ hp⟩

theorem owners_pos (h : ref b k = some p) (hb : b < n) : 0 < owners n ref k p :=
  Finset.card_pos.mpr ⟨b, Finset.mem_filter.mpr ⟨Finset.mem_range.mpr hb, h⟩⟩

/-- Exchanging the maps of two owners changes no count. -/
theorem owners_swap (hb : b < n) (hc : c < n) (k : κ) (p : π) :
    owners n (fun d => ref (Equiv.swap b c d)) k p = owners n ref k p := by
  have hlt : ∀ d < n, Equiv.swap b c d < n := by
    intro d hd
    rw [Equiv.swap_apply_def]
    split
    · exact hc
    · split
      · exact hb
      · exact hd
  unfold owners
  refine Finset.card_nbij' (Equiv.swap b c) (Equiv.swap b c) ?_ ?_ ?_ ?_
  · intro d hd
    rw [Finset.mem_coe, Finset.mem_filter, Finset.mem_range] at hd ⊢
    exact ⟨hlt d hd.1, hd.2⟩
  · intro d hd
    rw [Finset.mem_coe, Finset.mem_filter, Finset.mem_range] at hd ⊢
    dsimp only
    rw [Equiv.swap_apply_self]
    exact ⟨hlt d hd.1, hd.2⟩
  · exact fun d _ => Equiv.swap_apply_self b c d
  · exact fun d _ => Equiv.swap_apply_self b c d

variable (hs : Counted n ref cell)

include hs

/-- An unshared cell has one owner. -/
theorem Counted.unique (hcell : cell p = some (k, 1)) (h : ref b k = some p) (h' : ref c k' = some p) :
    c = b ∧ k' = k := by
  obtain ⟨hc, r', hcell'⟩ := hs.points c k' p h'
  obtain rfl : k' = k := by
    rw [hcell] at hcell'
    exact (congrArg Prod.fst (Option.some.inj hcell')).symm
  refine ⟨?_, rfl⟩
  have hone : owners n ref k' p = 1 := ((hs.counted p k' 1 hcell).1).symm
  obtain ⟨d, hd⟩ := Finset.card_eq_one.mp hone
  have hmem : ∀ e, e < n → ref e k' = some p → e = d := fun e he hr =>
    Finset.mem_singleton.mp (hd ▸ Finset.mem_filter.mpr ⟨Finset.mem_range.mpr he, hr⟩)
  rw [hmem c hc h', hmem b (hs.points b k' p h).1 h]

/-- A cell of which there is no trace has no owner. -/
theorem Counted.owners_eq_zero (hcell : cell p = none) (k : κ) : owners n ref k p = 0 := by
  rw [owners, Finset.card_eq_zero, Finset.filter_eq_empty_iff]
  intro b _ hb
  obtain ⟨-, r, hr⟩ := hs.points b k p hb
  rw [hcell] at hr
  exact nomatch hr

/-- A new cell for a key that had none. -/
theorem Counted.alloc (h : Changed ref ref' b k (some p)) (hb : b < n) (hnone : ref b k = none)
    (hfree : cell p = none) (hp : cell' p = some (k, 1)) (hother : ∀ q, q ≠ p → cell' q = cell q) :
    Counted n ref' cell' := by
  have hne : ∀ c k' q, ref c k' = some q → q ≠ p := by
    rintro c k' q hq rfl
    obtain ⟨-, r, hr⟩ := hs.points c k' q hq
    rw [hfree] at hr
    exact nomatch hr
  constructor
  · intro c k' q hq
    rcases h.entry_cases hq with ⟨rfl, rfl, ho⟩ | ⟨-, hq⟩
    · obtain rfl := Option.some.inj ho
      exact ⟨hb, 1, hp⟩
    · rw [hother q (hne c k' q hq)]
      exact hs.points c k' q hq
  · intro q k' r hq
    have hcount := owners_changed h hb q
    by_cases hqp : q = p
    · subst hqp
      obtain ⟨rfl, rfl⟩ := Prod.mk.inj (Option.some.inj (hp.symm.trans hq))
      rw [hnone, hs.owners_eq_zero hfree] at hcount
      simp at hcount
      exact ⟨hcount.symm, Nat.one_pos⟩
    · rw [hother q hqp] at hq
      obtain ⟨hr, hpos⟩ := hs.counted q k' r hq
      refine ⟨?_, hpos⟩
      by_cases hk : k' = k
      · subst hk
        have hsome : some p ≠ some q := fun h => hqp (Option.some.inj h).symm
        rw [hnone] at hcount
        simp [hsome] at hcount
        omega
      · rw [owners_other h hk]
        exact hr

/-- A cell gets one more owner. -/
theorem Counted.share (h : Changed ref ref' b k (some p)) (hb : b < n) (hnone : ref b k = none)
    (hcell : cell p = some (k, r)) (hp : cell' p = some (k, r + 1)) (hother : ∀ q, q ≠ p → cell' q = cell q) :
    Counted n ref' cell' := by
  have hcell' : ∀ q k' r', cell q = some (k', r') → ∃ r'', cell' q = some (k', r'') := by
    intro q k' r' hq
    by_cases hqp : q = p
    · subst hqp
      obtain ⟨rfl, rfl⟩ := Prod.mk.inj (Option.some.inj (hcell.symm.trans hq))
      exact ⟨_, hp⟩
    · exact ⟨r', (hother q hqp).trans hq⟩
  constructor
  · intro c k' q hq
    rcases h.entry_cases hq with ⟨rfl, rfl, ho⟩ | ⟨-, hq⟩
    · obtain rfl := Option.some.inj ho
      exact ⟨hb, _, hp⟩
    · obtain ⟨hc, r', hr'⟩ := hs.points c k' q hq
      exact ⟨hc, hcell' q k' r' hr'⟩
  · intro q k' r' hq
    have hcount := owners_changed h hb q
    by_cases hqp : q = p
    · subst hqp
      obtain ⟨rfl, rfl⟩ := Prod.mk.inj (Option.some.inj (hp.symm.trans hq))
      obtain ⟨hr, hpos⟩ := hs.counted q k r hcell
      rw [hnone] at hcount
      simp at hcount
      exact ⟨by omega, by omega⟩
    · rw [hother q hqp] at hq
      obtain ⟨hr, hpos⟩ := hs.counted q k' r' hq
      refine ⟨?_, hpos⟩
      by_cases hk : k' = k
      · subst hk
        have hsome : some p ≠ some q := fun h => hqp (Option.some.inj h).symm
        rw [hnone] at hcount
        simp [hsome] at hcount
        omega
      · rw [owners_other h hk]
        exact hr

/-- An owner drops a cell that has other owners, or the cell goes away. -/
theorem Counted.drop (h : Changed ref ref' b k none) (hb : ref b k = some p) (hcell : cell p = some (k, r))
    (hp : cell' p = if r - 1 = 0 then none else some (k, r - 1)) (hother : ∀ q, q ≠ p → cell' q = cell q) :
    Counted n ref' cell' := by
  have hbn := (hs.points b k p hb).1
  obtain ⟨hr, hpos⟩ := hs.counted p k r hcell
  have hcount := owners_changed h hbn p
  rw [hb] at hcount
  simp at hcount
  constructor
  · intro c k' q hq
    rcases h.entry_cases hq with ⟨rfl, rfl, ho⟩ | ⟨-, hq'⟩
    · exact nomatch ho
    · obtain ⟨hc, r', hr'⟩ := hs.points c k' q hq'
      refine ⟨hc, ?_⟩
      by_cases hqp : q = p
      · subst hqp
        obtain ⟨rfl, rfl⟩ := Prod.mk.inj (Option.some.inj (hcell.symm.trans hr'))
        have hleft := owners_pos hq hc
        rw [hp, if_neg (by omega)]
        exact ⟨_, rfl⟩
      · exact ⟨r', (hother q hqp).trans hr'⟩
  · intro q k' r' hq
    by_cases hqp : q = p
    · subst hqp
      rw [hp] at hq
      split at hq
      · exact nomatch hq
      · obtain ⟨rfl, rfl⟩ := Prod.mk.inj (Option.some.inj hq)
        exact ⟨by omega, by omega⟩
    · rw [hother q hqp] at hq
      obtain ⟨hr', hpos'⟩ := hs.counted q k' r' hq
      refine ⟨?_, hpos'⟩
      by_cases hk : k' = k
      · subst hk
        have hcount' := owners_changed h hbn q
        have hsome : some p ≠ some q := fun h => hqp (Option.some.inj h).symm
        rw [hb] at hcount'
        simp [hsome] at hcount'
        omega
      · rw [owners_other h hk]
        exact hr'

/-- An owner of a shared cell gets a copy of its own: it drops the cell and has a new one. -/
theorem Counted.copy (h : Changed ref ref' b k (some p')) (hb : ref b k = some p) (hcell : cell p = some (k, r))
    (hr : 1 < r) (hfree : cell p' = none) (hp : cell' p = some (k, r - 1)) (hp' : cell' p' = some (k, 1))
    (hother : ∀ q, q ≠ p → q ≠ p' → cell' q = cell q) [DecidableEq κ] : Counted n ref' cell' := by
  have hpp' : p ≠ p' := by
    rintro rfl
    rw [hfree] at hcell
    exact nomatch hcell
  let mid : Nat → κ → Option π := fun c k' => if c = b ∧ k' = k then none else ref c k'
  have hdrop : Changed ref mid b k none := ⟨if_pos ⟨rfl, rfl⟩, fun c k' hc => if_neg hc⟩
  have hmid : Counted n mid fun q => if q = p then some (k, r - 1) else cell q := by
    refine hs.drop hdrop hb hcell ?_ fun q hq => if_neg hq
    rw [if_pos rfl, if_neg (by omega)]
  have halloc : Changed mid ref' b k (some p') := ⟨h.here, fun c k' hc => by rw [h.other c k' hc, hdrop.other c k' hc]⟩
  refine hmid.alloc halloc (hs.points b k p hb).1 hdrop.here ?_ hp' fun q hq => ?_
  · rw [if_neg hpp'.symm, hfree]
  · by_cases hqp : q = p
    · subst hqp
      rw [hp, if_pos rfl]
    · rw [hother q hqp hq, if_neg hqp]

/-- There is room for one more owner, who has nothing yet. -/
theorem Counted.succ : Counted (n + 1) ref cell := by
  refine ⟨fun b k p hb => ?_, fun p k r hp => ?_⟩
  · obtain ⟨hn, hr⟩ := hs.points b k p hb
    exact ⟨by omega, hr⟩
  · obtain ⟨hr, hpos⟩ := hs.counted p k r hp
    refine ⟨?_, hpos⟩
    have hnot : ref n k ≠ some p := fun h => Nat.lt_irrefl n (hs.points n k p h).1
    rw [hr, owners, owners, Finset.range_add_one, Finset.filter_insert, if_neg hnot]

/-- Two owners exchange their maps. -/
theorem Counted.swap (hb : b < n) (hc : c < n) : Counted n (fun d => ref (Equiv.swap b c d)) cell := by
  refine ⟨fun d k p hd => ?_, fun p k r hp => ?_⟩
  · obtain ⟨hn, hr⟩ := hs.points _ k p hd
    refine ⟨?_, hr⟩
    rw [Equiv.swap_apply_def] at hn
    split at hn
    · omega
    · split at hn
      · omega
      · exact hn
  · rw [owners_swap hb hc]
    exact hs.counted p k r hp

end

end Sharing
