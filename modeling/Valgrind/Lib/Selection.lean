import Mathlib.Tactic

/-!
# Selection with two keys

Selection sort over a list: in each round the list is walked once, with a bound that starts
at `M`. An element whose *test key* `t` is below the bound is the candidate from there on,
and its *sort key* `k` the new bound. The last candidate is taken out, and the next round
begins.

If the two keys are one this sorts. In general the elements come out in the order of their
sort keys iff every two elements of the list agree, in the order in which they stand there
(`exists_sorted_iff`).
-/

namespace Selection

variable {α : Type} (t k : α → Nat) (M : Nat)

/-- The bound after a walk over `l` that began with the bound `n`. -/
def bound (n : Nat) (l : List α) : Nat := l.foldl (fun n p => if t p < n then k p else n) n

/-- The walk over `A ++ x :: B` ends with the candidate `x`. -/
structure Chosen (n : Nat) (A : List α) (x : α) (B : List α) : Prop where
  lt : t x < bound t k n A
  le : ∀ b ∈ B, k x ≤ t b

/-- The elements of the list come out in this order. -/
inductive Selects : List α → List α → Prop
  | nil : Selects [] []
  | cons {A x B out} : Chosen t k M A x B → Selects (A ++ B) out → Selects (A ++ x :: B) (x :: out)

/-- Two elements are compared, with `a` before `b`, as their sort keys are. -/
def Agree (a b : α) : Prop := if t b < k a then k b ≤ k a else k a ≤ k b

variable {t k M} {A B l out : List α} {x : α} {n : Nat}

@[simp] theorem bound_nil : bound t k n [] = n := rfl

theorem bound_concat : bound t k n (l ++ [x]) = if t x < bound t k n l then k x else bound t k n l := by
  simp only [bound, List.foldl_append, List.foldl_cons, List.foldl_nil]
  rfl

theorem bound_cons : bound t k n (x :: l) = bound t k (if t x < n then k x else n) l := rfl

theorem bound_append : bound t k n (A ++ B) = bound t k (bound t k n A) B := List.foldl_append

/-- A walk over elements that do not pass the test. -/
theorem bound_of_le (h : ∀ p ∈ l, n ≤ t p) : bound t k n l = n := by
  induction l with
  | nil => rfl
  | cons p l ih =>
    rw [bound_cons, if_neg (Nat.not_lt.mpr (h p (by simp)))]
    exact ih fun q hq => h q (by simp [hq])

theorem bound_le (hn : n ≤ M) (hk : ∀ p ∈ l, k p ≤ M) : bound t k n l ≤ M := by
  induction l using List.reverseRecOn with
  | nil => exact hn
  | append_singleton l x ih =>
    rw [bound_concat]
    split
    · exact hk x (by simp)
    · exact ih fun p hp => hk p (by simp [hp])

/-- If the elements agree, the bound is the least sort key so far. -/
theorem bound_least (ht : ∀ p ∈ l, t p < M) (hl : l.Pairwise (Agree t k)) :
    (∀ p ∈ l, bound t k M l ≤ k p) ∧ (bound t k M l = M ∨ ∃ p ∈ l, bound t k M l = k p) := by
  induction l using List.reverseRecOn with
  | nil => simp
  | append_singleton l x ih =>
    obtain ⟨hl, -, hx⟩ := List.pairwise_append.mp hl
    obtain ⟨hle, hmem⟩ := ih (fun p hp => ht p (by simp [hp])) hl
    have hagree : ∀ p ∈ l, Agree t k p x := fun p hp => hx p hp x (by simp)
    rw [bound_concat]
    split
    · rename_i hlt
      refine ⟨fun p hp => ?_, .inr ⟨x, by simp, rfl⟩⟩
      rcases List.mem_append.mp hp with hp | hp
      · have h := hagree p hp
        rwa [Agree, if_pos (hlt.trans_le (hle p hp))] at h
      · rw [List.mem_singleton.mp hp]
    · rename_i hge
      refine ⟨fun p hp => ?_, hmem.imp_right fun ⟨p, hp, he⟩ => ⟨p, by simp [hp], he⟩⟩
      rcases List.mem_append.mp hp with hp | hp
      · exact hle p hp
      · rw [List.mem_singleton.mp hp]
        rcases hmem with he | ⟨q, hq, he⟩
        · exact absurd (ht x (by simp)) (by omega)
        · have h := hagree q hq
          rwa [Agree, if_neg (by omega), ← he] at h

theorem Selects.perm (h : Selects t k M l out) : out.Perm l := by
  induction h with
  | nil => exact .nil
  | cons _ _ ih => exact (ih.cons _).trans List.perm_middle.symm

/-- Taking out the last candidate leaves a list of agreeing elements, and what is taken out
is the least, iff all elements agree. -/
theorem Chosen.agree_iff (h : Chosen t k M A x B) (ht : ∀ p ∈ A ++ B, t p < M) :
    (A ++ x :: B).Pairwise (Agree t k) ↔
      (A ++ B).Pairwise (Agree t k) ∧ ∀ y ∈ A ++ B, k x ≤ k y := by
  have hB : ∀ b ∈ B, Agree t k x b ↔ k x ≤ k b := by
    intro b hb
    have := h.le b hb
    rw [Agree, if_neg (by omega)]
  have hA : A.Pairwise (Agree t k) → ∀ a ∈ A, Agree t k a x ↔ k x ≤ k a := by
    intro hpair a ha
    have hle := (bound_least (fun p hp => ht p (by simp [hp])) hpair).1 a ha
    rw [Agree, if_pos (h.lt.trans_le hle)]
  simp only [List.pairwise_append, List.pairwise_cons, List.mem_cons, List.mem_append,
    forall_eq_or_imp]
  constructor
  · rintro ⟨h₁, ⟨hxB, h₂⟩, hAx⟩
    refine ⟨⟨h₁, h₂, fun a ha => (hAx a ha).2⟩, ?_⟩
    rintro y (hy | hy)
    · exact (hA h₁ y hy).mp (hAx y hy).1
    · exact (hB y hy).mp (hxB y hy)
  · rintro ⟨⟨h₁, h₂, hAB⟩, hmin⟩
    exact ⟨h₁, ⟨fun b hb => (hB b hb).mpr (hmin b (.inr hb)), h₂⟩,
      fun a ha => ⟨(hA h₁ a ha).mpr (hmin a (.inl ha)), hAB a ha⟩⟩

/-- The last candidate of a walk, if there is one. -/
theorem exists_chosen (t k : α → Nat) (n : Nat) (l : List α) :
    (∀ p ∈ l, n ≤ t p) ∨ ∃ A x B, l = A ++ x :: B ∧ Chosen t k n A x B := by
  induction l generalizing n with
  | nil => simp
  | cons p l ih =>
    by_cases hp : t p < n
    · refine .inr ?_
      rcases ih (k p) with hall | ⟨A, x, B, rfl, hC⟩
      · exact ⟨[], p, l, rfl, hp, hall⟩
      · refine ⟨p :: A, x, B, rfl, ?_, hC.le⟩
        simpa [bound, hp] using hC.lt
    · rcases ih n with hall | ⟨A, x, B, rfl, hC⟩
      · refine .inl fun q hq => ?_
        rcases List.mem_cons.mp hq with rfl | hq
        · omega
        · exact hall q hq
      · refine .inr ⟨p :: A, x, B, rfl, ?_, hC.le⟩
        simpa [bound, hp] using hC.lt

/-- There is only one last candidate. -/
theorem Chosen.unique {A' B' : List α} {x' : α} (h : Chosen t k n A x B) (h' : Chosen t k n A' x' B')
    (he : A ++ x :: B = A' ++ x' :: B') : A = A' ∧ x = x' ∧ B = B' := by
  -- a later candidate would have to pass the test against the earlier one
  have hlater : ∀ {A B x x' C B'}, Chosen t k n A x B → B = C ++ x' :: B' →
      ¬ Chosen t k n (A ++ x :: C) x' B' := by
    rintro A B x x' C B' h rfl h'
    have hlt := h'.lt
    rw [bound_append, bound_cons, if_pos h.lt, bound_of_le fun p hp => h.le p (by simp [hp])] at hlt
    have := h.le x' (by simp)
    omega
  rcases List.append_eq_append_iff.mp he with ⟨C, rfl, hC⟩ | ⟨C, rfl, hC⟩
  · cases C with
    | nil =>
      obtain ⟨rfl, rfl⟩ := List.cons.inj hC
      simp
    | cons c C =>
      obtain ⟨rfl, hB⟩ := List.cons.inj hC
      exact absurd h' (hlater h hB)
  · cases C with
    | nil =>
      obtain ⟨rfl, rfl⟩ := List.cons.inj hC
      simp
    | cons c C =>
      obtain ⟨rfl, hB⟩ := List.cons.inj hC
      exact absurd h (hlater h' hB)

theorem selects_cons_iff (h : Chosen t k M A x B) :
    Selects t k M (A ++ x :: B) out ↔ ∃ out', out = x :: out' ∧ Selects t k M (A ++ B) out' := by
  constructor
  · intro hsel
    generalize hl : A ++ x :: B = l at hsel
    cases hsel with
    | nil => simp at hl
    | cons h' hsel =>
      obtain ⟨rfl, rfl, rfl⟩ := h.unique h' hl
      exact ⟨_, rfl, hsel⟩
  · rintro ⟨out', rfl, hsel⟩
    exact .cons h hsel

/-- If every element passes the test in the beginning, they all come out. -/
theorem exists_selects (t k : α → Nat) {l : List α} (ht : ∀ p ∈ l, t p < M) : ∃ out, Selects t k M l out := by
  induction hn : l.length generalizing l with
  | zero =>
    rw [List.length_eq_zero_iff] at hn
    subst hn
    exact ⟨[], .nil⟩
  | succ r ih =>
    rcases exists_chosen t k M l with hnone | ⟨A, x, B, rfl, hC⟩
    · obtain ⟨p, hp⟩ := List.exists_mem_of_length_pos (by omega : 0 < l.length)
      exact absurd (ht p hp) (Nat.not_lt.mpr (hnone p hp))
    · obtain ⟨out, hsel⟩ := ih (l := A ++ B) (fun p hp => ht p (by simp at hp ⊢; grind))
        (by simp at hn ⊢; omega)
      exact ⟨x :: out, .cons hC hsel⟩

/-- **When selection sorts**: every element passes the test in the beginning, and every two
agree. -/
theorem exists_sorted_iff (hk : ∀ p ∈ l, k p ≤ M) :
    (∃ out, Selects t k M l out ∧ out.Pairwise fun a b => k a ≤ k b) ↔
      (∀ p ∈ l, t p < M) ∧ l.Pairwise (Agree t k) := by
  induction hn : l.length generalizing l with
  | zero =>
    rw [List.length_eq_zero_iff] at hn
    subst hn
    simp only [List.not_mem_nil, false_implies, implies_true, List.Pairwise.nil, and_self, iff_true]
    exact ⟨[], .nil, List.Pairwise.nil⟩
  | succ r ih =>
    have hcut : ∀ {A x B}, l = A ++ x :: B → Chosen t k M A x B →
        ((∃ out, Selects t k M (A ++ B) out ∧ (out.Pairwise fun a b => k a ≤ k b) ∧
            ∀ y ∈ out, k x ≤ k y) ↔ (∀ p ∈ l, t p < M) ∧ l.Pairwise (Agree t k)) := by
      rintro A x B rfl hC
      have hlt : t x < M := hC.lt.trans_le (bound_le (Nat.le_refl M) fun p hp => hk p (by simp [hp]))
      have htail := ih (l := A ++ B) (fun p hp => hk p (by simp at hp ⊢; grind)) (by simp at hn ⊢; omega)
      have htest : (∀ p ∈ A ++ x :: B, t p < M) ↔ ∀ p ∈ A ++ B, t p < M := by
        simp only [List.mem_append, List.mem_cons]
        exact ⟨fun h p hp => h p (by grind), fun h p hp => by
          rcases hp with hp | rfl | hp
          · exact h p (.inl hp)
          · exact hlt
          · exact h p (.inr hp)⟩
      rw [htest]
      constructor
      · rintro ⟨out, hsel, hsorted, hmin⟩
        obtain ⟨ht, hpair⟩ := htail.mp ⟨out, hsel, hsorted⟩
        exact ⟨ht, (hC.agree_iff ht).mpr ⟨hpair, fun y hy => hmin y (hsel.perm.mem_iff.mpr hy)⟩⟩
      · rintro ⟨ht, hpair⟩
        obtain ⟨hpair, hmin⟩ := (hC.agree_iff ht).mp hpair
        obtain ⟨out, hsel, hsorted⟩ := htail.mpr ⟨ht, hpair⟩
        exact ⟨out, hsel, hsorted, fun y hy => hmin y (hsel.perm.mem_iff.mp hy)⟩
    constructor
    · rintro ⟨out, hsel, hsorted⟩
      cases hsel with
      | nil => simp at hn
      | cons hC hsel =>
        obtain ⟨hmin, hsorted⟩ := List.pairwise_cons.mp hsorted
        exact (hcut rfl hC).mp ⟨_, hsel, hsorted, hmin⟩
    · intro hall
      rcases exists_chosen t k M l with hnone | ⟨A, x, B, rfl, hC⟩
      · obtain ⟨p, hp⟩ := List.exists_mem_of_length_pos (by omega : 0 < l.length)
        have := hnone p hp
        have := hall.1 p hp
        omega
      · obtain ⟨out, hsel, hsorted, hmin⟩ := (hcut rfl hC).mpr hall
        exact ⟨x :: out, .cons hC hsel, List.pairwise_cons.mpr ⟨hmin, hsorted⟩⟩

end Selection
