import Mathlib.Tactic

/-!
# Merging strictly sorted lists

Finite maps and finite sets as lists of entries, strictly sorted by a key: what a key is
mapped to is the entry that `List.find?` meets, two maps are equal when they map every key
alike, and the union of two maps is the merge of their lists, `join` combining the entries
that have the same key. Union, intersection and difference of finite sets are one merge
that keeps or drops the elements by the lists they are in.
-/

namespace Valgrind.SortedMerge

variable {ε α : Type} [LinearOrder α]

/-- Strictly sorted by the key. -/
def Sorted (key : ε → α) (l : List ε) : Prop := l.Pairwise fun a b => key a < key b

instance (key : ε → α) (l : List ε) : Decidable (Sorted key l) :=
  inferInstanceAs (Decidable (List.Pairwise _ _))

/-- The entry with the key `k`. -/
def find (key : ε → α) (k : α) (l : List ε) : Option ε := l.find? fun a => key a = k

/-- Merge two sorted lists. -/
def merge (key : ε → α) (join : ε → ε → ε) : List ε → List ε → List ε
  | [], m => m
  | a :: l, [] => a :: l
  | a :: l, b :: m =>
    if key a < key b then a :: merge key join l (b :: m)
    else if key b < key a then b :: merge key join (a :: l) m
    else join a b :: merge key join l m
  termination_by l m => l.length + m.length

section Find

variable {key : ε → α} {k : α} {a b : ε} {l m : List ε}

@[simp] theorem sorted_nil : Sorted key [] := List.Pairwise.nil

theorem sorted_cons : Sorted key (a :: l) ↔ (∀ b ∈ l, key a < key b) ∧ Sorted key l :=
  List.pairwise_cons

@[simp] theorem find_nil : find key k [] = none := rfl

theorem find_cons_self (h : key a = k) : find key k (a :: l) = some a := by
  simp [find, h]

theorem find_cons_of_ne (h : key a ≠ k) : find key k (a :: l) = find key k l := by
  simp [find, h]

theorem find_eq_none : find key k l = none ↔ ∀ a ∈ l, key a ≠ k := by
  simp [find]

theorem find_some (h : find key k l = some a) : a ∈ l ∧ key a = k :=
  ⟨List.mem_of_find?_eq_some h, by simpa using List.find?_some h⟩

/-- Nothing is found before the first entry. -/
theorem find_of_lt (h : ∀ b ∈ l, k < key b) : find key k l = none :=
  find_eq_none.mpr fun b hb hk => absurd (h b hb) (by simp [hk])

theorem Sorted.find_of_mem (h : Sorted key l) (ha : a ∈ l) : find key (key a) l = some a := by
  induction l with
  | nil => exact nomatch ha
  | cons b l ih =>
    obtain ⟨hb, hl⟩ := sorted_cons.mp h
    rcases List.mem_cons.mp ha with rfl | ha
    · exact find_cons_self rfl
    · rw [find_cons_of_ne (hb a ha).ne]
      exact ih hl ha

/-- **Extensionality**: sorted lists that map every key alike are equal. -/
theorem Sorted.ext (hl : Sorted key l) (hm : Sorted key m) (h : ∀ k, find key k l = find key k m) :
    l = m := by
  induction l generalizing m with
  | nil =>
    cases m with
    | nil => rfl
    | cons b m =>
      have := h (key b)
      rw [find_cons_self rfl] at this
      exact nomatch this
  | cons a l ih =>
    obtain ⟨ha, hl'⟩ := sorted_cons.mp hl
    cases m with
    | nil =>
      have := h (key a)
      rw [find_cons_self rfl] at this
      exact nomatch this
    | cons b m =>
      obtain ⟨hb, hm'⟩ := sorted_cons.mp hm
      have hab : key a = key b := by
        refine le_antisymm (le_of_not_gt fun hlt => ?_) (le_of_not_gt fun hlt => ?_)
        · have := h (key b)
          rw [find_cons_self rfl, find_cons_of_ne hlt.ne', find_of_lt fun c hc => hlt.trans (ha c hc)] at this
          exact nomatch this
        · have := h (key a)
          rw [find_cons_self rfl, find_cons_of_ne hlt.ne', find_of_lt fun c hc => hlt.trans (hb c hc)] at this
          exact nomatch this
      have hhead : a = b := by
        have := h (key a)
        rw [find_cons_self rfl, find_cons_self hab.symm] at this
        exact Option.some.inj this
      subst hhead
      refine congrArg _ (ih hl' hm' fun k => ?_)
      by_cases hk : key a = k
      · subst hk
        rw [find_of_lt ha, find_of_lt hb]
      · have := h k
        rwa [find_cons_of_ne hk, find_cons_of_ne hk] at this

/-- Dropping smaller keys changes nothing for the others. -/
theorem find_dropWhile {p : ε → Bool} (h : ∀ a ∈ l, p a = true → key a ≠ k) :
    find key k (l.dropWhile p) = find key k l := by
  induction l with
  | nil => rfl
  | cons a l ih =>
    rw [List.dropWhile_cons]
    split
    · rename_i hp
      rw [find_cons_of_ne (h a List.mem_cons_self hp), ih fun b hb => h b (List.mem_cons_of_mem _ hb)]
    · rfl

end Find

section Merge

variable {key : ε → α} {join : ε → ε → ε} {k : α} {a b : ε} {l m : List ε}

@[simp] theorem merge_nil_left : merge key join [] m = m := by rw [merge]

@[simp] theorem merge_nil_right : merge key join l [] = l := by cases l <;> simp [merge]

theorem merge_of_lt (h : key a < key b) :
    merge key join (a :: l) (b :: m) = a :: merge key join l (b :: m) := by
  rw [merge, if_pos h]

theorem merge_of_gt (h : key b < key a) :
    merge key join (a :: l) (b :: m) = b :: merge key join (a :: l) m := by
  rw [merge, if_neg h.not_gt, if_pos h]

theorem merge_of_eq (h : key a = key b) :
    merge key join (a :: l) (b :: m) = join a b :: merge key join l m := by
  rw [merge, if_neg h.not_lt, if_neg h.not_gt]

/-- Entries smaller than all of the second list stay in front. -/
theorem merge_append_of_lt {p : List ε} (h : ∀ a ∈ p, key a < key b) :
    merge key join (p ++ l) (b :: m) = p ++ merge key join l (b :: m) := by
  induction p with
  | nil => rfl
  | cons a p ih =>
    rw [List.cons_append, merge_of_lt (h a List.mem_cons_self), ih fun a ha => h a (List.mem_cons_of_mem _ ha)]
    rfl

/-- The smallest entry, from the first list. -/
theorem merge_cons_left (h : ∀ b ∈ m, key a < key b) :
    merge key join (a :: l) m = a :: merge key join l m := by
  cases m with
  | nil => simp
  | cons b m => exact merge_of_lt (h b List.mem_cons_self)

/-- The smallest entry, from the second list. -/
theorem merge_cons_right (h : ∀ a ∈ l, key b < key a) :
    merge key join l (b :: m) = b :: merge key join l m := by
  cases l with
  | nil => simp
  | cons a l => exact merge_of_gt (h a List.mem_cons_self)

/-- Entries of the second list smaller than all of the first stay in front. -/
theorem merge_append_right {p : List ε} (h : ∀ b ∈ p, ∀ a ∈ l, key b < key a) :
    merge key join l (p ++ m) = p ++ merge key join l m := by
  induction p with
  | nil => rfl
  | cons b p ih =>
    rw [List.cons_append, merge_cons_right (h b List.mem_cons_self), ih fun b hb => h b (List.mem_cons_of_mem _ hb)]
    rfl

/-- A merge has at least the entries of the first list. -/
theorem length_le_merge : l.length ≤ (merge key join l m).length := by
  induction l, m using merge.induct key with
  | case1 m => simp
  | case2 a l => simp
  | case3 a l b m h ih =>
    rw [merge_of_lt h]
    simpa using ih
  | case4 a l b m _ h ih =>
    rw [merge_of_gt h]
    exact Nat.le_succ_of_le ih
  | case5 a l b m h₁ h₂ ih =>
    rw [merge_of_eq (le_antisymm (le_of_not_gt h₂) (le_of_not_gt h₁))]
    simpa using ih

/-- The keys of a merge are those of the two lists. -/
theorem key_mem_merge (hjoin : ∀ a b, key a = key b → key (join a b) = key a) {c : ε}
    (hc : c ∈ merge key join l m) : ∃ d ∈ l ++ m, key d = key c := by
  induction l, m using merge.induct key with
  | case1 m => exact ⟨c, by simpa using hc, rfl⟩
  | case2 a l => exact ⟨c, by simpa using hc, rfl⟩
  | case3 a l b m h ih =>
    rw [merge_of_lt h] at hc
    rcases List.mem_cons.mp hc with rfl | hc
    · exact ⟨c, by simp, rfl⟩
    · obtain ⟨d, hd, hk⟩ := ih hc
      exact ⟨d, List.mem_cons_of_mem _ hd, hk⟩
  | case4 a l b m _ h ih =>
    rw [merge_of_gt h] at hc
    rcases List.mem_cons.mp hc with rfl | hc
    · exact ⟨c, by simp, rfl⟩
    · obtain ⟨d, hd, hk⟩ := ih hc
      refine ⟨d, ?_, hk⟩
      simp only [List.mem_append, List.mem_cons] at hd ⊢
      grind
  | case5 a l b m h₁ h₂ ih =>
    have hab : key a = key b := le_antisymm (le_of_not_gt h₂) (le_of_not_gt h₁)
    rw [merge_of_eq hab] at hc
    rcases List.mem_cons.mp hc with rfl | hc
    · exact ⟨a, by simp, (hjoin a b hab).symm⟩
    · obtain ⟨d, hd, hk⟩ := ih hc
      refine ⟨d, ?_, hk⟩
      simp only [List.mem_append, List.mem_cons] at hd ⊢
      grind

theorem Sorted.merge (hjoin : ∀ a b, key a = key b → key (join a b) = key a) (hl : Sorted key l)
    (hm : Sorted key m) : Sorted key (merge key join l m) := by
  induction l, m using merge.induct key with
  | case1 m => simpa using hm
  | case2 a l => simpa using hl
  | case3 a l b m h ih =>
    obtain ⟨ha, hl'⟩ := sorted_cons.mp hl
    rw [merge_of_lt h]
    refine sorted_cons.mpr ⟨fun c hc => ?_, ih hl' hm⟩
    obtain ⟨d, hd, hk⟩ := key_mem_merge hjoin hc
    rw [← hk]
    rcases List.mem_append.mp hd with hd | hd
    · exact ha d hd
    · rcases List.mem_cons.mp hd with rfl | hd
      · exact h
      · exact h.trans ((sorted_cons.mp hm).1 d hd)
  | case4 a l b m _ h ih =>
    obtain ⟨hb, hm'⟩ := sorted_cons.mp hm
    rw [merge_of_gt h]
    refine sorted_cons.mpr ⟨fun c hc => ?_, ih hl hm'⟩
    obtain ⟨d, hd, hk⟩ := key_mem_merge hjoin hc
    rw [← hk]
    rcases List.mem_append.mp hd with hd | hd
    · rcases List.mem_cons.mp hd with rfl | hd
      · exact h
      · exact h.trans ((sorted_cons.mp hl).1 d hd)
    · exact hb d hd
  | case5 a l b m h₁ h₂ ih =>
    have hab : key a = key b := le_antisymm (le_of_not_gt h₂) (le_of_not_gt h₁)
    obtain ⟨ha, hl'⟩ := sorted_cons.mp hl
    obtain ⟨hb, hm'⟩ := sorted_cons.mp hm
    rw [merge_of_eq hab]
    refine sorted_cons.mpr ⟨fun c hc => ?_, ih hl' hm'⟩
    obtain ⟨d, hd, hk⟩ := key_mem_merge hjoin hc
    rw [← hk, hjoin a b hab]
    rcases List.mem_append.mp hd with hd | hd
    · exact ha d hd
    · exact hab ▸ hb d hd

/-- Combine what two maps have for a key. -/
def joinOption (join : ε → ε → ε) : Option ε → Option ε → Option ε
  | some a, some b => some (join a b)
  | some a, none => some a
  | none, x => x

@[simp] theorem joinOption_none_left (x : Option ε) : joinOption join none x = x := rfl

@[simp] theorem joinOption_none_right (x : Option ε) : joinOption join x none = x := by
  cases x <;> rfl

/-- **The merge is the union** of the two maps. -/
theorem find_merge (hjoin : ∀ a b, key a = key b → key (join a b) = key a) (hl : Sorted key l)
    (hm : Sorted key m) (k : α) :
    find key k (merge key join l m) = joinOption join (find key k l) (find key k m) := by
  induction l, m using merge.induct key with
  | case1 m => simp
  | case2 a l => simp
  | case3 a l b m h ih =>
    obtain ⟨ha, hl'⟩ := sorted_cons.mp hl
    rw [merge_of_lt h]
    by_cases hk : key a = k
    · subst hk
      have hnone : find key (key a) (b :: m) = none := find_of_lt fun c hc => by
        rcases List.mem_cons.mp hc with rfl | hc
        · exact h
        · exact h.trans ((sorted_cons.mp hm).1 c hc)
      rw [find_cons_self rfl, find_cons_self rfl, hnone, joinOption_none_right]
    · rw [find_cons_of_ne hk, find_cons_of_ne hk, ih hl' hm]
  | case4 a l b m _ h ih =>
    obtain ⟨hb, hm'⟩ := sorted_cons.mp hm
    rw [merge_of_gt h]
    by_cases hk : key b = k
    · subst hk
      have hnone : find key (key b) (a :: l) = none := find_of_lt fun c hc => by
        rcases List.mem_cons.mp hc with rfl | hc
        · exact h
        · exact h.trans ((sorted_cons.mp hl).1 c hc)
      rw [find_cons_self rfl, find_cons_self rfl, hnone, joinOption_none_left]
    · rw [find_cons_of_ne hk, ih hl hm', find_cons_of_ne hk]
  | case5 a l b m h₁ h₂ ih =>
    have hab : key a = key b := le_antisymm (le_of_not_gt h₂) (le_of_not_gt h₁)
    obtain ⟨ha, hl'⟩ := sorted_cons.mp hl
    obtain ⟨hb, hm'⟩ := sorted_cons.mp hm
    rw [merge_of_eq hab]
    by_cases hk : key a = k
    · subst hk
      rw [find_cons_self (hjoin a b hab), find_cons_self rfl, find_cons_self hab.symm]
      rfl
    · rw [find_cons_of_ne (by rwa [hjoin a b hab]), find_cons_of_ne hk, find_cons_of_ne (hab ▸ hk),
        ih hl' hm']

end Merge

/-! ## Sets -/

/-- Keep a list or leave it out. -/
def keepIf (keep : Bool) (l : List α) : List α := if keep then l else []

/-- Put an element in front or leave it out. -/
def consIf (keep : Bool) (a : α) (l : List α) : List α := if keep then a :: l else l

/-- Merge two sorted lists, keeping the elements of the first list only, of both lists, and of
the second list only, or not. -/
def select (keep₁ keep₁₂ keep₂ : Bool) : List α → List α → List α
  | [], m => keepIf keep₂ m
  | a :: l, [] => keepIf keep₁ (a :: l)
  | a :: l, b :: m =>
    if a < b then consIf keep₁ a (select keep₁ keep₁₂ keep₂ l (b :: m))
    else if b < a then consIf keep₂ b (select keep₁ keep₁₂ keep₂ (a :: l) m)
    else consIf keep₁₂ a (select keep₁ keep₁₂ keep₂ l m)
  termination_by l m => l.length + m.length

section Select

variable {k₁ k₁₂ k₂ keep : Bool} {a b c : α} {l m : List α}

omit [LinearOrder α] in
@[simp] theorem mem_keepIf : c ∈ keepIf keep l ↔ keep = true ∧ c ∈ l := by
  cases keep <;> simp [keepIf]

omit [LinearOrder α] in
@[simp] theorem mem_consIf : c ∈ consIf keep a l ↔ keep = true ∧ c = a ∨ c ∈ l := by
  cases keep <;> simp [consIf]

/-- **The elements** that are kept. -/
theorem mem_select (hl : Sorted id l) (hm : Sorted id m) : c ∈ select k₁ k₁₂ k₂ l m ↔
    k₁ = true ∧ c ∈ l ∧ c ∉ m ∨ k₁₂ = true ∧ c ∈ l ∧ c ∈ m ∨ k₂ = true ∧ c ∉ l ∧ c ∈ m := by
  induction l, m using select.induct with
  | case1 m =>
    rw [select, mem_keepIf]
    simp
  | case2 a l =>
    rw [select, mem_keepIf]
    simp
  | case3 a l b m h ih =>
    obtain ⟨ha, hl'⟩ := sorted_cons.mp hl
    have hnot : a ∉ b :: m := fun hmem => by
      rcases List.mem_cons.mp hmem with rfl | hmem
      · exact lt_irrefl a h
      · exact lt_asymm h ((sorted_cons.mp hm).1 a hmem)
    rw [select, if_pos h, mem_consIf, ih hl' hm]
    by_cases hc : c = a
    · subst hc
      have hcl : c ∉ l := fun hmem => lt_irrefl c (ha c hmem)
      simp [hnot, hcl]
    · simp [hc]
  | case4 a l b m h₁ h ih =>
    obtain ⟨hb, hm'⟩ := sorted_cons.mp hm
    have hnot : b ∉ a :: l := fun hmem => by
      rcases List.mem_cons.mp hmem with rfl | hmem
      · exact lt_irrefl b h
      · exact lt_asymm h ((sorted_cons.mp hl).1 b hmem)
    rw [select, if_neg h₁, if_pos h, mem_consIf, ih hl hm']
    by_cases hc : c = b
    · subst hc
      have hcm : c ∉ m := fun hmem => lt_irrefl c (hb c hmem)
      simp [hnot, hcm]
    · simp [hc]
  | case5 a l b m h₁ h₂ ih =>
    obtain ⟨ha, hl'⟩ := sorted_cons.mp hl
    obtain ⟨hb, hm'⟩ := sorted_cons.mp hm
    obtain rfl : a = b := le_antisymm (le_of_not_gt h₂) (le_of_not_gt h₁)
    rw [select, if_neg h₁, if_neg h₂, mem_consIf, ih hl' hm']
    by_cases hc : c = a
    · subst hc
      have hcl : c ∉ l := fun hmem => lt_irrefl c (ha c hmem)
      have hcm : c ∉ m := fun hmem => lt_irrefl c (hb c hmem)
      simp [hcl, hcm]
    · simp [hc]

theorem mem_or_mem_of_select (hl : Sorted id l) (hm : Sorted id m) (h : c ∈ select k₁ k₁₂ k₂ l m) :
    c ∈ l ∨ c ∈ m := by
  rcases (mem_select hl hm).mp h with ⟨-, h, -⟩ | ⟨-, h, -⟩ | ⟨-, -, h⟩
  · exact .inl h
  · exact .inl h
  · exact .inr h

theorem sorted_keepIf (hl : Sorted id l) : Sorted id (keepIf keep l) := by
  cases keep with
  | true => exact hl
  | false => exact sorted_nil

theorem sorted_consIf (h : ∀ b ∈ l, a < b) (hl : Sorted id l) : Sorted id (consIf keep a l) := by
  cases keep with
  | true => exact sorted_cons.mpr ⟨h, hl⟩
  | false => exact hl

theorem sorted_select (k₁ k₁₂ k₂ : Bool) (hl : Sorted id l) (hm : Sorted id m) : Sorted id (select k₁ k₁₂ k₂ l m) := by
  induction l, m using select.induct with
  | case1 m =>
    rw [select]
    exact sorted_keepIf hm
  | case2 a l =>
    rw [select]
    exact sorted_keepIf hl
  | case3 a l b m h ih =>
    obtain ⟨ha, hl'⟩ := sorted_cons.mp hl
    rw [select, if_pos h]
    refine sorted_consIf (fun c hc => ?_) (ih hl' hm)
    rcases mem_or_mem_of_select hl' hm hc with hc | hc
    · exact ha c hc
    · rcases List.mem_cons.mp hc with rfl | hc
      · exact h
      · exact h.trans ((sorted_cons.mp hm).1 c hc)
  | case4 a l b m h₁ h ih =>
    obtain ⟨hb, hm'⟩ := sorted_cons.mp hm
    rw [select, if_neg h₁, if_pos h]
    refine sorted_consIf (fun c hc => ?_) (ih hl hm')
    rcases mem_or_mem_of_select hl hm' hc with hc | hc
    · rcases List.mem_cons.mp hc with rfl | hc
      · exact h
      · exact h.trans ((sorted_cons.mp hl).1 c hc)
    · exact hb c hc
  | case5 a l b m h₁ h₂ ih =>
    obtain ⟨ha, hl'⟩ := sorted_cons.mp hl
    obtain ⟨hb, hm'⟩ := sorted_cons.mp hm
    obtain rfl : a = b := le_antisymm (le_of_not_gt h₂) (le_of_not_gt h₁)
    rw [select, if_neg h₁, if_neg h₂]
    refine sorted_consIf (fun c hc => ?_) (ih hl' hm')
    rcases mem_or_mem_of_select hl' hm' hc with hc | hc
    · exact ha c hc
    · exact hb c hc

/-- Sorted lists with the same elements are equal. -/
theorem Sorted.eq_of_mem_iff (hl : Sorted id l) (hm : Sorted id m) (h : ∀ c, c ∈ l ↔ c ∈ m) : l = m :=
  List.Perm.eq_of_pairwise' (r := (· < ·)) hl hm
    ((List.perm_ext_iff_of_nodup (hl.imp fun h => h.ne) (hm.imp fun h => h.ne)).mpr h)

end Select

end Valgrind.SortedMerge
