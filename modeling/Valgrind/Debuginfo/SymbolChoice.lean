import Valgrind.Debuginfo.Symtab
import Valgrind.Lib.Knockout
import Mathlib.Data.Char
import Mathlib.Data.List.Lex
import Mathlib.Data.Prod.Lex

/-!
# Which of several symbols is chosen (`m_debuginfo/storage.c`)

Symbols with the same range are merged in knockout rounds. `prefersym` compares names by the length up
to the version, then by whether there is a version, and then alphabetically, which is a linear order
(`nameKey`); only `PMPI_Foo` is preferred to `MPI_Foo` against this order. `symbolChoice_iff`: the choice
does not depend on the order of the symbols unless there is a name between the two that are exchanged.
-/

namespace Valgrind.Debuginfo

open Knockout

/-! ## The order of names -/

/-- Length up to the version, then names with a version, then the alphabet. -/
def nameKey (name : List Char) : ℕ ×ₗ Bool ×ₗ List Char :=
  toLex (vlen name, toLex (decide ('@' ∉ name), name))

/-- `MPI_Foo` and `PMPI_Foo`. -/
def MpiPair (m p : List Char) : Prop :=
  m.take 4 = "MPI_".toList ∧ p.take 5 = "PMPI_".toList ∧ m = p.drop 1

instance (m p : List Char) : Decidable (MpiPair m p) := inferInstanceAs (Decidable (_ ∧ _ ∧ _))

/-- The symbol that `prefersym` returns. -/
def prefer (a b : DiSym) : DiSym :=
  if MpiPair a.name b.name then b
  else if MpiPair b.name a.name then a
  else if nameKey a.name ≤ nameKey b.name then a else b

section Names

variable {s t m p : List Char} {a b : DiSym}

theorem strcmp_neg_iff : strcmp s t < 0 ↔ s < t := by
  induction s, t using strcmp.induct with
  | case1 => simp [strcmp]
  | case2 c t => simp [strcmp]
  | case3 c s => simp [strcmp]
  | case4 c s d t hlt => simp [strcmp, hlt, List.cons_lt_cons_iff]
  | case5 c s d t hnlt hgt => simp [strcmp, hnlt, hgt, hgt.ne', List.cons_lt_cons_iff]
  | case6 c s d t hnlt hngt ih =>
    obtain rfl : c = d := le_antisymm (not_lt.mp hngt) (not_lt.mp hnlt)
    simp [strcmp, ih]

theorem strcmp_pos_iff : strcmp s t > 0 ↔ t < s := by
  induction s, t using strcmp.induct with
  | case1 => simp [strcmp]
  | case2 c t => simp [strcmp]
  | case3 c s => simp [strcmp]
  | case4 c s d t hlt => simp [strcmp, hlt, hlt.ne', hlt.asymm, List.cons_lt_cons_iff]
  | case5 c s d t hnlt hgt => simp [strcmp, hnlt, hgt, List.cons_lt_cons_iff]
  | case6 c s d t hnlt hngt ih =>
    obtain rfl : c = d := le_antisymm (not_lt.mp hngt) (not_lt.mp hnlt)
    simp [strcmp, ih]

theorem nameKey_injective : Function.Injective nameKey := fun s t h => by
  have hpair := congrArg (fun k => (ofLex (ofLex k).2).2) h
  exact hpair

theorem nameKey_lt_iff : nameKey s < nameKey t ↔ vlen s < vlen t ∨ vlen s = vlen t ∧
    ('@' ∈ s ∧ '@' ∉ t ∨ ('@' ∈ s ↔ '@' ∈ t) ∧ s < t) := by
  unfold nameKey
  rw [Prod.Lex.toLex_lt_toLex, Prod.Lex.toLex_lt_toLex]
  by_cases hs : '@' ∈ s <;> by_cases ht : '@' ∈ t <;> simp [hs, ht]

/-- `prefersym` goes by the order of the names, the MPI hack apart. -/
theorem prefersym_eq (h : a.addr = b.addr) : prefersym a b = .ok (prefer a b) := by
  rw [prefersym, assertThat_of h, ok_bind]
  unfold prefer
  by_cases hab : MpiPair a.name b.name
  · rw [if_pos hab]
    exact if_pos hab
  by_cases hba : MpiPair b.name a.name
  · rw [if_neg hab, if_pos hba]
    exact (if_neg hab).trans (if_pos hba)
  rw [if_neg hab, if_neg hba]
  refine (if_neg hab).trans ((if_neg hba).trans ?_)
  have hle : nameKey a.name ≤ nameKey b.name ↔ ¬ (vlen b.name < vlen a.name ∨ vlen b.name = vlen a.name ∧
      ('@' ∈ b.name ∧ '@' ∉ a.name ∨ ('@' ∈ b.name ↔ '@' ∈ a.name) ∧ b.name < a.name)) := by
    rw [← nameKey_lt_iff, not_lt]
  simp only [hle, strcmp_neg_iff, strcmp_pos_iff]
  rcases Nat.lt_trichotomy (vlen a.name) (vlen b.name) with hlt | heq | hgt
  · simp only [hlt, hlt.asymm, hlt.ne', if_true, false_or, false_and, not_false_eq_true]
    rfl
  · simp only [heq, Nat.lt_irrefl, if_false, false_or, true_and]
    by_cases ha : '@' ∈ a.name <;> by_cases hb : '@' ∈ b.name
    all_goals simp only [ha, hb, not_true, not_false_eq_true, and_true, and_false, true_and, false_and, if_true,
      if_false, false_or, true_or, iff_true, iff_false]
    all_goals first
      | rfl
      | (rcases lt_trichotomy a.name b.name with hn | hn | hn
         · simp only [hn, hn.asymm, if_true, not_false_eq_true]; rfl
         · simp only [hn, lt_irrefl, if_false, not_false_eq_true, if_true]; rfl
         · simp only [hn, hn.asymm, if_true, if_false, not_true]; rfl)
  · simp only [hgt, hgt.asymm, if_true, if_false, true_or, not_true]
    rfl

theorem prefer_choice (a b : DiSym) : prefer a b = a ∨ prefer a b = b := by
  unfold prefer
  split_ifs <;> simp

/-- A name cannot be on both sides of a pair. -/
theorem MpiPair.not_left (h : MpiPair m p) : ¬ MpiPair p t := fun h' => by
  have h5 := h.2.1
  have h4 := h'.1
  have htake : (p.take 5).take 4 = p.take 4 := by rw [List.take_take]; rfl
  rw [h5, h4] at htake
  exact absurd htake (by decide)

/-- The name of the other symbol of the pair. -/
theorem MpiPair.eq_cons (h : MpiPair m p) : p = 'P' :: m := by
  obtain ⟨-, h5, rfl⟩ := h
  match p with
  | [] => exact absurd h5 (by decide)
  | c :: p =>
    have hc : c = 'P' := by
      have := congrArg List.head? h5
      simpa using this
    rw [hc, List.drop_one, List.tail_cons]

theorem prefer_comm (hne : a.name ≠ b.name) : prefer a b = prefer b a := by
  unfold prefer
  by_cases hab : MpiPair a.name b.name
  · rw [if_pos hab, if_neg hab.not_left, if_pos hab]
  by_cases hba : MpiPair b.name a.name
  · rw [if_neg hab, if_pos hba, if_pos hba]
  rw [if_neg hab, if_neg hba, if_neg hba, if_neg hab]
  rcases lt_trichotomy (nameKey a.name) (nameKey b.name) with h | h | h
  · rw [if_pos h.le, if_neg (not_le.mpr h)]
  · exact absurd (nameKey_injective h) hne
  · rw [if_neg (not_le.mpr h), if_pos h.le]

end Names

/-! ## The rounds -/

/-- The symbols have the same range. -/
def AllTwins (l : List DiSym) : Prop := ∀ a ∈ l, ∀ b ∈ l, a.Twins b

instance (l : List DiSym) : Decidable (AllTwins l) :=
  inferInstanceAs (Decidable (∀ a ∈ l, ∀ b ∈ l, a.addr = b.addr ∧ a.size = b.size))

section Rounds

variable {l l' : List DiSym} {w : DiSym} {n fuel : Nat}

theorem AllTwins.of_subset (h : AllTwins l) (hsub : ∀ a ∈ l', a ∈ l) : AllTwins l' :=
  fun a ha b hb => h a (hsub a ha) b (hsub b hb)

/-- A pass is a round. -/
theorem mergePass_twins (h : AllTwins l) : mergePass l = .ok (round prefer l, l.length / 2) := by
  induction l using mergePass.induct with
  | case1 => rw [mergePass]; rfl
  | case2 a => rw [mergePass, List.length_singleton]; rfl
  | case3 a b l htwins ih =>
    have hl := ih (h.of_subset fun c hc => List.mem_cons_of_mem _ (List.mem_cons_of_mem _ hc))
    have hlen : (a :: b :: l).length / 2 = l.length / 2 + 1 := Nat.add_div_right l.length (by decide : 0 < 2)
    rw [mergePass, if_pos htwins, prefersym_eq htwins.1, ok_bind, hl, hlen]
    rfl
  | case4 a b l htwins ih => exact absurd (h a (by simp) b (by simp)) htwins

/-- The passes end with the winner of the rounds. -/
theorem mergeLoop_twins (h : AllTwins l) (hwin : winner prefer n l = some w) (hfuel : n < fuel) :
    mergeLoop fuel l = .ok [w] := by
  induction n generalizing l fuel with
  | zero =>
    obtain ⟨fuel, rfl⟩ := Nat.exists_eq_succ_of_ne_zero (Nat.ne_zero_of_lt hfuel)
    match l with
    | [a] => rw [← Option.some.inj hwin]; rfl
    | [] => exact nomatch hwin
    | a :: b :: l => exact nomatch hwin
  | succ n ih =>
    obtain ⟨fuel, rfl⟩ := Nat.exists_eq_succ_of_ne_zero (Nat.ne_zero_of_lt hfuel)
    match l with
    | [a] => rw [← Option.some.inj hwin]; rfl
    | [] => exact nomatch mem_of_winner prefer_choice hwin
    | a :: b :: l =>
      have hpos : (a :: b :: l).length / 2 > 0 := Nat.div_pos (by simp) (by decide)
      rw [mergeLoop, mergePass_twins h, ok_bind]
      simp only [if_pos hpos]
      exact ih (h.of_subset fun c hc => mem_of_mem_round prefer_choice hc) hwin (by omega)

/-- The table that is left of symbols with the same range. -/
theorem canonicaliseSymtab_twins [Machine] {ssort : Ssort compareDiSym} (hne : l ≠ []) (h : AllTwins l)
    (hwin : winner prefer l.length (ssort.sort l) = some w) : canonicaliseSymtab ssort l = .ok [w] := by
  have hperm := ssort.perm l
  have hmerge : mergeLoop ((ssort.sort l).length + 1) (ssort.sort l) = .ok [w] :=
    mergeLoop_twins (h.of_subset fun a ha => hperm.mem_iff.mp ha) hwin (by rw [hperm.length_eq]; exact Nat.lt_succ_self _)
  have hlen : ¬ l.length = 0 := fun h0 => hne (List.length_eq_zero_iff.mp h0)
  rw [canonicaliseSymtab, if_neg hlen, cleanupMore, hmerge]
  rfl

end Rounds

/-! ## The choice -/

/-- A sort that does nothing but compare and move elements: when all of them compare equal, where they go
depends only on how many they are. -/
def Blind (ssort : Ssort compareDiSym) : Prop :=
  ∀ n, ∃ σ : Equiv.Perm (Fin n), ∀ f : Fin n → DiSym, (∀ i j, compareDiSym (f i) (f j) = 0) →
    ssort.sort (List.ofFn f) = List.ofFn (f ∘ σ)

/-- The name that is left is the same for every order in which the symbols have been added. -/
def OrderFree [Machine] (ssort : Ssort compareDiSym) (l : List DiSym) : Prop :=
  ∃ name, ∀ l', l'.Perm l → ∃ w, canonicaliseSymtab ssort l' = .ok [w] ∧ w.name = name

/-- Where `MPI_Foo` is the first of the names and `PMPI_Foo` is among them, the latter is the second. -/
def NothingBetween (l : List DiSym) : Prop :=
  ∀ m ∈ l, ∀ p ∈ l, MpiPair m.name p.name → (∀ c ∈ l, nameKey m.name ≤ nameKey c.name) →
    ∀ c ∈ l, c.name ≠ m.name → nameKey p.name ≤ nameKey c.name

instance (l : List DiSym) : Decidable (NothingBetween l) := inferInstanceAs (Decidable (∀ m ∈ l, ∀ p ∈ l, _))

section Choice

variable {l : List DiSym}

/-- Every order of twins comes out of the sort. -/
theorem Blind.reaches {ssort : Ssort compareDiSym} (hblind : Blind ssort) (h : AllTwins l) :
    ∃ l', l'.Perm l ∧ ssort.sort l' = l := by
  obtain ⟨σ, hσ⟩ := hblind l.length
  have heq : ∀ i j, compareDiSym (l.get (σ⁻¹ i)) (l.get (σ⁻¹ j)) = 0 := fun i j => by
    have hij := (h _ (List.get_mem l (σ⁻¹ i)) _ (List.get_mem l (σ⁻¹ j))).1
    unfold compareDiSym
    rw [if_neg (by omega), if_neg (by omega)]
  refine ⟨List.ofFn (l.get ∘ (σ⁻¹ : Equiv.Perm (Fin l.length))), ?_, ?_⟩
  · refine (Equiv.Perm.ofFn_comp_perm σ⁻¹ l.get).trans ?_
    rw [List.ofFn_get]
  · have hsort := hσ (l.get ∘ (σ⁻¹ : Equiv.Perm (Fin l.length))) heq
    have hcomp : (l.get ∘ (σ⁻¹ : Equiv.Perm (Fin l.length))) ∘ σ = l.get := funext fun i => by simp
    rw [hsort, hcomp, List.ofFn_get]

theorem prefer_self (a : DiSym) : prefer a a = a := (prefer_choice a a).elim id id

/-- When the first of two symbols with different names is returned. -/
theorem prefer_left_iff {a b : DiSym} (hne : a.name ≠ b.name) :
    prefer a b = a ↔ MpiPair b.name a.name ∨ ¬ MpiPair a.name b.name ∧ nameKey a.name ≤ nameKey b.name := by
  have hba : b ≠ a := fun h => hne (h ▸ rfl)
  unfold prefer
  by_cases hab : MpiPair a.name b.name
  · rw [if_pos hab]
    exact ⟨fun h => absurd h hba, fun h => absurd hab (h.elim MpiPair.not_left fun h => h.1)⟩
  rw [if_neg hab]
  by_cases hpair : MpiPair b.name a.name
  · rw [if_pos hpair]
    exact ⟨fun _ => .inl hpair, fun _ => rfl⟩
  rw [if_neg hpair]
  constructor
  · intro h
    refine .inr ⟨hab, ?_⟩
    by_contra hle
    rw [if_neg hle] at h
    exact hba h
  · rintro (h | ⟨-, hle⟩)
    · exact absurd h hpair
    · exact if_pos hle

/-- A symbol that is preferred to all others with a different name is preferred to all. -/
theorem beats_of_left {w : DiSym} (hnames : (l.map DiSym.name).Nodup) (hw : w ∈ l)
    (h : ∀ a ∈ l, w.name ≠ a.name → prefer w a = w) : Beats prefer w l := fun a ha => by
  by_cases hname : w.name = a.name
  · rw [List.inj_on_of_nodup_map hnames hw ha hname]
    exact ⟨prefer_self a, prefer_self a⟩
  · exact ⟨h a ha hname, (prefer_comm hname).symm.trans (h a ha hname)⟩

/-- Which names are preferred to all others. -/
theorem exists_beats_iff (hne : l ≠ []) (hnames : (l.map DiSym.name).Nodup) :
    (∃ w ∈ l, Beats prefer w l) ↔ NothingBetween l := by
  classical
  constructor
  · rintro ⟨w, hw, hbeats⟩ m hm p hp hmp hfirst c hc hcm
    have hpm : p.name ≠ m.name := fun h => (h ▸ hmp).not_left hmp
    -- the winner is not `MPI_Foo`, as it meets `PMPI_Foo`
    have hwm : w.name ≠ m.name := fun h => by
      have hwp : w.name ≠ p.name := fun h' => hpm (h'.symm.trans h)
      rcases (prefer_left_iff hwp).mp (hbeats p hp).1 with h' | ⟨h', -⟩
      · exact h'.not_left (h ▸ hmp)
      · exact h' (h ▸ hmp)
    -- and it is preferred to `MPI_Foo`, which is the first
    have hwp : w.name = p.name := by
      rcases (prefer_left_iff hwm).mp (hbeats m hm).1 with h' | ⟨-, h'⟩
      · rw [h'.eq_cons, hmp.eq_cons]
      · exact absurd (nameKey_injective (le_antisymm h' (hfirst w hw))) hwm
    rw [← hwp]
    by_cases hwc : w.name = c.name
    · rw [hwc]
    rcases (prefer_left_iff hwc).mp (hbeats c hc).1 with h' | ⟨-, h'⟩
    · have hcons := h'.eq_cons.symm.trans (hwp.trans hmp.eq_cons)
      exact absurd (List.cons.inj hcons).2 hcm
    · exact h'
  · intro hnothing
    obtain ⟨m, hm, hfirst⟩ := Finset.exists_min_image l.toFinset (fun a => nameKey a.name)
      ((List.toFinset_nonempty_iff l).mpr hne)
    rw [List.mem_toFinset] at hm
    replace hfirst : ∀ c ∈ l, nameKey m.name ≤ nameKey c.name := fun c hc => hfirst c (List.mem_toFinset.mpr hc)
    by_cases hpair : ∃ p ∈ l, MpiPair m.name p.name
    · obtain ⟨p, hp, hmp⟩ := hpair
      refine ⟨p, hp, beats_of_left hnames hp fun c hc hpc => (prefer_left_iff hpc).mpr ?_⟩
      by_cases hcm : c.name = m.name
      · exact .inl (hcm ▸ hmp)
      · exact .inr ⟨hmp.not_left, hnothing m hm p hp hmp hfirst c hc hcm⟩
    · exact ⟨m, hm, beats_of_left hnames hm fun c hc hmc => (prefer_left_iff hmc).mpr
        (.inr ⟨fun h => hpair ⟨c, hc, h⟩, hfirst c hc⟩)⟩

/-- **The choice** among symbols with the same range and different names does not depend on their order
exactly when no name comes between the first one, if it is `MPI_Foo`, and `PMPI_Foo`. -/
theorem symbolChoice_iff [Machine] {ssort : Ssort compareDiSym} (hblind : Blind ssort) (hne : l ≠ [])
    (htwins : AllTwins l) (hnames : (l.map DiSym.name).Nodup) : OrderFree ssort l ↔ NothingBetween l := by
  have hnodup : l.Nodup := List.Nodup.of_map _ hnames
  have hinj : ∀ a ∈ l, ∀ b ∈ l, a.name = b.name → a = b := fun a ha b hb h =>
    List.inj_on_of_nodup_map hnames ha hb h
  have hcomm : ∀ a ∈ l, ∀ b ∈ l, prefer a b = prefer b a := fun a ha b hb => by
    by_cases hab : a = b
    · rw [hab]
    · exact prefer_comm fun h => hab (hinj a ha b hb h)
  rw [← exists_beats_iff hne hnames, ← winner_perm_iff prefer_choice hcomm hnodup]
  -- what is left of an order
  have hleft : ∀ l', l'.Perm l → ∃ w ∈ l, winner prefer l.length (ssort.sort l') = some w ∧
      canonicaliseSymtab ssort l' = .ok [w] := fun l' hperm => by
    have hsort := (ssort.perm l').trans hperm
    have hne' : ssort.sort l' ≠ [] := fun h0 => hne (List.Perm.nil_eq (h0 ▸ hsort)).symm
    obtain ⟨w, hw⟩ : ∃ w, winner prefer l.length (ssort.sort l') = some w :=
      exists_winner hne' (hsort.length_eq.le.trans (Nat.le_succ _))
    refine ⟨w, hsort.mem_iff.mp (mem_of_winner prefer_choice hw), hw, ?_⟩
    refine canonicaliseSymtab_twins (fun h0 => hne (List.Perm.nil_eq (h0 ▸ hperm)).symm)
      (htwins.of_subset fun a ha => hperm.mem_iff.mp ha) ?_
    rw [hperm.length_eq]
    exact hw
  constructor
  · rintro ⟨name, hname⟩
    obtain ⟨w, hwl, -, hcw⟩ := hleft l (List.Perm.refl l)
    obtain ⟨w', hcw', hw'⟩ := hname l (List.Perm.refl l)
    rw [hcw] at hcw'
    cases hcw'
    refine ⟨w, fun l₁ hperm => ?_⟩
    obtain ⟨l', hperm', hsort⟩ := hblind.reaches (htwins.of_subset fun a ha => hperm.mem_iff.mp ha)
    obtain ⟨v, hvl, hwin, hcv⟩ := hleft l' (hperm'.trans hperm)
    obtain ⟨v', hcv', hv'⟩ := hname l' (hperm'.trans hperm)
    rw [hcv] at hcv'
    cases hcv'
    rw [hsort] at hwin
    rw [hwin, hinj v hvl w hwl (hv'.trans hw'.symm)]
  · rintro ⟨w, hwin⟩
    refine ⟨w.name, fun l' hperm => ?_⟩
    obtain ⟨v, -, hv, hcv⟩ := hleft l' hperm
    rw [hwin _ ((ssort.perm l').trans hperm)] at hv
    cases hv
    exact ⟨w, hcv, rfl⟩

end Choice

/-- Insertion leaves symbols with one address where they are. -/
theorem blind_insertionSym : Blind insertionSym := fun n => ⟨Equiv.refl _, fun f h => by
  have hpair : (List.ofFn f).Pairwise fun a b => compareDiSym a b ≤ 0 :=
    List.pairwise_ofFn.mpr fun i j _ => (h i j).le
  exact hpair.insertionSort_eq⟩

/-- A function of the MPI library under its two names. -/
def mpiSend : List DiSym := [⟨4096, 0, "MPI_Send".toList, 16, true⟩, ⟨4096, 0, "PMPI_Send".toList, 16, true⟩]

theorem symbolChoice_iff_mpiSend : @OrderFree amd64Linux insertionSym mpiSend :=
  (@symbolChoice_iff mpiSend amd64Linux insertionSym blind_insertionSym (by decide) (by decide)
    (by decide)).mpr (by decide +kernel)

/-- The same function with an alias. -/
def mpiAlias : List DiSym :=
  [⟨4096, 0, "MPI_Send".toList, 16, true⟩, ⟨4096, 0, "mpi_send".toList, 16, true⟩,
    ⟨4096, 0, "PMPI_Send".toList, 16, true⟩]

/-- `PMPI_Send` is left, or `MPI_Send` if the alias meets `PMPI_Send` first. -/
theorem symbolChoice_mpiAlias : Blind insertionSym ∧ AllTwins mpiAlias ∧ (mpiAlias.map DiSym.name).Nodup ∧
    ¬ @OrderFree amd64Linux insertionSym mpiAlias := by
  refine ⟨blind_insertionSym, by decide, by decide +kernel, ?_⟩
  rintro ⟨name, h⟩
  have hfirst : @canonicaliseSymtab amd64Linux insertionSym mpiAlias =
      .ok [⟨4096, 0, "PMPI_Send".toList, 16, true⟩] := by decide
  have hrotated : @canonicaliseSymtab amd64Linux insertionSym (mpiAlias.rotate 1) =
      .ok [⟨4096, 0, "MPI_Send".toList, 16, true⟩] := by decide
  obtain ⟨w, hw, hname⟩ := h mpiAlias (List.Perm.refl _)
  obtain ⟨w', hw', hname'⟩ := h (mpiAlias.rotate 1) (List.rotate_perm _ _)
  rw [hfirst] at hw
  rw [hrotated] at hw'
  cases hw
  cases hw'
  rw [← hname'] at hname
  exact absurd hname (by decide)

end Valgrind.Debuginfo
