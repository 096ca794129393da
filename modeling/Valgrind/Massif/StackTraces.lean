import Valgrind.Basics.Result

/-!
# Massif: filtered stack traces

`get_IPs` of `ms_main.c`, which leaves out the allocation functions that a trace begins with.
It asks for a few entries more than it needs, and asks again for more of them when too many had
to go. An entry without a name is passed over but not counted, so that after it the wrong
entries go.

The unwinder is a list, the full trace, of which `VG_(get_StackTrace)` gives as many entries as
there is room for. The counter of the redos is left out.
-/

namespace Valgrind.Massif

/-! ## The code -/

/-- `MAX_OVERESTIMATE`. -/
def maxOverestimate : Nat := 50

/-- What `VG_(get_fnname)` and `is_alloc_fn` answer. -/
structure Names where
  fnname : Nat → Option String
  isAllocFn : String → Bool

section

variable (names : Names)

/-- The loop that filters out alloc fns; it begins with `n_alloc_fns_removed`. -/
def countAllocFns (removed : Nat) : List Nat → Nat
  | [] => removed
  | ip :: ips =>
    match names.fnname ip with
    | none => countAllocFns removed ips
    | some buf => if names.isAllocFn buf then countAllocFns (removed + 1) ips else removed

/-- How many entries go before any is looked at. -/
def firstRemoved (isCustomAlloc : Bool) : Nat := if isCustomAlloc then 0 else 1

/-- `n_alloc_fns_removed` for the entries that were asked for. -/
def nAllocFnsRemoved (isCustomAlloc : Bool) (ips : List Nat) : Nat :=
  countAllocFns names (firstRemoved isCustomAlloc) (ips.drop (firstRemoved isCustomAlloc))

/-- The loop of `get_IPs`, from a turn on. -/
def getIPsLoop (isCustomAlloc : Bool) (cloDepth : Nat) (full : List Nat) : Nat → Nat → Result (List Nat)
  | 0, _ => .error .diverge
  | fuel + 1, overestimate =>
    if overestimate > maxOverestimate then .error .panic
    else do
      let ips := full.take (cloDepth + overestimate)
      assertThat (ips.length > 0)
      let removed := nAllocFnsRemoved names isCustomAlloc ips
      if ips.length - removed ≥ cloDepth then return (ips.drop removed).take cloDepth
      else if ips.length < cloDepth + overestimate then return ips.drop removed
      else getIPsLoop isCustomAlloc cloDepth full fuel (overestimate + 6)

/-- `get_IPs`: there is no tenth turn. -/
def getIPs (isCustomAlloc : Bool) (cloDepth : Nat) (full : List Nat) : Result (List Nat) :=
  getIPsLoop names isCustomAlloc cloDepth full 9 3

/-! ## What it should do -/

/-- The entry is an allocation function. -/
def Names.Alloc (ip : Nat) : Bool := (names.fnname ip).any names.isAllocFn

/-- How many allocation functions the list begins with. -/
def leadingRun (ips : List Nat) : Nat := (ips.takeWhile names.Alloc).length

/-- How many entries of a trace should go. -/
def toRemove (isCustomAlloc : Bool) (full : List Nat) : Nat :=
  firstRemoved isCustomAlloc + leadingRun names (full.drop (firstRemoved isCustomAlloc))

/-- The full trace without the allocation functions that it begins with, to a given depth. -/
def filtered (isCustomAlloc : Bool) (cloDepth : Nat) (full : List Nat) : List Nat :=
  (full.drop (toRemove names isCustomAlloc full)).take cloDepth

/-- An allocation function comes after an entry without a name, and before any other function. -/
def Hides (ips : List Nat) : Prop :=
  ∃ run ip mid fn rest, ips = run ++ ip :: (mid ++ fn :: rest) ∧ (∀ a ∈ run, names.Alloc a) ∧ names.fnname ip = none ∧
    (∀ a ∈ mid, names.fnname a = none ∨ names.Alloc a) ∧ names.Alloc fn

/-- The first overestimate that leaves room for the entries that should go. -/
def enough (n : Nat) : Nat := 3 + (n - 3 + 5) / 6 * 6

/-- The entries that are looked at when all goes well. -/
def lookedAt (isCustomAlloc : Bool) (cloDepth : Nat) (full : List Nat) : List Nat :=
  (full.take (cloDepth + enough (toRemove names isCustomAlloc full))).drop (firstRemoved isCustomAlloc)

variable {names} {isCustomAlloc : Bool} {cloDepth overestimate fuel : Nat} {full ips rest r : List Nat} {ip : Nat}

/-! ## Counting -/

theorem countAllocFns_add (removed : Nat) (ips : List Nat) :
    countAllocFns names removed ips = removed + countAllocFns names 0 ips := by
  induction ips generalizing removed with
  | nil => rfl
  | cons ip ips ih =>
    rw [countAllocFns, countAllocFns]
    cases names.fnname ip with
    | none => exact ih removed
    | some buf =>
      simp only
      split
      · rw [ih (removed + 1), ih (0 + 1)]
        omega
      · rfl

theorem alloc_iff : names.Alloc ip = true ↔ ∃ buf, names.fnname ip = some buf ∧ names.isAllocFn buf = true := by
  rw [Names.Alloc, Option.any_eq_true]

theorem countAllocFns_alloc (h : names.Alloc ip = true) :
    countAllocFns names 0 (ip :: ips) = countAllocFns names 0 ips + 1 := by
  obtain ⟨buf, hname, hbuf⟩ := alloc_iff.mp h
  rw [countAllocFns, hname]
  simp only [hbuf, if_true]
  rw [countAllocFns_add, Nat.add_comm]

theorem countAllocFns_unnamed (h : names.fnname ip = none) :
    countAllocFns names 0 (ip :: ips) = countAllocFns names 0 ips := by
  rw [countAllocFns, h]

theorem countAllocFns_other (hname : names.fnname ip ≠ none) (h : names.Alloc ip = false) :
    countAllocFns names 0 (ip :: ips) = 0 := by
  obtain ⟨buf, hbuf⟩ := Option.ne_none_iff_exists'.mp hname
  rw [Names.Alloc, hbuf] at h
  rw [countAllocFns, hbuf]
  exact if_neg (Bool.eq_false_iff.mp h)

theorem unnamed_not_alloc (h : names.fnname ip = none) : names.Alloc ip = false := by
  rw [Names.Alloc, h]
  rfl

/-- Some entry is counted if an allocation function is reached. -/
theorem countAllocFns_pos_iff : 0 < countAllocFns names 0 ips ↔
    ∃ mid fn rest, ips = mid ++ fn :: rest ∧ (∀ a ∈ mid, names.fnname a = none ∨ names.Alloc a) ∧ names.Alloc fn := by
  induction ips with
  | nil => simp [countAllocFns]
  | cons ip ips ih =>
    by_cases halloc : names.Alloc ip = true
    · rw [countAllocFns_alloc halloc]
      exact iff_of_true (Nat.succ_pos _) ⟨[], ip, ips, rfl, by simp, halloc⟩
    by_cases hname : names.fnname ip = none
    · rw [countAllocFns_unnamed hname, ih]
      constructor
      · rintro ⟨mid, fn, rest, rfl, hmid, hfn⟩
        exact ⟨ip :: mid, fn, rest, rfl, List.forall_mem_cons.mpr ⟨.inl hname, hmid⟩, hfn⟩
      · rintro ⟨mid, fn, rest, heq, hmid, hfn⟩
        cases mid with
        | nil =>
          obtain ⟨rfl, -⟩ := List.cons.inj heq
          exact absurd hfn halloc
        | cons a mid => exact ⟨mid, fn, rest, (List.cons.inj heq).2, fun b hb => hmid b (List.mem_cons_of_mem _ hb), hfn⟩
    · rw [countAllocFns_other hname (Bool.eq_false_iff.mpr halloc)]
      refine iff_of_false (lt_irrefl 0) ?_
      rintro ⟨mid, fn, rest, heq, hmid, hfn⟩
      cases mid with
      | nil =>
        obtain ⟨rfl, -⟩ := List.cons.inj heq
        exact halloc hfn
      | cons a mid =>
        obtain ⟨rfl, -⟩ := List.cons.inj heq
        exact (hmid ip List.mem_cons_self).elim hname halloc

/-- The leading allocation functions are counted, and others only if they are hidden. -/
theorem countAllocFns_spec (names : Names) (ips : List Nat) : leadingRun names ips ≤ countAllocFns names 0 ips ∧
    (countAllocFns names 0 ips = leadingRun names ips ↔ ¬ Hides names ips) := by
  induction ips with
  | nil =>
    refine ⟨le_rfl, iff_of_true rfl ?_⟩
    rintro ⟨run, ip, mid, fn, rest, heq, -⟩
    cases run <;> cases heq
  | cons ip ips ih =>
    by_cases halloc : names.Alloc ip = true
    · have hrun : leadingRun names (ip :: ips) = leadingRun names ips + 1 := by
        rw [leadingRun, List.takeWhile_cons, if_pos halloc, List.length_cons, leadingRun]
      rw [countAllocFns_alloc halloc, hrun]
      refine ⟨Nat.succ_le_succ ih.1, (Nat.succ_inj).trans (ih.2.trans (not_congr ?_))⟩
      constructor
      · rintro ⟨run, u, mid, fn, rest, rfl, hall, hrest⟩
        exact ⟨ip :: run, u, mid, fn, rest, rfl, List.forall_mem_cons.mpr ⟨halloc, hall⟩, hrest⟩
      · rintro ⟨run, u, mid, fn, rest, heq, hall, hu, hrest⟩
        cases run with
        | nil =>
          obtain ⟨rfl, -⟩ := List.cons.inj heq
          cases (unnamed_not_alloc hu).symm.trans halloc
        | cons a run =>
          exact ⟨run, u, mid, fn, rest, (List.cons.inj heq).2, fun b hb => hall b (List.mem_cons_of_mem _ hb), hu, hrest⟩
    · have hrun : leadingRun names (ip :: ips) = 0 := by
        rw [leadingRun, List.takeWhile_cons, if_neg halloc]
        rfl
      rw [hrun]
      refine ⟨Nat.zero_le _, ?_⟩
      by_cases hname : names.fnname ip = none
      · rw [countAllocFns_unnamed hname, ← not_iff_not, not_not, ← Ne, ← Nat.pos_iff_ne_zero, countAllocFns_pos_iff]
        constructor
        · rintro ⟨mid, fn, rest, rfl, hmid, hfn⟩
          exact ⟨[], ip, mid, fn, rest, rfl, by simp, hname, hmid, hfn⟩
        · rintro ⟨run, u, mid, fn, rest, heq, hall, -, hmid, hfn⟩
          cases run with
          | nil => exact ⟨mid, fn, rest, (List.cons.inj heq).2, hmid, hfn⟩
          | cons a run =>
            obtain ⟨rfl, -⟩ := List.cons.inj heq
            exact absurd (hall ip List.mem_cons_self) halloc
      · rw [countAllocFns_other hname (Bool.eq_false_iff.mpr halloc)]
        refine iff_of_true rfl ?_
        rintro ⟨run, u, mid, fn, rest, heq, hall, hu, -⟩
        cases run with
        | nil =>
          obtain ⟨rfl, -⟩ := List.cons.inj heq
          exact hname hu
        | cons a run =>
          obtain ⟨rfl, -⟩ := List.cons.inj heq
          exact halloc (hall ip List.mem_cons_self)

/-- What is hidden in a part of a trace stays hidden in a longer part. -/
theorem Hides.longer (h : Hides names ips) (hpre : ips <+: rest) : Hides names rest := by
  obtain ⟨run, ip, mid, fn, tail, rfl, hrest⟩ := h
  obtain ⟨more, rfl⟩ := hpre
  exact ⟨run, ip, mid, fn, tail ++ more, by simp, hrest⟩

/-! ## One turn -/

theorem leadingRun_take (m : Nat) (ips : List Nat) : leadingRun names (ips.take m) = min m (leadingRun names ips) := by
  unfold leadingRun
  induction ips generalizing m with
  | nil => simp
  | cons ip ips ih =>
    cases m with
    | zero => simp
    | succ m =>
      rw [List.take_succ_cons, List.takeWhile_cons, List.takeWhile_cons]
      split
      · rw [List.length_cons, List.length_cons, ih m, Nat.succ_min_succ]
      · simp

theorem le_enough (n : Nat) : n ≤ enough n := by
  unfold enough
  omega

theorem enough_le {n m : Nat} (hmod : m % 6 = 3) (h : n ≤ m) : enough n ≤ m := by
  unfold enough
  omega

theorem enough_mod (n : Nat) : enough n % 6 = 3 := by
  unfold enough
  omega

/-- The entries that are looked at in a turn. -/
theorem drop_take_trace (n : Nat) : (full.take n).drop (firstRemoved isCustomAlloc) =
    (full.drop (firstRemoved isCustomAlloc)).take (n - firstRemoved isCustomAlloc) := List.drop_take ..

theorem firstRemoved_le (isCustomAlloc : Bool) : firstRemoved isCustomAlloc ≤ 1 := by
  cases isCustomAlloc <;> decide

/-- No more entries should go than there are. -/
theorem toRemove_le (names : Names) (isCustomAlloc : Bool) (hne : full ≠ []) :
    toRemove names isCustomAlloc full ≤ full.length := by
  have hpos := List.length_pos_of_ne_nil hne
  have hfirst := firstRemoved_le isCustomAlloc
  have hrun : leadingRun names (full.drop (firstRemoved isCustomAlloc)) ≤ (full.drop (firstRemoved isCustomAlloc)).length :=
    (List.takeWhile_prefix _).length_le
  rw [List.length_drop] at hrun
  unfold toRemove
  omega

/-- In a turn the right entries go, as far as there are so many, unless something is hidden. -/
theorem nAllocFnsRemoved_spec (names : Names) (isCustomAlloc : Bool) (full : List Nat) {n : Nat} (hn : 1 ≤ n) :
    min n (toRemove names isCustomAlloc full) ≤ nAllocFnsRemoved names isCustomAlloc (full.take n) ∧
    (nAllocFnsRemoved names isCustomAlloc (full.take n) = min n (toRemove names isCustomAlloc full) ↔
      ¬ Hides names ((full.take n).drop (firstRemoved isCustomAlloc))) := by
  have hfirst := firstRemoved_le isCustomAlloc
  obtain ⟨hle, hiff⟩ := countAllocFns_spec names ((full.take n).drop (firstRemoved isCustomAlloc))
  rw [nAllocFnsRemoved, countAllocFns_add, ← hiff, toRemove]
  rw [drop_take_trace, leadingRun_take] at hle ⊢
  omega

theorem nAllocFnsRemoved_le (names : Names) (isCustomAlloc : Bool) (hne : ips ≠ []) :
    nAllocFnsRemoved names isCustomAlloc ips ≤ ips.length := by
  have hpos := List.length_pos_of_ne_nil hne
  have hfirst := firstRemoved_le isCustomAlloc
  have hcount : ∀ l : List Nat, countAllocFns names 0 l ≤ l.length := by
    intro l
    induction l with
    | nil => exact le_rfl
    | cons ip l ih =>
      rw [countAllocFns, List.length_cons]
      cases names.fnname ip with
      | none => exact Nat.le_succ_of_le ih
      | some buf =>
        simp only
        split
        · rw [countAllocFns_add]
          omega
        · exact Nat.zero_le _
  have hdrop := hcount (ips.drop (firstRemoved isCustomAlloc))
  rw [List.length_drop] at hdrop
  rw [nAllocFnsRemoved, countAllocFns_add]
  omega

/-- What a turn that is the last one has seen. -/
structure LastTurn (names : Names) (isCustomAlloc : Bool) (cloDepth : Nat) (full : List Nat) (overestimate : Nat)
    (r : List Nat) : Prop where
  result : r = ((full.take (cloDepth + overestimate)).drop
    (nAllocFnsRemoved names isCustomAlloc (full.take (cloDepth + overestimate)))).take cloDepth
  ends : cloDepth ≤ (full.take (cloDepth + overestimate)).length -
      nAllocFnsRemoved names isCustomAlloc (full.take (cloDepth + overestimate)) ∨
    full.length < cloDepth + overestimate

/-- The loop ends with the first turn that can be the last one. -/
theorem getIPsLoop_ends (hmod : overestimate % 6 = 3)
    (hrun : getIPsLoop names isCustomAlloc cloDepth full fuel overestimate = .ok r) :
    ∃ last, overestimate ≤ last ∧ last % 6 = 3 ∧ LastTurn names isCustomAlloc cloDepth full last r ∧
      ∀ o, overestimate ≤ o → o < last → o % 6 = 3 → ¬ ∃ r', LastTurn names isCustomAlloc cloDepth full o r' := by
  induction fuel generalizing overestimate with
  | zero => cases hrun
  | succ fuel ih =>
    rw [getIPsLoop] at hrun
    split at hrun
    · cases hrun
    · obtain ⟨-, -, hrun⟩ := bind_eq_ok.mp hrun
      have hlen : (full.take (cloDepth + overestimate)).length < cloDepth + overestimate ↔
          full.length < cloDepth + overestimate := by
        rw [List.length_take]
        omega
      by_cases hends : (full.take (cloDepth + overestimate)).length -
          nAllocFnsRemoved names isCustomAlloc (full.take (cloDepth + overestimate)) ≥ cloDepth
      · dsimp only at hrun
        rw [if_pos hends] at hrun
        exact ⟨overestimate, le_rfl, hmod, ⟨(pure_eq_ok.mp hrun).symm, .inl hends⟩, fun o h₁ h₂ => absurd h₂ (by omega)⟩
      by_cases hshort : (full.take (cloDepth + overestimate)).length < cloDepth + overestimate
      · dsimp only at hrun
        rw [if_neg hends, if_pos hshort] at hrun
        refine ⟨overestimate, le_rfl, hmod, ⟨?_, .inr (hlen.mp hshort)⟩, fun o h₁ h₂ => absurd h₂ (by omega)⟩
        rw [← pure_eq_ok.mp hrun]
        refine (List.take_of_length_le ?_).symm
        rw [List.length_drop]
        omega
      · dsimp only at hrun
        rw [if_neg hends, if_neg hshort] at hrun
        obtain ⟨last, hle, hlast, hturn, hbefore⟩ := ih (by omega) hrun
        refine ⟨last, by omega, hlast, hturn, fun o h₁ h₂ ho => ?_⟩
        by_cases heq : o = overestimate
        · subst heq
          rintro ⟨r', hturn'⟩
          rcases hturn'.ends with hmany | hfew
          · exact hends hmany
          · exact hshort (hlen.mpr hfew)
        · exact hbefore o (by omega) h₂ ho

/-- A turn in which the right number of entries goes. -/
theorem LastTurn.exact (h : LastTurn names isCustomAlloc cloDepth full overestimate r) (hdepth : 1 ≤ cloDepth)
    (hne : full ≠ []) (hright : nAllocFnsRemoved names isCustomAlloc (full.take (cloDepth + overestimate)) =
      min (cloDepth + overestimate) (toRemove names isCustomAlloc full)) : r = filtered names isCustomAlloc cloDepth full := by
  have hle := toRemove_le names isCustomAlloc hne
  have hlen : (full.take (cloDepth + overestimate)).length ≤ cloDepth + overestimate := List.length_take_le _ _
  rw [h.result, filtered, hright]
  rcases h.ends with hmany | hshort
  · rw [hright] at hmany
    have hk : min (cloDepth + overestimate) (toRemove names isCustomAlloc full) = toRemove names isCustomAlloc full := by
      omega
    rw [hk] at hmany ⊢
    rw [List.drop_take, List.take_take, min_eq_left (by omega)]
  · rw [List.take_of_length_le hshort.le, min_eq_right (by omega)]

/-! ## The whole function -/

/-- With something hidden too many entries go, which a trace without repetitions shows. -/
theorem LastTurn.right (h : LastTurn names isCustomAlloc cloDepth full overestimate r) (hdepth : 1 ≤ cloDepth)
    (hne : full ≠ []) (hnodup : full.Nodup) (hr : r = filtered names isCustomAlloc cloDepth full) :
    nAllocFnsRemoved names isCustomAlloc (full.take (cloDepth + overestimate)) =
      min (cloDepth + overestimate) (toRemove names isCustomAlloc full) := by
  have hle := toRemove_le names isCustomAlloc hne
  have hmin := (nAllocFnsRemoved_spec names isCustomAlloc full (show 1 ≤ cloDepth + overestimate by omega)).1
  have hpos := List.length_pos_of_ne_nil hne
  have hips : full.take (cloDepth + overestimate) ≠ [] := by
    refine List.ne_nil_of_length_pos ?_
    rw [List.length_take]
    omega
  have hcount := nAllocFnsRemoved_le names isCustomAlloc hips
  have hlen := List.length_take_le (cloDepth + overestimate) full
  have hlen' := List.length_take_le' (cloDepth + overestimate) full
  by_contra hwrong
  -- the first entry that is left is another one than it should be
  have hhead : (full.take (cloDepth + overestimate))[nAllocFnsRemoved names isCustomAlloc
      (full.take (cloDepth + overestimate))]? = full[toRemove names isCustomAlloc full]? := by
    have hfirst := congrArg (·[0]?) (h.result.symm.trans hr)
    simpa only [filtered, List.getElem?_take_of_lt hdepth, List.getElem?_drop, Nat.add_zero] using hfirst
  have hsome : (full.take (cloDepth + overestimate))[nAllocFnsRemoved names isCustomAlloc
      (full.take (cloDepth + overestimate))]? =
      full[nAllocFnsRemoved names isCustomAlloc (full.take (cloDepth + overestimate))]? := by
    by_cases hlt : nAllocFnsRemoved names isCustomAlloc (full.take (cloDepth + overestimate)) < cloDepth + overestimate
    · exact List.getElem?_take_of_lt hlt
    · rw [List.getElem?_eq_none (by omega)] at hhead
      have := List.getElem?_eq_none_iff.mp hhead.symm
      omega
  have := (List.getElem?_inj (by omega) hnodup).mp (hhead.symm.trans hsome)
  omega

/-- **`get_IPs`.** When it returns, the trace has lost the allocation functions that it begins
with and is cut to the depth, unless among the entries that are looked at an allocation function
comes after an entry without a name; then it has not, if no entry occurs twice. -/
theorem getIPs_iff (names : Names) (isCustomAlloc : Bool) {cloDepth : Nat} (hdepth : 1 ≤ cloDepth) {full : List Nat}
    (hne : full ≠ []) {r : List Nat} (hrun : getIPs names isCustomAlloc cloDepth full = .ok r) :
    (¬ Hides names (lookedAt names isCustomAlloc cloDepth full) → r = filtered names isCustomAlloc cloDepth full) ∧
    (full.Nodup → r = filtered names isCustomAlloc cloDepth full →
      ¬ Hides names (lookedAt names isCustomAlloc cloDepth full)) := by
  obtain ⟨last, -, hmod, hturn, hbefore⟩ := getIPsLoop_ends (by decide) hrun
  have hle := toRemove_le names isCustomAlloc hne
  have hspec := fun o => nAllocFnsRemoved_spec names isCustomAlloc full (show 1 ≤ cloDepth + o by omega)
  refine ⟨fun hhides => ?_, fun hnodup hr => ?_⟩
  · have hlast : last ≤ enough (toRemove names isCustomAlloc full) := by
      by_contra hcon
      refine hbefore (enough (toRemove names isCustomAlloc full)) (by unfold enough; omega) (Nat.lt_of_not_le hcon)
        (enough_mod _) ⟨_, rfl, ?_⟩
      have hright := (hspec (enough (toRemove names isCustomAlloc full))).2.mpr hhides
      have henough := le_enough (toRemove names isCustomAlloc full)
      rw [hright, List.length_take]
      omega
    refine hturn.exact hdepth hne ((hspec last).2.mpr fun hin => hhides (hin.longer ?_))
    exact (List.take_prefix_take_left (by omega)).drop _
  · have hin := (hspec last).2.mp (hturn.right hdepth hne hnodup hr)
    refine fun hhides => hin (hhides.longer (List.IsPrefix.drop ?_ _))
    rcases hturn.ends with hmany | hshort
    · have hright := hturn.right hdepth hne hnodup hr
      rw [hright, List.length_take] at hmany
      have : enough (toRemove names isCustomAlloc full) ≤ last := enough_le hmod (by omega)
      exact List.take_prefix_take_left (by omega)
    · rw [List.take_of_length_le hshort.le]
      exact List.take_prefix _ _

/-- Entry 1 is in `malloc`, 2 is in `xmalloc`, and 9 has no name. -/
def someNames : Names where
  fnname := fun ip => if ip = 1 then some "malloc" else if ip = 2 then some "xmalloc" else if ip = 9 then none else some "f"
  isAllocFn := fun buf => buf = "malloc" || buf = "xmalloc"

/-- Both allocation functions go, and the depth is 2. -/
theorem getIPs_iff_named : getIPs someNames false 2 [1, 2, 3, 9, 5] = .ok [3, 9] ∧
    (¬ Hides someNames (lookedAt someNames false 2 [1, 2, 3, 9, 5]) →
      [3, 9] = filtered someNames false 2 [1, 2, 3, 9, 5]) ∧
    ([1, 2, 3, 9, 5].Nodup → [3, 9] = filtered someNames false 2 [1, 2, 3, 9, 5] →
      ¬ Hides someNames (lookedAt someNames false 2 [1, 2, 3, 9, 5])) :=
  ⟨by decide, getIPs_iff someNames false (by decide) (by decide) (by decide)⟩

/-- `xmalloc` is called from code without a name: that entry goes, and `xmalloc` stays. -/
theorem getIPs_unnamed : getIPs someNames false 30 [1, 9, 2, 3] = .ok [2, 3] ∧
    filtered someNames false 30 [1, 9, 2, 3] = [9, 2, 3] := by
  decide

end

end Valgrind.Massif
