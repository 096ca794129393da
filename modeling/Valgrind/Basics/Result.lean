import Mathlib.Tactic

/-!
# Running a piece of C code

A function of the source either returns a value or does not return at all: an
assertion fails, a `core_panic` / `am_barf` is reached, the process exits, a
bad address is touched, or a loop never ends. `Result α` keeps the two apart.
Claims of the form "no assertion fails" are statements that a `Result` is not
an `.error`; claims about what a call leaves behind speak about the `.ok` case.
-/

namespace Valgrind

/-- Why a piece of code did not return. -/
inductive Abort where
  /-- `vg_assert`, `aspacem_assert` or `tl_assert`. -/
  | assertFailed
  /-- `VG_(core_panic)`, `VG_(tool_panic)` or `ML_(am_barf)`. -/
  | panic
  /-- `ML_(am_barf_toolow)`: a statically sized table is full. -/
  | tooLow
  /-- `VG_(exit)`, reached through `VG_(out_of_memory_NORETURN)`. -/
  | exit
  /-- A store through the null pointer. -/
  | fault
  /-- A loop that does not terminate. -/
  | diverge
  deriving DecidableEq, Repr

/-- The outcome of running a piece of code. -/
abbrev Result (α : Type) := Except Abort α

/-- The code returns a value that passes the test `p`. -/
def Result.holds {α : Type} (r : Result α) (p : α → Bool) : Bool :=
  match r with
  | .ok a => p a
  | .error _ => false

theorem Result.exists_of_holds {α : Type} {r : Result α} {p : α → Bool}
    (h : r.holds p = true) : ∃ a, r = .ok a ∧ p a = true := by
  cases r with
  | error e => exact nomatch h
  | ok a => exact ⟨a, rfl, h⟩

/-- `vg_assert(p)` and its relatives. -/
def assertThat (p : Prop) [Decidable p] : Result Unit :=
  if p then .ok () else .error .assertFailed

section Bind

variable {ε α β : Type}

@[simp] theorem bind_eq_ok {x : Except ε α} {f : α → Except ε β} {b : β} :
    (x >>= f) = .ok b ↔ ∃ a, x = .ok a ∧ f a = .ok b := by
  cases x with
  | error e => simp [bind, Except.bind]
  | ok a => simp [bind, Except.bind]

@[simp] theorem assertThat_eq_ok {p : Prop} [Decidable p] {u : Unit} :
    assertThat p = .ok u ↔ p := by
  unfold assertThat
  split <;> simp_all

@[simp] theorem pure_eq_ok {a b : α} : (pure a : Except ε α) = .ok b ↔ a = b := by
  simp [pure, Except.pure]

@[simp] theorem throw_eq_ok {e : ε} {b : α} :
    ¬ (throw e : Except ε α) = .ok b := by
  simp [throw, throwThe, MonadExceptOf.throw]

@[simp] theorem ok_bind (a : α) (f : α → Except ε β) : (.ok a >>= f) = f a := rfl

theorem assertThat_of {p : Prop} [Decidable p] (h : p) : assertThat p = .ok () := by
  simp [assertThat, h]

end Bind

/-! ## Runs -/

section Runs

variable {σ ι : Type}

/-- Run a list of steps one after the other; the run ends early if a step does
not return. -/
def runSteps (step : σ → ι → Result σ) : σ → List ι → Result σ
  | s, [] => .ok s
  | s, i :: is => step s i >>= fun s' => runSteps step s' is

@[simp] theorem runSteps_nil (step : σ → ι → Result σ) (s : σ) :
    runSteps step s [] = .ok s := rfl

theorem runSteps_cons {step : σ → ι → Result σ} {s t : σ} {i : ι} {is : List ι} :
    runSteps step s (i :: is) = .ok t ↔
      ∃ s', step s i = .ok s' ∧ runSteps step s' is = .ok t := by
  simp [runSteps]

theorem runSteps_append_eq (step : σ → ι → Result σ) (s : σ) (is js : List ι) :
    runSteps step s (is ++ js) = runSteps step s is >>= fun u => runSteps step u js := by
  induction is generalizing s with
  | nil => rfl
  | cons i is ih => simp only [List.cons_append, runSteps, bind_assoc, ih]

theorem runSteps_append {step : σ → ι → Result σ} {s t : σ} {is js : List ι} :
    runSteps step s (is ++ js) = .ok t ↔
      ∃ u, runSteps step s is = .ok u ∧ runSteps step u js = .ok t := by
  induction is generalizing s with
  | nil => simp
  | cons i is ih =>
    simp only [List.cons_append, runSteps_cons, ih]
    constructor
    · rintro ⟨s', h, u, hu, ht⟩
      exact ⟨u, ⟨s', h, hu⟩, ht⟩
    · rintro ⟨u, ⟨s', h, hu⟩, ht⟩
      exact ⟨s', h, u, hu, ht⟩

/-- **Invariants of runs**: what holds initially and is kept by every returning
step holds after every run. -/
theorem runSteps_inv {step : σ → ι → Result σ} {Inv : σ → Prop}
    (hstep : ∀ {s s' i}, Inv s → step s i = .ok s' → Inv s')
    {s t : σ} (hs : Inv s) {is : List ι} (h : runSteps step s is = .ok t) : Inv t := by
  induction is generalizing s with
  | nil =>
    simp only [runSteps_nil, Except.ok.injEq] at h
    exact h ▸ hs
  | cons i is ih =>
    obtain ⟨s', h₁, h₂⟩ := runSteps_cons.mp h
    exact ih (hstep hs h₁) h₂

/-- Every step of the run meets a condition on the state before it. -/
def runMeets (step : σ → ι → Result σ) (P : σ → ι → Prop) : σ → List ι → Prop
  | _, [] => True
  | s, i :: is => P s i ∧ ∀ s', step s i = .ok s' → runMeets step P s' is

instance runMeets.decidable (step : σ → ι → Result σ) (P : σ → ι → Prop)
    [∀ s i, Decidable (P s i)] : ∀ s is, Decidable (runMeets step P s is)
  | _, [] => isTrue trivial
  | s, i :: is =>
    match h : step s i with
    | .error e => decidable_of_iff (P s i) (by simp [runMeets, h])
    | .ok s' =>
      have := runMeets.decidable step P s' is
      decidable_of_iff (P s i ∧ runMeets step P s' is) (by simp [runMeets, h])

theorem runMeets_append {step : σ → ι → Result σ} {P : σ → ι → Prop} {s t : σ} {is js : List ι}
    (hrun : runSteps step s is = .ok t) (his : runMeets step P s is) (hjs : runMeets step P t js) :
    runMeets step P s (is ++ js) := by
  induction is generalizing s with
  | nil =>
    obtain rfl : s = t := by simpa using hrun
    exact hjs
  | cons i is ih =>
    obtain ⟨s', h₁, h₂⟩ := runSteps_cons.mp hrun
    refine ⟨his.1, fun s'' h => ?_⟩
    obtain rfl : s' = s'' := Except.ok.inj (h₁.symm.trans h)
    exact ih h₂ (his.2 s' h₁)

theorem runMeets_of_append {step : σ → ι → Result σ} {P : σ → ι → Prop} {s : σ} {is js : List ι}
    (h : runMeets step P s (is ++ js)) :
    runMeets step P s is ∧ ∀ t, runSteps step s is = .ok t → runMeets step P t js := by
  induction is generalizing s with
  | nil =>
    refine ⟨trivial, fun t ht => ?_⟩
    obtain rfl : s = t := by simpa using ht
    exact h
  | cons i is ih =>
    refine ⟨⟨h.1, fun s' hs' => (ih (h.2 s' hs')).1⟩, fun t ht => ?_⟩
    obtain ⟨s', hs', ht⟩ := runSteps_cons.mp ht
    exact (ih (h.2 s' hs')).2 t ht

/-- Invariants of runs all of whose steps meet a condition. -/
theorem runSteps_inv_of_meets {step : σ → ι → Result σ} {P : σ → ι → Prop} {Inv : σ → Prop}
    (hstep : ∀ {s s' i}, Inv s → P s i → step s i = .ok s' → Inv s')
    {s t : σ} (hs : Inv s) {is : List ι} (hP : runMeets step P s is)
    (h : runSteps step s is = .ok t) : Inv t := by
  induction is generalizing s with
  | nil =>
    simp only [runSteps_nil, Except.ok.injEq] at h
    exact h ▸ hs
  | cons i is ih =>
    obtain ⟨s', h₁, h₂⟩ := runSteps_cons.mp h
    exact ih (hstep hs hP.1 h₁) (hP.2 s' h₁) h₂

theorem runMeets_of_forall {step : σ → ι → Result σ} {P : σ → ι → Prop} (h : ∀ s i, P s i) (s : σ)
    (is : List ι) : runMeets step P s is := by
  induction is generalizing s with
  | nil => trivial
  | cons i is ih => exact ⟨h s i, fun s' _ => ih s'⟩

/-- A condition on the operations alone. -/
theorem runMeets_of_mem {step : σ → ι → Result σ} {P : ι → Prop} {is : List ι} (h : ∀ i ∈ is, P i) (s : σ) :
    runMeets step (fun _ => P) s is := by
  induction is generalizing s with
  | nil => trivial
  | cons i is ih =>
    exact ⟨h i List.mem_cons_self, fun s' _ => ih (fun j hj => h j (List.mem_cons_of_mem _ hj)) s'⟩

/-- **Simulation**: if every step that meets the condition returns and is matched by an
abstract step, so does every run. -/
theorem runSteps_sim {τ : Type} {step : σ → ι → Result σ} {P : σ → ι → Prop} {astep : τ → ι → τ}
    {R : σ → τ → Prop}
    (hstep : ∀ s a i, R s a → P s i → ∃ s', step s i = .ok s' ∧ R s' (astep a i))
    {s : σ} {a : τ} (hs : R s a) {is : List ι} (hP : runMeets step P s is) :
    ∃ s', runSteps step s is = .ok s' ∧ R s' (is.foldl astep a) := by
  induction is generalizing s a with
  | nil => exact ⟨s, rfl, hs⟩
  | cons i is ih =>
    obtain ⟨s', h₁, hR⟩ := hstep s a i hs hP.1
    obtain ⟨t, h₂, ht⟩ := ih hR (hP.2 s' h₁)
    exact ⟨t, runSteps_cons.mpr ⟨s', h₁, h₂⟩, ht⟩

theorem runMeets_and {step : σ → ι → Result σ} {P Q : σ → ι → Prop} {s : σ} {is : List ι} (hP : runMeets step P s is)
    (hQ : runMeets step Q s is) : runMeets step (fun s i => P s i ∧ Q s i) s is := by
  induction is generalizing s with
  | nil => trivial
  | cons i is ih => exact ⟨⟨hP.1, hQ.1⟩, fun s' h => ih (hP.2 s' h) (hQ.2 s' h)⟩

/-- **Runs that return**: if a step returns exactly when it meets a condition, a run returns
exactly when all its steps meet it. The steps may be known to be admissible in the first place. -/
theorem runSteps_iff_meets {step : σ → ι → Result σ} {A P : σ → ι → Prop} (Inv : σ → Prop)
    (hok : ∀ s i, Inv s → A s i → P s i → ∃ s', step s i = .ok s' ∧ Inv s')
    (hfail : ∀ s i, Inv s → A s i → ¬ P s i → ∃ e, step s i = .error e)
    {s : σ} (hs : Inv s) {is : List ι} (hA : runMeets step A s is) :
    (∃ t, runSteps step s is = .ok t) ↔ runMeets step P s is := by
  induction is generalizing s with
  | nil => exact iff_of_true ⟨s, rfl⟩ trivial
  | cons i is ih =>
    by_cases hP : P s i
    · obtain ⟨s', hstep, hs'⟩ := hok s i hs hA.1 hP
      have hrest := ih hs' (hA.2 s' hstep)
      constructor
      · rintro ⟨t, hrun⟩
        obtain ⟨s₁, hstep₁, hrun⟩ := runSteps_cons.mp hrun
        obtain rfl := Except.ok.inj (hstep.symm.trans hstep₁)
        refine ⟨hP, fun s₂ hstep₂ => ?_⟩
        obtain rfl := Except.ok.inj (hstep.symm.trans hstep₂)
        exact hrest.mp ⟨t, hrun⟩
      · intro hmeets
        obtain ⟨t, hrun⟩ := hrest.mpr (hmeets.2 s' hstep)
        exact ⟨t, runSteps_cons.mpr ⟨s', hstep, hrun⟩⟩
    · obtain ⟨e, hstep⟩ := hfail s i hs hA.1 hP
      refine iff_of_false ?_ fun hmeets => hP hmeets.1
      rintro ⟨t, hrun⟩
      obtain ⟨s₁, hstep₁, -⟩ := runSteps_cons.mp hrun
      cases hstep.symm.trans hstep₁

end Runs

end Valgrind
