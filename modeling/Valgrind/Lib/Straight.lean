import Valgrind.Basics.Result

/-!
# Straight-line code with exits

A block is a list of instructions that run one after the other; an instruction
may leave the block early. This module is about any such language: `run`
executes a list, `scan` and `scanBack` are the two shapes an in-place pass over a
block has (forwards or backwards, one instruction in, one instruction out, some
environment carried along), and the simulation rules say how to compare the block
before such a pass with the block after it, one instruction at a time.
-/

namespace Valgrind.Straight

variable {σ τ ι κ ε E : Type}

/-- Run a list of instructions until it ends or one of them exits. -/
def run (step : σ → ι → σ × Option ε) : σ → List ι → σ × Option ε
  | s, [] => (s, none)
  | s, i :: is =>
    match step s i with
    | (s', some x) => (s', some x)
    | (s', none) => run step s' is

section Run

variable {step : σ → ι → σ × Option ε} {s s' : σ} {i : ι} {is js : List ι} {x : ε}

@[simp] theorem run_nil : run step s [] = (s, none) := rfl

theorem run_cons : run step s (i :: is) =
    match step s i with
    | (s', some x) => (s', some x)
    | (s', none) => run step s' is := rfl

theorem run_cons_of_exit (h : step s i = (s', some x)) :
    run step s (i :: is) = (s', some x) := by
  simp [run, h]

theorem run_cons_of_next (h : step s i = (s', none)) :
    run step s (i :: is) = run step s' is := by
  simp [run, h]

theorem run_singleton : run step s [i] = step s i := by
  rcases h : step s i with ⟨s', _ | x⟩
  · exact run_cons_of_next h
  · exact run_cons_of_exit h

theorem run_append : run step s (is ++ js) =
    match run step s is with
    | (s', some x) => (s', some x)
    | (s', none) => run step s' js := by
  induction is generalizing s with
  | nil => rfl
  | cons i is ih =>
    rcases h : step s i with ⟨s', _ | x⟩
    · rw [List.cons_append, run_cons_of_next h, run_cons_of_next h, ih]
    · rw [List.cons_append, run_cons_of_exit h, run_cons_of_exit h]

theorem run_append_of_exit (h : run step s is = (s', some x)) :
    run step s (is ++ js) = (s', some x) := by
  rw [run_append, h]

theorem run_append_of_next (h : run step s is = (s', none)) :
    run step s (is ++ js) = run step s' js := by
  rw [run_append, h]

/-- What holds initially and is kept by every instruction holds where the block is left. -/
theorem run_inv {Inv : σ → Prop} (hstep : ∀ {s i}, i ∈ is → Inv s → Inv (step s i).1) (hs : Inv s) :
    Inv (run step s is).1 := by
  induction is generalizing s with
  | nil => exact hs
  | cons i is ih =>
    have hi : Inv (step s i).1 := hstep List.mem_cons_self hs
    rcases h : step s i with ⟨s', _ | x⟩
    · rw [run_cons_of_next h]
      rw [h] at hi
      exact ih (fun hj => hstep (List.mem_cons_of_mem _ hj)) hi
    · rw [run_cons_of_exit h]
      rwa [h] at hi

end Run

theorem drop_of_getElem? {i : ι} {is : List ι} {n : Nat} (h : is[n]? = some i) : is.drop n = i :: is.drop (n + 1) := by
  obtain ⟨hn, rfl⟩ := List.getElem?_eq_some_iff.mp h
  exact List.drop_eq_getElem_cons hn

/-! ## Comparing two runs -/

/-- Two outcomes agree: both leave the block through the same exit in states
related by `Q`, or both go on in states related by `R`. -/
def Agree (R Q : σ → τ → Prop) (a : σ × Option ε) (b : τ × Option ε) : Prop :=
  a.2 = b.2 ∧ (a.2 = none → R a.1 b.1) ∧ (a.2 ≠ none → Q a.1 b.1)

theorem Agree.next {R Q : σ → τ → Prop} {s : σ} {t : τ} (h : R s t) :
    Agree R Q (s, (none : Option ε)) (t, none) :=
  ⟨rfl, fun _ => h, fun hne => absurd rfl hne⟩

theorem Agree.exit {R Q : σ → τ → Prop} {s : σ} {t : τ} {x : ε} (h : Q s t) :
    Agree R Q (s, some x) (t, some x) :=
  ⟨rfl, fun hn => absurd hn (by simp), fun _ => h⟩

theorem Agree.mono {R R' Q Q' : σ → τ → Prop} {a : σ × Option ε} {b : τ × Option ε}
    (h : Agree R Q a b) (hR : ∀ s t, R s t → R' s t) (hQ : ∀ s t, Q s t → Q' s t) :
    Agree R' Q' a b :=
  ⟨h.1, fun hn => hR _ _ (h.2.1 hn), fun hn => hQ _ _ (h.2.2 hn)⟩

theorem Agree.eq {R Q : σ → σ → Prop} {a b : σ × Option ε} (h : Agree R Q a b)
    (hR : ∀ s t, R s t → s = t) (hQ : ∀ s t, Q s t → s = t) : a = b := by
  obtain ⟨s, x⟩ := a
  obtain ⟨t, y⟩ := b
  obtain ⟨rfl, hn, hx⟩ := h
  cases x with
  | none => rw [hR s t (hn rfl)]
  | some x => rw [hQ s t (hx (by simp))]

/-- One more instruction on both sides. -/
theorem Agree.cons {R R' Q : σ → τ → Prop} {step₁ : σ → ι → σ × Option ε}
    {step₂ : τ → κ → τ × Option ε} {s : σ} {t : τ} {i : ι} {j : κ} {is : List ι} {js : List κ}
    (h : Agree R Q (step₁ s i) (step₂ t j))
    (hrest : ∀ s' t', R s' t' → Agree R' Q (run step₁ s' is) (run step₂ t' js)) :
    Agree R' Q (run step₁ s (i :: is)) (run step₂ t (j :: js)) := by
  rcases h₁ : step₁ s i with ⟨s', x⟩
  rcases h₂ : step₂ t j with ⟨t', y⟩
  rw [h₁, h₂] at h
  obtain ⟨rfl, hR, hQ⟩ := h
  cases x with
  | none =>
    rw [run_cons_of_next h₁, run_cons_of_next h₂]
    exact hrest s' t' (hR rfl)
  | some x =>
    rw [run_cons_of_exit h₁, run_cons_of_exit h₂]
    exact .exit (hQ (by simp))

/-- More instructions on both sides, not the same number of them. -/
theorem Agree.append {R R' Q : σ → τ → Prop} {step₁ : σ → ι → σ × Option ε}
    {step₂ : τ → κ → τ × Option ε} {s : σ} {t : τ} {is is' : List ι} {js js' : List κ}
    (h : Agree R Q (run step₁ s is) (run step₂ t js))
    (hrest : ∀ s' t', R s' t' → Agree R' Q (run step₁ s' is') (run step₂ t' js')) :
    Agree R' Q (run step₁ s (is ++ is')) (run step₂ t (js ++ js')) := by
  rcases h₁ : run step₁ s is with ⟨s', x⟩
  rcases h₂ : run step₂ t js with ⟨t', y⟩
  rw [h₁, h₂] at h
  obtain ⟨rfl, hR, hQ⟩ := h
  cases x with
  | none =>
    rw [run_append_of_next h₁, run_append_of_next h₂]
    exact hrest s' t' (hR rfl)
  | some x =>
    rw [run_append_of_exit h₁, run_append_of_exit h₂]
    exact .exit (hQ (by simp))

/-! ## Passes -/

/-- A forward pass: each instruction is rewritten in the environment that the
instructions before it have built. -/
def scan (f : E → ι → Result (κ × E)) : E → List ι → Result (List κ × E)
  | e, [] => .ok ([], e)
  | e, i :: is => do
    let (j, e') ← f e i
    let (js, e'') ← scan f e' is
    return (j :: js, e'')

/-- A backward pass: each instruction is rewritten in the environment that the
instructions after it have built. -/
def scanBack (f : ι → E → Result (κ × E)) : List ι → E → Result (List κ × E)
  | [], e => .ok ([], e)
  | i :: is, e => do
    let (js, e') ← scanBack f is e
    let (j, e'') ← f i e'
    return (j :: js, e'')

theorem scan_cons {f : E → ι → Result (κ × E)} {e e'' : E} {i : ι} {is : List ι} {l : List κ} :
    scan f e (i :: is) = .ok (l, e'') ↔
      ∃ j e' js, f e i = .ok (j, e') ∧ scan f e' is = .ok (js, e'') ∧ l = j :: js := by
  rw [scan, bind_eq_ok]
  constructor
  · rintro ⟨⟨j, e'⟩, hj, h⟩
    obtain ⟨⟨js, e₂⟩, hjs, h⟩ := bind_eq_ok.mp h
    cases h
    exact ⟨j, e', js, hj, hjs, rfl⟩
  · rintro ⟨j, e', js, hj, hjs, rfl⟩
    exact ⟨(j, e'), hj, bind_eq_ok.mpr ⟨(js, e''), hjs, rfl⟩⟩

theorem scanBack_cons {f : ι → E → Result (κ × E)} {e e'' : E} {i : ι} {is : List ι}
    {l : List κ} :
    scanBack f (i :: is) e = .ok (l, e'') ↔
      ∃ js e' j, scanBack f is e = .ok (js, e') ∧ f i e' = .ok (j, e'') ∧ l = j :: js := by
  rw [scanBack, bind_eq_ok]
  constructor
  · rintro ⟨⟨js, e'⟩, hjs, h⟩
    obtain ⟨⟨j, e₂⟩, hj, h⟩ := bind_eq_ok.mp h
    cases h
    exact ⟨js, e', j, hjs, hj, rfl⟩
  · rintro ⟨js, e', j, hjs, hj, rfl⟩
    exact ⟨(js, e'), hjs, bind_eq_ok.mpr ⟨(j, e''), hj, rfl⟩⟩

/-- A forward pass returns if it returns on every instruction. -/
theorem scan_returns {f : E → ι → Result (κ × E)} {P : E → Prop} {is : List ι}
    (hstep : ∀ e i, i ∈ is → P e → ∃ j e', f e i = .ok (j, e') ∧ P e') {e : E} (he : P e) :
    ∃ js e', scan f e is = .ok (js, e') := by
  induction is generalizing e with
  | nil => exact ⟨[], e, rfl⟩
  | cons i is ih =>
    obtain ⟨j, e', hj, he'⟩ := hstep e i List.mem_cons_self he
    obtain ⟨js, e'', hjs⟩ := ih (fun e i hi => hstep e i (List.mem_cons_of_mem _ hi)) he'
    exact ⟨j :: js, e'', scan_cons.mpr ⟨j, e', js, hj, hjs, rfl⟩⟩

/-- A backward pass returns if it returns on every instruction. -/
theorem scanBack_returns {f : ι → E → Result (κ × E)} {P : E → Prop} {is : List ι}
    (hstep : ∀ e i, i ∈ is → P e → ∃ j e', f i e = .ok (j, e') ∧ P e') {e : E} (he : P e) :
    ∃ js e', scanBack f is e = .ok (js, e') ∧ P e' := by
  induction is with
  | nil => exact ⟨[], e, rfl, he⟩
  | cons i is ih =>
    obtain ⟨js, e', hjs, he'⟩ := ih (fun e i hi => hstep e i (List.mem_cons_of_mem _ hi))
    obtain ⟨j, e'', hj, he''⟩ := hstep e' i List.mem_cons_self he'
    exact ⟨j :: js, e'', scanBack_cons.mpr ⟨js, e', j, hjs, hj, rfl⟩, he''⟩

theorem scan_length {f : E → ι → Result (κ × E)} {e e' : E} {is : List ι} {js : List κ}
    (h : scan f e is = .ok (js, e')) : js.length = is.length := by
  induction is generalizing e js with
  | nil =>
    obtain ⟨rfl, rfl⟩ : [] = js ∧ e = e' := by simpa [scan] using h
    rfl
  | cons i is ih =>
    obtain ⟨j, e₁, js, hj, hjs, rfl⟩ := scan_cons.mp h
    simp [ih hjs]

/-- A forward pass rewrites the first instructions whatever comes after them. -/
theorem scan_take {f : E → ι → Result (κ × E)} {e e' : E} {is : List ι} {js : List κ}
    (h : scan f e is = .ok (js, e')) (n : Nat) :
    ∃ e₁, scan f e (is.take n) = .ok (js.take n, e₁) := by
  induction is generalizing e js n with
  | nil =>
    obtain ⟨rfl, rfl⟩ : [] = js ∧ e = e' := by simpa [scan] using h
    exact ⟨e, by simp [scan]⟩
  | cons i is ih =>
    obtain ⟨j, e₁, js, hj, hjs, rfl⟩ := scan_cons.mp h
    cases n with
    | zero => exact ⟨e, rfl⟩
    | succ n =>
      obtain ⟨e₂, h₂⟩ := ih hjs n
      exact ⟨e₂, scan_cons.mpr ⟨j, e₁, js.take n, hj, h₂, rfl⟩⟩

/-- Each instruction that a forward pass leaves is what one instruction has become. -/
theorem scan_getElem? {f : E → ι → Result (κ × E)} {e e' : E} {is : List ι} {js : List κ}
    (h : scan f e is = .ok (js, e')) {n : Nat} {i : ι} (hi : is[n]? = some i) :
    ∃ e₁ j e₂, f e₁ i = .ok (j, e₂) ∧ js[n]? = some j := by
  induction is generalizing e js n with
  | nil => exact nomatch hi
  | cons i' is ih =>
    obtain ⟨j, e₁, js, hj, hjs, rfl⟩ := scan_cons.mp h
    cases n with
    | zero =>
      cases hi
      exact ⟨e, j, e₁, hj, rfl⟩
    | succ n => exact ih hjs hi

/-- What holds of every instruction that a forward pass may leave. -/
theorem scan_forall {f : E → ι → Result (κ × E)} {P : κ → Prop} {e e' : E} {is : List ι}
    {js : List κ} (hstep : ∀ e i j e', i ∈ is → f e i = .ok (j, e') → P j)
    (h : scan f e is = .ok (js, e')) : ∀ j ∈ js, P j := by
  induction is generalizing e js with
  | nil =>
    obtain ⟨rfl, -⟩ : [] = js ∧ e = e' := by simpa [scan] using h
    simp
  | cons i is ih =>
    obtain ⟨j, e₁, js, hj, hjs, rfl⟩ := scan_cons.mp h
    exact List.forall_mem_cons.mpr ⟨hstep e i j e₁ List.mem_cons_self hj,
      ih (fun e i j e' hi => hstep e i j e' (List.mem_cons_of_mem _ hi)) hjs⟩

/-- A backward pass rewrites the last instructions first, whatever comes before them. -/
theorem scanBack_split {f : ι → E → Result (κ × E)} {e e' : E} {is : List ι} {js : List κ}
    (h : scanBack f is e = .ok (js, e')) (n : Nat) :
    ∃ e₁, scanBack f (is.drop n) e = .ok (js.drop n, e₁) ∧
      scanBack f (is.take n) e₁ = .ok (js.take n, e') := by
  induction is generalizing e' js n with
  | nil =>
    obtain ⟨rfl, rfl⟩ : [] = js ∧ e = e' := by simpa [scanBack] using h
    exact ⟨e, by simp [scanBack], by simp [scanBack]⟩
  | cons i is ih =>
    cases n with
    | zero => exact ⟨e', h, rfl⟩
    | succ n =>
      obtain ⟨js, e₁, j, hjs, hj, rfl⟩ := scanBack_cons.mp h
      obtain ⟨e₂, hdrop, htake⟩ := ih hjs n
      exact ⟨e₂, hdrop, scanBack_cons.mpr ⟨js.take n, e₁, j, htake, hj, rfl⟩⟩

/-- **Forward simulation**: if each rewriting step keeps the two states related, so
does the pass. The relation also sees the environment and the instructions to come. -/
theorem scan_sim {f : E → ι → Result (κ × E)} (R : E → List ι → σ → τ → Prop) (Q : σ → τ → Prop)
    {step₁ : σ → ι → σ × Option ε} {step₂ : τ → κ → τ × Option ε}
    (hstep : ∀ {e i is s t j e'}, R e (i :: is) s t → f e i = .ok (j, e') →
      Agree (R e' is) Q (step₁ s i) (step₂ t j))
    {e e' : E} {is rest : List ι} {js : List κ} {s : σ} {t : τ} (hR : R e (is ++ rest) s t)
    (h : scan f e is = .ok (js, e')) :
    Agree (R e' rest) Q (run step₁ s is) (run step₂ t js) := by
  induction is generalizing e js s t with
  | nil =>
    obtain ⟨rfl, rfl⟩ : [] = js ∧ e = e' := by simpa [scan] using h
    exact .next hR
  | cons i is ih =>
    obtain ⟨j, e₁, js, hj, hjs, rfl⟩ := scan_cons.mp h
    exact (hstep hR hj).cons fun s' t' hR' => ih hR' hjs

/-- **Backward simulation**: the relation before an instruction is the one for the
environment that the pass has built when it gets there. `Inv` is what the pass keeps
about its environment. -/
theorem scanBack_sim {f : ι → E → Result (κ × E)} (Inv : E → Prop) (R : E → σ → τ → Prop)
    (Q : σ → τ → Prop) {step₁ : σ → ι → σ × Option ε} {step₂ : τ → κ → τ × Option ε} {is : List ι}
    (hinv : ∀ {e i j e'}, i ∈ is → Inv e → f i e = .ok (j, e') → Inv e')
    (hstep : ∀ {e i s t j e'}, i ∈ is → Inv e → R e' s t → f i e = .ok (j, e') →
      Agree (R e) Q (step₁ s i) (step₂ t j))
    {e e' : E} {js : List κ} (h : scanBack f is e = .ok (js, e')) (he : Inv e) :
    Inv e' ∧ ∀ s t, R e' s t → Agree (R e) Q (run step₁ s is) (run step₂ t js) := by
  induction is generalizing e' js with
  | nil =>
    obtain ⟨rfl, rfl⟩ : [] = js ∧ e = e' := by simpa [scanBack] using h
    exact ⟨he, fun s t hR => .next hR⟩
  | cons i is ih =>
    obtain ⟨js, e₁, j, hjs, hj, rfl⟩ := scanBack_cons.mp h
    obtain ⟨he₁, hrun⟩ := ih (fun hm => hinv (List.mem_cons_of_mem _ hm))
      (fun hm => hstep (List.mem_cons_of_mem _ hm)) hjs
    exact ⟨hinv List.mem_cons_self he₁ hj, fun s t hR =>
      (hstep List.mem_cons_self he₁ hR hj).cons fun s' t' hR' => hrun s' t' hR'⟩

end Valgrind.Straight
