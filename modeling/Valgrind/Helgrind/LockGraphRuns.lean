import Valgrind.Helgrind.LockGraph
import Valgrind.Helgrind.WordSetSets
import Valgrind.Lib.Reach

/-!
# Runs of the lock order graph

`Graph lg R` says that the sets of the nodes are the edges of a relation `R`, seen from both
ends. Each function changes `R` in a way that is easy to state: acquiring a lock adds edges,
and deleting one is `Reach.Bypass`.

A lock that is deleted can come back at the same address. `History` tells its lives apart and
never forgets an edge; the graph has the same reachability among living locks
(`Reach.Follows`).
-/

namespace Valgrind

namespace Helgrind

open Relation Reach

section

variable {ε : Type} {lg lg' : Laog ε} {R F B F' B' : Nat → Nat → Prop} {src dst lk : Nat}
  {locks : Nat → Lock ε} {univLsets : WordSetU}

/-! ## The relation of a graph -/

/-- The sets of successors are those of `F`, the sets of predecessors those of `B`. -/
structure Links (lg : Laog ε) (F B : Nat → Nat → Prop) : Prop where
  inv : lg.univLaog.Inv
  sets : ∀ l links, lg.laog l = some links → ∃ I O, lg.univLaog.den links.inns = some I ∧
    lg.univLaog.den links.outs = some O ∧ (∀ a, a ∈ I ↔ B a l) ∧ (∀ b, b ∈ O ↔ F l b)
  out : ∀ a b, lg.laog a = none → ¬ F a b
  inn : ∀ a b, lg.laog b = none → ¬ B a b

/-- The graph has the edges of `R`, none of them from a node to itself. -/
structure Graph (lg : Laog ε) (R : Nat → Nat → Prop) : Prop extends Links lg R R where
  irrefl : ∀ a, ¬ R a a

/-- A call that leaves the edges of `R`. -/
structure Leaves (lg lg' : Laog ε) (R : Nat → Nat → Prop) : Prop where
  graph : Graph lg' R
  errors : lg'.errors = lg.errors
  grows : lg.univLaog.ix2vec <+: lg'.univLaog.ix2vec

theorem Links.congr (h : Links lg F B) (hF : ∀ a b, F' a b ↔ F a b) (hB : ∀ a b, B' a b ↔ B a b) :
    Links lg F' B' := by
  rwa [show F' = F from funext₂ fun a b => propext (hF a b),
    show B' = B from funext₂ fun a b => propext (hB a b)]

theorem Leaves.congr (h : Leaves lg lg' R) (hF : ∀ a b, F a b ↔ R a b) : Leaves lg lg' F := by
  rwa [show F = R from funext₂ fun a b => propext (hF a b)]

theorem Graph.leaves (h : Graph lg R) : Leaves lg lg R := ⟨h, rfl, List.prefix_rfl⟩

theorem Leaves.trans {lg'' : Laog ε} (h₁ : Leaves lg lg' R) (h₂ : Leaves lg' lg'' F) : Leaves lg lg'' F :=
  ⟨h₂.graph, h₂.errors.trans h₁.errors, h₁.grows.trans h₂.grows⟩

theorem Links.mem_succs (h : Links lg F B) (l : Nat) :
    ∃ O, lg.univLaog.den (laogSuccs lg l) = some O ∧ ∀ b, b ∈ O ↔ F l b := by
  unfold laogSuccs
  cases hl : lg.laog l with
  | none => exact ⟨∅, h.inv.den_empty, fun b => by simp [h.out l b hl]⟩
  | some links =>
    obtain ⟨-, O, -, hO, -, hF⟩ := h.sets l links hl
    exact ⟨O, hO, hF⟩

theorem Links.mem_preds (h : Links lg F B) (l : Nat) :
    ∃ I, lg.univLaog.den (laogPreds lg l) = some I ∧ ∀ a, a ∈ I ↔ B a l := by
  unfold laogPreds
  cases hl : lg.laog l with
  | none => exact ⟨∅, h.inv.den_empty, fun a => by simp [h.inn a l hl]⟩
  | some links =>
    obtain ⟨I, -, hI, -, hB, -⟩ := h.sets l links hl
    exact ⟨I, hI, hB⟩

theorem getPayloadWS_den {wsu : WordSetU} {ws : WordSet} {S : Finset Nat} (h : wsu.den ws = some S) :
    ∃ words, getPayloadWS wsu ws = .ok words ∧ wsu.ix2vec[ws]? = some words ∧ ∀ w, w ∈ words ↔ w ∈ S := by
  obtain ⟨u, hu, rfl⟩ := exists_of_den h
  exact ⟨u, doIx2vec_eq hu, hu, fun w => List.mem_toFinset.symm⟩

/-- A node gets new sets. -/
theorem Links.update (h : Links lg F B) {univ : WordSetU} {x : Nat} {links : LAOGLinks} {I O : Finset Nat}
    (hinv : univ.Inv) (hgrows : lg.univLaog.ix2vec <+: univ.ix2vec) (hI : univ.den links.inns = some I)
    (hO : univ.den links.outs = some O) (hF : ∀ a b, F' a b ↔ if a = x then b ∈ O else F a b)
    (hB : ∀ a b, B' a b ↔ if b = x then a ∈ I else B a b) :
    Links { lg with univLaog := univ, laog := Function.update lg.laog x (some links) } F' B' := by
  refine ⟨hinv, fun l links' hl => ?_, fun a b ha => ?_, fun a b hb => ?_⟩
  · dsimp only at hl ⊢
    by_cases hlx : l = x
    · subst hlx
      rw [Function.update_self] at hl
      obtain rfl := Option.some.inj hl
      exact ⟨I, O, hI, hO, fun a => by simp [hB], fun b => by simp [hF]⟩
    · rw [Function.update_of_ne hlx] at hl
      obtain ⟨I', O', hI', hO', hB', hF'⟩ := h.sets l links' hl
      exact ⟨I', O', den_grows hgrows hI', den_grows hgrows hO', fun a => by simp [hB, hlx, hB'],
        fun b => by simp [hF, hlx, hF']⟩
  · dsimp only at ha
    by_cases hax : a = x
    · subst hax
      simp at ha
    · rw [Function.update_of_ne hax] at ha
      simpa [hF, hax] using h.out a b ha
  · dsimp only at hb
    by_cases hbx : b = x
    · subst hbx
      simp at hb
    · rw [Function.update_of_ne hbx] at hb
      simpa [hB, hbx] using h.inn a b hb

/-! ## Adding an edge -/

theorem laogAddOut_spec (h : Links lg F B) (src dst : Nat) : ∃ lg' presentF,
    laogAddOut lg src dst = .ok (lg', presentF) ∧ Links lg' (fun a b => F a b ∨ a = src ∧ b = dst) B ∧
    (presentF = true ↔ F src dst) ∧ lg'.errors = lg.errors ∧ lg.univLaog.ix2vec <+: lg'.univLaog.ix2vec := by
  rw [laogAddOut]
  cases hl : lg.laog src with
  | some links =>
    obtain ⟨I, O, hI, hO, hB, hF⟩ := h.sets src links hl
    obtain ⟨univ, outs, hrun, hinv, hgrows, hden⟩ := addToWS_returns h.inv hO dst
    dsimp only
    rw [hrun, ok_bind]
    refine ⟨_, _, rfl, h.update hinv hgrows (den_grows hgrows hI) hden (fun a b => ?_) (fun a b => ?_), ?_, rfl, hgrows⟩
    · by_cases ha : a = src
      · subst ha
        simp [hF, or_comm]
      · simp [ha]
    · by_cases hb : b = src
      · subst hb
        simp [hB]
      · simp [hb]
    · rw [decide_eq_true_iff, ← hF]
      constructor
      · intro he
        have hsame := den_grows hgrows hO
        rw [← he, hden] at hsame
        exact Finset.insert_eq_self.mp (Option.some.inj hsame)
      · intro hmem
        rw [Finset.insert_eq_self.mpr hmem] at hden
        exact hinv.den_inj hden (den_grows hgrows hO)
  | none =>
    obtain ⟨univ, outs, hrun, hinv, hgrows, hden⟩ := doubletonWS_returns h.inv dst dst
    dsimp only
    rw [singletonWS, hrun, ok_bind]
    have hempty : univ.den (emptyWS lg.univLaog) = some ∅ := den_grows hgrows h.inv.den_empty
    refine ⟨_, _, rfl, h.update hinv hgrows hempty hden (fun a b => ?_) (fun a b => ?_), ?_, rfl, hgrows⟩
    · by_cases ha : a = src
      · subst ha
        simp [h.out a b hl]
      · simp [ha]
    · by_cases hb : b = src
      · subst hb
        simp [h.inn a b hl]
      · simp [hb]
    · simp [h.out src dst hl]

theorem laogAddInn_spec (h : Links lg F B) (src dst : Nat) : ∃ lg' presentR,
    laogAddInn lg src dst = .ok (lg', presentR) ∧ Links lg' F (fun a b => B a b ∨ a = src ∧ b = dst) ∧
    (presentR = true ↔ B src dst) ∧ lg'.errors = lg.errors ∧ lg.univLaog.ix2vec <+: lg'.univLaog.ix2vec := by
  rw [laogAddInn]
  cases hl : lg.laog dst with
  | some links =>
    obtain ⟨I, O, hI, hO, hB, hF⟩ := h.sets dst links hl
    obtain ⟨univ, inns, hrun, hinv, hgrows, hden⟩ := addToWS_returns h.inv hI src
    dsimp only
    rw [hrun, ok_bind]
    refine ⟨_, _, rfl, h.update hinv hgrows hden (den_grows hgrows hO) (fun a b => ?_) (fun a b => ?_), ?_, rfl, hgrows⟩
    · by_cases ha : a = dst
      · subst ha
        simp [hF]
      · simp [ha]
    · by_cases hb : b = dst
      · subst hb
        simp [hB, or_comm]
      · simp [hb]
    · rw [decide_eq_true_iff, ← hB]
      constructor
      · intro he
        have hsame := den_grows hgrows hI
        rw [← he, hden] at hsame
        exact Finset.insert_eq_self.mp (Option.some.inj hsame)
      · intro hmem
        rw [Finset.insert_eq_self.mpr hmem] at hden
        exact hinv.den_inj hden (den_grows hgrows hI)
  | none =>
    obtain ⟨univ, inns, hrun, hinv, hgrows, hden⟩ := doubletonWS_returns h.inv src src
    dsimp only
    rw [singletonWS, hrun, ok_bind]
    refine ⟨_, _, rfl, h.update hinv hgrows hden hinv.den_empty (fun a b => ?_) (fun a b => ?_), ?_, rfl, hgrows⟩
    · by_cases ha : a = dst
      · subst ha
        simp [h.out a b hl]
      · simp [ha]
    · by_cases hb : b = dst
      · subst hb
        simp [h.inn a b hl]
      · simp [hb]
    · simp [h.inn src dst hl]

/-- Exposition only. -/
theorem laogExpose_leaves (h : Graph lg R) (locks : Nat → Lock ε) (src dst : Nat) :
    Leaves lg (laogExpose locks lg src dst) R := by
  unfold laogExpose
  split
  · dsimp only
    split
    · exact h.leaves
    · exact ⟨⟨⟨h.inv, h.sets, h.out, h.inn⟩, h.irrefl⟩, rfl, List.prefix_rfl⟩
  · exact h.leaves

/-- Both nodes agree on whether the edge is new. -/
theorem laogAddEdge_spec (h : Graph lg R) (locks : Nat → Lock ε) (hne : src ≠ dst) :
    ∃ lg', laogAddEdge locks lg src dst = .ok lg' ∧ Leaves lg lg' fun a b => R a b ∨ a = src ∧ b = dst := by
  obtain ⟨lg₁, presentF, hout, h₁, hF, herr₁, hgrows₁⟩ := laogAddOut_spec h.toLinks src dst
  obtain ⟨lg₂, presentR, hinn, h₂, hR, herr₂, hgrows₂⟩ := laogAddInn_spec h₁ src dst
  have hagree : (presentF = true ∧ presentR = true) ∨ (presentF = false ∧ presentR = false) := by
    have hiff := hF.trans hR.symm
    cases presentF <;> cases presentR <;> simp_all
  have hg₂ : Graph lg₂ fun a b => R a b ∨ a = src ∧ b = dst := by
    refine ⟨h₂, fun a ha => ?_⟩
    rcases ha with ha | ⟨rfl, rfl⟩
    · exact h.irrefl a ha
    · exact hne rfl
  have hleaves : Leaves lg lg₂ fun a b => R a b ∨ a = src ∧ b = dst :=
    ⟨hg₂, herr₂.trans herr₁, hgrows₁.trans hgrows₂⟩
  rw [laogAddEdge, hout, ok_bind]
  dsimp only
  rw [hinn, ok_bind]
  dsimp only
  rw [assertThat_of hagree, ok_bind]
  refine ⟨_, rfl, ?_⟩
  split
  · exact hleaves
  · exact hleaves.trans (laogExpose_leaves hg₂ locks src dst)

/-! ## Deleting an edge -/

theorem laogDelOut_spec (h : Links lg F B) (src dst : Nat) : ∃ lg', laogDelOut lg src dst = .ok lg' ∧
    Links lg' (fun a b => F a b ∧ ¬ (a = src ∧ b = dst)) B ∧ lg'.errors = lg.errors ∧
    lg.univLaog.ix2vec <+: lg'.univLaog.ix2vec := by
  rw [laogDelOut]
  cases hl : lg.laog src with
  | some links =>
    obtain ⟨I, O, hI, hO, hB, hF⟩ := h.sets src links hl
    obtain ⟨univ, outs, hrun, hinv, hgrows, hden⟩ := delFromWS_returns h.inv hO dst
    dsimp only
    rw [hrun, ok_bind]
    refine ⟨_, rfl, h.update hinv hgrows (den_grows hgrows hI) hden (fun a b => ?_) (fun a b => ?_), rfl, hgrows⟩
    · by_cases ha : a = src
      · subst ha
        simp [hF, and_comm]
      · simp [ha]
    · by_cases hb : b = src
      · subst hb
        simp [hB]
      · simp [hb]
  | none =>
    refine ⟨lg, rfl, h.congr (fun a b => ⟨And.left, fun hab => ⟨hab, ?_⟩⟩) (fun _ _ => .rfl), rfl, List.prefix_rfl⟩
    rintro ⟨rfl, -⟩
    exact h.out a b hl hab

theorem laogDelInn_spec (h : Links lg F B) (src dst : Nat) : ∃ lg', laogDelInn lg src dst = .ok lg' ∧
    Links lg' F (fun a b => B a b ∧ ¬ (a = src ∧ b = dst)) ∧ lg'.errors = lg.errors ∧
    lg.univLaog.ix2vec <+: lg'.univLaog.ix2vec := by
  rw [laogDelInn]
  cases hl : lg.laog dst with
  | some links =>
    obtain ⟨I, O, hI, hO, hB, hF⟩ := h.sets dst links hl
    obtain ⟨univ, inns, hrun, hinv, hgrows, hden⟩ := delFromWS_returns h.inv hI src
    dsimp only
    rw [hrun, ok_bind]
    refine ⟨_, rfl, h.update hinv hgrows hden (den_grows hgrows hO) (fun a b => ?_) (fun a b => ?_), rfl, hgrows⟩
    · by_cases ha : a = dst
      · subst ha
        simp [hF]
      · simp [ha]
    · by_cases hb : b = dst
      · subst hb
        simp [hB, and_comm]
      · simp [hb]
  | none =>
    refine ⟨lg, rfl, h.congr (fun _ _ => .rfl) (fun a b => ⟨And.left, fun hab => ⟨hab, ?_⟩⟩), rfl, List.prefix_rfl⟩
    rintro ⟨-, rfl⟩
    exact h.inn a b hl hab

theorem laogDelEdge_spec (h : Graph lg R) (src dst : Nat) :
    ∃ lg', laogDelEdge lg src dst = .ok lg' ∧ Leaves lg lg' fun a b => R a b ∧ ¬ (a = src ∧ b = dst) := by
  obtain ⟨lg₁, hout, h₁, herr₁, hgrows₁⟩ := laogDelOut_spec h.toLinks src dst
  obtain ⟨lg₂, hinn, h₂, herr₂, hgrows₂⟩ := laogDelInn_spec h₁ src dst
  rw [laogDelEdge, hout, ok_bind]
  exact ⟨lg₂, hinn, ⟨h₂, fun a ha => h.irrefl a ha.1⟩, herr₂.trans herr₁, hgrows₁.trans hgrows₂⟩

/-! ## Loops -/

/-- A loop that adds edges. -/
theorem foldlM_adds {step : Laog ε → Nat → Result (Laog ε)} {N : Nat → Nat → Nat → Prop} {ws : List Nat}
    (hstep : ∀ (lg : Laog ε) (R : Nat → Nat → Prop), ∀ w ∈ ws, Graph lg R →
      ∃ lg', step lg w = .ok lg' ∧ Leaves lg lg' fun a b => R a b ∨ N w a b) (h : Graph lg R) :
    ∃ lg', ws.foldlM step lg = .ok lg' ∧ Leaves lg lg' fun a b => R a b ∨ ∃ w ∈ ws, N w a b := by
  induction ws generalizing lg R with
  | nil => exact ⟨lg, rfl, h.leaves.congr fun a b => by simp⟩
  | cons w ws ih =>
    obtain ⟨lg₁, hrun₁, h₁⟩ := hstep lg R w (by simp) h
    obtain ⟨lg₂, hrun₂, h₂⟩ := ih (fun lg R v hv => hstep lg R v (by simp [hv])) h₁.graph
    rw [List.foldlM_cons, hrun₁, ok_bind]
    exact ⟨lg₂, hrun₂, (h₁.trans h₂).congr fun a b => by simp [or_assoc]⟩

/-- A loop that deletes edges. -/
theorem foldlM_deletes {step : Laog ε → Nat → Result (Laog ε)} {N : Nat → Nat → Nat → Prop} (ws : List Nat)
    (hstep : ∀ (lg : Laog ε) (R : Nat → Nat → Prop) (w : Nat), Graph lg R →
      ∃ lg', step lg w = .ok lg' ∧ Leaves lg lg' fun a b => R a b ∧ ¬ N w a b) (h : Graph lg R) :
    ∃ lg', ws.foldlM step lg = .ok lg' ∧ Leaves lg lg' fun a b => R a b ∧ ∀ w ∈ ws, ¬ N w a b := by
  induction ws generalizing lg R with
  | nil => exact ⟨lg, rfl, h.leaves.congr fun a b => by simp⟩
  | cons w ws ih =>
    obtain ⟨lg₁, hrun₁, h₁⟩ := hstep lg R w h
    obtain ⟨lg₂, hrun₂, h₂⟩ := ih h₁.graph
    rw [List.foldlM_cons, hrun₁, ok_bind]
    exact ⟨lg₂, hrun₂, (h₁.trans h₂).congr fun a b => by simp [and_assoc]⟩

/-! ## Deleting a lock -/

/-- A lock that is deleted is bypassed. -/
theorem laogHandleOneLockDeletion_spec (h : Graph lg R) (locks : Nat → Lock ε) (lk : Nat) :
    ∃ lg', laogHandleOneLockDeletion locks lg lk = .ok lg' ∧ Leaves lg lg' (Bypass R lk) := by
  obtain ⟨I, hI, hpreds⟩ := h.mem_preds lk
  obtain ⟨O, hO, hsuccs⟩ := h.mem_succs lk
  obtain ⟨preds, hpay₁, -, hmem₁⟩ := getPayloadWS_den hI
  obtain ⟨lg₁, hrun₁, h₁⟩ := foldlM_deletes preds (fun lg R p h => laogDelEdge_spec h p lk) h
  obtain ⟨succs, hpay₂, -, hmem₂⟩ := getPayloadWS_den (den_grows h₁.grows hO)
  obtain ⟨lg₂, hrun₂, h₂⟩ := foldlM_deletes succs (fun lg R s h => laogDelEdge_spec h lk s) h₁.graph
  have hinner : ∀ (lg : Laog ε) (R : Nat → Nat → Prop), ∀ p ∈ preds, Graph lg R → ∃ lg',
      succs.foldlM (fun lg s => if p ≠ s then laogAddEdge locks lg p s else return lg) lg = .ok lg' ∧
      Leaves lg lg' fun a b => R a b ∨ ∃ s ∈ succs, p ≠ s ∧ a = p ∧ b = s := by
    intro lg R p _ h
    refine foldlM_adds (N := fun s a b => p ≠ s ∧ a = p ∧ b = s) (fun lg R s _ h => ?_) h
    by_cases hps : p ≠ s
    · obtain ⟨lg', hrun, h'⟩ := laogAddEdge_spec h locks hps
      exact ⟨lg', by rw [if_pos hps, hrun], h'.congr fun a b => by simp [hps]⟩
    · exact ⟨lg, by rw [if_neg hps]; rfl, h.leaves.congr fun a b => by simp [hps]⟩
  obtain ⟨lg₃, hrun₃, h₃⟩ := foldlM_adds hinner h₂.graph
  have hpred : ∀ a, a ∈ preds ↔ R a lk := fun a => (hmem₁ a).trans (hpreds a)
  have hsucc : ∀ b, b ∈ succs ↔ R lk b := fun b => (hmem₂ b).trans (hsuccs b)
  have hirrefl := h.irrefl lk
  rw [laogHandleOneLockDeletion, hpay₁, ok_bind, hrun₁, ok_bind, hpay₂, ok_bind, hrun₂, ok_bind]
  refine ⟨lg₃, hrun₃, ((h₁.trans h₂).trans h₃).congr fun a b => ?_⟩
  simp only [Bypass, hpred, hsucc]
  constructor
  · rintro ⟨ha, hb, hab | ⟨hne, h₁, h₂⟩⟩
    · exact .inl ⟨⟨hab, fun w _ hw => hb hw.2⟩, fun w _ hw => ha hw.1⟩
    · exact .inr ⟨a, h₁, b, h₂, hne, rfl, rfl⟩
  · rintro (⟨⟨hab, h₁⟩, h₂⟩ | ⟨p, hp, s, hs, hne, rfl, rfl⟩)
    · refine ⟨fun ha => ?_, fun hb => ?_, .inl hab⟩
      · subst ha
        exact h₂ b hab ⟨rfl, rfl⟩
      · subst hb
        exact h₁ a hab ⟨rfl, rfl⟩
    · exact ⟨fun ha => hirrefl (ha ▸ hp), fun hb => hirrefl (hb ▸ hs), .inr ⟨hne, hp, hs⟩⟩

/-! ## The search -/

/-- The words of all sets of `univ_laog`. -/
def laogNodes (lg : Laog ε) : Finset Nat := lg.univLaog.ix2vec.flatten.toFinset

theorem card_laogNodes_le (lg : Laog ε) : (laogNodes lg).card ≤ laogWords lg := by
  have := List.toFinset_card_le lg.univLaog.ix2vec.flatten
  rwa [List.length_flatten] at this

/-- The successors of a node as the search gets them. -/
theorem succsWords_spec (h : Links lg F B) (here : Nat) : ∃ words,
    getPayloadWS lg.univLaog (laogSuccs lg here) = .ok words ∧ (∀ b, b ∈ words ↔ F here b) ∧
    words.length ≤ laogWords lg ∧ ∀ b ∈ words, b ∈ laogNodes lg := by
  obtain ⟨O, hO, hF⟩ := h.mem_succs here
  obtain ⟨words, hpay, hget, hmem⟩ := getPayloadWS_den hO
  have hin : words ∈ lg.univLaog.ix2vec := List.mem_of_getElem? hget
  refine ⟨words, hpay, fun b => (hmem b).trans (hF b), ?_, fun b hb => ?_⟩
  · exact List.le_sum_of_mem (List.mem_map_of_mem hin)
  · exact List.mem_toFinset.mpr (List.mem_flatten_of_mem hin hb)

/-- The search from `src`: what is on the stack can be reached, and what has been visited is not
in the set, and its successors have been visited or are on the stack. -/
structure Searching (R : Nat → Nat → Prop) (lg : Laog ε) (D : Finset Nat) (src : Nat) (stack visited : List Nat) :
    Prop where
  reached : ∀ a ∈ stack, ReflTransGen R src a
  nodes : ∀ a ∈ stack, a ∈ insert src (laogNodes lg)
  missed : ∀ a ∈ visited, a ∉ D
  closed : ∀ a ∈ visited, ∀ b, R a b → b ∈ visited ∨ b ∈ stack
  started : src ∈ visited ∨ src ∈ stack

theorem laogDfsLoop_spec (h : Graph lg R) {dsts : WordSet} {D : Finset Nat} (hD : univLsets.den dsts = some D)
    {stack visited : List Nat} {fuel : Nat} (hs : Searching R lg D src stack visited)
    (hfuel : stack.length + (laogWords lg + 1) * (insert src (laogNodes lg) \ visited.toFinset).card < fuel) :
    ∃ r, laogDfsLoop lg univLsets dsts fuel stack visited = .ok r ∧
      (∀ other, r = some other → other ∈ D ∧ ReflTransGen R src other) ∧
      (r = none → ∀ d ∈ D, ¬ ReflTransGen R src d) := by
  induction fuel generalizing stack visited with
  | zero => omega
  | succ fuel ih =>
    cases stack with
    | nil =>
      refine ⟨none, rfl, by simp, fun _ d hd hreach => ?_⟩
      have hvisited : d ∈ visited := by
        refine Reach.closed (P := fun a => a ∈ visited) (fun a b ha hab => ?_) ?_ hreach
        · simpa using hs.closed a ha b hab
        · simpa using hs.started
      exact hs.missed d hvisited hd
    | cons here stack =>
      rw [laogDfsLoop, elemWS_den hD, ok_bind]
      have hreached := hs.reached here (by simp)
      by_cases hfound : here ∈ D
      · rw [decide_eq_true hfound]
        refine ⟨some here, rfl, ?_, by simp⟩
        rintro other ⟨⟩
        exact ⟨hfound, hreached⟩
      · rw [decide_eq_false hfound, if_neg (by simp)]
        rw [List.length_cons] at hfuel
        by_cases hvisited : here ∈ visited
        · rw [if_pos hvisited]
          refine ih ⟨fun a ha => hs.reached a (by simp [ha]), fun a ha => hs.nodes a (by simp [ha]), hs.missed,
            fun a ha b hab => ?_, ?_⟩ (by omega)
          · rcases hs.closed a ha b hab with hb | hb
            · exact .inl hb
            · rcases List.mem_cons.mp hb with rfl | hb
              · exact .inl hvisited
              · exact .inr hb
          · rcases hs.started with hb | hb
            · exact .inl hb
            · rcases List.mem_cons.mp hb with rfl | hb
              · exact .inl hvisited
              · exact .inr hb
        · obtain ⟨words, hpay, hmem, hlen, hnodes⟩ := succsWords_spec h.toLinks here
          rw [if_neg hvisited, hpay, ok_bind]
          refine ih ⟨fun a ha => ?_, fun a ha => ?_, fun a ha => ?_, fun a ha b hab => ?_, ?_⟩ ?_
          · rcases List.mem_append.mp ha with ha | ha
            · exact hreached.tail ((hmem a).mp (List.mem_reverse.mp ha))
            · exact hs.reached a (by simp [ha])
          · rcases List.mem_append.mp ha with ha | ha
            · exact Finset.mem_insert_of_mem (hnodes a (List.mem_reverse.mp ha))
            · exact hs.nodes a (by simp [ha])
          · rcases List.mem_cons.mp ha with rfl | ha
            · exact hfound
            · exact hs.missed a ha
          · rcases List.mem_cons.mp ha with rfl | ha
            · exact .inr (by simp [hmem, hab])
            · rcases hs.closed a ha b hab with hb | hb
              · exact .inl (by simp [hb])
              · rcases List.mem_cons.mp hb with rfl | hb
                · exact .inl (by simp)
                · exact .inr (by simp [hb])
          · rcases hs.started with hb | hb
            · exact .inl (by simp [hb])
            · rcases List.mem_cons.mp hb with rfl | hb
              · exact .inl (by simp)
              · exact .inr (by simp [hb])
          · -- one node fewer is left, and at most `laogWords` are pushed
            have hleft : here ∈ insert src (laogNodes lg) \ visited.toFinset :=
              Finset.mem_sdiff.mpr ⟨hs.nodes here (by simp), by simpa using hvisited⟩
            have hcard := Finset.card_erase_add_one hleft
            have hrest : insert src (laogNodes lg) \ (here :: visited).toFinset =
                (insert src (laogNodes lg) \ visited.toFinset).erase here := by
              ext a
              simp only [List.toFinset_cons, Finset.mem_sdiff, Finset.mem_insert, Finset.mem_erase]
              grind
            rw [hrest, List.length_append, List.length_reverse]
            rw [← hcard, Nat.mul_succ] at hfuel
            omega

/-- **The search ends**, with a lock of the set that can be reached, or with none if there is
none. -/
theorem laogDoDfsFromTo_spec (h : Graph lg R) (hinv : univLsets.Inv) {dsts : WordSet} {D : Finset Nat}
    (hD : univLsets.den dsts = some D) (src : Nat) : ∃ r, laogDoDfsFromTo lg univLsets src dsts = .ok r ∧
      (∀ other, r = some other → other ∈ D ∧ ReflTransGen R src other) ∧
      (r = none → ∀ d ∈ D, ¬ ReflTransGen R src d) := by
  rw [laogDoDfsFromTo, isEmptyWS_den hinv hD, ok_bind]
  by_cases hempty : D = ∅
  · rw [decide_eq_true hempty]
    exact ⟨none, rfl, by simp, by simp [hempty]⟩
  · rw [decide_eq_false hempty, if_neg (by simp)]
    refine laogDfsLoop_spec h hD ⟨fun a ha => ?_, by simp, by simp, by simp, by simp⟩ ?_
    · rw [List.mem_singleton.mp ha]
    have hcard : (insert src (laogNodes lg)).card ≤ laogWords lg + 1 :=
      (Finset.card_insert_le _ _).trans (Nat.succ_le_succ (card_laogNodes_le lg))
    have hmul := Nat.mul_le_mul_left (laogWords lg + 1) hcard
    simp only [List.length_singleton, List.toFinset_nil, Finset.sdiff_empty]
    omega

/-! ## The two calls -/

/-- The set that an index denotes. -/
def locksOf (univLsets : WordSetU) (ws : WordSet) : Finset Nat := (univLsets.den ws).getD ∅

/-- The set is one of the universe. -/
def LaogOp.Belongs : LaogOp ε → Prop
  | .acquire univLsets _ _ locksetA _ => univLsets.Inv ∧ locksetA < univLsets.ix2vec.length
  | .delete univLsets _ locksToDelete => univLsets.Inv ∧ locksToDelete < univLsets.ix2vec.length

/-- A lock that is acquired for the first time and those that the thread holds are held. -/
def LaogOp.Acquired : LaogOp ε → Prop
  | .acquire univLsets locks _ locksetA lk => lk ∈ locksOf univLsets locksetA ∨
      (locks lk).acquiredAt.isSome ∧ ∀ old ∈ locksOf univLsets locksetA, (locks old).acquiredAt.isSome
  | .delete .. => True

theorem locksOf_eq {ws : WordSet} {S : Finset Nat} (h : univLsets.den ws = some S) : locksOf univLsets ws = S := by
  rw [locksOf, h]
  rfl

/-- A loop that checks something in each turn. -/
theorem foldlM_checked {σ : Type} {P : Nat → Prop} [DecidablePred P] {step : σ → Nat → Result σ} {ws : List Nat} {s s' : σ}
    (h : ws.foldlM (fun s w => do assertThat (P w); step s w) s = .ok s') : ∀ w ∈ ws, P w := by
  induction ws generalizing s with
  | nil => simp
  | cons w ws ih =>
    rw [List.foldlM_cons] at h
    obtain ⟨s₁, h₁, h₂⟩ := bind_eq_ok.mp h
    obtain ⟨_, hP, -⟩ := bind_eq_ok.mp h₁
    intro v hv
    rcases List.mem_cons.mp hv with rfl | hv
    · exact assertThat_eq_ok.mp hP
    · exact ih h₂ v hv

/-- Acquiring a lock that the thread holds already. -/
theorem laogPreThreadAcquiresLock_held {thr : Nat} {locksetA : WordSet} {S : Finset Nat}
    (hS : univLsets.den locksetA = some S) (hlk : lk ∈ S) :
    laogPreThreadAcquiresLock univLsets locks thr locksetA lk lg = .ok lg := by
  rw [laogPreThreadAcquiresLock, elemWS_den hS, ok_bind, decide_eq_true hlk]
  rfl

/-- Acquiring another lock: the edges that are added, and when an error is recorded. -/
theorem laogPreThreadAcquiresLock_spec (h : Graph lg R) (hinv : univLsets.Inv) (locks : Nat → Lock ε) (thr : Nat)
    {locksetA : WordSet} {S : Finset Nat} (hS : univLsets.den locksetA = some S) (hlk : lk ∉ S) :
    ((∃ lg', laogPreThreadAcquiresLock univLsets locks thr locksetA lk lg = .ok lg') ↔
      (locks lk).acquiredAt.isSome ∧ ∀ old ∈ S, (locks old).acquiredAt.isSome) ∧
    ∀ lg', laogPreThreadAcquiresLock univLsets locks thr locksetA lk lg = .ok lg' →
      Graph lg' (fun a b => R a b ∨ a ∈ S ∧ b = lk) ∧
      (lg'.errors ≠ lg.errors ↔ ∃ other ∈ S, ReflTransGen R lk other) := by
  obtain ⟨r, hdfs, hsome, hnone⟩ := laogDoDfsFromTo_spec h hinv hS lk
  obtain ⟨words, hpay, -, hwords⟩ := getPayloadWS_den hS
  have hg₁ : Graph (laogComplain locks thr lk lg r) R := by
    cases r with
    | none => exact h
    | some other => exact ⟨⟨h.inv, h.sets, h.out, h.inn⟩, h.irrefl⟩
  have herr₁ : (laogComplain locks thr lk lg r).errors ≠ lg.errors ↔ ∃ other ∈ S, ReflTransGen R lk other := by
    cases r with
    | none => exact ⟨fun hne => absurd rfl hne, fun ⟨other, ho, hreach⟩ => absurd hreach (hnone rfl other ho)⟩
    | some other => simpa [laogComplain] using ⟨other, hsome other rfl⟩
  have hrun : laogPreThreadAcquiresLock univLsets locks thr locksetA lk lg = (do
      assertThat ((locks lk).acquiredAt.isSome)
      words.foldlM (fun lg old => do
        assertThat ((locks old).acquiredAt.isSome)
        laogAddEdge locks lg old lk) (laogComplain locks thr lk lg r)) := by
    rw [laogPreThreadAcquiresLock, elemWS_den hS, ok_bind, decide_eq_false hlk, if_neg (by simp), hdfs, ok_bind,
      hpay]
    rfl
  rw [hrun]
  generalize laogComplain locks thr lk lg r = lg₁ at hg₁ herr₁
  have hloop : (∀ old ∈ S, (locks old).acquiredAt.isSome) → ∃ lg', words.foldlM (fun lg old => do
      assertThat ((locks old).acquiredAt.isSome)
      laogAddEdge locks lg old lk) lg₁ = .ok lg' ∧ Leaves lg₁ lg' fun a b => R a b ∨ ∃ w ∈ words, a = w ∧ b = lk := by
    intro hacq
    refine foldlM_adds (fun lg R w hw hg => ?_) hg₁
    have hwS := (hwords w).mp hw
    rw [assertThat_of (hacq w hwS), ok_bind]
    exact laogAddEdge_spec hg locks fun he => hlk (he ▸ hwS)
  refine ⟨⟨?_, ?_⟩, ?_⟩
  · rintro ⟨lg', hlg'⟩
    obtain ⟨_, hacq, hrest⟩ := bind_eq_ok.mp hlg'
    exact ⟨assertThat_eq_ok.mp hacq, fun old hold => foldlM_checked hrest old ((hwords old).mpr hold)⟩
  · rintro ⟨hacq, hall⟩
    obtain ⟨lg', hrun, -⟩ := hloop hall
    rw [assertThat_of hacq, ok_bind]
    exact ⟨lg', hrun⟩
  · intro lg' hlg'
    obtain ⟨_, -, hrest⟩ := bind_eq_ok.mp hlg'
    obtain ⟨lg₂, hrun, hleaves⟩ := hloop fun old hold => foldlM_checked hrest old ((hwords old).mpr hold)
    obtain rfl : lg₂ = lg' := Except.ok.inj (hrun.symm.trans hrest)
    refine ⟨(hleaves.congr fun a b => ?_).graph, by rw [hleaves.errors, herr₁]⟩
    simp [hwords]

/-! ## The lives of the locks -/

/-- For each lock how often it has been deleted, and all edges that were ever added between
lives of locks. -/
structure History where
  inc : Nat → Nat
  edges : Nat × Nat → Nat × Nat → Prop

/-- The present life of a lock. -/
def History.node (h : History) (l : Nat) : Nat × Nat := (l, h.inc l)

/-- Before the first call. -/
def History.begin : History := ⟨fun _ => 0, fun _ _ => False⟩

/-- A call: locks that are held lead to a lock that is acquired, and a lock that is deleted
begins another life. -/
def History.step (h : History) : LaogOp ε → History
  | .acquire univLsets _ _ locksetA lk =>
    if lk ∈ locksOf univLsets locksetA then h
    else { h with edges := fun p q => h.edges p q ∨
      ∃ old lk', (old ∈ locksOf univLsets locksetA ∧ lk' = lk) ∧ p = h.node old ∧ q = h.node lk' }
  | .delete univLsets _ locksToDelete =>
    { h with inc := fun l => if l ∈ locksOf univLsets locksToDelete then h.inc l + 1 else h.inc l }

/-- The graph has the edges of `R`, and they lead where the history leads. -/
structure LaogInv (lg : Laog ε) (h : History) (R : Nat → Nat → Prop) : Prop where
  graph : Graph lg R
  follows : Follows R h.edges h.node
  lived : ∀ p q, h.edges p q → p.2 ≤ h.inc p.1 ∧ q.2 ≤ h.inc q.1

variable {h : History}

/-- One lock is deleted. -/
theorem LaogInv.deleteOne (H : LaogInv lg h R) (locks : Nat → Lock ε) (lk : Nat) :
    ∃ lg', laogHandleOneLockDeletion locks lg lk = .ok lg' ∧
      LaogInv lg' { h with inc := Function.update h.inc lk (h.inc lk + 1) } (Bypass R lk) := by
  obtain ⟨lg', hrun, hleaves⟩ := laogHandleOneLockDeletion_spec H.graph locks lk
  refine ⟨lg', hrun, hleaves.graph, ?_, fun p q hpq => ?_⟩
  · have hnode : History.node { h with inc := Function.update h.inc lk (h.inc lk + 1) } =
        Function.update h.node lk (lk, h.inc lk + 1) := by
      funext l
      by_cases hl : l = lk
      · subst hl
        simp [History.node]
      · simp [History.node, hl]
    rw [hnode]
    refine H.follows.remove lk (fun a he => ?_) (fun p hp => ?_) (fun p hp => ?_)
    · obtain ⟨rfl, he⟩ := Prod.mk.inj he
      omega
    · have := (H.lived _ _ hp).1
      simp at this
    · have := (H.lived _ _ hp).2
      simp at this
  · have hle : ∀ l, h.inc l ≤ Function.update h.inc lk (h.inc lk + 1) l := by
      intro l
      rw [Function.update_apply]
      split
      · rename_i hl
        rw [hl]
        omega
      · exact Nat.le_refl _
    exact ⟨(H.lived p q hpq).1.trans (hle p.1), (H.lived p q hpq).2.trans (hle q.1)⟩

/-- Several locks are deleted; the others reach each other as before. -/
theorem LaogInv.delete (H : LaogInv lg h R) (locks : Nat → Lock ε) {ws : List Nat} (hws : ws.Nodup) :
    ∃ lg' R', ws.foldlM (laogHandleOneLockDeletion locks) lg = .ok lg' ∧
      LaogInv lg' { h with inc := fun l => if l ∈ ws then h.inc l + 1 else h.inc l } R' ∧
      ∀ u v, u ∉ ws → v ∉ ws → (ReflTransGen R' u v ↔ ReflTransGen R u v) := by
  induction ws generalizing lg h R with
  | nil => exact ⟨lg, R, rfl, by simpa using H, fun _ _ _ _ => Iff.rfl⟩
  | cons w ws ih =>
    obtain ⟨hw, hws⟩ := List.nodup_cons.mp hws
    obtain ⟨lg₁, hrun₁, H₁⟩ := H.deleteOne locks w
    obtain ⟨lg₂, R', hrun₂, H₂, hreach⟩ := ih H₁ hws
    refine ⟨lg₂, R', by rw [List.foldlM_cons, hrun₁, ok_bind, hrun₂], ?_, fun u v hu hv => ?_⟩
    · have hinc : (fun l => if l ∈ w :: ws then h.inc l + 1 else h.inc l) = fun l =>
          if l ∈ ws then Function.update h.inc w (h.inc w + 1) l + 1
          else Function.update h.inc w (h.inc w + 1) l := by
        funext l
        by_cases hl : l = w
        · subst hl
          simp [hw]
        · simp [hl]
      rw [hinc]
      exact H₂
    · simp only [List.mem_cons, not_or] at hu hv
      rw [hreach u v hu.2 hv.2, bypass_iff hu.1 hv.1]

/-- Every call keeps the invariant. -/
theorem laogStep_inv (H : LaogInv lg h R) {op : LaogOp ε} (hop : op.Belongs) (hstep : laogStep lg op = .ok lg') :
    ∃ R', LaogInv lg' (h.step op) R' := by
  cases op with
  | acquire univLsets locks thr locksetA lk =>
    obtain ⟨S, hS⟩ := den_of_lt hop.2
    rw [History.step, locksOf_eq hS]
    by_cases hlk : lk ∈ S
    · rw [if_pos hlk]
      obtain rfl : lg = lg' := Except.ok.inj ((laogPreThreadAcquiresLock_held hS hlk).symm.trans hstep)
      exact ⟨R, H⟩
    · rw [if_neg hlk]
      obtain ⟨hgraph, -⟩ := (laogPreThreadAcquiresLock_spec H.graph hop.1 locks thr hS hlk).2 lg' hstep
      refine ⟨_, hgraph, H.follows.add _, fun p q hpq => ?_⟩
      rcases hpq with hpq | ⟨old, lk', -, rfl, rfl⟩
      · exact H.lived p q hpq
      · exact ⟨Nat.le_refl _, Nat.le_refl _⟩
  | delete univLsets locks locksToDelete =>
    obtain ⟨S, hS⟩ := den_of_lt hop.2
    obtain ⟨words, hpay, hget, hwords⟩ := getPayloadWS_den hS
    have hnodup : words.Nodup := (hop.1.sorted_of hget).imp fun h => h.ne
    obtain ⟨lg₁, R', hrun, H', -⟩ := H.delete locks hnodup
    rw [laogStep, laogHandleLockDeletions, hpay, ok_bind, hrun] at hstep
    obtain rfl := Except.ok.inj hstep
    rw [History.step, locksOf_eq hS]
    simp only [hwords] at H'
    exact ⟨R', H'⟩

/-! ## All runs -/

/-- `b` is in the out set of `a`. -/
def Laog.OutEdge (lg : Laog ε) (a b : Nat) : Prop := b ∈ locksOf lg.univLaog (laogSuccs lg a)

/-- `a` is in the in set of `b`. -/
def Laog.InnEdge (lg : Laog ε) (a b : Nat) : Prop := a ∈ locksOf lg.univLaog (laogPreds lg b)

theorem Graph.outEdge_eq (h : Graph lg R) : lg.OutEdge = R := by
  refine funext₂ fun a b => propext ?_
  obtain ⟨O, hO, hF⟩ := h.mem_succs a
  rw [Laog.OutEdge, locksOf_eq hO, hF]

theorem Graph.innEdge_eq (h : Graph lg R) : lg.InnEdge = R := by
  refine funext₂ fun a b => propext ?_
  obtain ⟨I, hI, hB⟩ := h.mem_preds b
  rw [Laog.InnEdge, locksOf_eq hI, hB]

theorem laogInit_spec : ∃ lg₀ : Laog ε, laogInit = .ok lg₀ ∧ LaogInv lg₀ .begin fun _ _ => False := by
  obtain ⟨univ, hnew, hinv⟩ := newWordSetU_spec (by decide : 1 ≤ 24) (by decide)
  refine ⟨⟨fun _ => none, univ, fun _ => none, []⟩, by rw [laogInit, hnew]; rfl,
    ⟨⟨hinv, fun l links hl => (nomatch hl), fun _ _ _ => id, fun _ _ _ => id⟩, fun _ => id⟩, fun a b => ?_,
    fun p q hpq => hpq.elim⟩
  constructor
  · intro hab
    rw [eq_of_no_succ (fun _ => id) hab]
  · intro hab
    have he := eq_of_no_succ (fun _ => id) hab
    rw [(Prod.mk.inj he).1]

/-- A run, and the history of its calls. -/
theorem laogRun_inv {lg₀ : Laog ε} (hinit : laogInit = .ok lg₀) {ops : List (LaogOp ε)} (hops : ∀ op ∈ ops, op.Belongs)
    (hrun : runSteps laogStep lg₀ ops = .ok lg) : ∃ R, LaogInv lg (ops.foldl History.step .begin) R := by
  obtain ⟨lg₁, hinit₁, H⟩ := laogInit_spec (ε := ε)
  obtain rfl : lg₁ = lg₀ := Except.ok.inj (hinit₁.symm.trans hinit)
  clear hinit hinit₁
  generalize History.begin = h at H
  generalize (fun _ _ => False : Nat → Nat → Prop) = R at H
  induction ops generalizing lg₁ h R with
  | nil =>
    obtain rfl := Except.ok.inj hrun
    exact ⟨R, H⟩
  | cons op ops ih =>
    obtain ⟨lg₂, hstep, hrun⟩ := runSteps_cons.mp hrun
    obtain ⟨R', H'⟩ := laogStep_inv H (hops op (by simp)) hstep
    exact ih (fun op hop => hops op (by simp [hop])) _ hrun _ _ H'

/-- **The lock order graph.** After any run: the out sets and in sets are mirror images; the
search ends and finds a lock of the set exactly if one can be reached; no assertion fails
but those about locks that nobody holds; a call for a lock that the thread holds does
nothing, and any other reports an error exactly if, through edges recorded earlier, the lock
leads to one that the thread holds; and deleting locks leaves which of the others can be
reached from which. -/
theorem lockOrder_sound {lg₀ : Laog ε} (hinit : laogInit = .ok lg₀) {ops : List (LaogOp ε)}
    (hops : ∀ op ∈ ops, op.Belongs) (hrun : runSteps laogStep lg₀ ops = .ok lg) :
    (∀ a b, lg.OutEdge a b ↔ lg.InnEdge a b) ∧
    (∀ univLsets dsts src, univLsets.Inv → dsts < univLsets.ix2vec.length → ∃ r,
      laogDoDfsFromTo lg univLsets src dsts = .ok r ∧
      (∀ other, r = some other → other ∈ locksOf univLsets dsts ∧ ReflTransGen lg.OutEdge src other) ∧
      (r.isSome ↔ ∃ d ∈ locksOf univLsets dsts, ReflTransGen lg.OutEdge src d)) ∧
    (∀ op : LaogOp ε, op.Belongs → ((∃ lg', laogStep lg op = .ok lg') ↔ op.Acquired)) ∧
    (∀ univLsets locks thr locksetA lk lg', univLsets.Inv → locksetA < univLsets.ix2vec.length →
      laogStep lg (.acquire univLsets locks thr locksetA lk) = .ok lg' →
      (lk ∈ locksOf univLsets locksetA → lg' = lg) ∧
      (lk ∉ locksOf univLsets locksetA → (lg'.errors ≠ lg.errors ↔ ∃ other ∈ locksOf univLsets locksetA,
        let h := ops.foldl History.step .begin
        ReflTransGen h.edges (h.node lk) (h.node other)))) ∧
    (∀ univLsets locks locksToDelete lg', univLsets.Inv → locksToDelete < univLsets.ix2vec.length →
      laogStep lg (.delete univLsets locks locksToDelete) = .ok lg' → ∀ u v,
      u ∉ locksOf univLsets locksToDelete → v ∉ locksOf univLsets locksToDelete →
      (ReflTransGen lg'.OutEdge u v ↔ ReflTransGen lg.OutEdge u v)) := by
  obtain ⟨R, H⟩ := laogRun_inv hinit hops hrun
  have G := H.graph
  rw [G.outEdge_eq, G.innEdge_eq]
  refine ⟨fun _ _ => Iff.rfl, fun univLsets dsts src hinv hdsts => ?_, fun op hop => ?_,
    fun univLsets locks thr locksetA lk lg' hinv hA hstep => ?_, fun univLsets locks ws lg' hinv hws hstep u v hu hv => ?_⟩
  · obtain ⟨D, hD⟩ := den_of_lt hdsts
    obtain ⟨r, hdfs, hsome, hnone⟩ := laogDoDfsFromTo_spec G hinv hD src
    rw [locksOf_eq hD]
    refine ⟨r, hdfs, hsome, ?_⟩
    cases r with
    | none =>
      refine ⟨fun h => (nomatch h), fun ⟨d, hd, hreach⟩ => absurd hreach (hnone rfl d hd)⟩
    | some other => exact ⟨fun _ => ⟨other, hsome other rfl⟩, fun _ => rfl⟩
  · cases op with
    | acquire univLsets locks thr locksetA lk =>
      obtain ⟨S, hS⟩ := den_of_lt hop.2
      rw [LaogOp.Acquired, locksOf_eq hS]
      by_cases hlk : lk ∈ S
      · exact ⟨fun _ => .inl hlk, fun _ => ⟨lg, laogPreThreadAcquiresLock_held hS hlk⟩⟩
      · refine (laogPreThreadAcquiresLock_spec G hop.1 locks thr hS hlk).1.trans ?_
        simp [hlk]
    | delete univLsets locks locksToDelete =>
      obtain ⟨S, hS⟩ := den_of_lt hop.2
      obtain ⟨words, hpay, hget, -⟩ := getPayloadWS_den hS
      obtain ⟨lg', R', hloop, -⟩ := H.delete locks ((hop.1.sorted_of hget).imp fun h => h.ne)
      refine ⟨fun _ => trivial, fun _ => ⟨lg', ?_⟩⟩
      rw [laogStep, laogHandleLockDeletions, hpay, ok_bind, hloop]
  · obtain ⟨S, hS⟩ := den_of_lt hA
    rw [locksOf_eq hS]
    refine ⟨fun hlk => ?_, fun hlk => ?_⟩
    · exact Except.ok.inj (hstep.symm.trans (laogPreThreadAcquiresLock_held hS hlk))
    · rw [((laogPreThreadAcquiresLock_spec G hinv locks thr hS hlk).2 lg' hstep).2]
      exact exists_congr fun other => and_congr_right fun _ => H.follows lk other
  · obtain ⟨S, hS⟩ := den_of_lt hws
    obtain ⟨words, hpay, hget, hwords⟩ := getPayloadWS_den hS
    obtain ⟨lg₁, R', hloop, H', hreach⟩ := H.delete locks ((hinv.sorted_of hget).imp fun h => h.ne)
    rw [laogStep, laogHandleLockDeletions, hpay, ok_bind, hloop] at hstep
    obtain rfl := Except.ok.inj hstep
    rw [locksOf_eq hS, ← hwords] at hu hv
    rw [H'.graph.outEdge_eq]
    exact hreach u v hu hv

/-! ## Two threads -/

/-- A universe with the sets of locks of three threads. -/
theorem exists_lsets : ∃ (univLsets : WordSetU) (a b ab : WordSet), univLsets.Inv ∧ univLsets.den a = some {1} ∧
    univLsets.den b = some {2} ∧ univLsets.den ab = some {1, 2} := by
  obtain ⟨univ, -, hinv⟩ := newWordSetU_spec (by decide : 1 ≤ 8) (by decide)
  obtain ⟨univ₁, a, -, g₁⟩ := doubletonWS_returns hinv 1 1
  obtain ⟨univ₂, b, -, g₂⟩ := doubletonWS_returns g₁.inv 2 2
  obtain ⟨univ₃, ab, -, g₃⟩ := doubletonWS_returns g₂.inv 1 2
  refine ⟨univ₃, a, b, ab, g₃.inv, ?_, ?_, g₃.den⟩
  · simpa using den_grows g₃.grows (den_grows g₂.grows g₁.den)
  · simpa using den_grows g₃.grows g₂.den

/-- Two threads acquire the locks 1 and 2 in different orders, which is reported. -/
theorem exists_inverted {univLsets : WordSetU} {a b : WordSet} (hinv : univLsets.Inv)
    (ha : univLsets.den a = some {1}) (hb : univLsets.den b = some {2}) : ∃ lg₀ lg : Laog Unit,
    laogInit = .ok lg₀ ∧ runSteps laogStep lg₀ [.acquire univLsets (fun l => ⟨l, some ()⟩) 1 a 2,
      .acquire univLsets (fun l => ⟨l, some ()⟩) 2 b 1] = .ok lg ∧ lg.OutEdge 2 1 := by
  obtain ⟨lg₀, hinit, H⟩ := laogInit_spec (ε := Unit)
  have h₂ : (2 : Nat) ∉ ({1} : Finset Nat) := by simp
  have h₁ : (1 : Nat) ∉ ({2} : Finset Nat) := by simp
  obtain ⟨hret₁, hgraph₁⟩ := laogPreThreadAcquiresLock_spec H.graph hinv (fun l => ⟨l, some ()⟩) 1 ha h₂
  obtain ⟨lg₁, hrun₁⟩ := hret₁.mpr ⟨rfl, fun _ _ => rfl⟩
  obtain ⟨hret₂, hgraph₂⟩ := laogPreThreadAcquiresLock_spec (hgraph₁ lg₁ hrun₁).1 hinv (fun l => ⟨l, some ()⟩) 2 hb h₁
  obtain ⟨lg₂, hrun₂⟩ := hret₂.mpr ⟨rfl, fun _ _ => rfl⟩
  refine ⟨lg₀, lg₂, hinit, ?_, ?_⟩
  · exact runSteps_cons.mpr ⟨lg₁, hrun₁, runSteps_cons.mpr ⟨lg₂, hrun₂, rfl⟩⟩
  · rw [(hgraph₂ lg₂ hrun₂).1.outEdge_eq]
    simp

theorem lt_of_den {ws : WordSet} {S : Finset Nat} (h : univLsets.den ws = some S) : ws < univLsets.ix2vec.length := by
  obtain ⟨u, hu, -⟩ := exists_of_den h
  exact (List.getElem?_eq_some_iff.mp hu).1

/-- After that the sets agree on the edges, of which there is one each way. -/
theorem lockOrder_sound_inverted : ∃ lg : Laog Unit, lg.OutEdge 2 1 ∧ ∀ a b, lg.OutEdge a b ↔ lg.InnEdge a b := by
  obtain ⟨univLsets, a, b, -, hinv, ha, hb, -⟩ := exists_lsets
  obtain ⟨lg₀, lg, hinit, hrun, hedge⟩ := exists_inverted hinv ha hb
  refine ⟨lg, hedge, (lockOrder_sound hinit (fun op hop => ?_) hrun).1⟩
  rcases List.mem_cons.mp hop with rfl | hop
  · exact ⟨hinv, lt_of_den ha⟩
  · rw [List.mem_singleton.mp hop]
    exact ⟨hinv, lt_of_den hb⟩

/-- The second thread now holds both locks and acquires the lock 2 again. It leads to the lock
1, but no error is reported. -/
theorem not_reported_again : ∃ (univLsets : WordSetU) (a b ab : WordSet) (lg₀ lg lg' : Laog Unit),
    univLsets.Inv ∧ laogInit = .ok lg₀ ∧
    runSteps laogStep lg₀ [.acquire univLsets (fun l => ⟨l, some ()⟩) 1 a 2,
      .acquire univLsets (fun l => ⟨l, some ()⟩) 2 b 1] = .ok lg ∧
    laogStep lg (.acquire univLsets (fun l => ⟨l, some ()⟩) 2 ab 2) = .ok lg' ∧
    (∃ other ∈ locksOf univLsets ab, other ≠ 2 ∧ ReflTransGen lg.OutEdge 2 other) ∧ lg'.errors = lg.errors := by
  obtain ⟨univLsets, a, b, ab, hinv, ha, hb, hab⟩ := exists_lsets
  obtain ⟨lg₀, lg, hinit, hrun, hedge⟩ := exists_inverted hinv ha hb
  have hheld : (2 : Nat) ∈ ({1, 2} : Finset Nat) := by simp
  refine ⟨univLsets, a, b, ab, lg₀, lg, lg, hinv, hinit, hrun, ?_, ?_, rfl⟩
  · rw [laogStep]
    exact laogPreThreadAcquiresLock_held hab hheld
  · rw [locksOf_eq hab]
    exact ⟨1, by simp, by simp, .single hedge⟩

end

end Helgrind

end Valgrind
