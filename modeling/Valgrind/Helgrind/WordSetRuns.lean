import Valgrind.Helgrind.WordSetSpecs

/-!
# Runs of a universe of word sets

Any sequence of operations on one universe, each with indices that the universe has given
out. `wordSet_canonical` is about the state that such a sequence leads to, and about the
operation that comes next.
-/

namespace Valgrind

namespace Helgrind

open SortedMerge

/-- The operations of a universe. -/
inductive Op where
  | empty
  | isEmpty (ws : WordSet)
  | isSingleton (ws : WordSet) (w : Nat)
  | cardinality (ws : WordSet)
  | elem (ws : WordSet) (w : Nat)
  | doubleton (w₁ w₂ : Nat)
  | singleton (w : Nat)
  | addTo (ws : WordSet) (w : Nat)
  | delFrom (ws : WordSet) (w : Nat)
  | union (ws₁ ws₂ : WordSet)
  | intersect (ws₁ ws₂ : WordSet)
  | minus (ws₁ ws₂ : WordSet)
  | isSubsetOf (small big : WordSet)

/-- What an operation returns. -/
inductive Out where
  | ws (ws : WordSet)
  | bool (b : Bool)
  | word (n : Nat)
  deriving DecidableEq, Repr

/-- An operation of the universe. -/
def step (wsu : WordSetU) : Op → Result (WordSetU × Out)
  | .empty => return (wsu, .ws (emptyWS wsu))
  | .isEmpty ws => do return (wsu, .bool (← isEmptyWS wsu ws))
  | .isSingleton ws w => do return (wsu, .bool (← isSingletonWS wsu ws w))
  | .cardinality ws => do return (wsu, .word (← cardinalityWS wsu ws))
  | .elem ws w => do return (wsu, .bool (← elemWS wsu ws w))
  | .doubleton w₁ w₂ => do
    let (wsu, ws) ← doubletonWS wsu w₁ w₂
    return (wsu, .ws ws)
  | .singleton w => do
    let (wsu, ws) ← singletonWS wsu w
    return (wsu, .ws ws)
  | .addTo ws w => do
    let (wsu, ws) ← addToWS wsu ws w
    return (wsu, .ws ws)
  | .delFrom ws w => do
    let (wsu, ws) ← delFromWS wsu ws w
    return (wsu, .ws ws)
  | .union ws₁ ws₂ => do
    let (wsu, ws) ← unionWS wsu ws₁ ws₂
    return (wsu, .ws ws)
  | .intersect ws₁ ws₂ => do
    let (wsu, ws) ← intersectWS wsu ws₁ ws₂
    return (wsu, .ws ws)
  | .minus ws₁ ws₂ => do
    let (wsu, ws) ← minusWS wsu ws₁ ws₂
    return (wsu, .ws ws)
  | .isSubsetOf small big => do
    let (wsu, b) ← isSubsetOf wsu small big
    return (wsu, .bool b)

/-- The indices that an operation is called with. -/
def Op.args : Op → List WordSet
  | .empty | .doubleton _ _ | .singleton _ => []
  | .isEmpty ws | .isSingleton ws _ | .cardinality ws | .elem ws _ | .addTo ws _ | .delFrom ws _ => [ws]
  | .union ws₁ ws₂ | .intersect ws₁ ws₂ | .minus ws₁ ws₂ | .isSubsetOf ws₁ ws₂ => [ws₁, ws₂]

/-- The operation is called with indices that come from the universe. -/
def Op.Belongs (wsu : WordSetU) (op : Op) : Prop := ∀ ws ∈ op.args, ws < wsu.ix2vec.length

instance (wsu : WordSetU) (op : Op) : Decidable (op.Belongs wsu) :=
  inferInstanceAs (Decidable (∀ ws ∈ op.args, ws < wsu.ix2vec.length))

/-- The universe after an operation. -/
def stepU (wsu : WordSetU) (op : Op) : Result WordSetU := do
  let (wsu, _) ← step wsu op
  return wsu

/-- The universe with its caches emptied. -/
def WordSetU.forget (wsu : WordSetU) : WordSetU :=
  { wsu with cache := fun c => { wsu.cache c with ent := [] } }

/-- The set that an index denotes. -/
def WordSetU.den (wsu : WordSetU) (ws : WordSet) : Option (Finset Nat) := wsu.ix2vec[ws]?.map List.toFinset

/-- What the operation `op` of the universe `wsu` is to return; the result is an index of the
universe `wsu'`. -/
def Op.Right (wsu wsu' : WordSetU) : Op → Out → Prop
  | .empty, .ws r => wsu'.den r = some ∅
  | .isEmpty ws, .bool b => ∃ S, wsu.den ws = some S ∧ (b = true ↔ S = ∅)
  | .isSingleton ws w, .bool b => ∃ S, wsu.den ws = some S ∧ (b = true ↔ S = {w})
  | .cardinality ws, .word n => ∃ S, wsu.den ws = some S ∧ n = S.card
  | .elem ws w, .bool b => ∃ S, wsu.den ws = some S ∧ (b = true ↔ w ∈ S)
  | .doubleton w₁ w₂, .ws r => wsu'.den r = some {w₁, w₂}
  | .singleton w, .ws r => wsu'.den r = some {w}
  | .addTo ws w, .ws r => ∃ S, wsu.den ws = some S ∧ wsu'.den r = some (insert w S)
  | .delFrom ws w, .ws r => ∃ S, wsu.den ws = some S ∧ wsu'.den r = some (S.erase w)
  | .union ws₁ ws₂, .ws r => ∃ S T, wsu.den ws₁ = some S ∧ wsu.den ws₂ = some T ∧ wsu'.den r = some (S ∪ T)
  | .intersect ws₁ ws₂, .ws r => ∃ S T, wsu.den ws₁ = some S ∧ wsu.den ws₂ = some T ∧ wsu'.den r = some (S ∩ T)
  | .minus ws₁ ws₂, .ws r => ∃ S T, wsu.den ws₁ = some S ∧ wsu.den ws₂ = some T ∧ wsu'.den r = some (S \ T)
  | .isSubsetOf ws₁ ws₂, .bool b => ∃ S T, wsu.den ws₁ = some S ∧ wsu.den ws₂ = some T ∧ (b = true ↔ S ⊆ T)
  | _, _ => False

/-- An operation of a universe without tree and caches: the vectors and the result. -/
def specStep (l : List WordVec) : Op → Option (List WordVec × Out)
  | .empty => return (l, .ws (l.idxOf []))
  | .isEmpty ws => do return (l, .bool (decide ((← l[ws]?) = [])))
  | .isSingleton ws w => do return (l, .bool (decide ((← l[ws]?) = [w])))
  | .cardinality ws => do return (l, .word (← l[ws]?).length)
  | .elem ws w => do return (l, .bool (decide (w ∈ (← l[ws]?))))
  | .doubleton w₁ w₂ => interned (select true true true [w₁] [w₂])
  | .singleton w => interned (select true true true [w] [w])
  | .addTo ws w => do interned (select true true true (← l[ws]?) [w])
  | .delFrom ws w => do interned (select true false false (← l[ws]?) [w])
  | .union ws₁ ws₂ => do interned (select true true true (← l[ws₁]?) (← l[ws₂]?))
  | .intersect ws₁ ws₂ => do interned (select false true false (← l[ws₁]?) (← l[ws₂]?))
  | .minus ws₁ ws₂ => do interned (select true false false (← l[ws₁]?) (← l[ws₂]?))
  | .isSubsetOf small big => do
    let (l', ws) := intern l (select false true false (← l[small]?) (← l[big]?))
    return (l', .bool (decide (small = ws)))
where
  /-- The result is the index of a vector. -/
  interned (wv : WordVec) : Option (List WordVec × Out) := some ((intern l wv).1, .ws (intern l wv).2)

/-! ## One operation -/

section Step

variable {wsu wsu' : WordSetU} {op : Op} {out : Out}

/-- The operation has been done as the universe without tree and caches does it. -/
structure Done (wsu : WordSetU) (op : Op) (wsu' : WordSetU) (out : Out) : Prop where
  inv : wsu'.Inv
  spec : specStep wsu.ix2vec op = some (wsu'.ix2vec, out)

theorem Interned.done {wv : WordVec} {r : WordSet} (h : Interned wsu wv wsu' r)
    (hspec : specStep wsu.ix2vec op = specStep.interned wsu.ix2vec wv) : Done wsu op wsu' (.ws r) := by
  refine ⟨h.inv, ?_⟩
  rw [hspec, specStep.interned, ← h.intern]

theorem Op.Belongs.getElem? (h : op.Belongs wsu) {ws : WordSet} (hws : ws ∈ op.args) :
    ∃ wv, wsu.ix2vec[ws]? = some wv :=
  ⟨_, List.getElem?_eq_getElem (h ws hws)⟩

theorem isEmptyWS_eq (h : wsu.Inv) {ws : WordSet} {u : WordVec} (hu : wsu.ix2vec[ws]? = some u) :
    isEmptyWS wsu ws = .ok (decide (u = [])) := by
  rw [isEmptyWS, doIx2vec_eq hu, ok_bind]
  by_cases hnil : u = []
  · subst hnil
    rw [if_pos List.length_nil, assertThat_of (h.eq_empty hu)]
    rfl
  · have hne : ws ≠ wsu.empty := fun heq => hnil (by rw [heq, h.empty] at hu; exact (Option.some.inj hu).symm)
    rw [if_neg (mt List.length_eq_zero_iff.mp hnil), assertThat_of hne, decide_eq_false hnil]
    rfl

theorem isSingletonWS_eq {ws : WordSet} {u : WordVec} (hu : wsu.ix2vec[ws]? = some u) (w : Nat) :
    isSingletonWS wsu ws w = .ok (decide (u = [w])) := by
  have hiff : u.length = 1 ∧ u[0]? = some w ↔ u = [w] := by
    constructor
    · rintro ⟨hone, hget⟩
      obtain ⟨x, rfl⟩ := List.length_eq_one_iff.mp hone
      rw [Option.some.inj hget]
    · rintro rfl
      exact ⟨rfl, rfl⟩
  rw [isSingletonWS, doIx2vec_eq hu, ok_bind]
  simp only [hiff]
  rfl

theorem elemWS_eq {ws : WordSet} {u : WordVec} (hu : wsu.ix2vec[ws]? = some u) (w : Nat) :
    elemWS wsu ws w = .ok (decide (w ∈ u)) := by
  have hany : (u.any fun x => x = w) = decide (w ∈ u) := by
    rw [Bool.eq_iff_iff]
    simp
  rw [elemWS, doIx2vec_eq hu, ok_bind, hany]
  rfl

/-- **One operation** of a universe. -/
theorem step_spec (h : wsu.Inv) (hop : op.Belongs wsu) :
    ∃ wsu' out, step wsu op = .ok (wsu', out) ∧ Done wsu op wsu' out := by
  cases op with
  | empty =>
    have hidx := intern_of_getElem? h.nodup h.empty
    rw [intern, if_pos (List.mem_of_getElem? h.empty)] at hidx
    refine ⟨wsu, _, rfl, h, ?_⟩
    rw [specStep, (Prod.mk.inj hidx).2]
    rfl
  | isEmpty ws =>
    obtain ⟨u, hu⟩ := hop.getElem? List.mem_cons_self
    refine ⟨wsu, .bool (decide (u = [])), ?_, h, ?_⟩
    · rw [step, isEmptyWS_eq h hu]
      rfl
    · rw [specStep, hu]
      rfl
  | isSingleton ws w =>
    obtain ⟨u, hu⟩ := hop.getElem? List.mem_cons_self
    refine ⟨wsu, .bool (decide (u = [w])), ?_, h, ?_⟩
    · rw [step, isSingletonWS_eq hu]
      rfl
    · rw [specStep, hu]
      rfl
  | cardinality ws =>
    obtain ⟨u, hu⟩ := hop.getElem? List.mem_cons_self
    refine ⟨wsu, .word u.length, ?_, h, ?_⟩
    · rw [step, cardinalityWS, doIx2vec_eq hu]
      rfl
    · rw [specStep, hu]
      rfl
  | elem ws w =>
    obtain ⟨u, hu⟩ := hop.getElem? List.mem_cons_self
    refine ⟨wsu, .bool (decide (w ∈ u)), ?_, h, ?_⟩
    · rw [step, elemWS_eq hu]
      rfl
    · rw [specStep, hu]
      rfl
  | doubleton w₁ w₂ =>
    obtain ⟨wsu', r, hrun, hint⟩ := doubletonWS_spec h w₁ w₂
    refine ⟨wsu', .ws r, ?_, hint.done rfl⟩
    rw [step, hrun]
    rfl
  | singleton w =>
    obtain ⟨wsu', r, hrun, hint⟩ := doubletonWS_spec h w w
    refine ⟨wsu', .ws r, ?_, hint.done rfl⟩
    rw [step, singletonWS, hrun]
    rfl
  | addTo ws w =>
    obtain ⟨u, hu⟩ := hop.getElem? List.mem_cons_self
    obtain ⟨wsu', r, hrun, hint⟩ := addToWS_spec h hu w
    refine ⟨wsu', .ws r, ?_, hint.done ?_⟩
    · rw [step, hrun]
      rfl
    · rw [specStep, hu]
      rfl
  | delFrom ws w =>
    obtain ⟨u, hu⟩ := hop.getElem? List.mem_cons_self
    obtain ⟨wsu', r, hrun, hint⟩ := delFromWS_spec h hu w
    refine ⟨wsu', .ws r, ?_, hint.done ?_⟩
    · rw [step, hrun]
      rfl
    · rw [specStep, hu]
      rfl
  | union ws₁ ws₂ =>
    obtain ⟨u, hu⟩ := hop.getElem? List.mem_cons_self
    obtain ⟨v, hv⟩ := hop.getElem? (List.mem_cons_of_mem _ List.mem_cons_self)
    obtain ⟨wsu', r, hrun, hint⟩ := unionWS_spec h hu hv
    refine ⟨wsu', .ws r, ?_, hint.done ?_⟩
    · rw [step, hrun]
      rfl
    · rw [specStep, hu, hv]
      rfl
  | intersect ws₁ ws₂ =>
    obtain ⟨u, hu⟩ := hop.getElem? List.mem_cons_self
    obtain ⟨v, hv⟩ := hop.getElem? (List.mem_cons_of_mem _ List.mem_cons_self)
    obtain ⟨wsu', r, hrun, hint⟩ := intersectWS_spec h hu hv
    refine ⟨wsu', .ws r, ?_, hint.done ?_⟩
    · rw [step, hrun]
      rfl
    · rw [specStep, hu, hv]
      rfl
  | minus ws₁ ws₂ =>
    obtain ⟨u, hu⟩ := hop.getElem? List.mem_cons_self
    obtain ⟨v, hv⟩ := hop.getElem? (List.mem_cons_of_mem _ List.mem_cons_self)
    obtain ⟨wsu', r, hrun, hint⟩ := minusWS_spec h hu hv
    refine ⟨wsu', .ws r, ?_, hint.done ?_⟩
    · rw [step, hrun]
      rfl
    · rw [specStep, hu, hv]
      rfl
  | isSubsetOf small big =>
    obtain ⟨u, hu⟩ := hop.getElem? List.mem_cons_self
    obtain ⟨v, hv⟩ := hop.getElem? (List.mem_cons_of_mem _ List.mem_cons_self)
    obtain ⟨wsu', r, hrun, hint⟩ := intersectWS_spec h hu hv
    refine ⟨wsu', .bool (decide (small = r)), ?_, hint.inv, ?_⟩
    · rw [step, isSubsetOf, hrun]
      rfl
    · rw [specStep, hu, hv]
      show some ((intern wsu.ix2vec (select false true false u v)).1,
        Out.bool (decide (small = (intern wsu.ix2vec (select false true false u v)).2))) = _
      rw [← hint.intern]

end Step

/-! ## Sets -/

section Sets

variable {u v : WordVec} {w : Nat}

theorem toFinset_union (hu : Sorted id u) (hv : Sorted id v) :
    (select true true true u v).toFinset = u.toFinset ∪ v.toFinset := by
  ext x
  rw [List.mem_toFinset, mem_select hu hv, Finset.mem_union, List.mem_toFinset, List.mem_toFinset]
  grind

theorem toFinset_inter (hu : Sorted id u) (hv : Sorted id v) :
    (select false true false u v).toFinset = u.toFinset ∩ v.toFinset := by
  ext x
  rw [List.mem_toFinset, mem_select hu hv, Finset.mem_inter, List.mem_toFinset, List.mem_toFinset]
  simp

theorem toFinset_sdiff (hu : Sorted id u) (hv : Sorted id v) :
    (select true false false u v).toFinset = u.toFinset \ v.toFinset := by
  ext x
  rw [List.mem_toFinset, mem_select hu hv, Finset.mem_sdiff, List.mem_toFinset, List.mem_toFinset]
  simp

/-- Sorted vectors are determined by their sets. -/
theorem toFinset_inj (hu : Sorted id u) (hv : Sorted id v) : u.toFinset = v.toFinset ↔ u = v := by
  refine ⟨fun h => Sorted.eq_of_mem_iff hu hv fun x => ?_, fun h => h ▸ rfl⟩
  rw [← List.mem_toFinset, h, List.mem_toFinset]

end Sets

section Right

variable {wsu wsu' : WordSetU} {op : Op} {out : Out}

theorem den_eq {ws : WordSet} {u : WordVec} (hu : wsu.ix2vec[ws]? = some u) : wsu.den ws = some u.toFinset := by
  rw [WordSetU.den, hu]
  rfl

/-- An operation that interns a vector returns an index of its set. -/
theorem den_interned {l : List WordVec} {wv : WordVec}
    (h : specStep.interned l wv = some (wsu'.ix2vec, out)) : ∃ r, out = .ws r ∧ wsu'.den r = some wv.toFinset := by
  obtain ⟨hl, rfl⟩ := Prod.mk.inj (Option.some.inj h)
  refine ⟨_, rfl, ?_⟩
  rw [WordSetU.den, ← hl, getElem?_intern]
  rfl

theorem toFinset_eq_iff {u : WordVec} {S : Finset Nat} (l : WordVec) (hl : Sorted id l) (hS : l.toFinset = S)
    (hu : Sorted id u) : decide (u = l) = true ↔ u.toFinset = S := by
  rw [decide_eq_true_iff, ← hS, toFinset_inj hu hl]

/-- What the universe without tree and caches returns is **what set theory prescribes**. -/
theorem Done.right (h : wsu.Inv) (hop : op.Belongs wsu) (hdone : Done wsu op wsu' out) :
    op.Right wsu wsu' out := by
  obtain ⟨hinv, hspec⟩ := hdone
  cases op with
  | empty =>
    obtain ⟨hl, rfl⟩ := Prod.mk.inj (Option.some.inj hspec)
    have hget := getElem?_intern wsu.ix2vec []
    rw [intern, if_pos (List.mem_of_getElem? h.empty), hl] at hget
    show wsu'.den (wsu.ix2vec.idxOf []) = some ∅
    rw [hl]
    exact den_eq hget
  | isEmpty ws =>
    obtain ⟨u, hu⟩ := hop.getElem? List.mem_cons_self
    rw [specStep, hu] at hspec
    obtain ⟨-, rfl⟩ := Prod.mk.inj (Option.some.inj hspec)
    exact ⟨_, den_eq hu, toFinset_eq_iff [] sorted_nil rfl (h.sorted_of hu)⟩
  | isSingleton ws w =>
    obtain ⟨u, hu⟩ := hop.getElem? List.mem_cons_self
    rw [specStep, hu] at hspec
    obtain ⟨-, rfl⟩ := Prod.mk.inj (Option.some.inj hspec)
    exact ⟨_, den_eq hu, toFinset_eq_iff [w] (sorted_singleton w) (by simp) (h.sorted_of hu)⟩
  | cardinality ws =>
    obtain ⟨u, hu⟩ := hop.getElem? List.mem_cons_self
    rw [specStep, hu] at hspec
    obtain ⟨-, rfl⟩ := Prod.mk.inj (Option.some.inj hspec)
    have hnodup : u.Nodup := (h.sorted_of hu).imp fun h => h.ne
    exact ⟨_, den_eq hu, (List.toFinset_card_of_nodup hnodup).symm⟩
  | elem ws w =>
    obtain ⟨u, hu⟩ := hop.getElem? List.mem_cons_self
    rw [specStep, hu] at hspec
    obtain ⟨-, rfl⟩ := Prod.mk.inj (Option.some.inj hspec)
    exact ⟨_, den_eq hu, decide_eq_true_iff.trans List.mem_toFinset.symm⟩
  | doubleton w₁ w₂ =>
    obtain ⟨r, rfl, hden⟩ := den_interned hspec
    rw [toFinset_union (sorted_singleton w₁) (sorted_singleton w₂)] at hden
    exact hden.trans (by simp)
  | singleton w =>
    obtain ⟨r, rfl, hden⟩ := den_interned hspec
    rw [toFinset_union (sorted_singleton w) (sorted_singleton w)] at hden
    exact hden.trans (by simp)
  | addTo ws w =>
    obtain ⟨u, hu⟩ := hop.getElem? List.mem_cons_self
    rw [specStep, hu] at hspec
    obtain ⟨r, rfl, hden⟩ := den_interned hspec
    rw [toFinset_union (h.sorted_of hu) (sorted_singleton w)] at hden
    exact ⟨_, den_eq hu, hden.trans (by simp)⟩
  | delFrom ws w =>
    obtain ⟨u, hu⟩ := hop.getElem? List.mem_cons_self
    rw [specStep, hu] at hspec
    obtain ⟨r, rfl, hden⟩ := den_interned hspec
    rw [toFinset_sdiff (h.sorted_of hu) (sorted_singleton w)] at hden
    exact ⟨_, den_eq hu, hden.trans (by simp [Finset.sdiff_singleton_eq_erase])⟩
  | union ws₁ ws₂ =>
    obtain ⟨u, hu⟩ := hop.getElem? List.mem_cons_self
    obtain ⟨v, hv⟩ := hop.getElem? (List.mem_cons_of_mem _ List.mem_cons_self)
    rw [specStep, hu, hv] at hspec
    obtain ⟨r, rfl, hden⟩ := den_interned hspec
    rw [toFinset_union (h.sorted_of hu) (h.sorted_of hv)] at hden
    exact ⟨_, _, den_eq hu, den_eq hv, hden⟩
  | intersect ws₁ ws₂ =>
    obtain ⟨u, hu⟩ := hop.getElem? List.mem_cons_self
    obtain ⟨v, hv⟩ := hop.getElem? (List.mem_cons_of_mem _ List.mem_cons_self)
    rw [specStep, hu, hv] at hspec
    obtain ⟨r, rfl, hden⟩ := den_interned hspec
    rw [toFinset_inter (h.sorted_of hu) (h.sorted_of hv)] at hden
    exact ⟨_, _, den_eq hu, den_eq hv, hden⟩
  | minus ws₁ ws₂ =>
    obtain ⟨u, hu⟩ := hop.getElem? List.mem_cons_self
    obtain ⟨v, hv⟩ := hop.getElem? (List.mem_cons_of_mem _ List.mem_cons_self)
    rw [specStep, hu, hv] at hspec
    obtain ⟨r, rfl, hden⟩ := den_interned hspec
    rw [toFinset_sdiff (h.sorted_of hu) (h.sorted_of hv)] at hden
    exact ⟨_, _, den_eq hu, den_eq hv, hden⟩
  | isSubsetOf small big =>
    obtain ⟨u, hu⟩ := hop.getElem? List.mem_cons_self
    obtain ⟨v, hv⟩ := hop.getElem? (List.mem_cons_of_mem _ List.mem_cons_self)
    rw [specStep, hu, hv] at hspec
    replace hspec : some ((intern wsu.ix2vec (select false true false u v)).1,
      Out.bool (decide (small = (intern wsu.ix2vec (select false true false u v)).2))) =
        some (wsu'.ix2vec, out) := hspec
    obtain ⟨hl, rfl⟩ := Prod.mk.inj (Option.some.inj hspec)
    have hsu := h.sorted_of hu
    have hsv := h.sorted_of hv
    have hr := getElem?_intern wsu.ix2vec (select false true false u v)
    have hsmall := prefix_getElem?_eq (prefix_intern wsu.ix2vec (select false true false u v)) hu
    rw [hl] at hr hsmall
    refine ⟨_, _, den_eq hu, den_eq hv, ?_⟩
    rw [decide_eq_true_iff, ← Finset.inter_eq_left, ← toFinset_inter hsu hsv,
      toFinset_inj (sorted_select _ _ _ hsu hsv) hsu]
    constructor
    · intro heq
      rw [← heq, hsmall] at hr
      exact (Option.some.inj hr).symm
    · intro heq
      rw [heq] at hr ⊢
      exact index_inj hinv.nodup hsmall hr

end Right

/-! ## Runs -/

/-- Every index denotes a strictly sorted vector, and equal sets have equal indices. -/
structure Canonical (wsu : WordSetU) : Prop where
  sorted : ∀ wv ∈ wsu.ix2vec, wv.Pairwise (· < ·)
  eq_iff : ∀ ws₁ ws₂ S₁ S₂, wsu.den ws₁ = some S₁ → wsu.den ws₂ = some S₂ → (ws₁ = ws₂ ↔ S₁ = S₂)

section Runs

variable {wsu wsu' : WordSetU} {op : Op} {out : Out}

theorem exists_of_den {ws : WordSet} {S : Finset Nat} (h : wsu.den ws = some S) :
    ∃ u, wsu.ix2vec[ws]? = some u ∧ u.toFinset = S :=
  Option.map_eq_some_iff.mp h

theorem WordSetU.Inv.canonical (h : wsu.Inv) : Canonical wsu := by
  refine ⟨h.sorted, fun ws₁ ws₂ S₁ S₂ h₁ h₂ => ?_⟩
  obtain ⟨u, hu, rfl⟩ := exists_of_den h₁
  obtain ⟨v, hv, rfl⟩ := exists_of_den h₂
  rw [toFinset_inj (h.sorted_of hu) (h.sorted_of hv)]
  constructor
  · rintro rfl
    exact Option.some.inj (hu.symm.trans hv)
  · rintro rfl
    exact index_inj h.nodup hu hv

/-- Emptying the caches. -/
theorem WordSetU.Inv.forget (h : wsu.Inv) : wsu.forget.Inv := by
  refine ⟨h.sorted, h.nodup, h.empty, h.avl, h.keys, h.holds, fun c => ?_⟩
  exact ⟨(h.cache c).dynMax_pos, (h.cache c).dynMax_le, Nat.zero_le _, fun e he => nomatch he⟩

/-- The vectors stay where they are. -/
theorem specStep_prefix {l l' : List WordVec} (h : specStep l op = some (l', out)) : l <+: l' := by
  have hinterned : ∀ wv, specStep.interned l wv = some (l', out) → l <+: l' := fun wv h => by
    rw [← (Prod.mk.inj (Option.some.inj h)).1]
    exact prefix_intern l wv
  cases op with
  | empty => exact (Prod.mk.inj (Option.some.inj h)).1 ▸ List.prefix_rfl
  | isEmpty ws =>
    obtain ⟨u, -, h⟩ := Option.bind_eq_some_iff.mp h
    exact (Prod.mk.inj (Option.some.inj h)).1 ▸ List.prefix_rfl
  | isSingleton ws w =>
    obtain ⟨u, -, h⟩ := Option.bind_eq_some_iff.mp h
    exact (Prod.mk.inj (Option.some.inj h)).1 ▸ List.prefix_rfl
  | cardinality ws =>
    obtain ⟨u, -, h⟩ := Option.bind_eq_some_iff.mp h
    exact (Prod.mk.inj (Option.some.inj h)).1 ▸ List.prefix_rfl
  | elem ws w =>
    obtain ⟨u, -, h⟩ := Option.bind_eq_some_iff.mp h
    exact (Prod.mk.inj (Option.some.inj h)).1 ▸ List.prefix_rfl
  | doubleton w₁ w₂ => exact hinterned _ h
  | singleton w => exact hinterned _ h
  | addTo ws w | delFrom ws w =>
    obtain ⟨u, -, h⟩ := Option.bind_eq_some_iff.mp h
    exact hinterned _ h
  | union ws₁ ws₂ | intersect ws₁ ws₂ | minus ws₁ ws₂ =>
    obtain ⟨u, -, h⟩ := Option.bind_eq_some_iff.mp h
    obtain ⟨v, -, h⟩ := Option.bind_eq_some_iff.mp h
    exact hinterned _ h
  | isSubsetOf small big =>
    obtain ⟨u, -, h⟩ := Option.bind_eq_some_iff.mp h
    obtain ⟨v, -, h⟩ := Option.bind_eq_some_iff.mp h
    rw [← (Prod.mk.inj (Option.some.inj h)).1]
    exact prefix_intern l _

theorem Done.prefix (h : Done wsu op wsu' out) : wsu.ix2vec <+: wsu'.ix2vec := specStep_prefix h.spec

theorem stepU_spec (h : wsu.Inv) (hop : op.Belongs wsu) :
    ∃ wsu', stepU wsu op = .ok wsu' ∧ wsu'.Inv ∧ wsu.ix2vec <+: wsu'.ix2vec := by
  obtain ⟨wsu', out, hrun, hdone⟩ := step_spec h hop
  refine ⟨wsu', ?_, hdone.inv, hdone.prefix⟩
  rw [stepU, hrun]
  rfl

/-- **A run** of operations returns and keeps the universe in order. -/
theorem run_spec {ops : List Op} (h : wsu.Inv) (hops : runMeets stepU (fun wsu op => op.Belongs wsu) wsu ops) :
    ∃ wsu', runSteps stepU wsu ops = .ok wsu' ∧ wsu'.Inv ∧ wsu.ix2vec <+: wsu'.ix2vec := by
  induction ops generalizing wsu with
  | nil => exact ⟨wsu, rfl, h, List.prefix_rfl⟩
  | cons op ops ih =>
    obtain ⟨wsu', hstep, hinv, hpre⟩ := stepU_spec h hops.1
    obtain ⟨wsu'', hrun, hinv', hpre'⟩ := ih hinv (hops.2 wsu' hstep)
    exact ⟨wsu'', runSteps_cons.mpr ⟨wsu', hstep, hrun⟩, hinv', hpre.trans hpre'⟩

/-- A new universe contains the empty set. -/
theorem newWordSetU_spec {cacheSize : Nat} (h₁ : 1 ≤ cacheSize) (h₂ : cacheSize ≤ nWCacheStatMax) :
    ∃ wsu, newWordSetU cacheSize = .ok wsu ∧ wsu.Inv := by
  rw [newWordSetU, wCacheInit, assertThat_of h₁, ok_bind, assertThat_of h₂]
  refine ⟨_, rfl, ⟨?_, List.nodup_singleton [], rfl, ?_, List.pairwise_singleton _ _, ?_, fun c => ?_⟩⟩
  · intro wv hwv
    rw [List.mem_singleton.mp hwv]
    exact sorted_nil
  · simp
  · rintro ⟨key, ix⟩
    cases ix with
    | zero => simp [eq_comm]
    | succ ix => simp
  · exact ⟨h₁, h₂, Nat.zero_le _, fun e he => nomatch he⟩

/-- **Word sets are canonical**: after any operations `ops` an index denotes a strictly sorted
vector, and goes on to do so after any further operations `ops'`; indices are equal if and only
if their sets are; the operation `op` that comes next returns, as set theory prescribes, and
returns and stores the same if the caches are emptied before. -/
theorem wordSet_canonical (cacheSize : Nat) (h₁ : 1 ≤ cacheSize) (h₂ : cacheSize ≤ nWCacheStatMax) :
    ∃ wsu₀, newWordSetU cacheSize = .ok wsu₀ ∧ ∀ ops ops',
      runMeets stepU (fun wsu op => op.Belongs wsu) wsu₀ (ops ++ ops') →
      ∃ wsu wsu', runSteps stepU wsu₀ ops = .ok wsu ∧ runSteps stepU wsu ops' = .ok wsu' ∧ Canonical wsu ∧
        (∀ (ws : WordSet) (wv : WordVec), wsu.ix2vec[ws]? = some wv → wsu'.ix2vec[ws]? = some wv) ∧
        ∀ op : Op, op.Belongs wsu → ∃ next out, step wsu op = .ok (next, out) ∧ op.Right wsu next out ∧
          ∃ uncached, step wsu.forget op = .ok (uncached, out) ∧ uncached.ix2vec = next.ix2vec := by
  obtain ⟨wsu₀, hnew, hinv₀⟩ := newWordSetU_spec h₁ h₂
  refine ⟨wsu₀, hnew, fun ops ops' hops => ?_⟩
  obtain ⟨hops, hops'⟩ := runMeets_of_append hops
  obtain ⟨wsu, hrun, hinv, -⟩ := run_spec hinv₀ hops
  obtain ⟨wsu', hrun', -, hpre⟩ := run_spec hinv (hops' wsu hrun)
  refine ⟨wsu, wsu', hrun, hrun', hinv.canonical, fun ws wv => prefix_getElem?_eq hpre, fun op hop => ?_⟩
  obtain ⟨next, out, hstep, hdone⟩ := step_spec hinv hop
  have hop' : op.Belongs wsu.forget := hop
  obtain ⟨uncached, out', hstep', hdone'⟩ := step_spec hinv.forget hop'
  obtain ⟨hix, rfl⟩ := Prod.mk.inj (Option.some.inj (hdone'.spec.symm.trans hdone.spec))
  exact ⟨next, out', hstep, hdone.right hinv hop, uncached, hstep', hix⟩

/-- The sets {7}, {3, 7} and {3}, with caches for two results. -/
theorem wordSet_canonical_small :
    ∃ wsu₀ wsu wsu', newWordSetU 2 = .ok wsu₀ ∧
      runSteps stepU wsu₀ [.singleton 7, .addTo 1 3, .delFrom 2 7, .intersect 2 1] = .ok wsu ∧
      runSteps stepU wsu [.addTo 1 3, .minus 2 3] = .ok wsu' ∧ Canonical wsu ∧
      ∀ (ws : WordSet) (wv : WordVec), wsu.ix2vec[ws]? = some wv → wsu'.ix2vec[ws]? = some wv := by
  obtain ⟨wsu₀, hnew, h⟩ := wordSet_canonical 2 (by decide) (by decide)
  have heq : wsu₀ = { vec2ix := .node ⟨[], 0⟩ 0 .nil .nil, ix2vec := [[]], empty := 0, cache := fun _ => ⟨2, []⟩ } :=
    Except.ok.inj (hnew.symm.trans rfl)
  obtain ⟨wsu, wsu', hrun, hrun', hcanon, hkept, -⟩ := h [.singleton 7, .addTo 1 3, .delFrom 2 7, .intersect 2 1]
    [.addTo 1 3, .minus 2 3] (heq ▸ by decide +kernel)
  exact ⟨wsu₀, wsu, wsu', hnew, hrun, hrun', hcanon, hkept⟩

end Runs

end Helgrind

end Valgrind
