import Mathlib.Data.List.Cycle
import Mathlib.Tactic

/-!
# Circular doubly linked lists

The nodes of a circular list are elements of an arbitrary type `α`; what the
links hold are keys of the nodes (addresses, indices), so the two link fields
are functions `fwd bwd : α → κ`. A list of nodes without a distinguished first
element is a `Cycle α`.

- `Linked key fwd bwd x y`: `y` follows `x`, as seen from both sides.
- `IsRing key fwd bwd c`: the nodes of `c` are distinct and each is linked to
  the next one around.
- `IsRing.unlink`, `IsRing.insert`: the two edits. Both are stated over the
  link fields after the edit, which need only agree with the old ones away from
  the two neighbours, so that any order of the field updates will do.
-/

namespace Ring

variable {α κ : Type}

/-- The forward link of `x` holds the key of `y`, and the backward link of `y`
that of `x`. -/
def Linked (key fwd bwd : α → κ) (x y : α) : Prop := fwd x = key y ∧ bwd y = key x

/-- A circular list of distinct nodes, linked both ways. -/
structure IsRing (key fwd bwd : α → κ) (c : Cycle α) : Prop where
  nodup : c.Nodup
  chain : c.Chain (Linked key fwd bwd)

variable {key fwd bwd fwd' bwd' : α → κ} {c : Cycle α} {x y : α} {l : List α}

/-- A circular list can be read from any of its nodes. -/
theorem exists_coe_cons (hx : x ∈ c) : ∃ l : List α, c = ↑(x :: l) := by
  induction c using Quotient.inductionOn' with
  | h l =>
    obtain ⟨s, t, rfl⟩ := List.append_of_mem (Cycle.mem_coe_iff.mp hx)
    exact ⟨t ++ s, Cycle.coe_eq_coe.mpr List.isRotated_append⟩

theorem isRing_nil : IsRing key fwd bwd (Cycle.nil : Cycle α) :=
  ⟨Cycle.nodup_nil, Cycle.Chain.nil _⟩

/-- A single node that points at itself both ways. -/
theorem isRing_singleton (hf : fwd x = key x) (hb : bwd x = key x) :
    IsRing key fwd bwd ([x] : List α) :=
  ⟨Cycle.nodup_coe_iff.mpr (List.nodup_singleton x), (Cycle.chain_singleton _ x).mpr ⟨hf, hb⟩⟩

/-- Read from a node, a circular list is a chain that comes back to it. -/
theorem isRing_coe_cons : IsRing key fwd bwd ↑(x :: l) ↔
    (x :: l).Nodup ∧ (x :: l).IsChain (Linked key fwd bwd) ∧
      Linked key fwd bwd ((x :: l).getLast (List.cons_ne_nil x l)) x := by
  have hsplit : (x :: (l ++ [x])).IsChain (Linked key fwd bwd) ↔
      (x :: l).IsChain (Linked key fwd bwd) ∧
        Linked key fwd bwd ((x :: l).getLast (List.cons_ne_nil x l)) x := by
    rw [← List.cons_append, List.isChain_append]
    simp [List.getLast?_eq_getLast_of_ne_nil (List.cons_ne_nil x l)]
  constructor
  · rintro ⟨hn, hc⟩
    exact ⟨Cycle.nodup_coe_iff.mp hn, hsplit.mp ((Cycle.chain_coe_cons _ _ _).mp hc)⟩
  · rintro ⟨hn, hc⟩
    exact ⟨Cycle.nodup_coe_iff.mpr hn, (Cycle.chain_coe_cons _ _ _).mpr (hsplit.mpr hc)⟩

/-- Relations between neighbours may be weakened knowing that they are on the list. -/
theorem chain_imp_of_mem {r r' : α → α → Prop} (hc : c.Chain r)
    (h : ∀ x ∈ c, ∀ y ∈ c, r x y → r' x y) : c.Chain r' := by
  induction c using Quotient.inductionOn' with
  | h l =>
    cases l with
    | nil => exact Cycle.Chain.nil r'
    | cons x l =>
      have hmem : ∀ z, z ∈ x :: (l ++ [x]) → z ∈ (↑(x :: l) : Cycle α) := by
        intro z hz
        rw [Cycle.mem_coe_iff]
        simpa [or_comm, or_assoc] using hz
      refine (Cycle.chain_coe_cons r' x l).mpr ?_
      refine ((Cycle.chain_coe_cons r x l).mp hc).imp_of_mem_imp fun y z hy hz hyz => ?_
      exact h y (hmem y hy) z (hmem z hz) hyz

/-! ## Neighbours -/

/-- Every node has a successor in the list. -/
theorem IsRing.exists_next (h : IsRing key fwd bwd c) (hx : x ∈ c) :
    ∃ y ∈ c, fwd x = key y ∧ bwd y = key x := by
  obtain ⟨l, rfl⟩ := exists_coe_cons hx
  obtain ⟨-, hc, hlast⟩ := isRing_coe_cons.mp h
  cases l with
  | nil => exact ⟨x, hx, hlast⟩
  | cons y l => exact ⟨y, by simp, (List.isChain_cons_cons.mp hc).1⟩

/-- Every node has a predecessor in the list. -/
theorem IsRing.exists_prev (h : IsRing key fwd bwd c) (hx : x ∈ c) :
    ∃ y ∈ c, fwd y = key x ∧ bwd x = key y := by
  obtain ⟨l, rfl⟩ := exists_coe_cons hx
  obtain ⟨-, -, hlast⟩ := isRing_coe_cons.mp h
  exact ⟨_, Cycle.mem_coe_iff.mpr (List.getLast_mem _), hlast⟩

/-! ## Edits -/

/-- A chain of distinct nodes survives an edit of the forward link of its last
node and of the backward link of its first. -/
theorem isChain_of_agree (hn : (x :: l).Nodup) (hc : (x :: l).IsChain (Linked key fwd bwd))
    (hf : ∀ y ∈ x :: l, y ≠ (x :: l).getLast (List.cons_ne_nil x l) → fwd' y = fwd y)
    (hb : ∀ y ∈ x :: l, y ≠ x → bwd' y = bwd y) :
    (x :: l).IsChain (Linked key fwd' bwd') := by
  rw [List.isChain_iff_getElem] at hc ⊢
  intro i hi
  obtain ⟨h₁, h₂⟩ := hc i hi
  constructor
  · rw [hf _ (List.getElem_mem _) ?_, h₁]
    intro he
    rw [List.getLast_eq_getElem, hn.getElem_inj_iff] at he
    omega
  · rw [hb _ (List.getElem_mem _) ?_, h₂]
    intro he
    have h0 : (x :: l)[i + 1] = (x :: l)[0] := he
    rw [hn.getElem_inj_iff] at h0
    omega

/-- A ring depends only on the links of its nodes. -/
theorem IsRing.congr (h : IsRing key fwd bwd c) (hf : ∀ y ∈ c, fwd' y = fwd y)
    (hb : ∀ y ∈ c, bwd' y = bwd y) : IsRing key fwd' bwd' c := by
  induction c using Cycle.induction_on with
  | nil => exact isRing_nil
  | cons x l _ =>
    obtain ⟨hn, hc, hlast⟩ := isRing_coe_cons.mp h
    have hmem : ∀ {y}, y ∈ x :: l → y ∈ (↑(x :: l) : Cycle α) := Cycle.mem_coe_iff.mpr
    refine isRing_coe_cons.mpr ⟨hn, ?_, ?_⟩
    · exact isChain_of_agree hn hc (fun y hy _ => hf y (hmem hy)) fun y hy _ => hb y (hmem hy)
    · exact ⟨(hf _ (hmem (List.getLast_mem _))).trans hlast.1, (hb x (by simp)).trans hlast.2⟩

/-- **Unlinking**: a node is alone on its list, or taking it out leaves a ring as
soon as its two neighbours point at each other. -/
theorem IsRing.unlink (h : IsRing key fwd bwd c) (hx : x ∈ c) :
    (c = ↑[x] ∧ fwd x = key x ∧ bwd x = key x) ∨
    ∃ c' : Cycle α, ∃ p ∈ c', ∃ n ∈ c', x ∉ c' ∧ (∀ y, y ∈ c ↔ y = x ∨ y ∈ c') ∧
      bwd x = key p ∧ fwd x = key n ∧
      ∀ fwd' bwd' : α → κ, fwd' p = key n → bwd' n = key p →
        (∀ y ∈ c', y ≠ p → fwd' y = fwd y) → (∀ y ∈ c', y ≠ n → bwd' y = bwd y) →
        IsRing key fwd' bwd' c' := by
  obtain ⟨l, rfl⟩ := exists_coe_cons hx
  obtain ⟨hnd, hc, hlast⟩ := isRing_coe_cons.mp h
  cases l with
  | nil => exact .inl ⟨rfl, hlast⟩
  | cons n l =>
    refine .inr ⟨↑(n :: l), (n :: l).getLast (List.cons_ne_nil n l), ?_, n, by simp, ?_, ?_, ?_⟩
    · exact Cycle.mem_coe_iff.mpr (List.getLast_mem _)
    · intro hm
      exact (List.nodup_cons.mp hnd).1 (Cycle.mem_coe_iff.mp hm)
    · intro y
      simp
    · obtain ⟨hxn, hc'⟩ := List.isChain_cons_cons.mp hc
      refine ⟨hlast.2, hxn.1, fun fwd' bwd' hp hn hf hb => ?_⟩
      have hmem : ∀ {y}, y ∈ n :: l → y ∈ (↑(n :: l) : Cycle α) := Cycle.mem_coe_iff.mpr
      refine isRing_coe_cons.mpr ⟨hnd.of_cons, ?_, ⟨hp, hn⟩⟩
      exact isChain_of_agree hnd.of_cons hc' (fun y hy => hf y (hmem hy)) fun y hy =>
        hb y (hmem hy)

/-- **Inserting**: a new node goes between a node and its predecessor. -/
theorem IsRing.insert (h : IsRing key fwd bwd c) (hy : y ∈ c) (hx : x ∉ c) :
    ∃ p ∈ c, bwd y = key p ∧
      ∀ fwd' bwd' : α → κ, fwd' p = key x → bwd' x = key p → fwd' x = key y → bwd' y = key x →
        (∀ z ∈ c, z ≠ p → fwd' z = fwd z) → (∀ z ∈ c, z ≠ y → bwd' z = bwd z) →
        ∃ c' : Cycle α, IsRing key fwd' bwd' c' ∧ ∀ z, z ∈ c' ↔ z = x ∨ z ∈ c := by
  obtain ⟨l, rfl⟩ := exists_coe_cons hy
  obtain ⟨hnd, hc, hlast⟩ := isRing_coe_cons.mp h
  have hmem : ∀ {z}, z ∈ y :: l → z ∈ (↑(y :: l) : Cycle α) := Cycle.mem_coe_iff.mpr
  refine ⟨(y :: l).getLast (List.cons_ne_nil y l), hmem (List.getLast_mem _), hlast.2, ?_⟩
  intro fwd' bwd' hp hx' hxy hy' hf hb
  have hnd' : (x :: y :: l).Nodup := List.nodup_cons.mpr ⟨fun hm => hx (hmem hm), hnd⟩
  have hc' := isChain_of_agree hnd hc (fun z hz => hf z (hmem hz)) fun z hz => hb z (hmem hz)
  refine ⟨↑(x :: y :: l), isRing_coe_cons.mpr ⟨hnd', ?_, ?_⟩, fun z => by simp⟩
  · exact List.isChain_cons_cons.mpr ⟨⟨hxy, hy'⟩, hc'⟩
  · rw [List.getLast_cons (List.cons_ne_nil y l)]
    exact ⟨hp, hx'⟩

end Ring
