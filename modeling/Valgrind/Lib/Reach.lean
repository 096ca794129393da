import Mathlib.Tactic
import Mathlib.Logic.Relation

/-!
# Reachability in a graph that loses nodes

A graph is a relation. Taking a node out of it and joining its predecessors to its successors
(`Bypass`) does not change which of the other nodes can be reached from which
(`bypass_iff`).

So a graph in which nodes come and go can be compared with one that only grows: in the
second each new life of a node is a node of its own. `Follows` says that the two have the
same reachability among the nodes that are alive; adding edges and taking out nodes keep it.
-/

namespace Reach

open Relation

variable {α β : Type} {E E' N : α → α → Prop} {H : β → β → Prop} {cur : α → β} {a b x : α} {p q : β}

/-- What holds of a node and of the successors of the nodes it holds of, holds of all that can
be reached. -/
theorem closed {P : α → Prop} (hclosed : ∀ a b, P a → E a b → P b) (ha : P a) (h : ReflTransGen E a b) : P b := by
  induction h with
  | refl => exact ha
  | tail _ hlast ih => exact hclosed _ _ ih hlast

/-- More edges. -/
theorem grow (hle : ∀ a b, E a b → E' a b) (h : ReflTransGen E a b) : ReflTransGen E' a b :=
  h.lift id hle

/-- A node without successors reaches only itself. -/
theorem eq_of_no_succ (hno : ∀ b, ¬ E a b) (h : ReflTransGen E a b) : b = a :=
  (ReflTransGen.cases_head h).elim Eq.symm fun ⟨c, hc, _⟩ => absurd hc (hno c)

/-- A node without predecessors is reached only from itself. -/
theorem eq_of_no_pred (hno : ∀ a, ¬ E a b) (h : ReflTransGen E a b) : b = a :=
  (ReflTransGen.cases_tail h).elim id fun ⟨c, _, hc⟩ => absurd hc (hno c)

/-! ## Taking out a node -/

/-- The edges when `x` is taken out. -/
def Bypass (E : α → α → Prop) (x : α) : α → α → Prop := fun a b =>
  a ≠ x ∧ b ≠ x ∧ (E a b ∨ a ≠ b ∧ E a x ∧ E x b)

/-- The other nodes reach each other as before. -/
theorem bypass_iff (ha : a ≠ x) (hb : b ≠ x) : ReflTransGen (Bypass E x) a b ↔ ReflTransGen E a b := by
  constructor
  · intro h
    refine closed (P := ReflTransGen E a) (fun b c hb ⟨_, _, h⟩ => ?_) .refl h
    rcases h with h | ⟨-, h₁, h₂⟩
    · exact hb.tail h
    · exact (hb.tail h₁).tail h₂
  · intro h
    -- a path that is at `x` has come there from a node that is reached without `x`
    have hpath : (b ≠ x → ReflTransGen (Bypass E x) a b) ∧
        (b = x → ∃ p, p ≠ x ∧ ReflTransGen (Bypass E x) a p ∧ E p x) := by
      clear hb
      induction h with
      | refl => exact ⟨fun _ => .refl, fun h => absurd h ha⟩
      | @tail b c _ hbc ih =>
        by_cases hbx : b = x
        · subst hbx
          obtain ⟨p, hp, hreach, hpx⟩ := ih.2 rfl
          refine ⟨fun hc => ?_, fun _ => ⟨p, hp, hreach, hpx⟩⟩
          by_cases hpc : p = c
          · exact hpc ▸ hreach
          · exact hreach.tail ⟨hp, hc, .inr ⟨hpc, hpx, hbc⟩⟩
        · refine ⟨fun hc => (ih.1 hbx).tail ⟨hbx, hc, .inl hbc⟩, fun hc => ?_⟩
          exact ⟨b, hbx, ih.1 hbx, hc ▸ hbc⟩
    exact hpath.1 hb

/-! ## Following a graph that only grows -/

/-- The node `a` of the first graph is the node `cur a` of the second one. -/
def Follows (E : α → α → Prop) (H : β → β → Prop) (cur : α → β) : Prop :=
  ∀ a b, ReflTransGen E a b ↔ ReflTransGen H (cur a) (cur b)

theorem Follows.congr (h : Follows E H cur) (hE : ∀ a b, E' a b ↔ E a b) : Follows E' H cur := by
  rwa [show E' = E from funext₂ fun a b => propext (hE a b)]

/-- The edges `N` are added to both graphs. -/
theorem Follows.add (h : Follows E H cur) (N : α → α → Prop) :
    Follows (fun a b => E a b ∨ N a b) (fun p q => H p q ∨ ∃ a b, N a b ∧ p = cur a ∧ q = cur b) cur := by
  intro a b
  constructor
  · intro hab
    refine closed (P := fun b => ReflTransGen (fun p q => H p q ∨ ∃ a b, N a b ∧ p = cur a ∧ q = cur b) (cur a) (cur b))
      (fun b c hb hbc => ?_) .refl hab
    rcases hbc with hbc | hbc
    · exact hb.trans (grow (fun _ _ => .inl) ((h b c).mp (.single hbc)))
    · exact hb.tail (.inr ⟨b, c, hbc, rfl, rfl⟩)
  · intro hab
    -- between two new edges a path leads from a living node to a living node
    have hpath : ∀ q, ReflTransGen (fun p q => H p q ∨ ∃ a b, N a b ∧ p = cur a ∧ q = cur b) (cur a) q →
        ∃ c, ReflTransGen (fun a b => E a b ∨ N a b) a c ∧ ReflTransGen H (cur c) q := by
      intro q hq
      induction hq with
      | refl => exact ⟨a, .refl, .refl⟩
      | tail _ hlast ih =>
        obtain ⟨c, hc, hcq⟩ := ih
        rcases hlast with hlast | ⟨d, e, hde, rfl, rfl⟩
        · exact ⟨c, hc, hcq.tail hlast⟩
        · have hcd : ReflTransGen (fun a b => E a b ∨ N a b) c d := grow (fun _ _ => .inl) ((h c d).mpr hcq)
          exact ⟨e, (hc.trans hcd).tail (.inr hde), .refl⟩
    obtain ⟨c, hc, hcb⟩ := hpath _ hab
    exact hc.trans (grow (fun _ _ => .inl) ((h c b).mpr hcb))

/-- The node `x` is taken out, and begins a new life as `q`. -/
theorem Follows.remove [DecidableEq α] (h : Follows E H cur) (x : α) (hcur : ∀ a, cur a ≠ q)
    (hout : ∀ p, ¬ H q p) (hin : ∀ p, ¬ H p q) : Follows (Bypass E x) H (Function.update cur x q) := by
  intro a b
  by_cases ha : a = x
  · subst ha
    rw [Function.update_self]
    constructor
    · intro hab
      rw [eq_of_no_succ (fun b hb => hb.1 rfl) hab, Function.update_self]
    · intro hab
      have hb := eq_of_no_succ hout hab
      by_cases hba : b = a
      · rw [hba]
      · rw [Function.update_of_ne hba] at hb
        exact absurd hb (hcur b)
  · rw [Function.update_of_ne ha]
    by_cases hb : b = x
    · subst hb
      rw [Function.update_self]
      constructor
      · intro hab
        exact absurd (eq_of_no_pred (fun c hc => hc.2.1 rfl) hab).symm ha
      · intro hab
        exact absurd (eq_of_no_pred hin hab).symm (hcur a)
    · rw [Function.update_of_ne hb, bypass_iff ha hb]
      exact h a b

end Reach
