import Mathlib.Tactic

/-!
# Knockout rounds

In a round the elements of a list meet in pairs, neighbour by neighbour, and of every pair one is
picked; rounds follow one another until a single element is left. Whoever is picked from every pair
with another element wins, however the list is ordered (`winner_of_beats`), and unless there is such an
element the winner depends on the order (`winner_perm_iff`).
-/

namespace Valgrind.Knockout

variable {α : Type} (pick : α → α → α)

/-- One round: an element without a neighbour is left over. -/
def round : List α → List α
  | a :: b :: l => pick a b :: round l
  | l => l

/-- The one who is left after at most `n` rounds. -/
def winner : Nat → List α → Option α
  | _, [a] => some a
  | n + 1, l => winner n (round pick l)
  | 0, _ => none

variable {pick} {l l' : List α} {a b w : α} {n : Nat}

theorem length_round (l : List α) : 2 * (round pick l).length ≤ l.length + 1 := by
  induction l using round.induct with
  | case1 a b l ih =>
    rw [round, List.length_cons, List.length_cons, List.length_cons]
    omega
  | case2 l h =>
    match l with
    | [] => simp [round]
    | [a] => simp [round]
    | a :: b :: l => exact absurd rfl (h a b l)

theorem round_ne_nil (h : l ≠ []) : round pick l ≠ [] := by
  match l with
  | [] => exact absurd rfl h
  | [a] => exact List.cons_ne_nil _ _
  | a :: b :: l => exact List.cons_ne_nil _ _

section Choice

variable (hpick : ∀ a b, pick a b = a ∨ pick a b = b)

include hpick

theorem mem_of_mem_round (h : w ∈ round pick l) : w ∈ l := by
  induction l using round.induct with
  | case1 a b l ih =>
    rw [round, List.mem_cons] at h
    rcases h with rfl | h
    · rcases hpick a b with h | h <;> rw [h] <;> simp
    · exact List.mem_cons_of_mem _ (List.mem_cons_of_mem _ (ih h))
  | case2 l h' =>
    match l with
    | [] => exact h
    | [a] => exact h
    | a :: b :: l => exact absurd rfl (h' a b l)

theorem mem_of_winner (h : winner pick n l = some w) : w ∈ l := by
  induction n generalizing l with
  | zero =>
    match l with
    | [a] => exact Option.some.inj h ▸ List.mem_singleton_self a
    | [] => exact nomatch h
    | a :: b :: l => exact nomatch h
  | succ n ih =>
    match l with
    | [a] => exact Option.some.inj h ▸ List.mem_singleton_self a
    | [] => exact mem_of_mem_round hpick (ih h)
    | a :: b :: l => exact mem_of_mem_round hpick (ih h)

/-- **Who is out** after the first round does not win. -/
theorem winner_ne (hout : a ∉ round pick (b :: w :: l)) : winner pick n (b :: w :: l) ≠ some a := by
  match n with
  | 0 => exact fun h => (nomatch h)
  | n + 1 => exact fun h => hout (mem_of_winner hpick h)

end Choice

/-- The rounds come to an end. -/
theorem exists_winner (hne : l ≠ []) (hn : l.length ≤ n + 1) : ∃ w, winner pick n l = some w := by
  induction n generalizing l with
  | zero =>
    match l with
    | [] => exact absurd rfl hne
    | [a] => exact ⟨a, rfl⟩
    | a :: b :: l => simp at hn
  | succ n ih =>
    match l with
    | [] => exact absurd rfl hne
    | [a] => exact ⟨a, rfl⟩
    | a :: b :: l =>
      have hlen := @length_round _ pick (a :: b :: l)
      rw [List.length_cons, List.length_cons] at hlen hn
      exact ih (round_ne_nil hne) (by omega)

/-- `w` is picked whoever it meets. -/
def Beats (pick : α → α → α) (w : α) (l : List α) : Prop := ∀ a ∈ l, pick w a = w ∧ pick a w = w

theorem Beats.mem_round (h : Beats pick w l) (hw : w ∈ l) : w ∈ round pick l := by
  induction l using round.induct with
  | case1 a b l ih =>
    rw [round, List.mem_cons]
    rcases List.mem_cons.mp hw with rfl | hw
    · exact .inl (h b (by simp)).1.symm
    rcases List.mem_cons.mp hw with rfl | hw
    · exact .inl (h a (by simp)).2.symm
    · exact .inr (ih (fun c hc => h c (by simp [hc])) hw)
  | case2 l h' =>
    match l with
    | [] => exact hw
    | [a] => exact hw
    | a :: b :: l => exact absurd rfl (h' a b l)

/-- **Who is picked whoever it meets** wins. -/
theorem winner_of_beats (hpick : ∀ a b, pick a b = a ∨ pick a b = b) (h : Beats pick w l) (hw : w ∈ l)
    (hn : l.length ≤ n + 1) : winner pick n l = some w := by
  induction n generalizing l with
  | zero =>
    match l with
    | [a] => rw [List.mem_singleton.mp hw, winner]
    | [] => exact nomatch hw
    | a :: b :: l => simp at hn
  | succ n ih =>
    match l with
    | [a] => rw [List.mem_singleton.mp hw, winner]
    | [] => exact nomatch hw
    | a :: b :: l =>
      have hlen := @length_round _ pick (a :: b :: l)
      rw [List.length_cons, List.length_cons] at hlen hn
      exact ih (fun c hc => h c (mem_of_mem_round hpick hc)) (h.mem_round hw) (by omega)

/-- **The order does not matter** exactly when there is an element that is picked whoever it meets;
where there is none, everyone is out in some order after the first round. -/
theorem winner_perm_iff (hpick : ∀ a b, pick a b = a ∨ pick a b = b) (hcomm : ∀ a ∈ l, ∀ b ∈ l, pick a b = pick b a)
    (hnodup : l.Nodup) :
    (∃ w, ∀ l', l'.Perm l → winner pick l.length l' = some w) ↔ ∃ w ∈ l, Beats pick w l := by
  classical
  constructor
  · rintro ⟨w, hwin⟩
    have hw : w ∈ l := mem_of_winner hpick (hwin l (List.Perm.refl l))
    refine ⟨w, hw, fun a ha => ?_⟩
    rw [hcomm a ha w hw, and_self]
    by_contra hlose
    have hpicked : pick w a = a := (hpick w a).resolve_left hlose
    have hne : a ≠ w := fun h => hlose (h ▸ hpicked)
    -- `w` meets `a` in the first round
    obtain ⟨l₁, hl₁⟩ : ∃ l₁, l₁ = (l.erase w).erase a := ⟨_, rfl⟩
    have hperm : (w :: a :: l₁).Perm l := by
      rw [hl₁]
      exact ((List.perm_cons_erase ((List.mem_erase_of_ne hne).mpr ha)).symm.cons w).trans (List.perm_cons_erase hw).symm
    refine winner_ne hpick ?_ (hwin _ hperm)
    rw [round, hpicked, List.mem_cons, not_or]
    refine ⟨hne.symm, fun h => ?_⟩
    have hmem := mem_of_mem_round hpick h
    rw [hl₁] at hmem
    exact hnodup.not_mem_erase (List.mem_of_mem_erase hmem)
  · rintro ⟨w, hw, hbeats⟩
    refine ⟨w, fun l' hperm => winner_of_beats hpick (fun a ha => hbeats a (hperm.mem_iff.mp ha))
      (hperm.mem_iff.mpr hw) ?_⟩
    rw [hperm.length_eq]
    exact Nat.le_succ _

end Valgrind.Knockout
