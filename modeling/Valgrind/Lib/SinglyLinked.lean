import Mathlib.Tactic

/-!
# Singly linked lists

Cells of an arbitrary type `C` lie at addresses; each has a link to the next one, and something
else of a type `V` that stays as it is.

- `Path o h p l`: from the pointer `p` on, the cells are linked in the order of the list `l` of
  their addresses and contents.
- `Path.congr`: a list depends on its own cells only.
- `Path.push`, `Path.relink`: a cell is put in front, or gets a new link.
-/

namespace SinglyLinked

/-- How the link of a cell is read and written, and what else it has. -/
structure Links (C V : Type) where
  next : C → Option Nat
  val : C → V
  setNext : C → Option Nat → C
  next_setNext : ∀ c a, next (setNext c a) = a
  val_setNext : ∀ c a, val (setNext c a) = val c

attribute [simp] Links.next_setNext Links.val_setNext

variable {C V : Type} (o : Links C V)

/-- The cells of the list are linked in this order, from this pointer on. -/
def Path (h : Nat → Option C) : Option Nat → List (Nat × V) → Prop
  | p, [] => p = none
  | p, (a, v) :: l => p = some a ∧ ∃ c, h a = some c ∧ o.val c = v ∧ Path h (o.next c) l

variable {o} {h h' : Nat → Option C} {p q : Option Nat} {l l' pre : List (Nat × V)} {a b : Nat} {v : V} {c : C}

theorem path_none (h : Nat → Option C) : Path o h none [] := rfl

theorem Path.eq_nil (H : Path o h none l) : l = [] := by
  match l with
  | [] => rfl
  | (a, v) :: l => exact nomatch H.1

/-- What a pointer that is not null points to. -/
theorem Path.some_cell (H : Path o h (some a) l) :
    ∃ c rest, h a = some c ∧ l = (a, o.val c) :: rest ∧ Path o h (o.next c) rest := by
  match l with
  | [] => exact nomatch H
  | (b, v) :: rest =>
    obtain ⟨hab, c, hc, rfl, hrest⟩ := H
    obtain rfl := Option.some.inj hab
    exact ⟨c, rest, hc, rfl, hrest⟩

/-- The cell of a member. -/
theorem Path.cell_of_mem {x : Nat × V} (H : Path o h p l) (hx : x ∈ l) : ∃ c, h x.1 = some c ∧ o.val c = x.2 := by
  induction l generalizing p with
  | nil => exact absurd hx List.not_mem_nil
  | cons y l ih =>
    obtain ⟨-, c, hc, hv, hrest⟩ := H
    rcases List.mem_cons.mp hx with rfl | hx
    · exact ⟨c, hc, hv⟩
    · exact ih hrest hx

/-- **Frame**: a list depends on its own cells only. -/
theorem Path.congr (H : Path o h p l) (heq : ∀ b ∈ l.map Prod.fst, h' b = h b) : Path o h' p l := by
  induction l generalizing p with
  | nil => exact H
  | cons x l ih =>
    obtain ⟨hp, c, hc, hv, hrest⟩ := H
    refine ⟨hp, c, (heq _ List.mem_cons_self).trans hc, hv, ih hrest fun b hb => heq b (List.mem_cons_of_mem _ hb)⟩

/-- The end of a list is a list. -/
theorem Path.suffix (H : Path o h p (pre ++ l)) : ∃ q, Path o h q l := by
  induction pre generalizing p with
  | nil => exact ⟨p, H⟩
  | cons x pre ih =>
    obtain ⟨-, c, -, -, hrest⟩ := H
    exact ih hrest

/-- A write to a cell that is not in the list. -/
theorem Path.update_of_not_mem {x : Option C} (H : Path o h p l) (ha : a ∉ l.map Prod.fst) :
    Path o (Function.update h a x) p l :=
  H.congr fun b hb => Function.update_of_ne (fun hba : b = a => ha (hba ▸ hb)) _ _

/-- **A cell is put in front.** -/
theorem Path.push (H : Path o h p l) (ha : a ∉ l.map Prod.fst) :
    Path o (Function.update h a (some (o.setNext c p))) (some a) ((a, o.val c) :: l) := by
  refine ⟨rfl, _, Function.update_self .., o.val_setNext c p, ?_⟩
  rw [o.next_setNext]
  exact H.update_of_not_mem ha

/-- **A new link** behind a part of the list. -/
theorem Path.relink (H : Path o h p (pre ++ (b, v) :: l)) (hb : b ∉ pre.map Prod.fst) (hb' : b ∉ l'.map Prod.fst)
    (hc : h b = some c) (H' : Path o h q l') :
    Path o (Function.update h b (some (o.setNext c q))) p (pre ++ (b, v) :: l') := by
  induction pre generalizing p with
  | nil =>
    obtain ⟨hp, d, hd, hv, -⟩ := H
    obtain rfl := Option.some.inj (hc.symm.trans hd)
    refine ⟨hp, _, Function.update_self .., (o.val_setNext c q).trans hv, ?_⟩
    rw [o.next_setNext]
    exact H'.update_of_not_mem hb'
  | cons x pre ih =>
    obtain ⟨hp, d, hd, hv, hrest⟩ := H
    refine ⟨hp, d, ?_, hv, ih hrest fun hmem => hb (List.mem_cons_of_mem _ hmem)⟩
    rw [Function.update_of_ne fun he : x.1 = b => hb (he ▸ List.mem_cons_self), hd]

end SinglyLinked
