import Mathlib.Tactic

/-!
# Doubly linked lists

Cells of an arbitrary type `C` lie at addresses, and have a link to the next and one to the previous
cell; a list has a pointer to its first and one to its last cell.

- `Linked o h first last l`: the cells at the addresses `l` are linked in this order, from both ends.
- `Linked.unique`: the memory determines the list.
- `unlink`, `Linked.unlink`: what is left when a cell is taken out, wherever it stands.
-/

namespace LinkedList

/-- How the links of a cell are read and written. -/
structure Links (C : Type) where
  next : C → Option Nat
  prev : C → Option Nat
  setNext : C → Option Nat → C
  setPrev : C → Option Nat → C
  next_setNext : ∀ c a, next (setNext c a) = a
  prev_setNext : ∀ c a, prev (setNext c a) = prev c
  next_setPrev : ∀ c a, next (setPrev c a) = next c
  prev_setPrev : ∀ c a, prev (setPrev c a) = a

attribute [simp] Links.next_setNext Links.prev_setNext Links.next_setPrev Links.prev_setPrev

variable {C : Type} (o : Links C)

/-- The cells are linked in the order of the list. -/
structure Linked (h : Nat → Option C) (first last : Option Nat) (l : List Nat) : Prop where
  first : first = l.head?
  last : last = l.getLast?
  cell : ∀ pre a post, l = pre ++ a :: post →
    ∃ c, h a = some c ∧ o.next c = post.head? ∧ o.prev c = pre.getLast?

/-- Change the cell at an address, if there is one. -/
def modify (h : Nat → Option C) (f : C → C) : Option Nat → Nat → Option C
  | none => h
  | some a => Function.update h a ((h a).map f)

/-- The memory after the neighbours of a cell have been linked to each other. -/
def unlinkHeap (h : Nat → Option C) (c : C) : Nat → Option C :=
  modify (modify h (fun p => o.setNext p (o.next c)) (o.prev c)) (fun q => o.setPrev q (o.prev c)) (o.next c)

variable {o} {h h' : Nat → Option C} {first last : Option Nat} {l l' pre post : List Nat} {a b : Nat} {c d : C}
  {f : C → C}

theorem modify_self (ha : h a = some c) : modify h f (some a) a = some (f c) := by
  rw [modify, Function.update_self, ha]
  rfl

theorem modify_of_ne {x : Option Nat} (hx : x ≠ some b) : modify h f x b = h b := by
  cases x with
  | none => rfl
  | some a => exact Function.update_of_ne (fun hba => hx (congrArg some hba.symm)) _ _

/-- What has nothing to do with the links of a cell is not changed. -/
theorem map_modify {β : Type} {g : C → β} (hf : ∀ c, g (f c) = g c) (x : Option Nat) (b : Nat) :
    (modify h f x b).map g = (h b).map g := by
  by_cases hx : x = some b
  · rw [hx, modify, Function.update_self, Option.map_map]
    exact congrArg (fun k => (h b).map k) (funext hf)
  · rw [modify_of_ne hx]

theorem map_unlinkHeap {β : Type} {g : C → β} (hnext : ∀ c a, g (o.setNext c a) = g c)
    (hprev : ∀ c a, g (o.setPrev c a) = g c) (c : C) (b : Nat) : (unlinkHeap o h c b).map g = (h b).map g := by
  rw [unlinkHeap, map_modify fun d => hprev d _, map_modify fun d => hnext d _]

/-- A list depends on its own cells only. -/
theorem Linked.congr (H : Linked o h first last l) (heq : ∀ b ∈ l, h' b = h b) : Linked o h' first last l := by
  refine ⟨H.first, H.last, fun pre a post hl => ?_⟩
  rw [heq a (hl ▸ List.mem_append_right _ List.mem_cons_self)]
  exact H.cell pre a post hl

/-- **The list is determined** by where it starts. -/
theorem Linked.unique {last' : Option Nat} (H : Linked o h first last l) (H' : Linked o h first last' l') :
    l = l' := by
  -- from any place on that the two lists have reached together
  have hsuffix : ∀ (s s' p p' : List Nat), l = p ++ s → l' = p' ++ s' → s.head? = s'.head? → s = s' := by
    intro s
    induction s with
    | nil =>
      intro s' p p' _ _ hhead
      exact (List.head?_eq_none_iff.mp hhead.symm).symm
    | cons a s ih =>
      intro s' p p' hl hl' hhead
      match s' with
      | [] => exact nomatch hhead
      | b :: s' =>
        obtain rfl : a = b := Option.some.inj hhead
        obtain ⟨c, hc, hnext, -⟩ := H.cell p a s hl
        obtain ⟨c', hc', hnext', -⟩ := H'.cell p' a s' hl'
        obtain rfl : c = c' := Option.some.inj (hc.symm.trans hc')
        rw [ih s' (p ++ [a]) (p' ++ [a]) (by simp [hl]) (by simp [hl']) (hnext.symm.trans hnext')]
  exact hsuffix l l' [] [] rfl rfl (H.first.symm.trans H'.first)

/-- The cells from a place on, read one after the other; `p` is the cell before them. -/
def Chain (o : Links C) (h : Nat → Option C) : Option Nat → List Nat → Prop
  | _, [] => True
  | p, a :: l => ∃ c, h a = some c ∧ o.next c = l.head? ∧ o.prev c = p ∧ Chain o h (some a) l

/-- **Building a list** from its cells. -/
theorem linked_of_chain (hfirst : first = l.head?) (hlast : last = l.getLast?) (hchain : Chain o h none l) :
    Linked o h first last l := by
  have hcells : ∀ (s : List Nat) (p₀ : List Nat), Chain o h p₀.getLast? s → ∀ pre a post, s = pre ++ a :: post →
      ∃ c, h a = some c ∧ o.next c = post.head? ∧ o.prev c = (p₀ ++ pre).getLast? := by
    intro s
    induction s with
    | nil => exact fun p₀ _ pre a post hs => absurd hs (by simp)
    | cons b s ih =>
      rintro p₀ ⟨c, hc, hnext, hprev, hrest⟩ pre a post hs
      match pre with
      | [] =>
        obtain ⟨rfl, rfl⟩ := List.cons.inj hs
        exact ⟨c, hc, hnext, by rw [hprev, List.append_nil]⟩
      | x :: pre =>
        obtain ⟨rfl, hs'⟩ := List.cons.inj hs
        rw [List.append_cons]
        exact ih (p₀ ++ [b]) (by rwa [List.getLast?_concat]) pre a post hs'
  exact ⟨hfirst, hlast, fun pre a post hl => hcells l [] hchain pre a post hl⟩

section Unlink

variable (H : Linked o h first last (pre ++ a :: post)) (hnodup : (pre ++ a :: post).Nodup) (hc : h a = some c)

include H hc

/-- The links of the cell that is taken out. -/
theorem Linked.links : o.next c = post.head? ∧ o.prev c = pre.getLast? := by
  obtain ⟨c', hc', hlinks⟩ := H.cell pre a post rfl
  obtain rfl : c = c' := Option.some.inj (hc.symm.trans hc')
  exact hlinks

/-- Cells that are not neighbours stay as they are. -/
theorem Linked.unlinkHeap_of_not_mem (hpre : b ∉ pre) (hpost : b ∉ post) : unlinkHeap o h c b = h b := by
  obtain ⟨hnext, hprev⟩ := H.links hc
  rw [unlinkHeap, modify_of_ne, modify_of_ne]
  · rw [hprev]
    exact fun heq => hpre (List.mem_of_getLast? heq)
  · rw [hnext]
    exact fun heq => hpost (List.mem_of_head? heq)

include hnodup

/-- The cells before the one that is taken out. -/
theorem Linked.unlinkHeap_pre {p m : List Nat} (hpre : pre = p ++ b :: m) (hd : h b = some d) :
    unlinkHeap o h c b = some (if m = [] then o.setNext d (o.next c) else d) := by
  obtain ⟨hnext, hprev⟩ := H.links hc
  have hb : b ∉ post := fun hb => by
    have hmem : b ∈ pre := hpre ▸ List.mem_append_right _ List.mem_cons_self
    exact (List.disjoint_of_nodup_append hnodup) hmem (List.mem_cons_of_mem _ hb)
  rw [unlinkHeap, modify_of_ne (by rw [hnext]; exact fun heq => hb (List.mem_of_head? heq)), hprev, hpre]
  by_cases hm : m = []
  · rw [if_pos hm, hm, List.getLast?_concat, modify_self hd]
  · have hpairs : (p ++ b :: m).Nodup := hpre ▸ (List.nodup_append.mp hnodup).1
    have hbm : b ∉ m := (List.nodup_cons.mp (List.nodup_append.mp hpairs).2.1).1
    rw [if_neg hm, modify_of_ne, hd]
    rw [List.getLast?_append_of_ne_nil _ (List.cons_ne_nil b m), List.getLast?_cons_of_ne_nil hm]
    exact fun heq => hbm (List.mem_of_getLast? heq)

/-- The cells behind the one that is taken out. -/
theorem Linked.unlinkHeap_post {p m : List Nat} (hpost : post = p ++ b :: m) (hd : h b = some d) :
    unlinkHeap o h c b = some (if p = [] then o.setPrev d (o.prev c) else d) := by
  obtain ⟨hnext, hprev⟩ := H.links hc
  have hmem : b ∈ post := hpost ▸ List.mem_append_right _ List.mem_cons_self
  have hb : b ∉ pre := fun hb =>
    (List.disjoint_of_nodup_append hnodup) hb (List.mem_cons_of_mem _ hmem)
  have hfirst : modify h (fun p => o.setNext p (o.next c)) (o.prev c) b = some d := by
    rw [modify_of_ne, hd]
    rw [hprev]
    exact fun heq => hb (List.mem_of_getLast? heq)
  rw [unlinkHeap, hnext, hpost]
  match p with
  | [] => rw [List.nil_append, List.head?_cons, modify_self (by rw [← hfirst, hnext, hpost]; rfl), if_pos rfl]
  | q :: p =>
    have hpairs : (q :: p ++ b :: m).Nodup := hpost ▸ (List.nodup_cons.mp (List.nodup_append.mp hnodup).2.1).2
    have hne : q ≠ b := fun heq =>
      (List.nodup_cons.mp hpairs).1 (heq ▸ List.mem_append_right _ List.mem_cons_self)
    rw [if_neg (List.cons_ne_nil _ _), List.cons_append, List.head?_cons,
      modify_of_ne fun heq => hne (Option.some.inj heq)]
    rw [← hfirst, hnext, hpost]
    rfl

/-- **A cell is taken out**, wherever it stands: its neighbours are linked, and where it was the first
or the last one its neighbour takes this place. -/
theorem Linked.unlink : Linked o (unlinkHeap o h c) (if first = some a then o.next c else first)
    (if last = some a then o.prev c else last) (pre ++ post) := by
  obtain ⟨hnext, hprev⟩ := H.links hc
  have hapre : a ∉ pre := fun ha => (List.disjoint_of_nodup_append hnodup) ha List.mem_cons_self
  have hapost : a ∉ post := (List.nodup_cons.mp (List.nodup_append.mp hnodup).2.1).1
  refine ⟨?_, ?_, fun p b m hl => ?_⟩
  · have hfirst := H.first
    match pre with
    | [] => rw [hfirst, List.nil_append, List.head?_cons, if_pos rfl, hnext, List.nil_append]
    | q :: pre =>
      rw [hfirst, List.cons_append, List.cons_append, List.head?_cons, List.head?_cons, if_neg]
      exact fun heq => hapre (Option.some.inj heq ▸ List.mem_cons_self)
  · have hlast := H.last
    rcases List.eq_nil_or_concat post with rfl | ⟨post', q, rfl⟩
    · rw [hlast, List.getLast?_concat, if_pos rfl, hprev, List.append_nil]
    · rw [List.concat_eq_append] at hlast hapost ⊢
      rw [hlast, ← List.cons_append, ← List.append_assoc, List.getLast?_concat, ← List.append_assoc,
        List.getLast?_concat, if_neg]
      exact fun heq => hapost (Option.some.inj heq ▸ List.mem_append_right _ (List.mem_singleton_self _))
  · rcases List.append_eq_append_iff.mp hl with ⟨m', hp, hpost⟩ | ⟨m', hpre, hm⟩
    · -- behind the cell
      obtain ⟨d, hd, hnext', hprev'⟩ := H.cell (pre ++ a :: m') b m (by rw [hpost]; simp)
      refine ⟨_, H.unlinkHeap_post hnodup hc hpost hd, ?_, ?_⟩
      · split <;> simp [hnext']
      · rw [hp]
        split
        · rename_i hm'
          rw [o.prev_setPrev, hprev, hm', List.append_nil]
        · rename_i hm'
          rw [hprev', List.getLast?_append_of_ne_nil _ (List.cons_ne_nil a m'), List.getLast?_cons_of_ne_nil hm',
            List.getLast?_append_of_ne_nil _ hm']
    · match m' with
      | [] =>
        -- behind the cell, and next to it
        rw [List.nil_append] at hm
        rw [List.append_nil] at hpre
        obtain ⟨d, hd, hnext', hprev'⟩ := H.cell (pre ++ [a]) b m (by rw [← hm]; simp)
        refine ⟨_, H.unlinkHeap_post (p := []) hnodup hc hm.symm hd, ?_, ?_⟩
        · rw [if_pos rfl, o.next_setPrev, hnext']
        · rw [if_pos rfl, o.prev_setPrev, hprev, hpre]
      | x :: m' =>
        rw [List.cons_append] at hm
        obtain ⟨rfl, rfl⟩ := List.cons.inj hm
        obtain ⟨d, hd, hnext', hprev'⟩ := H.cell p b (m' ++ a :: post) (by rw [hpre]; simp)
        refine ⟨_, H.unlinkHeap_pre hnodup hc hpre hd, ?_, ?_⟩
        · split
          · rename_i hm'
            rw [o.next_setNext, hnext, hm', List.nil_append]
          · rename_i hm'
            rw [hnext', List.head?_append_of_ne_nil _ hm', List.head?_append_of_ne_nil _ hm']
        · split <;> simp [hprev']

end Unlink

end LinkedList
