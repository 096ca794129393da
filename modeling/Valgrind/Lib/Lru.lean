import Mathlib.Tactic

/-!
# Recency lists

The contents of a cache that evicts what was used least recently: a list without
duplicates, the most recently used element first. `touch` is what the use of an element
does to it. An array of a fixed size that is kept in this order by moving elements to the
front has such a list as its front part, filled up with copies of one element.
-/

namespace Valgrind.Lru

variable {α : Type} [DecidableEq α]

/-- The elements in the order of their last use, the history being the list of uses with
the last use first. -/
def recency : List α → List α
  | [] => []
  | a :: l => a :: (recency l).erase a

/-- The use of an element in a cache for `c` elements. -/
def touch (c : Nat) (a : α) (l : List α) : List α := (a :: l.erase a).take c

/-- Move an element to the front of an array; if it is not there, the last one goes. -/
def install (a : α) (l : List α) : List α := if a ∈ l then a :: l.erase a else a :: l.dropLast

section Recency

variable {a b : α} {l d : List α} {c : Nat}

@[simp] theorem recency_nil : recency ([] : List α) = [] := rfl

theorem recency_cons (a : α) (l : List α) : recency (a :: l) = a :: (recency l).erase a := rfl

theorem nodup_recency (l : List α) : (recency l).Nodup := by
  induction l with
  | nil => exact List.nodup_nil
  | cons a l ih => exact List.nodup_cons.mpr ⟨ih.not_mem_erase, ih.erase a⟩

theorem mem_recency : b ∈ recency l ↔ b ∈ l := by
  induction l with
  | nil => rfl
  | cons a l ih =>
    rw [recency_cons, List.mem_cons, List.mem_cons]
    by_cases hab : b = a
    · simp [hab]
    · rw [List.mem_erase_of_ne hab, ih]

/-- The number of different elements. -/
theorem card_toFinset (l : List α) : l.toFinset.card = (recency l).length := by
  rw [← List.toFinset_card_of_nodup (nodup_recency l)]
  refine congrArg _ (Finset.ext fun a => ?_)
  rw [List.mem_toFinset, List.mem_toFinset, mem_recency]

/-- An element that is used before all others, and not again. -/
theorem recency_concat (hb : b ∉ l) : recency (l ++ [b]) = recency l ++ [b] := by
  induction l with
  | nil => rfl
  | cons a l ih =>
    rw [List.mem_cons, not_or] at hb
    rw [List.cons_append, recency_cons, ih hb.2, recency_cons, List.cons_append]
    by_cases ha : a ∈ recency l
    · rw [List.erase_append_left _ ha]
    · rw [List.erase_append_right _ ha, List.erase_of_not_mem ha,
        List.erase_of_not_mem (by simpa using Ne.symm hb.1)]

theorem length_touch_le (c : Nat) (a : α) (l : List α) : (touch c a l).length ≤ c := List.length_take_le _ _

theorem nodup_touch (h : l.Nodup) : (touch c a l).Nodup :=
  (List.nodup_cons.mpr ⟨h.not_mem_erase, h.erase a⟩).sublist (List.take_sublist _ _)

theorem take_erase (h : l.Nodup) (a : α) (c : Nat) :
    (l.erase a).take c = ((l.take (c + 1)).erase a).take c := by
  induction l generalizing c with
  | nil => simp
  | cons b l ih =>
    obtain ⟨-, hl⟩ := List.nodup_cons.mp h
    by_cases hab : b = a
    · subst hab
      simp
    · have hne : ¬ (b == a) = true := by simpa using hab
      rw [List.erase_cons_tail hne, List.take_succ_cons, List.erase_cons_tail hne]
      cases c with
      | zero => simp
      | succ c => rw [List.take_succ_cons, List.take_succ_cons, ih hl]

/-- **Histories**: a cache for `c` elements contains the first `c` of the elements in the order
of their last use. -/
theorem take_recency_cons (c : Nat) (a : α) (h : List α) :
    (recency (a :: h)).take c = touch c a ((recency h).take c) := by
  cases c with
  | zero => simp [touch]
  | succ c =>
    rw [recency_cons, touch, List.take_succ_cons, List.take_succ_cons]
    exact congrArg _ (take_erase (nodup_recency h) a c)

end Recency

/-- The array `l` has the recency list `d` in front and is filled up with copies of `z`,
one of which is in the list. -/
structure Padded (z : α) (d l : List α) : Prop where
  nodup : d.Nodup
  split : ∃ k, l = d ++ List.replicate k z ∧ (0 < k → z ∈ d)

section Padded

variable {a z : α} {d l : List α} {c : Nat}

omit [DecidableEq α] in
theorem Padded.mem (h : Padded z d l) : a ∈ l ↔ a ∈ d := by
  obtain ⟨k, rfl, hz⟩ := h.split
  rw [List.mem_append, List.mem_replicate]
  refine ⟨fun ha => ha.elim id fun hk => hk.2 ▸ hz (Nat.pos_of_ne_zero hk.1), .inl⟩

omit [DecidableEq α] in
theorem padded_replicate (z : α) (c : Nat) : Padded z [z] (List.replicate (c + 1) z) :=
  ⟨by simp, c, by rw [List.replicate_succ]; rfl, fun _ => List.mem_singleton_self z⟩

theorem recency_append (hd : d.Nodup) (l : List α) :
    recency (d ++ l) = d ++ (recency l).filter fun b => b ∉ d := by
  induction d with
  | nil => simp
  | cons a d ih =>
    obtain ⟨ha, hd'⟩ := List.nodup_cons.mp hd
    have hnodup : ((recency l).filter fun b => b ∉ d).Nodup := (nodup_recency l).filter _
    rw [List.cons_append, recency_cons, ih hd', List.erase_append_right _ ha, hnodup.erase_eq_filter,
      List.filter_filter]
    refine congrArg (fun m => a :: (d ++ m)) (List.filter_congr fun b _ => ?_)
    by_cases hb : b = a <;> simp [hb]

/-- Read without duplicates, the array is the recency list. -/
theorem Padded.recency (h : Padded z d l) : recency l = d := by
  obtain ⟨k, rfl, hz⟩ := h.split
  rw [recency_append h.nodup, List.filter_eq_nil_iff.mpr fun b hb => ?_, List.append_nil]
  obtain ⟨hk, rfl⟩ := List.mem_replicate.mp (mem_recency.mp hb)
  simpa using hz (Nat.pos_of_ne_zero hk)

/-- **Moving to the front** is what the use of an element does to the recency list. -/
theorem Padded.install (h : Padded z d l) (hlen : l.length = c) (hc : 0 < c) (a : α) :
    Padded z (touch c a d) (install a l) := by
  have hmem : a ∈ l ↔ a ∈ d := h.mem
  obtain ⟨k, rfl, hz⟩ := h.split
  rw [List.length_append, List.length_replicate] at hlen
  unfold Lru.install
  by_cases ha : a ∈ d
  · have hfits : touch c a d = a :: d.erase a := by
      refine List.take_of_length_le ?_
      rw [List.length_cons, List.length_erase_of_mem ha]
      have := List.length_pos_of_mem ha
      omega
    rw [if_pos (hmem.mpr ha), hfits, List.erase_append_left _ ha]
    refine ⟨List.nodup_cons.mpr ⟨h.nodup.not_mem_erase, h.nodup.erase a⟩, k, rfl, fun hk => ?_⟩
    by_cases hza : z = a
    · exact hza ▸ List.mem_cons_self
    · exact List.mem_cons_of_mem _ ((List.mem_erase_of_ne hza).mpr (hz hk))
  · rw [if_neg (mt hmem.mp ha), touch, List.erase_of_not_mem ha]
    cases k with
    | zero =>
      obtain ⟨c, rfl⟩ : ∃ c', c = c' + 1 := ⟨c - 1, by omega⟩
      have hd : d.length = c + 1 := hlen
      rw [List.replicate_zero, List.append_nil, List.take_succ_cons, List.dropLast_eq_take, hd,
        Nat.add_sub_cancel]
      refine ⟨List.nodup_cons.mpr ⟨fun hm => ha (List.mem_of_mem_take hm), h.nodup.sublist (List.take_sublist _ _)⟩,
        0, by simp, fun hk => absurd hk (Nat.lt_irrefl 0)⟩
    | succ k =>
      have hfits : (a :: d).take c = a :: d := List.take_of_length_le (by rw [List.length_cons]; omega)
      rw [hfits]
      refine ⟨List.nodup_cons.mpr ⟨ha, h.nodup⟩, k, ?_, fun _ => List.mem_cons_of_mem _ (hz (Nat.succ_pos k))⟩
      rw [List.dropLast_append_of_ne_nil (by simp), List.replicate_succ', List.dropLast_concat]
      rfl

end Padded

end Valgrind.Lru
