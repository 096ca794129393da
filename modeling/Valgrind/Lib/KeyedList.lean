import Mathlib.Tactic

/-!
# Lists with keys

An ordered set is a list of elements in the strict order of their keys (`Ascending`), and a
cache is a list of which only the first element with a key counts. Looking up a key is the same
in both: `find`. The lemmas say what is found after inserting an element into an ordered set
and after changing the element with a key; after putting an element in front of a cache, and
after dropping elements at its end.
-/

namespace KeyedList

variable {α κ : Type} (key : α → κ)

section Find

variable [DecidableEq κ] {key}

/-- The first element with the key. -/
def find (key : α → κ) (l : List α) (k : κ) : Option α := l.find? fun x => key x = k

variable {l : List α} {x : α} {k : κ}

theorem find_cons : find key (x :: l) k = if key x = k then some x else find key l k := by
  unfold find
  by_cases h : key x = k
  · simp [h]
  · simp [h]

theorem key_of_find (h : find key l k = some x) : key x = k := by
  have hp := List.find?_some h
  simpa using hp

theorem mem_of_find (h : find key l k = some x) : x ∈ l := List.mem_of_find?_eq_some h

theorem find_eq_none : find key l k = none ↔ ∀ x ∈ l, key x ≠ k := by
  unfold find
  rw [List.find?_eq_none]
  simp

/-- What is found near the front is found. -/
theorem find_of_take {n : Nat} (h : find key (l.take n) k = some x) : find key l k = some x := by
  have happ : find key (l.take n ++ l.drop n) k = some x := by
    unfold find at h ⊢
    rw [List.find?_append, h]
    rfl
  rwa [List.take_append_drop] at happ

/-- Changing the element with a key leaves the keys as they are. -/
theorem find_map {f : α → α} (hf : ∀ x, key (f x) = key x) :
    find key (l.map f) k = (find key l k).map f := by
  induction l with
  | nil => rfl
  | cons x l ih =>
    rw [List.map_cons, find_cons, find_cons, hf, ih]
    split
    · rfl
    · rfl

end Find

section Ascending

variable [LinearOrder κ] {key}

/-- In the strict order of the keys. -/
def Ascending (key : α → κ) (l : List α) : Prop := l.Pairwise fun x y => key x < key y

variable {l : List α} {x y : α} {k : κ}

theorem Ascending.eq_of_key (h : Ascending key l) (hx : x ∈ l) (hy : y ∈ l) (hk : key x = key y) : x = y := by
  have hnodup : (l.map key).Nodup := List.pairwise_map.mpr (h.imp fun hlt => ne_of_lt hlt)
  exact List.inj_on_of_nodup_map hnodup hx hy hk

theorem find_iff (h : Ascending key l) : find key l k = some x ↔ x ∈ l ∧ key x = k := by
  constructor
  · exact fun hf => ⟨mem_of_find hf, key_of_find hf⟩
  · rintro ⟨hx, hk⟩
    cases hf : find key l k with
    | none => exact absurd hk (find_eq_none.mp hf x hx)
    | some y => rw [h.eq_of_key (mem_of_find hf) hx ((key_of_find hf).trans hk.symm)]

variable (key) in
/-- Insert an element in the order of the keys. -/
def insert (x : α) (l : List α) : List α := l.orderedInsert (fun x y => key x ≤ key y) x

theorem mem_insert : y ∈ insert key x l ↔ y = x ∨ y ∈ l := List.mem_orderedInsert _

theorem ascending_insert (h : Ascending key l) (hx : find key l (key x) = none) :
    Ascending key (insert key x l) := by
  induction l with
  | nil => exact List.pairwise_singleton _ _
  | cons y l ih =>
    have hy := List.pairwise_cons.mp h
    have hne : ∀ z ∈ y :: l, key z ≠ key x := find_eq_none.mp hx
    unfold insert
    rw [List.orderedInsert_cons]
    split
    · rename_i hle
      have hlt : key x < key y := lt_of_le_of_ne hle (hne y List.mem_cons_self).symm
      refine List.pairwise_cons.mpr ⟨fun z hz => ?_, h⟩
      rcases List.mem_cons.mp hz with rfl | hz
      · exact hlt
      · exact hlt.trans (hy.1 z hz)
    · rename_i hle
      have hrest : find key l (key x) = none := find_eq_none.mpr fun z hz => hne z (List.mem_cons_of_mem _ hz)
      refine List.pairwise_cons.mpr ⟨fun z hz => ?_, ih hy.2 hrest⟩
      rcases mem_insert.mp hz with rfl | hz
      · exact lt_of_not_ge hle
      · exact hy.1 z hz

theorem find_insert (h : Ascending key l) (hx : find key l (key x) = none) :
    find key (insert key x l) k = if key x = k then some x else find key l k := by
  have h' := ascending_insert h hx
  split
  · rename_i hk
    exact (find_iff h').mpr ⟨mem_insert.mpr (.inl rfl), hk⟩
  · rename_i hk
    cases hf : find key l k with
    | some y =>
      obtain ⟨hy, hky⟩ := (find_iff h).mp hf
      exact (find_iff h').mpr ⟨mem_insert.mpr (.inr hy), hky⟩
    | none =>
      refine find_eq_none.mpr fun y hy => ?_
      rcases mem_insert.mp hy with rfl | hy
      · exact hk
      · exact find_eq_none.mp hf y hy

theorem ascending_map {f : α → α} (hf : ∀ x, key (f x) = key x) (h : Ascending key l) :
    Ascending key (l.map f) := by
  unfold Ascending at h ⊢
  rw [List.pairwise_map]
  simpa only [hf] using h

end Ascending

end KeyedList
