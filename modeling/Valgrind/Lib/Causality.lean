import Mathlib.Tactic
import Mathlib.Logic.Relation

/-!
# Clocks and causality

A history of events that grows at its end. An event belongs to a thread, depends on earlier
events, and carries a clock, which counts the events of every thread that it knows of.

The events of one thread must be linked, and a clock must be what the events that it depends
on know, with one more for the thread itself (`Extends`). Histories that are made in this way
are `Clocked`, and their clocks are ordered exactly as the events are (`Clocked.le_iff`): the
clock of `j` is below that of `i` exactly if `i` depends on `j`, directly or not.
-/

namespace Causality

open Relation

/-- An event. -/
structure Event (τ : Type) where
  thr : τ
  /-- The events it depends on, by their positions in the history. -/
  deps : List Nat
  clock : τ → Nat

variable {τ : Type} {H : List (Event τ)} {e e' : Event τ} {i j k : Nat}

/-- The event at `i` depends on the one at `j`. -/
def Dep (H : List (Event τ)) (i j : Nat) : Prop := ∃ e, H[i]? = some e ∧ j ∈ e.deps

/-- What holds of the histories. -/
structure Clocked (H : List (Event τ)) : Prop where
  earlier : ∀ i j, Dep H i j → j < i
  /-- The events of a thread are linked. -/
  linked : ∀ (i j : Nat) (e e' : Event τ), H[i]? = some e → H[j]? = some e' → e.thr = e'.thr → j < i →
    TransGen (Dep H) i j ∧ e'.clock e.thr < e.clock e.thr
  /-- An event knows what the events know that it depends on. -/
  knows : ∀ (i j : Nat) (e e' : Event τ), H[i]? = some e → H[j]? = some e' → Dep H i j → e'.clock ≤ e.clock
  /-- What an event knows of a thread, it knows from an event of that thread. -/
  source : ∀ (i : Nat) (e : Event τ) (t : τ), H[i]? = some e → 0 < e.clock t →
    ∃ (k : Nat) (e' : Event τ), H[k]? = some e' ∧ e'.thr = t ∧ e'.clock t = e.clock t ∧ ReflTransGen (Dep H) i k
  own_pos : ∀ (i : Nat) (e : Event τ), H[i]? = some e → 0 < e.clock e.thr

theorem Dep.lt_length (h : Dep H i j) : i < H.length := by
  obtain ⟨e, he, -⟩ := h
  exact (List.getElem?_eq_some_iff.mp he).1

theorem Clocked.trans_lt (h : Clocked H) (hij : TransGen (Dep H) i j) : j < i := by
  induction hij with
  | single hd => exact h.earlier _ _ hd
  | tail _ hd ih => exact (h.earlier _ _ hd).trans ih

/-- No event depends on itself. -/
theorem Clocked.acyclic (h : Clocked H) (i : Nat) : ¬ TransGen (Dep H) i i :=
  fun hi => absurd (h.trans_lt hi) (Nat.lt_irrefl i)

theorem Clocked.get_of_trans (h : Clocked H) (hij : TransGen (Dep H) i j) (he : H[i]? = some e) :
    ∃ e', H[j]? = some e' := by
  have hj : j < H.length := (h.trans_lt hij).trans (List.getElem?_eq_some_iff.mp he).1
  exact ⟨_, List.getElem?_eq_getElem hj⟩

/-- What an event depends on is below it. -/
theorem Clocked.le_of_trans (h : Clocked H) (hij : TransGen (Dep H) i j) (he : H[i]? = some e)
    (he' : H[j]? = some e') : e'.clock ≤ e.clock := by
  induction hij generalizing e' with
  | single hd => exact h.knows _ _ _ _ he he' hd
  | tail hpath hd ih =>
    obtain ⟨f, hf⟩ := h.get_of_trans hpath he
    exact (h.knows _ _ _ _ hf he' hd).trans (ih hf)

/-- **The clocks are exact.** -/
theorem Clocked.le_iff (h : Clocked H) (he : H[i]? = some e) (he' : H[j]? = some e') (hne : i ≠ j) :
    e'.clock ≤ e.clock ↔ TransGen (Dep H) i j := by
  refine ⟨fun hle => ?_, fun hij => h.le_of_trans hij he he'⟩
  have hpos := h.own_pos j e' he'
  obtain ⟨k, f, hf, hthr, hclock, hik⟩ := h.source i e e'.thr he (hpos.trans_le (hle _))
  -- `f` is the last event of the thread of `e'` that `e` knows of
  rcases Nat.lt_trichotomy j k with hlt | rfl | hgt
  · exact TransGen.trans_right hik (h.linked k j f e' hf he' hthr hlt).1
  · rcases reflTransGen_iff_eq_or_transGen.mp hik with heq | hij
    · exact absurd heq.symm hne
    · exact hij
  · have hlow := (h.linked j k e' f he' hf hthr.symm hgt).2
    have : e'.clock e'.thr ≤ e.clock e'.thr := hle _
    omega

/-! ## One more event -/

/-- The event `e` can come next. -/
structure Extends (H : List (Event τ)) (e : Event τ) : Prop where
  earlier : ∀ j ∈ e.deps, j < H.length
  /-- It depends on the last event of its thread. -/
  linked : ∀ (j : Nat) (e' : Event τ), H[j]? = some e' → e'.thr = e.thr → ∃ k ∈ e.deps, ReflTransGen (Dep H) k j
  knows : ∀ (j : Nat) (e' : Event τ), H[j]? = some e' → j ∈ e.deps → e'.clock ≤ e.clock
  /-- There is one more event of its thread. -/
  ticks : ∀ (j : Nat) (e' : Event τ), H[j]? = some e' → j ∈ e.deps → e'.clock e.thr < e.clock e.thr
  own_pos : 0 < e.clock e.thr
  source : ∀ t, t ≠ e.thr → 0 < e.clock t → ∃ (k : Nat) (e' : Event τ), H[k]? = some e' ∧ k ∈ e.deps ∧ e'.clock t = e.clock t

theorem getElem?_snoc_iff : (H ++ [e])[i]? = some e' ↔ H[i]? = some e' ∨ i = H.length ∧ e' = e := by
  rcases Nat.lt_trichotomy i H.length with h | rfl | h
  · rw [List.getElem?_append_left h]
    exact ⟨.inl, fun h' => h'.elim id fun hnew => absurd hnew.1 h.ne⟩
  · simp [eq_comm]
  · rw [List.getElem?_eq_none (by simp; omega), List.getElem?_eq_none (by omega)]
    constructor
    · exact fun h' => absurd h' (by simp)
    · rintro (h' | ⟨hi, -⟩)
      · exact absurd h' (by simp)
      · exact absurd hi h.ne'

theorem dep_snoc_iff : Dep (H ++ [e]) i j ↔ Dep H i j ∨ i = H.length ∧ j ∈ e.deps := by
  constructor
  · rintro ⟨f, hf, hj⟩
    rcases getElem?_snoc_iff.mp hf with hf | ⟨rfl, rfl⟩
    · exact .inl ⟨f, hf, hj⟩
    · exact .inr ⟨rfl, hj⟩
  · rintro (⟨f, hf, hj⟩ | ⟨rfl, hj⟩)
    · exact ⟨f, getElem?_snoc_iff.mpr (.inl hf), hj⟩
    · exact ⟨e, getElem?_snoc_iff.mpr (.inr ⟨rfl, rfl⟩), hj⟩

theorem reaches_snoc (h : ReflTransGen (Dep H) i j) : ReflTransGen (Dep (H ++ [e])) i j :=
  h.lift id fun _ _ hd => dep_snoc_iff.mpr (.inl hd)

theorem depends_snoc (h : TransGen (Dep H) i j) : TransGen (Dep (H ++ [e])) i j :=
  h.lift id fun _ _ hd => dep_snoc_iff.mpr (.inl hd)

/-- A new event does not change what the others depend on. -/
theorem depends_snoc_iff (hi : i < H.length) (hearlier : ∀ i j, Dep H i j → j < i) :
    TransGen (Dep (H ++ [e])) i j ↔ TransGen (Dep H) i j := by
  refine ⟨fun h => ?_, depends_snoc⟩
  have hboth : TransGen (Dep H) i j ∧ j < H.length := by
    induction h with
    | single hd =>
      rcases dep_snoc_iff.mp hd with hd | ⟨heq, -⟩
      · exact ⟨.single hd, (hearlier _ _ hd).trans hi⟩
      · exact absurd heq hi.ne
    | tail _ hd ih =>
      rcases dep_snoc_iff.mp hd with hd | ⟨heq, -⟩
      · exact ⟨ih.1.tail hd, (hearlier _ _ hd).trans ih.2⟩
      · exact absurd heq ih.2.ne
  exact hboth.1

theorem clocked_nil : Clocked ([] : List (Event τ)) where
  earlier := fun _ _ hdep => absurd hdep.lt_length (by simp)
  linked := fun _ _ _ _ h => absurd h (by simp)
  knows := fun _ _ _ _ h => absurd h (by simp)
  source := fun _ _ _ h => absurd h (by simp)
  own_pos := fun _ _ h => absurd h (by simp)

/-- What depends on an event of the thread of `e` is below `e` in that thread. -/
theorem Extends.ticks_thread (hext : Extends H e) (h : Clocked H) (he' : H[j]? = some e') (hthr : e'.thr = e.thr) :
    e'.clock e.thr < e.clock e.thr := by
  obtain ⟨k, hk, hkj⟩ := hext.linked j e' he' hthr
  obtain ⟨f, hf⟩ : ∃ f, H[k]? = some f := ⟨_, List.getElem?_eq_getElem (hext.earlier k hk)⟩
  have hlt := hext.ticks k f hf hk
  rcases reflTransGen_iff_eq_or_transGen.mp hkj with rfl | hkj
  · rwa [← Option.some.inj (hf.symm.trans he')]
  · exact (h.le_of_trans hkj hf he' _).trans_lt hlt

/-- **One more event.** -/
theorem Clocked.snoc (h : Clocked H) (hext : Extends H e) : Clocked (H ++ [e]) where
  earlier := by
    intro i j hd
    rcases dep_snoc_iff.mp hd with hd | ⟨rfl, hj⟩
    · exact h.earlier i j hd
    · exact hext.earlier j hj
  linked := by
    intro i j f f' hf hf' hthr hlt
    rcases getElem?_snoc_iff.mp hf with hold | ⟨rfl, rfl⟩
    · rcases getElem?_snoc_iff.mp hf' with hold' | ⟨hj, -⟩
      · exact ⟨depends_snoc (h.linked i j f f' hold hold' hthr hlt).1, (h.linked i j f f' hold hold' hthr hlt).2⟩
      · have hi := (List.getElem?_eq_some_iff.mp hold).1
        exact absurd hi (Nat.not_lt.mpr (hj ▸ hlt.le))
    · rcases getElem?_snoc_iff.mp hf' with hf' | ⟨rfl, -⟩
      · obtain ⟨k, hk, hkj⟩ := hext.linked j f' hf' hthr.symm
        refine ⟨TransGen.head' (dep_snoc_iff.mpr (.inr ⟨rfl, hk⟩)) (reaches_snoc hkj), ?_⟩
        exact hext.ticks_thread h hf' hthr.symm
      · exact absurd hlt (Nat.lt_irrefl _)
  knows := by
    intro i j f f' hf hf' hd
    rcases dep_snoc_iff.mp hd with hd | ⟨rfl, hj⟩
    · have hi := hd.lt_length
      have hj := (h.earlier i j hd).trans hi
      rw [List.getElem?_append_left hi] at hf
      rw [List.getElem?_append_left hj] at hf'
      exact h.knows i j f f' hf hf' hd
    · have hf : f = e := by simpa [eq_comm] using hf
      rw [List.getElem?_append_left (hext.earlier j hj)] at hf'
      exact hf ▸ hext.knows j f' hf' hj
  source := by
    intro i f t hf hpos
    rcases getElem?_snoc_iff.mp hf with hf | ⟨rfl, rfl⟩
    · obtain ⟨k, f', hf', hthr, hclock, hik⟩ := h.source i f t hf hpos
      exact ⟨k, f', getElem?_snoc_iff.mpr (.inl hf'), hthr, hclock, reaches_snoc hik⟩
    · by_cases ht : t = f.thr
      · exact ⟨H.length, f, getElem?_snoc_iff.mpr (.inr ⟨rfl, rfl⟩), ht.symm, rfl, .refl⟩
      · obtain ⟨k, f', hf', hk, hclock⟩ := hext.source t ht hpos
        obtain ⟨l, g, hg, hthr, hclock', hkl⟩ := h.source k f' t hf' (hclock.symm ▸ hpos)
        exact ⟨l, g, getElem?_snoc_iff.mpr (.inl hg), hthr, hclock'.trans hclock,
          .head (dep_snoc_iff.mpr (.inr ⟨rfl, hk⟩)) (reaches_snoc hkl)⟩
  own_pos := by
    intro i f hf
    rcases getElem?_snoc_iff.mp hf with hf | ⟨-, rfl⟩
    · exact h.own_pos i f hf
    · exact hext.own_pos

/-! ## Clocks that tick and join -/

section Tick

variable {t u : τ} {c : τ → Nat} {f g : Event τ} {p q : Nat}

/-- The last event of a thread depends on the others of the thread. -/
theorem Clocked.reaches_last (h : Clocked H) (hp : H[p]? = some f)
    (hlast : ∀ (j : Nat) (e' : Event τ), H[j]? = some e' → e'.thr = f.thr → j ≤ p) (he' : H[j]? = some e')
    (hthr : e'.thr = f.thr) : ReflTransGen (Dep H) p j := by
  rcases (hlast j e' he' hthr).eq_or_lt with rfl | hlt
  · exact .refl
  · exact (h.linked p j f e' hp he' hthr.symm hlt).1.to_reflTransGen

/-- No event knows more of a thread than the last event of that thread. -/
theorem Clocked.le_last (h : Clocked H) (hp : H[p]? = some f)
    (hlast : ∀ (j : Nat) (e' : Event τ), H[j]? = some e' → e'.thr = f.thr → j ≤ p) (hq : H[q]? = some g) :
    g.clock f.thr ≤ f.clock f.thr := by
  rcases Nat.eq_zero_or_pos (g.clock f.thr) with hzero | hpos
  · rw [hzero]
    exact Nat.zero_le _
  obtain ⟨k, e', he', hthr, hclock, -⟩ := h.source q g f.thr hq hpos
  rw [← hclock]
  rcases reflTransGen_iff_eq_or_transGen.mp (h.reaches_last hp hlast he' hthr) with rfl | hpk
  · rw [Option.some.inj (he'.symm.trans hp)]
  · exact h.le_of_trans hpk hp he' _

variable [DecidableEq τ]

/-- A clock with one more for a thread. -/
def tick (t : τ) (c : τ → Nat) : τ → Nat := Function.update c t (c t + 1)

theorem tick_self : tick t c t = c t + 1 := Function.update_self ..

theorem lt_tick : c t < tick t c t := by
  rw [tick_self]
  exact Nat.lt_succ_self _

theorem tick_of_ne (h : u ≠ t) : tick t c u = c u := Function.update_of_ne h ..

theorem le_tick : c ≤ tick t c := by
  intro u
  by_cases h : u = t
  · subst h
    rw [tick_self]
    exact Nat.le_succ _
  · rw [tick_of_ne h]

/-- An event that ticks the clock of one earlier event, which depends on all events of its
thread, if there are any. -/
theorem Clocked.extends_tick (hp : H[p]? = some f)
    (hlast : ∀ (j : Nat) (e' : Event τ), H[j]? = some e' → e'.thr = t → ReflTransGen (Dep H) p j) :
    Extends H ⟨t, [p], tick t f.clock⟩ where
  earlier := by
    intro j hj
    rw [List.mem_singleton.mp hj]
    exact (List.getElem?_eq_some_iff.mp hp).1
  linked := fun j e' he' hthr => ⟨p, List.mem_singleton_self p, hlast j e' he' hthr⟩
  knows := by
    intro j e' he' hj
    obtain rfl := List.mem_singleton.mp hj
    rw [Option.some.inj (he'.symm.trans hp)]
    exact le_tick
  ticks := by
    intro j e' he' hj
    obtain rfl := List.mem_singleton.mp hj
    rw [Option.some.inj (he'.symm.trans hp)]
    exact lt_tick
  own_pos := (Nat.zero_le _).trans_lt (lt_tick (c := f.clock))
  source := fun u hu _ => ⟨p, f, hp, List.mem_singleton_self p, (tick_of_ne hu).symm⟩

/-- An event that depends on the last one of its thread and on another event. -/
theorem Clocked.extends_join (h : Clocked H) (hp : H[p]? = some f)
    (hlast : ∀ (j : Nat) (e' : Event τ), H[j]? = some e' → e'.thr = f.thr → j ≤ p) (hq : H[q]? = some g) :
    Extends H ⟨f.thr, [p, q], tick f.thr f.clock ⊔ g.clock⟩ := by
  have hboth : ∀ (j : Nat) (e' : Event τ), H[j]? = some e' → j ∈ [p, q] → e' = f ∨ e' = g := by
    intro j e' he' hj
    rcases List.mem_pair.mp hj with rfl | rfl
    · exact .inl (Option.some.inj (he'.symm.trans hp))
    · exact .inr (Option.some.inj (he'.symm.trans hq))
  have hown : f.clock f.thr < (tick f.thr f.clock ⊔ g.clock) f.thr :=
    lt_of_lt_of_le lt_tick le_sup_left
  refine ⟨fun j hj => ?_, fun j e' he' hthr => ⟨p, List.mem_cons_self, h.reaches_last hp hlast he' hthr⟩,
    fun j e' he' hj => ?_, fun j e' he' hj => ?_, (Nat.zero_le _).trans_lt hown, fun u hu _ => ?_⟩
  · rcases List.mem_pair.mp hj with rfl | rfl
    · exact (List.getElem?_eq_some_iff.mp hp).1
    · exact (List.getElem?_eq_some_iff.mp hq).1
  · rcases hboth j e' he' hj with rfl | rfl
    · exact le_tick.trans le_sup_left
    · exact le_sup_right
  · rcases hboth j e' he' hj with rfl | rfl
    · exact hown
    · exact (h.le_last hp hlast he').trans_lt hown
  · dsimp only
    rw [Pi.sup_apply, tick_of_ne hu]
    rcases le_total (f.clock u) (g.clock u) with hle | hle
    · exact ⟨q, g, hq, by simp, (sup_eq_right.mpr hle).symm⟩
    · exact ⟨p, f, hp, by simp, (sup_eq_left.mpr hle).symm⟩

end Tick

end Causality
