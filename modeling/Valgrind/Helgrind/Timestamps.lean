import Valgrind.Basics.Result
import Valgrind.Lib.SortedMerge

/-!
# Vector timestamps (`hg_main.c`)

A vector timestamp is an array of scalar timestamps, strictly sorted by the addresses of the
threads; a thread that does not occur has the time 0. The two functions that take two
timestamps walk them side by side (`triples`). What they compute is, thread by thread, the
comparison and the maximum.
-/

namespace Valgrind

namespace Helgrind

open SortedMerge

/-- `ScalarTS`. -/
structure ScalarTS where
  thr : Nat
  tym : Nat
  deriving DecidableEq, Repr

/-- Vector timestamps, `XArray`s of `ScalarTS`. -/
abbrev VTS := List ScalarTS

/-- `is_sane_VTS`. -/
def isSaneVTS : VTS → Bool
  | st1 :: st2 :: rest =>
    if st1.thr ≥ st2.thr then false
    else if st1.tym = 0 ∨ st2.tym = 0 then false
    else isSaneVTS (st2 :: rest)
  | _ => true

/-- `singleton_VTS`. -/
def singletonVTS (thr tym : Nat) : Result VTS := do
  assertThat (thr ≠ 0)
  assertThat (tym ≥ 1)
  return [⟨thr, tym⟩]

/-- A thread, and its time in two timestamps. -/
structure Triple where
  thr : Nat
  tyma : Nat
  tymb : Nat

/-- What the loops of `cmpGEQ_VTS` and `tickL_and_joinR_VTS` enumerate: the next thread that occurs
in either, with its times, implicit zeroes taken into account. -/
def triples : VTS → VTS → List Triple
  | [], [] => []
  -- `a` empty, use up `b`
  | [], sb :: b => ⟨sb.thr, 0, sb.tym⟩ :: triples [] b
  -- `b` empty, use up `a`
  | sa :: a, [] => ⟨sa.thr, sa.tym, 0⟩ :: triples a []
  -- both not empty; extract the triple with the lowest thread
  | sa :: a, sb :: b =>
    if sa.thr < sb.thr then ⟨sa.thr, sa.tym, 0⟩ :: triples a (sb :: b)
    else if sa.thr > sb.thr then ⟨sb.thr, 0, sb.tym⟩ :: triples (sa :: a) b
    else ⟨sa.thr, sa.tym, sb.tym⟩ :: triples a b
  termination_by a b => a.length + b.length

/-- `cmpGEQ_VTS`. -/
def cmpGEQVTS (a b : VTS) : Bool :=
  let allGeq := !(triples a b).any fun t => t.tyma < t.tymb
  let allLeq := !(triples a b).any fun t => t.tyma > t.tymb
  if allLeq && allGeq then true
  else if allLeq then false
  else if allGeq then true
  else false

/-- What `tickL_and_joinR_VTS` does with a triple: the entry is added to the result, and a tick of
`thra` is counted. -/
def joinStep (thra : Nat) (s : VTS × Nat) (t : Triple) : Result (VTS × Nat) := do
  let (tyma, ticksFound) ←
    if t.thr = thra then
      if t.tyma > 0 then pure (t.tyma + 1, s.2 + 1)
      else do
        assertThat (t.tymb > 0)
        pure (t.tyma, s.2)
    else pure (t.tyma, s.2)
  let tymMax := if tyma > t.tymb then tyma else t.tymb
  return (if tymMax > 0 then s.1 ++ [⟨t.thr, tymMax⟩] else s.1, ticksFound)

/-- `tickL_and_joinR_VTS`. -/
def tickLAndJoinRVTS (thra : Nat) (a b : VTS) : Result VTS := do
  assertThat (thra ≠ 0)
  let (res, ticksFound) ← (triples a b).foldlM (joinStep thra) ([], 0)
  assertThat (isSaneVTS res)
  assertThat (ticksFound = 1)
  return res

/-- The loops of `tick_VTS`; `here` is the entry that has been looked at last. -/
def tickLoop (me : Nat) (here : Option ScalarTS) : VTS → VTS
  | [] => if here.any (·.thr < me) then [⟨me, 1⟩] else []
  | st :: rest =>
    -- we just went past `me`, without seeing it
    if me < st.thr then ⟨me, 1⟩ :: st :: rest
    else if me = st.thr then ⟨st.thr, st.tym + 1⟩ :: rest
    else st :: tickLoop me (some st) rest

/-- `tick_VTS`. -/
def tickVTS (me : Nat) (vts : VTS) : Result VTS := do
  assertThat (me ≠ 0)
  assertThat (isSaneVTS vts)
  let res := tickLoop me none vts
  assertThat (isSaneVTS res)
  return res

/-! ## What a timestamp says -/

/-- The entries are in order, and none is 0. -/
structure VTS.Ok (v : VTS) : Prop where
  sorted : Sorted ScalarTS.thr v
  pos : ∀ st ∈ v, 0 < st.tym

/-- The time of a thread. -/
def VTS.clock (v : VTS) (t : Nat) : Nat := ((find ScalarTS.thr t v).map ScalarTS.tym).getD 0

section Clock

variable {v a b : VTS} {st : ScalarTS} {t me : Nat}

@[simp] theorem clock_nil : VTS.clock [] t = 0 := rfl

theorem clock_cons (st : ScalarTS) (v : VTS) (t : Nat) :
    VTS.clock (st :: v) t = if st.thr = t then st.tym else v.clock t := by
  unfold VTS.clock
  by_cases h : st.thr = t
  · rw [if_pos h, find_cons_self h]
    rfl
  · rw [if_neg h, find_cons_of_ne h]

theorem clock_of_lt (h : ∀ st ∈ v, t < st.thr) : v.clock t = 0 := by
  rw [VTS.clock, find_of_lt h]
  rfl

theorem VTS.Ok.cons_iff : VTS.Ok (st :: v) ↔ (∀ s ∈ v, st.thr < s.thr) ∧ 0 < st.tym ∧ VTS.Ok v := by
  constructor
  · rintro ⟨hs, hp⟩
    obtain ⟨hlt, hs⟩ := sorted_cons.mp hs
    exact ⟨hlt, hp st List.mem_cons_self, hs, fun s hmem => hp s (List.mem_cons_of_mem _ hmem)⟩
  · rintro ⟨hlt, hpos, hs, hp⟩
    refine ⟨sorted_cons.mpr ⟨hlt, hs⟩, fun s hmem => ?_⟩
    rcases List.mem_cons.mp hmem with rfl | hmem
    · exact hpos
    · exact hp s hmem

theorem VTS.Ok.isSane (h : v.Ok) : isSaneVTS v = true := by
  induction v with
  | nil => rfl
  | cons st v ih =>
    obtain ⟨hlt, hpos, hv⟩ := VTS.Ok.cons_iff.mp h
    cases v with
    | nil => rfl
    | cons st' v =>
      have := hlt st' List.mem_cons_self
      have hpos' := hv.pos st' List.mem_cons_self
      rw [isSaneVTS, if_neg (by omega), if_neg (by omega)]
      exact ih hv

theorem VTS.Ok.clock_pos (h : v.Ok) : 0 < v.clock t ↔ ∃ st ∈ v, st.thr = t := by
  unfold VTS.clock
  constructor
  · intro hpos
    cases hfind : find ScalarTS.thr t v with
    | none => simp [hfind] at hpos
    | some st => exact ⟨st, find_some hfind⟩
  · rintro ⟨st, hmem, rfl⟩
    rw [h.sorted.find_of_mem hmem]
    exact h.pos st hmem

theorem singletonVTS_spec (ht : t ≠ 0) :
    singletonVTS t 1 = .ok [⟨t, 1⟩] ∧ VTS.Ok [⟨t, 1⟩] ∧ VTS.clock [⟨t, 1⟩] = Function.update (fun _ => 0) t 1 := by
  refine ⟨by rw [singletonVTS, assertThat_of ht]; rfl, VTS.Ok.cons_iff.mpr ⟨by simp, Nat.one_pos, by simp, by simp⟩, ?_⟩
  funext u
  rw [clock_cons, Function.update_apply]
  exact if_congr eq_comm rfl rfl

/-! ## Ticking -/

theorem tickLoop_thr (me : Nat) {here : Option ScalarTS} (h : st ∈ tickLoop me here v) :
    st.thr = me ∨ ∃ s ∈ v, s.thr = st.thr := by
  induction v generalizing here with
  | nil =>
    rw [tickLoop] at h
    split at h
    · exact .inl (by simpa using congrArg ScalarTS.thr (List.mem_singleton.mp h))
    · simp at h
  | cons s v ih =>
    rw [tickLoop] at h
    split at h
    · rcases List.mem_cons.mp h with rfl | h
      · exact .inl rfl
      · exact .inr ⟨st, h, rfl⟩
    · split at h
      · rename_i hme
        rcases List.mem_cons.mp h with rfl | h
        · exact .inl hme.symm
        · exact .inr ⟨st, List.mem_cons_of_mem _ h, rfl⟩
      · rcases List.mem_cons.mp h with rfl | h
        · exact .inr ⟨st, List.mem_cons_self, rfl⟩
        · rcases ih h with h | ⟨s', hs', heq⟩
          · exact .inl h
          · exact .inr ⟨s', List.mem_cons_of_mem _ hs', heq⟩

/-- The loops add one to the time of `me`, unless the timestamp is empty. -/
theorem tickLoop_spec (me : Nat) (here : Option ScalarTS) (h : v.Ok) (hne : v ≠ [] ∨ here.any (·.thr < me) = true) :
    (tickLoop me here v).Ok ∧ (tickLoop me here v).clock = Function.update v.clock me (v.clock me + 1) := by
  induction v generalizing here with
  | nil =>
    rw [tickLoop, if_pos (hne.resolve_left (by simp))]
    refine ⟨VTS.Ok.cons_iff.mpr ⟨by simp, Nat.one_pos, h⟩, funext fun u => ?_⟩
    rw [clock_cons, Function.update_apply]
    exact if_congr eq_comm rfl rfl
  | cons st v ih =>
    obtain ⟨hlt, hpos, hv⟩ := VTS.Ok.cons_iff.mp h
    rw [tickLoop]
    by_cases hpast : me < st.thr
    · rw [if_pos hpast]
      have hall : ∀ s ∈ st :: v, me < s.thr := fun s hs =>
        (List.mem_cons.mp hs).elim (fun heq => heq ▸ hpast) fun hs => hpast.trans (hlt s hs)
      refine ⟨VTS.Ok.cons_iff.mpr ⟨hall, Nat.one_pos, h⟩, funext fun u => ?_⟩
      rw [clock_cons, Function.update_apply, clock_of_lt hall]
      exact if_congr eq_comm rfl rfl
    rw [if_neg hpast]
    by_cases hme : me = st.thr
    · subst hme
      rw [if_pos rfl]
      refine ⟨VTS.Ok.cons_iff.mpr ⟨hlt, Nat.succ_pos _, hv⟩, funext fun u => ?_⟩
      rw [Function.update_apply, clock_cons, clock_cons, clock_cons, if_pos rfl]
      by_cases hu : st.thr = u
      · rw [if_pos hu, if_pos hu.symm]
      · rw [if_neg hu, if_neg (Ne.symm hu), if_neg hu]
    · rw [if_neg hme]
      have hgt : st.thr < me := by omega
      obtain ⟨hok, hclock⟩ := ih (some st) hv (.inr (by simpa using hgt))
      refine ⟨VTS.Ok.cons_iff.mpr ⟨fun s hs => ?_, hpos, hok⟩, funext fun u => ?_⟩
      · rcases tickLoop_thr me hs with heq | ⟨s', hs', heq⟩
        · exact heq ▸ hgt
        · exact heq ▸ hlt s' hs'
      · rw [clock_cons, hclock, Function.update_apply, Function.update_apply, clock_cons, clock_cons,
          if_neg (Ne.symm hme)]
        by_cases hu : st.thr = u
        · subst hu
          rw [if_pos rfl, if_neg (Ne.symm hme), if_pos rfl]
        · rw [if_neg hu, if_neg hu]

/-- **A tick.** -/
theorem tickVTS_spec (hme : me ≠ 0) (h : v.Ok) (hne : v ≠ []) :
    ∃ r, tickVTS me v = .ok r ∧ r.Ok ∧ r.clock = Function.update v.clock me (v.clock me + 1) := by
  obtain ⟨hok, hclock⟩ := tickLoop_spec me none h (.inl hne)
  refine ⟨_, ?_, hok, hclock⟩
  rw [tickVTS, assertThat_of hme, ok_bind, assertThat_of h.isSane, ok_bind]
  dsimp only
  rw [assertThat_of hok.isSane]
  rfl

/-! ## Two timestamps side by side -/

/-- An entry of the left timestamp. -/
def ofLeft (st : ScalarTS) : Triple := ⟨st.thr, st.tym, 0⟩

/-- An entry of the right timestamp. -/
def ofRight (st : ScalarTS) : Triple := ⟨st.thr, 0, st.tym⟩

/-- Entries of both, for one thread. -/
def ofBoth (x y : Triple) : Triple := ⟨x.thr, x.tyma, y.tymb⟩

/-- The walk is a merge. -/
theorem triples_eq_merge (a b : VTS) : triples a b = merge Triple.thr ofBoth (a.map ofLeft) (b.map ofRight) := by
  induction a, b using triples.induct with
  | case1 => rw [triples, List.map_nil, List.map_nil, merge_nil_left]
  | case2 sb b ih =>
    rw [triples, ih]
    simp [ofRight]
  | case3 sa a ih =>
    rw [triples, ih]
    simp [ofLeft]
  | case4 sa a sb b hlt ih =>
    rw [triples, if_pos hlt, ih, List.map_cons, List.map_cons, merge_of_lt (by exact hlt)]
    rfl
  | case5 sa a sb b hlt hgt ih =>
    rw [triples, if_neg hlt, if_pos hgt, ih, List.map_cons, List.map_cons, merge_of_gt (by exact hgt)]
    rfl
  | case6 sa a sb b hlt hgt ih =>
    have heq : sa.thr = sb.thr := by omega
    rw [triples, if_neg hlt, if_neg hgt, ih, List.map_cons, List.map_cons, merge_of_eq (by exact heq)]
    rfl

theorem sorted_map {f : ScalarTS → Triple} (hf : ∀ st, (f st).thr = st.thr) (h : Sorted ScalarTS.thr v) :
    Sorted Triple.thr (v.map f) := by
  refine List.pairwise_map.mpr (h.imp fun hlt => ?_)
  rw [hf, hf]
  exact hlt

theorem find_map {f : ScalarTS → Triple} (hf : ∀ st, (f st).thr = st.thr) (v : VTS) (t : Nat) :
    find Triple.thr t (v.map f) = (find ScalarTS.thr t v).map f := by
  unfold find
  rw [List.find?_map]
  simp only [Function.comp_def, hf]

theorem sorted_triples (ha : a.Ok) (hb : b.Ok) : Sorted Triple.thr (triples a b) := by
  rw [triples_eq_merge]
  exact Sorted.merge (fun _ _ _ => rfl) (sorted_map (fun _ => rfl) ha.sorted) (sorted_map (fun _ => rfl) hb.sorted)

/-- The walk comes to the threads that have a time, with their times. -/
theorem mem_triples (ha : a.Ok) (hb : b.Ok) {x : Triple} : x ∈ triples a b ↔
    x.tyma = a.clock x.thr ∧ x.tymb = b.clock x.thr ∧ (0 < x.tyma ∨ 0 < x.tymb) := by
  have hfind : find Triple.thr x.thr (triples a b) =
      joinOption ofBoth ((find ScalarTS.thr x.thr a).map ofLeft) ((find ScalarTS.thr x.thr b).map ofRight) := by
    have hleft := sorted_map (f := ofLeft) (fun _ => rfl) ha.sorted
    have hright := sorted_map (f := ofRight) (fun _ => rfl) hb.sorted
    have hboth : ∀ y z : Triple, y.thr = z.thr → (ofBoth y z).thr = y.thr := fun _ _ _ => rfl
    rw [triples_eq_merge, find_merge hboth hleft hright x.thr,
      find_map (f := ofLeft) (fun _ => rfl), find_map (f := ofRight) (fun _ => rfl)]
  have hmem : x ∈ triples a b ↔ find Triple.thr x.thr (triples a b) = some x :=
    ⟨(sorted_triples ha hb).find_of_mem, fun h => (find_some h).1⟩
  rw [hmem, hfind]
  unfold VTS.clock
  obtain ⟨thr, tyma, tymb⟩ := x
  dsimp only
  cases hfa : find ScalarTS.thr thr a with
  | none =>
    cases hfb : find ScalarTS.thr thr b with
    | none =>
      simp only [Option.map_none, joinOption, Option.getD_none, reduceCtorEq, false_iff]
      omega
    | some sb =>
      have hsb := find_some hfb
      have := hb.pos sb hsb.1
      simp only [Option.map_none, Option.map_some, joinOption, ofRight, Option.some.injEq, Triple.mk.injEq,
        Option.getD_none, Option.getD_some]
      constructor
      · rintro ⟨-, rfl, rfl⟩
        exact ⟨rfl, rfl, .inr this⟩
      · rintro ⟨rfl, rfl, -⟩
        exact ⟨hsb.2, rfl, rfl⟩
  | some sa =>
    have hsa := find_some hfa
    have := ha.pos sa hsa.1
    cases hfb : find ScalarTS.thr thr b with
    | none =>
      simp only [Option.map_none, Option.map_some, joinOption, ofLeft, Option.some.injEq, Triple.mk.injEq,
        Option.getD_none, Option.getD_some]
      constructor
      · rintro ⟨-, rfl, rfl⟩
        exact ⟨rfl, rfl, .inl this⟩
      · rintro ⟨rfl, rfl, -⟩
        exact ⟨hsa.2, rfl, rfl⟩
    | some sb =>
      simp only [Option.map_some, joinOption, ofBoth, ofLeft, ofRight, Option.some.injEq, Triple.mk.injEq,
        Option.getD_some]
      constructor
      · rintro ⟨-, rfl, rfl⟩
        exact ⟨rfl, rfl, .inl this⟩
      · rintro ⟨rfl, rfl, -⟩
        exact ⟨hsa.2, rfl, rfl⟩

/-- **The comparison** is the one thread by thread. -/
theorem cmpGEQVTS_iff (ha : a.Ok) (hb : b.Ok) : cmpGEQVTS a b = true ↔ b.clock ≤ a.clock := by
  have hcmp : cmpGEQVTS a b = !(triples a b).any fun t => t.tyma < t.tymb := by
    unfold cmpGEQVTS
    generalize ((triples a b).any fun t => decide (t.tyma < t.tymb)) = x
    generalize ((triples a b).any fun t => decide (t.tyma > t.tymb)) = y
    cases x <;> cases y <;> rfl
  rw [hcmp, Bool.not_eq_true', List.any_eq_false]
  constructor
  · intro h t
    by_contra hlt
    have hlt : a.clock t < b.clock t := Nat.lt_of_not_le hlt
    refine h ⟨t, a.clock t, b.clock t⟩ ((mem_triples ha hb).mpr ⟨rfl, rfl, .inr (by dsimp only; omega)⟩) ?_
    exact decide_eq_true hlt
  · intro h x hx hlt
    obtain ⟨hxa, hxb, -⟩ := (mem_triples ha hb).mp hx
    have hle : b.clock x.thr ≤ a.clock x.thr := h x.thr
    have := of_decide_eq_true hlt
    omega

/-- The time that the join has for a thread. -/
def joined (thra : Nat) (x : Triple) : ScalarTS := ⟨x.thr, max (if x.thr = thra then x.tyma + 1 else x.tyma) x.tymb⟩

/-- The loop, where the left timestamp has a time for `thra`. -/
theorem foldlM_joinStep (thra : Nat) {ts : List Triple} (hpos : ∀ x ∈ ts, 0 < x.tyma ∨ 0 < x.tymb)
    (hthra : ∀ x ∈ ts, x.thr = thra → 0 < x.tyma) (res : VTS) (n : Nat) :
    ts.foldlM (joinStep thra) (res, n) = .ok (res ++ ts.map (joined thra), n + ts.countP (·.thr = thra)) := by
  induction ts generalizing res n with
  | nil => simp [pure, Except.pure]
  | cons x ts ih =>
    have hmax : ∀ m n : Nat, (if m > n then m else n) = max m n := fun m n => by
      rw [max_def]
      split <;> split <;> omega
    have hstep : joinStep thra (res, n) x =
        .ok (res ++ [joined thra x], n + if x.thr = thra then 1 else 0) := by
      have hx := hpos x List.mem_cons_self
      by_cases hthr : x.thr = thra
      · have hpos' := hthra x List.mem_cons_self hthr
        simp only [joinStep, joined, if_pos hthr, if_pos hpos', pure_bind, hmax]
        rw [if_pos (by omega)]
        rfl
      · simp only [joinStep, joined, if_neg hthr, pure_bind, hmax]
        rw [if_pos (by omega)]
        rfl
    rw [List.foldlM_cons, hstep, ok_bind, ih (fun y hy => hpos y (List.mem_cons_of_mem _ hy))
      fun y hy => hthra y (List.mem_cons_of_mem _ hy)]
    simp only [List.map_cons, List.append_assoc, List.singleton_append, List.countP_cons, decide_eq_true_eq]
    congr 2
    omega

/-- **Tick and join**: the maximum, thread by thread, once `thra` has got one more. -/
theorem tickLAndJoinRVTS_spec (hme : me ≠ 0) (ha : a.Ok) (hb : b.Ok) (hpos : 0 < a.clock me) :
    ∃ r, tickLAndJoinRVTS me a b = .ok r ∧ r.Ok ∧
      r.clock = Function.update a.clock me (a.clock me + 1) ⊔ b.clock := by
  have hs := sorted_triples ha hb
  have hmem := fun x => mem_triples ha hb (x := x)
  have hfold := foldlM_joinStep me (fun x (hx : x ∈ triples a b) => ((hmem x).mp hx).2.2)
    (fun x hx heq => by rw [((hmem x).mp hx).1, heq]; exact hpos) [] 0
  have hcount : (triples a b).countP (·.thr = me) = 1 := by
    have hin : (⟨me, a.clock me, b.clock me⟩ : Triple) ∈ triples a b := (hmem _).mpr ⟨rfl, rfl, .inl hpos⟩
    obtain ⟨l, r, hsplit⟩ := List.append_of_mem hin
    rw [hsplit] at hs ⊢
    obtain ⟨-, hr, hl⟩ := List.pairwise_append.mp hs
    have hright := (sorted_cons.mp hr).1
    rw [List.countP_append, List.countP_cons, List.countP_eq_zero.mpr fun x hx => ?_,
      List.countP_eq_zero.mpr fun x hx => ?_]
    · simp
    · simpa using (hright x hx).ne'
    · simpa using (hl x hx _ List.mem_cons_self).ne
  have hok : VTS.Ok ((triples a b).map (joined me)) := by
    refine ⟨List.pairwise_map.mpr hs, fun st hst => ?_⟩
    obtain ⟨x, hx, rfl⟩ := List.mem_map.mp hst
    have := ((hmem x).mp hx).2.2
    unfold joined
    dsimp only
    split <;> omega
  refine ⟨_, ?_, hok, funext fun t => ?_⟩
  · rw [tickLAndJoinRVTS, assertThat_of hme, ok_bind, hfold, ok_bind]
    dsimp only
    rw [List.nil_append, assertThat_of hok.isSane, ok_bind, hcount, assertThat_of rfl]
    rfl
  · have hclock : VTS.clock ((triples a b).map (joined me)) t =
        if 0 < a.clock t ∨ 0 < b.clock t then (joined me ⟨t, a.clock t, b.clock t⟩).tym else 0 := by
      by_cases ht : 0 < a.clock t ∨ 0 < b.clock t
      · have hin := List.mem_map_of_mem (f := joined me) ((hmem ⟨t, a.clock t, b.clock t⟩).mpr ⟨rfl, rfl, ht⟩)
        have hfind := hok.sorted.find_of_mem hin
        rw [if_pos ht]
        exact congrArg (fun o => (Option.map ScalarTS.tym o).getD 0) hfind
      · rw [if_neg ht]
        by_contra hne
        obtain ⟨st, hst, hthr⟩ := hok.clock_pos.mp (Nat.pos_of_ne_zero hne)
        obtain ⟨x, hx, rfl⟩ := List.mem_map.mp hst
        obtain ⟨hxa, hxb, hx⟩ := (hmem x).mp hx
        have hthr : x.thr = t := hthr
        rw [hxa, hxb, hthr] at hx
        exact ht hx
    rw [hclock, Pi.sup_apply, Function.update_apply]
    unfold joined
    dsimp only
    by_cases hthr : t = me
    · subst hthr
      rw [if_pos (.inl hpos), if_pos rfl]
    · rw [if_neg hthr, if_neg hthr]
      split <;> omega

end Clock

end Helgrind

end Valgrind
