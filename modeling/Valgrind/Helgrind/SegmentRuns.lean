import Valgrind.Helgrind.SegmentGraph
import Valgrind.Lib.Causality
import Valgrind.Lib.Reach

/-!
# Runs of the segment graph

The segments are the events of a history (`SegState.history`) whose clocks are the vector
timestamps. Every handler that starts a segment extends the history (`SegInv.extend`), so that
timestamps are ordered exactly as the links of the graph say, and the search of the graph finds
what the comparison finds (`happensBefore_exact`). `happensBefore_answers_iff` says which questions
are answered when happens-before is switched off.
-/

namespace Valgrind

namespace Helgrind

open Relation Causality

/-- The identifier of a segment. -/
def segidOf (p : Nat) : SegmentID := 0x1000000 + p

/-- There is a link from the segment at `i` to the one at `j`. -/
def SegState.Link (st : SegState) (i j : Nat) : Prop :=
  ∃ s, st.segs[i]? = some s ∧ (s.prev = some j ∨ s.other = some j)

/-- The timestamp of a segment, if it has one. -/
def SegState.vtsAt (st : SegState) (p : Nat) : Option VTS := st.segs[p]?.bind Segment.vts

/-- A segment as an event. -/
def Segment.event (s : Segment) : Event Nat :=
  ⟨s.thr.getD 0, s.prev.toList ++ s.other.toList, VTS.clock (s.vts.getD [])⟩

/-- The segments as a history. -/
def SegState.history (st : SegState) : List (Event Nat) := st.segs.map Segment.event

/-- The segment at `p` is the last one of a thread. -/
def LastOf (st : SegState) (thr p : Nat) : Prop :=
  (∃ s, st.segs[p]? = some s ∧ s.thr = some thr) ∧
    ∀ (q : Nat) (s : Segment), st.segs[q]? = some s → s.thr = some thr → q ≤ p

/-- The tables of identifiers are right. -/
structure Placed (st : SegState) : Prop where
  ids : st.nextSegid = segidOf st.segs.length
  sane : st.segs.length ≤ 0x1000000
  maps : ∀ segid p, st.mapSegments segid = some p ↔ p < st.segs.length ∧ segid = segidOf p
  last : ∀ thr segid, st.csegid thr = some segid → ∃ p, segid = segidOf p ∧ LastOf st thr p

/-- What an entry of the cache says is so. -/
def SegState.Valid (st : SegState) (e : HBeforeCacheEnt) : Prop :=
  ¬ isSaneSegmentID e.segid1 ∨ ∃ p1 p2 v1 v2, e.segid1 = segidOf p1 ∧ e.segid2 = segidOf p2 ∧
    st.vtsAt p1 = some v1 ∧ st.vtsAt p2 = some v2 ∧ e.result = cmpGEQVTS v2 v1

/-- What holds in every run, whatever `--happens-before` is. Without it only the root thread has
timestamps. -/
structure SegInv (mem : ThreadAddrs) (cloHappensBefore : Nat) (st : SegState) : Prop extends Placed st where
  root : 0 < st.nThreads
  addrs : ∀ thr, (st.csegid thr).isSome ↔ ∃ n < st.nThreads, thr = mem.addr n
  owned : ∀ (p : Nat) (s : Segment), st.segs[p]? = some s → ∃ thr, s.thr = some thr ∧ (st.csegid thr).isSome
  live : ∀ tid thr, st.mapThreads tid = some thr → (st.csegid thr).isSome
  links : ∀ i j, st.Link i j → j < i
  conds : ∀ cond p, st.mapCond cond = some p → p < st.segs.length
  sems : ∀ sem xa p, st.mapSem sem = some xa → p ∈ xa → p < st.segs.length
  timed : ∀ (p : Nat) (s : Segment), st.segs[p]? = some s →
    (s.vts.isSome ↔ 1 ≤ cloHappensBefore ∨ s.thr = some (mem.addr 0))
  ok : ∀ p v, st.vtsAt p = some v → v.Ok ∧ v ≠ []
  clocked : 1 ≤ cloHappensBefore → Clocked st.history
  marks : ∀ p, st.dfsver p ≤ st.dfsverCurrent
  valid : ∀ e ∈ st.cache, st.Valid e

section

variable {mem : ThreadAddrs} {cloHappensBefore : Nat} {st st' : SegState} {s : Segment} {v : VTS}
  {thr tid p q i j : Nat} {segid : SegmentID}

/-! ## Reading the state -/

theorem dep_iff : Dep st.history i j ↔ st.Link i j := by
  unfold Dep SegState.Link SegState.history
  rw [List.getElem?_map]
  cases st.segs[i]? with
  | none => simp
  | some s => simp [Segment.event]

theorem depends_iff : TransGen (Dep st.history) i j ↔ TransGen st.Link i j := by
  rw [show Dep st.history = st.Link from funext₂ fun i j => propext dep_iff]

theorem history_get (h : st.segs[p]? = some s) : st.history[p]? = some s.event := by
  rw [SegState.history, List.getElem?_map, h]
  rfl

theorem of_history_get {e : Event Nat} (h : st.history[p]? = some e) : ∃ s, st.segs[p]? = some s ∧ s.event = e := by
  rw [SegState.history, List.getElem?_map] at h
  exact Option.map_eq_some_iff.mp h

theorem vtsAt_of (h : st.segs[p]? = some s) : st.vtsAt p = s.vts := by
  rw [SegState.vtsAt, h]
  rfl

theorem of_vtsAt (h : st.vtsAt p = some v) : ∃ s, st.segs[p]? = some s ∧ s.vts = some v :=
  Option.bind_eq_some_iff.mp h

theorem lt_of_vtsAt (h : st.vtsAt p = some v) : p < st.segs.length := by
  obtain ⟨s, hs, -⟩ := of_vtsAt h
  exact (List.getElem?_eq_some_iff.mp hs).1

theorem seg_eq_ok : st.seg p = .ok s ↔ st.segs[p]? = some s := by
  unfold SegState.seg
  cases st.segs[p]? with
  | none => simp
  | some s' => simp

theorem vts_eq_ok : st.vts p = .ok v ↔ st.vtsAt p = some v := by
  unfold SegState.vts SegState.vtsAt SegState.seg
  cases st.segs[p]? with
  | none => simp [bind, Except.bind, throw, throwThe, MonadExceptOf.throw]
  | some s =>
    obtain ⟨thr, prev, other, vts⟩ := s
    cases vts with
    | none => simp [pure, Except.pure, bind, Except.bind, throw, throwThe, MonadExceptOf.throw]
    | some v' => simp [pure, Except.pure, bind, Except.bind]

theorem segidOf_injective : Function.Injective segidOf := fun _ _ h => Nat.add_left_cancel h

theorem event_clock (hs : s.vts = some v) : s.event.clock = v.clock := by
  rw [Segment.event, hs]
  rfl

theorem event_thr (hs : s.thr = some thr) : s.event.thr = thr := by
  rw [Segment.event, hs]
  rfl

theorem current_inv (h : Placed st) (hrun : st.current thr = .ok p) : LastOf st thr p ∧ (st.csegid thr).isSome := by
  unfold SegState.current at hrun
  cases hc : st.csegid thr with
  | none => simp [hc] at hrun
  | some segid =>
    simp only [hc, mapSegmentsLookup, bind_eq_ok, assertThat_eq_ok] at hrun
    obtain ⟨-, -, hrun⟩ := hrun
    cases hm : st.mapSegments segid with
    | none => simp [hm] at hrun
    | some p' =>
      obtain rfl : p' = p := by simpa [hm] using hrun
      obtain ⟨q, hq, hlast⟩ := h.last thr segid hc
      obtain rfl := segidOf_injective (((h.maps segid p').mp hm).2.symm.trans hq)
      exact ⟨hlast, rfl⟩

theorem LastOf.lt (h : LastOf st thr p) : p < st.segs.length := by
  obtain ⟨⟨s, hs, -⟩, -⟩ := h
  exact (List.getElem?_eq_some_iff.mp hs).1

theorem lookupThread_inv (hrun : st.lookupThread tid = .ok thr) : st.mapThreads tid = some thr := by
  simp only [SegState.lookupThread, bind_eq_ok, assertThat_eq_ok] at hrun
  obtain ⟨-, -, hrun⟩ := hrun
  cases hm : st.mapThreads tid with
  | none => simp [hm] at hrun
  | some thr' => simpa [hm] using hrun

/-! ## A new segment -/

/-- The state with one more segment; `n` and `live` are the new number of threads and the new table
of threads. -/
def SegState.extend (st : SegState) (s : Segment) (thr n : Nat) (live : Nat → Option Nat) : SegState :=
  { st with
    segs := st.segs ++ [s]
    nextSegid := st.nextSegid + 1
    mapSegments := Function.update st.mapSegments st.nextSegid (some st.segs.length)
    nThreads := n
    csegid := Function.update st.csegid thr (some st.nextSegid)
    mapThreads := live }

section Extend

variable {n : Nat} {live : Nat → Option Nat} {t : Segment}

theorem get_extend_iff : (st.extend s thr n live).segs[p]? = some t ↔
    st.segs[p]? = some t ∨ p = st.segs.length ∧ t = s := by
  show (st.segs ++ [s])[p]? = some t ↔ _
  rcases Nat.lt_trichotomy p st.segs.length with h | rfl | h
  · rw [List.getElem?_append_left h]
    exact ⟨.inl, fun h' => h'.elim id fun hp => absurd hp.1 h.ne⟩
  · simp [eq_comm]
  · rw [List.getElem?_eq_none (by simp; omega), List.getElem?_eq_none h.le]
    exact ⟨fun h' => absurd h' (by simp), fun h' => h'.elim (fun h' => absurd h' (by simp)) fun hp => absurd hp.1 h.ne'⟩

theorem vtsAt_extend (hp : p < st.segs.length) : (st.extend s thr n live).vtsAt p = st.vtsAt p := by
  show (st.segs ++ [s])[p]?.bind Segment.vts = _
  rw [List.getElem?_append_left hp]
  rfl

theorem link_extend_iff : (st.extend s thr n live).Link i j ↔
    st.Link i j ∨ i = st.segs.length ∧ (s.prev = some j ∨ s.other = some j) := by
  constructor
  · rintro ⟨t, ht, hlink⟩
    rcases get_extend_iff.mp ht with ht | ⟨rfl, rfl⟩
    · exact .inl ⟨t, ht, hlink⟩
    · exact .inr ⟨rfl, hlink⟩
  · rintro (⟨t, ht, hlink⟩ | ⟨rfl, hlink⟩)
    · exact ⟨t, get_extend_iff.mpr (.inl ht), hlink⟩
    · exact ⟨s, get_extend_iff.mpr (.inr ⟨rfl, rfl⟩), hlink⟩

theorem Placed.extend (h : Placed st) (hthr : s.thr = some thr) (hsane : isSaneSegmentID st.nextSegid) (n : Nat)
    (live : Nat → Option Nat) : Placed (st.extend s thr n live) where
  ids := by
    show st.nextSegid + 1 = segidOf (st.segs ++ [s]).length
    rw [h.ids, List.length_append]
    rfl
  sane := by
    show (st.segs ++ [s]).length ≤ 0x1000000
    have hle := hsane.2
    rw [h.ids] at hle
    have hle : 0x1000000 + st.segs.length ≤ 0x1FFFFFF := hle
    rw [List.length_append, List.length_singleton]
    omega
  maps := by
    intro segid p
    show Function.update st.mapSegments st.nextSegid (some st.segs.length) segid = some p ↔
      p < (st.segs ++ [s]).length ∧ segid = segidOf p
    rw [h.ids, List.length_append, List.length_singleton]
    by_cases hseg : segid = segidOf st.segs.length
    · subst hseg
      rw [Function.update_self, Option.some.injEq]
      exact ⟨fun hp => hp ▸ ⟨Nat.lt_succ_self _, rfl⟩, fun hp => segidOf_injective hp.2⟩
    · rw [Function.update_of_ne hseg, h.maps]
      refine ⟨fun hp => ⟨hp.1.trans (Nat.lt_succ_self _), hp.2⟩, fun hp => ⟨?_, hp.2⟩⟩
      refine lt_of_le_of_ne (Nat.le_of_lt_succ hp.1) fun heq => hseg ?_
      rw [hp.2, heq]
  last := by
    intro u segid hu
    by_cases hne : u = thr
    · subst hne
      have hseg : st.nextSegid = segid := by
        simpa [SegState.extend] using hu
      refine ⟨st.segs.length, hseg.symm.trans h.ids, ⟨s, get_extend_iff.mpr (.inr ⟨rfl, rfl⟩), hthr⟩, fun q t ht _ => ?_⟩
      rcases get_extend_iff.mp ht with ht | ⟨rfl, -⟩
      · exact (List.getElem?_eq_some_iff.mp ht).1.le
      · exact le_rfl
    · have hu : st.csegid u = some segid := by simpa [SegState.extend, hne] using hu
      obtain ⟨p, hp, ⟨s', hs', hown⟩, hlast⟩ := h.last u segid hu
      refine ⟨p, hp, ⟨s', get_extend_iff.mpr (.inl hs'), hown⟩, fun q t ht htu => ?_⟩
      rcases get_extend_iff.mp ht with ht | ⟨-, rfl⟩
      · exact hlast q t ht htu
      · exact absurd (Option.some.inj (htu.symm.trans hthr)) hne

/-- **A new segment keeps the invariant**, if its clock extends the history. -/
theorem SegInv.extend (h : SegInv mem cloHappensBefore st) (hthr : s.thr = some thr)
    (hsane : isSaneSegmentID st.nextSegid)
    (hlinks : ∀ q, s.prev = some q ∨ s.other = some q → q < st.segs.length) (hn : 0 < n)
    (haddrs : ∀ t, (t = thr ∨ (st.csegid t).isSome) ↔ ∃ k < n, t = mem.addr k)
    (hlive : ∀ tid t, live tid = some t → t = thr ∨ (st.csegid t).isSome)
    (htimed : s.vts.isSome ↔ 1 ≤ cloHappensBefore ∨ thr = mem.addr 0)
    (hok : ∀ v, s.vts = some v → v.Ok ∧ v ≠ [])
    (hext : 1 ≤ cloHappensBefore → Extends st.history s.event) :
    SegInv mem cloHappensBefore (st.extend s thr n live) := by
  have hisSome : ∀ t, ((st.extend s thr n live).csegid t).isSome ↔ t = thr ∨ (st.csegid t).isSome := by
    intro t
    show (Function.update st.csegid thr (some st.nextSegid) t).isSome ↔ _
    by_cases ht : t = thr
    · simp [ht]
    · simp [ht]
  have hlen : (st.extend s thr n live).segs.length = st.segs.length + 1 := List.length_append
  have hlast : ∀ p v, (st.extend s thr n live).vtsAt p = some v → st.vtsAt p = some v ∨ s.vts = some v := by
    intro p v hv
    obtain ⟨t, ht, htv⟩ := of_vtsAt hv
    rcases get_extend_iff.mp ht with ht | ⟨-, rfl⟩
    · exact .inl ((vtsAt_of ht).trans htv)
    · exact .inr htv
  refine ⟨h.toPlaced.extend hthr hsane n live, hn, fun t => (hisSome t).trans (haddrs t), fun p t ht => ?_,
    fun tid t ht => (hisSome t).mpr (hlive tid t ht), fun i j hlink => ?_,
    fun cond p hp => (h.conds cond p hp).trans_le (by omega), fun sem xa p hxa hp => (h.sems sem xa p hxa hp).trans_le (by omega),
    fun p t ht => ?_, fun p v hv => (hlast p v hv).elim (h.ok p v) (hok v), fun hhb => ?_, h.marks, fun e he => ?_⟩
  · rcases get_extend_iff.mp ht with ht | ⟨-, rfl⟩
    · obtain ⟨u, hu, hsome⟩ := h.owned p t ht
      exact ⟨u, hu, (hisSome u).mpr (.inr hsome)⟩
    · exact ⟨thr, hthr, (hisSome thr).mpr (.inl rfl)⟩
  · rcases link_extend_iff.mp hlink with hold | ⟨rfl, hnew⟩
    · exact h.links i j hold
    · exact hlinks j hnew
  · rcases get_extend_iff.mp ht with ht | ⟨-, rfl⟩
    · exact h.timed p t ht
    · rw [htimed, hthr, Option.some.injEq]
  · have hsnoc := (h.clocked hhb).snoc (hext hhb)
    rwa [SegState.history, show (st.extend s thr n live).segs = st.segs ++ [s] from rfl, List.map_append]
  · rcases h.valid e he with hbogus | ⟨p1, p2, v1, v2, h1, h2, hv1, hv2, hr⟩
    · exact .inl hbogus
    · refine .inr ⟨p1, p2, v1, v2, h1, h2, ?_, ?_, hr⟩
      · rw [vtsAt_extend (lt_of_vtsAt hv1), hv1]
      · rw [vtsAt_extend (lt_of_vtsAt hv2), hv2]

end Extend

/-! ## The handlers -/

theorem modify_last {α : Type} (l : List α) (a : α) (f : α → α) : (l ++ [a]).modify l.length f = l ++ [f a] := by
  induction l with
  | nil => rfl
  | cons b l ih => rw [List.cons_append, List.length_cons, List.modify_succ_cons, ih, List.cons_append]

theorem allocSegmentID_eq_ok : allocSegmentID st = .ok (segid, st') ↔
    isSaneSegmentID st.nextSegid ∧ segid = st.nextSegid ∧ st' = { st with nextSegid := st.nextSegid + 1 } := by
  simp only [allocSegmentID, bind_eq_ok, assertThat_eq_ok, pure_eq_ok, Prod.mk.injEq]
  constructor
  · rintro ⟨-, hsane, rfl, rfl⟩
    exact ⟨hsane, rfl, rfl⟩
  · rintro ⟨hsane, rfl, rfl⟩
    exact ⟨(), hsane, rfl, rfl⟩

theorem mapSegmentsAdd_inv (hrun : mapSegmentsAdd st segid p = .ok st') :
    st' = { st with mapSegments := Function.update st.mapSegments segid (some p) } := by
  simp only [mapSegmentsAdd, bind_eq_ok, pure_eq_ok] at hrun
  obtain ⟨-, -, rfl⟩ := hrun
  rfl

theorem startNew_inv {newSeg prev : Nat} (h : Placed st) (hrun : startNewSegmentForThread st thr = .ok (newSeg, prev, st')) :
    LastOf st thr prev ∧ (st.csegid thr).isSome ∧ isSaneSegmentID st.nextSegid ∧ newSeg = st.segs.length ∧
      st' = st.extend (mkSegment (some thr) (some prev) none) thr st.nThreads st.mapThreads := by
  simp only [startNewSegmentForThread, SegState.newSegment, bind_eq_ok, Prod.exists, pure_eq_ok, Prod.mk.injEq] at hrun
  obtain ⟨cur, hcur, s, -, -, -, segid, st₁, halloc, st₂, hadd, rfl, rfl, rfl⟩ := hrun
  obtain ⟨hsane, rfl, rfl⟩ := allocSegmentID_eq_ok.mp halloc
  obtain rfl := mapSegmentsAdd_inv hadd
  obtain ⟨hlast, hsome⟩ := current_inv h hcur
  exact ⟨hlast, hsome, hsane, rfl, rfl⟩

/-- The threads do not change when a thread starts a new segment. -/
theorem SegInv.same_addrs (h : SegInv mem cloHappensBefore st) (hsome : (st.csegid thr).isSome) (t : Nat) :
    (t = thr ∨ (st.csegid t).isSome) ↔ ∃ k < st.nThreads, t = mem.addr k := by
  rw [← h.addrs]
  exact ⟨fun ht => ht.elim (fun ht => ht ▸ hsome) id, .inr⟩

/-- The last event of a thread, as the history has it. -/
theorem LastOf.history (h : LastOf st thr p) (hs : st.segs[p]? = some s) (hinv : SegInv mem cloHappensBefore st)
    (k : Nat) (e : Event Nat) (he : st.history[k]? = some e) (hthr : e.thr = s.event.thr) : k ≤ p := by
  obtain ⟨⟨s', hs', hown⟩, hlast⟩ := h
  obtain rfl := Option.some.inj (hs'.symm.trans hs)
  obtain ⟨t, ht, rfl⟩ := of_history_get he
  obtain ⟨u, hu, -⟩ := hinv.owned k t ht
  refine hlast k t ht ?_
  rw [hu, ← event_thr hu, hthr, event_thr hown]

theorem SegInv.thr_ne_zero (h : SegInv mem cloHappensBefore st) (hsome : (st.csegid thr).isSome) : thr ≠ 0 := by
  obtain ⟨n, -, rfl⟩ := (h.addrs thr).mp hsome
  exact mem.ne_zero n

/-- The segment that a thread starts when it goes on by itself. -/
theorem tickedSegment_inv {prev : Nat} (h : SegInv mem cloHappensBefore st)
    (hrun : tickedSegment st thr = .ok (prev, st')) : SegInv mem cloHappensBefore st' ∧ prev < st'.segs.length := by
  simp only [tickedSegment, bind_eq_ok, Prod.exists, pure_eq_ok, Prod.mk.injEq] at hrun
  obtain ⟨newSeg, prev, st₁, hstart, v, hv, r, hr, rfl, rfl⟩ := hrun
  obtain ⟨hlast, hsome, hsane, rfl, rfl⟩ := startNew_inv h.toPlaced hstart
  obtain ⟨⟨s, hs, hown⟩, -⟩ := id hlast
  have hv : st.vtsAt prev = some v := by rwa [vts_eq_ok, vtsAt_extend hlast.lt] at hv
  have hsv : s.vts = some v := (vtsAt_of hs).symm.trans hv
  obtain ⟨hok, hne⟩ := h.ok prev v hv
  obtain ⟨r', hr', hrok, hclock⟩ := tickVTS_spec (h.thr_ne_zero hsome) hok hne
  obtain rfl := Except.ok.inj (hr'.symm.trans hr)
  have hst : (st.extend (mkSegment (some thr) (some prev) none) thr st.nThreads st.mapThreads).setVts st.segs.length r' =
      st.extend ⟨some thr, some prev, none, some r'⟩ thr st.nThreads st.mapThreads := by
    rw [SegState.setVts, SegState.extend, modify_last]
    rfl
  rw [hst]
  have hlt : prev < (st.extend ⟨some thr, some prev, none, some r'⟩ thr st.nThreads st.mapThreads).segs.length :=
    hlast.lt.trans_le (by simp [SegState.extend])
  refine ⟨h.extend rfl hsane ?_ h.root (h.same_addrs hsome) (fun tid t ht => .inr (h.live tid t ht)) ?_ ?_ fun hhb => ?_, hlt⟩
  · rintro q (hq | hq)
    · exact Option.some.inj hq ▸ hlast.lt
    · simp at hq
  · have := h.timed prev s hs
    rw [hsv, hown, Option.some.injEq] at this
    exact this
  · rintro w hw
    obtain rfl := Option.some.inj hw
    refine ⟨hrok, fun hnil => ?_⟩
    have := congrFun hclock thr
    rw [hnil, Function.update_self] at this
    simp at this
  · have hext := Clocked.extends_tick (t := thr) (history_get hs) fun k e he hthr =>
      (h.clocked hhb).reaches_last (history_get hs) (hlast.history hs h) he (hthr.trans (event_thr hown).symm)
    rwa [event_clock hsv, tick, ← hclock] at hext

/-- The segment that a thread starts when it has waited for another one. -/
theorem joinedSegment_inv {other : Nat} (h : SegInv mem cloHappensBefore st) (hhb : 1 ≤ cloHappensBefore)
    (hother : other < st.segs.length) (hrun : joinedSegment st thr other = .ok st') :
    SegInv mem cloHappensBefore st' := by
  simp only [joinedSegment, bind_eq_ok, Prod.exists, pure_eq_ok] at hrun
  obtain ⟨newSeg, prev, st₁, hstart, a, ha, b, hb, r, hr, rfl⟩ := hrun
  obtain ⟨hlast, hsome, hsane, rfl, rfl⟩ := startNew_inv h.toPlaced hstart
  have hset : (st.extend (mkSegment (some thr) (some prev) none) thr st.nThreads st.mapThreads).setOther
      st.segs.length other = st.extend ⟨some thr, some prev, some other, none⟩ thr st.nThreads st.mapThreads := by
    rw [SegState.setOther, SegState.extend, modify_last]
    rfl
  rw [hset] at ha hb ⊢
  have ha : st.vtsAt prev = some a := by rwa [vts_eq_ok, vtsAt_extend hlast.lt] at ha
  have hb : st.vtsAt other = some b := by rwa [vts_eq_ok, vtsAt_extend hother] at hb
  obtain ⟨⟨s, hs, hown⟩, -⟩ := id hlast
  obtain ⟨t, ht, htv⟩ := of_vtsAt hb
  have hsv : s.vts = some a := (vtsAt_of hs).symm.trans ha
  have hclocked := h.clocked hhb
  have hpos : 0 < a.clock thr := by
    have := hclocked.own_pos prev _ (history_get hs)
    rwa [event_clock hsv, event_thr hown] at this
  obtain ⟨r', hr', hrok, hclock⟩ := tickLAndJoinRVTS_spec (h.thr_ne_zero hsome) (h.ok prev a ha).1 (h.ok other b hb).1 hpos
  obtain rfl := Except.ok.inj (hr'.symm.trans hr)
  have hst : (st.extend ⟨some thr, some prev, some other, none⟩ thr st.nThreads st.mapThreads).setVts st.segs.length r' =
      st.extend ⟨some thr, some prev, some other, some r'⟩ thr st.nThreads st.mapThreads := by
    rw [SegState.setVts, SegState.extend, modify_last]
    rfl
  rw [hst]
  refine h.extend rfl hsane ?_ h.root (h.same_addrs hsome) (fun tid t ht => .inr (h.live tid t ht)) (by simp [hhb]) ?_ fun _ => ?_
  · rintro q (hq | hq)
    · exact Option.some.inj hq ▸ hlast.lt
    · exact Option.some.inj hq ▸ hother
  · rintro w hw
    obtain rfl := Option.some.inj hw
    refine ⟨hrok, fun hnil => ?_⟩
    have := congrFun hclock thr
    rw [hnil, Pi.sup_apply, Function.update_self] at this
    have hle := le_sup_left (a := a.clock thr + 1) (b := b.clock thr)
    rw [← this] at hle
    simp at hle
  · have hext := hclocked.extends_join (history_get hs) (hlast.history hs h) (history_get ht)
    rwa [event_clock hsv, event_clock htv, event_thr hown, tick, ← hclock] at hext

theorem linkCreated_inv (h : SegInv mem cloHappensBefore st) (hsane : isSaneSegmentID st.nextSegid) {thrC thrP n : Nat} {live : Nat → Option Nat}
    (hthrC : thrC = mem.addr st.nThreads) (hn : n = st.nThreads + 1)
    (hlive : ∀ tid t, live tid = some t → t = thrC ∨ (st.csegid t).isSome) (hne : thrP ≠ thrC)
    (hrun : linkCreated cloHappensBefore (st.extend ⟨some thrC, none, none, none⟩ thrC n live) thrP thrC
      st.segs.length = .ok st') : SegInv mem cloHappensBefore st' := by
  have hfresh : ¬ (st.csegid thrC).isSome := by
    rw [h.addrs, hthrC]
    rintro ⟨k, hk, heq⟩
    exact absurd (mem.injective heq) hk.ne'
  have haddrs : ∀ t, (t = thrC ∨ (st.csegid t).isSome) ↔ ∃ k < n, t = mem.addr k := by
    intro t
    rw [h.addrs, hn]
    constructor
    · rintro (rfl | ⟨k, hk, rfl⟩)
      · exact ⟨_, Nat.lt_succ_self _, hthrC⟩
      · exact ⟨k, hk.trans (Nat.lt_succ_self _), rfl⟩
    · rintro ⟨k, hk, rfl⟩
      rcases Nat.lt_succ_iff_lt_or_eq.mp hk with hk | rfl
      · exact .inr ⟨k, hk, rfl⟩
      · exact .inl hthrC.symm
  have hroot : thrC ≠ mem.addr 0 := fun heq =>
    absurd (mem.injective (hthrC.symm.trans heq)) h.root.ne'
  have hpos : 0 < n := hn ▸ Nat.succ_pos _
  rw [linkCreated] at hrun
  by_cases hhb : cloHappensBefore ≥ 1
  · rw [if_pos hhb] at hrun
    obtain ⟨other, hcur, hrun⟩ := bind_eq_ok.mp hrun
    obtain ⟨hlast, -⟩ := current_inv (h.toPlaced.extend rfl hsane n live) hcur
    have hset : (st.extend ⟨some thrC, none, none, none⟩ thrC n live).setOther st.segs.length other =
        st.extend ⟨some thrC, none, some other, none⟩ thrC n live := by
      rw [SegState.setOther, SegState.extend, modify_last]
      rfl
    dsimp only at hrun
    rw [hset] at hrun
    obtain ⟨v, hv, hrun⟩ := bind_eq_ok.mp hrun
    obtain ⟨r, hr, hrun⟩ := bind_eq_ok.mp hrun
    have hst : (st.extend ⟨some thrC, none, some other, none⟩ thrC n live).setVts st.segs.length r =
        st.extend ⟨some thrC, none, some other, some r⟩ thrC n live := by
      rw [SegState.setVts, SegState.extend, modify_last]
      rfl
    rw [hst] at hrun
    simp only [bind_eq_ok, Prod.exists, pure_eq_ok] at hrun
    obtain ⟨prev, st₂, htick, rfl⟩ := hrun
    -- the parent's segment is an old one
    have hother : other < st.segs.length := by
      obtain ⟨⟨s, hs, hown⟩, -⟩ := hlast
      rcases get_extend_iff.mp hs with hs | ⟨-, rfl⟩
      · exact (List.getElem?_eq_some_iff.mp hs).1
      · exact absurd (Option.some.inj hown).symm hne
    have hv : st.vtsAt other = some v := by rwa [vts_eq_ok, vtsAt_extend hother] at hv
    obtain ⟨s, hs, hsv⟩ := of_vtsAt hv
    obtain ⟨hok, hnil⟩ := h.ok other v hv
    obtain ⟨r', hr', hrok, hclock⟩ := tickVTS_spec (hthrC ▸ mem.ne_zero _) hok hnil
    obtain rfl := Except.ok.inj (hr'.symm.trans hr)
    refine (tickedSegment_inv (h.extend rfl hsane ?_ hpos haddrs hlive (by simp [hhb]) ?_ fun _ => ?_) htick).1
    · rintro q (hq | hq)
      · simp at hq
      · exact Option.some.inj hq ▸ hother
    · rintro w hw
      obtain rfl := Option.some.inj hw
      refine ⟨hrok, fun hnil => ?_⟩
      have := congrFun hclock thrC
      rw [hnil, Function.update_self] at this
      simp at this
    · have hext := Clocked.extends_tick (t := thrC) (history_get hs) fun k e he hthr => by
        obtain ⟨t, ht, rfl⟩ := of_history_get he
        obtain ⟨u, hu, hsome⟩ := h.owned k t ht
        exact absurd (((event_thr hu).symm.trans hthr) ▸ hsome) hfresh
      rwa [event_clock hsv, tick, ← hclock] at hext
  · rw [if_neg hhb] at hrun
    obtain rfl := pure_eq_ok.mp hrun
    refine h.extend rfl hsane (by simp) hpos haddrs hlive (by simp [hroot]; omega) (by simp) fun hhb' => absurd hhb' hhb

theorem preThreadLlCreate_inv {parent child : Nat} (h : SegInv mem cloHappensBefore st)
    (hrun : preThreadLlCreate mem cloHappensBefore st parent child = .ok st') : SegInv mem cloHappensBefore st' := by
  rw [preThreadLlCreate] at hrun
  by_cases hparent : parent = 0
  · rw [if_pos hparent] at hrun
    exact pure_eq_ok.mp hrun ▸ h
  rw [if_neg hparent] at hrun
  simp only [SegState.newSegment, mkThread, SegState.setThr, bind_eq_ok, Prod.exists, mkSegment] at hrun
  obtain ⟨-, -, -, -, thrP, hthrP, -, -, segid, st₁, halloc, st₂, hadd, hrun⟩ := hrun
  obtain ⟨hsane, rfl, rfl⟩ := allocSegmentID_eq_ok.mp halloc
  obtain rfl := mapSegmentsAdd_inv hadd
  dsimp only at hrun
  rw [modify_last] at hrun
  have hlive := h.live parent thrP (lookupThread_inv hthrP)
  refine linkCreated_inv h hsane rfl rfl (fun tid t ht => ?_) (fun heq => ?_) hrun
  · by_cases htid : tid = child
    · subst htid
      rw [Function.update_self] at ht
      exact .inl (Option.some.inj ht).symm
    · rw [Function.update_of_ne htid] at ht
      exact .inr (h.live tid t ht)
  · obtain ⟨k, hk, hk'⟩ := (h.addrs thrP).mp hlive
    exact absurd (mem.injective (heq.symm.trans hk')) hk.ne'

/-! ### Conditions and semaphores -/

theorem SegInv.misc (h : SegInv mem cloHappensBefore st) (thr : Nat) (errstr : String) :
    SegInv mem cloHappensBefore (st.misc thr errstr) :=
  { h with }

theorem SegInv.setCond (h : SegInv mem cloHappensBefore st) (hp : p < st.segs.length) (cond : Nat) :
    SegInv mem cloHappensBefore { st with mapCond := Function.update st.mapCond cond (some p) } :=
  { h with
    conds := by
      intro c q hq
      by_cases hc : c = cond
      · subst hc
        obtain rfl : p = q := by simpa using hq
        exact hp
      · exact h.conds c q (by simpa [hc] using hq) }

theorem SegInv.setSem (h : SegInv mem cloHappensBefore st) {xa : List Nat} (hxa : ∀ p ∈ xa, p < st.segs.length)
    (sem : Nat) : SegInv mem cloHappensBefore { st with mapSem := Function.update st.mapSem sem (some xa) } :=
  { h with
    sems := by
      intro s ya p hya hp
      by_cases hs : s = sem
      · subst hs
        obtain rfl : xa = ya := by simpa using hya
        exact hxa p hp
      · exact h.sems s ya p (by simpa [hs] using hya) hp }

theorem push_inv (h : SegInv mem cloHappensBefore st) (hp : p < st.segs.length) (sem : Nat) :
    SegInv mem cloHappensBefore (pushSegmentForSem st sem p) := by
  refine h.setSem (fun q hq => ?_) sem
  rcases List.mem_append.mp hq with hq | hq
  · cases hsem : st.mapSem sem with
    | none => simp [hsem] at hq
    | some xa => exact h.sems sem xa q hsem (by simpa [hsem] using hq)
  · exact List.mem_singleton.mp hq ▸ hp

theorem pushTimes_inv (sem value : Nat) (h : SegInv mem cloHappensBefore st) (hp : p < st.segs.length) :
    SegInv mem cloHappensBefore (pushTimes sem p value st) := by
  induction value generalizing st with
  | zero => exact h
  | succ value ih => exact ih (push_inv h hp sem) hp

theorem mbPop_inv {sem : Nat} {r : Option Nat} (h : SegInv mem cloHappensBefore st)
    (hrun : mbPopSegmentForSem st sem = (r, st')) :
    SegInv mem cloHappensBefore st' ∧ ∀ p, r = some p → p < st'.segs.length := by
  unfold mbPopSegmentForSem at hrun
  cases hsem : st.mapSem sem with
  | none =>
    obtain ⟨rfl, rfl⟩ : none = r ∧ st = st' := by simpa [hsem] using hrun
    exact ⟨h, by simp⟩
  | some xa =>
    rcases xa.eq_nil_or_concat with rfl | ⟨ys, y, rfl⟩
    · obtain ⟨rfl, rfl⟩ : none = r ∧ st = st' := by simpa [hsem] using hrun
      exact ⟨h, by simp⟩
    · have hin := fun p hp => h.sems sem _ p hsem hp
      simp only [hsem, List.concat_eq_append, List.getLast?_append, List.getLast?_singleton, Option.some_or,
        List.dropLast_concat, Prod.mk.injEq] at hrun
      obtain ⟨rfl, rfl⟩ := hrun
      refine ⟨h.setSem (fun p hp => hin p (by simp [hp])) sem, fun p hp => ?_⟩
      exact hin p (by simp [Option.some.inj hp])

theorem popAll_inv (sem n : Nat) (h : SegInv mem cloHappensBefore st) : SegInv mem cloHappensBefore (popAll sem n st) := by
  induction n generalizing st with
  | zero => exact h
  | succ n ih =>
    rw [popAll]
    rcases hpop : mbPopSegmentForSem st sem with ⟨r, st'⟩
    cases r with
    | none => exact (mbPop_inv h hpop).1
    | some p => exact ih (mbPop_inv h hpop).1

theorem posixSemInitPost_inv {sem value : Nat} (h : SegInv mem cloHappensBefore st)
    (hrun : posixSemInitPost st tid sem value = .ok st') : SegInv mem cloHappensBefore st' := by
  rw [posixSemInitPost] at hrun
  dsimp only at hrun
  have hempty : SegInv mem cloHappensBefore (emptyStack st sem) := popAll_inv sem _ h
  by_cases hvalue : value > 0
  · rw [if_pos hvalue] at hrun
    simp only [bind_eq_ok, Prod.exists] at hrun
    obtain ⟨thr, -, prev, st₁, htick, hrun⟩ := hrun
    obtain ⟨h₁, hprev⟩ := tickedSegment_inv hempty htick
    by_cases hbig : value > 10000
    · rw [if_pos hbig] at hrun
      exact pure_eq_ok.mp hrun ▸ pushTimes_inv sem 10000 (h₁.misc _ _) hprev
    · rw [if_neg hbig] at hrun
      exact pure_eq_ok.mp hrun ▸ pushTimes_inv sem value h₁ hprev
  · rw [if_neg hvalue] at hrun
    exact pure_eq_ok.mp hrun ▸ hempty

/-! ## The search -/

/-- The nodes that are not marked. -/
def unmarked (ver : Nat → Nat) (cur n : Nat) : Finset Nat := {p ∈ Finset.range n | ver p ≠ cur}

/-- What holds in the search: what a marked node is linked to is marked, or on the stack. -/
structure Exploring (st : SegState) (cur dst : Nat) (ver : Nat → Nat) (stack : List Nat) : Prop where
  marks : ∀ p, ver p ≤ cur
  bounds : ∀ p ∈ stack, p < st.segs.length
  closed : ∀ p, ver p = cur → p ≠ dst ∧ ∀ q, st.Link p q → ver q = cur ∨ q ∈ stack

theorem mem_children (hs : st.segs[p]? = some s) : q ∈ s.other.toList ++ s.prev.toList ↔ st.Link p q := by
  rw [List.mem_append, Option.mem_toList, Option.mem_toList]
  constructor
  · intro h
    exact ⟨s, hs, h.symm⟩
  · rintro ⟨s', hs', h⟩
    obtain rfl := Option.some.inj (hs'.symm.trans hs)
    exact h.symm

/-- A node is marked, and what it is linked to goes on the stack. -/
theorem Exploring.mark {cur dst here : Nat} {ver : Nat → Nat} {stack : List Nat} (h : Exploring st cur dst ver (here :: stack))
    (hlinks : ∀ i j, st.Link i j → j < i) (hs : st.segs[here]? = some s) (hne : here ≠ dst) :
    Exploring st cur dst (Function.update ver here cur) (s.other.toList ++ s.prev.toList ++ stack) where
  marks := by
    intro p
    by_cases hp : p = here
    · rw [hp, Function.update_self]
    · rw [Function.update_of_ne hp]
      exact h.marks p
  bounds := by
    intro p hp
    rcases List.mem_append.mp hp with hp | hp
    · exact (hlinks here p ((mem_children hs).mp hp)).trans (h.bounds here List.mem_cons_self)
    · exact h.bounds p (List.mem_cons_of_mem _ hp)
  closed := by
    intro p hp
    by_cases heq : p = here
    · subst heq
      exact ⟨hne, fun q hq => .inr (List.mem_append_left _ ((mem_children hs).mpr hq))⟩
    rw [Function.update_of_ne heq] at hp
    refine ⟨(h.closed p hp).1, fun q hq => ?_⟩
    by_cases hqh : q = here
    · exact .inl (hqh ▸ Function.update_self ..)
    · rw [Function.update_of_ne hqh]
      rcases (h.closed p hp).2 q hq with hq | hq
      · exact .inl hq
      · exact .inr (List.mem_append_right _ ((List.mem_cons.mp hq).resolve_left hqh))

/-- The loop ends, and says whether the target can be reached from the stack. -/
theorem dfsLoop_spec {cur dst fuel : Nat} {ver : Nat → Nat} {stack : List Nat} (hlinks : ∀ i j, st.Link i j → j < i)
    (h : Exploring st cur dst ver stack)
    (hfuel : 2 * (unmarked ver cur st.segs.length).card + stack.length ≤ fuel) :
    ∃ r ver', dfsLoop st.segs cur dst fuel ver stack = .ok (r, ver') ∧ (∀ p, ver' p ≤ cur) ∧
      (r = true → ∃ p ∈ stack, ReflTransGen st.Link p dst) ∧
      (r = false → ∀ p, ver p = cur ∨ p ∈ stack → ¬ ReflTransGen st.Link p dst) := by
  induction fuel generalizing ver stack with
  | zero =>
    obtain rfl : stack = [] := List.eq_nil_of_length_eq_zero (by omega)
    refine ⟨false, ver, rfl, h.marks, by simp, fun _ p hp hreach => ?_⟩
    have hp : ver p = cur := hp.resolve_right (by simp)
    have hdst := Reach.closed (P := fun p => ver p = cur)
      (fun a b ha hab => ((h.closed a ha).2 b hab).resolve_right (by simp)) hp hreach
    exact (h.closed dst hdst).1 rfl
  | succ fuel ih =>
    cases stack with
    | nil =>
      refine ⟨false, ver, rfl, h.marks, by simp, fun _ p hp hreach => ?_⟩
      have hp : ver p = cur := hp.resolve_right (by simp)
      have hdst := Reach.closed (P := fun p => ver p = cur)
        (fun a b ha hab => ((h.closed a ha).2 b hab).resolve_right (by simp)) hp hreach
      exact (h.closed dst hdst).1 rfl
    | cons here stack =>
      rw [dfsLoop]
      by_cases hdst : here = dst
      · rw [if_pos hdst]
        exact ⟨true, ver, rfl, h.marks, fun _ => ⟨here, List.mem_cons_self, hdst ▸ .refl⟩, by simp⟩
      rw [if_neg hdst, assertThat_of (h.marks here), ok_bind]
      rw [List.length_cons] at hfuel
      by_cases hmark : ver here = cur
      · rw [if_pos hmark]
        have hpop : Exploring st cur dst ver stack := by
          refine ⟨h.marks, fun p hp => h.bounds p (List.mem_cons_of_mem _ hp), fun p hp => ⟨(h.closed p hp).1, fun q hq => ?_⟩⟩
          rcases (h.closed p hp).2 q hq with hq | hq
          · exact .inl hq
          · rcases List.mem_cons.mp hq with rfl | hq
            · exact .inl hmark
            · exact .inr hq
        obtain ⟨r, ver', hrun, hmarks, htrue, hfalse⟩ := ih hpop (by omega)
        refine ⟨r, ver', hrun, hmarks, fun hr => ?_, fun hr p hp => hfalse hr p ?_⟩
        · obtain ⟨p, hp, hreach⟩ := htrue hr
          exact ⟨p, List.mem_cons_of_mem _ hp, hreach⟩
        · rcases hp with hp | hp
          · exact .inl hp
          · rcases List.mem_cons.mp hp with rfl | hp
            · exact .inl hmark
            · exact .inr hp
      rw [if_neg hmark]
      have hlt := h.bounds here List.mem_cons_self
      obtain ⟨s, hs⟩ : ∃ s, st.segs[here]? = some s := ⟨_, List.getElem?_eq_getElem hlt⟩
      rw [hs]
      dsimp only
      have hcard : (unmarked (Function.update ver here cur) cur st.segs.length).card + 1 =
          (unmarked ver cur st.segs.length).card := by
        have hin : here ∈ unmarked ver cur st.segs.length :=
          Finset.mem_filter.mpr ⟨Finset.mem_range.mpr hlt, hmark⟩
        have herase : unmarked (Function.update ver here cur) cur st.segs.length =
            (unmarked ver cur st.segs.length).erase here := by
          ext p
          by_cases hp : p = here
          · simp [unmarked, hp]
          · simp [unmarked, hp]
        rw [herase, Finset.card_erase_add_one hin]
      have hlen : (s.other.toList ++ s.prev.toList ++ stack).length ≤ stack.length + 2 := by
        have ho := Option.length_toList_le (o := s.other)
        have hp := Option.length_toList_le (o := s.prev)
        rw [List.length_append, List.length_append]
        omega
      obtain ⟨r, ver', hrun, hmarks, htrue, hfalse⟩ := ih (h.mark hlinks hs hdst) (by omega)
      refine ⟨r, ver', hrun, hmarks, fun hr => ?_, fun hr p hp => hfalse hr p ?_⟩
      · obtain ⟨p, hp, hreach⟩ := htrue hr
        rcases List.mem_append.mp hp with hp | hp
        · exact ⟨here, List.mem_cons_self, .head ((mem_children hs).mp hp) hreach⟩
        · exact ⟨p, List.mem_cons_of_mem _ hp, hreach⟩
      · by_cases heq : p = here
        · exact .inl (heq ▸ Function.update_self ..)
        rw [Function.update_of_ne heq]
        exact hp.imp id fun hp => List.mem_append_right _ ((List.mem_cons.mp hp).resolve_left heq)

/-- `happens_before_wrk` decides whether there is a path. -/
theorem happensBeforeWrk_spec {seg1 seg2 : Nat} (hlinks : ∀ i j, st.Link i j → j < i)
    (hmarks : ∀ p, st.dfsver p ≤ st.dfsverCurrent) (hcur : st.dfsverCurrent < 0xFFFFFFFF)
    (hseg2 : seg2 < st.segs.length) (hne : seg2 ≠ seg1) :
    ∃ r ver, happensBeforeWrk st seg1 seg2 = .ok (r, { st with dfsver := ver, dfsverCurrent := st.dfsverCurrent + 1 }) ∧
      (∀ p, ver p ≤ st.dfsverCurrent + 1) ∧ (r = true ↔ TransGen st.Link seg2 seg1) := by
  obtain ⟨s, hs⟩ : ∃ s, st.segs[seg2]? = some s := ⟨_, List.getElem?_eq_getElem hseg2⟩
  have hseg : SegState.seg { st with dfsverCurrent := st.dfsverCurrent + 1 } seg2 = .ok s := seg_eq_ok.mpr hs
  rw [happensBeforeWrk, assertThat_of hcur, ok_bind, happensBeforeDoDfsFromTo, hseg, ok_bind]
  by_cases hfast : s.prev = some seg1 ∨ s.other = some seg1
  · rw [if_pos hfast]
    exact ⟨true, st.dfsver, rfl, fun p => (hmarks p).trans (Nat.le_succ _), iff_of_true rfl (.single ⟨s, hs, hfast⟩)⟩
  rw [if_neg hfast]
  -- nothing is marked with the new number yet
  have hfresh : ∀ p, st.dfsver p ≠ st.dfsverCurrent + 1 := fun p => (Nat.lt_succ_of_le (hmarks p)).ne
  have hstart : Exploring st (st.dfsverCurrent + 1) seg1 st.dfsver [seg2] :=
    ⟨fun p => (hmarks p).trans (Nat.le_succ _), by simpa using hseg2, fun p hp => absurd hp (hfresh p)⟩
  have hcard : (unmarked st.dfsver (st.dfsverCurrent + 1) st.segs.length).card ≤ st.segs.length := by
    refine (Finset.card_filter_le _ _).trans ?_
    rw [Finset.card_range]
  have hfuel : 2 * (unmarked st.dfsver (st.dfsverCurrent + 1) st.segs.length).card + [seg2].length ≤
      2 * st.segs.length + 1 := by
    rw [List.length_singleton]
    omega
  obtain ⟨r, ver, hrun, hle, htrue, hfalse⟩ := dfsLoop_spec hlinks hstart hfuel
  dsimp only
  rw [hrun, ok_bind]
  refine ⟨r, ver, rfl, hle, ?_⟩
  constructor
  · intro hr
    obtain ⟨p, hp, hreach⟩ := htrue hr
    obtain rfl := List.mem_singleton.mp hp
    exact (reflTransGen_iff_eq_or_transGen.mp hreach).resolve_left (Ne.symm hne)
  · intro hreach
    by_contra hr
    exact hfalse (Bool.eq_false_of_not_eq_true hr) seg2 (.inr List.mem_cons_self) hreach.to_reflTransGen

/-! ## The cache -/

theorem probeCache_some {segid1 segid2 : SegmentID} {cache cache' : List HBeforeCacheEnt} {r : Bool}
    (h : probeCache segid1 segid2 cache = some (r, cache')) :
    (∃ e ∈ cache, e.segid1 = segid1 ∧ e.segid2 = segid2 ∧ e.result = r) ∧ ∀ e ∈ cache', e ∈ cache := by
  unfold probeCache at h
  cases hfind : cache.findIdx? fun e => decide (segid1 = e.segid1 ∧ segid2 = e.segid2) with
  | none =>
    rw [hfind] at h
    cases h
  | some i =>
    obtain ⟨hi, hmatch, -⟩ := List.findIdx?_eq_some_iff_getElem.mp hfind
    obtain ⟨h1, h2⟩ := of_decide_eq_true hmatch
    have hi' : i - 1 < cache.length := by omega
    rw [hfind] at h
    simp only [List.getElem?_eq_getElem hi, List.getElem?_eq_getElem hi', Option.some.injEq, Prod.mk.injEq] at h
    obtain ⟨rfl, rfl⟩ := h
    refine ⟨⟨cache[i], List.getElem_mem hi, h1.symm, h2.symm, rfl⟩, fun e he => ?_⟩
    by_cases hzero : i = 0
    · rwa [if_pos hzero] at he
    rw [if_neg hzero] at he
    rcases List.mem_or_eq_of_mem_set he with he | rfl
    · rcases List.mem_or_eq_of_mem_set he with he | rfl
      · exact he
      · exact List.getElem_mem hi'
    · exact List.getElem_mem hi

theorem mem_insertCache {e e' : HBeforeCacheEnt} {cache : List HBeforeCacheEnt} (h : e' ∈ insertCache e cache) :
    e' = e ∨ e' ∈ cache := by
  rcases List.mem_append.mp (List.mem_of_mem_take h) with h | h
  · exact .inr (List.mem_of_mem_take h)
  · exact (List.mem_cons.mp h).imp id List.mem_of_mem_drop

theorem mapSegmentsLookup_eq_ok (h : Placed st) : mapSegmentsLookup st segid = .ok p ↔
    p < st.segs.length ∧ segid = segidOf p := by
  simp only [mapSegmentsLookup, bind_eq_ok, assertThat_eq_ok]
  rw [← h.maps segid p]
  constructor
  · rintro ⟨-, -, hrun⟩
    cases hm : st.mapSegments segid with
    | none => simp [hm] at hrun
    | some q => simpa [hm] using hrun
  · intro hm
    obtain ⟨hp, rfl⟩ := (h.maps segid p).mp hm
    have := h.sane
    refine ⟨(), ⟨Nat.le_add_right _ _, ?_⟩, by simp [hm]⟩
    show 0x1000000 + p ≤ 0x1FFFFFF
    omega

/-- An answer that is returned is what the timestamps say. -/
theorem happensBefore_inv {crosscheck b : Bool} {segid1 segid2 : SegmentID} (h : SegInv mem cloHappensBefore st)
    (hrun : happensBefore crosscheck st segid1 segid2 = .ok (b, st')) :
    SegInv mem cloHappensBefore st' ∧ ∃ p1 p2 v1 v2, segid1 = segidOf p1 ∧ segid2 = segidOf p2 ∧
      st.vtsAt p1 = some v1 ∧ st.vtsAt p2 = some v2 ∧ b = cmpGEQVTS v2 v1 := by
  simp only [happensBefore, bind_eq_ok, assertThat_eq_ok] at hrun
  obtain ⟨-, hsane, -, -, -, hne, hrun⟩ := hrun
  cases hprobe : probeCache segid1 segid2 st.cache with
  | some hit =>
    obtain ⟨r, cache⟩ := hit
    simp only [hprobe, pure_eq_ok, Prod.mk.injEq] at hrun
    obtain ⟨rfl, rfl⟩ := hrun
    obtain ⟨⟨e, he, rfl, rfl, rfl⟩, hsub⟩ := probeCache_some hprobe
    exact ⟨{ h with valid := fun e he => h.valid e (hsub e he) }, (h.valid e he).resolve_left (not_not_intro hsane)⟩
  | none =>
    simp only [hprobe, bind_eq_ok, assertThat_eq_ok] at hrun
    obtain ⟨p1, h1, p2, h2, -, hdiff, v1, hv1, v2, hv2, hrun⟩ := hrun
    obtain ⟨hp1, rfl⟩ := (mapSegmentsLookup_eq_ok h.toPlaced).mp h1
    obtain ⟨hp2, rfl⟩ := (mapSegmentsLookup_eq_ok h.toPlaced).mp h2
    have hv1 := vts_eq_ok.mp hv1
    have hv2 := vts_eq_ok.mp hv2
    have hvalid : ∀ e ∈ insertCache ⟨segidOf p1, segidOf p2, cmpGEQVTS v2 v1⟩ st.cache, st.Valid e := by
      intro e he
      rcases mem_insertCache he with rfl | he
      · exact .inr ⟨p1, p2, v1, v2, rfl, rfl, hv1, hv2, rfl⟩
      · exact h.valid e he
    cases crosscheck with
    | false =>
      simp only [Bool.false_eq_true, if_false, pure_bind, bind_eq_ok, assertThat_eq_ok, pure_eq_ok, Prod.mk.injEq] at hrun
      obtain ⟨-, -, rfl, rfl⟩ := hrun
      exact ⟨{ h with valid := hvalid }, p1, p2, v1, v2, rfl, rfl, hv1, hv2, rfl⟩
    | true =>
      simp only [if_true, bind_eq_ok, assertThat_eq_ok, Prod.exists, pure_eq_ok, Prod.mk.injEq] at hrun
      obtain ⟨hbG, st₁, hwrk, -, rfl, rfl, rfl⟩ := hrun
      have hcur : st.dfsverCurrent < 0xFFFFFFFF := by
        by_contra hcon
        simp [happensBeforeWrk, assertThat, hcon, bind, Except.bind] at hwrk
      obtain ⟨r, ver, hr, hmarks, -⟩ := happensBeforeWrk_spec h.links h.marks hcur hp2 (Ne.symm hdiff)
      obtain ⟨-, rfl⟩ := Prod.mk.inj (Except.ok.inj (hr.symm.trans hwrk))
      exact ⟨{ h with marks := hmarks, valid := hvalid }, p1, p2, v1, v2, rfl, rfl, hv1, hv2, rfl⟩

/-- **Timestamps are exact**: they are ordered as the graph is. -/
theorem SegInv.cmp_iff (h : SegInv mem cloHappensBefore st) (hhb : 1 ≤ cloHappensBefore) {p1 p2 : Nat} {v1 v2 : VTS}
    (hv1 : st.vtsAt p1 = some v1) (hv2 : st.vtsAt p2 = some v2) (hne : p1 ≠ p2) :
    cmpGEQVTS v2 v1 = true ↔ TransGen st.Link p2 p1 := by
  obtain ⟨s1, hs1, h1⟩ := of_vtsAt hv1
  obtain ⟨s2, hs2, h2⟩ := of_vtsAt hv2
  rw [cmpGEQVTS_iff (h.ok p2 v2 hv2).1 (h.ok p1 v1 hv1).1, ← event_clock h1, ← event_clock h2,
    (h.clocked hhb).le_iff (history_get hs2) (history_get hs1) (Ne.symm hne), depends_iff]

/-- A question about two segments that have timestamps is answered, if the search of the graph
agrees where it is made. -/
theorem happensBefore_stamped (h : SegInv mem cloHappensBefore st) {p1 p2 : Nat} {v1 v2 : VTS} (hv1 : st.vtsAt p1 = some v1)
    (hv2 : st.vtsAt p2 = some v2) (hne : p1 ≠ p2) {crosscheck : Bool}
    (hcheck : crosscheck = true → ∃ st₁, happensBeforeWrk st p1 p2 = .ok (cmpGEQVTS v2 v1, st₁)) :
    ∃ b st', happensBefore crosscheck st (segidOf p1) (segidOf p2) = .ok (b, st') := by
  have hlt : ∀ {p v}, st.vtsAt p = some v → p < st.segs.length := fun hv =>
    (List.getElem?_eq_some_iff.mp (of_vtsAt hv).choose_spec.1).1
  have hsane : ∀ p, p < st.segs.length → isSaneSegmentID (segidOf p) := by
    intro p hp
    have := h.sane
    refine ⟨Nat.le_add_right _ _, ?_⟩
    show 0x1000000 + p ≤ 0x1FFFFFF
    omega
  have hp1 := hlt hv1
  have hp2 := hlt hv2
  rw [happensBefore, assertThat_of (hsane p1 hp1), ok_bind, assertThat_of (hsane p2 hp2), ok_bind,
    assertThat_of (segidOf_injective.ne hne), ok_bind]
  cases probeCache (segidOf p1) (segidOf p2) st.cache with
  | some hit => exact ⟨hit.1, _, rfl⟩
  | none =>
    dsimp only
    rw [(mapSegmentsLookup_eq_ok h.toPlaced).mpr ⟨hp1, rfl⟩, ok_bind, (mapSegmentsLookup_eq_ok h.toPlaced).mpr ⟨hp2, rfl⟩,
      ok_bind, assertThat_of hne, ok_bind, vts_eq_ok.mpr hv1, ok_bind, vts_eq_ok.mpr hv2, ok_bind]
    cases crosscheck with
    | false =>
      refine ⟨cmpGEQVTS v2 v1, { st with cache := insertCache ⟨segidOf p1, segidOf p2, cmpGEQVTS v2 v1⟩ st.cache }, ?_⟩
      rw [if_neg (by simp), pure_bind]
      dsimp only
      rw [assertThat_of rfl]
      rfl
    | true =>
      obtain ⟨st₁, hr⟩ := hcheck rfl
      refine ⟨cmpGEQVTS v2 v1, { st₁ with cache := insertCache ⟨segidOf p1, segidOf p2, cmpGEQVTS v2 v1⟩ st₁.cache }, ?_⟩
      rw [if_pos rfl, hr, ok_bind]
      dsimp only
      rw [assertThat_of rfl]
      rfl

/-- A question is answered, unless the search has run out of numbers for its marks. -/
theorem happensBefore_returns (h : SegInv mem cloHappensBefore st) (hhb : 1 ≤ cloHappensBefore) {p1 p2 : Nat}
    (hp1 : p1 < st.segs.length) (hp2 : p2 < st.segs.length) (hne : p1 ≠ p2) {crosscheck : Bool}
    (hcur : crosscheck = true → st.dfsverCurrent < 0xFFFFFFFF) :
    ∃ b st', happensBefore crosscheck st (segidOf p1) (segidOf p2) = .ok (b, st') := by
  have hstamped : ∀ p, p < st.segs.length → ∃ v, st.vtsAt p = some v := by
    intro p hp
    have hs := List.getElem?_eq_getElem hp
    exact ⟨_, (vtsAt_of hs).trans (Option.some_get ((h.timed p _ hs).mpr (.inl hhb))).symm⟩
  obtain ⟨v1, hv1⟩ := hstamped p1 hp1
  obtain ⟨v2, hv2⟩ := hstamped p2 hp2
  refine happensBefore_stamped h hv1 hv2 hne fun hcheck => ?_
  obtain ⟨r, ver, hr, -, hreach⟩ := happensBeforeWrk_spec h.links h.marks (hcur hcheck) hp2 (Ne.symm hne)
  have hagree : cmpGEQVTS v2 v1 = r := Bool.eq_iff_iff.mpr ((h.cmp_iff hhb hv1 hv2 hne).trans hreach.symm)
  exact ⟨_, hagree ▸ hr⟩

/-! ## Runs -/

theorem segInit_inv (mem : ThreadAddrs) (cloHappensBefore : Nat) : SegInv mem cloHappensBefore (segInit mem) := by
  have hget : ∀ (p : Nat) (s : Segment), (segInit mem).segs[p]? = some s ↔
      p = 0 ∧ s = ⟨some (mem.addr 0), none, none, some [⟨mem.addr 0, 1⟩]⟩ := by
    intro p s
    cases p with
    | zero => simp [segInit, eq_comm]
    | succ p => simp [segInit]
  have hthr : ∀ t, ((segInit mem).csegid t).isSome ↔ t = mem.addr 0 := by
    intro t
    by_cases ht : t = mem.addr 0
    · simp [segInit, ht]
    · simp [segInit, ht]
  obtain ⟨hsingle, hok, hclock⟩ := singletonVTS_spec (mem.ne_zero 0)
  refine ⟨⟨rfl, by simp [segInit], fun segid p => ?_, fun t segid ht => ?_⟩, Nat.one_pos, fun t => ?_, fun p s hs => ?_,
    fun tid t ht => ?_, fun i j hlink => ?_, fun c p hp => ?_, fun sem xa p hxa => ?_, fun p s hs => ?_, fun p v hv => ?_,
    fun _ => ?_, fun p => Nat.le_refl _, fun e he => ?_⟩
  · by_cases hsegid : segid = 0x1000000
    · subst hsegid
      simp only [segInit, Function.update_self, Option.some.injEq, List.length_singleton, Nat.lt_one_iff]
      exact ⟨fun hp => hp ▸ ⟨rfl, rfl⟩, fun hp => hp.1.symm⟩
    · simp only [segInit, Function.update_of_ne hsegid, List.length_singleton, Nat.lt_one_iff, reduceCtorEq, false_iff]
      rintro ⟨rfl, rfl⟩
      exact hsegid rfl
  · obtain rfl := (hthr t).mp (by rw [ht]; rfl)
    obtain rfl : 0x1000000 = segid := by simpa [segInit] using ht
    exact ⟨0, rfl, ⟨_, (hget 0 _).mpr ⟨rfl, rfl⟩, rfl⟩, fun q s hs _ => ((hget q s).mp hs).1.le⟩
  · rw [hthr]
    constructor
    · exact fun ht => ⟨0, Nat.one_pos, ht⟩
    · rintro ⟨n, hn, ht⟩
      exact Nat.lt_one_iff.mp hn ▸ ht
  · obtain ⟨-, rfl⟩ := (hget p s).mp hs
    exact ⟨mem.addr 0, rfl, (hthr _).mpr rfl⟩
  · refine (hthr t).mpr ?_
    by_cases htid : tid = 1
    · simpa [segInit, htid, eq_comm] using ht
    · simp [segInit, htid] at ht
  · obtain ⟨s, hs, hlink⟩ := hlink
    obtain ⟨-, rfl⟩ := (hget i s).mp hs
    simp at hlink
  · simp [segInit] at hp
  · simp [segInit] at hxa
  · obtain ⟨-, rfl⟩ := (hget p s).mp hs
    simp
  · obtain ⟨s, hs, hsv⟩ := of_vtsAt hv
    obtain ⟨-, rfl⟩ := (hget p s).mp hs
    obtain rfl := Option.some.inj hsv
    exact ⟨hok, by simp⟩
  · refine clocked_nil.snoc (e := Segment.event ⟨some (mem.addr 0), none, none, some [⟨mem.addr 0, 1⟩]⟩)
      ⟨by simp [Segment.event], by simp, by simp, by simp, ?_, fun t ht hpos => ?_⟩
    · show 0 < VTS.clock [⟨mem.addr 0, 1⟩] (mem.addr 0)
      rw [hclock, Function.update_self]
      exact Nat.one_pos
    · have hpos : 0 < VTS.clock [⟨mem.addr 0, 1⟩] t := hpos
      rw [hclock, Function.update_of_ne (by exact ht)] at hpos
      exact absurd hpos (Nat.lt_irrefl 0)
  · obtain rfl := List.eq_of_mem_replicate he
    exact .inl (by decide)

/-- **Every event keeps the invariant.** -/
theorem segStep_inv (h : SegInv mem cloHappensBefore st) {e : SegEvent} (hrun : segStep mem cloHappensBefore st e = .ok st') :
    SegInv mem cloHappensBefore st' := by
  cases e with
  | create parent child => exact preThreadLlCreate_inv h hrun
  | exit tid =>
    simp only [segStep, preThreadLlExit, bind_eq_ok, pure_eq_ok] at hrun
    obtain ⟨thr, -, rfl⟩ := hrun
    refine { h with live := fun t thr ht => ?_ }
    by_cases htid : t = tid
    · simp [htid] at ht
    · exact h.live t thr (by simpa [htid] using ht)
  | join stayTid quitThr =>
    simp only [segStep, pthreadJoinPost, bind_eq_ok, assertThat_eq_ok] at hrun
    obtain ⟨thrS, -, -, -, -, -, hrun⟩ := hrun
    by_cases hhb : cloHappensBefore ≥ 1
    · rw [if_pos hhb] at hrun
      obtain ⟨other, hother, hrun⟩ := bind_eq_ok.mp hrun
      exact joinedSegment_inv h hhb (current_inv h.toPlaced hother).1.lt hrun
    · rw [if_neg hhb] at hrun
      exact pure_eq_ok.mp hrun ▸ h
  | condSignal tid cond =>
    simp only [segStep, pthreadCondSignalPre, bind_eq_ok] at hrun
    obtain ⟨thr, -, hrun⟩ := hrun
    by_cases hhb : cloHappensBefore ≥ 2
    · rw [if_pos hhb] at hrun
      simp only [bind_eq_ok, Prod.exists, pure_eq_ok] at hrun
      obtain ⟨prev, st₁, htick, rfl⟩ := hrun
      obtain ⟨h₁, hprev⟩ := tickedSegment_inv h htick
      exact h₁.setCond hprev cond
    · rw [if_neg hhb] at hrun
      exact pure_eq_ok.mp hrun ▸ h
  | condWait tid cond =>
    simp only [segStep, pthreadCondWaitPost, bind_eq_ok] at hrun
    obtain ⟨thr, -, hrun⟩ := hrun
    by_cases hhb : cloHappensBefore ≥ 2
    · rw [if_pos hhb] at hrun
      cases hcond : st.mapCond cond with
      | some seg =>
        rw [hcond] at hrun
        exact joinedSegment_inv h (by omega) (h.conds cond seg hcond) hrun
      | none =>
        simp only [hcond, bind_eq_ok, Prod.exists, pure_eq_ok] at hrun
        obtain ⟨prev, st₁, htick, rfl⟩ := hrun
        exact (tickedSegment_inv (h.misc _ _) htick).1
    · rw [if_neg hhb] at hrun
      exact pure_eq_ok.mp hrun ▸ h
  | semInit tid sem value => exact posixSemInitPost_inv h hrun
  | semDestroy sem =>
    obtain rfl := pure_eq_ok.mp hrun
    exact popAll_inv sem _ h
  | semPost tid sem =>
    simp only [segStep, posixSemPostPre, bind_eq_ok] at hrun
    obtain ⟨thr, -, hrun⟩ := hrun
    by_cases hhb : cloHappensBefore ≥ 2
    · rw [if_pos hhb] at hrun
      simp only [bind_eq_ok, Prod.exists, pure_eq_ok] at hrun
      obtain ⟨prev, st₁, htick, rfl⟩ := hrun
      obtain ⟨h₁, hprev⟩ := tickedSegment_inv h htick
      exact push_inv h₁ hprev sem
    · rw [if_neg hhb] at hrun
      exact pure_eq_ok.mp hrun ▸ h
  | semWait tid sem =>
    simp only [segStep, posixSemWaitPost, bind_eq_ok] at hrun
    obtain ⟨thr, -, hrun⟩ := hrun
    by_cases hhb : cloHappensBefore ≥ 2
    · rw [if_pos hhb] at hrun
      rcases hpop : mbPopSegmentForSem st sem with ⟨r, st₁⟩
      obtain ⟨h₁, hseg⟩ := mbPop_inv h hpop
      rw [hpop] at hrun
      cases r with
      | some seg => exact joinedSegment_inv h₁ (by omega) (hseg seg rfl) hrun
      | none =>
        simp only [bind_eq_ok, Prod.exists, pure_eq_ok] at hrun
        obtain ⟨prev, st₂, htick, rfl⟩ := hrun
        exact (tickedSegment_inv (h₁.misc _ _) htick).1
    · rw [if_neg hhb] at hrun
      exact pure_eq_ok.mp hrun ▸ h
  | ask crosscheck segid1 segid2 =>
    simp only [segStep, bind_eq_ok, Prod.exists, pure_eq_ok] at hrun
    obtain ⟨b, st₁, hask, rfl⟩ := hrun
    exact (happensBefore_inv h hask).1

/-- The invariant holds in every state that a run reaches. -/
theorem segRun_inv {es : List SegEvent} (hrun : runSteps (segStep mem cloHappensBefore) (segInit mem) es = .ok st) :
    SegInv mem cloHappensBefore st :=
  runSteps_inv (fun h hstep => segStep_inv h hstep) (segInit_inv mem cloHappensBefore) hrun

/-- **Happens-before is decided exactly.** With `--happens-before=threads` or `all`, after every run and
for every two segments, the question is answered; the answer is whether there is a path of
links, whatever is in the cache and whether or not the search of the graph is used as well. -/
theorem happensBefore_exact (mem : ThreadAddrs) {cloHappensBefore : Nat} (hhb : 1 ≤ cloHappensBefore)
    {es : List SegEvent} {st : SegState}
    (hrun : runSteps (segStep mem cloHappensBefore) (segInit mem) es = .ok st) {p1 p2 : Nat}
    (hp1 : p1 < st.segs.length) (hp2 : p2 < st.segs.length) (hne : p1 ≠ p2) (crosscheck : Bool)
    (hcur : crosscheck = true → st.dfsverCurrent < 0xFFFFFFFF) :
    (∃ b st', happensBefore crosscheck st (segidOf p1) (segidOf p2) = .ok (b, st') ∧
      (b = true ↔ TransGen st.Link p2 p1)) ∧
    ¬ TransGen st.Link p1 p1 := by
  have h := segRun_inv hrun
  obtain ⟨b, st', hask⟩ := happensBefore_returns h hhb hp1 hp2 hne hcur
  obtain ⟨-, q1, q2, v1, v2, h1, h2, hv1, hv2, rfl⟩ := happensBefore_inv h hask
  obtain rfl := segidOf_injective h1
  obtain rfl := segidOf_injective h2
  refine ⟨⟨_, st', hask, h.cmp_iff hhb hv1 hv2 hne⟩, ?_⟩
  rw [← depends_iff]
  exact (h.clocked hhb).acyclic p1

/-- A thread is created; the order of its first segment and the creator's first one is asked, with
the search of the graph as well. -/
theorem happensBefore_exact_created :
    ∃ mem : ThreadAddrs, ∃ st, runSteps (segStep mem 1) (segInit mem) [.create 1 2] = .ok st ∧
      ((∃ b st', happensBefore true st (segidOf 0) (segidOf 1) = .ok (b, st') ∧
        (b = true ↔ TransGen st.Link 1 0)) ∧ ¬ TransGen st.Link 0 0) := by
  let mem : ThreadAddrs := ⟨fun n => n + 1, fun _ _ h => Nat.succ.inj h, Nat.succ_ne_zero⟩
  obtain ⟨st, hrun, hlen, hcur⟩ : ∃ st, runSteps (segStep mem 1) (segInit mem) [.create 1 2] = .ok st ∧
      st.segs.length = 3 ∧ st.dfsverCurrent = 0 := ⟨_, rfl, rfl, rfl⟩
  have hp1 : 0 < st.segs.length := by omega
  have hp2 : 1 < st.segs.length := by omega
  exact ⟨mem, st, hrun, happensBefore_exact mem (le_refl 1) hrun hp1 hp2 Nat.zero_ne_one true fun _ => by omega⟩

/-- **Which questions are answered.** After every run, with any setting of `--happens-before`, the order of
two segments is told if and only if happens-before is not switched off, or both segments are the
first thread's. The other questions fail an assertion. -/
theorem happensBefore_answers_iff (mem : ThreadAddrs) (cloHappensBefore : Nat) {es : List SegEvent} {st : SegState}
    (hrun : runSteps (segStep mem cloHappensBefore) (segInit mem) es = .ok st) {p1 p2 : Nat} {s1 s2 : Segment}
    (hs1 : st.segs[p1]? = some s1) (hs2 : st.segs[p2]? = some s2) (hne : p1 ≠ p2) :
    (∃ b st', happensBefore false st (segidOf p1) (segidOf p2) = .ok (b, st')) ↔
      1 ≤ cloHappensBefore ∨ s1.thr = some (mem.addr 0) ∧ s2.thr = some (mem.addr 0) := by
  have h := segRun_inv hrun
  rw [or_and_left, ← h.timed p1 s1 hs1, ← h.timed p2 s2 hs2]
  constructor
  · rintro ⟨b, st', hask⟩
    obtain ⟨-, q1, q2, v1, v2, h1, h2, hv1, hv2, -⟩ := happensBefore_inv h hask
    obtain rfl := segidOf_injective h1
    obtain rfl := segidOf_injective h2
    rw [vtsAt_of hs1] at hv1
    rw [vtsAt_of hs2] at hv2
    rw [hv1, hv2]
    exact ⟨rfl, rfl⟩
  · rintro ⟨hv1, hv2⟩
    obtain ⟨v1, hv1⟩ := Option.isSome_iff_exists.mp hv1
    obtain ⟨v2, hv2⟩ := Option.isSome_iff_exists.mp hv2
    exact happensBefore_stamped h ((vtsAt_of hs1).trans hv1) ((vtsAt_of hs2).trans hv2) hne fun hcheck => absurd hcheck Bool.false_ne_true

/-- Happens-before is switched off, and the order of a created thread's segment and the creator's is asked. -/
theorem happensBefore_answers_iff_off :
    ∃ (mem : ThreadAddrs) (st : SegState) (s1 s2 : Segment),
      runSteps (segStep mem 0) (segInit mem) [.create 1 2] = .ok st ∧ st.segs[0]? = some s1 ∧ st.segs[1]? = some s2 ∧
        ((∃ b st', happensBefore false st (segidOf 0) (segidOf 1) = .ok (b, st')) ↔
          1 ≤ 0 ∨ s1.thr = some (mem.addr 0) ∧ s2.thr = some (mem.addr 0)) := by
  let mem : ThreadAddrs := ⟨fun n => n + 1, fun _ _ h => Nat.succ.inj h, Nat.succ_ne_zero⟩
  obtain ⟨st, s1, s2, hrun, hs1, hs2⟩ : ∃ st s1 s2, runSteps (segStep mem 0) (segInit mem) [.create 1 2] = .ok st ∧
      st.segs[0]? = some s1 ∧ st.segs[1]? = some s2 := ⟨_, _, _, rfl, rfl, rfl⟩
  exact ⟨mem, st, s1, s2, hrun, hs1, hs2, happensBefore_answers_iff mem 0 hrun hs1 hs2 Nat.zero_ne_one⟩

end

end Helgrind

end Valgrind
