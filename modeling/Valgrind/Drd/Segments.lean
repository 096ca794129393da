import Valgrind.Drd.ClockMinimum
import Valgrind.Lib.LinkedList

/-!
# Segments (`drd_segment.c`, `drd_thread.c`)

Every thread has a doubly linked list of segments, each with the vector clock of the time in which it was
the last one. `thread_discard_ordered_segments` computes the minimum of the latest clocks of all threads
and takes the segments off each list, from its first one on, that are not after the minimum.

`discardOrdered_iff`: the right segments are taken off exactly when no segment is kept because a clock has
a component behind one of the segment's, and none is discarded because a clock ends before one.
-/

namespace Valgrind.Drd

open SortedMerge LinkedList

/-! ## The code -/

/-- `Segment`. -/
structure Segment where
  next : Option Nat
  prev : Option Nat
  refcnt : Int
  vc : VectorClock
  deriving DecidableEq

/-- The list of a `ThreadInfo`. -/
structure ThreadInfo where
  first : Option Nat
  last : Option Nat
  deriving DecidableEq

/-- The segments in memory, and `s_threadinfo`. -/
structure Threads where
  sgs : Nat → Option Segment
  info : List ThreadInfo

/-- `sg_cleanup`. -/
def sgCleanup (sg : Segment) : Result Unit := do
  assertThat (sg.refcnt = 0)
  let _ ← vcCleanup sg.vc
  return ()

/-- `sg->...`. -/
def Threads.sg (s : Threads) (a : Nat) : Result Segment :=
  match s.sgs a with
  | some sg => pure sg
  | none => throw .fault

/-- Change a segment. -/
def Threads.store (s : Threads) (a : Nat) (f : Segment → Segment) : Result Threads := do
  let sg ← s.sg a
  return { s with sgs := Function.update s.sgs a (some (f sg)) }

/-- Change a segment, if the pointer is not null. -/
def Threads.storeIf (s : Threads) : Option Nat → (Segment → Segment) → Result Threads
  | none, _ => return s
  | some a, f => s.store a f

/-- `sg_put`, and `sg_delete` of a segment that nobody refers to any more. -/
def sgPut (s : Threads) (a : Nat) : Result Threads := do
  let sg ← s.sg a
  assertThat (sg.refcnt ≥ 1)
  let s ← s.store a fun sg => { sg with refcnt := sg.refcnt - 1 }
  let sg ← s.sg a
  if sg.refcnt = 0 then do
    sgCleanup sg
    return { s with sgs := Function.update s.sgs a none }
  else return s

/-- `s_threadinfo[tid]`. -/
def Threads.thread (s : Threads) (tid : Nat) : Result ThreadInfo :=
  match s.info[tid]? with
  | some ti => pure ti
  | none => throw .fault

/-- `thread_discard_segment`. The array has `DRD_N_THREADS` elements, and `DRD_INVALID_THREADID` is 0. -/
def threadDiscardSegment (s : Threads) (tid sg : Nat) : Result Threads := do
  assertThat (tid < s.info.length ∧ tid ≠ 0)
  let c ← s.sg sg
  let s ← s.storeIf c.prev fun d => { d with next := c.next }
  let c ← s.sg sg
  let s ← s.storeIf c.next fun d => { d with prev := c.prev }
  let c ← s.sg sg
  let ti ← s.thread tid
  let ti := if ti.first = some sg then { ti with first := c.next } else ti
  let ti := if ti.last = some sg then { ti with last := c.prev } else ti
  sgPut { s with info := s.info.set tid ti } sg

/-- The loop of `thread_compute_minimum_vc`. -/
def minimumLoop (s : Threads) : List ThreadInfo → Bool → VectorClock → Result VectorClock
  | [], _, vc => return vc
  | ti :: info, first, vc =>
    match ti.last with
    | none => minimumLoop s info first vc
    | some latestSg => do
      let sg ← s.sg latestSg
      let vc ← (if first then vcAssign vc sg.vc else vcMin vc sg.vc)
      minimumLoop s info false vc

/-- `thread_compute_minimum_vc`. -/
def threadComputeMinimumVc (s : Threads) (vc : VectorClock) : Result VectorClock := minimumLoop s s.info true vc

/-- The inner loop of `thread_discard_ordered_segments`. -/
def discardLoop (threadVcMin : VectorClock) (tid : Nat) : Nat → Threads → Option Nat → Result Threads
  | _, s, none => return s
  | 0, _, some _ => throw .diverge
  | fuel + 1, s, some sg => do
    let c ← s.sg sg
    match c.next with
    | none => return s
    | some sgNext =>
      if vcLte c.vc threadVcMin then do
        let s ← threadDiscardSegment s tid sg
        discardLoop threadVcMin tid fuel s (some sgNext)
      else return s

/-- The outer loop. -/
def discardAll (threadVcMin : VectorClock) (fuel : Nat) : List Nat → Threads → Result Threads
  | [], s => return s
  | tid :: tids, s => do
    let ti ← s.thread tid
    let s ← discardLoop threadVcMin tid fuel s ti.first
    discardAll threadVcMin fuel tids s

/-- `thread_discard_ordered_segments`. -/
def threadDiscardOrderedSegments (fuel : Nat) (s : Threads) : Result Threads := do
  let threadVcMin ← vcInit []
  let threadVcMin ← threadComputeMinimumVc s threadVcMin
  let s ← discardAll threadVcMin fuel (List.range s.info.length) s
  let _ ← vcCleanup threadVcMin
  return s

/-! ## The lists -/

/-- A segment that is on a list, and its clock. -/
abbrev Entry := Nat × VectorClock

/-- The links of a segment. -/
def segmentLinks : Links Segment where
  next := Segment.next
  prev := Segment.prev
  setNext c a := { c with next := a }
  setPrev c a := { c with prev := a }
  next_setNext _ _ := rfl
  prev_setNext _ _ := rfl
  next_setPrev _ _ := rfl
  prev_setPrev _ _ := rfl

/-- The segments of every thread: the links, the first and the last segment are those of the list. -/
structure Threads.Holds (s : Threads) (ls : Nat → List Entry) : Prop where
  linked : ∀ i ti, s.info[i]? = some ti → Linked segmentLinks s.sgs ti.first ti.last ((ls i).map Prod.fst)
  outside : ∀ i, s.info.length ≤ i → ls i = []
  invalid : ls 0 = []
  nodup : ∀ i, ((ls i).map Prod.fst).Nodup
  disjoint : ∀ i j, i ≠ j → ∀ p ∈ ls i, ∀ q ∈ ls j, p.1 ≠ q.1
  cells : ∀ i, ∀ p ∈ ls i, ∃ c, s.sgs p.1 = some c ∧ c.vc = p.2 ∧ 1 ≤ c.refcnt

section Lists

variable {s : Threads} {ls : Nat → List Entry} {p q : Entry} {l pre post : List Entry} {tid i a : Nat} {c : Segment}

theorem Threads.sg_of (h : s.sgs a = some c) : s.sg a = .ok c := by
  rw [Threads.sg, h]
  rfl

/-- The lists are determined by the memory. -/
theorem Threads.Holds.unique {ls' : Nat → List Entry} (H : s.Holds ls) (H' : s.Holds ls') : ls = ls' := by
  have hvc : ∀ (l l' : List Entry), l.map Prod.fst = l'.map Prod.fst →
      (∀ p ∈ l, ∃ c, s.sgs p.1 = some c ∧ c.vc = p.2) →
      (∀ p ∈ l', ∃ c, s.sgs p.1 = some c ∧ c.vc = p.2) → l = l' := by
    intro l
    induction l with
    | nil =>
      intro l' hmap _ _
      exact (List.map_eq_nil_iff.mp hmap.symm).symm
    | cons p l ih =>
      intro l' hmap hl hl'
      match l' with
      | [] => exact nomatch hmap
      | q :: l' =>
        obtain ⟨hpq, hrest⟩ := List.cons.inj hmap
        obtain ⟨c, hc, hp⟩ := hl p List.mem_cons_self
        obtain ⟨d, hd, hq⟩ := hl' q List.mem_cons_self
        rw [hpq, hd] at hc
        obtain rfl := Option.some.inj hc
        rw [ih l' hrest (fun r hr => hl r (List.mem_cons_of_mem _ hr)) fun r hr => hl' r (List.mem_cons_of_mem _ hr)]
        exact congrArg (· :: l') (Prod.ext hpq (hp.symm.trans hq))
  funext i
  rcases Nat.lt_or_ge i s.info.length with hi | hi
  · have hti : s.info[i]? = some s.info[i] := List.getElem?_eq_getElem hi
    refine hvc _ _ ((H.linked i _ hti).unique (H'.linked i _ hti)) (fun p hp => ?_) fun p hp => ?_
    · obtain ⟨c, hc, hp, -⟩ := H.cells i p hp
      exact ⟨c, hc, hp⟩
    · obtain ⟨c, hc, hp, -⟩ := H'.cells i p hp
      exact ⟨c, hc, hp⟩
  · rw [H.outside i hi, H'.outside i hi]

theorem storeIf_spec {x : Option Nat} (f : Segment → Segment) (h : ∀ a, x = some a → (s.sgs a).isSome) :
    s.storeIf x f = .ok { s with sgs := modify s.sgs f x } := by
  cases x with
  | none => rfl
  | some a =>
    obtain ⟨c, hc⟩ := Option.isSome_iff_exists.mp (h a rfl)
    rw [Threads.storeIf, Threads.store, Threads.sg_of hc, ok_bind, LinkedList.modify, hc]
    rfl

/-- `sg_put` leaves the other segments as they are. -/
theorem sgPut_spec (hc : s.sgs a = some c) (href : 1 ≤ c.refcnt) : ∃ s', sgPut s a = .ok s' ∧ s'.info = s.info ∧
    s'.sgs a = (if c.refcnt = 1 then none else some { c with refcnt := c.refcnt - 1 }) ∧
      ∀ b, b ≠ a → s'.sgs b = s.sgs b := by
  have hself : (Function.update s.sgs a (some { c with refcnt := c.refcnt - 1 })) a =
      some { c with refcnt := c.refcnt - 1 } := Function.update_self ..
  by_cases hone : c.refcnt = 1
  · refine ⟨{ s with
        sgs := Function.update (Function.update s.sgs a (some { c with refcnt := c.refcnt - 1 })) a none }, ?_, rfl, ?_, fun b hb => ?_⟩
    · rw [sgPut, Threads.sg_of hc, ok_bind, assertThat_of href, ok_bind, Threads.store, Threads.sg_of hc, ok_bind,
        pure_bind, Threads.sg_of hself, ok_bind, if_pos (by dsimp only; omega), sgCleanup,
        assertThat_of (by dsimp only; omega), ok_bind, vcCleanup_spec]
      rfl
    · rw [if_pos hone]
      exact Function.update_self ..
    · exact (Function.update_of_ne hb _ _).trans (Function.update_of_ne hb _ _)
  · refine ⟨{ s with sgs := Function.update s.sgs a (some { c with refcnt := c.refcnt - 1 }) }, ?_, rfl, ?_,
      fun b hb => ?_⟩
    · rw [sgPut, Threads.sg_of hc, ok_bind, assertThat_of href, ok_bind, Threads.store, Threads.sg_of hc, ok_bind,
        pure_bind, Threads.sg_of hself, ok_bind, if_neg (by dsimp only; omega)]
      rfl
    · rw [if_neg hone]
      exact hself
    · exact Function.update_of_ne hb _ _

/-- The neighbours of a segment are segments. -/
theorem Threads.Holds.isSome (H : s.Holds ls) (ha : a ∈ (ls i).map Prod.fst) : (s.sgs a).isSome := by
  obtain ⟨p, hp, rfl⟩ := List.mem_map.mp ha
  obtain ⟨c, hc, -⟩ := H.cells i p hp
  rw [hc]
  rfl

/-- **`thread_discard_segment`** takes a segment out of the list of its thread. -/
theorem threadDiscardSegment_spec (H : s.Holds ls) (hl : ls i = pre ++ p :: post) :
    ∃ s', threadDiscardSegment s i p.1 = .ok s' ∧ s'.info.length = s.info.length ∧
      s'.Holds (Function.update ls i (pre ++ post)) := by
  have hp : p ∈ ls i := hl ▸ List.mem_append_right _ List.mem_cons_self
  have hi : i < s.info.length := Nat.lt_of_not_le fun h => by
    rw [H.outside i h] at hp
    exact nomatch hp
  have hne : i ≠ 0 := fun h => by
    rw [h, H.invalid] at hp
    exact nomatch hp
  have hti : s.info[i]? = some s.info[i] := List.getElem?_eq_getElem hi
  obtain ⟨ti, hti'⟩ : ∃ ti, ti = s.info[i] := ⟨_, rfl⟩
  rw [← hti'] at hti
  have hmap : (ls i).map Prod.fst = pre.map Prod.fst ++ p.1 :: post.map Prod.fst := by
    rw [hl, List.map_append, List.map_cons]
  have hlinked := H.linked i ti hti
  have hnodup := H.nodup i
  rw [hmap] at hlinked hnodup
  obtain ⟨c, hc, hvc, href⟩ := H.cells i p hp
  obtain ⟨hnext, hprev⟩ := hlinked.links hc
  have hpre : p.1 ∉ pre.map Prod.fst := fun ha => (List.disjoint_of_nodup_append hnodup) ha List.mem_cons_self
  have hpost : p.1 ∉ post.map Prod.fst := (List.nodup_cons.mp (List.nodup_append.mp hnodup).2.1).1
  have hprevMem : ∀ a, c.prev = some a → a ∈ (ls i).map Prod.fst := fun a ha => by
    rw [hmap]
    exact List.mem_append_left _ (List.mem_of_getLast? (hprev.symm.trans ha))
  have hnextMem : ∀ a, c.next = some a → a ∈ (ls i).map Prod.fst := fun a ha => by
    rw [hmap]
    exact List.mem_append_right _ (List.mem_cons_of_mem _ (List.mem_of_head? (hnext.symm.trans ha)))
  -- the neighbours are linked
  obtain ⟨h₁, hh₁⟩ : ∃ h₁, h₁ = modify s.sgs (fun d => { d with next := c.next }) c.prev := ⟨_, rfl⟩
  have hrun₁ : s.storeIf c.prev (fun d => { d with next := c.next }) = .ok { s with sgs := h₁ } :=
    hh₁ ▸ storeIf_spec _ fun a ha => H.isSome (hprevMem a ha)
  have hc₁ : h₁ p.1 = some c := by
    rw [hh₁, modify_of_ne, hc]
    exact fun heq => hpre (List.mem_of_getLast? (hprev.symm.trans heq))
  have hrun₂ : Threads.storeIf { s with sgs := h₁ } c.next (fun d => { d with prev := c.prev }) =
      .ok { s with sgs := unlinkHeap segmentLinks s.sgs c } := by
    have hunlink : unlinkHeap segmentLinks s.sgs c = modify h₁ (fun d => { d with prev := c.prev }) c.next := by
      rw [hh₁]
      rfl
    rw [hunlink]
    refine storeIf_spec _ fun a ha => ?_
    have hsome := H.isSome (hnextMem a ha)
    have hfield : ∀ d : Segment, ({ d with next := c.next } : Segment).refcnt = d.refcnt := fun _ => rfl
    rw [← Option.isSome_map (f := Segment.refcnt)] at hsome ⊢
    rw [hh₁]
    exact (congrArg Option.isSome (map_modify hfield c.prev a)).trans hsome
  have hc₂ : unlinkHeap segmentLinks s.sgs c p.1 = some c := (hlinked.unlinkHeap_of_not_mem hc hpre hpost).trans hc
  -- the segment is not referred to from the list any more
  obtain ⟨ti', hnew⟩ : ∃ ti', ti' = (⟨if ti.first = some p.1 then c.next else ti.first,
      if ti.last = some p.1 then c.prev else ti.last⟩ : ThreadInfo) := ⟨_, rfl⟩
  obtain ⟨s', hput, hinfo, -, hother⟩ :=
    sgPut_spec (s := ⟨unlinkHeap segmentLinks s.sgs c, s.info.set i ti'⟩) hc₂ href
  dsimp only at hinfo hother
  have hfields : ti' = (let t := if ti.first = some p.1 then { ti with first := c.next } else ti
      if t.last = some p.1 then { t with last := c.prev } else t) := by
    rw [hnew]
    dsimp only
    split_ifs <;> rfl
  have hkept : ∀ b, b ∉ pre.map Prod.fst → b ∉ post.map Prod.fst → b ≠ p.1 → s'.sgs b = s.sgs b := fun b hb hb' hbp =>
    (hother b hbp).trans (hlinked.unlinkHeap_of_not_mem hc hb hb')
  have hout : ∀ j, j ≠ i → ∀ b ∈ (ls j).map Prod.fst, s'.sgs b = s.sgs b := fun j hj b hb => by
    obtain ⟨r, hr, rfl⟩ := List.mem_map.mp hb
    have hdisj : r.1 ∉ (ls i).map Prod.fst := fun hr' => by
      obtain ⟨t, ht, heq⟩ := List.mem_map.mp hr'
      exact H.disjoint j i hj r hr t ht heq.symm
    rw [hmap, List.mem_append, List.mem_cons] at hdisj
    exact hkept r.1 (fun h => hdisj (.inl h)) (fun h => hdisj (.inr (.inr h))) fun h => hdisj (.inr (.inl h))
  have hsub : ∀ r ∈ pre ++ post, r ∈ ls i ∧ r.1 ≠ p.1 := fun r hr => by
    refine ⟨?_, fun heq => ?_⟩
    · rw [hl]
      exact (List.mem_append.mp hr).elim (List.mem_append_left _) fun h =>
        List.mem_append_right _ (List.mem_cons_of_mem _ h)
    · rcases List.mem_append.mp hr with hr | hr
      · exact hpre (heq ▸ List.mem_map_of_mem hr)
      · exact hpost (heq ▸ List.mem_map_of_mem hr)
  refine ⟨s', ?_, by rw [hinfo, List.length_set], ?_, ?_, ?_, ?_, ?_, ?_⟩
  · rw [threadDiscardSegment, assertThat_of ⟨hi, hne⟩, ok_bind, Threads.sg_of hc, ok_bind, hrun₁, ok_bind,
      Threads.sg_of hc₁, ok_bind, hrun₂, ok_bind, Threads.sg_of hc₂, ok_bind, Threads.thread]
    dsimp only
    rw [hti]
    dsimp only
    rw [pure_bind, ← hput, hfields]
  · intro j tj htj
    rw [hinfo] at htj
    by_cases hj : j = i
    · rw [hj, List.getElem?_set_self hi] at htj
      obtain rfl := Option.some.inj htj
      rw [hj, Function.update_self, List.map_append, hnew]
      refine (hlinked.unlink hnodup hc).congr fun b hb => hother b fun hbp => ?_
      rw [hbp] at hb
      exact (List.mem_append.mp hb).elim hpre hpost
    · rw [List.getElem?_set_ne (Ne.symm hj)] at htj
      rw [Function.update_of_ne hj]
      exact (H.linked j tj htj).congr (hout j hj)
  · intro j hj
    rw [hinfo, List.length_set] at hj
    have hji : j ≠ i := by omega
    rw [Function.update_of_ne hji]
    exact H.outside j hj
  · rw [Function.update_of_ne hne.symm]
    exact H.invalid
  · intro j
    by_cases hj : j = i
    · rw [hj, Function.update_self, List.map_append]
      exact hnodup.sublist ((List.sublist_cons_self p.1 _).append_left _)
    · rw [Function.update_of_ne hj]
      exact H.nodup j
  · intro j k hjk r hr t ht
    have hsubset : ∀ j, ∀ r ∈ Function.update ls i (pre ++ post) j, r ∈ ls j := fun j r hr => by
      by_cases hj : j = i
      · rw [hj, Function.update_self] at hr
        exact hj ▸ (hsub r hr).1
      · rwa [Function.update_of_ne hj] at hr
    exact H.disjoint j k hjk r (hsubset j r hr) t (hsubset k t ht)
  · intro j r hr
    by_cases hj : j = i
    · rw [hj, Function.update_self] at hr
      obtain ⟨hr', hrp⟩ := hsub r hr
      obtain ⟨d, hd, hdvc, hdref⟩ := H.cells i r hr'
      have hfield : (unlinkHeap segmentLinks s.sgs c r.1).map (fun d => (d.vc, d.refcnt)) =
          some (d.vc, d.refcnt) := by
        rw [map_unlinkHeap (fun _ _ => rfl) (fun _ _ => rfl), hd]
        rfl
      obtain ⟨d', hd', heq⟩ := Option.map_eq_some_iff.mp hfield
      obtain ⟨hvc', href'⟩ := Prod.mk.inj heq
      exact ⟨d', (hother r.1 hrp).trans hd', hvc'.trans hdvc, href' ▸ hdref⟩
    · rw [Function.update_of_ne hj] at hr
      obtain ⟨d, hd, hrest⟩ := H.cells j r hr
      exact ⟨d, (hout j hj r.1 (List.mem_map_of_mem hr)).trans hd, hrest⟩

end Lists

/-! ## The minimum -/

/-- What the minimum is taken of: the latest clocks, in the order of the threads. -/
def latestClocks (n : Nat) (ls : Nat → List Entry) : List VectorClock :=
  (List.range n).filterMap fun i => (ls i).getLast?.map Prod.snd

/-- What `vc_min` makes of an element with the clocks one after the other. -/
def minElems (clocks : List VectorClock) (e : VCElem) : VCElem := clocks.foldl (fun e c => minElem c.vc e) e

/-- A clock that is not after the computed minimum: the first of the latest clocks has its components,
the other ones have none behind them, and those that have the same component have no smaller one. -/
def BelowMin (clocks : List VectorClock) (vc : VectorClock) : Prop :=
  ∀ e ∈ vc.vc, (∀ c ∈ clocks.head?, e.count ≤ c.count e.threadid) ∧
    ∀ c ∈ clocks.tail, ¬ Passed c.vc e.threadid ∧ ∀ f ∈ c.vc, f.threadid = e.threadid → e.count ≤ f.count

section Minimum

variable {s : Threads} {ls : Nat → List Entry} {clocks : List VectorClock} {vc c : VectorClock} {e g : VCElem}
  {q : List VCElem} {k : Nat}

theorem minElems_threadid (clocks : List VectorClock) (e : VCElem) : (minElems clocks e).threadid = e.threadid := by
  induction clocks generalizing e with
  | nil => rfl
  | cons c clocks ih => exact (ih _).trans (minElem_threadid c.vc e)

/-- What is left of an element is large enough. -/
theorem le_minElem_iff (hq : Sorted VCElem.threadid q) (hk : 0 < k) : k ≤ (minElem q g).count ↔
    k ≤ g.count ∧ ¬ Passed q g.threadid ∧ ∀ f ∈ q, f.threadid = g.threadid → k ≤ f.count := by
  by_cases hp : Passed q g.threadid
  · rw [minElem_of_passed hp]
    exact iff_of_false (Nat.not_le.mpr hk) fun h => h.2.1 hp
  · unfold minElem
    rw [if_neg hp]
    cases hfind : find VCElem.threadid g.threadid q with
    | none => exact ⟨fun h => ⟨h, hp, fun f hf hid => absurd hid (find_eq_none.mp hfind f hf)⟩, fun h => h.1⟩
    | some f =>
      obtain ⟨hf, hid⟩ := find_some hfind
      constructor
      · intro h
        refine ⟨h.trans (Nat.min_le_left _ _), hp, fun f' hf' hid' => ?_⟩
        have hfind' := hq.find_of_mem hf'
        rw [hid', hfind] at hfind'
        exact Option.some.inj hfind' ▸ h.trans (Nat.min_le_right _ _)
      · exact fun h => Nat.le_min.mpr ⟨h.1, h.2.2 f hf hid⟩

theorem le_minElems_iff (hclocks : ∀ c ∈ clocks, c.Ordered) (hk : 0 < k) : k ≤ (minElems clocks g).count ↔
    k ≤ g.count ∧ ∀ c ∈ clocks, ¬ Passed c.vc g.threadid ∧ ∀ f ∈ c.vc, f.threadid = g.threadid → k ≤ f.count := by
  induction clocks generalizing g with
  | nil => exact ⟨fun h => ⟨h, List.forall_mem_nil _⟩, fun h => h.1⟩
  | cons c clocks ih =>
    rw [minElems, List.foldl_cons, ← minElems, ih fun c' hc' => hclocks c' (List.mem_cons_of_mem _ hc'),
      le_minElem_iff (hclocks c List.mem_cons_self).sorted hk, minElem_threadid, List.forall_mem_cons, and_assoc]

/-- **Comparison with the minimum.** -/
theorem vcLte_minElems_iff (hvc : vc.Inv) (hc : c.Inv) (hclocks : ∀ d ∈ clocks, d.Ordered) (capacity : Nat) :
    vcLte vc ⟨capacity, c.vc.map (minElems clocks)⟩ = true ↔ BelowMin (c :: clocks) vc := by
  have hsorted : Sorted VCElem.threadid (c.vc.map (minElems clocks)) := by
    have hs := hc.sorted
    unfold Sorted at hs ⊢
    rw [List.pairwise_map]
    simpa only [minElems_threadid] using hs
  rw [vcLte, lteFrom_iff hvc.sorted hsorted]
  refine forall₂_congr fun e he => ?_
  have hfind : find VCElem.threadid e.threadid (c.vc.map (minElems clocks)) =
      (find VCElem.threadid e.threadid c.vc).map (minElems clocks) := by
    unfold find
    rw [List.find?_map]
    simp only [Function.comp_def, minElems_threadid]
  have hpos := hvc.positive e he
  rw [hfind]
  simp only [List.head?_cons, Option.mem_def, Option.some.injEq, forall_eq', List.tail_cons]
  cases hg : find VCElem.threadid e.threadid c.vc with
  | none =>
    rw [count_of_none hg]
    refine iff_of_false ?_ fun h => absurd hpos (Nat.not_lt.mpr h.1)
    rintro ⟨_, h, -⟩
    cases h
  | some g =>
    obtain ⟨-, hid⟩ := find_some hg
    rw [count_of_find hg, Option.map_some]
    simp only [Option.some.injEq, exists_eq_left', le_minElems_iff hclocks hpos, hid]

/-- The latest clocks of threads. -/
def clocksOf (s : Threads) (info : List ThreadInfo) : List VectorClock :=
  info.filterMap fun ti => ti.last.bind fun a => (s.sgs a).map Segment.vc

theorem minimumLoop_false {info : List ThreadInfo} (hlast : ∀ ti ∈ info, ∀ a, ti.last = some a → (s.sgs a).isSome)
    (hclocks : ∀ c ∈ clocksOf s info, c.Ordered) (hvc : vc.Ordered) :
    minimumLoop s info false vc = .ok { vc with vc := vc.vc.map (minElems (clocksOf s info)) } := by
  induction info generalizing vc with
  | nil => exact congrArg (fun q => Except.ok { vc with vc := q }) (List.map_id vc.vc).symm
  | cons ti info ih =>
    have hlast' : ∀ ti ∈ info, ∀ a, ti.last = some a → (s.sgs a).isSome :=
      fun ti hti => hlast ti (List.mem_cons_of_mem _ hti)
    unfold minimumLoop
    cases hti : ti.last with
    | none =>
      have hnone : clocksOf s (ti :: info) = clocksOf s info := List.filterMap_cons_none (by rw [hti]; rfl)
      rw [hnone] at hclocks ⊢
      exact ih hlast' hclocks hvc
    | some a =>
      obtain ⟨sg, hsg⟩ := Option.isSome_iff_exists.mp (hlast ti List.mem_cons_self a hti)
      have hsome : clocksOf s (ti :: info) = sg.vc :: clocksOf s info :=
        List.filterMap_cons_some (by rw [hti, Option.bind_some, hsg]; rfl)
      rw [hsome] at hclocks ⊢
      obtain ⟨hrun, hord⟩ := vcMin_spec hvc (hclocks sg.vc List.mem_cons_self)
      simp only [Threads.sg_of hsg, ok_bind, Bool.false_eq_true, if_false]
      rw [hrun, ok_bind, ih hlast' (fun c hc => hclocks c (List.mem_cons_of_mem _ hc)) hord]
      dsimp only
      rw [List.map_map]
      rfl

theorem minimumLoop_true {info : List ThreadInfo} (hlast : ∀ ti ∈ info, ∀ a, ti.last = some a → (s.sgs a).isSome)
    (hclocks : ∀ c ∈ clocksOf s info, c.Ordered) (vc : VectorClock) :
    minimumLoop s info true vc = .ok (match clocksOf s info with
      | [] => vc
      | c :: clocks => ⟨c.size, c.vc.map (minElems clocks)⟩) := by
  induction info with
  | nil => rfl
  | cons ti info ih =>
    have hlast' : ∀ ti ∈ info, ∀ a, ti.last = some a → (s.sgs a).isSome :=
      fun ti hti => hlast ti (List.mem_cons_of_mem _ hti)
    unfold minimumLoop
    cases hti : ti.last with
    | none =>
      have hnone : clocksOf s (ti :: info) = clocksOf s info := List.filterMap_cons_none (by rw [hti]; rfl)
      rw [hnone] at hclocks ⊢
      exact ih hlast' hclocks
    | some a =>
      obtain ⟨sg, hsg⟩ := Option.isSome_iff_exists.mp (hlast ti List.mem_cons_self a hti)
      have hsome : clocksOf s (ti :: info) = sg.vc :: clocksOf s info :=
        List.filterMap_cons_some (by rw [hti, Option.bind_some, hsg]; rfl)
      rw [hsome] at hclocks ⊢
      have hord : VectorClock.Ordered ⟨sg.vc.size, sg.vc.vc⟩ :=
        ⟨Nat.le_refl _, (hclocks sg.vc List.mem_cons_self).sorted⟩
      simp only [Threads.sg_of hsg, ok_bind, if_true, vcAssign_spec]
      exact minimumLoop_false hlast' (fun c hc => hclocks c (List.mem_cons_of_mem _ hc)) hord

/-- The latest clocks are those of the ends of the lists. -/
theorem Threads.Holds.clocksOf (H : s.Holds ls) : clocksOf s s.info = latestClocks s.info.length ls := by
  have hprefix : ∀ n, n ≤ s.info.length → Drd.clocksOf s (s.info.take n) = latestClocks n ls := by
    intro n
    induction n with
    | zero => exact fun _ => rfl
    | succ n ih =>
      intro hn
      have hti : s.info[n]? = some s.info[n] := List.getElem?_eq_getElem hn
      have hlast : (s.info[n].last.bind fun a => (s.sgs a).map Segment.vc) = (ls n).getLast?.map Prod.snd := by
        rw [(H.linked n _ hti).last, List.getLast?_map]
        cases hp : (ls n).getLast? with
        | none => rfl
        | some p =>
          obtain ⟨c, hc, hvc, -⟩ := H.cells n p (List.mem_of_getLast? hp)
          rw [Option.map_some, Option.bind_some, hc, Option.map_some, Option.map_some, hvc]
      unfold Drd.clocksOf latestClocks at ih ⊢
      rw [List.take_succ_eq_append_getElem hn, List.filterMap_append, ih (Nat.le_of_succ_le hn), List.range_succ,
        List.filterMap_append]
      congr 1
      rw [List.filterMap_cons, List.filterMap_cons, hlast]
      rfl
  rw [← hprefix _ (Nat.le_refl _), List.take_length]

end Minimum

/-! ## Discarding -/

/-- Of a list, the longest beginning with the property is taken off, but for the last element. -/
structure LongestPrefix (P : VectorClock → Prop) (l d l' : List Entry) : Prop where
  split : l = d ++ l'
  last : l ≠ [] → l' ≠ []
  all : ∀ p ∈ d, P p.2
  longest : ∀ p q r, l' = p :: q :: r → ¬ P p.2

/-- What is left of a list. -/
def Discards (P : VectorClock → Prop) (l l' : List Entry) : Prop := ∃ d, LongestPrefix P l d l'

/-- Nothing has been forgotten about the clocks along the lists. -/
structure Clocks (ls : Nat → List Entry) : Prop where
  inv : ∀ i, ∀ p ∈ ls i, p.2.Inv
  ascending : ∀ i, (ls i).Pairwise fun p q => p.2.count ≤ q.2.count

/-- Before the latest clocks of all threads. -/
def OrderedBefore (clocks : List VectorClock) (vc : VectorClock) : Prop := ∀ c ∈ clocks, vc.count ≤ c.count

/-- The segment is kept although it is ordered: one of the later clocks has a component behind one of its
own. -/
def Leaked (clocks : List VectorClock) (vc : VectorClock) : Prop :=
  OrderedBefore clocks vc ∧ ∃ e ∈ vc.vc, ∃ c ∈ clocks.tail, Passed c.vc e.threadid

/-- The segment is discarded although it is not ordered: one of the later clocks ends before one of its
components. -/
def Lost (clocks : List VectorClock) (vc : VectorClock) : Prop :=
  BelowMin clocks vc ∧ ∃ e ∈ vc.vc, ∃ c ∈ clocks.tail, ∀ f ∈ c.vc, f.threadid < e.threadid

section Discarding

variable {P Q : VectorClock → Prop} {s : Threads} {ls : Nat → List Entry} {l l' d : List Entry} {p : Entry}
  {clocks : List VectorClock} {vc : VectorClock} {fuel i : Nat}

theorem discards_nil : Discards P [] [] := ⟨[], rfl, id, List.forall_mem_nil _, fun _ _ _ h => (nomatch h)⟩

theorem discards_singleton (p : Entry) : Discards P [p] [p] :=
  ⟨[], rfl, fun _ => List.cons_ne_nil _ _, List.forall_mem_nil _, fun _ _ _ h => (nomatch h)⟩

theorem Discards.cons (h : Discards P l l') (hl : l ≠ []) (hp : P p.2) : Discards P (p :: l) l' := by
  obtain ⟨d, hd⟩ := h
  refine ⟨p :: d, by rw [hd.split, List.cons_append], fun _ => hd.last hl, ?_, hd.longest⟩
  exact List.forall_mem_cons.mpr ⟨hp, hd.all⟩

theorem discards_of_not (hp : ¬ P p.2) : Discards P (p :: l) (p :: l) :=
  ⟨[], rfl, fun _ => List.cons_ne_nil _ _, List.forall_mem_nil _, fun _ _ _ h => (List.cons.inj h).1 ▸ hp⟩

/-- **The inner loop** takes the longest beginning off that is not after the minimum. -/
theorem discardLoop_spec (threadVcMin : VectorClock) (H : s.Holds ls) (hl : ls i = l) (hfuel : l.length ≤ fuel) :
    ∃ s' l', discardLoop threadVcMin i fuel s (l.map Prod.fst).head? = .ok s' ∧ s'.info.length = s.info.length ∧
      s'.Holds (Function.update ls i l') ∧ Discards (fun vc => vcLte vc threadVcMin = true) l l' := by
  induction l generalizing s ls fuel with
  | nil =>
    refine ⟨s, [], ?_, rfl, ?_, discards_nil⟩
    · cases fuel <;> rfl
    · rw [← hl, Function.update_eq_self]
      exact H
  | cons p l ih =>
    obtain ⟨fuel, rfl⟩ := Nat.exists_eq_succ_of_ne_zero (Nat.ne_zero_of_lt hfuel)
    obtain ⟨c, hc, hvc, -⟩ := H.cells i p (hl ▸ List.mem_cons_self)
    have hi : i < s.info.length := Nat.lt_of_not_le fun h => by
      rw [H.outside i h] at hl
      exact nomatch hl
    have hlinked := H.linked i _ (List.getElem?_eq_getElem hi)
    rw [hl, List.map_cons] at hlinked
    have hlinked' : Linked segmentLinks s.sgs _ _ ([] ++ p.1 :: l.map Prod.fst) := hlinked
    have hnext : c.next = (l.map Prod.fst).head? := (hlinked'.links hc).1
    have hkeep : s.Holds (Function.update ls i (p :: l)) := by
      rw [← hl, Function.update_eq_self]
      exact H
    rw [List.map_cons, List.head?_cons, discardLoop, Threads.sg_of hc, ok_bind, hnext]
    match l with
    | [] => exact ⟨s, [p], rfl, rfl, hkeep, discards_singleton p⟩
    | q :: l =>
      rw [List.map_cons, List.head?_cons, hvc]
      dsimp only
      by_cases hlte : vcLte p.2 threadVcMin = true
      · have hl' : ls i = [] ++ p :: q :: l := hl
        obtain ⟨s₁, hrun₁, hlen₁, H₁⟩ := threadDiscardSegment_spec H hl'
        obtain ⟨s', l', hrun, hlen, H', hd⟩ := ih H₁ (Function.update_self ..) (Nat.le_of_succ_le_succ hfuel)
        rw [Function.update_idem] at H'
        refine ⟨s', l', ?_, hlen.trans hlen₁, H', hd.cons (List.cons_ne_nil _ _) hlte⟩
        rw [if_pos hlte, hrun₁, ok_bind]
        exact hrun
      · exact ⟨s, p :: q :: l, if_neg hlte, rfl, hkeep, discards_of_not hlte⟩

/-- **The outer loop** does so for every thread. -/
theorem discardAll_spec (threadVcMin : VectorClock) {tids : List Nat} (H : s.Holds ls) (hnodup : tids.Nodup)
    (htids : ∀ i ∈ tids, i < s.info.length) (hfuel : ∀ i, (ls i).length ≤ fuel) :
    ∃ s' ls', discardAll threadVcMin fuel tids s = .ok s' ∧ s'.Holds ls' ∧ (∀ i, i ∉ tids → ls' i = ls i) ∧
      ∀ i ∈ tids, Discards (fun vc => vcLte vc threadVcMin = true) (ls i) (ls' i) := by
  induction tids generalizing s ls with
  | nil => exact ⟨s, ls, rfl, H, fun _ _ => rfl, List.forall_mem_nil _⟩
  | cons i tids ih =>
    obtain ⟨hi, hnodup'⟩ := List.nodup_cons.mp hnodup
    have hlt := htids i List.mem_cons_self
    obtain ⟨s₁, l', hrun₁, hlen₁, H₁, hd₁⟩ := discardLoop_spec threadVcMin H rfl (hfuel i)
    have hshorter : l'.length ≤ (ls i).length := by
      obtain ⟨d, hd⟩ := hd₁
      rw [hd.split, List.length_append]
      exact Nat.le_add_left _ _
    obtain ⟨s', ls', hrun, H', hother, hd⟩ := ih H₁ hnodup' (fun j hj => hlen₁ ▸ htids j (List.mem_cons_of_mem _ hj))
      fun j => by
        by_cases hj : j = i
        · rw [hj, Function.update_self]
          exact hshorter.trans (hfuel i)
        · rw [Function.update_of_ne hj]
          exact hfuel j
    refine ⟨s', ls', ?_, H', fun j hj => ?_, fun j hj => ?_⟩
    · rw [discardAll, Threads.thread, List.getElem?_eq_getElem hlt]
      dsimp only
      rw [pure_bind, (H.linked i _ (List.getElem?_eq_getElem hlt)).first, hrun₁, ok_bind, hrun]
    · rw [List.mem_cons, not_or] at hj
      rw [hother j hj.2, Function.update_of_ne hj.1]
    · rcases List.mem_cons.mp hj with rfl | hj
      · rw [hother j hi, Function.update_self]
        exact hd₁
      · have hne : j ≠ i := fun h => hi (h ▸ hj)
        have hdj := hd j hj
        rwa [Function.update_of_ne hne] at hdj

/-- A thread that has segments has a latest clock. -/
theorem Threads.Holds.latestClocks_ne_nil (H : s.Holds ls) (hp : p ∈ ls i) : latestClocks s.info.length ls ≠ [] := by
  have hi : i < s.info.length := Nat.lt_of_not_le fun h => by
    rw [H.outside i h] at hp
    exact nomatch hp
  have hlast : (ls i).getLast?.map Prod.snd = some ((ls i).getLast (List.ne_nil_of_mem hp)).2 := by
    rw [List.getLast?_eq_some_getLast (List.ne_nil_of_mem hp)]
    rfl
  exact List.ne_nil_of_mem (List.mem_filterMap.mpr ⟨i, List.mem_range.mpr hi, hlast⟩)

theorem inv_of_mem_latestClocks {n : Nat} (hclocks : Clocks ls) (hc : vc ∈ latestClocks n ls) : vc.Inv := by
  obtain ⟨i, -, hi⟩ := List.mem_filterMap.mp hc
  obtain ⟨p, hp, rfl⟩ := Option.map_eq_some_iff.mp hi
  exact hclocks.inv i p (List.mem_of_getLast? hp)

/-- **`thread_discard_ordered_segments`** takes off what is not after the minimum that it has computed. -/
theorem discardOrdered_spec (H : s.Holds ls) (hclocks : Clocks ls) (hfuel : ∀ i, (ls i).length ≤ fuel) :
    ∃ s' ls', threadDiscardOrderedSegments fuel s = .ok s' ∧ s'.Holds ls' ∧
      ∀ i, Discards (BelowMin (latestClocks s.info.length ls)) (ls i) (ls' i) := by
  have hlast : ∀ ti ∈ s.info, ∀ a, ti.last = some a → (s.sgs a).isSome := fun ti hti a ha => by
    obtain ⟨i, hi⟩ := List.mem_iff_getElem?.mp hti
    exact H.isSome (i := i) (List.mem_of_getLast? ((H.linked i ti hi).last.symm.trans ha))
  have hord : ∀ c ∈ clocksOf s s.info, c.Ordered := fun c hc =>
    (inv_of_mem_latestClocks hclocks (H.clocksOf ▸ hc)).toOrdered
  obtain ⟨m, hm⟩ : ∃ m, m = (match latestClocks s.info.length ls with
    | [] => ⟨0, []⟩
    | c :: clocks => ⟨c.size, c.vc.map (minElems clocks)⟩ : VectorClock) := ⟨_, rfl⟩
  have hmin : threadComputeMinimumVc s ⟨0, []⟩ = .ok m := by
    rw [threadComputeMinimumVc, minimumLoop_true hlast hord, H.clocksOf, hm]
  obtain ⟨s', ls', hrun, H', hother, hd⟩ := discardAll_spec m H List.nodup_range
    (fun i hi => List.mem_range.mp hi) hfuel
  refine ⟨s', ls', ?_, H', fun i => ?_⟩
  · rw [threadDiscardOrderedSegments, vcInit_spec, ok_bind]
    simp only [List.length_nil, hmin, ok_bind, hrun, vcCleanup_spec]
    rfl
  · rcases Nat.lt_or_ge i s.info.length with hi | hi
    · obtain ⟨d, hd⟩ := hd i (List.mem_range.mpr hi)
      have hiff : ∀ p ∈ ls i, vcLte p.2 m = true ↔ BelowMin (latestClocks s.info.length ls) p.2 := fun p hp => by
        rw [hm]
        have hne := H.latestClocks_ne_nil hp
        have hinv := @inv_of_mem_latestClocks ls
        cases hcs : latestClocks s.info.length ls with
        | nil => exact absurd hcs hne
        | cons c clocks =>
          exact vcLte_minElems_iff (hclocks.inv i p hp) (hinv hclocks (hcs ▸ List.mem_cons_self))
            (fun c' hc' => (hinv hclocks (hcs ▸ List.mem_cons_of_mem _ hc')).toOrdered) _
      refine ⟨d, hd.split, hd.last, fun p hp => ?_, fun p q r hl => ?_⟩
      · exact (hiff p (hd.split ▸ List.mem_append_left _ hp)).mp (hd.all p hp)
      · exact fun h => hd.longest p q r hl ((hiff p (by rw [hd.split, hl]; simp)).mpr h)
    · rw [hother i fun h => absurd (List.mem_range.mp h) (Nat.not_lt.mpr hi), H.outside i hi]
      exact discards_nil

end Discarding

/-! ## When the right ones are discarded -/

section Exact

variable {P Q : VectorClock → Prop} {s : Threads} {ls : Nat → List Entry} {l l' d : List Entry} {p : Entry}
  {clocks : List VectorClock} {vc vc' c : VectorClock} {e : VCElem} {fuel i : Nat}

theorem LongestPrefix.dropLast (h : LongestPrefix P l d l') : l.dropLast = d ++ l'.dropLast := by
  by_cases hl : l = []
  · obtain ⟨rfl, rfl⟩ := List.append_eq_nil_iff.mp (h.split.symm.trans hl)
    rw [hl]
    rfl
  · rw [h.split, List.dropLast_append_of_ne_nil (h.last hl)]

/-- The last element does not matter. -/
theorem LongestPrefix.congr (h : LongestPrefix P l d l') (hiff : ∀ p ∈ l.dropLast, P p.2 ↔ Q p.2) :
    LongestPrefix Q l d l' := by
  rw [h.dropLast] at hiff
  refine ⟨h.split, h.last, fun p hp => (hiff p (List.mem_append_left _ hp)).mp (h.all p hp), fun p q r hl hQ => ?_⟩
  refine h.longest p q r hl ((hiff p (List.mem_append_right _ ?_)).mpr hQ)
  rw [hl]
  exact List.mem_cons_self

/-- Along a list on which the property is not taken up again, what is kept does not have it. -/
theorem LongestPrefix.not_of_mem (h : LongestPrefix P l d l') (hdown : l.Pairwise fun p q => P q.2 → P p.2)
    (hp : p ∈ l'.dropLast) : ¬ P p.2 := by
  match l' with
  | [] => exact nomatch hp
  | [q] => exact nomatch hp
  | q :: r :: l' =>
    have hq := h.longest q r l' rfl
    rw [h.split] at hdown
    have hrest := (List.pairwise_cons.mp (List.pairwise_append.mp hdown).2.1).1
    rcases List.mem_cons.mp hp with rfl | hp
    · exact hq
    · exact fun hP => hq (hrest p (List.mem_of_mem_dropLast hp) hP)

/-- Two properties with the same beginning. -/
theorem LongestPrefix.iff_of_mem (hP : LongestPrefix P l d l') (hQ : LongestPrefix Q l d l')
    (hdownP : l.Pairwise fun p q => P q.2 → P p.2) (hdownQ : l.Pairwise fun p q => Q q.2 → Q p.2) :
    ∀ p ∈ l.dropLast, P p.2 ↔ Q p.2 := fun p hp => by
  rw [hP.dropLast] at hp
  rcases List.mem_append.mp hp with hp | hp
  · exact iff_of_true (hP.all p hp) (hQ.all p hp)
  · exact iff_of_false (hP.not_of_mem hdownP hp) (hQ.not_of_mem hdownQ hp)

theorem exists_elem_of_le (hvc : vc.Inv) (hvc' : vc'.Inv) (hle : vc.count ≤ vc'.count) (he : e ∈ vc.vc) :
    ∃ f ∈ vc'.vc, f.threadid = e.threadid ∧ e.count ≤ f.count := by
  have hlte := (vcLte_iff hvc hvc').mpr hle
  rw [vcLte, lteFrom_iff hvc.sorted hvc'.sorted] at hlte
  obtain ⟨f, hf, hcount⟩ := hlte e he
  exact ⟨f, (find_some hf).1, (find_some hf).2, hcount⟩

/-- A clock before one that is not after the minimum. -/
theorem BelowMin.of_le (h : BelowMin clocks vc') (hvc : vc.Inv) (hvc' : vc'.Inv) (hle : vc.count ≤ vc'.count) :
    BelowMin clocks vc := fun e he => by
  obtain ⟨f, hf, hid, hcount⟩ := exists_elem_of_le hvc hvc' hle he
  obtain ⟨hfirst, hother⟩ := h f hf
  rw [hid] at hfirst hother
  refine ⟨fun c hc => hcount.trans (hfirst c hc), fun c hc => ⟨(hother c hc).1, fun g hg hgid => ?_⟩⟩
  exact hcount.trans ((hother c hc).2 g hg hgid)

/-- **Ordered clocks** are not after the minimum unless a later clock goes on behind a component. -/
theorem belowMin_of_ordered (hvc : vc.Inv) (hclocks : ∀ c ∈ clocks, c.Inv) (h : OrderedBefore clocks vc) :
    BelowMin clocks vc ↔ ∀ e ∈ vc.vc, ∀ c ∈ clocks.tail, ¬ Passed c.vc e.threadid := by
  refine ⟨fun hmin e he c hc => ((hmin e he).2 c hc).1, fun hpassed e he => ⟨fun c hc => ?_, fun c hc => ?_⟩⟩
  · have hle := h c (List.mem_of_head? hc) e.threadid
    rwa [count_of_find (hvc.sorted.find_of_mem he)] at hle
  · refine ⟨hpassed e he c hc, fun f hf hid => ?_⟩
    have hmem := List.mem_of_mem_tail hc
    have hle := h c hmem e.threadid
    rw [count_of_find (hvc.sorted.find_of_mem he), ← hid,
      count_of_find ((hclocks c hmem).sorted.find_of_mem hf)] at hle
    exact hle

/-- **Clocks that are not ordered** and not after the minimum have a component that a later clock ends
before. -/
theorem lost_iff (hvc : vc.Inv) (hclocks : ∀ c ∈ clocks, c.Inv) :
    Lost clocks vc ↔ BelowMin clocks vc ∧ ¬ OrderedBefore clocks vc := by
  refine and_congr_right fun hmin => ⟨?_, fun h => ?_⟩
  · rintro ⟨e, he, c, hc, hends⟩ hord
    obtain ⟨f, hf, hid, -⟩ :=
      exists_elem_of_le hvc (hclocks c (List.mem_of_mem_tail hc)) (hord c (List.mem_of_mem_tail hc)) he
    exact absurd (hends f hf) (hid ▸ Nat.lt_irrefl _)
  · unfold OrderedBefore at h
    push Not at h
    obtain ⟨c, hc, hle⟩ := h
    obtain ⟨t, ht⟩ : ∃ t, ¬ vc.count t ≤ c.count t := not_forall.mp hle
    cases hfind : find VCElem.threadid t vc.vc with
    | none => exact absurd (Nat.zero_le _) (count_of_none hfind ▸ ht)
    | some e =>
      obtain ⟨he, rfl⟩ := find_some hfind
      rw [count_of_find hfind] at ht
      obtain ⟨hfirst, hother⟩ := hmin e he
      match clocks with
      | [] => exact nomatch hc
      | c₀ :: clocks =>
        rcases List.mem_cons.mp hc with rfl | hc'
        · exact absurd (hfirst c rfl) ht
        · obtain ⟨hpassed, hshared⟩ := hother c hc'
          have hle : ∀ f ∈ c.vc, f.threadid ≤ e.threadid := fun f hf => Nat.not_lt.mp fun hlt => hpassed ⟨f, hf, hlt⟩
          refine ⟨e, he, c, hc', fun f hf => Nat.lt_of_le_of_ne (hle f hf) fun hid => ht ?_⟩
          rw [← hid, count_of_find ((hclocks c hc).sorted.find_of_mem hf)]
          exact hshared f hf hid

/-- **A segment** is treated as it should be. -/
theorem belowMin_iff_ordered (hvc : vc.Inv) (hclocks : ∀ c ∈ clocks, c.Inv) :
    (BelowMin clocks vc ↔ OrderedBefore clocks vc) ↔ ¬ Leaked clocks vc ∧ ¬ Lost clocks vc := by
  have hleaked : Leaked clocks vc ↔ OrderedBefore clocks vc ∧ ¬ BelowMin clocks vc := by
    refine and_congr_right fun hord => ?_
    rw [belowMin_of_ordered hvc hclocks hord]
    push Not
    rfl
  rw [hleaked, lost_iff hvc hclocks, not_and_not_right, not_and_not_right]
  exact ⟨fun h => ⟨h.mpr, h.mp⟩, fun h => ⟨h.2, h.1⟩⟩

/-- **The discarded segments** are those, from the first one of a thread on and but for its last one, that
are ordered before the latest clocks of all threads, exactly when none of the segments leaks or gets lost. -/
theorem discardOrdered_iff (H : s.Holds ls) (hclocks : Clocks ls) (hfuel : ∀ i, (ls i).length ≤ fuel) :
    (∃ s' ls', threadDiscardOrderedSegments fuel s = .ok s' ∧ s'.Holds ls' ∧
      ∀ i, Discards (OrderedBefore (latestClocks s.info.length ls)) (ls i) (ls' i)) ↔
    ∀ i, ∀ p ∈ (ls i).dropLast,
      ¬ Leaked (latestClocks s.info.length ls) p.2 ∧ ¬ Lost (latestClocks s.info.length ls) p.2 := by
  obtain ⟨s', ls', hrun, H', hd⟩ := discardOrdered_spec H hclocks hfuel
  have hlatest : ∀ c ∈ latestClocks s.info.length ls, c.Inv := fun c hc => inv_of_mem_latestClocks hclocks hc
  have hiff : ∀ i, ∀ p ∈ (ls i).dropLast, (BelowMin (latestClocks s.info.length ls) p.2 ↔
      OrderedBefore (latestClocks s.info.length ls) p.2) ↔
      ¬ Leaked (latestClocks s.info.length ls) p.2 ∧ ¬ Lost (latestClocks s.info.length ls) p.2 := fun i p hp =>
    belowMin_iff_ordered (hclocks.inv i p (List.mem_of_mem_dropLast hp)) hlatest
  constructor
  · rintro ⟨s'', ls'', hrun', H'', hd'⟩ i
    rw [hrun] at hrun'
    obtain rfl := Except.ok.inj hrun'
    obtain rfl := H'.unique H''
    obtain ⟨d, hP⟩ := hd i
    obtain ⟨d', hQ⟩ := hd' i
    obtain rfl := List.append_cancel_right (hP.split.symm.trans hQ.split)
    have hdownP : (ls i).Pairwise fun p q => BelowMin (latestClocks s.info.length ls) q.2 →
        BelowMin (latestClocks s.info.length ls) p.2 :=
      (hclocks.ascending i).imp_of_mem fun hp hq hle h => h.of_le (hclocks.inv i _ hp) (hclocks.inv i _ hq) hle
    have hdownQ : (ls i).Pairwise fun p q => OrderedBefore (latestClocks s.info.length ls) q.2 →
        OrderedBefore (latestClocks s.info.length ls) p.2 :=
      (hclocks.ascending i).imp fun hle h c hc => hle.trans (h c hc)
    exact fun p hp => (hiff i p hp).mp (hP.iff_of_mem hQ hdownP hdownQ p hp)
  · intro h
    refine ⟨s', ls', hrun, H', fun i => ?_⟩
    obtain ⟨d, hP⟩ := hd i
    exact ⟨d, hP.congr fun p hp => (hiff i p hp).mpr (h i p hp)⟩

end Exact

/-! ## Two threads -/

/-- The clock of the first thread. -/
def soloClock (k : Nat) : VectorClock := ⟨1, [⟨1, k⟩]⟩

/-- The clock of a thread that the first one has created while it was at 1. -/
def createdClock : VectorClock := ⟨2, [⟨1, 1⟩, ⟨2, 1⟩]⟩

/-- The first thread has got a new segment at the time `k`. -/
def twoThreads (k : Nat) : Threads where
  sgs a := if a = 16 then some ⟨some 32, none, 1, soloClock k⟩
    else if a = 32 then some ⟨none, some 16, 1, soloClock (k + 1)⟩
    else if a = 48 then some ⟨none, none, 1, createdClock⟩ else none
  info := [⟨none, none⟩, ⟨some 16, some 32⟩, ⟨some 48, some 48⟩]

/-- The segments of the two threads. -/
def twoLists (k : Nat) : Nat → List Entry
  | 1 => [(16, soloClock k), (32, soloClock (k + 1))]
  | 2 => [(48, createdClock)]
  | _ => []

theorem holds_twoThreads (k : Nat) : (twoThreads k).Holds (twoLists k) := by
  refine ⟨fun i ti hti => ?_, fun i hi => ?_, rfl, fun i => ?_, fun i j hij p hp q hq => ?_, fun i p hp => ?_⟩
  · match i with
    | 0 =>
      obtain rfl := Option.some.inj hti
      exact linked_of_chain rfl rfl trivial
    | 1 =>
      obtain rfl := Option.some.inj hti
      exact linked_of_chain rfl rfl ⟨_, rfl, rfl, rfl, _, rfl, rfl, rfl, trivial⟩
    | 2 =>
      obtain rfl := Option.some.inj hti
      exact linked_of_chain rfl rfl ⟨_, rfl, rfl, rfl, trivial⟩
    | i + 3 => exact nomatch hti
  · match i with
    | 0 => rfl
    | 1 => exact absurd hi (by simp [twoThreads])
    | 2 => exact absurd hi (by simp [twoThreads])
    | i + 3 => rfl
  · match i with
    | 0 => exact List.nodup_nil
    | 1 => exact (by decide : [16, 32].Nodup)
    | 2 => exact List.nodup_singleton _
    | i + 3 => exact List.nodup_nil
  · match i, j with
    | 0, _ => exact nomatch hp
    | i + 3, _ => exact nomatch hp
    | _, 0 => exact nomatch hq
    | _, j + 3 => exact nomatch hq
    | 1, 1 => exact absurd rfl hij
    | 2, 2 => exact absurd rfl hij
    | 1, 2 =>
      simp only [twoLists, List.mem_cons, List.not_mem_nil, or_false] at hp hq
      rcases hp with rfl | rfl <;> simp [hq]
    | 2, 1 =>
      simp only [twoLists, List.mem_cons, List.not_mem_nil, or_false] at hp hq
      rcases hq with rfl | rfl <;> simp [hp]
  · match i with
    | 0 => exact nomatch hp
    | 1 =>
      simp only [twoLists, List.mem_cons, List.not_mem_nil, or_false] at hp
      rcases hp with rfl | rfl
      · exact ⟨_, rfl, rfl, Int.le_refl _⟩
      · exact ⟨_, rfl, rfl, Int.le_refl _⟩
    | 2 =>
      obtain rfl := List.mem_singleton.mp hp
      exact ⟨_, rfl, rfl, Int.le_refl _⟩
    | i + 3 => exact nomatch hp

theorem inv_soloClock {k : Nat} (hk : 0 < k) : (soloClock k).Inv :=
  ⟨⟨Nat.le_refl _, List.pairwise_singleton _ _⟩, fun _ he => List.mem_singleton.mp he ▸ hk⟩

theorem inv_createdClock : createdClock.Inv := ⟨⟨by decide, by decide⟩, by decide⟩

theorem clocks_twoLists {k : Nat} (hk : 0 < k) : Clocks (twoLists k) := by
  refine ⟨fun i p hp => ?_, fun i => ?_⟩
  · match i with
    | 0 => exact nomatch hp
    | 1 =>
      simp only [twoLists, List.mem_cons, List.not_mem_nil, or_false] at hp
      rcases hp with rfl | rfl
      · exact inv_soloClock hk
      · exact inv_soloClock k.succ_pos
    | 2 =>
      obtain rfl := List.mem_singleton.mp hp
      exact inv_createdClock
    | i + 3 => exact nomatch hp
  · match i with
    | 0 => exact List.Pairwise.nil
    | 1 =>
      refine List.pairwise_cons.mpr ⟨fun q hq => ?_, List.pairwise_singleton _ _⟩
      obtain rfl := List.mem_singleton.mp hq
      refine (vcLte_iff (inv_soloClock hk) (inv_soloClock k.succ_pos)).mp ?_
      simp [vcLte, soloClock, lteFrom]
    | 2 => exact List.pairwise_singleton _ _
    | i + 3 => exact List.Pairwise.nil

theorem length_twoLists (k i : Nat) : (twoLists k i).length ≤ 2 := by
  match i with
  | 0 => exact Nat.zero_le _
  | 1 => exact Nat.le_refl _
  | 2 => exact Nat.le_succ _
  | i + 3 => exact Nat.zero_le _

/-- The first segment is later than the creation of the second thread, and is kept. -/
theorem discardOrdered_iff_twoThreads : ∃ s' ls', threadDiscardOrderedSegments 2 (twoThreads 2) = .ok s' ∧
    s'.Holds ls' ∧ ∀ i, Discards (OrderedBefore (latestClocks 3 (twoLists 2))) (twoLists 2 i) (ls' i) := by
  refine (discardOrdered_iff (holds_twoThreads 2) (clocks_twoLists Nat.two_pos) (length_twoLists 2)).mpr
    fun i p hp => ?_
  match i with
  | 0 => exact nomatch hp
  | 2 => exact nomatch hp
  | i + 3 => exact nomatch hp
  | 1 =>
    obtain rfl := List.mem_singleton.mp hp
    refine ⟨fun hleaked => ?_, fun hlost => ?_⟩
    · exact absurd (hleaked.1 createdClock (List.mem_cons_of_mem _ List.mem_cons_self) 1) (by decide)
    · obtain ⟨-, hother⟩ := hlost.1 ⟨1, 2⟩ List.mem_cons_self
      exact (hother createdClock List.mem_cons_self).1 ⟨⟨2, 1⟩, by decide, by decide⟩

/-- The first segment has been the last one when the second thread was created, and is kept all the
same. -/
theorem discardOrdered_created : (twoThreads 1).Holds (twoLists 1) ∧ Clocks (twoLists 1) ∧
    ¬ ∃ s' ls', threadDiscardOrderedSegments 2 (twoThreads 1) = .ok s' ∧ s'.Holds ls' ∧
      ∀ i, Discards (OrderedBefore (latestClocks 3 (twoLists 1))) (twoLists 1 i) (ls' i) := by
  refine ⟨holds_twoThreads 1, clocks_twoLists Nat.one_pos, ?_⟩
  rintro ⟨s', ls', hrun, H', hd⟩
  have hkept : threadDiscardOrderedSegments 2 (twoThreads 1) = .ok (twoThreads 1) := rfl
  rw [hkept] at hrun
  obtain rfl := Except.ok.inj hrun
  obtain rfl := H'.unique (holds_twoThreads 1)
  obtain ⟨d, hd⟩ := hd 1
  refine hd.longest (16, soloClock 1) (32, soloClock 2) [] rfl fun c hc => ?_
  rcases List.mem_cons.mp hc with rfl | hc
  · exact (vcLte_iff (inv_soloClock Nat.one_pos) (inv_soloClock Nat.two_pos)).mp (by decide)
  · obtain rfl := List.mem_singleton.mp hc
    exact (vcLte_iff (inv_soloClock Nat.one_pos) inv_createdClock).mp (by decide)

end Valgrind.Drd
