import Valgrind.Massif.SnapshotSpecs

/-!
# Massif: the snapshot table over a run

`maybe_take_snapshot`, called again and again. A request that takes a snapshot is `taken`;
the invariant `TableInv` says which of the snapshots taken are in the table: the first one and
the last peak always are.
-/

namespace Valgrind.Massif

/-! ## Requests -/

section Requests

variable {cfg : Config} {r : Request} {s : Snapshot} {d : Bool}

/-- What the callers of `maybe_take_snapshot` promise: times are not negative, the sizes stay
far away from overflows, a snapshot can be taken, and nothing is counted that is not profiled. -/
structure Request.Valid (cfg : Config) (r : Request) : Prop where
  kind : r.kind ≠ .unused
  time_nonneg : 0 ≤ r.time
  time_le : r.time ≤ maxTime
  ready : r.statics.Ready
  heap_lt : r.statics.heapSzB < 2 ^ 62
  extra_lt : r.statics.heapExtraSzB < 2 ^ 62
  stacks_lt : r.statics.stacksSzB < 2 ^ 62
  excess_le : r.excessSzB ≤ 2 ^ 62
  noHeap : cfg.cloHeap = false → r.statics.heapSzB = 0 ∧ r.statics.heapExtraSzB = 0
  noStacks : cfg.cloStacks = false → r.statics.stacksSzB = 0

/-- The snapshot was taken for this request. -/
def Records (r : Request) (s : Snapshot) : Prop :=
  s.time = r.time ∧ s.heapSzB = r.statics.heapSzB ∧ s.heapExtraSzB = r.statics.heapExtraSzB ∧
    s.stacksSzB = r.statics.stacksSzB

theorem Request.Valid.total (h : r.Valid cfg) :
    r.statics.totalSzB = r.statics.heapSzB + r.statics.heapExtraSzB + r.statics.stacksSzB := by
  have h₁ := h.heap_lt
  have h₂ := h.extra_lt
  have h₃ := h.stacks_lt
  unfold Statics.totalSzB sizeT
  omega

theorem Request.Valid.total_lt (h : r.Valid cfg) : r.statics.totalSzB < 3 * 2 ^ 62 := by
  have h₁ := h.heap_lt
  have h₂ := h.extra_lt
  have h₃ := h.stacks_lt
  rw [h.total]
  omega

/-- The snapshot records the request. -/
theorem takeSnapshot_spec (h : r.Valid cfg) :
    ∃ s, takeSnapshot cfg r.statics clearSnapshot r.kind r.time d = .ok s ∧ s.kind = r.kind ∧ Records r s := by
  obtain ⟨sxpt, htake⟩ := takeSnapshot_clear cfg h.ready r.kind r.time d
  refine ⟨_, htake, rfl, rfl, ?_, ?_, ?_⟩
  · exact ite_eq_left_iff.mpr fun hoff => (h.noHeap (by simpa using hoff)).1.symm
  · exact ite_eq_left_iff.mpr fun hoff => (h.noHeap (by simpa using hoff)).2.symm
  · exact ite_eq_left_iff.mpr fun hoff => (h.noStacks (by simpa using hoff)).symm

end Requests

/-! ## The invariant -/

section Inv

variable {cfg : Config} {N : Nat} {tab tab' : SnapshotTable} {hist : List Request} {now : Int} {r : Request}

/-- The entries before `next_snapshot_i`. -/
def SnapshotTable.used (tab : SnapshotTable) : List Snapshot := tab.snapshots.take tab.nextSnapshotI

/-- The last peak among the snapshots taken. -/
def lastPeak (hist : List Request) : Option Request := (hist.filter (·.kind = .peak)).getLast?

/-- The table after the snapshots `hist` have been taken, the last one not after `now`. -/
structure TableInv (N : Nat) (tab : SnapshotTable) (hist : List Request) (now : Int) : Prop where
  size : tab.snapshots.length = N
  next_le : tab.nextSnapshotI ≤ N
  /-- The used entries are those before `next_snapshot_i`. -/
  inUse : ∀ s ∈ tab.used, s.kind ≠ .unused
  clear : ∀ s ∈ tab.snapshots.drop tab.nextSnapshotI, s = clearSnapshot
  /-- The times are in order. -/
  order : InOrder tab.used
  times : ∀ s ∈ tab.used, 0 ≤ s.time ∧ s.time ≤ now
  /-- The first snapshot taken is the entry 0. -/
  first : Option.Rel Records hist.head? tab.used.head?
  /-- The only entry of kind `Peak` is the last peak taken. -/
  peak : ∃ s, tab.used.filter isPeak = Option.toList s ∧ Option.Rel Records (lastPeak hist) s
  /-- Every peak taken was larger than those before. -/
  larger : (hist.filter (·.kind = .peak)).Pairwise fun r r' => r.statics.totalSzB < r'.statics.totalSzB
  peakTotal : tab.peakSnapshotTotalSzB = ((lastPeak hist).map (·.statics.totalSzB)).getD 0

theorem tableInv_initTable : TableInv N (initTable N) [] 0 where
  size := List.length_replicate
  next_le := Nat.zero_le N
  inUse := List.forall_mem_nil _
  clear := fun s hs => List.eq_of_mem_replicate (List.mem_of_mem_drop hs)
  order := List.Pairwise.nil
  times := List.forall_mem_nil _
  first := .none
  peak := ⟨none, rfl, .none⟩
  larger := List.Pairwise.nil
  peakTotal := rfl

theorem TableInv.length_used (h : TableInv N tab hist now) : tab.used.length = tab.nextSnapshotI := by
  rw [SnapshotTable.used, List.length_take, h.size, Nat.min_eq_left h.next_le]

theorem TableInv.snapshots_eq (h : TableInv N tab hist now) :
    tab.snapshots = tab.used ++ List.replicate (N - tab.nextSnapshotI) clearSnapshot := by
  have hclear : tab.snapshots.drop tab.nextSnapshotI = List.replicate (N - tab.nextSnapshotI) clearSnapshot :=
    List.eq_replicate_iff.mpr ⟨by rw [List.length_drop, h.size], h.clear⟩
  rw [← hclear, SnapshotTable.used, List.take_append_drop]

theorem TableInv.later (h : TableInv N tab hist now) {now' : Int} (hle : now ≤ now') : TableInv N tab hist now' :=
  { h with times := fun s hs => ⟨(h.times s hs).1, (h.times s hs).2.trans hle⟩ }

/-- The other variables do not matter. -/
theorem TableInv.congr (h : TableInv N tab hist now) (hs : tab'.snapshots = tab.snapshots)
    (hn : tab'.nextSnapshotI = tab.nextSnapshotI) (hp : tab'.peakSnapshotTotalSzB = tab.peakSnapshotTotalSzB) :
    TableInv N tab' hist now := by
  have hu : tab'.used = tab.used := by rw [SnapshotTable.used, hs, hn, SnapshotTable.used]
  constructor
  · exact hs ▸ h.size
  · exact hn ▸ h.next_le
  · exact hu ▸ h.inUse
  · rw [hs, hn]
    exact h.clear
  · exact hu ▸ h.order
  · exact hu ▸ h.times
  · exact hu ▸ h.first
  · exact hu ▸ h.peak
  · exact h.larger
  · exact hp ▸ h.peakTotal

/-! ### One snapshot more -/

@[simp] theorem time_demote {s : Snapshot} : (demote s).time = s.time := by
  unfold demote
  split <;> rfl

@[simp] theorem isPeak_demote {s : Snapshot} : isPeak (demote s) = false := by
  unfold demote isPeak
  split
  · rfl
  · next h => exact decide_eq_false h

theorem kind_demote {s : Snapshot} (h : s.kind ≠ .unused) : (demote s).kind ≠ .unused := by
  unfold demote
  split
  · exact fun h => nomatch h
  · exact h

theorem Records.demote {s : Snapshot} (h : Records r s) : Records r (demote s) := by
  unfold Massif.demote
  split <;> exact h

/-- What the entries before the new one have to be. -/
structure Kept (tab : SnapshotTable) (hist : List Request) (now : Int) (E : List Snapshot) : Prop where
  length : E.length = tab.nextSnapshotI
  inUse : ∀ s ∈ E, s.kind ≠ .unused
  order : InOrder E
  times : ∀ s ∈ E, 0 ≤ s.time ∧ s.time ≤ now
  first : Option.Rel Records hist.head? E.head?

theorem TableInv.kept (h : TableInv N tab hist now) : Kept tab hist now tab.used :=
  ⟨h.length_used, h.inUse, h.order, h.times, h.first⟩

theorem TableInv.kept_demote (h : TableInv N tab hist now) : Kept tab hist now (tab.used.map demote) where
  length := by rw [List.length_map, h.length_used]
  inUse := List.forall_mem_map.mpr fun s hs => kind_demote (h.inUse s hs)
  order := by
    refine List.pairwise_map.mpr (h.order.imp fun hle => ?_)
    rwa [time_demote, time_demote]
  times := List.forall_mem_map.mpr fun s hs => by
    rw [time_demote]
    exact h.times s hs
  first := by
    have hfirst := h.first
    rw [List.head?_map]
    cases hhist : hist.head? with
    | none =>
      rw [hhist] at hfirst
      cases hused : tab.used.head? with
      | none => exact .none
      | some s => rw [hused] at hfirst; exact nomatch hfirst
    | some r =>
      rw [hhist] at hfirst
      cases hused : tab.used.head? with
      | none => rw [hused] at hfirst; exact nomatch hfirst
      | some s =>
        rw [hused] at hfirst
        obtain ⟨hrec⟩ := hfirst
        exact .some hrec.demote

/-- The new entry, after those that were there. -/
theorem Kept.add {E : List Snapshot} {s : Snapshot} (h : Kept tab hist now E) (hlt : tab.nextSnapshotI < N)
    (hr : r.Valid cfg) (hnow : now ≤ r.time) (hs : s.kind = r.kind) (hrec : Records r s)
    (hsnap : tab'.snapshots = E ++ s :: List.replicate (N - (tab.nextSnapshotI + 1)) clearSnapshot)
    (hnext : tab'.nextSnapshotI = tab.nextSnapshotI + 1)
    (hpeak : ∃ o, (E ++ [s]).filter isPeak = Option.toList o ∧ Option.Rel Records (lastPeak (hist ++ [r])) o)
    (hlarger : ((hist ++ [r]).filter (·.kind = .peak)).Pairwise fun r r' => r.statics.totalSzB < r'.statics.totalSzB)
    (htotal : tab'.peakSnapshotTotalSzB = ((lastPeak (hist ++ [r])).map (·.statics.totalSzB)).getD 0) :
    TableInv N tab' (hist ++ [r]) r.time := by
  have hlen : (E ++ [s]).length = tab'.nextSnapshotI := by
    rw [List.length_append, h.length, hnext, List.length_singleton]
  have hsnap' : tab'.snapshots = (E ++ [s]) ++ List.replicate (N - (tab.nextSnapshotI + 1)) clearSnapshot := by
    rw [hsnap, List.append_assoc]
    rfl
  have hused : tab'.used = E ++ [s] := by
    rw [SnapshotTable.used, hsnap', ← hlen, List.take_left]
  have hall : ∀ {P : Snapshot → Prop}, (∀ t ∈ E, P t) → P s → ∀ t ∈ tab'.used, P t := by
    intro P hE hs t ht
    rw [hused] at ht
    rcases List.mem_append.mp ht with ht | ht
    · exact hE t ht
    · exact List.mem_singleton.mp ht ▸ hs
  constructor
  · rw [hsnap', List.length_append, hlen, hnext, List.length_replicate]
    omega
  · omega
  · exact hall h.inUse (hs ▸ hr.kind)
  · intro t ht
    rw [hsnap', ← hlen, List.drop_left] at ht
    exact List.eq_of_mem_replicate ht
  · rw [hused]
    refine List.pairwise_append.mpr ⟨h.order, List.pairwise_singleton _ _, fun t ht u hu => ?_⟩
    rw [List.mem_singleton.mp hu, hrec.1]
    exact (h.times t ht).2.trans hnow
  · exact hall (fun t ht => ⟨(h.times t ht).1, (h.times t ht).2.trans hnow⟩) ⟨hrec.1 ▸ hr.time_nonneg, hrec.1.le⟩
  · rw [hused]
    have hfirst := h.first
    cases hhist : hist with
    | nil =>
      rw [hhist] at hfirst
      cases hE : E with
      | nil => exact .some hrec
      | cons e E => rw [hE] at hfirst; exact nomatch hfirst
    | cons r' hist' =>
      rw [hhist] at hfirst
      cases hE : E with
      | nil => rw [hE] at hfirst; exact nomatch hfirst
      | cons e E => rw [hE] at hfirst; exact hfirst
  · exact hused ▸ hpeak
  · exact hlarger
  · exact htotal

theorem lastPeak_normal (h : r.kind ≠ .peak) : lastPeak (hist ++ [r]) = lastPeak hist := by
  rw [lastPeak, lastPeak, List.filter_append, List.filter_cons_of_neg (by simpa using h), List.filter_nil,
    List.append_nil]

theorem lastPeak_peak (h : r.kind = .peak) : lastPeak (hist ++ [r]) = some r := by
  rw [lastPeak, List.filter_append, List.filter_cons_of_pos (by simpa using h), List.filter_nil,
    List.getLast?_append, List.getLast?_singleton, Option.some_or]

/-- The recorded peak is the largest of all that were taken. -/
theorem TableInv.le_peakTotal (h : TableInv N tab hist now) {r' : Request} (hr' : r' ∈ hist.filter (·.kind = .peak)) :
    r'.statics.totalSzB ≤ tab.peakSnapshotTotalSzB := by
  obtain ⟨z, hz⟩ := List.getLast?_isSome.mpr (List.ne_nil_of_mem hr') |> Option.isSome_iff_exists.mp
  have htotal : tab.peakSnapshotTotalSzB = z.statics.totalSzB := by
    rw [h.peakTotal, lastPeak, hz]
    rfl
  obtain ⟨init, hinit⟩ := List.getLast?_eq_some_iff.mp hz
  have hlarger := h.larger
  rw [hinit] at hr' hlarger
  rw [htotal]
  rcases List.mem_append.mp hr' with hmem | hmem
  · exact ((List.pairwise_append.mp hlarger).2.2 r' hmem z List.mem_cons_self).le
  · rw [List.mem_singleton.mp hmem]

theorem TableInv.peakTotal_lt (h : TableInv N tab hist now) (hhist : ∀ r ∈ hist, r.Valid cfg) :
    tab.peakSnapshotTotalSzB < 3 * 2 ^ 62 := by
  rw [h.peakTotal]
  cases hz : lastPeak hist with
  | none => decide
  | some z => exact (hhist z (List.mem_filter.mp (List.mem_of_getLast? hz)).1).total_lt

/-- A peak snapshot is wanted if it is larger than the last one. -/
theorem peak_lt_of_wanted (h : TableInv N tab hist now) (hhist : ∀ r ∈ hist, r.Valid cfg) (hr : r.Valid cfg)
    (hpeak : r.kind = .peak) {d : Bool} (hwanted : isWanted cfg tab r = .ok (some d)) :
    tab.peakSnapshotTotalSzB < r.statics.totalSzB := by
  simp only [isWanted, hpeak] at hwanted
  split at hwanted
  · exact nomatch hwanted
  · next hle =>
    have hlt := h.peakTotal_lt hhist
    have hexcess := hr.excess_le
    have hsum : sizeT (tab.peakSnapshotTotalSzB + r.excessSzB) = tab.peakSnapshotTotalSzB + r.excessSzB := by
      unfold sizeT
      omega
    omega

/-- **A snapshot is taken** of a valid request. -/
theorem enterSnapshot_spec (h : TableInv N tab hist now) (hhist : ∀ r ∈ hist, r.Valid cfg)
    (hlt : tab.nextSnapshotI < N) (hr : r.Valid cfg) (hnow : now ≤ r.time) {d : Bool}
    (hwanted : isWanted cfg tab r = .ok (some d)) :
    ∃ tab', enterSnapshot cfg tab r d = .ok tab' ∧ TableInv N tab' (hist ++ [r]) r.time ∧
      tab'.nextSnapshotI = tab.nextSnapshotI + 1 := by
  obtain ⟨s, htake, hs, hrec⟩ := takeSnapshot_spec hr (d := d)
  have hsplit : tab.snapshots =
      tab.used ++ clearSnapshot :: List.replicate (N - (tab.nextSnapshotI + 1)) clearSnapshot := by
    rw [h.snapshots_eq, ← List.replicate_succ]
    congr 2
    omega
  have hslot : readSnapshot tab.snapshots tab.nextSnapshotI = .ok clearSnapshot := by
    rw [readSnapshot, hsplit, List.getElem?_append_right h.length_used.le, h.length_used, Nat.sub_self]
    rfl
  have hset : tab.snapshots.set tab.nextSnapshotI s =
      tab.used ++ s :: List.replicate (N - (tab.nextSnapshotI + 1)) clearSnapshot := by
    rw [hsplit, List.set_append_right _ _ h.length_used.le, h.length_used, Nat.sub_self]
    rfl
  rw [enterSnapshot, hslot, ok_bind, htake, ok_bind, updatePeak, hset, hs]
  by_cases hpeak : r.kind = .peak
  · have hmore := peak_lt_of_wanted h hhist hr hpeak hwanted
    have htotal : sizeT (s.heapSzB + s.heapExtraSzB + s.stacksSzB) = r.statics.totalSzB := by
      rw [hrec.2.1, hrec.2.2.1, hrec.2.2.2]
      rfl
    have htakeOld : (tab.used ++ s :: List.replicate (N - (tab.nextSnapshotI + 1)) clearSnapshot).take tab.nextSnapshotI =
        tab.used := by
      rw [← h.length_used, List.take_left]
    have hdropOld : (tab.used ++ s :: List.replicate (N - (tab.nextSnapshotI + 1)) clearSnapshot).drop tab.nextSnapshotI =
        s :: List.replicate (N - (tab.nextSnapshotI + 1)) clearSnapshot := by
      rw [← h.length_used, List.drop_left]
    have hone : tab.used.countP (·.kind = .peak) ≤ 1 := by
      obtain ⟨o, ho, -⟩ := h.peak
      have hcount : tab.used.countP isPeak = (tab.used.filter isPeak).length := List.countP_eq_length_filter
      rw [ho] at hcount
      have hle : o.toList.length ≤ 1 := by cases o <;> simp
      exact hcount.le.trans hle
    rw [if_pos hpeak]
    simp only [htotal, htakeOld, hdropOld]
    rw [tlAssert_of hmore, ok_bind, tlAssert_of hone]
    refine ⟨_, rfl, ?_, rfl⟩
    refine h.kept_demote.add hlt hr hnow hs hrec rfl rfl ⟨some s, ?_, ?_⟩ ?_ ?_
    · rw [List.filter_append, List.filter_eq_nil_iff.mpr, List.nil_append, List.filter_cons_of_pos]
      · rfl
      · simpa [isPeak] using hs.trans hpeak
      · exact List.forall_mem_map.mpr fun t _ => by simp
    · rw [lastPeak_peak hpeak]
      exact .some hrec
    · rw [List.filter_append, List.filter_cons_of_pos (by simpa using hpeak)]
      refine List.pairwise_append.mpr ⟨h.larger, List.pairwise_singleton _ _, fun r' hr' z hz => ?_⟩
      rw [List.mem_singleton.mp hz]
      exact (h.le_peakTotal hr').trans_lt hmore
    · rw [lastPeak_peak hpeak]
      rfl
  · rw [if_neg hpeak, ok_bind]
    refine ⟨_, rfl, ?_, rfl⟩
    refine h.kept.add hlt hr hnow hs hrec rfl rfl ?_ ?_ ?_
    · obtain ⟨o, ho, hrel⟩ := h.peak
      refine ⟨o, ?_, by rwa [lastPeak_normal hpeak]⟩
      rw [List.filter_append, ho, List.filter_cons_of_neg, List.filter_nil, List.append_nil]
      simpa [isPeak, hs] using hpeak
    · rw [List.filter_append, List.filter_cons_of_neg (by simpa using hpeak), List.filter_nil, List.append_nil]
      exact h.larger
    · rw [lastPeak_normal hpeak]
      exact h.peakTotal

/-! ### Culling a full table -/

/-- **A full table is culled**, and the invariant survives. -/
theorem cullIfFull_spec (hN : 10 ≤ N) (h : TableInv N tab hist now) (hmax : now ≤ maxTime) :
    ∃ tab', cullIfFull tab = .ok tab' ∧ TableInv N tab' hist now ∧ tab'.nextSnapshotI < N ∧
      (tab.nextSnapshotI = N → Culled (N / 2) tab.used tab'.used) := by
  rw [cullIfFull, h.size]
  split
  · next hfull =>
    have hall : tab.used = tab.snapshots := by rw [SnapshotTable.used, ← hfull, ← h.size, List.take_length]
    have hused : ∀ s ∈ tab.snapshots, inUse s = true := by
      intro s hs
      rw [← hall] at hs
      simpa [inUse] using h.inUse s hs
    have hentries : entries tab.snapshots = tab.used := by
      rw [hall]
      exact List.filter_eq_self.mpr hused
    have hne : tab.snapshots ≠ [] := List.ne_nil_of_length_pos (by rw [h.size]; omega)
    have hcullable : Cullable tab.snapshots := by
      refine ⟨fun s hs => ?_, hentries ▸ h.order, ?_, ?_, ?_⟩
      · rw [← hall] at hs
        rw [Tidy, if_neg (h.inUse s hs)]
        exact ⟨(h.times s hs).1, (h.times s hs).2.trans hmax⟩
      · obtain ⟨s, l, hl⟩ := List.exists_cons_of_ne_nil hne
        exact ⟨s, by rw [hl]; rfl, hused s (hl ▸ List.mem_cons_self)⟩
      · exact ⟨_, List.getLast?_eq_some_getLast hne, hused _ (List.getLast_mem hne)⟩
      · obtain ⟨o, ho, -⟩ := h.peak
        rw [hentries, ho]
        cases o <;> simp
    obtain ⟨E, interval, hcull, hculled, -⟩ := cullSnapshots_spec hcullable hused (by rw [h.size]; exact hN)
    rw [h.size] at hcull hculled
    rw [← hall] at hculled
    have hcount := hculled.count
    rw [h.length_used, ← hfull] at hcount
    rw [hcull]
    have hnew : ∀ t : SnapshotTable, t.snapshots = E ++ List.replicate (N / 2) clearSnapshot →
        t.nextSnapshotI = E.length → t.used = E := by
      intro t hs hn
      rw [SnapshotTable.used, hs, hn, List.take_left]
    refine ⟨_, rfl, ?_, ?_, fun _ => ?_⟩
    · constructor
      · simp only [List.length_append, List.length_replicate]
        omega
      · simp only
        omega
      · rw [hnew _ rfl rfl]
        exact fun s hs => h.inUse s (hculled.sublist.subset hs)
      · rw [List.drop_left]
        exact fun s hs => List.eq_of_mem_replicate hs
      · rw [hnew _ rfl rfl]
        exact h.order.sublist hculled.sublist
      · rw [hnew _ rfl rfl]
        exact fun s hs => h.times s (hculled.sublist.subset hs)
      · rw [hnew _ rfl rfl, hculled.first]
        exact h.first
      · rw [hnew _ rfl rfl, hculled.peak]
        exact h.peak
      · exact h.larger
      · exact h.peakTotal
    · simp only
      omega
    · exact Eq.mpr (congrArg (Culled (N / 2) tab.used) (hnew _ rfl rfl)) hculled
  · next hlt => exact ⟨tab, rfl, h, by have := h.next_le; omega, fun heq => absurd heq.symm hlt⟩

end Inv

/-! ## Runs -/

section Runs

variable {cfg : Config} {N : Nat} {tab tab' : SnapshotTable} {hist : List Request} {now : Int} {r : Request}
  {rs : List Request}

/-- A snapshot is taken for the request. -/
def takes (cfg : Config) (tab : SnapshotTable) (r : Request) : Bool :=
  match isWanted cfg tab r with
  | .ok (some _) => true
  | _ => false

/-- The requests of a run that took a snapshot. -/
def taken (cfg : Config) : SnapshotTable → List Request → List Request
  | _, [] => []
  | tab, r :: rs =>
    match maybeTakeSnapshot cfg tab r with
    | .error _ => []
    | .ok tab' => if takes cfg tab r then r :: taken cfg tab' rs else taken cfg tab' rs

/-- **One call** returns and keeps the invariant. -/
theorem maybeTakeSnapshot_spec (hN : 10 ≤ N) (h : TableInv N tab hist now) (hhist : ∀ r ∈ hist, r.Valid cfg)
    (hlt : tab.nextSnapshotI < N) (hr : r.Valid cfg) (hnow : now ≤ r.time) :
    ∃ tab', maybeTakeSnapshot cfg tab r = .ok tab' ∧ tab'.nextSnapshotI < N ∧
      TableInv N tab' (if takes cfg tab r then hist ++ [r] else hist) r.time := by
  obtain ⟨o, hwanted⟩ : ∃ o, isWanted cfg tab r = .ok o := by
    unfold isWanted
    split
    · split <;> exact ⟨_, rfl⟩
    · split <;> exact ⟨_, rfl⟩
    · next hunused => exact absurd hunused hr.kind
  rw [maybeTakeSnapshot, hwanted, ok_bind]
  cases o with
  | none =>
    refine ⟨tab, rfl, hlt, ?_⟩
    rw [takes, hwanted]
    exact h.later hnow
  | some d =>
    obtain ⟨full, henter, hfull, -⟩ := enterSnapshot_spec h hhist hlt hr hnow hwanted
    obtain ⟨tab', hcull, htab', hlt', -⟩ := cullIfFull_spec hN hfull hr.time_le
    refine ⟨{ tab' with earliestPossibleTimeOfNextSnapshot := sSizeT (r.time + tab'.minTimeInterval) }, ?_, hlt', ?_⟩
    · simp only [henter, ok_bind, hcull]
      rfl
    rw [takes, hwanted]
    exact htab'.congr rfl rfl rfl

theorem mem_of_mem_taken (h : r ∈ taken cfg tab rs) : r ∈ rs := by
  induction rs generalizing tab with
  | nil => exact h
  | cons r' rs ih =>
    rw [taken] at h
    split at h
    · exact nomatch h
    · split at h
      · rcases List.mem_cons.mp h with rfl | h
        · exact List.mem_cons_self
        · exact List.mem_cons_of_mem _ (ih h)
      · exact List.mem_cons_of_mem _ (ih h)

/-- A run keeps the invariant. -/
theorem foldlM_maybeTakeSnapshot (cfg : Config) (hN : 10 ≤ N) (h : TableInv N tab hist now) (hhist : ∀ r ∈ hist, r.Valid cfg)
    (hlt : tab.nextSnapshotI < N) (hvalid : ∀ r ∈ rs, r.Valid cfg) (hnow : ∀ r ∈ rs, now ≤ r.time)
    (htimes : rs.Pairwise fun r r' => r.time ≤ r'.time) :
    ∃ tab' now', rs.foldlM (maybeTakeSnapshot cfg) tab = .ok tab' ∧ tab'.nextSnapshotI < N ∧
      TableInv N tab' (hist ++ taken cfg tab rs) now' ∧ ∀ r : Request, now ≤ r.time → (∀ r' ∈ rs, r'.time ≤ r.time) → now' ≤ r.time := by
  induction rs generalizing tab hist now with
  | nil => exact ⟨tab, now, rfl, hlt, by rwa [taken, List.append_nil], fun r hr _ => hr⟩
  | cons r rs ih =>
    obtain ⟨hle, htimes⟩ := List.pairwise_cons.mp htimes
    have hr := hvalid r List.mem_cons_self
    obtain ⟨tab₁, hstep, hlt₁, h₁⟩ := maybeTakeSnapshot_spec hN h hhist hlt hr (hnow r List.mem_cons_self)
    have hhist₁ : ∀ r' ∈ (if takes cfg tab r then hist ++ [r] else hist), r'.Valid cfg := by
      intro r' hr'
      split at hr'
      · rcases List.mem_append.mp hr' with hr' | hr'
        · exact hhist r' hr'
        · exact List.mem_singleton.mp hr' ▸ hr
      · exact hhist r' hr'
    obtain ⟨tab₂, now₂, hrun, hlt₂, h₂, hbound⟩ :=
      ih h₁ hhist₁ hlt₁ (fun r' hr' => hvalid r' (List.mem_cons_of_mem _ hr')) hle htimes
    refine ⟨tab₂, now₂, by rw [List.foldlM_cons, hstep, ok_bind, hrun], hlt₂, ?_, fun r' _ hall => ?_⟩
    · rw [taken, hstep]
      simp only
      split at h₂
      · next htakes => rwa [if_pos htakes, List.append_cons]
      · next htakes => rwa [if_neg htakes]
    · exact hbound r' (hall r List.mem_cons_self) fun r'' hr'' => hall r'' (List.mem_cons_of_mem _ hr'')

/-- **The snapshot table over a run.** The run returns: no assertion fails. The table has the
invariant, with the snapshots taken so far: they stand in the used entries, in order of time,
the first one taken at the beginning, and the last peak taken is there and is the only peak.
Any further call that fills the table culls half of the entries. -/
theorem snapshotTable_run (cfg : Config) {N : Nat} (hN : 10 ≤ N) {rs : List Request} (hvalid : ∀ r ∈ rs, r.Valid cfg)
    (htimes : rs.Pairwise fun r r' => r.time ≤ r'.time) :
    ∃ tab now, rs.foldlM (maybeTakeSnapshot cfg) (initTable N) = .ok tab ∧ tab.nextSnapshotI < N ∧
      TableInv N tab (taken cfg (initTable N) rs) now ∧
      ∀ r : Request, r.Valid cfg → (∀ r' ∈ rs, r'.time ≤ r.time) → ∀ d full,
        isWanted cfg tab r = .ok (some d) → enterSnapshot cfg tab r d = .ok full → full.nextSnapshotI = N →
        ∃ culled, cullIfFull full = .ok culled ∧ Culled (N / 2) full.used culled.used := by
  obtain ⟨tab, now, hrun, hlt, h, hbound⟩ := foldlM_maybeTakeSnapshot cfg hN tableInv_initTable
    (List.forall_mem_nil _) (show (initTable N).nextSnapshotI < N from Nat.lt_of_lt_of_le (show 0 < 10 by decide) hN) hvalid
    (fun r hr => (hvalid r hr).time_nonneg) htimes
  rw [List.nil_append] at h
  refine ⟨tab, now, hrun, hlt, h, fun r hr hafter d full hwanted henter hfull => ?_⟩
  obtain ⟨full', henter', hinv, -⟩ := enterSnapshot_spec h (fun r' hr' => hvalid r' (mem_of_mem_taken hr')) hlt hr
    (hbound r hr.time_nonneg hafter) hwanted
  obtain rfl : full = full' := Except.ok.inj (henter.symm.trans henter')
  obtain ⟨culled, hcull, -, -, hculled⟩ := cullIfFull_spec hN hinv hr.time_le
  exact ⟨culled, hcull, hculled hfull⟩

/-- The first request, before the client has allocated anything. -/
def startup : Request where
  kind := .normal
  time := 0
  statics := { haveStartedExecutingCode := true, heapSzB := 0, heapExtraSzB := 0, stacksSzB := 0, xtree := initXTree }
  excessSzB := 0

theorem startup_valid (cfg : Config) : startup.Valid cfg where
  kind := by decide
  time_nonneg := by decide
  time_le := by decide
  ready := ⟨rfl, linked_initXTree, rfl⟩
  heap_lt := by decide
  extra_lt := by decide
  stacks_lt := by decide
  excess_le := by decide
  noHeap := fun _ => ⟨rfl, rfl⟩
  noStacks := fun _ => rfl

/-- The options by default; the threshold is one percent. -/
def defaultConfig : Config where
  cloHeap := true
  cloStacks := false
  cloHeapAdmin := 8
  cloDetailedFreq := 10
  zeroThreshold := false
  thresholdSzB := fun totalSzB => totalSzB / 100

theorem snapshotTable_run_startup :
    ∃ tab now, [startup].foldlM (maybeTakeSnapshot defaultConfig) (initTable 100) = .ok tab ∧ tab.nextSnapshotI < 100 ∧
      TableInv 100 tab (taken defaultConfig (initTable 100) [startup]) now ∧
      ∀ r : Request, r.Valid defaultConfig → (∀ r' ∈ [startup], r'.time ≤ r.time) → ∀ d full,
        isWanted defaultConfig tab r = .ok (some d) → enterSnapshot defaultConfig tab r d = .ok full →
        full.nextSnapshotI = 100 →
        ∃ culled, cullIfFull full = .ok culled ∧ Culled (100 / 2) full.used culled.used :=
  snapshotTable_run defaultConfig (by decide) (List.forall_mem_singleton.mpr (startup_valid _)) (List.pairwise_singleton _ _)

end Runs

end Valgrind.Massif
