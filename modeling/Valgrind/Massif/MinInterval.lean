import Valgrind.Massif.SnapshotRuns

/-!
# Massif: the minimum time between snapshots

When the table is full, `cull_snapshots` returns the smallest time between two adjacent snapshots
that remain and are not both uncullable, and `maybe_take_snapshot` takes no `Normal` snapshot before
that time has passed. What is returned is a `UInt`, where times are `Long`s:
`minTimeInterval_iff` says that the interval is kept exactly when it is less than `2 ^ 32`.
-/

namespace Valgrind.Massif

section

variable {cfg : Config} {tab tab' full : SnapshotTable} {r : Request} {rs : List Request} {time d : Int} {b : Bool}

/-- A table that is full, with the times in order. -/
structure FullTable (tab : SnapshotTable) : Prop where
  full : tab.snapshots.length = tab.nextSnapshotI
  /-- `--max-snapshots` is at least ten. -/
  ten : 10 ≤ tab.snapshots.length
  entries : ∀ s ∈ tab.snapshots, s.kind ≠ .unused ∧ 0 ≤ s.time ∧ s.time ≤ maxTime
  order : InOrder tab.snapshots
  peak : (tab.snapshots.filter isPeak).length ≤ 1

/-- Each `Normal` snapshot comes at least this long after the one before it. -/
def Spaced (d : Int) : Int → List Request → Prop
  | _, [] => True
  | prev, r :: rs => (r.kind = .normal → prev + d ≤ r.time) ∧ Spaced d r.time rs

/-- What may be asked for after a snapshot at `time`, until the table is full again: the times are
in order, and the time of the next snapshot fits a `Long`. -/
structure Follows (tab : SnapshotTable) (d time : Int) (rs : List Request) : Prop where
  order : (time :: rs.map Request.time).Pairwise (· ≤ ·)
  fits : ∀ r ∈ rs, r.time + d ≤ maxTime
  room : tab.nextSnapshotI + rs.length < tab.snapshots.length

/-- The interval has been stored, and is kept by what follows. -/
structure IntervalKept (cfg : Config) (tab : SnapshotTable) (time d : Int) : Prop where
  stored : tab.minTimeInterval = d
  spaced : ∀ rs, Follows tab d time rs → Spaced d time (taken cfg tab rs)

/-! ## Culling a full table -/

theorem FullTable.cullable (h : FullTable tab) : Cullable tab.snapshots := by
  have hused : ∀ s ∈ tab.snapshots, inUse s = true := fun s hs => by simpa [inUse] using (h.entries s hs).1
  have hall : Massif.entries tab.snapshots = tab.snapshots := List.filter_eq_self.mpr hused
  have hne : tab.snapshots ≠ [] := List.ne_nil_of_length_pos (Nat.lt_of_lt_of_le (by decide) h.ten)
  refine ⟨fun s hs => ?_, hall.symm ▸ h.order, ?_, ?_, hall.symm ▸ h.peak⟩
  · rw [Tidy, if_neg (h.entries s hs).1]
    exact (h.entries s hs).2
  · obtain ⟨s, l, hl⟩ := List.exists_cons_of_ne_nil hne
    exact ⟨s, by rw [hl]; rfl, hused s (hl ▸ List.mem_cons_self)⟩
  · exact ⟨_, List.getLast?_eq_some_getLast hne, hused _ (List.getLast_mem hne)⟩

/-- **What is stored** is the smallest gap, modulo `2 ^ 32`. -/
theorem cullIfFull_interval (h : FullTable tab) :
    ∃ tab' d, cullIfFull tab = .ok tab' ∧ tab'.minTimeInterval = d % 2 ^ 32 ∧ IsLeast (Gaps tab'.used) d ∧ 0 ≤ d := by
  have hused : ∀ s ∈ tab.snapshots, inUse s = true := fun s hs => by simpa [inUse] using (h.entries s hs).1
  obtain ⟨E, d, hcull, hculled, hleast⟩ := cullSnapshots_spec h.cullable hused h.ten
  have hnonneg : 0 ≤ d := by
    obtain ⟨i, s, p, hs, hp, -, rfl⟩ := hleast.1
    obtain ⟨hi, rfl⟩ := List.getElem?_eq_some_iff.mp hs
    obtain ⟨hi', rfl⟩ := List.getElem?_eq_some_iff.mp hp
    have horder : InOrder E := List.Pairwise.sublist hculled.sublist h.order
    have hle := List.pairwise_iff_getElem.mp horder i (i + 1) hi' hi (Nat.lt_succ_self i)
    omega
  rw [cullIfFull, if_pos h.full, hcull]
  refine ⟨_, d, rfl, rfl, ?_, hnonneg⟩
  simp only [SnapshotTable.used, List.take_left]
  exact hleast

/-! ## What follows -/

/-- Entering a snapshot into a table. -/
theorem enterSnapshot_frame (h : enterSnapshot cfg tab r b = .ok tab') :
    tab'.minTimeInterval = tab.minTimeInterval ∧ tab'.nextSnapshotI = tab.nextSnapshotI + 1 ∧
      tab'.snapshots.length = tab.snapshots.length := by
  rw [enterSnapshot] at h
  obtain ⟨slot, -, h⟩ := bind_eq_ok.mp h
  obtain ⟨s, -, h⟩ := bind_eq_ok.mp h
  obtain ⟨tab₁, hpeak, h⟩ := bind_eq_ok.mp h
  obtain rfl := Except.ok.inj h
  rw [updatePeak] at hpeak
  split at hpeak
  · obtain ⟨-, -, hpeak⟩ := bind_eq_ok.mp hpeak
    obtain ⟨-, -, hpeak⟩ := bind_eq_ok.mp hpeak
    obtain rfl := Except.ok.inj hpeak
    refine ⟨rfl, rfl, ?_⟩
    simp only [List.length_append, List.length_map, List.length_take, List.length_drop, List.length_set]
    omega
  · obtain rfl := Except.ok.inj hpeak
    exact ⟨rfl, rfl, List.length_set⟩

/-- A `Normal` snapshot is not taken too early. -/
theorem le_of_takes (htakes : takes cfg tab r = true) (hr : r.kind = .normal) :
    tab.earliestPossibleTimeOfNextSnapshot ≤ r.time := by
  by_contra hlt
  rw [takes, isWanted, hr, if_pos (Int.not_le.mp hlt)] at htakes
  cases htakes

theorem sSizeT_time (h : 0 ≤ time) (hmax : time ≤ maxTime) : sSizeT time = time := by
  have hM : maxTime = 2 ^ 63 - 1 := by decide
  exact Int.bmod_eq_of_le (by omega) (by omega)

/-- **The snapshots that follow** keep the interval that is stored. -/
theorem spaced_taken (hd : tab.minTimeInterval = d) (hd₀ : 0 ≤ d) (htime : 0 ≤ time)
    (hnext : tab.earliestPossibleTimeOfNextSnapshot = time + d) (h : Follows tab d time rs) :
    Spaced d time (taken cfg tab rs) := by
  induction rs generalizing tab time with
  | nil => trivial
  | cons r rs ih =>
    rw [taken]
    obtain ⟨hle, horder⟩ := List.pairwise_cons.mp h.order
    have hr : time ≤ r.time := hle r.time List.mem_cons_self
    have hroom := h.room
    rw [List.length_cons] at hroom
    cases hstep : maybeTakeSnapshot cfg tab r with
    | error e => trivial
    | ok tab' =>
      dsimp only
      rw [maybeTakeSnapshot] at hstep
      obtain ⟨o, hwanted, hstep⟩ := bind_eq_ok.mp hstep
      cases o with
      | none =>
        obtain rfl := Except.ok.inj hstep
        rw [if_neg (by rw [takes, hwanted]; exact Bool.false_ne_true)]
        refine ih hd htime hnext ⟨List.pairwise_cons.mpr ⟨fun t ht => hle t (List.mem_cons_of_mem _ ht), ?_⟩,
          fun r' hr' => h.fits r' (List.mem_cons_of_mem _ hr'), by omega⟩
        exact (List.pairwise_cons.mp horder).2
      | some b =>
        obtain ⟨tab₁, henter, hstep⟩ := bind_eq_ok.mp hstep
        obtain ⟨tab₂, hcull, hstep⟩ := bind_eq_ok.mp hstep
        obtain ⟨hmin, hlen, hsize⟩ := enterSnapshot_frame henter
        rw [cullIfFull, if_neg (by omega)] at hcull
        obtain rfl := Except.ok.inj hcull
        obtain rfl := Except.ok.inj hstep
        have htakes : takes cfg tab r = true := by rw [takes, hwanted]
        rw [if_pos htakes]
        have hfit := h.fits r List.mem_cons_self
        refine ⟨fun hkind => hnext ▸ le_of_takes htakes hkind, ih (hmin.trans hd) (htime.trans hr) ?_ ⟨horder,
          fun r' hr' => h.fits r' (List.mem_cons_of_mem _ hr'), ?_⟩⟩
        · simp only
          rw [hmin, hd]
          exact sSizeT_time (by omega) hfit
        · simp only
          omega

/-! ## The interval that is stored -/

/-- **The minimum snapshot interval** is stored and kept exactly when it is less than `2 ^ 32`. -/
theorem minTimeInterval_iff (cfg : Config) (hwanted : isWanted cfg tab r = .ok (some b))
    (henter : enterSnapshot cfg tab r b = .ok full) (hfull : FullTable full) (hlast : ∀ s ∈ full.snapshots, s.time ≤ r.time) :
    ∃ tab' d, maybeTakeSnapshot cfg tab r = .ok tab' ∧ IsLeast (Gaps tab'.used) d ∧
      (IntervalKept cfg tab' r.time d ↔ d < 2 ^ 32) := by
  obtain ⟨culled, d, hcull, hmin, hleast, hd⟩ := cullIfFull_interval hfull
  refine ⟨{ culled with earliestPossibleTimeOfNextSnapshot := sSizeT (r.time + culled.minTimeInterval) }, d, ?_, hleast, ?_⟩
  · rw [maybeTakeSnapshot, hwanted, ok_bind]
    simp only [henter, ok_bind, hcull]
    rfl
  constructor
  · intro h
    have hstored : culled.minTimeInterval = d := h.stored
    omega
  · intro hlt
    have hstored : culled.minTimeInterval = d := by omega
    have hnonneg : 0 ≤ r.time := by
      obtain ⟨s, l, hl⟩ := List.exists_cons_of_ne_nil (List.ne_nil_of_length_pos (Nat.lt_of_lt_of_le (by decide) hfull.ten))
      have hs : s ∈ full.snapshots := hl ▸ List.mem_cons_self
      exact (hfull.entries s hs).2.1.trans (hlast s hs)
    refine ⟨hstored, fun rs hrs => ?_⟩
    cases rs with
    | nil => trivial
    | cons r' rs =>
      refine spaced_taken hstored hd hnonneg ?_ hrs
      have hle := (List.pairwise_cons.mp hrs.order).1 r'.time List.mem_cons_self
      exact (congrArg (fun m => sSizeT (r.time + m)) hstored).trans
        (sSizeT_time (by omega) (by have := hrs.fits r' List.mem_cons_self; omega))

end

/-! ## Ten snapshots -/

/-- Nine `Normal` snapshots, the same time apart. -/
def nineSnapshots (interval : Int) : SnapshotTable where
  snapshots := (List.range 9).map (fun i => { clearSnapshot with kind := .normal, time := interval * i }) ++ [clearSnapshot]
  nextSnapshotI := 9
  peakSnapshotTotalSzB := 0
  minTimeInterval := 0
  earliestPossibleTimeOfNextSnapshot := interval * 8
  nSnapshotsSinceLastDetailed := 0

/-- The tenth one. -/
def tenSnapshots (interval : Int) : SnapshotTable where
  snapshots := (List.range 10).map fun i => { clearSnapshot with kind := .normal, time := interval * i }
  nextSnapshotI := 10
  peakSnapshotTotalSzB := 0
  minTimeInterval := 0
  earliestPossibleTimeOfNextSnapshot := interval * 8
  nSnapshotsSinceLastDetailed := 1

/-- Ten snapshots, one time unit apart. -/
theorem minTimeInterval_iff_unit : ∃ tab' d, maybeTakeSnapshot defaultConfig (nineSnapshots 1) { startup with time := 9 } = .ok tab' ∧
    IsLeast (Gaps tab'.used) d ∧ (IntervalKept defaultConfig tab' 9 d ↔ d < 2 ^ 32) := by
  have hfull : FullTable (tenSnapshots 1) := ⟨rfl, by decide, by decide, by unfold InOrder; decide, by decide⟩
  have henter : enterSnapshot defaultConfig (nineSnapshots 1) { startup with time := 9 } false = .ok (tenSnapshots 1) := rfl
  exact minTimeInterval_iff defaultConfig (r := { startup with time := 9 }) rfl henter hfull (by decide)

/-- What is left of ten snapshots that are `2 ^ 32` time units apart. -/
def fiveSnapshots : SnapshotTable where
  snapshots := [0, 2, 4, 6, 9].map (fun i => { clearSnapshot with kind := .normal, time := 2 ^ 32 * i }) ++
    List.replicate 5 clearSnapshot
  nextSnapshotI := 5
  peakSnapshotTotalSzB := 0
  minTimeInterval := 0
  earliestPossibleTimeOfNextSnapshot := 9 * 2 ^ 32
  nSnapshotsSinceLastDetailed := 1

theorem isLeast_gaps_fiveSnapshots : IsLeast (Gaps fiveSnapshots.used) (2 ^ 33) := by
  constructor
  · exact ⟨0, _, _, rfl, rfl, by decide, by decide⟩
  · rintro d ⟨i, s, p, hs, hp, -, rfl⟩
    have hi : i + 1 < fiveSnapshots.used.length := (List.getElem?_eq_some_iff.mp hs).1
    have hlt : i < 4 := Nat.lt_of_succ_lt_succ hi
    interval_cases i <;> cases hs <;> cases hp <;> decide

/-- The interval that is stored is 0, where the smallest gap is `2 ^ 33`, and the next snapshot may
be taken at once. -/
theorem minTimeInterval_wraps : maybeTakeSnapshot defaultConfig (nineSnapshots (2 ^ 32))
      { startup with time := 9 * 2 ^ 32 } = .ok fiveSnapshots ∧
    IsLeast (Gaps fiveSnapshots.used) (2 ^ 33) ∧ fiveSnapshots.minTimeInterval = 0 ∧
    takes defaultConfig fiveSnapshots { startup with time := 9 * 2 ^ 32 } = true :=
  ⟨rfl, isLeast_gaps_fiveSnapshots, rfl, by decide⟩

end Valgrind.Massif
