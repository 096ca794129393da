import Valgrind.Massif.XTree

/-!
# Massif: the snapshot table

`maybe_take_snapshot` of `ms_main.c` and the functions under it. The table `snapshots` has
`clo_max_snapshots` entries; when it is full, half of them are culled: again and again the
entry around which the least time passes is cleared, then those that remain are slid down.

What is printed at higher verbosities and the counters for the statistics are left out. What
is computed in floating point is a parameter: the threshold of a significant child, and the
excess that makes a peak a new one.
-/

namespace Valgrind.Massif

/-! ## Snapshots -/

/-- `SnapshotKind`. -/
inductive SnapshotKind where
  | normal
  | peak
  | unused
  deriving DecidableEq, Repr

/-- `UNUSED_SNAPSHOT_TIME`. -/
def unusedSnapshotTime : Int := -333

/-- `Snapshot`. -/
structure Snapshot where
  kind : SnapshotKind
  time : Int
  heapSzB : Nat
  heapExtraSzB : Nat
  stacksSzB : Nat
  allocSxpt : Option SXPt

/-- A snapshot after `clear_snapshot`. -/
def clearSnapshot : Snapshot where
  kind := .unused
  time := unusedSnapshotTime
  heapSzB := 0
  heapExtraSzB := 0
  stacksSzB := 0
  allocSxpt := none

/-- `is_snapshot_in_use`. -/
def isSnapshotInUse (snapshot : Snapshot) : Checked Bool :=
  if snapshot.kind = .unused then do
    tlAssert .isSnapshotInUse (snapshot.time = unusedSnapshotTime)
    tlAssert .isSnapshotInUse (snapshot.heapExtraSzB = 0)
    tlAssert .isSnapshotInUse (snapshot.heapSzB = 0)
    tlAssert .isSnapshotInUse (snapshot.stacksSzB = 0)
    tlAssert .isSnapshotInUse (snapshot.allocSxpt.isNone = true)
    return false
  else do
    tlAssert .isSnapshotInUse (snapshot.time ≠ unusedSnapshotTime)
    return true

/-- `snapshots[i]`. -/
def readSnapshot (snapshots : List Snapshot) (i : Nat) : Checked Snapshot :=
  match snapshots[i]? with
  | some s => .ok s
  | none => .error .outOfBounds

/-- `is_uncullable_snapshot`, of the entry `i`. -/
def isUncullableSnapshot (nextSnapshotI i : Nat) (snapshot : Snapshot) : Prop :=
  i = 0 ∨ i + 1 = nextSnapshotI ∨ snapshot.kind = .peak

instance (nextSnapshotI i : Nat) (snapshot : Snapshot) : Decidable (isUncullableSnapshot nextSnapshotI i snapshot) :=
  inferInstanceAs (Decidable (_ ∨ _))

/-- `sanity_check_snapshots_array`. -/
def sanityCheckSnapshotsArray (snapshots : List Snapshot) (nextSnapshotI : Nat) : Checked Unit := do
  (snapshots.take nextSnapshotI).forM fun s => do
    tlAssert .sanityCheckSnapshotsArray ((← isSnapshotInUse s) = true)
  (snapshots.drop nextSnapshotI).forM fun s => do
    tlAssert .sanityCheckSnapshotsArray ((← isSnapshotInUse s) = false)

/-! ## Culling -/

/-- The first entry in use, of those that are numbered from `j` on. -/
def findFrom : List Snapshot → Nat → Checked Nat
  | [], j => .ok j
  | s :: snapshots, j => do if ← isSnapshotInUse s then .ok j else findFrom snapshots (j + 1)

/-- `FIND_SNAPSHOT(i, j)`: the new value of `j`. -/
def findSnapshot (snapshots : List Snapshot) (i : Nat) : Checked Nat := findFrom (snapshots.drop i) i

/-- The largest `Time`. -/
def maxTime : Int := 0x7fffffffffffffff

/-- The `while` loop of `cull_snapshots` over the triples `(jp, j, jn)`, with `min_timespan`
and `min_j`. -/
def scanTriples (snapshots : List Snapshot) : Nat → Nat → Nat → Nat → Int × Option Nat → Checked (Int × Option Nat)
  | 0, _, _, _, _ => .error .diverge
  | fuel + 1, jp, j, jn, best =>
    if jn < snapshots.length then do
      let prev ← readSnapshot snapshots jp
      let curr ← readSnapshot snapshots j
      let next ← readSnapshot snapshots jn
      let timespan := sSizeT (next.time - prev.time)
      tlAssert .cullSnapshots (0 ≤ timespan)
      let best := if curr.kind ≠ .peak ∧ timespan < best.1 then (timespan, some j) else best
      let jnn ← findSnapshot snapshots (jn + 1)
      scanTriples snapshots fuel j jn jnn best
    else .ok best

/-- One round of the first loop of `cull_snapshots`: delete the snapshot that represents the
smallest timespan. -/
def deleteSmallest (snapshots : List Snapshot) : Checked (List Snapshot) := do
  let j ← findSnapshot snapshots 1
  let jn ← findSnapshot snapshots (j + 1)
  let best ← scanTriples snapshots snapshots.length 0 j jn (maxTime, none)
  match best.2 with
  | none => .error .cullSnapshots
  | some minJ => .ok (snapshots.set minJ clearSnapshot)

/-- The first loop of `cull_snapshots`. -/
def deleteMany : Nat → List Snapshot → Checked (List Snapshot)
  | 0, snapshots => .ok snapshots
  | n + 1, snapshots => do deleteMany n (← deleteSmallest snapshots)

/-- The loop that looks for the first entry that is in use, or that is not; it does not look
for the end of the array. -/
def seek (used : Bool) : List Snapshot → Nat → Checked Nat
  | [], _ => .error .outOfBounds
  | s :: snapshots, i => do if (← isSnapshotInUse s) = used then .ok i else seek used snapshots (i + 1)

/-- One step of the loop that slides the remaining snapshots down. -/
def slideOne (st : List Snapshot × Nat) (j : Nat) : Checked (List Snapshot × Nat) := do
  let s ← readSnapshot st.1 j
  if ← isSnapshotInUse s then .ok ((st.1.set st.2 s).set j clearSnapshot, st.2 + 1) else .ok st

/-- Slide down the remaining snapshots over the removed ones. -/
def slideDown (snapshots : List Snapshot) : Checked (List Snapshot × Nat) := do
  let i ← seek false snapshots 0
  let j ← seek true (snapshots.drop i) i
  (List.range' j (snapshots.length - j)).foldlM slideOne (snapshots, i)

/-- One step of the loop that finds the minimum timespan remaining. -/
def intervalOne (snapshots : List Snapshot) (nextSnapshotI : Nat) (best : Int × Option Nat) (i : Nat) :
    Checked (Int × Option Nat) := do
  let s ← readSnapshot snapshots i
  let prev ← readSnapshot snapshots (i - 1)
  if isUncullableSnapshot nextSnapshotI i s ∧ isUncullableSnapshot nextSnapshotI (i - 1) prev then .ok best
  else do
    let timespan := sSizeT (s.time - prev.time)
    tlAssert .cullSnapshots (0 ≤ timespan)
    return if timespan < best.1 then (timespan, some i) else best

/-- `cull_snapshots`: the table, `next_snapshot_i` and what it returns, a `UInt`. -/
def cullSnapshots (snapshots : List Snapshot) : Checked (List Snapshot × Nat × Int) := do
  let snapshots ← deleteMany (snapshots.length / 2) snapshots
  let (snapshots, nextSnapshotI) ← slideDown snapshots
  sanityCheckSnapshotsArray snapshots nextSnapshotI
  tlAssert .cullSnapshots (1 < nextSnapshotI)
  let best ← (List.range' 1 (nextSnapshotI - 1)).foldlM (intervalOne snapshots nextSnapshotI) (maxTime, none)
  tlAssert .cullSnapshots (best.2.isSome = true)
  return (snapshots, nextSnapshotI, best.1 % 2 ^ 32)

/-! ## Taking a snapshot -/

/-- The options, and what is computed from them in floating point. -/
structure Config where
  cloHeap : Bool
  cloStacks : Bool
  cloHeapAdmin : Nat
  cloDetailedFreq : Nat
  /-- `clo_threshold == 0`. -/
  zeroThreshold : Bool
  /-- `(SizeT)((total_szB * clo_threshold) / 100)`. -/
  thresholdSzB : Nat → Nat

/-- The variables that a snapshot is taken of. -/
structure Statics where
  haveStartedExecutingCode : Bool
  heapSzB : Nat
  heapExtraSzB : Nat
  stacksSzB : Nat
  xtree : List XPt

/-- `heap_szB + heap_extra_szB + stacks_szB`. -/
def Statics.totalSzB (st : Statics) : Nat := sizeT (st.heapSzB + st.heapExtraSzB + st.stacksSzB)

/-- `sig_child_threshold_szB` of `dup_XTree`. -/
def Config.sigChildThresholdSzB (cfg : Config) (totalSzB : Nat) : Nat :=
  if totalSzB = 0 ∧ cfg.zeroThreshold = false then 1 else cfg.thresholdSzB totalSzB

/-- The copy of the XTree for a detailed snapshot. -/
def takeXTree (cfg : Config) (st : Statics) : Checked SXPt := do
  let sxpt ← dupXTree st.xtree (cfg.sigChildThresholdSzB st.totalSzB) (st.xtree.length + 1) 0
  let allocXPt ← readXPt st.xtree 0
  tlAssert .takeSnapshot (allocXPt.szB = st.heapSzB)
  tlAssert .takeSnapshot (sxpt.szB = st.heapSzB)
  return sxpt

/-- `take_snapshot`: the entry afterwards. -/
def takeSnapshot (cfg : Config) (st : Statics) (snapshot : Snapshot) (kind : SnapshotKind) (time : Int)
    (isDetailed : Bool) : Checked Snapshot := do
  tlAssert .takeSnapshot ((← isSnapshotInUse snapshot) = false)
  tlAssert .takeSnapshot (st.haveStartedExecutingCode = true)
  let sxpt ← if cfg.cloHeap ∧ isDetailed then (do return some (← takeXTree cfg st)) else .ok snapshot.allocSxpt
  return {
    kind
    time
    heapSzB := if cfg.cloHeap then st.heapSzB else snapshot.heapSzB
    heapExtraSzB := if cfg.cloHeap then st.heapExtraSzB else snapshot.heapExtraSzB
    stacksSzB := if cfg.cloStacks then st.stacksSzB else snapshot.stacksSzB
    allocSxpt := sxpt }

/-- The snapshots, and the other variables that last from one call of `maybe_take_snapshot`
to the next. -/
structure SnapshotTable where
  snapshots : List Snapshot
  nextSnapshotI : Nat
  peakSnapshotTotalSzB : Nat
  minTimeInterval : Int
  earliestPossibleTimeOfNextSnapshot : Int
  nSnapshotsSinceLastDetailed : Nat

/-- The table as `ms_post_clo_init` leaves it. -/
def initTable (cloMaxSnapshots : Nat) : SnapshotTable where
  snapshots := List.replicate cloMaxSnapshots clearSnapshot
  nextSnapshotI := 0
  peakSnapshotTotalSzB := 0
  minTimeInterval := 0
  earliestPossibleTimeOfNextSnapshot := 0
  nSnapshotsSinceLastDetailed := 0

/-- One call of `maybe_take_snapshot`: its argument, what `get_time` returns, the variables it
reads and `excess_szB_for_new_peak`. -/
structure Request where
  kind : SnapshotKind
  time : Int
  statics : Statics
  excessSzB : Nat

/-- The `switch` of `maybe_take_snapshot`: `none` where it returns, and otherwise
`is_detailed`. -/
def isWanted (cfg : Config) (tab : SnapshotTable) (r : Request) : Checked (Option Bool) :=
  match r.kind with
  | .normal =>
    if r.time < tab.earliestPossibleTimeOfNextSnapshot then .ok none
    else .ok (some (cfg.cloDetailedFreq - 1 = tab.nSnapshotsSinceLastDetailed))
  | .peak =>
    if r.statics.totalSzB ≤ sizeT (tab.peakSnapshotTotalSzB + r.excessSzB) then .ok none else .ok (some true)
  | .unused => .error .maybeTakeSnapshot

/-- The old peak snapshot is marked as normal. -/
def demote (s : Snapshot) : Snapshot := if s.kind = .peak then { s with kind := .normal } else s

/-- Update peak data, if it's a `Peak` snapshot. -/
def updatePeak (tab : SnapshotTable) (snapshot : Snapshot) : Checked SnapshotTable :=
  if snapshot.kind = .peak then do
    let totalSzB := sizeT (snapshot.heapSzB + snapshot.heapExtraSzB + snapshot.stacksSzB)
    tlAssert .maybeTakeSnapshot (tab.peakSnapshotTotalSzB < totalSzB)
    let old := tab.snapshots.take tab.nextSnapshotI
    tlAssert .maybeTakeSnapshot (old.countP (·.kind = .peak) ≤ 1)
    return { tab with
      peakSnapshotTotalSzB := totalSzB
      snapshots := old.map demote ++ tab.snapshots.drop tab.nextSnapshotI }
  else .ok tab

/-- `maybe_take_snapshot` from where it takes the snapshot to where `next_snapshot_i` is
incremented. -/
def enterSnapshot (cfg : Config) (tab : SnapshotTable) (r : Request) (isDetailed : Bool) : Checked SnapshotTable := do
  let slot ← readSnapshot tab.snapshots tab.nextSnapshotI
  let snapshot ← takeSnapshot cfg r.statics slot r.kind r.time isDetailed
  let tab ← updatePeak { tab with
    snapshots := tab.snapshots.set tab.nextSnapshotI snapshot
    nSnapshotsSinceLastDetailed := if isDetailed then 0 else tab.nSnapshotsSinceLastDetailed + 1 } snapshot
  return { tab with nextSnapshotI := tab.nextSnapshotI + 1 }

/-- Cull the entries, if our snapshot table is full. -/
def cullIfFull (tab : SnapshotTable) : Checked SnapshotTable :=
  if tab.snapshots.length = tab.nextSnapshotI then do
    let (snapshots, nextSnapshotI, minTimeInterval) ← cullSnapshots tab.snapshots
    return { tab with snapshots, nextSnapshotI, minTimeInterval }
  else .ok tab

/-- `maybe_take_snapshot`. -/
def maybeTakeSnapshot (cfg : Config) (tab : SnapshotTable) (r : Request) : Checked SnapshotTable := do
  match ← isWanted cfg tab r with
  | none => .ok tab
  | some isDetailed => do
    let tab ← cullIfFull (← enterSnapshot cfg tab r isDetailed)
    return { tab with earliestPossibleTimeOfNextSnapshot := sSizeT (r.time + tab.minTimeInterval) }

end Valgrind.Massif
