import Valgrind.Massif.HeapRuns

/-!
# Massif: a `realloc` that fails

`renew_block` takes the chunk of the block out of `malloc_list` before it asks for memory, and
returns without putting it back when there is none, although the old block is not touched.
`renewBlock_failed` says so for every reachable state: the chunk is lost, and a later `free` of the
block is taken for a bogus one.
-/

namespace Valgrind.Massif

open Coregrind

variable {opts : Options} {st st' : Massif} {op : Op} {ops : List Op} {chunks : Multiset HPChunk}

/-- These are the chunks in `malloc_list`. -/
def Tracks (st : Massif) (chunks : Multiset HPChunk) : Prop := Stores HPChunk.data st.mallocList chunks

/-! ## The chunks of a reachable state -/

/-- `malloc_list` is determined by its chains. -/
theorem Tracks.unique {chunks' : Multiset HPChunk} (h : Tracks st chunks) (h' : Tracks st chunks') : chunks = chunks' :=
  h.coe_nodes.symm.trans h'.coe_nodes

theorem Tracks.congr (h : Tracks st chunks) (heq : st'.mallocList = st.mallocList) : Tracks st' chunks := by
  rw [Tracks, heq]
  exact h

theorem snapshotAt_mallocList {kind : SnapshotKind} {now : Moment} (h : snapshotAt opts st kind now = .ok st') :
    st'.mallocList = st.mallocList := by
  obtain ⟨table, -, h⟩ := bind_eq_ok.mp h
  obtain rfl := Except.ok.inj h
  rfl

theorem updateHeapStats_mallocList {d e : Int} (h : updateHeapStats st d e = .ok st') :
    st'.mallocList = st.mallocList := by
  obtain ⟨-, -, h⟩ := bind_eq_ok.mp h
  obtain ⟨-, -, h⟩ := bind_eq_ok.mp h
  obtain rfl := Except.ok.inj h
  rfl

theorem addChunk_tracks {hc : HPChunk} (hT : Tracks st chunks) (h : addChunk st hc = .ok st') :
    Tracks st' (hc ::ₘ chunks) := by
  obtain ⟨table, hadd, hS⟩ := htAddNode_spec hT hc
  rw [addChunk, hadd] at h
  obtain rfl := Except.ok.inj h
  exact hS

theorem recordBlock_tracks {p reqSzB slopSzB : Nat} {ips : List Nat} {now : Moment} (hT : Tracks st chunks)
    (h : recordBlock opts st p reqSzB slopSzB ips now = .ok st') : ∃ chunks', Tracks st' chunks' := by
  rw [recordBlock] at h
  split at h
  · obtain ⟨st₁, hstats, h⟩ := bind_eq_ok.mp h
    obtain ⟨⟨xtree, xpt⟩, -, h⟩ := bind_eq_ok.mp h
    obtain ⟨xtree, -, h⟩ := bind_eq_ok.mp h
    obtain ⟨st₂, hadd, h⟩ := bind_eq_ok.mp h
    have hstats' : st₁.mallocList = st.mallocList := updateHeapStats_mallocList hstats
    have hT₁ : Tracks (st₁.setXTree xtree) chunks := hT.congr hstats'
    exact ⟨_, (addChunk_tracks hT₁ hadd).congr (snapshotAt_mallocList h)⟩
  · exact ⟨_, addChunk_tracks hT h⟩

theorem updateChunk_tracks {hc : HPChunk} {p req slop : Nat} {ips : List Nat} {now : Moment} {r : Massif × Nat}
    (hT : Tracks st chunks) (h : updateChunk opts st hc p req slop ips now = .ok r) : ∃ chunks', Tracks r.1 chunks' := by
  rw [updateChunk] at h
  split at h
  · obtain ⟨⟨xtree, xpt⟩, -, h⟩ := bind_eq_ok.mp h
    obtain ⟨xtree, -, h⟩ := bind_eq_ok.mp h
    obtain ⟨xtree, -, h⟩ := bind_eq_ok.mp h
    obtain ⟨st₁, hadd, h⟩ := bind_eq_ok.mp h
    obtain ⟨st₂, hstats, h⟩ := bind_eq_ok.mp h
    obtain ⟨st₃, hsnap, h⟩ := bind_eq_ok.mp h
    obtain rfl := Except.ok.inj h
    have hT₁ : Tracks (st.setXTree xtree) chunks := hT
    exact ⟨_, ((addChunk_tracks hT₁ hadd).congr (updateHeapStats_mallocList hstats)).congr (snapshotAt_mallocList hsnap)⟩
  · obtain ⟨st₁, hadd, h⟩ := bind_eq_ok.mp h
    obtain rfl := Except.ok.inj h
    exact ⟨_, addChunk_tracks hT hadd⟩

theorem remove_tracks {p : Nat} {hc : HPChunk} {mallocList : HashTable HPChunk} (hT : Tracks st chunks)
    (hremove : htRemove HPChunk.data st.mallocList p = some (hc, mallocList)) :
    hc.data = p ∧ ∃ rest, chunks = hc ::ₘ rest ∧ Tracks { st with mallocList } rest :=
  htRemove_some hT hremove

/-- The snapshot before a deallocation. -/
theorem peak_tracks {wanted : Prop} [Decidable wanted] {peak : Moment} (hT : Tracks st chunks)
    (h : (if wanted then snapshotAt opts st .peak peak else .ok st) = .ok st') : Tracks st' chunks := by
  split at h
  · exact hT.congr (snapshotAt_mallocList h)
  · obtain rfl := Except.ok.inj h
    exact hT

/-- **One call** keeps `malloc_list` a hash table. -/
theorem step_tracks (hT : Tracks st chunks) (h : step opts st op = .ok st') : ∃ chunks', Tracks st' chunks' := by
  cases op with
  | startup now => exact ⟨chunks, hT.congr (snapshotAt_mallocList h)⟩
  | newBlock p reqSzB malloced ips now =>
    obtain ⟨⟨st₁, a⟩, h', hst⟩ := bind_eq_ok.mp h
    obtain rfl := Except.ok.inj hst
    clear h
    rw [newBlock.eq_def] at h'
    split at h'
    · split at h'
      · obtain ⟨rfl, -⟩ := Prod.mk.inj (Except.ok.inj h')
        exact ⟨chunks, hT⟩
      · obtain ⟨-, -, h'⟩ := bind_eq_ok.mp h'
        obtain ⟨st₂, hrec, h'⟩ := bind_eq_ok.mp h'
        obtain ⟨rfl, -⟩ := Prod.mk.inj (Except.ok.inj h')
        exact recordBlock_tracks hT hrec
    · obtain ⟨st₂, hrec, h'⟩ := bind_eq_ok.mp h'
      obtain ⟨rfl, -⟩ := Prod.mk.inj (Except.ok.inj h')
      exact recordBlock_tracks hT hrec
  | dieBlock p peak now =>
    rw [step, dieBlock] at h
    cases hremove : htRemove HPChunk.data st.mallocList p with
    | none =>
      rw [hremove] at h
      obtain rfl := Except.ok.inj h
      exact ⟨chunks, hT⟩
    | some r =>
      obtain ⟨hc, mallocList⟩ := r
      obtain ⟨-, rest, -, hT'⟩ := remove_tracks hT hremove
      rw [hremove] at h
      dsimp only at h
      split at h
      · obtain ⟨st₁, hpeak, h⟩ := bind_eq_ok.mp h
        obtain ⟨st₂, hstats, h⟩ := bind_eq_ok.mp h
        obtain ⟨xtree, -, h⟩ := bind_eq_ok.mp h
        have hT₂ := (hT'.congr (snapshotAt_mallocList hpeak)).congr (updateHeapStats_mallocList hstats)
        have hT₃ : Tracks (st₂.setXTree xtree) rest := hT₂
        exact ⟨rest, hT₃.congr (snapshotAt_mallocList h)⟩
      · obtain rfl := Except.ok.inj h
        exact ⟨rest, hT'⟩
  | renewBlock pOld newReqSzB malloced ips peak now =>
    obtain ⟨⟨st₁, a⟩, h', hst⟩ := bind_eq_ok.mp h
    obtain rfl := Except.ok.inj hst
    clear h
    rw [renewBlock.eq_def] at h'
    cases hremove : htRemove HPChunk.data st.mallocList pOld with
    | none =>
      rw [hremove] at h'
      obtain ⟨rfl, -⟩ := Prod.mk.inj (Except.ok.inj h')
      exact ⟨chunks, hT⟩
    | some r =>
      obtain ⟨hc, mallocList⟩ := r
      obtain ⟨-, rest, -, hT'⟩ := remove_tracks hT hremove
      rw [hremove] at h'
      obtain ⟨st₂, hpeak, h'⟩ := bind_eq_ok.mp h'
      have hT₂ := peak_tracks hT' hpeak
      rw [reallocate.eq_def] at h'
      split at h'
      · exact updateChunk_tracks hT₂ h'
      · split at h'
        · obtain ⟨rfl, -⟩ := Prod.mk.inj (Except.ok.inj h')
          exact ⟨rest, hT₂⟩
        · obtain ⟨-, -, h'⟩ := bind_eq_ok.mp h'
          exact updateChunk_tracks hT₂ h'

/-- A run keeps `malloc_list` a hash table. -/
theorem foldlM_step_tracks (hT : Tracks st chunks) (h : ops.foldlM (step opts) st = .ok st') :
    ∃ chunks', Tracks st' chunks' := by
  induction ops generalizing st chunks with
  | nil =>
    obtain rfl := Except.ok.inj h
    exact ⟨chunks, hT⟩
  | cons op ops ih =>
    rw [List.foldlM_cons] at h
    obtain ⟨st₁, hstep, h⟩ := bind_eq_ok.mp h
    obtain ⟨chunks₁, hT₁⟩ := step_tracks hT hstep
    exact ih hT₁ h

/-- A state that the tool can reach. -/
def Reachable (opts : Options) (cloMaxSnapshots : Nat) (st : Massif) : Prop :=
  ∃ ops, List.foldlM (step opts) (initMassif cloMaxSnapshots) ops = .ok st

theorem Reachable.tracks {cloMaxSnapshots : Nat} (h : Reachable opts cloMaxSnapshots st) : ∃ chunks, Tracks st chunks := by
  obtain ⟨ops, hrun⟩ := h
  have hinit : Tracks (initMassif cloMaxSnapshots) 0 := stores_htConstruct
  exact foldlM_step_tracks hinit hrun

/-! ## Asking for more in vain -/

/-- What a `realloc` that fails may do: it returns `NULL`, and the chunks stay what they are. -/
def FailsCleanly (st : Massif) (r : Checked (Massif × Nat)) : Prop :=
  ∃ st', r = .ok (st', 0) ∧ ∀ chunks, Tracks st chunks → Tracks st' chunks

/-- **A failed `realloc`** of a block whose chunk is in `malloc_list`, for more than the block has:
what is returned is `NULL`, and the chunk is lost. -/
theorem renewBlock_failed {cloMaxSnapshots : Nat} (hst : Reachable opts cloMaxSnapshots st) {p newReqSzB : Nat}
    {hc : HPChunk} {mallocList : HashTable HPChunk}
    (hp : htRemove HPChunk.data st.mallocList p = some (hc, mallocList))
    (hmore : sizeT (hc.reqSzB + hc.slopSzB) < newReqSzB) (ips : List Nat) (peak now : Moment) :
    ∃ rest, Tracks st (hc ::ₘ rest) ∧ hc.data = p ∧
      (∀ st' a, renewBlock opts st p newReqSzB none ips peak now = .ok (st', a) → a = 0 ∧ Tracks st' rest) ∧
      ¬ FailsCleanly st (renewBlock opts st p newReqSzB none ips peak now) := by
  obtain ⟨chunks, hT⟩ := hst.tracks
  obtain ⟨hdata, rest, rfl, hT'⟩ := remove_tracks hT hp
  have hlost : ∀ st' a, renewBlock opts st p newReqSzB none ips peak now = .ok (st', a) → a = 0 ∧ Tracks st' rest := by
    intro st' a hrun
    rw [renewBlock, hp] at hrun
    obtain ⟨st₁, hpeak, hrun⟩ := bind_eq_ok.mp hrun
    rw [reallocate, if_neg (Nat.not_le.mpr hmore)] at hrun
    obtain ⟨rfl, rfl⟩ := Prod.mk.inj (Except.ok.inj hrun)
    exact ⟨rfl, peak_tracks hT' hpeak⟩
  refine ⟨rest, hT, hdata, hlost, ?_⟩
  rintro ⟨st', hrun, hkept⟩
  have heq := (hkept _ hT).unique (hlost st' 0 hrun).2
  exact absurd (congrArg Multiset.card heq) (by rw [Multiset.card_cons]; omega)

/-- A block of sixteen bytes. -/
def sixteenBytes : Op := .newBlock 0 16 (some (4096, 16)) [1] ⟨0, 0⟩

/-- A hundred bytes are asked for, and not to be had. -/
def failedRealloc : Op := .renewBlock 4096 100 none [1] ⟨1, 0⟩ ⟨1, 0⟩

/-- The block is freed. -/
def freed : Op := .dieBlock 4096 ⟨2, 0⟩ ⟨2, 0⟩

/-- The heap after a run. -/
def heapAfter (ops : List Op) : Checked Nat :=
  (ops.foldlM (step defaultOptions) (initMassif 100)).map fun st => st.statics.heapSzB

/-- The block is accounted for after it has been freed. -/
theorem renewBlock_failed_leaks : heapAfter [sixteenBytes, freed] = .ok 0 ∧
    heapAfter [sixteenBytes, failedRealloc, freed] = .ok 16 := by
  decide

theorem renewBlock_failed_sample : ∃ st hc mallocList, Reachable defaultOptions 100 st ∧
    htRemove HPChunk.data st.mallocList 4096 = some (hc, mallocList) ∧
    ¬ FailsCleanly st (renewBlock defaultOptions st 4096 100 none [1] ⟨1, 0⟩ ⟨1, 0⟩) := by
  obtain ⟨st, hrun, hsize⟩ : ∃ st, [sixteenBytes].foldlM (step defaultOptions) (initMassif 100) = .ok st ∧
      (htRemove HPChunk.data st.mallocList 4096).map (fun r => sizeT (r.1.reqSzB + r.1.slopSzB)) = some 16 :=
    exists_of_map (f := fun st : Massif =>
      (htRemove HPChunk.data st.mallocList 4096).map fun r => sizeT (r.1.reqSzB + r.1.slopSzB)) (by decide)
  obtain ⟨⟨hc, mallocList⟩, hremove, hsize⟩ := Option.map_eq_some_iff.mp hsize
  have hst : Reachable defaultOptions 100 st := ⟨_, hrun⟩
  have hmore : sizeT (hc.reqSzB + hc.slopSzB) < 100 := by
    rw [hsize]
    decide
  obtain ⟨-, -, -, -, hfails⟩ := renewBlock_failed hst hremove hmore [1] ⟨1, 0⟩ ⟨1, 0⟩
  exact ⟨st, hc, mallocList, hst, hremove, hfails⟩

end Valgrind.Massif
