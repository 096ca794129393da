import Valgrind.Memcheck.SecMaps

/-!
# The secondary V bit table (`mc_main.c`)

The two bits of a byte that is partly defined do not say which of its bits are defined. Its
V bits are kept in `secVBitTable`, an ordered set of nodes for 16 bytes each. Nodes become
stale when their bytes are overwritten; once the table reaches a certain size, nodes that
are stale and have not been touched for a while are evicted.

The table is modelled by the list of its nodes in ascending order, which is what an `OSet`
stands for.

`Shadow.Rep s A` relates a state of Memcheck to what it is meant to remember: for each
address, nothing (the byte is not accessible) or eight V bits. `setVbits8_spec` and
`getVbits8_spec` say that a byte can be written and read back, whatever collections of the
table happen in between.
-/

namespace Valgrind

namespace Memcheck

section

variable [Machine]

/-! ## State -/

/-- `SecVBitNode`. -/
structure SecVBitNode where
  a : Nat
  vbits8 : Nat → BitVec 8
  lastTouched : Nat

/-- What `MC_(record_address_error)` is told. -/
structure AddressError where
  a : Nat
  szB : Nat
  isWrite : Bool
  deriving DecidableEq

/-- The shadow memory, and the address errors that have been recorded. -/
structure Shadow where
  maps : SecMaps
  secVBitTable : List SecVBitNode
  gcsDone : Nat
  secVBitLimit : Int
  errors : List AddressError

/-- `VG_(OSetGen_Lookup)( secVBitTable, &aAligned )`. -/
def lookupSecVBitNode (table : List SecVBitNode) (aAligned : Nat) : Option SecVBitNode :=
  table.find? fun n => n.a = aAligned

/-- `VG_(OSetGen_Insert)( secVBitTable, n )`. -/
def insertSecVBitNode (n : SecVBitNode) : List SecVBitNode → List SecVBitNode
  | [] => [n]
  | m :: table => if n.a < m.a then n :: m :: table else m :: insertSecVBitNode n table

/-! ## Collection -/

/-- The loop of `gcSecVBitTable` that looks for a byte that is partly defined. -/
def anyPartdefined (maps : SecMaps) (a : Nat) : List Nat → Result (Bool × SecMaps)
  | [] => pure (false, maps)
  | i :: is => do
    let (vabits2, maps) ← getVabits2 maps (addW a i)
    if vabits2 = vaBits2Partdefined then pure (true, maps) else anyPartdefined maps a is

/-- `(GCs_done - n->last_touched) <= MAX_STALE_AGE`, in `UInt`s. -/
def touchedRecently (gcsDone : Nat) (n : SecVBitNode) : Bool :=
  decide ((gcsDone + 2 ^ 32 - n.lastTouched) % 2 ^ 32 ≤ 2)

/-- The traversal of `gcSecVBitTable`: which nodes are moved into the new table. They are
visited, and inserted, in ascending order. -/
def gcTraverse (gcsDone : Nat) (maps : SecMaps) :
    List SecVBitNode → Result (List SecVBitNode × SecMaps)
  | [] => pure ([], maps)
  | n :: table => do
    let (keep, maps) ← (if touchedRecently gcsDone n then pure (true, maps)
      else anyPartdefined maps n.a (List.range 16))
    let (table, maps) ← gcTraverse gcsDone maps table
    pure (if keep then n :: table else table, maps)

/-- `gcSecVBitTable`. The survivors are more than half of the limit just if twice their number
exceeds it. -/
def gcSecVBitTable (s : Shadow) : Result Shadow := do
  let gcsDone := (s.gcsDone + 1) % 2 ^ 32
  let (table, maps) ← gcTraverse gcsDone s.maps s.secVBitTable
  let secVBitLimit := if s.secVBitLimit < 2 * table.length
    then Int.bmod (2 * s.secVBitLimit) (2 ^ 32) else s.secVBitLimit
  pure { s with maps, secVBitTable := table, gcsDone, secVBitLimit }

/-! ## V bits of a byte -/

/-- `get_sec_vbits8`. -/
def getSecVbits8 (s : Shadow) (a : Nat) : Result (BitVec 8) :=
  match lookupSecVBitNode s.secVBitTable (roundDn a 16) with
  | none => throw .assertFailed
  | some n => do
    assertThat (n.vbits8 (a % 16) ≠ vBits8Defined ∧ n.vbits8 (a % 16) ≠ vBits8Undefined)
    pure (n.vbits8 (a % 16))

/-- `set_sec_vbits8`. A collection comes before the new node is inserted, so that the new node
is not evicted. -/
def setSecVbits8 (s : Shadow) (a : Nat) (vbits8 : BitVec 8) : Result Shadow := do
  let aAligned := roundDn a 16
  assertThat (vbits8 ≠ vBits8Defined ∧ vbits8 ≠ vBits8Undefined)
  match lookupSecVBitNode s.secVBitTable aAligned with
  | some _ =>
    let table := s.secVBitTable.map fun n =>
      if n.a = aAligned then
        { n with vbits8 := Function.update n.vbits8 (a % 16) vbits8, lastTouched := s.gcsDone }
      else n
    pure { s with secVBitTable := table }
  | none => do
    let n : SecVBitNode := ⟨aAligned, Function.update (fun _ => vBits8Undefined) (a % 16) vbits8, s.gcsDone⟩
    let s ← (if s.secVBitLimit = s.secVBitTable.length then gcSecVBitTable s else pure s)
    pure { s with secVBitTable := insertSecVBitNode n s.secVBitTable }

/-- `set_vbits8`. The result says whether the byte is addressable. -/
def setVbits8 (al : ShadowAlloc) (s : Shadow) (a : Nat) (vbits8 : BitVec 8) : Result (Bool × Shadow) := do
  let (vabits2, maps) ← getVabits2 s.maps a
  let s := { s with maps }
  if vabits2 ≠ vaBits2Noaccess then do
    let (vabits2, s) ← (if vbits8 = vBits8Defined then pure (vaBits2Defined, s)
      else if vbits8 = vBits8Undefined then pure (vaBits2Undefined, s)
      else do
        let s ← setSecVbits8 s a vbits8
        pure (vaBits2Partdefined, s))
    let maps ← setVabits2 al s.maps a vabits2
    pure (true, { s with maps })
  else pure (false, s)

/-- `get_vbits8`. The V bits of a byte that is not addressable are taken to be defined. -/
def getVbits8 (s : Shadow) (a : Nat) : Result (Bool × BitVec 8 × Shadow) := do
  let (vabits2, maps) ← getVabits2 s.maps a
  let s := { s with maps }
  if vabits2 = vaBits2Defined then pure (true, vBits8Defined, s)
  else if vabits2 = vaBits2Undefined then pure (true, vBits8Undefined, s)
  else if vabits2 = vaBits2Noaccess then pure (false, vBits8Defined, s)
  else do
    let vbits8 ← getSecVbits8 s a
    pure (true, vbits8, s)

/-- `init_shadow_memory`. -/
def initShadowMemory : Shadow := ⟨initSecMaps, [], 0, 1024, []⟩

/-! ## What is remembered -/

/-- What Memcheck is meant to remember of each byte: nothing if it is not accessible, or its
V bits. -/
abbrev VBits := Nat → Option (BitVec 8)

/-- The two bits for a byte. -/
def compress : Option (BitVec 8) → BitVec 2
  | none => vaBits2Noaccess
  | some v =>
    if v = vBits8Defined then vaBits2Defined
    else if v = vBits8Undefined then vaBits2Undefined
    else vaBits2Partdefined

/-- What the table holds for the byte at the address `x`. -/
def entryAt (s : Shadow) (x : Nat) : Option (BitVec 8) :=
  (lookupSecVBitNode s.secVBitTable (roundDn x 16)).map fun n => n.vbits8 (x % 16)

/-- The nodes of the table are for aligned groups of 16 bytes. -/
def NodesOk (table : List SecVBitNode) : Prop := ∀ n ∈ table, n.a % 16 = 0 ∧ n.a < wordMod

/-- The shadow memory remembers `A`. -/
structure Shadow.Rep (s : Shadow) (A : VBits) : Prop where
  inv : s.maps.Inv
  nodes : NodesOk s.secVBitTable
  state : ∀ x < wordMod, vabits2At s.maps x = compress (A x)
  entry : ∀ x < wordMod, compress (A x) = vaBits2Partdefined → entryAt s x = A x

theorem compress_eq_partdefined {v : BitVec 8} :
    compress (some v) = vaBits2Partdefined ↔ v ≠ vBits8Defined ∧ v ≠ vBits8Undefined := by
  unfold compress
  dsimp only
  split
  · simp_all
  · split
    · simp_all
    · simp_all

theorem compress_eq_noaccess {o : Option (BitVec 8)} : compress o = vaBits2Noaccess ↔ o = none := by
  cases o with
  | none => simp [compress]
  | some v =>
    unfold compress
    dsimp only
    split
    · simp
    · split <;> simp

theorem eq_of_compress_partdefined {o : Option (BitVec 8)} (h : compress o = vaBits2Partdefined) :
    ∃ v, o = some v ∧ v ≠ vBits8Defined ∧ v ≠ vBits8Undefined := by
  cases o with
  | none => simp [compress] at h
  | some v => exact ⟨v, rfl, compress_eq_partdefined.mp h⟩

/-! ## Collection keeps what is needed -/

variable {s : Shadow} {maps : SecMaps} {table : List SecVBitNode} {a x k gcsDone : Nat}
  {n : SecVBitNode} {A : VBits} {v : BitVec 8} {al : ShadowAlloc}

theorem anyPartdefined_spec (h : maps.Inv) {is : List Nat} (his : ∀ i ∈ is, a + i < wordMod) :
    ∃ maps', anyPartdefined maps a is =
        .ok (is.any fun i => decide (vabits2At maps (a + i) = vaBits2Partdefined), maps') ∧
      Quiet maps maps' := by
  induction is generalizing maps with
  | nil => exact ⟨maps, rfl, .refl h⟩
  | cons i is ih =>
    obtain ⟨hi, his⟩ := List.forall_mem_cons.mp his
    obtain ⟨maps₁, hrun, hq⟩ := getVabits2_spec h hi
    rw [anyPartdefined, addW_of_lt hi, hrun, ok_bind, List.any_cons]
    dsimp only
    by_cases hp : vabits2At maps (a + i) = vaBits2Partdefined
    · exact ⟨maps₁, by simp [hp, pure, Except.pure], hq⟩
    · obtain ⟨maps₂, hrun₂, hq₂⟩ := ih hq.inv his
      refine ⟨maps₂, ?_, hq.trans hq₂⟩
      rw [if_neg hp, hrun₂, decide_eq_false hp, Bool.false_or]
      simp only [hq.vabits2At]

/-- The nodes that survive a collection. -/
def survives (gcsDone : Nat) (maps : SecMaps) (n : SecVBitNode) : Bool :=
  touchedRecently gcsDone n ||
    (List.range 16).any fun i => decide (vabits2At maps (n.a + i) = vaBits2Partdefined)

theorem Quiet.survives {maps' : SecMaps} (h : Quiet maps maps') :
    survives gcsDone maps' = survives gcsDone maps := by
  funext n
  simp only [Memcheck.survives, h.vabits2At]

theorem gcTraverse_spec (gcsDone : Nat) (h : maps.Inv) (hn : NodesOk table) :
    ∃ maps', gcTraverse gcsDone maps table = .ok (table.filter (survives gcsDone maps), maps') ∧
      Quiet maps maps' := by
  induction table generalizing maps with
  | nil => exact ⟨maps, rfl, .refl h⟩
  | cons n table ih =>
    obtain ⟨hmod, hlt⟩ := hn n (by simp)
    have hbytes : ∀ i ∈ List.range 16, n.a + i < wordMod := by
      intro i hi
      have hi16 := List.mem_range.mp hi
      rcases wordMod_cases with hw | hw <;> omega
    obtain ⟨maps₁, hkeep, hq₁⟩ : ∃ maps₁, (if touchedRecently gcsDone n then pure (true, maps)
        else anyPartdefined maps n.a (List.range 16)) =
          Except.ok (survives gcsDone maps n, maps₁) ∧ Quiet maps maps₁ := by
      by_cases ht : touchedRecently gcsDone n = true
      · exact ⟨maps, by simp [ht, survives, pure, Except.pure], .refl h⟩
      · obtain ⟨maps₁, hrun, hq⟩ := anyPartdefined_spec h hbytes
        refine ⟨maps₁, ?_, hq⟩
        rw [if_neg ht, hrun, survives, Bool.eq_false_iff.mpr ht, Bool.false_or]
    obtain ⟨maps₂, hrest, hq₂⟩ := ih hq₁.inv fun m hm => hn m (by simp [hm])
    refine ⟨maps₂, ?_, hq₁.trans hq₂⟩
    rw [gcTraverse, hkeep, ok_bind]
    dsimp only
    rw [hrest, ok_bind, List.filter_cons, hq₁.survives]
    rfl

theorem lookup_filter {p : SecVBitNode → Bool} (h : lookupSecVBitNode table k = some n) (hp : p n = true) :
    lookupSecVBitNode (table.filter p) k = some n := by
  unfold lookupSecVBitNode at h ⊢
  rw [List.find?_filter]
  induction table with
  | nil => simp at h
  | cons m table ih =>
    rw [List.find?_cons] at h ⊢
    by_cases hm : m.a = k
    · obtain rfl : m = n := by simpa [hm] using h
      simp [hm, hp]
    · simp only [hm, decide_false, Bool.false_eq_true, and_false] at h ⊢
      exact ih h

theorem lookup_filter_none {p : SecVBitNode → Bool} (h : lookupSecVBitNode table k = none) :
    lookupSecVBitNode (table.filter p) k = none := by
  unfold lookupSecVBitNode at h ⊢
  rw [List.find?_eq_none] at h ⊢
  exact fun m hm => h m (List.mem_of_mem_filter hm)

theorem lookup_key (h : lookupSecVBitNode table k = some n) : n.a = k := by
  simpa using List.find?_some h

/-- A change of the state in which the states of the bytes stay, and so do the entries for
bytes that are partly defined. -/
structure Keeps (s s' : Shadow) : Prop where
  quiet : Quiet s.maps s'.maps
  nodes : NodesOk s'.secVBitTable
  errors : s'.errors = s.errors
  entry : ∀ x < wordMod, vabits2At s.maps x = vaBits2Partdefined → entryAt s' x = entryAt s x

/-- **`gcSecVBitTable`** evicts no node that is needed. -/
theorem gcSecVBitTable_spec (h : s.maps.Inv) (hn : NodesOk s.secVBitTable) :
    ∃ s', gcSecVBitTable s = .ok s' ∧ Keeps s s' ∧ ∀ k, lookupSecVBitNode s.secVBitTable k = none →
      lookupSecVBitNode s'.secVBitTable k = none := by
  obtain ⟨maps', hrun, hq⟩ := gcTraverse_spec ((s.gcsDone + 1) % 2 ^ 32) h hn
  obtain ⟨limit, hgc⟩ : ∃ limit, gcSecVBitTable s = .ok { s with
      maps := maps'
      secVBitTable := s.secVBitTable.filter (survives ((s.gcsDone + 1) % 2 ^ 32) s.maps)
      gcsDone := (s.gcsDone + 1) % 2 ^ 32
      secVBitLimit := limit } := ⟨_, by rw [gcSecVBitTable, hrun]; rfl⟩
  refine ⟨_, hgc, ⟨hq, fun n hmem => ?_, rfl, fun x hx hp => ?_⟩, fun k hk => lookup_filter_none hk⟩
  · exact hn n (List.mem_of_mem_filter hmem)
  · unfold entryAt
    dsimp only
    cases hl : lookupSecVBitNode s.secVBitTable (roundDn x 16) with
    | none => rw [lookup_filter_none hl]
    | some n =>
      rw [lookup_filter hl]
      -- the byte itself is a reason to keep the node
      rw [survives, Bool.or_eq_true]
      refine .inr (List.any_eq_true.mpr ⟨x % 16, List.mem_range.mpr (Nat.mod_lt _ (by omega)), ?_⟩)
      have hxa : n.a + x % 16 = x := by
        rw [lookup_key hl, roundDn]
        have := Nat.mod_le x 16
        omega
      rw [hxa, decide_eq_true hp]

/-! ## V bits of a byte -/

theorem lookup_insert (h : lookupSecVBitNode table n.a = none) :
    lookupSecVBitNode (insertSecVBitNode n table) k =
      if n.a = k then some n else lookupSecVBitNode table k := by
  unfold lookupSecVBitNode at h ⊢
  induction table with
  | nil => by_cases hk : n.a = k <;> simp [insertSecVBitNode, hk]
  | cons m table ih =>
    have hm : m.a ≠ n.a := fun hm => by simp [hm] at h
    have hrest : table.find? (fun m => decide (m.a = n.a)) = none := by simpa [hm] using h
    rw [insertSecVBitNode]
    split
    · by_cases hk : n.a = k <;> simp [hk]
    · by_cases hmk : m.a = k
      · have hk : n.a ≠ k := fun hk => hm (hmk.trans hk.symm)
        simp [hmk, hk]
      · simpa [hmk] using ih hrest

theorem lookup_map {f : SecVBitNode → SecVBitNode} (hf : ∀ m, (f m).a = m.a) :
    lookupSecVBitNode (table.map f) k = (lookupSecVBitNode table k).map f := by
  unfold lookupSecVBitNode
  rw [List.find?_map]
  simp only [Function.comp_def, hf]

theorem roundDn_eq_iff : roundDn x 16 = roundDn a 16 ↔ x / 16 = a / 16 := by
  have := Nat.mod_le x 16
  have := Nat.mod_le a 16
  unfold roundDn
  omega

theorem mem_insert {m : SecVBitNode} (h : m ∈ insertSecVBitNode n table) : m = n ∨ m ∈ table := by
  induction table with
  | nil => simpa [insertSecVBitNode] using h
  | cons m' table ih =>
    rw [insertSecVBitNode] at h
    split at h
    · simpa using h
    · rcases List.mem_cons.mp h with rfl | h
      · simp
      · rcases ih h with h | h
        · exact .inl h
        · exact .inr (List.mem_cons_of_mem _ h)

/-- What `set_sec_vbits8` does: it sets the entry of one byte. -/
structure SetsEntry (s s' : Shadow) (a : Nat) (v : BitVec 8) : Prop where
  quiet : Quiet s.maps s'.maps
  nodes : NodesOk s'.secVBitTable
  errors : s'.errors = s.errors
  entry_self : entryAt s' a = some v
  entry_ne : ∀ x < wordMod, x ≠ a → vabits2At s.maps x = vaBits2Partdefined →
    ∀ w, entryAt s x = some w → entryAt s' x = some w

theorem nodesOk_roundDn (ha : a < wordMod) : roundDn a 16 % 16 = 0 ∧ roundDn a 16 < wordMod := by
  have := Nat.mod_le a 16
  unfold roundDn
  omega

/-- **`set_sec_vbits8`**. -/
theorem setSecVbits8_spec (h : s.maps.Inv) (hn : NodesOk s.secVBitTable) (ha : a < wordMod)
    (hv : v ≠ vBits8Defined ∧ v ≠ vBits8Undefined) :
    ∃ s', setSecVbits8 s a v = .ok s' ∧ SetsEntry s s' a v := by
  unfold setSecVbits8
  rw [assertThat_of hv, ok_bind]
  dsimp only
  cases hl : lookupSecVBitNode s.secVBitTable (roundDn a 16) with
  | some n =>
    refine ⟨_, rfl, .refl h, ?_, rfl, ?_, fun x hx hxa _ w hw => ?_⟩
    · intro m hm
      obtain ⟨m', hm', rfl⟩ := List.mem_map.mp hm
      have hok := hn m' hm'
      split <;> exact hok
    · have hkey := lookup_key hl
      simp only [entryAt]
      rw [lookup_map (fun m => by split <;> rfl), hl]
      simp [hkey]
    · simp only [entryAt] at hw ⊢
      rw [lookup_map (fun m => by split <;> rfl)]
      cases hlx : lookupSecVBitNode s.secVBitTable (roundDn x 16) with
      | none => simp [hlx] at hw
      | some m =>
        rw [hlx] at hw
        simp only [Option.map_some, Option.some.injEq] at hw ⊢
        split
        · rename_i hkey
          have hne : x % 16 ≠ a % 16 := by
            have hgroup := roundDn_eq_iff.mp ((lookup_key hlx).symm.trans hkey)
            omega
          dsimp only
          rw [Function.update_of_ne hne, hw]
        · exact hw
  | none =>
    obtain ⟨s₁, hgc, hk, hnone⟩ : ∃ s₁, (if s.secVBitLimit = s.secVBitTable.length
        then gcSecVBitTable s else pure s) = Except.ok s₁ ∧ Keeps s s₁ ∧
        lookupSecVBitNode s₁.secVBitTable (roundDn a 16) = none := by
      split
      · obtain ⟨s₁, hrun, hk, hnone⟩ := gcSecVBitTable_spec h hn
        exact ⟨s₁, hrun, hk, hnone _ hl⟩
      · exact ⟨s, rfl, ⟨.refl h, hn, rfl, fun _ _ _ => rfl⟩, hl⟩
    rw [hgc, ok_bind]
    refine ⟨_, rfl, hk.quiet, fun m hm => ?_, hk.errors, ?_, fun x hx hxa hp w hw => ?_⟩
    · rcases mem_insert hm with rfl | hm
      · exact nodesOk_roundDn ha
      · exact hk.nodes m hm
    · simp only [entryAt]
      rw [lookup_insert (by exact hnone), if_pos rfl]
      simp
    · rw [← hk.entry x hx hp] at hw
      simp only [entryAt] at hw ⊢
      have hgroup : roundDn a 16 ≠ roundDn x 16 := by
        intro hg
        rw [← hg, hnone] at hw
        simp at hw
      rw [lookup_insert (by exact hnone), if_neg (by exact hgroup)]
      exact hw

/-! ## The byte-wise specification -/

theorem Shadow.Rep.quiet (h : s.Rep A) {maps' : SecMaps} (hq : Quiet s.maps maps') :
    Shadow.Rep { s with maps := maps' } A :=
  ⟨hq.inv, h.nodes, fun x hx => hq.vabits2At.trans (h.state x hx), h.entry⟩

/-- A byte is given another state, and an entry if it needs one. -/
theorem Shadow.Rep.update {maps' : SecMaps} (h : s.Rep A) (s' : Shadow) (ha : a < wordMod)
    {o : Option (BitVec 8)} (hshows : Shows maps' (Function.update (vabits2At s'.maps) a (compress o)))
    (hq : Quiet s.maps s'.maps) (hn : NodesOk s'.secVBitTable)
    (hself : compress o = vaBits2Partdefined → entryAt s' a = o)
    (hne : ∀ x < wordMod, x ≠ a → vabits2At s.maps x = vaBits2Partdefined →
      ∀ w, entryAt s x = some w → entryAt s' x = some w) :
    Shadow.Rep { s' with maps := maps' } (Function.update A a o) := by
  refine ⟨hshows.inv, hn, fun x hx => ?_, fun x hx hp => ?_⟩
  · rw [hshows.at_eq x hx]
    by_cases hxa : x = a
    · rw [hxa, Function.update_self, Function.update_self]
    · rw [Function.update_of_ne hxa, Function.update_of_ne hxa, hq.vabits2At, h.state x hx]
  · by_cases hxa : x = a
    · subst hxa
      rw [Function.update_self] at hp ⊢
      exact hself hp
    · rw [Function.update_of_ne hxa] at hp ⊢
      obtain ⟨w, hw, -⟩ := eq_of_compress_partdefined hp
      rw [hw]
      exact hne x hx hxa (by rw [h.state x hx, hp]) w (by rw [h.entry x hx hp, hw])

/-- Store V bits into a byte; into one that is not accessible, nothing can be stored. -/
def storeByte (A : VBits) (a : Nat) (v : BitVec 8) : VBits :=
  if (A a).isSome then Function.update A a (some v) else A

/-- **`set_vbits8`** stores the V bits of a byte. -/
theorem setVbits8_spec (h : s.Rep A) (ha : a < wordMod) (v : BitVec 8) :
    Returns al (setVbits8 al s a v) fun (ok, s') =>
      ok = (A a).isSome ∧ s'.Rep (storeByte A a v) ∧ s'.errors = s.errors := by
  obtain ⟨maps₁, hget, hq₁⟩ := getVabits2_spec h.inv ha
  unfold setVbits8
  rw [hget, ok_bind, h.state a ha]
  have h₁ := h.quiet hq₁
  dsimp only
  by_cases hno : compress (A a) = vaBits2Noaccess
  · rw [if_neg (by simpa using hno)]
    have hnone := compress_eq_noaccess.mp hno
    refine .of_ok ⟨by rw [hnone]; rfl, ?_, rfl⟩
    rw [storeByte, hnone]
    exact h₁
  rw [if_pos hno]
  have hsome : (A a).isSome = true := by
    cases hA : A a with
    | none => exact absurd (by rw [hA]; rfl) hno
    | some w => rfl
  -- the new state, and a table that holds the V bits if they are needed
  obtain ⟨s₂, hrun, hq₂, hn₂, herr₂, hself₂, hne₂⟩ :
      ∃ s₂ : Shadow, (if v = vBits8Defined then pure (vaBits2Defined, { s with maps := maps₁ })
        else if v = vBits8Undefined then pure (vaBits2Undefined, { s with maps := maps₁ })
        else do
          let s ← setSecVbits8 { s with maps := maps₁ } a v
          pure (vaBits2Partdefined, s)) = Except.ok (compress (some v), s₂) ∧
      Quiet maps₁ s₂.maps ∧ NodesOk s₂.secVBitTable ∧ s₂.errors = s.errors ∧
      (compress (some v) = vaBits2Partdefined → entryAt s₂ a = some v) ∧
      ∀ x < wordMod, x ≠ a → vabits2At maps₁ x = vaBits2Partdefined →
        ∀ w, entryAt s x = some w → entryAt s₂ x = some w := by
    by_cases hdef : v = vBits8Defined
    · refine ⟨{ s with maps := maps₁ }, ?_, .refl hq₁.inv, h.nodes, rfl, fun hp => ?_, fun _ _ _ _ _ hw => hw⟩
      · rw [if_pos hdef, hdef]
        rfl
      · exact absurd hdef (compress_eq_partdefined.mp hp).1
    · rw [if_neg hdef]
      by_cases hundef : v = vBits8Undefined
      · refine ⟨{ s with maps := maps₁ }, ?_, .refl hq₁.inv, h.nodes, rfl, fun hp => ?_,
          fun _ _ _ _ _ hw => hw⟩
        · rw [if_pos hundef, hundef]
          rfl
        · exact absurd hundef (compress_eq_partdefined.mp hp).2
      · obtain ⟨s₂, hset, he⟩ := setSecVbits8_spec h₁.inv h₁.nodes ha ⟨hdef, hundef⟩
        refine ⟨s₂, ?_, he.quiet, he.nodes, he.errors, fun _ => he.entry_self, he.entry_ne⟩
        rw [if_neg hundef, hset, compress_eq_partdefined.mpr ⟨hdef, hundef⟩]
        rfl
  rw [hrun, ok_bind]
  refine (setVabits2_spec hq₂.inv ha (compress (some v))).bind fun maps₃ hshows => .of_ok ?_
  refine ⟨hsome.symm, ?_, herr₂⟩
  rw [storeByte, if_pos hsome]
  refine h.update s₂ ha hshows (hq₁.trans hq₂) hn₂ hself₂ fun x hx hxa hp => ?_
  exact hne₂ x hx hxa (hq₁.vabits2At.trans hp)

/-- **`get_sec_vbits8`** does not fail on a byte that is partly defined. -/
theorem getSecVbits8_spec (h : s.Rep A) (ha : a < wordMod) (hp : compress (A a) = vaBits2Partdefined) :
    ∃ v, getSecVbits8 s a = .ok v ∧ A a = some v := by
  obtain ⟨v, hv, hok⟩ := eq_of_compress_partdefined hp
  have he := h.entry a ha hp
  rw [hv, entryAt] at he
  unfold getSecVbits8
  cases hl : lookupSecVBitNode s.secVBitTable (roundDn a 16) with
  | none => simp [hl] at he
  | some n =>
    obtain rfl : n.vbits8 (a % 16) = v := by simpa [hl] using he
    exact ⟨_, by simp only [assertThat_of hok, ok_bind]; rfl, hv⟩

/-- **`get_vbits8`** returns the V bits of a byte. -/
theorem getVbits8_spec (h : s.Rep A) (ha : a < wordMod) :
    ∃ maps', getVbits8 s a = .ok ((A a).isSome, (A a).getD vBits8Defined, { s with maps := maps' }) ∧
      Quiet s.maps maps' := by
  obtain ⟨maps₁, hget, hq₁⟩ := getVabits2_spec h.inv ha
  refine ⟨maps₁, ?_, hq₁⟩
  unfold getVbits8
  rw [hget, ok_bind, h.state a ha]
  dsimp only
  cases hA : A a with
  | none => rfl
  | some v =>
    by_cases hdef : v = vBits8Defined
    · subst hdef
      rfl
    by_cases hundef : v = vBits8Undefined
    · subst hundef
      rfl
    have hp := compress_eq_partdefined.mpr ⟨hdef, hundef⟩
    obtain ⟨w, hrun, hw⟩ := getSecVbits8_spec (h.quiet hq₁) ha (by rw [hA, hp])
    obtain rfl : v = w := Option.some.inj (hA.symm.trans hw)
    rw [hp, if_neg (by decide), if_neg (by decide), if_neg (by decide), hrun]
    rfl

theorem initShadowMemory_rep : initShadowMemory.Rep fun _ => none := by
  refine ⟨initSecMaps_inv, by simp [initShadowMemory, NodesOk], fun x _ => vabits2At_init, fun x _ hp => ?_⟩
  simp [compress] at hp

end

end Memcheck

end Valgrind
