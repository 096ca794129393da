import Valgrind.MallocFree.Memalign

/-!
# Runs of the allocator

The state of a run is the heap and the list of payload pointers that are live:
handed out by a call and not given back since. An event is a call on the arena, or a
byte that somebody else writes, either into a live payload or outside the superblocks
of the arena.

`Tracked` is the invariant: the heap has a shape, and the live pointers are the
payloads of the blocks in use. It holds after `arena_init` and is kept by every event
(`step_tracked`), as long as the sizes that `arena_memalign` and `arena_realloc`
compute do not wrap around (`NoWrap`). Both functions check the size they are given,
not what they make of it.
-/

namespace Valgrind

namespace MallocFree

open ByteMem Machine Ring Intervals

/-- A call on the arena. -/
inductive Call where
  | malloc (cc req : Nat)
  | free (ptr : Nat)
  | memalign (cc align req : Nat)
  | realloc (cc ptr req : Nat)
  deriving DecidableEq, Repr

/-- What happens to the heap. During a call the address space manager is asked for at most
one superblock: `grant` is the request it is ready to meet, and the address it then returns.
`arrayOk` says whether there is memory for a bigger array of superblocks. -/
inductive Event where
  | call (c : Call) (grant : Option (Nat × Nat)) (arrayOk : Bool)
  | poke (addr : Nat) (byte : UInt8)

/-- The heap and the live payload pointers. -/
structure State where
  heap : Heap
  live : List Nat

/-- The address space manager's answer to a request for `size` bytes. -/
def sbrkOf (grant : Option (Nat × Nat)) (size : Nat) : Option Nat :=
  match grant with
  | some (n, p) => if size = n then some p else none
  | none => none

section

variable [Machine] (g : Config)

/-- A call: the pointer it returns (0 for `VG_(arena_free)`, which returns nothing) and the
heap it leaves behind. -/
def Call.run (h : Heap) (grant : Option (Nat × Nat)) (arrayOk : Bool) :
    Call → Result (Nat × Heap)
  | .malloc cc req => arenaMalloc g h cc req (sbrkOf grant) arrayOk
  | .free ptr => do
    let h ← arenaFree g h ptr
    pure (0, h)
  | .memalign cc align req => arenaMemalign g h cc align req (sbrkOf grant) arrayOk
  | .realloc cc ptr req => arenaRealloc g h cc ptr req (sbrkOf grant) arrayOk

/-- The live pointers after a call that returned `p`. -/
def Call.after (live : List Nat) (p : Nat) : Call → List Nat
  | .malloc _ _ => if p = 0 then live else p :: live
  | .free ptr => live.erase ptr
  | .memalign _ _ _ => if p = 0 then live else p :: live
  | .realloc _ ptr _ =>
    if p = ptr then live else if p = 0 then live.erase ptr else p :: live.erase ptr

/-- One event. -/
def step (s : State) : Event → Result State
  | .call c grant arrayOk => do
    let (p, heap) ← c.run g s.heap grant arrayOk
    pure { heap, live := c.after s.live p }
  | .poke addr byte => pure { s with heap := { s.heap with mem := fill s.heap.mem addr byte 1 } }

/-- The address `x` lies in the payload of the block with payload pointer `p`. -/
def InPayload (h : Heap) (p x : Nat) : Prop :=
  p ≤ x ∧ (arenaPayloadSzB g h p).holds (fun n => x < p + n)

instance (h : Heap) (p x : Nat) : Decidable (InPayload g h p x) :=
  inferInstanceAs (Decidable (_ ∧ _))

/-- What the address space manager hands out is a page-aligned range of addresses disjoint
from all superblocks of the arena. -/
def GrantOk (h : Heap) (grant : Option (Nat × Nat)) : Prop :=
  ∀ x ∈ grant, 0 < x.1 ∧ isPageAligned x.2 ∧ x.2 + x.1 < wordMod ∧
    ∀ sb ∈ h.arena.sblocks,
      x.2 + x.1 ≤ sb ∨ sb + sizeofSuperblock + nPayloadBytes g h.mem sb ≤ x.2

/-- The pointer that a call is about is live. -/
def Call.PtrOk (live : List Nat) : Call → Prop
  | .malloc _ _ => True
  | .free ptr => ptr = 0 ∨ ptr ∈ live
  | .memalign _ _ _ => True
  | .realloc _ ptr _ => ptr ∈ live

instance (live : List Nat) (c : Call) : Decidable (c.PtrOk live) :=
  match c with
  | .malloc _ _ => isTrue trivial
  | .free _ => inferInstanceAs (Decidable (_ ∨ _))
  | .memalign _ _ _ => isTrue trivial
  | .realloc _ _ _ => inferInstanceAs (Decidable (_ ∈ _))

/-- What the rest of the program owes the allocator. -/
def Admissible (s : State) : Event → Prop
  | .call c grant _ => GrantOk g s.heap grant ∧ c.PtrOk s.live
  | .poke addr _ => (∃ p ∈ s.live, InPayload g s.heap p addr) ∨
      ∀ sb ∈ s.heap.arena.sblocks,
        addr < sb ∨ sb + sizeofSuperblock + nPayloadBytes g s.heap.mem sb ≤ addr

/-- The sizes that `arena_memalign` and `arena_realloc` work with do not wrap around. For
`arena_realloc` that matters only if it has bytes to move. -/
def NoWrap (s : State) : Event → Prop
  | .call (.memalign _ align req) _ _ =>
    alignReqPszB req + overheadSzB g s.heap.arena + align < wordMod
  | .call (.realloc _ ptr req) _ _ =>
    req + 7 < wordMod ∨ (arenaPayloadSzB g s.heap ptr).holds fun old => req ≤ old || old = 0
  | _ => True

/-- An event of a run in which nothing wraps around. -/
def Sound (s : State) (e : Event) : Prop := Admissible g s e ∧ NoWrap g s e

instance (h : Heap) (grant : Option (Nat × Nat)) : Decidable (GrantOk g h grant) :=
  inferInstanceAs (Decidable (∀ x ∈ grant, _))

instance (s : State) (e : Event) : Decidable (Admissible g s e) :=
  match e with
  | .call _ _ _ => inferInstanceAs (Decidable (_ ∧ _))
  | .poke _ _ => inferInstanceAs (Decidable (_ ∨ _))

instance (s : State) (e : Event) : Decidable (NoWrap g s e) :=
  match e with
  | .call (.memalign _ _ _) _ _ => inferInstanceAs (Decidable (_ < _))
  | .call (.realloc _ _ _) _ _ => inferInstanceAs (Decidable (_ ∨ _))
  | .call (.malloc _ _) _ _ => isTrue trivial
  | .call (.free _) _ _ => isTrue trivial
  | .poke _ _ => isTrue trivial

instance (s : State) (e : Event) : Decidable (Sound g s e) := inferInstanceAs (Decidable (_ ∧ _))

variable (rz : Nat)

/-! ## The invariant -/

/-- The live pointers are the payloads of the blocks in use. -/
structure Tracked (s : State) (sbs : List Sblock) : Prop where
  ok : HeapOk g rz s.heap sbs
  nodup : s.live.Nodup
  live_iff : ∀ p, p ∈ s.live ↔ ∃ c ∈ cellsOf sbs, c.st = .used ∧ p = c.payload g rz

variable {g rz} {s s' : State} {h h' : Heap} {c d u : Cell} {sbs sbs' : List Sblock}
  {grant : Option (Nat × Nat)} {arrayOk : Bool} {cc req A p : Nat}

theorem GrantOk.sbrkOk (hg : GrantOk g h grant) : SbrkOk g h (sbrkOf grant) := by
  intro size q hq
  cases grant with
  | none => simp [sbrkOf] at hq
  | some x =>
    have hx := hg x rfl
    simp only [sbrkOf] at hq
    split at hq
    · rename_i hsize
      rw [Option.some.injEq] at hq
      rw [hsize, ← hq]
      exact hx
    · simp at hq

theorem Cell.Fits.payload_pos (F : c.Fits g rz) : 0 < c.payload g rz := by
  have hpos := F.pos
  unfold Cell.payload
  omega

/-- Two blocks of a heap have different payload pointers. -/
theorem HeapOk.eq_of_payload (O : HeapOk g rz h sbs) (hc : c ∈ cellsOf sbs) (hd : d ∈ cellsOf sbs)
    (he : c.payload g rz = d.payload g rz) : c = d := by
  refine O.marked.apart.eq_of_addr O.marked.fits O.marked.rzOk hc hd ?_
  unfold Cell.payload at he
  omega

/-- `VG_(arena_payload_szB)` of a block in use. -/
theorem HeapOk.arenaPayloadSzB_eq (O : HeapOk g rz h sbs) (hc : c ∈ cellsOf sbs)
    (hst : c.st = .used) : arenaPayloadSzB g h (c.payload g rz) = .ok (c.psz g rz) := by
  have F := O.marked.fits c hc
  have T := O.marked.tagged c hc (by simp [hst])
  rw [arenaPayloadSzB, getPayloadBlock_eq O.marked.rz_eq F]
  exact getPszB_eq O.marked.rzOk F T O.marked.rz_eq

theorem HeapOk.inPayload_iff (O : HeapOk g rz h sbs) (hc : c ∈ cellsOf sbs) (hst : c.st = .used)
    {x : Nat} : InPayload g h (c.payload g rz) x ↔
      c.payload g rz ≤ x ∧ x < c.payload g rz + c.psz g rz := by
  rw [InPayload, O.arenaPayloadSzB_eq hc hst]
  simp [Result.holds]

/-- The payload of a block lies between its admin sections. -/
theorem Cell.Fits.payload_bounds (F : c.Fits g rz) :
    c.addr ≤ c.payload g rz ∧ c.payload g rz + c.psz g rz ≤ c.stop := by
  have hroom := F.room
  unfold overhead at hroom
  unfold Cell.payload Cell.psz Cell.stop overhead
  omega

/-- A new block in use has a new payload pointer. -/
theorem Tracked.payload_fresh (T : Tracked g rz s sbs) (hA : Allocated g rz s.heap sbs u h' sbs') :
    u.payload g rz ∉ s.live := by
  intro hu
  obtain ⟨c, hc, hst, he⟩ := (T.live_iff _).mp hu
  have hc' : c ∈ cellsOf sbs' := (hA.others c hst).mpr (.inr hc)
  have huc := hA.ok.eq_of_payload hA.mem hc' he
  exact hA.fresh (huc ▸ hc)

theorem Tracked.allocated (T : Tracked g rz s sbs) (hA : Allocated g rz s.heap sbs u h' sbs') :
    Tracked g rz ⟨h', u.payload g rz :: s.live⟩ sbs' := by
  refine ⟨hA.ok, List.nodup_cons.mpr ⟨T.payload_fresh hA, T.nodup⟩, fun q => ?_⟩
  rw [List.mem_cons, T.live_iff]
  constructor
  · rintro (rfl | ⟨c, hc, hst, rfl⟩)
    · exact ⟨u, hA.mem, hA.used, rfl⟩
    · exact ⟨c, (hA.others c hst).mpr (.inr hc), hst, rfl⟩
  · rintro ⟨c, hc, hst, rfl⟩
    rcases (hA.others c hst).mp hc with rfl | hc
    · exact .inl rfl
    · exact .inr ⟨c, hc, hst, rfl⟩

theorem Tracked.mem_erase_iff (T : Tracked g rz s sbs) (hc : c ∈ cellsOf sbs) (q : Nat) :
    q ∈ s.live.erase (c.payload g rz) ↔
      ∃ d ∈ cellsOf sbs, d.st = .used ∧ d ≠ c ∧ q = d.payload g rz := by
  rw [T.nodup.mem_erase_iff, T.live_iff]
  constructor
  · rintro ⟨hne, d, hd, hst, rfl⟩
    exact ⟨d, hd, hst, fun he => hne (he ▸ rfl), rfl⟩
  · rintro ⟨d, hd, hst, hne, rfl⟩
    exact ⟨fun he => hne (T.ok.eq_of_payload hd hc he), d, hd, hst, rfl⟩

theorem Tracked.givenBack (T : Tracked g rz s sbs) (hc : c ∈ cellsOf sbs)
    (hG : GivenBack g rz s.heap sbs c h' sbs') :
    Tracked g rz ⟨h', s.live.erase (c.payload g rz)⟩ sbs' := by
  refine ⟨hG.ok, T.nodup.erase _, fun q => ?_⟩
  rw [T.mem_erase_iff hc]
  constructor
  · rintro ⟨d, hd, hst, hne, rfl⟩
    exact ⟨d, (hG.used d hst).mpr ⟨hd, hne⟩, hst, rfl⟩
  · rintro ⟨d, hd, hst, rfl⟩
    obtain ⟨hd, hne⟩ := (hG.used d hst).mp hd
    exact ⟨d, hd, hst, hne, rfl⟩

/-- A block that moves may in principle come back to where it was: `arena_realloc` cannot
tell, and nothing depends on it. -/
theorem Tracked.moved (T : Tracked g rz s sbs) (hc : c ∈ cellsOf sbs) (hst : c.st = .used)
    (hM : Moved g rz s.heap sbs c u h' sbs') :
    Tracked g rz ⟨h', (Call.realloc cc (c.payload g rz) req).after s.live (u.payload g rz)⟩ sbs' := by
  have hpos := (hM.ok.marked.fits u hM.mem).payload_pos
  have hmem : ∀ q, q = u.payload g rz ∨ q ∈ s.live.erase (c.payload g rz) ↔
      ∃ d ∈ cellsOf sbs', d.st = .used ∧ q = d.payload g rz := by
    intro q
    rw [T.mem_erase_iff hc]
    constructor
    · rintro (rfl | ⟨d, hd, hd', hne, rfl⟩)
      · exact ⟨u, hM.mem, hM.used, rfl⟩
      · exact ⟨d, (hM.others d hd').mpr (.inr ⟨hd, hne⟩), hd', rfl⟩
    · rintro ⟨d, hd, hd', rfl⟩
      rcases (hM.others d hd').mp hd with rfl | ⟨hd, hne⟩
      · exact .inl rfl
      · exact .inr ⟨d, hd, hd', hne, rfl⟩
  simp only [Call.after]
  split
  · rename_i he
    refine ⟨hM.ok, T.nodup, fun q => ?_⟩
    rw [← hmem, he, T.nodup.mem_erase_iff]
    by_cases hq : q = c.payload g rz
    · simp only [hq, true_or, iff_true]
      exact (T.live_iff _).mpr ⟨c, hc, hst, rfl⟩
    · simp [hq]
  · rw [if_neg (by omega)]
    refine ⟨hM.ok, List.nodup_cons.mpr ⟨?_, T.nodup.erase _⟩, fun q => ?_⟩
    · intro hu
      obtain ⟨d, hd, hd', hne, he⟩ := (T.mem_erase_iff hc _).mp hu
      have hd'' := (hM.others d hd').mpr (.inr ⟨hd, hne⟩)
      have hud := hM.ok.eq_of_payload hM.mem hd'' he
      exact hM.fresh (hud ▸ hd)
    · rw [← hmem, List.mem_cons]

/-- A byte written into a live payload or outside the arena. -/
theorem Tracked.poke (T : Tracked g rz s sbs) {addr : Nat} {byte : UInt8}
    (hA : Admissible g s (.poke addr byte)) :
    Tracked g rz { s with heap := { s.heap with mem := fill s.heap.mem addr byte 1 } } sbs := by
  refine ⟨?_, T.nodup, T.live_iff⟩
  rcases hA with ⟨p, hp, hin⟩ | hout
  · obtain ⟨c, hc, hst, rfl⟩ := (T.live_iff p).mp hp
    obtain ⟨hlo, hhi⟩ := (T.ok.inPayload_iff hc hst).mp hin
    exact T.ok.write_payload hc hst (fill_sameOff _ _ _ _) hlo hhi
  · exact T.ok.write_outside hout

/-! ## What a call does -/

variable (g rz) in
/-- The four things a call can do. -/
inductive Effect (s : State) (sbs : List Sblock) (c : Call) (p : Nat) (h' : Heap) : Prop where
  | none (hh : h' = s.heap) (hlive : c.after s.live p = s.live)
      (hstay : ∀ cc ptr req, c = .realloc cc ptr req → p = ptr)
  | alloc (u : Cell) (sbs' : List Sblock) (hA : Allocated g rz s.heap sbs u h' sbs')
      (hp : p = u.payload g rz) (hlive : c.after s.live p = p :: s.live)
      (hnew : ∀ cc ptr req, c ≠ .realloc cc ptr req)
  | free (x : Cell) (sbs' : List Sblock) (hx : x ∈ cellsOf sbs) (hst : x.st = .used)
      (hG : GivenBack g rz s.heap sbs x h' sbs')
      (hlive : c.after s.live p = s.live.erase (x.payload g rz)) (hp : p = 0)
  | move (x u : Cell) (sbs' : List Sblock) (cc req : Nat) (hx : x ∈ cellsOf sbs)
      (hst : x.st = .used) (hM : Moved g rz s.heap sbs x u h' sbs')
      (hc : c = .realloc cc (x.payload g rz) req) (hp : p = u.payload g rz)

theorem Tracked.arenaMalloc (T : Tracked g rz s sbs) (hg : GrantOk g s.heap grant)
    (H : (Call.malloc cc req).run g s.heap grant arrayOk = .ok (p, h')) :
    Effect g rz s sbs (.malloc cc req) p h' := by
  rcases arenaMalloc_spec T.ok hg.sbrkOk H with ⟨rfl, rfl⟩ | ⟨k, u, rest, hH, rfl, -, -⟩
  · exact .none rfl rfl (by simp)
  · have hA := hH.allocated
    have hpos := (hA.ok.marked.fits u hA.mem).payload_pos
    exact .alloc u _ hA rfl (if_neg (by omega)) (by simp)

theorem Tracked.arenaMemalign (T : Tracked g rz s sbs) (hg : GrantOk g s.heap grant)
    (hw : NoWrap g s (.call (.memalign cc A req) grant arrayOk))
    (H : (Call.memalign cc A req).run g s.heap grant arrayOk = .ok (p, h')) :
    Effect g rz s sbs (.memalign cc A req) p h' := by
  simp only [NoWrap, overheadSzB_eq, T.ok.marked.rz_eq] at hw
  rcases arenaMemalign_spec T.ok hg.sbrkOk hw H with ⟨rfl, rfl⟩ | ⟨u, sbs', hA, rfl, -, -⟩
  · exact .none rfl rfl (by simp)
  · have hpos := (hA.ok.marked.fits u hA.mem).payload_pos
    exact .alloc u _ hA rfl (if_neg (by omega)) (by simp)

theorem Tracked.arenaFree (T : Tracked g rz s sbs) {ptr : Nat}
    (hptr : (Call.free ptr).PtrOk s.live)
    (H : (Call.free ptr).run g s.heap grant arrayOk = .ok (p, h')) :
    Effect g rz s sbs (.free ptr) p h' := by
  simp only [Call.run, bind_eq_ok, pure_eq_ok, Prod.mk.injEq] at H
  obtain ⟨h₁, hfree, rfl, rfl⟩ := H
  by_cases h0 : ptr = 0
  · subst h0
    have hnot : (0 : Nat) ∉ s.live := by
      intro hin
      obtain ⟨c, hc, -, he⟩ := (T.live_iff 0).mp hin
      have := (T.ok.marked.fits c hc).payload_pos
      omega
    simp only [MallocFree.arenaFree, if_true, pure_eq_ok] at hfree
    exact .none hfree.symm (List.erase_of_not_mem hnot) (by simp)
  · obtain ⟨c, hc, hst, rfl⟩ := (T.live_iff ptr).mp (hptr.resolve_left h0)
    obtain ⟨k, rfl⟩ := exists_place hc
    obtain ⟨sbs', hG⟩ := arenaFree_spec T.ok hst hfree
    exact .free c sbs' hc hst hG rfl rfl

theorem Tracked.arenaRealloc (T : Tracked g rz s sbs) (hg : GrantOk g s.heap grant) {ptr : Nat}
    (hptr : (Call.realloc cc ptr req).PtrOk s.live)
    (hw : NoWrap g s (.call (.realloc cc ptr req) grant arrayOk))
    (H : (Call.realloc cc ptr req).run g s.heap grant arrayOk = .ok (p, h')) :
    Effect g rz s sbs (.realloc cc ptr req) p h' := by
  obtain ⟨c, hc, hst, rfl⟩ := (T.live_iff ptr).mp hptr
  have hpos := (T.ok.marked.fits c hc).payload_pos
  have hreq : req + 7 < wordMod ∨ req ≤ c.psz g rz ∨ c.psz g rz = 0 := by
    simpa [NoWrap, T.ok.arenaPayloadSzB_eq hc hst, Result.holds] using hw
  rcases arenaRealloc_spec T.ok hc hst hg.sbrkOk hreq H with
    ⟨rfl, rfl, -⟩ | ⟨rfl, -, sbs', hG⟩ | ⟨u, sbs', hM, rfl⟩
  · exact .none rfl (if_pos rfl) (by rintro _ _ _ ⟨⟩; rfl)
  · refine .free c sbs' hc hst hG ?_ rfl
    simp only [Call.after]
    rw [if_neg (by omega), if_pos trivial]
  · exact .move c u sbs' cc req hc hst hM rfl rfl

/-- **Every call has one of the four effects.** -/
theorem Tracked.effect (T : Tracked g rz s sbs) {c : Call}
    (hS : Sound g s (.call c grant arrayOk)) (H : c.run g s.heap grant arrayOk = .ok (p, h')) :
    Effect g rz s sbs c p h' := by
  obtain ⟨⟨hg, hptr⟩, hw⟩ := hS
  cases c with
  | malloc cc req => exact T.arenaMalloc hg H
  | free ptr => exact T.arenaFree hptr H
  | memalign cc align req => exact T.arenaMemalign hg hw H
  | realloc cc ptr req => exact T.arenaRealloc hg hptr hw H

theorem Tracked.call (T : Tracked g rz s sbs) {c : Call}
    (hE : Effect g rz s sbs c p h') : ∃ sbs', Tracked g rz ⟨h', c.after s.live p⟩ sbs' := by
  cases hE with
  | none hh hlive =>
    rw [hh, hlive]
    exact ⟨sbs, T⟩
  | alloc u sbs' hA hp hlive =>
    rw [hlive, hp]
    exact ⟨sbs', T.allocated hA⟩
  | free x sbs' hx hst hG hlive =>
    rw [hlive]
    exact ⟨sbs', T.givenBack hx hG⟩
  | move x u sbs' cc req hx hst hM hc hp =>
    subst hc hp
    exact ⟨sbs', T.moved hx hst hM⟩

/-- Every event of a run in which nothing wraps around keeps the invariant. -/
theorem step_tracked {e : Event} (hT : ∃ sbs, Tracked g rz s sbs) (hS : Sound g s e)
    (H : step g s e = .ok s') : ∃ sbs, Tracked g rz s' sbs := by
  obtain ⟨sbs, T⟩ := hT
  cases e with
  | call c grant arrayOk =>
    simp only [step, bind_eq_ok, Prod.exists, pure_eq_ok] at H
    obtain ⟨p, h', hrun, rfl⟩ := H
    exact T.call (T.effect hS hrun)
  | poke addr byte =>
    simp only [step, pure_eq_ok] at H
    subst H
    exact ⟨sbs, T.poke hS.1⟩

/-! ## Whole runs -/

theorem elasticRzSzB_bounds (turns z : Nat) :
    z ≤ elasticRzSzB g turns z ∧ elasticRzSzB g turns z ≤ z + turns := by
  induction turns generalizing z with
  | zero => simp [elasticRzSzB]
  | succ turns ih =>
    unfold elasticRzSzB
    split
    · have := ih (z + 1)
      omega
    · omega

/-- What `arena_init` makes of the red-zone size it is given. -/
theorem arenaInit_rzOk {clientmem : Bool} {z min : Nat} {a : Arena}
    (H : arenaInit g clientmem z min = .ok a) : RzOk g a.rzSzB ∧ a.sblocks = [] ∧
      a.bytesOnLoan = 0 ∧ ∀ lno, a.freelist lno = 0 := by
  simp only [arenaInit, bind_eq_ok, assertThat_eq_ok, pure_eq_ok] at H
  obtain ⟨_, hz, _, -, _, hlo, _, hhi, rfl⟩ := H
  refine ⟨⟨?_, Nat.dvd_of_mod_eq_zero hlo, Nat.dvd_of_mod_eq_zero hhi, ?_⟩, rfl, rfl, fun _ => rfl⟩
  · refine Nat.le_trans ?_ (elasticRzSzB_bounds _ _).1
    split <;> omega
  · have hword : wordB = 4 ∨ wordB = 8 := word_ok
    have hhp := hpOverheadSzB_cases (g := g)
    have hup := (elasticRzSzB_bounds (g := g) (minMallocSzB - 1) (if z < wordB then wordB else z)).2
    have hmax : (if z < wordB then wordB else z) ≤ 127 := by
      split <;> omega
    unfold minMallocSzB at hup
    unfold overhead minMallocSzB
    dsimp only
    omega

/-- An arena fresh from `arena_init` has no blocks. -/
theorem tracked_init {clientmem : Bool} {z min : Nat} {a : Arena}
    (H : arenaInit g clientmem z min = .ok a) (m : Mem) : Tracked g a.rzSzB ⟨⟨m, a⟩, []⟩ [] := by
  obtain ⟨hz, hsb, hloan, hfl⟩ := arenaInit_rzOk H
  refine ⟨⟨⟨⟨⟨hz, List.Pairwise.nil, by simp [cellsOf]⟩, rfl, by simp [cellsOf], fun lno => ?_⟩,
    ⟨by simpa using hsb, List.Pairwise.nil, by simp, by simp⟩, by simp⟩, by simp [cellsOf], by simp,
    hloan⟩, List.nodup_nil, by simp [cellsOf]⟩
  exact ⟨Cycle.nil, ⟨isRing_nil, .inl ⟨rfl, hfl lno⟩⟩, by simp [OnList, cellsOf]⟩

variable (g) in
/-- The states that runs reach, from `arena_init` and an arbitrary memory, by events that
meet `P`. -/
def Reached (P : State → Event → Prop) (a : Arena) (s : State) : Prop :=
  ∃ m es, runMeets (step g) P ⟨⟨m, a⟩, []⟩ es ∧ runSteps (step g) ⟨⟨m, a⟩, []⟩ es = .ok s

/-- **The invariant of all runs in which nothing wraps around.** -/
theorem reached_tracked {clientmem : Bool} {z min : Nat} {a : Arena}
    (H : arenaInit g clientmem z min = .ok a) (hR : Reached g (Sound g) a s) :
    ∃ sbs, Tracked g a.rzSzB s sbs := by
  obtain ⟨m, es, hP, hrun⟩ := hR
  exact runSteps_inv_of_meets (fun hT hS hs => step_tracked hT hS hs) ⟨[], tracked_init H m⟩ hP hrun

end

/-! ## The client's arena on x86 -/

/-- A little-endian host without heap profiling. -/
def plainConfig : Config := ⟨.little, false, fun _ => 1, fun _ _ => .ok ()⟩

/-- The client's arena on x86, with the red zones that Memcheck asks for: a block has 32
bytes of overhead. -/
def clientArena : Arena := ⟨true, 12, 1048576, fun _ => 0, [], 50, 0, 0, 0, 25000000⟩

/-- The client's arena before the first call. -/
def clientStart : State := ⟨⟨fun _ => 0, clientArena⟩, []⟩

theorem arenaInit_clientArena :
    letI : Machine := x86Linux
    arenaInit plainConfig true 8 1048576 = .ok clientArena := rfl

/-- A run of the client's arena on x86 by events that meet `P`, to a state that passes a test. -/
structure ClientRun (P : State → Event → Prop) where
  events : List Event
  test : State → Bool
  passes : letI : Machine := x86Linux
    runMeets (step plainConfig) P clientStart events ∧
      (runSteps (step plainConfig) clientStart events).holds test = true

theorem ClientRun.exists_reached {P : State → Event → Prop} (r : ClientRun P) :
    letI : Machine := x86Linux
    ∃ s, Reached plainConfig P clientArena s ∧ r.test s = true := by
  obtain ⟨s, hs, ht⟩ := Result.exists_of_holds r.passes.2
  exact ⟨s, ⟨_, r.events, r.passes.1, hs⟩, ht⟩

end MallocFree

end Valgrind
