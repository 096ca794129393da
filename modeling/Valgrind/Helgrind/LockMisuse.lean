import Valgrind.Helgrind.LockEvents
import Valgrind.Helgrind.LockGraphRuns

/-!
# What a client can do with its locks

Whatever the client does, the locks stay sane and the lock sets of the threads are the locks
that the threads hold. The handlers reject what the library cannot have granted, with one
exception: taking a mutex for reading by way of the reader-writer calls fails an assertion.
`lockEvents_run` and `locksets_mirror` are the results.
-/

namespace Valgrind

namespace Helgrind

open Relation

section

variable {ε : Type} {env : LockEnv ε} {st st' : LockState ε} {lk lk' : LockN ε} {thr p ga tid : Nat}
  {threads threads' : Nat → Option HgThread} {bag : Multiset Nat} {isW : Bool}

/-! ## Sane locks -/

/-- The thread holds the lock. -/
def LockN.HeldBy (lk : LockN ε) (thr : Nat) : Prop := ∃ bag, lk.heldBy = some bag ∧ thr ∈ bag

/-- A lock is sane, and one thread at most has it for writing. -/
structure LockN.Ok (threads : Nat → Option HgThread) (lk : LockN ε) : Prop where
  sane : lk.isSane threads = true
  single : lk.heldW = true → ∀ bag, lk.heldBy = some bag → bag.toFinset.card = 1

theorem LockN.not_heldBy (h : lk.heldBy = none) : ¬ lk.HeldBy thr := by
  rintro ⟨bag, hbag, -⟩
  exact nomatch h.symm.trans hbag

theorem LockN.heldBy_iff (h : lk.heldBy = some bag) : lk.HeldBy thr ↔ thr ∈ bag := by
  constructor
  · rintro ⟨bag', hbag', hmem⟩
    rwa [Option.some.inj (h.symm.trans hbag')]
  · exact fun hmem => ⟨bag, h, hmem⟩

theorem isSane_unheld (h : lk.heldBy = none) : lk.isSane threads = true ↔ lk.acquiredAt = none ∧ lk.heldW = false := by
  rw [LockN.isSane, h]
  simp

theorem isSane_held (h : lk.heldBy = some bag) : lk.isSane threads = true ↔
    lk.acquiredAt.isSome ∧ bag ≠ 0 ∧ (∀ t ∈ bag, (threads t).isSome) ∧
      (lk.heldW = true → lk.kind = .mbRec ∨ bag.card = 1) ∧ (lk.heldW = false → lk.kind = .rdwr) := by
  rw [LockN.isSane, h]
  cases lk.heldW <;> simp [and_assoc]

/-- Only which threads there are matters. -/
theorem LockN.Ok.congr (h : lk.Ok threads) (ht : ∀ t, (threads' t).isSome = (threads t).isSome) : lk.Ok threads' := by
  refine ⟨?_, h.single⟩
  have hsane := h.sane
  unfold LockN.isSane at hsane ⊢
  simpa only [ht] using hsane

theorem LockN.Ok.acquired (h : lk.Ok threads) (hheld : lk.HeldBy thr) : lk.acquiredAt.isSome := by
  obtain ⟨bag, hbag, -⟩ := hheld
  exact ((isSane_held hbag).mp h.sane).1

/-- A lock nobody holds. -/
theorem ok_unheld (hheld : lk.heldBy = none) (hacq : lk.acquiredAt = none) (hW : lk.heldW = false) : lk.Ok threads :=
  ⟨(isSane_unheld hheld).mpr ⟨hacq, hW⟩, fun _ _ hbag => nomatch hheld.symm.trans hbag⟩

/-! ## Taking a lock and giving it back -/

/-- The thread has taken the lock, for writing or for reading. -/
structure Took (threads : Nat → Option HgThread) (lk lk' : LockN ε) (thr : Nat) (isW : Bool) : Prop where
  ok : lk'.Ok threads
  guestaddr : lk'.guestaddr = lk.guestaddr
  heldW : lk'.heldW = isW
  holders : ∀ t, lk'.HeldBy t ↔ t = thr ∨ lk.HeldBy t
  before : ∀ t, lk.HeldBy t → lk.heldW = isW

/-- The threads that events are about. -/
structure Known (st : LockState ε) (thr : Nat) : Prop where
  zero : st.mapThreads 0 = none
  thread : (st.threads thr).isSome

theorem maybeReverseLookup_spec (h : Known st thr) : ∃ tid, st.maybeReverseLookup thr = .ok tid := by
  rw [LockState.maybeReverseLookup, assertThat_of h.thread, ok_bind, assertThat_of (by rw [h.zero]; rfl), ok_bind]
  exact ⟨_, rfl⟩

/-- A held lock keeps its place of acquisition. -/
theorem noteAcquired_spec (env : LockEnv ε) (h : Known st thr) (hok : lk.Ok threads) :
    ∃ e, noteAcquired env st lk thr = .ok { lk with acquiredAt := some e } := by
  have hsane := hok.sane
  rw [noteAcquired]
  rcases Option.eq_none_or_eq_some lk.heldBy with hheld | ⟨bag, hheld⟩
  · obtain ⟨hacq, -⟩ := (isSane_unheld hheld).mp hsane
    obtain ⟨tid, htid⟩ := maybeReverseLookup_spec h
    refine ⟨env.context tid, ?_⟩
    rw [hacq]
    simp only [hheld, Option.isNone_none, assertThat_of, ok_bind, htid]
    rfl
  · obtain ⟨e, hacq⟩ := Option.isSome_iff_exists.mp ((isSane_held hheld).mp hsane).1
    have hself : ({ lk with acquiredAt := some e } : LockN ε) = lk := by rw [← hacq]
    refine ⟨e, ?_⟩
    rw [hself, hacq]
    simp only [hheld, Option.isSome_some, assertThat_of, ok_bind]
    rfl

/-- **`lockN_acquire_writer`**, of a lock that nobody holds, or once more of a recursive one. -/
theorem lockNAcquireWriter_spec (env : LockEnv ε) (h : Known st thr) (hok : lk.Ok st.threads)
    (hfree : lk.heldBy = none ∨ lk.kind = .mbRec ∧ lk.heldW = true ∧ lk.HeldBy thr) :
    ∃ lk', lockNAcquireWriter env st lk thr = .ok lk' ∧ Took st.threads lk lk' thr true := by
  obtain ⟨e, hnote⟩ := noteAcquired_spec env h hok
  suffices hkind : ∃ lk', acquireByKind { lk with acquiredAt := some e } thr = .ok lk' ∧ Took st.threads lk lk' thr true by
    obtain ⟨lk', hrun, htook⟩ := hkind
    refine ⟨lk', ?_, htook⟩
    rw [lockNAcquireWriter, assertThat_of hok.sane, ok_bind, assertThat_of h.thread, ok_bind, hnote, ok_bind, hrun, ok_bind,
      assertThat_of htook.ok.sane]
    rfl
  rcases hfree with hheld | ⟨hkind, hW, bag, hbag, hmem⟩
  · obtain ⟨-, hW⟩ := (isSane_unheld hheld).mp hok.sane
    refine ⟨{ lk with acquiredAt := some e, heldW := true, heldBy := some {thr} }, ?_, ⟨?_, ?_⟩, rfl, rfl, fun t => ?_, ?_⟩
    · unfold acquireByKind acquireUnheld
      simp only [hheld, hW, Option.isNone_none, and_self, assertThat_of, ok_bind]
      cases lk.kind <;> rfl
    · rw [isSane_held rfl]
      simp [h.thread]
    · rintro - bag hbag
      obtain rfl := Option.some.inj hbag
      simp
    · rw [LockN.heldBy_iff rfl, Multiset.mem_singleton, or_iff_left (LockN.not_heldBy hheld)]
    · exact fun t ht => absurd ht (LockN.not_heldBy hheld)
  · have hone := hok.single hW bag hbag
    obtain ⟨owner, howner⟩ := Finset.card_eq_one.mp hone
    have hall : ∀ t ∈ bag, t = thr := by
      intro t ht
      have h₁ : t ∈ bag.toFinset := Multiset.mem_toFinset.mpr ht
      have h₂ : thr ∈ bag.toFinset := Multiset.mem_toFinset.mpr hmem
      rw [howner, Finset.mem_singleton] at h₁ h₂
      rw [h₁, h₂]
    obtain ⟨-, -, hthreads, -, -⟩ := (isSane_held hbag).mp hok.sane
    refine ⟨{ lk with acquiredAt := some e, heldBy := some (thr ::ₘ bag) }, ?_, ⟨?_, ?_⟩, rfl, hW, fun t => ?_, fun _ _ => hW⟩
    · have hcount : bag.count thr = bag.card := Multiset.count_eq_card.mpr fun t ht => (hall t ht).symm
      unfold acquireByKind
      simp only [hkind, hbag, hW, hone, hcount, assertThat_of, ok_bind]
      rfl
    · rw [isSane_held rfl]
      refine ⟨rfl, Multiset.cons_ne_zero, ?_, fun _ => .inl hkind, fun hf => nomatch hf.symm.trans hW⟩
      exact Multiset.forall_mem_cons.mpr ⟨h.thread, hthreads⟩
    · rintro - bag' hbag'
      obtain rfl := Option.some.inj hbag'
      rw [Multiset.toFinset_cons, Finset.insert_eq_of_mem (Multiset.mem_toFinset.mpr hmem), hone]
    · rw [LockN.heldBy_iff rfl, LockN.heldBy_iff hbag, Multiset.mem_cons]

/-- **`lockN_acquire_reader`**, of a reader-writer lock that nobody has for writing. -/
theorem lockNAcquireReader_spec (env : LockEnv ε) (h : Known st thr) (hok : lk.Ok st.threads)
    (hkind : lk.kind = .rdwr) (hW : lk.heldW = false) :
    ∃ lk', lockNAcquireReader env st lk thr = .ok lk' ∧ Took st.threads lk lk' thr false := by
  obtain ⟨e, hnote⟩ := noteAcquired_spec env h hok
  rw [lockNAcquireReader, assertThat_of hok.sane, ok_bind, assertThat_of h.thread, ok_bind, assertThat_of hkind, ok_bind,
    assertThat_of (.inr hW), ok_bind, hnote, ok_bind]
  simp only
  cases hheld : lk.heldBy with
  | none =>
    have htook : Took st.threads lk { lk with acquiredAt := some e, heldW := false, heldBy := some {thr} } thr false := by
      refine ⟨⟨?_, fun hf => nomatch hf⟩, rfl, rfl, fun t => ?_, fun t ht => absurd ht (LockN.not_heldBy hheld)⟩
      · rw [isSane_held rfl]
        simp [h.thread, hkind]
      · rw [LockN.heldBy_iff rfl, Multiset.mem_singleton, or_iff_left (LockN.not_heldBy hheld)]
    refine ⟨_, ?_, htook⟩
    simp only [assertThat_of, ok_bind]
    rw [assertThat_of htook.ok.sane]
    rfl
  | some bag =>
    obtain ⟨-, -, hthreads, -, -⟩ := (isSane_held hheld).mp hok.sane
    have htook : Took st.threads lk { lk with acquiredAt := some e, heldBy := some (thr ::ₘ bag) } thr false := by
      refine ⟨⟨?_, fun hf => nomatch hW.symm.trans hf⟩, rfl, hW, fun t => ?_, fun _ _ => hW⟩
      · rw [isSane_held rfl]
        exact ⟨rfl, Multiset.cons_ne_zero, Multiset.forall_mem_cons.mpr ⟨h.thread, hthreads⟩,
          fun hf => (nomatch hW.symm.trans hf), fun _ => hkind⟩
      · rw [LockN.heldBy_iff rfl, LockN.heldBy_iff hheld, Multiset.mem_cons]
    refine ⟨_, ?_, htook⟩
    simp only [hW, assertThat_of, ok_bind]
    rw [assertThat_of (by simpa only [hW] using htook.ok.sane)]
    rfl

/-- A lock of another kind. -/
theorem lockNAcquireReader_fails (h : Known st thr) (hok : lk.Ok st.threads) (hkind : lk.kind ≠ .rdwr) :
    lockNAcquireReader env st lk thr = .error .assertFailed := by
  rw [lockNAcquireReader, assertThat_of hok.sane, ok_bind, assertThat_of h.thread, ok_bind, assertThat, if_neg hkind]
  rfl

/-- The lock when one of its holders has given it back. -/
def LockN.without (lk : LockN ε) (bag : Multiset Nat) (thr : Nat) : LockN ε :=
  if bag.erase thr = 0 then { lk with heldBy := none, heldW := false, acquiredAt := none }
  else { lk with heldBy := some (bag.erase thr) }

theorem LockN.Ok.without (hok : lk.Ok threads) (hbag : lk.heldBy = some bag) (hmem : thr ∈ bag) :
    (lk.without bag thr).Ok threads := by
  unfold LockN.without
  split
  · exact ok_unheld rfl rfl rfl
  · next hne =>
    obtain ⟨hacq, -, hthreads, hW, hR⟩ := (isSane_held hbag).mp hok.sane
    refine ⟨(isSane_held rfl).mpr ⟨hacq, hne, fun t ht => hthreads t (Multiset.mem_of_mem_erase ht), fun hw => ?_, hR⟩,
      fun hw bag' hbag' => ?_⟩
    · refine (hW hw).imp_right fun hcard => absurd ?_ hne
      rw [← Multiset.card_eq_zero, Multiset.card_erase_of_mem hmem, hcard]
      rfl
    · obtain rfl := Option.some.inj hbag'
      have hone := hok.single hw bag hbag
      refine le_antisymm (hone ▸ Finset.card_le_card (Multiset.toFinset_subset.mpr (Multiset.erase_subset thr bag))) ?_
      exact Finset.card_pos.mpr (Multiset.toFinset_nonempty.mpr hne)

/-- **`lockN_release`** by one of the holders. -/
theorem lockNRelease_spec (h : Known st thr) (hok : lk.Ok st.threads) (hbag : lk.heldBy = some bag) (hmem : thr ∈ bag) :
    lockNRelease st lk thr = .ok (lk.without bag thr) := by
  obtain ⟨hacq, -⟩ := (isSane_held hbag).mp hok.sane
  rw [lockNRelease, assertThat_of hok.sane, ok_bind, assertThat_of h.thread, ok_bind, hbag]
  simp only [hmem, hacq, assertThat_of, ok_bind]
  rw [← LockN.without, assertThat_of (hok.without hbag hmem).sane]
  rfl

theorem LockN.without_heldBy (bag : Multiset Nat) (thr t : Nat) :
    (lk.without bag thr).HeldBy t ↔ t ∈ bag.erase thr := by
  unfold LockN.without
  split
  · next h0 =>
    rw [h0]
    exact iff_of_false (LockN.not_heldBy rfl) (Multiset.notMem_zero t)
  · exact LockN.heldBy_iff rfl

/-! ## The lock sets -/

/-- The set has these words. -/
def Denotes (univ : WordSetU) (ws : WordSet) (P : Nat → Prop) : Prop := ∃ S, univ.den ws = some S ∧ ∀ p, p ∈ S ↔ P p

variable {univ univ' : WordSetU} {ws : WordSet} {P Q : Nat → Prop} {t : HgThread} {A W A' W' : Nat → Nat → Prop}

theorem Denotes.grow (h : Denotes univ ws P) (hgrows : univ.ix2vec <+: univ'.ix2vec) (hPQ : ∀ p, P p ↔ Q p) :
    Denotes univ' ws Q := by
  obtain ⟨S, hS, hmem⟩ := h
  exact ⟨S, den_grows hgrows hS, fun p => (hmem p).trans (hPQ p)⟩

theorem Denotes.elem (h : Denotes univ ws P) (hp : P p) : elemWS univ ws p = .ok true := by
  obtain ⟨S, hS, hmem⟩ := h
  rw [elemWS_den hS, decide_eq_true ((hmem p).mpr hp)]

theorem Denotes.not_elem (h : Denotes univ ws P) (hp : ¬ P p) : elemWS univ ws p = .ok false := by
  obtain ⟨S, hS, hmem⟩ := h
  rw [elemWS_den hS, decide_eq_false fun hin => hp ((hmem p).mp hin)]

/-- A call that changes a set. -/
def Alters (call : Result (WordSetU × WordSet)) (univ : WordSetU) (P : Nat → Prop) : Prop :=
  ∃ univ' ws', call = .ok (univ', ws') ∧ univ'.Inv ∧ univ.ix2vec <+: univ'.ix2vec ∧ Denotes univ' ws' P

theorem Denotes.add (h : Denotes univ ws P) (hinv : univ.Inv) (p : Nat) :
    Alters (addToWS univ ws p) univ fun q => q = p ∨ P q := by
  obtain ⟨S, hS, hmem⟩ := h
  obtain ⟨univ', ws', hrun, hgives⟩ := addToWS_returns hinv hS p
  exact ⟨univ', ws', hrun, hgives.inv, hgives.grows, _, hgives.den, fun q => by rw [Finset.mem_insert, hmem]⟩

theorem Denotes.del (h : Denotes univ ws P) (hinv : univ.Inv) (p : Nat) :
    Alters (delFromWS univ ws p) univ fun q => q ≠ p ∧ P q := by
  obtain ⟨S, hS, hmem⟩ := h
  obtain ⟨univ', ws', hrun, hgives⟩ := delFromWS_returns hinv hS p
  exact ⟨univ', ws', hrun, hgives.inv, hgives.grows, _, hgives.den, fun q => by rw [Finset.mem_erase, hmem]⟩

/-- The lock sets of all threads: the locks that a thread has, and those that it has for
writing. -/
structure Sets (univ : WordSetU) (threads : Nat → Option HgThread) (A W : Nat → Nat → Prop) : Prop where
  inv : univ.Inv
  setA : ∀ thr t, threads thr = some t → Denotes univ t.locksetA (A thr)
  setW : ∀ thr t, threads thr = some t → Denotes univ t.locksetW (W thr)

/-- One thread gets new sets. -/
theorem Sets.update (h : Sets univ threads A W) (thr : Nat) (t : HgThread) (A' W' : Nat → Nat → Prop)
    (hinv : univ'.Inv) (hgrows : univ.ix2vec <+: univ'.ix2vec)
    (hA : Denotes univ' t.locksetA (A' thr)) (hW : Denotes univ' t.locksetW (W' thr))
    (hothers : ∀ u ≠ thr, ∀ q, (A u q ↔ A' u q) ∧ (W u q ↔ W' u q)) :
    Sets univ' (Function.update threads thr (some t)) A' W' := by
  refine ⟨hinv, fun u t' hu => ?_, fun u t' hu => ?_⟩
  · by_cases hut : u = thr
    · subst hut
      rw [Function.update_self] at hu
      rwa [← Option.some.inj hu]
    · rw [Function.update_of_ne hut] at hu
      exact (h.setA u t' hu).grow hgrows fun q => (hothers u hut q).1
  · by_cases hut : u = thr
    · subst hut
      rw [Function.update_self] at hu
      rwa [← Option.some.inj hu]
    · rw [Function.update_of_ne hut] at hu
      exact (h.setW u t' hu).grow hgrows fun q => (hothers u hut q).2

theorem Sets.congr (h : Sets univ threads A W) (hA : ∀ u q, A u q ↔ A' u q) (hW : ∀ u q, W u q ↔ W' u q) :
    Sets univ threads A' W' :=
  ⟨h.inv, fun u t hu => (h.setA u t hu).grow List.prefix_rfl (hA u), fun u t hu => (h.setW u t hu).grow List.prefix_rfl (hW u)⟩

/-! ## The invariant -/

/-- The thread has the lock. -/
def LockState.InA (st : LockState ε) (thr p : Nat) : Prop := p < st.nLocks ∧ (st.locks p).HeldBy thr

/-- The thread has the lock for writing. -/
def LockState.InW (st : LockState ε) (thr p : Nat) : Prop := st.InA thr p ∧ (st.locks p).heldW = true

/-- What holds between two events. -/
structure LockInv (st : LockState ε) : Prop where
  sets : Sets st.univLsets st.threads st.InA st.InW
  graph : ∃ R, Graph st.laog R
  zero : st.mapThreads 0 = none
  live : ∀ tid thr, st.mapThreads tid = some thr → (st.threads thr).isSome
  mapped : ∀ ga p, st.mapLocks ga = some p →
    p < st.nLocks ∧ (st.locks p).guestaddr = ga ∧ st.hasLocks (roundToSecMapBase ga) = true
  ok : ∀ p < st.nLocks, (st.locks p).Ok st.threads

theorem LockInv.known (h : LockInv st) (hlive : st.mapThreads tid = some thr) : Known st thr :=
  ⟨h.zero, h.live tid thr hlive⟩

/-- The hint that there are locks is never wrong. -/
theorem LockInv.setHasLocks (h : LockInv st) (a : Nat) : LockInv (st.setHasLocks a) := by
  refine ⟨h.sets, h.graph, h.zero, h.live, fun ga p hp => ?_, h.ok⟩
  obtain ⟨hlt, hga, hhas⟩ := h.mapped ga p hp
  refine ⟨hlt, hga, ?_⟩
  simp only [LockState.setHasLocks, Function.update_apply]
  split
  · rfl
  · exact hhas

theorem LockInv.record (h : LockInv st) (e : LockError) : LockInv (st.record e) :=
  ⟨h.sets, h.graph, h.zero, h.live, h.mapped, h.ok⟩

/-- A lock that is looked up by its address: it is known, or it is made. -/
structure LookedUp (st : LockState ε) (lkk : LockKind) (ga p : Nat) (st' : LockState ε) : Prop where
  inv : LockInv st'
  mapThreads : st'.mapThreads = st.mapThreads
  threads : st'.threads = st.threads
  lt : p < st'.nLocks
  le : st.nLocks ≤ st'.nLocks
  guestaddr : (st'.locks p).guestaddr = ga
  found : st'.mapLocks ga = some p
  kind : ∀ q, st.mapLocks ga = some q → p = q ∧ st'.locks p = st.locks q
  made : st.mapLocks ga = none → (st'.locks p).kind = lkk ∧ (st'.locks p).heldBy = none

/-- A lock is made at an address where there is none. -/
theorem LockInv.newLock {lock : LockN ε} (h : LockInv st) (ga : Nat) (hgaddr : lock.guestaddr = ga)
    (hheld : lock.heldBy = none) (hok : lock.Ok st.threads) :
    LockInv { st with
      locks := Function.update st.locks st.nLocks lock, nLocks := st.nLocks + 1
      mapLocks := Function.update st.mapLocks ga (some st.nLocks)
      hasLocks := Function.update st.hasLocks (roundToSecMapBase ga) true } := by
  have hold : ∀ q < st.nLocks, Function.update st.locks st.nLocks lock q = st.locks q :=
    fun q hq => Function.update_of_ne hq.ne lock st.locks
  have hself : Function.update st.locks st.nLocks lock st.nLocks = lock := Function.update_self st.nLocks lock st.locks
  have hsame : ∀ (P : LockN ε → Prop), ¬ P lock → ∀ q,
      (q < st.nLocks ∧ P (st.locks q) ↔ q < st.nLocks + 1 ∧ P (Function.update st.locks st.nLocks lock q)) := by
    intro P hnew q
    rcases Nat.lt_trichotomy q st.nLocks with hq | rfl | hq
    · rw [hold q hq]
      exact and_congr_left fun _ => by omega
    · rw [hself]
      exact iff_of_false (fun hin => absurd hin.1 (lt_irrefl _)) fun hin => hnew hin.2
    · exact iff_of_false (fun hin => by omega) fun hin => by omega
  refine ⟨h.sets.congr (fun u q => ?_) fun u q => ?_, h.graph, h.zero, h.live, fun ga' q hq => ?_, fun q hq => ?_⟩
  · exact hsame (fun l => l.HeldBy u) (LockN.not_heldBy hheld) q
  · simp only [LockState.InW, LockState.InA, and_assoc]
    exact hsame (fun l => l.HeldBy u ∧ l.heldW = true) (fun hin => LockN.not_heldBy hheld hin.1) q
  · simp only [Function.update_apply] at hq ⊢
    split at hq
    · next heq =>
      subst heq
      obtain rfl := Option.some.inj hq
      rw [if_pos rfl, if_pos rfl]
      exact ⟨Nat.lt_succ_self _, hgaddr, rfl⟩
    · obtain ⟨hlt, hga', hhas⟩ := h.mapped ga' q hq
      rw [if_neg hlt.ne, hhas, ite_self]
      exact ⟨Nat.lt_succ_of_lt hlt, hga', rfl⟩
  · rcases Nat.lt_succ_iff_lt_or_eq.mp hq with hlt | rfl
    · exact (congrArg (LockN.Ok st.threads) (hold q hlt)).mpr (h.ok q hlt)
    · exact (congrArg (LockN.Ok st.threads) hself).mpr hok

/-- **`map_locks_lookup_or_create`.** -/
theorem mapLocksLookupOrCreate_spec (env : LockEnv ε) (h : LockInv st) (lkk : LockKind) (ga : Nat)
    (htid : tid < vgNThreads) :
    ∃ p st', mapLocksLookupOrCreate env st lkk ga tid = .ok (p, st') ∧ LookedUp st lkk ga p st' := by
  rw [mapLocksLookupOrCreate, assertThat_of htid, ok_bind]
  cases hga : st.mapLocks ga with
  | some p =>
    obtain ⟨hlt, hgaddr, hhas⟩ := h.mapped ga p hga
    refine ⟨p, st, ?_, h, rfl, rfl, hlt, le_rfl, hgaddr, hga, fun q hq => ?_, fun hnone => nomatch hga.symm.trans hnone⟩
    · simp only [(h.ok p hlt).sane, hgaddr, hhas, assertThat_of, ok_bind]
      rfl
    · obtain rfl := Option.some.inj (hga.symm.trans hq)
      exact ⟨rfl, rfl⟩
  | none =>
    have hok : (⟨⟨ga, none⟩, some (env.context tid), lkk, false, none⟩ : LockN ε).Ok st.threads := ok_unheld rfl rfl rfl
    simp only [hok.sane, assertThat_of, ok_bind]
    refine ⟨st.nLocks, _, rfl, h.newLock ga rfl rfl hok, rfl, rfl, Nat.lt_succ_self _, Nat.le_succ _, ?_,
      Function.update_self ga _ st.mapLocks, fun q hq => (nomatch hga.symm.trans hq), fun _ => ?_⟩
    · exact congrArg (fun l : LockN ε => l.guestaddr) (Function.update_self st.nLocks _ st.locks)
    · simp only [LockState.setHasLocks, Function.update_self, and_self]

/-! ## One event -/

/-- A call that returns and keeps the invariant. -/
def Keeps (st : LockState ε) (call : Result (LockState ε)) : Prop :=
  ∃ st', call = .ok st' ∧ LockInv st' ∧ st'.mapThreads = st.mapThreads ∧ st.nLocks ≤ st'.nLocks

/-- One lock and the sets of the threads change. -/
theorem LockInv.changeLock (h : LockInv st) (lk' : LockN ε) (A' W' : Nat → Nat → Prop)
    (hp : p < st.nLocks) (hga : lk'.guestaddr = (st.locks p).guestaddr)
    (hok : lk'.Ok st.threads) {laog' : Laog ε} (hgraph : ∃ R, Graph laog' R)
    (hthreads : ∀ u, (threads' u).isSome = (st.threads u).isSome)
    (hsets : Sets univ' threads' A' W')
    (hA : ∀ u q, ({ st with locks := Function.update st.locks p lk' } : LockState ε).InA u q ↔ A' u q)
    (hW : ∀ u q, ({ st with locks := Function.update st.locks p lk' } : LockState ε).InW u q ↔ W' u q) :
    LockInv { st with
      locks := Function.update st.locks p lk', threads := threads', univLsets := univ', laog := laog' } := by
  refine ⟨hsets.congr (fun u q => (hA u q).symm) fun u q => (hW u q).symm, hgraph, h.zero, fun tid thr htid => ?_,
    fun ga q hq => ?_, fun q hq => ?_⟩
  · exact (hthreads thr).trans (h.live tid thr htid)
  · obtain ⟨hlt, hgaddr, hhas⟩ := h.mapped ga q hq
    refine ⟨hlt, ?_, hhas⟩
    by_cases hqp : q = p
    · subst hqp
      simp only [Function.update_self]
      exact hga.trans hgaddr
    · simp only [Function.update_of_ne hqp]
      exact hgaddr
  · by_cases hqp : q = p
    · subst hqp
      simp only [Function.update_self]
      exact hok.congr hthreads
    · simp only [Function.update_of_ne hqp]
      exact (h.ok q hq).congr hthreads

/-- A thread that there is gets other lock sets. -/
theorem isSome_update (ht : threads thr = some t) (t' : HgThread) (u : Nat) :
    (Function.update threads thr (some t') u).isSome = (threads u).isSome := by
  by_cases hu : u = thr
  · subst hu
    rw [Function.update_self, ht]
    rfl
  · rw [Function.update_of_ne hu]

theorem reverseLookup_spec (h : LockInv st) (htid : tid < vgNThreads) (hlive : st.mapThreads tid = some thr) :
    ∃ tid', st.reverseLookup thr = .ok tid' ∧ tid' < vgNThreads := by
  have hne : tid ≠ 0 := by
    rintro rfl
    cases h.zero.symm.trans hlive
  obtain ⟨tid', hfind⟩ := Option.isSome_iff_exists.mp <| List.find?_isSome
    (p := fun i => decide (i ≠ 0 ∧ st.mapThreads i = some thr)).mpr
    ⟨tid, List.mem_range.mpr htid, decide_eq_true ⟨hne, hlive⟩⟩
  have hgood : tid' ≠ 0 ∧ st.mapThreads tid' = some thr := by simpa using List.find?_some hfind
  refine ⟨tid', ?_, List.mem_range.mp (List.mem_of_find?_eq_some hfind)⟩
  have hk := h.known hlive
  rw [LockState.reverseLookup, LockState.maybeReverseLookup, assertThat_of hk.thread, ok_bind,
    assertThat_of (by rw [hk.zero]; rfl), ok_bind, hfind]
  simp only [Option.getD_some, pure_bind]
  rw [assertThat_of hgood.1]
  rfl

/-- **The lock sets when a thread has taken a lock.** -/
theorem noteHolder_keeps (h : LockInv st) (hp : p < st.nLocks) (ht : st.threads thr = some t)
    (htook : Took st.threads (st.locks p) lk' thr isW) : Keeps st (noteHolder (st.setLock p lk') thr p isW) := by
  have hA : ∀ u q, (st.setLock p lk').InA u q ↔ (u = thr ∧ q = p) ∨ st.InA u q := by
    intro u q
    simp only [LockState.InA, LockState.setLock]
    by_cases hqp : q = p
    · subst hqp
      rw [Function.update_self, htook.holders u]
      simp [hp]
    · rw [Function.update_of_ne hqp]
      simp [hqp]
  have hW : ∀ u q, (st.setLock p lk').InW u q ↔ (isW = true ∧ u = thr ∧ q = p) ∨ st.InW u q := by
    intro u q
    by_cases hqp : q = p
    · subst hqp
      have hheld : ((st.setLock q lk').locks q).heldW = isW := by
        simp only [LockState.setLock, Function.update_self]
        exact htook.heldW
      rw [LockState.InW, LockState.InW, hA, hheld]
      constructor
      · rintro ⟨⟨rfl, -⟩ | hin, hisW⟩
        · exact .inl ⟨hisW, rfl, rfl⟩
        · exact .inr ⟨hin, (htook.before u hin.2).trans hisW⟩
      · rintro (⟨hisW, rfl, -⟩ | ⟨hin, hheldW⟩)
        · exact ⟨.inl ⟨rfl, rfl⟩, hisW⟩
        · exact ⟨.inr hin, (htook.before u hin.2).symm.trans hheldW⟩
    · rw [LockState.InW, LockState.InW, hA]
      simp [LockState.setLock, hqp]
  -- the lock order needs to know where each lock of the thread was acquired
  have hlaog : ∃ laog', laogPreThreadAcquiresLock st.univLsets (fun q => ((st.setLock p lk').locks q).toLock) thr
      t.locksetA p st.laog = .ok laog' ∧ ∃ R, Graph laog' R := by
    obtain ⟨S, hS, hmem⟩ := h.sets.setA thr t ht
    obtain ⟨R, hR⟩ := h.graph
    by_cases hin : p ∈ S
    · exact ⟨st.laog, laogPreThreadAcquiresLock_held hS hin, R, hR⟩
    · obtain ⟨hret, hgraph⟩ := laogPreThreadAcquiresLock_spec hR h.sets.inv
        (fun q => ((st.setLock p lk').locks q).toLock) thr hS hin
      suffices hall : (((st.setLock p lk').locks p).acquiredAt).isSome ∧
          ∀ old ∈ S, (((st.setLock p lk').locks old).acquiredAt).isSome by
        obtain ⟨laog', hrun⟩ := hret.mpr hall
        exact ⟨laog', hrun, _, (hgraph laog' hrun).1⟩
      refine ⟨?_, fun old hold => ?_⟩
      · simp only [LockState.setLock, Function.update_self]
        exact htook.ok.acquired ((htook.holders thr).mpr (.inl rfl))
      · have hne : old ≠ p := by
          rintro rfl
          exact hin hold
        obtain ⟨hlt, hheld⟩ := (hmem old).mp hold
        simp only [LockState.setLock, Function.update_of_ne hne]
        exact (h.ok old hlt).acquired hheld
  obtain ⟨laog', hrun, hgraph⟩ := hlaog
  obtain ⟨univ₁, locksetA, hadd, hinv₁, hgrows₁, hdA⟩ := (h.sets.setA thr t ht).add h.sets.inv p
  have haddW : ∃ univ₂ locksetW, (if isW then addToWS univ₁ t.locksetW p else .ok (univ₁, t.locksetW)) =
      .ok (univ₂, locksetW) ∧ univ₂.Inv ∧ univ₁.ix2vec <+: univ₂.ix2vec ∧
      Denotes univ₂ locksetW fun q => (isW = true ∧ q = p) ∨ st.InW thr q := by
    have hold : Denotes univ₁ t.locksetW (st.InW thr) := (h.sets.setW thr t ht).grow hgrows₁ fun _ => Iff.rfl
    cases isW with
    | true =>
      obtain ⟨univ₂, locksetW, haddW, hinv₂, hgrows₂, hdW⟩ := hold.add hinv₁ p
      exact ⟨univ₂, locksetW, haddW, hinv₂, hgrows₂, hdW.grow List.prefix_rfl fun q => by simp⟩
    | false => exact ⟨univ₁, t.locksetW, rfl, hinv₁, List.prefix_rfl, hold.grow List.prefix_rfl fun q => by simp⟩
  obtain ⟨univ₂, locksetW, haddW, hinv₂, hgrows₂, hdW⟩ := haddW
  refine ⟨{ st.setLock p lk' with
    laog := laog', univLsets := univ₂, threads := Function.update st.threads thr (some ⟨locksetA, locksetW⟩) }, ?_, ?_,
    rfl, le_rfl⟩
  · show noteHolder (st.setLock p lk') thr p isW = _
    rw [noteHolder, show (st.setLock p lk').threads thr = some t from ht]
    simp only
    rw [show (st.setLock p lk').univLsets = st.univLsets from rfl, show (st.setLock p lk').laog = st.laog from rfl, hrun,
      ok_bind, hadd, ok_bind]
    simp only
    rw [haddW]
    rfl
  · refine h.changeLock lk' (fun u q => (u = thr ∧ q = p) ∨ st.InA u q)
      (fun u q => (isW = true ∧ u = thr ∧ q = p) ∨ st.InW u q) hp htook.guestaddr htook.ok hgraph (isSome_update ht _)
      (h.sets.update thr ⟨locksetA, locksetW⟩ _ _ hinv₂ (hgrows₁.trans hgrows₂) (hdA.grow hgrows₂ fun q => by simp)
        (hdW.grow List.prefix_rfl fun q => by simp) fun u hu q => ?_) hA hW
    simp [hu]

theorem LockInv.held (h : LockInv st) (hp : p < st.nLocks) (hbag : (st.locks p).heldBy = some bag) :
    bag ≠ 0 ∧ (∀ u ∈ bag, (st.threads u).isSome) ∧ ((st.locks p).heldW = true → bag.toFinset.card = 1) := by
  have hok := h.ok p hp
  obtain ⟨-, hne, hthreads, -⟩ := (isSane_held hbag).mp hok.sane
  exact ⟨hne, hthreads, fun hW => hok.single hW bag hbag⟩

/-- An error is recorded and nothing else happens. -/
theorem LockInv.keeps_record (h : LockInv st) (e : LockError) : Keeps st (.ok (st.record e)) :=
  ⟨_, rfl, h.record e, rfl, le_rfl⟩

/-- **A write lock was granted.** -/
theorem writeAcquired_keeps (h : LockInv st) (hp : p < st.nLocks) (hlive : st.mapThreads tid = some thr) :
    Keeps st (writeAcquired env st thr p) := by
  have hk := h.known hlive
  obtain ⟨t, ht⟩ := Option.isSome_iff_exists.mp hk.thread
  have hok := h.ok p hp
  have htake : ((st.locks p).heldBy = none ∨
      (st.locks p).kind = .mbRec ∧ (st.locks p).heldW = true ∧ (st.locks p).HeldBy thr) →
      Keeps st (lockNAcquireWriter env st (st.locks p) thr >>= fun lk => noteHolder (st.setLock p lk) thr p true) := by
    intro hfree
    obtain ⟨lk', hrun, htook⟩ := lockNAcquireWriter_spec env hk hok hfree
    rw [hrun, ok_bind]
    exact noteHolder_keeps h hp ht htook
  rw [writeAcquired]
  rcases Option.eq_none_or_eq_some (st.locks p).heldBy with hheld | ⟨bag, hbag⟩
  · simp only [hheld, ((isSane_unheld hheld).mp hok.sane).2, assertThat_of, ok_bind]
    exact htake (.inl hheld)
  · obtain ⟨hne, -, hone⟩ := h.held hp hbag
    simp only [hbag]
    split
    · exact h.keeps_record _
    · next hW =>
      rw [Bool.not_eq_false] at hW
      simp only [hone hW, hne, ne_eq, not_false_eq_true, assertThat_of, ok_bind]
      split
      · exact h.keeps_record _
      · next howner =>
        rw [not_not] at howner
        split
        · exact h.keeps_record _
        · next hkind =>
          rw [not_not] at hkind
          refine htake (.inr ⟨hkind, hW, bag, hbag, ?_⟩)
          rw [howner]
          exact env.any_mem bag hne

/-- **A read lock was granted**, on a lock of the right kind or on one that is held for writing. -/
theorem readAcquired_keeps (h : LockInv st) (hp : p < st.nLocks) (hlive : st.mapThreads tid = some thr)
    (hright : (st.locks p).kind = .rdwr ∨ (st.locks p).heldW = true) : Keeps st (readAcquired env st thr p) := by
  have hk := h.known hlive
  obtain ⟨t, ht⟩ := Option.isSome_iff_exists.mp hk.thread
  have hok := h.ok p hp
  have htake : (st.locks p).kind = .rdwr → (st.locks p).heldW = false →
      Keeps st (lockNAcquireReader env st (st.locks p) thr >>= fun lk => noteHolder (st.setLock p lk) thr p false) := by
    intro hkind hW
    obtain ⟨lk', hrun, htook⟩ := lockNAcquireReader_spec env hk hok hkind hW
    rw [hrun, ok_bind]
    exact noteHolder_keeps h hp ht htook
  rw [readAcquired]
  rcases Option.eq_none_or_eq_some (st.locks p).heldBy with hheld | ⟨bag, hbag⟩
  · have hW := ((isSane_unheld hheld).mp hok.sane).2
    simp only [hheld, hW, assertThat_of, ok_bind]
    refine htake (hright.resolve_right fun hW' => ?_) hW
    cases hW.symm.trans hW'
  · simp only [hbag]
    split
    · exact h.keeps_record _
    · next hW =>
      rw [Bool.not_eq_true] at hW
      obtain ⟨-, -, -, -, hR⟩ := (isSane_held hbag).mp hok.sane
      exact htake (hR hW) hW

/-- A read lock of another kind. -/
theorem readAcquired_fails (env : LockEnv ε) (h : LockInv st) (hp : p < st.nLocks) (hlive : st.mapThreads tid = some thr)
    (hkind : (st.locks p).kind ≠ .rdwr) (hW : (st.locks p).heldW = false) :
    readAcquired env st thr p = .error .assertFailed := by
  have hok := h.ok p hp
  rw [readAcquired]
  rcases Option.eq_none_or_eq_some (st.locks p).heldBy with hheld | ⟨bag, hbag⟩
  · simp only [hheld, hW, assertThat_of, ok_bind]
    rw [lockNAcquireReader_fails (h.known hlive) hok hkind]
    rfl
  · obtain ⟨-, -, -, -, hR⟩ := (isSane_held hbag).mp hok.sane
    exact absurd (hR hW) hkind

/-- The lock that a call is about has been looked up. -/
theorem LookedUp.keeps {call : Result (LockState ε)} {lkk : LockKind} (hlook : LookedUp st lkk ga p st')
    (h : Keeps (st'.setHasLocks ga) call) :
    Keeps st (call >>= fun st'' => assertThat ((st''.locks p).isSane st''.threads) >>= fun _ => .ok st'') := by
  obtain ⟨st'', hrun, hinv, hmap, hle'⟩ := h
  refine ⟨st'', ?_, hinv, hmap.trans hlook.mapThreads, hlook.le.trans hle'⟩
  rw [hrun, ok_bind, assertThat_of (hinv.ok p (lt_of_lt_of_le hlook.lt hle')).sane, ok_bind]

/-- **A lock was granted.** -/
theorem postThreadAcquiresLock_keeps (h : LockInv st) (htid : tid < vgNThreads) (hlive : st.mapThreads tid = some thr)
    {lkk : LockKind} (hright : isW = false → lkk = .rdwr ∧ ∀ q, st.mapLocks ga = some q →
      (st.locks q).kind = .rdwr ∨ (st.locks q).heldW = true) :
    Keeps st (postThreadAcquiresLock env isW st thr lkk ga) := by
  have h₁ := h.setHasLocks ga
  have hlive₁ : (st.setHasLocks ga).mapThreads tid = some thr := hlive
  obtain ⟨tid', hrev, htid'⟩ := reverseLookup_spec h₁ htid hlive₁
  obtain ⟨p, st', hrun, hlook⟩ := mapLocksLookupOrCreate_spec env h₁ lkk ga htid'
  have hinv' := hlook.inv.setHasLocks ga
  have hlive' : (st'.setHasLocks ga).mapThreads tid = some thr := (congrFun hlook.mapThreads tid).trans hlive
  have hcall : Keeps (st'.setHasLocks ga) (if isW then writeAcquired env (st'.setHasLocks ga) thr p
      else readAcquired env (st'.setHasLocks ga) thr p) := by
    cases isW with
    | true => exact writeAcquired_keeps hinv' hlook.lt hlive'
    | false =>
      obtain ⟨hlkk, hknown⟩ := hright rfl
      refine readAcquired_keeps hinv' hlook.lt hlive' ?_
      show (st'.locks p).kind = .rdwr ∨ (st'.locks p).heldW = true
      rcases Option.eq_none_or_eq_some (st.mapLocks ga) with hnone | ⟨q, hq⟩
      · exact .inl ((hlook.made hnone).1.trans hlkk)
      · rw [(hlook.kind q hq).2]
        exact hknown q hq
  obtain ⟨st'', hret, hkeeps⟩ := hlook.keeps hcall
  refine ⟨st'', ?_, hkeeps⟩
  rw [postThreadAcquiresLock]
  simp only
  rw [assertThat_of (h₁.known hlive₁).thread, ok_bind]
  simp only [hrev, ok_bind, hrun]
  rw [assertThat_of (hlook.inv.ok p hlook.lt).sane, ok_bind]
  cases isW with
  | true => exact hret
  | false =>
    rw [assertThat_of (hright rfl).1]
    exact hret

/-- A read lock was granted on a lock that was first seen as a mutex. -/
theorem postThreadAcquiresLock_fails (h : LockInv st) (htid : tid < vgNThreads) (hlive : st.mapThreads tid = some thr)
    (hq : st.mapLocks ga = some p) (hkind : (st.locks p).kind ≠ .rdwr) (hW : (st.locks p).heldW = false) :
    postThreadAcquiresLock env false st thr .rdwr ga = .error .assertFailed := by
  have h₁ := h.setHasLocks ga
  have hlive₁ : (st.setHasLocks ga).mapThreads tid = some thr := hlive
  obtain ⟨tid', hrev, htid'⟩ := reverseLookup_spec h₁ htid hlive₁
  obtain ⟨p', st', hrun, hlook⟩ := mapLocksLookupOrCreate_spec env h₁ .rdwr ga htid'
  obtain ⟨rfl, hsame⟩ := hlook.kind p hq
  have hsame' : (st'.setHasLocks ga).locks p' = st.locks p' := hsame
  have hlive' : (st'.setHasLocks ga).mapThreads tid = some thr := (congrFun hlook.mapThreads tid).trans hlive
  have hfails := readAcquired_fails env (hlook.inv.setHasLocks ga) hlook.lt hlive' (by rwa [hsame']) (by rwa [hsame'])
  rw [postThreadAcquiresLock]
  simp only [Bool.not_false, if_true, assertThat_of, hrev, ok_bind, hrun]
  rw [assertThat_of (h₁.known hlive₁).thread, ok_bind, assertThat_of (hlook.inv.ok p' hlook.lt).sane, ok_bind]
  simp only [Bool.false_eq_true, if_false, hfails]
  rfl

/-! ## Giving a lock back -/

theorem count_pos_of_mem_erase (h : bag.count thr - 1 > 0) : thr ∈ bag.erase thr := by
  rw [← Multiset.count_pos, Multiset.count_erase_self]
  exact h

/-- **A lock is given back by a thread that holds it.** -/
theorem releaseHeld_keeps (h : LockInv st) (hp : p < st.nLocks) (hlive : st.mapThreads tid = some thr)
    (ht : st.threads thr = some t) (hbag : (st.locks p).heldBy = some bag) (hmem : thr ∈ bag) :
    Keeps st (releaseHeld st thr p t bag) := by
  have hok := h.ok p hp
  have hok' := hok.without hbag hmem
  have hga : ((st.locks p).without bag thr).guestaddr = (st.locks p).guestaddr := by
    unfold LockN.without
    split <;> rfl
  have hinA : st.InA thr p := ⟨hp, bag, hbag, hmem⟩
  rw [releaseHeld]
  simp only [lockNRelease_spec (h.known hlive) hok hbag hmem, ok_bind]
  split
  · -- the thread still holds the lock
    next hcount =>
    have hin := count_pos_of_mem_erase hcount
    have hne : bag.erase thr ≠ 0 := by
      intro h0
      rw [h0] at hin
      exact Multiset.notMem_zero _ hin
    have hlk : (st.locks p).without bag thr = { st.locks p with heldBy := some (bag.erase thr) } := if_neg hne
    obtain ⟨-, -, -, hkind, hR⟩ := (isSane_held hbag).mp hok.sane
    have hkeeps : (st.locks p).kind = .mbRec ∨ (st.locks p).kind = .rdwr ∧ (st.locks p).heldW = false := by
      cases hW : (st.locks p).heldW with
      | false => exact .inr ⟨hR hW, rfl⟩
      | true =>
        refine .inl ((hkind hW).resolve_right fun hcard => ?_)
        have := Multiset.count_le_card thr bag
        omega
    have hheldW : ((st.locks p).without bag thr).heldW = (st.locks p).heldW := by rw [hlk]
    have hholders : ∀ u, u ∈ bag.erase thr ↔ u ∈ bag := by
      intro u
      by_cases hu : u = thr
      · subst hu
        exact iff_of_true hin hmem
      · exact Multiset.mem_erase_of_ne hu
    refine ⟨st.setLock p ((st.locks p).without bag thr), ?_, ?_, rfl, le_rfl⟩
    · have hwW : elemWS st.univLsets t.locksetW p = .ok (st.locks p).heldW := by
        cases hW : (st.locks p).heldW with
        | true => exact (h.sets.setW thr t ht).elem ⟨hinA, hW⟩
        | false =>
          refine (h.sets.setW thr t ht).not_elem ?_
          rintro ⟨-, hW'⟩
          cases hW.symm.trans hW'
      rw [hlk]
      simp only [LockState.setLock]
      rw [assertThat_of (by rw [Multiset.count_erase_self]), ok_bind, assertThat_of hkeeps, ok_bind,
        (h.sets.setA thr t ht).elem hinA, ok_bind, assertThat_of rfl, ok_bind, hwW, ok_bind, assertThat_of rfl]
      rfl
    · refine h.changeLock _ _ _ hp hga hok' h.graph (fun _ => rfl) h.sets (fun u q => ?_) fun u q => ?_
      all_goals
        by_cases hqp : q = p
        · subst hqp
          simp only [LockState.InW, LockState.InA, Function.update_self, LockN.without_heldBy, hholders,
            LockN.heldBy_iff hbag, hheldW]
        · simp only [LockState.InW, LockState.InA, Function.update_of_ne hqp]
  · next hcount =>
    have hone : bag.count thr = 1 := by
      have := Multiset.count_pos.mpr hmem
      omega
    have hgone : thr ∉ bag.erase thr := by
      rw [← Multiset.count_pos, Multiset.count_erase_self]
      omega
    have hholders : ∀ u, u ∈ bag.erase thr ↔ u ≠ thr ∧ u ∈ bag := by
      intro u
      by_cases hu : u = thr
      · subst hu
        exact iff_of_false hgone fun hin => hin.1 rfl
      · simp [hu, Multiset.mem_erase_of_ne hu]
    have hcheck : ∀ bag' ∈ ((st.locks p).without bag thr).heldBy, bag'.count thr = 0 := by
      intro bag' hbag'
      rw [Multiset.count_eq_zero]
      exact fun hin => hgone ((LockN.without_heldBy bag thr thr).mp ⟨bag', hbag', hin⟩)
    obtain ⟨univ₁, locksetA, hdel, hinv₁, hgrows₁, hdA⟩ := (h.sets.setA thr t ht).del h.sets.inv p
    obtain ⟨univ₂, locksetW, hdelW, hinv₂, hgrows₂, hdW⟩ :=
      ((h.sets.setW thr t ht).grow hgrows₁ fun _ => Iff.rfl).del hinv₁ p
    refine ⟨{ st.setLock p ((st.locks p).without bag thr) with
      univLsets := univ₂, threads := Function.update st.threads thr (some ⟨locksetA, locksetW⟩) }, ?_, ?_, rfl, le_rfl⟩
    · rw [assertThat_of hcheck, ok_bind]
      simp only [LockState.setLock, hdel, hdelW, ok_bind]
      rfl
    · refine h.changeLock _ (fun u q => ¬ (u = thr ∧ q = p) ∧ st.InA u q) (fun u q => ¬ (u = thr ∧ q = p) ∧ st.InW u q)
        hp hga hok' h.graph (isSome_update ht _)
        (h.sets.update thr ⟨locksetA, locksetW⟩ _ _ hinv₂ (hgrows₁.trans hgrows₂) (hdA.grow hgrows₂ fun q => by simp)
          (hdW.grow List.prefix_rfl fun q => by simp) fun u hu q => by simp [hu]) (fun u q => ?_) fun u q => ?_
      · by_cases hqp : q = p
        · subst hqp
          simp only [LockState.InA, Function.update_self, LockN.without_heldBy, hholders, LockN.heldBy_iff hbag]
          grind
        · simp [LockState.InA, hqp]
      · by_cases hqp : q = p
        · subst hqp
          have hW : u ∈ bag.erase thr → ((st.locks q).without bag thr).heldW = (st.locks q).heldW := by
            intro hu
            unfold LockN.without
            split
            · next h0 =>
              rw [h0] at hu
              exact absurd hu (Multiset.notMem_zero u)
            · rfl
          simp only [LockState.InW, LockState.InA, Function.update_self, LockN.without_heldBy, LockN.heldBy_iff hbag]
          constructor
          · rintro ⟨⟨hlt, hu⟩, hheldW⟩
            obtain ⟨hne, hin⟩ := (hholders u).mp hu
            exact ⟨fun heq => hne heq.1, ⟨hlt, hin⟩, (hW hu).symm.trans hheldW⟩
          · rintro ⟨hne, ⟨hlt, hin⟩, hheldW⟩
            have hu := (hholders u).mpr ⟨fun heq => hne ⟨heq, trivial⟩, hin⟩
            exact ⟨⟨hlt, hu⟩, (hW hu).trans hheldW⟩
        · simp [LockState.InW, LockState.InA, hqp]

/-- The thread does not hold the lock. -/
theorem assertNotHeld_ok (h : LockInv st) (ht : st.threads thr = some t) (hnot : ¬ (st.locks p).HeldBy thr) :
    assertNotHeld st t p = .ok () := by
  have hA : ¬ st.InA thr p := fun hin => hnot hin.2
  rw [assertNotHeld, (h.sets.setA thr t ht).not_elem hA, ok_bind, assertThat_of rfl, ok_bind,
    (h.sets.setW thr t ht).not_elem fun hin => hA hin.1, ok_bind, assertThat_of rfl]

/-- A known lock is given back, by whomever. -/
theorem releaseKnown_keeps (env : LockEnv ε) (h : LockInv st) (hp : p < st.nLocks) (hlive : st.mapThreads tid = some thr)
    (ht : st.threads thr = some t) : Keeps st (releaseKnown env st thr p t) := by
  rw [releaseKnown]
  rcases Option.eq_none_or_eq_some (st.locks p).heldBy with hheld | ⟨bag, hbag⟩
  · simp only [hheld, ((isSane_unheld hheld).mp (h.ok p hp).sane).2, assertThat_of, ok_bind,
      assertNotHeld_ok h ht (LockN.not_heldBy hheld)]
    exact h.keeps_record _
  · simp only [hbag]
    obtain ⟨hne, hthreads, -⟩ := h.held hp hbag
    split
    · next hcount =>
      have hnot : thr ∉ bag := Multiset.count_eq_zero.mp hcount
      have hany := env.any_mem bag hne
      have howner : env.anyElement bag ≠ thr := by
        intro heq
        exact hnot (heq ▸ hany)
      rw [assertThat_of hne, ok_bind]
      simp only [howner, ne_eq, not_false_eq_true, hthreads _ hany, assertThat_of, ok_bind,
        assertNotHeld_ok h ht fun hin => hnot ((LockN.heldBy_iff hbag).mp hin)]
      exact h.keeps_record _
    · next hcount =>
      exact releaseHeld_keeps h hp hlive ht hbag (Multiset.count_pos.mp (Nat.pos_of_ne_zero hcount))

theorem LockInv.noteWrongKind (thr : Nat) (h : LockInv st) (kind : LockKind) (isRDWR : Bool) :
    LockInv (noteWrongKind st thr kind isRDWR) ∧
      (noteWrongKind st thr kind isRDWR).threads = st.threads ∧
      (noteWrongKind st thr kind isRDWR).mapThreads = st.mapThreads ∧
      (noteWrongKind st thr kind isRDWR).nLocks = st.nLocks := by
  unfold Helgrind.noteWrongKind
  split
  · exact ⟨h.record _, rfl, rfl, rfl⟩
  · split
    · exact ⟨h.record _, rfl, rfl, rfl⟩
    · exact ⟨h, rfl, rfl, rfl⟩

theorem mapLocksMaybeLookup_spec (h : LockInv st) (ga : Nat) : mapLocksMaybeLookup st ga = .ok (st.mapLocks ga) := by
  rw [mapLocksMaybeLookup]
  cases hq : st.mapLocks ga with
  | none => rfl
  | some p =>
    simp only [(h.mapped ga p hq).2.2, assertThat_of, ok_bind]
    rfl

/-- **A lock is about to be given back.** -/
theorem preThreadReleasesLock_keeps (h : LockInv st) (hlive : st.mapThreads tid = some thr) (isRDWR : Bool) :
    Keeps st (preThreadReleasesLock env st thr ga isRDWR) := by
  have h₁ := h.setHasLocks ga
  obtain ⟨t, ht⟩ := Option.isSome_iff_exists.mp (h.live tid thr hlive)
  have ht₁ : (st.setHasLocks ga).threads thr = some t := ht
  rw [preThreadReleasesLock]
  simp only [ht₁]
  rw [mapLocksMaybeLookup_spec h₁, ok_bind]
  cases hq : (st.setHasLocks ga).mapLocks ga with
  | none =>
    exact h₁.keeps_record _
  | some p =>
    obtain ⟨hlt, hga, -⟩ := h₁.mapped ga p hq
    simp only [hga, (h₁.ok p hlt).sane, assertThat_of, ok_bind]
    obtain ⟨h₂, hthreads, hmap, hn⟩ :=
      LockInv.noteWrongKind thr h₁ ((st.setHasLocks ga).locks p).kind isRDWR
    obtain ⟨st', hrun, hinv, hmap', hle⟩ := releaseKnown_keeps env h₂ (lt_of_lt_of_eq hlt hn.symm)
      ((congrFun hmap tid).trans hlive) ((congrFun hthreads thr).trans ht₁)
    refine ⟨st', ?_, hinv, hmap'.trans hmap, (le_of_eq hn.symm).trans hle⟩
    rw [hrun, ok_bind, assertThat_of (hinv.ok p (lt_of_lt_of_le (lt_of_lt_of_eq hlt hn.symm) hle)).sane]
    rfl

/-! ## Destroying a lock -/

/-- The lock is taken from the lock sets of its holders. -/
theorem removeFromLocksets_run (heldW : Bool) {ws : List Nat} (st : LockState ε) (hnodup : ws.Nodup)
    (hsets : Sets st.univLsets st.threads A W)
    (hthreads : ∀ u ∈ ws, (st.threads u).isSome) (hA : ∀ u ∈ ws, A u p) (hW : ∀ u ∈ ws, W u p ↔ heldW = true) :
    ∃ univ' threads', ws.foldlM (removeFromLocksets p heldW) st = .ok { st with univLsets := univ', threads := threads' } ∧
      (∀ u, (threads' u).isSome = (st.threads u).isSome) ∧
      Sets univ' threads' (fun u q => A u q ∧ ¬ (u ∈ ws ∧ q = p)) (fun u q => W u q ∧ ¬ (u ∈ ws ∧ q = p)) := by
  induction ws generalizing st A W with
  | nil => exact ⟨st.univLsets, st.threads, rfl, fun _ => rfl, hsets.congr (fun u q => by simp) fun u q => by simp⟩
  | cons thr ws ih =>
    obtain ⟨hthr, hnodup⟩ := List.nodup_cons.mp hnodup
    obtain ⟨t, ht⟩ := Option.isSome_iff_exists.mp (hthreads thr List.mem_cons_self)
    obtain ⟨univ₁, locksetA, hdel, hinv₁, hgrows₁, hdA⟩ := (hsets.setA thr t ht).del hsets.inv p
    have hdW := (hsets.setW thr t ht).grow hgrows₁ fun _ => Iff.rfl
    have hinW := hW thr List.mem_cons_self
    -- without the lock for writing the second set is the same
    obtain ⟨univ₂, locksetW, hone, hinv₂, hgrows₂, hdW'⟩ : ∃ univ₂ locksetW, removeFromLocksets p heldW st thr =
        .ok { st with univLsets := univ₂, threads := Function.update st.threads thr (some ⟨locksetA, locksetW⟩) } ∧
        univ₂.Inv ∧ univ₁.ix2vec <+: univ₂.ix2vec ∧ Denotes univ₂ locksetW fun q => q ≠ p ∧ W thr q := by
      rw [removeFromLocksets, ht]
      simp only [(hsets.setA thr t ht).elem (hA thr List.mem_cons_self), hdel, assertThat_of, ok_bind]
      cases heldW with
      | true =>
        obtain ⟨univ₂, locksetW, hdelW, hinv₂, hgrows₂, hdW'⟩ := hdW.del hinv₁ p
        refine ⟨univ₂, locksetW, ?_, hinv₂, hgrows₂, hdW'⟩
        rw [if_pos rfl, hdW.elem (hinW.mpr rfl), ok_bind, assertThat_of rfl, ok_bind, hdelW]
        rfl
      | false =>
        refine ⟨univ₁, t.locksetW, rfl, hinv₁, List.prefix_rfl, hdW.grow List.prefix_rfl fun q => ?_⟩
        refine ⟨fun hq => ⟨fun hqp => ?_, hq⟩, fun hq => hq.2⟩
        subst hqp
        cases hinW.mp hq
    have hsets₁ := hsets.update thr ⟨locksetA, locksetW⟩ (fun u q => A u q ∧ ¬ (u = thr ∧ q = p))
      (fun u q => W u q ∧ ¬ (u = thr ∧ q = p)) hinv₂
      (hgrows₁.trans hgrows₂) (hdA.grow hgrows₂ fun q => by simp [and_comm])
      (hdW'.grow List.prefix_rfl fun q => by simp [and_comm]) fun u hu q => by simp [hu]
    obtain ⟨univ', threads', hrun, hsome, hsets'⟩ := ih
      { st with univLsets := univ₂, threads := Function.update st.threads thr (some ⟨locksetA, locksetW⟩) } hnodup
      hsets₁ (fun u hu => (isSome_update ht _ u).trans (hthreads u (List.mem_cons_of_mem _ hu)))
      (fun u hu => ⟨hA u (List.mem_cons_of_mem _ hu), fun hin => hthr (hin.1 ▸ hu)⟩)
      (fun u hu => by
        rw [← hW u (List.mem_cons_of_mem _ hu)]
        exact and_iff_left fun hin => hthr (hin.1 ▸ hu))
    refine ⟨univ', threads', ?_, fun u => (hsome u).trans (isSome_update ht _ u), hsets'.congr (fun u q => ?_) fun u q => ?_⟩
    · rw [List.foldlM_cons, hone, ok_bind, hrun]
    · rw [List.mem_cons, and_assoc]
      grind
    · rw [List.mem_cons, and_assoc]
      grind

theorem lookupThread_eq (tid : Nat) (htid : tid < vgNThreads) (hlive : st.mapThreads tid = some thr) :
    st.lookupThread tid = .ok thr := by
  rw [LockState.lookupThread, assertThat_of htid, ok_bind, hlive]
  rfl

/-- **A lock is about to be destroyed.** -/
theorem destroyPre_keeps (h : LockInv st) (htid : tid < vgNThreads) (hlive : st.mapThreads tid = some thr)
    (right : LockKind → Bool) (invalid locked : String) (a : Nat) :
    Keeps st (destroyPre right invalid locked st tid a) := by
  have hk := h.known hlive
  rw [destroyPre, lookupThread_eq tid htid hlive, ok_bind, assertThat_of hk.thread, ok_bind, mapLocksMaybeLookup_spec h,
    ok_bind]
  cases hq : st.mapLocks a with
  | none => exact h.keeps_record _
  | some p =>
    obtain ⟨hlt, hga, -⟩ := h.mapped a p hq
    have hok := h.ok p hlt
    dsimp only
    -- the complaint changes nothing but the list of errors
    generalize hst₁ : (if right (st.locks p).kind = true then st else st.record (.misc thr invalid)) = st₁
    obtain ⟨h₁, hlocks, hthreads, hmap, hn⟩ : LockInv st₁ ∧ st₁.locks = st.locks ∧ st₁.threads = st.threads ∧
        st₁.mapThreads = st.mapThreads ∧ st₁.nLocks = st.nLocks := by
      rw [← hst₁]
      split
      · exact ⟨h, rfl, rfl, rfl, rfl⟩
      · exact ⟨h.record _, rfl, rfl, rfl, rfl⟩
    rw [assertThat_of (by rw [hthreads]; exact hok.sane), ok_bind, assertThat_of hga, ok_bind]
    rcases Option.eq_none_or_eq_some (st.locks p).heldBy with hheld | ⟨bag, hbag⟩
    · simp only [hheld]
      exact ⟨st₁, rfl, h₁, hmap, hn.ge⟩
    · simp only [hbag]
      obtain ⟨-, hsome, -⟩ := h.held hlt hbag
      have h₂ := h₁.record (.misc thr locked)
      have hlt₁ : p < st₁.nLocks := hn.symm ▸ hlt
      have hin : ∀ u ∈ bag.toFinset.sort (· ≤ ·), u ∈ bag := fun u hu =>
        Multiset.mem_toFinset.mp ((Finset.mem_sort _).mp hu)
      have hheldBy : ∀ u, (st₁.locks p).HeldBy u ↔ u ∈ bag := fun u => by
        rw [hlocks]
        exact LockN.heldBy_iff hbag
      obtain ⟨univ', threads', hrun, hsome', hsets⟩ := removeFromLocksets_run (p := p) (st.locks p).heldW _
        (Finset.sort_nodup _ _) h₂.sets (fun u hu => (congrArg Option.isSome (congrFun hthreads u)).trans (hsome u (hin u hu)))
        (fun u hu => ⟨hlt₁, (hheldBy u).mpr (hin u hu)⟩) fun u hu => by
          rw [← hlocks]
          exact and_iff_right ⟨hlt₁, (hheldBy u).mpr (hin u hu)⟩
      rw [hrun, ok_bind]
      have hfree : ({ st.locks p with heldBy := none, heldW := false, acquiredAt := none } : LockN ε).Ok threads' :=
        ok_unheld rfl rfl rfl
      rw [assertThat_of hfree.sane, ok_bind]
      refine ⟨_, rfl, ?_, hmap, hn.ge⟩
      rw [← hlocks]
      refine h₂.changeLock { st₁.locks p with heldBy := none, heldW := false, acquiredAt := none } _ _ hlt₁ rfl
        (ok_unheld rfl rfl rfl) h₂.graph hsome' hsets (fun u q => ?_) fun u q => ?_
      · by_cases hqp : q = p
        · subst hqp
          simp only [LockState.InA, Function.update_self]
          refine iff_of_false (fun hin' => LockN.not_heldBy rfl hin'.2) fun hin' => hin'.2 ⟨?_, trivial⟩
          exact (Finset.mem_sort _).mpr (Multiset.mem_toFinset.mpr ((hheldBy u).mp hin'.1.2))
        · simp [LockState.InA, LockState.record, hqp]
      · by_cases hqp : q = p
        · subst hqp
          simp only [LockState.InW, LockState.InA, Function.update_self]
          refine iff_of_false (fun hin' => LockN.not_heldBy rfl hin'.1.2) fun hin' => hin'.2 ⟨?_, trivial⟩
          exact (Finset.mem_sort _).mpr (Multiset.mem_toFinset.mpr ((hheldBy u).mp hin'.1.1.2))
        · simp [LockState.InW, LockState.InA, LockState.record, hqp]

/-! ## Runs -/

/-- A lock is made, or it is there already. -/
theorem initPost_keeps (h : LockInv st) (htid : tid < vgNThreads) (lkk : LockKind) (ga : Nat) :
    Keeps st (mapLocksLookupOrCreate env st lkk ga tid >>= fun x => .ok x.2) := by
  obtain ⟨p, st', hrun, hlook⟩ := mapLocksLookupOrCreate_spec env h lkk ga htid
  exact ⟨st', by rw [hrun]; rfl, hlook.inv, hlook.mapThreads, hlook.le⟩

/-- **One event.** Every handler returns and keeps the invariant, except for a read lock on a
mutex that nobody has for writing. -/
theorem lockStep_keeps (env : LockEnv ε) (h : LockInv st) {e : LockEvent} (htid : e.tid < vgNThreads)
    (hlive : st.mapThreads e.tid = some thr) (hreads : ReadsRwlock st e) : Keeps st (lockStep env st e) := by
  cases e with
  | mutexInitPost tid mutex mbRec => exact initPost_keeps h htid _ mutex
  | rwlockInitPost tid rwl => exact initPost_keeps h htid .rdwr rwl
  | mutexDestroyPre tid mutex =>
    rw [lockStep, mutexDestroyPre]
    exact destroyPre_keeps h htid hlive _ _ _ mutex
  | rwlockDestroyPre tid rwl =>
    rw [lockStep, rwlockDestroyPre]
    exact destroyPre_keeps h htid hlive _ _ _ rwl
  | mutexUnlockPre tid mutex =>
    rw [lockStep, mutexUnlockPre, lookupThread_eq tid htid hlive, ok_bind]
    exact preThreadReleasesLock_keeps h hlive false
  | rwlockUnlockPre tid rwl =>
    rw [lockStep, rwlockUnlockPre, lookupThread_eq tid htid hlive, ok_bind]
    exact preThreadReleasesLock_keeps h hlive true
  | mutexLockPost tid mutex =>
    rw [lockStep, mutexLockPost, lookupThread_eq tid htid hlive, ok_bind]
    exact postThreadAcquiresLock_keeps h htid hlive (by simp)
  | rwlockLockPost tid rwl isW =>
    rw [lockStep, rwlockLockPost, lookupThread_eq tid htid hlive, ok_bind]
    refine postThreadAcquiresLock_keeps h htid hlive fun hisW => ⟨rfl, ?_⟩
    subst hisW
    exact hreads

/-- The other events end in a failed assertion. -/
theorem lockStep_fails (env : LockEnv ε) (h : LockInv st) {e : LockEvent} (htid : e.tid < vgNThreads)
    (hlive : st.mapThreads e.tid = some thr) (hreads : ¬ ReadsRwlock st e) :
    lockStep env st e = .error .assertFailed := by
  cases e with
  | rwlockLockPost tid rwl isW =>
    cases isW with
    | true => exact absurd trivial hreads
    | false =>
      simp only [ReadsRwlock, not_forall, not_or] at hreads
      obtain ⟨p, hp, hkind, hW⟩ := hreads
      rw [lockStep, rwlockLockPost, lookupThread_eq tid htid hlive, ok_bind]
      exact postThreadAcquiresLock_fails h htid hlive hp hkind (Bool.not_eq_true _ ▸ hW)
  | _ => exact absurd trivial hreads

/-- The state before the first event. -/
theorem lockInit_inv {mapThreads : Nat → Option Nat} {thrs : List Nat} {busLock : Nat} (hzero : mapThreads 0 = none)
    (hlive : ∀ tid thr, mapThreads tid = some thr → thr ∈ thrs)
    (hinit : lockInit mapThreads thrs busLock = .ok st) : LockInv st ∧ st.mapThreads = mapThreads := by
  obtain ⟨univ, hnew, hinv⟩ := newWordSetU_spec (by decide : 1 ≤ 8) (by decide)
  obtain ⟨lg₀, hlaog, hgraph⟩ := laogInit_spec (ε := ε)
  rw [lockInit, hnew, ok_bind, hlaog, ok_bind] at hinit
  obtain rfl := Except.ok.inj hinit
  have hempty : ∀ P : Nat → Prop, (∀ q, ¬ P q) → Denotes univ (emptyWS univ) P := fun P hP =>
    ⟨∅, hinv.den_empty, fun q => iff_of_false (Finset.notMem_empty q) (hP q)⟩
  have hnotA : ∀ lk : LockN ε, lk.heldBy = none → ∀ u, ¬ lk.HeldBy u := fun lk hlk u => LockN.not_heldBy hlk
  refine ⟨⟨⟨hinv, fun u t hu => ?_, fun u t hu => ?_⟩, ⟨_, hgraph.graph⟩, hzero, fun tid thr htid => ?_,
    fun ga p hp => ?_, fun p _ => ok_unheld rfl rfl rfl⟩, rfl⟩
  · simp only [LockState.setHasLocks] at hu
    split at hu
    · obtain rfl := Option.some.inj hu
      exact hempty _ fun q hq => hnotA _ rfl u hq.2
    · cases hu
  · simp only [LockState.setHasLocks] at hu
    split at hu
    · obtain rfl := Option.some.inj hu
      exact hempty _ fun q hq => hnotA _ rfl u hq.1.2
    · cases hu
  · simp only [LockState.setHasLocks]
    rw [if_pos (hlive tid thr htid)]
    rfl
  · simp only [LockState.setHasLocks, Function.update_apply] at hp
    split at hp
    · next heq =>
      subst heq
      obtain rfl := Option.some.inj hp
      exact ⟨Nat.one_pos, rfl, by simp [LockState.setHasLocks]⟩
    · cases hp

/-! ## Locks and their owners -/

/-- The locks are sane, they are found at their addresses, and the lock sets of the threads are the
locks that the threads hold. -/
structure LockState.Mirrors (st : LockState ε) : Prop where
  sane : ∀ p < st.nLocks, (st.locks p).isSane st.threads = true
  /-- Nobody else holds a lock that somebody has for writing. -/
  single : ∀ p < st.nLocks, (st.locks p).heldW = true →
    ∀ thr thr', (st.locks p).HeldBy thr → (st.locks p).HeldBy thr' → thr = thr'
  locksetA : ∀ thr t, st.threads thr = some t → ∀ p < st.nLocks,
    ∃ b, elemWS st.univLsets t.locksetA p = .ok b ∧ (b = true ↔ (st.locks p).HeldBy thr)
  locksetW : ∀ thr t, st.threads thr = some t → ∀ p < st.nLocks,
    ∃ b, elemWS st.univLsets t.locksetW p = .ok b ∧ (b = true ↔ (st.locks p).HeldBy thr ∧ (st.locks p).heldW = true)
  found : ∀ ga p, st.mapLocks ga = some p →
    p < st.nLocks ∧ (st.locks p).guestaddr = ga ∧ st.hasLocks (roundToSecMapBase ga) = true

theorem Denotes.elem_iff (h : Denotes univ ws P) (p : Nat) : ∃ b, elemWS univ ws p = .ok b ∧ (b = true ↔ P p) := by
  by_cases hp : P p
  · exact ⟨true, h.elem hp, iff_of_true rfl hp⟩
  · exact ⟨false, h.not_elem hp, iff_of_false Bool.false_ne_true hp⟩

/-- Two holders of a lock that is held for writing are one. -/
theorem LockN.Ok.holder_unique (h : lk.Ok threads) (hW : lk.heldW = true) {thr' : Nat} (hthr : lk.HeldBy thr)
    (hthr' : lk.HeldBy thr') : thr = thr' := by
  obtain ⟨bag, hbag, hmem⟩ := hthr
  have hmem' := (LockN.heldBy_iff hbag).mp hthr'
  have hcard := (h.single hW bag hbag).le
  exact Finset.card_le_one.mp hcard thr (Multiset.mem_toFinset.mpr hmem) thr' (Multiset.mem_toFinset.mpr hmem')

theorem LockInv.mirrors (h : LockInv st) : st.Mirrors where
  sane := fun p hp => (h.ok p hp).sane
  single := fun p hp hW _ _ hthr hthr' => (h.ok p hp).holder_unique hW hthr hthr'
  locksetA := fun thr t ht p hp => by
    obtain ⟨b, hrun, hb⟩ := (h.sets.setA thr t ht).elem_iff p
    exact ⟨b, hrun, hb.trans (and_iff_right hp)⟩
  locksetW := fun thr t ht p hp => by
    obtain ⟨b, hrun, hb⟩ := (h.sets.setW thr t ht).elem_iff p
    exact ⟨b, hrun, hb.trans (and_congr_left' (and_iff_right hp))⟩
  found := h.mapped

/-- An event that returns keeps the invariant. -/
theorem lockStep_inv (env : LockEnv ε) (h : LockInv st) {e : LockEvent} (htid : e.tid < vgNThreads)
    (hlive : st.mapThreads e.tid = some thr) (hrun : lockStep env st e = .ok st') :
    LockInv st' ∧ st'.mapThreads = st.mapThreads := by
  by_cases hreads : ReadsRwlock st e
  · obtain ⟨st₁, hstep, hinv, hmap, -⟩ := lockStep_keeps env h htid hlive hreads
    obtain rfl := Except.ok.inj (hstep.symm.trans hrun)
    exact ⟨hinv, hmap⟩
  · cases (lockStep_fails env h htid hlive hreads).symm.trans hrun

end

/-- **Misused locks.** Threads that are alive initialise, destroy, take and give back mutexes
and reader-writer locks at any addresses. No assertion fails in the run if and only if every
lock that is granted for reading was first seen as a reader-writer lock, or somebody has it for
writing. -/
theorem lockEvents_run {ε : Type} (env : LockEnv ε) {mapThreads : Nat → Option Nat} {thrs : List Nat} {busLock : Nat}
    {st₀ : LockState ε} (hzero : mapThreads 0 = none) (hlive : ∀ tid thr, mapThreads tid = some thr → thr ∈ thrs)
    (hinit : lockInit mapThreads thrs busLock = .ok st₀) {evs : List LockEvent}
    (halive : ∀ e ∈ evs, e.tid < vgNThreads ∧ (mapThreads e.tid).isSome) :
    (∃ st', runSteps (lockStep env) st₀ evs = .ok st') ↔ runMeets (lockStep env) ReadsRwlock st₀ evs := by
  refine runSteps_iff_meets (fun st => LockInv st ∧ st.mapThreads = mapThreads)
    (fun st e h ha hreads => ?_) (fun st e h ha hreads => ?_) (lockInit_inv hzero hlive hinit) (runMeets_of_mem halive st₀)
  all_goals
    obtain ⟨hinv, rfl⟩ := h
    obtain ⟨thr, hthr⟩ := Option.isSome_iff_exists.mp ha.2
  · obtain ⟨st', hstep, hinv', hmap, -⟩ := lockStep_keeps env hinv ha.1 hthr hreads
    exact ⟨st', hstep, hinv', hmap⟩
  · exact ⟨_, lockStep_fails env hinv ha.1 hthr hreads⟩

/-- **The lock sets mirror ownership**, after every run of initialisations, destructions, lock and
unlock events of mutexes and reader-writer locks, issued by live threads at any addresses. -/
theorem locksets_mirror {ε : Type} (env : LockEnv ε) {mapThreads : Nat → Option Nat} {thrs : List Nat} {busLock : Nat}
    {st₀ st : LockState ε} (hzero : mapThreads 0 = none) (hlive : ∀ tid thr, mapThreads tid = some thr → thr ∈ thrs)
    (hinit : lockInit mapThreads thrs busLock = .ok st₀) {evs : List LockEvent}
    (halive : ∀ e ∈ evs, e.tid < vgNThreads ∧ (mapThreads e.tid).isSome)
    (hrun : runSteps (lockStep env) st₀ evs = .ok st) : st.Mirrors := by
  have hkeeps : ∀ {s s' : LockState ε} {e : LockEvent}, LockInv s ∧ s.mapThreads = mapThreads →
      e.tid < vgNThreads ∧ (mapThreads e.tid).isSome → lockStep env s e = .ok s' →
        LockInv s' ∧ s'.mapThreads = mapThreads := by
    intro s s' e h ha hstep
    obtain ⟨hinv, rfl⟩ := h
    obtain ⟨thr, hthr⟩ := Option.isSome_iff_exists.mp ha.2
    exact lockStep_inv env hinv ha.1 hthr hstep
  have hinv := runSteps_inv_of_meets hkeeps (lockInit_inv hzero hlive hinit) (runMeets_of_mem halive st₀) hrun
  exact hinv.1.mirrors

/-- One thread, whose number is 1. -/
def oneThread : Nat → Option Nat := fun tid => if tid = 1 then some 0 else none

/-- Mutexes are searched for in the order of their numbers. -/
def anEnv : LockEnv Unit where
  context := fun _ => ()
  anyElement := fun bag => ((bag.toFinset.sort (· ≤ ·))[0]?).getD 0
  any_mem := by
    intro bag hbag
    obtain ⟨a, ha⟩ := Multiset.exists_mem_of_ne_zero hbag
    have hmem : a ∈ bag.toFinset.sort (· ≤ ·) := (Finset.mem_sort _).mpr (Multiset.mem_toFinset.mpr ha)
    have hpos := List.length_pos_of_mem hmem
    rw [List.getElem?_eq_getElem hpos]
    exact Multiset.mem_toFinset.mp ((Finset.mem_sort _).mp (List.getElem_mem hpos))

theorem oneThread_live : ∀ tid thr, oneThread tid = some thr → thr ∈ [0] := by
  intro tid thr h
  simp only [oneThread] at h
  split at h
  · rw [← Option.some.inj h]
    exact List.mem_singleton.mpr rfl
  · cases h

theorem exists_lockInit (mapThreads : Nat → Option Nat) (thrs : List Nat) (busLock : Nat) : ∃ st₀ : LockState Unit,
    lockInit mapThreads thrs busLock = .ok st₀ ∧ st₀.mapLocks = Function.update (fun _ => none) busLock (some 0) := by
  obtain ⟨univ, hnew, -⟩ := newWordSetU_spec (by decide : 1 ≤ 8) (by decide)
  obtain ⟨lg₀, hlaog, -⟩ := laogInit_spec (ε := Unit)
  rw [lockInit, hnew, ok_bind, hlaog]
  exact ⟨_, rfl, rfl⟩

/-- A thread takes a mutex and destroys it. -/
theorem lockEvents_run_destroyed : ∃ st₀ : LockState Unit, lockInit oneThread [0] 8 = .ok st₀ ∧
    ((∃ st', runSteps (lockStep anEnv) st₀ [.mutexLockPost 1 64, .mutexDestroyPre 1 64] = .ok st') ↔
      runMeets (lockStep anEnv) ReadsRwlock st₀ [.mutexLockPost 1 64, .mutexDestroyPre 1 64]) := by
  obtain ⟨st₀, hst₀, -⟩ := exists_lockInit oneThread [0] 8
  refine ⟨st₀, hst₀, lockEvents_run anEnv (rfl : oneThread 0 = none) oneThread_live hst₀ ?_⟩
  rw [List.forall_mem_cons, List.forall_mem_singleton]
  exact ⟨⟨by decide, rfl⟩, by decide, rfl⟩

/-- A thread takes a mutex. -/
theorem locksets_mirror_locked : ∃ st₀ st : LockState Unit, lockInit oneThread [0] 8 = .ok st₀ ∧
    runSteps (lockStep anEnv) st₀ [.mutexLockPost 1 64] = .ok st ∧ st.Mirrors := by
  obtain ⟨st₀, hst₀, -⟩ := exists_lockInit oneThread [0] 8
  obtain ⟨h₀, hmap⟩ := lockInit_inv rfl oneThread_live hst₀
  have hlive : st₀.mapThreads (LockEvent.mutexLockPost 1 64).tid = some 0 := by
    rw [hmap]
    rfl
  obtain ⟨st, hstep, -⟩ := lockStep_keeps anEnv h₀ (by decide) hlive trivial
  have hrun : runSteps (lockStep anEnv) st₀ [.mutexLockPost 1 64] = .ok st := runSteps_cons.mpr ⟨st, hstep, rfl⟩
  refine ⟨st₀, st, hst₀, hrun, locksets_mirror anEnv (rfl : oneThread 0 = none) oneThread_live hst₀ ?_ hrun⟩
  rw [List.forall_mem_singleton]
  exact ⟨by decide, rfl⟩

/-- A mutex is initialised and then taken for reading by `pthread_rwlock_rdlock`. -/
theorem mutex_readLocked : ∃ st₀ : LockState Unit, lockInit oneThread [0] 8 = .ok st₀ ∧
    ¬ ∃ st', runSteps (lockStep anEnv) st₀ [.mutexInitPost 1 64 false, .rwlockLockPost 1 64 false] = .ok st' := by
  obtain ⟨st₀, hst₀, hlocks⟩ := exists_lockInit oneThread [0] 8
  obtain ⟨h₀, hmap⟩ := lockInit_inv rfl oneThread_live hst₀
  have hnone : st₀.mapLocks 64 = none := by
    rw [hlocks]
    rfl
  obtain ⟨p, st₁, hmake, hlook⟩ := mapLocksLookupOrCreate_spec anEnv h₀ .nonRec 64 (by decide : 1 < vgNThreads)
  have hstep : lockStep anEnv st₀ (.mutexInitPost 1 64 false) = .ok st₁ := by
    rw [lockStep, mutexInitPost, if_neg Bool.false_ne_true, hmake]
    rfl
  have hlive : st₁.mapThreads (LockEvent.rwlockLockPost 1 64 false).tid = some 0 := by
    rw [hlook.mapThreads, hmap]
    rfl
  obtain ⟨hkind, hheld⟩ := hlook.made hnone
  have hW := ((isSane_unheld hheld).mp (hlook.inv.ok p hlook.lt).sane).2
  have hfails := lockStep_fails anEnv hlook.inv (by decide) hlive fun hreads => by
    rcases hreads p hlook.found with hrdwr | hw
    · cases hkind.symm.trans hrdwr
    · cases hW.symm.trans hw
  refine ⟨st₀, hst₀, ?_⟩
  rintro ⟨st', hrun⟩
  obtain ⟨st₂, hst₂, hrest⟩ := runSteps_cons.mp hrun
  obtain rfl := Except.ok.inj (hstep.symm.trans hst₂)
  obtain ⟨st₃, hst₃, -⟩ := runSteps_cons.mp hrest
  cases hfails.symm.trans hst₃

end Helgrind

end Valgrind
