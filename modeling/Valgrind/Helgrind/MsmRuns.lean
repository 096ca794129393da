import Valgrind.Helgrind.Msm

/-!
# The lockset state machine is exact

`ByteState` says what one byte has seen, in sets of threads and locks and without universes and
encodings. One access takes a shadow word to the next `ByteState` (`msmHandle_fits`); a history
of accesses has a closed form (`touches_owned`, `touches_shared`). The two give `lockset_exact`.

The identifiers of thread sets and lock sets can be used up. The program ends then, so that
every statement about a run has this way out (`Fits`).
-/

namespace Valgrind

namespace Helgrind

/-- The code returns what `P` asks for, unless the identifiers of sets are used up. -/
def Fits {α : Type} (r : Result α) (P : α → Prop) : Prop := r = .error .tooLow ∨ ∃ a, r = .ok a ∧ P a

section Fits

variable {α β : Type} {r : Result α} {f : α → Result β} {P : α → Prop} {Q : β → Prop}

theorem Fits.bind (h : Fits r P) (hf : ∀ a, P a → Fits (f a) Q) : Fits (r >>= f) Q := by
  rcases h with rfl | ⟨a, rfl, ha⟩
  · exact .inl rfl
  · exact hf a ha

theorem fits_of_ok {a : α} (h : r = .ok a) (ha : P a) : Fits r P := .inr ⟨a, h, ha⟩

theorem Fits.of_ok {a : α} (h : Fits r P) (hr : r = .ok a) : P a := by
  rcases h with h | ⟨b, hb, hP⟩
  · exact nomatch hr.symm.trans h
  · rwa [← Except.ok.inj (hb.symm.trans hr)]

theorem Fits.self (h : Fits r P) : Fits r fun a => r = .ok a ∧ P a := by
  rcases h with h | ⟨a, ha, hP⟩
  · exact .inl h
  · exact .inr ⟨a, ha, ha, hP⟩

theorem Fits.mono {P' : α → Prop} (h : Fits r P) (hP : ∀ a, P a → P' a) : Fits r P' := by
  rcases h with h | ⟨a, ha, hPa⟩
  · exact .inl h
  · exact .inr ⟨a, ha, hP a hPa⟩

end Fits

/-! ## The universes -/

/-- Both universes are in order. -/
structure Msm.Inv (st : Msm) : Prop where
  tsets : st.univTsets.Inv
  lsets : st.univLsets.Inv

/-- The universes are in order, and what was an index still is one. -/
structure Grown (st st' : Msm) : Prop where
  inv : st'.Inv
  tsets : st.univTsets.ix2vec <+: st'.univTsets.ix2vec
  lsets : st.univLsets.ix2vec <+: st'.univLsets.ix2vec

/-- The locks that count for an access, by the lock sets of a universe. -/
def Access.locks (w : World) (univLsets : WordSetU) (x : Access) : Finset Nat :=
  if x.isWrite then (univLsets.den x.thr.locksetW).getD ∅
  else insert w.busLock ((univLsets.den x.thr.locksetA).getD ∅)

/-- The access is by a thread that runs: it has a slot, its current segment is its own, and its
lock sets come from the universe. -/
structure Access.Known (w : World) (st : Msm) (x : Access) : Prop where
  size : x.szB = 8 ∨ x.szB = 4 ∨ x.szB = 2 ∨ x.szB = 1
  slot : x.tid.isSome
  sane : isSaneSegmentID x.thr.csegid
  own : w.segThr x.thr.csegid = some x.thr.addr
  locksetA : x.thr.locksetA < st.univLsets.ix2vec.length
  locksetW : x.thr.locksetW < st.univLsets.ix2vec.length

section Universes

variable {w : World} {st st' st'' : Msm} {x : Access} {ws ws' : WordSet} {S T L : Finset Nat}

theorem Grown.refl (h : st.Inv) : Grown st st := ⟨h, List.prefix_rfl, List.prefix_rfl⟩

theorem Grown.trans (h : Grown st st') (h' : Grown st' st'') : Grown st st'' :=
  ⟨h'.inv, h.tsets.trans h'.tsets, h.lsets.trans h'.lsets⟩

theorem Grown.tden (h : Grown st st') (hS : st.univTsets.den ws = some S) : st'.univTsets.den ws = some S :=
  den_grows h.tsets hS

theorem Grown.lden (h : Grown st st') (hS : st.univLsets.den ws = some S) : st'.univLsets.den ws = some S :=
  den_grows h.lsets hS

theorem Access.Known.grows (hx : x.Known w st) (h : Grown st st') : x.Known w st' :=
  ⟨hx.size, hx.slot, hx.sane, hx.own, hx.locksetA.trans_le h.lsets.length_le, hx.locksetW.trans_le h.lsets.length_le⟩

/-- More lock sets do not change the locks of an access. -/
theorem Access.Known.locks_grows (hx : x.Known w st) (h : Grown st st') :
    x.locks w st'.univLsets = x.locks w st.univLsets := by
  obtain ⟨A, hA⟩ := den_of_lt hx.locksetA
  obtain ⟨W, hW⟩ := den_of_lt hx.locksetW
  unfold Access.locks
  rw [hA, hW, h.lden hA, h.lden hW]

theorem addBHL_grown (h : st.Inv) (hS : st.univLsets.den ws = some S) :
    ∃ st' r, addBHL w st ws = .ok (st', r) ∧ Grown st st' ∧ st'.univLsets.den r = some (insert w.busLock S) := by
  obtain ⟨univLsets, r, hrun, hg⟩ := addToWS_returns h.lsets hS w.busLock
  rw [addBHL, hrun]
  exact ⟨_, r, rfl, ⟨⟨h.tsets, hg.inv⟩, List.prefix_rfl, hg.grows⟩, hg.den⟩

theorem delBHL_grown (h : st.Inv) (hS : st.univLsets.den ws = some S) :
    ∃ st' r, delBHL w st ws = .ok (st', r) ∧ Grown st st' ∧ st'.univLsets.den r = some (S.erase w.busLock) := by
  obtain ⟨univLsets, r, hrun, hg⟩ := delFromWS_returns h.lsets hS w.busLock
  rw [delBHL, hrun]
  exact ⟨_, r, rfl, ⟨⟨h.tsets, hg.inv⟩, List.prefix_rfl, hg.grows⟩, hg.den⟩

theorem recordLossage_grown (h : st.Inv) (ga : Nat) (hS : st.univLsets.den ws = some S) :
    ∃ st', recordLossage w st ga ws = .ok st' ∧ Grown st st' := by
  obtain ⟨st', r, hdel, hg, hr⟩ := delBHL_grown (w := w) h hS
  have hdet : ∀ m, Grown st { st' with gaToLastlock := m } := fun m => ⟨⟨hg.inv.tsets, hg.inv.lsets⟩, hg.tsets, hg.lsets⟩
  rw [recordLossage, hdel, ok_bind]
  dsimp only
  rw [cardinalityWS_den hg.inv.lsets hr, ok_bind]
  by_cases hcard : (S.erase w.busLock).card = 0
  · rw [if_pos hcard]
    exact ⟨st', rfl, hg⟩
  have hne : S.erase w.busLock ≠ ∅ := mt Finset.card_eq_zero.mpr hcard
  obtain ⟨lk, -, hany⟩ := anyElementOfWS_den hr hne
  rw [if_neg hcard, assertThat_of (Nat.pos_of_ne_zero hcard), ok_bind, isEmptyWS_den hg.inv.lsets hr, ok_bind,
    assertThat_of (decide_eq_false hne), ok_bind, hany, ok_bind]
  cases w.appearedAt lk with
  | none => exact ⟨st', rfl, hg⟩
  | some ec => exact ⟨_, rfl, hdet _⟩

theorem recordLastLockLossage_grown (h : st.Inv) (ga : Nat) (hne : ws ≠ ws') (hS : st.univLsets.den ws = some S)
    (hT : st.univLsets.den ws' = some T) : ∃ st', recordLastLockLossage w st ga ws ws' = .ok st' ∧ Grown st st' := by
  obtain ⟨st', r, hdel, hg, hr⟩ := delBHL_grown (w := w) h hT
  rw [recordLastLockLossage, assertThat_of hne, ok_bind, hdel, ok_bind]
  dsimp only
  rw [isEmptyWS_den hg.inv.lsets hr, ok_bind]
  by_cases hempty : T.erase w.busLock = ∅
  · obtain ⟨st'', hrec, hg'⟩ := recordLossage_grown (w := w) hg.inv ga (hg.lden hS)
    refine ⟨st'', ?_, hg.trans hg'⟩
    rw [if_neg (by simp [hempty]), cardinalityWS_den hg.inv.lsets hr, ok_bind,
      assertThat_of (Finset.card_eq_zero.mpr hempty), ok_bind, hrec]
  · refine ⟨st', ?_, hg⟩
    rw [if_pos (decide_eq_false hempty)]
    rfl

theorem noteLossage_grown (h : st.Inv) (hS : st.univLsets.den ws = some S) (hT : st.univLsets.den ws' = some T) :
    ∃ st', noteLossage w st x ws ws' = .ok st' ∧ Grown st st' := by
  unfold noteLossage
  by_cases hne : ws ≠ ws'
  · rw [if_pos hne]
    exact recordLastLockLossage_grown h x.a hne hS hT
  · rw [if_neg hne]
    exact ⟨st, rfl, Grown.refl h⟩

theorem accessLocks_grown (h : st.Inv) (hx : x.Known w st) :
    ∃ st' r, accessLocks w st x = .ok (st', r) ∧ Grown st st' ∧
      st'.univLsets.den r = some (x.locks w st.univLsets) := by
  obtain ⟨A, hA⟩ := den_of_lt hx.locksetA
  obtain ⟨W, hW⟩ := den_of_lt hx.locksetW
  unfold accessLocks Access.locks
  by_cases hw : x.isWrite
  · rw [if_pos hw, if_pos hw, hW]
    exact ⟨st, _, rfl, Grown.refl h, hW⟩
  · rw [if_neg hw, if_neg hw, hA]
    exact addBHL_grown h hA

theorem enterShared_grown (h : st.Inv) (hx : x.Known w st) {segidOld : SegmentID} {thrOld : Nat}
    (hold : w.segThr segidOld = some thrOld) :
    ∃ st' t l, enterShared w st x segidOld = .ok (st', t, l) ∧ Grown st st' ∧
      st'.univTsets.den t = some {thrOld, x.thr.addr} ∧ st'.univLsets.den l = some (x.locks w st.univLsets) := by
  obtain ⟨univTsets, t, hdbl, hgt⟩ := doubletonWS_returns h.tsets thrOld x.thr.addr
  have hg : Grown st { st with univTsets := univTsets } := ⟨⟨hgt.inv, h.lsets⟩, hgt.grows, List.prefix_rfl⟩
  obtain ⟨st', l, hlocks, hg', hl⟩ := accessLocks_grown hg.inv (hx.grows hg)
  refine ⟨st', t, l, ?_, hg.trans hg', hg'.tden hgt.den, ?_⟩
  · rw [enterShared, hold]
    simp only [hdbl, ok_bind, hlocks]
    rfl
  · rw [hl, hx.locks_grows hg]

theorem refineShared_grown (h : st.Inv) (hx : x.Known w st) (hT : st.univTsets.den ws = some T)
    (hL : st.univLsets.den ws' = some L) :
    ∃ st' t l, refineShared w st x ws ws' = .ok (st', t, l) ∧ Grown st st' ∧
      st'.univTsets.den t = some (insert x.thr.addr T) ∧
      st'.univLsets.den l = some (L ∩ x.locks w st.univLsets) := by
  obtain ⟨univTsets, t, hadd, hgt⟩ := addToWS_returns h.tsets hT x.thr.addr
  have hg : Grown st { st with univTsets := univTsets } := ⟨⟨hgt.inv, h.lsets⟩, hgt.grows, List.prefix_rfl⟩
  obtain ⟨st₁, locks, hlocks, hg₁, hl⟩ := accessLocks_grown hg.inv (hx.grows hg)
  obtain ⟨univLsets, l, hint, hgl⟩ := intersectWS_returns hg₁.inv.lsets (hg₁.lden (hg.lden hL)) hl
  have hg₂ : Grown st₁ { st₁ with univLsets := univLsets } := ⟨⟨hg₁.inv.tsets, hgl.inv⟩, List.prefix_rfl, hgl.grows⟩
  refine ⟨_, t, l, ?_, (hg.trans hg₁).trans hg₂, hg₁.tden hgt.den, ?_⟩
  · simp only [refineShared, hadd, ok_bind, hlocks, hint]
    rfl
  · rw [hx.locks_grows hg] at hgl
    exact hgl.den

end Universes

/-! ## One access -/

/-- What a byte has seen. -/
inductive ByteState where
  | new
  | excl (tseg : SegmentID)
  | shared (modified : Bool) (tset lset : Finset Nat)

/-- The byte can be modified by several threads, and no lock protects it. -/
def ByteState.Racy : ByteState → Prop
  | .shared true _ lset => lset = ∅
  | _ => False

/-- What the state machine looks at in an access. -/
structure Touch where
  isWrite : Bool
  thr : Nat
  tseg : SegmentID
  locks : Finset Nat

/-- The touch of an access. -/
def Access.touch (w : World) (univLsets : WordSetU) (x : Access) : Touch :=
  ⟨x.isWrite, x.thr.addr, x.thr.csegid, x.locks w univLsets⟩

/-- The segment `tseg` is the recorded one, or happens after it. -/
def Follows (w : World) (recorded tseg : SegmentID) : Prop := recorded = tseg ∨ w.happensBefore recorded tseg = true

instance (w : World) (s t : SegmentID) : Decidable (Follows w s t) := inferInstanceAs (Decidable (_ ∨ _))

/-- What a byte has seen after a touch. -/
def ByteState.touch (w : World) (b : ByteState) (x : Touch) : ByteState :=
  match b with
  | .new => .excl x.tseg
  | .excl recorded =>
    if Follows w recorded x.tseg then .excl x.tseg
    else .shared x.isWrite {(w.segThr recorded).getD 0, x.thr} x.locks
  | .shared modified tset lset => .shared (modified || x.isWrite) (insert x.thr tset) (lset ∩ x.locks)

/-- The shadow word of a byte. -/
def Encodes (w : World) (st : Msm) (w32 : SVal) : ByteState → Prop
  | .new => Says w32 .new
  | .excl tseg => Says w32 (.excl tseg) ∧ (w.segThr tseg).isSome
  | .shared modified tset lset => ∃ t l, Says w32 (if modified then .shM t l else .shR t l) ∧
      st.univTsets.den t = some tset ∧ st.univLsets.den l = some lset

/-- A race is reported if `fresh` holds, and none otherwise. -/
structure Reports (x : Access) (wold wnew : SVal) (fresh : Prop) (races : List Race) : Prop where
  quiet : ¬ fresh → races = []
  report : fresh → ∃ mbLastlock, races = [⟨x.thr.addr, x.a, x.isWrite, x.szB, wold, wnew, mbLastlock⟩]

/-- What an access leaves behind. -/
structure Handled (w : World) (st : Msm) (x : Access) (b : ByteState) (wold : SVal) (r : Msm × SVal × List Race) :
    Prop where
  grown : Grown st r.1
  encodes : Encodes w r.1 r.2.1 (b.touch w (x.touch w st.univLsets))
  reports : Reports x wold r.2.1 ((b.touch w (x.touch w st.univLsets)).Racy ∧ ¬ b.Racy) r.2.2

section Handlers

variable {w : World} {st st' : Msm} {x : Access} {b : ByteState} {wold w32 : SVal} {recorded : SegmentID}
  {m : Bool} {T L : Finset Nat}

theorem Encodes.grows (h : Encodes w st w32 b) (hg : Grown st st') : Encodes w st' w32 b := by
  cases b with
  | new => exact h
  | excl tseg => exact h
  | shared m T L =>
    obtain ⟨t, l, hsaid, ht, hl⟩ := h
    exact ⟨t, l, hsaid, hg.tden ht, hg.lden hl⟩

theorem recordErrorRace_of (hx : x.Known w st) (wold wnew : SVal) (mbLastlock : Option Nat) :
    recordErrorRace x wold wnew mbLastlock = .ok ⟨x.thr.addr, x.a, x.isWrite, x.szB, wold, wnew, mbLastlock⟩ := by
  rw [recordErrorRace, assertThat_of hx.size, ok_bind, assertThat_of hx.slot]
  rfl

/-- The word goes to `Excl` of the accessing segment. -/
theorem excl_handled (h : st.Inv) (hx : x.Known w st) (hb : b.touch w (x.touch w st.univLsets) = .excl x.thr.csegid) :
    Fits (mkShvalExcl x.thr.csegid >>= fun wnew => return (st, wnew, [])) (Handled w st x b wold) := by
  obtain ⟨wnew, hmk, hsaid⟩ := says_mkShvalExcl hx.sane
  rw [hmk, ok_bind]
  refine fits_of_ok rfl ⟨Grown.refl h, ?_, ?_⟩
  · rw [hb]
    exact ⟨hsaid, by rw [hx.own]; rfl⟩
  · rw [hb]
    exact ⟨fun _ => rfl, fun hfresh => hfresh.1.elim⟩

/-- The word stays. -/
theorem same_handled (h : st.Inv) (hw : Encodes w st wold (.excl x.thr.csegid))
    (hb : b.touch w (x.touch w st.univLsets) = .excl x.thr.csegid) :
    Fits (return (st, wold, [])) (Handled w st x b wold) := by
  refine fits_of_ok rfl ⟨Grown.refl h, hb ▸ hw, ?_⟩
  rw [hb]
  exact ⟨fun _ => rfl, fun hfresh => hfresh.1.elim⟩

/-- Memory that is new. -/
theorem handle_new (h : st.Inv) (hx : x.Known w st) (hw : Encodes w st wold .new) :
    Fits (msmHandle w st x wold) (Handled w st x .new wold) := by
  have hkind : wold >>> 30 = 0 := Says.new_kind hw
  have hexcl : ¬ isShvalExcl wold := fun hk => nomatch hkind.symm.trans hk
  have hshR : ¬ isShvalShR wold := fun hk => nomatch hkind.symm.trans hk
  have hshM : ¬ isShvalShM wold := fun hk => nomatch hkind.symm.trans hk
  have hnew : isShvalNew wold := hw
  unfold msmHandle msmHandleRead msmHandleWrite
  rw [if_pos hnew, if_neg hexcl, if_neg hshR, if_neg hshM, if_pos hnew, ite_self]
  exact excl_handled h hx rfl

/-- The last step of a handler: the race is reported if `report` holds. -/
theorem report_handled {report : Prop} [Decidable report] {tset lset : WordSet} (hx : x.Known w st)
    (hg : Grown st st') (hsaid : Says w32 (if m then .shM tset lset else .shR tset lset))
    (ht : st'.univTsets.den tset = some T) (hl : st'.univLsets.den lset = some L)
    (hb : b.touch w (x.touch w st.univLsets) = .shared m T L)
    (hfresh : (b.touch w (x.touch w st.univLsets)).Racy ∧ ¬ b.Racy ↔ report) :
    Fits (if report then do
        let race ← recordErrorRace x wold w32 (maybeGetLastlockInitpoint st' x.a)
        return (st', w32, [race])
      else return (st', w32, [])) (Handled w st x b wold) := by
  have henc : Encodes w st' w32 (b.touch w (x.touch w st.univLsets)) := by
    rw [hb]
    exact ⟨tset, lset, hsaid, ht, hl⟩
  by_cases hr : report
  · rw [if_pos hr, recordErrorRace_of hx]
    exact fits_of_ok rfl ⟨hg, henc, fun hn => absurd (hfresh.mpr hr) hn, fun _ => ⟨_, rfl⟩⟩
  · rw [if_neg hr]
    exact fits_of_ok rfl ⟨hg, henc, fun _ => rfl, fun hn => absurd (hfresh.mp hn) hr⟩

/-- Memory that one segment owns. -/
theorem handle_excl (h : st.Inv) (hx : x.Known w st) (hw : Encodes w st wold (.excl recorded)) :
    Fits (msmHandle w st x wold) (Handled w st x (.excl recorded) wold) := by
  obtain ⟨hsaid, hsome⟩ := hw
  obtain ⟨thrOld, hold⟩ := Option.isSome_iff_exists.mp hsome
  have hsane : isSaneSegmentID recorded := hsaid.1
  have hkind : isShvalExcl wold := hsaid.excl_kind
  have hnew : ¬ isShvalNew wold := by
    rintro rfl
    exact nomatch hsaid.excl_kind
  have howner : (w.segThr recorded).getD 0 = thrOld := by
    rw [hold]
    rfl
  by_cases heq : recorded = x.thr.csegid
  · subst heq
    have hb : (ByteState.excl x.thr.csegid).touch w (x.touch w st.univLsets) = .excl x.thr.csegid := if_pos (.inl rfl)
    have hread : msmHandleRead w st x wold = return (st, wold, []) := by
      rw [msmHandleRead, if_pos hkind, hsaid.unExcl, ok_bind, assertThat_of hsane, ok_bind, if_pos rfl]
    have hwrite : msmHandleWrite w st x wold = return (st, wold, []) := by
      rw [msmHandleWrite, if_neg hnew, if_pos hkind, hsaid.unExcl, ok_bind, assertThat_of hsane, ok_bind, if_pos rfl]
    rw [msmHandle, hread, hwrite, ite_self]
    exact same_handled h ⟨hsaid, hsome⟩ hb
  by_cases hhb : w.happensBefore recorded x.thr.csegid = true
  · have hb : (ByteState.excl recorded).touch w (x.touch w st.univLsets) = .excl x.thr.csegid := if_pos (.inr hhb)
    have hread : msmHandleRead w st x wold = (mkShvalExcl x.thr.csegid >>= fun wnew => return (st, wnew, [])) := by
      rw [msmHandleRead, if_pos hkind, hsaid.unExcl, ok_bind, assertThat_of hsane, ok_bind, if_neg heq, if_pos hhb]
    have hwrite : msmHandleWrite w st x wold = (mkShvalExcl x.thr.csegid >>= fun wnew => return (st, wnew, [])) := by
      rw [msmHandleWrite, if_neg hnew, if_pos hkind, hsaid.unExcl, ok_bind, assertThat_of hsane, ok_bind, if_neg heq,
        if_pos hhb]
    rw [msmHandle, hread, hwrite, ite_self]
    exact excl_handled h hx hb
  have hnot : ¬ Follows w recorded (x.touch w st.univLsets).tseg := not_or.mpr ⟨heq, hhb⟩
  have hb : (ByteState.excl recorded).touch w (x.touch w st.univLsets) =
      .shared x.isWrite {thrOld, x.thr.addr} (x.locks w st.univLsets) := by
    rw [ByteState.touch, if_neg hnot, howner]
    rfl
  obtain ⟨st', t, l, henter, hg, ht, hl⟩ := enterShared_grown h hx hold
  by_cases hwr : x.isWrite = true
  · rw [msmHandle, if_pos hwr, msmHandleWrite, if_neg hnew, if_pos hkind, hsaid.unExcl, ok_bind, assertThat_of hsane,
      ok_bind, if_neg heq, if_neg hhb, henter, ok_bind]
    refine Fits.bind (says_mkShvalShM t l).symm fun wnew hmade => ?_
    rw [isEmptyWS_den hg.inv.lsets hl, ok_bind]
    refine report_handled (m := true) hx hg hmade ht hl (hwr ▸ hb) ?_
    rw [hb, hwr, decide_eq_true_iff]
    exact and_iff_left (fun hr => hr)
  · rw [msmHandle, if_neg hwr, msmHandleRead, if_pos hkind, hsaid.unExcl, ok_bind, assertThat_of hsane,
      ok_bind, if_neg heq, if_neg hhb, henter, ok_bind]
    rw [Bool.not_eq_true] at hwr
    refine Fits.bind (says_mkShvalShR t l).symm fun wnew hmade => ?_
    have hquiet : Fits (if False then do
        let race ← recordErrorRace x wold wnew (maybeGetLastlockInitpoint st' x.a)
        return (st', wnew, [race])
      else return (st', wnew, [])) (Handled w st x (.excl recorded) wold) := by
      refine report_handled (m := false) hx hg hmade ht hl (hwr ▸ hb) ?_
      rw [hb, hwr]
      exact ⟨fun hr => hr.1, fun hf => hf.elim⟩
    rwa [if_neg id] at hquiet

/-- Memory that several threads read. -/
theorem handle_shR (h : st.Inv) (hx : x.Known w st) (hw : Encodes w st wold (.shared false T L)) :
    Fits (msmHandle w st x wold) (Handled w st x (.shared false T L) wold) := by
  obtain ⟨told, lold, hsaid, hT, hL⟩ := hw
  have hkind : wold >>> 30 = 2 := hsaid.shR_kind
  have hnew : ¬ isShvalNew wold := by
    rintro rfl
    exact nomatch hkind
  have hexcl : ¬ isShvalExcl wold := fun hk => nomatch hkind.symm.trans hk
  have hshR : isShvalShR wold := hkind
  obtain ⟨htset, hlset⟩ := hsaid.unShR
  obtain ⟨st₁, t, l, hrefine, hg₁, ht, hl⟩ := refineShared_grown h hx hT hL
  obtain ⟨st₂, hnote, hg₂⟩ := noteLossage_grown (w := w) (x := x) hg₁.inv (hg₁.lden hL) hl
  have hg := hg₁.trans hg₂
  have hb : (ByteState.shared false T L).touch w (x.touch w st.univLsets) =
      .shared x.isWrite (insert x.thr.addr T) (L ∩ x.locks w st.univLsets) := rfl
  by_cases hwr : x.isWrite = true
  · rw [msmHandle, if_pos hwr, msmHandleWrite, if_neg hnew, if_neg hexcl, if_pos hshR, htset, ok_bind, hlset, ok_bind,
      hrefine, ok_bind]
    refine Fits.bind (says_mkShvalShM t l).symm fun wnew hmade => ?_
    rw [hnote, ok_bind, isEmptyWS_den hg₂.inv.lsets (hg₂.lden hl), ok_bind]
    refine report_handled (m := true) hx hg hmade (hg₂.tden ht) (hg₂.lden hl) (hwr ▸ hb) ?_
    rw [hb, hwr, decide_eq_true_iff]
    exact and_iff_left (fun hr => hr)
  · rw [msmHandle, if_neg hwr, msmHandleRead, if_neg hexcl, if_pos hshR, htset, ok_bind, hlset, ok_bind, hrefine, ok_bind]
    rw [Bool.not_eq_true] at hwr
    refine Fits.bind (says_mkShvalShR t l).symm fun wnew hmade => ?_
    rw [hnote, ok_bind]
    have hquiet : Fits (if False then do
        let race ← recordErrorRace x wold wnew (maybeGetLastlockInitpoint st₂ x.a)
        return (st₂, wnew, [race])
      else return (st₂, wnew, [])) (Handled w st x (.shared false T L) wold) := by
      refine report_handled (m := false) hx hg hmade (hg₂.tden ht) (hg₂.lden hl) (hwr ▸ hb) ?_
      rw [hb, hwr]
      exact ⟨fun hr => hr.1, fun hf => hf.elim⟩
    rwa [if_neg id] at hquiet

/-- Memory that several threads read and write. -/
theorem handle_shM (h : st.Inv) (hx : x.Known w st) (hw : Encodes w st wold (.shared true T L)) :
    Fits (msmHandle w st x wold) (Handled w st x (.shared true T L) wold) := by
  obtain ⟨told, lold, hsaid, hT, hL⟩ := hw
  have hkind : wold >>> 30 = 3 := hsaid.shM_kind
  have hnew : ¬ isShvalNew wold := by
    rintro rfl
    exact nomatch hkind
  have hexcl : ¬ isShvalExcl wold := fun hk => nomatch hkind.symm.trans hk
  have hshR : ¬ isShvalShR wold := fun hk => nomatch hkind.symm.trans hk
  have hshM : isShvalShM wold := hkind
  obtain ⟨htset, hlset⟩ := hsaid.unShM
  obtain ⟨st₁, t, l, hrefine, hg₁, ht, hl⟩ := refineShared_grown h hx hT hL
  obtain ⟨st₂, hnote, hg₂⟩ := noteLossage_grown (w := w) (x := x) hg₁.inv (hg₁.lden hL) hl
  have hg := hg₁.trans hg₂
  -- a read and a write do the same once the locks are known
  have hsame : msmHandle w st x wold = (do
      let wnew ← mkShvalShM t l
      let st₂ ← noteLossage w st₁ x lold l
      let emptyNew ← isEmptyWS st₂.univLsets l
      let emptyOld ← isEmptyWS st₂.univLsets lold
      if emptyNew = true ∧ emptyOld = false then do
        let race ← recordErrorRace x wold wnew (maybeGetLastlockInitpoint st₂ x.a)
        return (st₂, wnew, [race])
      else return (st₂, wnew, [])) := by
    unfold msmHandle
    split
    · rw [msmHandleWrite, if_neg hnew, if_neg hexcl, if_neg hshR, if_pos hshM, htset, ok_bind, hlset, ok_bind, hrefine,
        ok_bind]
    · rw [msmHandleRead, if_neg hexcl, if_neg hshR, if_pos hshM, htset, ok_bind, hlset, ok_bind, hrefine, ok_bind]
  rw [hsame]
  refine Fits.bind (says_mkShvalShM t l).symm fun wnew hmade => ?_
  rw [hnote, ok_bind, isEmptyWS_den hg₂.inv.lsets (hg₂.lden hl), ok_bind, isEmptyWS_den hg₂.inv.lsets (hg.lden hL), ok_bind]
  refine report_handled (m := true) hx hg hmade (hg₂.tden ht) (hg₂.lden hl) rfl ?_
  rw [decide_eq_true_iff, decide_eq_false_iff_not]
  exact Iff.rfl

/-- **One access** takes a shadow word from what its byte has seen to what it has seen then. -/
theorem msmHandle_fits (h : st.Inv) (hx : x.Known w st) (hw : Encodes w st wold b) :
    Fits (msmHandle w st x wold) (Handled w st x b wold) := by
  match b with
  | .new => exact handle_new h hx hw
  | .excl recorded => exact handle_excl h hx hw
  | .shared false T L => exact handle_shR h hx hw
  | .shared true T L => exact handle_shM h hx hw

end Handlers

/-! ## Histories -/

/-- The accesses from the first one on whose segment does not follow the recorded one, and the
access before them, whose segment is recorded. -/
def since (w : World) : List Access → Option (Access × List Access)
  | own :: x :: rest => if Follows w own.thr.csegid x.thr.csegid then since w (x :: rest) else some (own, x :: rest)
  | _ => none

section Histories

variable {w : World} {x own : Access} {hist rest accs : List Access} (univLsets : WordSetU)

/-- A shared byte collects threads and loses locks. -/
theorem touches_shared (m : Bool) (T L : Finset Nat) (l : List Touch) :
    ∃ T' L', l.foldl (ByteState.touch w) (.shared m T L) = .shared (m || l.any Touch.isWrite) T' L' ∧
      (∀ t, t ∈ T' ↔ t ∈ T ∨ ∃ y ∈ l, y.thr = t) ∧ ∀ lk, lk ∈ L' ↔ lk ∈ L ∧ ∀ y ∈ l, lk ∈ y.locks := by
  induction l generalizing m T L with
  | nil => exact ⟨T, L, by simp, by simp, by simp⟩
  | cons y l ih =>
    obtain ⟨T', L', hfold, hT, hL⟩ := ih (m || y.isWrite) (insert y.thr T) (L ∩ y.locks)
    refine ⟨T', L', ?_, fun t => ?_, fun lk => ?_⟩
    · rw [List.foldl_cons, ByteState.touch, hfold, List.any_cons, Bool.or_assoc]
    · rw [hT, Finset.mem_insert, eq_comm]
      simp only [List.mem_cons, exists_eq_or_imp]
      grind
    · rw [hL, Finset.mem_inter, List.forall_mem_cons, and_assoc]

/-- Before a stranger comes, the byte belongs to the segment that accessed it last. -/
theorem touches_owned (h : since w (x :: rest) = none) :
    ∃ own, (x :: rest).getLast? = some own ∧
      (rest.map (Access.touch w univLsets)).foldl (ByteState.touch w) (.excl x.thr.csegid) = .excl own.thr.csegid := by
  induction rest generalizing x with
  | nil => exact ⟨x, rfl, rfl⟩
  | cons y rest ih =>
    rw [since] at h
    split at h
    · next hfollows =>
      obtain ⟨own, hlast, hfold⟩ := ih h
      refine ⟨own, by rw [List.getLast?_cons_cons, hlast], ?_⟩
      rw [List.map_cons, List.foldl_cons, ByteState.touch]
      exact (congrArg (List.foldl _ · _) (if_pos hfollows)).trans hfold
    · exact nomatch h

/-- From the stranger's access on, the byte is shared. -/
theorem touches_since (hown : ∀ y ∈ x :: rest, w.segThr y.thr.csegid = some y.thr.addr)
    (h : since w (x :: rest) = some (own, accs)) :
    ∃ T L, (rest.map (Access.touch w univLsets)).foldl (ByteState.touch w) (.excl x.thr.csegid) =
        .shared (accs.any Access.isWrite) T L ∧
      (∀ t, t ∈ T ↔ t = own.thr.addr ∨ ∃ y ∈ accs, y.thr.addr = t) ∧
      ∀ lk, lk ∈ L ↔ ∀ y ∈ accs, lk ∈ y.locks w univLsets := by
  induction rest generalizing x with
  | nil => exact nomatch h
  | cons y rest ih =>
    rw [since] at h
    rw [List.map_cons, List.foldl_cons, ByteState.touch]
    split at h
    · next hfollows =>
      obtain ⟨T, L, hfold, hT, hL⟩ := ih (fun z hz => hown z (List.mem_cons_of_mem _ hz)) h
      exact ⟨T, L, (congrArg (List.foldl _ · _) (if_pos hfollows)).trans hfold, hT, hL⟩
    · next hfollows =>
      obtain ⟨rfl, rfl⟩ := Prod.mk.inj (Option.some.inj h)
      have howner : (w.segThr x.thr.csegid).getD 0 = x.thr.addr := by
        rw [hown x List.mem_cons_self]
        rfl
      obtain ⟨T, L, hfold, hT, hL⟩ := touches_shared (w := w) y.isWrite {x.thr.addr, y.thr.addr}
        (y.locks w univLsets) (rest.map (Access.touch w univLsets))
      have hany : (rest.map (Access.touch w univLsets)).any Touch.isWrite = rest.any Access.isWrite := by
        rw [List.any_map]
        rfl
      refine ⟨T, L, ?_, fun t => ?_, fun lk => ?_⟩
      · rw [howner, List.any_cons, ← hany]
        exact (congrArg (List.foldl _ · _) (if_neg hfollows)).trans hfold
      · rw [hT, Finset.mem_insert, Finset.mem_singleton, or_assoc, @eq_comm _ t y.thr.addr]
        simp only [List.mem_map, List.mem_cons, exists_eq_or_imp, exists_exists_and_eq_and]
        exact Iff.rfl
      · rw [hL, List.forall_mem_map, List.forall_mem_cons]
        exact Iff.rfl

end Histories

/-! ## Runs -/

/-- What happens while one byte is watched. -/
inductive Event where
  /-- The byte is read or written. -/
  | access (x : Access)
  /-- Something else makes thread sets. -/
  | tsets (op : Op)
  /-- Something else makes lock sets: a thread gets or gives up a lock, another byte is accessed. -/
  | lsets (op : Op)
  /-- Another byte has lost its locks. -/
  | lastlock (ga : Nat) (ec : Nat)

/-- The state machine, the shadow word of the byte, and the races reported for it. -/
structure Watched where
  st : Msm
  w32 : SVal
  races : List Race

/-- The accesses of the byte. -/
def history (events : List Event) : List Access :=
  events.filterMap fun
    | .access x => some x
    | _ => none

/-- One event. -/
def watch (w : World) (s : Watched) : Event → Result Watched
  | .access x => do
    let (st, wnew, races) ← msmHandle w s.st x s.w32
    return ⟨st, wnew, s.races ++ races⟩
  | .tsets op => do
    let univTsets ← stepU s.st.univTsets op
    return { s with st := { s.st with univTsets := univTsets } }
  | .lsets op => do
    let univLsets ← stepU s.st.univLsets op
    return { s with st := { s.st with univLsets := univLsets } }
  | .lastlock ga ec => return { s with st := { s.st with gaToLastlock := Function.update s.st.gaToLastlock ga (some ec) } }

/-- The event uses indices that the universes have given out. -/
def Event.Known (w : World) (s : Watched) : Event → Prop
  | .access x => x.Known w s.st
  | .tsets op => op.Belongs s.st.univTsets
  | .lsets op => op.Belongs s.st.univLsets
  | .lastlock _ _ => True

instance (w : World) (st : Msm) (x : Access) : Decidable (x.Known w st) :=
  decidable_of_iff ((x.szB = 8 ∨ x.szB = 4 ∨ x.szB = 2 ∨ x.szB = 1) ∧ x.tid.isSome ∧ isSaneSegmentID x.thr.csegid ∧
      w.segThr x.thr.csegid = some x.thr.addr ∧ x.thr.locksetA < st.univLsets.ix2vec.length ∧
      x.thr.locksetW < st.univLsets.ix2vec.length)
    ⟨fun ⟨h₁, h₂, h₃, h₄, h₅, h₆⟩ => ⟨h₁, h₂, h₃, h₄, h₅, h₆⟩, fun h => ⟨h.1, h.2, h.3, h.4, h.5, h.6⟩⟩

instance (w : World) (s : Watched) : (e : Event) → Decidable (e.Known w s)
  | .access x => inferInstanceAs (Decidable (x.Known w s.st))
  | .tsets op => inferInstanceAs (Decidable (op.Belongs s.st.univTsets))
  | .lsets op => inferInstanceAs (Decidable (op.Belongs s.st.univLsets))
  | .lastlock _ _ => .isTrue trivial

/-- A byte of new memory; the universes are those of `initialise_data_structures`. -/
def watchNew : Result Watched := do
  let univTsets ← newWordSetU 8
  let univLsets ← newWordSetU 8
  return ⟨⟨univTsets, univLsets, fun _ => none⟩, shvalNew, []⟩

/-- The shadow word is what the history of the byte asks for: with no stranger, `Excl` of the
segment that accessed the byte last; with a stranger, the shared state that collects the threads
and intersects the locks of the accesses from the stranger's on. -/
def Exact (w : World) (st : Msm) (w32 : SVal) (hist : List Access) : Prop :=
  match since w hist with
  | none => (hist = [] → Says w32 .new) ∧ ∀ own, hist.getLast? = some own → Says w32 (.excl own.thr.csegid)
  | some (own, accs) => ∃ tset lset T L,
      Says w32 (if accs.any Access.isWrite then .shM tset lset else .shR tset lset) ∧
      st.univTsets.den tset = some T ∧ (∀ t, t ∈ T ↔ t = own.thr.addr ∨ ∃ y ∈ accs, y.thr.addr = t) ∧
      st.univLsets.den lset = some L ∧ ∀ lk, lk ∈ L ↔ ∀ y ∈ accs, lk ∈ y.locks w st.univLsets

/-- The byte is in state `ShM` with an empty lockset. -/
def Watched.Racy (s : Watched) : Prop :=
  ∃ tset lset, Says s.w32 (.shM tset lset) ∧ s.st.univLsets.den lset = some ∅

/-- A race has been reported if and only if the byte is racy now: one race, and it was reported
at the first access that left the byte racy. -/
structure ReportedOnce (w : World) (s₀ : Watched) (events : List Event) (s : Watched) : Prop where
  quiet : ¬ s.Racy → s.races = []
  once : s.Racy → ∃ es₁ x es₂ s₁ s₂ mbLastlock, events = es₁ ++ .access x :: es₂ ∧
    runSteps (watch w) s₀ es₁ = .ok s₁ ∧ watch w s₁ (.access x) = .ok s₂ ∧ s₂.Racy ∧
    (∀ p, p <+: es₁ → ∀ sp, runSteps (watch w) s₀ p = .ok sp → ¬ sp.Racy) ∧ s₁.races = [] ∧
    s₂.races = [⟨x.thr.addr, x.a, x.isWrite, x.szB, s₁.w32, s₂.w32, mbLastlock⟩] ∧ s.races = s₂.races

/-- What holds after a run. -/
structure RunInv (w : World) (s₀ : Watched) (events : List Event) (s : Watched) : Prop where
  inv : s.st.Inv
  known : ∀ x ∈ history events, x.Known w s.st
  encodes : Encodes w s.st s.w32
    (((history events).map (Access.touch w s.st.univLsets)).foldl (ByteState.touch w) .new)
  fresh : ∀ p, p <+: events → ∀ sp, runSteps (watch w) s₀ p = .ok sp → sp.Racy → s.Racy
  reported : ReportedOnce w s₀ events s

section Runs

variable {w : World} {s s' s₀ : Watched} {events : List Event} {e : Event} {b : ByteState} {x : Access}

theorem history_concat (events : List Event) (e : Event) : history (events ++ [e]) = history events ++ history [e] :=
  List.filterMap_append ..

/-- Whether a byte is racy can be seen in its shadow word. -/
theorem Encodes.racy_iff (h : Encodes w s.st s.w32 b) : s.Racy ↔ b.Racy := by
  have hshM : ∀ {tset lset}, Says s.w32 (.shM tset lset) → s.w32 >>> 30 = 3 := fun h => h.shM_kind
  match b with
  | .new =>
    refine ⟨?_, False.elim⟩
    rintro ⟨tset, lset, hsaid, -⟩
    exact nomatch (Says.new_kind h).symm.trans (hshM hsaid)
  | .excl tseg =>
    refine ⟨?_, False.elim⟩
    rintro ⟨tset, lset, hsaid, -⟩
    exact nomatch (Says.excl_kind h.1).symm.trans (hshM hsaid)
  | .shared false T L =>
    obtain ⟨t, l, hsaid', -⟩ := h
    refine ⟨?_, False.elim⟩
    rintro ⟨tset, lset, hsaid, -⟩
    exact nomatch hsaid'.shR_kind.symm.trans (hshM hsaid)
  | .shared true T L =>
    obtain ⟨t, l, hsaid', ht, hl⟩ := h
    constructor
    · rintro ⟨tset, lset, hsaid, hempty⟩
      obtain rfl : l = lset := Except.ok.inj (hsaid'.unShM.2.symm.trans hsaid.unShM.2)
      exact Option.some.inj (hl.symm.trans hempty)
    · rintro rfl
      exact ⟨t, l, hsaid', hl⟩

/-- Once a byte is racy, it stays so. -/
theorem ByteState.Racy.touch (h : b.Racy) (x : Touch) : (b.touch w x).Racy := by
  match b with
  | .new => exact h.elim
  | .excl tseg => exact h.elim
  | .shared false T L => exact h.elim
  | .shared true T L =>
    obtain rfl : L = ∅ := h
    exact Finset.empty_inter _

/-- The races of a step: the byte has become racy, or none is reported. -/
structure StepRaces (s : Watched) (e : Event) (s' : Watched) : Prop where
  quiet : ¬ (s'.Racy ∧ ¬ s.Racy) → s'.races = s.races
  report : s'.Racy ∧ ¬ s.Racy → ∃ x mbLastlock, e = .access x ∧
    s'.races = s.races ++ [⟨x.thr.addr, x.a, x.isWrite, x.szB, s.w32, s'.w32, mbLastlock⟩]

/-- One more event: the report is made now, or it has been made. -/
theorem ReportedOnce.concat (h : RunInv w s₀ events s) (hrun : runSteps (watch w) s₀ events = .ok s)
    (hstep : watch w s e = .ok s') (hracy : s.Racy → s'.Racy) (hr : StepRaces s e s') :
    ReportedOnce w s₀ (events ++ [e]) s' := by
  by_cases hold : s.Racy
  · have hraces : s'.races = s.races := hr.quiet fun hn => hn.2 hold
    obtain ⟨es₁, x, es₂, s₁, s₂, mbLastlock, hes, hrun₁, hrest⟩ := h.reported.once hold
    refine ⟨fun hn => absurd (hracy hold) hn, fun _ => ⟨es₁, x, es₂ ++ [e], s₁, s₂, mbLastlock, ?_, hrun₁, ?_⟩⟩
    · rw [hes, List.append_assoc, List.cons_append]
    · rwa [hraces]
  · have hnone := h.reported.quiet hold
    refine ⟨fun hn => ?_, fun hnew => ?_⟩
    · rw [hr.quiet fun hfresh => hn hfresh.1, hnone]
    · obtain ⟨x, mbLastlock, rfl, hraces⟩ := hr.report ⟨hnew, hold⟩
      rw [hnone, List.nil_append] at hraces
      exact ⟨events, x, [], s, s', mbLastlock, rfl, hrun, hstep, hnew,
        fun p hp sp hsp hsr => hold (h.fresh p hp sp hsp hsr), hnone, hraces, rfl⟩

/-- **The step of the run invariant.** -/
theorem RunInv.concat (h : RunInv w s₀ events s) (hrun : runSteps (watch w) s₀ events = .ok s)
    (hstep : watch w s e = .ok s') (hg : Grown s.st s'.st) (hknown : ∀ x ∈ history [e], x.Known w s.st)
    (henc : Encodes w s'.st s'.w32 (((history [e]).map (Access.touch w s.st.univLsets)).foldl (ByteState.touch w)
      (((history events).map (Access.touch w s.st.univLsets)).foldl (ByteState.touch w) .new)))
    (hr : StepRaces s e s') : RunInv w s₀ (events ++ [e]) s' := by
  have hall : ∀ y ∈ history events ++ history [e], y.Known w s.st := fun y hy =>
    (List.mem_append.mp hy).elim (h.known y) (hknown y)
  have htouch : (history (events ++ [e])).map (Access.touch w s'.st.univLsets) =
      (history events ++ history [e]).map (Access.touch w s.st.univLsets) := by
    rw [history_concat]
    refine List.map_congr_left fun y hy => ?_
    rw [Access.touch, (hall y hy).locks_grows hg]
    rfl
  have henc' : Encodes w s'.st s'.w32
      (((history (events ++ [e])).map (Access.touch w s'.st.univLsets)).foldl (ByteState.touch w) .new) := by
    rwa [htouch, List.map_append, List.foldl_append]
  have hracy : s.Racy → s'.Racy := fun hs => by
    rw [h.encodes.racy_iff] at hs
    rw [henc.racy_iff]
    exact List.foldlRecOn _ _ hs fun b hb y _ => hb.touch y
  refine ⟨hg.inv, fun y hy => ?_, henc', fun p hp sp hsp hsr => ?_, .concat h hrun hstep hracy hr⟩
  · rw [history_concat] at hy
    exact (hall y hy).grows hg
  · rcases List.prefix_concat_iff.mp hp with rfl | hp
    · rw [runSteps_append_eq, hrun, ok_bind, runSteps, hstep] at hsp
      exact Except.ok.inj hsp ▸ hsr
    · exact hracy (h.fresh p hp sp hsp hsr)

/-- An event that is not about the byte. -/
theorem RunInv.elsewhere (h : RunInv w s₀ events s) (hrun : runSteps (watch w) s₀ events = .ok s) {st' : Msm}
    (hstep : watch w s e = .ok { s with st := st' }) (hg : Grown s.st st') (he : history [e] = []) :
    RunInv w s₀ (events ++ [e]) { s with st := st' } := by
  have henc := h.encodes.grows hg
  have hsame : Watched.Racy { s with st := st' } ↔ s.Racy := by
    rw [h.encodes.racy_iff]
    exact Encodes.racy_iff henc
  refine h.concat hrun hstep hg (by simp [he]) (by rwa [he]) ⟨fun _ => rfl, fun hn => ?_⟩
  exact absurd (hsame.mp hn.1) hn.2

/-- **One event.** -/
theorem watch_fits (h : RunInv w s₀ events s) (hrun : runSteps (watch w) s₀ events = .ok s) (he : e.Known w s) :
    Fits (watch w s e) (RunInv w s₀ (events ++ [e])) := by
  cases e with
  | access x =>
    have hx : x.Known w s.st := he
    have hself : Fits (watch w s (.access x)) fun s' => ∃ r,
        s' = ⟨r.1, r.2.1, s.races ++ r.2.2⟩ ∧ Handled w s.st x
          (((history events).map (Access.touch w s.st.univLsets)).foldl (ByteState.touch w) .new) s.w32 r :=
      (msmHandle_fits h.inv hx h.encodes).bind fun r hr => fits_of_ok rfl ⟨r, rfl, hr⟩
    rcases hself.self with herr | ⟨s', hstep, -, ⟨st', wnew, races⟩, rfl, hr⟩
    · exact .inl herr
    · have henc : Encodes w st' wnew _ := hr.encodes
      have hnow : Watched.Racy ⟨st', wnew, s.races ++ races⟩ ↔ _ := Encodes.racy_iff henc
      have hfresh := and_congr hnow (not_congr h.encodes.racy_iff)
      refine fits_of_ok hstep (h.concat hrun hstep hr.grown ?_ henc ⟨fun hn => ?_, fun hn => ?_⟩)
      · intro y hy
        obtain rfl := List.mem_singleton.mp hy
        exact hx
      · show s.races ++ (st', wnew, races).2.2 = s.races
        rw [hr.reports.quiet (mt hfresh.mpr hn), List.append_nil]
      · obtain ⟨mbLastlock, hraces⟩ := hr.reports.report (hfresh.mp hn)
        exact ⟨x, mbLastlock, rfl, congrArg (s.races ++ ·) hraces⟩
  | tsets op =>
    obtain ⟨univTsets, hop, hinv, hgrows⟩ := stepU_spec h.inv.tsets he
    have hstep : watch w s (.tsets op) = .ok { s with st := { s.st with univTsets := univTsets } } := by
      rw [watch, hop]
      rfl
    exact fits_of_ok hstep (h.elsewhere hrun hstep ⟨⟨hinv, h.inv.lsets⟩, hgrows, List.prefix_rfl⟩ rfl)
  | lsets op =>
    obtain ⟨univLsets, hop, hinv, hgrows⟩ := stepU_spec h.inv.lsets he
    have hstep : watch w s (.lsets op) = .ok { s with st := { s.st with univLsets := univLsets } } := by
      rw [watch, hop]
      rfl
    exact fits_of_ok hstep (h.elsewhere hrun hstep ⟨⟨h.inv.tsets, hinv⟩, List.prefix_rfl, hgrows⟩ rfl)
  | lastlock ga ec =>
    exact fits_of_ok rfl (h.elsewhere hrun rfl ⟨⟨h.inv.tsets, h.inv.lsets⟩, List.prefix_rfl, List.prefix_rfl⟩ rfl)

/-- **A run.** -/
theorem run_fits (h₀ : RunInv w s₀ [] s₀) (hev : runMeets (watch w) (fun s e => e.Known w s) s₀ events) :
    Fits (runSteps (watch w) s₀ events) (RunInv w s₀ events) := by
  induction events using List.reverseRecOn with
  | nil => exact fits_of_ok rfl h₀
  | append_singleton events e ih =>
    obtain ⟨hevents, hlast⟩ := runMeets_of_append hev
    rw [runSteps_append_eq]
    refine (ih hevents).self.bind fun s ⟨hrun, hs⟩ => ?_
    exact (watch_fits hs hrun (hlast s hrun).1).bind fun s' hs' => fits_of_ok rfl hs'

/-- The shadow word after a run. -/
theorem RunInv.exact (h : RunInv w s₀ events s) : Exact w s.st s.w32 (history events) := by
  have henc := h.encodes
  unfold Exact
  cases hhist : history events with
  | nil =>
    rw [hhist] at henc
    exact ⟨fun _ => henc, fun own hown => nomatch hown⟩
  | cons x rest =>
    have hown : ∀ y ∈ x :: rest, w.segThr y.thr.csegid = some y.thr.addr := fun y hy => (h.known y (hhist ▸ hy)).own
    rw [hhist, List.map_cons, List.foldl_cons] at henc
    cases hsince : since w (x :: rest) with
    | none =>
      obtain ⟨own, hlast, hfold⟩ := touches_owned s.st.univLsets hsince
      refine ⟨fun hnil => (nomatch hnil), fun own' hown' => ?_⟩
      obtain rfl := Option.some.inj (hlast.symm.trans hown')
      have henc' : Encodes w s.st s.w32 (.excl own.thr.csegid) := hfold ▸ henc
      exact henc'.1
    | some found =>
      obtain ⟨own, accs⟩ := found
      obtain ⟨T, L, hfold, hT, hL⟩ := touches_since s.st.univLsets hown hsince
      have henc' : Encodes w s.st s.w32 (.shared (accs.any Access.isWrite) T L) := hfold ▸ henc
      obtain ⟨tset, lset, hsaid, ht, hl⟩ := henc'
      exact ⟨tset, lset, T, L, hsaid, ht, hT, hl, hL⟩

theorem watchNew_inv (w : World) : ∃ s₀, watchNew = .ok s₀ ∧ RunInv w s₀ [] s₀ := by
  obtain ⟨wsu, hnew, hinv⟩ := newWordSetU_spec (show 1 ≤ 8 by decide) (show 8 ≤ nWCacheStatMax by decide)
  refine ⟨⟨⟨wsu, wsu, fun _ => none⟩, shvalNew, []⟩, ?_, ⟨hinv, hinv⟩, fun x hx => (nomatch hx), rfl, ?_, ?_⟩
  · rw [watchNew, hnew]
    rfl
  · rintro p hp sp hsp hr
    obtain rfl := List.prefix_nil.mp hp
    exact Except.ok.inj hsp ▸ hr
  · refine ⟨fun _ => rfl, fun hr => ?_⟩
    have hnone : ByteState.Racy .new := (Encodes.racy_iff (show Encodes w _ shvalNew .new from rfl)).mp hr
    exact hnone.elim

/-- Two threads of one segment each. -/
def twoThreads : World where
  segThr s := if s = 0x1000000 then some 8 else if s = 0x1000001 then some 16 else none
  happensBefore _ _ := false
  busLock := 24
  appearedAt _ := none

/-- The first thread writes, the second reads and writes; they hold no locks. -/
def strangerWrites : List Event :=
  [.access ⟨true, ⟨8, 0, 0, 0x1000000⟩, some 1, 64, 4⟩, .access ⟨false, ⟨16, 0, 0, 0x1000001⟩, some 2, 64, 4⟩,
    .access ⟨true, ⟨16, 0, 0, 0x1000001⟩, some 2, 64, 4⟩]

end Runs

end Helgrind

end Valgrind
