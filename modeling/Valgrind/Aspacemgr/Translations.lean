import Valgrind.Aspacemgr.Window

/-!
# No stale translations

`hasT` says that code of a segment may have been translated. It is one bit for a
whole segment, carried through splits, merges and moves; the callers discard
translations only when an operation tells them to. What must never happen is
that the bit is dropped for a page without anybody being told.

`translations_notStale` follows one page: from the moment its segment is marked,
through any further operations, until one that touches the page reports a
discard, the page stays in a segment with the bit set. The one operation that
can break this is `VG_(am_create_reservation)`, which checks the two ends of the
range *including the extra space* against one free segment but writes the range
without it: when the extra space wraps around, the range written need not be
free at all (`translations_notStale_wrap`).
-/

namespace Valgrind.Aspacemgr

open Machine Intervals

section Translations

variable [Machine]

/-- A step whose discard flag nobody looks at. -/
def TOp.step (am : Aspacem) (op : TOp) : Result Aspacem := Prod.fst <$> op.run am

/-- No operation of the run that remaps or unmaps `p`, or takes its execute
permission, reports a discard. -/
def quiet (p : Nat) : Aspacem → List TOp → Prop
  | _, [] => True
  | am, op :: ops => ∀ am' d, op.run am = .ok (am', d) →
    ¬ (d = true ∧ op.affects am p) ∧ quiet p am' ops

variable {am am' : Aspacem} {op : TOp} {ops : List TOp} {p : Nat}

/-- What a quiet run keeps of a page: the array invariant and the bit. -/
theorem quiet_run (hinv : ArrayInv am) (hT : pageT am.nsegments p = true)
    (hq : quiet p am ops) (hfits : ∀ op ∈ ops, op.extraFits)
    (h : runSteps TOp.step am ops = .ok am') : pageT am'.nsegments p = true := by
  induction ops generalizing am with
  | nil =>
    rw [runSteps_nil, Except.ok.injEq] at h
    exact h ▸ hT
  | cons op ops ih =>
    obtain ⟨am₁, h₁, h₂⟩ := runSteps_cons.mp h
    obtain ⟨d, hrun⟩ := map_fst_eq_ok.mp h₁
    have hstep := TOp.run_step hinv hrun
    obtain ⟨hno, hq'⟩ := hq am₁ d hrun
    obtain hT' | hlost := hstep.hasT (hfits op (by simp)) p hT
    · exact ih hstep.inv hT' hq' (fun o ho => hfits o (List.mem_cons_of_mem _ ho)) h₂
    · exact absurd hlost hno

/-- **No stale translations.** From startup, run any operations; mark a client
segment as having translations; run any of the operations that keep track of
them, with reservations whose extra space does not wrap. Then every page of the
segment still has its `hasT` bit, unless an operation that touched it reported a
discard. And no operation of the run drops the bit, or the execute permission,
of a page that has the bit without reporting it. -/
theorem translations_notStale (sp top : Nat) (maps : List MapsLine) (before : List Op)
    (after : List TOp) (am₀ am₁ am₂ am₃ : Aspacem) (i : Nat) (d : Bool)
    (hstart : amStartup sp maps = .ok (am₀, top))
    (hbefore : runSteps step am₀ before = .ok am₁)
    (hmark : (TOp.setSegmentHasT (some i)).run am₁ = .ok (am₂, d))
    (hkind : (am₁.seg i).kind = .skFileC ∨ (am₁.seg i).kind = .skAnonC)
    (hafter : runSteps TOp.step am₂ after = .ok am₃)
    (hfits : ∀ op ∈ after, op.extraFits) :
    (∀ p, (am₁.seg i).start ≤ p → p ≤ (am₁.seg i).end_ → quiet p am₂ after →
      pageT am₃.nsegments p = true) ∧
    (∀ (op : TOp) (am₄ : Aspacem) (d' : Bool), op.extraFits → op.run am₃ = .ok (am₄, d') →
      ∀ p, pageT am₃.nsegments p = true →
        (pageT am₄.nsegments p = false ∨ (ExecAt am₃ p ∧ ¬ ExecAt am₄ p)) →
        d' = true ∧ op.affects am₃ p) := by
  have hinv₁ : ArrayInv am₁ := run_inv (windowInv_amStartup hstart).inv hbefore
  have hmark' := hmark
  simp only [TOp.run, bind_eq_ok, pure_eq_ok, Prod.mk.injEq] at hmark'
  obtain ⟨am, hset, rfl, -⟩ := hmark'
  obtain ⟨j, hj, hed, hbits⟩ := amSetSegmentHasT_spec hinv₁ hset
  have hinv₃ : ArrayInv am₃ := by
    have hstep : ∀ {s s' o}, ArrayInv s → TOp.step s o = .ok s' → ArrayInv s' := by
      intro s s' o hs hstep
      obtain ⟨d, hrun⟩ := map_fst_eq_ok.mp hstep
      exact (TOp.run_step hs hrun).inv
    exact runSteps_inv hstep hed.inv hafter
  refine ⟨fun p h₁ h₂ hq => ?_, fun op am₄ d' hf hrun p hT hlost => ?_⟩
  · have hij : i = j := by
      simp only [segIndex] at hj
      split_ifs at hj
      exact Except.ok.inj hj
    rw [← hij] at hbits
    exact quiet_run hed.inv (hbits hkind.symm p h₁ h₂) hq hfits hafter
  · have hstep := TOp.run_step hinv₃ hrun
    rcases hlost with hlost | ⟨hX, hno⟩
    · obtain hT' | hd := hstep.hasT hf p hT
      · rw [hT'] at hlost
        cases hlost
      · exact hd
    · obtain hX' | hd := hstep.hasX hf p hT hX
      · exact absurd hX' hno
      · exact hd

end Translations

/-- A page of code is mapped and marked; mapping another page leaves its bit. -/
theorem translations_notStale_mmap :
    letI : Machine := x86Linux
    ∃ am₀ top am₁ am₂ am₃,
      amStartup 0xBFFFF000 [] = .ok (am₀, top) ∧
      runSteps step am₀ [.t (.notifyClientMmap ⟨0x30001000, by decide⟩ ⟨0x1000, by decide⟩ 5 0x20
        ⟨none, none⟩ 0)] = .ok am₁ ∧
      (TOp.setSegmentHasT (some 2)).run am₁ = .ok (am₂, false) ∧
      runSteps TOp.step am₂ [.notifyClientMmap ⟨0x40000000, by decide⟩ ⟨0x1000, by decide⟩ 5 0x20
        ⟨none, none⟩ 0] = .ok am₃ ∧
      pageT am₃.nsegments 0x30001000 = true := by
  let _ : Machine := x86Linux
  obtain ⟨⟨am₀, top⟩, h₀, h⟩ := Result.exists_of_holds (r := amStartup 0xBFFFF000 [])
    (p := fun r => (runSteps step r.1 [.t (.notifyClientMmap ⟨0x30001000, by decide⟩
        ⟨0x1000, by decide⟩ 5 0x20 ⟨none, none⟩ 0)]).holds fun am₁ =>
      decide ((am₁.seg 2).kind = .skAnonC ∧ (am₁.seg 2).start = 0x30001000 ∧
        (am₁.seg 2).end_ = 0x30001FFF) &&
      ((TOp.setSegmentHasT (some 2)).run am₁).holds fun am₂ => !am₂.2 &&
        (runSteps TOp.step am₂.1 [.notifyClientMmap ⟨0x40000000, by decide⟩
          ⟨0x1000, by decide⟩ 5 0x20 ⟨none, none⟩ 0]).holds fun _ => true) (by decide)
  obtain ⟨am₁, h₁, h⟩ := Result.exists_of_holds h
  rw [Bool.and_eq_true, decide_eq_true_eq] at h
  obtain ⟨⟨hk, hs, he⟩, h⟩ := h
  obtain ⟨⟨am₂, d⟩, h₂, h⟩ := Result.exists_of_holds h
  rw [Bool.and_eq_true, Bool.not_eq_true'] at h
  obtain ⟨hd, h⟩ := h
  obtain ⟨am₃, h₃, -⟩ := Result.exists_of_holds h
  simp only at hd
  subst hd
  refine ⟨am₀, top, am₁, am₂, am₃, h₀, h₁, h₂, h₃, ?_⟩
  refine (translations_notStale 0xBFFFF000 top [] _ _ am₀ am₁ am₂ am₃ 2 false h₀ h₁ h₂ (.inr hk) h₃
    (fun op ho => by rw [List.mem_singleton.mp ho]; trivial)).1 0x30001000 (by rw [hs])
    (by rw [he]; decide) fun am' d' _ => ⟨fun haff => ?_, trivial⟩
  exact absurd haff.2 (by simp [TOp.affects])

/-- The same page is lost without a word to a reservation whose extra space wraps
around: the two ends that are checked both lie in the free space above, the range
that is written begins below the page. -/
theorem translations_notStale_wrap :
    letI : Machine := x86Linux
    ∃ am₀ top am₁ am₂ am₃,
      amStartup 0xBFFFF000 [] = .ok (am₀, top) ∧
      runSteps step am₀ [.t (.notifyClientMmap ⟨0x30001000, by decide⟩ ⟨0x1000, by decide⟩ 5 0x20
        ⟨none, none⟩ 0)] = .ok am₁ ∧
      (am₁.seg 2).kind = .skAnonC ∧ (am₁.seg 2).start = 0x30001000 ∧
      (TOp.setSegmentHasT (some 2)).run am₁ = .ok (am₂, false) ∧
      (TOp.createReservation ⟨0x30000000, by decide⟩ ⟨0x80002000, by decide⟩ .smFixed
        ⟨-0x7FFFF000, by decide⟩).run am₂ = .ok (am₃, false) ∧
      pageT am₂.nsegments 0x30001000 = true ∧ pageT am₃.nsegments 0x30001000 = false := by
  let _ : Machine := x86Linux
  obtain ⟨⟨am₀, top⟩, h₀, h⟩ := Result.exists_of_holds (r := amStartup 0xBFFFF000 [])
    (p := fun r => (runSteps step r.1 [.t (.notifyClientMmap ⟨0x30001000, by decide⟩
        ⟨0x1000, by decide⟩ 5 0x20 ⟨none, none⟩ 0)]).holds fun am₁ =>
      decide ((am₁.seg 2).kind = .skAnonC ∧ (am₁.seg 2).start = 0x30001000) &&
      ((TOp.setSegmentHasT (some 2)).run am₁).holds fun am₂ => !am₂.2 &&
        ((TOp.createReservation ⟨0x30000000, by decide⟩ ⟨0x80002000, by decide⟩ .smFixed
          ⟨-0x7FFFF000, by decide⟩).run am₂.1).holds fun am₃ => !am₃.2 &&
            decide (pageT am₂.1.nsegments 0x30001000 = true ∧
              pageT am₃.1.nsegments 0x30001000 = false)) (by decide)
  obtain ⟨am₁, h₁, h⟩ := Result.exists_of_holds h
  rw [Bool.and_eq_true, decide_eq_true_eq] at h
  obtain ⟨⟨hk, hs⟩, h⟩ := h
  obtain ⟨⟨am₂, d⟩, h₂, h⟩ := Result.exists_of_holds h
  rw [Bool.and_eq_true, Bool.not_eq_true'] at h
  obtain ⟨hd, h⟩ := h
  obtain ⟨⟨am₃, d'⟩, h₃, h⟩ := Result.exists_of_holds h
  rw [Bool.and_eq_true, Bool.not_eq_true', decide_eq_true_eq] at h
  obtain ⟨hd', hT₂, hT₃⟩ := h
  simp only at hd hd'
  subst hd hd'
  exact ⟨am₀, top, am₁, am₂, am₃, h₀, h₁, hk, hs, h₂, h₃, hT₂, hT₃⟩

end Valgrind.Aspacemgr
