import Valgrind.Demangle.ZDemangle

/-!
# What is written behind the end of a buffer

`EMITSO` and `EMITFN` write a character and, behind it, a provisional NUL. What a call writes is the
list of its emissions, which does not depend on the buffers, and then a NUL for each buffer; the
provisional NUL behind the latter makes that a buffer needs two characters more than the decoded
part has (`maybeZDemangle_bounds_iff`).
-/

namespace Valgrind.Demangle

/-! ## Emissions -/

/-- The two buffers. -/
inductive ZBuf where
  | so
  | fn
  deriving DecidableEq, Repr

/-- Emit to one of the buffers. -/
def emitTo (z : ZState) : ZBuf × Char → Result ZState
  | (.so, ch) => emitSo z ch
  | (.fn, ch) => emitFn z ch

/-- What an escape stands for. -/
def zUnescape (e : Char) : Option Char :=
  match e with
  | 'a' => some '*'
  | 'p' => some '+'
  | 'c' => some ':'
  | 'd' => some '.'
  | 'u' => some '_'
  | 'h' => some '-'
  | 's' => some ' '
  | 'Z' => some 'Z'
  | 'A' => some '@'
  | 'L' => some '('
  | 'R' => some ')'
  | _ => none

/-- The buffer that an escape of the function name goes to. -/
def fnTarget (ch : Char) : ZBuf := if ch = '(' ∨ ch = ')' then .so else .fn

/-- The emissions of the soname loop, and what is left of the symbol behind the delimiter. -/
def soEmissions : List Char → List (ZBuf × Char) × Option (List Char)
  | [] => ([], none)
  | c :: sym =>
    if c = '_' then ([], some sym)
    else if c ≠ 'Z' then ((.so, c) :: (soEmissions sym).1, (soEmissions sym).2)
    else
      match sym with
      | [] => ([], none)
      | e :: sym =>
        match zUnescape e with
        | none => ([], none)
        | some ch => ((.so, ch) :: (soEmissions sym).1, (soEmissions sym).2)

/-- The emissions of the function name loop. -/
def fnEmissions : List Char → List (ZBuf × Char)
  | [] => []
  | c :: sym =>
    if c ≠ 'Z' then (.fn, c) :: fnEmissions sym
    else
      match sym with
      | [] => []
      | e :: sym =>
        match zUnescape e with
        | none => []
        | some ch => (fnTarget ch, ch) :: fnEmissions sym

/-- The emissions of the loops. -/
def zEmissions (fnIsEncoded : Bool) (sym : List Char) : List (ZBuf × Char) :=
  match soEmissions sym with
  | (l, none) => l
  | (l, some sym) => l ++ if fnIsEncoded then fnEmissions sym else sym.map fun c => (.fn, c)

/-- The emissions for a symbol that is valid. -/
def emissions : List Char → Option (List (ZBuf × Char))
  | c0 :: c1 :: c2 :: c3 :: c4 :: c5 :: c6 :: sym =>
    if c0 = '_' ∧ c1 = 'v' ∧ c2 = 'g' ∧ (c3 = 'r' ∨ c3 = 'w' ∨ c3 = 'n') ∧ c4 = 'Z' ∧ (c5 = 'Z' ∨ c5 = 'U') ∧
        c6 = '_' then
      some (zEmissions (c5 = 'Z') sym)
    else none
  | _ => none

/-- The part that is written to a buffer. -/
def part (b : ZBuf) (l : List (ZBuf × Char)) : List Char := (l.filter fun x => x.1 = b).map Prod.snd

/-! ## The loops emit -/

section Loops

variable {z : ZState}

theorem soEscape_eq (z : ZState) (e : Char) :
    soEscape z e = (zUnescape e).map fun ch => emitSo z ch := by
  unfold soEscape zUnescape
  split
  case h_12 => simp_all
  all_goals rfl

theorem fnEscape_eq (z : ZState) (e : Char) :
    fnEscape z e = (zUnescape e).map fun ch => emitTo z (fnTarget ch, ch) := by
  unfold fnEscape zUnescape
  split
  case h_12 => simp_all
  all_goals rfl

theorem soLoop_eq : ∀ (sym : List Char) (z : ZState),
    soLoop sym z = (soEmissions sym).1.foldlM emitTo z >>= fun z => .ok ((soEmissions sym).2, z)
  | [], _ => rfl
  | c :: sym, z => by
    by_cases hstop : c = '_'
    · subst hstop
      rw [soLoop_stop, soEmissions.eq_def]
      rfl
    by_cases hz : c = 'Z'
    · subst hz
      cases sym with
      | nil => rfl
      | cons e sym =>
        rw [soLoop_escape, soEscape_eq, soEmissions.eq_def]
        simp only [if_neg hstop, ne_eq, not_true_eq_false, if_false]
        cases zUnescape e with
        | none => rfl
        | some ch =>
          simp only [Option.map_some, List.foldlM_cons, bind_assoc]
          exact bind_congr fun z => soLoop_eq sym z
    · rw [soLoop_plain hstop hz, soEmissions.eq_def]
      simp only [if_neg hstop, ne_eq, hz, not_false_eq_true, if_true, List.foldlM_cons, bind_assoc]
      exact bind_congr fun z => soLoop_eq sym z

theorem fnLoop_eq : ∀ (sym : List Char), ∃ error, ∀ z,
    fnLoop sym z = (fnEmissions sym).foldlM emitTo z >>= fun z => .ok (error, z)
  | [] => ⟨false, fun _ => rfl⟩
  | c :: sym => by
    by_cases hz : c = 'Z'
    · subst hz
      cases sym with
      | nil => exact ⟨true, fun _ => rfl⟩
      | cons e sym =>
        obtain ⟨error, ih⟩ := fnLoop_eq sym
        cases hesc : zUnescape e with
        | none =>
          refine ⟨true, fun z => ?_⟩
          rw [fnLoop_escape, fnEscape_eq, fnEmissions.eq_def]
          simp only [hesc, ne_eq, not_true_eq_false, if_false]
          rfl
        | some ch =>
          refine ⟨error, fun z => ?_⟩
          rw [fnLoop_escape, fnEscape_eq, fnEmissions.eq_def]
          simp only [hesc, ne_eq, not_true_eq_false, if_false, Option.map_some, List.foldlM_cons, bind_assoc]
          exact bind_congr ih
    · obtain ⟨error, ih⟩ := fnLoop_eq sym
      refine ⟨error, fun z => ?_⟩
      rw [fnLoop_plain hz, fnEmissions.eq_def]
      simp only [ne_eq, hz, not_false_eq_true, if_true, List.foldlM_cons, bind_assoc]
      exact bind_congr ih

theorem copyLoop_emits (sym : List Char) (z : ZState) :
    copyLoop sym z = (sym.map fun c => (ZBuf.fn, c)).foldlM emitTo z := by
  induction sym generalizing z with
  | nil => rfl
  | cons c sym ih =>
    rw [copyLoop, List.map_cons, List.foldlM_cons]
    exact bind_congr ih

/-- **The loops** emit, and whether there is an error depends on the symbol alone. -/
theorem zLoops_eq (enc : Bool) (sym : List Char) : ∃ error, ∀ z,
    zLoops enc sym z = (zEmissions enc sym).foldlM emitTo z >>= fun z => .ok (error, z) := by
  unfold zEmissions
  cases hrest : (soEmissions sym).2 with
  | none =>
    refine ⟨true, fun z => ?_⟩
    rw [zLoops, soLoop_eq, hrest, show soEmissions sym = ((soEmissions sym).1, none) by rw [← hrest], bind_assoc]
    rfl
  | some rest =>
    have hpair : soEmissions sym = ((soEmissions sym).1, some rest) := by rw [← hrest]
    cases enc with
    | true =>
      obtain ⟨error, hfn⟩ := fnLoop_eq rest
      refine ⟨error, fun z => ?_⟩
      rw [zLoops, soLoop_eq, hrest, hpair, bind_assoc]
      simp only [if_true, List.foldlM_append, bind_assoc]
      exact bind_congr hfn
    | false =>
      refine ⟨false, fun z => ?_⟩
      rw [zLoops, soLoop_eq, hrest, hpair, bind_assoc]
      simp only [Bool.false_eq_true, if_false, List.foldlM_append, bind_assoc, ok_bind, copyLoop_emits]
      rfl

end Loops

/-! ## Room -/

section Room

variable {z z' : ZState} {m : Option Nat} {n : Nat} {s f : List Char} {l : List (ZBuf × Char)}

/-- The parts are shorter than what is left of the buffers. -/
def Fits (m : Option Nat) (n : Nat) (s f : List Char) (l : List (ZBuf × Char)) : Prop :=
  (∀ k, m = some k → s.length + (part .so l).length < k) ∧ f.length + (part .fn l).length < n

theorem fits_so {ch : Char} : Fits m n s f ((.so, ch) :: l) ↔ Fits m n (s ++ [ch]) f l := by
  simp only [Fits, part, List.filter_cons, decide_true, if_true, List.map_cons, List.length_cons, List.length_append,
    List.length_nil, reduceCtorEq, decide_false, Bool.false_eq_true, if_false]
  refine and_congr (forall₂_congr fun k _ => ?_) Iff.rfl
  omega

theorem fits_fn {ch : Char} : Fits m n s f ((.fn, ch) :: l) ↔ Fits m n s (f ++ [ch]) l := by
  simp only [Fits, part, List.filter_cons, decide_true, if_true, List.map_cons, List.length_cons, List.length_append,
    List.length_nil, reduceCtorEq, decide_false, Bool.false_eq_true, if_false]
  refine and_congr Iff.rfl ?_
  omega

theorem Fits.nil (h : Fits m n s f l) : Fits m n s f [] := by
  refine ⟨fun k hk => ?_, ?_⟩
  · have := h.1 k hk
    simp only [part, List.filter_nil, List.map_nil, List.length_nil]
    omega
  · have := h.2
    simp only [part, List.filter_nil, List.map_nil, List.length_nil]
    omega

theorem fits_nil : Fits m n s f [] ↔ (∀ k, m = some k → s.length < k) ∧ f.length < n := Iff.rfl

/-- An emission that returns had room. -/
theorem ZState.Holds.room (h : z.Holds m n s f) (hroom : Fits m n s f []) {x : ZBuf × Char}
    (hx : emitTo z x = .ok z') : Fits m n s f [x] := by
  obtain ⟨b, ch⟩ := x
  cases b with
  | so =>
    refine ⟨fun k hk => ?_, hroom.2⟩
    obtain ⟨b, hb, hholds⟩ := h.so_some k hk
    simp only [emitTo, Demangle.emitSo, hb] at hx
    obtain ⟨p, hp, -⟩ := bind_eq_ok.mp hx
    have hlt : s.length < k := hroom.1 k hk
    exact (hholds.room hp).resolve_right (Nat.not_le.mpr hlt)
  | fn =>
    refine ⟨hroom.1, ?_⟩
    simp only [emitTo, Demangle.emitFn] at hx
    obtain ⟨p, hp, -⟩ := bind_eq_ok.mp hx
    have hlt : f.length < n := hroom.2
    exact (h.fn.room hp).resolve_right (Nat.not_le.mpr hlt)

/-- **Emissions** stay inside the buffers exactly when the parts fit. -/
theorem ZState.Holds.emits_iff (h : z.Holds m n s f) (hroom : Fits m n s f []) :
    (∃ z', l.foldlM emitTo z = .ok z') ↔ Fits m n s f l := by
  induction l generalizing z s f with
  | nil => exact iff_of_true ⟨z, rfl⟩ hroom
  | cons x l ih =>
    have hstep : ∀ {z₁ s₁ f₁}, emitTo z x = .ok z₁ → z₁.Holds m n s₁ f₁ → Fits m n s₁ f₁ [] →
        ((∃ z', (x :: l).foldlM emitTo z = .ok z') ↔ Fits m n s₁ f₁ l) := by
      intro z₁ s₁ f₁ hz₁ h₁ hroom₁
      rw [List.foldlM_cons, hz₁]
      exact ih h₁ hroom₁
    have hnone : ¬ Fits m n s f [x] → ¬ ∃ z', (x :: l).foldlM emitTo z = .ok z' := by
      rintro hfull ⟨z', hrun⟩
      obtain ⟨z₁, hz₁, -⟩ := bind_eq_ok.mp (List.foldlM_cons.symm.trans hrun)
      exact hfull (h.room hroom hz₁)
    obtain ⟨b, ch⟩ := x
    cases b with
    | so =>
      by_cases hfit : Fits m n s f [(.so, ch)]
      · obtain ⟨z₁, hz₁, h₁⟩ := h.emitSo (fun k hk => hfit.1 k hk) ch
        rw [hstep hz₁ h₁ (fits_so.mp hfit), fits_so]
      · exact iff_of_false (hnone hfit) fun h => hfit (fits_so.mpr (fits_so.mp h).nil)
    | fn =>
      by_cases hfit : Fits m n s f [(.fn, ch)]
      · obtain ⟨z₁, hz₁, h₁⟩ := h.emitFn hfit.2 ch
        rw [hstep hz₁ h₁ (fits_fn.mp hfit), fits_fn]
      · exact iff_of_false (hnone hfit) fun h => hfit (fits_fn.mpr (fits_fn.mp h).nil)

end Room

/-! ## The bounds -/

section Bounds

variable {sym : List Char} {soBuf : Option (List Char)} {fnBuf : List Char}

/-- A decoded part does not fit together with its terminating zero. -/
def TooLong (soBuf : Option (List Char)) (fnBuf : List Char) (l : List (ZBuf × Char)) : Prop :=
  (∃ buf ∈ soBuf, buf.length < (part .so l).length + 1) ∨ fnBuf.length < (part .fn l).length + 1

/-- Every buffer has one character more. -/
def Spare (soBuf : Option (List Char)) (fnBuf : List Char) (l : List (ZBuf × Char)) : Prop :=
  (∀ buf ∈ soBuf, (part .so l).length + 1 < buf.length) ∧ (part .fn l).length + 1 < fnBuf.length

/-- All buffers are written to with their NULs. -/
theorem fits_nuls {l : List (ZBuf × Char)} : Fits (soBuf.map List.length) fnBuf.length [] []
    (l ++ [(.so, nul), (.fn, nul)]) ↔ Spare soBuf fnBuf l := by
  have hpart : ∀ b, (part b (l ++ [(.so, nul), (.fn, nul)])).length = (part b l).length + 1 := by
    intro b
    cases b <;> simp [part]
  unfold Fits Spare
  rw [hpart, hpart]
  refine and_congr ⟨fun h buf hbuf => ?_, fun h k hk => ?_⟩ (by simp)
  · have := h buf.length (Option.map_eq_some_iff.mpr ⟨buf, hbuf, rfl⟩)
    simpa using this
  · obtain ⟨buf, hbuf, rfl⟩ := Option.map_eq_some_iff.mp hk
    simpa using h buf hbuf

/-- A call for a valid symbol emits; for another one nothing is written. -/
theorem maybeZDemangle_cases (sym : List Char) (hso : ∀ buf ∈ soBuf, 0 < buf.length) (hfn : 0 < fnBuf.length) :
    (∃ l isWrap error, emissions sym = some l ∧ maybeZDemangle sym soBuf fnBuf =
      l.foldlM emitTo { so := soBuf.map fun buf => ⟨buf, 0⟩, fn := ⟨fnBuf, 0⟩, oflow := false } >>=
        zOut isWrap error) ∨
    (emissions sym = none ∧
      maybeZDemangle sym soBuf fnBuf = .ok { ret := false, so := soBuf, fn := fnBuf, isWrap := none }) := by
  unfold maybeZDemangle
  rw [assertThat_of hso, assertThat_of hfn, ok_bind, ok_bind]
  split
  · rename_i c0 c1 c2 c3 c4 c5 c6 sym
    by_cases hvalid : c0 = '_' ∧ c1 = 'v' ∧ c2 = 'g' ∧ (c3 = 'r' ∨ c3 = 'w' ∨ c3 = 'n') ∧ c4 = 'Z' ∧
        (c5 = 'Z' ∨ c5 = 'U') ∧ c6 = '_'
    · obtain ⟨error, hloops⟩ := zLoops_eq (decide (c5 = 'Z')) sym
      refine .inl ⟨_, decide (c3 = 'w'), error, if_pos hvalid, ?_⟩
      simp only [if_pos hvalid, hloops, bind_assoc, ok_bind]
    · exact .inr ⟨if_neg hvalid, if_neg hvalid⟩
  · rename_i hshort
    refine .inr ⟨?_, rfl⟩
    unfold emissions
    split
    · exact absurd rfl (hshort _ _ _ _ _ _ _ _)
    · rfl

/-- What follows `out` emits the NULs. -/
theorem zOut_eq (isWrap error : Bool) (z : ZState) :
    zOut isWrap error z = [(ZBuf.so, nul), (ZBuf.fn, nul)].foldlM emitTo z >>= fun z =>
      .ok { ret := !error && !z.oflow, so := z.so.map OutBuf.buf, fn := z.fn.buf, isWrap := some isWrap } := by
  simp only [List.foldlM_cons, List.foldlM_nil, bind_assoc, pure_bind]
  rfl

/-- **Bounds**: a call writes inside the buffers, and returns `False` whenever a decoded part does not fit
together with its terminating zero, exactly when every buffer has at least two characters more than
its part. -/
theorem maybeZDemangle_bounds_iff (hso : ∀ buf ∈ soBuf, 0 < buf.length) (hfn : 0 < fnBuf.length) :
    (∃ out, maybeZDemangle sym soBuf fnBuf = .ok out ∧
      ∀ l, emissions sym = some l → TooLong soBuf fnBuf l → out.ret = false) ↔
      ∀ l, emissions sym = some l → Spare soBuf fnBuf l := by
  rcases maybeZDemangle_cases sym hso hfn with ⟨l, isWrap, error, hl, hrun⟩ | ⟨hnone, hrun⟩
  · have hempty : Fits (soBuf.map List.length) fnBuf.length [] [] [] := by
      refine ⟨fun k hk => ?_, hfn⟩
      obtain ⟨buf, hbuf, rfl⟩ := Option.map_eq_some_iff.mp hk
      exact hso buf hbuf
    have hiff := (holds_init soBuf fnBuf).emits_iff (l := l ++ [(.so, nul), (.fn, nul)]) hempty
    rw [fits_nuls, List.foldlM_append] at hiff
    have hspare : (∀ l', emissions sym = some l' → Spare soBuf fnBuf l') ↔ Spare soBuf fnBuf l := by
      rw [hl]
      simp only [Option.some.injEq, forall_eq']
    rw [hspare, ← hiff, hrun]
    simp only [funext (zOut_eq isWrap error), ← bind_assoc]
    constructor
    · rintro ⟨out, hout, -⟩
      obtain ⟨z, hz, -⟩ := bind_eq_ok.mp hout
      exact ⟨z, hz⟩
    · rintro ⟨z, hz⟩
      have hfit : Spare soBuf fnBuf l := hiff.mp ⟨z, hz⟩
      refine ⟨_, by rw [hz]; rfl, fun l' hl' hlong => ?_⟩
      -- no part is too long
      obtain rfl := Option.some.inj (hl.symm.trans hl')
      rcases hlong with ⟨buf, hbuf, hlt⟩ | hlt
      · exact absurd (hfit.1 buf hbuf) hlt.asymm
      · exact absurd hfit.2 hlt.asymm
  · rw [hrun, hnone]
    exact iff_of_true ⟨_, rfl, fun _ _ _ => rfl⟩ fun _ h => (nomatch h)

end Bounds

/-- The symbol `_vgrZU_a_b`. -/
def shortSymbol : List Char := zSymbol .replace false ['a'] ['b']

/-- The soname `a` and the function name `b` in buffers of three characters. -/
theorem maybeZDemangle_bounds_iff_sample :
    ∃ out, maybeZDemangle shortSymbol (some ['x', 'x', 'x']) ['x', 'x', 'x'] = .ok out ∧
      ∀ l, emissions shortSymbol = some l → TooLong (some ['x', 'x', 'x']) ['x', 'x', 'x'] l → out.ret = false :=
  (maybeZDemangle_bounds_iff (by simp) (by decide)).mpr fun l hl => by
    have hemit : emissions shortSymbol = some [(.so, 'a'), (.fn, 'b')] := rfl
    obtain rfl := Option.some.inj (hemit.symm.trans hl)
    exact ⟨by simp [part], by decide⟩

/-- The soname `a` in a buffer of two characters, which has room for it and its terminating zero: a second
zero is written behind the end of the buffer. -/
theorem maybeZDemangle_exact_fit :
    ¬ ∃ out, maybeZDemangle shortSymbol (some ['x', 'x']) ['x', 'x', 'x'] = .ok out := by
  have hfault : maybeZDemangle shortSymbol (some ['x', 'x']) ['x', 'x', 'x'] = .error .fault := rfl
  rintro ⟨out, h⟩
  rw [hfault] at h
  exact nomatch h

end Valgrind.Demangle
