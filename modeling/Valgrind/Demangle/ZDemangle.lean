import Valgrind.Basics.Result

/-!
# Z-encoded names

`VG_(maybe_Z_demangle)` takes the symbol of an intercept apart into the soname and the
function name it stands for. Strings are lists of characters without the NUL that ends
them; a buffer is the list of its characters, and a write behind its end is a fault.
-/

namespace Valgrind.Demangle

/-- The character that ends a string. -/
abbrev nul : Char := Char.ofNat 0

/-- A string of C, without the character that ends it. -/
structure CString where
  chars : List Char
  noNul : nul ∉ chars

/-- The string that a buffer contains. -/
def cString (buf : List Char) : List Char := buf.takeWhile fun c => c ≠ nul

/-! ## Encoding -/

/-- The Z-encoding of a character. -/
def zEncodeChar (c : Char) : List Char :=
  match c with
  | '*' => ['Z', 'a']
  | '+' => ['Z', 'p']
  | ':' => ['Z', 'c']
  | '.' => ['Z', 'd']
  | '_' => ['Z', 'u']
  | '-' => ['Z', 'h']
  | ' ' => ['Z', 's']
  | 'Z' => ['Z', 'Z']
  | '@' => ['Z', 'A']
  | '(' => ['Z', 'L']
  | ')' => ['Z', 'R']
  | c => [c]

/-- The Z-encoding of a string. -/
def zEncode (s : List Char) : List Char := s.flatMap zEncodeChar

/-- What the symbol is for: `_vgr`, `_vgw` or `_vgn`. -/
inductive ZKind where
  | replace
  | wrap
  | notify
  deriving DecidableEq, Repr

def ZKind.char : ZKind → Char
  | .replace => 'r'
  | .wrap => 'w'
  | .notify => 'n'

/-- `_vgrZZ_`, with `fnIsEncoded`, or `_vgrZU_`. -/
def zPrefix (kind : ZKind) (fnIsEncoded : Bool) : List Char :=
  ['_', 'v', 'g', kind.char, 'Z', if fnIsEncoded then 'Z' else 'U', '_']

/-- The symbol that stands for a soname and a function name. -/
def zSymbol (kind : ZKind) (fnIsEncoded : Bool) (so fn : List Char) : List Char :=
  zPrefix kind fnIsEncoded ++ (zEncode so ++ '_' :: if fnIsEncoded then zEncode fn else fn)

/-! ## Decoding -/

/-- An output buffer and the index of the next character. -/
structure OutBuf where
  buf : List Char
  idx : Nat
  deriving DecidableEq, Repr

/-- `EMITSO` and `EMITFN` for one buffer; the result says whether it overflowed. The NUL
behind the last character of the buffer is outside it. -/
def OutBuf.emit (b : OutBuf) (ch : Char) : Result (OutBuf × Bool) :=
  if b.idx ≥ b.buf.length then .ok ({ b with buf := b.buf.set (b.buf.length - 1) nul }, true)
  else if b.idx + 1 < b.buf.length then
    .ok ({ buf := (b.buf.set b.idx ch).set (b.idx + 1) nul, idx := b.idx + 1 }, false)
  else .error .fault

/-- The local variables: `so` is none if it is null. -/
structure ZState where
  so : Option OutBuf
  fn : OutBuf
  oflow : Bool
  deriving DecidableEq, Repr

/-- `EMITSO`. -/
def emitSo (z : ZState) (ch : Char) : Result ZState :=
  match z.so with
  | none => .ok z
  | some so => do
    let (so, oflow) ← so.emit ch
    return { z with so := some so, oflow := z.oflow || oflow }

/-- `EMITFN`. -/
def emitFn (z : ZState) (ch : Char) : Result ZState := do
  let (fn, oflow) ← z.fn.emit ch
  return { z with fn := fn, oflow := z.oflow || oflow }

/-- The escapes of the soname loop. -/
def soEscape (z : ZState) (e : Char) : Option (Result ZState) :=
  match e with
  | 'a' => some (emitSo z '*')
  | 'p' => some (emitSo z '+')
  | 'c' => some (emitSo z ':')
  | 'd' => some (emitSo z '.')
  | 'u' => some (emitSo z '_')
  | 'h' => some (emitSo z '-')
  | 's' => some (emitSo z ' ')
  | 'Z' => some (emitSo z 'Z')
  | 'A' => some (emitSo z '@')
  | 'L' => some (emitSo z '(')
  | 'R' => some (emitSo z ')')
  | _ => none

/-- The escapes of the function name loop. -/
def fnEscape (z : ZState) (e : Char) : Option (Result ZState) :=
  match e with
  | 'a' => some (emitFn z '*')
  | 'p' => some (emitFn z '+')
  | 'c' => some (emitFn z ':')
  | 'd' => some (emitFn z '.')
  | 'u' => some (emitFn z '_')
  | 'h' => some (emitFn z '-')
  | 's' => some (emitFn z ' ')
  | 'Z' => some (emitFn z 'Z')
  | 'A' => some (emitFn z '@')
  | 'L' => some (emitSo z '(')
  | 'R' => some (emitSo z ')')
  | _ => none

/-- The soname loop: what is left of the symbol behind the delimiter, or none in case of an
error. -/
def soLoop : List Char → ZState → Result (Option (List Char) × ZState)
  | [], z => .ok (none, z)
  | c :: sym, z =>
    if c = '_' then .ok (some sym, z)
    else if c ≠ 'Z' then do
      let z ← emitSo z c
      soLoop sym z
    else
      match sym with
      | [] => .ok (none, z)
      | e :: sym =>
        match soEscape z e with
        | none => .ok (none, z)
        | some z => do
          let z ← z
          soLoop sym z

/-- The loop that copies a function name that is not encoded. -/
def copyLoop : List Char → ZState → Result ZState
  | [], z => .ok z
  | c :: sym, z => do
    let z ← emitFn z c
    copyLoop sym z

/-- The function name loop; the result says whether there was an error. -/
def fnLoop : List Char → ZState → Result (Bool × ZState)
  | [], z => .ok (false, z)
  | c :: sym, z =>
    if c ≠ 'Z' then do
      let z ← emitFn z c
      fnLoop sym z
    else
      match sym with
      | [] => .ok (true, z)
      | e :: sym =>
        match fnEscape z e with
        | none => .ok (true, z)
        | some z => do
          let z ← z
          fnLoop sym z

/-- What a call returns and leaves behind in its buffers; `isWrap` is none if it is not
written. -/
structure ZResult where
  ret : Bool
  so : Option (List Char)
  fn : List Char
  isWrap : Option Bool
  deriving DecidableEq, Repr

/-- The two loops, up to `out`. -/
def zLoops (fnIsEncoded : Bool) (sym : List Char) (z : ZState) : Result (Bool × ZState) := do
  match ← soLoop sym z with
  | (none, z) => return (true, z)
  | (some sym, z) =>
    if fnIsEncoded then fnLoop sym z
    else do
      let z ← copyLoop sym z
      return (false, z)

/-- What follows `out`. -/
def zOut (isWrap : Bool) (error : Bool) (z : ZState) : Result ZResult := do
  let z ← emitSo z nul
  let z ← emitFn z nul
  return { ret := !error && !z.oflow, so := z.so.map OutBuf.buf, fn := z.fn.buf, isWrap := some isWrap }

/-- `VG_(maybe_Z_demangle)`: a buffer has `soLen` (`fnLen`) characters, and `soLen` is zero
where `so` is null. -/
def maybeZDemangle (sym : List Char) (so : Option (List Char)) (fn : List Char) : Result ZResult := do
  assertThat (∀ buf ∈ so, 0 < buf.length)
  assertThat (0 < fn.length)
  match sym with
  | c0 :: c1 :: c2 :: c3 :: c4 :: c5 :: c6 :: sym =>
    if c0 = '_' ∧ c1 = 'v' ∧ c2 = 'g' ∧ (c3 = 'r' ∨ c3 = 'w' ∨ c3 = 'n') ∧ c4 = 'Z' ∧
        (c5 = 'Z' ∨ c5 = 'U') ∧ c6 = '_' then do
      let (error, z) ← zLoops (c5 = 'Z') sym { so := so.map fun buf => ⟨buf, 0⟩, fn := ⟨fn, 0⟩, oflow := false }
      zOut (c3 = 'w') error z
    else return { ret := false, so := so, fn := fn, isWrap := none }
  | _ => return { ret := false, so := so, fn := fn, isWrap := none }

/-! ## Writing to a buffer -/

/-- The buffer has `n` characters, and `s` has been written to it. -/
structure OutBuf.Holds (b : OutBuf) (n : Nat) (s : List Char) : Prop where
  size : b.buf.length = n
  idx_eq : b.idx = s.length
  written : b.buf.take s.length = s

/-- The buffers have `m` and `n` characters, there being no soname buffer where `m` is none;
`s` and `f` have been written to them. -/
structure ZState.Holds (z : ZState) (m : Option Nat) (n : Nat) (s f : List Char) : Prop where
  so_none : m = none → z.so = none
  so_some : ∀ k, m = some k → ∃ b, z.so = some b ∧ b.Holds k s
  fn : z.fn.Holds n f
  oflow : z.oflow = false

section Emit

variable {b : OutBuf} {z z' : ZState} {m : Option Nat} {n : Nat} {s f : List Char} {ch : Char}

theorem OutBuf.Holds.emit (h : b.Holds n s) (hroom : s.length + 1 < n) (ch : Char) :
    ∃ b', b.emit ch = .ok (b', false) ∧ b'.Holds n (s ++ [ch]) := by
  obtain ⟨hsize, hidx, hwritten⟩ := h
  refine ⟨⟨(b.buf.set b.idx ch).set (b.idx + 1) nul, b.idx + 1⟩, ?_, ⟨?_, ?_, ?_⟩⟩
  · rw [OutBuf.emit, if_neg (by omega), if_pos (by omega)]
  · simpa using hsize
  · simp [hidx]
  · have hlen : s.length < b.buf.length := by omega
    rw [List.length_append, List.length_singleton, List.take_set_of_le (by omega),
      List.take_succ_eq_append_getElem (by simpa using hlen)]
    simp [hidx, hwritten, List.take_set_of_le]

/-- A write that returns had room, or the buffer was full before. -/
theorem OutBuf.Holds.room (h : b.Holds n s) {p : OutBuf × Bool} (hp : b.emit ch = .ok p) :
    s.length + 1 < n ∨ n ≤ s.length := by
  rw [OutBuf.emit, h.size, h.idx_eq] at hp
  split at hp
  · exact .inr ‹_›
  · split at hp
    · exact .inl ‹_›
    · exact nomatch hp

theorem ZState.Holds.emitSo (h : z.Holds m n s f) (hroom : ∀ k, m = some k → s.length + 1 < k)
    (ch : Char) : ∃ z', emitSo z ch = .ok z' ∧ z'.Holds m n (s ++ [ch]) f := by
  cases m with
  | none =>
    refine ⟨z, ?_, h.so_none, fun _ hk => (nomatch hk), h.fn, h.oflow⟩
    rw [Demangle.emitSo, h.so_none rfl]
  | some k =>
    obtain ⟨b, hb, hholds⟩ := h.so_some k rfl
    obtain ⟨b', hb', hholds'⟩ := hholds.emit (hroom k rfl) ch
    refine ⟨{ z with so := some b' }, ?_, fun hk => (nomatch hk), ?_, h.fn, h.oflow⟩
    · rw [Demangle.emitSo, hb]
      simp only [hb', ok_bind, Bool.or_false]
      rfl
    · intro k' hk'
      cases hk'
      exact ⟨b', rfl, hholds'⟩

theorem ZState.Holds.emitFn (h : z.Holds m n s f) (hroom : f.length + 1 < n) (ch : Char) :
    ∃ z', emitFn z ch = .ok z' ∧ z'.Holds m n s (f ++ [ch]) := by
  obtain ⟨b', hb', hholds'⟩ := h.fn.emit hroom ch
  refine ⟨{ z with fn := b' }, ?_, h.so_none, h.so_some, hholds', h.oflow⟩
  rw [Demangle.emitFn, hb']
  simp only [ok_bind, Bool.or_false]
  rfl

theorem emitSo_fn (h : emitSo z ch = .ok z') : z'.fn = z.fn := by
  unfold emitSo at h
  split at h
  · cases h
    rfl
  · simp only [bind_eq_ok, pure_eq_ok] at h
    obtain ⟨p, -, rfl⟩ := h
    rfl

/-- A string is written to the soname buffer. -/
theorem ZState.Holds.emitsSo (h : z.Holds m n s f) (l : List Char)
    (hroom : ∀ k, m = some k → s.length + l.length < k) :
    ∃ z', l.foldlM Demangle.emitSo z = .ok z' ∧ z'.Holds m n (s ++ l) f := by
  induction l generalizing z s with
  | nil => exact ⟨z, rfl, by rwa [List.append_nil]⟩
  | cons c l ih =>
    obtain ⟨z₁, hz₁, h₁⟩ := h.emitSo (fun k hk => by
      have := hroom k hk
      rw [List.length_cons] at this
      omega) c
    obtain ⟨z₂, hz₂, h₂⟩ := ih h₁ fun k hk => by
      have := hroom k hk
      rw [List.length_cons] at this
      rw [List.length_append, List.length_singleton]
      omega
    refine ⟨z₂, ?_, by rwa [List.append_assoc] at h₂⟩
    rw [List.foldlM_cons, hz₁]
    exact hz₂

end Emit

/-! ## Decoding what was encoded -/

/-- A character of the function name is written, to the wrong buffer if it is an encoded
parenthesis. -/
def emitName (fnIsEncoded : Bool) (z : ZState) (c : Char) : Result ZState :=
  if fnIsEncoded = true ∧ (c = '(' ∨ c = ')') then emitSo z c else emitFn z c

section Decode

variable {z : ZState}

theorem soLoop_stop (l : List Char) : soLoop ('_' :: l) z = .ok (some l, z) := by
  cases l <;> rfl

theorem soLoop_plain {c : Char} (h₁ : c ≠ '_') (h₂ : c ≠ 'Z') (l : List Char) :
    soLoop (c :: l) z = emitSo z c >>= soLoop l := by
  rw [soLoop.eq_def]
  simp [h₁, h₂]

theorem soLoop_escape (e : Char) (l : List Char) :
    soLoop ('Z' :: e :: l) z = match soEscape z e with
      | none => .ok (none, z)
      | some r => r >>= soLoop l := by
  rw [soLoop.eq_def]
  rfl

theorem fnLoop_plain {c : Char} (h : c ≠ 'Z') (l : List Char) :
    fnLoop (c :: l) z = emitFn z c >>= fnLoop l := by
  rw [fnLoop.eq_def]
  simp [h]

theorem fnLoop_escape (e : Char) (l : List Char) :
    fnLoop ('Z' :: e :: l) z = match fnEscape z e with
      | none => .ok (true, z)
      | some r => r >>= fnLoop l := by
  rw [fnLoop.eq_def]
  rfl

theorem soLoop_zEncodeChar (c : Char) (l : List Char) :
    soLoop (zEncodeChar c ++ l) z = emitSo z c >>= soLoop l := by
  unfold zEncodeChar
  split
  · exact soLoop_escape 'a' l
  · exact soLoop_escape 'p' l
  · exact soLoop_escape 'c' l
  · exact soLoop_escape 'd' l
  · exact soLoop_escape 'u' l
  · exact soLoop_escape 'h' l
  · exact soLoop_escape 's' l
  · exact soLoop_escape 'Z' l
  · exact soLoop_escape 'A' l
  · exact soLoop_escape 'L' l
  · exact soLoop_escape 'R' l
  · exact soLoop_plain (by assumption) (by assumption) l

theorem fnLoop_zEncodeChar (c : Char) (l : List Char) :
    fnLoop (zEncodeChar c ++ l) z = emitName true z c >>= fnLoop l := by
  unfold zEncodeChar
  split
  · exact fnLoop_escape 'a' l
  · exact fnLoop_escape 'p' l
  · exact fnLoop_escape 'c' l
  · exact fnLoop_escape 'd' l
  · exact fnLoop_escape 'u' l
  · exact fnLoop_escape 'h' l
  · exact fnLoop_escape 's' l
  · exact fnLoop_escape 'Z' l
  · exact fnLoop_escape 'A' l
  -- the parentheses are written to the soname buffer
  · exact fnLoop_escape 'L' l
  · exact fnLoop_escape 'R' l
  · rw [emitName, if_neg (by simp_all)]
    exact fnLoop_plain (by assumption) l

theorem soLoop_zEncode (s l : List Char) :
    soLoop (zEncode s ++ '_' :: l) z = s.foldlM emitSo z >>= fun z => .ok (some l, z) := by
  induction s generalizing z with
  | nil => exact soLoop_stop l
  | cons c s ih =>
    rw [zEncode, List.flatMap_cons, List.append_assoc, soLoop_zEncodeChar, List.foldlM_cons, bind_assoc]
    exact bind_congr fun z => ih

theorem fnLoop_zEncode (f : List Char) :
    fnLoop (zEncode f) z = f.foldlM (emitName true) z >>= fun z => .ok (false, z) := by
  induction f generalizing z with
  | nil => rfl
  | cons c f ih =>
    rw [zEncode, List.flatMap_cons, fnLoop_zEncodeChar, List.foldlM_cons, bind_assoc]
    exact bind_congr fun z => ih

theorem copyLoop_eq (f : List Char) : copyLoop f z = f.foldlM (emitName false) z := by
  induction f generalizing z with
  | nil => rfl
  | cons c f ih =>
    rw [copyLoop, List.foldlM_cons]
    exact bind_congr fun z => ih

/-- A symbol with a valid prefix. -/
theorem maybeZDemangle_zPrefix (kind : ZKind) (enc : Bool) (rest : List Char)
    (soBuf : Option (List Char)) (fnBuf : List Char) :
    maybeZDemangle (zPrefix kind enc ++ rest) soBuf fnBuf = (do
      assertThat (∀ buf ∈ soBuf, 0 < buf.length)
      assertThat (0 < fnBuf.length)
      let (error, z) ← zLoops enc rest
        { so := soBuf.map fun buf => ⟨buf, 0⟩, fn := ⟨fnBuf, 0⟩, oflow := false }
      zOut (kind.char = 'w') error z) := by
  cases kind <;> cases enc <;> rfl

/-- The symbol of an intercept: the soname is written, then the function name. -/
theorem maybeZDemangle_zSymbol (kind : ZKind) (enc : Bool) (so fn : List Char)
    (soBuf : Option (List Char)) (fnBuf : List Char) :
    maybeZDemangle (zSymbol kind enc so fn) soBuf fnBuf = (do
      assertThat (∀ buf ∈ soBuf, 0 < buf.length)
      assertThat (0 < fnBuf.length)
      let z ← so.foldlM emitSo { so := soBuf.map fun buf => ⟨buf, 0⟩, fn := ⟨fnBuf, 0⟩, oflow := false }
      let z ← fn.foldlM (emitName enc) z
      zOut (kind.char = 'w') false z) := by
  have hloops : ∀ z, zLoops enc (zEncode so ++ '_' :: if enc then zEncode fn else fn) z = (do
      let z ← so.foldlM emitSo z
      let z ← fn.foldlM (emitName enc) z
      return (false, z)) := by
    intro z
    rw [zLoops, soLoop_zEncode, bind_assoc]
    refine bind_congr fun z => ?_
    cases enc with
    | true => exact fnLoop_zEncode fn
    | false => exact congrArg (· >>= fun z => .ok (false, z)) (copyLoop_eq fn)
  rw [zSymbol, maybeZDemangle_zPrefix]
  refine bind_congr fun _ => bind_congr fun _ => ?_
  rw [hloops, bind_assoc]
  exact bind_congr fun z => bind_assoc _ _ _

end Decode

/-! ## What the buffers contain -/

section Contents

variable {z z' : ZState} {m : Option Nat} {n : Nat} {s f : List Char} {enc : Bool}

/-- A function name without encoded parentheses is written to its buffer. -/
theorem ZState.Holds.emitsName (h : z.Holds m n s f) (l : List Char)
    (hplain : enc = true → '(' ∉ l ∧ ')' ∉ l) (hroom : f.length + l.length < n) :
    ∃ z', l.foldlM (emitName enc) z = .ok z' ∧ z'.Holds m n s (f ++ l) := by
  induction l generalizing z f with
  | nil => exact ⟨z, rfl, by rwa [List.append_nil]⟩
  | cons c l ih =>
    rw [List.length_cons] at hroom
    have hc : ¬ (enc = true ∧ (c = '(' ∨ c = ')')) := by
      rintro ⟨henc, rfl | rfl⟩
      · exact (hplain henc).1 List.mem_cons_self
      · exact (hplain henc).2 List.mem_cons_self
    obtain ⟨z₁, hz₁, h₁⟩ := h.emitFn (by omega) c
    obtain ⟨z₂, hz₂, h₂⟩ := ih h₁
      (fun henc => ⟨fun hm => (hplain henc).1 (List.mem_cons_of_mem _ hm),
        fun hm => (hplain henc).2 (List.mem_cons_of_mem _ hm)⟩)
      (by rw [List.length_append, List.length_singleton]; omega)
    refine ⟨z₂, ?_, by rwa [List.append_assoc] at h₂⟩
    rw [List.foldlM_cons, emitName, if_neg hc, hz₁]
    exact hz₂

/-- Encoded parentheses do not reach the buffer of the function name. -/
theorem emitsName_fn {l : List Char} (h : z.fn.Holds n f) (hroom : f.length + l.length < n)
    (hl : l.foldlM (emitName true) z = .ok z') :
    z'.fn.Holds n (f ++ l.filter fun c => c ≠ '(' ∧ c ≠ ')') := by
  induction l generalizing z f with
  | nil =>
    cases hl
    simpa using h
  | cons c l ih =>
    rw [List.foldlM_cons] at hl
    obtain ⟨z₁, hz₁, hl⟩ := bind_eq_ok.mp hl
    rw [List.length_cons] at hroom
    rw [emitName] at hz₁
    by_cases hc : c = '(' ∨ c = ')'
    · rw [if_pos ⟨rfl, hc⟩] at hz₁
      rw [List.filter_cons_of_neg (by simpa [← or_iff_not_imp_left] using hc)]
      exact ih (emitSo_fn hz₁ ▸ h) (by omega) hl
    · rw [if_neg (fun h => hc h.2)] at hz₁
      rw [List.filter_cons_of_pos (by simpa [not_or] using hc)]
      obtain ⟨b', hb', hholds⟩ := h.emit (by omega) c
      obtain rfl : z₁ = { z with fn := b' } := by
        rw [emitFn, hb'] at hz₁
        simpa using hz₁.symm
      have hnext := ih hholds (by rw [List.length_append, List.length_singleton]; omega) hl
      rwa [List.append_assoc] at hnext

/-- What is written and ended by a NUL is the string that the buffer contains. -/
theorem cString_of_holds {b : OutBuf} (h : b.Holds n (s ++ [nul])) (hs : nul ∉ s) :
    cString b.buf = s := by
  have htake := h.written
  have hbuf : b.buf = s ++ nul :: b.buf.drop (s ++ [nul]).length := by
    conv_lhs => rw [← List.take_append_drop (s ++ [nul]).length b.buf, htake]
    rw [List.append_assoc]
    rfl
  have hne : ∀ c ∈ s, c ≠ nul := fun c hc h => hs (h ▸ hc)
  rw [hbuf, cString, List.takeWhile_append_of_pos fun c hc => decide_eq_true (hne c hc)]
  simp

theorem holds_init (soBuf : Option (List Char)) (fnBuf : List Char) :
    ZState.Holds { so := soBuf.map fun buf => ⟨buf, 0⟩, fn := ⟨fnBuf, 0⟩, oflow := false }
      (soBuf.map List.length) fnBuf.length [] [] := by
  refine ⟨fun h => ?_, fun k hk => ?_, ⟨rfl, rfl, rfl⟩, rfl⟩
  · rw [Option.map_eq_none_iff] at h
    rw [h]
    rfl
  · obtain ⟨buf, rfl, rfl⟩ := Option.map_eq_some_iff.mp hk
    exact ⟨⟨buf, 0⟩, rfl, rfl, rfl, rfl⟩

/-- With room for the two NULs the call ends with what was written. -/
theorem ZState.Holds.out (h : z.Holds m n s f) (hso : ∀ k, m = some k → s.length + 1 < k)
    (hfn : f.length + 1 < n) (hs : nul ∉ s) (hf : nul ∉ f) (isWrap error : Bool) :
    ∃ out, zOut isWrap error z = .ok out ∧ out.ret = !error ∧ (∀ buf, out.so = some buf → cString buf = s) ∧
      cString out.fn = f := by
  obtain ⟨z₁, hz₁, h₁⟩ := h.emitSo hso nul
  obtain ⟨z₂, hz₂, h₂⟩ := h₁.emitFn hfn nul
  refine ⟨{ ret := !error && !z₂.oflow, so := z₂.so.map OutBuf.buf, fn := z₂.fn.buf, isWrap := some isWrap },
    ?_, ?_, fun buf hbuf => ?_, cString_of_holds h₂.fn hf⟩
  · rw [zOut, hz₁, ok_bind, hz₂, ok_bind]
    rfl
  · simp [h₂.oflow]
  · obtain ⟨b, hb, rfl⟩ := Option.map_eq_some_iff.mp hbuf
    cases m with
    | none => exact absurd (h₂.so_none rfl) (by simp [hb])
    | some k =>
      obtain ⟨b', hb', hholds⟩ := h₂.so_some k rfl
      rw [hb] at hb'
      cases hb'
      exact cString_of_holds hholds hs

theorem zOut_fn {out : ZResult} {isWrap error : Bool} (h : z.fn.Holds n f) (hroom : f.length + 1 < n)
    (hf : nul ∉ f) (hout : zOut isWrap error z = .ok out) : cString out.fn = f := by
  obtain ⟨z₁, hz₁, hout⟩ := bind_eq_ok.mp hout
  obtain ⟨z₂, hz₂, hout⟩ := bind_eq_ok.mp hout
  obtain ⟨b, hb, hholds⟩ := h.emit hroom nul
  rw [emitFn, emitSo_fn hz₁, hb] at hz₂
  cases hz₂
  cases hout
  exact cString_of_holds hholds hf

/-- A call that returns had room for the NULs, or the buffers were full before. -/
theorem ZState.Holds.out_room (h : z.Holds m n s f) {isWrap error : Bool} {out : ZResult}
    (hout : zOut isWrap error z = .ok out) :
    (∀ k, m = some k → s.length + 1 < k ∨ k ≤ s.length) ∧ (f.length + 1 < n ∨ n ≤ f.length) := by
  obtain ⟨z₁, hz₁, hout⟩ := bind_eq_ok.mp hout
  obtain ⟨z₂, hz₂, -⟩ := bind_eq_ok.mp hout
  constructor
  · intro k hk
    obtain ⟨b, hb, hholds⟩ := h.so_some k hk
    rw [Demangle.emitSo, hb] at hz₁
    obtain ⟨p, hp, -⟩ := bind_eq_ok.mp hz₁
    exact hholds.room hp
  · obtain ⟨p, hp, -⟩ := bind_eq_ok.mp hz₂
    rw [emitSo_fn hz₁] at hp
    exact h.fn.room hp

end Contents

/-! ## The round trip -/

/-- The call returns `True` and yields the soname and the function name of the symbol. -/
def RoundTrips (kind : ZKind) (enc : Bool) (so fn : CString) (soBuf : Option (List Char))
    (fnBuf : List Char) : Prop :=
  ∃ out, maybeZDemangle (zSymbol kind enc so.chars fn.chars) soBuf fnBuf = .ok out ∧ out.ret = true ∧
    (∀ buf, out.so = some buf → cString buf = so.chars) ∧ cString out.fn = fn.chars

section RoundTrip

variable {kind : ZKind} {enc : Bool} {so fn : CString} {soBuf : Option (List Char)} {fnBuf : List Char}

/-- The names come back if the buffers have a character to spare and the function name has
no encoded parentheses. -/
theorem roundTrips_of_room (hso : ∀ buf, soBuf = some buf → so.chars.length + 1 < buf.length)
    (hfn : fn.chars.length + 1 < fnBuf.length) (hplain : enc = true → '(' ∉ fn.chars ∧ ')' ∉ fn.chars) :
    RoundTrips kind enc so fn soBuf fnBuf := by
  have hroom : ∀ k, soBuf.map List.length = some k → so.chars.length + 1 < k := fun k hk => by
    obtain ⟨buf, hbuf, rfl⟩ := Option.map_eq_some_iff.mp hk
    exact hso buf hbuf
  obtain ⟨z₁, hz₁, h₁⟩ := (holds_init soBuf fnBuf).emitsSo so.chars fun k hk => by
    have := hroom k hk
    simp only [List.length_nil]
    omega
  obtain ⟨z₂, hz₂, h₂⟩ := h₁.emitsName fn.chars hplain (by
    simp only [List.length_nil]
    omega)
  obtain ⟨out, hout, hret, hsoOut, hfnOut⟩ := h₂.out hroom hfn so.noNul fn.noNul (kind.char = 'w') false
  refine ⟨out, ?_, hret, hsoOut, hfnOut⟩
  rw [maybeZDemangle_zSymbol, assertThat_of (show ∀ buf ∈ soBuf, 0 < buf.length from fun buf hbuf => Nat.zero_lt_of_lt (hso buf hbuf)),
    assertThat_of (Nat.zero_lt_of_lt hfn), ok_bind, ok_bind, hz₁, ok_bind, hz₂]
  exact hout

/-- The names do not come back if the buffers are exactly large enough, or if the function
name has encoded parentheses. -/
theorem room_of_roundTrips (hso : ∀ buf, soBuf = some buf → so.chars.length + 1 ≤ buf.length)
    (hfn : fn.chars.length + 1 ≤ fnBuf.length) (h : RoundTrips kind enc so fn soBuf fnBuf) :
    (∀ buf, soBuf = some buf → so.chars.length + 1 < buf.length) ∧
      fn.chars.length + 1 < fnBuf.length ∧ (enc = true → '(' ∉ fn.chars ∧ ')' ∉ fn.chars) := by
  obtain ⟨out, hout, -, -, hfnOut⟩ := h
  rw [maybeZDemangle_zSymbol] at hout
  obtain ⟨-, -, hout⟩ := bind_eq_ok.mp hout
  obtain ⟨-, -, hout⟩ := bind_eq_ok.mp hout
  obtain ⟨z₁, hz₁, hfold⟩ := bind_eq_ok.mp hout
  obtain ⟨z₂, hz₂, hend⟩ := bind_eq_ok.mp hfold
  obtain ⟨z₁', hz₁', h₁⟩ := (holds_init soBuf fnBuf).emitsSo so.chars fun k hk => by
    obtain ⟨buf, hbuf, rfl⟩ := Option.map_eq_some_iff.mp hk
    have := hso buf hbuf
    simp only [List.length_nil]
    omega
  rw [hz₁] at hz₁'
  cases hz₁'
  have hplain : enc = true → '(' ∉ fn.chars ∧ ')' ∉ fn.chars := by
    rintro rfl
    have hfilter := emitsName_fn h₁.fn (by simp only [List.length_nil]; omega) hz₂
    by_contra hparen
    have hlt : (fn.chars.filter fun c => c ≠ '(' ∧ c ≠ ')').length < fn.chars.length := by
      refine List.length_filter_lt_length_iff_exists.mpr ?_
      by_cases hl : '(' ∈ fn.chars
      · exact ⟨'(', hl, by decide⟩
      · exact ⟨')', not_not.mp fun hr => hparen ⟨hl, hr⟩, by decide⟩
    have hname := zOut_fn hfilter (by rw [List.nil_append]; omega)
      (fun hm => fn.noNul (List.mem_filter.mp hm).1) hend
    rw [hfnOut, List.nil_append] at hname
    rw [← hname] at hlt
    exact Nat.lt_irrefl _ hlt
  obtain ⟨z₂', hz₂', h₂⟩ := h₁.emitsName fn.chars hplain (by
    simp only [List.length_nil]
    omega)
  rw [hz₂] at hz₂'
  cases hz₂'
  obtain ⟨hsoRoom, hfnRoom⟩ := h₂.out_room hend
  refine ⟨fun buf hbuf => ?_, ?_, hplain⟩
  · have hlarge := hso buf hbuf
    rcases hsoRoom buf.length (by rw [hbuf]; rfl) with hr | hr
    · exact hr
    · simp only [List.nil_append] at hr
      omega
  · rcases hfnRoom with hr | hr
    · exact hr
    · simp only [List.nil_append] at hr
      omega

end RoundTrip

/-! ## Malformed symbols -/

/-- The characters that may follow a `Z`. -/
def zEscapes : List Char := ['a', 'p', 'c', 'd', 'u', 'h', 's', 'Z', 'A', 'L', 'R']

/-- Characters, none of which is a `Z` or stops the loop, and well-formed escapes. -/
inductive ZWord (stop : Char → Prop) : List Char → Prop
  | nil : ZWord stop []
  | char {c l} (hc : c ≠ 'Z') (hstop : ¬ stop c) (h : ZWord stop l) : ZWord stop (c :: l)
  | escape {e l} (he : e ∈ zEscapes) (h : ZWord stop l) : ZWord stop ('Z' :: e :: l)

/-- What follows the prefix is a soname, an unescaped underscore and a function name. -/
def ZForm (enc : Bool) (rest : List Char) : Prop :=
  ∃ so fn, rest = so ++ '_' :: fn ∧ ZWord (· = '_') so ∧ (enc = true → ZWord (fun _ => False) fn)

/-- An escape writes a character of the soname. -/
theorem soEscape_cases (z : ZState) (e : Char) :
    (e ∉ zEscapes ∧ soEscape z e = none) ∨ e ∈ zEscapes ∧ ∃ c, soEscape z e = some (emitSo z c) := by
  unfold soEscape
  split <;> simp_all [zEscapes]

/-- An escape writes a character of the function name, or of the soname. -/
theorem fnEscape_cases (z : ZState) (e : Char) :
    (e ∉ zEscapes ∧ fnEscape z e = none) ∨
      e ∈ zEscapes ∧ ∃ c, fnEscape z e = some (emitFn z c) ∨ fnEscape z e = some (emitSo z c) := by
  unfold fnEscape
  split
  case h_10 | h_11 => exact .inr ⟨by decide, _, .inr rfl⟩
  case h_12 => exact .inl ⟨by simp_all [zEscapes], rfl⟩
  all_goals exact .inr ⟨by decide, _, .inl rfl⟩

section Malformed

variable {m : Option Nat} {n : Nat}

/-- With room for all of the symbol the soname loop ends; it ends at a delimiter only behind
a well-formed soname. -/
theorem soLoop_spec : ∀ (l : List Char) {z : ZState} {s f : List Char}, z.Holds m n s f →
    (∀ k, m = some k → s.length + l.length < k) →
    ∃ r z' s', soLoop l z = .ok (r, z') ∧ z'.Holds m n s' f ∧
      s'.length + (r.getD []).length ≤ s.length + l.length ∧
      ∀ l', r = some l' → ∃ w, l = w ++ '_' :: l' ∧ ZWord (· = '_') w
  | [], z, s, f, h, _ => ⟨none, z, s, rfl, h, by simp, fun _ hr => (nomatch hr)⟩
  | c :: l, z, s, f, h, hroom => by
    have hroom' : ∀ k, m = some k → s.length + 1 + l.length < k := fun k hk => by
      have := hroom k hk
      rw [List.length_cons] at this
      omega
    by_cases hstop : c = '_'
    · subst hstop
      refine ⟨some l, z, s, soLoop_stop l, h, by simp, fun l' hl' => ?_⟩
      cases hl'
      exact ⟨[], rfl, .nil⟩
    by_cases hz : c = 'Z'
    · subst hz
      cases l with
      | nil => exact ⟨none, z, s, rfl, h, by simp, fun _ hr => (nomatch hr)⟩
      | cons e l =>
        rw [soLoop_escape]
        rcases soEscape_cases z e with ⟨-, hesc⟩ | ⟨he, ch, hesc⟩
        · exact ⟨none, z, s, by rw [hesc], h, by simp, fun _ hr => (nomatch hr)⟩
        · obtain ⟨z₁, hz₁, h₁⟩ := h.emitSo (fun k hk => by
            have := hroom' k hk
            omega) ch
          obtain ⟨r, z', s', hr, h', hlen, hform⟩ := soLoop_spec l h₁ fun k hk => by
            have := hroom' k hk
            simp only [List.length_append, List.length_cons, List.length_nil] at this ⊢
            omega
          refine ⟨r, z', s', ?_, h', ?_, fun l' hl' => ?_⟩
          · rw [hesc]
            simp only [hz₁, ok_bind, hr]
          · simp only [List.length_append, List.length_cons, List.length_nil] at hlen ⊢
            omega
          · obtain ⟨w, rfl, hw⟩ := hform l' hl'
            exact ⟨'Z' :: e :: w, rfl, .escape he hw⟩
    · obtain ⟨z₁, hz₁, h₁⟩ := h.emitSo (fun k hk => by
        have := hroom' k hk
        omega) c
      obtain ⟨r, z', s', hr, h', hlen, hform⟩ := soLoop_spec l h₁ fun k hk => by
        have := hroom' k hk
        simp only [List.length_append, List.length_cons, List.length_nil]
        omega
      refine ⟨r, z', s', ?_, h', ?_, fun l' hl' => ?_⟩
      · rw [soLoop_plain hstop hz, hz₁, ok_bind, hr]
      · simp only [List.length_append, List.length_cons, List.length_nil] at hlen ⊢
        omega
      · obtain ⟨w, rfl, hw⟩ := hform l' hl'
        exact ⟨c :: w, rfl, .char hz hstop hw⟩

/-- With room a well-formed escape writes one character. -/
theorem fnEscape_spec {z : ZState} {s f : List Char} (h : z.Holds m n s f)
    (hso : ∀ k, m = some k → s.length + 1 < k) (hfn : f.length + 1 < n) (e : Char) :
    fnEscape z e = none ∨ e ∈ zEscapes ∧ ∃ z₁ s₁ f₁, fnEscape z e = some (.ok z₁) ∧
      z₁.Holds m n s₁ f₁ ∧ s₁.length ≤ s.length + 1 ∧ f₁.length ≤ f.length + 1 := by
  rcases fnEscape_cases z e with ⟨-, hesc⟩ | ⟨he, c, hesc | hesc⟩
  · exact .inl hesc
  · obtain ⟨z₁, hz₁, h₁⟩ := h.emitFn hfn c
    exact .inr ⟨he, z₁, _, _, by rw [hesc, hz₁], h₁, by simp, by simp⟩
  · obtain ⟨z₁, hz₁, h₁⟩ := h.emitSo hso c
    exact .inr ⟨he, z₁, _, _, by rw [hesc, hz₁], h₁, by simp, by simp⟩

/-- With room for all of the symbol the function name loop ends, without an error only if
the name is well formed. -/
theorem fnLoop_spec : ∀ (l : List Char) {z : ZState} {s f : List Char}, z.Holds m n s f →
    (∀ k, m = some k → s.length + l.length < k) → f.length + l.length < n →
    ∃ error z' s' f', fnLoop l z = .ok (error, z') ∧ z'.Holds m n s' f' ∧
      s'.length ≤ s.length + l.length ∧ f'.length ≤ f.length + l.length ∧
      (error = false → ZWord (fun _ => False) l)
  | [], z, s, f, h, _, _ => ⟨false, z, s, f, rfl, h, by simp, by simp, fun _ => .nil⟩
  | c :: l, z, s, f, h, hso, hfn => by
    rw [List.length_cons] at hfn
    have hso' : ∀ k, m = some k → s.length + 1 + l.length < k := fun k hk => by
      have := hso k hk
      rw [List.length_cons] at this
      omega
    by_cases hz : c = 'Z'
    · subst hz
      cases l with
      | nil => exact ⟨true, z, s, f, rfl, h, by simp, by simp, fun he => (nomatch he)⟩
      | cons e l =>
        rw [List.length_cons] at hfn
        rw [fnLoop_escape]
        rcases fnEscape_spec h (fun k hk => by have := hso' k hk; omega) (by omega) e with
          hesc | ⟨he, z₁, s₁, f₁, hesc, h₁, hs₁, hf₁⟩
        · exact ⟨true, z, s, f, by rw [hesc], h, by simp, by simp, fun he => (nomatch he)⟩
        · obtain ⟨error, z', s', f', hr, h', hs', hf', hform⟩ := fnLoop_spec l h₁ (fun k hk => by
            have := hso' k hk
            rw [List.length_cons] at this
            omega) (by omega)
          refine ⟨error, z', s', f', ?_, h', ?_, ?_, fun herr => .escape he (hform herr)⟩
          · rw [hesc]
            simp only [ok_bind, hr]
          · simp only [List.length_cons]
            omega
          · simp only [List.length_cons]
            omega
    · obtain ⟨z₁, hz₁, h₁⟩ := h.emitFn (by omega) c
      obtain ⟨error, z', s', f', hr, h', hs', hf', hform⟩ := fnLoop_spec l h₁ (fun k hk => by
        have := hso' k hk
        omega) (by rw [List.length_append, List.length_singleton]; omega)
      refine ⟨error, z', s', f', ?_, h', ?_, ?_, fun herr => .char hz not_false (hform herr)⟩
      · rw [fnLoop_plain hz, hz₁, ok_bind, hr]
      · rw [List.length_cons]
        omega
      · simp only [List.length_append, List.length_cons, List.length_nil] at hf' ⊢
        omega

/-- **Malformed symbols** are rejected: with buffers as long as the symbol the call returns,
and `True` only for a well-formed symbol. -/
theorem maybeZDemangle_zForm (kind : ZKind) (enc : Bool) {rest : List Char}
    {soBuf : Option (List Char)} {fnBuf : List Char}
    (hso : ∀ buf, soBuf = some buf → rest.length + 1 < buf.length) (hfn : rest.length + 1 < fnBuf.length) :
    ∃ out, maybeZDemangle (zPrefix kind enc ++ rest) soBuf fnBuf = .ok out ∧
      (out.ret = true → ZForm enc rest) := by
  have hroom : ∀ k, soBuf.map List.length = some k → rest.length + 1 < k := fun k hk => by
    obtain ⟨buf, hbuf, rfl⟩ := Option.map_eq_some_iff.mp hk
    exact hso buf hbuf
  have hloops : ∃ error z s f, zLoops enc rest
      { so := soBuf.map fun buf => ⟨buf, 0⟩, fn := ⟨fnBuf, 0⟩, oflow := false } = .ok (error, z) ∧
      z.Holds (soBuf.map List.length) fnBuf.length s f ∧ s.length ≤ rest.length ∧ f.length ≤ rest.length ∧
      (error = false → ZForm enc rest) := by
    obtain ⟨r, z₁, s₁, hr, h₁, hlen, hform⟩ := soLoop_spec rest (holds_init soBuf fnBuf) fun k hk => by
      have := hroom k hk
      simp only [List.length_nil]
      omega
    rw [zLoops, hr, ok_bind]
    cases r with
    | none =>
      exact ⟨true, z₁, s₁, [], rfl, h₁, by simpa using hlen, by simp, fun he => (nomatch he)⟩
    | some l =>
      obtain ⟨w, rfl, hw⟩ := hform l rfl
      simp only [Option.getD_some, List.length_nil, Nat.zero_add] at hlen
      have hl : l.length ≤ (w ++ '_' :: l).length := by simp; omega
      cases enc with
      | true =>
        obtain ⟨error, z', s', f', hfnLoop, h', hs', hf', hname⟩ := fnLoop_spec l h₁
          (fun k hk => by have := hroom k hk; omega) (by simp only [List.length_nil]; omega)
        simp only [List.length_nil] at hf'
        exact ⟨error, z', s', f', hfnLoop, h', by omega, by omega,
          fun herr => ⟨w, l, rfl, hw, fun _ => hname herr⟩⟩
      | false =>
        obtain ⟨z', hcopy, h'⟩ : ∃ z', l.foldlM (emitName false) z₁ = .ok z' ∧
            z'.Holds (soBuf.map List.length) fnBuf.length s₁ ([] ++ l) :=
          h₁.emitsName l (fun he => nomatch he) (by simp only [List.length_nil]; omega)
        refine ⟨false, z', s₁, [] ++ l, ?_, h', by omega, hl, fun _ => ⟨w, l, rfl, hw, fun he => nomatch he⟩⟩
        simp only [Bool.false_eq_true, if_false, copyLoop_eq, hcopy, ok_bind]
        rfl
  obtain ⟨error, z, s, f, hz, h, hs, hf, hform⟩ := hloops
  obtain ⟨z₁, hz₁, h₁⟩ := h.emitSo (fun k hk => by have := hroom k hk; omega) nul
  obtain ⟨z₂, hz₂, h₂⟩ := h₁.emitFn (by omega) nul
  refine ⟨⟨!error && !z₂.oflow, z₂.so.map OutBuf.buf, z₂.fn.buf, some (kind.char = 'w')⟩, ?_,
    fun hret => hform ?_⟩
  · rw [maybeZDemangle_zPrefix,
      assertThat_of (show ∀ buf ∈ soBuf, 0 < buf.length from fun buf hbuf => Nat.zero_lt_of_lt (hso buf hbuf)),
      assertThat_of (Nat.zero_lt_of_lt hfn), ok_bind, ok_bind, hz]
    simp only [ok_bind, zOut, hz₁, hz₂]
    rfl
  · simpa using (Bool.and_eq_true_iff.mp hret).1

end Malformed

/-! ## The results -/

/-- **Z-decoding**: in buffers that are large enough for the names and the NULs that end them,
decoding yields the soname and the function name exactly if every buffer has one more
character, which the second NUL goes to, and the function name has no encoded parentheses,
which go to the soname; symbols that are not well formed are rejected. -/
theorem maybeZDemangle_correct_iff (kind : ZKind) (enc : Bool) (soBuf : Option (List Char))
    (fnBuf : List Char) :
    (∀ so fn : CString, (∀ buf, soBuf = some buf → so.chars.length + 1 ≤ buf.length) →
      fn.chars.length + 1 ≤ fnBuf.length →
      (RoundTrips kind enc so fn soBuf fnBuf ↔
        (∀ buf, soBuf = some buf → so.chars.length + 1 < buf.length) ∧
          fn.chars.length + 1 < fnBuf.length ∧ (enc = true → '(' ∉ fn.chars ∧ ')' ∉ fn.chars))) ∧
    ∀ rest, (∀ buf, soBuf = some buf → rest.length + 1 < buf.length) → rest.length + 1 < fnBuf.length →
      ¬ ZForm enc rest →
      ∃ out, maybeZDemangle (zPrefix kind enc ++ rest) soBuf fnBuf = .ok out ∧ out.ret = false := by
  constructor
  · intro so fn hso hfn
    exact ⟨room_of_roundTrips hso hfn, fun ⟨hso', hfn', hplain⟩ => roundTrips_of_room hso' hfn' hplain⟩
  · intro rest hso hfn hform
    obtain ⟨out, hout, hret⟩ := maybeZDemangle_zForm kind enc hso hfn
    exact ⟨out, hout, Bool.eq_false_iff.mpr fun h => hform (hret h)⟩

/-- The soname `libc.so*`. -/
def libcSo : CString := ⟨['l', 'i', 'b', 'c', '.', 's', 'o', '*'], by decide⟩

/-- The function name `malloc`. -/
def mallocName : CString := ⟨['m', 'a', 'l', 'l', 'o', 'c'], by decide⟩

theorem maybeZDemangle_correct_iff_malloc :
    RoundTrips .replace true libcSo mallocName (some (List.replicate 16 'x')) (List.replicate 16 'x') ∧
      ∃ out, maybeZDemangle (zPrefix .replace true ++ ['a', 'Z']) (some (List.replicate 16 'x'))
        (List.replicate 16 'x') = .ok out ∧ out.ret = false := by
  obtain ⟨hround, hreject⟩ := maybeZDemangle_correct_iff .replace true (some (List.replicate 16 'x'))
    (List.replicate 16 'x')
  have hlong : ∀ n < 16, ∀ buf, some (List.replicate 16 'x') = some buf → n < buf.length := by
    rintro n hn buf hbuf
    cases hbuf
    simpa using hn
  refine ⟨(hround libcSo mallocName (fun buf hbuf => (hlong 9 (by decide) buf hbuf).le) (by decide)).mpr
    ⟨hlong 9 (by decide), by decide, fun _ => by decide⟩, ?_⟩
  refine hreject ['a', 'Z'] (hlong 3 (by decide)) (by decide) ?_
  rintro ⟨so, fn, hrest, -⟩
  have hmem : '_' ∈ ['a', 'Z'] := by
    rw [hrest]
    simp
  exact absurd hmem (by decide)

/-- The function name `f(`. -/
def parenName : CString := ⟨['f', '('], by decide⟩

/-- `_vgrZZ_libcZdsoZa_fZL` does not yield the function name `f(`: the parenthesis is written
to the soname. -/
theorem maybeZDemangle_paren :
    ¬ ∀ (kind : ZKind) (enc : Bool) (so fn : CString) (soBuf : Option (List Char)) (fnBuf : List Char),
      (∀ buf, soBuf = some buf → so.chars.length + 1 ≤ buf.length) → fn.chars.length + 1 ≤ fnBuf.length →
        RoundTrips kind enc so fn soBuf fnBuf := by
  intro h
  have hso : ∀ buf, some (List.replicate 16 'x') = some buf → libcSo.chars.length + 1 ≤ buf.length := by
    rintro buf hbuf
    cases hbuf
    decide
  have hround := h .replace true libcSo parenName (some (List.replicate 16 'x')) (List.replicate 16 'x')
    hso (by decide)
  exact absurd ((room_of_roundTrips hso (by decide) hround).2.2 rfl).1 (by decide)

end Valgrind.Demangle
