import Valgrind.Aspacemgr.Queries

/-!
# Reading `/proc/self/maps`

`parse_procselfmaps` reads the kernel's view of the address space from a buffer, line by
line, and hands each mapping and each gap between mappings to a callback. For the call the
file name is terminated in the buffer itself, and the byte is put back afterwards.

`parseProcselfmaps_text` says what a well formed text makes of the callbacks' state, and
`tiled_mapsEvents` that mappings and gaps cover the address space in order.
-/

namespace Valgrind.Aspacemgr

open Machine Intervals

/-! ## Digits and characters -/

/-- `hexdigit`. -/
def hexdigit (c : UInt8) : Int :=
  if '0'.toUInt8 ≤ c ∧ c ≤ '9'.toUInt8 then c.toNat - '0'.toUInt8.toNat
  else if 'a'.toUInt8 ≤ c ∧ c ≤ 'f'.toUInt8 then 10 + (c.toNat - 'a'.toUInt8.toNat)
  else if 'A'.toUInt8 ≤ c ∧ c ≤ 'F'.toUInt8 then 10 + (c.toNat - 'A'.toUInt8.toNat)
  else -1

/-- `decdigit`. -/
def decdigit (c : UInt8) : Int :=
  if '0'.toUInt8 ≤ c ∧ c ≤ '9'.toUInt8 then c.toNat - '0'.toUInt8.toNat else -1

/-- `readchar`: the byte at the pointer, unless it is the terminator. -/
def readchar : List UInt8 → Option UInt8
  | [] => none
  | c :: _ => if c = 0 then none else some c

/-- The loop of the three functions that read a number: how many digits, and the value, with
`digit` as the value of one of them. All three stop where `hexdigit` does. -/
def readLoop (base modulus : Nat) (digit : UInt8 → Int) (n val : Nat) : List UInt8 → Nat × Nat
  | [] => (n, val)
  | c :: buf =>
    if 0 ≤ hexdigit c then
      readLoop base modulus digit (n + 1) (((val * base + digit c) % modulus).toNat) buf
    else (n, val)

section Functions

variable [Machine]

/-- `readhex`. -/
def readhex (buf : List UInt8) : Nat × Nat := readLoop 16 wordMod hexdigit 0 0 buf

/-- `readhex64`. -/
def readhex64 (buf : List UInt8) : Nat × Nat := readLoop 16 (2 ^ 64) hexdigit 0 0 buf

/-- `readdec64`. -/
def readdec64 (buf : List UInt8) : Nat × Nat := readLoop 10 (2 ^ 64) decdigit 0 0 buf

/-- `j = read(&procmap_buf[i], &val); if (j > 0) i += j; else goto syntaxerror;`, which exits. -/
def expectNum (read : List UInt8 → Nat × Nat) (buf : List UInt8) (i : Nat) : Result (Nat × Nat) :=
  let (j, val) := read (buf.drop i)
  if 0 < j then .ok (val, i + j) else .error .exit

/-- `j = readchar(&procmap_buf[i], &ch); if (j == 1 && p(ch)) i += j; else goto syntaxerror;`. -/
def expectChar (p : UInt8 → Bool) (buf : List UInt8) (i : Nat) : Result (UInt8 × Nat) :=
  match readchar (buf.drop i) with
  | some c => if p c then .ok (c, i + 1) else .error .exit
  | none => .error .exit

/-- What the fields of a line say. -/
structure LineFields where
  start : Nat
  endPlusOne : Nat
  rr : UInt8
  ww : UInt8
  xx : UInt8
  foffset : Nat
  maj : Nat
  min : Nat
  ino : Nat

/-- Read the pattern `%16x-%16x %c%c%c%c %16x %2x:%2x %d`: the fields, and the position
behind them. -/
def parseFields (buf : List UInt8) (i : Nat) : Result (LineFields × Nat) := do
  let (start, i) ← expectNum readhex buf i
  let (_, i) ← expectChar (· = '-'.toUInt8) buf i
  let (endPlusOne, i) ← expectNum readhex buf i
  let (_, i) ← expectChar (· = ' '.toUInt8) buf i
  let (rr, i) ← expectChar (fun c => c = 'r'.toUInt8 || c = '-'.toUInt8) buf i
  let (ww, i) ← expectChar (fun c => c = 'w'.toUInt8 || c = '-'.toUInt8) buf i
  let (xx, i) ← expectChar (fun c => c = 'x'.toUInt8 || c = '-'.toUInt8) buf i
  -- the shared/private flag
  let (_, i) ← expectChar (fun c => c = 'p'.toUInt8 || c = '-'.toUInt8 || c = 's'.toUInt8) buf i
  let (_, i) ← expectChar (· = ' '.toUInt8) buf i
  let (foffset, i) ← expectNum readhex64 buf i
  let (_, i) ← expectChar (· = ' '.toUInt8) buf i
  let (maj, i) ← expectNum readhex buf i
  let (_, i) ← expectChar (· = ':'.toUInt8) buf i
  let (min, i) ← expectNum readhex buf i
  let (_, i) ← expectChar (· = ' '.toUInt8) buf i
  let (ino, i) ← expectNum readdec64 buf i
  return (⟨start, endPlusOne, rr, ww, xx, foffset, maj, min, ino⟩, i)

/-! ## The lines -/

/-- `while (p(procmap_buf[i]) && i < buf_n_tot-1) i++;`, with `k` positions to go to
`buf_n_tot - 1`. -/
def advance (p : UInt8 → Bool) (buf : List UInt8) : Nat → Nat → Nat
  | 0, i => i
  | k + 1, i => if p (buf.getD i 0) then advance p buf k (i + 1) else i

/-- The protection bits of the three flags. -/
def protOf (r w x : Bool) : Nat := r.toNat ||| w.toNat <<< 1 ||| x.toNat <<< 2

/-- The device number in the encoding of `fstat64`. -/
def newDev (maj min : Nat) : Nat :=
  (min &&& 0xff) ||| (maj <<< 8) % wordMod ||| ((min - min % 256) <<< 12) % wordMod

/-- The two callbacks of `parse_procselfmaps`; either may be missing. They work on a state
`σ` of their own. -/
structure Callbacks (σ : Type) where
  recordMapping : Option (σ → MapsLine → Result σ)
  recordGap : Option (σ → Nat → Nat → Result σ)

variable {σ : Type}

/-- `(*record_mapping)(..)`. -/
def Callbacks.mapping (cb : Callbacks σ) (s : σ) (l : MapsLine) : Result σ :=
  match cb.recordMapping with
  | some f => f s l
  | none => .ok s

/-- `(*record_gap)(..)`. -/
def Callbacks.gap (cb : Callbacks σ) (s : σ) (addr len : Nat) : Result σ :=
  match cb.recordGap with
  | some f => f s addr len
  | none => .ok s

/-- The file name between `i` and `iEol`, if there is one, with the byte behind it and the
buffer in which this byte is replaced by a terminator. -/
def terminateName (buf : List UInt8) (i iEol : Nat) : Option (List UInt8) × UInt8 × List UInt8 :=
  if i + 1 < iEol ∧ buf.getD i 0 = '/'.toUInt8 then
    (some (((buf.set iEol 0).drop i).takeWhile (· ≠ 0)), buf.getD iEol 0, buf.set iEol 0)
  else (none, 0, buf)

/-- The loop of `parse_procselfmaps` over the lines, from position `i` on. Yields the buffer,
the end of the last mapping and the state of the callbacks. -/
def parseLoop (cb : Callbacks σ) : Nat → List UInt8 → Nat → Nat → σ → Result (List UInt8 × Nat × σ)
  | 0, _, _, _, _ => .error .diverge
  | fuel + 1, buf, i, gapStart, s =>
    if buf.length ≤ i then .ok (buf, gapStart, s)
    else do
      let (f, i) ← parseFields buf i
      -- to the next non-space, and from there to the end of the line
      let i := advance (· = ' '.toUInt8) buf (buf.length - 1 - i) i
      let iEol := advance (· ≠ '\n'.toUInt8) buf (buf.length - 1 - i) i
      let (filename, tmp, buf) := terminateName buf i iEol
      let foffset := if filename.isSome then f.foffset else 0
      let prot := protOf (f.rr = 'r'.toUInt8) (f.ww = 'w'.toUInt8) (f.xx = 'x'.toUInt8)
      let dev := newDev f.maj f.min
      let s ← (if gapStart < f.start then cb.gap s gapStart (f.start - gapStart) else pure s)
      let s ← (if f.start < f.endPlusOne then
        cb.mapping s ⟨f.start, f.endPlusOne - f.start, prot, dev, f.ino, BitVec.ofNat 64 foffset, filename⟩
        else pure s)
      let buf := if tmp ≠ 0 then buf.set iEol tmp else buf
      parseLoop cb fuel buf (iEol + 1) f.endPlusOne s

/-- `M_PROCMAP_BUF`. -/
def mProcmapBuf : Nat := 100000

/-- `read_procselfmaps_into_buf`, for a file with the bytes `file`. -/
def readProcselfmapsIntoBuf (file : List UInt8) : Result (List UInt8) :=
  let buf := file.take mProcmapBuf
  if mProcmapBuf - 5 ≤ buf.length then .error .tooLow
  else if buf.length = 0 then .error .panic
  else .ok buf

/-- `parse_procselfmaps`. Yields the state of the callbacks, and `procmap_buf`. -/
def parseProcselfmaps (cb : Callbacks σ) (file : List UInt8) (s : σ) : Result (σ × List UInt8) := do
  let buf ← readProcselfmapsIntoBuf file
  assertThat (buf.getD 0 0 ≠ 0)
  let (buf, gapStart, s) ← parseLoop cb (buf.length + 1) buf 0 0 s
  let s ← (if gapStart < addrMax then cb.gap s gapStart (addW (addrMax - gapStart) 1) else pure s)
  return (s, buf)

/-! ## Well formed texts -/

/-- A number as it is written: at least one digit, and nothing else. -/
structure Numeral (digit : UInt8 → Int) where
  digits : List UInt8
  nonempty : digits ≠ []
  all : ∀ c ∈ digits, 0 ≤ hexdigit c ∧ 0 ≤ digit c

/-- The value of a sequence of digits. -/
def digitsVal (base : Nat) (digit : UInt8 → Int) (v : Nat) (d : List UInt8) : Nat :=
  d.foldl (fun v c => v * base + (digit c).toNat) v

/-- The number that is written. -/
def Numeral.value {digit : UInt8 → Int} (n : Numeral digit) (base : Nat) : Nat := digitsVal base digit 0 n.digits

/-- One line of `/proc/self/maps`: `start-end rwxp offset maj:min ino`, blanks and a name. -/
structure LineText where
  start : Numeral hexdigit
  end_ : Numeral hexdigit
  r : Bool
  w : Bool
  x : Bool
  shared : UInt8
  offset : Numeral hexdigit
  maj : Numeral hexdigit
  min : Numeral hexdigit
  ino : Numeral decdigit
  blanks : Nat
  name : List UInt8
  /-- The range is not empty and does not wrap. -/
  ordered : start.value 16 < end_.value 16
  noWrap : end_.value 16 < wordMod
  aligned : isPageAligned (start.value 16) ∧ isPageAligned (end_.value 16)
  shared_ok : shared = 'p'.toUInt8 ∨ shared = '-'.toUInt8 ∨ shared = 's'.toUInt8
  offset_fits : offset.value 16 < 2 ^ 64
  dev_fits : maj.value 16 < wordMod ∧ min.value 16 < wordMod
  ino_fits : ino.value 10 < 2 ^ 64
  /-- A name is set off by a blank, and is in one line. -/
  name_ok : ∀ c ∈ name, c ≠ 0 ∧ c ≠ '\n'.toUInt8
  name_head : ∀ c ∈ name.head?, c ≠ ' '.toUInt8 ∧ 0 < blanks

/-- A permission flag. -/
def flag (b : Bool) (c : Char) : UInt8 := if b then c.toUInt8 else '-'.toUInt8

/-- What follows the fields of a line. -/
def LineText.tail (l : LineText) (rest : List UInt8) : List UInt8 :=
  List.replicate l.blanks ' '.toUInt8 ++ (l.name ++ '\n'.toUInt8 :: rest)

/-- The text of a line, and of what follows it. -/
def LineText.text (l : LineText) (rest : List UInt8) : List UInt8 :=
  l.start.digits ++ '-'.toUInt8 :: (l.end_.digits ++ ' '.toUInt8 :: flag l.r 'r' :: flag l.w 'w' :: flag l.x 'x' ::
    l.shared :: ' '.toUInt8 :: (l.offset.digits ++ ' '.toUInt8 :: (l.maj.digits ++ ':'.toUInt8 ::
      (l.min.digits ++ ' '.toUInt8 :: (l.ino.digits ++ l.tail rest)))))

/-- The text of a sequence of lines. -/
def textOf : List LineText → List UInt8
  | [] => []
  | l :: ls => l.text (textOf ls)

/-- The lines are in ascending order and do not overlap. -/
def Ascending (ls : List LineText) : Prop := ls.Pairwise fun l m => l.end_.value 16 ≤ m.start.value 16

/-- The line has a file name, with its `/` in front. -/
def LineText.hasName (l : LineText) : Bool := l.name.head? = some '/'.toUInt8

/-- The mapping that a line is about. -/
def LineText.mapping (l : LineText) : MapsLine where
  addr := l.start.value 16
  len := l.end_.value 16 - l.start.value 16
  prot := protOf l.r l.w l.x
  dev := newDev (l.maj.value 16) (l.min.value 16)
  ino := l.ino.value 10
  offset := if l.hasName then BitVec.ofNat 64 (l.offset.value 16) else 0
  filename := if l.hasName then some l.name else none

/-- One thing that the callbacks are told. -/
inductive MapsEvent where
  | mapping (l : MapsLine)
  | gap (addr len : Nat)
  deriving DecidableEq, Repr

/-- Where the range of an event begins. -/
def MapsEvent.lo : MapsEvent → Nat
  | .mapping l => l.addr
  | .gap addr _ => addr

/-- Where the range of an event ends. -/
def MapsEvent.hi : MapsEvent → Nat
  | .mapping l => l.addr + l.len
  | .gap addr len => addr + len

/-- The callback for an event. -/
def Callbacks.handle (cb : Callbacks σ) (s : σ) : MapsEvent → Result σ
  | .mapping l => cb.mapping s l
  | .gap addr len => cb.gap s addr len

/-- The gap, if there is one, between two addresses. -/
def gapEvents (a b : Nat) : List MapsEvent := if a < b then [.gap a (b - a)] else []

/-- What the lines make the callbacks be told, from `gapStart` to the end of the last. -/
def lineEvents : Nat → List LineText → List MapsEvent
  | _, [] => []
  | gapStart, l :: ls =>
    gapEvents gapStart (l.start.value 16) ++ .mapping l.mapping :: lineEvents (l.end_.value 16) ls

/-- Where the last line ends. -/
def lastEnd : Nat → List LineText → Nat
  | a, [] => a
  | _, l :: ls => lastEnd (l.end_.value 16) ls

/-- All that the callbacks are told. -/
def mapsEvents (ls : List LineText) : List MapsEvent :=
  lineEvents 0 ls ++ gapEvents (lastEnd 0 ls) wordMod

/-! ## Reading a line -/

variable {digit : UInt8 → Int} {buf d rest : List UInt8} {base modulus n v i k : Nat} {p : UInt8 → Bool}

omit [Machine] in
/-- Reading digits takes the digits, and no more. -/
theorem readLoop_append (hd : ∀ c ∈ d, 0 ≤ hexdigit c ∧ 0 ≤ digit c) (hstop : ∀ c ∈ rest.head?, hexdigit c < 0) :
    readLoop base modulus digit n (v % modulus) (d ++ rest) = (n + d.length, digitsVal base digit v d % modulus) := by
  induction d generalizing n v with
  | nil =>
    cases rest with
    | nil => rfl
    | cons c rest =>
      have := hstop c (by simp)
      simp [readLoop, digitsVal, Int.not_le.mpr this]
  | cons c d ih =>
    obtain ⟨hc, hdc⟩ := hd c (by simp)
    have hstep : ((((v % modulus : Nat) : Int) * base + digit c) % modulus).toNat =
        (v * base + (digit c).toNat) % modulus := by
      obtain ⟨x, hx⟩ := Int.eq_ofNat_of_zero_le hdc
      have hcast : (((v % modulus : Nat) : Int) * base + (x : Int)) % modulus =
          (((v % modulus * base + x) % modulus : Nat) : Int) := by push_cast; rfl
      rw [hx, Int.toNat_natCast, hcast, Int.toNat_natCast, Nat.add_mod, Nat.mul_mod, Nat.mod_mod,
        ← Nat.mul_mod, ← Nat.add_mod]
    rw [List.cons_append, readLoop, if_pos hc, hstep, ih fun c' hc' => hd c' (by simp [hc'])]
    simp only [List.length_cons, digitsVal, List.foldl_cons]
    rw [Nat.add_right_comm, Nat.add_assoc]

omit [Machine] in
theorem drop_append (h : buf.drop i = d ++ rest) : buf.drop (i + d.length) = rest := by
  rw [← List.drop_drop, h, List.drop_left]

omit [Machine] in
theorem drop_cons {c : UInt8} (h : buf.drop i = c :: rest) : buf.drop (i + 1) = rest :=
  drop_append (d := [c]) h

omit [Machine] in
/-- A number of the pattern. -/
theorem expectNum_of {num : Numeral digit} {read : List UInt8 → Nat × Nat}
    (hread : ∀ buf, read buf = readLoop base modulus digit 0 0 buf) (hfits : num.value base < modulus)
    (hstop : ∀ c ∈ rest.head?, hexdigit c < 0) (h : buf.drop i = num.digits ++ rest) :
    expectNum read buf i = .ok (num.value base, i + num.digits.length) := by
  have hval : readLoop base modulus digit 0 (0 % modulus) (num.digits ++ rest) = _ := readLoop_append num.all hstop
  rw [Nat.zero_mod, Nat.zero_add] at hval
  have hpos : 0 < num.digits.length := List.length_pos_iff.mpr num.nonempty
  rw [expectNum, h, hread, hval]
  dsimp only
  rw [if_pos hpos]
  exact congrArg (fun v => Except.ok (v, _)) (Nat.mod_eq_of_lt hfits)

omit [Machine] in
/-- A character of the pattern. -/
theorem expectChar_of {c : UInt8} (hc : c ≠ 0) (hp : p c = true) (h : buf.drop i = c :: rest) :
    expectChar p buf i = .ok (c, i + 1) := by
  simp [expectChar, h, readchar, hc, hp]

omit [Machine] in
theorem stop_cons {c : UInt8} (hc : hexdigit c < 0) : ∀ c' ∈ (c :: rest).head?, hexdigit c' < 0 := by
  rintro c' ⟨rfl⟩
  exact hc

variable {l : LineText} {ls : List LineText} {cb : Callbacks σ}

/-- A line's number does not run into what follows it. -/
theorem LineText.tail_stop (l : LineText) (rest : List UInt8) : ∀ c ∈ (l.tail rest).head?, hexdigit c < 0 := by
  unfold LineText.tail
  cases hb : l.blanks with
  | zero =>
    have hname : l.name = [] := by
      cases hn : l.name with
      | nil => rfl
      | cons c name =>
        have := (l.name_head c (by simp [hn])).2
        omega
    rw [hname]
    exact stop_cons (by decide)
  | succ n => exact stop_cons (by decide)

/-- The fields of a line. -/
def LineText.fields (l : LineText) : LineFields where
  start := l.start.value 16
  endPlusOne := l.end_.value 16
  rr := flag l.r 'r'
  ww := flag l.w 'w'
  xx := flag l.x 'x'
  foffset := l.offset.value 16
  maj := l.maj.value 16
  min := l.min.value 16
  ino := l.ino.value 10

theorem readhex_eq (buf : List UInt8) : readhex buf = readLoop 16 wordMod hexdigit 0 0 buf := rfl

omit [Machine] in
theorem readhex64_eq (buf : List UInt8) : readhex64 buf = readLoop 16 (2 ^ 64) hexdigit 0 0 buf := rfl

omit [Machine] in
theorem readdec64_eq (buf : List UInt8) : readdec64 buf = readLoop 10 (2 ^ 64) decdigit 0 0 buf := rfl

theorem parseFields_text (h : buf.drop i = l.text rest) :
    ∃ j, i < j ∧ parseFields buf i = .ok (l.fields, j) ∧ buf.drop j = l.tail rest := by
  have hstart : l.start.value 16 < wordMod := l.ordered.trans l.noWrap
  have hpos : 0 < l.start.digits.length := List.length_pos_iff.mpr l.start.nonempty
  unfold parseFields
  rw [expectNum_of readhex_eq hstart (stop_cons (by decide)) h, ok_bind]
  replace h := drop_append h
  dsimp only
  rw [expectChar_of (by decide) (by decide) h, ok_bind]
  replace h := drop_cons h
  dsimp only
  rw [expectNum_of readhex_eq l.noWrap (stop_cons (by decide)) h, ok_bind]
  replace h := drop_append h
  dsimp only
  rw [expectChar_of (by decide) (by decide) h, ok_bind]
  replace h := drop_cons h
  dsimp only
  rw [expectChar_of (by cases l.r <;> decide) (by cases l.r <;> decide) h, ok_bind]
  replace h := drop_cons h
  dsimp only
  rw [expectChar_of (by cases l.w <;> decide) (by cases l.w <;> decide) h, ok_bind]
  replace h := drop_cons h
  dsimp only
  rw [expectChar_of (by cases l.x <;> decide) (by cases l.x <;> decide) h, ok_bind]
  replace h := drop_cons h
  dsimp only
  have hshared : l.shared ≠ 0 := by
    rcases l.shared_ok with hs | hs | hs <;> rw [hs] <;> decide
  rw [expectChar_of hshared (by simpa [or_assoc] using l.shared_ok) h, ok_bind]
  replace h := drop_cons h
  dsimp only
  rw [expectChar_of (by decide) (by decide) h, ok_bind]
  replace h := drop_cons h
  dsimp only
  rw [expectNum_of readhex64_eq l.offset_fits (stop_cons (by decide)) h, ok_bind]
  replace h := drop_append h
  dsimp only
  rw [expectChar_of (by decide) (by decide) h, ok_bind]
  replace h := drop_cons h
  dsimp only
  rw [expectNum_of readhex_eq l.dev_fits.1 (stop_cons (by decide)) h, ok_bind]
  replace h := drop_append h
  dsimp only
  rw [expectChar_of (by decide) (by decide) h, ok_bind]
  replace h := drop_cons h
  dsimp only
  rw [expectNum_of readhex_eq l.dev_fits.2 (stop_cons (by decide)) h, ok_bind]
  replace h := drop_append h
  dsimp only
  rw [expectChar_of (by decide) (by decide) h, ok_bind]
  replace h := drop_cons h
  dsimp only
  rw [expectNum_of readdec64_eq l.ino_fits (l.tail_stop rest) h, ok_bind]
  replace h := drop_append h
  refine ⟨_, ?_, rfl, h⟩
  omega

omit [Machine] in
theorem getD_of_drop {c : UInt8} (h : buf.drop i = c :: rest) : buf.getD i 0 = c := by
  have := congrArg (·[0]?) h
  simp only [List.getElem?_drop, Nat.add_zero, List.getElem?_cons_zero] at this
  simp [List.getD_eq_getElem?_getD, this]

omit [Machine] in
theorem length_of_drop (h : buf.drop i = d) (hd : d ≠ []) : i + d.length = buf.length := by
  have hlen := congrArg List.length h
  have hpos := List.length_pos_iff.mpr hd
  rw [List.length_drop] at hlen
  omega

omit [Machine] in
/-- The position moves over what passes the test, and stops before what does not. -/
theorem advance_run {c : UInt8} (h : buf.drop i = d ++ c :: rest) (hd : ∀ c ∈ d, p c = true) (hc : p c = false)
    (hk : d.length ≤ k) : advance p buf k i = i + d.length := by
  induction d generalizing i k with
  | nil =>
    cases k with
    | zero => rfl
    | succ k =>
      rw [advance, getD_of_drop h, hc]
      rfl
  | cons c' d ih =>
    obtain ⟨k, rfl⟩ := Nat.exists_eq_succ_of_ne_zero (show k ≠ 0 by simp at hk; omega)
    rw [advance, getD_of_drop h, if_pos (hd c' (by simp)), ih (drop_cons h) (fun c hc => hd c (by simp [hc]))
      (by simpa using hk), List.length_cons]
    omega

omit [Machine] in
theorem advance_of_drop {c : UInt8} (h : buf.drop i = d ++ c :: rest) (hd : ∀ c ∈ d, p c = true) (hc : p c = false) :
    advance p buf (buf.length - 1 - i) i = i + d.length := by
  have hlen := length_of_drop h (by simp)
  rw [List.length_append, List.length_cons] at hlen
  exact advance_run h hd hc (by omega)

/-- The callback sees the name of the line, and the buffer is as it was when the terminator is
taken out again. -/
theorem terminateName_text (h : buf.drop i = l.name ++ '\n'.toUInt8 :: rest) (hname : l.name ≠ ['/'.toUInt8]) :
    ∃ tmp buf', terminateName buf i (i + l.name.length) = (l.mapping.filename, tmp, buf') ∧
      (if tmp ≠ 0 then buf'.set (i + l.name.length) tmp else buf') = buf := by
  have heol : buf.getD (i + l.name.length) 0 = '\n'.toUInt8 := getD_of_drop (drop_append h)
  unfold terminateName
  by_cases hn : l.hasName = true
  · -- a name: it has a second character
    obtain ⟨name, hhead⟩ : ∃ name, l.name = '/'.toUInt8 :: name := by
      cases hl : l.name with
      | nil => simp [LineText.hasName, hl] at hn
      | cons c name => exact ⟨name, by simpa [LineText.hasName, hl] using hn⟩
    have hlong : 1 < l.name.length := by
      cases name with
      | nil => exact absurd hhead hname
      | cons c name => simp [hhead]
    have hfirst : buf.getD i 0 = '/'.toUInt8 := by
      rw [hhead] at h
      exact getD_of_drop h
    have hset : (buf.set (i + l.name.length) 0).drop i = l.name ++ 0 :: rest := by
      rw [List.drop_set, if_neg (by omega), h, Nat.add_sub_cancel_left, List.set_append_right (h := Nat.le_refl _),
        Nat.sub_self, List.set_cons_zero]
    have htake : (l.name ++ 0 :: rest).takeWhile (· ≠ 0) = l.name := by
      rw [List.takeWhile_append_of_pos fun c hc => by simpa using (l.name_ok c hc).1]
      simp
    have hname' : l.mapping.filename = some l.name := if_pos hn
    refine ⟨_, _, by rw [if_pos ⟨by omega, hfirst⟩, hset, htake, hname'], ?_⟩
    rw [heol, if_pos (by decide), List.set_set, ← heol, List.getD_eq_getElem?_getD]
    refine List.ext_getElem? fun j => ?_
    rw [List.getElem?_set]
    split
    · rename_i hj
      subst hj
      have hlt : i + l.name.length < buf.length := by
        have := length_of_drop h (by simp)
        simp at this
        omega
      simp [hlt]
    · rfl
  · have hname' : l.mapping.filename = none := if_neg hn
    have hnot : ¬ (i + 1 < i + l.name.length ∧ buf.getD i 0 = '/'.toUInt8) := by
      rintro ⟨hlt, hfirst⟩
      cases hl : l.name with
      | nil => simp [hl] at hlt
      | cons c name =>
        rw [hl] at h
        rw [getD_of_drop h] at hfirst
        exact hn (by simp [LineText.hasName, hl, hfirst])
    exact ⟨_, _, by rw [if_neg hnot, hname'], rfl⟩

/-! ## Reading the text -/

theorem handle_line (gapStart : Nat) (s : σ) :
    runSteps cb.handle s (lineEvents gapStart (l :: ls)) =
      ((if gapStart < l.fields.start then cb.gap s gapStart (l.fields.start - gapStart) else pure s) >>=
        fun s => cb.mapping s l.mapping >>= fun s => runSteps cb.handle s (lineEvents l.fields.endPlusOne ls)) := by
  by_cases hgap : gapStart < l.fields.start
  · rw [lineEvents, gapEvents, if_pos (show gapStart < l.start.value 16 from hgap), if_pos hgap]
    rfl
  · rw [lineEvents, gapEvents, if_neg (show ¬ gapStart < l.start.value 16 from hgap), if_neg hgap]
    rfl

omit [Machine] in
theorem flag_iff {b : Bool} {c : Char} (hc : c.toUInt8 ≠ '-'.toUInt8) : decide (flag b c = c.toUInt8) = b := by
  cases b with
  | true => simp [flag]
  | false => simpa [flag] using hc.symm

/-- What the loop makes of the fields and the name of a line. -/
theorem mapping_eq (l : LineText) : (⟨l.fields.start, l.fields.endPlusOne - l.fields.start,
    protOf (l.fields.rr = 'r'.toUInt8) (l.fields.ww = 'w'.toUInt8) (l.fields.xx = 'x'.toUInt8),
    newDev l.fields.maj l.fields.min, l.fields.ino,
    BitVec.ofNat 64 (if l.mapping.filename.isSome then l.fields.foffset else 0), l.mapping.filename⟩ : MapsLine) =
      l.mapping := by
  have hrr : decide (l.fields.rr = 'r'.toUInt8) = l.r := flag_iff (by decide)
  have hww : decide (l.fields.ww = 'w'.toUInt8) = l.w := flag_iff (by decide)
  have hxx : decide (l.fields.xx = 'x'.toUInt8) = l.x := flag_iff (by decide)
  rw [hrr, hww, hxx]
  simp only [LineText.mapping]
  split <;> rfl

theorem parseLoop_text (hnames : ∀ l ∈ ls, l.name ≠ ['/'.toUInt8]) {fuel gapStart : Nat} (hfuel : ls.length < fuel)
    (h : buf.drop i = textOf ls) (s : σ) :
    parseLoop cb fuel buf i gapStart s =
      (runSteps cb.handle s (lineEvents gapStart ls) >>= fun s' => pure (buf, lastEnd gapStart ls, s')) := by
  induction ls generalizing fuel i gapStart s with
  | nil =>
    obtain ⟨fuel, rfl⟩ := Nat.exists_eq_succ_of_ne_zero (show fuel ≠ 0 by omega)
    have hlen : buf.length ≤ i := List.drop_eq_nil_iff.mp h
    rw [parseLoop, if_pos hlen]
    rfl
  | cons l ls ih =>
    obtain ⟨fuel, rfl⟩ := Nat.exists_eq_succ_of_ne_zero (show fuel ≠ 0 by omega)
    have hlt : ¬ buf.length ≤ i := by
      rw [← List.drop_eq_nil_iff, h]
      simp [textOf, LineText.text]
    obtain ⟨j, -, hfields, htail⟩ := parseFields_text h
    -- the blanks end where the name begins, or with the line
    obtain ⟨c, rest, hc, hrest⟩ : ∃ c rest, c ≠ ' '.toUInt8 ∧ l.name ++ '\n'.toUInt8 :: textOf ls = c :: rest := by
      cases hl : l.name with
      | nil => exact ⟨_, _, by decide, rfl⟩
      | cons c name => exact ⟨_, _, (l.name_head c (by simp [hl])).1, rfl⟩
    have hblanks : advance (· = ' '.toUInt8) buf (buf.length - 1 - j) j = j + l.blanks := by
      rw [LineText.tail, hrest] at htail
      rw [advance_of_drop htail (fun c hc => by simpa using (List.mem_replicate.mp hc).2) (by simpa using hc),
        List.length_replicate]
    have hname := drop_append htail
    rw [List.length_replicate] at hname
    have heol := advance_of_drop (p := (· ≠ '\n'.toUInt8)) hname (fun c hc => by simpa using (l.name_ok c hc).2) (by simp)
    obtain ⟨tmp, buf', hterm, hback⟩ := terminateName_text hname (hnames l (by simp))
    have hnext := drop_cons (drop_append hname)
    rw [parseLoop, if_neg hlt, hfields, ok_bind]
    dsimp only
    rw [hblanks, heol, hterm]
    dsimp only
    have hordered : l.fields.start < l.fields.endPlusOne := l.ordered
    rw [mapping_eq, handle_line]
    simp only [if_pos hordered, bind_assoc, hback]
    refine bind_congr fun s => bind_congr fun s => ?_
    exact ih (fun l hl => hnames l (by simp [hl])) (by simpa using hfuel) hnext s

/-! ## What the callbacks are told -/

theorem lastEnd_spec (ls : List LineText) (h : ∀ l ∈ ls, isPageAligned (l.end_.value 16) ∧ l.end_.value 16 < wordMod) {a : Nat}
    (ha : isPageAligned a ∧ a < wordMod) : isPageAligned (lastEnd a ls) ∧ lastEnd a ls < wordMod := by
  induction ls generalizing a with
  | nil => exact ha
  | cons l ls ih => exact ih (fun l hl => h l (by simp [hl])) (h l (by simp))

/-- An aligned address leaves room for a page above it. -/
theorem lt_addrMax {a : Nat} (ha : isPageAligned a) (hlt : a < wordMod) : a < addrMax := by
  obtain ⟨k, hk⟩ := Nat.dvd_of_mod_eq_zero ha
  obtain ⟨w, hw⟩ := pageSzB_dvd_wordMod
  have hmax := addrMax_add_one
  have hpage := page_ok
  have hkw : k < w := Nat.lt_of_mul_lt_mul_left (hk ▸ hw ▸ hlt)
  have := Nat.mul_le_mul_left pageSzB (Nat.succ_le_of_lt hkw)
  rw [Nat.mul_succ] at this
  omega

theorem lastEnd_pos (hne : ls ≠ []) : 0 < lastEnd 0 ls := by
  suffices h : ∀ a ls, (ls ≠ [] ∨ 0 < a) → 0 < lastEnd a ls from h 0 ls (.inl hne)
  intro a ls h
  induction ls generalizing a with
  | nil => exact h.resolve_left (by simp)
  | cons l ls ih => exact ih _ (.inr (Nat.zero_lt_of_lt l.ordered))

theorem length_le_textOf (ls : List LineText) : ls.length ≤ (textOf ls).length := by
  induction ls with
  | nil => exact Nat.le_refl _
  | cons l ls ih =>
    simp only [textOf, LineText.text, LineText.tail, List.length_append, List.length_cons]
    omega

/-- **The parser**: a well formed text makes the callbacks be told its mappings, and the gaps
between them. -/
theorem parseProcselfmaps_text (cb : Callbacks σ) (hne : ls ≠ []) (hlen : (textOf ls).length < mProcmapBuf - 5)
    (hnames : ∀ l ∈ ls, l.name ≠ ['/'.toUInt8]) (s : σ) :
    parseProcselfmaps cb (textOf ls) s =
      (runSteps cb.handle s (mapsEvents ls) >>= fun s' => pure (s', textOf ls)) := by
  have hpos : (textOf ls).length ≠ 0 := by
    have := List.length_pos_iff.mpr hne
    have := length_le_textOf ls
    omega
  have htake : (textOf ls).take mProcmapBuf = textOf ls := List.take_of_length_le (by omega)
  have hfirst : (textOf ls).getD 0 0 ≠ 0 := by
    obtain ⟨l, ls, rfl⟩ := List.exists_cons_of_ne_nil hne
    obtain ⟨c, d, hd⟩ := List.exists_cons_of_ne_nil l.start.nonempty
    have hc := (l.start.all c (by simp [hd])).1
    intro hzero
    rw [textOf, LineText.text, hd, List.cons_append, List.getD_cons_zero] at hzero
    rw [hzero] at hc
    exact absurd hc (by decide)
  obtain ⟨hal, hlt⟩ := lastEnd_spec ls (fun l _ => ⟨l.aligned.2, l.noWrap⟩)
    (show isPageAligned 0 ∧ 0 < wordMod from ⟨Nat.zero_mod _, wordMod_pos⟩)
  have hend := lt_addrMax hal hlt
  have hgap : addW (addrMax - lastEnd 0 ls) 1 = wordMod - lastEnd 0 ls := by
    have := lastEnd_pos hne
    have := addrMax_add_one
    rw [addW_of_lt (by omega)]
    omega
  unfold parseProcselfmaps readProcselfmapsIntoBuf
  rw [htake, if_neg (by omega), if_neg hpos, ok_bind, assertThat_of hfirst, ok_bind,
    parseLoop_text hnames (Nat.lt_succ_of_le (length_le_textOf ls)) rfl]
  simp only [bind_assoc, pure_bind, mapsEvents, runSteps_append_eq, if_pos hend, hgap, gapEvents, if_pos hlt,
    runSteps, Callbacks.handle, ok_bind]

/-- The mappings among the events. -/
def MapsEvent.mapping? : MapsEvent → Option MapsLine
  | .mapping l => some l
  | .gap _ _ => none

omit [Machine] in
theorem filterMap_gapEvents (a b : Nat) : (gapEvents a b).filterMap MapsEvent.mapping? = [] := by
  unfold gapEvents
  split <;> rfl

/-- Every line is a mapping, in order. -/
theorem filterMap_mapsEvents (ls : List LineText) :
    (mapsEvents ls).filterMap MapsEvent.mapping? = ls.map LineText.mapping := by
  suffices h : ∀ a, (lineEvents a ls).filterMap MapsEvent.mapping? = ls.map LineText.mapping by
    rw [mapsEvents, List.filterMap_append, h, filterMap_gapEvents, List.append_nil]
  intro a
  induction ls generalizing a with
  | nil => rfl
  | cons l ls ih =>
    rw [lineEvents, List.filterMap_append, filterMap_gapEvents, List.nil_append, List.filterMap_cons, List.map_cons, ih]
    rfl

omit [Machine] in
theorem tiled_gapEvents {a b : Nat} (h : a ≤ b) : Tiled MapsEvent.lo MapsEvent.hi a b (gapEvents a b) := by
  unfold gapEvents
  split
  · have hend : a + (b - a) = b := Nat.add_sub_cancel' h
    refine tiled_cons.mpr ⟨rfl, ?_, ?_⟩
    · rwa [MapsEvent.hi, hend]
    · rw [MapsEvent.hi, hend, tiled_nil]
  · exact tiled_nil.mpr (by omega)

theorem tiled_lineEvents {a : Nat} (ha : ∀ l ∈ ls, a ≤ l.start.value 16) (hls : Ascending ls) :
    Tiled MapsEvent.lo MapsEvent.hi a (lastEnd a ls) (lineEvents a ls) := by
  induction ls generalizing a with
  | nil => exact tiled_nil.mpr rfl
  | cons l ls ih =>
    obtain ⟨hl, hls⟩ := List.pairwise_cons.mp hls
    have hend : l.start.value 16 + (l.end_.value 16 - l.start.value 16) = l.end_.value 16 := by
      have := l.ordered
      omega
    refine tiled_append.mpr ⟨l.start.value 16, tiled_gapEvents (ha l (by simp)), tiled_cons.mpr ⟨rfl, ?_, ?_⟩⟩
    · simp only [MapsEvent.hi, LineText.mapping, hend]
      exact l.ordered
    · simp only [MapsEvent.hi, LineText.mapping, hend]
      exact ih hl hls

/-- **Mappings and gaps cover the address space**, in order. -/
theorem tiled_mapsEvents (hls : Ascending ls) : Tiled MapsEvent.lo MapsEvent.hi 0 wordMod (mapsEvents ls) := by
  refine tiled_append.mpr ⟨lastEnd 0 ls, tiled_lineEvents (fun _ _ => Nat.zero_le _) hls, tiled_gapEvents ?_⟩
  have hlast := lastEnd_spec ls (fun l _ => ⟨l.aligned.2, l.noWrap⟩)
    (show isPageAligned 0 ∧ 0 < wordMod from ⟨Nat.zero_mod _, wordMod_pos⟩)
  exact hlast.2.le

end Functions

end Valgrind.Aspacemgr
