import Mathlib.Data.List.DropRight
import Valgrind.Demangle.ZDemangle

/-!
# Reading lines (`m_errormgr.c`)

`VG_(get_line)` reads the files of suppressions. It takes characters from a static buffer that is
filled again when it has been used up, skips blanks, which may be lines, reads up to the end of the
line, strips it, and starts again if the line is a comment.

When the file ends in the middle of a line, the line is returned as it is: its blanks stay at its
end, and a comment is not skipped.
-/

namespace Valgrind.Coregrind

open Demangle (nul cString)

/-! ## The code -/

/-- `VG_(isspace)`. -/
def isSpace (c : Char) : Bool :=
  c = ' ' || c = '\n' || c = '\t' || c = Char.ofNat 12 || c = Char.ofNat 11 || c = '\r'

/-- The file, as the calls of `VG_(read)` that are still to come will give it (`none` if one fails),
and the static variables of `get_char`. -/
structure CharSource where
  reads : List (Option (List Char))
  buf : List Char
  bufUsed : Nat

/-- `VG_(read)` of 64 bytes: behind the end of the file there is nothing to read. -/
def CharSource.read (src : CharSource) : Option (List Char) × CharSource :=
  match src.reads with
  | [] => (some [], src)
  | r :: reads => (r, { src with reads })

/-- The end of `get_char`: the next character of the buffer. -/
def takeChar (src : CharSource) : Result (Option Char × CharSource) :=
  if src.buf.length = 0 then return (none, src)
  else do
    assertThat (src.buf.length ≤ 64)
    assertThat (src.bufUsed < src.buf.length)
    return (some (src.buf.getD src.bufUsed nul), { src with bufUsed := src.bufUsed + 1 })

/-- `get_char`: no character stands for the result 0 or a negative one. -/
def getChar (src : CharSource) : Result (Option Char × CharSource) := do
  assertThat (src.buf.length ≤ 64)
  assertThat (src.bufUsed ≤ src.buf.length)
  if src.bufUsed = src.buf.length then
    match src.read with
    | (none, src) => return (none, src)
    | (some chunk, src) => do
      assertThat (chunk.length ≤ 64)
      takeChar { src with buf := chunk, bufUsed := 0 }
  else takeChar src

/-- "First, read until a non-blank char appears." -/
def skipBlanks : Nat → CharSource → Result (Option Char × CharSource)
  | 0, _ => throw .diverge
  | fuel + 1, src => do
    match ← getChar src with
    | (none, src) => return (none, src)
    | (some ch, src) => if isSpace ch = false then return (some ch, src) else skipBlanks fuel src

/-- "Now, read the line into buf." What is in `buf` is a list; the flag says that the file has ended. -/
def readLine (nBuf : Nat) : Nat → List Char → CharSource → Result ((List Char × Bool) × CharSource)
  | 0, _, _ => throw .diverge
  | fuel + 1, buf, src => do
    match ← getChar src with
    | (none, src) => return ((buf, true), src)
    | (some ch, src) =>
      if ch = '\n' then return ((buf, false), src)
      else
        let buf := if buf.length > 0 ∧ buf.length = nBuf - 1 then buf.dropLast else buf
        readLine nBuf fuel (buf ++ [ch]) src

/-- `while (i > 1 && VG_(isspace)(buf[i-1])) i--;`. -/
def stripFrom (buf : List Char) : Nat → List Char
  | 0 => []
  | i + 1 => if i + 1 > 1 ∧ isSpace (buf.getD i nul) = true then stripFrom buf i else buf.take (i + 1)

/-- The number of characters that have not been read. -/
def CharSource.left (src : CharSource) : Nat :=
  (src.buf.length - src.bufUsed) + (src.reads.map fun r => (r.getD []).length).sum + src.reads.length

/-- The outer loop of `VG_(get_line)`. -/
def getLineLoop (nBuf : Nat) : Nat → CharSource → Result (Option (List Char) × CharSource)
  | 0, _ => throw .diverge
  | fuel + 1, src => do
    match ← skipBlanks (src.left + 1) src with
    | (none, src) => return (none, src)
    | (some ch, src) => do
      let ((buf, eof), src) ← readLine nBuf (src.left + 1) [ch] src
      if eof then return (some buf, src)
      else
        let buf := stripFrom buf buf.length
        if buf.head? ≠ some '#' then return (some buf, src) else getLineLoop nBuf fuel src

/-- `VG_(get_line)`: the string in the buffer of the caller, or none if the end of the file was hit. -/
def getLine (nBuf : Nat) (src : CharSource) : Result (Option (List Char) × CharSource) := do
  let (line, src) ← getLineLoop nBuf (src.left + 1) src
  return (line.map cString, src)

/-- The lines that successive calls return before the first one that hits the end of the file. -/
def getLines (nBuf : Nat) : Nat → CharSource → Result (List (List Char))
  | 0, _ => throw .diverge
  | fuel + 1, src => do
    match ← getLine nBuf src with
    | (none, _) => return []
    | (some line, src) => do
      let lines ← getLines nBuf fuel src
      return line :: lines

/-- A file that has just been opened. -/
def openedFile (chunks : List (List Char)) : CharSource := ⟨chunks.map some, [], 0⟩

/-! ## Lines of a text -/

/-- White space is stripped from the front. -/
def lstrip (l : List Char) : List Char := l.dropWhile isSpace

/-- White space is stripped from both ends. -/
def strip (l : List Char) : List Char := (lstrip l).rdropWhile isSpace

/-- The line is neither blank nor a comment, once it is stripped. -/
def Wanted (l : List Char) : Prop := l ≠ [] ∧ l.head? ≠ some '#'

instance (l : List Char) : Decidable (Wanted l) := inferInstanceAs (Decidable (_ ∧ _))

/-- The lines of a text. -/
def textLines (s : List Char) : List (List Char) := s.splitOn '\n'

theorem textLines_ne_nil (s : List Char) : textLines s ≠ [] := List.splitOn_ne_nil '\n' s

/-- What is to be read from a file: its lines that are neither blank nor comments. -/
def wantedLines (s : List Char) : List (List Char) := ((textLines s).map strip).filter fun l => Wanted l

/-- What stands behind the last newline. -/
def lastLine (s : List Char) : List Char := (textLines s).getLast (textLines_ne_nil s)

/-- What the code reads: the last line is stripped at its front only, and it may be a comment. -/
def codeLines (s : List Char) : List (List Char) :=
  (((textLines s).dropLast.map strip).filter fun l => Wanted l) ++ [lstrip (lastLine s)].filter (· ≠ [])

section

variable {src : CharSource} {s t l r buf : List Char} {c : Char} {nBuf fuel i : Nat} {chunks : List (List Char)}

/-! ## The lines that the code reads -/

theorem lstrip_cons_space (hc : isSpace c = true) : lstrip (c :: l) = lstrip l := List.dropWhile_cons_of_pos hc

theorem strip_cons_space (hc : isSpace c = true) : strip (c :: l) = strip l := by
  rw [strip, lstrip_cons_space hc, strip]

theorem lstrip_of_not_space (hc : isSpace c = false) : lstrip (c :: l) = c :: l :=
  List.dropWhile_cons_of_neg (by rw [hc]; exact Bool.false_ne_true)

theorem codeLines_single (hl : '\n' ∉ l) : codeLines l = [lstrip l].filter (· ≠ []) := by
  have hlines : textLines l = [l] := List.splitOn_eq_singleton hl
  simp only [codeLines, lastLine, hlines]
  rfl

theorem filter_wanted (h : Wanted l) : [l].filter (fun l => Wanted l) = [l] := List.filter_cons_of_pos (decide_eq_true h)

theorem filter_not_wanted (h : ¬ Wanted l) : [l].filter (fun l => Wanted l) = [] :=
  List.filter_cons_of_neg fun hw => h (of_decide_eq_true hw)

/-- One more line in front. -/
theorem codeLines_append (hl : '\n' ∉ l) (s : List Char) :
    codeLines (l ++ '\n' :: s) = [strip l].filter (fun l => Wanted l) ++ codeLines s := by
  have hlines : textLines (l ++ '\n' :: s) = l :: textLines s := List.splitOn_append_cons_self_of_not_mem hl s
  have hne := textLines_ne_nil s
  simp only [codeLines, lastLine, hlines]
  rw [List.dropLast_cons_of_ne_nil hne, List.getLast_cons hne, List.map_cons, ← List.append_assoc, ← List.filter_append]
  rfl

theorem codeLines_space (hc : isSpace c = true) (s : List Char) : codeLines (c :: s) = codeLines s := by
  by_cases hn : c = '\n'
  · subst hn
    exact codeLines_append (l := []) (List.not_mem_nil) s
  · by_cases hs : '\n' ∈ s
    · obtain ⟨l, r, rfl, hl⟩ := List.eq_append_cons_of_mem hs
      rw [← List.cons_append, codeLines_append hl, codeLines_append (List.not_mem_cons_of_ne_of_not_mem (Ne.symm hn) hl),
        strip_cons_space hc]
    · rw [codeLines_single hs, codeLines_single (List.not_mem_cons_of_ne_of_not_mem (Ne.symm hn) hs), lstrip_cons_space hc]

theorem codeLines_lstrip (s : List Char) : codeLines (lstrip s) = codeLines s := by
  induction s with
  | nil => rfl
  | cons c s ih =>
    cases hc : isSpace c with
    | true => rw [lstrip_cons_space hc, ih, codeLines_space hc]
    | false => rw [lstrip_of_not_space hc]

/-- The lines of the text fit into a buffer of this size when their leading blanks are gone. -/
def Short (nBuf : Nat) (s : List Char) : Prop := ∀ l ∈ textLines s, (lstrip l).length < nBuf - 1

instance : Decidable (Short nBuf s) := inferInstanceAs (Decidable (∀ l ∈ textLines s, _))

theorem short_append (hl : '\n' ∉ l) : Short nBuf (l ++ '\n' :: s) ↔ (lstrip l).length < nBuf - 1 ∧ Short nBuf s := by
  rw [Short, textLines, List.splitOn_append_cons_self_of_not_mem hl, List.forall_mem_cons]
  rfl

theorem short_single (hl : '\n' ∉ l) : Short nBuf l ↔ (lstrip l).length < nBuf - 1 := by
  rw [Short, textLines, List.splitOn_eq_singleton hl, List.forall_mem_singleton]

theorem Short.of_space (hc : isSpace c = true) (h : Short nBuf (c :: s)) : Short nBuf s := by
  by_cases hn : c = '\n'
  · subst hn
    exact ((short_append (l := []) List.not_mem_nil).mp h).2
  · by_cases hs : '\n' ∈ s
    · obtain ⟨l, r, rfl, hl⟩ := List.eq_append_cons_of_mem hs
      rw [← List.cons_append, short_append (List.not_mem_cons_of_ne_of_not_mem (Ne.symm hn) hl), lstrip_cons_space hc] at h
      exact (short_append hl).mpr h
    · rw [short_single (List.not_mem_cons_of_ne_of_not_mem (Ne.symm hn) hs), lstrip_cons_space hc] at h
      exact (short_single hs).mpr h

theorem Short.lstrip (h : Short nBuf s) : Short nBuf (lstrip s) := by
  induction s with
  | nil => exact h
  | cons c s ih =>
    cases hc : isSpace c with
    | true =>
      rw [lstrip_cons_space hc]
      exact ih (h.of_space hc)
    | false => rwa [lstrip_of_not_space hc]

/-! ## Characters -/

/-- The characters that are still to come from the source. -/
structure CharSource.Gives (src : CharSource) (s : List Char) : Prop where
  bufLe : src.buf.length ≤ 64
  usedLe : src.bufUsed ≤ src.buf.length
  reads : ∃ chunks : List (List Char), src.reads = chunks.map some ∧ (∀ c ∈ chunks, c ≠ [] ∧ c.length ≤ 64) ∧
    s = src.buf.drop src.bufUsed ++ chunks.flatten

theorem CharSource.Gives.left_ge (h : src.Gives s) : s.length ≤ src.left := by
  obtain ⟨chunks, hreads, -, rfl⟩ := h.reads
  have hsum : (src.reads.map fun r => (r.getD []).length).sum = chunks.flatten.length := by
    rw [hreads, List.map_map, List.length_flatten]
    rfl
  rw [CharSource.left, hsum, List.length_append, List.length_drop]
  omega

theorem openedFile_gives (hchunks : ∀ c ∈ chunks, c ≠ [] ∧ c.length ≤ 64) : (openedFile chunks).Gives chunks.flatten :=
  ⟨Nat.zero_le _, Nat.le_refl _, chunks, rfl, hchunks, rfl⟩

/-- A character of the buffer. -/
theorem takeChar_cons (hbuf : src.buf.length ≤ 64) (hdrop : src.buf.drop src.bufUsed = c :: t) :
    takeChar src = .ok (some c, { src with bufUsed := src.bufUsed + 1 }) ∧ src.bufUsed < src.buf.length ∧
      src.buf.drop (src.bufUsed + 1) = t := by
  have hlt : src.bufUsed < src.buf.length := by
    by_contra hge
    rw [List.drop_eq_nil_of_le (Nat.not_lt.mp hge)] at hdrop
    exact nomatch hdrop
  rw [List.drop_eq_getElem_cons hlt] at hdrop
  obtain ⟨hc, ht⟩ := List.cons.inj hdrop
  refine ⟨?_, hlt, ht⟩
  rw [takeChar, if_neg (by omega), assertThat_of hbuf, ok_bind, assertThat_of hlt, ok_bind,
    List.getD_eq_getElem?_getD, List.getElem?_eq_getElem hlt, Option.getD_some, hc]
  rfl

/-- At the end of the file there is no character, now or later. -/
theorem getChar_nil (h : src.Gives []) : ∃ src', getChar src = .ok (none, src') ∧ src'.Gives [] := by
  obtain ⟨chunks, hreads, hchunks, hs⟩ := h.reads
  obtain ⟨hdrop, hflat⟩ := List.append_eq_nil_iff.mp hs.symm
  have hnil : chunks = [] := by
    cases chunks with
    | nil => rfl
    | cons d ds => exact absurd (List.append_eq_nil_iff.mp hflat).1 (hchunks d List.mem_cons_self).1
  have hused : src.bufUsed = src.buf.length := Nat.le_antisymm h.usedLe (List.drop_eq_nil_iff.mp hdrop)
  have hread : src.read = (some [], src) := by rw [CharSource.read, hreads, hnil]; rfl
  refine ⟨{ src with buf := [], bufUsed := 0 }, ?_, Nat.zero_le _, Nat.le_refl _, [], by rw [← hnil]; exact hreads, ?_, rfl⟩
  · rw [getChar, assertThat_of h.bufLe, ok_bind, assertThat_of h.usedLe, ok_bind, if_pos hused, hread]
    rfl
  · exact fun c hc => absurd hc List.not_mem_nil

/-- **`get_char`.** -/
theorem getChar_cons (h : src.Gives (c :: s)) : ∃ src', getChar src = .ok (some c, src') ∧ src'.Gives s := by
  obtain ⟨chunks, hreads, hchunks, hs⟩ := h.reads
  rw [getChar, assertThat_of h.bufLe, ok_bind, assertThat_of h.usedLe, ok_bind]
  cases hdrop : src.buf.drop src.bufUsed with
  | cons d t =>
    obtain ⟨htake, hlt, ht⟩ := takeChar_cons h.bufLe hdrop
    rw [hdrop, List.cons_append] at hs
    obtain ⟨rfl, rfl⟩ := List.cons.inj hs
    rw [if_neg hlt.ne, htake]
    exact ⟨_, rfl, h.bufLe, hlt, chunks, hreads, hchunks, by rw [ht]⟩
  | nil =>
    have hused : src.bufUsed = src.buf.length := Nat.le_antisymm h.usedLe (List.drop_eq_nil_iff.mp hdrop)
    rw [hdrop, List.nil_append] at hs
    cases chunks with
    | nil => exact nomatch hs
    | cons d ds =>
      obtain ⟨⟨hne, hlen⟩, hds⟩ := List.forall_mem_cons.mp hchunks
      obtain ⟨x, t, rfl⟩ := List.exists_cons_of_ne_nil hne
      have hread : src.read = (some (x :: t), { src with reads := ds.map some }) := by rw [CharSource.read, hreads]; rfl
      rw [List.flatten_cons, List.cons_append] at hs
      obtain ⟨rfl, rfl⟩ := List.cons.inj hs
      obtain ⟨htake, hlt, ht⟩ := @takeChar_cons ⟨ds.map some, c :: t, 0⟩ t c hlen rfl
      rw [if_pos hused, hread]
      simp only [assertThat_of hlen, ok_bind]
      rw [htake]
      exact ⟨_, rfl, hlen, hlt, ds, rfl, hds, by rw [ht]⟩

/-! ## The loops -/

/-- The blanks in front are skipped, newlines among them. -/
theorem skipBlanks_spec (h : src.Gives s) (hfuel : s.length < fuel) :
    (lstrip s = [] ∧ ∃ src', skipBlanks fuel src = .ok (none, src') ∧ src'.Gives []) ∨
      ∃ c t src', lstrip s = c :: t ∧ isSpace c = false ∧ skipBlanks fuel src = .ok (some c, src') ∧ src'.Gives t := by
  induction fuel generalizing src s with
  | zero => exact absurd hfuel (Nat.not_lt_zero _)
  | succ fuel ih =>
    cases s with
    | nil =>
      obtain ⟨src', hget, hgives⟩ := getChar_nil h
      rw [skipBlanks, hget]
      exact .inl ⟨rfl, src', rfl, hgives⟩
    | cons c s =>
      obtain ⟨src', hget, hgives⟩ := getChar_cons h
      rw [skipBlanks, hget, ok_bind]
      cases hc : isSpace c with
      | true =>
        rw [lstrip_cons_space hc]
        simpa [hc] using ih hgives (Nat.lt_of_succ_lt_succ hfuel)
      | false =>
        refine .inr ⟨c, s, src', lstrip_of_not_space hc, hc, ?_, hgives⟩
        simp only [hc, if_true]
        rfl

/-- **A line** is read up to its newline, or up to the end of the file. -/
theorem readLine_spec (hl : '\n' ∉ l) (hn : buf.length + l.length ≤ nBuf - 1) (hfuel : l.length < fuel) :
    (src.Gives l → ∃ src', readLine nBuf fuel buf src = .ok ((buf ++ l, true), src') ∧ src'.Gives []) ∧
      (src.Gives (l ++ '\n' :: s) → ∃ src', readLine nBuf fuel buf src = .ok ((buf ++ l, false), src') ∧ src'.Gives s) := by
  induction fuel generalizing src l buf with
  | zero => exact absurd hfuel (Nat.not_lt_zero _)
  | succ fuel ih =>
    cases l with
    | nil =>
      rw [readLine, List.append_nil]
      refine ⟨fun h => ?_, fun h => ?_⟩
      · obtain ⟨src', hget, hgives⟩ := getChar_nil h
        exact ⟨src', by rw [hget]; rfl, hgives⟩
      · obtain ⟨src', hget, hgives⟩ := getChar_cons h
        exact ⟨src', by rw [hget]; rfl, hgives⟩
    | cons c l =>
      have hc : c ≠ '\n' := fun he => hl (he ▸ List.mem_cons_self)
      rw [List.length_cons] at hn hfuel
      have hroom : ¬ (buf.length > 0 ∧ buf.length = nBuf - 1) := fun h => by omega
      have hlen : (buf ++ [c]).length + l.length ≤ nBuf - 1 := by
        rw [List.length_append, List.length_singleton]
        omega
      have hstep : ∀ src', getChar src = .ok (some c, src') →
          readLine nBuf (fuel + 1) buf src = readLine nBuf fuel (buf ++ [c]) src' := by
        intro src' hget
        rw [readLine, hget, ok_bind]
        simp only [if_neg hc, if_neg hroom]
      rw [List.append_cons]
      refine ⟨fun h => ?_, fun h => ?_⟩
      · obtain ⟨src', hget, hgives⟩ := getChar_cons h
        rw [hstep src' hget]
        exact (ih (fun hin => hl (List.mem_cons_of_mem c hin)) hlen (by omega)).1 hgives
      · obtain ⟨src', hget, hgives⟩ := getChar_cons h
        rw [hstep src' hget]
        exact (ih (fun hin => hl (List.mem_cons_of_mem c hin)) hlen (by omega)).2 hgives

/-- The blanks at the end of the buffer are stripped, up to its first character. -/
theorem stripFrom_spec (hc : isSpace c = false) (hi : i < (c :: l).length) :
    stripFrom (c :: l) (i + 1) = ((c :: l).take (i + 1)).rdropWhile isSpace := by
  induction i with
  | zero => simp [stripFrom, hc, List.rdropWhile]
  | succ i ih =>
    have hget : (c :: l).getD (i + 1) nul = (c :: l)[i + 1] := by
      rw [List.getD_eq_getElem?_getD, List.getElem?_eq_getElem hi, Option.getD_some]
    have htake : (c :: l).take (i + 2) = (c :: l).take (i + 1) ++ [(c :: l)[i + 1]] :=
      (List.take_append_getElem hi).symm
    rw [stripFrom, hget, htake, List.rdropWhile_concat]
    by_cases hs : isSpace (c :: l)[i + 1] = true
    · rw [if_pos ⟨by omega, hs⟩, if_pos hs]
      exact ih (Nat.lt_of_succ_lt hi)
    · rw [if_neg fun h => hs h.2, if_neg hs]

theorem stripFrom_eq (hc : isSpace c = false) : stripFrom (c :: l) (c :: l).length = strip (c :: l) := by
  rw [List.length_cons, stripFrom_spec hc (by simp), strip, lstrip_of_not_space hc, ← List.length_cons, List.take_length]

/-- What a call makes of the text `s`: a line and the rest, or the end of the file. -/
def LineOut (nBuf : Nat) (s : List Char) (line : Option (List Char)) (rest : List Char) : Prop :=
  (line = none ∧ codeLines s = [] ∧ rest = []) ∨
    ∃ l, line = some l ∧ codeLines s = l :: codeLines rest ∧ rest.length < s.length ∧ Short nBuf rest

/-- **`VG_(get_line)`** returns the next line. -/
theorem getLineLoop_spec (h : src.Gives s) (hshort : Short nBuf s) (hfuel : s.length < fuel) :
    ∃ line rest src', getLineLoop nBuf fuel src = .ok (line, src') ∧ src'.Gives rest ∧ LineOut nBuf s line rest := by
  induction fuel generalizing src s with
  | zero => exact absurd hfuel (Nat.not_lt_zero _)
  | succ fuel ih =>
    have hlstrip := codeLines_lstrip s
    have hdrop : (lstrip s).length ≤ s.length := (List.dropWhile_suffix isSpace).length_le
    have hshort' := hshort.lstrip
    rcases skipBlanks_spec h (Nat.lt_succ_of_le h.left_ge) with
      ⟨hnil, src', hskip, hgives⟩ | ⟨c, t, src', hcons, hc, hskip, hgives⟩
    · refine ⟨none, [], src', ?_, hgives, .inl ⟨rfl, ?_, rfl⟩⟩
      · rw [getLineLoop, hskip]
        rfl
      · rw [← hlstrip, hnil]
        rfl
    · have hn : c ≠ '\n' := by
        rintro rfl
        exact nomatch hc
      rw [hcons] at hlstrip hdrop hshort'
      rw [List.length_cons] at hdrop
      have hleft := Nat.lt_succ_of_le hgives.left_ge
      by_cases ht : '\n' ∈ t
      · obtain ⟨l, r, rfl, hl⟩ := List.eq_append_cons_of_mem ht
        have hcl : '\n' ∉ c :: l := List.not_mem_cons_of_ne_of_not_mem (Ne.symm hn) hl
        obtain ⟨hfits, hshortr⟩ := (short_append hcl).mp hshort'
        rw [lstrip_of_not_space hc, List.length_cons] at hfits
        rw [List.length_append, List.length_cons] at hdrop hleft
        rw [← List.cons_append, codeLines_append hcl] at hlstrip
        obtain ⟨src'', hline, hgives'⟩ := (@readLine_spec src' r l [c] nBuf (src'.left + 1) hl
          (by rw [List.length_singleton]; omega) (by omega)).2 hgives
        have hrun : getLineLoop nBuf (fuel + 1) src =
            if (strip (c :: l)).head? ≠ some '#' then .ok (some (strip (c :: l)), src'')
            else getLineLoop nBuf fuel src'' := by
          rw [getLineLoop, hskip, ok_bind]
          simp only [hline, ok_bind, List.singleton_append, stripFrom_eq hc]
          rfl
        have hne : strip (c :: l) ≠ [] := by
          rw [strip, lstrip_of_not_space hc, ne_eq, List.rdropWhile_eq_nil_iff]
          exact fun hall => nomatch hc.symm.trans (hall c List.mem_cons_self)
        rw [hrun]
        by_cases hhead : (strip (c :: l)).head? ≠ some '#'
        · rw [if_pos hhead]
          refine ⟨_, r, src'', rfl, hgives', .inr ⟨_, rfl, ?_, by omega, hshortr⟩⟩
          rw [← hlstrip, filter_wanted ⟨hne, hhead⟩]
          rfl
        · rw [if_neg hhead]
          obtain ⟨line, rest, src₃, hloop, hgives₃, hout⟩ := ih hgives' hshortr (by omega)
          refine ⟨line, rest, src₃, hloop, hgives₃, ?_⟩
          rw [filter_not_wanted fun hw => hhead hw.2, List.nil_append] at hlstrip
          rw [LineOut, ← hlstrip]
          refine hout.imp_right fun ⟨l', hl', hcode, hlen, hrest⟩ => ⟨l', hl', hcode, by omega, hrest⟩
      · have hct : '\n' ∉ c :: t := List.not_mem_cons_of_ne_of_not_mem (Ne.symm hn) ht
        have hfits := (short_single hct).mp hshort'
        rw [lstrip_of_not_space hc, List.length_cons] at hfits
        obtain ⟨src'', hline, hgives'⟩ := (@readLine_spec src' [] t [c] nBuf (src'.left + 1) ht
          (by rw [List.length_singleton]; omega) hleft).1 hgives
        refine ⟨some (c :: t), [], src'', ?_, hgives', .inr ⟨c :: t, rfl, ?_, Nat.lt_of_lt_of_le (Nat.succ_pos _) hdrop, ?_⟩⟩
        · rw [getLineLoop, hskip, ok_bind]
          simp only [hline, ok_bind]
          rfl
        · rw [← hlstrip, codeLines_single hct, lstrip_of_not_space hc]
          rfl
        · intro l hl
          obtain rfl : l = [] := List.mem_singleton.mp hl
          exact Nat.lt_of_le_of_lt (Nat.zero_le _) hfits

/-- **All lines** of a file. -/
theorem getLines_spec (h : src.Gives s) (hshort : Short nBuf s) (hfuel : s.length < fuel) :
    getLines nBuf fuel src = .ok ((codeLines s).map cString) := by
  induction fuel generalizing src s with
  | zero => exact absurd hfuel (Nat.not_lt_zero _)
  | succ fuel ih =>
    obtain ⟨line, rest, src', hloop, hgives, hout⟩ := getLineLoop_spec h hshort (Nat.lt_succ_of_le h.left_ge)
    rw [getLines, getLine, hloop]
    rcases hout with ⟨rfl, hcode, -⟩ | ⟨l, rfl, hcode, hlen, hrest⟩
    · rw [hcode]
      rfl
    · have hnext := ih hgives hrest (by omega)
      rw [hcode, List.map_cons]
      simp only [ok_bind, pure_bind, Option.map_some, hnext]
      rfl

/-! ## Which files are read as they should be -/

theorem cString_eq_self_iff : cString l = l ↔ nul ∉ l := by
  rw [cString, List.takeWhile_eq_self_iff]
  simp only [decide_eq_true_eq]
  exact ⟨fun h hin => h nul hin rfl, fun h c hc he => h (he ▸ hc)⟩

theorem map_cString_eq_self_iff {ls : List (List Char)} : ls.map cString = ls ↔ ∀ l ∈ ls, nul ∉ l := by
  have hmap := @List.map_inj_left _ _ ls cString id
  rw [List.map_id] at hmap
  exact hmap.trans (forall₂_congr fun l _ => cString_eq_self_iff)

/-- A string that ends at a NUL is not one whose blanks at the end are gone. -/
theorem cString_eq_rdropWhile_iff : cString l = l.rdropWhile isSpace ↔ l.rdropWhile isSpace = l ∧ nul ∉ l := by
  constructor
  · intro heq
    have hnul : nul ∉ l := by
      intro hin
      rw [← @List.rdropWhile_append_rtakeWhile _ isSpace l, List.mem_append] at hin
      rcases hin with hin | hin
      · rw [← heq, cString] at hin
        have hne := List.mem_takeWhile_imp (p := fun c : Char => c ≠ nul) hin
        exact of_decide_eq_true hne rfl
      · cases List.mem_rtakeWhile_imp hin
    exact ⟨heq.symm.trans (cString_eq_self_iff.mpr hnul), hnul⟩
  · rintro ⟨heq, hnul⟩
    rw [heq, cString_eq_self_iff.mpr hnul]

/-- The last line, which is not ended by a newline, would be returned the same if it were: it is
blank, or it is no comment and has no blanks at its end. -/
def EndsWell (s : List Char) : Prop :=
  lstrip (lastLine s) ≠ [] → (lstrip (lastLine s)).head? ≠ some '#' ∧ strip (lastLine s) = lstrip (lastLine s)

instance : Decidable (EndsWell s) := inferInstanceAs (Decidable (_ ≠ [] → _ ∧ _))

/-- The lines in front of the last one. -/
theorem wantedLines_eq (s : List Char) : wantedLines s =
    (((textLines s).dropLast.map strip).filter fun l => Wanted l) ++ [strip (lastLine s)].filter fun l => Wanted l := by
  rw [wantedLines, ← List.filter_append, ← List.map_singleton, ← List.map_append, lastLine, List.dropLast_append_getLast]

/-- The last line, as the code returns it and as it should be. -/
theorem lastLine_iff (l : List Char) : ([lstrip l].filter (· ≠ [])).map cString = [strip l].filter (fun l => Wanted l) ↔
    (lstrip l ≠ [] → ((lstrip l).head? ≠ some '#' ∧ strip l = lstrip l) ∧ nul ∉ lstrip l) := by
  cases hl : lstrip l with
  | nil => simp [strip, hl, Wanted]
  | cons c t =>
    have hc : isSpace c = false := by
      have hhead := List.head?_dropWhile_not isSpace l
      rw [← lstrip, hl] at hhead
      exact hhead
    have hstrip : strip l = (c :: t).rdropWhile isSpace := by rw [strip, hl]
    obtain ⟨t', ht'⟩ : ∃ t', strip l = c :: t' := by
      cases hs : strip l with
      | nil =>
        rw [hstrip, List.rdropWhile_eq_nil_iff] at hs
        exact nomatch hc.symm.trans (hs c List.mem_cons_self)
      | cons d t' =>
        have hpre : d :: t' <+: c :: t := by
          rw [← hs, hstrip]
          exact List.rdropWhile_prefix isSpace (c :: t)
        exact ⟨t', by rw [(List.cons_prefix_cons.mp hpre).1]⟩
    have hcode : (([c :: t].filter (· ≠ [])).map cString : List (List Char)) = [cString (c :: t)] := rfl
    rw [hcode]
    by_cases hhash : c = '#'
    · subst hhash
      rw [filter_not_wanted fun hw => hw.2 (by rw [ht']; rfl)]
      exact iff_of_false (List.cons_ne_nil _ _) fun h => (h (List.cons_ne_nil _ _)).1.1 rfl
    · have hw : Wanted (strip l) := by
        rw [ht']
        exact ⟨List.cons_ne_nil _ _, fun he => hhash (Option.some.inj he)⟩
      rw [filter_wanted hw, List.singleton_inj, hstrip, cString_eq_rdropWhile_iff]
      exact ⟨fun h _ => ⟨⟨fun he => hhash (Option.some.inj he), h.1⟩, h.2⟩,
        fun h => ⟨(h (List.cons_ne_nil _ _)).1.2, (h (List.cons_ne_nil _ _)).2⟩⟩

/-- **Successive calls** return the lines of the file that are neither blank nor comments, if these
lines have no NUL in them and the file does not end in a comment or in a line with blanks at its
end, without a newline. -/
theorem getLines_iff (hchunks : ∀ c ∈ chunks, c ≠ [] ∧ c.length ≤ 64) (hshort : Short nBuf chunks.flatten) :
    getLines nBuf (chunks.flatten.length + 1) (openedFile chunks) = .ok (wantedLines chunks.flatten) ↔
      (∀ l ∈ wantedLines chunks.flatten, nul ∉ l) ∧ EndsWell chunks.flatten := by
  rw [getLines_spec (openedFile_gives hchunks) hshort (Nat.lt_succ_self _), Except.ok.injEq, codeLines, wantedLines_eq,
    List.map_append]
  generalize ((textLines chunks.flatten).dropLast.map strip).filter (fun l => Wanted l) = front
  have hparts : ∀ b b' : List (List Char), front.map cString ++ b = front ++ b' ↔ front.map cString = front ∧ b = b' :=
    fun b b' => ⟨fun h => List.append_inj h (List.length_map cString), fun ⟨h, h'⟩ => by rw [h, h']⟩
  have hlast : EndsWell chunks.flatten →
      ((∀ l ∈ [strip (lastLine chunks.flatten)].filter (fun l => Wanted l), nul ∉ l) ↔
        (lstrip (lastLine chunks.flatten) ≠ [] → nul ∉ lstrip (lastLine chunks.flatten))) := by
    intro hwell
    by_cases hblank : lstrip (lastLine chunks.flatten) = []
    · simp [strip, hblank, Wanted]
    · obtain ⟨hhash, heq⟩ := hwell hblank
      rw [filter_wanted (by rw [heq]; exact ⟨hblank, hhash⟩), List.forall_mem_singleton, heq]
      exact ⟨fun h _ => h, fun h => h hblank⟩
  rw [hparts, map_cString_eq_self_iff, lastLine_iff, List.forall_mem_append]
  constructor
  · rintro ⟨hfront, hend⟩
    have hwell : EndsWell chunks.flatten := fun hne => (hend hne).1
    exact ⟨⟨hfront, (hlast hwell).mpr fun hne => (hend hne).2⟩, hwell⟩
  · rintro ⟨⟨hfront, hback⟩, hwell⟩
    exact ⟨hfront, fun hne => ⟨hwell hne, (hlast hwell).mp hback hne⟩⟩

/-- A file that is read in two pieces, the second of them behind a newline in the middle of a line. -/
theorem getLines_iff_sample : getLines 200 (["\x7b\n  in".toList, "fo \n# no\n\x7d\n".toList].flatten.length + 1)
      (openedFile ["\x7b\n  in".toList, "fo \n# no\n\x7d\n".toList]) =
    .ok (wantedLines ["\x7b\n  in".toList, "fo \n# no\n\x7d\n".toList].flatten) :=
  (getLines_iff (by decide) (by decide)).mpr ⟨by decide, by decide⟩

/-- A file that ends in a comment. -/
theorem getLines_comment_last : ¬ getLines 200 5 (openedFile ["\x7d\n#a".toList]) = .ok (wantedLines "\x7d\n#a".toList) := by
  decide

end

end Valgrind.Coregrind
