import Mathlib.Computability.Language
import Valgrind.Demangle.ZDemangle

/-!
# Matching a string against a pattern (`m_libcbase.c`)

`VG_(string_match)` decides which errors are suppressed and which functions are redirected. It
walks along the pattern and the string and calls itself at each place where the string may go on
behind a star. Pointers are offsets into the two strings; reading behind the character that ends a
string is a fault. Loop turns and calls are counted by fuel. The counter of the depth of the
recursion is left out: nothing reads it.

`stringMatch_spec` says that the matcher ends, that it reads no more than the two strings, and
that it decides the language of the pattern.
-/

namespace Valgrind.Coregrind

open Demangle (CString nul)

/-! ## The code -/

/-- `*p` for a pointer into a string, which may point to the character that ends it. -/
def readChar (s : CString) (i : Nat) : Result Char :=
  match s.chars[i]? with
  | some c => .ok c
  | none => if i = s.chars.length then .ok nul else .error .fault

/-- `do { if (string_match_wrk(pat+1,str)) return True; } while (*str++); return False;`, where
`wrk` is the matcher for the rest of the pattern. -/
def starLoop (str : CString) (wrk : Nat → Result Bool) : Nat → Nat → Result Bool
  | 0, _ => .error .diverge
  | fuel + 1, s => do
    if ← wrk s then return true
    if (← readChar str s) = nul then return false
    starLoop str wrk fuel (s + 1)

/-- `if (*pat++ != *str++) return False; break;`, where `wrk` is the rest of the loop. -/
def matchLiteral (pat str : CString) (wrk : Nat → Nat → Result Bool) (p s : Nat) : Result Bool := do
  if (← readChar pat p) ≠ (← readChar str s) then return false
  wrk (p + 1) (s + 1)

/-- `string_match_wrk`, from offset `p` of the pattern and offset `s` of the string. -/
def stringMatchWrk (pat str : CString) : Nat → Nat → Nat → Result Bool
  | 0, _, _ => .error .diverge
  | fuel + 1, p, s => do
    let c ← readChar pat p
    if c = nul then return (← readChar str s) = nul
    if c = '*' then starLoop str (fun s => stringMatchWrk pat str fuel (p + 1) s) fuel s
    else if c = '?' then
      if (← readChar str s) = nul then return false
      stringMatchWrk pat str fuel (p + 1) (s + 1)
    else if c = '\\' then
      if (← readChar pat (p + 1)) = nul then return false
      matchLiteral pat str (fun p s => stringMatchWrk pat str fuel p s) (p + 1) s
    else matchLiteral pat str (fun p s => stringMatchWrk pat str fuel p s) p s

/-- `VG_(string_match)`. -/
def stringMatch (pat str : CString) (fuel : Nat) : Result Bool := stringMatchWrk pat str fuel 0 0

/-! ## What a pattern means -/

/-- What a piece of a pattern stands for. -/
inductive PatItem where
  | star
  | any
  | lit (c : Char)
  deriving DecidableEq, Repr

/-- The pieces of a pattern; `none` if it ends in a lone backslash. -/
def patItems : List Char → Option (List PatItem)
  | [] => some []
  | '*' :: p => (patItems p).map (.star :: ·)
  | '?' :: p => (patItems p).map (.any :: ·)
  | ['\\'] => none
  | '\\' :: c :: p => (patItems p).map (.lit c :: ·)
  | c :: p => (patItems p).map (.lit c :: ·)

/-- The strings that a piece stands for. -/
def PatItem.language : PatItem → Language Char
  | .star => ⊤
  | .any => {t : List Char | ∃ c, t = [c]}
  | .lit c => {t : List Char | t = [c]}

/-- **The language of a pattern**: what its pieces stand for, one after the other. -/
def patLanguage (p : List Char) : Language Char :=
  match patItems p with
  | some items => (items.map PatItem.language).prod
  | none => 0

section Language

variable {p t : List Char} {c : Char} {l : Language Char}

theorem mem_patLanguage_nil : t ∈ patLanguage [] ↔ t = [] := Iff.rfl

/-- A piece in front of a pattern. -/
theorem patLanguage_of_items {item : PatItem} {q : List Char} (h : patItems q = (patItems p).map (item :: ·)) :
    patLanguage q = item.language * patLanguage p := by
  unfold patLanguage
  rw [h]
  cases patItems p with
  | none => exact (mul_zero _).symm
  | some items => exact List.prod_cons

theorem mem_star_mul : t ∈ PatItem.star.language * l ↔ ∃ k, k ≤ t.length ∧ t.drop k ∈ l := by
  rw [Language.mem_mul]
  constructor
  · rintro ⟨a, -, b, hb, rfl⟩
    exact ⟨a.length, by simp, by rwa [List.drop_left]⟩
  · rintro ⟨k, -, hk⟩
    exact ⟨t.take k, trivial, t.drop k, hk, List.take_append_drop k t⟩

theorem mem_any_mul : t ∈ PatItem.any.language * l ↔ ∃ d b, t = d :: b ∧ b ∈ l := by
  rw [Language.mem_mul]
  constructor
  · rintro ⟨_, ⟨d, rfl⟩, b, hb, rfl⟩
    exact ⟨d, b, rfl, hb⟩
  · rintro ⟨d, b, rfl, hb⟩
    exact ⟨[d], ⟨d, rfl⟩, b, hb, rfl⟩

theorem mem_lit_mul : t ∈ (PatItem.lit c).language * l ↔ ∃ b, t = c :: b ∧ b ∈ l := by
  rw [Language.mem_mul]
  constructor
  · rintro ⟨_, rfl, b, hb, rfl⟩
    exact ⟨b, rfl, hb⟩
  · rintro ⟨b, rfl, hb⟩
    exact ⟨[c], rfl, b, hb, rfl⟩

theorem patLanguage_star (p : List Char) : patLanguage ('*' :: p) = PatItem.star.language * patLanguage p :=
  patLanguage_of_items (by rw [patItems])

theorem patLanguage_any (p : List Char) : patLanguage ('?' :: p) = PatItem.any.language * patLanguage p :=
  patLanguage_of_items (by rw [patItems])

theorem patLanguage_escape (c : Char) (p : List Char) :
    patLanguage ('\\' :: c :: p) = (PatItem.lit c).language * patLanguage p :=
  patLanguage_of_items (by rw [patItems])

theorem patLanguage_lone : patLanguage ['\\'] = 0 := rfl

theorem patLanguage_lit (hstar : c ≠ '*') (hany : c ≠ '?') (hesc : c ≠ '\\') :
    patLanguage (c :: p) = (PatItem.lit c).language * patLanguage p := by
  refine patLanguage_of_items ?_
  rw [patItems]
  · exact hstar
  · exact hany
  · rintro rfl
    exact absurd rfl hesc
  · rintro d q rfl
    exact absurd rfl hesc

end Language

/-! ## Reading -/

section Reading

variable {s : CString} {i : Nat}

theorem readChar_of_drop {c : Char} {rest : List Char} (h : s.chars.drop i = c :: rest) :
    readChar s i = .ok c ∧ c ≠ nul ∧ s.chars.drop (i + 1) = rest := by
  have hget : s.chars[i]? = some c := by rw [← List.head?_drop, h, List.head?_cons]
  refine ⟨by rw [readChar, hget], fun hc => s.noNul (hc ▸ List.mem_of_getElem? hget), ?_⟩
  rw [← List.drop_drop, h, List.drop_one, List.tail_cons]

theorem readChar_end (h : s.chars.drop i = []) (hi : i ≤ s.chars.length) : readChar s i = .ok nul := by
  have hlen : i = s.chars.length := Nat.le_antisymm hi (List.drop_eq_nil_iff.mp h)
  have hget : s.chars[i]? = none := List.getElem?_eq_none hlen.ge
  rw [readChar, hget]
  exact if_pos hlen

theorem lt_length_of_drop {c : Char} {rest : List Char} (h : s.chars.drop i = c :: rest) : i < s.chars.length := by
  by_contra hge
  rw [List.drop_eq_nil_of_le (Nat.not_lt.mp hge)] at h
  exact nomatch h

end Reading

/-! ## The matcher -/

section Matcher

variable {pat str : CString} {p s fuel : Nat} {c : Char}

/-- **A star**: the rest of the pattern is tried at every place from here to the end. -/
theorem starLoop_spec {wrk : Nat → Result Bool} {P : Nat → Prop}
    (hwrk : ∀ s, s ≤ str.chars.length → ∃ b, wrk s = .ok b ∧ (b = true ↔ P s)) (hs : s ≤ str.chars.length)
    (hfuel : str.chars.length - s < fuel) :
    ∃ b, starLoop str wrk fuel s = .ok b ∧ (b = true ↔ ∃ k, s ≤ k ∧ k ≤ str.chars.length ∧ P k) := by
  induction fuel generalizing s with
  | zero => exact absurd hfuel (Nat.not_lt_zero _)
  | succ fuel ih =>
    obtain ⟨b, hb, hP⟩ := hwrk s hs
    rw [starLoop, hb]
    cases b with
    | true => exact ⟨true, rfl, iff_of_true rfl ⟨s, Nat.le_refl s, hs, hP.mp rfl⟩⟩
    | false =>
      have hnot : ¬ P s := fun h => nomatch hP.mpr h
      rw [ok_bind]
      cases hdrop : str.chars.drop s with
      | nil =>
        have hlen := List.drop_eq_nil_iff.mp hdrop
        rw [readChar_end hdrop hs]
        refine ⟨false, rfl, iff_of_false Bool.false_ne_true ?_⟩
        rintro ⟨k, hk, hk', hPk⟩
        exact hnot (Nat.le_antisymm (hk'.trans hlen) hk ▸ hPk)
      | cons d rest =>
        have hlt := lt_length_of_drop hdrop
        obtain ⟨hread, hd, -⟩ := readChar_of_drop hdrop
        obtain ⟨b, hrun, hiff⟩ := ih hlt (by omega)
        rw [hread]
        refine ⟨b, by simpa [hd] using hrun, hiff.trans ⟨?_, ?_⟩⟩
        · rintro ⟨k, hk, hk', hPk⟩
          exact ⟨k, Nat.le_of_succ_le hk, hk', hPk⟩
        · rintro ⟨k, hk, hk', hPk⟩
          exact ⟨k, Nat.lt_of_le_of_ne hk fun he => hnot (he ▸ hPk), hk', hPk⟩

/-- **A character that stands for itself.** -/
theorem matchLiteral_spec {wrk : Nat → Nat → Result Bool} {q : List Char} {l : Language Char}
    (hp : pat.chars.drop p = c :: q) (hs : s ≤ str.chars.length)
    (hwrk : s + 1 ≤ str.chars.length → ∃ b, wrk (p + 1) (s + 1) = .ok b ∧ (b = true ↔ str.chars.drop (s + 1) ∈ l)) :
    ∃ b, matchLiteral pat str wrk p s = .ok b ∧ (b = true ↔ str.chars.drop s ∈ (PatItem.lit c).language * l) := by
  obtain ⟨hc, hnul, -⟩ := readChar_of_drop hp
  rw [matchLiteral, hc, ok_bind, mem_lit_mul]
  cases hdrop : str.chars.drop s with
  | nil =>
    rw [readChar_end hdrop hs]
    refine ⟨false, by simp [hnul], iff_of_false Bool.false_ne_true ?_⟩
    rintro ⟨b, hb, -⟩
    exact nomatch hb
  | cons d rest =>
    obtain ⟨hread, -, hrest⟩ := readChar_of_drop hdrop
    rw [hread, ok_bind]
    by_cases heq : c = d
    · subst heq
      obtain ⟨b, hrun, hiff⟩ := hwrk (lt_length_of_drop hdrop)
      refine ⟨b, by simpa using hrun, hiff.trans ?_⟩
      rw [hrest]
      constructor
      · exact fun h => ⟨rest, rfl, h⟩
      · rintro ⟨b, hb, h⟩
        exact (List.cons.inj hb).2 ▸ h
    · refine ⟨false, by simp [heq], iff_of_false Bool.false_ne_true ?_⟩
      rintro ⟨b, hb, -⟩
      exact heq (List.cons.inj hb).1.symm

/-- **The matcher** from any two places. -/
theorem stringMatchWrk_spec (hp : p ≤ pat.chars.length) (hs : s ≤ str.chars.length)
    (hfuel : pat.chars.length - p + str.chars.length < fuel) :
    ∃ b, stringMatchWrk pat str fuel p s = .ok b ∧
      (b = true ↔ str.chars.drop s ∈ patLanguage (pat.chars.drop p)) := by
  induction fuel generalizing p s with
  | zero => exact absurd hfuel (Nat.not_lt_zero _)
  | succ fuel ih =>
    rw [stringMatchWrk]
    cases hpat : pat.chars.drop p with
    | nil =>
      rw [readChar_end hpat hp, ok_bind, if_pos rfl, mem_patLanguage_nil]
      cases hdrop : str.chars.drop s with
      | nil => exact ⟨true, by rw [readChar_end hdrop hs]; rfl, iff_of_true rfl rfl⟩
      | cons d rest =>
        obtain ⟨hread, hd, -⟩ := readChar_of_drop hdrop
        exact ⟨false, by simp [hread, hd, pure, Except.pure], iff_of_false Bool.false_ne_true (List.cons_ne_nil d rest)⟩
    | cons c q =>
      obtain ⟨hread, hc, hq⟩ := readChar_of_drop hpat
      have hlt := lt_length_of_drop hpat
      have hnext : ∀ s', s' ≤ str.chars.length → ∃ b, stringMatchWrk pat str fuel (p + 1) s' = .ok b ∧
          (b = true ↔ str.chars.drop s' ∈ patLanguage q) := fun s' hs' => hq ▸ ih hlt hs' (by omega)
      rw [hread, ok_bind, if_neg hc]
      by_cases hstar : c = '*'
      · subst hstar
        obtain ⟨b, hrun, hiff⟩ := starLoop_spec (P := fun k => str.chars.drop k ∈ patLanguage q) hnext hs
          (by omega : _ < fuel)
        refine ⟨b, by simpa using hrun, hiff.trans ?_⟩
        rw [patLanguage_star, mem_star_mul, List.length_drop]
        constructor
        · rintro ⟨k, hk, hk', hmem⟩
          exact ⟨k - s, by omega, by rwa [List.drop_drop, Nat.add_sub_cancel' hk]⟩
        · rintro ⟨k, hk, hmem⟩
          exact ⟨s + k, Nat.le_add_right s k, by omega, by rwa [List.drop_drop] at hmem⟩
      rw [if_neg hstar]
      by_cases hany : c = '?'
      · subst hany
        rw [if_pos rfl, patLanguage_any, mem_any_mul]
        cases hdrop : str.chars.drop s with
        | nil =>
          rw [readChar_end hdrop hs]
          refine ⟨false, rfl, iff_of_false Bool.false_ne_true ?_⟩
          rintro ⟨d, b, hb, -⟩
          exact nomatch hb
        | cons d rest =>
          obtain ⟨hread', hd, hrest⟩ := readChar_of_drop hdrop
          obtain ⟨b, hrun, hiff⟩ := hnext (s + 1) (lt_length_of_drop hdrop)
          refine ⟨b, by simpa [hread', hd] using hrun, hiff.trans ?_⟩
          rw [hrest]
          constructor
          · exact fun h => ⟨d, rest, rfl, h⟩
          · rintro ⟨_, b, hb, h⟩
            exact (List.cons.inj hb).2 ▸ h
      rw [if_neg hany]
      by_cases hesc : c = '\\'
      · subst hesc
        rw [if_pos rfl]
        cases hq' : q with
        | nil =>
          rw [hq'] at hq
          rw [readChar_end hq hlt, patLanguage_lone]
          exact ⟨false, rfl, iff_of_false Bool.false_ne_true (Language.notMem_zero _)⟩
        | cons c' q' =>
          rw [hq'] at hq
          obtain ⟨hread', hc', hq''⟩ := readChar_of_drop hq
          have hlt' := lt_length_of_drop hq
          obtain ⟨b, hrun, hiff⟩ := matchLiteral_spec hq hs fun hs' => hq'' ▸ ih hlt' hs' (by omega)
          exact ⟨b, by simpa [hread', hc'] using hrun, by rwa [patLanguage_escape]⟩
      rw [if_neg hesc, patLanguage_lit hstar hany hesc]
      exact matchLiteral_spec hpat hs fun hs' => hnext (s + 1) hs'

/-- **Matching a string against a pattern**: the matcher ends, stays inside the two strings, and
accepts the strings of the language of the pattern. -/
theorem stringMatch_spec (pat str : CString) :
    ∃ b, (∀ fuel, pat.chars.length + str.chars.length < fuel → stringMatch pat str fuel = .ok b) ∧
      (b = true ↔ str.chars ∈ patLanguage pat.chars) := by
  have hrun : ∀ fuel, pat.chars.length + str.chars.length < fuel →
      ∃ b, stringMatch pat str fuel = .ok b ∧ (b = true ↔ str.chars ∈ patLanguage pat.chars) := fun fuel hfuel =>
    stringMatchWrk_spec (Nat.zero_le _) (Nat.zero_le _) (by omega)
  obtain ⟨b, -, hiff⟩ := hrun _ (Nat.lt_succ_self _)
  refine ⟨b, fun fuel hfuel => ?_, hiff⟩
  obtain ⟨b', h, hiff'⟩ := hrun fuel hfuel
  rw [h, Bool.eq_iff_iff.mpr (hiff'.trans hiff.symm)]

end Matcher

end Valgrind.Coregrind
