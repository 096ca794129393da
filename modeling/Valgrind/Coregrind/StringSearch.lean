import Mathlib.Data.Char
import Valgrind.Coregrind.StringMatch

/-!
# Searching in strings (`m_libcbase.c`, `m_errormgr.c`)

`VG_(strchr)`, `VG_(strrchr)` and `VG_(strstr)`, and `tool_name_present`, which looks for a name
in a list of names with commas between them. Pointers are offsets into the strings, and lengths
are numbers without a bound.

`VG_(strrchr)` does not look at the first character, and `VG_(strstr)` does not find the empty
string in the empty string. `tool_name_present` looks at the first place only where the name
occurs.
-/

namespace Valgrind.Coregrind

open Demangle (CString nul)

/-! ## The code -/

/-- The loop of `VG_(strlen)`. -/
def strlenLoop (str : CString) : Nat → Nat → Result Nat
  | 0, _ => .error .diverge
  | fuel + 1, i => do
    if (← readChar str i) ≠ nul then strlenLoop str fuel (i + 1) else return i

/-- `VG_(strlen)`. -/
def strlen (str : CString) : Result Nat := strlenLoop str (str.chars.length + 1) 0

/-- The loop of `VG_(strncmp)`. -/
def strncmpLoop (s1 s2 : CString) (nmax : Nat) : Nat → Nat → Nat → Nat → Result Int
  | 0, _, _, _ => .error .diverge
  | fuel + 1, p1, p2, n =>
    if n ≥ nmax then return 0
    else do
      let c1 ← readChar s1 p1
      let c2 ← readChar s2 p2
      if c1 = nul ∧ c2 = nul then return 0
      else if c1 = nul then return -1
      else if c2 = nul then return 1
      else if c1 < c2 then return -1
      else if c1 > c2 then return 1
      else strncmpLoop s1 s2 nmax fuel (p1 + 1) (p2 + 1) (n + 1)

/-- `VG_(strncmp)`, from offset `p1` of the first string. -/
def strncmp (s1 : CString) (p1 : Nat) (s2 : CString) (nmax : Nat) : Result Int :=
  strncmpLoop s1 s2 nmax (s2.chars.length + 1) p1 0 0

/-- The loop of `VG_(strstr)`. -/
def strstrLoop (haystack needle : CString) (n : Nat) : Nat → Nat → Result (Option Nat)
  | 0, _ => .error .diverge
  | fuel + 1, p => do
    if (← readChar haystack p) = nul then return none
    else if (← strncmp haystack p needle n) = 0 then return some p
    else strstrLoop haystack needle n fuel (p + 1)

/-- `VG_(strstr)`. -/
def strstr (haystack : Option CString) (needle : CString) : Result (Option Nat) :=
  match haystack with
  | none => return none
  | some haystack => do
    let n ← strlen needle
    strstrLoop haystack needle n (haystack.chars.length + 1) 0

/-- The loop of `VG_(strchr)`. -/
def strchrLoop (s : CString) (c : Char) : Nat → Nat → Result (Option Nat)
  | 0, _ => .error .diverge
  | fuel + 1, p => do
    let d ← readChar s p
    if d = c then return some p
    else if d = nul then return none
    else strchrLoop s c fuel (p + 1)

/-- `VG_(strchr)`. -/
def strchr (s : CString) (c : Char) : Result (Option Nat) := strchrLoop s c (s.chars.length + 1) 0

/-- `while (--n > 0)` in `VG_(strrchr)`. -/
def strrchrLoop (s : CString) (c : Char) : Nat → Result (Option Nat)
  | 0 => return none
  | n + 1 =>
    if n > 0 then do
      if (← readChar s n) = c then return some n
      else strrchrLoop s c n
    else return none

/-- `VG_(strrchr)`. -/
def strrchr (s : CString) (c : Char) : Result (Option Nat) := do
  let n ← strlen s
  strrchrLoop s c n

/-- `tool_name_present`. -/
def toolNamePresent (name names : CString) : Result Bool := do
  let len ← strlen name
  match ← strstr (some names) name with
  | none => return false
  | some s =>
    let before ← (if s = 0 then return true else return (← readChar names (s - 1)) = ',')
    if before = true then do
      let c ← readChar names (s + len)
      return c = ',' || c = nul
    else return false

/-! ## Places in a string -/

/-- The first number with the property, if there is one. -/
def FirstAt (P : Nat → Prop) : Option Nat → Prop
  | some i => P i ∧ ∀ j < i, ¬ P j
  | none => ∀ j, ¬ P j

/-- The last number with the property, if there is one. -/
def LastAt (P : Nat → Prop) : Option Nat → Prop
  | some i => P i ∧ ∀ j, i < j → ¬ P j
  | none => ∀ j, ¬ P j

/-- The character is at this place of the string; the terminator is at its end. -/
def CharAt (s : CString) (c : Char) (i : Nat) : Prop := (s.chars ++ [nul])[i]? = some c

/-- One list of characters occurs at this place of another. -/
def OccursAt (t l : List Char) (i : Nat) : Prop := i ≤ l.length ∧ t <+: l.drop i

section

variable {s t : CString} {c d : Char} {i j n p q fuel : Nat} {P Q : Nat → Prop} {r : Option Nat}

theorem FirstAt.congr (h : FirstAt P r) (hPQ : ∀ i, P i ↔ Q i) : FirstAt Q r := by
  rwa [show Q = P from funext fun i => propext (hPQ i).symm]

/-- There is one first place at most. -/
theorem FirstAt.unique {r' : Option Nat} (h : FirstAt P r) (h' : FirstAt P r') : r = r' := by
  match r, r', h, h' with
  | none, none, _, _ => rfl
  | some i, none, h, h' => exact absurd h.1 (h' i)
  | none, some i, h, h' => exact absurd h'.1 (h i)
  | some i, some j, h, h' =>
    have hij : ¬ i < j := fun hlt => h'.2 i hlt h.1
    have hji : ¬ j < i := fun hlt => h.2 j hlt h'.1
    rw [Nat.le_antisymm (Nat.not_lt.mp hji) (Nat.not_lt.mp hij)]

/-- The first place is the same for a property that is as good as `P` up to there. -/
theorem firstAt_succ (h : ¬ P i) (hbefore : ∀ j < i, ¬ P j) : ∀ j < i + 1, ¬ P j := by
  intro j hj
  rcases Nat.lt_succ_iff_lt_or_eq.mp hj with hlt | rfl
  · exact hbefore j hlt
  · exact h

theorem charAt_lt (h : CharAt s c i) (hc : c ≠ nul) : i < s.chars.length ∧ s.chars[i]? = some c := by
  rw [CharAt] at h
  rcases Nat.lt_or_ge i s.chars.length with hlt | hge
  · exact ⟨hlt, by rwa [List.getElem?_append_left hlt] at h⟩
  · rw [List.getElem?_append_right hge] at h
    have hmem := List.mem_of_getElem? h
    exact absurd (List.mem_singleton.mp hmem) hc

theorem charAt_of_lt (hi : i < s.chars.length) : CharAt s c i ↔ s.chars[i]? = some c := by
  rw [CharAt, List.getElem?_append_left hi]

/-- What is read in a string. -/
theorem readChar_spec (hi : i ≤ s.chars.length) : ∃ d, readChar s i = .ok d ∧ (∀ c, CharAt s c i ↔ d = c) ∧
    (d = nul ↔ i = s.chars.length) := by
  rcases Nat.lt_or_eq_of_le hi with hlt | rfl
  · have hget := List.getElem?_eq_getElem hlt
    refine ⟨s.chars[i], by rw [readChar, hget], fun c => ?_, ?_⟩
    · rw [charAt_of_lt hlt, hget, Option.some.injEq]
    · exact iff_of_false (fun h => s.noNul (h ▸ List.getElem_mem hlt)) hlt.ne
  · have hget : s.chars[s.chars.length]? = none := List.getElem?_eq_none (Nat.le_refl _)
    refine ⟨nul, by rw [readChar, hget]; exact if_pos rfl, fun c => ?_, iff_of_true rfl rfl⟩
    rw [CharAt, List.getElem?_concat_length, Option.some.injEq]

/-! ## The loops -/

theorem strlenLoop_spec (hi : i ≤ s.chars.length) (hfuel : s.chars.length - i < fuel) :
    strlenLoop s fuel i = .ok s.chars.length := by
  induction fuel generalizing i with
  | zero => exact absurd hfuel (Nat.not_lt_zero _)
  | succ fuel ih =>
    obtain ⟨d, hread, -, hend⟩ := readChar_spec hi
    rw [strlenLoop, hread, ok_bind]
    by_cases hd : d = nul
    · rw [if_neg (not_not_intro hd), hend.mp hd]
      rfl
    · have hlt : i < s.chars.length := Nat.lt_of_le_of_ne hi fun he => hd (hend.mpr he)
      rw [if_pos hd]
      exact ih hlt (by omega)

/-- **`VG_(strlen)`.** -/
theorem strlen_spec (s : CString) : strlen s = .ok s.chars.length :=
  strlenLoop_spec (Nat.zero_le _) (by omega)

/-- **`VG_(strchr)`**: the first place of the character, or of the terminator. -/
theorem strchrLoop_spec (hp : p ≤ s.chars.length) (hbefore : ∀ j < p, ¬ CharAt s c j) (hfuel : s.chars.length - p < fuel) :
    ∃ r, strchrLoop s c fuel p = .ok r ∧ FirstAt (CharAt s c) r := by
  induction fuel generalizing p with
  | zero => exact absurd hfuel (Nat.not_lt_zero _)
  | succ fuel ih =>
    obtain ⟨d, hread, hat, hend⟩ := readChar_spec hp
    rw [strchrLoop, hread, ok_bind]
    by_cases hdc : d = c
    · rw [if_pos hdc]
      exact ⟨some p, rfl, (hat c).mpr hdc, hbefore⟩
    · have hbefore' := firstAt_succ (fun h => hdc ((hat c).mp h)) hbefore
      rw [if_neg hdc]
      by_cases hd : d = nul
      · rw [if_pos hd]
        refine ⟨none, rfl, fun j hj => ?_⟩
        rcases Nat.lt_or_ge j (p + 1) with hlt | hge
        · exact hbefore' j hlt hj
        · have hlen := hend.mp hd
          rw [CharAt, List.getElem?_eq_none (by simp; omega)] at hj
          exact nomatch hj
      · have hlt : p < s.chars.length := Nat.lt_of_le_of_ne hp fun he => hd (hend.mpr he)
        rw [if_neg hd]
        exact ih hlt hbefore' (by omega)

/-- What `VG_(strrchr)` finds: the last place behind the first character. -/
theorem strrchrLoop_spec (hn : n ≤ s.chars.length) :
    ∃ r, strrchrLoop s c n = .ok r ∧ LastAt (fun i => CharAt s c i ∧ 0 < i ∧ i < n) r := by
  induction n with
  | zero => exact ⟨none, rfl, fun j hj => absurd hj.2.2 (Nat.not_lt_zero _)⟩
  | succ n ih =>
    rw [strrchrLoop]
    by_cases hpos : n > 0
    · obtain ⟨d, hread, hat, -⟩ := readChar_spec (Nat.le_of_succ_le hn)
      rw [if_pos hpos, hread, ok_bind]
      by_cases hdc : d = c
      · rw [if_pos hdc]
        exact ⟨some n, rfl, ⟨(hat c).mpr hdc, hpos, Nat.lt_succ_self n⟩, fun j hj h => by omega⟩
      · have hnot : ¬ CharAt s c n := fun h => hdc ((hat c).mp h)
        obtain ⟨r, hrun, hlast⟩ := ih (Nat.le_of_succ_le hn)
        rw [if_neg hdc]
        refine ⟨r, hrun, ?_⟩
        rwa [show (fun i => CharAt s c i ∧ 0 < i ∧ i < n + 1) = fun i => CharAt s c i ∧ 0 < i ∧ i < n from ?_]
        refine funext fun i => propext (and_congr_right fun hi => and_congr_right fun _ => ?_)
        have hne : i ≠ n := fun he => hnot (he ▸ hi)
        omega
    · rw [if_neg hpos]
      exact ⟨none, rfl, fun j hj => by omega⟩

/-- **`VG_(strncmp)`** returns 0 if the strings agree so far. -/
theorem strncmpLoop_spec (nmax : Nat) (hp : p ≤ s.chars.length) (hq : q ≤ t.chars.length)
    (hfuel : t.chars.length - q < fuel) : ∃ r, strncmpLoop s t nmax fuel p q n = .ok r ∧
      (r = 0 ↔ (s.chars.drop p).take (nmax - n) = (t.chars.drop q).take (nmax - n)) := by
  induction fuel generalizing p q n with
  | zero => exact absurd hfuel (Nat.not_lt_zero _)
  | succ fuel ih =>
    rw [strncmpLoop]
    by_cases hn : n ≥ nmax
    · rw [if_pos hn, Nat.sub_eq_zero_of_le hn]
      exact ⟨0, rfl, by simp⟩
    · obtain ⟨k, hk⟩ : ∃ k, nmax - n = k + 1 := ⟨nmax - n - 1, by omega⟩
      have hk' : nmax - (n + 1) = k := by omega
      rw [if_neg hn, hk]
      cases hs : s.chars.drop p with
      | nil =>
        rw [readChar_end hs hp, ok_bind]
        cases ht : t.chars.drop q with
        | nil =>
          rw [readChar_end ht hq]
          exact ⟨0, rfl, by simp⟩
        | cons d t' =>
          obtain ⟨hread, hd, -⟩ := readChar_of_drop ht
          rw [hread, ok_bind, if_neg fun h => hd h.2, if_pos rfl]
          exact ⟨-1, rfl, by simp⟩
      | cons c s' =>
        obtain ⟨hread, hc, hrest⟩ := readChar_of_drop hs
        rw [hread, ok_bind]
        cases ht : t.chars.drop q with
        | nil =>
          rw [readChar_end ht hq, ok_bind, if_neg fun h => hc h.1, if_neg hc, if_pos rfl]
          exact ⟨1, rfl, by simp⟩
        | cons d t' =>
          obtain ⟨hread', hd, hrest'⟩ := readChar_of_drop ht
          rw [hread', ok_bind, if_neg fun h => hc h.1, if_neg hc, if_neg hd, List.take_succ_cons, List.take_succ_cons]
          rcases lt_trichotomy c d with hlt | heq | hgt
          · rw [if_pos hlt]
            exact ⟨-1, rfl, by simp [hlt.ne]⟩
          · subst heq
            obtain ⟨r, hrun, hr⟩ := ih (n := n + 1) (lt_length_of_drop hs) (lt_length_of_drop ht)
              (by have := lt_length_of_drop ht; omega)
            rw [if_neg (lt_irrefl c), if_neg (lt_irrefl c)]
            refine ⟨r, hrun, hr.trans ?_⟩
            rw [hrest, hrest', hk']
            simp
          · rw [if_neg hgt.asymm, if_pos hgt]
            exact ⟨1, rfl, by simp [hgt.ne']⟩

/-- Whether the needle is here. -/
theorem strncmp_spec (hp : p ≤ s.chars.length) :
    ∃ r, strncmp s p t t.chars.length = .ok r ∧ (r = 0 ↔ OccursAt t.chars s.chars p) := by
  obtain ⟨r, hrun, hr⟩ := strncmpLoop_spec t.chars.length (n := 0) hp (Nat.zero_le t.chars.length) (Nat.lt_succ_self _)
  refine ⟨r, hrun, hr.trans ?_⟩
  rw [Nat.sub_zero, List.drop_zero, List.take_length, OccursAt, and_iff_right hp, List.prefix_iff_eq_take]
  exact eq_comm

/-- What `VG_(strstr)` finds: the first place in front of the terminator. -/
theorem strstrLoop_spec (hp : p ≤ s.chars.length) (hbefore : ∀ j < p, ¬ OccursAt t.chars s.chars j)
    (hfuel : s.chars.length - p < fuel) : ∃ r, strstrLoop s t t.chars.length fuel p = .ok r ∧
      FirstAt (fun i => OccursAt t.chars s.chars i ∧ i < s.chars.length) r := by
  induction fuel generalizing p with
  | zero => exact absurd hfuel (Nat.not_lt_zero _)
  | succ fuel ih =>
    obtain ⟨d, hread, -, hend⟩ := readChar_spec hp
    rw [strstrLoop, hread, ok_bind]
    by_cases hd : d = nul
    · rw [if_pos hd]
      refine ⟨none, rfl, fun j hj => hbefore j ?_ hj.1⟩
      rw [hend.mp hd]
      exact hj.2
    · have hlt : p < s.chars.length := Nat.lt_of_le_of_ne hp fun he => hd (hend.mpr he)
      obtain ⟨r, hcmp, hr⟩ := strncmp_spec (t := t) hp
      rw [if_neg hd, hcmp, ok_bind]
      by_cases hr0 : r = 0
      · rw [if_pos hr0]
        exact ⟨some p, rfl, ⟨hr.mp hr0, hlt⟩, fun j hj h => hbefore j hj h.1⟩
      · rw [if_neg hr0]
        exact ih hlt (firstAt_succ (fun h => hr0 (hr.mpr h)) hbefore) (by omega)

theorem strstr_spec (s t : CString) : ∃ r, strstr (some s) t = .ok r ∧
    FirstAt (fun i => OccursAt t.chars s.chars i ∧ i < s.chars.length) r := by
  obtain ⟨r, hrun, hr⟩ := strstrLoop_spec (s := s) (t := t) (Nat.zero_le _) (fun j hj => absurd hj (Nat.not_lt_zero _))
    (Nat.lt_succ_self _)
  refine ⟨r, ?_, hr⟩
  rw [strstr, strlen_spec, ok_bind]
  exact hrun

/-! ## What C says -/

/-- The three functions do for these arguments what the standard of C says. -/
structure SearchesRight (s t : CString) (c : Char) : Prop where
  strchr : ∃ r, strchr s c = .ok r ∧ FirstAt (CharAt s c) r
  strrchr : c ≠ nul → ∃ r, strrchr s c = .ok r ∧ LastAt (CharAt s c) r
  strstr : ∃ r, strstr (some s) t = .ok r ∧ FirstAt (OccursAt t.chars s.chars) r

theorem strchr_spec (s : CString) (c : Char) : ∃ r, strchr s c = .ok r ∧ FirstAt (CharAt s c) r :=
  strchrLoop_spec (Nat.zero_le _) (fun _ hj => absurd hj (Nat.not_lt_zero _)) (Nat.lt_succ_self _)

/-- `VG_(strrchr)` is right unless the first character is the only one of its kind. -/
theorem strrchr_iff (hc : c ≠ nul) : (∃ r, strrchr s c = .ok r ∧ LastAt (CharAt s c) r) ↔
    (s.chars.head? = some c → c ∈ s.chars.tail) := by
  obtain ⟨r₀, hrun, hlast⟩ := strrchrLoop_spec (s := s) (c := c) (Nat.le_refl _)
  have hrun' : strrchr s c = .ok r₀ := by rw [strrchr, strlen_spec, ok_bind, hrun]
  have hhead : CharAt s c 0 ↔ s.chars.head? = some c := by
    rw [List.head?_eq_getElem?]
    exact ⟨fun h => (charAt_lt h hc).2, fun h => (charAt_of_lt (List.getElem?_eq_some_iff.mp h).1).mpr h⟩
  have htail : c ∈ s.chars.tail ↔ ∃ j, 0 < j ∧ CharAt s c j := by
    rw [List.mem_iff_getElem?]
    constructor
    · rintro ⟨j, hj⟩
      rw [List.getElem?_tail] at hj
      exact ⟨j + 1, Nat.succ_pos j, (charAt_of_lt (List.getElem?_eq_some_iff.mp hj).1).mpr hj⟩
    · rintro ⟨j, hj, hat⟩
      refine ⟨j - 1, ?_⟩
      rw [List.getElem?_tail, Nat.sub_add_cancel hj]
      exact (charAt_lt hat hc).2
  rw [htail, ← hhead]
  constructor
  · rintro ⟨r, hr, hlast'⟩ h0
    obtain rfl := Except.ok.inj (hrun'.symm.trans hr)
    cases r₀ with
    | none => exact absurd h0 (hlast' 0)
    | some i => exact ⟨i, hlast.1.2.1, hlast.1.1⟩
  · intro hcond
    refine ⟨r₀, hrun', ?_⟩
    cases r₀ with
    | none =>
      have hnone : ∀ j, 0 < j → ¬ CharAt s c j := fun j hj hat => hlast j ⟨hat, hj, (charAt_lt hat hc).1⟩
      intro j hat
      rcases Nat.eq_zero_or_pos j with rfl | hj
      · obtain ⟨k, hk, hk'⟩ := hcond hat
        exact hnone k hk hk'
      · exact hnone j hj hat
    | some i =>
      refine ⟨hlast.1.1, fun j hj hat => hlast.2 j hj ⟨hat, ?_, (charAt_lt hat hc).1⟩⟩
      exact Nat.lt_trans hlast.1.2.1 hj

/-- `VG_(strstr)` is right unless both strings are empty. -/
theorem strstr_iff : (∃ r, strstr (some s) t = .ok r ∧ FirstAt (OccursAt t.chars s.chars) r) ↔
    (s.chars = [] → t.chars ≠ []) := by
  obtain ⟨r₀, hrun, hfirst⟩ := strstr_spec s t
  by_cases hempty : s.chars = [] ∧ t.chars = []
  · obtain ⟨hs, ht⟩ := hempty
    refine iff_of_false ?_ fun h => h hs ht
    rintro ⟨r, hr, hfirst'⟩
    obtain rfl := Except.ok.inj (hrun.symm.trans hr)
    have hocc : OccursAt t.chars s.chars 0 := by simp [OccursAt, ht]
    cases r₀ with
    | none => exact hfirst' 0 hocc
    | some i =>
      have hlt := hfirst.1.2
      rw [hs] at hlt
      exact absurd hlt (Nat.not_lt_zero i)
  · refine iff_of_true ⟨r₀, hrun, ?_⟩ fun hs ht => hempty ⟨hs, ht⟩
    by_cases ht : t.chars = []
    · -- the empty string is found at once
      have hpos : 0 < s.chars.length := List.length_pos_iff.mpr fun hs => hempty ⟨hs, ht⟩
      have hocc : OccursAt t.chars s.chars 0 := ⟨Nat.zero_le _, ht ▸ List.nil_prefix⟩
      have h₀ : FirstAt (fun i => OccursAt t.chars s.chars i ∧ i < s.chars.length) (some 0) :=
        ⟨⟨hocc, hpos⟩, fun j hj => absurd hj (Nat.not_lt_zero j)⟩
      obtain rfl := hfirst.unique h₀
      exact ⟨hocc, fun j hj => absurd hj (Nat.not_lt_zero j)⟩
    · refine hfirst.congr fun i => and_iff_left_of_imp fun hocc => ?_
      by_contra hge
      have hnil := List.drop_eq_nil_of_le (Nat.not_lt.mp hge)
      exact ht (List.prefix_nil.mp (hnil ▸ hocc.2))

/-- **The string searches**: they do what the standard says unless the character looked for is the
first of the string and does not come again, or both strings are empty. -/
theorem stringSearch_iff (s t : CString) (c : Char) : SearchesRight s t c ↔
    (c ≠ nul → s.chars.head? = some c → c ∈ s.chars.tail) ∧ (s.chars = [] → t.chars ≠ []) := by
  constructor
  · exact fun h => ⟨fun hc => (strrchr_iff hc).mp (h.strrchr hc), strstr_iff.mp h.strstr⟩
  · exact fun h => ⟨strchr_spec s c, fun hc => (strrchr_iff hc).mpr (h.1 hc), strstr_iff.mpr h.2⟩

/-- The path of the root directory has one slash only. -/
theorem not_searchesRight_root : ¬ SearchesRight ⟨['/'], by decide⟩ ⟨[], by decide⟩ '/' := by
  intro h
  obtain ⟨r, hr, hlast⟩ := h.strrchr (by decide)
  obtain rfl : none = r := Except.ok.inj ((by decide : strrchr ⟨['/'], _⟩ '/' = .ok none).symm.trans hr)
  exact hlast 0 rfl

end

/-! ## Names with commas between them -/

section Names

variable {t l e rest : List Char} {i j : Nat}

/-- A place of the list where something of length `n` stands alone between commas. -/
def Delimited (l : List Char) (n i : Nat) : Prop :=
  (i = 0 ∨ l[i - 1]? = some ',') ∧ (l[i + n]? = some ',' ∨ i + n = l.length)

theorem OccursAt.length_le (h : OccursAt t l i) : i + t.length ≤ l.length := by
  have hle := h.2.length_le
  rw [List.length_drop] at hle
  have hi := h.1
  omega

theorem infix_iff_occursAt : t <:+: l ↔ ∃ i, OccursAt t l i := by
  constructor
  · rintro ⟨a, b, rfl⟩
    refine ⟨a.length, by simp, ?_⟩
    rw [List.append_assoc, List.drop_left]
    exact List.prefix_append t b
  · rintro ⟨i, -, hpre⟩
    exact hpre.isInfix.trans (List.drop_suffix i l).isInfix

theorem drop_behind (e rest : List Char) (c : Char) (j : Nat) :
    (e ++ c :: rest).drop (e.length + 1 + j) = rest.drop j := by
  rw [show e.length + 1 + j = e.length + (j + 1) by omega, ← List.drop_drop, List.drop_left, List.drop_succ_cons]

/-- A name without commas lies in front of the first comma or behind it. -/
theorem occursAt_append (hcomma : ',' ∉ t) :
    OccursAt t (e ++ ',' :: rest) i ↔ OccursAt t e i ∨ ∃ j, i = e.length + 1 + j ∧ OccursAt t rest j := by
  constructor
  · rintro ⟨hi, hpre⟩
    rw [List.length_append, List.length_cons] at hi
    rcases Nat.lt_or_ge e.length i with hlt | hle
    · refine .inr ⟨i - (e.length + 1), by omega, by omega, ?_⟩
      rwa [show i = e.length + 1 + (i - (e.length + 1)) by omega, drop_behind] at hpre
    · rw [List.drop_append_of_le_length hle] at hpre
      refine .inl ⟨hle, ?_⟩
      have hcut : e.drop i ++ [','] <+: e.drop i ++ ',' :: rest := ⟨rest, by simp⟩
      rcases List.prefix_or_prefix_of_prefix hpre hcut with h | h
      · rcases List.prefix_concat_iff.mp h with heq | h
        · exact absurd (by rw [heq]; simp) hcomma
        · exact h
      · exact absurd (h.subset (by simp)) hcomma
  · rintro (⟨hi, hpre⟩ | ⟨j, rfl, hj, hpre⟩)
    · refine ⟨by simp; omega, ?_⟩
      rw [List.drop_append_of_le_length hi]
      exact hpre.trans (List.prefix_append _ _)
    · refine ⟨by simp; omega, ?_⟩
      rwa [drop_behind]

/-- In an element of the list, only the whole element stands alone. -/
theorem occursAt_whole (h : OccursAt t e i) : i = 0 ∧ i + t.length = e.length ↔ e = t := by
  constructor
  · rintro ⟨rfl, hlen⟩
    have hpre := h.2
    rw [List.drop_zero] at hpre
    exact (hpre.eq_of_length (by omega)).symm
  · rintro rfl
    have hle := h.length_le
    omega

theorem not_comma (he : ',' ∉ e) (k : Nat) : e[k]? ≠ some ',' := fun h => he (List.mem_of_getElem? h)

/-- The name stands alone in the first element. -/
theorem delimited_front (rest : List Char) (ht : t ≠ []) (he : ',' ∉ e) (h : OccursAt t e i) :
    Delimited (e ++ ',' :: rest) t.length i ↔ e = t := by
  have hle := h.length_le
  have hpos : 0 < t.length := List.length_pos_iff.mpr ht
  rw [← occursAt_whole h, Delimited]
  refine and_congr ⟨fun hb => hb.resolve_right fun hc => ?_, .inl⟩ ⟨fun hb => ?_, fun hlen => .inl ?_⟩
  · rw [List.getElem?_append_left (by omega)] at hc
    exact not_comma he _ hc
  · rcases hb with hc | hlen
    · by_contra hne
      rw [List.getElem?_append_left (by omega)] at hc
      exact not_comma he _ hc
    · rw [List.length_append, List.length_cons] at hlen
      omega
  · rw [hlen, List.getElem?_append_right (Nat.le_refl _), Nat.sub_self]
    rfl

/-- Behind the first comma it stands alone if it does so in the rest. -/
theorem delimited_behind (n j : Nat) : Delimited (e ++ ',' :: rest) n (e.length + 1 + j) ↔ Delimited rest n j := by
  have hget : ∀ k, (e ++ ',' :: rest)[e.length + 1 + k]? = rest[k]? := fun k => by
    rw [List.getElem?_append_right (by omega), show e.length + 1 + k - e.length = k + 1 by omega, List.getElem?_cons_succ]
  refine and_congr ?_ ?_
  · cases j with
    | zero => simp
    | succ j =>
      rw [show e.length + 1 + (j + 1) - 1 = e.length + 1 + j by omega, hget, Nat.add_sub_cancel]
      simp
  · rw [Nat.add_assoc, hget, List.length_append, List.length_cons]
    exact or_congr_right (by omega)

/-- The only element of a list. -/
theorem delimited_single (hl : ',' ∉ l) (h : OccursAt t l i) : Delimited l t.length i ↔ l = t := by
  rw [← occursAt_whole h, Delimited]
  exact and_congr (or_iff_left (not_comma hl _)) (or_iff_right (not_comma hl _))

/-- **The first place** where the name occurs: it stands alone there if the first element of the
list that contains the name is the name. -/
theorem firstAt_delimited {r : Option Nat} (ht : t ≠ []) (hcomma : ',' ∉ t) (hr : FirstAt (OccursAt t l) r) :
    (∃ i ∈ r, Delimited l t.length i) ↔ (l.splitOn ',').find? (fun e => t <:+: e) = some t := by
  induction hn : l.length using Nat.strong_induction_on generalizing l r with
  | _ n ih =>
    by_cases hl : ',' ∈ l
    · obtain ⟨e, rest, rfl, he⟩ := List.eq_append_cons_of_mem hl
      rw [List.splitOn_append_cons_self_of_not_mem he]
      by_cases hin : t <:+: e
      · rw [List.find?_cons_of_pos (by simpa using hin), Option.some.injEq]
        obtain ⟨j, hj⟩ := infix_iff_occursAt.mp hin
        have hj' : OccursAt t (e ++ ',' :: rest) j := (occursAt_append hcomma).mpr (.inl hj)
        cases r with
        | none => exact absurd hj' (hr j)
        | some i =>
          have hij : i ≤ j := Nat.not_lt.mp fun hlt => hr.2 j hlt hj'
          rcases (occursAt_append hcomma).mp hr.1 with hocc | ⟨k, rfl, -⟩
          · rw [← delimited_front rest ht he hocc]
            exact ⟨fun ⟨i', hi', hd⟩ => Option.some.inj hi' ▸ hd, fun hd => ⟨i, rfl, hd⟩⟩
          · have hle := hj.1
            omega
      · have hocc : ∀ i, OccursAt t (e ++ ',' :: rest) i ↔ ∃ j, i = e.length + 1 + j ∧ OccursAt t rest j := fun i =>
          (occursAt_append hcomma).trans (or_iff_right fun h => hin (infix_iff_occursAt.mpr ⟨i, h⟩))
        have hlt : rest.length < n := by
          rw [← hn, List.length_append, List.length_cons]
          omega
        rw [List.find?_cons_of_neg (by simpa using hin)]
        cases r with
        | none =>
          have hr' : FirstAt (OccursAt t rest) none := fun j hj => hr _ ((hocc _).mpr ⟨j, rfl, hj⟩)
          rw [← ih rest.length hlt hr' rfl]
          simp
        | some i =>
          obtain ⟨j, rfl, hj⟩ := (hocc i).mp hr.1
          have hr' : FirstAt (OccursAt t rest) (some j) :=
            ⟨hj, fun k hk hk' => hr.2 _ (Nat.add_lt_add_left hk _) ((hocc _).mpr ⟨k, rfl, hk'⟩)⟩
          rw [← ih rest.length hlt hr' rfl]
          simp [delimited_behind]
    · rw [List.splitOn_eq_singleton hl]
      cases r with
      | none =>
        have hin : ¬ t <:+: l := fun hin => (infix_iff_occursAt.mp hin).elim hr
        simp [hin]
      | some i =>
        have hin : t <:+: l := infix_iff_occursAt.mpr ⟨i, hr.1⟩
        rw [List.find?_cons_of_pos (by simpa using hin), Option.some.injEq, ← delimited_single hl hr.1]
        simp

/-- The first element that passes the test is `a` if `a` is an element and none before it passes. -/
theorem find?_eq_iff_takeWhile {α : Type} [DecidableEq α] {p : α → Bool} {a : α} {l : List α} (ha : p a = true) :
    l.find? p = some a ↔ a ∈ l ∧ ∀ x ∈ l.takeWhile (· ≠ a), p x = false := by
  induction l with
  | nil => simp
  | cons x l ih =>
    by_cases hxa : x = a
    · subst hxa
      simp [ha]
    · by_cases hx : p x = true
      · simp [hx, hxa]
      · rw [Bool.not_eq_true] at hx
        rw [List.find?_cons_of_neg (by simp [hx]), ih, List.mem_cons, or_iff_right (Ne.symm hxa),
          List.takeWhile_cons_of_pos (by simpa using hxa), List.forall_mem_cons, and_iff_right hx]

variable {name names : CString}

/-- Whether there is a comma here, for places up to the end. -/
theorem readChar_comma {s : CString} {i : Nat} (hi : i ≤ s.chars.length) : ∃ c, readChar s i = .ok c ∧
    (c = ',' ↔ s.chars[i]? = some ',') ∧ (c = nul ↔ i = s.chars.length) := by
  obtain ⟨c, hread, hc, hend⟩ := readChar_spec hi
  refine ⟨c, hread, ?_, hend⟩
  rw [← hc]
  exact ⟨fun h => (charAt_lt h (by decide)).2, fun h => (charAt_of_lt (List.getElem?_eq_some_iff.mp h).1).mpr h⟩

/-- **`tool_name_present`** says whether the name stands alone at the first place where it occurs. -/
theorem toolNamePresent_spec (names : CString) (hne : name.chars ≠ []) : ∃ b r, toolNamePresent name names = .ok b ∧
    FirstAt (OccursAt name.chars names.chars) r ∧ (b = true ↔ ∃ i ∈ r, Delimited names.chars name.chars.length i) := by
  obtain ⟨r, hrun, hr⟩ := strstr_iff.mpr fun _ => hne
  rw [toolNamePresent, strlen_spec, ok_bind, hrun, ok_bind]
  cases r with
  | none => exact ⟨false, none, rfl, hr, by simp⟩
  | some i =>
    have hle := OccursAt.length_le hr.1
    obtain ⟨c, hread, hcomma, hend⟩ := readChar_comma hle
    have hone : (∃ i' ∈ some i, Delimited names.chars name.chars.length i') ↔ Delimited names.chars name.chars.length i :=
      ⟨fun ⟨i', hi', hd⟩ => Option.some.inj hi' ▸ hd, fun hd => ⟨i, rfl, hd⟩⟩
    obtain ⟨before, hbefore, hiff⟩ : ∃ before : Bool,
        (if i = 0 then return true else return (← readChar names (i - 1)) = ',' : Result Bool) = .ok before ∧
          (before = true ↔ i = 0 ∨ names.chars[i - 1]? = some ',') := by
      by_cases hi : i = 0
      · rw [if_pos hi]
        exact ⟨true, rfl, iff_of_true rfl (.inl hi)⟩
      · obtain ⟨d, hread', hcomma', -⟩ := readChar_comma (s := names) (i := i - 1) (by omega)
        rw [if_neg hi, hread']
        exact ⟨decide (d = ','), rfl, by rw [decide_eq_true_iff, hcomma', or_iff_right hi]⟩
    simp only [hbefore, ok_bind]
    cases before with
    | false => exact ⟨false, some i, rfl, hr, iff_of_false Bool.false_ne_true fun h => nomatch hiff.mpr (hone.mp h).1⟩
    | true =>
      rw [if_pos rfl, hread]
      refine ⟨_, some i, rfl, hr, ?_⟩
      rw [hone, Delimited, and_iff_right (hiff.mp rfl), ← hcomma, ← hend, Bool.or_eq_true, decide_eq_true_iff,
        decide_eq_true_iff]

/-- **A tool in a list of tools**: the test is right unless a longer name that contains the name
comes before it. -/
theorem toolNamePresent_iff (hne : name.chars ≠ []) (hcomma : ',' ∉ name.chars) :
    (∃ b, toolNamePresent name names = .ok b ∧ (b = true ↔ name.chars ∈ names.chars.splitOn ',')) ↔
      (name.chars ∈ names.chars.splitOn ',' →
        ∀ e ∈ (names.chars.splitOn ',').takeWhile (· ≠ name.chars), ¬ name.chars <:+: e) := by
  obtain ⟨b, r, hrun, hr, hb⟩ := toolNamePresent_spec names hne
  rw [firstAt_delimited hne hcomma hr,
    find?_eq_iff_takeWhile (p := fun e => name.chars <:+: e) (decide_eq_true (List.infix_refl name.chars))] at hb
  simp only [decide_eq_false_iff_not] at hb
  constructor
  · rintro ⟨b', hrun', hb'⟩ hmem
    obtain rfl := Except.ok.inj (hrun.symm.trans hrun')
    exact (hb.mp (hb'.mpr hmem)).2
  · exact fun hcond => ⟨b, hrun, hb.trans ⟨fun h => h.1, fun hmem => ⟨hmem, hcond hmem⟩⟩⟩

/-- The name stands behind another one that does not contain it. -/
theorem toolNamePresent_iff_second :
    ∃ b, toolNamePresent ⟨"Memcheck".toList, by decide⟩ ⟨"Helgrind,Memcheck".toList, by decide⟩ = .ok b ∧
      (b = true ↔ "Memcheck".toList ∈ "Helgrind,Memcheck".toList.splitOn ',') :=
  (toolNamePresent_iff (by decide) (by decide)).mpr fun _ => by decide

/-- The name stands behind a longer one. -/
theorem not_toolNamePresent_longer :
    ¬ ∃ b, toolNamePresent ⟨"Memcheck".toList, by decide⟩ ⟨"Memcheck2,Memcheck".toList, by decide⟩ = .ok b ∧
      (b = true ↔ "Memcheck".toList ∈ "Memcheck2,Memcheck".toList.splitOn ',') := by
  rintro ⟨b, hrun, hb⟩
  have hfalse : toolNamePresent ⟨"Memcheck".toList, by decide⟩ ⟨"Memcheck2,Memcheck".toList, by decide⟩ = .ok false := by
    decide
  obtain rfl := Except.ok.inj (hfalse.symm.trans hrun)
  exact nomatch hb.mpr (by decide)

end Names

end Valgrind.Coregrind
