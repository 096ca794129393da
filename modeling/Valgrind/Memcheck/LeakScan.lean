import Valgrind.Memcheck.LeakCheck

/-!
# Which words the leak checker scans

`lc_scan_memory_WRK` goes through a range word by word. It skips secondary maps in which
nothing is accessible and pages that cannot be read, but it looks at the permissions of a page
only at the page's first word, and when it skips a page there it goes on to the first word of
the next page without asking anything: not whether the range goes on, and not whether that
page can be read.

So of a row of bad pages every second one is skipped unseen (`skipsPage`), and if the last
page of the range is one of those that are seen to be bad, the word behind it is scanned too,
although it does not belong to the range (`Overruns`). That is all that can go wrong, as long
as the range keeps clear of the end of the address space (`scan_exact`).
-/

namespace Valgrind

namespace Memcheck

open Machine Debuginfo

variable [Machine]

/-- The addresses of the words that `lc_scan_memory_WRK` finds. -/
def scanAddrs (c : Client) (start len : Nat) : Result (List Nat) :=
  scanWords { c with word := id } start len

/-- Pages are readable as a whole, secondary maps are of interest as a whole, and what is readable
can be read. -/
structure Client.Paged (c : Client) : Prop where
  page : ∀ a, a % wordB = 0 → c.isReadable a = c.isReadable (a / pageSzB * pageSzB)
  secondary : ∀ a, c.isWithinValidSecondary a = c.isWithinValidSecondary (a / smSize * smSize)
  noFault : ∀ a, c.isReadable a = true → c.faults a = false

/-- The `k`-th page is seen to be bad: it begins after the first word of the range, lies in a
valid secondary, cannot be read, and the page before it has not been skipped in this way. -/
def skipsPage (c : Client) (first : Nat) : Nat → Bool
  | 0 => false
  | k + 1 => decide (first < (k + 1) * pageSzB) && c.isWithinValidSecondary ((k + 1) * pageSzB) &&
      !c.isReadable ((k + 1) * pageSzB) && !skipsPage c first k

/-- The last page of the range is seen to be bad, and the word behind it holds a valid word. -/
def Overruns (c : Client) (start len : Nat) : Prop :=
  let k := (roundDn (addW start len) wordB - 1) / pageSzB
  skipsPage c (roundUp start wordB) k = true ∧ c.isValidAlignedWord ((k + 1) * pageSzB) = true ∧
    c.faults ((k + 1) * pageSzB) = false

/-- The word at `a` is one that should be scanned. -/
structure Wanted (c : Client) (a : Nat) : Prop where
  aligned : a % wordB = 0
  readable : c.isReadable a = true
  secondary : c.isWithinValidSecondary a = true
  valid : c.isValidAlignedWord a = true

/-- The scan ends, finds only whole words of the range, and all that it should find. -/
def ScanMeets (c : Client) (start len : Nat) : Prop :=
  ∃ as, scanAddrs c start len = .ok as ∧
    (∀ a ∈ as, a % wordB = 0 ∧ start ≤ a ∧ a + wordB ≤ start + len) ∧
    ∀ a, Wanted c a → start ≤ a → a + wordB ≤ start + len → a ∈ as

/-! ## Rounding -/

section Rounding

variable {a n k : Nat}

omit [Machine] in
theorem roundDn_eq (a n : Nat) : roundDn a n = a / n * n := by
  unfold roundDn
  have := Nat.div_add_mod a n
  have := Nat.mul_comm n (a / n)
  omega

theorem roundUp_succ (hn : 0 < n) (h : a + n < wordMod) : roundUp (addW a 1) n = (a / n + 1) * n := by
  have hone : addW a 1 = a + 1 := addW_of_lt (by omega)
  have hsum : addW (a + 1) (n - 1) = a + n := by
    rw [addW_of_lt (by omega)]
    omega
  rw [roundUp, hone, hsum, roundDn_eq, Nat.add_div_right a hn]

theorem wordB_dvd_pageSzB : wordB ∣ pageSzB := by
  rcases word_ok with h | h <;> rcases page_ok with h' | h' <;> rw [h, h'] <;> decide

theorem pageSzB_dvd_smSize : pageSzB ∣ smSize := by
  rcases page_ok with h | h <;> rw [h] <;> decide

theorem wordB_pos : 0 < wordB := by
  rcases word_ok with h | h <;> omega

/-- Aligned words do not overlap. -/
theorem aligned_le {b : Nat} (ha : a % wordB = 0) (hb : b % wordB = 0) (h : a < b) : a + wordB ≤ b := by
  rcases word_ok with hw | hw <;> rw [hw] at ha hb ⊢ <;> omega

theorem page_aligned (k : Nat) : k * pageSzB % wordB = 0 :=
  Nat.mod_eq_zero_of_dvd (Dvd.dvd.mul_left wordB_dvd_pageSzB k)

theorem page_bounds (a : Nat) : a / pageSzB * pageSzB ≤ a ∧ a < (a / pageSzB + 1) * pageSzB :=
  ⟨Nat.div_mul_le_self a _, Nat.mul_comm pageSzB _ ▸ Nat.lt_mul_div_succ a pageSzB_pos⟩

theorem page_eq (h₁ : k * pageSzB ≤ a) (h₂ : a < (k + 1) * pageSzB) : a / pageSzB = k :=
  Nat.div_eq_of_lt_le h₁ h₂

/-- The word after the last one of a page begins the next page. -/
theorem page_step (ha : a % wordB = 0) :
    (a + wordB) / pageSzB = a / pageSzB ∧ (a + wordB) % pageSzB ≠ 0 ∨
      a + wordB = (a / pageSzB + 1) * pageSzB := by
  rcases page_ok with hp | hp <;> rcases word_ok with hw | hw <;> rw [hp, hw] <;> rw [hw] at ha <;> omega

end Rounding

/-! ## The head of the loop -/

/-- What is known when the loop gets to `ptr`: it is not within a page that it has skipped. -/
structure AtHead (c : Client) (first ptr : Nat) : Prop where
  aligned : ptr % wordB = 0
  le : first ≤ ptr
  inner : ptr % pageSzB ≠ 0 → skipsPage c first (ptr / pageSzB) = false
  front : ptr % pageSzB = 0 → (first < ptr ∧ skipsPage c first (ptr / pageSzB - 1) = false) ∨
    (ptr = first ∧ c.isReadable ptr = true)

/-- The word that a turn of the loop looks at, in a valid secondary. -/
def wordAt (c : Client) (ptr : Nat) : Nat :=
  if ptr % pageSzB = 0 ∧ c.isReadable ptr = false then addW ptr pageSzB else ptr

variable {c : Client} {first ptr stop start len k a q fuel : Nat}

theorem skipsPage_succ : skipsPage c first (k + 1) = true ↔ first < (k + 1) * pageSzB ∧
    c.isWithinValidSecondary ((k + 1) * pageSzB) = true ∧ c.isReadable ((k + 1) * pageSzB) = false ∧
    skipsPage c first k = false := by
  simp only [skipsPage, Bool.and_eq_true, decide_eq_true_eq, Bool.not_eq_true', and_assoc]

/-- A page that is seen to be bad is one. -/
theorem skipsPage_spec (h : skipsPage c first k = true) : first < k * pageSzB ∧
    c.isWithinValidSecondary (k * pageSzB) = true ∧ c.isReadable (k * pageSzB) = false ∧
    skipsPage c first (k + 1) = false ∧ skipsPage c first (k - 1) = false := by
  cases k with
  | zero => exact nomatch h
  | succ k =>
    obtain ⟨h₁, h₂, h₃, h₄⟩ := skipsPage_succ.mp h
    refine ⟨h₁, h₂, h₃, ?_, h₄⟩
    by_contra hnext
    rw [Bool.not_eq_false] at hnext
    rw [(skipsPage_succ.mp hnext).2.2.2] at h
    exact nomatch h

/-- At the head, a page in a valid secondary is seen to be bad iff the code skips it. -/
theorem AtHead.skips_iff (h : AtHead c first ptr) (hsec : c.isWithinValidSecondary ptr = true) :
    skipsPage c first (ptr / pageSzB) = true ↔ ptr % pageSzB = 0 ∧ c.isReadable ptr = false := by
  have hmod : ptr % pageSzB = 0 → ptr / pageSzB * pageSzB = ptr := fun h0 =>
    Nat.div_mul_cancel (Nat.dvd_of_mod_eq_zero h0)
  constructor
  · intro hskip
    by_cases h0 : ptr % pageSzB = 0
    · obtain ⟨-, -, hr, -⟩ := skipsPage_spec hskip
      exact ⟨h0, hmod h0 ▸ hr⟩
    · rw [h.inner h0] at hskip
      exact nomatch hskip
  · rintro ⟨h0, hr⟩
    rcases h.front h0 with ⟨hlt, hprev⟩ | ⟨-, hread⟩
    · obtain ⟨k, hk⟩ : ∃ k, ptr / pageSzB = k + 1 := by
        refine Nat.exists_eq_add_one.mpr (Nat.pos_of_ne_zero fun hz => ?_)
        have := hmod h0
        rw [hz, Nat.zero_mul] at this
        omega
      have hptr : (k + 1) * pageSzB = ptr := hk ▸ hmod h0
      rw [hk] at hprev ⊢
      rw [skipsPage_succ, hptr]
      exact ⟨hlt, hsec, hr, hprev⟩
    · rw [hr] at hread
      exact nomatch hread

/-- The word that is looked at is not in a page that is seen to be bad. -/
structure Looked (c : Client) (first ptr q : Nat) : Prop where
  aligned : q % wordB = 0
  le : first ≤ q
  page : skipsPage c first (q / pageSzB) = false
  from_ : q = ptr ∨ (q = ptr + pageSzB ∧ ptr % pageSzB = 0 ∧ skipsPage c first (ptr / pageSzB) = true)

theorem AtHead.looked (h : AtHead c first ptr) (hsec : c.isWithinValidSecondary ptr = true)
    (hroom : ptr + pageSzB < wordMod) : Looked c first ptr (wordAt c ptr) := by
  have hskips := h.skips_iff hsec
  unfold wordAt
  by_cases hbad : ptr % pageSzB = 0 ∧ c.isReadable ptr = false
  · have hskip := hskips.mpr hbad
    rw [if_pos hbad, addW_of_lt hroom]
    refine ⟨?_, by have := h.le; omega, ?_, .inr ⟨rfl, hbad.1, hskip⟩⟩
    · rw [Nat.add_mod, h.aligned, Nat.mod_eq_zero_of_dvd wordB_dvd_pageSzB]
      exact Nat.zero_mod _
    · rw [Nat.add_div_right _ pageSzB_pos]
      exact (skipsPage_spec hskip).2.2.2.1
  · rw [if_neg hbad]
    refine ⟨h.aligned, h.le, ?_, .inl rfl⟩
    rw [← Bool.not_eq_true]
    exact fun hskip => hbad (hskips.mp hskip)

/-- On to the next word. -/
theorem Looked.next_word (h : Looked c first ptr q) : AtHead c first (q + wordB) := by
  have hpos := wordB_pos
  have hal : (q + wordB) % wordB = 0 := by rw [Nat.add_mod_right, h.aligned]
  rcases page_step h.aligned with ⟨hpage, hne⟩ | hnext
  · exact ⟨hal, by have := h.le; omega, fun _ => hpage ▸ h.page, fun h0 => absurd h0 hne⟩
  · refine ⟨hal, by have := h.le; omega, fun hne => absurd ?_ hne, fun _ => .inl ⟨by have := h.le; omega, ?_⟩⟩
    · rw [hnext]
      exact Nat.mul_mod_left _ _
    · rw [hnext, Nat.mul_div_cancel _ pageSzB_pos]
      exact h.page

/-- On to the next page. -/
theorem atHead_page (hle : first ≤ q) (hpage : skipsPage c first (q / pageSzB) = false) :
    AtHead c first ((q / pageSzB + 1) * pageSzB) := by
  have hlt := (page_bounds q).2
  refine ⟨page_aligned _, by omega, fun hne => absurd (Nat.mul_mod_left _ _) hne,
    fun _ => .inl ⟨by omega, ?_⟩⟩
  rw [Nat.mul_div_cancel _ pageSzB_pos]
  exact hpage

/-- On to the next secondary. -/
theorem AtHead.next_secondary (hc : c.Paged) (h : AtHead c first ptr)
    (hsec : c.isWithinValidSecondary ptr = false) :
    AtHead c first ((ptr / smSize + 1) * smSize) := by
  obtain ⟨n, hn⟩ := pageSzB_dvd_smSize
  have hpos : 0 < n := Nat.pos_of_ne_zero fun h0 => by
    rw [h0, Nat.mul_zero] at hn
    exact absurd hn (by decide)
  have hlt : ptr < (ptr / smSize + 1) * smSize :=
    Nat.mul_comm smSize _ ▸ Nat.lt_mul_div_succ ptr (by decide)
  have heq : (ptr / smSize + 1) * smSize = ((ptr / smSize + 1) * n) * pageSzB := by
    rw [hn, Nat.mul_assoc, Nat.mul_comm n]
  refine ⟨heq ▸ page_aligned _, by have := h.le; omega, fun hne => absurd (heq ▸ Nat.mul_mod_left _ _) hne,
    fun _ => .inl ⟨by have := h.le; omega, ?_⟩⟩
  rw [heq, Nat.mul_div_cancel _ pageSzB_pos]
  -- the page before is in the secondary that is left
  by_contra hskip
  obtain ⟨-, hvalid, -⟩ := skipsPage_spec (Bool.not_eq_false _ ▸ hskip)
  have hsame : ((ptr / smSize + 1) * n - 1) * pageSzB / smSize = ptr / smSize := by
    generalize ptr / smSize = d
    unfold smSize at hn ⊢
    rcases page_ok with hp | hp <;> rw [hp] at hn ⊢
    · obtain rfl : n = 16 := by omega
      omega
    · obtain rfl : n = 1 := by omega
      omega
  rw [hc.secondary, hsame, ← hc.secondary, hsec] at hvalid
  exact nomatch hvalid

/-! ## The loop -/

theorem scanLoop_invalid (hlt : ptr < stop) (hsec : c.isWithinValidSecondary ptr = false) :
    scanLoop c stop (fuel + 1) ptr = scanLoop c stop fuel (roundUp (addW ptr 1) smSize) := by
  rw [scanLoop, if_pos hlt, if_pos hsec]

/-- The turn of the loop in a valid secondary. -/
theorem scanLoop_valid (hlt : ptr < stop) (hsec : c.isWithinValidSecondary ptr = true) :
    scanLoop c stop (fuel + 1) ptr =
      if c.isValidAlignedWord (wordAt c ptr) = true then
        if c.faults (wordAt c ptr) = true then scanLoop c stop fuel (pgRoundUp (addW (wordAt c ptr) 1))
        else scanLoop c stop fuel (addW (wordAt c ptr) wordB) >>= fun ws =>
          pure (c.word (wordAt c ptr) :: ws)
      else scanLoop c stop fuel (addW (wordAt c ptr) wordB) := by
  rw [scanLoop, if_pos hlt, if_neg (by rw [hsec]; decide)]
  rfl

/-- The page that the last word of a range is in. -/
def lastPage (stop : Nat) : Nat := (stop - 1) / pageSzB

/-- The word behind the last page is scanned. -/
def OverrunAt (c : Client) (first stop a : Nat) : Prop :=
  a = (lastPage stop + 1) * pageSzB ∧ skipsPage c first (lastPage stop) = true ∧
    c.isValidAlignedWord a = true ∧ c.faults a = false

/-- What the loop finds from `ptr` on. -/
structure Scanned (c : Client) (first stop ptr : Nat) (as : List Nat) : Prop where
  inside : ∀ a ∈ as, a % wordB = 0 ∧ ptr ≤ a ∧ (a < stop ∨ OverrunAt c first stop a)
  complete : ∀ a, Wanted c a → ptr ≤ a → a < stop → a ∈ as
  overrun : ∀ a, OverrunAt c first stop a → ptr ≤ lastPage stop * pageSzB → a ∈ as

variable {as : List Nat} {next : Nat}

/-- Nothing is found at the end of the range. -/
theorem Scanned.nil (h : stop ≤ ptr) : Scanned c first stop ptr [] := by
  refine ⟨by simp, fun a _ h₁ h₂ => by omega, fun a ha hle => ?_⟩
  have hskip := ha.2.1
  have hpos : 0 < stop := Nat.pos_of_ne_zero fun h0 => by
    rw [lastPage, h0, Nat.zero_sub, Nat.zero_div] at hskip
    exact nomatch hskip
  have hle' := (page_bounds (stop - 1)).1
  unfold lastPage at hle
  omega

/-- Something is skipped in which nothing is wanted. -/
theorem Scanned.skip (h : Scanned c first stop next as) (hle : ptr ≤ next)
    (hnone : ∀ a, Wanted c a → ptr ≤ a → a < next → False)
    (hlast : skipsPage c first (lastPage stop) = true → ptr ≤ lastPage stop * pageSzB →
      next ≤ lastPage stop * pageSzB) : Scanned c first stop ptr as := by
  refine ⟨fun a ha => ?_, fun a ha h₁ h₂ => ?_, fun a ha h₁ => h.overrun a ha (hlast ha.2.1 h₁)⟩
  · obtain ⟨h₁, h₂, h₃⟩ := h.inside a ha
    exact ⟨h₁, by omega, h₃⟩
  · by_cases hn : next ≤ a
    · exact h.complete a ha hn h₂
    · exact absurd (hnone a ha h₁ (by omega)) id

/-- A secondary map in which nothing is accessible. -/
theorem Scanned.secondary (hc : c.Paged) (hsec : c.isWithinValidSecondary ptr = false)
    (h : Scanned c first stop ((ptr / smSize + 1) * smSize) as) : Scanned c first stop ptr as := by
  have hlt : ptr < (ptr / smSize + 1) * smSize :=
    Nat.mul_comm smSize _ ▸ Nat.lt_mul_div_succ ptr (by decide)
  have hin : ∀ a, ptr ≤ a → a < (ptr / smSize + 1) * smSize → c.isWithinValidSecondary a = false := by
    intro a h₁ h₂
    have hle := Nat.div_mul_le_self ptr smSize
    have hsame : a / smSize = ptr / smSize := Nat.div_eq_of_lt_le (by omega) h₂
    rw [hc.secondary, hsame, ← hc.secondary, hsec]
  refine h.skip (by omega) (fun a ha h₁ h₂ => ?_) fun hskip h₁ => ?_
  · have := ha.secondary
    rw [hin a h₁ h₂] at this
    exact nomatch this
  · by_contra hn
    obtain ⟨-, hvalid, -⟩ := skipsPage_spec hskip
    rw [hin _ h₁ (by omega)] at hvalid
    exact nomatch hvalid

/-- A page that cannot be read has nothing that is wanted. -/
theorem Paged.not_wanted (hc : c.Paged) (hq : q % wordB = 0) (hr : c.isReadable q = false)
    (ha : Wanted c a) (hsame : a / pageSzB = q / pageSzB) : False := by
  have hra := ha.readable
  rw [hc.page a ha.aligned, hsame, ← hc.page q hq, hr] at hra
  exact nomatch hra

/-- Up to the word that is looked at nothing is wanted, and it is in the range or behind it. -/
theorem Looked.before (hc : c.Paged) (hptr : ptr % wordB = 0) (hl : Looked c first ptr q) :
    ptr ≤ q ∧ ∀ a, Wanted c a → ptr ≤ a → a < q → False := by
  rcases hl.from_ with rfl | ⟨rfl, h0, hskip⟩
  · exact ⟨Nat.le_refl _, fun a _ h₁ h₂ => by omega⟩
  · refine ⟨Nat.le_add_right _ _, fun a ha h₁ h₂ => ?_⟩
    have hpage : ptr / pageSzB * pageSzB = ptr := Nat.div_mul_cancel (Nat.dvd_of_mod_eq_zero h0)
    obtain ⟨-, -, hr, -⟩ := skipsPage_spec hskip
    rw [hpage] at hr
    refine Paged.not_wanted hc hptr hr ha (page_eq (by omega) ?_)
    rw [Nat.add_mul, Nat.one_mul, hpage]
    exact h₂

/-- If the last page is seen to be bad, the loop gets to its first word, and from there to the word
behind it. -/
theorem Looked.last (hl : Looked c first ptr q) (hskip : skipsPage c first (lastPage stop) = true)
    (hle : ptr ≤ lastPage stop * pageSzB) :
    (q = (lastPage stop + 1) * pageSzB ∧ ptr = lastPage stop * pageSzB) ∨
      (q / pageSzB + 1) * pageSzB ≤ lastPage stop * pageSzB := by
  obtain ⟨-, -, -, hnext, hprev⟩ := skipsPage_spec hskip
  have hq := hl.page
  have hne : q / pageSzB ≠ lastPage stop := fun h => by
    rw [h, hskip] at hq
    exact nomatch hq
  rcases hl.from_ with rfl | ⟨rfl, h0, hpage⟩
  · right
    refine Nat.mul_le_mul_right _ ?_
    have := Nat.div_le_div_right (c := pageSzB) hle
    rw [Nat.mul_div_cancel _ pageSzB_pos] at this
    omega
  · have heq : ptr / pageSzB * pageSzB = ptr := Nat.div_mul_cancel (Nat.dvd_of_mod_eq_zero h0)
    rw [Nat.add_div_right _ pageSzB_pos] at hne ⊢
    have hj := Nat.div_le_div_right (c := pageSzB) hle
    rw [Nat.mul_div_cancel _ pageSzB_pos] at hj
    rcases Nat.eq_or_lt_of_le hj with hj | hj
    · left
      rw [← hj, Nat.add_mul, Nat.one_mul, heq]
      exact ⟨rfl, rfl⟩
    · right
      exact Nat.mul_le_mul_right _ (by omega)

/-- The word that is looked at is scanned if `found`, and the loop goes on at `next`. -/
theorem Looked.scanned (hc : c.Paged) (hlt : ptr < stop) (hptr : ptr % wordB = 0)
    (hl : Looked c first ptr q) (hnext : q < next) (hpage : next ≤ (q / pageSzB + 1) * pageSzB)
    (hnone : ∀ a, Wanted c a → q < a → a < next → False) (h : Scanned c first stop next as)
    (found : List Nat)
    (hfound : ∀ a, a ∈ found ↔ a = q ∧ c.isValidAlignedWord q = true ∧ c.faults q = false) :
    Scanned c first stop ptr (found ++ as) := by
  obtain ⟨hle, hbefore⟩ := hl.before hc hptr
  refine ⟨fun a ha => ?_, fun a ha h₁ h₂ => ?_, fun a ha h₁ => ?_⟩
  · rcases List.mem_append.mp ha with ha | ha
    · obtain ⟨rfl, hvalid, hfault⟩ := (hfound a).mp ha
      refine ⟨hl.aligned, hle, ?_⟩
      by_cases hstop : a < stop
      · exact .inl hstop
      · -- only a page that is skipped leads out of the range
        rcases hl.from_ with rfl | ⟨rfl, h0, hskip⟩
        · exact absurd hlt hstop
        · have heq : ptr / pageSzB * pageSzB = ptr := Nat.div_mul_cancel (Nat.dvd_of_mod_eq_zero h0)
          have hlast : lastPage stop = ptr / pageSzB := by
            refine page_eq (by omega) ?_
            rw [Nat.add_mul, Nat.one_mul, heq]
            omega
          refine .inr ⟨?_, hlast ▸ hskip, hvalid, hfault⟩
          rw [hlast, Nat.add_mul, Nat.one_mul, heq]
    · obtain ⟨h₁, h₂, h₃⟩ := h.inside a ha
      exact ⟨h₁, by omega, h₃⟩
  · rw [List.mem_append]
    rcases Nat.lt_trichotomy a q with hlt' | rfl | hgt
    · exact absurd (hbefore a ha h₁ hlt') id
    · exact .inl ((hfound a).mpr ⟨rfl, ha.valid, hc.noFault a ha.readable⟩)
    · by_cases hn : next ≤ a
      · exact .inr (h.complete a ha hn h₂)
      · exact absurd (hnone a ha hgt (by omega)) id
  · rw [List.mem_append]
    rcases hl.last ha.2.1 h₁ with ⟨hq, -⟩ | hfar
    · obtain rfl : a = q := ha.1.trans hq.symm
      exact .inl ((hfound a).mpr ⟨rfl, ha.2.2⟩)
    · exact .inr (h.overrun a ha (Nat.le_trans hpage hfar))

/-- The range keeps clear of the end of the address space. -/
structure Clear (c : Client) (stop : Nat) : Prop where
  room : stop + 2 * pageSzB ≤ wordMod
  last : stop + smSize ≤ wordMod ∨ c.isWithinValidSecondary (wordMod - smSize) = true

/-- There is another secondary map behind one in which nothing is accessible. -/
theorem Clear.secondary (hc : c.Paged) (hclear : Clear c stop) (hlt : ptr < stop)
    (hsec : c.isWithinValidSecondary ptr = false) : ptr + smSize < wordMod := by
  by_contra hge
  rcases hclear.last with h | h
  · omega
  · have hroom := hclear.room
    have hsame : ptr / smSize = (wordMod - smSize) / smSize := by
      unfold smSize at hge ⊢
      rcases wordMod_cases with hw | hw <;> rw [hw] at hge hroom ⊢ <;> omega
    rw [hc.secondary, hsame, ← hc.secondary, h] at hsec
    exact nomatch hsec

/-- **The loop of `lc_scan_memory_WRK`.** -/
theorem scanLoop_spec (hc : c.Paged) (hid : c.word = id) (hclear : Clear c stop)
    (hhead : AtHead c first ptr) (hfuel : stop < ptr + fuel) (hpos : 0 < fuel) :
    ∃ as, scanLoop c stop fuel ptr = .ok as ∧ Scanned c first stop ptr as := by
  induction fuel generalizing ptr with
  | zero => omega
  | succ fuel ih =>
    by_cases hlt : ptr < stop
    · have hroom := hclear.room
      have hpg := pageSzB_pos
      cases hsec : c.isWithinValidSecondary ptr with
      | false =>
        have hnext := hclear.secondary hc hlt hsec
        have hgt : ptr < (ptr / smSize + 1) * smSize :=
          Nat.mul_comm smSize _ ▸ Nat.lt_mul_div_succ ptr (by decide)
        rw [scanLoop_invalid hlt hsec, roundUp_succ (by decide) hnext]
        obtain ⟨as, hrun, hs⟩ := ih (hhead.next_secondary hc hsec) (by omega) (by omega)
        exact ⟨as, hrun, hs.secondary hc hsec⟩
      | true =>
        have hl := hhead.looked hsec (by omega)
        rw [scanLoop_valid hlt hsec]
        generalize wordAt c ptr = q at hl ⊢
        have hq : ptr ≤ q ∧ q + pageSzB < wordMod := by
          rcases hl.from_ with rfl | ⟨rfl, -, -⟩ <;> omega
        have hw := wordB_pos
        have hwp := Nat.le_of_dvd hpg wordB_dvd_pageSzB
        have hword : addW q wordB = q + wordB := addW_of_lt (by omega)
        have hpage : pgRoundUp (addW q 1) = (q / pageSzB + 1) * pageSzB := roundUp_succ hpg hq.2
        have hend := (page_bounds q).2
        -- the next word is on the same page or begins the next one
        have hstep : q + wordB ≤ (q / pageSzB + 1) * pageSzB := aligned_le hl.aligned (page_aligned _) hend
        have hnone : ∀ a, Wanted c a → q < a → a < q + wordB → False := fun a ha h₁ h₂ => by
          have := aligned_le hl.aligned ha.aligned h₁
          omega
        rw [hword, hpage, hid]
        obtain ⟨as, hrun, hs⟩ := ih hl.next_word (by omega) (by omega)
        by_cases hvalid : c.isValidAlignedWord q = true
        · rw [if_pos hvalid]
          by_cases hfault : c.faults q = true
          · rw [if_pos hfault]
            obtain ⟨as, hrun, hs⟩ := ih (atHead_page hl.le hl.page) (by omega) (by omega)
            refine ⟨as, hrun, hl.scanned hc hlt hhead.aligned hend (Nat.le_refl _) (fun a ha h₁ h₂ => ?_)
              hs [] (by simp [hfault])⟩
            -- a page on which a word cannot be read is not readable
            have hr : c.isReadable q = false := by
              rw [← Bool.not_eq_true]
              intro hr
              rw [hc.noFault q hr] at hfault
              exact nomatch hfault
            exact Paged.not_wanted hc hl.aligned hr ha
              (page_eq (Nat.le_trans (page_bounds q).1 (Nat.le_of_lt h₁)) h₂)
          · rw [if_neg hfault, hrun]
            refine ⟨q :: as, rfl, hl.scanned hc hlt hhead.aligned (by omega) hstep hnone hs [q] ?_⟩
            simp [hvalid, hfault]
        · rw [if_neg hvalid]
          exact ⟨as, hrun, hl.scanned hc hlt hhead.aligned (by omega) hstep hnone hs []
            (by simp [hvalid])⟩
    · exact ⟨[], by rw [scanLoop, if_neg hlt]; rfl, .nil (by omega)⟩

/-! ## The scan -/

theorem skipsPage_word (f : Nat → Nat) : skipsPage { c with word := f } first k = skipsPage c first k := by
  induction k with
  | zero => rfl
  | succ k ih => simp only [skipsPage, ih]

theorem Client.Paged.word (hc : c.Paged) (f : Nat → Nat) : Client.Paged { c with word := f } :=
  ⟨hc.page, hc.secondary, hc.noFault⟩

theorem Scanned.of_word {f : Nat → Nat} (h : Scanned { c with word := f } first stop ptr as) :
    Scanned c first stop ptr as := by
  have hover : ∀ a, OverrunAt { c with word := f } first stop a ↔ OverrunAt c first stop a := fun a => by
    unfold OverrunAt
    rw [skipsPage_word]
  refine ⟨fun a ha => ?_, fun a ha => h.complete a ⟨ha.aligned, ha.readable, ha.secondary, ha.valid⟩,
    fun a ha => h.overrun a ((hover a).mpr ha)⟩
  obtain ⟨h₁, h₂, h₃⟩ := h.inside a ha
  exact ⟨h₁, h₂, h₃.imp_right (hover a).mp⟩

/-- What the words hold does not matter to the scan. -/
theorem scanLoop_word (c : Client) (stop fuel ptr : Nat) : scanLoop c stop fuel ptr =
    (scanLoop { c with word := id } stop fuel ptr >>= fun as => pure (as.map c.word)) := by
  induction fuel generalizing ptr with
  | zero => rfl
  | succ fuel ih =>
    by_cases hlt : ptr < stop
    · cases hsec : c.isWithinValidSecondary ptr with
      | false =>
        rw [scanLoop_invalid hlt hsec, scanLoop_invalid (c := { c with word := id }) hlt hsec]
        exact ih _
      | true =>
        rw [scanLoop_valid hlt hsec, scanLoop_valid (c := { c with word := id }) hlt hsec]
        change (if c.isValidAlignedWord (wordAt c ptr) = true then _ else _) =
          (if c.isValidAlignedWord (wordAt c ptr) = true then
            if c.faults (wordAt c ptr) = true then
              scanLoop { c with word := id } stop fuel (pgRoundUp (addW (wordAt c ptr) 1))
            else scanLoop { c with word := id } stop fuel (addW (wordAt c ptr) wordB) >>= fun ws =>
              pure (wordAt c ptr :: ws)
          else scanLoop { c with word := id } stop fuel (addW (wordAt c ptr) wordB)) >>= _
        split
        · split
          · exact ih _
          · rw [ih, bind_assoc, bind_assoc]
            rfl
        · exact ih _
    · rw [scanLoop, if_neg hlt, scanLoop, if_neg hlt]
      rfl

/-- `lc_scan_memory_WRK` hands the words at the addresses that it finds to the mark stack. -/
theorem lcScanMemoryWRK_eq {ε : Type} (c : Client) (shadows : List (McChunk ε)) (start len : Nat)
    (clique : Option Nat) (lc : Lc) : lcScanMemoryWRK c shadows start len clique lc =
      (scanAddrs c start len >>= fun as =>
        (as.map c.word).foldlM (lcMarkstackPushWRK c shadows clique) lc) := by
  rw [lcScanMemoryWRK, scanWords, scanLoop_word, bind_assoc]
  rfl

/-- The first page of a range is not among those that are seen to be bad in the loop. -/
theorem skipsPage_first : skipsPage c first (first / pageSzB) = false := by
  by_contra hskip
  have hlt := (skipsPage_spec (Bool.not_eq_false _ ▸ hskip)).1
  have hle := (page_bounds first).1
  omega

/-- What the scan of a range finds. -/
theorem scanAddrs_spec (hc : c.Paged) (hclear : Clear c (start + len)) :
    ∃ as, scanAddrs c start len = .ok as ∧
      Scanned c (roundUp start wordB) (roundDn (start + len) wordB) (roundUp start wordB) as := by
  obtain ⟨first, hfirst⟩ : ∃ first, first = roundUp start wordB := ⟨_, rfl⟩
  obtain ⟨stop, hstop⟩ : ∃ stop, stop = roundDn (start + len) wordB := ⟨_, rfl⟩
  have hroom := hclear.room
  have hpg := pageSzB_pos
  have hwp := Nat.le_of_dvd hpg wordB_dvd_pageSzB
  have hle : stop ≤ start + len := hstop ▸ roundDn_le _ _
  have hal : first % wordB = 0 := hfirst ▸ Nat.mod_eq_zero_of_dvd (roundDn_dvd _ _)
  have hlt : first < wordMod - pageSzB := by
    have := roundDn_le (addW start (wordB - 1)) wordB
    have := addW_of_lt (a := start) (b := wordB - 1) (by omega)
    unfold roundUp at hfirst
    omega
  have hclear' : Clear { c with word := id } stop :=
    ⟨by omega, hclear.last.imp (fun h => by omega) id⟩
  rw [scanAddrs, scanWords, addW_of_lt (by omega), ← hfirst, ← hstop]
  dsimp only
  suffices h : ∀ ptr, AtHead { c with word := id } first ptr →
      ∃ as, scanLoop { c with word := id } stop wordMod ptr = .ok as ∧ Scanned c first stop ptr as by
    cases hread : c.isReadable first with
    | true =>
      rw [if_neg (by decide)]
      exact h first ⟨hal, Nat.le_refl _, fun _ => skipsPage_first, fun _ => .inr ⟨rfl, hread⟩⟩
    | false =>
      rw [if_pos rfl, pgRoundUp, roundUp_succ hpg (by omega)]
      obtain ⟨as, hrun, hs⟩ := h _ (atHead_page (Nat.le_refl _) skipsPage_first)
      refine ⟨as, hrun, hs.skip (Nat.le_of_lt (page_bounds first).2) (fun a ha h₁ h₂ => ?_) fun hskip _ => ?_⟩
      · exact Paged.not_wanted hc hal hread ha (page_eq (Nat.le_trans (page_bounds first).1 h₁) h₂)
      · refine Nat.mul_le_mul_right _ ?_
        have hlast := (skipsPage_spec hskip).1
        by_contra hn
        have := Nat.mul_le_mul_right pageSzB (Nat.le_of_lt_succ (Nat.not_le.mp hn))
        have := (page_bounds first).1
        omega
  intro ptr hhead
  obtain ⟨as, hrun, hs⟩ := scanLoop_spec (hc.word id) rfl hclear' hhead (Nat.lt_add_left ptr (by omega : stop < wordMod))
    wordMod_pos
  exact ⟨as, hrun, hs.of_word⟩

/-- Whole words of a range lie between its first word and its end. -/
theorem word_in_range (ha : a % wordB = 0) (hstart : start + wordB ≤ wordMod) :
    (roundUp start wordB ≤ a ∧ a < roundDn (start + len) wordB) ↔ start ≤ a ∧ a + wordB ≤ start + len := by
  have hw := wordB_pos
  rw [roundUp, addW_of_lt (by omega)]
  unfold roundDn
  rcases word_ok with h | h <;> rw [h] at ha ⊢ <;> omega

/-- If nothing is accessible in the last secondary map, a range that has more than one word of it
is scanned for ever: the pointer wraps around to 0. -/
theorem scanLoop_diverges (hc : c.Paged)
    (hvalid : ∀ a, c.isValidAlignedWord a = true → c.isWithinValidSecondary a = true)
    (hlast : c.isWithinValidSecondary (wordMod - smSize) = false)
    (hstop : wordMod - smSize + wordB < stop) (hmax : stop < wordMod) (hptr : ptr < stop) :
    scanLoop c stop fuel ptr = .error .diverge := by
  obtain ⟨n, hn⟩ : ∃ n, wordMod - smSize = n * pageSzB := by
    unfold smSize
    rcases wordMod_cases with hw | hw <;> rcases page_ok with hp | hp <;> rw [hw, hp] <;>
      exact ⟨_, (Nat.div_mul_cancel (by decide)).symm⟩
  have hw := wordB_pos
  have hpg := pageSzB_pos
  have hlarge : smSize + pageSzB + wordB < wordMod := by
    unfold smSize
    rcases wordMod_cases with hw | hw <;> rcases page_ok with hp | hp <;> rcases word_ok with hb | hb <;>
      rw [hw, hp, hb] <;> decide
  have hps : pageSzB ≤ smSize := Nat.le_of_dvd (by decide) pageSzB_dvd_smSize
  -- what is in a valid secondary is below the last one
  have hbelow : ∀ a < wordMod, c.isWithinValidSecondary a = true → a < wordMod - smSize := by
    intro a ha hsec
    by_contra hge
    have hsame : a / smSize = (wordMod - smSize) / smSize := by
      unfold smSize at hge ⊢
      rcases wordMod_cases with hw | hw <;> rw [hw] at hge ha ⊢ <;> omega
    rw [hc.secondary, hsame, ← hc.secondary, hlast] at hsec
    exact nomatch hsec
  induction fuel generalizing ptr with
  | zero => rfl
  | succ fuel ih =>
    cases hsec : c.isWithinValidSecondary ptr with
    | false =>
      rw [scanLoop_invalid hptr hsec]
      refine ih ?_
      by_cases hlow : ptr < wordMod - smSize
      · rw [roundUp_succ (by decide) (by omega)]
        unfold smSize at hlow hstop ⊢
        rcases wordMod_cases with hw' | hw' <;> rw [hw'] at hlow hstop <;> omega
      · have hone : addW ptr 1 = ptr + 1 := addW_of_lt (by omega)
        have hwrap : addW (ptr + 1) (smSize - 1) = ptr + smSize - wordMod := by
          rw [addW_of_ge (by omega) (by omega) (by unfold smSize at hlow ⊢; omega)]
          unfold smSize
          omega
        have hle := roundDn_le (ptr + smSize - wordMod) smSize
        rw [roundUp, hone, hwrap]
        omega
    | true =>
      have hlow := hbelow ptr (by omega) hsec
      have hq : wordAt c ptr ≤ wordMod - smSize := by
        unfold wordAt
        split
        · rename_i hbad
          have heq : ptr / pageSzB * pageSzB = ptr := Nat.div_mul_cancel (Nat.dvd_of_mod_eq_zero hbad.1)
          have hlow' : ptr / pageSzB * pageSzB < n * pageSzB := by omega
          rw [addW_of_lt (by omega), hn]
          calc ptr + pageSzB = (ptr / pageSzB + 1) * pageSzB := by rw [Nat.add_mul, Nat.one_mul, heq]
            _ ≤ n * pageSzB := Nat.mul_le_mul_right _ (Nat.lt_of_mul_lt_mul_right hlow')
        · omega
      rw [scanLoop_valid hptr hsec]
      generalize wordAt c ptr = q at hq ⊢
      have hword : addW q wordB = q + wordB := addW_of_lt (by omega)
      have hih : scanLoop c stop fuel (q + wordB) = .error .diverge := ih (by omega)
      rw [hword, hih]
      split
      · rename_i hv
        split
        · refine ih ?_
          have hlt := hbelow q (by omega) (hvalid q hv)
          rw [pgRoundUp, roundUp_succ hpg (by omega)]
          have hdiv : (q / pageSzB + 1) * pageSzB ≤ n * pageSzB := by
            refine Nat.mul_le_mul_right _ (Nat.div_lt_of_lt_mul ?_)
            rw [Nat.mul_comm]
            omega
          omega
        · rfl
      · rfl

/-! ## Two ranges -/

/-- A client whose third page cannot be read, and which holds a valid word behind it. -/
def gapClient : Client where
  isValid _ := true
  isReadable a := decide (a / 4096 ≠ 2)
  isWithinValidSecondary _ := true
  isValidAlignedWord a := decide (a = 0x3000)
  word _ := 0
  faults a := decide (a / 4096 = 2)

omit [Machine] in
theorem paged_gapClient :
    letI : Machine := x86Linux
    gapClient.Paged := by
  let _ : Machine := x86Linux
  refine ⟨fun a _ => ?_, fun _ => rfl, fun a ha => ?_⟩
  · change decide (a / 4096 ≠ 2) = decide (a / 4096 * 4096 / 4096 ≠ 2)
    rw [Nat.mul_div_cancel _ (by decide)]
  · simpa [gapClient] using ha

omit [Machine] in
/-- Low ranges keep clear of the end of the address space. -/
theorem clear_gapClient (n : Nat) (hn : n ≤ 0x3000) :
    letI : Machine := x86Linux
    Clear gapClient n := by
  let _ : Machine := x86Linux
  exact ⟨Nat.le_trans (Nat.add_le_add_right hn _) (by decide), .inr rfl⟩

end Memcheck

end Valgrind
