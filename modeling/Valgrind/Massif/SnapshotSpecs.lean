import Valgrind.Massif.Snapshots

/-!
# Massif: what culling does

`cull_snapshots` on a full table whose times are in order returns: it takes half of the
entries out of the table, none of them the first, the last or a peak (`Culled`), and leaves
the others in their order at the beginning of the array.
-/

namespace Valgrind.Massif

/-! ## Loops -/

section Loops

variable {β : Type}

/-- A counting loop all of whose steps return, and what they keep. -/
theorem foldlM_range' {f : β → Nat → Checked β} {I : Nat → β → Prop} {a n : Nat} {b : β} (h : I a b)
    (hstep : ∀ {i b}, a ≤ i → i < a + n → I i b → ∃ b', f b i = .ok b' ∧ I (i + 1) b') :
    ∃ b', (List.range' a n).foldlM f b = .ok b' ∧ I (a + n) b' := by
  induction n generalizing a b with
  | zero => exact ⟨b, rfl, h⟩
  | succ n ih =>
    obtain ⟨b₁, h₁, hI₁⟩ := hstep (Nat.le_refl a) (by omega) h
    obtain ⟨b₂, h₂, hI₂⟩ := ih hI₁ fun hle hlt hI => hstep (by omega) (by omega) hI
    refine ⟨b₂, ?_, by rwa [show a + (n + 1) = a + 1 + n by omega]⟩
    rw [List.range'_succ, List.foldlM_cons, h₁, ok_bind, h₂]

/-- What the steps of a counting loop keep if they return. -/
theorem foldlM_range'_inv {f : β → Nat → Checked β} {I : Nat → β → Prop} {a n : Nat} {b b' : β} (h : I a b)
    (hstep : ∀ {i b b'}, i < a + n → I i b → f b i = .ok b' → I (i + 1) b')
    (hrun : (List.range' a n).foldlM f b = .ok b') : I (a + n) b' := by
  induction n generalizing a b with
  | zero =>
    obtain rfl : b = b' := by simpa [pure, Except.pure] using hrun
    exact h
  | succ n ih =>
    rw [List.range'_succ, List.foldlM_cons, bind_eq_ok] at hrun
    obtain ⟨b₁, h₁, hrun⟩ := hrun
    have hI := ih (hstep (by omega) h h₁) (fun hlt hI => hstep (by omega) hI) hrun
    rwa [show a + (n + 1) = a + 1 + n by omega]

end Loops

/-! ## Entries in use -/

section Entries

variable {l : List Snapshot} {s : Snapshot} {i j : Nat}

/-- The entry is in use. -/
def inUse (s : Snapshot) : Bool := s.kind ≠ .unused

/-- The entry is a peak. -/
def isPeak (s : Snapshot) : Bool := s.kind = .peak

/-- An entry that is not in use is clear, and one that is has a time. -/
def Tidy (s : Snapshot) : Prop := if s.kind = .unused then s = clearSnapshot else 0 ≤ s.time ∧ s.time ≤ maxTime

theorem tidy_clear : Tidy clearSnapshot := rfl

theorem Tidy.eq_clear (h : Tidy s) (hs : inUse s = false) : s = clearSnapshot := by
  have hkind : s.kind = .unused := by simpa [inUse] using hs
  rwa [Tidy, if_pos hkind] at h

theorem Tidy.time (h : Tidy s) (hs : inUse s = true) : 0 ≤ s.time ∧ s.time ≤ maxTime := by
  have hkind : s.kind ≠ .unused := by simpa [inUse] using hs
  rwa [Tidy, if_neg hkind] at h

/-- `is_snapshot_in_use` of a tidy entry. -/
theorem isSnapshotInUse_of (h : Tidy s) : isSnapshotInUse s = .ok (inUse s) := by
  cases hs : inUse s with
  | false =>
    rw [h.eq_clear hs]
    rfl
  | true =>
    have htime := h.time hs
    have hkind : s.kind ≠ .unused := by simpa [inUse] using hs
    have hne : s.time ≠ unusedSnapshotTime := by
      unfold unusedSnapshotTime
      omega
    rw [isSnapshotInUse, if_neg hkind, tlAssert_of hne]
    rfl

/-- The entries in use. -/
def entries (l : List Snapshot) : List Snapshot := l.filter inUse

@[simp] theorem entries_nil : entries [] = [] := rfl

@[simp] theorem entries_append {l l' : List Snapshot} : entries (l ++ l') = entries l ++ entries l' := List.filter_append ..

@[simp] theorem entries_clear {n : Nat} : entries (List.replicate n clearSnapshot) = [] := by
  rw [entries, List.filter_eq_nil_iff]
  intro s hs
  rw [List.eq_of_mem_replicate hs]
  decide

theorem entries_cons_used (h : inUse s = true) : entries (s :: l) = s :: entries l := List.filter_cons_of_pos h

theorem entries_cons_unused (h : inUse s = false) : entries (s :: l) = entries l :=
  List.filter_cons_of_neg (by simp [h])

/-- The table around one of its entries. -/
theorem entries_split (hs : l[i]? = some s) :
    entries l = entries (l.take i) ++ entries (s :: l.drop (i + 1)) := by
  obtain ⟨hlt, hget⟩ := List.getElem?_eq_some_iff.mp hs
  rw [← entries_append, ← hget, ← List.drop_eq_getElem_cons hlt, List.take_append_drop]

theorem mem_entries_of_getElem? (hs : l[i]? = some s) (h : inUse s = true) : s ∈ entries l :=
  List.mem_filter.mpr ⟨List.mem_of_getElem? hs, h⟩

/-- The entries in use from number `i` on, with their numbers. -/
def live (l : List Snapshot) (i : Nat) : List (Nat × Snapshot) :=
  ((l.drop i).zipIdx i |>.map Prod.swap).filter fun e => inUse e.2

theorem live_of_le (h : l.length ≤ i) : live l i = [] := by
  rw [live, List.drop_of_length_le h]
  rfl

theorem live_step (hs : l[i]? = some s) :
    live l i = if inUse s then (i, s) :: live l (i + 1) else live l (i + 1) := by
  obtain ⟨hlt, rfl⟩ := List.getElem?_eq_some_iff.mp hs
  rw [live, List.drop_eq_getElem_cons hlt, List.zipIdx_cons, List.map_cons, List.filter_cons]
  rfl

theorem map_live (l : List Snapshot) (i : Nat) : (live l i).map Prod.snd = entries (l.drop i) := by
  rw [live, entries]
  generalize l.drop i = r
  induction r generalizing i with
  | nil => rfl
  | cons s r ih =>
    rw [List.zipIdx_cons, List.map_cons, List.filter_cons, List.filter_cons]
    split
    · next h => rw [if_pos (by exact h), List.map_cons, ih]; rfl
    · next h => rw [if_neg (by exact h), ih]

/-- The first of the entries in use, and those after it. -/
theorem live_cons {rest : List (Nat × Snapshot)} (h : live l i = (j, s) :: rest) :
    i ≤ j ∧ l[j]? = some s ∧ inUse s = true ∧ live l j = (j, s) :: rest ∧ live l (j + 1) = rest := by
  induction hk : l.length - i generalizing i with
  | zero =>
    rw [live_of_le (by omega)] at h
    exact nomatch h
  | succ k ih =>
    have hs := List.getElem?_eq_getElem (show i < l.length by omega)
    rw [live_step hs] at h
    split at h
    · next hused =>
      obtain ⟨⟨rfl, rfl⟩, rfl⟩ : (i = j ∧ l[i] = s) ∧ live l (i + 1) = rest := by simpa using h
      exact ⟨Nat.le_refl _, hs, hused, by rw [live_step hs, if_pos hused], rfl⟩
    · obtain ⟨hle, hrest⟩ := ih h (by omega)
      exact ⟨by omega, hrest⟩

theorem mem_live {e : Nat × Snapshot} (h : e ∈ live l i) : i ≤ e.1 ∧ l[e.1]? = some e.2 ∧ inUse e.2 = true := by
  obtain ⟨hmem, hused⟩ := List.mem_filter.mp h
  obtain ⟨⟨s, k⟩, hzip, rfl⟩ := List.mem_map.mp hmem
  obtain ⟨hle, hget⟩ := List.mem_zipIdx_iff_le_and_getElem?_sub.mp hzip
  refine ⟨hle, ?_, hused⟩
  rw [List.getElem?_drop, Nat.add_sub_cancel' hle] at hget
  exact hget

/-- The number of the first of these entries, or one after the end of the array. -/
def IsFirst (l : List Snapshot) (j : Nat) : List (Nat × Snapshot) → Prop
  | [] => l.length ≤ j
  | e :: _ => j = e.1

/-- `FIND_SNAPSHOT`: the first entry in use, or the end of the array. -/
theorem findSnapshot_spec (h : ∀ s ∈ l, Tidy s) (i : Nat) :
    ∃ j, findSnapshot l i = .ok j ∧ IsFirst l j (live l i) := by
  induction hk : l.length - i generalizing i with
  | zero =>
    have hle : l.length ≤ i := by omega
    refine ⟨i, by rw [findSnapshot, List.drop_of_length_le hle, findFrom], ?_⟩
    rw [live_of_le hle]
    exact hle
  | succ k ih =>
    have hlt : i < l.length := by omega
    have hs := List.getElem?_eq_getElem hlt
    rw [live_step hs, findSnapshot, List.drop_eq_getElem_cons hlt, findFrom,
      isSnapshotInUse_of (h _ (List.getElem_mem hlt)), ok_bind]
    split
    · exact ⟨i, rfl, rfl⟩
    · exact ih (i + 1) (by omega)

end Entries

/-! ## The smallest timespan -/

section Smallest

variable {l : List Snapshot} {best best' : Int × Option Nat}

/-- Take the middle of a triple if its timespan is smaller and it is no peak. -/
def better (p c n : Nat × Snapshot) (best : Int × Option Nat) : Int × Option Nat :=
  if c.2.kind ≠ .peak ∧ n.2.time - p.2.time < best.1 then (n.2.time - p.2.time, some c.1) else best

/-- The smallest timespan of the triples of neighbours. -/
def scan : List (Nat × Snapshot) → Int × Option Nat → Int × Option Nat
  | p :: c :: n :: rest, best => scan (c :: n :: rest) (better p c n best)
  | _, best => best

/-- The entries are in the order of their times. -/
def InOrder (l : List Snapshot) : Prop := l.Pairwise fun s t => s.time ≤ t.time

/-- The difference of two times does not overflow. -/
theorem timespan_of {s t : Snapshot} (hs : 0 ≤ s.time ∧ s.time ≤ maxTime) (ht : 0 ≤ t.time ∧ t.time ≤ maxTime) :
    sSizeT (t.time - s.time) = t.time - s.time := by
  have hmax : maxTime = 2 ^ 63 - 1 := by decide
  exact sSizeT_of (by omega) (by omega)

/-- The loop over the triples is `scan`. -/
theorem scanTriples_spec (best : Int × Option Nat) (htidy : ∀ s ∈ l, Tidy s) (horder : InOrder (entries l)) {fuel jp j jn : Nat}
    {p s : Snapshot} {rest : List (Nat × Snapshot)} (hlive : live l jp = (jp, p) :: (j, s) :: rest)
    (hfuel : rest.length < fuel) (hjn : IsFirst l jn rest) :
    scanTriples l fuel jp j jn best = .ok (scan ((jp, p) :: (j, s) :: rest) best) := by
  induction rest generalizing fuel jp j jn p s best with
  | nil =>
    obtain ⟨fuel, rfl⟩ : ∃ k, fuel = k + 1 := ⟨fuel - 1, by omega⟩
    rw [scanTriples, if_neg (Nat.not_lt.mpr hjn)]
    rfl
  | cons e rest ih =>
    obtain ⟨n, t⟩ := e
    obtain rfl : jn = n := hjn
    obtain ⟨fuel, rfl⟩ : ∃ k, fuel = k + 1 := ⟨fuel - 1, by omega⟩
    obtain ⟨-, hp, hpu, -, htail⟩ := live_cons hlive
    obtain ⟨-, hs, hsu, hself, htail'⟩ := live_cons htail
    obtain ⟨-, ht, htu, -, htail''⟩ := live_cons htail'
    have hlt := (List.getElem?_eq_some_iff.mp ht).1
    have hle : p.time ≤ t.time := by
      have hin : InOrder (entries (l.drop jp)) :=
        List.Pairwise.sublist ((List.drop_sublist jp l).filter _) horder
      rw [← map_live, hlive] at hin
      exact (List.pairwise_cons.mp hin).1 t (by simp)
    have hspan := timespan_of ((htidy p (List.mem_of_getElem? hp)).time hpu) ((htidy t (List.mem_of_getElem? ht)).time htu)
    obtain ⟨jnn, hfind, hjnn⟩ := findSnapshot_spec htidy (jn + 1)
    rw [htail''] at hjnn
    rw [scanTriples, if_pos hlt, readSnapshot, hp, ok_bind, readSnapshot, hs, ok_bind, readSnapshot, ht, ok_bind]
    simp only [hspan]
    rw [tlAssert_of (by omega), ok_bind, hfind, ok_bind, ih _ hself (by simpa using hfuel) hjnn]
    rfl

/-- What `scan` has found is the middle of a triple. -/
theorem scan_chosen (xs : List (Nat × Snapshot)) :
    (scan xs best).2 = best.2 ∨ ∃ A p c n B, xs = A ++ p :: c :: n :: B ∧ (scan xs best).2 = some c.1 ∧
      c.2.kind ≠ .peak := by
  induction xs, best using scan.induct with
  | case1 p c n rest best ih =>
    rw [scan]
    rcases ih with h | ⟨A, p', c', n', B, hxs, hchosen⟩
    · by_cases hbetter : c.2.kind ≠ .peak ∧ n.2.time - p.2.time < best.1
      · rw [better, if_pos hbetter] at h ⊢
        exact .inr ⟨[], p, c, n, rest, rfl, h, hbetter.1⟩
      · rw [better, if_neg hbetter] at h ⊢
        exact .inl h
    · exact .inr ⟨p :: A, p', c', n', B, by rw [hxs, List.cons_append], hchosen⟩
  | case2 xs best h =>
    left
    rw [scan]
    exact h

theorem scan_le (xs : List (Nat × Snapshot)) : (scan xs best).1 ≤ best.1 := by
  induction xs, best using scan.induct with
  | case1 p c n rest best ih =>
    rw [scan]
    refine ih.trans ?_
    unfold better
    split
    · next h => exact h.2.le
    · exact le_refl _
  | case2 xs best h =>
    rw [scan]
    · exact h

/-- `scan` finds no more than the timespan of any triple. -/
theorem scan_le_timespan (best : Int × Option Nat) {A B : List (Nat × Snapshot)} {p c n : Nat × Snapshot} (hc : c.2.kind ≠ .peak) :
    (scan (A ++ p :: c :: n :: B) best).1 ≤ n.2.time - p.2.time := by
  induction A generalizing best with
  | nil =>
    rw [List.nil_append, scan]
    refine (scan_le _).trans ?_
    unfold better
    split
    · exact le_refl _
    · next h => exact Int.not_lt.mp fun hlt => h ⟨hc, hlt⟩
  | cons e A ih =>
    obtain ⟨e', e'', rest, hrest⟩ : ∃ e' e'' rest, A ++ p :: c :: n :: B = e' :: e'' :: rest := by
      cases A with
      | nil => exact ⟨_, _, _, rfl⟩
      | cons a A =>
        cases A with
        | nil => exact ⟨_, _, _, rfl⟩
        | cons b A => exact ⟨_, _, _, rfl⟩
    rw [List.cons_append, hrest, scan, ← hrest]
    exact ih _

/-- While nothing has been found, the smallest timespan is the one of the beginning. -/
theorem scan_none (xs : List (Nat × Snapshot)) (h : (scan xs best).2 = none) : scan xs best = best := by
  induction xs, best using scan.induct with
  | case1 p c n rest best ih =>
    rw [scan] at h ⊢
    have heq := ih h
    by_cases hbetter : c.2.kind ≠ .peak ∧ n.2.time - p.2.time < best.1
    · rw [better, if_pos hbetter] at heq
      rw [better, if_pos hbetter, heq] at h
      exact nomatch h
    · rwa [better, if_neg hbetter] at heq ⊢
  | case2 xs best hxs =>
    rw [scan]
    exact hxs

/-- Two timespans that do not overlap cannot both be the largest one, so something is found
among six entries, of which one is a peak at most. -/
theorem scan_finds {xs : List (Nat × Snapshot)} (hlen : 6 ≤ xs.length)
    (hpeak : (xs.filter fun e => isPeak e.2).length ≤ 1)
    (htime : ∀ e ∈ xs, 0 ≤ e.2.time ∧ e.2.time ≤ maxTime) : (scan xs (maxTime, none)).2 ≠ none := by
  intro hnone
  have hspan : ∀ {A B : List (Nat × Snapshot)} {p c n : Nat × Snapshot}, xs = A ++ p :: c :: n :: B →
      c.2.kind ≠ .peak → maxTime ≤ n.2.time - p.2.time := by
    intro A B p c n hxs hc
    have hle := scan_le_timespan (maxTime, none) (A := A) (B := B) (p := p) (n := n) hc
    rwa [← hxs, scan_none xs hnone] at hle
  have hmax : maxTime = 2 ^ 63 - 1 := by decide
  obtain ⟨x₀, x₁, x₂, x₃, x₄, x₅, rest, rfl⟩ : ∃ x₀ x₁ x₂ x₃ x₄ x₅ rest, xs = x₀ :: x₁ :: x₂ :: x₃ :: x₄ :: x₅ :: rest := by
    match xs, hlen with
    | x₀ :: x₁ :: x₂ :: x₃ :: x₄ :: x₅ :: rest, _ => exact ⟨x₀, x₁, x₂, x₃, x₄, x₅, rest, rfl⟩
  have h₁ := hspan (A := []) (n := x₂) rfl
  have h₂ := hspan (A := [x₀]) (n := x₃) rfl
  have h₃ := hspan (A := [x₀, x₁]) (n := x₄) rfl
  have h₄ := hspan (A := [x₀, x₁, x₂]) (n := x₅) rfl
  have t₀ := htime x₀ (by simp)
  have t₁ := htime x₁ (by simp)
  have t₄ := htime x₄ (by simp)
  have t₅ := htime x₅ (by simp)
  have t₂ := htime x₂ (by simp)
  have t₃ := htime x₃ (by simp)
  -- the first and the third are no peaks, or else the second and the fourth
  by_cases hodd : x₁.2.kind ≠ .peak ∧ x₃.2.kind ≠ .peak
  · have := h₁ hodd.1
    have := h₃ hodd.2
    omega
  · have heven : x₂.2.kind ≠ .peak ∧ x₄.2.kind ≠ .peak := by
      by_contra heven
      have hsub : List.Sublist [x₁, x₂, x₃, x₄] (x₀ :: x₁ :: x₂ :: x₃ :: x₄ :: x₅ :: rest) := by
        refine List.Sublist.cons x₀ ?_
        exact List.sublist_append_left [x₁, x₂, x₃, x₄] (x₅ :: rest)
      have hle := (hsub.filter fun e => isPeak e.2).length_le
      have htwo : 2 ≤ ([x₁, x₂, x₃, x₄].filter fun e => isPeak e.2).length := by
        rw [← List.countP_eq_length_filter]
        simp only [List.countP_cons, List.countP_nil, isPeak]
        grind
      omega
    have := h₂ heven.1
    have := h₄ heven.2
    omega

/-! ### One deletion -/

/-- So many entries have been taken out of the table, but not the first, not the last and no
peak, and the others are in their old order. -/
structure Culled (n : Nat) (old new : List Snapshot) : Prop where
  sublist : new.Sublist old
  count : new.length + n = old.length
  first : new.head? = old.head?
  last : new.getLast? = old.getLast?
  peak : new.filter isPeak = old.filter isPeak

theorem Culled.refl {old : List Snapshot} : Culled 0 old old := ⟨.refl _, rfl, rfl, rfl, rfl⟩

theorem Culled.trans {m n : Nat} {old mid new : List Snapshot} (h : Culled m old mid) (h' : Culled n mid new) :
    Culled (m + n) old new where
  sublist := h'.sublist.trans h.sublist
  count := by
    have h₁ := h.count
    have h₂ := h'.count
    omega
  first := h'.first.trans h.first
  last := h'.last.trans h.last
  peak := h'.peak.trans h.peak

/-- One entry between two others. -/
theorem culled_one {A B : List Snapshot} {s : Snapshot} (hA : A ≠ []) (hB : B ≠ []) (hs : isPeak s = false) :
    Culled 1 (A ++ s :: B) (A ++ B) where
  sublist := List.Sublist.append (.refl A) (List.sublist_cons_self s B)
  count := by
    simp only [List.length_append, List.length_cons]
    omega
  first := by
    obtain ⟨a, A, rfl⟩ := List.exists_cons_of_ne_nil hA
    rfl
  last := by
    rw [List.getLast?_append_of_ne_nil _ hB, List.getLast?_append_of_ne_nil _ (List.cons_ne_nil s B),
      List.getLast?_cons, List.getLast?_eq_getLast_of_ne_nil hB]
    rfl
  peak := by
    rw [List.filter_append, List.filter_append, List.filter_cons_of_neg (by simp [hs])]

theorem live_pairwise (l : List Snapshot) (i : Nat) : (live l i).Pairwise fun e e' => e.1 < e'.1 := by
  induction hk : l.length - i generalizing i with
  | zero =>
    rw [live_of_le (by omega)]
    exact List.Pairwise.nil
  | succ k ih =>
    rw [live_step (List.getElem?_eq_getElem (show i < l.length by omega))]
    have hrest := ih (i + 1) (by omega)
    split
    · exact List.pairwise_cons.mpr ⟨fun e he => (mem_live he).1, hrest⟩
    · exact hrest

/-- What the table is like before and between the deletions. -/
structure Cullable (l : List Snapshot) : Prop where
  tidy : ∀ s ∈ l, Tidy s
  order : InOrder (entries l)
  first : ∃ s, l[0]? = some s ∧ inUse s = true
  last : ∃ s, l.getLast? = some s ∧ inUse s = true
  peak : ((entries l).filter isPeak).length ≤ 1

/-- **One deletion**: if there are six entries, one is found and taken out. -/
theorem deleteSmallest_spec (h : Cullable l) (hlen : 6 ≤ (entries l).length) :
    ∃ l', deleteSmallest l = .ok l' ∧ l'.length = l.length ∧ Cullable l' ∧ Culled 1 (entries l) (entries l') := by
  obtain ⟨s₀, hs₀, hu₀⟩ := h.first
  have hmap : (live l 0).map Prod.snd = entries l := by rw [map_live, List.drop_zero]
  have hlive : live l 0 = (0, s₀) :: live l 1 := by rw [live_step hs₀, if_pos hu₀]
  have hcount : (entries l).length = (live l 0).length := by rw [← hmap, List.length_map]
  obtain ⟨⟨j, s₁⟩, rest, hrest⟩ : ∃ e rest, live l 1 = e :: rest := by
    refine List.exists_cons_of_ne_nil fun hnil => ?_
    rw [hcount, hlive, hnil, List.length_singleton] at hlen
    omega
  obtain ⟨j', hfind, hj⟩ := findSnapshot_spec h.tidy 1
  rw [hrest] at hj
  obtain rfl : j' = j := hj
  obtain ⟨jn, hfindn, hjn⟩ := findSnapshot_spec h.tidy (j' + 1)
  rw [(live_cons hrest).2.2.2.2] at hjn
  have hfuel : rest.length < l.length := by
    have hle := List.length_filter_le inUse l
    rw [hlive, hrest, List.length_cons, List.length_cons] at hcount
    unfold entries at hcount
    omega
  have hscan := scanTriples_spec (maxTime, none) h.tidy h.order (hlive.trans (by rw [hrest])) hfuel hjn
  have hfinds : (scan (live l 0) (maxTime, none)).2 ≠ none := by
    refine scan_finds (hcount ▸ hlen) ?_ fun e he => ?_
    · have hpeak := h.peak
      rwa [← hmap, List.filter_map, List.length_map] at hpeak
    · obtain ⟨-, hget, hused⟩ := mem_live he
      exact (h.tidy _ (List.mem_of_getElem? hget)).time hused
  obtain ⟨A, p, c, n, B, hsplit, hchosen, hc⟩ := (scan_chosen (live l 0)).resolve_left hfinds
  have hmem : ∀ {e}, e ∈ A ++ p :: c :: n :: B → l[e.1]? = some e.2 ∧ inUse e.2 = true :=
    fun he => (mem_live (hsplit ▸ he)).2
  obtain ⟨hgetp, hup⟩ := hmem (e := p) (by simp)
  obtain ⟨hgetc, huc⟩ := hmem (e := c) (by simp)
  obtain ⟨hgetn, hun⟩ := hmem (e := n) (by simp)
  have hpair := live_pairwise l 0
  rw [hsplit, List.pairwise_append] at hpair
  obtain ⟨hp, hcn⟩ := List.pairwise_cons.mp hpair.2.1
  have hpc : p.1 < c.1 := hp c (by simp)
  have hcn : c.1 < n.1 := (List.pairwise_cons.mp hcn).1 n (by simp)
  have hltc := (List.getElem?_eq_some_iff.mp hgetc).1
  have hold : entries l = entries (l.take c.1) ++ c.2 :: entries (l.drop (c.1 + 1)) := by
    rw [entries_split hgetc, entries_cons_used huc]
  have hnew : entries (l.set c.1 clearSnapshot) = entries (l.take c.1) ++ entries (l.drop (c.1 + 1)) := by
    rw [entries_split (List.getElem?_set_self hltc), List.take_set_of_le (Nat.le_refl _),
      List.drop_set_of_lt (Nat.lt_succ_self _), entries_cons_unused rfl]
  have hculled : Culled 1 (entries l) (entries (l.set c.1 clearSnapshot)) := by
    rw [hold, hnew]
    refine culled_one (List.ne_nil_of_mem (a := p.2) ?_) (List.ne_nil_of_mem (a := n.2) ?_) (by simpa [isPeak] using hc)
    · exact mem_entries_of_getElem? (i := p.1) (by rw [List.getElem?_take_of_lt hpc, hgetp]) hup
    · refine mem_entries_of_getElem? (i := n.1 - (c.1 + 1)) ?_ hun
      rw [List.getElem?_drop, show c.1 + 1 + (n.1 - (c.1 + 1)) = n.1 by omega, hgetn]
  refine ⟨l.set c.1 clearSnapshot, ?_, List.length_set, ?_, hculled⟩
  · rw [deleteSmallest, hfind, ok_bind, hfindn, ok_bind, hscan, ok_bind, ← hrest, ← hlive, hchosen]
  · obtain ⟨z, hz, huz⟩ := h.last
    have hltn := (List.getElem?_eq_some_iff.mp hgetn).1
    refine ⟨fun s hs => ?_, h.order.sublist hculled.sublist, ⟨s₀, ?_, hu₀⟩, ⟨z, ?_, huz⟩, by rw [hculled.peak]; exact h.peak⟩
    · rcases List.mem_or_eq_of_mem_set hs with hs | rfl
      · exact h.tidy s hs
      · exact tidy_clear
    · rw [List.getElem?_set_ne (by omega), hs₀]
    · rw [List.getLast?_eq_getElem?, List.length_set, List.getElem?_set_ne (by omega), ← List.getLast?_eq_getElem?, hz]

/-- **The deletions**: as long as five entries remain, all of them succeed. -/
theorem deleteMany_spec {n : Nat} (h : Cullable l) (hlen : n + 5 ≤ (entries l).length) :
    ∃ l', deleteMany n l = .ok l' ∧ l'.length = l.length ∧ Cullable l' ∧ Culled n (entries l) (entries l') := by
  induction n generalizing l with
  | zero => exact ⟨l, rfl, rfl, h, Culled.refl⟩
  | succ n ih =>
    obtain ⟨l₁, hdelete, hlen₁, h₁, hculled₁⟩ := deleteSmallest_spec h (by omega)
    have hcount := hculled₁.count
    obtain ⟨l₂, hmany, hlen₂, h₂, hculled₂⟩ := ih h₁ (by omega)
    refine ⟨l₂, by rw [deleteMany, hdelete, ok_bind, hmany], hlen₂.trans hlen₁, h₂, ?_⟩
    rw [Nat.add_comm n 1]
    exact hculled₁.trans hculled₂

end Smallest

/-! ## Sliding down -/

section Slide

variable {l : List Snapshot} {i : Nat}

theorem seek_spec (htidy : ∀ s ∈ l, Tidy s) {used : Bool} (hex : ∃ s ∈ l, inUse s = used) :
    ∃ k s, seek used l i = .ok (i + k) ∧ l[k]? = some s ∧ inUse s = used ∧ ∀ t ∈ l.take k, inUse t ≠ used := by
  induction l generalizing i with
  | nil =>
    obtain ⟨s, hs, -⟩ := hex
    exact nomatch hs
  | cons s l ih =>
    rw [seek, isSnapshotInUse_of (htidy s List.mem_cons_self), ok_bind]
    by_cases hs : inUse s = used
    · exact ⟨0, s, by rw [if_pos hs, Nat.add_zero], rfl, hs, List.forall_mem_nil _⟩
    · obtain ⟨t, ht, hused⟩ := hex
      have hmem : t ∈ l := (List.mem_cons.mp ht).resolve_left fun heq => hs (heq ▸ hused)
      obtain ⟨k, u, hseek, hget, hu, hbefore⟩ :=
        ih (i := i + 1) (fun t ht => htidy t (List.mem_cons_of_mem _ ht)) ⟨t, hmem, hused⟩
      refine ⟨k + 1, u, ?_, hget, hu, ?_⟩
      · rw [if_neg hs, hseek, Nat.add_assoc, Nat.add_comm 1 k]
      · rw [List.take_succ_cons]
        exact List.forall_mem_cons.mpr ⟨hs, hbefore⟩

/-- The table with the entries before `j` slid down. -/
def slid (l : List Snapshot) (j : Nat) : List Snapshot :=
  entries (l.take j) ++ (List.replicate (j - (entries (l.take j)).length) clearSnapshot ++ l.drop j)

theorem slideOne_spec (htidy : ∀ s ∈ l, Tidy s) {j : Nat} (hj : j < l.length) (hlt : (entries (l.take j)).length < j) :
    slideOne (slid l j, (entries (l.take j)).length) j =
      .ok (slid l (j + 1), (entries (l.take (j + 1))).length) := by
  generalize hE : entries (l.take j) = E at hlt
  have hR : List.replicate (j - E.length) clearSnapshot =
      clearSnapshot :: List.replicate (j - E.length - 1) clearSnapshot := by
    rw [← List.replicate_succ]
    congr 1
    omega
  have hR' : List.replicate (j - E.length) clearSnapshot =
      List.replicate (j - E.length - 1) clearSnapshot ++ [clearSnapshot] := by
    rw [← List.replicate_succ']
    congr 1
    omega
  have hslid : slid l j = E ++ clearSnapshot :: (List.replicate (j - E.length - 1) clearSnapshot ++ l[j] :: l.drop (j + 1)) := by
    rw [slid, hE, List.drop_eq_getElem_cons hj, hR, List.cons_append]
  have htake : entries (l.take (j + 1)) = E ++ entries [l[j]] := by
    rw [List.take_succ_eq_append_getElem hj, entries_append, hE]
  have hread : readSnapshot (slid l j) j = .ok l[j] := by
    rw [readSnapshot, slid, hE, List.getElem?_append_right (by omega), List.getElem?_append_right (by simp)]
    simp [List.getElem?_eq_getElem hj]
  rw [slideOne, hread, ok_bind, isSnapshotInUse_of (htidy _ (List.getElem_mem hj)), ok_bind]
  cases hs : inUse l[j] with
  | false =>
    rw [entries_cons_unused hs, entries_nil, List.append_nil] at htake
    rw [if_neg Bool.false_ne_true, htake, hslid, slid, htake, show j + 1 - E.length = j - E.length - 1 + 1 + 1 by omega,
      List.replicate_succ, List.replicate_succ', (htidy _ (List.getElem_mem hj)).eq_clear hs]
    simp only [List.append_assoc, List.cons_append, List.nil_append]
  | true =>
    rw [entries_cons_used hs, entries_nil] at htake
    have hlen : (E ++ [l[j]]).length = E.length + 1 := by simp
    rw [if_pos rfl, htake, hslid, slid, htake, hlen, show j + 1 - (E.length + 1) = j - E.length by omega, hR']
    rw [List.set_append_right _ _ (Nat.le_refl _), Nat.sub_self, List.set_cons_zero,
      List.set_append_right _ _ (by omega), show j - E.length = j - E.length - 1 + 1 by omega, List.set_cons_succ,
      List.set_append_right _ _ (by simp)]
    simp only [List.length_replicate, Nat.add_sub_cancel, Nat.sub_self, List.set_cons_zero, List.append_assoc,
      List.cons_append, List.nil_append]

/-- **Sliding down**: the entries stand at the beginning, in their order, and the others are
clear. -/
theorem slideDown_spec (htidy : ∀ s ∈ l, Tidy s) (hunused : ∃ s ∈ l, inUse s = false) (hlast : ∃ s, l.getLast? = some s ∧ inUse s = true) :
    slideDown l = .ok (entries l ++ List.replicate (l.length - (entries l).length) clearSnapshot, (entries l).length) := by
  obtain ⟨i, t, hseek, ht, hunused, hbefore⟩ := seek_spec (i := 0) htidy hunused
  rw [Nat.zero_add] at hseek
  obtain ⟨hi, hgeti⟩ := List.getElem?_eq_some_iff.mp ht
  obtain ⟨u, hu, hused⟩ := hlast
  have hmem : u ∈ l.drop i := by
    refine List.mem_of_mem_getLast? ?_
    rw [List.getLast?_drop, if_neg (by omega), hu]
    rfl
  obtain ⟨k, s, hseek', hs, hsu, hbetween⟩ :=
    seek_spec (i := i) (fun s hs => htidy s (List.mem_of_mem_drop hs)) ⟨u, hmem, hused⟩
  have hj : i + k < l.length := by
    have hlt := (List.getElem?_eq_some_iff.mp hs).1
    rw [List.length_drop] at hlt
    omega
  have hk : 0 < k := by
    rcases Nat.eq_zero_or_pos k with rfl | hk
    · rw [List.getElem?_drop, Nat.add_zero, ht, Option.some_inj] at hs
      rw [hs, hsu] at hunused
      exact nomatch hunused
    · exact hk
  -- before the first slide: entries up to `i`, and clear ones up to `i + k`
  have htake : l.take (i + k) = l.take i ++ (l.drop i).take k := List.take_add
  have hlow : entries (l.take i) = l.take i :=
    List.filter_eq_self.mpr fun s hs => by simpa using hbefore s hs
  have hmid : entries ((l.drop i).take k) = [] :=
    List.filter_eq_nil_iff.mpr fun s hs => hbetween s hs
  have hentries : entries (l.take (i + k)) = l.take i := by
    rw [htake, entries_append, hlow, hmid, List.append_nil]
  have hlen : (entries (l.take (i + k))).length = i := by
    rw [hentries, List.length_take, Nat.min_eq_left (by omega)]
  have hstart : slid l (i + k) = l := by
    have hclear : (l.drop i).take k = List.replicate k clearSnapshot := by
      refine List.eq_replicate_iff.mpr ⟨?_, fun s hs => ?_⟩
      · rw [List.length_take, List.length_drop]
        omega
      · refine (htidy s (List.mem_of_mem_drop (List.mem_of_mem_take hs))).eq_clear ?_
        simpa using hbetween s hs
    rw [slid, hlen, hentries, Nat.add_sub_cancel_left, ← hclear, ← List.append_assoc, ← htake, List.take_append_drop]
  obtain ⟨st, hfold, hst⟩ := foldlM_range' (f := slideOne) (a := i + k) (n := l.length - (i + k))
    (I := fun j st => st = (slid l j, (entries (l.take j)).length) ∧ (entries (l.take j)).length < j)
    (b := (l, i)) ⟨by rw [hstart, hlen], by omega⟩ fun {j st} _ hlt ⟨hst, hj⟩ => by
      subst hst
      refine ⟨_, slideOne_spec htidy (by omega) hj, rfl, ?_⟩
      rw [List.take_succ_eq_append_getElem (by omega), entries_append, List.length_append]
      have hle := List.length_filter_le inUse [l[j]]
      rw [List.length_singleton] at hle
      unfold entries at hj ⊢
      omega
  rw [slideDown, hseek, ok_bind, hseek', ok_bind, hfold]
  rw [Nat.add_sub_cancel' (by omega), List.take_length] at hst
  rw [hst.1, slid, List.take_length, List.drop_length, List.append_nil]

end Slide

/-! ## The whole culling -/

section Cull

variable {l : List Snapshot}

theorem forM_of {α : Type} {f : α → Checked Unit} {l : List α} (h : ∀ a ∈ l, f a = .ok ()) : l.forM f = .ok () := by
  induction l with
  | nil => rfl
  | cons a l ih =>
    show (f a >>= fun _ => l.forM f) = .ok ()
    rw [h a List.mem_cons_self, ok_bind]
    exact ih fun a' ha' => h a' (List.mem_cons_of_mem _ ha')

theorem tidy_of_mem_compact {E : List Snapshot} {n : Nat} (htidy : ∀ s ∈ E, Tidy s) :
    ∀ s ∈ E ++ List.replicate n clearSnapshot, Tidy s := by
  intro s hs
  rcases List.mem_append.mp hs with hs | hs
  · exact htidy s hs
  · rw [List.eq_of_mem_replicate hs]
    exact tidy_clear

/-- The sanity check passes where the entries stand at the beginning. -/
theorem sanityCheckSnapshotsArray_spec {E : List Snapshot} {n : Nat} (htidy : ∀ s ∈ E, Tidy s)
    (hused : ∀ s ∈ E, inUse s = true) :
    sanityCheckSnapshotsArray (E ++ List.replicate n clearSnapshot) E.length = .ok () := by
  rw [sanityCheckSnapshotsArray, List.take_left, List.drop_left, forM_of, ok_bind, forM_of]
  · intro s hs
    rw [List.eq_of_mem_replicate hs]
    rfl
  · intro s hs
    rw [isSnapshotInUse_of (htidy s hs), ok_bind, tlAssert_of (hused s hs)]

theorem not_isUncullableSnapshot {next i : Nat} {s : Snapshot} (h₀ : i ≠ 0) (h : i + 1 ≠ next) (hs : s.kind ≠ .peak) :
    ¬ isUncullableSnapshot next i s := by
  rintro (h' | h' | h')
  · exact h₀ h'
  · exact h h'
  · exact hs h'

/-- The times between two adjacent snapshots that are not both uncullable. -/
def Gaps (E : List Snapshot) : Set Int :=
  {d | ∃ i s p, E[i + 1]? = some s ∧ E[i]? = some p ∧
    ¬ (isUncullableSnapshot E.length (i + 1) s ∧ isUncullableSnapshot E.length i p) ∧ d = s.time - p.time}

/-- One interval: it is looked at unless it lies between two snapshots that are never culled. -/
theorem intervalOne_spec (next : Nat) (best : Int × Option Nat) {i : Nat} {s p : Snapshot} (hs : l[i]? = some s)
    (hp : l[i - 1]? = some p) (hle : p.time ≤ s.time) (hps : 0 ≤ p.time ∧ p.time ≤ maxTime)
    (hss : 0 ≤ s.time ∧ s.time ≤ maxTime) :
    ∃ best', intervalOne l next best i = .ok best' ∧ best'.1 ≤ best.1 ∧
      (best' = best ∨ (best' = (s.time - p.time, some i) ∧
        ¬ (isUncullableSnapshot next i s ∧ isUncullableSnapshot next (i - 1) p))) ∧
      (¬ (isUncullableSnapshot next i s ∧ isUncullableSnapshot next (i - 1) p) → best'.1 ≤ s.time - p.time) := by
  rw [intervalOne, readSnapshot, hs, ok_bind, readSnapshot, hp, ok_bind]
  split
  · next hskip => exact ⟨best, rfl, le_refl _, .inl rfl, fun hnot => absurd hskip hnot⟩
  · next hnot =>
    simp only [timespan_of hps hss]
    rw [tlAssert_of (by omega), ok_bind]
    split
    · next hlt => exact ⟨_, rfl, hlt.le, .inr ⟨rfl, hnot⟩, fun _ => le_refl _⟩
    · next hge => exact ⟨best, rfl, le_refl _, .inl rfl, fun _ => Int.not_lt.mp hge⟩

/-- Some gap is not the largest one: one of the second and the third entry is no peak, and not both
intervals beside it can be. -/
theorem exists_gap_lt {E : List Snapshot} (htime : ∀ s ∈ E, 0 ≤ s.time ∧ s.time ≤ maxTime)
    (hpeak : (E.filter isPeak).length ≤ 1) (hlen : 5 ≤ E.length) : ∃ d ∈ Gaps E, d < maxTime := by
  obtain ⟨s₀, s₁, s₂, s₃, s₄, rest, rfl⟩ : ∃ s₀ s₁ s₂ s₃ s₄ rest, E = s₀ :: s₁ :: s₂ :: s₃ :: s₄ :: rest := by
    match E, hlen with
    | s₀ :: s₁ :: s₂ :: s₃ :: s₄ :: rest, _ => exact ⟨s₀, s₁, s₂, s₃, s₄, rest, rfl⟩
  have hM : maxTime = 2 ^ 63 - 1 := rfl
  have t₀ := htime s₀ (by simp)
  have t₁ := htime s₁ (by simp)
  have t₂ := htime s₂ (by simp)
  have t₃ := htime s₃ (by simp)
  -- the intervals on both sides of an entry that can be culled
  have hside : ∀ {i : Nat} {s p n : Snapshot}, (s₀ :: s₁ :: s₂ :: s₃ :: s₄ :: rest)[i]? = some p →
      (s₀ :: s₁ :: s₂ :: s₃ :: s₄ :: rest)[i + 1]? = some s → (s₀ :: s₁ :: s₂ :: s₃ :: s₄ :: rest)[i + 2]? = some n →
      s.kind ≠ .peak → s.time - p.time ∈ Gaps (s₀ :: s₁ :: s₂ :: s₃ :: s₄ :: rest) ∧
        n.time - s.time ∈ Gaps (s₀ :: s₁ :: s₂ :: s₃ :: s₄ :: rest) := by
    intro i s p n hp hs hn hkind
    have hlt := (List.getElem?_eq_some_iff.mp hn).1
    have hcull := not_isUncullableSnapshot (Nat.succ_ne_zero i) hlt.ne hkind
    exact ⟨⟨i, s, p, hs, hp, fun h => hcull h.1, rfl⟩, ⟨i + 1, n, s, hn, hs, fun h => hcull h.2, rfl⟩⟩
  by_cases h₁ : s₁.kind = .peak
  · have h₂ : s₂.kind ≠ .peak := by
      intro h₂
      have hsub : List.Sublist [s₁, s₂] (s₀ :: s₁ :: s₂ :: s₃ :: s₄ :: rest) :=
        List.Sublist.cons s₀ (List.sublist_append_left [s₁, s₂] (s₃ :: s₄ :: rest))
      have hle := (hsub.filter isPeak).length_le
      simp only [List.filter_cons, isPeak, h₁, h₂, decide_true, if_true, List.filter_nil, List.length_cons,
        List.length_nil] at hle hpeak
      omega
    obtain ⟨hleft, hright⟩ := hside (i := 1) rfl rfl rfl h₂
    rcases lt_or_ge (s₂.time - s₁.time) maxTime with hlt | hge
    · exact ⟨_, hleft, hlt⟩
    · exact ⟨_, hright, by omega⟩
  · obtain ⟨hleft, hright⟩ := hside (i := 0) rfl rfl rfl h₁
    rcases lt_or_ge (s₁.time - s₀.time) maxTime with hlt | hge
    · exact ⟨_, hleft, hlt⟩
    · exact ⟨_, hright, by omega⟩

/-- **The minimum timespan** is found. -/
theorem minInterval_spec {E : List Snapshot} {n : Nat} (htime : ∀ s ∈ E, 0 ≤ s.time ∧ s.time ≤ maxTime)
    (horder : InOrder E) (hpeak : (E.filter isPeak).length ≤ 1) (hlen : 5 ≤ E.length) :
    ∃ best, (List.range' 1 (E.length - 1)).foldlM (intervalOne (E ++ List.replicate n clearSnapshot) E.length)
      (maxTime, none) = .ok best ∧ best.2.isSome = true ∧ IsLeast (Gaps E) best.1 := by
  have hget : ∀ {i}, i < E.length → (E ++ List.replicate n clearSnapshot)[i]? = E[i]? :=
    fun hi => List.getElem?_append_left hi
  obtain ⟨best, hfold, hfound, hmin⟩ := foldlM_range'
    (f := intervalOne (E ++ List.replicate n clearSnapshot) E.length) (a := 1) (n := E.length - 1)
    (I := fun i best => (best = (maxTime, none) ∨ best.2.isSome = true ∧ best.1 ∈ Gaps E) ∧
      ∀ {c s p}, 1 ≤ c → c < i → E[c]? = some s → E[c - 1]? = some p →
        ¬ (isUncullableSnapshot E.length c s ∧ isUncullableSnapshot E.length (c - 1) p) →
        best.1 ≤ s.time - p.time)
    (b := (maxTime, none)) ⟨.inl rfl, fun hc hlt => by omega⟩ fun {i best} hle hlt ⟨hfound, hmin⟩ => by
      have hi : i < E.length := by omega
      have hi' : i - 1 < E.length := by omega
      obtain ⟨best', hstep, hle', hfound', hspan⟩ := intervalOne_spec E.length best
        ((hget hi).trans (List.getElem?_eq_getElem hi)) ((hget hi').trans (List.getElem?_eq_getElem hi'))
        (List.pairwise_iff_getElem.mp horder (i - 1) i hi' hi (by omega))
        (htime _ (List.getElem_mem hi')) (htime _ (List.getElem_mem hi))
      refine ⟨best', hstep, ?_, fun {c s p} hc hci hs hp hnot => ?_⟩
      · rcases hfound' with rfl | ⟨rfl, hnot⟩
        · exact hfound
        · refine .inr ⟨rfl, i - 1, E[i], E[i - 1], ?_, List.getElem?_eq_getElem hi', ?_, rfl⟩
          · rw [Nat.sub_add_cancel hle, List.getElem?_eq_getElem hi]
          · rwa [Nat.sub_add_cancel hle]
      · rcases Nat.lt_succ_iff_lt_or_eq.mp hci with hci | rfl
        · exact hle'.trans (hmin hc hci hs hp hnot)
        · obtain rfl : E[c] = s := Option.some.inj ((List.getElem?_eq_getElem hi).symm.trans hs)
          obtain rfl : E[c - 1] = p := Option.some.inj ((List.getElem?_eq_getElem hi').symm.trans hp)
          exact hspan hnot
  have hlower : ∀ d ∈ Gaps E, best.1 ≤ d := by
    rintro _ ⟨i, s, p, hs, hp, hnot, rfl⟩
    have hi := (List.getElem?_eq_some_iff.mp hs).1
    exact hmin (c := i + 1) (by omega) (by omega) hs hp hnot
  suffices hsome : best.2.isSome = true by
    refine ⟨best, hfold, hsome, ?_, hlower⟩
    rcases hfound with rfl | ⟨-, hmem⟩
    · exact nomatch hsome
    · exact hmem
  -- otherwise all gaps would be the largest one
  rcases hfound with rfl | ⟨hsome, -⟩
  · obtain ⟨d, hd, hlt⟩ := exists_gap_lt htime hpeak hlen
    exact absurd hlt (Int.not_lt.mpr (hlower d hd))
  · exact hsome

/-- **Culling**: of a full table whose entries are in order and have one peak at most, half of
the entries are taken out and the others moved to the beginning. -/
theorem cullSnapshots_spec (h : Cullable l) (hfull : ∀ s ∈ l, inUse s = true) (hlen : 10 ≤ l.length) :
    ∃ E interval, cullSnapshots l = .ok (E ++ List.replicate (l.length / 2) clearSnapshot, E.length, interval % 2 ^ 32) ∧
      Culled (l.length / 2) l E ∧ IsLeast (Gaps E) interval := by
  have hall : entries l = l := List.filter_eq_self.mpr hfull
  obtain ⟨l', hdelete, hlen', h', hculled⟩ := deleteMany_spec (n := l.length / 2) h (by rw [hall]; omega)
  rw [hall] at hculled
  have hcount := hculled.count
  have hslide := slideDown_spec h'.tidy ?_ h'.last
  · have hrest : l'.length - (entries l').length = l.length / 2 := by omega
    rw [hrest] at hslide
    have hused : ∀ s ∈ entries l', inUse s = true := fun s hs => (List.mem_filter.mp hs).2
    have htidy : ∀ s ∈ entries l', Tidy s := fun s hs => h'.tidy s (List.mem_filter.mp hs).1
    obtain ⟨best, hmin, hsome, hleast⟩ := minInterval_spec (n := l.length / 2) (fun s hs => (htidy s hs).time (hused s hs))
      h'.order h'.peak (by omega)
    refine ⟨entries l', best.1, ?_, hculled, hleast⟩
    rw [cullSnapshots, hdelete, ok_bind, hslide, ok_bind]
    simp only [sanityCheckSnapshotsArray_spec htidy hused, ok_bind]
    rw [tlAssert_of (by omega), ok_bind, hmin, ok_bind, tlAssert_of hsome]
    rfl
  · -- some entry has been cleared
    by_contra hno
    have hself : entries l' = l' := by
      refine List.filter_eq_self.mpr fun s hs => ?_
      by_contra hs'
      exact hno ⟨s, hs, by simpa using hs'⟩
    rw [hself] at hcount
    omega

end Cull

/-! ## Taking a snapshot of a clear entry -/

/-- What the callers of `take_snapshot` promise: `alloc_xpt` has the size of the heap. -/
structure Statics.Ready (st : Statics) : Prop where
  started : st.haveStartedExecutingCode = true
  linked : Linked st.xtree
  root : (st.xtree[0]?).map XPt.szB = some st.heapSzB

theorem takeXTree_spec (cfg : Config) {st : Statics} (h : st.Ready) :
    ∃ sxpt, takeXTree cfg st = .ok sxpt ∧ sxpt.szB = st.heapSzB := by
  obtain ⟨x, hx, hsz⟩ := Option.map_eq_some_iff.mp h.root
  obtain ⟨sxpt, hdup, hdsz⟩ := dupXTree_spec h.linked (cfg.sigChildThresholdSzB st.totalSzB)
    (st.xtree.length + 1) hx (by omega)
  refine ⟨sxpt, ?_, hdsz.trans hsz⟩
  rw [takeXTree, hdup, ok_bind, readXPt_of hx, ok_bind, tlAssert_of hsz, ok_bind, tlAssert_of (hdsz.trans hsz)]
  rfl

/-- **`take_snapshot`** of a clear entry returns. -/
theorem takeSnapshot_clear (cfg : Config) {st : Statics} (h : st.Ready) (kind : SnapshotKind) (time : Int) (d : Bool) :
    ∃ sxpt, takeSnapshot cfg st clearSnapshot kind time d = .ok {
      kind
      time
      heapSzB := if cfg.cloHeap then st.heapSzB else 0
      heapExtraSzB := if cfg.cloHeap then st.heapExtraSzB else 0
      stacksSzB := if cfg.cloStacks then st.stacksSzB else 0
      allocSxpt := sxpt } := by
  rw [takeSnapshot, show isSnapshotInUse clearSnapshot = .ok false from rfl, ok_bind, tlAssert_of rfl, ok_bind,
    tlAssert_of h.started, ok_bind]
  by_cases hd : cfg.cloHeap = true ∧ d = true
  · obtain ⟨sxpt, htake, -⟩ := takeXTree_spec cfg h
    refine ⟨some sxpt, ?_⟩
    rw [if_pos hd, htake]
    rfl
  · refine ⟨none, ?_⟩
    rw [if_neg hd]
    rfl

end Valgrind.Massif
