import Valgrind.Memcheck.MallocWrappers
import Valgrind.Memcheck.RangeExact

/-!
# Memcheck: trimming a memory pool

`MC_(mempool_trim)` is to leave of every chunk of a pool what lies in the extent. It looks at the
two end bytes of a chunk only, computes the new bounds with the size of the extent in place of the
size of the chunk, and keeps 32 bits of the new size. `mempoolTrim_iff` says for which pools
the result is the intersection all the same.
-/

namespace Valgrind.Memcheck

open Machine Coregrind

/-! ## Pieces of disjoint ranges -/

section Pieces

variable {α β : Type} {R : α → α → Prop} [Std.Symm R] {f g : α → Option β} {l : List α} {owns : α → β → Prop}

/-- If every element of a list has its own pieces, the pieces determine what is left of each
element. -/
theorem eq_of_filterMap_eq (hl : l.Pairwise R)
    (data_apart : ∀ a b y, R a b → owns a y → ¬ owns b y) (hf : ∀ a ∈ l, ∀ y ∈ f a, owns a y)
    (hg : ∀ a ∈ l, ∀ y ∈ g a, owns a y) (h : ∀ y, y ∈ l.filterMap f → y ∈ l.filterMap g) {a : α} (ha : a ∈ l) {y : β}
    (hy : f a = some y) : g a = some y := by
  obtain ⟨b, hb, hgb⟩ := List.mem_filterMap.mp (h y (List.mem_filterMap.mpr ⟨a, ha, hy⟩))
  by_cases hab : a = b
  · rwa [hab]
  · exact absurd (hg b hb y hgb) (data_apart a b y (hl.forall ha hb hab) (hf a ha y hy))

end Pieces

section

variable [Machine] {ε : Type} {env : HeapEnv ε} {mc mc' : HeapChunk ε} {addr szB rzB x : Nat}

/-! ## What the code makes of one chunk -/

/-- The addresses of a chunk. -/
def HeapChunk.Has (mc : HeapChunk ε) (x : Nat) : Prop := mc.data ≤ x ∧ x < mc.data + mc.szB

/-- The addresses of the extent. -/
def InExtent (addr szB x : Nat) : Prop := addr ≤ x ∧ x < addr + szB

/-- The two ends of a chunk, as `MC_(mempool_trim)` sees them. -/
inductive Ends where
  | inside
  | outside
  /-- The chunk begins before the extent. -/
  | early
  /-- The chunk ends after the extent. -/
  | late
  deriving DecidableEq

/-- Which ends of the chunk are in the extent. -/
def ends (addr szB : Nat) (mc : HeapChunk ε) : Ends :=
  if extentContains addr szB mc.data then
    if extentContains addr szB mc.hi then .inside else .late
  else if extentContains addr szB mc.hi then .early else .outside

/-- What is left of a chunk. -/
def leftOf (addr szB : Nat) (mc : HeapChunk ε) : Option (HeapChunk ε) :=
  match ends addr szB mc with
  | .inside => some mc
  | .outside => none
  | .early => some (mc.resized addr (mc.data + szB))
  | .late => some (mc.resized mc.data (addr + szB))

/-- The bytes that become inaccessible on account of a chunk. -/
def Cleared (rzB addr szB : Nat) (mc : HeapChunk ε) (x : Nat) : Prop :=
  match ends addr szB mc with
  | .inside => False
  | .outside => subW x (subW mc.data rzB) < (mc.szB + 2 * rzB) % wordMod
  | .early => mc.data ≤ x ∧ x < addr ∨ mc.data + szB ≤ x ∧ x < addr + szB
  | .late => addr < mc.data ∧ addr + szB ≤ x ∧ x < mc.data + szB

/-- The new bounds of the chunk are in order. -/
def Ordered (addr szB : Nat) (mc : HeapChunk ε) : Prop :=
  match ends addr szB mc with
  | .early => addr < mc.data + szB
  | .late => mc.data + szB < wordMod
  | _ => True

/-- What is left of a chunk when it is cut down to the extent. -/
def HeapChunk.meet (addr szB : Nat) (mc : HeapChunk ε) : Option (HeapChunk ε) :=
  let lo := max mc.data addr
  let hi := min (mc.data + mc.szB) (addr + szB)
  if lo < hi then some { mc with data := lo, szB := hi - lo } else none

/-- A chunk of a memory pool: it is not empty, does not wrap around, its size fits into the field
for it, and the client has announced it. -/
structure HeapChunk.Pooled (mc : HeapChunk ε) : Prop where
  pos : 0 < mc.szB
  le : mc.data + mc.szB ≤ wordMod
  szB_lt : mc.szB < wordMod / 4
  custom : mc.allockind = .custom

/-- The chunks have no byte in common. -/
def Apart (mc mc' : HeapChunk ε) : Prop := mc.data + mc.szB ≤ mc'.data ∨ mc'.data + mc'.szB ≤ mc.data

instance : Std.Symm (Apart (ε := ε)) := ⟨fun _ _ h => Or.symm h⟩

omit [Machine] in
theorem Apart.not_has (h : Apart mc mc') (hx : mc.Has x) : ¬ mc'.Has x := by
  unfold Apart at h
  unfold HeapChunk.Has at *
  omega

/-! ### The ends -/

theorem HeapChunk.Pooled.hi_eq (h : mc.Pooled) : mc.hi = mc.data + mc.szB - 1 := by
  have hpos := h.pos
  have hle := h.le
  rw [HeapChunk.hi, if_neg (by omega)]
  rcases Nat.lt_or_ge (mc.data + mc.szB) wordMod with hlt | hge
  · rw [addW_of_lt hlt, subW_of_le hlt (by omega)]
  · have heq : mc.data + mc.szB = wordMod := by omega
    rw [addW, heq, Nat.mod_self, subW_of_gt (by omega) (by omega)]
    omega

/-- The extent contains something only if its end is an address. -/
theorem extentContains_iff (haddr : addr + szB ≤ wordMod) :
    extentContains addr szB x ↔ addr + szB < wordMod ∧ InExtent addr szB x := by
  unfold extentContains InExtent
  rcases Nat.lt_or_ge (addr + szB) wordMod with hlt | hge
  · rw [addW_of_lt hlt, and_iff_right hlt]
  · rw [addW, show addr + szB = wordMod by omega, Nat.mod_self]
    omega

/-- The sizes that are kept. -/
def trimMod : Nat := min (2 ^ 32) (wordMod / 4)

/-- The chunk is trimmed as it should be: a chunk that ends in the extent without beginning there
must have the size of the extent, but for multiples of what is kept of a size. -/
def HeapChunk.Fits (addr szB : Nat) (mc : HeapChunk ε) : Prop :=
  match ends addr szB mc with
  | .inside => True
  | .outside => mc.data + mc.szB ≤ addr ∨ addr + szB ≤ mc.data
  | .early => addr < mc.data + szB ∧ mc.data + mc.szB - addr < trimMod ∧ szB % trimMod = mc.szB % trimMod
  | .late => mc.data + szB < wordMod ∧ addr + szB - mc.data < trimMod

theorem ends_inside (hle : addr + szB ≤ wordMod) (h : mc.Pooled) (he : ends addr szB mc = .inside) :
    addr + szB < wordMod ∧ addr ≤ mc.data ∧ mc.data + mc.szB ≤ addr + szB := by
  have hpos := h.pos
  unfold ends at he
  simp only [h.hi_eq, extentContains_iff hle, InExtent] at he
  split at he
  · split at he
    · omega
    · exact nomatch he
  · split at he <;> exact nomatch he

theorem ends_outside (hle : addr + szB ≤ wordMod) (h : mc.Pooled) (he : ends addr szB mc = .outside) :
    addr + szB = wordMod ∨ (mc.data + mc.szB ≤ addr ∨ addr + szB ≤ mc.data) ∨
      mc.data < addr ∧ addr + szB < mc.data + mc.szB := by
  have hpos := h.pos
  unfold ends at he
  simp only [h.hi_eq, extentContains_iff hle, InExtent] at he
  split at he
  · split at he <;> exact nomatch he
  · split at he
    · exact nomatch he
    · omega

theorem ends_early (hle : addr + szB ≤ wordMod) (h : mc.Pooled) (he : ends addr szB mc = .early) :
    addr + szB < wordMod ∧ mc.data < addr ∧ addr < mc.data + mc.szB ∧ mc.data + mc.szB ≤ addr + szB := by
  have hpos := h.pos
  unfold ends at he
  simp only [h.hi_eq, extentContains_iff hle, InExtent] at he
  split at he
  · split at he <;> exact nomatch he
  · split at he
    · omega
    · exact nomatch he

theorem ends_late (hle : addr + szB ≤ wordMod) (h : mc.Pooled) (he : ends addr szB mc = .late) :
    addr + szB < wordMod ∧ addr ≤ mc.data ∧ mc.data < addr + szB ∧ addr + szB < mc.data + mc.szB := by
  have hpos := h.pos
  unfold ends at he
  simp only [h.hi_eq, extentContains_iff hle, InExtent] at he
  split at he
  · split at he
    · exact nomatch he
    · omega
  · split at he <;> exact nomatch he

/-- What is stored of a size. -/
theorem chunkSzB_mod (n : Nat) : chunkSzB (n % 2 ^ 32) = n % trimMod := by
  unfold chunkSzB trimMod
  rcases wordMod_cases with hw | hw
  · rw [hw, Nat.mod_mod_of_dvd _ (by decide)]
    rfl
  · rw [hw, Nat.mod_eq_of_lt (show n % 2 ^ 32 < 18446744073709551616 / 4 by omega)]
    rfl

omit [Machine] in
/-- Two differences to the same number. -/
theorem mod_eq_iff_of_add {m y z a c n s : Nat} (hm : 0 < m) (hy : y + a = c + n) (hz : z + a = c + s) :
    y % m = z ↔ z < m ∧ n % m = s % m := by
  have hmod : y ≡ z [MOD m] ↔ n ≡ s [MOD m] := by
    constructor
    · intro h
      have hsum := h.add_right a
      rw [hy, hz] at hsum
      exact hsum.add_left_cancel' c
    · intro h
      have hsum := h.add_left c
      rw [← hy, ← hz] at hsum
      exact hsum.add_right_cancel' a
  constructor
  · intro h
    have hlt : z < m := h ▸ Nat.mod_lt y hm
    exact ⟨hlt, hmod.mp (Eq.trans h (Nat.mod_eq_of_lt hlt).symm)⟩
  · rintro ⟨hlt, h⟩
    exact Eq.trans (hmod.mpr h) (Nat.mod_eq_of_lt hlt)

theorem trimMod_pos : 0 < trimMod := by
  unfold trimMod
  have := wordMod_cases
  omega

/-- **One chunk is trimmed** to what it has in common with the extent if and only if it fits. -/
theorem fits_iff (hszB : 0 < szB) (hle : addr + szB ≤ wordMod) (h : mc.Pooled) :
    Ordered addr szB mc ∧ leftOf addr szB mc = mc.meet addr szB ↔ mc.Fits addr szB := by
  have hpos := h.pos
  have hmod := trimMod_pos
  unfold Ordered leftOf HeapChunk.Fits
  cases he : ends addr szB mc with
  | inside =>
    obtain ⟨-, hlo, hhi⟩ := ends_inside hle h he
    simp only [true_and, iff_true, HeapChunk.meet]
    rw [Nat.max_eq_left hlo, Nat.min_eq_left hhi, if_pos (by omega), Nat.add_sub_cancel_left]
  | outside =>
    have hcases := ends_outside hle h he
    simp only [true_and, HeapChunk.meet]
    constructor
    · intro hnone
      by_contra hmeet
      rw [if_pos (by omega)] at hnone
      exact nomatch hnone
    · intro hapart
      rw [if_neg (by omega)]
  | early =>
    obtain ⟨-, hlo, hin, hhi⟩ := ends_early hle h he
    simp only [HeapChunk.meet, HeapChunk.resized, chunkSzB_mod]
    rw [Nat.max_eq_right hlo.le, Nat.min_eq_left hhi, if_pos hin, Option.some_inj]
    refine and_congr_right fun hord => ?_
    rw [← mod_eq_iff_of_add hmod (show mc.data + szB - addr + addr = mc.data + szB by omega)
      (show mc.data + mc.szB - addr + addr = mc.data + mc.szB by omega)]
    exact ⟨fun heq => congrArg (fun c : HeapChunk ε => c.szB) heq, fun heq => by rw [heq]⟩
  | late =>
    obtain ⟨-, hlo, hin, hhi⟩ := ends_late hle h he
    simp only [HeapChunk.meet, HeapChunk.resized, chunkSzB_mod]
    rw [Nat.max_eq_left hlo, Nat.min_eq_right hhi.le, if_pos hin, Option.some_inj]
    refine and_congr_right fun hord => ?_
    rw [← Nat.mod_eq_iff_lt hmod.ne']
    exact ⟨fun heq => congrArg (fun c : HeapChunk ε => c.szB) heq, fun heq => by rw [heq]⟩

/-- What the code leaves of a chunk begins in the chunk. -/
theorem leftOf_has (hle : addr + szB ≤ wordMod) (h : mc.Pooled) : ∀ c ∈ leftOf addr szB mc, mc.Has c.data := by
  have hpos := h.pos
  intro c hc
  unfold leftOf at hc
  unfold HeapChunk.Has
  cases he : ends addr szB mc with
  | inside =>
    rw [he] at hc
    obtain rfl := Option.some.inj hc
    omega
  | outside =>
    rw [he] at hc
    exact nomatch hc
  | early =>
    obtain ⟨-, hlo, hin, -⟩ := ends_early hle h he
    rw [he] at hc
    obtain rfl := Option.some.inj hc
    exact ⟨hlo.le, hin⟩
  | late =>
    rw [he] at hc
    obtain rfl := Option.some.inj hc
    exact ⟨le_refl _, Nat.lt_add_of_pos_right hpos⟩

omit [Machine] in
/-- So does what it has in common with the extent. -/
theorem meet_has : ∀ c ∈ mc.meet addr szB, mc.Has c.data := by
  intro c hc
  simp only [HeapChunk.meet] at hc
  split at hc
  · next hlt =>
    obtain rfl := Option.some.inj hc
    simp only [HeapChunk.Has]
    omega
  · exact nomatch hc

/-! ## One chunk -/

/-- The bytes of `cleared` have become inaccessible, and all others are as they were. -/
structure AfterClearing (s : SecMaps) (f : Nat → BitVec 2) (cleared : Nat → Prop) : Prop where
  inv : s.Inv
  noaccess : ∀ x < wordMod, cleared x → vabits2At s x = vaBits2Noaccess
  kept : ∀ x < wordMod, ¬ cleared x → vabits2At s x = f x

variable {s s' : SecMaps} {a len : Nat} {f : Nat → BitVec 2} {P Q : Nat → Prop} {t : Trim ε}
  {others done : Multiset (HeapChunk ε)}

theorem AfterClearing.refl (h : s.Inv) (hP : ∀ x, ¬ P x) : AfterClearing s (vabits2At s) P :=
  ⟨h, fun x _ hx => absurd hx (hP x), fun _ _ _ => rfl⟩

theorem AfterClearing.trans (h : AfterClearing s f P) (h' : AfterClearing s' (vabits2At s) Q) :
    AfterClearing s' f fun x => P x ∨ Q x := by
  refine ⟨h'.inv, fun x hx hor => ?_, fun x hx hnor => ?_⟩
  · by_cases hQ : Q x
    · exact h'.noaccess x hx hQ
    · rw [h'.kept x hx hQ, h.noaccess x hx (hor.resolve_right hQ)]
  · obtain ⟨hP, hQ⟩ := not_or.mp hnor
    rw [h'.kept x hx hQ, h.kept x hx hP]

theorem AfterClearing.congr (h : AfterClearing s f P) (hiff : ∀ x < wordMod, P x ↔ Q x) : AfterClearing s f Q :=
  ⟨h.inv, fun x hx hQ => h.noaccess x hx ((hiff x hx).mpr hQ), fun x hx hQ => h.kept x hx fun hP => hQ ((hiff x hx).mp hP)⟩

/-- **`MC_(make_mem_noaccess)`** clears a range. -/
theorem makeMemNoaccess_clears (al : ShadowAlloc) (h : s.Inv) (ha : a < wordMod) (hlen : len < wordMod) :
    Returns al (makeMemNoaccess al s a len) fun s' => AfterClearing s' (vabits2At s) fun x => subW x a < len := by
  refine (makeMem_spec .noaccess h ha hlen).mono fun s' hs' => ⟨hs'.inv, fun x hx hlt => ?_, fun x hx hlt => ?_⟩
  · rw [hs'.at_eq x hx, paint, if_pos hlt]
    rfl
  · rw [hs'.at_eq x hx, paint, if_neg hlt]

/-- A range that does not wrap around. -/
theorem makeMemNoaccess_range (al : ShadowAlloc) (h : s.Inv) {lo hi : Nat} (hlt : lo < hi) (hhi : hi < wordMod) :
    Returns al (makeMemNoaccess al s lo (hi - lo)) fun s' =>
      AfterClearing s' (vabits2At s) fun x => lo ≤ x ∧ x < hi := by
  refine (makeMemNoaccess_clears al h (by omega) (by omega)).mono fun s' hs' => hs'.congr fun x hx => ?_
  rw [subW_lt_iff (by omega) hx (by omega)]
  omega

/-- The bounds of a chunk that begins before the extent. -/
theorem trimBounds_early (hle : addr + szB ≤ wordMod) (h : mc.Pooled) (he : ends addr szB mc = .early) :
    trimBounds addr szB mc = ((mc.data, addr), (mc.data + szB, addr + szB)) := by
  obtain ⟨hlt, hlo, -, -⟩ := ends_early hle h he
  rw [trimBounds, if_pos hlo, addW_of_lt (show mc.data + szB < wordMod by omega), addW_of_lt hlt, if_neg (by omega)]

/-- Those of a chunk that ends after it. -/
theorem trimBounds_late (hle : addr + szB ≤ wordMod) (h : mc.Pooled) (he : ends addr szB mc = .late)
    (hord : mc.data + szB < wordMod) : trimBounds addr szB mc = ((addr, mc.data), (addr + szB, mc.data + szB)) := by
  obtain ⟨hlt, hlo, -, -⟩ := ends_late hle h he
  rw [trimBounds, if_neg (Nat.not_lt.mpr hlo), addW_of_lt hord, addW_of_lt hlt]
  rcases hlo.lt_or_eq with hgt | heq
  · rw [if_pos (by omega)]
  · rw [if_neg (by omega), heq]

/-- A chunk that begins before the extent. -/
theorem clearTrimmed_early (rzB : Nat) (hle : addr + szB ≤ wordMod) (h : mc.Pooled) (he : ends addr szB mc = .early)
    (hord : addr < mc.data + szB) (hs : s.Inv) :
    Returns env.al (clearTrimmed env addr szB s mc) fun s' =>
      AfterClearing s' (vabits2At s) (Cleared rzB addr szB mc) := by
  obtain ⟨hlt, hlo, hin, hhi⟩ := ends_early hle h he
  have hmin : mc.data < addr ∧ ¬ extentContains addr szB mc.data := by
    rw [extentContains_iff hle, InExtent]
    omega
  have hmax : mc.data + szB < addr + szB ∧ ¬ extentContains addr szB (addr + szB) := by
    rw [extentContains_iff hle, InExtent]
    omega
  rw [clearTrimmed, trimBounds_early hle h he]
  simp only
  rw [assertThat_of hlo.le, ok_bind, assertThat_of hord, ok_bind, assertThat_of hmax.1.le, ok_bind, if_pos hmin]
  refine (makeMemNoaccess_range env.al hs hlo (by omega)).bind fun s₁ hs₁ => ?_
  rw [if_pos hmax]
  refine (makeMemNoaccess_range env.al hs₁.inv hmax.1 hlt).mono fun s₂ hs₂ => (hs₁.trans hs₂).congr fun x _ => ?_
  rw [Cleared, he]

/-- A chunk that ends after the extent. -/
theorem clearTrimmed_late (rzB : Nat) (hle : addr + szB ≤ wordMod) (h : mc.Pooled) (he : ends addr szB mc = .late)
    (hord : mc.data + szB < wordMod) (hs : s.Inv) :
    Returns env.al (clearTrimmed env addr szB s mc) fun s' =>
      AfterClearing s' (vabits2At s) (Cleared rzB addr szB mc) := by
  obtain ⟨hlt, hlo, hin, hhi⟩ := ends_late hle h he
  have hmin : ¬ (addr < mc.data ∧ ¬ extentContains addr szB addr) := by
    rw [extentContains_iff hle, InExtent]
    omega
  have hcleared : ∀ x, Cleared rzB addr szB mc x ↔ addr < mc.data ∧ addr + szB ≤ x ∧ x < mc.data + szB := by
    intro x
    rw [Cleared, he]
  rw [clearTrimmed, trimBounds_late hle h he hord]
  simp only
  rw [assertThat_of hlo, ok_bind, assertThat_of hin, ok_bind,
    assertThat_of (show addr + szB ≤ mc.data + szB by omega), ok_bind, if_neg hmin, ok_bind]
  rcases hlo.lt_or_eq with hgt | heq
  · have hmax : addr + szB < mc.data + szB ∧ ¬ extentContains addr szB (mc.data + szB) := by
      rw [extentContains_iff hle, InExtent]
      omega
    rw [if_pos hmax]
    refine (makeMemNoaccess_range env.al hs hmax.1 hord).mono fun s' hs' => hs'.congr fun x _ => ?_
    rw [hcleared, and_iff_right hgt]
  · rw [if_neg (by omega)]
    exact .of_ok (.refl hs fun x => by rw [hcleared]; omega)

/-- Bounds that are not in order. -/
theorem clearTrimmed_fails (hle : addr + szB ≤ wordMod) (h : mc.Pooled) (hord : ¬ Ordered addr szB mc) :
    clearTrimmed env addr szB s mc = .error .assertFailed := by
  unfold Ordered at hord
  cases he : ends addr szB mc with
  | inside =>
    rw [he] at hord
    exact absurd trivial hord
  | outside =>
    rw [he] at hord
    exact absurd trivial hord
  | early =>
    obtain ⟨hlt, hlo, hin, hhi⟩ := ends_early hle h he
    simp only [he] at hord
    rw [clearTrimmed, trimBounds_early hle h he]
    simp only
    rw [assertThat_of hlo.le, ok_bind, assertThat, if_neg hord]
    rfl
  | late =>
    obtain ⟨hlt, hlo, hin, hhi⟩ := ends_late hle h he
    have hle' := h.le
    have hpos := h.pos
    simp only [he] at hord
    have hbounds : trimBounds addr szB mc = ((addr, mc.data), (mc.data + szB - wordMod, addr + szB)) := by
      rw [trimBounds, if_neg (by omega), addW_of_ge (by omega) (by omega) (by omega), addW_of_lt hlt, if_neg (by omega)]
    rw [clearTrimmed, hbounds]
    simp only
    rw [assertThat_of hlo, ok_bind, assertThat, if_neg (by omega)]
    rfl

/-! ## The loop -/

/-- A byte is cleared on account of one of the chunks. -/
def ClearedBy (rzB addr szB : Nat) (l : List (HeapChunk ε)) (x : Nat) : Prop := ∃ mc ∈ l, Cleared rzB addr szB mc x

/-- The branches of the loop body. -/
theorem trimChunk_eq : trimChunk env rzB addr szB t mc =
    match ends addr szB mc with
    | .inside => .ok (some t)
    | .outside =>
      match htRemove HeapChunk.key t.chunks mc.data with
      | none => .ok none
      | some (_, chunks) => do
        let (freed, secmaps) ← dieAndFreeMem env t.freed t.secmaps mc rzB
        return some { chunks, freed, secmaps }
    | .early | .late =>
      match htRemove HeapChunk.key t.chunks mc.data with
      | none => .ok none
      | some (_, chunks) => do
        let secmaps ← clearTrimmed env addr szB t.secmaps mc
        let chunks ← htAddNode HeapChunk.key chunks
          (mc.resized (trimBounds addr szB mc).1.2 (trimBounds addr szB mc).2.1)
        return some { t with chunks, secmaps } := by
  unfold trimChunk ends
  by_cases hlo : extentContains addr szB mc.data <;> by_cases hhi : extentContains addr szB mc.hi <;>
    simp only [hlo, hhi, and_self, and_false, false_and, not_true_eq_false, not_false_eq_true, if_true, if_false,
      or_true, or_false, assertThat_of, ok_bind] <;> rfl

/-- **One chunk**, whose new bounds are in order. -/
theorem trimChunk_spec (hle : addr + szB ≤ wordMod) (hfill : assertFill env.cloFreeFill = .ok ()) (h : mc.Pooled)
    (hord : Ordered addr szB mc) (hchunks : Stores HeapChunk.key t.chunks (mc ::ₘ others))
    (hkeys : ∀ c ∈ others, c.data ≠ mc.data) (hs : t.secmaps.Inv) :
    Returns env.al (trimChunk env rzB addr szB t mc) fun r => ∃ t', r = some t' ∧
      Stores HeapChunk.key t'.chunks ((leftOf addr szB mc).toList + others) ∧
      AfterClearing t'.secmaps (vabits2At t.secmaps) (Cleared rzB addr szB mc) := by
  obtain ⟨chunks, hremove, hrest⟩ := htRemove_of_cons hchunks hkeys
  have hremove : htRemove HeapChunk.key t.chunks mc.data = some (mc, chunks) := hremove
  rw [trimChunk_eq]
  unfold Ordered at hord
  cases he : ends addr szB mc with
  | inside =>
    refine .of_ok ⟨t, rfl, ?_, .refl hs fun x => by rw [Cleared, he]; exact not_false⟩
    rw [leftOf, he]
    exact hchunks
  | outside =>
    simp only [hremove, dieAndFreeMem, hfill, ok_bind, h.custom, ne_eq, not_true_eq_false, if_false]
    rw [bind_assoc]
    refine (makeMemNoaccess_clears env.al hs (subW_lt _ _) (Nat.mod_lt _ wordMod_pos)).bind fun s' hs' => ?_
    refine .of_ok ⟨_, rfl, ?_, hs'.congr fun x _ => by rw [Cleared, he]⟩
    rw [leftOf, he]
    exact (zero_add others).symm ▸ hrest
  | early =>
    simp only [he] at hord
    simp only [hremove]
    refine (clearTrimmed_early rzB hle h he hord hs).bind fun s' hs' => ?_
    obtain ⟨chunks', hadd, hstores⟩ := htAddNode_spec hrest (mc.resized addr (mc.data + szB))
    rw [trimBounds_early hle h he, hadd]
    refine .of_ok ⟨_, rfl, ?_, hs'⟩
    rw [leftOf, he]
    exact hstores
  | late =>
    simp only [he] at hord
    simp only [hremove]
    refine (clearTrimmed_late rzB hle h he hord hs).bind fun s' hs' => ?_
    obtain ⟨chunks', hadd, hstores⟩ := htAddNode_spec hrest (mc.resized mc.data (addr + szB))
    rw [trimBounds_late hle h he hord, hadd]
    refine .of_ok ⟨_, rfl, ?_, hs'⟩
    rw [leftOf, he]
    exact hstores

/-- One chunk whose new bounds are not in order. -/
theorem trimChunk_fails (hle : addr + szB ≤ wordMod) (h : mc.Pooled) (hord : ¬ Ordered addr szB mc)
    (hchunks : Stores HeapChunk.key t.chunks (mc ::ₘ others)) (hkeys : ∀ c ∈ others, c.data ≠ mc.data) :
    trimChunk env rzB addr szB t mc = .error .assertFailed := by
  obtain ⟨chunks, hremove, -⟩ := htRemove_of_cons hchunks hkeys
  have hremove : htRemove HeapChunk.key t.chunks mc.data = some (mc, chunks) := hremove
  have hclear : clearTrimmed env addr szB t.secmaps mc = .error .assertFailed := clearTrimmed_fails hle h hord
  rw [trimChunk_eq]
  unfold Ordered at hord
  cases he : ends addr szB mc with
  | inside => exact absurd (by rw [he]; trivial) hord
  | outside => exact absurd (by rw [he]; trivial) hord
  | early | late =>
    simp only [hremove, hclear]
    rfl

variable {l : List (HeapChunk ε)}

/-- The chunks that are still to be trimmed, and those that are left of the others. -/
structure Pending (t : Trim ε) (l : List (HeapChunk ε)) (done : Multiset (HeapChunk ε)) : Prop where
  chunks : Stores HeapChunk.key t.chunks (l + done)
  pooled : ∀ mc ∈ l, mc.Pooled
  apart : l.Pairwise Apart
  done : ∀ c ∈ done, ∀ mc ∈ l, ¬ mc.Has c.data
  inv : t.secmaps.Inv

omit [Machine] in
theorem HeapChunk.has_data (hpos : 0 < mc.szB) : mc.Has mc.data := ⟨le_refl _, Nat.lt_add_of_pos_right hpos⟩

theorem Pending.keys (h : Pending t (mc :: l) done) : ∀ c ∈ (l : Multiset (HeapChunk ε)) + done, c.data ≠ mc.data := by
  have hhas := mc.has_data (h.pooled mc List.mem_cons_self).pos
  intro c hc heq
  rcases Multiset.mem_add.mp hc with hc | hc
  · refine ((List.pairwise_cons.mp h.apart).1 c hc).not_has hhas ?_
    rw [← heq]
    exact c.has_data (h.pooled c (List.mem_cons_of_mem _ hc)).pos
  · exact h.done c hc mc List.mem_cons_self (heq ▸ hhas)

theorem Pending.cons_chunks (h : Pending t (mc :: l) done) :
    Stores HeapChunk.key t.chunks (mc ::ₘ ((l : Multiset (HeapChunk ε)) + done)) := by
  have hchunks := h.chunks
  rwa [← Multiset.cons_coe, Multiset.cons_add] at hchunks

/-- When one more chunk has been trimmed. -/
theorem Pending.step {t' : Trim ε} (hle : addr + szB ≤ wordMod) (h : Pending t (mc :: l) done)
    (hchunks : Stores HeapChunk.key t'.chunks ((leftOf addr szB mc).toList + ((l : Multiset (HeapChunk ε)) + done)))
    (hinv : t'.secmaps.Inv) : Pending t' l (((leftOf addr szB mc).toList : Multiset (HeapChunk ε)) + done) where
  chunks := by
    rw [add_left_comm]
    exact hchunks
  pooled := fun c hc => h.pooled c (List.mem_cons_of_mem _ hc)
  apart := (List.pairwise_cons.mp h.apart).2
  done := by
    intro c hc mc' hmc'
    rcases Multiset.mem_add.mp hc with hc | hc
    · exact ((List.pairwise_cons.mp h.apart).1 mc' hmc').not_has
        (leftOf_has hle (h.pooled mc List.mem_cons_self) c (Option.mem_toList.mp hc))
    · exact h.done c hc mc' (List.mem_cons_of_mem _ hmc')
  inv := hinv

/-- **The loop**, when all new bounds are in order. -/
theorem trimChunks_spec (hle : addr + szB ≤ wordMod) (hfill : assertFill env.cloFreeFill = .ok ())
    (hord : ∀ mc ∈ l, Ordered addr szB mc) (h : Pending t l done) :
    Returns env.al (trimChunks env rzB addr szB t l) fun r => r.2 = none ∧
      Stores HeapChunk.key r.1.chunks (l.filterMap (leftOf addr szB) + done) ∧
      AfterClearing r.1.secmaps (vabits2At t.secmaps) (ClearedBy rzB addr szB l) := by
  induction l generalizing t done with
  | nil => exact .of_ok ⟨rfl, h.chunks, .refl h.inv fun x hx => by simp [ClearedBy] at hx⟩
  | cons mc l ih =>
    obtain ⟨hmc, hord⟩ := List.forall_mem_cons.mp hord
    have hone : Returns env.al (trimChunk env rzB addr szB t mc) _ := trimChunk_spec hle hfill
      (h.pooled mc List.mem_cons_self) hmc h.cons_chunks h.keys h.inv
    rw [trimChunks]
    refine hone.bind fun r hr => ?_
    obtain ⟨t', rfl, hchunks, hclear⟩ := hr
    refine (ih hord (h.step hle hchunks hclear.inv)).mono fun r hr => ⟨hr.1, ?_, (hclear.trans hr.2.2).congr fun x _ => ?_⟩
    · have hleft : ((mc :: l).filterMap (leftOf addr szB) : Multiset (HeapChunk ε)) =
          ((leftOf addr szB mc).toList : Multiset (HeapChunk ε)) + (l.filterMap (leftOf addr szB)) := by
        rw [List.filterMap_cons]
        cases leftOf addr szB mc with
        | none => exact (zero_add _).symm
        | some c => rfl
      rw [hleft, add_assoc, add_left_comm]
      exact hr.2.1
    · simp only [ClearedBy, List.mem_cons, exists_eq_or_imp]

/-- The loop fails at a chunk whose new bounds are not in order, if there is memory enough. -/
theorem trimChunks_fails (env : HeapEnv ε) (rzB : Nat) (hle : addr + szB ≤ wordMod) (hfill : assertFill env.cloFreeFill = .ok ())
    (hal : ∀ mapped, env.al.alloc mapped ≠ none) (hord : ¬ ∀ mc ∈ l, Ordered addr szB mc) (h : Pending t l done) :
    trimChunks env rzB addr szB t l = .error .assertFailed := by
  induction l generalizing t done with
  | nil => exact absurd (List.forall_mem_nil _) hord
  | cons mc l ih =>
    have hpooled := h.pooled mc List.mem_cons_self
    rw [trimChunks]
    by_cases hmc : Ordered addr szB mc
    · have hone : Returns env.al (trimChunk env rzB addr szB t mc) _ :=
        trimChunk_spec hle hfill hpooled hmc h.cons_chunks h.keys h.inv
      rcases hone with ⟨r, hr, t', rfl, hchunks, hclear⟩ | ⟨-, mapped, hnone⟩
      · rw [hr, ok_bind]
        exact ih (fun hrest => hord (List.forall_mem_cons.mpr ⟨hmc, hrest⟩)) (h.step hle hchunks hclear.inv)
      · exact absurd hnone (hal mapped)
    · rw [trimChunk_fails hle hpooled hmc h.cons_chunks h.keys]
      rfl

/-! ## The pool -/

variable {st : HeapState ε} {pool : Nat} {mp : Mempool ε}

/-- What is to be true of a pool with these chunks when it has been trimmed. -/
structure Trimmed (pool addr szB : Nat) (chunks : List (HeapChunk ε)) (s : SecMaps) (st : HeapState ε) : Prop where
  stored : ∃ mp, st.mempoolList pool = some mp ∧
    Stores HeapChunk.key mp.chunks (chunks.filterMap (HeapChunk.meet addr szB))
  outside : ∀ mc ∈ chunks, ∀ x, mc.Has x → ¬ InExtent addr szB x → vabits2At st.secmaps x = vaBits2Noaccess
  inside : ∀ mc ∈ chunks, ∀ x, mc.Has x → InExtent addr szB x → vabits2At st.secmaps x = vabits2At s x

/-- The code trims the pool as it should: every chunk is trimmed as it should be, and what is
cleared is what lies outside the extent, but for bytes that are not accessible anyway. -/
structure Trimmable (rzB addr szB : Nat) (chunks : List (HeapChunk ε)) (s : SecMaps) : Prop where
  length_lt : chunks.length < 2 ^ 32
  fits : ∀ mc ∈ chunks, mc.Fits addr szB
  outside : ∀ mc ∈ chunks, ∀ x, mc.Has x → ¬ InExtent addr szB x →
    ClearedBy rzB addr szB chunks x ∨ vabits2At s x = vaBits2Noaccess
  inside : ∀ mc ∈ chunks, ∀ x, mc.Has x → InExtent addr szB x →
    ClearedBy rzB addr szB chunks x → vabits2At s x = vaBits2Noaccess

omit [Machine] in
theorem checkMempoolSane_of_lt (h : mp.chunks.nodes.length < 2 ^ 32) : checkMempoolSane mp = .ok () := by
  rw [checkMempoolSane, htToArray, Nat.mod_eq_of_lt h]
  simp only [le_refl, if_true]
  split <;> rfl

/-- With less than 2^32 chunks the loop goes over all of them. -/
theorem mempoolTrim_of_lt (hpool : st.mempoolList pool = some mp) (hlt : mp.chunks.nodes.length < 2 ^ 32) :
    mempoolTrim env st pool addr szB = (do
      let (t, missing) ← trimChunks env mp.rzB addr szB ⟨mp.chunks, st.freed, st.secmaps⟩ mp.chunks.nodes
      checkMempoolSane { mp with chunks := t.chunks }
      return st.trimmed pool mp t missing) := by
  have hsane := checkMempoolSane_of_lt hlt
  rw [mempoolTrim, hpool]
  simp only [hsane, ok_bind, htToArray, Nat.mod_eq_of_lt hlt, le_refl, if_true]
  by_cases hnil : mp.chunks.nodes = []
  · simp only [hnil, List.length_nil, if_true, ok_bind, trimChunks, hsane]
    have hst : st.trimmed pool mp ⟨mp.chunks, st.freed, st.secmaps⟩ none = st := by
      rw [HeapState.trimmed, ← hpool, Function.update_eq_self]
      simp
    rw [hst]
  · rw [if_neg (fun h => hnil (List.length_eq_zero_iff.mp h))]
    rfl

/-- With a multiple of 2^32 chunks it does nothing. -/
theorem mempoolTrim_of_dvd (hpool : st.mempoolList pool = some mp) (hdvd : 2 ^ 32 ∣ mp.chunks.nodes.length) :
    mempoolTrim env st pool addr szB = .ok st := by
  rw [mempoolTrim, hpool]
  simp only [checkMempoolSane, htToArray, Nat.mod_eq_zero_of_dvd hdvd, if_true]
  rfl

/-- With another large number of chunks it writes behind the end of its array. -/
theorem mempoolTrim_of_ge (hpool : st.mempoolList pool = some mp) (hge : 2 ^ 32 ≤ mp.chunks.nodes.length)
    (hdvd : ¬ 2 ^ 32 ∣ mp.chunks.nodes.length) : mempoolTrim env st pool addr szB = .error .fault := by
  have hlt : mp.chunks.nodes.length % 2 ^ 32 < 2 ^ 32 := Nat.mod_lt _ (by decide)
  rw [mempoolTrim, hpool]
  simp only [checkMempoolSane, htToArray]
  rw [if_neg (fun h => hdvd (Nat.dvd_of_mod_eq_zero h)), if_neg (by omega)]
  rfl

omit [Machine] in
/-- A chunk that trimming leaves as it is. -/
theorem meet_eq_self_iff (hpos : 0 < mc.szB) : mc.meet addr szB = some mc ↔ addr ≤ mc.data ∧ mc.data + mc.szB ≤ addr + szB := by
  rw [HeapChunk.meet]
  constructor
  · intro h
    split at h
    · have heq := Option.some.inj h
      have hdata : max mc.data addr = mc.data := congrArg (fun c : HeapChunk ε => c.data) heq
      have hszB : min (mc.data + mc.szB) (addr + szB) - max mc.data addr = mc.szB :=
        congrArg (fun c : HeapChunk ε => c.szB) heq
      omega
    · exact nomatch h
  · rintro ⟨hlo, hhi⟩
    simp only [Nat.max_eq_left hlo, Nat.min_eq_left hhi]
    rw [if_pos (by omega), Nat.add_sub_cancel_left]

/-- At the beginning of the loop. -/
theorem pending_nodes (st : HeapState ε) (hnodes : Stores HeapChunk.key mp.chunks mp.chunks.nodes)
    (hpooled : ∀ mc ∈ mp.chunks.nodes, mc.Pooled) (hapart : mp.chunks.nodes.Pairwise Apart) (hinv : st.secmaps.Inv) :
    Pending ⟨mp.chunks, st.freed, st.secmaps⟩ mp.chunks.nodes 0 :=
  ⟨(add_zero (mp.chunks.nodes : Multiset (HeapChunk ε))).symm ▸ hnodes, hpooled, hapart,
    fun c hc => absurd hc (Multiset.notMem_zero c), hinv⟩

omit [Machine] in
/-- What begins in a chunk begins in no other chunk. -/
theorem data_apart (a b y : HeapChunk ε) (h : Apart a b) : a.Has y.data → ¬ b.Has y.data := h.not_has

/-- The chunks of a pool that is trimmed as it should be, when all new bounds are in order. -/
theorem trimmed_iff {st' : HeapState ε} {mp' : Mempool ε} (hszB : 0 < szB) (hle : addr + szB ≤ wordMod)
    (hpooled : ∀ mc ∈ l, mc.Pooled) (hapart : l.Pairwise Apart) (hord : ∀ mc ∈ l, Ordered addr szB mc) (hlt : l.length < 2 ^ 32)
    (hpool : st'.mempoolList pool = some mp') (hleft : Stores HeapChunk.key mp'.chunks (l.filterMap (leftOf addr szB)))
    (hclear : AfterClearing st'.secmaps (vabits2At st.secmaps) (ClearedBy rzB addr szB l)) :
    Trimmed pool addr szB l st.secmaps st' ↔ Trimmable rzB addr szB l st.secmaps := by
  have hword : ∀ mc ∈ l, ∀ x, mc.Has x → x < wordMod := fun mc hmc x hx => hx.2.trans_le (hpooled mc hmc).le
  constructor
  · rintro ⟨⟨mp, hmp, hmeet⟩, hout, hin⟩
    obtain rfl := Option.some.inj (hpool.symm.trans hmp)
    have heq : ((l.filterMap (leftOf addr szB) : List (HeapChunk ε)) : Multiset (HeapChunk ε)) =
        l.filterMap (HeapChunk.meet addr szB) := hleft.coe_nodes.symm.trans hmeet.coe_nodes
    have hmem : ∀ y, y ∈ l.filterMap (leftOf addr szB) ↔ y ∈ l.filterMap (HeapChunk.meet addr szB) := fun y => by
      rw [← Multiset.mem_coe, heq, Multiset.mem_coe]
    have hlefts : ∀ mc ∈ l, ∀ c ∈ leftOf addr szB mc, mc.Has c.data := fun mc hmc => leftOf_has hle (hpooled mc hmc)
    have hmeets : ∀ mc ∈ l, ∀ c ∈ mc.meet addr szB, mc.Has c.data := fun mc _ => meet_has
    refine ⟨hlt, fun mc hmc => (fits_iff hszB hle (hpooled mc hmc)).mp ⟨hord mc hmc, Option.ext fun y => ?_⟩,
      fun mc hmc x hx hnin => ?_, fun mc hmc x hx hxin hcl => ?_⟩
    · exact ⟨fun hy => eq_of_filterMap_eq hapart data_apart hlefts hmeets (fun y => (hmem y).mp) hmc hy,
        fun hy => eq_of_filterMap_eq hapart data_apart hmeets hlefts (fun y => (hmem y).mpr) hmc hy⟩
    · by_contra hnor
      obtain ⟨hncl, hne⟩ := not_or.mp hnor
      exact hne ((hclear.kept x (hword mc hmc x hx) hncl).symm.trans (hout mc hmc x hx hnin))
    · exact (hin mc hmc x hx hxin).symm.trans (hclear.noaccess x (hword mc hmc x hx) hcl)
  · intro h
    have hmeet : l.filterMap (leftOf addr szB) = l.filterMap (HeapChunk.meet addr szB) :=
      List.filterMap_congr fun mc hmc => ((fits_iff hszB hle (hpooled mc hmc)).mpr (h.fits mc hmc)).2
    refine ⟨⟨mp', hpool, hmeet ▸ hleft⟩, fun mc hmc x hx hnin => ?_, fun mc hmc x hx hxin => ?_⟩
    · by_cases hcl : ClearedBy rzB addr szB l x
      · exact hclear.noaccess x (hword mc hmc x hx) hcl
      · rw [hclear.kept x (hword mc hmc x hx) hcl]
        exact (h.outside mc hmc x hx hnin).resolve_left hcl
    · by_cases hcl : ClearedBy rzB addr szB l x
      · rw [hclear.noaccess x (hword mc hmc x hx) hcl, h.inside mc hmc x hx hxin hcl]
      · exact hclear.kept x (hword mc hmc x hx) hcl

/-- With less than 2^32 chunks, the loop ends with what `trimmed_iff` is about, or there is no
memory left. -/
theorem mempoolTrim_returns (env : HeapEnv ε) (hpool : st.mempoolList pool = some mp) (hle : addr + szB ≤ wordMod)
    (hfill : assertFill env.cloFreeFill = .ok ()) (hlt : mp.chunks.nodes.length < 2 ^ 32)
    (hord : ∀ mc ∈ mp.chunks.nodes, Ordered addr szB mc)
    (h : Pending ⟨mp.chunks, st.freed, st.secmaps⟩ mp.chunks.nodes 0) :
    Returns env.al (mempoolTrim env st pool addr szB) fun st' => ∃ mp', st'.mempoolList pool = some mp' ∧
      Stores HeapChunk.key mp'.chunks (mp.chunks.nodes.filterMap (leftOf addr szB)) ∧
      AfterClearing st'.secmaps (vabits2At st.secmaps) (ClearedBy mp.rzB addr szB mp.chunks.nodes) := by
  rw [mempoolTrim_of_lt hpool hlt]
  refine (trimChunks_spec hle hfill hord h).bind fun r hr => ?_
  obtain ⟨t, missing⟩ := r
  obtain ⟨rfl, hchunks, hclear⟩ := hr
  rw [add_zero] at hchunks
  have hlength : t.chunks.nodes.length < 2 ^ 32 := by
    have hcard := congrArg Multiset.card hchunks.coe_nodes
    rw [Multiset.coe_card, Multiset.coe_card] at hcard
    rw [hcard]
    exact (List.length_filterMap_le _ _).trans_lt hlt
  have hsane : checkMempoolSane { mp with chunks := t.chunks } = .ok () := checkMempoolSane_of_lt hlength
  simp only [hsane, ok_bind]
  exact .of_ok ⟨{ mp with chunks := t.chunks }, Function.update_self .., hchunks, hclear⟩

/-- **When a pool is trimmed to the extent.** There is memory for the shadow state or not. -/
theorem mempoolTrim_iff (hpool : st.mempoolList pool = some mp)
    (hnodes : Stores HeapChunk.key mp.chunks mp.chunks.nodes) (hpooled : ∀ mc ∈ mp.chunks.nodes, mc.Pooled)
    (hapart : mp.chunks.nodes.Pairwise Apart) (hinv : st.secmaps.Inv) (hfill : assertFill env.cloFreeFill = .ok ())
    (hszB : 0 < szB) (hle : addr + szB ≤ wordMod) :
    (∀ al, Returns al (mempoolTrim { env with al } st pool addr szB)
      (Trimmed pool addr szB mp.chunks.nodes st.secmaps)) ↔
    Trimmable mp.rzB addr szB mp.chunks.nodes st.secmaps ∨
      2 ^ 32 ≤ mp.chunks.nodes.length ∧ 2 ^ 32 ∣ mp.chunks.nodes.length ∧
        ∀ mc ∈ mp.chunks.nodes, addr ≤ mc.data ∧ mc.data + mc.szB ≤ addr + szB := by
  have hpending := pending_nodes st hnodes hpooled hapart hinv
  have hplenty : ∀ mapped, bumpAlloc.alloc mapped ≠ none := fun mapped h => Option.some_ne_none _ h
  rcases Nat.lt_or_ge mp.chunks.nodes.length (2 ^ 32) with hlt | hge
  · rw [or_iff_left fun h => absurd h.1 (Nat.not_le.mpr hlt)]
    constructor
    · intro hall
      by_cases hord : ∀ mc ∈ mp.chunks.nodes, Ordered addr szB mc
      · have hrun := mempoolTrim_returns { env with al := bumpAlloc } hpool hle hfill hlt hord hpending
        rcases hrun with ⟨st', hst', mp', hmp', hleft, hclear⟩ | ⟨-, mapped, hnone⟩
        · exact (trimmed_iff hszB hle hpooled hapart hord hlt hmp' hleft hclear).mp ((hall bumpAlloc).of_eq_ok hst')
        · exact absurd hnone (hplenty mapped)
      · have hfails := trimChunks_fails { env with al := bumpAlloc } mp.rzB hle hfill hplenty hord hpending
        have hrun : mempoolTrim { env with al := bumpAlloc } st pool addr szB = .error .assertFailed := by
          rw [mempoolTrim_of_lt hpool hlt, hfails]
          rfl
        rcases hall bumpAlloc with ⟨st', hst', -⟩ | ⟨hexit, -⟩
        · exact nomatch hrun.symm.trans hst'
        · exact nomatch hrun.symm.trans hexit
    · intro h al
      have hord : ∀ mc ∈ mp.chunks.nodes, Ordered addr szB mc := fun mc hmc =>
        ((fits_iff hszB hle (hpooled mc hmc)).mpr (h.fits mc hmc)).1
      refine (mempoolTrim_returns { env with al } hpool hle hfill hlt hord hpending).mono fun st' hst' => ?_
      obtain ⟨mp', hmp', hleft, hclear⟩ := hst'
      exact (trimmed_iff hszB hle hpooled hapart hord hlt hmp' hleft hclear).mpr h
  · rw [or_iff_right fun h => absurd h.length_lt (Nat.not_lt.mpr hge), and_iff_right hge]
    by_cases hdvd : 2 ^ 32 ∣ mp.chunks.nodes.length
    · rw [and_iff_right hdvd]
      constructor
      · intro hall mc hmc
        obtain ⟨⟨mp', hmp', hmeet⟩, -, -⟩ := (hall bumpAlloc).of_eq_ok (mempoolTrim_of_dvd hpool hdvd)
        obtain rfl := Option.some.inj (hpool.symm.trans hmp')
        have heq := hnodes.coe_nodes.symm.trans hmeet.coe_nodes
        refine (meet_eq_self_iff (hpooled mc hmc).pos).mp (eq_of_filterMap_eq (f := some) hapart data_apart ?_
          (fun mc _ => meet_has) (fun y hy => ?_) hmc rfl)
        · intro mc hmc c hc
          obtain rfl := Option.some.inj hc
          exact mc.has_data (hpooled mc hmc).pos
        · rw [List.filterMap_some] at hy
          rwa [← Multiset.mem_coe, ← heq, Multiset.mem_coe]
      · intro hwithin al
        rw [mempoolTrim_of_dvd hpool hdvd]
        have hmeet : mp.chunks.nodes.filterMap (HeapChunk.meet addr szB) = mp.chunks.nodes :=
          (List.filterMap_congr fun mc hmc => (meet_eq_self_iff (hpooled mc hmc).pos).mpr (hwithin mc hmc)).trans
            List.filterMap_some
        refine .of_ok ⟨⟨mp, hpool, hmeet.symm ▸ hnodes⟩, fun mc hmc x hx hnin => absurd ?_ hnin, fun _ _ _ _ _ => rfl⟩
        exact ⟨(hwithin mc hmc).1.trans hx.1, hx.2.trans_le (hwithin mc hmc).2⟩
    · refine iff_of_false (fun hall => ?_) fun h => hdvd h.1
      have hrun : mempoolTrim { env with al := bumpAlloc } st pool addr szB = .error .fault :=
        mempoolTrim_of_ge hpool hge hdvd
      rcases hall bumpAlloc with ⟨st', hst', -⟩ | ⟨hexit, -⟩
      · exact nomatch hrun.symm.trans hst'
      · exact nomatch hrun.symm.trans hexit

/-! ## Two pools -/

/-- A chunk of 16 bytes at 4096, which the client has announced. -/
def sampleChunk : HeapChunk Unit := ⟨⟨4096, 16, ()⟩, .custom⟩

/-- A pool at 1024 with this chunk. -/
def samplePool : Mempool Unit where
  pool := 1024
  rzB := 0
  isZeroed := false
  chunks := ⟨769, 1, fun i => if 251 = i then [sampleChunk] else []⟩

/-- The only pool. -/
def samplePools : HeapState Unit where
  mallocList := htConstruct _
  mempoolList := fun pool => if pool = 1024 then some samplePool else none
  freed := ⟨[], 0⟩
  secmaps := initSecMaps
  errors := []

/-- No block is allocated here. -/
def samplePoolEnv : HeapEnv Unit where
  al := bumpAlloc
  cloAlignment := 8
  cloMallocFill := -1
  cloFreeFill := -1
  cloFreelistVol := 10000000
  cliMalloc := fun _ _ => 0
  chunkAt := 0x70000000
  context := ()
  ecuOf := fun _ => 4

omit [Machine] in
theorem nodes_samplePool : samplePool.chunks.nodes = [sampleChunk] := by decide +kernel

omit [Machine] in
theorem stores_samplePool : Stores HeapChunk.key samplePool.chunks samplePool.chunks.nodes := by
  refine ⟨(by decide : 769 ∈ htPrimes), fun i => ?_⟩
  rw [nodes_samplePool, Multiset.coe_singleton, Multiset.filter_singleton]
  show ((if 251 = i then [sampleChunk] else [] : List (HeapChunk Unit)) : Multiset (HeapChunk Unit)) =
    if 251 = i then {sampleChunk} else ∅
  split <;> rfl

omit [Machine] in
theorem pooled_samplePool : letI : Machine := x86Linux
    ∀ mc ∈ samplePool.chunks.nodes, mc.Pooled := by
  let _ : Machine := x86Linux
  intro mc hmc
  rw [nodes_samplePool, List.mem_singleton] at hmc
  subst hmc
  exact ⟨by decide, by decide, by decide, rfl⟩

omit [Machine] in
theorem apart_samplePool : samplePool.chunks.nodes.Pairwise Apart := by
  rw [nodes_samplePool]
  exact List.pairwise_singleton _ _

omit [Machine] in
/-- The second half of the chunk is in the extent, which is as long as the chunk. -/
theorem mempoolTrim_iff_half : letI : Machine := x86Linux
    samplePool.chunks.nodes = [sampleChunk] ∧
      ∀ al, Returns al (mempoolTrim { samplePoolEnv with al } samplePools 1024 4104 16)
        (Trimmed 1024 4104 16 samplePool.chunks.nodes samplePools.secmaps) := by
  let _ : Machine := x86Linux
  refine ⟨nodes_samplePool, (mempoolTrim_iff rfl stores_samplePool pooled_samplePool apart_samplePool initSecMaps_inv rfl
    (by decide) (by decide)).mpr (.inl ?_)⟩
  have hends : ends 4104 16 sampleChunk = .early := by decide
  rw [nodes_samplePool]
  refine ⟨by decide, ?_, fun mc hmc x hx hnin => .inr vabits2At_init, fun mc hmc x hx _ _ => vabits2At_init⟩
  intro mc hmc
  rw [List.mem_singleton.mp hmc, HeapChunk.Fits, hends]
  decide

omit [Machine] in
/-- A chunk that reaches beyond both ends of the extent is thrown out altogether. -/
theorem mempoolTrim_middle : letI : Machine := x86Linux
    ¬ ∀ al, Returns al (mempoolTrim { samplePoolEnv with al } samplePools 1024 4100 8)
      (Trimmed 1024 4100 8 samplePool.chunks.nodes samplePools.secmaps) := by
  let _ : Machine := x86Linux
  intro hall
  have hends : ends 4100 8 sampleChunk = .outside := by decide
  have hlt : samplePool.chunks.nodes.length < 2 ^ 32 := by rw [nodes_samplePool]; decide
  have hord : ∀ mc ∈ samplePool.chunks.nodes, Ordered 4100 8 mc := by
    rw [nodes_samplePool]
    intro mc hmc
    rw [List.mem_singleton.mp hmc, Ordered, hends]
    trivial
  have hpending := pending_nodes samplePools stores_samplePool pooled_samplePool apart_samplePool initSecMaps_inv
  have hrun : Returns bumpAlloc (mempoolTrim { samplePoolEnv with al := bumpAlloc } samplePools 1024 4100 8) _ :=
    mempoolTrim_returns { samplePoolEnv with al := bumpAlloc } rfl (by decide) rfl hlt hord hpending
  rcases hrun with ⟨st', hst', mp', hmp', hleft, hclear⟩ | ⟨-, mapped, hnone⟩
  · have hright := (trimmed_iff (by decide) (by decide) pooled_samplePool apart_samplePool hord hlt hmp' hleft hclear).mp
      ((hall bumpAlloc).of_eq_ok hst')
    have hfits := hright.fits sampleChunk (by rw [nodes_samplePool]; exact List.mem_singleton_self _)
    rw [HeapChunk.Fits, hends] at hfits
    exact absurd hfits (by decide)
  · exact nomatch hnone

end

end Valgrind.Memcheck
