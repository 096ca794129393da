import Valgrind.Cachegrind.CacheSim

/-!
# Hits for lines that have not been touched

The tag arrays are zeroed and there is no valid bit, so that the line with tag 0 of a set is present
from the start. Apart from these lines a reference is counted as a hit only if the lines that have
been looked up are present, and these are all the lines it touches, unless it straddles two lines of a
cache with a single set (`noFalseHits`).
-/

namespace Valgrind.Cachegrind

/-! ## What is present -/

section Present

variable {g : Geometry} {h u : List Nat} {c : CacheT2} {l : Nat}

/-- The lines of a reference that are looked up: with a single set, only the first one. -/
def Geometry.looked (g : Geometry) (a size : Nat) : List Nat :=
  if g.setBits = 0 then [g.line a] else g.lines a size

/-- A reference to a level with any number of sets. -/
theorem Level.doref_looked [Machine] (hc : Level g h c) {a size : Nat} (h₁ : 1 ≤ size)
    (h₂ : size ≤ 2 ^ g.lineBits) (ha : a + size - 1 < wordMod) :
    ∃ c', cachesimDoref c a size =
        .ok (c', (g.looked a size).any fun l => decide (l ∉ g.content h (g.setOf l))) ∧
      Level g (g.looked a size ++ h) c' := by
  unfold Geometry.looked
  by_cases hone : g.setBits = 0
  · rw [if_pos hone]
    have hset : ∀ l, g.setOf l = 0 := fun l => by
      have hlt := g.setOf_lt l
      rw [hone] at hlt
      omega
    obtain ⟨tags, hblock, hlevel⟩ := hc.block (g.line a)
    refine ⟨{ c with tags := tags }, ?_, hlevel⟩
    rw [hc.geometry.doref h₁ ha, if_pos ((hset _).trans (hset _).symm), hblock]
    simp only [List.any_cons, List.any_nil, Bool.or_false]
    rfl
  · rw [if_neg hone]
    exact hc.doref (Nat.pos_of_ne_zero hone) h₁ h₂ ha

/-- Fewer lines of the set of `l` have been used than it holds. -/
def Geometry.Sparse (g : Geometry) (u : List Nat) (l : Nat) : Prop :=
  (u.filter fun k => decide (g.setOf k = g.setOf l)).toFinset.card < 2 ^ g.assocBits

/-- **A line that is present** has been used, or it has tag 0 and its set is not yet full of others. -/
theorem used_or_zero (hl : l ∈ g.content (u ++ List.range (2 ^ g.setBits)) (g.setOf l)) :
    l ∈ u ∨ l / 2 ^ g.setBits = 0 ∧ g.Sparse u l := by
  by_cases hu : l ∈ u
  · exact .inl hu
  refine .inr ?_
  have hset := g.setOf_lt l
  obtain ⟨s, hs⟩ : ∃ s, s = g.setOf l := ⟨_, rfl⟩
  rw [← hs] at hl hset
  unfold Geometry.content at hl
  rw [List.filter_append, filter_range_setOf g hset] at hl
  obtain ⟨q, hq⟩ : ∃ q, q = u.filter fun k => decide (g.setOf k = s) := ⟨_, rfl⟩
  have hlq : l ∉ q := fun h => hu (List.mem_of_mem_filter (hq ▸ h))
  rw [← hq] at hl
  have hmem := Lru.mem_recency.mp (List.mem_of_mem_take hl)
  obtain rfl : l = s := by simpa [hlq] using hmem
  refine ⟨Nat.div_eq_of_lt hset, ?_⟩
  unfold Geometry.Sparse
  rw [← hs, ← hq, Lru.card_toFinset]
  by_contra hfull
  rw [Lru.recency_concat hlq, List.take_append_of_le_length (Nat.not_lt.mp hfull)] at hl
  exact hlq (Lru.mem_recency.mp (List.mem_of_mem_take hl))

end Present

/-! ## Runs -/

section Runs

/-- A configuration that has been checked, of `Int`s, with any number of sets. -/
structure CheckedCache extends Cache where
  isInt : size < 2 ^ 31
  checked : checkCache toCache = .ok ()

/-- The references that have reached the levels, the last one first. -/
structure Reached where
  i1 : List Ref
  d1 : List Ref
  l2 : List Ref

variable [Machine]

/-- A reference, and the levels that it reaches: the second one if the first one has counted a miss. -/
def track (t : Sim × Reached) (ref : Ref) : Result (Sim × Reached) := do
  let s ← t.1.doref ref
  return (s, {
    i1 := if ref.isInstr then ref :: t.2.i1 else t.2.i1
    d1 := if ref.isInstr then t.2.d1 else ref :: t.2.d1
    l2 := if s.m1 ref.cc = t.1.m1 ref.cc then t.2.l2 else ref :: t.2.l2 })

/-- The line has been touched by one of the references, or it has tag 0 and the references start in
fewer lines of its set than there is room for. -/
def Geometry.Known (g : Geometry) (rs : List Ref) (l : Nat) : Prop :=
  (∃ r ∈ rs, l ∈ g.lines r.a r.size) ∨ l / 2 ^ g.setBits = 0 ∧ g.Sparse (rs.map fun r => g.line r.a) l

/-- The reference does not straddle two lines, or the cache has more than one set. -/
def Geometry.Separates (g : Geometry) (ref : Ref) : Prop :=
  1 ≤ g.setBits ∨ g.line ref.a = g.line (ref.a + ref.size - 1)

/-- The level has seen the references, unless it has no tags at all. -/
def Tracks (g : Geometry) (rs : List Ref) (c : CacheT2) : Prop :=
  Level g ((rs.flatMap fun r => g.looked r.a r.size) ++ List.range (2 ^ g.setBits)) c ∨ c.tags = []

variable {g gi gd gl : Geometry} {rs : List Ref} {c c' : CacheT2} {ref : Ref} {s s' : Sim} {isMiss : Bool}

/-- Without tags there is nothing to look up. -/
theorem doref_of_nil (hnil : c.tags = []) (a size : Nat) : cachesimDoref c a size ≠ .ok (c', isMiss) := by
  have hblock : ∀ assoc set tag, block assoc set tag c.tags = .error .fault := fun assoc set tag => by
    rw [hnil]
    rfl
  unfold cachesimDoref
  simp only [hblock]
  split
  · exact fun h => (nomatch h)
  · split
    · exact fun h => (nomatch h)
    · exact fun h => (nomatch h)

omit [Machine] in
theorem line_mem_looked (g : Geometry) (a size : Nat) : g.line a ∈ g.looked a size := by
  unfold Geometry.looked Geometry.lines
  split_ifs <;> simp

omit [Machine] in
theorem looked_subset (g : Geometry) (a size : Nat) : ∀ l ∈ g.looked a size, l ∈ g.lines a size := by
  unfold Geometry.looked Geometry.lines
  split_ifs <;> simp

omit [Machine] in
theorem lines_subset (h : g.Separates ref) : ∀ l ∈ g.lines ref.a ref.size, l ∈ g.looked ref.a ref.size := by
  unfold Geometry.looked
  split
  · rename_i hone
    rw [Geometry.lines, if_pos (h.resolve_left (by omega))]
    exact fun l hl => hl
  · exact fun l hl => hl

omit [Machine] in
/-- What has been looked up is known. -/
theorem known_of_used {l : Nat} (h : l ∈ (rs.flatMap fun r => g.looked r.a r.size) ∨
    l / 2 ^ g.setBits = 0 ∧ g.Sparse (rs.flatMap fun r => g.looked r.a r.size) l) : g.Known rs l := by
  refine h.imp (fun h => ?_) (And.imp_right fun h => Nat.lt_of_le_of_lt (Finset.card_le_card fun k hk => ?_) h)
  · obtain ⟨r, hr, hl⟩ := List.mem_flatMap.mp h
    exact ⟨r, hr, looked_subset g r.a r.size l hl⟩
  · rw [List.mem_toFinset, List.mem_filter] at hk ⊢
    obtain ⟨r, hr, rfl⟩ := List.mem_map.mp hk.1
    exact ⟨List.mem_flatMap.mpr ⟨r, hr, line_mem_looked g r.a r.size⟩, hk.2⟩

/-- **A reference to a level** is a hit only for lines that are known. -/
theorem Tracks.doref (hc : Tracks g rs c) (h₁ : 1 ≤ ref.size) (h₂ : ref.size ≤ 2 ^ g.lineBits)
    (ha : ref.a + ref.size - 1 < wordMod) (hrun : cachesimDoref c ref.a ref.size = .ok (c', isMiss)) :
    Tracks g (ref :: rs) c' ∧
      (isMiss = false → g.Separates ref → ∀ l ∈ g.lines ref.a ref.size, g.Known rs l) := by
  rcases hc with hc | hnil
  · obtain ⟨c₁, hdoref, hlevel⟩ := hc.doref_looked h₁ h₂ ha
    rw [hdoref] at hrun
    cases hrun
    refine ⟨.inl ?_, fun hhit hsep l hl => ?_⟩
    · rw [List.flatMap_cons, List.append_assoc]
      exact hlevel
    · have hpresent := List.any_eq_false.mp hhit l (lines_subset hsep l hl)
      exact known_of_used (used_or_zero (by simpa using hpresent))
  · exact absurd hrun (doref_of_nil hnil _ _)

/-- What a reference does, as far as levels are concerned. -/
theorem Sim.doref_ok (h : s.doref ref = .ok s') : ∃ c isMiss,
    cachesimDoref (if ref.isInstr then s.i1 else s.d1) ref.a ref.size = .ok (c, isMiss) ∧
    s'.i1 = (if ref.isInstr then c else s.i1) ∧ s'.d1 = (if ref.isInstr then s.d1 else c) ∧
    if isMiss then s'.m1 ref.cc ≠ s.m1 ref.cc ∧ ∃ isMiss₂, cachesimDoref s.l2 ref.a ref.size = .ok (s'.l2, isMiss₂) ∧
      (s'.m2 ref.cc = s.m2 ref.cc → isMiss₂ = false)
    else s'.m1 ref.cc = s.m1 ref.cc ∧ s'.l2 = s.l2 := by
  have hne : ∀ m : ULong, m + 1 ≠ m := fun m hm => by simp at hm
  unfold Sim.doref at h
  obtain ⟨⟨c, c₂, m1, m2⟩, hl1, h⟩ := bind_eq_ok.mp h
  obtain rfl := Except.ok.inj h
  unfold cachesimL1Doref at hl1
  obtain ⟨⟨c', isMiss⟩, hdoref, hl1⟩ := bind_eq_ok.mp hl1
  cases isMiss with
  | true =>
    obtain ⟨⟨c₂', m2'⟩, hl2, hl1⟩ := bind_eq_ok.mp hl1
    cases hl1
    unfold cachesimL2Doref at hl2
    obtain ⟨⟨c₂'', isMiss₂⟩, hdoref₂, hl2⟩ := bind_eq_ok.mp hl2
    cases hl2
    refine ⟨c, true, hdoref, rfl, rfl, ?_, isMiss₂, hdoref₂, fun hm => ?_⟩
    · dsimp only
      rw [Function.update_self]
      exact hne _
    · dsimp only at hm
      rw [Function.update_self] at hm
      cases isMiss₂ with
      | true => exact absurd hm (hne _)
      | false => rfl
  | false =>
    cases hl1
    exact ⟨c, false, hdoref, rfl, rfl, Function.update_self _ _ _, rfl⟩

/-- The levels have seen the references that have reached them. -/
structure TracksAll (gi gd gl : Geometry) (t : Sim × Reached) : Prop where
  i1 : Tracks gi t.2.i1 t.1.i1
  d1 : Tracks gd t.2.d1 t.1.d1
  l2 : Tracks gl t.2.l2 t.1.l2

/-- A hit in one of the levels is counted only if all lines are known there. -/
def TrueHits (gi gd gl : Geometry) (t : Sim × Reached) (ref : Ref) (s' : Sim) : Prop :=
  let g := if ref.isInstr then gi else gd
  let rs := if ref.isInstr then t.2.i1 else t.2.d1
  (s'.m1 ref.cc = t.1.m1 ref.cc → g.Separates ref → ∀ l ∈ g.lines ref.a ref.size, g.Known rs l) ∧
    (s'.m1 ref.cc ≠ t.1.m1 ref.cc → s'.m2 ref.cc = t.1.m2 ref.cc → gl.Separates ref →
      ∀ l ∈ gl.lines ref.a ref.size, gl.Known t.2.l2 l)

/-- **One reference.** -/
theorem TracksAll.track {t t' : Sim × Reached} (h : TracksAll gi gd gl t) (hfits : ref.Fits gi gd gl)
    (hrun : track t ref = .ok t') : TracksAll gi gd gl t' ∧ TrueHits gi gd gl t ref t'.1 := by
  obtain ⟨hsize, hline, hline₂, ha⟩ := hfits
  obtain ⟨s', hdoref, hrun⟩ := bind_eq_ok.mp hrun
  obtain rfl := Except.ok.inj hrun
  obtain ⟨c, isMiss, hl1, hi1, hd1, hl2⟩ := Sim.doref_ok hdoref
  have hfirst : Tracks (if ref.isInstr then gi else gd) (if ref.isInstr then t.2.i1 else t.2.d1)
      (if ref.isInstr then t.1.i1 else t.1.d1) := by
    cases ref.isInstr with
    | true => exact h.i1
    | false => exact h.d1
  obtain ⟨hfirst', hhit⟩ := hfirst.doref hsize hline ha hl1
  have hlevels : Tracks gi (if ref.isInstr then ref :: t.2.i1 else t.2.i1) s'.i1 ∧
      Tracks gd (if ref.isInstr then t.2.d1 else ref :: t.2.d1) s'.d1 := by
    rw [hi1, hd1]
    cases hinstr : ref.isInstr with
    | true =>
      rw [hinstr] at hfirst'
      exact ⟨hfirst', h.d1⟩
    | false =>
      rw [hinstr] at hfirst'
      exact ⟨h.i1, hfirst'⟩
  cases isMiss with
  | true =>
    obtain ⟨hm1, isMiss₂, hdoref₂, hm2⟩ := hl2
    obtain ⟨hsecond, hhit₂⟩ := h.l2.doref hsize hline₂ ha hdoref₂
    refine ⟨⟨hlevels.1, hlevels.2, ?_⟩, fun hm => absurd hm hm1, fun _ hm => hhit₂ (hm2 hm)⟩
    rw [if_neg hm1]
    exact hsecond
  | false =>
    obtain ⟨hm1, hsame⟩ := hl2
    refine ⟨⟨hlevels.1, hlevels.2, ?_⟩, fun _ => hhit rfl, fun hm => absurd hm1 hm⟩
    rw [if_pos hm1, hsame]
    exact h.l2

omit [Machine] in
/-- An associativity that is accepted without being positive is so negative that there is no set. -/
theorem tags_of_nonpos {cache : Cache} (hint : cache.size < 2 ^ 31) (hchecked : checkCache cache = .ok ())
    (hneg : cache.assoc ≤ 0) : (cachesimInitcache cache).tags = [] := by
  obtain ⟨-, hassoc, -, hmin, hlt, -⟩ := checkCache_spec hchecked
  unfold minLineSize at hmin
  have hquot : 0 ≤ cache.size.tdiv cache.lineSize := Int.tdiv_nonneg (by omega) (by omega)
  have hsize : cache.size.tdiv cache.lineSize ≤ cache.size := Int.tdiv_le_self _ (by omega)
  have hfar : cache.size.tdiv cache.lineSize < -cache.assoc := by
    unfold log2 at hassoc
    split at hassoc
    · rename_i i hi
      have hpow : 2 ^ i = (cache.assoc % 2 ^ 32).toNat := by simpa using List.find?_some hi
      have hle : 2 ^ i ≤ 2 ^ 31 := Nat.pow_le_pow_right (by decide) (by
        have := List.mem_range.mp (List.mem_of_find?_eq_some hi)
        omega)
      have hpos := Nat.two_pow_pos i
      omega
    · exact absurd rfl hassoc
  have hsets : (cache.size.tdiv cache.lineSize).tdiv cache.assoc = 0 := by
    rw [← neg_neg cache.assoc, Int.tdiv_neg, Int.tdiv_eq_zero_of_lt hquot hfar, neg_zero]
  show List.replicate ((cache.size.tdiv cache.lineSize).tdiv cache.assoc * cache.assoc).toNat 0 = []
  rw [hsets, Int.zero_mul]
  rfl

omit [Machine] in
theorem tracks_init (cache : CheckedCache) : Tracks cache.geometry [] (cachesimInitcache cache.toCache) := by
  by_cases hpos : 0 < cache.assoc
  · exact .inl (Cache.level_init cache.isInt cache.checked hpos)
  · exact .inr (tags_of_nonpos cache.isInt cache.checked (by omega))

/-- The references of a run all fit, and so the levels have seen them. -/
theorem tracksAll_run {refs : List Ref} {t t' : Sim × Reached} (h : TracksAll gi gd gl t)
    (hfits : ∀ r ∈ refs, r.Fits gi gd gl) (hrun : runSteps track t refs = .ok t') : TracksAll gi gd gl t' := by
  induction refs generalizing t with
  | nil =>
    obtain rfl := Except.ok.inj hrun
    exact h
  | cons ref refs ih =>
    obtain ⟨t₁, hstep, hrest⟩ := runSteps_cons.mp hrun
    exact ih (h.track (hfits ref List.mem_cons_self) hstep).1 (fun r hr => hfits r (List.mem_cons_of_mem _ hr)) hrest

/-- **No false hits**: whatever references have come before, a reference is counted as a hit in a level
only if all lines it touches have been touched by references that reached the level, or have tag 0 as
long as the set is not full of other lines; a reference that straddles two lines of a level with a single
set is not covered. -/
theorem noFalseHits (i1 d1 l2 : CheckedCache) {refs : List Ref} {ref : Ref}
    (hfits : ∀ r ∈ ref :: refs, r.Fits i1.geometry d1.geometry l2.geometry) {t t' : Sim × Reached}
    (hrun : runSteps track (Sim.init i1.toCache d1.toCache l2.toCache, ⟨[], [], []⟩) refs = .ok t)
    (hstep : track t ref = .ok t') : TrueHits i1.geometry d1.geometry l2.geometry t ref t'.1 := by
  have hinit : TracksAll i1.geometry d1.geometry l2.geometry
      (Sim.init i1.toCache d1.toCache l2.toCache, ⟨[], [], []⟩) :=
    ⟨tracks_init i1, tracks_init d1, tracks_init l2⟩
  have hseen := tracksAll_run hinit (fun r hr => hfits r (List.mem_cons_of_mem _ hr)) hrun
  exact (hseen.track (hfits ref List.mem_cons_self) hstep).2

end Runs

/-- A fully associative configuration of 16 lines of 32 bytes. -/
def fullyAssociative : CheckedCache where
  size := 512
  assoc := 16
  lineSize := 32
  isInt := by decide
  checked := by decide

/-- The fully associative caches after one reference, and a second reference to the same line. -/
theorem noFalseHits_sameLine : ∃ t t' : Sim × Reached,
    runSteps (@track amd64Linux) (Sim.init fullyAssociative.toCache fullyAssociative.toCache
      fullyAssociative.toCache, ⟨[], [], []⟩) [⟨false, 4096, 4, 0⟩] = .ok t ∧
    @track amd64Linux t ⟨false, 4098, 2, 0⟩ = .ok t' ∧ t'.1.m1 0 = t.1.m1 0 ∧
    TrueHits fullyAssociative.geometry fullyAssociative.geometry fullyAssociative.geometry t ⟨false, 4098, 2, 0⟩
      t'.1 := by
  refine ⟨_, _, rfl, rfl, by decide, @noFalseHits amd64Linux fullyAssociative fullyAssociative fullyAssociative
    [⟨false, 4096, 4, 0⟩] ⟨false, 4098, 2, 0⟩ ?_ _ _ rfl rfl⟩
  decide

/-- All lines that the reference touches have been touched by one of the references. -/
def Geometry.AllTouched (g : Geometry) (rs : List Ref) (ref : Ref) : Prop :=
  ∀ l ∈ g.lines ref.a ref.size, ∃ r ∈ rs, l ∈ g.lines r.a r.size

/-- The very first reference is counted as a hit if it is to a line with tag 0; and in a cache with a single
set so is a reference that straddles two lines of which only the first one has been touched. -/
theorem hits_untouched :
    (∃ t' : Sim × Reached, @track amd64Linux (Sim.init config8k.toCache config8k.toCache config8k.toCache,
        ⟨[], [], []⟩) ⟨false, 0, 4, 0⟩ = .ok t' ∧ t'.1.m1 0 = 0 ∧
      ¬ config8k.geometry.AllTouched [] ⟨false, 0, 4, 0⟩) ∧
    ∃ t t' : Sim × Reached, runSteps (@track amd64Linux) (Sim.init fullyAssociative.toCache
        fullyAssociative.toCache fullyAssociative.toCache, ⟨[], [], []⟩) [⟨false, 4096, 4, 0⟩] = .ok t ∧
      @track amd64Linux t ⟨false, 4126, 4, 0⟩ = .ok t' ∧ t'.1.m1 0 = t.1.m1 0 ∧
      ¬ fullyAssociative.geometry.AllTouched t.2.d1 ⟨false, 4126, 4, 0⟩ := by
  refine ⟨⟨_, rfl, by decide, fun h => ?_⟩, ⟨_, _, rfl, rfl, by decide, ?_⟩⟩
  · obtain ⟨r, hr, -⟩ := h 0 (by decide)
    exact nomatch hr
  · unfold Geometry.AllTouched
    decide

end Valgrind.Cachegrind
