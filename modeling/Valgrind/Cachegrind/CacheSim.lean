import Valgrind.Basics.Machine
import Valgrind.Basics.Result
import Valgrind.Lib.Lru

/-!
# The cache simulation

A level of the cache is an array of tags, `assoc` for each set, the most recently used one
first. A reference looks the line (or the two lines) it touches up in their sets and moves
them to the front; if one of them is missing the reference is a miss, whose treatment is to
count it and, in the first level, to refer to the second one.
-/

namespace Valgrind.Cachegrind

/-- `cache_t`. -/
structure Cache where
  size : Int
  assoc : Int
  lineSize : Int
  deriving DecidableEq, Repr

/-- `cache_t2`. -/
structure CacheT2 where
  size : Int
  assoc : Int
  lineSize : Int
  sets : Int
  setsMin1 : Int
  assocBits : Int
  lineSizeBits : Int
  tagShift : Int
  tags : List Nat
  deriving DecidableEq, Repr

/-- `ULong`. -/
abbrev ULong := BitVec 64

/-- `VG_(log2)`: the argument is an `UInt`. -/
def log2 (x : Int) : Int :=
  match (List.range 32).find? fun i => decide (2 ^ i = (x % 2 ^ 32).toNat) with
  | some i => i
  | none => -1

/-- `MIN_LINE_SIZE`. -/
def minLineSize : Int := 16

/-- `check_cache`. -/
def checkCache (cache : Cache) : Result Unit := do
  if log2 cache.size = -1 then throw .exit
  if log2 cache.assoc = -1 then throw .exit
  if log2 cache.lineSize = -1 then throw .exit
  if cache.lineSize < minLineSize then throw .exit
  if cache.size ≤ cache.lineSize then throw .exit
  if cache.assoc > cache.size.tdiv cache.lineSize then throw .exit

/-- `cachesim_initcache`. -/
def cachesimInitcache (config : Cache) : CacheT2 :=
  let sets := (config.size.tdiv config.lineSize).tdiv config.assoc
  let lineSizeBits := log2 config.lineSize
  { size := config.size
    assoc := config.assoc
    lineSize := config.lineSize
    sets := sets
    setsMin1 := sets - 1
    assocBits := log2 config.assoc
    lineSizeBits := lineSizeBits
    tagShift := lineSizeBits + log2 sets
    tags := List.replicate (sets * config.assoc).toNat 0 }

/-! ## Looking up a line -/

/-- `tags[k]`. -/
def readTag (tags : List Nat) (k : Nat) : Result Nat :=
  match tags[k]? with
  | some tag => .ok tag
  | none => .error .fault

/-- `tags[k] = tag`. -/
def writeTag (tags : List Nat) (k tag : Nat) : Result (List Nat) :=
  if k < tags.length then .ok (tags.set k tag) else .error .fault

/-- `for (; j > 0; j--) set[j] = set[j - 1];`, the set being at the index `set`. -/
def shuffleDown (set : Nat) : Nat → List Nat → Result (List Nat)
  | 0, tags => .ok tags
  | j + 1, tags => do
    let tag ← readTag tags (set + j)
    let tags ← writeTag tags (set + (j + 1)) tag
    shuffleDown set j tags

/-- The search for a tag other than the most recently used one: `n` are left, from the
index `i` on. -/
def findTag (set tag : Nat) (tags : List Nat) : (n i : Nat) → Result (Option Nat)
  | 0, _ => .ok none
  | n + 1, i => do
    if tag = (← readTag tags (set + i)) then return some i
    findTag set tag tags n (i + 1)

/-- What `cachesim_doref` does with one block: the tag is moved to the front of its set; the
result says whether it was missing. -/
def block (assoc set tag : Nat) (tags : List Nat) : Result (List Nat × Bool) := do
  if tag = (← readTag tags set) then return (tags, false)
  match ← findTag set tag tags (assoc - 1) 1 with
  | some i => do
    let tags ← shuffleDown set i tags
    let tags ← writeTag tags set tag
    return (tags, false)
  | none => do
    let tags ← shuffleDown set (assoc - 1) tags
    let tags ← writeTag tags set tag
    return (tags, true)

section Doref

variable [Machine]

/-- `cachesim_doref`: the result says whether `MISS_TREATMENT` is done. -/
def cachesimDoref (l : CacheT2) (a size : Nat) : Result (CacheT2 × Bool) :=
  let last := subW (addW a size) 1
  let set1 := (a >>> l.lineSizeBits.toNat) &&& l.setsMin1.toNat
  let set2 := (last >>> l.lineSizeBits.toNat) &&& l.setsMin1.toNat
  let tag := a >>> l.tagShift.toNat
  if set1 = set2 then do
    let (tags, isMiss) ← block l.assoc.toNat (set1 <<< l.assocBits.toNat) tag l.tags
    return ({ l with tags := tags }, isMiss)
  else if (set1 + 1) &&& (l.sets - 1).toNat = set2 then do
    let (tags, isMiss) ← block l.assoc.toNat (set1 <<< l.assocBits.toNat) tag l.tags
    let tag2 := last >>> l.tagShift.toNat
    let (tags, isMiss2) ← block l.assoc.toNat (set2 <<< l.assocBits.toNat) tag2 tags
    return ({ l with tags := tags }, isMiss || isMiss2)
  else .error .panic

/-- `cachesim_L2_doref`. -/
def cachesimL2Doref (l2 : CacheT2) (a size : Nat) (m2 : ULong) : Result (CacheT2 × ULong) := do
  let (l2, isMiss) ← cachesimDoref l2 a size
  return (l2, if isMiss then m2 + 1 else m2)

/-- `cachesim_I1_doref` and `cachesim_D1_doref`. -/
def cachesimL1Doref (l1 l2 : CacheT2) (a size : Nat) (m1 m2 : ULong) :
    Result (CacheT2 × CacheT2 × ULong × ULong) := do
  let (l1, isMiss) ← cachesimDoref l1 a size
  if isMiss then do
    let (l2, m2) ← cachesimL2Doref l2 a size m2
    return (l1, l2, m1 + 1, m2)
  else return (l1, l2, m1, m2)

end Doref

/-! ## One block -/

section Block

variable (tag : Nat) (p r : List Nat)

theorem readTag_append (x : Nat) : readTag (p ++ x :: r) p.length = .ok x := by
  simp [readTag]

theorem writeTag_append (x : Nat) : writeTag (p ++ x :: r) p.length tag = .ok (p ++ tag :: r) := by
  simp [writeTag]

/-- Shuffling down and storing the tag at the front: the elements `u` move down by one, over
the element `x`. -/
theorem shuffleDown_write (u : List Nat) (x : Nat) :
    (do
      let tags ← shuffleDown p.length u.length (p ++ u ++ x :: r)
      writeTag tags p.length tag) = .ok (p ++ tag :: u ++ r) := by
  induction u using List.reverseRecOn generalizing x r with
  | nil =>
    rw [List.append_nil, List.append_assoc]
    exact writeTag_append tag p r x
  | append_singleton u y ih =>
    have hread : readTag (p ++ (u ++ [y]) ++ x :: r) (p.length + u.length) = .ok y := by
      have := readTag_append (p ++ u) (x :: r) y
      rwa [List.length_append, List.append_assoc, ← List.singleton_append, ← List.append_assoc u,
        ← List.append_assoc p] at this
    have hwrite : writeTag (p ++ (u ++ [y]) ++ x :: r) (p.length + (u.length + 1)) y =
        .ok (p ++ u ++ y :: y :: r) := by
      have := writeTag_append y (p ++ (u ++ [y])) r x
      rw [List.length_append, List.length_append, List.length_singleton] at this
      rw [this]
      simp
    rw [List.length_append, List.length_singleton, shuffleDown, hread, ok_bind, hwrite, ok_bind,
      ih (y :: r) y]
    simp

theorem shuffleDown_write_return (u : List Nat) (x : Nat) (isMiss : Bool) :
    (do
      let tags ← shuffleDown p.length u.length (p ++ u ++ x :: r)
      let tags ← writeTag tags p.length tag
      return (tags, isMiss)) = .ok (p ++ tag :: u ++ r, isMiss) := by
  rw [← bind_assoc, shuffleDown_write]
  rfl

/-- The search finds the first place of the tag. -/
theorem findTag_spec (u v : List Nat) :
    findTag p.length tag (p ++ u ++ v ++ r) v.length u.length =
      .ok (if tag ∈ v then some (u.length + v.idxOf tag) else none) := by
  induction v generalizing u with
  | nil => rfl
  | cons x v ih =>
    have hread : readTag (p ++ u ++ (x :: v) ++ r) (p.length + u.length) = .ok x := by
      have := readTag_append (p ++ u) (v ++ r) x
      rwa [List.length_append, ← List.cons_append, ← List.append_assoc] at this
    rw [List.length_cons, findTag, hread, ok_bind]
    by_cases htag : tag = x
    · rw [if_pos htag, if_pos (htag ▸ List.mem_cons_self), htag, List.idxOf_cons_self]
      rfl
    · have hnext := ih (u ++ [x])
      rw [List.length_append, List.length_singleton] at hnext
      rw [if_neg htag]
      have happ : p ++ (u ++ [x]) ++ v ++ r = p ++ u ++ (x :: v) ++ r := by simp
      rw [happ] at hnext
      show findTag p.length tag (p ++ u ++ x :: v ++ r) v.length (u.length + 1) = _
      rw [hnext]
      by_cases hv : tag ∈ v
      · rw [if_pos hv, if_pos (List.mem_cons_of_mem _ hv), List.idxOf_cons_ne _ (Ne.symm htag), Nat.add_assoc,
          Nat.add_comm 1]
      · rw [if_neg hv, if_neg (by simp [htag, hv])]

/-- **One block** is moved to the front of its set. -/
theorem block_spec {q : List Nat} (hq : q ≠ []) :
    block q.length p.length tag (p ++ q ++ r) = .ok (p ++ Lru.install tag q ++ r, decide (tag ∉ q)) := by
  obtain ⟨x, v, rfl⟩ := List.exists_cons_of_ne_nil hq
  have hread : readTag (p ++ x :: v ++ r) p.length = .ok x := by
    rw [List.append_assoc]
    exact readTag_append p (v ++ r) x
  have hfind : findTag p.length tag (p ++ x :: v ++ r) v.length 1 =
      .ok (if tag ∈ v then some (1 + v.idxOf tag) else none) := by
    have := findTag_spec tag p r [x] v
    rwa [List.append_assoc p] at this
  rw [block, hread, ok_bind]
  by_cases htag : tag = x
  · subst htag
    rw [if_pos rfl, Lru.install, if_pos List.mem_cons_self, List.erase_cons_head]
    simp only [List.mem_cons_self, not_true, decide_false]
    rfl
  rw [if_neg htag]
  show (findTag p.length tag (p ++ x :: v ++ r) v.length 1 >>= _) = _
  rw [hfind, ok_bind]
  by_cases hv : tag ∈ v
  · obtain ⟨v₁, v₂, rfl, hv₁⟩ := List.eq_append_cons_of_mem hv
    have hidx : (v₁ ++ tag :: v₂).idxOf tag = v₁.length := by
      rw [List.idxOf_append_of_notMem hv₁, List.idxOf_cons_self, Nat.add_zero]
    have hinstall : Lru.install tag (x :: (v₁ ++ tag :: v₂)) = tag :: x :: v₁ ++ v₂ := by
      rw [Lru.install, if_pos (List.mem_cons_of_mem _ hv), List.erase_cons_tail (by simpa using Ne.symm htag),
        List.erase_append_right _ hv₁, List.erase_cons_head]
      rfl
    have hshuffle := shuffleDown_write_return tag p (v₂ ++ r) (x :: v₁) tag false
    have hlist : p ++ (x :: v₁) ++ tag :: (v₂ ++ r) = p ++ x :: (v₁ ++ tag :: v₂) ++ r := by simp
    rw [hlist, List.length_cons, Nat.add_comm] at hshuffle
    rw [if_pos hv, hidx, hinstall, decide_eq_false (not_not.mpr (List.mem_cons_of_mem _ hv))]
    exact hshuffle.trans (by simp)
  · obtain ⟨u, y, huy⟩ : ∃ u y, x :: v = u ++ [y] := (List.eq_nil_or_concat' (x :: v)).resolve_left (by simp)
    have hmiss : tag ∉ x :: v := by simp [htag, hv]
    have hlen : u.length = v.length := by
      have := congrArg List.length huy
      simpa using this.symm
    have hshuffle := shuffleDown_write_return tag p r u y true
    have hlist : p ++ u ++ y :: r = p ++ x :: v ++ r := by simp [huy]
    rw [hlist, hlen] at hshuffle
    rw [if_neg hv, Lru.install, if_neg hmiss, decide_eq_true hmiss]
    simp only [huy, List.dropLast_concat]
    rw [huy] at hshuffle
    have hpred : (u ++ [y]).length - 1 = v.length := by simp [hlen]
    rw [hpred]
    exact hshuffle

end Block

/-! ## The cache that is simulated -/

/-- The logarithms of the line size, the number of sets and the number of lines in a set. -/
structure Geometry where
  lineBits : Nat
  setBits : Nat
  assocBits : Nat

/-- The line that an address is in. -/
def Geometry.line (g : Geometry) (a : Nat) : Nat := a / 2 ^ g.lineBits

/-- The set that a line belongs to. -/
def Geometry.setOf (g : Geometry) (l : Nat) : Nat := l % 2 ^ g.setBits

/-- The lines that a reference touches, the last one first. -/
def Geometry.lines (g : Geometry) (a size : Nat) : List Nat :=
  if g.line a = g.line (a + size - 1) then [g.line a] else [g.line (a + size - 1), g.line a]

/-- The most recently used lines of a set, as many as it holds, the most recent one first; `h`
are the lines that have been used, the last one first. -/
def Geometry.content (g : Geometry) (h : List Nat) (set : Nat) : List Nat :=
  (Lru.recency (h.filter fun l => decide (g.setOf l = set))).take (2 ^ g.assocBits)

/-- One of the lines that are touched is absent. -/
def Geometry.misses (g : Geometry) (h : List Nat) (a size : Nat) : Bool :=
  (g.lines a size).any fun l => decide (l ∉ g.content h (g.setOf l))

/-- The tags of a set. -/
def Geometry.setTags (g : Geometry) (tags : List Nat) (set : Nat) : List Nat :=
  (tags.drop (set * 2 ^ g.assocBits)).take (2 ^ g.assocBits)

/-- The line in the set with the tag. -/
def Geometry.lineOf (g : Geometry) (set tag : Nat) : Nat := tag * 2 ^ g.setBits + set

/-- The fields of the level are those of the geometry. -/
structure Geometry.Holds (g : Geometry) (c : CacheT2) : Prop where
  assoc : c.assoc.toNat = 2 ^ g.assocBits
  sets : (c.sets - 1).toNat = 2 ^ g.setBits - 1
  setsMin1 : c.setsMin1.toNat = 2 ^ g.setBits - 1
  assocBits : c.assocBits.toNat = g.assocBits
  lineSizeBits : c.lineSizeBits.toNat = g.lineBits
  tagShift : c.tagShift.toNat = g.lineBits + g.setBits
  length : c.tags.length = 2 ^ g.setBits * 2 ^ g.assocBits

/-- After the uses `h` the tags of every set, read without duplicates, are its most recently
used lines. -/
structure Level (g : Geometry) (h : List Nat) (c : CacheT2) : Prop where
  geometry : g.Holds c
  sets : ∀ set < 2 ^ g.setBits,
    Lru.Padded set (g.content h set) ((g.setTags c.tags set).map (g.lineOf set))

section Level

variable {g : Geometry} {h : List Nat} {c : CacheT2} {l : Nat}

theorem Geometry.setOf_lt (g : Geometry) (l : Nat) : g.setOf l < 2 ^ g.setBits :=
  Nat.mod_lt _ (Nat.two_pow_pos _)

theorem Geometry.lineOf_injective (g : Geometry) (set : Nat) : Function.Injective (g.lineOf set) := by
  intro t u h
  exact Nat.eq_of_mul_eq_mul_right (Nat.two_pow_pos g.setBits) (Nat.add_right_cancel h)

theorem Geometry.lineOf_tag (g : Geometry) (l : Nat) : g.lineOf (g.setOf l) (l / 2 ^ g.setBits) = l :=
  Nat.div_add_mod' l _

/-- Renaming the elements of an array. -/
theorem map_install {f : Nat → Nat} (hf : Function.Injective f) (t : Nat) (q : List Nat) :
    (Lru.install t q).map f = Lru.install (f t) (q.map f) := by
  unfold Lru.install
  by_cases ht : t ∈ q
  · rw [if_pos ht, if_pos (List.mem_map_of_mem ht), List.map_cons, List.map_erase hf]
  · rw [if_neg ht, if_neg (by rwa [List.mem_map_of_injective hf]), List.map_cons, List.map_dropLast]

theorem content_cons_self : g.content (l :: h) (g.setOf l) =
    Lru.touch (2 ^ g.assocBits) l (g.content h (g.setOf l)) := by
  rw [Geometry.content, List.filter_cons_of_pos (by simp), Lru.take_recency_cons]
  rfl

theorem content_cons_of_ne {set : Nat} (hne : g.setOf l ≠ set) :
    g.content (l :: h) set = g.content h set := by
  rw [Geometry.content, List.filter_cons_of_neg (by simpa using hne)]
  rfl

/-- The tags outside a part of the array that is replaced. -/
theorem setTags_middle {p q q' r : List Nat} (hlen : q.length = q'.length) {set : Nat}
    (hout : (set + 1) * 2 ^ g.assocBits ≤ p.length ∨ p.length + q.length ≤ set * 2 ^ g.assocBits) :
    g.setTags (p ++ q' ++ r) set = g.setTags (p ++ q ++ r) set := by
  refine List.ext_getElem? fun n => ?_
  unfold Geometry.setTags
  by_cases hn : n < 2 ^ g.assocBits
  · rw [List.getElem?_take_of_lt hn, List.getElem?_take_of_lt hn, List.getElem?_drop, List.getElem?_drop]
    rcases hout with h | h
    · have hlt : set * 2 ^ g.assocBits + n < p.length := by
        rw [Nat.add_mul, Nat.one_mul] at h
        omega
      rw [List.append_assoc, List.append_assoc, List.getElem?_append_left hlt, List.getElem?_append_left hlt]
    · rw [List.getElem?_append_right (by rw [List.length_append]; omega),
        List.getElem?_append_right (by rw [List.length_append]; omega), List.length_append, List.length_append,
        hlen]
  · rw [List.getElem?_eq_none (by simp; omega), List.getElem?_eq_none (by simp; omega)]

/-- **A line** that is touched moves to the front of its set. -/
theorem Level.block (hc : Level g h c) (l : Nat) :
    ∃ tags, block c.assoc.toNat (g.setOf l <<< c.assocBits.toNat) (l / 2 ^ g.setBits) c.tags =
        .ok (tags, decide (l ∉ g.content h (g.setOf l))) ∧
      Level g (l :: h) { c with tags := tags } := by
  obtain ⟨hassoc, hsets, hmin, hab, hlb, hshift, hlength⟩ := hc.geometry
  have hset := g.setOf_lt l
  obtain ⟨set, hs⟩ : ∃ set, set = g.setOf l := ⟨_, rfl⟩
  rw [← hs] at hset ⊢
  have hbase : set * 2 ^ g.assocBits + 2 ^ g.assocBits ≤ c.tags.length := by
    rw [hlength, ← Nat.succ_mul]
    exact Nat.mul_le_mul_right _ hset
  obtain ⟨p, hp⟩ : ∃ p, p = c.tags.take (set * 2 ^ g.assocBits) := ⟨_, rfl⟩
  obtain ⟨q, hq⟩ : ∃ q, q = g.setTags c.tags set := ⟨_, rfl⟩
  obtain ⟨r, hr⟩ : ∃ r, r = c.tags.drop (set * 2 ^ g.assocBits + 2 ^ g.assocBits) := ⟨_, rfl⟩
  have hplen : p.length = set * 2 ^ g.assocBits := by rw [hp, List.length_take]; omega
  have hqlen : q.length = 2 ^ g.assocBits := by
    rw [hq, Geometry.setTags, List.length_take, List.length_drop]
    omega
  have hsplit : c.tags = p ++ q ++ r := by
    rw [hp, hq, hr, Geometry.setTags, List.append_assoc, ← List.drop_drop, List.take_append_drop,
      List.take_append_drop]
  have hqne : q ≠ [] := by
    rintro rfl
    exact absurd hqlen (Nat.two_pow_pos _).ne
  have hpad := hc.sets set hset
  rw [← hq] at hpad
  obtain ⟨tag, htag⟩ : ∃ tag, tag = l / 2 ^ g.setBits := ⟨_, rfl⟩
  have hline : g.lineOf set tag = l := by rw [hs, htag, g.lineOf_tag]
  have hmem : tag ∈ q ↔ l ∈ g.content h set := by
    rw [← hpad.mem, ← hline, List.mem_map_of_injective (g.lineOf_injective set)]
  have hlen' : (Lru.install tag q).length = q.length := by
    unfold Lru.install
    have hpos := List.length_pos_iff.mpr hqne
    split
    · rw [List.length_cons, List.length_erase_of_mem ‹_›]
      omega
    · rw [List.length_cons, List.length_dropLast]
      omega
  refine ⟨p ++ Lru.install tag q ++ r, ?_, ⟨hassoc, hsets, hmin, hab, hlb, hshift, ?_⟩, fun set' hset' => ?_⟩
  · rw [hassoc, hab, Nat.shiftLeft_eq, ← hplen, ← hqlen, hsplit, ← htag, block_spec tag p r hqne]
    simp only [hmem]
  · simp only [List.length_append, hlen']
    rw [← List.length_append, ← List.length_append, ← hsplit, hlength]
  · have hsetTags : g.setTags (p ++ Lru.install tag q ++ r) set = Lru.install tag q := by
      rw [Geometry.setTags, ← hplen, List.append_assoc, List.drop_left, ← hqlen, ← hlen', List.take_left]
    by_cases heq : set = set'
    · subst heq
      show Lru.Padded set _ ((g.setTags (p ++ Lru.install tag q ++ r) set).map _)
      rw [hsetTags, map_install (g.lineOf_injective set), hline]
      have hcontent := content_cons_self (g := g) (h := h) (l := l)
      rw [← hs] at hcontent
      rw [hcontent]
      exact hpad.install (by rw [List.length_map, hqlen]) (Nat.two_pow_pos _) l
    · show Lru.Padded set' _ ((g.setTags (p ++ Lru.install tag q ++ r) set').map _)
      rw [content_cons_of_ne (hs ▸ heq), setTags_middle hlen'.symm ?_, ← hsplit]
      · exact hc.sets set' hset'
      · rw [hplen, hqlen, ← Nat.succ_mul]
        rcases Nat.lt_or_gt_of_ne heq with hlt | hgt
        · exact .inr (Nat.mul_le_mul_right _ hlt)
        · exact .inl (Nat.mul_le_mul_right _ hgt)

theorem Geometry.line_succ_setOf (g : Geometry) (hsets : 1 ≤ g.setBits) (l : Nat) :
    g.setOf (l + 1) = (g.setOf l + 1) % 2 ^ g.setBits ∧ g.setOf l ≠ g.setOf (l + 1) := by
  have hpow : 2 ≤ 2 ^ g.setBits := by
    calc 2 = 2 ^ 1 := rfl
      _ ≤ 2 ^ g.setBits := Nat.pow_le_pow_right (by decide) hsets
  have hmod : g.setOf (l + 1) = (g.setOf l + 1) % 2 ^ g.setBits := by
    unfold Geometry.setOf
    rw [Nat.mod_add_mod]
  refine ⟨hmod, fun heq => ?_⟩
  rw [← heq] at hmod
  have hlt := g.setOf_lt l
  rcases Nat.lt_or_ge (g.setOf l + 1) (2 ^ g.setBits) with h | h
  · rw [Nat.mod_eq_of_lt h] at hmod
    omega
  · have hfull : g.setOf l + 1 = 2 ^ g.setBits := by omega
    rw [hfull, Nat.mod_self] at hmod
    omega

/-- A reference that is not longer than a line touches one line, or two that are adjacent. -/
theorem Geometry.line_last (g : Geometry) {a size : Nat} (h₁ : 1 ≤ size) (h₂ : size ≤ 2 ^ g.lineBits) :
    g.line (a + size - 1) = g.line a ∨ g.line (a + size - 1) = g.line a + 1 := by
  have hle : g.line a ≤ g.line (a + size - 1) := Nat.div_le_div_right (by omega)
  have hge : g.line (a + size - 1) ≤ g.line a + 1 := by
    have hpos := Nat.two_pow_pos g.lineBits
    have : g.line a + 1 = (a + 2 ^ g.lineBits) / 2 ^ g.lineBits := (Nat.add_div_right _ hpos).symm
    rw [this]
    exact Nat.div_le_div_right (by omega)
  omega

section Doref

variable [Machine]

theorem last_eq {a size : Nat} (hsize : 1 ≤ size) (ha : a + size - 1 < wordMod) :
    subW (addW a size) 1 = a + size - 1 := by
  have hpos := wordMod_pos
  unfold subW addW
  rcases Nat.lt_or_ge (a + size) wordMod with h | h
  · rw [Nat.mod_eq_of_lt h]
    have : a + size + wordMod - 1 = (a + size - 1) + wordMod := by omega
    rw [this, Nat.add_mod_right, Nat.mod_eq_of_lt (by omega)]
  · have heq : a + size = wordMod := by omega
    rw [heq, Nat.mod_self, Nat.zero_add, Nat.mod_eq_of_lt (by omega)]

/-- `cachesim_doref` in terms of sets and lines. -/
theorem Geometry.Holds.doref (hc : g.Holds c) {a size : Nat} (h₁ : 1 ≤ size) (ha : a + size - 1 < wordMod) :
    cachesimDoref c a size = if g.setOf (g.line a) = g.setOf (g.line (a + size - 1)) then do
        let (tags, isMiss) ← Cachegrind.block c.assoc.toNat (g.setOf (g.line a) <<< c.assocBits.toNat)
          (g.line a / 2 ^ g.setBits) c.tags
        return ({ c with tags := tags }, isMiss)
      else if (g.setOf (g.line a) + 1) &&& (c.sets - 1).toNat = g.setOf (g.line (a + size - 1)) then do
        let (tags, isMiss) ← Cachegrind.block c.assoc.toNat (g.setOf (g.line a) <<< c.assocBits.toNat)
          (g.line a / 2 ^ g.setBits) c.tags
        let (tags, isMiss2) ← Cachegrind.block c.assoc.toNat (g.setOf (g.line (a + size - 1)) <<< c.assocBits.toNat)
          (g.line (a + size - 1) / 2 ^ g.setBits) tags
        return ({ c with tags := tags }, isMiss || isMiss2)
      else .error .panic := by
  have hset : ∀ b, (b >>> c.lineSizeBits.toNat) &&& c.setsMin1.toNat = g.setOf (g.line b) := fun b => by
    rw [hc.lineSizeBits, hc.setsMin1, Nat.shiftRight_eq_div_pow, Nat.and_two_pow_sub_one_eq_mod]
    rfl
  have htag : ∀ b, b >>> c.tagShift.toNat = g.line b / 2 ^ g.setBits := fun b => by
    rw [hc.tagShift, Nat.shiftRight_eq_div_pow, Nat.pow_add, ← Nat.div_div_eq_div_mul]
    rfl
  unfold cachesimDoref
  simp only [last_eq h₁ ha, hset, htag]

/-- **A reference** updates the sets of the lines it touches, and is a miss exactly if one of
these lines is absent. -/
theorem Level.doref (hc : Level g h c) (hsets : 1 ≤ g.setBits) {a size : Nat} (h₁ : 1 ≤ size)
    (h₂ : size ≤ 2 ^ g.lineBits) (ha : a + size - 1 < wordMod) :
    ∃ c', cachesimDoref c a size = .ok (c', g.misses h a size) ∧ Level g (g.lines a size ++ h) c' := by
  obtain ⟨tags, hblock, hlevel⟩ := hc.block (g.line a)
  rw [hc.geometry.doref h₁ ha]
  rcases g.line_last (a := a) h₁ h₂ with hsame | hnext
  · rw [hsame, if_pos rfl, hblock]
    refine ⟨{ c with tags := tags }, ?_, ?_⟩
    · simp only [Geometry.misses, Geometry.lines, if_pos hsame.symm, List.any_cons, List.any_nil, Bool.or_false]
      rfl
    · rw [Geometry.lines, if_pos hsame.symm]
      exact hlevel
  · obtain ⟨hmod, hne⟩ := g.line_succ_setOf hsets (g.line a)
    obtain ⟨tags', hblock', hlevel'⟩ := hlevel.block (g.line (a + size - 1))
    rw [content_cons_of_ne (by rwa [hnext])] at hblock'
    have hline : ¬ g.line a = g.line (a + size - 1) := by omega
    have hmisses : g.misses h a size = (decide (g.line a ∉ g.content h (g.setOf (g.line a))) ||
        decide (g.line (a + size - 1) ∉ g.content h (g.setOf (g.line (a + size - 1))))) := by
      rw [Geometry.misses, Geometry.lines, if_neg hline, Bool.or_comm]
      simp only [List.any_cons, List.any_nil, Bool.or_false]
    refine ⟨{ c with tags := tags' }, ?_, ?_⟩
    · rw [if_neg (by rwa [hnext]), hc.geometry.sets, Nat.and_two_pow_sub_one_eq_mod, ← hmod, hnext, if_pos rfl, hblock,
        hmisses, ← hnext]
      simp only [ok_bind, hblock']
      rfl
    · rw [Geometry.lines, if_neg hline]
      exact hlevel'

end Doref

end Level

/-! ## The zeroed cache -/

theorem log2_two_pow : ∀ n : Nat, n < 32 → log2 (2 ^ n) = n := by decide

theorem log2_spec {x : Int} (h₀ : 0 ≤ x) (h₁ : x < 2 ^ 32) (h : ¬ log2 x = -1) :
    ∃ n : Nat, n < 32 ∧ x = 2 ^ n ∧ log2 x = n := by
  unfold log2 at h
  split at h
  · rename_i i hi
    have hlt : i < 32 := List.mem_range.mp (List.mem_of_find?_eq_some hi)
    have hpow : 2 ^ i = (x % 2 ^ 32).toNat := by simpa using List.find?_some hi
    have hx : x = 2 ^ i := by
      rw [Int.emod_eq_of_lt h₀ h₁] at hpow
      calc x = x.toNat := (Int.toNat_of_nonneg h₀).symm
        _ = (2 : Int) ^ i := by rw [← hpow]; push_cast; rfl
    exact ⟨i, hlt, hx, hx ▸ log2_two_pow i hlt⟩
  · exact absurd rfl h

theorem checkCache_spec {cache : Cache} (h : checkCache cache = .ok ()) :
    ¬ log2 cache.size = -1 ∧ ¬ log2 cache.assoc = -1 ∧ ¬ log2 cache.lineSize = -1 ∧
      minLineSize ≤ cache.lineSize ∧ cache.lineSize < cache.size ∧
      cache.assoc ≤ cache.size.tdiv cache.lineSize := by
  unfold checkCache at h
  by_cases h₁ : log2 cache.size = -1
  · rw [if_pos h₁] at h
    exact nomatch h
  by_cases h₂ : log2 cache.assoc = -1
  · rw [if_neg h₁, if_pos h₂] at h
    exact nomatch h
  by_cases h₃ : log2 cache.lineSize = -1
  · rw [if_neg h₁, if_neg h₂, if_pos h₃] at h
    exact nomatch h
  by_cases h₄ : cache.lineSize < minLineSize
  · rw [if_neg h₁, if_neg h₂, if_neg h₃, if_pos h₄] at h
    exact nomatch h
  by_cases h₅ : cache.size ≤ cache.lineSize
  · rw [if_neg h₁, if_neg h₂, if_neg h₃, if_neg h₄, if_pos h₅] at h
    exact nomatch h
  by_cases h₆ : cache.assoc > cache.size.tdiv cache.lineSize
  · rw [if_neg h₁, if_neg h₂, if_neg h₃, if_neg h₄, if_neg h₅, if_pos h₆] at h
    exact nomatch h
  exact ⟨h₁, h₂, h₃, by omega, by omega, by omega⟩

/-- The number of sets. -/
def Cache.sets (cache : Cache) : Int := (cache.size.tdiv cache.lineSize).tdiv cache.assoc

/-- The geometry of a cache. -/
def Cache.geometry (cache : Cache) : Geometry where
  lineBits := (log2 cache.lineSize).toNat
  setBits := (log2 cache.sets).toNat
  assocBits := (log2 cache.assoc).toNat

/-- The sizes of a cache that has been checked are those of its geometry. -/
theorem Cache.pow {cache : Cache} (hint : cache.size < 2 ^ 31) (hchecked : checkCache cache = .ok ())
    (hapos : 0 < cache.assoc) :
    cache.lineSize = 2 ^ cache.geometry.lineBits ∧ log2 cache.lineSize = cache.geometry.lineBits ∧
      cache.assoc = 2 ^ cache.geometry.assocBits ∧ log2 cache.assoc = cache.geometry.assocBits ∧
      cache.sets = 2 ^ cache.geometry.setBits ∧ log2 cache.sets = cache.geometry.setBits := by
  obtain ⟨hsize, hassoc, hline, hmin, hlt, hle⟩ := checkCache_spec hchecked
  unfold minLineSize at hmin
  have hquot : cache.size.tdiv cache.lineSize ≤ cache.size := Int.tdiv_le_self _ (by omega)
  obtain ⟨s, hs, hspow, hslog⟩ := log2_spec (by omega) (by omega) hsize
  obtain ⟨a, ha, hapow, halog⟩ := log2_spec (by omega) (by omega) hassoc
  obtain ⟨l, hl, hlpow, hllog⟩ := log2_spec (by omega) (by omega) hline
  have hls : l ≤ s := by
    by_contra h
    rw [hspow, hlpow] at hlt
    exact absurd (pow_le_pow_right₀ (by decide : (1 : Int) ≤ 2) (Nat.le_of_not_le h)) (by omega)
  have hdiv : ∀ {m n : Nat}, n ≤ m → ((2 : Int) ^ m).tdiv (2 ^ n) = 2 ^ (m - n) := fun {m n} h => by
    obtain ⟨k, rfl⟩ := Nat.exists_eq_add_of_le h
    rw [pow_add, Int.mul_tdiv_cancel_left _ (by positivity), Nat.add_sub_cancel_left]
  have hq : cache.size.tdiv cache.lineSize = 2 ^ (s - l) := by rw [hspow, hlpow, hdiv hls]
  have has : a ≤ s - l := by
    by_contra h
    rw [hq, hapow] at hle
    exact absurd (pow_lt_pow_right₀ (by decide : (1 : Int) < 2) (Nat.lt_of_not_le h)) (by omega)
  have hsets : cache.sets = 2 ^ (s - l - a) := by
    rw [Cache.sets, hq, hapow, hdiv has]
  have hslog' : log2 cache.sets = (s - l - a : Nat) := by rw [hsets, log2_two_pow _ (by omega)]
  simp only [Cache.geometry, hllog, halog, hslog', Int.toNat_natCast]
  exact ⟨hlpow, trivial, hapow, trivial, hsets, trivial⟩

/-- A configuration that has been checked, of `Int`s, with two sets or more. -/
structure Config extends Cache where
  isInt : size < 2 ^ 31
  checked : checkCache toCache = .ok ()
  twoSets : 2 ≤ (size.tdiv lineSize).tdiv assoc

/-- The number of sets. -/
def Config.sets (config : Config) : Int := (config.size.tdiv config.lineSize).tdiv config.assoc

/-- The geometry of a configuration. -/
def Config.geometry (config : Config) : Geometry where
  lineBits := (log2 config.lineSize).toNat
  setBits := (log2 config.sets).toNat
  assocBits := (log2 config.assoc).toNat

theorem Config.assoc_pos (config : Config) : 0 < config.assoc := by
  obtain ⟨-, -, -, hmin, hlt, -⟩ := checkCache_spec config.checked
  have htwo := config.twoSets
  unfold minLineSize at hmin
  by_contra hneg
  have hquot : 0 ≤ config.size.tdiv config.lineSize := Int.tdiv_nonneg (by omega) (by omega)
  have := Int.tdiv_nonpos_of_nonneg_of_nonpos hquot (show config.assoc ≤ 0 by omega)
  omega

theorem Config.setBits_pos (config : Config) : 1 ≤ config.geometry.setBits := by
  obtain ⟨-, -, -, -, hsets, -⟩ := Cache.pow config.isInt config.checked config.assoc_pos
  have htwo : 2 ≤ config.toCache.sets := config.twoSets
  by_contra h
  have hzero : config.toCache.geometry.setBits = 0 := by
    show config.geometry.setBits = 0
    omega
  rw [hsets, hzero] at htwo
  exact absurd htwo (by decide)

/-- The lines of a set among the first ones. -/
theorem filter_range_setOf (g : Geometry) {set : Nat} (hset : set < 2 ^ g.setBits) :
    (List.range (2 ^ g.setBits)).filter (fun l => decide (g.setOf l = set)) = [set] := by
  have hcongr : ∀ l ∈ List.range (2 ^ g.setBits), decide (g.setOf l = set) = (l == set) := fun l hl => by
    rw [Geometry.setOf, Nat.mod_eq_of_lt (List.mem_range.mp hl)]
    rfl
  rw [List.filter_congr hcongr, List.filter_beq, List.count_eq_one_of_mem List.nodup_range (List.mem_range.mpr hset)]
  rfl

/-- In the zeroed tag array the line with tag 0 of every set is the only one present. -/
theorem Cache.level_init {cache : Cache} (hint : cache.size < 2 ^ 31) (hchecked : checkCache cache = .ok ())
    (hapos : 0 < cache.assoc) :
    Level cache.geometry (List.range (2 ^ cache.geometry.setBits)) (cachesimInitcache cache) := by
  obtain ⟨-, hllog, hapow, halog, hsets, hslog⟩ := Cache.pow hint hchecked hapos
  obtain ⟨g, hg⟩ : ∃ g, g = cache.geometry := ⟨_, rfl⟩
  rw [← hg] at hllog hapow halog hsets hslog ⊢
  have hsets' : (cache.size.tdiv cache.lineSize).tdiv cache.assoc = 2 ^ g.setBits := hsets
  have hslog' : log2 ((cache.size.tdiv cache.lineSize).tdiv cache.assoc) = g.setBits := hslog
  have hpred : ((2 : Int) ^ g.setBits - 1).toNat = 2 ^ g.setBits - 1 := by
    have : ((2 : Int) ^ g.setBits) = ((2 ^ g.setBits : Nat) : Int) := by push_cast; rfl
    rw [this]
    omega
  have hlen : ((2 : Int) ^ g.setBits * 2 ^ g.assocBits).toNat = 2 ^ g.setBits * 2 ^ g.assocBits := by
    have : ((2 : Int) ^ g.setBits * 2 ^ g.assocBits) = ((2 ^ g.setBits * 2 ^ g.assocBits : Nat) : Int) := by
      push_cast
      rfl
    rw [this, Int.toNat_natCast]
  refine ⟨⟨?_, ?_, ?_, ?_, ?_, ?_, ?_⟩, fun set hset => ?_⟩
  · show cache.assoc.toNat = _
    rw [hapow]
    exact Int.toNat_pow_of_nonneg (by decide) _
  · show ((cache.size.tdiv cache.lineSize).tdiv cache.assoc - 1).toNat = _
    rw [hsets', hpred]
  · show ((cache.size.tdiv cache.lineSize).tdiv cache.assoc - 1).toNat = _
    rw [hsets', hpred]
  · show (log2 cache.assoc).toNat = _
    rw [halog, Int.toNat_natCast]
  · show (log2 cache.lineSize).toNat = _
    rw [hllog, Int.toNat_natCast]
  · show (log2 cache.lineSize + log2 ((cache.size.tdiv cache.lineSize).tdiv cache.assoc)).toNat = _
    rw [hllog, hslog']
    omega
  · show (List.replicate ((cache.size.tdiv cache.lineSize).tdiv cache.assoc * cache.assoc).toNat 0).length = _
    rw [List.length_replicate, hsets', hapow, hlen]
  · have htags : (cachesimInitcache cache).tags =
        List.replicate (2 ^ g.setBits * 2 ^ g.assocBits) 0 := by
      show List.replicate ((cache.size.tdiv cache.lineSize).tdiv cache.assoc * cache.assoc).toNat 0 = _
      rw [hsets', hapow, hlen]
    have hroom : set * 2 ^ g.assocBits + 2 ^ g.assocBits ≤ 2 ^ g.setBits * 2 ^ g.assocBits := by
      rw [← Nat.succ_mul]
      exact Nat.mul_le_mul_right _ hset
    have hcontent : g.content (List.range (2 ^ g.setBits)) set = [set] := by
      rw [Geometry.content, filter_range_setOf g hset, List.take_of_length_le]
      · rfl
      · exact Nat.one_le_two_pow
    obtain ⟨n, hn⟩ : ∃ n, 2 ^ g.assocBits = n + 1 := ⟨2 ^ g.assocBits - 1, by have := Nat.two_pow_pos g.assocBits; omega⟩
    rw [hcontent, htags, Geometry.setTags, List.drop_replicate, List.take_replicate, List.map_replicate,
      Nat.min_eq_left (by omega), hn, Geometry.lineOf, Nat.zero_mul, Nat.zero_add]
    exact Lru.padded_replicate set n

theorem level_initcache (config : Config) :
    Level config.geometry (List.range (2 ^ config.geometry.setBits)) (cachesimInitcache config.toCache) :=
  Cache.level_init config.isInt config.checked config.assoc_pos

/-! ## Runs -/

/-- A reference, with the cost centre whose miss counts it increments. -/
structure Ref where
  isInstr : Bool
  a : Nat
  size : Nat
  cc : Nat

/-- The three levels and the miss counts of the cost centres. -/
structure Sim where
  i1 : CacheT2
  d1 : CacheT2
  l2 : CacheT2
  m1 : Nat → ULong
  m2 : Nat → ULong

/-- The simulation before the first reference. -/
def Sim.init (i1 d1 l2 : Cache) : Sim where
  i1 := cachesimInitcache i1
  d1 := cachesimInitcache d1
  l2 := cachesimInitcache l2
  m1 := fun _ => 0
  m2 := fun _ => 0

/-- `cachesim_I1_doref` or `cachesim_D1_doref` with the counts of the cost centre. -/
def Sim.doref [Machine] (s : Sim) (ref : Ref) : Result Sim := do
  let (l1, l2, m1, m2) ← cachesimL1Doref (if ref.isInstr then s.i1 else s.d1) s.l2 ref.a ref.size
    (s.m1 ref.cc) (s.m2 ref.cc)
  return {
    i1 := if ref.isInstr then l1 else s.i1
    d1 := if ref.isInstr then s.d1 else l1
    l2 := l2
    m1 := Function.update s.m1 ref.cc m1
    m2 := Function.update s.m2 ref.cc m2 }

/-- The lines that the three levels have been referenced with, the last one first, and the
number of misses. -/
structure Uses where
  i1 : List Nat
  d1 : List Nat
  l2 : List Nat
  m1 : Nat → ULong
  m2 : Nat → ULong

section Uses

variable (gi gd gl : Geometry)

/-- The line with tag 0 of every set counts as used. -/
def Uses.init : Uses where
  i1 := List.range (2 ^ gi.setBits)
  d1 := List.range (2 ^ gd.setBits)
  l2 := List.range (2 ^ gl.setBits)
  m1 := fun _ => 0
  m2 := fun _ => 0

/-- The first level is referenced; if a line is absent there, so is the second level, and the
misses are counted. -/
def Uses.refer (u : Uses) (ref : Ref) : Uses :=
  let g := if ref.isInstr then gi else gd
  let h := if ref.isInstr then u.i1 else u.d1
  let miss1 := g.misses h ref.a ref.size
  let miss2 := miss1 && gl.misses u.l2 ref.a ref.size
  { i1 := if ref.isInstr then gi.lines ref.a ref.size ++ u.i1 else u.i1
    d1 := if ref.isInstr then u.d1 else gd.lines ref.a ref.size ++ u.d1
    l2 := if miss1 then gl.lines ref.a ref.size ++ u.l2 else u.l2
    m1 := if miss1 then Function.update u.m1 ref.cc (u.m1 ref.cc + 1) else u.m1
    m2 := if miss2 then Function.update u.m2 ref.cc (u.m2 ref.cc + 1) else u.m2 }

/-- A reference is not longer than the lines of the levels and does not wrap. -/
def Ref.Fits [Machine] (ref : Ref) : Prop :=
  1 ≤ ref.size ∧ ref.size ≤ 2 ^ (if ref.isInstr then gi else gd).lineBits ∧
    ref.size ≤ 2 ^ gl.lineBits ∧ ref.a + ref.size - 1 < wordMod

instance [Machine] (ref : Ref) : Decidable (ref.Fits gi gd gl) :=
  inferInstanceAs (Decidable (_ ∧ _))

/-- The simulation has seen the uses. -/
structure Simulates (s : Sim) (u : Uses) : Prop where
  i1 : Level gi u.i1 s.i1
  d1 : Level gd u.d1 s.d1
  l2 : Level gl u.l2 s.l2
  m1 : s.m1 = u.m1
  m2 : s.m2 = u.m2

variable {gi gd gl}

/-- The first level and, if it misses, the second one. -/
theorem cachesimL1Doref_spec [Machine] {g : Geometry} {h h₂ : List Nat} {c c₂ : CacheT2} (hc : Level g h c)
    (hc₂ : Level gl h₂ c₂) (hsets : 1 ≤ g.setBits) (hsets₂ : 1 ≤ gl.setBits) {a size : Nat}
    (hsize : 1 ≤ size) (hline : size ≤ 2 ^ g.lineBits) (hline₂ : size ≤ 2 ^ gl.lineBits)
    (ha : a + size - 1 < wordMod) (m1 m2 : ULong) :
    ∃ c' c₂', cachesimL1Doref c c₂ a size m1 m2 = .ok (c', c₂', if g.misses h a size then m1 + 1 else m1,
        if g.misses h a size && gl.misses h₂ a size then m2 + 1 else m2) ∧
      Level g (g.lines a size ++ h) c' ∧
      Level gl (if g.misses h a size then gl.lines a size ++ h₂ else h₂) c₂' := by
  obtain ⟨c', hdoref, hlevel⟩ := hc.doref hsets hsize hline ha
  obtain ⟨c₂', hdoref₂, hlevel₂⟩ := hc₂.doref hsets₂ hsize hline₂ ha
  unfold cachesimL1Doref cachesimL2Doref
  rw [hdoref, ok_bind]
  cases hmiss : g.misses h a size with
  | true =>
    simp only [hdoref₂, ok_bind, Bool.true_and, if_true]
    exact ⟨c', c₂', rfl, hlevel, hlevel₂⟩
  | false =>
    simp only [Bool.false_and, Bool.false_eq_true, if_false]
    exact ⟨c', c₂, rfl, hlevel, hc₂⟩

/-- **One reference** is simulated. -/
theorem Simulates.doref [Machine] (hi : 1 ≤ gi.setBits) (hd : 1 ≤ gd.setBits) (hl : 1 ≤ gl.setBits)
    (s : Sim) (u : Uses) (ref : Ref) (h : Simulates gi gd gl s u) (hfits : ref.Fits gi gd gl) :
    ∃ s', s.doref ref = .ok s' ∧ Simulates gi gd gl s' (u.refer gi gd gl ref) := by
  obtain ⟨isInstr, a, size, cc⟩ := ref
  obtain ⟨hsize, hline, hline₂, ha⟩ := hfits
  have hcount : ∀ (m : Nat → ULong) (b : Bool),
      Function.update m cc (if b then m cc + 1 else m cc) = if b then Function.update m cc (m cc + 1) else m := by
    intro m b
    cases b with
    | true => rfl
    | false => exact Function.update_eq_self cc m
  have hc : Level (if isInstr then gi else gd) (if isInstr then u.i1 else u.d1)
      (if isInstr then s.i1 else s.d1) := by
    cases isInstr with
    | true => exact h.i1
    | false => exact h.d1
  have hsets : 1 ≤ (if isInstr then gi else gd).setBits := by
    cases isInstr with
    | true => exact hi
    | false => exact hd
  obtain ⟨c', c₂', hdoref, hlevel, hlevel₂⟩ := cachesimL1Doref_spec hc h.l2 hsets hl hsize hline hline₂ ha
    (s.m1 cc) (s.m2 cc)
  unfold Sim.doref
  rw [hdoref, ok_bind]
  refine ⟨_, rfl, ⟨?_, ?_, hlevel₂, ?_, ?_⟩⟩
  · cases isInstr with
    | true => exact hlevel
    | false => exact h.i1
  · cases isInstr with
    | true => exact h.d1
    | false => exact hlevel
  · show Function.update s.m1 cc _ = _
    rw [hcount, h.m1]
    rfl
  · show Function.update s.m2 cc _ = _
    rw [hcount, h.m2]
    rfl

theorem simulates_init (i1 d1 l2 : Config) :
    Simulates i1.geometry d1.geometry l2.geometry (Sim.init i1.toCache d1.toCache l2.toCache)
      (Uses.init i1.geometry d1.geometry l2.geometry) :=
  ⟨level_initcache i1, level_initcache d1, level_initcache l2, rfl, rfl⟩

end Uses

/-- The tags of every set, read as a recency list of lines without duplicates, are the most
recently used lines of the set. -/
def Geometry.Shows (g : Geometry) (h : List Nat) (c : CacheT2) : Prop :=
  ∀ set < 2 ^ g.setBits, Lru.recency ((g.setTags c.tags set).map (g.lineOf set)) = g.content h set

theorem Level.shows {g : Geometry} {h : List Nat} {c : CacheT2} (hc : Level g h c) : g.Shows h c :=
  fun set hset => (hc.sets set hset).recency

/-- **The caches are LRU caches** in which the line with tag 0 of every set is present at the
start: after every sequence of references the tags are the most recently used lines, and the
misses have been counted. -/
theorem cachesim_lru [Machine] (i1 d1 l2 : Config) (refs : List Ref)
    (hrefs : ∀ ref ∈ refs, ref.Fits i1.geometry d1.geometry l2.geometry) :
    ∃ s, runSteps Sim.doref (Sim.init i1.toCache d1.toCache l2.toCache) refs = .ok s ∧
      i1.geometry.Shows (refs.foldl (Uses.refer i1.geometry d1.geometry l2.geometry)
        (Uses.init i1.geometry d1.geometry l2.geometry)).i1 s.i1 ∧
      d1.geometry.Shows (refs.foldl (Uses.refer i1.geometry d1.geometry l2.geometry)
        (Uses.init i1.geometry d1.geometry l2.geometry)).d1 s.d1 ∧
      l2.geometry.Shows (refs.foldl (Uses.refer i1.geometry d1.geometry l2.geometry)
        (Uses.init i1.geometry d1.geometry l2.geometry)).l2 s.l2 ∧
      s.m1 = (refs.foldl (Uses.refer i1.geometry d1.geometry l2.geometry)
        (Uses.init i1.geometry d1.geometry l2.geometry)).m1 ∧
      s.m2 = (refs.foldl (Uses.refer i1.geometry d1.geometry l2.geometry)
        (Uses.init i1.geometry d1.geometry l2.geometry)).m2 := by
  obtain ⟨s, hrun, h⟩ := runSteps_sim
    (fun s u ref => Simulates.doref i1.setBits_pos d1.setBits_pos l2.setBits_pos s u ref)
    (simulates_init i1 d1 l2) (runMeets_of_mem hrefs _)
  exact ⟨s, hrun, h.i1.shows, h.d1.shows, h.l2.shows, h.m1, h.m2⟩

/-- A configuration of 8 KB, with 4 lines of 32 bytes in a set. -/
def config8k : Config where
  size := 8192
  assoc := 4
  lineSize := 32
  isInt := by decide
  checked := by decide
  twoSets := by decide

/-- A reference that straddles two lines, and a second one to one of the lines. -/
theorem cachesim_lru_straddle :
    let geometry := config8k.geometry
    let refs := [⟨false, 4094, 4, 0⟩, ⟨false, 4096, 4, 0⟩]
    let uses := refs.foldl (Uses.refer geometry geometry geometry) (Uses.init geometry geometry geometry)
    uses.m1 0 = 1 ∧ ∃ s,
      runSteps (@Sim.doref amd64Linux) (Sim.init config8k.toCache config8k.toCache config8k.toCache) refs = .ok s ∧
      geometry.Shows uses.i1 s.i1 ∧ geometry.Shows uses.d1 s.d1 ∧ geometry.Shows uses.l2 s.l2 ∧
      s.m1 = uses.m1 ∧ s.m2 = uses.m2 := by
  refine ⟨by decide, @cachesim_lru amd64Linux config8k config8k config8k _ ?_⟩
  decide

/-- The cache does not start empty: a reference to the line with tag 0 of a set is a hit
although no line has been used, and the zeroed tags are not an empty recency list. -/
theorem cachesim_zero_tag :
    config8k.geometry.misses [] 0 4 = true ∧
      ¬ config8k.geometry.Shows [] (cachesimInitcache config8k.toCache) ∧
      (@cachesimL1Doref amd64Linux (cachesimInitcache config8k.toCache) (cachesimInitcache config8k.toCache)
        0 4 0 0).holds (fun (_, _, m1, m2) => m1 == 0 && m2 == 0) = true := by
  refine ⟨by decide, fun h => ?_, by decide⟩
  have hzero := h 0 (Nat.two_pow_pos _)
  exact absurd hzero (by decide)

end Valgrind.Cachegrind
