import Valgrind.Drd.Bitmap
import Valgrind.Lib.KeyedList
import Valgrind.Lib.Sharing

/-!
# Bitmaps on the heap

The bitmaps refer to second-level maps through their ordered sets and through their caches.
`BmHeap.Ok` says how these fit together: the reference counts are right, and the first entry of
a cache for a block says what the ordered set says. Every access to a block keeps it. `content`
is what a bitmap has in a block, all zeroes if it has no map for it; looking a block up, also in
order to modify it, changes the content of no block of any bitmap (`SameContent`), and modifying
a map that is not shared changes the content of one block of one bitmap (`SetsContent`).
-/

namespace Valgrind.Drd

open KeyedList Sharing

section

variable [Machine]

open Machine

/-! ## The invariant -/

/-- One more than the greatest block number. -/
def nBlocks : Nat := wordMod / addr0Count

namespace BmHeap

/-- The second-level map that a bitmap has for a block. -/
def ref (h : BmHeap) (b k : Nat) : Option Nat := (h.bms b).bind fun m => (osetLookup m.oset k).map fun n => n.bm2

/-- The block number and the reference count of a second-level map. -/
def cell (h : BmHeap) (p : Nat) : Option (Nat × Nat) := (h.bm2s p).map fun m => (m.addr, m.refcnt)

/-- What a bitmap has in a block. -/
def content (h : BmHeap) (b k : Nat) : Bitmap1 :=
  (((h.ref b k).bind h.bm2s).map fun m => m.bm1).getD Bitmap1.zero

/-- What holds of a heap between two operations. -/
structure Ok (h : BmHeap) : Prop where
  counted : Counted h.nextBm h.ref h.cell
  fresh2 : ∀ p, h.nextBm2 ≤ p → h.bm2s p = none
  fresh : ∀ b, h.nextBm ≤ b → h.bms b = none
  ascending : ∀ b m, h.bms b = some m → Ascending Bitmap2ref.addr m.oset
  keys : ∀ b m, h.bms b = some m → ∀ n ∈ m.oset, n.addr < nBlocks
  /-- The first entry of a cache for a block says what the ordered set says. -/
  cached : ∀ b m, h.bms b = some m → ∀ k < nBlocks, ∀ v, bmCacheLookup m.cache k = some v → v = h.ref b k

end BmHeap

/-- Only caches have been changed. -/
structure SameMaps (h h' : BmHeap) : Prop where
  bm2s : h'.bm2s = h.bm2s
  oset : ∀ b, (h'.bms b).map (fun m => m.oset) = (h.bms b).map fun m => m.oset
  nextBm : h'.nextBm = h.nextBm

/-- No bitmap has changed its content. -/
structure SameContent (h h' : BmHeap) : Prop where
  live : ∀ b, (h'.bms b).isSome = (h.bms b).isSome
  content : ∀ b k, h'.content b k = h.content b k
  nextBm : h'.nextBm = h.nextBm

/-- A bitmap has new content in one block. -/
structure SetsContent (h h' : BmHeap) (b k : Nat) (p1 : Bitmap1) : Prop where
  live : ∀ c, (h'.bms c).isSome = (h.bms c).isSome
  here : h'.content b k = p1
  other : ∀ c j, ¬ (c = b ∧ j = k) → h'.content c j = h.content c j
  nextBm : h'.nextBm = h.nextBm

/-- The bitmap has a map for the block that it shares with no other one. -/
structure Owns (h : BmHeap) (b k p : Nat) : Prop where
  ref : h.ref b k = some p
  cell : h.cell p = some (k, 1)

variable {h h' h'' : BmHeap} {b c k j p : Nat} {m : Bitmap} {n : Bitmap2ref}

theorem SameMaps.refl (h : BmHeap) : SameMaps h h := ⟨rfl, fun _ => rfl, rfl⟩

theorem SameMaps.trans (hs : SameMaps h h') (hs' : SameMaps h' h'') : SameMaps h h'' :=
  ⟨hs'.bm2s.trans hs.bm2s, fun b => (hs'.oset b).trans (hs.oset b), hs'.nextBm.trans hs.nextBm⟩

theorem ref_eq (h : BmHeap) (b k : Nat) : h.ref b k =
    (((h.bms b).map fun m => m.oset).bind fun oset => (osetLookup oset k).map fun n => n.bm2) := by
  unfold BmHeap.ref
  cases h.bms b <;> rfl

theorem SameMaps.ref_eq (hs : SameMaps h h') : h'.ref = h.ref := by
  funext b k
  rw [Drd.ref_eq, Drd.ref_eq, hs.oset]

theorem SameMaps.sameContent (hs : SameMaps h h') : SameContent h h' := by
  refine ⟨fun b => ?_, fun b k => ?_, hs.nextBm⟩
  · have ho := congrArg Option.isSome (hs.oset b)
    simpa using ho
  · rw [BmHeap.content, BmHeap.content, hs.ref_eq, hs.bm2s]

theorem SameContent.refl (h : BmHeap) : SameContent h h := ⟨fun _ => rfl, fun _ _ => rfl, rfl⟩

theorem SameContent.trans (hs : SameContent h h') (hs' : SameContent h' h'') : SameContent h h'' :=
  ⟨fun b => (hs'.live b).trans (hs.live b), fun b k => (hs'.content b k).trans (hs.content b k),
    hs'.nextBm.trans hs.nextBm⟩

theorem SetsContent.of_same {p1 : Bitmap1} (hs : SameContent h h') (hu : SetsContent h' h'' b k p1) :
    SetsContent h h'' b k p1 :=
  ⟨fun c => (hu.live c).trans (hs.live c), hu.here, fun c j hc => (hu.other c j hc).trans (hs.content c j),
    hu.nextBm.trans hs.nextBm⟩

/-- A bitmap that has a map for a block is live. -/
theorem exists_node (href : h.ref b k = some p) :
    ∃ m n, h.bms b = some m ∧ osetLookup m.oset k = some n ∧ n.bm2 = p ∧ n.addr = k := by
  obtain ⟨m, hm, hn⟩ := Option.bind_eq_some_iff.mp href
  obtain ⟨n, hfind, rfl⟩ := Option.map_eq_some_iff.mp hn
  exact ⟨m, n, hm, hfind, rfl, key_of_find hfind⟩

theorem ref_of_bms (hm : h.bms b = some m) : h.ref b k = (osetLookup m.oset k).map fun n => n.bm2 := by
  unfold BmHeap.ref
  rw [hm]
  rfl

theorem bm_eq (hm : h.bms b = some m) : h.bm b = .ok m := by
  unfold BmHeap.bm
  rw [hm]

theorem bm2_eq {m : Bitmap2} (hm : h.bm2s p = some m) : h.bm2 p = .ok m := by
  unfold BmHeap.bm2
  rw [hm]

/-- The map of a block. -/
theorem BmHeap.Ok.map_of_ref (hok : h.Ok) (href : h.ref b k = some p) :
    ∃ m, h.bm2s p = some m ∧ m.addr = k ∧ h.content b k = m.bm1 := by
  obtain ⟨-, r, hr⟩ := hok.counted.points b k p href
  obtain ⟨m, hm, hmk⟩ := Option.map_eq_some_iff.mp hr
  refine ⟨m, hm, congrArg Prod.fst hmk, ?_⟩
  unfold BmHeap.content
  rw [href]
  dsimp only [Option.bind_some]
  rw [hm]
  rfl

theorem content_of_none (href : h.ref b k = none) : h.content b k = Bitmap1.zero := by
  unfold BmHeap.content
  rw [href]
  rfl

theorem BmHeap.Ok.lt_nBlocks (hok : h.Ok) (href : h.ref b k = some p) : k < nBlocks := by
  obtain ⟨m, n, hm, hn, -, rfl⟩ := exists_node href
  exact hok.keys b m hm n (mem_of_find hn)

theorem BmHeap.Ok.live_lt (hok : h.Ok) (hm : h.bms b = some m) : b < h.nextBm := by
  by_contra hge
  rw [hok.fresh b (by omega)] at hm
  exact nomatch hm

/-! ## Caches -/

omit [Machine] in
theorem cacheLookup_update {cache : List BmCacheElem} {v v' : Option Nat}
    (hl : bmCacheLookup (bmUpdateCache cache k v) j = some v') :
    (j = k ∧ v' = v) ∨ (j ≠ k ∧ bmCacheLookup cache j = some v') := by
  unfold bmCacheLookup at hl
  obtain ⟨e, he, rfl⟩ := Option.map_eq_some_iff.mp hl
  change find BmCacheElem.a1 (⟨k, v⟩ :: cache.take (nCacheElem - 1)) j = some e at he
  rw [find_cons] at he
  split at he
  · rename_i hk
    obtain rfl := Option.some.inj he
    exact .inl ⟨hk.symm, rfl⟩
  · rename_i hk
    refine .inr ⟨fun hj => hk hj.symm, ?_⟩
    have hf := find_of_take he
    unfold bmCacheLookup
    change (find BmCacheElem.a1 cache j).map _ = _
    rw [hf]
    rfl

theorem bms_setBm (h : BmHeap) (b c : Nat) (m : Bitmap) :
    (h.setBm b m).bms c = if c = b then some m else h.bms c := by
  unfold BmHeap.setBm
  dsimp only
  rw [Function.update_apply]

theorem bm2s_setBm2 (h : BmHeap) (p q : Nat) (m : Bitmap2) :
    (h.setBm2 p m).bm2s q = if q = p then some m else h.bm2s q := by
  unfold BmHeap.setBm2
  dsimp only
  rw [Function.update_apply]

/-- A cache learns what the ordered set says. -/
def BmHeap.learn (h : BmHeap) (b : Nat) (m : Bitmap) (k : Nat) : BmHeap :=
  h.setBm b { m with cache := bmUpdateCache m.cache k (h.ref b k) }

theorem bms_learn (h : BmHeap) (b k c : Nat) (m : Bitmap) : (h.learn b m k).bms c =
    if c = b then some { m with cache := bmUpdateCache m.cache k (h.ref b k) } else h.bms c := bms_setBm _ _ _ _

theorem sameMaps_learn (hm : h.bms b = some m) (k : Nat) : SameMaps h (h.learn b m k) := by
  refine ⟨rfl, fun c => ?_, rfl⟩
  rw [bms_learn]
  split
  · rename_i hc
    rw [hc, hm]
    rfl
  · rfl

theorem BmHeap.Ok.learn (hok : h.Ok) (hm : h.bms b = some m) (k : Nat) : (h.learn b m k).Ok := by
  have hs := sameMaps_learn hm k
  have hcell : (h.learn b m k).cell = h.cell := rfl
  have hnextBm : (h.learn b m k).nextBm = h.nextBm := rfl
  refine ⟨?_, hok.fresh2, fun c hc => ?_, fun c m' hm' => ?_, fun c m' hm' => ?_, fun c m' hm' j hj v hv => ?_⟩
  · rw [hs.ref_eq, hcell, hnextBm]
    exact hok.counted
  · rw [bms_learn, if_neg, hok.fresh c hc]
    rintro rfl
    exact Nat.not_lt.mpr hc (hok.live_lt hm)
  · rw [bms_learn] at hm'
    split at hm'
    · obtain rfl := Option.some.inj hm'
      exact hok.ascending b m hm
    · exact hok.ascending c m' hm'
  · rw [bms_learn] at hm'
    split at hm'
    · obtain rfl := Option.some.inj hm'
      exact hok.keys b m hm
    · exact hok.keys c m' hm'
  · rw [hs.ref_eq]
    rw [bms_learn] at hm'
    split at hm'
    · rename_i hc
      obtain rfl := Option.some.inj hm'
      rw [hc]
      rcases cacheLookup_update hv with ⟨rfl, rfl⟩ | ⟨-, hv⟩
      · rfl
      · exact hok.cached b m hm j hj v hv
    · exact hok.cached c m' hm' j hj v hv

/-- What looking blocks up does to the heap: caches learn what the ordered sets say. -/
inductive Learns (h : BmHeap) : BmHeap → Prop where
  | refl : Learns h h
  | learn {h' : BmHeap} {b k : Nat} {m : Bitmap} : Learns h h' → h'.bms b = some m → Learns h (h'.learn b m k)

theorem Learns.trans (hl : Learns h h') (hl' : Learns h' h'') : Learns h h'' := by
  induction hl' with
  | refl => exact hl
  | learn _ hm ih => exact ih.learn hm

theorem Learns.sameMaps (hl : Learns h h') : SameMaps h h' := by
  induction hl with
  | refl => exact .refl h
  | learn _ hm ih => exact ih.trans (sameMaps_learn hm _)

theorem Learns.ok (hl : Learns h h') (hok : h.Ok) : h'.Ok := by
  induction hl with
  | refl => exact hok
  | learn _ hm ih => exact ih.learn hm _

/-! ## Changing the map of a block -/

theorem content_congr (href : h'.ref b k = h.ref b k)
    (hmap : ∀ p, h.ref b k = some p → (h'.bm2s p).map (fun m => m.bm1) = (h.bm2s p).map fun m => m.bm1) :
    h'.content b k = h.content b k := by
  unfold BmHeap.content
  rw [href]
  cases hp : h.ref b k with
  | none => rfl
  | some p =>
    dsimp only [Option.bind_some]
    rw [hmap p hp]

/-- A bitmap gets a new ordered set with a new map for the block, and its cache learns of it. -/
theorem BmHeap.Ok.repoint (hok : h.Ok) (hm : h.bms b = some m) {g : BmHeap} (hbms : g.bms = h.bms)
    (hnext : g.nextBm = h.nextBm) (hfresh2 : ∀ q, g.nextBm2 ≤ q → g.bm2s q = none) {e : List Bitmap2ref}
    (hasc : Ascending Bitmap2ref.addr e) (hkeys : ∀ n ∈ e, n.addr < nBlocks)
    (hlook : ∀ j, (osetLookup e j).map (fun n => n.bm2) =
      if j = k then some p else (osetLookup m.oset j).map fun n => n.bm2)
    (hcounted : ∀ ref', Changed h.ref ref' b k (some p) → Counted h.nextBm ref' g.cell) :
    let h' := g.setBm b ⟨bmUpdateCache m.cache k (some p), e⟩
    h'.Ok ∧ Changed h.ref h'.ref b k (some p) ∧ ∀ c, (h'.bms c).isSome = (h.bms c).isSome := by
  intro h'
  have hget : ∀ c, h'.bms c = if c = b then some ⟨bmUpdateCache m.cache k (some p), e⟩ else h.bms c := fun c => by
    rw [bms_setBm, hbms]
  have hrefb : ∀ j, h'.ref b j = if j = k then some p else h.ref b j := fun j => by
    rw [ref_of_bms ((hget b).trans (if_pos rfl)), ref_of_bms hm]
    exact hlook j
  have hrefc : ∀ c j, c ≠ b → h'.ref c j = h.ref c j := fun c j hc => by
    rw [ref_eq, ref_eq, hget, if_neg hc]
  have hch : Changed h.ref h'.ref b k (some p) := by
    refine ⟨(hrefb k).trans (if_pos rfl), fun c j hcj => ?_⟩
    by_cases hc : c = b
    · rw [hc, hrefb, if_neg fun hj => hcj ⟨hc, hj⟩]
    · exact hrefc c j hc
  have hcell : h'.cell = g.cell := rfl
  refine ⟨⟨?_, hfresh2, fun c hc => ?_, fun c m' hm' => ?_, fun c m' hm' => ?_, fun c m' hm' j hj v hv => ?_⟩,
    hch, fun c => ?_⟩
  · have hn : h'.nextBm = h.nextBm := hnext
    rw [hcell, hn]
    exact hcounted _ hch
  · have hn : h'.nextBm = h.nextBm := hnext
    rw [hn] at hc
    rw [hget, if_neg, hok.fresh c hc]
    rintro rfl
    exact Nat.not_lt.mpr hc (hok.live_lt hm)
  · rw [hget] at hm'
    split at hm'
    · obtain rfl := Option.some.inj hm'
      exact hasc
    · exact hok.ascending c m' hm'
  · rw [hget] at hm'
    split at hm'
    · obtain rfl := Option.some.inj hm'
      exact hkeys
    · exact hok.keys c m' hm'
  · rw [hget] at hm'
    split at hm'
    · rename_i hc
      obtain rfl := Option.some.inj hm'
      rw [hc, hrefb]
      rcases cacheLookup_update hv with ⟨rfl, rfl⟩ | ⟨hj', hv⟩
      · rw [if_pos rfl]
      · rw [if_neg hj']
        exact hok.cached b m hm j hj v hv
    · rename_i hc
      rw [hrefc c j hc]
      exact hok.cached c m' hm' j hj v hv
  · rw [hget]
    split
    · rename_i hc
      rw [hc, hm]
      rfl
    · rfl

/-- Where the new map comes from: the heap gets a new second-level map. -/
theorem cell_bm2New {a1 : Nat} {bm1 : Bitmap1} (h : BmHeap) (q : Nat) :
    (bm2New h a1 bm1).2.cell q = if q = h.nextBm2 then some (a1, 1) else h.cell q := by
  unfold BmHeap.cell bm2New
  dsimp only
  rw [bm2s_setBm2]
  split
  · rfl
  · rfl

theorem bm2s_bm2New {a1 : Nat} {bm1 : Bitmap1} (h : BmHeap) (q : Nat) :
    (bm2New h a1 bm1).2.bm2s q = if q = h.nextBm2 then some ⟨a1, 1, bm1⟩ else h.bm2s q := by
  unfold bm2New
  dsimp only
  rw [bm2s_setBm2]

theorem cell_setBm2 (h : BmHeap) (p q : Nat) (m : Bitmap2) :
    (h.setBm2 p m).cell q = if q = p then some (m.addr, m.refcnt) else h.cell q := by
  unfold BmHeap.cell
  rw [bm2s_setBm2]
  split
  · rfl
  · rfl

theorem BmHeap.Ok.ne_next (hok : h.Ok) (href : h.ref b k = some p) : p ≠ h.nextBm2 := by
  rintro rfl
  obtain ⟨m, hm, -⟩ := hok.map_of_ref href
  rw [hok.fresh2 _ (Nat.le_refl _)] at hm
  exact nomatch hm

omit [Machine] in
theorem osetLookup_setBm2 {oset : List Bitmap2ref} (hn : osetLookup oset k = some n) (p j : Nat) :
    (osetLookup (osetSetBm2 oset k p) j).map (fun n => n.bm2) =
      if j = k then some p else (osetLookup oset j).map fun n => n.bm2 := by
  have hmap : osetLookup (osetSetBm2 oset k p) j =
      (osetLookup oset j).map fun n => if n.addr = k then { n with bm2 := p } else n := by
    refine find_map fun n => ?_
    split
    · rfl
    · rfl
  rw [hmap]
  split
  · rename_i hj
    have hkey : n.addr = k := key_of_find hn
    rw [hj, hn]
    dsimp only [Option.map_some]
    rw [if_pos hkey]
  · rename_i hj
    cases hl : osetLookup oset j with
    | none => rfl
    | some n' =>
      have hkey : n'.addr = j := key_of_find hl
      dsimp only [Option.map_some]
      rw [if_neg fun h => hj (hkey ▸ h)]

omit [Machine] in
theorem osetInsert_spec {oset : List Bitmap2ref} (hasc : Ascending Bitmap2ref.addr oset)
    (hn : osetLookup oset n.addr = none) : ∃ oset', osetInsert oset n = .ok oset' ∧
      Ascending Bitmap2ref.addr oset' ∧ (∀ n' ∈ oset', n' = n ∨ n' ∈ oset) ∧
      ∀ j, (osetLookup oset' j).map (fun n => n.bm2) =
        if j = n.addr then some n.bm2 else (osetLookup oset j).map fun n => n.bm2 := by
  refine ⟨insert Bitmap2ref.addr n oset, ?_, ascending_insert hasc hn, fun _ => mem_insert.mp, fun j => ?_⟩
  · have hnone : (osetLookup oset n.addr).isNone = true := by
      rw [hn]
      rfl
    unfold osetInsert
    rw [assertThat_of hnone]
    rfl
  · have hfind : osetLookup (insert Bitmap2ref.addr n oset) j = if n.addr = j then some n else osetLookup oset j :=
      find_insert hasc hn
    rw [hfind]
    by_cases hj : n.addr = j
    · rw [if_pos hj, if_pos hj.symm]
      rfl
    · rw [if_neg hj, if_neg fun h => hj h.symm]

/-- A shared map is replaced by a copy. -/
theorem bm2MakeExclusive_spec (hok : h.Ok) (hm : h.bms b = some m) (hn : osetLookup m.oset k = some n) {r : Nat}
    (hcell : h.cell n.bm2 = some (k, r)) (hr : 1 < r) :
    ∃ p h', bm2MakeExclusive h b (some n) = .ok (p, h') ∧ h'.Ok ∧ SameContent h h' ∧ Owns h' b k p ∧
      ∀ c, c ≠ b → ∀ j, h'.ref c j = h.ref c j := by
  have href : h.ref b k = some n.bm2 := by rw [ref_of_bms hm, hn]; rfl
  obtain ⟨m2, hm2, hmk⟩ := Option.map_eq_some_iff.mp hcell
  obtain ⟨rfl, rfl⟩ := Prod.mk.inj hmk
  have hkey : n.addr = m2.addr := key_of_find hn
  let g := (bm2New (h.setBm2 n.bm2 { m2 with refcnt := m2.refcnt - 1 }) m2.addr m2.bm1).2
  have hpne := hok.ne_next href
  have hnextBm2 : (h.setBm2 n.bm2 { m2 with refcnt := m2.refcnt - 1 }).nextBm2 = h.nextBm2 := rfl
  have hgcell : ∀ q, g.cell q = if q = h.nextBm2 then some (m2.addr, 1) else
      if q = n.bm2 then some (m2.addr, m2.refcnt - 1) else h.cell q := fun q => by
    rw [cell_bm2New, cell_setBm2, hnextBm2]
  have hgbm2s : ∀ q, g.bm2s q = if q = h.nextBm2 then some ⟨m2.addr, 1, m2.bm1⟩ else
      if q = n.bm2 then some { m2 with refcnt := m2.refcnt - 1 } else h.bm2s q := fun q => by
    rw [bm2s_bm2New, bm2s_setBm2, hnextBm2]
  have hfree : h.cell h.nextBm2 = none := by
    rw [BmHeap.cell, hok.fresh2 _ (Nat.le_refl _)]
    rfl
  obtain ⟨hok', hch, hlive⟩ := hok.repoint (k := m2.addr) (p := h.nextBm2) hm (g := g) rfl rfl
    (fun q hq => by
      have hle : h.nextBm2 + 1 ≤ q := hq
      have hq' : q ≠ n.bm2 := by
        rintro rfl
        rw [hok.fresh2 _ (by omega)] at hm2
        exact nomatch hm2
      rw [hgbm2s, if_neg (by omega), if_neg hq', hok.fresh2 q (by omega)])
    (e := osetSetBm2 m.oset m2.addr h.nextBm2)
    (ascending_map (fun n => by split <;> rfl) (hok.ascending b m hm))
    (fun n' hn' => by
      obtain ⟨n'', hn'', rfl⟩ := List.mem_map.mp hn'
      have hlt := hok.keys b m hm n'' hn''
      split
      · exact hlt
      · exact hlt)
    (osetLookup_setBm2 hn h.nextBm2)
    (fun ref' hch => hok.counted.copy hch href hcell hr hfree
      (by rw [hgcell, if_neg hpne, if_pos rfl]) (by rw [hgcell, if_pos rfl])
      fun q hq hq' => by rw [hgcell, if_neg hq', if_neg hq])
  refine ⟨h.nextBm2, _, ?_, hok', ⟨hlive, fun c j => ?_, rfl⟩, ⟨hch.here, ?_⟩,
    fun c hc j => hch.other c j fun h => hc h.1⟩
  · unfold bm2MakeExclusive
    have hbm : BmHeap.bm g b = .ok m := bm_eq (h := g) hm
    dsimp only
    rw [bm2_eq hm2, ok_bind, assertThat_of hr, ok_bind, assertThat_of (by omega), ok_bind]
    change (BmHeap.bm g b >>= _) = _
    rw [hbm, hkey]
    rfl
  · by_cases hcj : c = b ∧ j = m2.addr
    · obtain ⟨rfl, rfl⟩ := hcj
      obtain ⟨m2', hm2', -, hcont⟩ := hok'.map_of_ref hch.here
      obtain ⟨m2'', hm2'', -, hcont'⟩ := hok.map_of_ref href
      change g.bm2s h.nextBm2 = some m2' at hm2'
      rw [hgbm2s, if_pos rfl] at hm2'
      rw [hm2] at hm2''
      rw [hcont, hcont', ← Option.some.inj hm2', ← Option.some.inj hm2'']
    · refine content_congr (hch.other c j hcj) fun q hq => ?_
      change (g.bm2s q).map _ = _
      rw [hgbm2s, if_neg (hok.ne_next hq)]
      split
      · rename_i hqp
        rw [hqp, hm2]
        rfl
      · rfl
  · change g.cell h.nextBm2 = _
    rw [hgcell, if_pos rfl]

/-! ## Looking up -/

/-- The map of a block, made exclusive. -/
theorem unshare_spec (hok : h.Ok) (hm : h.bms b = some m) (hn : osetLookup m.oset k = some n) :
    ∃ p h', unshare h b n.bm2 (some n) = .ok (p, h') ∧ h'.Ok ∧ SameContent h h' ∧ Owns h' b k p ∧
      ∀ c, c ≠ b → ∀ j, h'.ref c j = h.ref c j := by
  have href : h.ref b k = some n.bm2 := by rw [ref_of_bms hm, hn]; rfl
  obtain ⟨-, r, hr⟩ := hok.counted.points b k n.bm2 href
  obtain ⟨m2, hm2, hmk⟩ := Option.map_eq_some_iff.mp hr
  obtain ⟨-, rfl⟩ := Prod.mk.inj hmk
  have hpos := (hok.counted.counted n.bm2 k m2.refcnt hr).2
  unfold unshare
  rw [bm2_eq hm2, ok_bind]
  by_cases hgt : m2.refcnt > 1
  · rw [if_pos hgt]
    exact bm2MakeExclusive_spec hok hm hn hr hgt
  · rw [if_neg hgt]
    have hone : m2.refcnt = 1 := by omega
    exact ⟨n.bm2, h, rfl, hok, .refl h, ⟨href, hone ▸ hr⟩, fun _ _ _ => rfl⟩

theorem ref_eq_none (hm : h.bms b = some m) : h.ref b k = none ↔ osetLookup m.oset k = none := by
  rw [ref_of_bms hm, Option.map_eq_none_iff]

theorem ref_eq_some (hm : h.bms b = some m) :
    h.ref b k = some p ↔ ∃ n, osetLookup m.oset k = some n ∧ n.bm2 = p := by
  rw [ref_of_bms hm, Option.map_eq_some_iff]

/-- `bm2_lookup_exclusive` finds the map of a block and makes it exclusive. -/
theorem bm2LookupExclusive_spec (hok : h.Ok) (hm : h.bms b = some m) (hk : k < nBlocks) :
    ∃ o h', bm2LookupExclusive h b k = .ok (o, h') ∧ h'.Ok ∧ SameContent h h' ∧
      match o with
      | none => h.ref b k = none
      | some p => Owns h' b k p := by
  have hfound : ∀ n, osetLookup m.oset k = some n → ∃ p h',
      (unshare h b n.bm2 (some n) >>= fun r => pure (some r.1, r.2)) = Except.ok (some p, h') ∧ h'.Ok ∧
        SameContent h h' ∧ Owns h' b k p := by
    intro n hn
    obtain ⟨p, h', hrun, hok', hs, hown, -⟩ := unshare_spec hok hm hn
    exact ⟨p, h', by rw [hrun]; rfl, hok', hs, hown⟩
  unfold bm2LookupExclusive
  rw [bm_eq hm, ok_bind]
  cases hc : bmCacheLookup m.cache k with
  | some v =>
    have hv := hok.cached b m hm k hk v hc
    cases v with
    | none => exact ⟨none, h, rfl, hok, .refl h, hv.symm⟩
    | some p =>
      obtain ⟨n, hn, rfl⟩ := (ref_eq_some hm).mp hv.symm
      obtain ⟨p, h', hrun, hok', hs, hown⟩ := hfound n hn
      refine ⟨some p, h', ?_, hok', hs, hown⟩
      rw [← hrun, ← hn]
  | none =>
    cases hn : osetLookup m.oset k with
    | none => exact ⟨none, h, rfl, hok, .refl h, (ref_eq_none hm).mpr hn⟩
    | some n =>
      obtain ⟨p, h', hrun, hok', hs, hown⟩ := hfound n hn
      exact ⟨some p, h', hrun, hok', hs, hown⟩

/-- `bm2_insert`, for a block that is not there. -/
theorem bm2Insert_spec (hok : h.Ok) (hm : h.bms b = some m) (hk : k < nBlocks) (hnone : h.ref b k = none) :
    ∃ h', bm2Insert h b k = .ok (h.nextBm2, h') ∧ h'.Ok ∧ SameContent h h' ∧ Owns h' b k h.nextBm2 := by
  obtain ⟨oset', hins, hasc, hmem, hlook⟩ := osetInsert_spec (n := ⟨k, h.nextBm2⟩) (hok.ascending b m hm)
    ((ref_eq_none hm).mp hnone)
  let g := (bm2New h k Bitmap1.zero).2
  have hfree : h.cell h.nextBm2 = none := by
    rw [BmHeap.cell, hok.fresh2 _ (Nat.le_refl _)]
    rfl
  obtain ⟨hok', hch, hlive⟩ := hok.repoint (k := k) (p := h.nextBm2) hm (g := g) rfl rfl
    (fun q hq => by
      have hle : h.nextBm2 + 1 ≤ q := hq
      rw [bm2s_bm2New, if_neg (by omega), hok.fresh2 q (by omega)])
    hasc
    (fun n' hn' => by
      rcases hmem n' hn' with rfl | hn'
      · exact hk
      · exact hok.keys b m hm n' hn')
    hlook
    (fun ref' hch => hok.counted.alloc hch (hok.live_lt hm) hnone hfree
      (by rw [cell_bm2New, if_pos rfl]) fun q hq => by rw [cell_bm2New, if_neg hq])
  refine ⟨_, ?_, hok', ⟨hlive, fun c j => ?_, rfl⟩, ⟨hch.here, ?_⟩⟩
  · have hbm : BmHeap.bm g b = .ok m := bm_eq (h := g) hm
    unfold bm2Insert
    change (BmHeap.bm g b >>= _) = _
    rw [hbm, ok_bind]
    rw [hins]
    rfl
  · by_cases hcj : c = b ∧ j = k
    · obtain ⟨rfl, rfl⟩ := hcj
      obtain ⟨m', hm', -, hcont⟩ := hok'.map_of_ref hch.here
      change g.bm2s h.nextBm2 = some m' at hm'
      rw [bm2s_bm2New, if_pos rfl] at hm'
      rw [hcont, content_of_none hnone, ← Option.some.inj hm']
    · refine content_congr (hch.other c j hcj) fun q hq => ?_
      change (g.bm2s q).map _ = _
      rw [bm2s_bm2New, if_neg (hok.ne_next hq)]
  · change g.cell h.nextBm2 = _
    rw [cell_bm2New, if_pos rfl]

theorem SameContent.exists_bm (hs : SameContent h h') (hm : h.bms b = some m) : ∃ m', h'.bms b = some m' := by
  have hlive := hs.live b
  rw [hm] at hlive
  exact Option.isSome_iff_exists.mp hlive

/-- `bm2_lookup_or_insert`. -/
theorem bm2LookupOrInsert_spec (hok : h.Ok) (hm : h.bms b = some m) (hk : k < nBlocks) :
    ∃ p h', bm2LookupOrInsert h b k = .ok (p, h') ∧ h'.Ok ∧ SameContent h h' ∧ h'.ref b k = some p := by
  unfold bm2LookupOrInsert
  rw [bm_eq hm, ok_bind]
  cases hc : bmCacheLookup m.cache k with
  | some v =>
    have hv := hok.cached b m hm k hk v hc
    cases v with
    | none =>
      obtain ⟨h', hrun, hok', hs, hown⟩ := bm2Insert_spec hok hm hk hv.symm
      exact ⟨_, h', hrun, hok', hs, hown.ref⟩
    | some p => exact ⟨p, h, rfl, hok, .refl h, hv.symm⟩
  | none =>
    -- found or inserted, and then put into the cache
    have hlearn : ∀ {p h'}, h'.Ok → SameContent h h' → h'.ref b k = some p → ∃ p' h'',
        (BmHeap.bm h' b >>= fun bm => pure (p, h'.setBm b { bm with cache := bmUpdateCache bm.cache k (some p) })) =
          Except.ok (p', h'') ∧ h''.Ok ∧ SameContent h h'' ∧ h''.ref b k = some p' := by
      intro p h' hok' hs href
      obtain ⟨m', hm'⟩ := hs.exists_bm hm
      have hs' := sameMaps_learn hm' k
      refine ⟨p, h'.learn b m' k, ?_, hok'.learn hm' k, hs.trans hs'.sameContent, ?_⟩
      · rw [bm_eq hm', BmHeap.learn, href]
        rfl
      · rw [hs'.ref_eq, href]
    dsimp only
    cases hn : osetLookup m.oset k with
    | none =>
      obtain ⟨h', hrun, hok', hs, hown⟩ := bm2Insert_spec hok hm hk ((ref_eq_none hm).mpr hn)
      obtain ⟨p', h'', hrun', hrest⟩ := hlearn hok' hs hown.ref
      refine ⟨p', h'', ?_, hrest⟩
      dsimp only
      rw [hrun, ← hrun']
      rfl
    | some n =>
      obtain ⟨p', h'', hrun', hrest⟩ := hlearn hok (.refl h) ((ref_eq_some hm).mpr ⟨n, hn, rfl⟩)
      exact ⟨p', h'', hrun', hrest⟩

/-- `bm2_lookup_or_insert_exclusive`. -/
theorem bm2LookupOrInsertExclusive_spec (hok : h.Ok) (hm : h.bms b = some m) (hk : k < nBlocks) :
    ∃ p h', bm2LookupOrInsertExclusive h b k = .ok (p, h') ∧ h'.Ok ∧ SameContent h h' ∧ Owns h' b k p := by
  obtain ⟨p, h', hrun, hok', hs, href⟩ := bm2LookupOrInsert_spec hok hm hk
  obtain ⟨m', n, hm', hn, rfl, -⟩ := exists_node href
  obtain ⟨p', h'', hrun', hok'', hs', hown, -⟩ := unshare_spec hok' hm' hn
  refine ⟨p', h'', ?_, hok'', hs.trans hs', hown⟩
  unfold bm2LookupOrInsertExclusive
  rw [hrun, ok_bind]
  dsimp only
  rw [bm_eq hm', ok_bind, hn]
  exact hrun'

/-- A map that is not shared is modified. -/
theorem modifyBm1_spec (hok : h.Ok) (hown : Owns h b k p) (f : Bitmap1 → Bitmap1) :
    ∃ h', h.modifyBm1 p f = .ok h' ∧ h'.Ok ∧ SetsContent h h' b k (f (h.content b k)) ∧ Owns h' b k p := by
  obtain ⟨m2, hm2, hmk, hcont⟩ := hok.map_of_ref hown.ref
  let h' := h.setBm2 p { m2 with bm1 := f m2.bm1 }
  have hcell : h'.cell = h.cell := by
    funext q
    rw [cell_setBm2]
    split
    · rename_i hq
      rw [hq, BmHeap.cell, hm2]
      rfl
    · rfl
  have href : h'.ref = h.ref := rfl
  have hok' : h'.Ok := by
    refine ⟨by rw [hcell]; exact hok.counted, fun q hq => ?_, hok.fresh, hok.ascending, hok.keys, hok.cached⟩
    have hq' : q ≠ p := by
      rintro rfl
      rw [hok.fresh2 _ hq] at hm2
      exact nomatch hm2
    rw [bm2s_setBm2, if_neg hq']
    exact hok.fresh2 q hq
  refine ⟨h', ?_, hok', ⟨fun _ => rfl, ?_, fun c j hcj => ?_, rfl⟩, hown.ref, hcell ▸ hown.cell⟩
  · unfold BmHeap.modifyBm1
    rw [bm2_eq hm2]
    rfl
  · obtain ⟨m', hm', -, hcont'⟩ := hok'.map_of_ref hown.ref
    rw [bm2s_setBm2, if_pos rfl] at hm'
    rw [hcont', ← Option.some.inj hm', hcont]
  · refine content_congr rfl fun q hq => ?_
    -- the map has no other owner
    have hne : q ≠ p := by
      rintro rfl
      exact hcj (hok.counted.unique hown.cell hown.ref hq)
    rw [bm2s_setBm2, if_neg hne]

end

end Valgrind.Drd
