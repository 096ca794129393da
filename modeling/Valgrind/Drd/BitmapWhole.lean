import Valgrind.Drd.BitmapQueries

/-!
# Whole bitmaps

Creating, deleting, merging and exchanging bitmaps. `bm_merge2` makes bitmaps share
second-level maps and `bm_delete` takes references away. `bm_swap` exchanges the ordered
sets of two bitmaps but not their caches: the invariant of the heap survives only where the
two bitmaps have the same map for every block that one of the caches knows (`SwapOk`).
-/

namespace Valgrind.Drd

open BitArray KeyedList Sharing

section

variable [Machine]

open Machine

variable {h h' g : BmHeap} {b c k a p lhs rhs : Nat} {m : Bitmap} {n : Bitmap2ref} {x : Row}

theorem Learns.readOk_has (hl : Learns h h') (hok : h.Ok) : ReadOk h' h.has := by
  have hhas : h'.has = h.has := by
    funext b a x
    exact hl.sameMaps.sameContent.has
  rw [← hhas]
  exact (hl.ok hok).readOk

/-! ## `bm_new` -/

theorem nBlocks_lt : nBlocks < wordMod - 2 := by
  have h := addr0Count_dvd
  rw [addr0Count_eq] at h
  rcases wordMod_cases with hw | hw <;> omega

/-- A new bitmap has no accesses, and the others have what they had. -/
theorem bmNew_spec (hok : h.Ok) : ∃ h', bmNew h = .ok (h.nextBm, h') ∧ h'.Ok ∧ h'.nextBm = h.nextBm + 1 ∧
    (∀ c, (h'.bms c).isSome = (decide (c = h.nextBm) || (h.bms c).isSome)) ∧ h'.has = h.has := by
  have hfresh := hok.fresh h.nextBm (Nat.le_refl _)
  let new : Bitmap := ⟨List.replicate nCacheElem ⟨wordMod - 2, none⟩, []⟩
  let h' : BmHeap := { h.setBm h.nextBm new with nextBm := h.nextBm + 1 }
  have hbms : ∀ c, h'.bms c = if c = h.nextBm then some new else h.bms c := fun c => bms_setBm h _ c _
  have href : h'.ref = h.ref := by
    funext c k
    unfold BmHeap.ref
    rw [hbms]
    split
    · rename_i hc
      rw [hc, hfresh]
      rfl
    · rfl
  have hassert : 1 <<< bitsPerBitsPerUWord = bitsPerUWord := by
    rw [Nat.one_shiftLeft, two_pow_bitsPerBits]
  refine ⟨h', ?_, ⟨?_, hok.fresh2, fun c hc => ?_, fun c m' hm' => ?_, fun c m' hm' => ?_, fun c m' hm' k hk v hv => ?_⟩,
    rfl, fun c => ?_, ?_⟩
  · unfold bmNew
    rw [assertThat_of hassert]
    rfl
  · rw [href]
    exact hok.counted.succ
  · have hc' : h.nextBm + 1 ≤ c := hc
    rw [hbms, if_neg (by omega), hok.fresh c (by omega)]
  · rw [hbms] at hm'
    split at hm'
    · obtain rfl := Option.some.inj hm'
      exact List.Pairwise.nil
    · exact hok.ascending c m' hm'
  · rw [hbms] at hm'
    split at hm'
    · obtain rfl := Option.some.inj hm'
      exact fun n hn => nomatch hn
    · exact hok.keys c m' hm'
  · rw [href]
    rw [hbms] at hm'
    split at hm'
    · -- no block has the number that the entries are initialised with
      obtain rfl := Option.some.inj hm'
      unfold bmCacheLookup at hv
      obtain ⟨e, he, -⟩ := Option.map_eq_some_iff.mp hv
      have hlt := nBlocks_lt
      have hkey : e.a1 = k := @key_of_find _ _ BmCacheElem.a1 _ _ _ _ he
      have hmem := List.eq_of_mem_replicate (@mem_of_find _ _ BmCacheElem.a1 _ _ _ _ he)
      rw [hmem] at hkey
      dsimp only at hkey
      omega
    · exact hok.cached c m' hm' k hk v hv
  · rw [hbms]
    by_cases hc : c = h.nextBm
    · rw [if_pos hc, decide_eq_true hc]
      rfl
    · rw [if_neg hc, decide_eq_false hc]
      rfl
  · funext c a x
    rw [BmHeap.has, BmHeap.has, BmHeap.content, BmHeap.content, href]
    rfl

/-! ## `bm_delete` -/

/-- The maps of the bitmaps, where bitmap `b` has only the nodes of the list. -/
def refWith (h : BmHeap) (b : Nat) (oset : List Bitmap2ref) : Nat → Nat → Option Nat :=
  fun c k => if c = b then (osetLookup oset k).map fun n => n.bm2 else h.ref c k

theorem refWith_self (hm : h.bms b = some m) : refWith h b m.oset = h.ref := by
  funext c k
  unfold refWith
  split
  · rename_i hc
    rw [hc, ref_of_bms hm]
  · rfl

/-- The loop of `bm_delete` takes the references of the nodes away. -/
theorem releaseAll_spec {oset : List Bitmap2ref} (hasc : Ascending Bitmap2ref.addr oset)
    (hfresh2 : ∀ q, h.nextBm2 ≤ q → h.bm2s q = none) (hc : Counted h.nextBm (refWith h b oset) h.cell) :
    ∃ h', releaseAll oset h = .ok h' ∧ h'.bms = h.bms ∧ h'.nextBm = h.nextBm ∧
      (∀ q, h'.nextBm2 ≤ q → h'.bm2s q = none) ∧ Counted h.nextBm (refWith h b []) h'.cell ∧
      ∀ q m', h'.bm2s q = some m' → ∃ m, h.bm2s q = some m ∧ m.bm1 = m'.bm1 := by
  induction oset generalizing h with
  | nil => exact ⟨h, rfl, rfl, rfl, hfresh2, hc, fun q m' hm' => ⟨m', hm', rfl⟩⟩
  | cons n oset ih =>
    have hsorted := List.pairwise_cons.mp hasc
    have hlook : ∀ j, osetLookup (n :: oset) j = if n.addr = j then some n else osetLookup oset j := fun j => find_cons
    have hrefn : refWith h b (n :: oset) b n.addr = some n.bm2 := by
      unfold refWith
      rw [if_pos rfl, hlook, if_pos rfl]
      rfl
    obtain ⟨-, r, hcell⟩ := hc.points b n.addr n.bm2 hrefn
    obtain ⟨m2, hm2, hmk⟩ := Option.map_eq_some_iff.mp hcell
    obtain ⟨hkey, rfl⟩ := Prod.mk.inj hmk
    have hpos := (hc.counted n.bm2 n.addr m2.refcnt hcell).2
    have hch : Changed (refWith h b (n :: oset)) (refWith h b oset) b n.addr none := by
      refine ⟨?_, fun c j hcj => ?_⟩
      · have hnone : osetLookup oset n.addr = none := find_eq_none.mpr fun n' hn' => (hsorted.1 n' hn').ne'
        unfold refWith
        rw [if_pos rfl, hnone]
        rfl
      · unfold refWith
        split
        · rename_i hcb
          rw [hlook, if_neg fun hj => hcj ⟨hcb, hj.symm⟩]
        · rfl
    -- the heap after this node
    obtain ⟨g, hg⟩ : ∃ g, g = if m2.refcnt - 1 = 0 then
        { h with bm2s := Function.update h.bm2s n.bm2 none } else
        h.setBm2 n.bm2 { m2 with refcnt := m2.refcnt - 1 } := ⟨_, rfl⟩
    have hgbm2s : ∀ q, g.bm2s q = if q = n.bm2 then (if m2.refcnt - 1 = 0 then none else
        some { m2 with refcnt := m2.refcnt - 1 }) else h.bm2s q := by
      intro q
      rw [hg]
      split
      · dsimp only
        rw [Function.update_apply]
      · rw [bm2s_setBm2]
    have hgbms : g.bms = h.bms ∧ g.nextBm = h.nextBm ∧ g.nextBm2 = h.nextBm2 := by
      rw [hg]
      split
      · exact ⟨rfl, rfl, rfl⟩
      · exact ⟨rfl, rfl, rfl⟩
    have hgref : ∀ l, refWith g b l = refWith h b l := fun l => by
      unfold refWith BmHeap.ref
      rw [hgbms.1]
    have hgc : Counted g.nextBm (refWith g b oset) g.cell := by
      rw [hgref, hgbms.2.1]
      refine hc.drop hch hrefn hcell ?_ fun q hq => ?_
      · unfold BmHeap.cell
        rw [hgbm2s, if_pos rfl]
        split
        · rfl
        · rw [← hkey]
          rfl
      · unfold BmHeap.cell
        rw [hgbm2s, if_neg hq]
    obtain ⟨h', hrun, hbms', hnext', hfresh', hc', hsub⟩ := ih hsorted.2 (fun q hq => by
      rw [hgbms.2.2] at hq
      have hne : q ≠ n.bm2 := by
        rintro rfl
        rw [hfresh2 _ hq] at hm2
        exact nomatch hm2
      rw [hgbm2s, if_neg hne, hfresh2 q hq]) hgc
    refine ⟨h', ?_, hbms'.trans hgbms.1, hnext'.trans hgbms.2.1, hfresh', ?_, fun q m' hm' => ?_⟩
    · unfold releaseAll
      rw [bm2_eq hm2, ok_bind, assertThat_of (show m2.refcnt ≥ 1 from hpos), ok_bind, ← hg]
      exact hrun
    · rw [hgref, hgbms.2.1] at hc'
      exact hc'
    · obtain ⟨mg, hmg, hbm1⟩ := hsub q m' hm'
      rw [hgbm2s] at hmg
      split at hmg
      · rename_i hq
        split at hmg
        · exact nomatch hmg
        · obtain rfl := Option.some.inj hmg
          exact ⟨m2, hq ▸ hm2, hbm1⟩
      · exact ⟨mg, hmg, hbm1⟩

/-- The other bitmaps keep their accesses when one is deleted. -/
theorem bmDelete_spec (hok : h.Ok) (hm : h.bms b = some m) : ∃ h', bmDelete h b = .ok h' ∧ h'.Ok ∧
    h'.nextBm = h.nextBm ∧ (∀ c, (h'.bms c).isSome = (decide (c ≠ b) && (h.bms c).isSome)) ∧
    ∀ c, c ≠ b → ∀ a x, h'.has c a x = h.has c a x := by
  have hc : Counted h.nextBm (refWith h b m.oset) h.cell := by
    rw [refWith_self hm]
    exact hok.counted
  obtain ⟨g, hrun, hgbms, hgnext, hgfresh, hgc, hsub⟩ := releaseAll_spec (hok.ascending b m hm) hok.fresh2 hc
  let h' : BmHeap := { g with bms := Function.update g.bms b none }
  have hbms : ∀ c, h'.bms c = if c = b then none else h.bms c := by
    intro c
    rw [← hgbms]
    exact Function.update_apply _ _ _ _
  have href : h'.ref = refWith h b [] := by
    funext c k
    unfold BmHeap.ref refWith
    rw [hbms]
    split
    · rfl
    · rfl
  have hrefc : ∀ c, c ≠ b → ∀ k, h'.ref c k = h.ref c k := fun c hcb k => by
    rw [href, refWith, if_neg hcb]
  have hlive : ∀ {c m'}, h'.bms c = some m' → c ≠ b ∧ h.bms c = some m' := by
    intro c m' hm'
    rw [hbms] at hm'
    split at hm'
    · exact nomatch hm'
    · rename_i hcb
      exact ⟨hcb, hm'⟩
  have hok' : h'.Ok := by
    refine ⟨?_, hgfresh, fun c hc => ?_, fun c m' hm' => hok.ascending c m' (hlive hm').2,
      fun c m' hm' => hok.keys c m' (hlive hm').2, fun c m' hm' k hk v hv => ?_⟩
    · have hn : h'.nextBm = h.nextBm := hgnext
      rw [href, hn]
      exact hgc
    · have hc' : h.nextBm ≤ c := hgnext ▸ hc
      rw [hbms, hok.fresh c hc']
      split <;> rfl
    · obtain ⟨hcb, hm'⟩ := hlive hm'
      rw [hrefc c hcb]
      exact hok.cached c m' hm' k hk v hv
  refine ⟨h', ?_, hok', hgnext, fun c => ?_, fun c hcb a x => ?_⟩
  · unfold bmDelete
    rw [bm_eq hm, ok_bind, hrun]
    rfl
  · rw [hbms]
    by_cases hcb : c = b
    · simp [hcb]
    · simp [hcb]
  · have hcont : h'.content c (a / addr0Count) = h.content c (a / addr0Count) := by
      refine content_congr (hrefc c hcb _) fun p hp => ?_
      obtain ⟨m', hm', -⟩ := hok'.map_of_ref ((hrefc c hcb _).trans hp)
      obtain ⟨m, hm, hbm1⟩ := hsub p m' hm'
      rw [hm', hm]
      exact congrArg some hbm1.symm
    rw [BmHeap.has, BmHeap.has, hcont]

/-! ## `bm_merge2` -/

/-- A bitmap gets a map that another one has. -/
theorem bm2InsertAddref_spec (hok : h.Ok) (hm : h.bms b = some m) {m2 : Bitmap2} (hm2 : h.bm2s p = some m2)
    (hk : m2.addr < nBlocks) (hnone : h.ref b m2.addr = none) :
    ∃ h', bm2InsertAddref h b p = .ok h' ∧ h'.Ok ∧ SetsContent h h' b m2.addr m2.bm1 ∧
      ∀ c, c ≠ b → ∀ j, h'.ref c j = h.ref c j := by
  obtain ⟨oset', hins, hasc, hmem, hlook⟩ := osetInsert_spec (n := ⟨m2.addr, p⟩) (hok.ascending b m hm)
    ((ref_eq_none hm).mp hnone)
  let g := h.setBm2 p { m2 with refcnt := m2.refcnt + 1 }
  have hcell : h.cell p = some (m2.addr, m2.refcnt) := by
    rw [BmHeap.cell, hm2]
    rfl
  obtain ⟨hok', hch, hlive⟩ := hok.repoint (k := m2.addr) (p := p) hm (g := g) rfl rfl
    (fun q hq => by
      have hne : q ≠ p := by
        rintro rfl
        rw [hok.fresh2 _ hq] at hm2
        cases hm2
      rw [bm2s_setBm2, if_neg hne]
      exact hok.fresh2 q hq)
    hasc
    (fun n' hn' => by
      rcases hmem n' hn' with rfl | hn'
      · exact hk
      · exact hok.keys b m hm n' hn')
    hlook
    (fun ref' hch => hok.counted.share hch (hok.live_lt hm) hnone hcell
      (by rw [cell_setBm2, if_pos rfl]) fun q hq => by rw [cell_setBm2, if_neg hq])
  refine ⟨_, ?_, hok', ⟨hlive, ?_, fun c j hcj => ?_, rfl⟩, fun c hc j => hch.other c j fun h => hc h.1⟩
  · have hbm : BmHeap.bm g b = .ok m := bm_eq (h := g) hm
    unfold bm2InsertAddref
    rw [bm2_eq hm2, ok_bind]
    change (BmHeap.bm g b >>= _) = _
    rw [hbm, ok_bind, hins]
    rfl
  · obtain ⟨m', hm', -, hcont⟩ := hok'.map_of_ref hch.here
    change g.bm2s p = some m' at hm'
    rw [bm2s_setBm2, if_pos rfl] at hm'
    rw [hcont, ← Option.some.inj hm']
  · refine content_congr (hch.other c j hcj) fun q hq => ?_
    change (g.bm2s q).map _ = _
    rw [bm2s_setBm2]
    split
    · rename_i hqp
      rw [hqp, hm2]
      rfl
    · rfl

theorem lt_wordCount {a0 : Nat} (ha0 : a0 < addr0Count) : a0 / bitsPerUWord < bitmap1UWordCount := by
  unfold bitmap1UWordCount
  rw [Nat.shiftRight_eq_div_pow, two_pow_bitsPerBits]
  rw [addr0Count_eq] at ha0 ⊢
  rcases bitsPerUWord_cases with h | h <;> rw [h] <;> omega

/-- A map that is not shared takes the accesses of another one over. -/
theorem bm2Merge_spec (hok : h.Ok) (hown : Owns h b k p) {q : Nat} (hq : h.ref c k = some q) :
    ∃ h', bm2Merge h p q = .ok h' ∧ h'.Ok ∧
      Edits h h' b (fun a x v => v || (decide (a / addr0Count = k) && h.has c a x)) ∧
      ∀ d, d ≠ b → ∀ j, h'.ref d j = h.ref d j := by
  obtain ⟨l, hl, hlk, hlcont⟩ := hok.map_of_ref hown.ref
  obtain ⟨r, hr, hrk, hrcont⟩ := hok.map_of_ref hq
  have hone : l.refcnt = 1 := by
    have hcell := hown.cell
    rw [BmHeap.cell, hl] at hcell
    exact congrArg Prod.snd (Option.some.inj hcell)
  let F : Bitmap1 → Bitmap1 := fun p1 =>
    ⟨fun x j => if j < bitmap1UWordCount then p1.bm0 x j ||| r.bm1.bm0 x j else p1.bm0 x j⟩
  obtain ⟨h', hmod, hok', hed⟩ := edits_modify (f := fun a x v => v || h.has c a x) hok hown (F := F) (by
    intro a x hak
    have hlt : a % addr0Count / bitsPerUWord < bitmap1UWordCount := lt_wordCount (Nat.mod_lt _ (by decide))
    rw [BmHeap.has, hak, hrcont]
    unfold bit
    dsimp only [F]
    rw [if_pos hlt, BitVec.getLsbD_or])
  have href : h'.ref = h.ref := by
    unfold BmHeap.modifyBm1 at hmod
    rw [bm2_eq hl, ok_bind] at hmod
    obtain rfl := Except.ok.inj hmod
    rfl
  refine ⟨h', ?_, hok', hed.congr fun a x v => ?_, fun d _ j => by rw [href]⟩
  · unfold bm2Merge
    rw [bm2_eq hl, ok_bind, bm2_eq hr, ok_bind, assertThat_of (hlk.trans hrk.symm), ok_bind, assertThat_of hone, ok_bind]
    exact hmod
  · by_cases hak : a / addr0Count = k
    · rw [if_pos hak, decide_eq_true hak, Bool.true_and]
    · rw [if_neg hak, decide_eq_false hak, Bool.false_and, Bool.or_false]

/-- One node of `rhs` is merged into another bitmap. -/
theorem mergeNode_spec (hne : rhs ≠ lhs) (hok : h.Ok) (hm : h.bms lhs = some m) (hn : h.ref rhs n.addr = some n.bm2) :
    ∃ g, mergeNode lhs h n = .ok g ∧ g.Ok ∧
      Edits h g lhs (fun a x v => v || (decide (a / addr0Count = n.addr) && h.has rhs a x)) ∧
      ∀ d, d ≠ lhs → ∀ j, g.ref d j = h.ref d j := by
  obtain ⟨r, hr, hrk, hrcont⟩ := hok.map_of_ref hn
  unfold mergeNode
  rw [bm2_eq hr, ok_bind, bm_eq hm, ok_bind, hrk]
  cases hl : osetLookup m.oset n.addr with
  | none =>
    obtain ⟨g, hrun, hgok, hset, hgref⟩ := bm2InsertAddref_spec hok hm hr (hrk ▸ hok.lt_nBlocks hn)
      (hrk ▸ (ref_eq_none hm).mpr hl)
    rw [hrk] at hset
    refine ⟨g, hrun, hgok, ⟨hset.live, hset.nextBm, fun a x => ?_, fun d hd a x => ?_⟩, hgref⟩
    · by_cases hak : a / addr0Count = n.addr
      · have hold : h.has lhs a x = false := has_of_none (by rw [hak]; exact (ref_eq_none hm).mpr hl)
        rw [hold, Bool.false_or, decide_eq_true hak, Bool.true_and, BmHeap.has, BmHeap.has, hak, hset.here, hrcont]
      · rw [decide_eq_false hak, Bool.false_and, Bool.or_false, BmHeap.has, BmHeap.has,
          hset.other _ _ fun h => hak h.2]
    · rw [BmHeap.has, BmHeap.has, hset.other _ _ fun h => hd h.1]
  | some bm2lRef =>
    dsimp only
    by_cases hsame : bm2lRef.bm2 = n.bm2
    · rw [if_neg fun h => h hsame]
      refine ⟨h, rfl, hok, (Edits.of_same (.refl h)).congr' fun a x => ?_, fun _ _ _ => rfl⟩
      have href : h.ref lhs n.addr = h.ref rhs n.addr := by
        rw [hn, ref_of_bms hm, hl, ← hsame]
        rfl
      by_cases hak : a / addr0Count = n.addr
      · have hhas : h.has rhs a x = h.has lhs a x := by
          rw [BmHeap.has, BmHeap.has, BmHeap.content, BmHeap.content, hak, href]
        rw [decide_eq_true hak, Bool.true_and, hhas, Bool.or_self]
      · rw [decide_eq_false hak, Bool.false_and, Bool.or_false]
    · rw [if_pos hsame]
      obtain ⟨p, g, hrun, hgok, hs, hown, hgref⟩ := unshare_spec hok hm hl
      obtain ⟨g', hrun', hgok', hed, hgref'⟩ := bm2Merge_spec hgok hown ((hgref rhs hne n.addr).trans hn)
      refine ⟨g', by rw [hrun]; exact hrun', hgok', ((Edits.of_same hs).trans hed).congr fun a x v => ?_,
        fun d hd j => (hgref' d hd j).trans (hgref d hd j)⟩
      rw [hs.has]

/-- The loop of `bm_merge2`, for two bitmaps: those accesses are added that are in the blocks of the nodes. -/
theorem bmMergeLoop_spec (hne : rhs ≠ lhs) {nodes : List Bitmap2ref} (hok : h.Ok) (hm : h.bms lhs = some m)
    (hnodes : ∀ n ∈ nodes, h.ref rhs n.addr = some n.bm2) :
    ∃ h', bmMergeLoop lhs nodes h = .ok h' ∧ h'.Ok ∧
      Edits h h' lhs fun a x v => v || (decide (∃ n ∈ nodes, n.addr = a / addr0Count) && h.has rhs a x) := by
  induction nodes generalizing h m with
  | nil =>
    refine ⟨h, rfl, hok, (Edits.of_same (.refl h)).congr fun a x v => ?_⟩
    simp
  | cons n nodes ih =>
    obtain ⟨g, hrun, hgok, hged, hgref⟩ := mergeNode_spec hne hok hm (hnodes n List.mem_cons_self)
    obtain ⟨mg, hmg⟩ := hged.exists_bm hm
    obtain ⟨h', hrest, hok', hed⟩ := ih hgok hmg fun n' hn' =>
      (hgref rhs hne n'.addr).trans (hnodes n' (List.mem_cons_of_mem _ hn'))
    refine ⟨h', ?_, hok', (hged.trans hed).congr fun a x v => ?_⟩
    · unfold bmMergeLoop
      rw [hrun, ok_bind]
      exact hrest
    · rw [hged.other rhs hne, Bool.or_assoc, ← Bool.and_or_distrib_right, ← Bool.decide_or]
      congr 2
      rw [decide_eq_decide]
      simp only [List.mem_cons, exists_eq_or_imp]
      exact or_congr_left eq_comm

/-- Merging a bitmap with itself does nothing. -/
theorem bmMergeLoop_self {nodes : List Bitmap2ref} (hok : h.Ok) (hm : h.bms b = some m)
    (hnodes : ∀ n ∈ nodes, n ∈ m.oset) : bmMergeLoop b nodes h = .ok h := by
  induction nodes with
  | nil => rfl
  | cons n nodes ih =>
    have hn := hnodes n List.mem_cons_self
    have hl : osetLookup m.oset n.addr = some n := (find_iff (hok.ascending b m hm)).mpr ⟨hn, rfl⟩
    obtain ⟨r, hr, hrk, -⟩ := hok.map_of_ref ((ref_eq_some hm).mpr ⟨n, hl, rfl⟩)
    have hrun : mergeNode b h n = .ok h := by
      unfold mergeNode
      rw [bm2_eq hr, ok_bind, bm_eq hm, ok_bind, hrk, hl]
      exact if_neg fun h => h rfl
    unfold bmMergeLoop
    rw [hrun, ok_bind]
    exact ih fun n' hn' => hnodes n' (List.mem_cons_of_mem _ hn')

/-- `bm_merge2` adds the accesses of `rhs`. -/
theorem bmMerge2_spec (hok : h.Ok) (hm : h.bms lhs = some m) {mr : Bitmap} (hmr : h.bms rhs = some mr) :
    ∃ h', bmMerge2 h lhs rhs = .ok h' ∧ h'.Ok ∧ Edits h h' lhs fun a x v => v || h.has rhs a x := by
  unfold bmMerge2
  rw [bm_eq hmr, ok_bind]
  by_cases hne : rhs = lhs
  · subst hne
    obtain rfl := Option.some.inj (hm.symm.trans hmr)
    refine ⟨h, bmMergeLoop_self hok hm fun _ hn => hn, hok, (Edits.of_same (.refl h)).congr' fun a x => ?_⟩
    exact (Bool.or_self _).symm
  · have hlook : ∀ n ∈ mr.oset, osetLookup mr.oset n.addr = some n := fun n hn =>
      (find_iff (hok.ascending rhs mr hmr)).mpr ⟨hn, rfl⟩
    obtain ⟨h', hrun, hok', hed⟩ := bmMergeLoop_spec hne hok hm fun n hn =>
      (ref_eq_some hmr).mpr ⟨n, hlook n hn, rfl⟩
    refine ⟨h', hrun, hok', hed.congr fun a x v => ?_⟩
    -- a block without a node has no accesses
    by_cases hex : ∃ n ∈ mr.oset, n.addr = a / addr0Count
    · rw [decide_eq_true hex, Bool.true_and]
    · have hnone : h.has rhs a x = false := by
        refine has_of_none ((ref_eq_none hmr).mpr (find_eq_none.mpr fun n hn hk => hex ⟨n, hn, hk⟩))
      rw [hnone, Bool.and_false]

/-! ## `bm_swap` -/

/-- The bitmaps have the same map, or none, for every block that is in one of the caches. -/
def SwapOk (h : BmHeap) (b c : Nat) : Prop :=
  ∀ m m', h.bms b = some m → h.bms c = some m' → ∀ k < nBlocks,
    (bmCacheLookup m.cache k ≠ none ∨ bmCacheLookup m'.cache k ≠ none) → h.ref b k = h.ref c k

/-- The heap after `bm_swap`. -/
theorem bms_swap (hm : h.bms b = some m) {m' : Bitmap} (hm' : h.bms c = some m') : ∃ h', bmSwap h b c = .ok h' ∧
    h'.bm2s = h.bm2s ∧ h'.nextBm = h.nextBm ∧ h'.nextBm2 = h.nextBm2 ∧
    ∀ d, h'.bms d = if d = c then some { m' with oset := m.oset } else
      if d = b then some { m with oset := m'.oset } else h.bms d := by
  refine ⟨(h.setBm b { m with oset := m'.oset }).setBm c { m' with oset := m.oset }, ?_, rfl, rfl, rfl, fun d => ?_⟩
  · unfold bmSwap
    rw [bm_eq hm, ok_bind, bm_eq hm', ok_bind]
    rfl
  · rw [bms_setBm, bms_setBm]

theorem bmSwap_spec (hok : h.Ok) (hm : h.bms b = some m) {m' : Bitmap} (hm' : h.bms c = some m') :
    ∃ h', bmSwap h b c = .ok h' ∧ (∀ d, (h'.bms d).isSome = (h.bms d).isSome) ∧ h'.nextBm = h.nextBm ∧
      (∀ d k, h'.ref d k = h.ref (Equiv.swap b c d) k) ∧ (SwapOk h b c → h'.Ok) := by
  obtain ⟨h', hrun, hbm2s, hnext, hnext2, hbms⟩ := bms_swap hm hm'
  have href : ∀ d k, h'.ref d k = h.ref (Equiv.swap b c d) k := by
    intro d k
    unfold BmHeap.ref
    rw [hbms, Equiv.swap_apply_def]
    by_cases hdb : d = b
    · rw [if_pos hdb, if_pos hdb, hm']
      split
      · rename_i hdc
        rw [← hdb, hdc] at hm
        obtain rfl := Option.some.inj (hm.symm.trans hm')
        rfl
      · rfl
    · rw [if_neg hdb, if_neg hdb]
      split
      · rw [hm]
        rfl
      · rfl
  refine ⟨h', hrun, fun d => ?_, hnext, href, fun hsw => ?_⟩
  · rw [hbms]
    split
    · rename_i hd
      rw [hd, hm']
      rfl
    · split
      · rename_i hd
        rw [hd, hm]
        rfl
      · rfl
  · have hcell : h'.cell = h.cell := by
      funext q
      rw [BmHeap.cell, hbm2s]
      rfl
    have hbn := hok.live_lt hm
    have hcn := hok.live_lt hm'
    have hcases : ∀ {d md}, h'.bms d = some md →
        (d = c ∧ md = { m' with oset := m.oset }) ∨ (d = b ∧ md = { m with oset := m'.oset }) ∨
          (d ≠ b ∧ d ≠ c ∧ h.bms d = some md) := by
      intro d md hd
      rw [hbms] at hd
      split at hd
      · rename_i hdc
        exact .inl ⟨hdc, (Option.some.inj hd).symm⟩
      · rename_i hdc
        split at hd
        · rename_i hdb
          exact .inr (.inl ⟨hdb, (Option.some.inj hd).symm⟩)
        · rename_i hdb
          exact .inr (.inr ⟨hdb, hdc, hd⟩)
    refine ⟨?_, fun q hq => ?_, fun d hd => ?_, fun d md hd => ?_, fun d md hd => ?_, fun d md hd k hk v hv => ?_⟩
    · have hfun : h'.ref = fun d => h.ref (Equiv.swap b c d) := funext fun d => funext (href d)
      rw [hcell, hfun, hnext]
      exact hok.counted.swap hbn hcn
    · rw [hbm2s]
      exact hok.fresh2 q (hnext2 ▸ hq)
    · have hd' : h.nextBm ≤ d := hnext ▸ hd
      rw [hbms, if_neg (by omega), if_neg (by omega)]
      exact hok.fresh d hd'
    · rcases hcases hd with ⟨-, rfl⟩ | ⟨-, rfl⟩ | ⟨-, -, hd⟩
      · exact hok.ascending b m hm
      · exact hok.ascending c m' hm'
      · exact hok.ascending d md hd
    · rcases hcases hd with ⟨-, rfl⟩ | ⟨-, rfl⟩ | ⟨-, -, hd⟩
      · exact hok.keys b m hm
      · exact hok.keys c m' hm'
      · exact hok.keys d md hd
    · rw [href]
      rcases hcases hd with ⟨rfl, rfl⟩ | ⟨rfl, rfl⟩ | ⟨hdb, hdc, hd⟩
      · rw [Equiv.swap_apply_right, hsw m m' hm hm' k hk (.inr fun hn => by cases hn.symm.trans hv)]
        exact hok.cached d m' hm' k hk v hv
      · rw [Equiv.swap_apply_left, ← hsw m m' hm hm' k hk (.inl fun hn => by cases hn.symm.trans hv)]
        exact hok.cached d m hm k hk v hv
      · rw [Equiv.swap_apply_of_ne_of_ne hdb hdc]
        exact hok.cached d md hd k hk v hv

end

end Valgrind.Drd
