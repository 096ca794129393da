import Valgrind.Drd.BitmapRuns

/-!
# Bitmaps as sets of accesses

What bitmaps are for: each one is a set of accesses, on which the calls act one bitmap at a time
(`AccessSets.act`). Second-level maps that bitmaps share, and caches, are not seen from outside:
in every run of calls the bitmaps answer as the sets do (`bitmaps_refine`).
-/

namespace Valgrind.Drd

open KeyedList Sharing

section

variable [Machine]

open Machine

/-! ## The sets -/

/-- A set of accesses for each bitmap. -/
structure AccessSets where
  has : Nat → Option (Nat → Row → Bool)
  next : Nat

namespace AccessSets

/-- There are no bitmaps. -/
def empty : AccessSets := ⟨fun _ => none, 0⟩

/-- Change the set of one bitmap. -/
def modify (s : AccessSets) (b : Nat) (F : (Nat → Row → Bool) → Nat → Row → Bool) : AccessSets :=
  { s with has := Function.update s.has b ((s.has b).map F) }

end AccessSets

/-- Accesses to the addresses of a range are added. -/
def record (x : Row) (a1 a2 : Nat) (f : Nat → Row → Bool) : Nat → Row → Bool :=
  fun a y => f a y || (decide (y = x) && decide (a1 ≤ a ∧ a < a2))

/-- Accesses to the addresses of a range are taken away. -/
def forget (x : Row) (a1 a2 : Nat) (f : Nat → Row → Bool) : Nat → Row → Bool :=
  fun a y => f a y && decide (¬ (y = x ∧ a1 ≤ a ∧ a < a2))

/-- What the calls do to the sets. -/
def AccessSets.act (s : AccessSets) : BmOp → AccessSets
  | .new => ⟨Function.update s.has s.next (some fun _ _ => false), s.next + 1⟩
  | .delete b => { s with has := Function.update s.has b none }
  | .accessRange b a1 a2 t => s.modify b (record t.row a1 a2)
  | .access1 b a1 t => s.modify b (record t.row a1 (a1 + 1))
  | .access2 b a1 t => s.modify b (record t.row a1 (a1 + 2))
  | .access4 b a1 t => s.modify b (record t.row a1 (a1 + 4))
  | .access8 b a1 t => s.modify b (record t.row a1 (a1 + 8))
  | .clearLoad b a1 a2 => s.modify b (forget .r a1 a2)
  | .clearStore b a1 a2 => s.modify b (forget .w a1 a2)
  | .merge2 lhs rhs => s.modify lhs fun f a x => f a x || (s.has rhs).elim false fun g => g a x
  | _ => s

/-- The calls that are considered, with ranges below the `ADDR0_COUNT` highest addresses. -/
def BmOp.InScope : BmOp → Prop
  | .new => True
  | .delete _ => True
  | .accessRange _ a1 a2 _ => a1 < a2 ∧ a2 + addr0Count < wordMod
  | .access1 _ a1 _ => a1 + 1 + addr0Count < wordMod
  | .access2 _ a1 _ => a1 + 2 + addr0Count < wordMod
  | .access4 _ a1 _ => a1 + 4 + addr0Count < wordMod
  | .access8 _ a1 _ => a1 + 8 + addr0Count < wordMod
  | .clearLoad _ _ _ => True
  | .clearStore _ _ _ => True
  | .merge2 _ _ => True
  | .query _ q => q.Valid
  | _ => False

/-- The bitmap that the call is about. -/
def BmOp.target : BmOp → Option Nat
  | .delete b => some b
  | .accessRange b _ _ _ => some b
  | .access1 b _ _ => some b
  | .access2 b _ _ => some b
  | .access4 b _ _ => some b
  | .access8 b _ _ => some b
  | .clearLoad b _ _ => some b
  | .clearStore b _ _ => some b
  | .merge2 lhs _ => some lhs
  | _ => none

/-- The heap shows the sets. -/
structure Refines (h : BmHeap) (s : AccessSets) : Prop where
  ok : h.Ok
  next : s.next = h.nextBm
  live : ∀ b, (s.has b).isSome = (h.bms b).isSome
  has : ∀ b f, s.has b = some f → h.has b = f

variable {h h' : BmHeap} {s : AccessSets} {b c a1 a2 : Nat} {m : Bitmap} {x : Row} {t : BmAccessType} {op : BmOp}

theorem refines_empty : Refines .empty .empty := ⟨ok_empty, rfl, fun _ => rfl, fun _ _ hf => nomatch hf⟩

/-- One bitmap is edited. -/
theorem Refines.edit {F : (Nat → Row → Bool) → Nat → Row → Bool} {f : Nat → Row → Bool → Bool} (hr : Refines h s)
    (hok : h'.Ok) (he : Edits h h' b f) (hF : ∀ a x, f a x (h.has b a x) = F (h.has b) a x) :
    Refines h' (s.modify b F) := by
  refine ⟨hok, hr.next.trans he.nextBm.symm, fun c => ?_, fun c g hg => ?_⟩
  · rw [he.live, ← hr.live]
    unfold AccessSets.modify
    dsimp only
    rw [Function.update_apply]
    split
    · rename_i hc
      rw [Option.isSome_map, hc]
    · rfl
  · unfold AccessSets.modify at hg
    dsimp only at hg
    rw [Function.update_apply] at hg
    split at hg
    · rename_i hc
      obtain ⟨f', hf', rfl⟩ := Option.map_eq_some_iff.mp hg
      rw [hc, ← hr.has b f' hf']
      funext a x
      rw [he.has, hF]
    · rename_i hc
      rw [← hr.has c g hg]
      funext a x
      exact he.other c hc a x

/-! ## Accesses of a few bytes -/

theorem bmAccess2_spec (hok : h.Ok) (hm : h.bms b = some m) (ha1 : a1 + 2 + addr0Count < wordMod) :
    ∃ h', bmAccess2 h b a1 t = .ok h' ∧ h'.Ok ∧
      Edits h h' b fun a y v => v || (decide (y = t.row) && decide (a1 ≤ a ∧ a < a1 + 2)) := by
  unfold bmAccess2
  split
  · rename_i hdvd
    exact bmAccessAligned_spec hok hm (by omega) (by decide) hdvd
  · rw [addW_of_lt (by omega)]
    exact bmAccessRange_spec hok hm (by omega) ha1 t

theorem bmAccess4_spec (hok : h.Ok) (hm : h.bms b = some m) (ha1 : a1 + 4 + addr0Count < wordMod) :
    ∃ h', bmAccess4 h b a1 t = .ok h' ∧ h'.Ok ∧
      Edits h h' b fun a y v => v || (decide (y = t.row) && decide (a1 ≤ a ∧ a < a1 + 4)) := by
  unfold bmAccess4
  split
  · rename_i hdvd
    exact bmAccessAligned_spec hok hm (by omega) (by decide) hdvd
  · rw [addW_of_lt (by omega)]
    exact bmAccessRange_spec hok hm (by omega) ha1 t

theorem bmAccess8_spec (hok : h.Ok) (hm : h.bms b = some m) (ha1 : a1 + 8 + addr0Count < wordMod) :
    ∃ h', bmAccess8 h b a1 t = .ok h' ∧ h'.Ok ∧
      Edits h h' b fun a y v => v || (decide (y = t.row) && decide (a1 ≤ a ∧ a < a1 + 8)) := by
  unfold bmAccess8
  split
  · rename_i hdvd
    exact bmAccessAligned_spec hok hm (by omega) (by decide) hdvd
  · split
    · -- two accesses of four bytes
      rename_i hdvd
      obtain ⟨g, hg, hgok, he⟩ := bmAccessAligned_spec (x := t.row) hok hm (show a1 < wordMod by omega)
        (show 4 ∈ [1, 2, 4, 8] by decide) hdvd
      obtain ⟨mg, hmg⟩ := he.exists_bm hm
      rw [hg, ok_bind, addW_of_lt (by omega)]
      obtain ⟨h', hh', hok', he'⟩ := bmAccessAligned_spec (x := t.row) hgok hmg (show a1 + 4 < wordMod by omega)
        (show 4 ∈ [1, 2, 4, 8] by decide) (by omega)
      refine ⟨h', hh', hok', (he.trans he').congr fun a y v => ?_⟩
      rw [Bool.or_assoc, ← Bool.and_or_distrib_left, ← Bool.decide_or]
      congr 2
      rw [decide_eq_decide]
      omega
    · rw [addW_of_lt (by omega)]
      exact bmAccessRange_spec hok hm (by omega) ha1 t

theorem bmClearRow_range (hok : h.Ok) (hm : h.bms b = some m) (ha2 : a2 ≤ wordMod) :
    ∃ h', bmClearRow b x (a2 - a1) h a1 = .ok h' ∧ h'.Ok ∧
      Edits h h' b fun a y v => v && decide (¬ (y = x ∧ a1 ≤ a ∧ a < a2)) := by
  by_cases hle : a1 ≤ a2
  · obtain ⟨g, hg, hgok, he⟩ := bmClearRow_spec (x := x) hok hm (show a1 + (a2 - a1) ≤ wordMod by omega)
    rw [Nat.add_sub_cancel' hle] at he
    exact ⟨g, hg, hgok, he⟩
  · rw [Nat.sub_eq_zero_of_le (by omega)]
    refine ⟨h, rfl, hok, (Edits.of_same (.refl h)).congr fun a y v => ?_⟩
    rw [decide_eq_true (show ¬ (y = x ∧ a1 ≤ a ∧ a < a2) by omega), Bool.and_true]

/-! ## Steps -/

/-- Every call returns, and does to the bitmaps what it does to the sets. -/
theorem refines_step (hr : Refines h s) (hall : op.Allowed h ∧ op.InScope) :
    ∃ h', bmStep h op = .ok h' ∧ Refines h' (s.act op) := by
  obtain ⟨hall, hscope⟩ := hall
  have hok := hr.ok
  cases op with
  | new =>
    obtain ⟨h', hrun, hok', hnext, hlive, hhas⟩ := bmNew_spec hok
    refine ⟨h', by rw [bmStep, hrun]; rfl, hok', ?_, fun c => ?_, fun c f hf => ?_⟩
    · rw [hnext, ← hr.next]
      rfl
    · rw [hlive, ← hr.live, ← hr.next]
      unfold AccessSets.act
      dsimp only
      rw [Function.update_apply]
      by_cases hc : c = s.next
      · simp [hc]
      · simp [hc]
    · unfold AccessSets.act at hf
      dsimp only at hf
      rw [Function.update_apply] at hf
      rw [hhas]
      split at hf
      · rename_i hc
        obtain rfl := Option.some.inj hf
        funext a x
        refine has_of_none ?_
        rw [hc, hr.next, BmHeap.ref, hok.fresh _ (Nat.le_refl _)]
        rfl
      · exact hr.has c f hf
  | delete b =>
    obtain ⟨m, hm⟩ := hall
    obtain ⟨h', hrun, hok', hnext, hlive, hhas⟩ := bmDelete_spec hok hm
    refine ⟨h', hrun, hok', hr.next.trans hnext.symm, fun c => ?_, fun c f hf => ?_⟩
    · rw [hlive, ← hr.live]
      unfold AccessSets.act
      dsimp only
      rw [Function.update_apply]
      by_cases hc : c = b
      · simp [hc]
      · simp [hc]
    · unfold AccessSets.act at hf
      dsimp only at hf
      rw [Function.update_apply] at hf
      split at hf
      · exact nomatch hf
      · rename_i hc
        rw [← hr.has c f hf]
        funext a x
        exact hhas c hc a x
  | accessRange b a1 a2 t =>
    obtain ⟨⟨m, hm⟩, -⟩ := hall
    obtain ⟨h', hrun, hok', he⟩ := bmAccessRange_spec hok hm hscope.1 hscope.2 t
    exact ⟨h', hrun, hr.edit hok' he fun _ _ => rfl⟩
  | access1 b a1 t =>
    obtain ⟨⟨m, hm⟩, ha1⟩ := hall
    obtain ⟨h', hrun, hok', he⟩ := bmAccessAligned_spec (x := t.row) hok hm ha1 (show 1 ∈ [1, 2, 4, 8] by decide)
      (Nat.mod_one a1)
    exact ⟨h', hrun, hr.edit hok' he fun _ _ => rfl⟩
  | access2 b a1 t =>
    obtain ⟨⟨m, hm⟩, -⟩ := hall
    obtain ⟨h', hrun, hok', he⟩ := bmAccess2_spec (t := t) hok hm hscope
    exact ⟨h', hrun, hr.edit hok' he fun _ _ => rfl⟩
  | access4 b a1 t =>
    obtain ⟨⟨m, hm⟩, -⟩ := hall
    obtain ⟨h', hrun, hok', he⟩ := bmAccess4_spec (t := t) hok hm hscope
    exact ⟨h', hrun, hr.edit hok' he fun _ _ => rfl⟩
  | access8 b a1 t =>
    obtain ⟨⟨m, hm⟩, -⟩ := hall
    obtain ⟨h', hrun, hok', he⟩ := bmAccess8_spec (t := t) hok hm hscope
    exact ⟨h', hrun, hr.edit hok' he fun _ _ => rfl⟩
  | clearLoad b a1 a2 =>
    obtain ⟨⟨m, hm⟩, ha2⟩ := hall
    obtain ⟨h', hrun, hok', he⟩ := bmClearRow_range (x := .r) hok hm ha2
    exact ⟨h', hrun, hr.edit hok' he fun _ _ => rfl⟩
  | clearStore b a1 a2 =>
    obtain ⟨⟨m, hm⟩, ha2⟩ := hall
    obtain ⟨h', hrun, hok', he⟩ := bmClearRow_range (x := .w) hok hm ha2
    exact ⟨h', hrun, hr.edit hok' he fun _ _ => rfl⟩
  | merge2 lhs rhs =>
    obtain ⟨⟨ml, hml⟩, mr, hmr⟩ := hall
    obtain ⟨h', hrun, hok', he⟩ := bmMerge2_spec hok hml hmr
    have hlive := hr.live rhs
    rw [hmr] at hlive
    obtain ⟨f, hf⟩ := Option.isSome_iff_exists.mp hlive
    refine ⟨h', hrun, hr.edit hok' he fun a x => ?_⟩
    rw [hf, hr.has rhs f hf]
    rfl
  | query b q =>
    obtain ⟨m, hm⟩ := hall
    obtain ⟨res, h', hrun, hreads, -⟩ := query_spec hok.readOk hm hscope
    have hs := hreads.learns.sameMaps.sameContent
    refine ⟨h', by rw [bmStep, hrun]; rfl, hreads.learns.ok hok, hr.next.trans hs.nextBm.symm,
      fun c => (hr.live c).trans (hs.live c).symm, fun c f hf => ?_⟩
    rw [← hr.has c f hf]
    funext a x
    exact hs.has
  | clear b a1 a2 => exact hscope.elim
  | testAndClear b a1 a2 => exact hscope.elim
  | equal lhs rhs => exact hscope.elim
  | swap b c => exact hscope.elim
  | hasRaces s lhs rhs => exact hscope.elim

omit [Machine] in
/-- Other sets stay what they are. -/
theorem act_other (hc : op.target ≠ some c) (hlive : c ≠ s.next) : (s.act op).has c = s.has c := by
  have hmod : ∀ {b F}, some b ≠ some c → (s.modify b F).has c = s.has c := fun hb =>
    Function.update_of_ne (fun h => hb (congrArg some h.symm)) _ _
  cases op with
  | new => exact Function.update_of_ne hlive _ _
  | delete b => exact Function.update_of_ne (fun h => hc (congrArg some h.symm)) _ _
  | accessRange b a1 a2 t => exact hmod hc
  | access1 b a1 t => exact hmod hc
  | access2 b a1 t => exact hmod hc
  | access4 b a1 t => exact hmod hc
  | access8 b a1 t => exact hmod hc
  | clearLoad b a1 a2 => exact hmod hc
  | clearStore b a1 a2 => exact hmod hc
  | merge2 lhs rhs => exact hmod hc
  | query b q => rfl
  | clear b a1 a2 => rfl
  | testAndClear b a1 a2 => rfl
  | equal lhs rhs => rfl
  | swap b c => rfl
  | hasRaces s lhs rhs => rfl

/-- Bitmaps answer queries as their sets do. -/
theorem refines_query {f : Nat → Row → Bool} (hr : Refines h s) (hf : s.has b = some f) {q : BmQuery} (hq : q.Valid) :
    ∃ res h', q.run h b = .ok (res, h') ∧ (res = true ↔ q.Holds f) := by
  have hlive := hr.live b
  rw [hf] at hlive
  obtain ⟨m, hm⟩ := Option.isSome_iff_exists.mp hlive.symm
  obtain ⟨res, h', hrun, -, hres⟩ := query_spec hr.ok.readOk hm hq
  exact ⟨res, h', hrun, hr.has b f hf ▸ hres⟩

/-! ## Reference counts -/

/-- The number of nodes of ordered sets that point to a second-level map. -/
def nodesTo (h : BmHeap) (p : Nat) : Nat :=
  ∑ b ∈ Finset.range h.nextBm, ((h.bms b).map fun m => m.oset.countP fun n => n.bm2 = p).getD 0

/-- A bitmap has at most one node that points to a map: the one for the block of the map. -/
theorem countP_nodes (hok : h.Ok) {p : Nat} {m2 : Bitmap2} (hp : h.bm2s p = some m2) (b : Nat) :
    ((h.bms b).map fun m => m.oset.countP fun n => n.bm2 = p).getD 0 = if h.ref b m2.addr = some p then 1 else 0 := by
  cases hm : h.bms b with
  | none =>
    have hnone : h.ref b m2.addr = none := by
      rw [BmHeap.ref, hm]
      rfl
    rw [hnone, if_neg fun h => nomatch h]
    rfl
  | some m =>
    have hasc := hok.ascending b m hm
    have hnode : ∀ n ∈ m.oset, n.bm2 = p → n.addr = m2.addr := by
      rintro n hn rfl
      obtain ⟨m2', hm2', haddr⟩ := hok.haveMaps hm n hn
      rw [← haddr, Option.some.inj (hm2'.symm.trans hp)]
    dsimp only [Option.map_some, Option.getD_some]
    by_cases href : h.ref b m2.addr = some p
    · obtain ⟨n₀, hn₀, hp₀⟩ := (ref_eq_some hm).mp href
      have hmem := mem_of_find hn₀
      have hcount : m.oset.countP (fun n => n.bm2 = p) = m.oset.count n₀ := by
        refine List.countP_congr fun n hn => ?_
        rw [decide_eq_true_eq, beq_iff_eq]
        exact ⟨fun h => hasc.eq_of_key hn hmem ((hnode n hn h).trans (hnode n₀ hmem hp₀).symm), fun h => h ▸ hp₀⟩
      rw [if_pos href, hcount]
      exact List.count_eq_one_of_mem (hasc.imp fun hlt heq => absurd (heq ▸ hlt) (lt_irrefl _)) hmem
    · rw [if_neg href, List.countP_eq_zero]
      intro n hn
      rw [decide_eq_true_eq]
      intro hpn
      refine href ((ref_eq_some hm).mpr ⟨n, ?_, hpn⟩)
      exact (find_iff hasc).mpr ⟨hn, hnode n hn hpn⟩

theorem refcnt_eq (hok : h.Ok) {p : Nat} {m2 : Bitmap2} (hp : h.bm2s p = some m2) : m2.refcnt = nodesTo h p := by
  have hcell : h.cell p = some (m2.addr, m2.refcnt) := by
    rw [BmHeap.cell, hp]
    rfl
  rw [(hok.counted.counted p m2.addr m2.refcnt hcell).1, owners, Finset.card_filter, nodesTo]
  exact Finset.sum_congr rfl fun b _ => (countP_nodes hok hp b).symm

/-! ## Runs -/

/-- **Bitmaps refine sets of accesses.** Every run of calls returns; afterwards the bitmaps that exist answer all
queries as the sets do, one more call changes only the answers of the bitmap that it is about, and the reference
counts are right. -/
theorem bitmaps_refine {ops : List BmOp}
    (hops : runMeets bmStep (fun h op => op.Allowed h ∧ op.InScope) .empty ops) :
    ∃ h, runSteps bmStep .empty ops = .ok h ∧
      (∀ b, h.Live b ↔ ∃ f, (ops.foldl AccessSets.act .empty).has b = some f) ∧
      (∀ b f, (ops.foldl AccessSets.act .empty).has b = some f → ∀ q : BmQuery, q.Valid →
        ∃ res h', q.run h b = .ok (res, h') ∧ (res = true ↔ q.Holds f)) ∧
      (∀ op h', op.Allowed h ∧ op.InScope → bmStep h op = .ok h' → ∀ c, h.Live c → op.target ≠ some c →
        ∀ q : BmQuery, q.Valid → ∃ res g g', q.run h c = .ok (res, g) ∧ q.run h' c = .ok (res, g')) ∧
      ∀ p m2, h.bm2s p = some m2 → m2.refcnt = nodesTo h p := by
  have hstep : ∀ (h : BmHeap) (s : AccessSets) (op : BmOp), Refines h s → op.Allowed h ∧ op.InScope →
      ∃ h', bmStep h op = .ok h' ∧ Refines h' (s.act op) := fun _ _ _ hr hop => refines_step hr hop
  obtain ⟨h, hrun, hr⟩ := runSteps_sim hstep refines_empty hops
  generalize ops.foldl AccessSets.act .empty = s at hr
  refine ⟨h, hrun, fun b => ?_, fun b f hf q hq => refines_query hr hf hq, fun op h' hop hstep c hlive htarget q hq => ?_,
    fun p m2 hp => refcnt_eq hr.ok hp⟩
  · rw [← Option.isSome_iff_exists, hr.live, Option.isSome_iff_exists]
    exact Iff.rfl
  · obtain ⟨m, hm⟩ := hlive
    obtain ⟨g, hg, hr'⟩ := refines_step hr hop
    rw [hstep] at hg
    obtain rfl := Except.ok.inj hg
    have hsome := hr.live c
    rw [hm] at hsome
    obtain ⟨f, hf⟩ := Option.isSome_iff_exists.mp hsome
    have hne : c ≠ s.next := by
      rw [hr.next]
      exact (hr.ok.live_lt hm).ne
    obtain ⟨res, g, hq₁, hres⟩ := refines_query hr hf hq
    obtain ⟨res', g', hq₂, hres'⟩ := refines_query hr' ((act_other htarget hne).trans hf) hq
    obtain rfl : res = res' := Bool.eq_iff_iff.mpr (hres.trans hres'.symm)
    exact ⟨res, g, g', hq₁, hq₂⟩

omit [Machine] in
/-- A bitmap is created, and a store is recorded. -/
theorem bitmaps_refine_store : letI : Machine := amd64Linux
    ∃ h, runSteps bmStep .empty [.new, .access4 0 8 .eStore] = .ok h ∧
      (∀ b, h.Live b ↔ ∃ f, ([.new, .access4 0 8 .eStore].foldl AccessSets.act .empty).has b = some f) ∧
      (∀ b f, ([.new, .access4 0 8 .eStore].foldl AccessSets.act .empty).has b = some f →
        ∀ q : BmQuery, q.Valid → ∃ res h', q.run h b = .ok (res, h') ∧ (res = true ↔ q.Holds f)) ∧
      (∀ op h', op.Allowed h ∧ op.InScope → bmStep h op = .ok h' → ∀ c, h.Live c → op.target ≠ some c →
        ∀ q : BmQuery, q.Valid → ∃ res g g', q.run h c = .ok (res, g) ∧ q.run h' c = .ok (res, g')) ∧
      ∀ p m2, h.bm2s p = some m2 → m2.refcnt = nodesTo h p := by
  letI : Machine := amd64Linux
  refine bitmaps_refine ⟨⟨trivial, trivial⟩, fun h₁ hrun₁ => ?_⟩
  obtain rfl := Except.ok.inj hrun₁
  exact ⟨⟨⟨⟨_, rfl⟩, by decide⟩, show 8 + 4 + addr0Count < wordMod by decide⟩, fun _ _ => trivial⟩

end

end Valgrind.Drd
