import Valgrind.Memcheck.LeakShadows

/-!
# The mark stack

What the leak checker knows of the blocks, apart from the stack, are their `marks`: for each
its state and its indirect bytes. Finding a block (`hit`) changes the marks as `markHit`
says and pushes the block if it was not reached before; so the stack always is a list of
distinct blocks that have been reached (`StackOk`).

`lcDoLeakcheck_spec` is the induction rule of `lc_do_leakcheck`: what holds of the marks and is
kept by `markHit` holds when the stack is empty, and it gets there if all blocks can be scanned.
-/

namespace Valgrind

namespace Memcheck

open Machine Debuginfo

section

variable {ε : Type} {c : Client} {shadows : List (McChunk ε)} {mc : McChunk ε}
  {lc lc' : Lc} {i j n sh q ptr : Nat} {clique : Option Nat} {S S' : List Nat}

/-! ## Fields -/

@[simp] theorem setState_markstack (lc : Lc) (i j : Nat) (s : Reachedness) :
    (lc.setState i s).markstack j =
      if j = i then { lc.markstack i with state := s } else lc.markstack j := by
  simp only [Lc.setState, Function.update_apply]

@[simp] theorem setIndirect_markstack (lc : Lc) (i j b : Nat) : (lc.setIndirect i b).markstack j =
    if j = i then { lc.markstack i with indirect := b } else lc.markstack j := by
  simp only [Lc.setIndirect, Function.update_apply]

@[simp] theorem link_markstack (lc : Lc) (i j : Nat) : (lc.link i).markstack j =
    if j = i then { lc.markstack i with next := lc.top } else lc.markstack j := by
  simp only [Lc.link, Function.update_apply]

@[simp] theorem setState_top (lc : Lc) (i : Nat) (s : Reachedness) : (lc.setState i s).top = lc.top := rfl
@[simp] theorem setIndirect_top (lc : Lc) (i b : Nat) : (lc.setIndirect i b).top = lc.top := rfl
@[simp] theorem link_top (lc : Lc) (i : Nat) : (lc.link i).top = some i := rfl

/-- The state and the indirect bytes of each block. -/
abbrev Marks := Nat → Reachedness × Nat

/-- The marks of the blocks. -/
def Lc.marks (lc : Lc) : Marks := fun i => ((lc.markstack i).state, (lc.markstack i).indirect)

/-! ## The stack -/

/-- The blocks of `S` are linked one after the other from `top` on. -/
def LinkedFrom (lc : Lc) : Option Nat → List Nat → Prop
  | top, [] => top = none
  | top, i :: S => top = some i ∧ LinkedFrom lc (lc.markstack i).next S

/-- The mark stack consists of the blocks of `S`, of `n`. -/
structure StackOk (n : Nat) (lc : Lc) (S : List Nat) : Prop where
  linked : LinkedFrom lc lc.top S
  nodup : S.Nodup
  reached : ∀ i ∈ S, i < n ∧ (lc.markstack i).state ≠ .unreached
  off : ∀ i, i ∉ S → (lc.markstack i).next = none

theorem LinkedFrom.congr {top : Option Nat} (h : LinkedFrom lc top S)
    (hn : ∀ i ∈ S, (lc'.markstack i).next = (lc.markstack i).next) : LinkedFrom lc' top S := by
  induction S generalizing top with
  | nil => exact h
  | cons i S ih =>
    obtain ⟨h₁, h₂⟩ := h
    refine ⟨h₁, ?_⟩
    rw [hn i (by simp)]
    exact ih h₂ fun j hj => hn j (by simp [hj])

theorem stackOk_init : StackOk n markstackInit [] := ⟨rfl, List.nodup_nil, by simp, by simp [markstackInit]⟩

/-- Taking the top block off the stack. -/
theorem StackOk.pop (h : StackOk n lc (i :: S)) : ∃ lc', lcMarkstackPop lc = (some i, lc') ∧
    StackOk n lc' S ∧ lc'.marks = lc.marks := by
  obtain ⟨htop, hlinked⟩ := h.linked
  obtain ⟨hnot, hnodup⟩ := List.nodup_cons.mp h.nodup
  refine ⟨_, by rw [lcMarkstackPop, htop], ⟨?_, hnodup, ?_, ?_⟩, ?_⟩
  · refine hlinked.congr fun j hj => ?_
    have hne : j ≠ i := fun he => hnot (he ▸ hj)
    simp [hne]
  · intro j hj
    refine ⟨(h.reached j (by simp [hj])).1, ?_⟩
    have := (h.reached j (by simp [hj])).2
    by_cases hji : j = i
    · subst hji
      simpa using this
    · simpa [Function.update_apply, hji] using this
  · intro j hj
    by_cases hji : j = i
    · simp [hji]
    · have := h.off j (by simp [hji, hj])
      simpa [Function.update_apply, hji] using this
  · funext j
    by_cases hji : j = i
    · subst hji
      simp [Lc.marks]
    · simp [Lc.marks, hji]

/-! ## Finding blocks -/

variable [Machine]

/-- What finding the block `sh` by the address `ptr` does to the marks. -/
def markHit (clique : Option Nat) (sh : Nat) (mc : McChunk ε) (ptr : Nat) (k : Marks) : Marks :=
  match clique with
  | none =>
    if ptr = mc.data then Function.update k sh (.proper, (k sh).2)
    else if (k sh).1 = .unreached then Function.update k sh (.interior, (k sh).2)
    else k
  | some q =>
    if (k sh).1 = .unreached then
      if sh ≠ q then
        Function.update (Function.update k q ((k q).1, addW (addW (k q).2 mc.szB) (k sh).2)) sh
          (.indirectLeak, 0)
      else Function.update k sh (.indirectLeak, (k sh).2)
    else k

/-- What finding a block does. -/
def hit (clique : Option Nat) (sh : Nat) (mc : McChunk ε) (ptr : Nat) (lc : Lc) : Lc :=
  let k := markHit clique sh mc ptr lc.marks
  let lc' : Lc := if (lc.markstack sh).state = .unreached then lc.link sh else lc
  { lc' with markstack := fun i => { lc'.markstack i with state := (k i).1, indirect := (k i).2 } }

@[simp] theorem hit_marks (lc : Lc) : (hit clique sh mc ptr lc).marks = markHit clique sh mc ptr lc.marks := rfl

/-- A block that was found is not unreached any more, and none becomes unreached. -/
theorem markHit_reached {k : Marks} (h : i = sh ∨ (k i).1 ≠ .unreached) :
    (markHit clique sh mc ptr k i).1 ≠ .unreached := by
  unfold markHit
  cases clique with
  | none =>
    dsimp only
    split
    · rw [Function.update_apply]
      split <;> simp_all
    · split
      · rw [Function.update_apply]
        split <;> simp_all
      · rcases h with rfl | h <;> assumption
  | some q =>
    dsimp only
    split
    · split
      · rw [Function.update_apply, Function.update_apply]
        split
        · simp
        · split <;> simp_all
      · rw [Function.update_apply]
        split <;> simp_all
    · rcases h with rfl | h <;> assumption

theorem hit_next (lc : Lc) : ((hit clique sh mc ptr lc).markstack i).next =
    if (lc.markstack sh).state = .unreached ∧ i = sh then lc.top else (lc.markstack i).next := by
  unfold hit
  dsimp only
  by_cases h : (lc.markstack sh).state = .unreached
  · simp only [h, if_true, link_markstack, true_and]
    split <;> simp_all
  · simp [h]

theorem hit_top (lc : Lc) : (hit clique sh mc ptr lc).top =
    if (lc.markstack sh).state = .unreached then some sh else lc.top := by
  unfold hit
  dsimp only
  split <;> rfl

/-- A block that was not reached before is pushed. -/
theorem StackOk.hit (h : StackOk n lc S) (hsh : sh < n) :
    StackOk n (hit clique sh mc ptr lc)
      (if (lc.markstack sh).state = .unreached then sh :: S else S) := by
  have hreached : ∀ i ∈ S, i < n ∧ ((Memcheck.hit clique sh mc ptr lc).markstack i).state ≠ .unreached :=
    fun i hi => ⟨(h.reached i hi).1, markHit_reached (.inr (h.reached i hi).2)⟩
  by_cases hst : (lc.markstack sh).state = .unreached
  · have hnot : sh ∉ S := fun hin => (h.reached sh hin).2 hst
    have hne : ∀ i ∈ S, i ≠ sh := fun i hi he => hnot (he ▸ hi)
    rw [if_pos hst]
    refine ⟨?_, List.nodup_cons.mpr ⟨hnot, h.nodup⟩, ?_, ?_⟩
    · rw [hit_top, if_pos hst]
      refine ⟨rfl, ?_⟩
      rw [hit_next, if_pos ⟨hst, rfl⟩]
      refine h.linked.congr fun i hi => ?_
      rw [hit_next, if_neg fun hand => hne i hi hand.2]
    · intro i hi
      rcases List.mem_cons.mp hi with rfl | hi
      · exact ⟨hsh, markHit_reached (.inl rfl)⟩
      · exact hreached i hi
    · intro i hi
      rw [hit_next, if_neg fun hand => hi (by simp [hand.2])]
      exact h.off i fun hin => hi (by simp [hin])
  · have hnext : ∀ i, ((Memcheck.hit clique sh mc ptr lc).markstack i).next = (lc.markstack i).next := by
      intro i
      rw [hit_next, if_neg fun hand => hst hand.1]
    rw [if_neg hst]
    refine ⟨?_, h.nodup, hreached, fun i hi => (hnext i).trans (h.off i hi)⟩
    rw [hit_top, if_neg hst]
    exact h.linked.congr fun i _ => hnext i

/-- The blocks of a heap: in order, apart, not at the end of the address space, and not all
of it. -/
structure HeapOk (shadows : List (McChunk ε)) : Prop where
  apart : BlocksApart shadows
  fits : ∀ mc ∈ shadows, mc.Fits
  room : (shadows.map McChunk.szB).sum + 1 < wordMod

/-- Joining a clique, as `markHit` has it. -/
theorem joinClique_eq (hq : q < shadows.length) (hsh : (lc.markstack sh).state = .unreached) :
    joinClique shadows (lc.link sh) sh mc.szB q = .ok (hit (some q) sh mc ptr lc) := by
  have hst : ((lc.link sh).markstack sh).state = .unreached := by simpa using hsh
  have hk : (lc.marks sh).1 = .unreached := hsh
  rw [joinClique, assertThat_of hq, ok_bind, if_pos hst]
  by_cases hne : sh ≠ q
  · rw [if_pos hne]
    refine congrArg Except.ok (Lc.ext (funext fun i => ?_) ?_)
    · by_cases hi : i = sh
      · subst hi
        simp [hit, markHit, hk, hne, hsh]
      · by_cases hiq : i = q
        · subst hiq
          simp [hit, markHit, hne, hsh, hi, Lc.marks]
        · simp [hit, markHit, hne, hsh, hi, hiq, Lc.marks, Function.update_apply]
    · simp [hit_top, hsh]
  · obtain rfl : sh = q := by simpa using hne
    rw [if_neg hne]
    refine congrArg Except.ok (Lc.ext (funext fun i => ?_) ?_)
    · by_cases hi : i = sh
      · subst hi
        simp [hit, markHit, hsh, Lc.marks]
      · simp [hit, markHit, hsh, hi, Lc.marks, Function.update_apply]
    · simp [hit_top, hsh]

/-- A block that was reached before does not join a clique. -/
theorem joinClique_of_reached (hq : q < shadows.length) (hsh : (lc.markstack sh).state ≠ .unreached) :
    joinClique shadows lc sh mc.szB q = .ok (hit (some q) sh mc ptr lc) := by
  have hk : (lc.marks sh).1 ≠ .unreached := hsh
  rw [joinClique, assertThat_of hq, ok_bind, if_neg hsh, hit, if_neg hsh, markHit, if_neg hk]
  rfl

/-- Marking a block outside of cliques, as `markHit` has it. -/
theorem setMark_eq (h : (lc.markstack sh).state = .unreached ∧ lc' = lc.link sh ∨
      (lc.markstack sh).state ≠ .unreached ∧ lc' = lc) :
    (if ptr = mc.data then pure (lc'.setState sh .proper)
      else if (lc'.markstack sh).state = .unreached then pure (lc'.setState sh .interior)
      else pure lc') = (.ok (hit none sh mc ptr lc) : Result Lc) := by
  have hstate : (lc'.markstack sh).state = (lc.markstack sh).state := by
    rcases h with ⟨-, rfl⟩ | ⟨-, rfl⟩ <;> simp
  have hlink : (if (lc.markstack sh).state = .unreached then lc.link sh else lc) = lc' := by
    rcases h with ⟨hst, rfl⟩ | ⟨hst, rfl⟩ <;> simp [hst]
  have hmarks : lc'.marks = lc.marks := by
    rcases h with ⟨-, rfl⟩ | ⟨-, rfl⟩
    · funext i
      simp only [Lc.marks, link_markstack]
      split <;> simp_all
    · rfl
  rw [hit, hlink, ← hmarks, markHit]
  split
  · refine congrArg Except.ok (Lc.ext (funext fun i => ?_) rfl)
    by_cases hi : i = sh <;> simp [hi, Lc.marks, Function.update_apply]
  · split
    · rename_i hst
      refine congrArg Except.ok (Lc.ext (funext fun i => ?_) rfl)
      by_cases hi : i = sh <;> simp [hi, Lc.marks, hst]
    · rename_i hst
      refine congrArg Except.ok (Lc.ext (funext fun i => ?_) rfl)
      simp [Lc.marks, hst]

/-- What `lc_markstack_push_WRK` does with an address: nothing if it is not valid for the client
or no block holds it, otherwise the block has been found. -/
theorem push_spec (G : HeapOk shadows) (h : StackOk shadows.length lc S)
    (hq : ∀ q ∈ clique, q < shadows.length) (ptr : Nat) :
    ((c.isValid ptr = false ∨ ∀ mc ∈ shadows, ¬ mc.Holds ptr) ∧
      lcMarkstackPushWRK c shadows clique lc ptr = .ok lc) ∨
    ∃ sh mc, c.isValid ptr = true ∧ shadows[sh]? = some mc ∧ mc.Holds ptr ∧
      lcMarkstackPushWRK c shadows clique lc ptr = .ok (hit clique sh mc ptr lc) := by
  rw [lcMarkstackPushWRK]
  cases hvalid : c.isValid ptr with
  | false => exact .inl ⟨.inl rfl, by rw [if_pos rfl]; rfl⟩
  | true =>
    rw [if_neg (by simp)]
    obtain ⟨r, hr, hsound, hnone⟩ := findShadowFor_spec ptr shadows
    rw [hr, ok_bind]
    cases r with
    | none =>
      refine .inl ⟨.inr fun mc hmc => ?_, rfl⟩
      obtain ⟨m, hm⟩ := List.mem_iff_getElem?.mp hmc
      exact hnone rfl G.apart G.fits m mc hm
    | some sh =>
      obtain ⟨mc, hget, hholds⟩ := hsound sh rfl
      have hmem := List.mem_of_getElem? hget
      have hend : addW (addW mc.data mc.szB) (if mc.szB = 0 then 1 else 0) = mc.data + max mc.szB 1 := by
        have := (G.fits mc hmem).hi_eq
        rw [← this, McChunk.hi]
        split
        · rfl
        · exact Nat.mod_eq_of_lt (addW_lt _ _)
      refine .inr ⟨sh, mc, rfl, hget, hholds, ?_⟩
      dsimp only
      rw [hget]
      dsimp only
      rw [assertThat_of hholds.1, ok_bind, hend, assertThat_of hholds.2, ok_bind]
      by_cases hst : (lc.markstack sh).state = .unreached
      · have hoff : (lc.markstack sh).next = none := h.off sh fun hin => (h.reached sh hin).2 hst
        rw [if_pos hst, assertThat_of hoff, ok_bind, pure_bind]
        cases clique with
        | some q => exact joinClique_eq (hq q rfl) hst
        | none =>
          refine setMark_eq (.inl ⟨hst, rfl⟩)
      · rw [if_neg hst, pure_bind]
        cases clique with
        | some q => exact joinClique_of_reached (hq q rfl) hst
        | none => exact setMark_eq (.inr ⟨hst, rfl⟩)

/-! ## Emptying the stack -/

/-- Finding a block keeps `P`, a property of the marks. -/
def Kept (shadows : List (McChunk ε)) (clique : Option Nat) (P : Marks → Prop) : Prop :=
  ∀ (sh : Nat) (mc : McChunk ε) (ptr : Nat) (k : Marks), shadows[sh]? = some mc → mc.Holds ptr → P k →
    P (markHit clique sh mc ptr k)

/-- The blocks that have not been reached, of `n`. -/
def unreachedBlocks (n : Nat) (lc : Lc) : Finset Nat :=
  (Finset.range n).filter fun i => (lc.markstack i).state = .unreached

omit [Machine] in
/-- A block is on the stack or unreached, but not both. -/
theorem StackOk.length_le (h : StackOk n lc S) : S.length + (unreachedBlocks n lc).card ≤ n := by
  have hdisj : Disjoint S.toFinset (unreachedBlocks n lc) := by
    refine Finset.disjoint_left.mpr fun i hi hu => ?_
    exact (h.reached i (List.mem_toFinset.mp hi)).2 (Finset.mem_filter.mp hu).2
  have hsub : S.toFinset ∪ unreachedBlocks n lc ⊆ Finset.range n := by
    refine Finset.union_subset (fun i hi => ?_) (Finset.filter_subset _ _)
    exact Finset.mem_range.mpr (h.reached i (List.mem_toFinset.mp hi)).1
  have hcard := Finset.card_le_card hsub
  rwa [Finset.card_union_of_disjoint hdisj, List.toFinset_card_of_nodup h.nodup, Finset.card_range] at hcard

/-- What is pushed was unreached. -/
theorem hit_length_le (hsh : sh < n) :
    (if (lc.markstack sh).state = .unreached then sh :: S else S).length +
      (unreachedBlocks n (hit clique sh mc ptr lc)).card ≤ S.length + (unreachedBlocks n lc).card := by
  have hsub : unreachedBlocks n (hit clique sh mc ptr lc) ⊆ unreachedBlocks n lc := by
    intro i hi
    obtain ⟨hi, hst⟩ := Finset.mem_filter.mp hi
    refine Finset.mem_filter.mpr ⟨hi, by_contra fun hne => ?_⟩
    exact markHit_reached (.inr hne) hst
  split
  · rename_i hst
    have hlt : (unreachedBlocks n (hit clique sh mc ptr lc)).card < (unreachedBlocks n lc).card := by
      refine Finset.card_lt_card ((Finset.ssubset_iff_of_subset hsub).mpr ⟨sh, ?_, fun hin => ?_⟩)
      · exact Finset.mem_filter.mpr ⟨Finset.mem_range.mpr hsh, hst⟩
      · exact markHit_reached (.inl rfl) (Finset.mem_filter.mp hin).2
    rw [List.length_cons]
    omega
  · have := Finset.card_le_card hsub
    omega

/-- Pushing all words of a piece of memory. -/
theorem pushes_spec {P : Marks → Prop} (G : HeapOk shadows) (hq : ∀ q ∈ clique, q < shadows.length)
    (hP : Kept shadows clique P) (ws : List Nat) (h : StackOk shadows.length lc S) (hk : P lc.marks) :
    ∃ lc' S', ws.foldlM (lcMarkstackPushWRK c shadows clique) lc = .ok lc' ∧
      StackOk shadows.length lc' S' ∧ P lc'.marks ∧
      S'.length + (unreachedBlocks shadows.length lc').card ≤
        S.length + (unreachedBlocks shadows.length lc).card := by
  induction ws generalizing lc S with
  | nil => exact ⟨lc, S, rfl, h, hk, Nat.le_refl _⟩
  | cons w ws ih =>
    rw [List.foldlM_cons]
    rcases push_spec (c := c) G h hq w with ⟨-, hpush⟩ | ⟨sh, mc, -, hget, hholds, hpush⟩
    · rw [hpush, ok_bind]
      exact ih h hk
    · have hsh : sh < shadows.length := (List.getElem?_eq_some_iff.mp hget).1
      have hhit : StackOk shadows.length (hit clique sh mc w lc) _ := h.hit hsh
      obtain ⟨lc', S', hws, h', hk', hle⟩ := ih hhit (hP sh mc w lc.marks hget hholds hk)
      rw [hpush, ok_bind]
      exact ⟨lc', S', hws, h', hk', hle.trans (hit_length_le hsh)⟩

/-- The memory of every block can be scanned. -/
def Scannable (c : Client) (shadows : List (McChunk ε)) : Prop :=
  ∀ mc ∈ shadows, ∃ ws, scanWords c mc.data mc.szB = .ok ws

/-- Every block is popped at most once, and scanned then. -/
theorem leakcheckLoop_spec {P : Marks → Prop} (G : HeapOk shadows) (hq : ∀ q ∈ clique, q < shadows.length)
    (hP : Kept shadows clique P) {fuel : Nat} (h : StackOk shadows.length lc S) (hk : P lc.marks)
    (hfuel : S.length + (unreachedBlocks shadows.length lc).card < fuel) :
    (∀ lc', leakcheckLoop c shadows clique fuel lc = .ok lc' → StackOk shadows.length lc' [] ∧ P lc'.marks) ∧
      (Scannable c shadows → ∃ lc', leakcheckLoop c shadows clique fuel lc = .ok lc') := by
  induction fuel generalizing lc S with
  | zero => omega
  | succ fuel ih =>
    rw [leakcheckLoop]
    cases S with
    | nil =>
      have htop : lc.top = none := h.linked
      rw [lcMarkstackPop, htop]
      refine ⟨?_, fun _ => ⟨lc, rfl⟩⟩
      rintro lc' ⟨⟩
      exact ⟨h, hk⟩
    | cons i S =>
      obtain ⟨lc₁, hpop, h₁, hmarks⟩ := h.pop
      obtain ⟨hi, hreached⟩ := h.reached i (by simp)
      have hstates : ∀ j, (lc₁.markstack j).state = (lc.markstack j).state :=
        fun j => congrArg Prod.fst (congrFun hmarks j)
      have hun : unreachedBlocks shadows.length lc₁ = unreachedBlocks shadows.length lc :=
        Finset.filter_congr fun j _ => by rw [hstates]
      rw [hpop]
      dsimp only
      rw [List.getElem?_eq_getElem hi]
      dsimp only
      rw [assertThat_of ((hstates i).trans_ne hreached), ok_bind, lcScanMemoryWRK]
      cases hws : scanWords c shadows[i].data shadows[i].szB with
      | error e =>
        refine ⟨fun lc' hret => (nomatch hret), fun hscan => ?_⟩
        obtain ⟨ws, hok⟩ := hscan shadows[i] (List.getElem_mem hi)
        exact nomatch hws.symm.trans hok
      | ok ws =>
        obtain ⟨lc₂, S₂, hpush, h₂, hk₂, hle⟩ := pushes_spec (c := c) G hq hP ws h₁ (hmarks ▸ hk)
        rw [ok_bind, hpush, ok_bind]
        refine ih h₂ hk₂ ?_
        rw [hun] at hle
        rw [List.length_cons] at hfuel
        omega

/-- **The induction rule of the mark loop**: when it returns the stack is empty, and what
finding a block keeps still holds. It returns if all blocks can be scanned. -/
theorem lcDoLeakcheck_spec {P : Marks → Prop} (G : HeapOk shadows) (hq : ∀ q ∈ clique, q < shadows.length)
    (hP : Kept shadows clique P) (h : StackOk shadows.length lc S) (hk : P lc.marks) :
    (∀ lc', lcDoLeakcheck c shadows clique lc = .ok lc' → StackOk shadows.length lc' [] ∧ P lc'.marks) ∧
      (Scannable c shadows → ∃ lc', lcDoLeakcheck c shadows clique lc = .ok lc') :=
  leakcheckLoop_spec G hq hP h hk (Nat.lt_succ_of_le h.length_le)

end

end Memcheck

end Valgrind
