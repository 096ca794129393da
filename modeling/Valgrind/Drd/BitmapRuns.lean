import Valgrind.Drd.BitmapWhole

/-!
# Runs over bitmaps

`BmOp` is a call of a function of `drd_bitmap.c`, and `Reach` says that a heap can be reached by
such calls from the empty one. The calls are those that the tool can make: the bitmaps exist,
addresses are words and the ranges of `bm_clear` end below the `ADDR0_COUNT` highest addresses.
Only for `bm_swap` there is a further condition, since it can leave a bitmap with a cache that
contradicts its ordered set. Every heap that is reached satisfies the invariant (`Reach.ok`).
-/

namespace Valgrind.Drd

open BitArray KeyedList

section

variable [Machine]

open Machine

/-- A call. -/
inductive BmOp where
  | new
  | delete (b : Nat)
  | accessRange (b a1 a2 : Nat) (t : BmAccessType)
  | access1 (b a1 : Nat) (t : BmAccessType)
  | access2 (b a1 : Nat) (t : BmAccessType)
  | access4 (b a1 : Nat) (t : BmAccessType)
  | access8 (b a1 : Nat) (t : BmAccessType)
  | clear (b a1 a2 : Nat)
  | clearLoad (b a1 a2 : Nat)
  | clearStore (b a1 a2 : Nat)
  | testAndClear (b a1 a2 : Nat)
  | merge2 (lhs rhs : Nat)
  | equal (lhs rhs : Nat)
  | swap (b c : Nat)
  | hasRaces (sSuppressed lhs rhs : Nat)
  | query (b : Nat) (q : BmQuery)
  deriving DecidableEq, Repr

/-- The heap after a call. -/
def bmStep (h : BmHeap) : BmOp → Result BmHeap
  | .new => Prod.snd <$> bmNew h
  | .delete b => bmDelete h b
  | .accessRange b a1 a2 t => bmAccessRange h b a1 a2 t
  | .access1 b a1 t => bmAccess1 h b a1 t
  | .access2 b a1 t => bmAccess2 h b a1 t
  | .access4 b a1 t => bmAccess4 h b a1 t
  | .access8 b a1 t => bmAccess8 h b a1 t
  | .clear b a1 a2 => bmClear h b a1 a2
  | .clearLoad b a1 a2 => bmClearLoad h b a1 a2
  | .clearStore b a1 a2 => bmClearStore h b a1 a2
  | .testAndClear b a1 a2 => Prod.snd <$> bmTestAndClear h b a1 a2
  | .merge2 lhs rhs => bmMerge2 h lhs rhs
  | .equal lhs rhs => Prod.snd <$> bmEqual h lhs rhs
  | .swap b c => bmSwap h b c
  | .hasRaces sSuppressed lhs rhs => Prod.snd <$> bmHasRaces h sSuppressed lhs rhs
  | .query b q => Prod.snd <$> q.run h b

/-- The bitmap exists. -/
def BmHeap.Live (h : BmHeap) (b : Nat) : Prop := ∃ m, h.bms b = some m

/-- The call is one that the tool can make. -/
def BmOp.Allowed (h : BmHeap) : BmOp → Prop
  | .new => True
  | .delete b => h.Live b
  | .accessRange b _ a2 _ => h.Live b ∧ a2 < wordMod
  | .access1 b a1 _ => h.Live b ∧ a1 < wordMod
  | .access2 b a1 _ => h.Live b ∧ a1 < wordMod
  | .access4 b a1 _ => h.Live b ∧ a1 < wordMod
  | .access8 b a1 _ => h.Live b ∧ a1 < wordMod
  | .clear b _ a2 => h.Live b ∧ a2 + addr0Count ≤ wordMod
  | .clearLoad b _ a2 => h.Live b ∧ a2 ≤ wordMod
  | .clearStore b _ a2 => h.Live b ∧ a2 ≤ wordMod
  | .testAndClear b _ a2 => h.Live b ∧ a2 + addr0Count ≤ wordMod
  | .merge2 lhs rhs => h.Live lhs ∧ h.Live rhs
  | .equal lhs rhs => h.Live lhs ∧ h.Live rhs
  | .swap b c => h.Live b ∧ h.Live c ∧ SwapOk h b c
  | .hasRaces sSuppressed lhs rhs => h.Live sSuppressed ∧ h.Live lhs ∧ h.Live rhs
  | .query b _ => h.Live b

/-- The heap can be reached. -/
inductive Reach : BmHeap → Prop where
  | empty : Reach .empty
  | step {h h' : BmHeap} {op : BmOp} : Reach h → op.Allowed h → bmStep h op = .ok h' → Reach h'

variable {h h' : BmHeap} {b a1 a2 lhs rhs : Nat} {m : Bitmap} {x : Row} {t : BmAccessType}

theorem ok_empty : BmHeap.empty.Ok := by
  refine ⟨⟨fun b k p hp => (nomatch hp), fun p k r hp => (nomatch hp)⟩, fun _ _ => rfl, fun _ _ => rfl, ?_, ?_, ?_⟩
  · exact fun b m hm => nomatch hm
  · exact fun b m hm => nomatch hm
  · exact fun b m hm => nomatch hm

/-! ## Recording accesses keeps the invariant -/

theorem ok_of_eq {r : Result BmHeap} (hspec : ∃ h', r = .ok h' ∧ h'.Ok) (hrun : r = .ok h') : h'.Ok := by
  obtain ⟨g, hg, hok⟩ := hspec
  rw [hrun] at hg
  exact Except.ok.inj hg ▸ hok

theorem accessRange_ok (hok : h.Ok) (hm : h.bms b = some m) (ha2 : a2 < wordMod)
    (hrun : bmAccessRange h b a1 a2 t = .ok h') : h'.Ok ∧
      Edits h h' b (fun a y v => v || (decide (y = t.row) && decide (a1 ≤ a ∧ a < a2))) := by
  have hasserts : a1 < a2 ∧ a2 + addr0Count < wordMod := by
    unfold bmAccessRange at hrun
    obtain ⟨u₁, h₁, hrun⟩ := bind_eq_ok.mp hrun
    obtain ⟨u₂, h₂, -⟩ := bind_eq_ok.mp hrun
    refine ⟨assertThat_eq_ok.mp h₁, ?_⟩
    by_contra hge
    have hadd := addW_of_ge ha2 (show addr0Count < wordMod by
      rw [addr0Count_eq]
      rcases wordMod_cases with h | h <;> omega) (by omega)
    have hgt := assertThat_eq_ok.mp h₂
    rw [hadd] at hgt
    have hlt : addr0Count < wordMod := by
      rw [addr0Count_eq]
      rcases wordMod_cases with h | h <;> omega
    omega
  obtain ⟨g, hg, hgok, hed⟩ := bmAccessRange_spec hok hm hasserts.1 hasserts.2 t
  rw [hrun] at hg
  obtain rfl := Except.ok.inj hg
  exact ⟨hgok, hed⟩

theorem accessAligned_ok (hok : h.Ok) (hm : h.bms b = some m) (ha1 : a1 < wordMod) {size : Nat}
    (hsize : size ∈ [1, 2, 4, 8]) (hdvd : a1 % size = 0) (hrun : bmAccessAligned h b a1 size x = .ok h') : h'.Ok := by
  obtain ⟨g, hg, hgok, -⟩ := bmAccessAligned_spec (x := x) hok hm ha1 hsize hdvd
  exact ok_of_eq ⟨g, hg, hgok⟩ hrun

theorem access2_ok (hok : h.Ok) (hm : h.bms b = some m) (ha1 : a1 < wordMod) (hrun : bmAccess2 h b a1 t = .ok h') :
    h'.Ok := by
  unfold bmAccess2 at hrun
  split at hrun
  · rename_i hdvd
    exact accessAligned_ok hok hm ha1 (by decide) hdvd hrun
  · exact (accessRange_ok hok hm (addW_lt _ _) hrun).1

theorem access4_ok (hok : h.Ok) (hm : h.bms b = some m) (ha1 : a1 < wordMod) (hrun : bmAccess4 h b a1 t = .ok h') :
    h'.Ok := by
  unfold bmAccess4 at hrun
  split at hrun
  · rename_i hdvd
    exact accessAligned_ok hok hm ha1 (by decide) hdvd hrun
  · exact (accessRange_ok hok hm (addW_lt _ _) hrun).1

theorem access8_ok (hok : h.Ok) (hm : h.bms b = some m) (ha1 : a1 < wordMod) (hrun : bmAccess8 h b a1 t = .ok h') :
    h'.Ok := by
  unfold bmAccess8 at hrun
  split at hrun
  · rename_i hdvd
    exact accessAligned_ok hok hm ha1 (by decide) hdvd hrun
  · split at hrun
    · rename_i hdvd
      obtain ⟨g, hg, hgok, hed⟩ := bmAccessAligned_spec (x := t.row) hok hm ha1 (show 4 ∈ [1, 2, 4, 8] by decide) hdvd
      rw [hg, ok_bind] at hrun
      obtain ⟨mg, hmg⟩ := hed.exists_bm hm
      refine accessAligned_ok hgok hmg (addW_lt _ _) (by decide) ?_ hrun
      unfold addW
      rcases wordMod_cases with h | h <;> rw [h] <;> omega
    · exact (accessRange_ok hok hm (addW_lt _ _) hrun).1

/-! ## Queries that return have only told the caches something -/

theorem bms_of_bm (hrun : h.bm b = .ok m) : h.bms b = some m := by
  unfold BmHeap.bm at hrun
  split at hrun
  · rename_i m' hm
    rw [hm, Except.ok.inj hrun]
  · exact nomatch hrun

theorem bm2Lookup_learns {k : Nat} {o : Option Nat} (hrun : bm2Lookup h b k = .ok (o, h')) : Learns h h' := by
  unfold bm2Lookup at hrun
  obtain ⟨m, hm, hrun⟩ := bind_eq_ok.mp hrun
  have hbms := bms_of_bm hm
  split at hrun
  · obtain ⟨-, rfl⟩ := Prod.mk.inj (pure_eq_ok.mp hrun)
    exact .refl
  · obtain ⟨-, rfl⟩ := Prod.mk.inj (pure_eq_ok.mp hrun)
    have hlearn := Learns.learn (k := k) .refl hbms
    rw [BmHeap.learn, ref_of_bms hbms] at hlearn
    exact hlearn

theorem bmHas1_learns {a : Nat} {v : Bool} (hrun : bmHas1 h b a t = .ok (v, h')) : Learns h h' := by
  unfold bmHas1 at hrun
  obtain ⟨⟨o, g⟩, hlook, hrun⟩ := bind_eq_ok.mp hrun
  have hl := bm2Lookup_learns hlook
  cases o with
  | none =>
    obtain ⟨-, rfl⟩ := Prod.mk.inj (pure_eq_ok.mp hrun)
    exact hl
  | some p =>
    obtain ⟨m2, -, hrun⟩ := bind_eq_ok.mp hrun
    obtain ⟨-, rfl⟩ := Prod.mk.inj (pure_eq_ok.mp hrun)
    exact hl

theorem bmHasLoop_learns {n a : Nat} {v : Bool} (hrun : bmHasLoop b t n h a = .ok (v, h')) : Learns h h' := by
  induction n generalizing h a with
  | zero =>
    obtain ⟨-, rfl⟩ := Prod.mk.inj (pure_eq_ok.mp hrun)
    exact .refl
  | succ n ih =>
    unfold bmHasLoop at hrun
    obtain ⟨⟨has, g⟩, hhas, hrun⟩ := bind_eq_ok.mp hrun
    have hl := bmHas1_learns hhas
    dsimp only at hrun
    split at hrun
    · exact hl.trans (ih hrun)
    · obtain ⟨-, rfl⟩ := Prod.mk.inj (pure_eq_ok.mp hrun)
      exact hl

/-- What each turn of a loop over blocks keeps, the loop keeps. -/
theorem forBlocks_keeps {α : Type} {body : BmHeap → Nat → Nat → Result (Option α × BmHeap)} {P : BmHeap → Prop}
    (hbody : ∀ g c d r g', P g → body g c d = .ok (r, g') → P g') {fuel c : Nat} {r : Option α} (hP : P h)
    (hrun : forBlocks a2 body fuel h c = .ok (r, h')) : P h' := by
  induction fuel generalizing h c with
  | zero => exact absurd hrun throw_eq_ok
  | succ fuel ih =>
    unfold forBlocks at hrun
    split at hrun
    · obtain ⟨⟨res, g⟩, hturn, hrun⟩ := bind_eq_ok.mp hrun
      have hg := hbody _ _ _ _ _ hP hturn
      cases res with
      | none => exact ih hg hrun
      | some x =>
        obtain ⟨-, rfl⟩ := Prod.mk.inj (pure_eq_ok.mp hrun)
        exact hg
    · obtain ⟨-, rfl⟩ := Prod.mk.inj (pure_eq_ok.mp hrun)
      exact hP

theorem hasAnyInBlock_learns {test : Bitmap1 → Nat → Result Bool} {c : Nat} {r : Option Bool}
    (hrun : hasAnyInBlock test b a1 a2 h c = .ok (r, h')) : Learns h h' := by
  unfold hasAnyInBlock at hrun
  obtain ⟨⟨o, g⟩, hlook, hrun⟩ := bind_eq_ok.mp hrun
  have hl := bm2Lookup_learns hlook
  cases o with
  | none =>
    obtain ⟨-, rfl⟩ := Prod.mk.inj (pure_eq_ok.mp hrun)
    exact hl
  | some p =>
    obtain ⟨m2, -, hrun⟩ := bind_eq_ok.mp hrun
    obtain ⟨clip, -, hrun⟩ := bind_eq_ok.mp hrun
    cases clip with
    | none =>
      obtain ⟨-, rfl⟩ := Prod.mk.inj (pure_eq_ok.mp hrun)
      exact hl
    | some range =>
      obtain ⟨any, -, hrun⟩ := bind_eq_ok.mp hrun
      obtain ⟨-, rfl⟩ := Prod.mk.inj (pure_eq_ok.mp hrun)
      exact hl

theorem bmHasAny_learns {test : Bitmap1 → Nat → Result Bool} {v : Bool}
    (hrun : bmHasAny test h b a1 a2 = .ok (v, h')) : Learns h h' := by
  unfold bmHasAny at hrun
  obtain ⟨⟨res, g⟩, hloop, hrun⟩ := bind_eq_ok.mp hrun
  obtain ⟨-, rfl⟩ := Prod.mk.inj (pure_eq_ok.mp hrun)
  exact forBlocks_keeps (P := Learns h) (fun _ _ _ _ _ hg hturn => hg.trans (hasAnyInBlock_learns hturn)) .refl hloop

theorem bmAlignedHasConflictWith_learns {test : Bitmap1 → Nat → Nat → UWord} {size : Nat} {v : Bool}
    (hrun : bmAlignedHasConflictWith test h b a1 size = .ok (v, h')) : Learns h h' := by
  unfold bmAlignedHasConflictWith at hrun
  obtain ⟨⟨o, g⟩, hlook, hrun⟩ := bind_eq_ok.mp hrun
  have hl := bm2Lookup_learns hlook
  cases o with
  | none =>
    obtain ⟨-, rfl⟩ := Prod.mk.inj (pure_eq_ok.mp hrun)
    exact hl
  | some p =>
    obtain ⟨m2, -, hrun⟩ := bind_eq_ok.mp hrun
    obtain ⟨-, rfl⟩ := Prod.mk.inj (pure_eq_ok.mp hrun)
    exact hl

theorem query_learns {q : BmQuery} {v : Bool} (hrun : q.run h b = .ok (v, h')) : Learns h h' := by
  cases q with
  | has1 a t => exact bmHas1_learns hrun
  | has a1 a2 t => exact bmHasLoop_learns hrun
  | hasAnyLoad a1 a2 => exact bmHasAny_learns hrun
  | hasAnyStore a1 a2 => exact bmHasAny_learns hrun
  | hasAnyAccess a1 a2 => exact bmHasAny_learns hrun
  | hasConflictWith a1 a2 t => exact bmHasAny_learns hrun
  | loadNHasConflictWith n a1 =>
    change bmLoadNHasConflictWith n h b a1 = _ at hrun
    unfold bmLoadNHasConflictWith at hrun
    split at hrun
    · exact bmAlignedHasConflictWith_learns hrun
    · exact bmHasAny_learns hrun
  | storeNHasConflictWith n a1 =>
    change bmStoreNHasConflictWith n h b a1 = _ at hrun
    unfold bmStoreNHasConflictWith at hrun
    split at hrun
    · exact bmAlignedHasConflictWith_learns hrun
    · exact bmHasAny_learns hrun

theorem bmEqualLoop_learns {lOset rOset : List Bitmap2ref} {v : Bool}
    (hrun : bmEqualLoop lhs rhs lOset rOset h = .ok (v, h')) : Learns h h' := by
  induction lOset generalizing rOset h with
  | nil =>
    cases rOset with
    | nil =>
      obtain ⟨-, rfl⟩ := Prod.mk.inj (pure_eq_ok.mp hrun)
      exact .refl
    | cons n rOset =>
      unfold bmEqualLoop at hrun
      obtain ⟨r, -, hrun⟩ := bind_eq_ok.mp hrun
      obtain ⟨⟨any, g⟩, hany, hrun⟩ := bind_eq_ok.mp hrun
      obtain ⟨_, -, hrun⟩ := bind_eq_ok.mp hrun
      obtain ⟨-, rfl⟩ := Prod.mk.inj (pure_eq_ok.mp hrun)
      exact bmHasAny_learns hany
  | cons n lOset ih =>
    unfold bmEqualLoop at hrun
    obtain ⟨l, -, hrun⟩ := bind_eq_ok.mp hrun
    obtain ⟨⟨any, g⟩, hany, hrun⟩ := bind_eq_ok.mp hrun
    have hl : Learns h g := bmHasAny_learns hany
    dsimp only at hrun
    split at hrun
    · cases rOset with
      | nil =>
        obtain ⟨-, rfl⟩ := Prod.mk.inj (pure_eq_ok.mp hrun)
        exact hl
      | cons n' rOset =>
        obtain ⟨r, -, hrun⟩ := bind_eq_ok.mp hrun
        obtain ⟨⟨any', g'⟩, hany', hrun⟩ := bind_eq_ok.mp hrun
        obtain ⟨_, -, hrun⟩ := bind_eq_ok.mp hrun
        have hl' : Learns g g' := bmHasAny_learns hany'
        dsimp only at hrun
        split at hrun
        · obtain ⟨-, rfl⟩ := Prod.mk.inj (pure_eq_ok.mp hrun)
          exact hl.trans hl'
        · exact (hl.trans hl').trans (ih hrun)
    · exact hl.trans (ih hrun)

theorem bmEqual_learns {v : Bool} (hrun : bmEqual h lhs rhs = .ok (v, h')) : Learns h h' := by
  unfold bmEqual at hrun
  obtain ⟨_, -, hrun⟩ := bind_eq_ok.mp hrun
  obtain ⟨l, -, hrun⟩ := bind_eq_ok.mp hrun
  obtain ⟨r, -, hrun⟩ := bind_eq_ok.mp hrun
  exact bmEqualLoop_learns hrun

theorem raceInBlock_learns {s : Nat} {l r : Bitmap2} {kbs : List (Nat × Nat)} {v : Bool}
    (hrun : raceInBlock s l r kbs h = .ok (v, h')) : Learns h h' := by
  induction kbs generalizing h with
  | nil =>
    obtain ⟨-, rfl⟩ := Prod.mk.inj (pure_eq_ok.mp hrun)
    exact .refl
  | cons kb kbs ih =>
    obtain ⟨k, b⟩ := kb
    unfold raceInBlock at hrun
    obtain ⟨⟨race, g⟩, hrace, hrun⟩ := bind_eq_ok.mp hrun
    have hl : Learns h g := by
      unfold raceAt at hrace
      dsimp only at hrace
      split at hrace
      · obtain ⟨⟨suppressed, g'⟩, hsup, hrace⟩ := bind_eq_ok.mp hrace
        obtain ⟨-, rfl⟩ := Prod.mk.inj (pure_eq_ok.mp hrace)
        exact bmHasLoop_learns hsup
      · obtain ⟨-, rfl⟩ := Prod.mk.inj (pure_eq_ok.mp hrace)
        exact .refl
    dsimp only at hrun
    split at hrun
    · obtain ⟨-, rfl⟩ := Prod.mk.inj (pure_eq_ok.mp hrun)
      exact hl
    · exact hl.trans (ih hrun)

theorem bmHasRacesLoop_learns {s fuel v : Nat} {it : Iterators}
    (hrun : bmHasRacesLoop s lhs rhs fuel it h = .ok (v, h')) : Learns h h' := by
  induction fuel generalizing it h with
  | zero => exact absurd hrun throw_eq_ok
  | succ fuel ih =>
    unfold bmHasRacesLoop at hrun
    obtain ⟨⟨l, it₁⟩, -, hrun⟩ := bind_eq_ok.mp hrun
    obtain ⟨⟨r, it₂⟩, -, hrun⟩ := bind_eq_ok.mp hrun
    obtain ⟨⟨l', r', it₃⟩, -, hrun⟩ := bind_eq_ok.mp hrun
    obtain ⟨⟨race, g⟩, hrace, hrun⟩ := bind_eq_ok.mp hrun
    have hl := raceInBlock_learns hrace
    dsimp only at hrun
    split at hrun
    · obtain ⟨-, rfl⟩ := Prod.mk.inj (pure_eq_ok.mp hrun)
      exact hl
    · exact hl.trans (ih hrun)

theorem bmHasRaces_learns {s v : Nat} (hrun : bmHasRaces h s lhs rhs = .ok (v, h')) : Learns h h' := by
  unfold bmHasRaces at hrun
  obtain ⟨l, -, hrun⟩ := bind_eq_ok.mp hrun
  obtain ⟨r, -, hrun⟩ := bind_eq_ok.mp hrun
  exact bmHasRacesLoop_learns hrun

/-! ## Every call keeps the invariant -/

theorem bmClear_asserts (hrun : bmClear h b a1 a2 = .ok h') : a1 ≠ 0 ∧ a1 ≤ a2 := by
  unfold bmClear at hrun
  obtain ⟨_, h₁, hrun⟩ := bind_eq_ok.mp hrun
  obtain ⟨_, h₂, -⟩ := bind_eq_ok.mp hrun
  exact ⟨assertThat_eq_ok.mp h₁, assertThat_eq_ok.mp h₂⟩

theorem clear_ok (hok : h.Ok) (hm : h.bms b = some m) (ha2 : a2 + addr0Count ≤ wordMod)
    (hrun : bmClear h b a1 a2 = .ok h') : h'.Ok := by
  obtain ⟨ha1, hle⟩ := bmClear_asserts hrun
  obtain ⟨g, hg, hgok, -⟩ := bmClear_spec hok hm ha1 hle ha2
  exact ok_of_eq ⟨g, hg, hgok⟩ hrun

theorem clearRow_ok (hok : h.Ok) (hm : h.bms b = some m) (ha2 : a2 ≤ wordMod)
    (hrun : bmClearRow b x (a2 - a1) h a1 = .ok h') : h'.Ok := by
  by_cases hle : a1 ≤ a2
  · obtain ⟨g, hg, hgok, -⟩ := bmClearRow_spec (x := x) hok hm (show a1 + (a2 - a1) ≤ wordMod by omega)
    exact ok_of_eq ⟨g, hg, hgok⟩ hrun
  · rw [Nat.sub_eq_zero_of_le (by omega)] at hrun
    exact Except.ok.inj hrun ▸ hok

theorem snd_eq_ok {α : Type} {r : Result (α × BmHeap)} (hrun : Prod.snd <$> r = .ok h') : ∃ v, r = .ok (v, h') := by
  cases r with
  | error e => exact nomatch hrun
  | ok p =>
    obtain ⟨v, g⟩ := p
    exact ⟨v, congrArg (fun g => Except.ok (v, g)) (Except.ok.inj hrun)⟩

/-- One call keeps the invariant. -/
theorem step_ok (hok : h.Ok) {op : BmOp} (hall : op.Allowed h) (hrun : bmStep h op = .ok h') : h'.Ok := by
  cases op with
  | new =>
    obtain ⟨v, hrun⟩ := snd_eq_ok hrun
    obtain ⟨g, hg, hgok, -⟩ := bmNew_spec hok
    rw [hg] at hrun
    obtain ⟨-, rfl⟩ := Prod.mk.inj (Except.ok.inj hrun)
    exact hgok
  | delete b =>
    obtain ⟨m, hm⟩ := hall
    obtain ⟨g, hg, hgok, -⟩ := bmDelete_spec hok hm
    exact ok_of_eq ⟨g, hg, hgok⟩ hrun
  | accessRange b a1 a2 t =>
    obtain ⟨⟨m, hm⟩, ha2⟩ := hall
    exact (accessRange_ok hok hm ha2 hrun).1
  | access1 b a1 t =>
    obtain ⟨⟨m, hm⟩, ha1⟩ := hall
    exact accessAligned_ok hok hm ha1 (by decide) (Nat.mod_one _) hrun
  | access2 b a1 t =>
    obtain ⟨⟨m, hm⟩, ha1⟩ := hall
    exact access2_ok hok hm ha1 hrun
  | access4 b a1 t =>
    obtain ⟨⟨m, hm⟩, ha1⟩ := hall
    exact access4_ok hok hm ha1 hrun
  | access8 b a1 t =>
    obtain ⟨⟨m, hm⟩, ha1⟩ := hall
    exact access8_ok hok hm ha1 hrun
  | clear b a1 a2 =>
    obtain ⟨⟨m, hm⟩, ha2⟩ := hall
    exact clear_ok hok hm ha2 hrun
  | clearLoad b a1 a2 =>
    obtain ⟨⟨m, hm⟩, ha2⟩ := hall
    exact clearRow_ok hok hm ha2 hrun
  | clearStore b a1 a2 =>
    obtain ⟨⟨m, hm⟩, ha2⟩ := hall
    exact clearRow_ok hok hm ha2 hrun
  | testAndClear b a1 a2 =>
    obtain ⟨⟨m, hm⟩, ha2⟩ := hall
    obtain ⟨v, hrun⟩ := snd_eq_ok hrun
    unfold bmTestAndClear at hrun
    obtain ⟨⟨any, g⟩, hany, hrun⟩ := bind_eq_ok.mp hrun
    obtain ⟨g', hclear, hrun⟩ := bind_eq_ok.mp hrun
    obtain ⟨-, rfl⟩ := Prod.mk.inj (pure_eq_ok.mp hrun)
    have hl : Learns h g := bmHasAny_learns hany
    obtain ⟨mg, hmg⟩ := hl.sameMaps.exists_bm hm
    exact clear_ok (hl.ok hok) hmg ha2 hclear
  | merge2 lhs rhs =>
    obtain ⟨⟨ml, hml⟩, mr, hmr⟩ := hall
    obtain ⟨g, hg, hgok, -⟩ := bmMerge2_spec hok hml hmr
    exact ok_of_eq ⟨g, hg, hgok⟩ hrun
  | equal lhs rhs =>
    obtain ⟨v, hrun⟩ := snd_eq_ok hrun
    exact (bmEqual_learns hrun).ok hok
  | swap b c =>
    obtain ⟨⟨m, hm⟩, ⟨m', hm'⟩, hsw⟩ := hall
    obtain ⟨g, hg, -, -, -, hgok⟩ := bmSwap_spec hok hm hm'
    exact ok_of_eq ⟨g, hg, hgok hsw⟩ hrun
  | hasRaces s lhs rhs =>
    obtain ⟨v, hrun⟩ := snd_eq_ok hrun
    exact (bmHasRaces_learns hrun).ok hok
  | query b q =>
    obtain ⟨v, hrun⟩ := snd_eq_ok hrun
    exact (query_learns hrun).ok hok

/-- Every heap that is reached satisfies the invariant. -/
theorem Reach.ok (hreach : Reach h) : h.Ok := by
  induction hreach with
  | empty => exact ok_empty
  | step _ hall hrun ih => exact step_ok ih hall hrun

/-! ## The nodes of a bitmap -/

variable {u : Bitmap2ref} {l : Bitmap2} {k a0 : Nat}

/-- The second-level map of a node. -/
def MapOf (bm2s : Nat → Option Bitmap2) (n : Bitmap2ref) (m : Bitmap2) : Prop := bm2s n.bm2 = some m ∧ m.addr = n.addr

/-- All nodes have maps. -/
def HaveMaps (bm2s : Nat → Option Bitmap2) (l : List Bitmap2ref) : Prop := ∀ n ∈ l, ∃ m, MapOf bm2s n m

theorem BmHeap.Ok.haveMaps {m : Bitmap} (hok : h.Ok) (hm : h.bms b = some m) : HaveMaps h.bm2s m.oset := by
  intro n hn
  have hfind : osetLookup m.oset n.addr = some n := (find_iff (hok.ascending b m hm)).mpr ⟨hn, rfl⟩
  obtain ⟨m2, hm2, haddr, -⟩ := hok.map_of_ref ((ref_eq_some hm).mpr ⟨n, hfind, rfl⟩)
  exact ⟨m2, hm2, haddr⟩

/-- The accesses of a bitmap in the block of a node. -/
theorem has_of_mapOf {m : Bitmap} (hok : h.Ok) (hm : h.bms b = some m) (hu : u ∈ m.oset) (hl : MapOf h.bm2s u l)
    (ha0 : a0 < addr0Count) (x : Row) : h.has b (u.addr * addr0Count + a0) x = bit (l.bm1.bm0 x) a0 := by
  have hfind : osetLookup m.oset u.addr = some u := (find_iff (hok.ascending b m hm)).mpr ⟨hu, rfl⟩
  obtain ⟨m2, hm2, -, hcont⟩ := hok.map_of_ref ((ref_eq_some hm).mpr ⟨u, hfind, rfl⟩)
  obtain rfl := Option.some.inj (hl.1.symm.trans hm2)
  have hdiv : (u.addr * addr0Count + a0) / addr0Count = u.addr := by
    rw [addr0Count_eq] at ha0 ⊢
    omega
  have hmod : (u.addr * addr0Count + a0) % addr0Count = a0 := by
    rw [addr0Count_eq] at ha0 ⊢
    omega
  rw [BmHeap.has, hdiv, hmod, hcont]

/-- The node for a block in which there is an access. -/
theorem exists_node_of_has {m : Bitmap} (hm : h.bms b = some m) {a : Nat} {x : Row} (ha : h.has b a x = true) :
    ∃ u ∈ m.oset, u.addr = a / addr0Count := by
  cases href : h.ref b (a / addr0Count) with
  | none =>
    rw [has_of_none href] at ha
    exact nomatch ha
  | some p =>
    obtain ⟨n, hn, -⟩ := (ref_eq_some hm).mp href
    exact ⟨n, mem_of_find hn, key_of_find hn⟩

theorem words_mul : bitmap1UWordCount * bitsPerUWord = addr0Count := by
  unfold bitmap1UWordCount
  rw [Nat.shiftRight_eq_div_pow, two_pow_bitsPerBits]
  exact Nat.div_mul_cancel bitsPerUWord_dvd

theorem lt_addr0Count (hk : k < bitmap1UWordCount) (hb : b < bitsPerUWord) :
    k * bitsPerUWord + b < addr0Count := by
  have hle := Nat.mul_le_mul_right bitsPerUWord (show k + 1 ≤ bitmap1UWordCount from hk)
  rw [words_mul, Nat.add_mul, Nat.one_mul] at hle
  omega

theorem blockStart_add_lt (hk : k < nBlocks) (ha0 : a0 < addr0Count) : k * addr0Count + a0 < wordMod := by
  have hle := Nat.mul_le_mul_right addr0Count (show k + 1 ≤ nBlocks from hk)
  rw [Nat.mul_comm nBlocks, addr0Count_dvd, Nat.add_mul, Nat.one_mul] at hle
  omega

/-! ## New bitmaps -/

/-- The heap after some calls of `bm_new`. -/
def newBitmaps : Nat → BmHeap
  | 0 => .empty
  | n + 1 => { (newBitmaps n).setBm n ⟨List.replicate nCacheElem ⟨wordMod - 2, none⟩, []⟩ with nextBm := n + 1 }

theorem nextBm_newBitmaps (n : Nat) : (newBitmaps n).nextBm = n := by
  cases n with
  | zero => rfl
  | succ n => rfl

theorem reach_newBitmaps (n : Nat) : Reach (newBitmaps n) := by
  induction n with
  | zero => exact .empty
  | succ n ih =>
    refine .step ih (show BmOp.Allowed _ .new from trivial) ?_
    have hassert : 1 <<< bitsPerBitsPerUWord = bitsPerUWord := by
      rw [Nat.one_shiftLeft, two_pow_bitsPerBits]
    unfold bmStep bmNew
    rw [assertThat_of hassert, ok_bind, nextBm_newBitmaps]
    rfl

theorem live_newBitmaps {n : Nat} (hb : b < n) : (newBitmaps n).Live b := by
  induction n with
  | zero => omega
  | succ n ih =>
    change ∃ m, (BmHeap.setBm (newBitmaps n) n _).bms b = some m
    rw [bms_setBm]
    split
    · exact ⟨_, rfl⟩
    · exact ih (by omega)

end

end Valgrind.Drd
