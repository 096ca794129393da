import Valgrind.Drd.BitmapRanges

/-!
# Queries

All functions that ask a bitmap for accesses look blocks up with `bm2_lookup`, in the cache and
else in the ordered set. They answer according to a set of accesses if the maps that can be found
either way show that set (`ReadOk`). This is weaker than the invariant of the heap: the cache and
the ordered set need not have the same maps, as long as they show the same. `query_spec`
says that the queries answer correctly then, and that they change nothing but caches.
-/

namespace Valgrind.Drd

open BitArray

section

variable [Machine]

open Machine

/-! ## What can be read -/

/-- The map that is found for a block shows the accesses. -/
def Shows (h : BmHeap) (k : Nat) (o : Option Nat) (S : Nat → Row → Bool) : Prop :=
  match o with
  | none => ∀ a x, a / addr0Count = k → S a x = false
  | some p => ∃ m, h.bm2s p = some m ∧ m.addr = k ∧
      ∀ a x, a / addr0Count = k → bit (m.bm1.bm0 x) (a % addr0Count) = S a x

/-- Whatever is found shows the accesses of the bitmap. -/
def ReadOk (h : BmHeap) (S : Nat → Nat → Row → Bool) : Prop :=
  ∀ b m, h.bms b = some m → ∀ k < nBlocks, Shows h k (h.ref b k) (S b) ∧
    ∀ v, bmCacheLookup m.cache k = some v → Shows h k v (S b)

variable {h h' : BmHeap} {b c k a a1 a2 p : Nat} {m : Bitmap} {S : Nat → Nat → Row → Bool}

theorem shows_ref (hok : h.Ok) (b k : Nat) : Shows h k (h.ref b k) (h.has b) := by
  cases href : h.ref b k with
  | none =>
    intro a x hak
    exact has_of_none (by rw [hak]; exact href)
  | some p =>
    obtain ⟨m, hm, hmk, hcont⟩ := hok.map_of_ref href
    exact ⟨m, hm, hmk, fun a x hak => by rw [BmHeap.has, hak, hcont]⟩

/-- Between two operations the bitmaps can be read. -/
theorem BmHeap.Ok.readOk (hok : h.Ok) : ReadOk h h.has := fun b m hm k hk =>
  ⟨shows_ref hok b k, fun v hv => by
    rw [hok.cached b m hm k hk v hv]
    exact shows_ref hok b k⟩

theorem ReadOk.learn (hr : ReadOk h S) (hm : h.bms b = some m) (hk : k < nBlocks) : ReadOk (h.learn b m k) S := by
  intro c m' hm' j hj
  have href : (h.learn b m k).ref = h.ref := (sameMaps_learn hm k).ref_eq
  have hshows : ∀ j v f, Shows (h.learn b m k) j v f ↔ Shows h j v f := fun _ _ _ => Iff.rfl
  rw [href]
  rw [bms_learn] at hm'
  split at hm'
  · rename_i hc
    obtain rfl := Option.some.inj hm'
    rw [hc]
    refine ⟨(hr b m hm j hj).1, fun v hv => ?_⟩
    rcases cacheLookup_update hv with ⟨rfl, rfl⟩ | ⟨-, hv⟩
    · exact (hr b m hm j hk).1
    · exact (hr b m hm j hj).2 v hv
  · exact hr c m' hm' j hj

theorem SameMaps.exists_bm (hs : SameMaps h h') (hm : h.bms b = some m) : ∃ m', h'.bms b = some m' :=
  hs.sameContent.exists_bm hm

/-- What a query does: caches learn, and the bitmaps can be read as before. -/
structure Reads (S : Nat → Nat → Row → Bool) (h h' : BmHeap) : Prop where
  learns : Learns h h'
  readOk : ReadOk h' S

theorem Reads.refl (hr : ReadOk h S) : Reads S h h := ⟨.refl, hr⟩

theorem Reads.trans {h'' : BmHeap} (hr : Reads S h h') (hr' : Reads S h' h'') : Reads S h h'' :=
  ⟨hr.learns.trans hr'.learns, hr'.readOk⟩

/-- `bm2_lookup` finds a map that shows the accesses. -/
theorem bm2Lookup_spec (hr : ReadOk h S) (hm : h.bms b = some m) (hk : k < nBlocks) :
    ∃ o h', bm2Lookup h b k = .ok (o, h') ∧ Reads S h h' ∧ Shows h' k o (S b) := by
  unfold bm2Lookup
  rw [bm_eq hm, ok_bind]
  cases hc : bmCacheLookup m.cache k with
  | some v => exact ⟨v, h, rfl, .refl hr, (hr b m hm k hk).2 v hc⟩
  | none =>
    have hv : h.ref b k = (osetLookup m.oset k).map fun n => n.bm2 := ref_of_bms hm
    refine ⟨h.ref b k, h.learn b m k, ?_, ⟨.learn .refl hm, hr.learn hm hk⟩, (hr b m hm k hk).1⟩
    rw [BmHeap.learn, hv]
    rfl

/-! ## Single addresses -/

theorem bmHas1_spec (hr : ReadOk h S) (hm : h.bms b = some m) (ha : a < wordMod) (t : BmAccessType) :
    ∃ h', bmHas1 h b a t = .ok (S b a t.row, h') ∧ Reads S h h' := by
  obtain ⟨o, h', hrun, hreads, hshows⟩ := bm2Lookup_spec hr hm (div_lt_nBlocks ha)
  refine ⟨h', ?_, hreads⟩
  unfold bmHas1
  rw [hrun, ok_bind]
  cases o with
  | none =>
    rw [hshows a t.row rfl]
    rfl
  | some p =>
    obtain ⟨m2, hm2, -, hbits⟩ := hshows
    dsimp only
    rw [bm2_eq hm2, ok_bind, bm0IsSet_ne_zero, hbits a t.row rfl]
    rfl

theorem bmHasLoop_spec (hr : ReadOk h S) (hm : h.bms b = some m) {n : Nat} (ha : a + n ≤ wordMod) (t : BmAccessType) :
    ∃ v h', bmHasLoop b t n h a = .ok (v, h') ∧ Reads S h h' ∧
      (v = true ↔ ∀ a', a ≤ a' → a' < a + n → S b a' t.row = true) := by
  induction n generalizing h a m with
  | zero => exact ⟨true, h, rfl, .refl hr, fun _ a' h₁ h₂ => absurd h₂ (by omega), fun _ => rfl⟩
  | succ n ih =>
    obtain ⟨g, hrun, hreads⟩ := bmHas1_spec hr hm (a := a) (by omega) t
    unfold bmHasLoop
    rw [hrun, ok_bind]
    dsimp only
    by_cases hs : S b a t.row = true
    · obtain ⟨mg, hmg⟩ := hreads.learns.sameMaps.exists_bm hm
      obtain ⟨v, h', hrest, hreads', hv⟩ := ih (a := a + 1) hreads.readOk hmg (by omega)
      rw [if_pos hs]
      refine ⟨v, h', hrest, hreads.trans hreads', hv.trans ⟨fun hall a' h₁ h₂ => ?_, fun hall a' h₁ h₂ => ?_⟩⟩
      · by_cases hea : a' = a
        · rw [hea]
          exact hs
        · exact hall a' (by omega) (by omega)
      · exact hall a' (by omega) (by omega)
    · rw [if_neg hs]
      exact ⟨false, g, rfl, hreads, fun h => (nomatch h), fun hall => absurd (hall a (Nat.le_refl _) (by omega)) hs⟩

/-! ## Ranges -/

omit [Machine] in
theorem anyM_ok {α : Type} {test : α → Result Bool} {q : α → Bool} (htest : ∀ x, test x = .ok (q x)) (l : List α) :
    l.anyM test = .ok (l.any q) := by
  obtain rfl : test = fun x => pure (q x) := funext htest
  exact List.anyM_pure

/-- The addresses of a block, from their lower parts. -/
theorem exists_of_mem_addr0Range (hc : c < a2) (ha2 : a2 + addr0Count ≤ wordMod) {a0 : Nat}
    (ha0 : a0 ∈ addr0Range c (bNext a2 c)) :
    ∃ a, c ≤ a ∧ a < bNext a2 c ∧ a / addr0Count = c / addr0Count ∧ a % addr0Count = a0 := by
  have hlt : a0 < addr0Count := by
    unfold addr0Range at ha0
    rw [List.mem_range'_1] at ha0
    have := Nat.mod_lt (bNext a2 c - 1) (show 0 < addr0Count by decide)
    omega
  have hdiv : (c / addr0Count * addr0Count + a0) / addr0Count = c / addr0Count := by
    rw [addr0Count_eq] at hlt ⊢
    omega
  have hmod : (c / addr0Count * addr0Count + a0) % addr0Count = a0 := by
    rw [addr0Count_eq] at hlt ⊢
    omega
  obtain ⟨h₁, h₂⟩ := (mem_addr0Range hc ha2).mpr ⟨hdiv, hmod.symm ▸ ha0⟩
  exact ⟨_, h₁, h₂, hdiv, hmod⟩

/-- What the tests look for, in the two rows. -/
def hit (S : Nat → Row → Bool) (q : Bool → Bool → Bool) (a : Nat) : Bool := q (S a .r) (S a .w)

omit [Machine] in
theorem hit_or_iff {f : Nat → Row → Bool} {a : Nat} : hit f (· || ·) a = true ↔ ∃ x, f a x = true := by
  unfold hit
  rw [Bool.or_eq_true]
  constructor
  · rintro (hr | hw)
    · exact ⟨.r, hr⟩
    · exact ⟨.w, hw⟩
  · rintro ⟨x, hx⟩
    cases x with
    | r => exact .inl hx
    | w => exact .inr hx

section Any

variable {test : Bitmap1 → Nat → Result Bool} {q : Bool → Bool → Bool}

/-- One turn finds an access iff there is one in the block. -/
theorem hasAnyInBlock_spec (hq : q false false = false)
    (htest : ∀ p1 a0, test p1 a0 = .ok (q (bit (p1.bm0 .r) a0) (bit (p1.bm0 .w) a0))) (hr : ReadOk h S)
    (hm : h.bms b = some m) (hat : AtBlock a1 c) (hc : c < a2) (ha2 : a2 + addr0Count ≤ wordMod) :
    ∃ v h', hasAnyInBlock test b a1 a2 h c = .ok (v, h') ∧ Reads S h h' ∧
      ((v = none ∧ ∀ a, c ≤ a → a < bNext a2 c → hit (S b) q a = false) ∨
        (v = some true ∧ ∃ a, c ≤ a ∧ a < bNext a2 c ∧ hit (S b) q a = true)) := by
  obtain ⟨o, h', hrun, hreads, hshows⟩ := bm2Lookup_spec hr hm (div_lt_nBlocks (a := c) (by omega))
  unfold hasAnyInBlock
  rw [hrun, ok_bind]
  cases o with
  | none =>
    refine ⟨none, h', rfl, hreads, .inl ⟨rfl, fun a hca halt => ?_⟩⟩
    have hak := ((mem_addr0Range hc ha2).mp ⟨hca, halt⟩).1
    rw [hit, hshows a .r hak, hshows a .w hak, hq]
  | some p =>
    obtain ⟨m2, hm2, hmk, hbits⟩ := hshows
    have hhit : ∀ {a}, a / addr0Count = c / addr0Count → hit (S b) q a =
        q (bit (m2.bm1.bm0 .r) (a % addr0Count)) (bit (m2.bm1.bm0 .w) (a % addr0Count)) := by
      intro a hak
      rw [hit, hbits a .r hak, hbits a .w hak]
    dsimp only
    rw [bm2_eq hm2, ok_bind, hmk, clipToBlock_eq hat hc ha2, ok_bind]
    dsimp only
    rw [anyM_ok (htest m2.bm1), ok_bind]
    by_cases hfound : (addr0Range c (bNext a2 c)).any fun a0 => q (bit (m2.bm1.bm0 .r) a0) (bit (m2.bm1.bm0 .w) a0)
    · rw [if_pos hfound]
      obtain ⟨a0, ha0, hqa⟩ := List.any_eq_true.mp hfound
      obtain ⟨a, h₁, h₂, hak, rfl⟩ := exists_of_mem_addr0Range hc ha2 ha0
      exact ⟨some true, h', rfl, hreads, .inr ⟨rfl, a, h₁, h₂, (hhit hak).trans hqa⟩⟩
    · rw [if_neg hfound]
      refine ⟨none, h', rfl, hreads, .inl ⟨rfl, fun a hca halt => ?_⟩⟩
      obtain ⟨hak, hmem⟩ := (mem_addr0Range hc ha2).mp ⟨hca, halt⟩
      rw [hhit hak, Bool.eq_false_iff]
      exact fun h => hfound (List.any_eq_true.mpr ⟨_, hmem, h⟩)

/-- The functions that look for an access in a range find one iff there is one. -/
theorem bmHasAny_spec (hq : q false false = false)
    (htest : ∀ p1 a0, test p1 a0 = .ok (q (bit (p1.bm0 .r) a0) (bit (p1.bm0 .w) a0))) (hr : ReadOk h S)
    (hm : h.bms b = some m) (ha2 : a2 + addr0Count ≤ wordMod) :
    ∃ v h', bmHasAny test h b a1 a2 = .ok (v, h') ∧ Reads S h h' ∧
      (v = true ↔ ∃ a, a1 ≤ a ∧ a < a2 ∧ hit (S b) q a = true) := by
  by_cases hle : a1 ≤ a2
  · obtain ⟨r, h', hrun, hres⟩ := forBlocks_rule (h := h) (c := a1)
      (fun h c _ => hasAnyInBlock test b a1 a2 h c)
      (fun h' c => Reads S h h' ∧ ∀ a, a1 ≤ a → a < c → hit (S b) q a = false)
      (fun v h' => v = true ∧ Reads S h h' ∧ ∃ a, a1 ≤ a ∧ a < a2 ∧ hit (S b) q a = true) ha2
      (by
        rintro g c hat hc ⟨hg, hbefore⟩
        obtain ⟨mg, hmg⟩ := hg.learns.sameMaps.exists_bm hm
        obtain ⟨v, g', hrun, hg', hv⟩ := hasAnyInBlock_spec hq htest hg.readOk hmg hat hc ha2
        refine ⟨v, g', hrun, ?_⟩
        rcases hv with ⟨rfl, hblock⟩ | ⟨rfl, a, h₁, h₂, h₃⟩
        · refine ⟨hg.trans hg', fun a ha1 halt => ?_⟩
          by_cases hac : a < c
          · exact hbefore a ha1 hac
          · exact hblock a (Nat.not_lt.mp hac) halt
        · have hend := (bNext_spec hc ha2).2.1
          have hstart := hat.le
          exact ⟨rfl, hg.trans hg', a, by omega, by omega, h₃⟩)
      (Nat.lt_succ_self (a2 - a1)) (.inl (.inl rfl)) hle ⟨.refl hr, fun a h₁ h₂ => by omega⟩
    unfold bmHasAny
    rw [hrun, ok_bind]
    cases r with
    | none =>
      obtain ⟨hreads, hnone⟩ := hres
      refine ⟨false, h', rfl, hreads, fun h => (nomatch h), fun ⟨a, h₁, h₂, h₃⟩ => ?_⟩
      rw [hnone a h₁ h₂] at h₃
      exact nomatch h₃
    | some v =>
      obtain ⟨rfl, hreads, hex⟩ := hres
      exact ⟨true, h', rfl, hreads, fun _ => hex, fun _ => rfl⟩
  · refine ⟨false, h, ?_, .refl hr, fun h => (nomatch h), fun ⟨a, h₁, h₂, _⟩ => by omega⟩
    unfold bmHasAny forBlocks
    rw [if_neg (by omega)]
    rfl

theorem test_access (p1 : Bitmap1) (a0 : Nat) :
    (pure (bm0IsSet (p1.bm0 .r) a0 ||| bm0IsSet (p1.bm0 .w) a0 != 0) : Result Bool) =
      .ok (bit (p1.bm0 .r) a0 || bit (p1.bm0 .w) a0) := by
  rw [or_ne_zero, bm0IsSet_ne_zero, bm0IsSet_ne_zero]
  rfl

theorem bmHasAnyAccess_spec (a1 : Nat) (hr : ReadOk h S) (hm : h.bms b = some m) (ha2 : a2 + addr0Count ≤ wordMod) :
    ∃ v h', bmHasAnyAccess h b a1 a2 = .ok (v, h') ∧ Reads S h h' ∧
      (v = true ↔ ∃ a, a1 ≤ a ∧ a < a2 ∧ hit (S b) (· || ·) a = true) :=
  bmHasAny_spec rfl test_access hr hm ha2

end Any

/-- The functions that look for a conflict with an aligned access. -/
theorem bmAlignedHasConflictWith_spec {test : Bitmap1 → Nat → Nat → UWord} {q : Bool → Bool → Bool}
    (hq : q false false = false) {size : Nat} (hsize : size ∈ [1, 2, 4, 8]) (ha1 : a1 < wordMod) (hdvd : a1 % size = 0)
    (htest : ∀ p1 a0, a0 % bitsPerUWord + size ≤ bitsPerUWord → ((test p1 a0 size != 0) = true ↔
      ∃ c, a0 ≤ c ∧ c < a0 + size ∧ q (bit (p1.bm0 .r) c) (bit (p1.bm0 .w) c) = true))
    (hr : ReadOk h S) (hm : h.bms b = some m) :
    ∃ v h', bmAlignedHasConflictWith test h b a1 size = .ok (v, h') ∧ Reads S h h' ∧
      (v = true ↔ ∃ a, a1 ≤ a ∧ a < a1 + size ∧ hit (S b) q a = true) := by
  obtain ⟨-, hword, hfit⟩ := aligned_fits hsize hdvd
  obtain ⟨o, h', hrun, hreads, hshows⟩ := bm2Lookup_spec hr hm (div_lt_nBlocks ha1)
  unfold bmAlignedHasConflictWith
  rw [hrun, ok_bind]
  cases o with
  | none =>
    refine ⟨false, h', rfl, hreads, fun h => (nomatch h), fun ⟨a, h₁, h₂, h₃⟩ => ?_⟩
    have hak := ((mem_aligned hfit).mp ⟨h₁, h₂⟩).1
    rw [hit, hshows a .r hak, hshows a .w hak, hq] at h₃
    exact nomatch h₃
  | some p =>
    obtain ⟨m2, hm2, -, hbits⟩ := hshows
    refine ⟨_, h', by dsimp only; rw [bm2_eq hm2, ok_bind]; rfl, hreads, (htest _ _ hword).trans ⟨?_, ?_⟩⟩
    · rintro ⟨a0, h₁, h₂, h₃⟩
      have hdiv : (a1 / addr0Count * addr0Count + a0) / addr0Count = a1 / addr0Count := by
        rw [addr0Count_eq] at h₂ hfit ⊢
        omega
      have hmod : (a1 / addr0Count * addr0Count + a0) % addr0Count = a0 := by
        rw [addr0Count_eq] at h₂ hfit ⊢
        omega
      obtain ⟨h₄, h₅⟩ := (mem_aligned hfit).mpr ⟨hdiv, by rw [hmod]; exact ⟨h₁, h₂⟩⟩
      refine ⟨_, h₄, h₅, ?_⟩
      rw [hit, ← hbits _ .r hdiv, ← hbits _ .w hdiv, hmod]
      exact h₃
    · rintro ⟨a, h₁, h₂, h₃⟩
      obtain ⟨hak, h₄, h₅⟩ := (mem_aligned hfit).mp ⟨h₁, h₂⟩
      refine ⟨a % addr0Count, h₄, h₅, ?_⟩
      rw [hit, ← hbits a .r hak, ← hbits a .w hak] at h₃
      exact h₃

/-! ## All queries -/

/-- A call of one of the functions that ask a bitmap for accesses. -/
inductive BmQuery where
  | has1 (a : Nat) (t : BmAccessType)
  | has (a1 a2 : Nat) (t : BmAccessType)
  | hasAnyLoad (a1 a2 : Nat)
  | hasAnyStore (a1 a2 : Nat)
  | hasAnyAccess (a1 a2 : Nat)
  | hasConflictWith (a1 a2 : Nat) (t : BmAccessType)
  /-- `bm_load_N_has_conflict_with`. -/
  | loadNHasConflictWith (n a1 : Nat)
  /-- `bm_store_N_has_conflict_with`. -/
  | storeNHasConflictWith (n a1 : Nat)
  deriving DecidableEq, Repr

namespace BmQuery

/-- Make the call. -/
def run (h : BmHeap) (b : Nat) : BmQuery → Result (Bool × BmHeap)
  | has1 a t => bmHas1 h b a t
  | has a1 a2 t => bmHas h b a1 a2 t
  | hasAnyLoad a1 a2 => bmHasAnyLoad h b a1 a2
  | hasAnyStore a1 a2 => bmHasAnyStore h b a1 a2
  | hasAnyAccess a1 a2 => bmHasAnyAccess h b a1 a2
  | hasConflictWith a1 a2 t => bmHasConflictWith h b a1 a2 t
  | loadNHasConflictWith n a1 => bmLoadNHasConflictWith n h b a1
  | storeNHasConflictWith n a1 => bmStoreNHasConflictWith n h b a1

/-- The addresses are words, ranges are below the `ADDR0_COUNT` highest addresses, and the functions for
`N` bytes exist. -/
def Valid : BmQuery → Prop
  | has1 a _ => a < wordMod
  | has _ a2 _ => a2 ≤ wordMod
  | hasAnyLoad _ a2 => a2 + addr0Count ≤ wordMod
  | hasAnyStore _ a2 => a2 + addr0Count ≤ wordMod
  | hasAnyAccess _ a2 => a2 + addr0Count ≤ wordMod
  | hasConflictWith _ a2 t => a2 + addr0Count ≤ wordMod ∧ (t = .eLoad ∨ t = .eStore)
  | loadNHasConflictWith n a1 => n ∈ [1, 2, 4, 8] ∧ a1 + n + addr0Count ≤ wordMod
  | storeNHasConflictWith n a1 => n ∈ [1, 2, 4, 8] ∧ a1 + n + addr0Count ≤ wordMod

/-- An access in the range conflicts with one of the type: a store conflicts with all accesses, a load
with stores. -/
def Conflict (S : Nat → Row → Bool) (a1 a2 : Nat) (t : BmAccessType) : Prop :=
  ∃ a, a1 ≤ a ∧ a < a2 ∧ (S a .w = true ∨ (t = .eStore ∧ S a .r = true))

/-- The answer is yes, for the set of accesses. -/
def Holds (S : Nat → Row → Bool) : BmQuery → Prop
  | has1 a t => S a t.row = true
  | has a1 a2 t => ∀ a, a1 ≤ a → a < a2 → S a t.row = true
  | hasAnyLoad a1 a2 => ∃ a, a1 ≤ a ∧ a < a2 ∧ S a .r = true
  | hasAnyStore a1 a2 => ∃ a, a1 ≤ a ∧ a < a2 ∧ S a .w = true
  | hasAnyAccess a1 a2 => ∃ a, a1 ≤ a ∧ a < a2 ∧ (S a .r = true ∨ S a .w = true)
  | hasConflictWith a1 a2 t => Conflict S a1 a2 t
  | loadNHasConflictWith n a1 => Conflict S a1 (a1 + n) .eLoad
  | storeNHasConflictWith n a1 => Conflict S a1 (a1 + n) .eStore

end BmQuery

omit [Machine] in
theorem conflict_load_iff {f : Nat → Row → Bool} :
    BmQuery.Conflict f a1 a2 .eLoad ↔ ∃ a, a1 ≤ a ∧ a < a2 ∧ hit f (fun _ w => w) a = true := by
  simp [BmQuery.Conflict, hit]

omit [Machine] in
theorem conflict_store_iff {f : Nat → Row → Bool} :
    BmQuery.Conflict f a1 a2 .eStore ↔ ∃ a, a1 ≤ a ∧ a < a2 ∧ hit f (· || ·) a = true := by
  simp only [BmQuery.Conflict, hit, Bool.or_eq_true, true_and]
  refine exists_congr fun a => ?_
  grind

theorem bmHasConflictWith_spec (hr : ReadOk h S) (hm : h.bms b = some m) (ha2 : a2 + addr0Count ≤ wordMod)
    {t : BmAccessType} (ht : t = .eLoad ∨ t = .eStore) :
    ∃ v h', bmHasConflictWith h b a1 a2 t = .ok (v, h') ∧ Reads S h h' ∧
      (v = true ↔ BmQuery.Conflict (S b) a1 a2 t) := by
  rcases ht with rfl | rfl
  · rw [conflict_load_iff]
    refine bmHasAny_spec rfl (fun p1 a0 => ?_) hr hm ha2
    rw [if_pos rfl, bm0IsSet_ne_zero]
    rfl
  · rw [conflict_store_iff]
    refine bmHasAny_spec rfl (fun p1 a0 => ?_) hr hm ha2
    rw [if_neg (by decide), assertThat_of rfl, ok_bind]
    exact test_access p1 a0

theorem bmLoadNHasConflictWith_spec (hr : ReadOk h S) (hm : h.bms b = some m) {n : Nat} (hn : n ∈ [1, 2, 4, 8])
    (ha1 : a1 + n + addr0Count ≤ wordMod) :
    ∃ v h', bmLoadNHasConflictWith n h b a1 = .ok (v, h') ∧ Reads S h h' ∧
      (v = true ↔ BmQuery.Conflict (S b) a1 (a1 + n) .eLoad) := by
  have hpos : 0 < addr0Count := by decide
  unfold bmLoadNHasConflictWith
  split
  · rename_i hdvd
    rw [conflict_load_iff]
    refine bmAlignedHasConflictWith_spec rfl hn (by omega) hdvd (fun p1 a0 hword => ?_) hr hm
    exact bm0IsAnySet_ne_zero (aligned_fits hn hdvd).1 hword
  · rw [addW_of_lt (by omega)]
    exact bmHasConflictWith_spec hr hm ha1 (.inl rfl)

theorem bmStoreNHasConflictWith_spec (hr : ReadOk h S) (hm : h.bms b = some m) {n : Nat} (hn : n ∈ [1, 2, 4, 8])
    (ha1 : a1 + n + addr0Count ≤ wordMod) :
    ∃ v h', bmStoreNHasConflictWith n h b a1 = .ok (v, h') ∧ Reads S h h' ∧
      (v = true ↔ BmQuery.Conflict (S b) a1 (a1 + n) .eStore) := by
  have hpos : 0 < addr0Count := by decide
  unfold bmStoreNHasConflictWith
  split
  · rename_i hdvd
    rw [conflict_store_iff]
    refine bmAlignedHasConflictWith_spec rfl hn (by omega) hdvd (fun p1 a0 hword => ?_) hr hm
    have hlt := (aligned_fits hn hdvd).1
    simp only [or_ne_zero, Bool.or_eq_true, bm0IsAnySet_ne_zero hlt hword, and_or_left, exists_or]
  · rw [addW_of_lt (by omega)]
    exact bmHasConflictWith_spec hr hm ha1 (.inr rfl)

/-- **Every query** answers according to the accesses that can be read, and changes nothing but caches. -/
theorem query_spec (hr : ReadOk h S) (hm : h.bms b = some m) {q : BmQuery} (hq : q.Valid) :
    ∃ v h', q.run h b = .ok (v, h') ∧ Reads S h h' ∧ (v = true ↔ q.Holds (S b)) := by
  cases q with
  | has1 a t =>
    obtain ⟨h', hrun, hreads⟩ := bmHas1_spec hr hm hq t
    exact ⟨_, h', hrun, hreads, Iff.rfl⟩
  | has a1 a2 t =>
    have ha2 : a2 ≤ wordMod := hq
    by_cases hle : a1 ≤ a2
    · obtain ⟨v, h', hrun, hreads, hv⟩ := bmHasLoop_spec hr hm (a := a1) (n := a2 - a1) (by omega) t
      rw [Nat.add_sub_cancel' hle] at hv
      exact ⟨v, h', hrun, hreads, hv⟩
    · refine ⟨true, h, ?_, .refl hr, fun _ a h₁ h₂ => absurd h₂ (by omega), fun _ => rfl⟩
      change bmHasLoop b t (a2 - a1) h a1 = _
      rw [Nat.sub_eq_zero_of_le (by omega)]
      rfl
  | hasAnyLoad a1 a2 =>
    refine bmHasAny_spec (q := fun r _ => r) rfl (fun p1 a0 => ?_) hr hm hq
    rw [bm0IsSet_ne_zero]
    rfl
  | hasAnyStore a1 a2 =>
    refine bmHasAny_spec (q := fun _ w => w) rfl (fun p1 a0 => ?_) hr hm hq
    rw [bm0IsSet_ne_zero]
    rfl
  | hasAnyAccess a1 a2 =>
    obtain ⟨v, h', hrun, hreads, hv⟩ := bmHasAnyAccess_spec a1 hr hm hq
    refine ⟨v, h', hrun, hreads, hv.trans ?_⟩
    simp only [hit, Bool.or_eq_true]
    exact Iff.rfl
  | hasConflictWith a1 a2 t => exact bmHasConflictWith_spec hr hm hq.1 hq.2
  | loadNHasConflictWith n a1 => exact bmLoadNHasConflictWith_spec hr hm hq.1 hq.2
  | storeNHasConflictWith n a1 => exact bmStoreNHasConflictWith_spec hr hm hq.1 hq.2

end

end Valgrind.Drd
