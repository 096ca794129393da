import Valgrind.Drd.BitmapRuns
import Valgrind.Lib.MergeJoin

/-!
# Races between two bitmaps

`bm_has_races` joins the ordered sets of two bitmaps. It does not test whether an iterator has
come to its end before it reads a field of the node, so that it returns only if it finds a race
first: for bitmaps without a race it reads through a null pointer (`bmHasRaces_iff`). A bitmap
that is compared with itself has only one iterator, which never returns the same node twice.
-/

namespace Valgrind.Drd

open BitArray KeyedList MergeJoin

section

variable [Machine]

open Machine

/-- One of the bitmaps has recorded a store to the address, and the other one an access. -/
def Races (h : BmHeap) (lhs rhs a : Nat) : Prop :=
  (h.has lhs a .w = true ∧ (h.has rhs a .r = true ∨ h.has rhs a .w = true)) ∨
    (h.has rhs a .w = true ∧ (h.has lhs a .r = true ∨ h.has lhs a .w = true))

/-- `bm_has_races` returns, and says whether there is a race at an address that is not suppressed. -/
def RacesExact (h : BmHeap) (sSuppressed lhs rhs : Nat) : Prop :=
  ∃ res h', bmHasRaces h sSuppressed lhs rhs = .ok (res, h') ∧
    (res ≠ 0 ↔ ∃ a < wordMod, Races h lhs rhs a ∧ h.has sSuppressed a .w = false)

variable {h h' : BmHeap} {s lhs rhs b k a0 : Nat} {ms : Bitmap} {l r : Bitmap2} {u v : Bitmap2ref}
  {S : Nat → Nat → Row → Bool} {i : Iterators} {xs ys : List Bitmap2ref}

/-! ## One address -/

/-- There is a race at an address of a block. -/
def RaceBits (l r : Bitmap1) (a0 : Nat) : Prop :=
  (bit (l.bm0 .w) a0 = true ∧ (bit (r.bm0 .r) a0 = true ∨ bit (r.bm0 .w) a0 = true)) ∨
    (bit (r.bm0 .w) a0 = true ∧ (bit (l.bm0 .r) a0 = true ∨ bit (l.bm0 .w) a0 = true))

/-- What `drd_is_suppressed(a, a + 1)` denies. The range is empty if `a` is the highest address. -/
def Unsuppressed (S : Nat → Row → Bool) (a : Nat) : Prop := a + 1 < wordMod ∧ S a .w = false

theorem bm0Mask_ne_zero {bm0 : Bm0} (hb : b < bitsPerUWord) :
    bm0 k &&& bm0Mask b ≠ 0 ↔ bit bm0 (k * bitsPerUWord + b) = true := by
  have hpos := bitsPerUWord_pos
  have hdiv : (k * bitsPerUWord + b) / bitsPerUWord = k := by
    rw [Nat.mul_comm, Nat.mul_add_div hpos, Nat.div_eq_of_lt hb, Nat.add_zero]
  have hmod : uwordLsb (k * bitsPerUWord + b) = uwordLsb b := by
    unfold uwordLsb
    rw [Nat.mul_comm, Nat.mul_add_mod]
  rw [← bm0IsSet_ne_zero, bne_iff_ne, bm0IsSet, uwordIx_eq, hdiv, hmod]
  rfl

omit [Machine] in
theorem hasRace_iff {lr lw rr rw : Bool} :
    hasRace ((if lr = true then lhsR else 0) ||| (if lw = true then lhsW else 0) |||
      (if rr = true then rhsR else 0) ||| (if rw = true then rhsW else 0)) ↔
        (lw = true ∧ (rr = true ∨ rw = true)) ∨ (rw = true ∧ (lr = true ∨ lw = true)) := by
  cases lr <;> cases lw <;> cases rr <;> cases rw <;> decide

theorem hasRace_accessMask {l r : Bitmap1} (hb : b < bitsPerUWord) :
    hasRace (accessMask l r k b) ↔ RaceBits l r (k * bitsPerUWord + b) := by
  unfold accessMask
  simp only [bm0Mask_ne_zero hb]
  exact hasRace_iff

theorem makeAddress_eq {a1 : Nat} (ha1 : a1 < nBlocks) (hk : k < bitmap1UWordCount) (hb : b < bitsPerUWord) :
    makeAddress a1 (k * bitsPerUWord ||| b) = a1 * addr0Count + (k * bitsPerUWord + b) := by
  have hlt := lt_addr0Count hk hb
  have hor : k * bitsPerUWord ||| b = k * bitsPerUWord + b := by
    rw [← two_pow_bitsPerBits] at hb ⊢
    rw [Nat.mul_comm, Nat.two_pow_add_eq_or_of_lt hb]
  have hor' : a1 * addr0Count ||| (k * bitsPerUWord + b) = a1 * addr0Count + (k * bitsPerUWord + b) := by
    have hcount : addr0Count = 2 ^ addr0Bits := rfl
    rw [hcount] at hlt ⊢
    rw [Nat.mul_comm a1, Nat.two_pow_add_eq_or_of_lt hlt]
  unfold makeAddress
  rw [hor, Nat.mod_eq_of_lt (by have := blockStart_add_lt ha1 hlt; omega), hor']

/-- The test at one address. -/
theorem raceAt_spec (hr : ReadOk h S) (hs : h.bms s = some ms) (haddr : l.addr < nBlocks)
    (hk : k < bitmap1UWordCount) (hb : b < bitsPerUWord) :
    ∃ res h', raceAt s l r h k b = .ok (res, h') ∧ Reads S h h' ∧
      (res = true ↔ RaceBits l.bm1 r.bm1 (k * bitsPerUWord + b) ∧
        Unsuppressed (S s) (l.addr * addr0Count + (k * bitsPerUWord + b))) := by
  have hlt := blockStart_add_lt haddr (lt_addr0Count hk hb)
  unfold raceAt
  rw [makeAddress_eq haddr hk hb]
  generalize l.addr * addr0Count + (k * bitsPerUWord + b) = a at hlt ⊢
  dsimp only
  by_cases hrace : hasRace (accessMask l.bm1 r.bm1 k b)
  · rw [if_pos hrace]
    have hbits := (hasRace_accessMask hb).mp hrace
    unfold drdIsSuppressed bmHas
    by_cases htop : a + 1 < wordMod
    · obtain ⟨sup, h', hrun, hreads, hsup⟩ := bmHasLoop_spec hr hs (a := a) (n := 1) htop.le .eStore
      rw [addW_of_lt htop, Nat.add_sub_cancel_left, hrun]
      refine ⟨!sup, h', rfl, hreads, ?_⟩
      have hsup' : sup = true ↔ S s a .w = true :=
        hsup.trans ⟨fun hall => hall a (Nat.le_refl _) (by omega), fun ha a' h₁ h₂ => by
          obtain rfl : a' = a := by omega
          exact ha⟩
      rw [Bool.not_eq_true', ← Bool.not_eq_true, hsup', Bool.not_eq_true]
      exact ⟨fun hw => ⟨hbits, htop, hw⟩, fun hw => hw.2.2⟩
    · have hwrap : addW a 1 = 0 := by
        rw [addW, show a + 1 = wordMod by omega, Nat.mod_self]
      rw [hwrap, Nat.zero_sub]
      exact ⟨false, h, rfl, .refl hr, fun hf => (nomatch hf), fun hw => absurd hw.2.1 htop⟩
  · rw [if_neg hrace]
    exact ⟨false, h, rfl, .refl hr, fun hf => (nomatch hf), fun hw => absurd ((hasRace_accessMask hb).mpr hw.1) hrace⟩

/-! ## One block -/

theorem raceInBlock_spec {kbs : List (Nat × Nat)} (hr : ReadOk h S) (hs : h.bms s = some ms) (haddr : l.addr < nBlocks)
    (hkbs : ∀ kb ∈ kbs, kb.1 < bitmap1UWordCount ∧ kb.2 < bitsPerUWord) :
    ∃ res h', raceInBlock s l r kbs h = .ok (res, h') ∧ Reads S h h' ∧
      (res = true ↔ ∃ kb ∈ kbs, RaceBits l.bm1 r.bm1 (kb.1 * bitsPerUWord + kb.2) ∧
        Unsuppressed (S s) (l.addr * addr0Count + (kb.1 * bitsPerUWord + kb.2))) := by
  induction kbs generalizing h ms with
  | nil =>
    refine ⟨false, h, rfl, .refl hr, fun hf => (by cases hf), ?_⟩
    rintro ⟨kb, hkb, -⟩
    cases hkb
  | cons kb kbs ih =>
    obtain ⟨hk, hb⟩ := hkbs kb List.mem_cons_self
    obtain ⟨race, g, hrun, hreads, hrace⟩ := raceAt_spec (r := r) hr hs haddr hk hb
    unfold raceInBlock
    dsimp only
    rw [hrun, ok_bind]
    dsimp only
    cases race with
    | true =>
      rw [if_pos rfl]
      exact ⟨true, g, rfl, hreads, fun _ => ⟨kb, List.mem_cons_self, hrace.mp rfl⟩, fun _ => rfl⟩
    | false =>
      rw [if_neg Bool.false_ne_true]
      obtain ⟨mg, hmg⟩ := hreads.learns.sameMaps.exists_bm hs
      obtain ⟨res, h', hrest, hreads', hres⟩ := ih hreads.readOk hmg fun kb' hkb' => hkbs kb' (List.mem_cons_of_mem _ hkb')
      refine ⟨res, h', hrest, hreads.trans hreads', hres.trans ?_⟩
      constructor
      · rintro ⟨kb', hkb', hw⟩
        exact ⟨kb', List.mem_cons_of_mem _ hkb', hw⟩
      · rintro ⟨kb', hkb', hw⟩
        rcases List.mem_cons.mp hkb' with rfl | hkb'
        · exact absurd (hrace.mpr hw) Bool.false_ne_true
        · exact ⟨kb', hkb', hw⟩

theorem mem_wordsAndBits {kb : Nat × Nat} : kb ∈ wordsAndBits ↔ kb.1 < bitmap1UWordCount ∧ kb.2 < bitsPerUWord := by
  obtain ⟨k, b⟩ := kb
  simp [wordsAndBits]

/-- The test of a block finds a race iff there is one at an address of the block. -/
theorem raceInBlock_iff (hr : ReadOk h S) (hs : h.bms s = some ms) (haddr : l.addr < nBlocks) :
    ∃ res h', raceInBlock s l r wordsAndBits h = .ok (res, h') ∧ Reads S h h' ∧
      (res = true ↔ ∃ a0 < addr0Count, RaceBits l.bm1 r.bm1 a0 ∧ Unsuppressed (S s) (l.addr * addr0Count + a0)) := by
  obtain ⟨res, h', hrun, hreads, hres⟩ := raceInBlock_spec (r := r) hr hs haddr fun kb hkb => mem_wordsAndBits.mp hkb
  refine ⟨res, h', hrun, hreads, hres.trans ⟨fun ⟨kb, hkb, hw⟩ => ?_, fun ⟨a0, ha0, hw⟩ => ?_⟩⟩
  · obtain ⟨hk, hb⟩ := mem_wordsAndBits.mp hkb
    exact ⟨_, lt_addr0Count hk hb, hw⟩
  · refine ⟨(a0 / bitsPerUWord, a0 % bitsPerUWord), mem_wordsAndBits.mpr ⟨lt_wordCount ha0, Nat.mod_lt _ bitsPerUWord_pos⟩, ?_⟩
    dsimp only
    rw [Nat.div_add_mod']
    exact hw

/-! ## The join -/

theorem nextBm2_nil (hit : i b = []) : nextBm2 h i b = .error .fault := by
  unfold nextBm2
  rw [hit]
  rfl

theorem nextBm2_cons {m : Bitmap2} (hit : i b = u :: xs) (hm : MapOf h.bm2s u m) :
    nextBm2 h i b = .ok (m, Function.update i b xs) := by
  unfold nextBm2
  rw [hit]
  dsimp only
  rw [bm2_eq hm.1]
  rfl

/-- The inner loop comes to the first two maps for the same block, or to the end of an iterator. -/
theorem toCommonBlock_spec (hne : lhs ≠ rhs) {t : Nat} (hl : MapOf h.bm2s u l) (hr : MapOf h.bm2s v r)
    (hx : HaveMaps h.bm2s (i lhs)) (hy : HaveMaps h.bm2s (i rhs)) (hfuel : (i lhs).length + (i rhs).length < t) :
    (commonPairs Bitmap2ref.addr (u :: i lhs) (v :: i rhs) = [] →
      toCommonBlock h lhs rhs t i l r = .error .fault) ∧
    ∀ u' v' ps, commonPairs Bitmap2ref.addr (u :: i lhs) (v :: i rhs) = (u', v') :: ps → ∃ l' r' i',
      toCommonBlock h lhs rhs t i l r = .ok (l', r', i') ∧ MapOf h.bm2s u' l' ∧ MapOf h.bm2s v' r' ∧
        commonPairs Bitmap2ref.addr (i' lhs) (i' rhs) = ps ∧ HaveMaps h.bm2s (i' lhs) ∧ HaveMaps h.bm2s (i' rhs) ∧
          (i' lhs).length ≤ (i lhs).length := by
  induction t generalizing i l r u v with
  | zero => omega
  | succ t ih =>
    unfold toCommonBlock
    rcases lt_trichotomy u.addr v.addr with hlt | heq | hgt
    · -- the next node of `lhs`
      rw [if_pos (show l.addr ≠ r.addr by rw [hl.2, hr.2]; exact hlt.ne), if_pos (show l.addr < r.addr by rw [hl.2, hr.2]; exact hlt),
        commonPairs_of_lt hlt]
      cases hxs : i lhs with
      | nil =>
        rw [nextBm2_nil hxs, commonPairs_nil_left]
        exact ⟨fun _ => rfl, fun _ _ _ hps => nomatch hps⟩
      | cons x xs =>
        obtain ⟨m, hm⟩ := hx x (hxs ▸ List.mem_cons_self)
        have hitl : Function.update i lhs xs lhs = xs := Function.update_self _ _ _
        have hitr : Function.update i lhs xs rhs = i rhs := Function.update_of_ne hne.symm _ _
        obtain ⟨hnil, hcons⟩ := ih (i := Function.update i lhs xs) hm hr
          (by rw [hitl]; exact fun n hn => hx n (hxs ▸ List.mem_cons_of_mem _ hn)) (by rw [hitr]; exact hy)
          (by rw [hitl, hitr]; rw [hxs, List.length_cons] at hfuel; omega)
        rw [hitl, hitr] at hnil hcons
        rw [nextBm2_cons hxs hm, ok_bind]
        refine ⟨hnil, fun u' v' ps hps => ?_⟩
        obtain ⟨l', r', i', hrun, hl', hr', hps', hx', hy', hlen⟩ := hcons u' v' ps hps
        exact ⟨l', r', i', hrun, hl', hr', hps', hx', hy', hlen.trans (Nat.le_succ _)⟩
    · rw [if_neg (show ¬ l.addr ≠ r.addr from fun h => h (by rw [hl.2, hr.2]; exact heq)), commonPairs_of_eq heq]
      refine ⟨fun hps => (nomatch hps), fun u' v' ps hps => ?_⟩
      obtain ⟨hp, rfl⟩ := List.cons.inj hps
      obtain ⟨rfl, rfl⟩ := Prod.mk.inj hp
      exact ⟨l, r, i, rfl, hl, hr, rfl, hx, hy, Nat.le_refl _⟩
    · -- the next node of `rhs`
      rw [if_pos (show l.addr ≠ r.addr by rw [hl.2, hr.2]; exact hgt.ne'),
        if_neg (show ¬ l.addr < r.addr by rw [hl.2, hr.2]; exact hgt.asymm), commonPairs_of_gt hgt]
      cases hys : i rhs with
      | nil =>
        rw [nextBm2_nil hys, commonPairs_nil_right]
        exact ⟨fun _ => rfl, fun _ _ _ hps => nomatch hps⟩
      | cons y ys =>
        obtain ⟨m, hm⟩ := hy y (hys ▸ List.mem_cons_self)
        have hitr : Function.update i rhs ys rhs = ys := Function.update_self _ _ _
        have hitl : Function.update i rhs ys lhs = i lhs := Function.update_of_ne hne _ _
        obtain ⟨hnil, hcons⟩ := ih (i := Function.update i rhs ys) hl hm (by rw [hitl]; exact hx)
          (by rw [hitr]; exact fun n hn => hy n (hys ▸ List.mem_cons_of_mem _ hn))
          (by rw [hitl, hitr]; rw [hys, List.length_cons] at hfuel; omega)
        rw [hitl, hitr] at hnil hcons
        rw [nextBm2_cons hys hm, ok_bind]
        exact ⟨hnil, hcons⟩

/-- There is a race in the maps of two nodes. -/
def RaceInPair (bm2s : Nat → Option Bitmap2) (S : Nat → Row → Bool) (p : Bitmap2ref × Bitmap2ref) : Prop :=
  ∃ l r, MapOf bm2s p.1 l ∧ MapOf bm2s p.2 r ∧
    ∃ a0 < addr0Count, RaceBits l.bm1 r.bm1 a0 ∧ Unsuppressed S (p.1.addr * addr0Count + a0)

/-- The pairs have a race, and the result says so, or they have none, and there is no result. -/
def JoinResult (bm2s : Nat → Option Bitmap2) (S : Nat → Row → Bool) (ps : List (Bitmap2ref × Bitmap2ref))
    (res : Result (Nat × BmHeap)) : Prop :=
  ((∃ p ∈ ps, RaceInPair bm2s S p) ∧ ∃ h', res = .ok (1, h')) ∨ ((¬ ∃ p ∈ ps, RaceInPair bm2s S p) ∧ res = .error .fault)

theorem joinResult_nil {bm2s : Nat → Option Bitmap2} {f : Nat → Row → Bool} : JoinResult bm2s f [] (.error .fault) :=
  .inr ⟨fun ⟨_, hp, _⟩ => (nomatch hp), rfl⟩

/-- The outer loop finds a race in the maps of one of the common blocks, or comes to the end of an iterator. -/
theorem bmHasRacesLoop_spec (hne : lhs ≠ rhs) {t : Nat} (hr : ReadOk h S) (hs : h.bms s = some ms)
    (hx : HaveMaps h.bm2s (i lhs)) (hy : HaveMaps h.bm2s (i rhs)) (hfuel : (i lhs).length < t)
    (hblock : ∀ p ∈ commonPairs Bitmap2ref.addr (i lhs) (i rhs), p.1.addr < nBlocks) :
    JoinResult h.bm2s (S s) (commonPairs Bitmap2ref.addr (i lhs) (i rhs)) (bmHasRacesLoop s lhs rhs t i h) := by
  induction t generalizing h i ms with
  | zero => omega
  | succ t ih =>
    unfold bmHasRacesLoop
    cases hxs : i lhs with
    | nil =>
      rw [nextBm2_nil hxs, commonPairs_nil_left]
      exact joinResult_nil
    | cons x xs =>
      obtain ⟨mx, hmx⟩ := hx x (hxs ▸ List.mem_cons_self)
      have hitr : Function.update i lhs xs rhs = i rhs := Function.update_of_ne hne.symm _ _
      rw [nextBm2_cons hxs hmx, ok_bind]
      dsimp only
      cases hys : i rhs with
      | nil =>
        rw [nextBm2_nil (hitr.trans hys), commonPairs_nil_right]
        exact joinResult_nil
      | cons y ys =>
        obtain ⟨my, hmy⟩ := hy y (hys ▸ List.mem_cons_self)
        rw [nextBm2_cons (hitr.trans hys) hmy, ok_bind]
        dsimp only
        obtain ⟨i', hit'⟩ : ∃ i', i' = Function.update (Function.update i lhs xs) rhs ys := ⟨_, rfl⟩
        have hitl' : i' lhs = xs := by
          rw [hit', Function.update_of_ne hne, Function.update_self]
        have hitr' : i' rhs = ys := by
          rw [hit', Function.update_self]
        obtain ⟨hnil, hcons⟩ := toCommonBlock_spec hne (i := i') (t := (i' lhs).length + (i' rhs).length + 1) hmx hmy
          (by rw [hitl']; exact fun n hn => hx n (hxs ▸ List.mem_cons_of_mem _ hn))
          (by rw [hitr']; exact fun n hn => hy n (hys ▸ List.mem_cons_of_mem _ hn)) (Nat.lt_succ_self _)
        rw [hxs, hys] at hblock
        rw [← hit']
        rw [hitl', hitr'] at hnil hcons ⊢
        cases hps : commonPairs Bitmap2ref.addr (x :: xs) (y :: ys) with
        | nil =>
          rw [hnil hps]
          exact joinResult_nil
        | cons p ps =>
          obtain ⟨u', v'⟩ := p
          obtain ⟨l', r', i'', hrun, hl', hr', hps', hx', hy', hlen⟩ := hcons u' v' ps hps
          rw [hps] at hblock
          have haddr : l'.addr < nBlocks := hl'.2.symm ▸ hblock _ List.mem_cons_self
          obtain ⟨race, g, hfind, hreads, hrace⟩ := raceInBlock_iff (l := l') (r := r') hr hs haddr
          have hpair : race = true ↔ RaceInPair h.bm2s (S s) (u', v') := by
            rw [hrace, hl'.2]
            constructor
            · exact fun hex => ⟨l', r', hl', hr', hex⟩
            · rintro ⟨l₂, r₂, hl₂, hr₂, hex⟩
              obtain rfl := Option.some.inj (hl'.1.symm.trans hl₂.1)
              obtain rfl := Option.some.inj (hr'.1.symm.trans hr₂.1)
              exact hex
          rw [hrun, ok_bind]
          dsimp only
          rw [hfind, ok_bind]
          dsimp only
          cases race with
          | true =>
            rw [if_pos rfl]
            exact .inl ⟨⟨_, List.mem_cons_self, hpair.mp rfl⟩, g, rfl⟩
          | false =>
            -- the caches of the suppressed addresses have learned, and the maps are what they were
            have hsame := hreads.learns.sameMaps.bm2s
            obtain ⟨mg, hmg⟩ := hreads.learns.sameMaps.exists_bm hs
            rw [hxs, List.length_cons] at hfuel
            have hrest := ih (i := i'') hreads.readOk hmg (by rw [hsame]; exact hx') (by rw [hsame]; exact hy')
              (by omega) (by rw [hps']; exact fun p hp => hblock p (List.mem_cons_of_mem _ hp))
            rw [hps', hsame] at hrest
            rw [if_neg Bool.false_ne_true]
            have hno : ¬ RaceInPair h.bm2s (S s) (u', v') := fun hp => absurd (hpair.mpr hp) Bool.false_ne_true
            rcases hrest with ⟨⟨p, hp, hw⟩, hok⟩ | ⟨hnone, hfault⟩
            · exact .inl ⟨⟨p, List.mem_cons_of_mem _ hp, hw⟩, hok⟩
            · refine .inr ⟨?_, hfault⟩
              rintro ⟨p, hp, hw⟩
              rcases List.mem_cons.mp hp with rfl | hp
              · exact hno hw
              · exact hnone ⟨p, hp, hw⟩

/-! ## A bitmap and itself -/

/-- The iterator has come past both nodes, and never comes back. -/
theorem toCommonBlock_self {t : Nat} (hl : ∀ n ∈ i b, l.addr < n.addr) (hr : ∀ n ∈ i b, r.addr < n.addr)
    (hne : l.addr ≠ r.addr) (hasc : Ascending Bitmap2ref.addr (i b)) (hmaps : HaveMaps h.bm2s (i b))
    (hfuel : (i b).length < t) : toCommonBlock h b b t i l r = .error .fault := by
  induction t generalizing i l r with
  | zero => omega
  | succ t ih =>
    unfold toCommonBlock
    rw [if_pos hne]
    cases hxs : i b with
    | nil =>
      rw [nextBm2_nil hxs]
      split <;> rfl
    | cons x xs =>
      obtain ⟨m, hm⟩ := hmaps x (hxs ▸ List.mem_cons_self)
      have hitb : Function.update i b xs b = xs := Function.update_self _ _ _
      rw [hxs] at hl hr hasc hfuel hmaps
      obtain ⟨hx, hasc'⟩ := List.pairwise_cons.mp hasc
      have hmx : ∀ n ∈ xs, m.addr < n.addr := fun n hn => hm.2.symm ▸ hx n hn
      have hlx := hl x List.mem_cons_self
      have hrx := hr x List.mem_cons_self
      rw [← hm.2] at hlx hrx
      rw [nextBm2_cons hxs hm, ok_bind, ok_bind]
      have hlen : xs.length < t := by
        rw [List.length_cons] at hfuel
        omega
      have hmaps' : HaveMaps h.bm2s xs := fun n hn => hmaps n (List.mem_cons_of_mem _ hn)
      split
      · exact ih (by rw [hitb]; exact hmx) (by rw [hitb]; exact fun n hn => hr n (List.mem_cons_of_mem _ hn)) hrx.ne'
          (by rw [hitb]; exact hasc') (by rw [hitb]; exact hmaps') (by rw [hitb]; exact hlen)
      · exact ih (by rw [hitb]; exact fun n hn => hl n (List.mem_cons_of_mem _ hn)) (by rw [hitb]; exact hmx) hlx.ne
          (by rw [hitb]; exact hasc') (by rw [hitb]; exact hmaps') (by rw [hitb]; exact hlen)

theorem bmHasRacesLoop_self {t : Nat} (hasc : Ascending Bitmap2ref.addr (i b)) (hmaps : HaveMaps h.bm2s (i b)) :
    bmHasRacesLoop s b b (t + 1) i h = .error .fault := by
  unfold bmHasRacesLoop
  cases hxs : i b with
  | nil =>
    rw [nextBm2_nil hxs]
    rfl
  | cons x xs =>
    rw [hxs] at hasc hmaps
    obtain ⟨mx, hmx⟩ := hmaps x List.mem_cons_self
    have hitb : Function.update i b xs b = xs := Function.update_self _ _ _
    rw [nextBm2_cons hxs hmx, ok_bind]
    dsimp only
    cases xs with
    | nil =>
      rw [nextBm2_nil hitb]
      rfl
    | cons y ys =>
      obtain ⟨my, hmy⟩ := hmaps y (List.mem_cons_of_mem _ List.mem_cons_self)
      obtain ⟨hx, hasc'⟩ := List.pairwise_cons.mp hasc
      obtain ⟨hy, hasc''⟩ := List.pairwise_cons.mp hasc'
      rw [nextBm2_cons hitb hmy, ok_bind]
      dsimp only
      let i' := Function.update (Function.update i b (y :: ys)) b ys
      have hitb' : i' b = ys := Function.update_self _ _ _
      have hrun := toCommonBlock_self (h := h) (b := b) (l := mx) (r := my) (i := i') (t := (i' b).length + (i' b).length + 1)
        (by rw [hitb', hmx.2]; exact fun n hn => hx n (List.mem_cons_of_mem _ hn)) (by rw [hitb', hmy.2]; exact hy)
        (by rw [hmx.2, hmy.2]; exact (hx y List.mem_cons_self).ne) (by rw [hitb']; exact hasc'')
        (by rw [hitb']; exact fun n hn => hmaps n (List.mem_cons_of_mem _ (List.mem_cons_of_mem _ hn))) (by omega)
      rw [hrun]
      rfl

/-! ## The whole bitmaps -/

/-- The races in the maps of the common blocks are the races of the bitmaps. -/
theorem raceInPair_iff {ml mr : Bitmap} (hok : h.Ok) (hl : h.bms lhs = some ml) (hr : h.bms rhs = some mr)
    (S : Nat → Row → Bool) :
    (∃ p ∈ commonPairs Bitmap2ref.addr ml.oset mr.oset, RaceInPair h.bm2s S p) ↔
      ∃ a, Races h lhs rhs a ∧ Unsuppressed S a := by
  have hmem : ∀ {u v}, (u, v) ∈ commonPairs Bitmap2ref.addr ml.oset mr.oset ↔ u ∈ ml.oset ∧ v ∈ mr.oset ∧ u.addr = v.addr :=
    mem_commonPairs (hok.ascending lhs ml hl) (hok.ascending rhs mr hr)
  constructor
  · rintro ⟨⟨u, v⟩, hp, l, r, hmu, hmv, a0, ha0, hbits, hsup⟩
    obtain ⟨hu, hv, huv⟩ := hmem.mp hp
    dsimp only at hmu hmv hsup huv
    refine ⟨u.addr * addr0Count + a0, ?_, hsup⟩
    unfold Races
    rw [has_of_mapOf hok hl hu hmu ha0, has_of_mapOf hok hl hu hmu ha0, huv, has_of_mapOf hok hr hv hmv ha0,
      has_of_mapOf hok hr hv hmv ha0]
    exact hbits
  · rintro ⟨a, hraces, hsup⟩
    have hboth : (∃ x, h.has lhs a x = true) ∧ ∃ x, h.has rhs a x = true := by
      rcases hraces with ⟨hw, hx | hx⟩ | ⟨hw, hx | hx⟩
      · exact ⟨⟨_, hw⟩, _, hx⟩
      · exact ⟨⟨_, hw⟩, _, hx⟩
      · exact ⟨⟨_, hx⟩, _, hw⟩
      · exact ⟨⟨_, hx⟩, _, hw⟩
    obtain ⟨⟨x, hx⟩, y, hy⟩ := hboth
    obtain ⟨u, hu, hua⟩ := exists_node_of_has hl hx
    obtain ⟨v, hv, hva⟩ := exists_node_of_has hr hy
    obtain ⟨l, hmu⟩ := hok.haveMaps hl u hu
    obtain ⟨r, hmv⟩ := hok.haveMaps hr v hv
    have ha0 : a % addr0Count < addr0Count := Nat.mod_lt _ (by decide)
    have hsplit : u.addr * addr0Count + a % addr0Count = a := by
      rw [hua]
      exact Nat.div_add_mod' a addr0Count
    refine ⟨(u, v), hmem.mpr ⟨hu, hv, hua.trans hva.symm⟩, l, r, hmu, hmv, a % addr0Count, ha0, ?_, ?_⟩
    · have hr' : ∀ x, h.has rhs a x = bit (r.bm1.bm0 x) (a % addr0Count) := fun x => by
        rw [← has_of_mapOf hok hr hv hmv ha0, hva, ← hua, hsplit]
      have hl' : ∀ x, h.has lhs a x = bit (l.bm1.bm0 x) (a % addr0Count) := fun x => by
        rw [← has_of_mapOf hok hl hu hmu ha0, hsplit]
      unfold Races at hraces
      rw [hr', hr', hl', hl'] at hraces
      exact hraces
    · dsimp only
      rw [hsplit]
      exact hsup

/-- `bm_has_races` returns, and then says that there is a race, iff it finds one. -/
theorem bmHasRaces_spec {ml mr : Bitmap} (hok : h.Ok) (hl : h.bms lhs = some ml) (hr : h.bms rhs = some mr)
    (hs : h.bms s = some ms) :
    ((lhs ≠ rhs ∧ ∃ a, Races h lhs rhs a ∧ Unsuppressed (h.has s) a) ∧ ∃ h', bmHasRaces h s lhs rhs = .ok (1, h')) ∨
      ((¬ (lhs ≠ rhs ∧ ∃ a, Races h lhs rhs a ∧ Unsuppressed (h.has s) a)) ∧
        bmHasRaces h s lhs rhs = .error .fault) := by
  unfold bmHasRaces
  rw [bm_eq hl, ok_bind, bm_eq hr, ok_bind]
  dsimp only
  obtain ⟨i, hit⟩ : ∃ i, i = Function.update (Function.update (fun _ => []) lhs ml.oset) rhs mr.oset := ⟨_, rfl⟩
  have hitr : i rhs = mr.oset := by
    rw [hit, Function.update_self]
  rw [← hit]
  by_cases hne : lhs = rhs
  · subst hne
    obtain rfl := Option.some.inj (hl.symm.trans hr)
    exact .inr ⟨fun hn => hn.1 rfl, bmHasRacesLoop_self (by rw [hitr]; exact hok.ascending lhs ml hl)
      (by rw [hitr]; exact hok.haveMaps hl)⟩
  · have hitl : i lhs = ml.oset := by
      rw [hit, Function.update_of_ne hne, Function.update_self]
    have hloop := bmHasRacesLoop_spec hne (i := i) (t := ml.oset.length + 1) hok.readOk hs
      (by rw [hitl]; exact hok.haveMaps hl) (by rw [hitr]; exact hok.haveMaps hr) (by rw [hitl]; exact Nat.lt_succ_self _)
      (by
        rw [hitl, hitr]
        intro p hp
        exact hok.keys lhs ml hl _ ((mem_commonPairs (hok.ascending lhs ml hl) (hok.ascending rhs mr hr)).mp hp).1)
    rw [hitl, hitr, JoinResult, raceInPair_iff hok hl hr] at hloop
    exact hloop.imp (fun ⟨hex, hrun⟩ => ⟨⟨hne, hex⟩, hrun⟩) fun ⟨hno, hrun⟩ => ⟨fun hn => hno hn.2, hrun⟩

/-- **When `bm_has_races` is right**: the bitmaps are different, and there is a race at an address that is not
suppressed and not the highest one. -/
theorem bmHasRaces_iff (hreach : Reach h) (hlhs : h.Live lhs) (hrhs : h.Live rhs) (hsup : h.Live s) :
    RacesExact h s lhs rhs ↔
      lhs ≠ rhs ∧ ∃ a, a + 1 < wordMod ∧ Races h lhs rhs a ∧ h.has s a .w = false := by
  obtain ⟨ml, hl⟩ := hlhs
  obtain ⟨mr, hr⟩ := hrhs
  obtain ⟨ms, hs⟩ := hsup
  have hshape : (∃ a, Races h lhs rhs a ∧ Unsuppressed (h.has s) a) ↔
      ∃ a, a + 1 < wordMod ∧ Races h lhs rhs a ∧ h.has s a .w = false :=
    exists_congr fun a => ⟨fun ⟨h₁, h₂, h₃⟩ => ⟨h₂, h₁, h₃⟩, fun ⟨h₁, h₂, h₃⟩ => ⟨h₂, h₁, h₃⟩⟩
  rw [← hshape]
  rcases bmHasRaces_spec hreach.ok hl hr hs with ⟨hex, g, hrun⟩ | ⟨hno, hrun⟩
  · refine ⟨fun _ => hex, fun _ => ⟨1, g, hrun, fun _ => ?_, fun _ => Nat.one_ne_zero⟩⟩
    obtain ⟨-, a, hraces, hlt, hw⟩ := hex
    exact ⟨a, by omega, hraces, hw⟩
  · refine ⟨fun ⟨res, g, hrun', _⟩ => ?_, fun hex => absurd hex hno⟩
    rw [hrun] at hrun'
    exact nomatch hrun'

omit [Machine] in
/-- Two bitmaps without accesses, and one for the suppressed addresses. -/
theorem bmHasRaces_iff_new :
    @RacesExact amd64Linux (@newBitmaps amd64Linux 3) 0 1 2 ↔ 1 ≠ 2 ∧ ∃ a, a + 1 < @wordMod amd64Linux ∧
      @Races amd64Linux (@newBitmaps amd64Linux 3) 1 2 a ∧ @BmHeap.has amd64Linux (@newBitmaps amd64Linux 3) 0 a .w = false :=
  @bmHasRaces_iff amd64Linux _ 0 1 2 (@reach_newBitmaps amd64Linux 3) (@live_newBitmaps amd64Linux 1 3 (by decide))
    (@live_newBitmaps amd64Linux 2 3 (by decide)) (@live_newBitmaps amd64Linux 0 3 (by decide))

omit [Machine] in
/-- For them, a field is read through a null pointer. -/
theorem bmHasRaces_new_fault :
    @Reach amd64Linux (@newBitmaps amd64Linux 3) ∧
      @bmHasRaces amd64Linux (@newBitmaps amd64Linux 3) 0 1 2 = .error .fault ∧
        ¬ @RacesExact amd64Linux (@newBitmaps amd64Linux 3) 0 1 2 := by
  have hrun : @bmHasRaces amd64Linux (@newBitmaps amd64Linux 3) 0 1 2 = .error .fault := rfl
  refine ⟨@reach_newBitmaps amd64Linux 3, hrun, ?_⟩
  rintro ⟨res, g, hrun', -⟩
  rw [hrun] at hrun'
  exact nomatch hrun'

end

end Valgrind.Drd
