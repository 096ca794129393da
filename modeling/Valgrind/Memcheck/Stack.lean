import Valgrind.Memcheck.Perms

/-!
# Permission setters for stacks (`mc_main.c`)

When the stack pointer moves by one of a few common amounts, a handler of its own sets the
states of the bytes concerned, four or eight bytes at a time if the new stack pointer is
aligned. The handlers differ in the words they set; that these words make up the range in
question, and are aligned, is decided by `tilesFrom`.

`MC_(helperc_MAKE_STACK_UNINIT)` sets the red zone below the stack pointer, which has a
fixed size on each platform.
-/

namespace Valgrind

namespace Memcheck

section

variable [Machine]

/-- A state that a whole range can be given. -/
inductive Perm where
  | noaccess
  | undefined
  | defined
  deriving DecidableEq

/-- `VA_BITS2_...`. -/
def Perm.vabits2 : Perm → BitVec 2
  | noaccess => vaBits2Noaccess
  | undefined => vaBits2Undefined
  | defined => vaBits2Defined

/-- `VA_BITS8_...`. -/
def Perm.vabits8 : Perm → BitVec 8
  | noaccess => vaBits8Noaccess
  | undefined => vaBits8Undefined
  | defined => vaBits8Defined

/-- `VA_BITS16_...`. -/
def Perm.vabits16 : Perm → BitVec 16
  | noaccess => vaBits16Noaccess
  | undefined => vaBits16Undefined
  | defined => vaBits16Defined

/-- `SM_DIST_...`. -/
def Perm.dsmNum : Perm → Nat
  | noaccess => smDistNoaccess
  | undefined => smDistUndefined
  | defined => smDistDefined

/-- What the functions that set a range have in common. -/
def makeMem (al : ShadowAlloc) (perm : Perm) (s : SecMaps) (a len : Nat) : Result SecMaps :=
  setAddressRangePerms al s a len perm.vabits16 perm.dsmNum

/-- `MC_(make_mem_noaccess)`. -/
def makeMemNoaccess (al : ShadowAlloc) := makeMem al .noaccess

/-- `make_mem_undefined`, `MC_(make_mem_undefined_w_otag)`. -/
def makeMemUndefined (al : ShadowAlloc) := makeMem al .undefined

/-- `MC_(make_mem_defined)`. -/
def makeMemDefined (al : ShadowAlloc) := makeMem al .defined

/-! ## Aligned words -/

/-- `make_aligned_word32_undefined`, `make_aligned_word32_noaccess`. -/
def makeAlignedWord32 (al : ShadowAlloc) (perm : Perm) (s : SecMaps) (a : Nat) : Result SecMaps :=
  if maxPrimaryAddress < a then makeMem al perm s a 4
  else do
    let (sm, s) ← getSecmapForWriting al s a
    pure (writeSm s sm (Function.update (s.contents sm) (smOff a) perm.vabits8))

/-- `make_aligned_word64_undefined`, `make_aligned_word64_noaccess`. -/
def makeAlignedWord64 (al : ShadowAlloc) (perm : Perm) (s : SecMaps) (a : Nat) : Result SecMaps :=
  if maxPrimaryAddress < a then makeMem al perm s a 8
  else do
    let (sm, s) ← getSecmapForWriting al s a
    pure (writeSm s sm (setVabits16 (s.contents sm) (smOff16 a) perm.vabits16))

/-- Set some aligned words, given by their addresses and sizes. -/
def makeAlignedWords (al : ShadowAlloc) (perm : Perm) : SecMaps → List (Nat × Nat) → Result SecMaps
  | s, [] => pure s
  | s, (a, sz) :: words => do
    let s ← (if sz = 4 then makeAlignedWord32 al perm s a else makeAlignedWord64 al perm s a)
    makeAlignedWords al perm s words

/-! ## The handlers -/

/-- How the stack handlers for one amount set their range: the words that are set when the
address is 8-aligned, and those when it is only 4-aligned. Words are given by their distances
from the new stack pointer and their sizes. If there are no words for an alignment, the range
is set as a whole. -/
structure StackWords where
  len : Nat
  aligned8 : List (Nat × Nat)
  aligned4 : Option (List (Nat × Nat))

/-- What the handlers for stack growth have in common: `redzone` is `VG_STACK_REDZONE_SZB`. -/
def newMemStackN (al : ShadowAlloc) (redzone : Nat) (w : StackWords) (s : SecMaps) (newSP : Nat) :
    Result SecMaps :=
  let sp := subW newSP redzone
  if sp % 8 = 0 then makeAlignedWords al .undefined s (w.aligned8.map fun (o, sz) => (addW sp o, sz))
  else match w.aligned4 with
    | none => makeMemUndefined al s sp w.len
    | some words =>
      if sp % 4 = 0 then makeAlignedWords al .undefined s (words.map fun (o, sz) => (addW sp o, sz))
      else makeMemUndefined al s sp w.len

/-- What the handlers for stack shrinkage have in common. `test` is subtracted from the address
before its alignment is tested. -/
def dieMemStackN (al : ShadowAlloc) (redzone : Nat) (w : StackWords) (test : Nat) (s : SecMaps)
    (newSP : Nat) : Result SecMaps :=
  let sp := subW newSP redzone
  if subW sp test % 8 = 0 then
    makeAlignedWords al .noaccess s (w.aligned8.map fun (o, sz) => (subW sp o, sz))
  else match w.aligned4 with
    | none => makeMemNoaccess al s (subW sp w.len) w.len
    | some words =>
      if sp % 4 = 0 then makeAlignedWords al .noaccess s (words.map fun (o, sz) => (subW sp o, sz))
      else makeMemNoaccess al s (subW sp w.len) w.len

/-- `mc_new_mem_stack_4`. -/
def newMemStack4 : StackWords := ⟨4, [(0, 4)], some [(0, 4)]⟩
/-- `mc_new_mem_stack_8`. -/
def newMemStack8 : StackWords := ⟨8, [(0, 8)], some [(0, 4), (4, 4)]⟩
/-- `mc_new_mem_stack_12`. -/
def newMemStack12 : StackWords := ⟨12, [(0, 8), (8, 4)], some [(0, 4), (4, 8)]⟩
/-- `mc_new_mem_stack_16`. -/
def newMemStack16 : StackWords := ⟨16, [(0, 8), (8, 8)], some [(0, 4), (4, 8), (12, 4)]⟩
/-- `mc_new_mem_stack_32`. -/
def newMemStack32 : StackWords :=
  ⟨32, [(0, 8), (8, 8), (16, 8), (24, 8)], some [(0, 4), (4, 8), (12, 8), (20, 8), (28, 4)]⟩
/-- `mc_new_mem_stack_112`. -/
def newMemStack112 : StackWords := ⟨112, (List.range 14).map fun i => (8 * i, 8), none⟩
/-- `mc_new_mem_stack_128`. -/
def newMemStack128 : StackWords := ⟨128, (List.range 16).map fun i => (8 * i, 8), none⟩
/-- `mc_new_mem_stack_144`. -/
def newMemStack144 : StackWords := ⟨144, (List.range 18).map fun i => (8 * i, 8), none⟩
/-- `mc_new_mem_stack_160`. -/
def newMemStack160 : StackWords := ⟨160, (List.range 20).map fun i => (8 * i, 8), none⟩

/-- `mc_die_mem_stack_4`. -/
def dieMemStack4 : StackWords := ⟨4, [(4, 4)], some [(4, 4)]⟩
/-- `mc_die_mem_stack_8`. -/
def dieMemStack8 : StackWords := ⟨8, [(8, 8)], some [(8, 4), (4, 4)]⟩
/-- `mc_die_mem_stack_12`. Here the alignment of the lower end of the range is tested. -/
def dieMemStack12 : StackWords := ⟨12, [(12, 8), (4, 4)], some [(12, 4), (8, 8)]⟩
/-- `mc_die_mem_stack_16`. -/
def dieMemStack16 : StackWords := ⟨16, [(16, 8), (8, 8)], some [(16, 4), (12, 8), (4, 4)]⟩
/-- `mc_die_mem_stack_32`. -/
def dieMemStack32 : StackWords :=
  ⟨32, [(32, 8), (24, 8), (16, 8), (8, 8)], some [(32, 4), (28, 8), (20, 8), (12, 8), (4, 4)]⟩
/-- `mc_die_mem_stack_112`. -/
def dieMemStack112 : StackWords := ⟨112, (List.range 14).map fun i => (112 - 8 * i, 8), none⟩
/-- `mc_die_mem_stack_128`. -/
def dieMemStack128 : StackWords := ⟨128, (List.range 16).map fun i => (128 - 8 * i, 8), none⟩
/-- `mc_die_mem_stack_144`. -/
def dieMemStack144 : StackWords := ⟨144, (List.range 18).map fun i => (144 - 8 * i, 8), none⟩
/-- `mc_die_mem_stack_160`. -/
def dieMemStack160 : StackWords := ⟨160, (List.range 20).map fun i => (160 - 8 * i, 8), none⟩

/-- The handlers with amounts of their own, and what is subtracted before the alignment test on
the way down. -/
inductive StackAmount where
  | by4 | by8 | by12 | by16 | by32 | by112 | by128 | by144 | by160
  deriving DecidableEq

/-- The handler for stack growth by one of the amounts. -/
def StackAmount.newWords : StackAmount → StackWords
  | by4 => newMemStack4
  | by8 => newMemStack8
  | by12 => newMemStack12
  | by16 => newMemStack16
  | by32 => newMemStack32
  | by112 => newMemStack112
  | by128 => newMemStack128
  | by144 => newMemStack144
  | by160 => newMemStack160

/-- The handler for stack shrinkage by one of the amounts. -/
def StackAmount.dieWords : StackAmount → StackWords
  | by4 => dieMemStack4
  | by8 => dieMemStack8
  | by12 => dieMemStack12
  | by16 => dieMemStack16
  | by32 => dieMemStack32
  | by112 => dieMemStack112
  | by128 => dieMemStack128
  | by144 => dieMemStack144
  | by160 => dieMemStack160

/-- What `mc_die_mem_stack_12` subtracts before it tests the alignment, and no other handler. -/
def StackAmount.dieTest : StackAmount → Nat
  | by12 => 12
  | _ => 0

/-! ## Red zones -/

/-- The fast case of `MC_(helperc_MAKE_STACK_UNINIT)` for a red zone of `len` bytes. The result
is `none` if the slow case has to be taken. -/
def makeRedzoneUninit (al : ShadowAlloc) (s : SecMaps) (base len : Nat) :
    Result (Option SecMaps × SecMaps) := do
  let aHi := addW base (len - 1)
  assertThat (base < aHi)
  if aHi ≤ maxPrimaryAddress then do
    let (sm, s) ← getSecmapForWriting al s base
    let (smHi, s) ← getSecmapForWriting al s aHi
    if sm = smHi then
      pure (some (writeSm s sm (fillWords vaBits16Undefined (s.contents sm) base (len / 8))), s)
    else pure (none, s)
  else pure (none, s)

/-- `MC_(helperc_MAKE_STACK_UNINIT)`. -/
def helpercMakeStackUninit (al : ShadowAlloc) (s : SecMaps) (base len : Nat) : Result SecMaps := do
  let (done, s) ← (if len = 128 ∧ base % 8 = 0 then makeRedzoneUninit al s base 128
    else pure (none, s))
  match done with
  | some s => pure s
  | none => do
    let (done, s) ← (if len = 288 ∧ base % 8 = 0 then makeRedzoneUninit al s base 288
      else pure (none, s))
    match done with
    | some s => pure s
    | none => makeMemUndefined al s base len

/-! ## What they do -/

variable {al : ShadowAlloc} {perm : Perm} {s s' : SecMaps} {a x len pos r sp n redzone base : Nat}
  {words : List (Nat × Nat)}

theorem Perm.vabits8_eq : perm.vabits8 = dup8 perm.vabits2 := by
  cases perm <;> rfl

theorem Perm.vabits16_eq : perm.vabits16 = dup16 perm.vabits2 := by
  cases perm <;> rfl

theorem Perm.dsmNum_eq : perm.dsmNum = perm.vabits2.toNat := by
  cases perm <;> rfl

theorem Perm.vabits2_ne : perm.vabits2 ≠ vaBits2Partdefined := by
  cases perm <;> decide

theorem makeMem_spec (perm : Perm) (h : s.Inv) (ha : a < wordMod) (hlen : len < wordMod) :
    Returns al (makeMem al perm s a len)
      fun s' => Shows s' (paint (vabits2At s) a len perm.vabits2) := by
  rw [makeMem, Perm.vabits16_eq, Perm.dsmNum_eq]
  exact setAddressRangePerms_spec h ha hlen Perm.vabits2_ne

theorem lt_wordMod {k : Nat} (hk : k < 4294967296) : k < wordMod := by
  rcases wordMod_cases with hw | hw <;> omega

/-- A store into a chunk of its own that paints part of the chunk. -/
theorem getSecmapForWriting_paint (h : s.Inv) (ha : a < wordMod) {v : BitVec 2}
    (hfit : a % 65536 + len ≤ 65536) (fill : SecMap → SecMap)
    (hfill : ∀ sm x, vabits2In (fill sm) x =
      if a % 65536 ≤ x % 65536 ∧ x % 65536 < a % 65536 + len then v else vabits2In sm x) :
    Returns al (do
      let (sm, s) ← getSecmapForWriting al s a
      pure (writeSm s sm (fill (s.contents sm)))) fun s' => Shows s' (paint (vabits2At s) a len v) := by
  refine (getSecmapForWriting_spec h ha).bind fun (sm, s') ho => .of_ok ?_
  refine (ho.writeSm ha _).mono fun x hx => ?_
  simp only [hfill, paint, subW_lt_chunk_iff ha hx hfit]
  by_cases hxc : x / 65536 = a / 65536
  · rw [if_pos hxc, ho.vabits2In_eq hx hxc]
    exact if_congr (by grind) rfl rfl
  · rw [if_neg hxc, if_neg fun h => hxc h.1]

theorem makeAlignedWord32_spec (h : s.Inv) (ha : a < wordMod) (halign : a % 4 = 0) :
    Returns al (makeAlignedWord32 al perm s a)
      fun s' => Shows s' (paint (vabits2At s) a 4 perm.vabits2) := by
  unfold makeAlignedWord32
  split
  · exact makeMem_spec perm h ha (lt_wordMod (by omega))
  · refine getSecmapForWriting_paint h ha (by omega)
      (fun sm => Function.update sm (smOff a) perm.vabits8) fun sm x => ?_
    rw [vabits2In_update, Perm.vabits8_eq, extract_dup8]
    refine if_congr ?_ rfl rfl
    unfold smOff
    omega

theorem makeAlignedWord64_spec (h : s.Inv) (ha : a < wordMod) (halign : a % 8 = 0) :
    Returns al (makeAlignedWord64 al perm s a)
      fun s' => Shows s' (paint (vabits2At s) a 8 perm.vabits2) := by
  unfold makeAlignedWord64
  split
  · exact makeMem_spec perm h ha (lt_wordMod (by omega))
  · refine getSecmapForWriting_paint h ha (by omega)
      (fun sm => setVabits16 sm (smOff16 a) perm.vabits16) fun sm x => ?_
    rw [Perm.vabits16_eq, vabits2In_setVabits16]
    refine if_congr ?_ rfl rfl
    unfold smOff16
    omega

/-- Aligned words that make up a range. -/
def Tiles : Nat → List (Nat × Nat) → Nat → Prop
  | _, [], len => len = 0
  | a, (b, sz) :: words, len =>
    b = a ∧ (sz = 4 ∧ a % 4 = 0 ∨ sz = 8 ∧ a % 8 = 0) ∧ sz ≤ len ∧ Tiles (addW a sz) words (len - sz)

theorem makeAlignedWords_spec (perm : Perm) (h : s.Inv) (ha : a < wordMod) (hlen : len ≤ wordMod)
    (ht : Tiles a words len) :
    Returns al (makeAlignedWords al perm s words)
      fun s' => Shows s' (paint (vabits2At s) a len perm.vabits2) := by
  induction words generalizing s a len with
  | nil =>
    obtain rfl : len = 0 := ht
    exact .of_ok ((shows_self h).mono fun x _ => by rw [paint_zero])
  | cons w words ih =>
    obtain ⟨b, sz⟩ := w
    obtain ⟨rfl, hsz, hle, ht⟩ := ht
    have hone : Returns al (if sz = 4 then makeAlignedWord32 al perm s b else makeAlignedWord64 al perm s b)
        fun s' => Shows s' (paint (vabits2At s) b sz perm.vabits2) := by
      rcases hsz with ⟨rfl, h4⟩ | ⟨rfl, h8⟩
      · exact makeAlignedWord32_spec h ha h4
      · exact makeAlignedWord64_spec h ha h8
    rw [makeAlignedWords]
    refine hone.bind fun s₁ hs₁ => ?_
    refine (ih hs₁.inv (addW_lt b sz) (by omega) ht).mono fun s' hs' => ?_
    have hall := hs₁.paint_append ha (by omega) hs'
    rwa [Nat.add_sub_cancel' hle] at hall

/-- Do words at these distances from an address with the remainder `r` modulo 8 make up the
range from `pos` to `len`? -/
def tilesFrom (r : Nat) : Nat → List (Nat × Nat) → Nat → Bool
  | pos, [], len => decide (pos = len)
  | pos, (o, sz) :: words, len =>
    decide (o = pos ∧ (sz = 4 ∧ (r + o) % 4 = 0 ∨ sz = 8 ∧ (r + o) % 8 = 0) ∧ o + sz ≤ len) &&
      tilesFrom r (pos + sz) words len

theorem addW_addW (a b c : Nat) : addW (addW a b) c = addW a (b + c) := by
  unfold addW
  rw [Nat.mod_add_mod, Nat.add_assoc]

theorem addW_mod (k : Nat) (hk : k = 4 ∨ k = 8) : addW sp pos % k = (sp + pos) % k := by
  unfold addW
  rcases wordMod_cases with hw | hw <;> rcases hk with rfl | rfl <;> rw [hw] <;> omega

theorem tiles_of_tilesFrom (sp : Nat) (hr : sp % 8 = r) (h : tilesFrom r pos words len = true) :
    Tiles (addW sp pos) (words.map fun (o, sz) => (addW sp o, sz)) (len - pos) := by
  induction words generalizing pos with
  | nil =>
    obtain rfl : pos = len := by simpa [tilesFrom] using h
    exact Nat.sub_self pos
  | cons w words ih =>
    obtain ⟨o, sz⟩ := w
    rw [tilesFrom, Bool.and_eq_true, decide_eq_true_eq] at h
    obtain ⟨⟨rfl, hsz, hle⟩, h⟩ := h
    refine ⟨rfl, ?_, by omega, ?_⟩
    · rw [addW_mod 4 (.inl rfl), addW_mod 8 (.inr rfl)]
      omega
    · rw [addW_addW, Nat.sub_sub]
      exact ih h

/-- The words of a handler make up its range. -/
def StackWords.ok (w : StackWords) : Bool :=
  tilesFrom 0 0 w.aligned8 w.len && w.aligned4.all fun words => tilesFrom 4 0 words w.len

theorem addW_zero (ha : a < wordMod) : addW a 0 = a := by
  rw [addW_of_lt (by omega), Nat.add_zero]

/-- The range of a handler is set, whatever the alignment. -/
theorem stackWords_spec {w : StackWords} (hw : w.ok = true) (hlen : w.len < 4294967296) (h : s.Inv)
    (ha : a < wordMod) (perm : Perm) :
    Returns al (if a % 8 = 0 then makeAlignedWords al perm s (w.aligned8.map fun (o, sz) => (addW a o, sz))
      else match w.aligned4 with
        | none => makeMem al perm s a w.len
        | some words =>
          if a % 4 = 0 then makeAlignedWords al perm s (words.map fun (o, sz) => (addW a o, sz))
          else makeMem al perm s a w.len)
      fun s' => Shows s' (paint (vabits2At s) a w.len perm.vabits2) := by
  rw [StackWords.ok, Bool.and_eq_true] at hw
  have hlen' := lt_wordMod hlen
  split
  · rename_i h8
    have ht := tiles_of_tilesFrom a h8 hw.1
    rw [addW_zero ha, Nat.sub_zero] at ht
    exact makeAlignedWords_spec perm h ha (by omega) ht
  · rename_i h8
    split
    · exact makeMem_spec perm h ha hlen'
    · rename_i words hwords
      split
      · rename_i h4
        rw [hwords] at hw
        have ht := tiles_of_tilesFrom a (show a % 8 = 4 by omega) hw.2
        rw [addW_zero ha, Nat.sub_zero] at ht
        exact makeAlignedWords_spec perm h ha (by omega) ht
      · exact makeMem_spec perm h ha hlen'

/-- **The handlers for stack growth** make the new part of the stack undefined. -/
theorem newMemStackN_spec (h : s.Inv) (k : StackAmount) (newSP : Nat) :
    Returns al (newMemStackN al redzone k.newWords s newSP) fun s' =>
      Shows s' (paint (vabits2At s) (subW newSP redzone) k.newWords.len vaBits2Undefined) := by
  have hok : k.newWords.ok = true ∧ k.newWords.len < 4294967296 := by
    cases k <;> decide
  exact stackWords_spec hok.1 hok.2 h (subW_lt _ _) .undefined

/-- The distances of words from the lower end of a range, given those from its upper end. -/
def fromLowerEnd (len : Nat) (words : List (Nat × Nat)) : List (Nat × Nat) :=
  words.map fun (o, sz) => (len - o, sz)

/-- Do words at these distances below an address with the remainder `r` modulo 8 make up the
range of length `len` below it? -/
def tilesBelow (r : Nat) (words : List (Nat × Nat)) (len : Nat) : Bool :=
  words.all (fun w => decide (w.1 ≤ len)) && tilesFrom ((r + 8 * len - len) % 8) 0 (fromLowerEnd len words) len

theorem subW_eq_addW {o : Nat} (ho : o ≤ len) (hlen : len ≤ wordMod) :
    subW sp o = addW (subW sp len) (len - o) := by
  unfold subW addW
  rw [Nat.mod_add_mod]
  congr 1
  omega

theorem subW_mod (k : Nat) (hk : k = 4 ∨ k = 8) (hlen : len ≤ wordMod) :
    subW sp len % k = (sp % k + k * len - len) % k := by
  unfold subW
  rcases wordMod_cases with hw | hw <;> rcases hk with rfl | rfl <;> rw [hw] at hlen ⊢ <;> omega

theorem tiles_of_tilesBelow (sp : Nat) (hr : sp % 8 = r) (hlen : len ≤ wordMod) (h : tilesBelow r words len = true) :
    Tiles (subW sp len) (words.map fun (o, sz) => (subW sp o, sz)) len := by
  rw [tilesBelow, Bool.and_eq_true, List.all_eq_true] at h
  have heq : (words.map fun (o, sz) => (subW sp o, sz)) =
      (fromLowerEnd len words).map fun (o, sz) => (addW (subW sp len) o, sz) := by
    rw [fromLowerEnd, List.map_map]
    refine List.map_congr_left fun (o, sz) hw => ?_
    exact congrArg (·, sz) (subW_eq_addW (of_decide_eq_true (h.1 _ hw)) hlen)
  have ht := tiles_of_tilesFrom (subW sp len) (by rw [subW_mod 8 (.inr rfl) hlen, hr]) h.2
  rw [addW_zero (subW_lt _ _), Nat.sub_zero] at ht
  rw [heq]
  exact ht

/-- The words of a handler for stack shrinkage make up its range. -/
def StackWords.dieOk (w : StackWords) (test : Nat) : Bool :=
  decide (test % 4 = 0 ∧ test < 8 * 4) && tilesBelow (test % 8) w.aligned8 w.len &&
    w.aligned4.all fun words => tilesBelow ((test + 4) % 8) words w.len

/-- **The handlers for stack shrinkage** make the old part of the stack inaccessible. -/
theorem dieMemStackN_spec (h : s.Inv) (k : StackAmount) (newSP : Nat) :
    Returns al (dieMemStackN al redzone k.dieWords k.dieTest s newSP) fun s' =>
      Shows s' (paint (vabits2At s) (subW (subW newSP redzone) k.dieWords.len) k.dieWords.len
        vaBits2Noaccess) := by
  have hok : k.dieWords.dieOk k.dieTest = true ∧ k.dieWords.len < 4294967296 := by
    cases k <;> decide
  obtain ⟨hok, hlen⟩ := hok
  rw [StackWords.dieOk, Bool.and_eq_true, Bool.and_eq_true, decide_eq_true_eq] at hok
  have hlen' := lt_wordMod hlen
  have hlow : subW (subW newSP redzone) k.dieWords.len < wordMod := subW_lt _ _
  have htest : subW (subW newSP redzone) k.dieTest % 8 =
      (subW newSP redzone % 8 + 8 * k.dieTest - k.dieTest) % 8 :=
    subW_mod 8 (.inr rfl) (Nat.le_of_lt (lt_wordMod (by omega)))
  unfold dieMemStackN
  dsimp only
  rw [htest]
  split
  · rename_i h8
    have ht := tiles_of_tilesBelow (subW newSP redzone) (by omega) (by omega) hok.1.2
    exact makeAlignedWords_spec .noaccess h hlow (by omega) ht
  · rename_i h8
    split
    · exact makeMem_spec .noaccess h hlow hlen'
    · rename_i words hwords
      split
      · rename_i h4
        rw [hwords] at hok
        have ht := tiles_of_tilesBelow (subW newSP redzone) (by omega) (by omega) hok.2
        exact makeAlignedWords_spec .noaccess h hlow (by omega) ht
      · exact makeMem_spec .noaccess h hlow hlen'

/-! ## Red zones -/

/-- What the fast case for red zones leaves behind. -/
def RedzoneSet (s : SecMaps) (base len : Nat) (res : Option SecMaps × SecMaps) : Prop :=
  match res.1 with
  | some s' => Shows s' (paint (vabits2At s) base len vaBits2Undefined)
  | none => Shows res.2 (vabits2At s)

/-- The fast case for red zones. Its assertion fails just if the range wraps around. -/
theorem makeRedzoneUninit_spec (h : s.Inv) (hbase : base < wordMod) (halign : base % 8 = 0)
    (hlen : len % 8 = 0) (hpos : 0 < len) (hsmall : len < 65536) (hfits : base + len ≤ wordMod) :
    Returns al (makeRedzoneUninit al s base len) (RedzoneSet s base len) := by
  have haHi : addW base (len - 1) = base + (len - 1) := addW_of_lt (by omega)
  unfold makeRedzoneUninit
  dsimp only
  rw [haHi, assertThat_of (by omega), ok_bind]
  split
  · refine (getSecmapForWriting_spec h hbase).bind fun (sm, s₁) ho₁ => ?_
    refine (getSecmapForWriting_spec ho₁.inv (by omega)).bind fun (smHi, s₂) ho₂ => ?_
    dsimp only
    have hsame : ∀ x < wordMod, vabits2At s₂ x = vabits2At s x := fun x hx =>
      (ho₂.same x hx).trans (ho₁.same x hx)
    split
    · -- one secondary map for both ends: one chunk
      rename_i hsm
      subst hsm
      have hinst : installed s₂ (base / 65536) = sm := by
        by_cases hc : base / 65536 = (base + (len - 1)) / 65536
        · rw [hc]
          exact ho₂.installed
        · rw [ho₂.others _ hc]
          exact ho₁.installed
      have hchunk : base / 65536 = (base + (len - 1)) / 65536 :=
        ho₂.inv.once _ (chunk_lt hbase) _ (chunk_lt (by omega)) (hinst ▸ ho₁.own)
          (hinst.trans ho₂.installed.symm)
      have hfit : base % 65536 + len ≤ 65536 := by omega
      refine .of_ok ⟨ho₂.inv.writeSm ho₁.own _, fun x hx => ?_⟩
      rw [vabits2At_writeSm ho₂.inv (chunk_lt hbase) hinst ho₁.own _ hx]
      have hlen8 : 8 * (len / 8) = len := by omega
      have hfill : vabits2In (fillWords (dup16 vaBits2Undefined) (s₂.contents sm) base (len / 8)) x =
          if base % 65536 ≤ x % 65536 ∧ x % 65536 < base % 65536 + 8 * (len / 8) then vaBits2Undefined
          else vabits2In (s₂.contents sm) x := vabits2In_fillWords halign (by omega)
      rw [hlen8] at hfill
      change (if _ then vabits2In (fillWords (dup16 vaBits2Undefined) (s₂.contents sm) base (len / 8)) x
        else _) = _
      rw [hfill]
      simp only [paint, subW_lt_chunk_iff hbase hx hfit]
      by_cases hxc : x / 65536 = base / 65536
      · have hsm : vabits2In (s₂.contents sm) x = vabits2At s x := by
          rw [← hsame x hx, vabits2At, hxc, hinst]
        rw [if_pos hxc, hsm]
        exact if_congr (by grind) rfl rfl
      · rw [if_neg hxc, if_neg fun h => hxc h.1, hsame x hx]
    · exact .of_ok ⟨ho₂.inv, hsame⟩
  · exact .of_ok (shows_self h)

/-- The ranges for which the assertion of `MC_(helperc_MAKE_STACK_UNINIT)` fails: those of the
size of a red zone that wrap around. -/
def RedzoneWraps (base len : Nat) : Prop :=
  (len = 128 ∨ len = 288) ∧ base % 8 = 0 ∧ wordMod < base + len

instance : Decidable (RedzoneWraps base len) :=
  inferInstanceAs (Decidable (_ ∧ _ ∧ _))

/-- **`MC_(helperc_MAKE_STACK_UNINIT)`** makes the range undefined. -/
theorem helpercMakeStackUninit_spec (h : s.Inv) (hbase : base < wordMod) (hlen : len < wordMod)
    (hwrap : ¬ RedzoneWraps base len) :
    Returns al (helpercMakeStackUninit al s base len) fun s' =>
      Shows s' (paint (vabits2At s) base len vaBits2Undefined) := by
  have hfast : ∀ {k : Nat} (s₁ : SecMaps), k = 128 ∨ k = 288 → Shows s₁ (vabits2At s) →
      Returns al (if len = k ∧ base % 8 = 0 then makeRedzoneUninit al s₁ base k else pure (none, s₁))
        (RedzoneSet s base len) := by
    intro k s₁ hk hs₁
    split
    · rename_i hc
      obtain ⟨rfl, h8⟩ := hc
      have hfits : base + len ≤ wordMod := by
        by_contra hno
        exact hwrap ⟨hk, h8, by omega⟩
      refine (makeRedzoneUninit_spec hs₁.inv hbase h8 (by omega) (by omega) (by omega) hfits).mono ?_
      rintro ⟨_ | s', s₂⟩ hres
      · exact Shows.mono (f := vabits2At s₁) hres hs₁.at_eq
      · refine Shows.mono (f := paint (vabits2At s₁) base len vaBits2Undefined) hres fun x hx => ?_
        unfold paint
        rw [hs₁.at_eq x hx]
    · exact .of_ok hs₁
  unfold helpercMakeStackUninit
  refine (hfast s (.inl rfl) (shows_self h)).bind ?_
  rintro ⟨_ | s', s₁⟩ hres
  · refine (hfast s₁ (.inr rfl) hres).bind ?_
    rintro ⟨_ | s', s₂⟩ hres'
    · have hs₂ : Shows s₂ (vabits2At s) := hres'
      refine (makeMem_spec .undefined hs₂.inv hbase hlen).mono fun s' hs' => ?_
      refine hs'.mono fun x hx => ?_
      unfold paint
      rw [hs₂.at_eq x hx]
      rfl
    · exact .of_ok hres'
  · exact .of_ok hres

end

end Memcheck

end Valgrind
