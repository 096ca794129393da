import Valgrind.Memcheck.SecVBits

/-!
# Setting permissions over address ranges (`mc_main.c`)

`set_address_range_perms` gives all bytes of a range the same state. It fills the first
chunk of the range byte by byte and eight bytes at a time, replaces the secondary maps of
whole chunks by a distinguished one, and fills what remains of the last chunk. Ranges wrap
around at the end of the address space, as the additions of the source do.

The stack handlers and `MC_(helperc_MAKE_STACK_UNINIT)` are faster ways to do the same for
ranges of some fixed lengths.

`setAddressRangePerms_spec`: the range is painted (`paint`), and nothing else changes.
-/

namespace Valgrind

namespace Memcheck

section

variable [Machine]

/-! ## Ranges -/

section Paint

variable {β : Type} {f : Nat → β} {a x len len₁ len₂ : Nat} {v : β}

/-- Give all addresses of a range the same value. -/
def paint (f : Nat → β) (a len : Nat) (v : β) : Nat → β :=
  fun x => if subW x a < len then v else f x

/-- A range that does not wrap around. -/
theorem subW_lt_iff (ha : a < wordMod) (hx : x < wordMod) (h : a + len ≤ wordMod) :
    subW x a < len ↔ a ≤ x ∧ x < a + len := by
  rcases Nat.lt_or_ge x a with hlt | hge
  · rw [subW_of_gt (by omega) hlt]
    omega
  · rw [subW_of_le hx hge]
    omega

/-- One range after the other. -/
theorem subW_lt_add_iff (ha : a < wordMod) (hx : x < wordMod) (h : len₁ + len₂ ≤ wordMod) :
    subW x a < len₁ + len₂ ↔ subW x a < len₁ ∨ subW x (addW a len₁) < len₂ := by
  have hpos := wordMod_pos
  by_cases hwrap : a + len₁ < wordMod
  · rw [addW_of_lt hwrap]
    unfold subW
    rcases wordMod_cases with hw | hw <;> rw [hw] at ha hx h hwrap ⊢ <;> omega
  · by_cases hlen : len₁ = wordMod
    · have : subW x a < wordMod := subW_lt x a
      omega
    · rw [addW_of_ge ha (by omega) (by omega)]
      unfold subW
      rcases wordMod_cases with hw | hw <;> rw [hw] at ha hx h hwrap ⊢ <;> omega

theorem paint_paint (ha : a < wordMod) (hx : x < wordMod) (h : len₁ + len₂ ≤ wordMod) :
    paint (paint f a len₁ v) (addW a len₁) len₂ v x = paint f a (len₁ + len₂) v x := by
  simp only [paint, subW_lt_add_iff ha hx h]
  grind

theorem paint_zero : paint f a 0 v = f := by
  funext x
  simp [paint]

end Paint

/-! ## Filling part of a chunk -/

/-- The first loop of `set_address_range_perms`: one byte at a time, until the address is
aligned or the range ends. -/
def fillUnaligned (vabits2 : BitVec 2) : SecMap → Nat → Nat → SecMap × Nat × Nat
  | sm, a, 0 => (sm, a, 0)
  | sm, a, n + 1 =>
    if a % 8 = 0 then (sm, a, n + 1) else fillUnaligned vabits2 (insertVabits2 sm a vabits2) (a + 1) n

/-- The other two loops: eight bytes at a time, and one byte at a time for what remains. -/
def fillAligned (vabits16 : BitVec 16) (sm : SecMap) (a len : Nat) : SecMap :=
  fillBytes (vabits16.setWidth 2) (fillWords vabits16 sm a (len / 8)) (a + 8 * (len / 8)) (len % 8)

/-- All three loops. -/
def fillRange (vabits16 : BitVec 16) (sm : SecMap) (a len : Nat) : SecMap :=
  let (sm, a, len) := fillUnaligned (vabits16.setWidth 2) sm a len
  fillAligned vabits16 sm a len

variable {sm : SecMap} {a x len n c dsmNum : Nat} {v : BitVec 2}

omit [Machine] in
theorem fillUnaligned_eq (sm : SecMap) (a n : Nat) :
    ∃ k ≤ n, fillUnaligned v sm a n = (fillBytes v sm a k, a + k, n - k) ∧
      (k = n ∨ (a + k) % 8 = 0) := by
  induction n generalizing sm a with
  | zero => exact ⟨0, Nat.le_refl 0, rfl, .inl rfl⟩
  | succ n ih =>
    rw [fillUnaligned]
    by_cases ha : a % 8 = 0
    · exact ⟨0, by omega, by rw [if_pos ha]; rfl, .inr ha⟩
    · obtain ⟨k, hk, heq, hend⟩ := ih (insertVabits2 sm a v) (a + 1)
      refine ⟨k + 1, by omega, ?_, by omega⟩
      rw [if_neg ha, heq, fillBytes]
      congr 2 <;> omega

omit [Machine] in
theorem setWidth_dup16 : (dup16 v).setWidth 2 = v := by
  revert v
  decide

omit [Machine] in
theorem vabits2In_fillAligned (ha : a % 8 = 0 ∨ len = 0) (hfit : a % 65536 + len ≤ 65536) :
    vabits2In (fillAligned (dup16 v) sm a len) x =
      if a % 65536 ≤ x % 65536 ∧ x % 65536 < a % 65536 + len then v else vabits2In sm x := by
  unfold fillAligned
  rw [setWidth_dup16]
  rcases Nat.eq_zero_or_pos len with rfl | hpos
  · rw [if_neg (by omega)]
    rfl
  have ha : a % 8 = 0 := by omega
  by_cases hrest : len % 8 = 0
  · rw [hrest, fillBytes, vabits2In_fillWords ha (by omega)]
    exact if_congr (by omega) rfl rfl
  · have hnext : (a + 8 * (len / 8)) % 65536 = a % 65536 + 8 * (len / 8) := by omega
    rw [vabits2In_fillBytes (by omega), hnext, vabits2In_fillWords ha (by omega)]
    grind

omit [Machine] in
theorem vabits2In_fillRange (hfit : a % 65536 + len ≤ 65536) :
    vabits2In (fillRange (dup16 v) sm a len) x =
      if a % 65536 ≤ x % 65536 ∧ x % 65536 < a % 65536 + len then v else vabits2In sm x := by
  unfold fillRange
  rw [setWidth_dup16]
  obtain ⟨k, hk, heq, hend⟩ := fillUnaligned_eq (v := v) sm a len
  rw [heq]
  dsimp only
  by_cases hall : k = len
  · subst hall
    rw [Nat.sub_self, fillAligned]
    simp only [fillWords, fillBytes, Nat.zero_div]
    exact vabits2In_fillBytes hfit
  · have hnext : (a + k) % 65536 = a % 65536 + k := by omega
    rw [vabits2In_fillAligned (by omega) (by omega), hnext, vabits2In_fillBytes (by omega)]
    grind

/-! ## `set_address_range_perms` -/

/-- Parts 1 and 3 of `set_address_range_perms`: fill part of a chunk. Nothing is done if its
secondary map is the distinguished one that has the right state everywhere. -/
def fillChunk (al : ShadowAlloc) (s : SecMaps) (a exampleDsm : Nat) (fill : SecMap → SecMap) :
    Result SecMaps := do
  let (smPtr, s) ← getSecmapPtr s a
  if isDistinguishedSm (readPlace s smPtr) = true ∧ readPlace s smPtr = exampleDsm then pure s
  else do
    let s ← (if isDistinguishedSm (readPlace s smPtr) then do
        let (sm, s) ← copyForWriting al s (readPlace s smPtr)
        pure (writePlace s sm smPtr)
      else pure s)
    let sm := readPlace s smPtr
    pure (writeSm s sm (fill (s.contents sm)))

/-- `VG_(am_munmap_valgrind)`, if the secondary map is not distinguished. -/
def unmapSm (s : SecMaps) (sm : Nat) : SecMaps :=
  if isDistinguishedSm sm then s else { s with mapped := s.mapped.erase sm }

/-- Part 2 of `set_address_range_perms`: set `n` entire chunks. -/
def replaceChunks (exampleDsm : Nat) : SecMaps → Nat → Nat → Result SecMaps
  | s, _, 0 => pure s
  | s, a, n + 1 => do
    assertThat (startOfThisSm a = a)
    let (smPtr, s) ← getSecmapPtr s a
    let sm := readPlace s smPtr
    let s := unmapSm s sm
    let s := updateSMCounts s sm exampleDsm
    let s := writePlace s exampleDsm smPtr
    replaceChunks exampleDsm s (addW a 65536) n

/-- Parts 2 and 3 of `set_address_range_perms`. -/
def sarpParts23 (al : ShadowAlloc) (s : SecMaps) (a lenB : Nat) (vabits16 : BitVec 16) (dsmNum : Nat) :
    Result SecMaps := do
  let s ← replaceChunks dsmNum s a (lenB / 65536)
  let a := addW a (lenB / 65536 * 65536)
  let lenB := lenB % 65536
  if lenB = 0 then pure s
  else do
    assertThat (startOfThisSm a = a ∧ lenB < 65536)
    fillChunk al s a dsmNum fun sm => fillAligned vabits16 sm a lenB

/-- `set_address_range_perms`. -/
def setAddressRangePerms (al : ShadowAlloc) (s : SecMaps) (a lenT : Nat) (vabits16 : BitVec 16)
    (dsmNum : Nat) : Result SecMaps := do
  assertThat (vabits16 = vaBits16Noaccess ∨ vabits16 = vaBits16Undefined ∨ vabits16 = vaBits16Defined)
  assertThat (vabits16.setWidth 2 ≠ vaBits2Partdefined)
  if lenT = 0 then pure s
  else do
    let aNext := addW (startOfThisSm a) 65536
    let lenToNextSecmap := subW aNext a
    if lenT ≤ lenToNextSecmap then fillChunk al s a dsmNum fun sm => fillRange vabits16 sm a lenT
    else if startOfThisSm a = a then sarpParts23 al s a lenT vabits16 dsmNum
    else do
      let s ← fillChunk al s a dsmNum fun sm => fillRange vabits16 sm a lenToNextSecmap
      sarpParts23 al s aNext (lenT - lenToNextSecmap) vabits16 dsmNum

variable {s s' : SecMaps} {al : ShadowAlloc}

theorem Shows.mono {f g : Nat → BitVec 2} (h : Shows s f) (hfg : ∀ x < wordMod, f x = g x) :
    Shows s g :=
  ⟨h.inv, fun x hx => (h.at_eq x hx).trans (hfg x hx)⟩

theorem shows_self (h : s.Inv) : Shows s (vabits2At s) := ⟨h, fun _ _ => rfl⟩

/-- Painting one range after the other. -/
theorem Shows.paint_append {len₁ len₂ : Nat} {f : Nat → BitVec 2} (ha : a < wordMod)
    (hlen : len₁ + len₂ ≤ wordMod) (h₁ : Shows s (paint f a len₁ v))
    (h₂ : Shows s' (paint (vabits2At s) (addW a len₁) len₂ v)) :
    Shows s' (paint f a (len₁ + len₂) v) := by
  refine h₂.mono fun x hx => ?_
  rw [← paint_paint ha hx hlen]
  unfold paint
  rw [h₁.at_eq x hx]
  rfl

/-- The chunks of a distinguished secondary map are in one state throughout. -/
theorem SecMaps.Inv.vabits2At_of_dist (h : s.Inv) (hv : v.toNat ≤ smDistDefined)
    (hc : installed s (x / 65536) = v.toNat) : vabits2At s x = v := by
  rw [vabits2At, hc, vabits2In, h.distinguished _ hv, extract_dup8, BitVec.ofNat_toNat, BitVec.setWidth_eq]

/-- Membership in a range inside of a chunk. -/
theorem subW_lt_chunk_iff (ha : a < wordMod) (hx : x < wordMod) (hfit : a % 65536 + len ≤ 65536) :
    subW x a < len ↔
      x / 65536 = a / 65536 ∧ a % 65536 ≤ x % 65536 ∧ x % 65536 < a % 65536 + len := by
  have hend : a + len ≤ wordMod := by
    have := chunk_lt ha
    have := wordMod_dvd
    omega
  rw [subW_lt_iff ha hx hend]
  omega

theorem fillChunk_spec (len : Nat) (h : s.Inv) (ha : a < wordMod) (hv : v.toNat ≤ smDistDefined)
    {fill : SecMap → SecMap} (hfit : a % 65536 + len ≤ 65536)
    (hfill : ∀ sm x, vabits2In (fill sm) x =
      if a % 65536 ≤ x % 65536 ∧ x % 65536 < a % 65536 + len then v else vabits2In sm x) :
    Returns al (fillChunk al s a v.toNat fill) fun s' => Shows s' (paint (vabits2At s) a len v) := by
  obtain ⟨s₁, hrun, hq⟩ := getSecmapPtr_spec h ha
  unfold fillChunk
  rw [hrun, ok_bind]
  dsimp only
  rw [readPlace_placeOf]
  by_cases hsame : isDistinguishedSm (installed s₁ (a / 65536)) = true ∧
      installed s₁ (a / 65536) = v.toNat
  · rw [if_pos hsame]
    refine .of_ok ((shows_self hq.inv).mono fun x hx => ?_)
    rw [hq.vabits2At, paint]
    split
    · rename_i hin
      have hxc := ((subW_lt_chunk_iff ha hx hfit).mp hin).1
      exact hq.vabits2At.symm.trans (hq.inv.vabits2At_of_dist hv (by rw [hxc]; exact hsame.2))
    · rfl
  rw [if_neg hsame]
  -- afterwards the chunk has a secondary map of its own
  have hown : Returns al (if isDistinguishedSm (installed s₁ (a / 65536)) then do
        let (sm, s) ← copyForWriting al s₁ (installed s₁ (a / 65536))
        pure (writePlace s sm (placeOf a))
      else pure s₁) fun s' => Owned s₁ s' a (installed s' (a / 65536)) := by
    split
    · rename_i hd
      refine (copyForWriting_spec hq.inv ha hd).bind fun (sm, s') ho => .of_ok ?_
      rw [ho.installed]
      exact ho
    · rename_i hd
      exact .of_ok ⟨hq.inv, rfl, by simpa [isDistinguishedSm] using hd, fun _ _ => rfl, fun _ _ => rfl⟩
  refine hown.bind fun s₂ ho => .of_ok ?_
  rw [readPlace_placeOf]
  refine (ho.writeSm ha _).mono fun x hx => ?_
  simp only [hfill, paint, subW_lt_chunk_iff ha hx hfit]
  by_cases hxc : x / 65536 = a / 65536
  · rw [if_pos hxc, ho.vabits2In_eq hx hxc, hq.vabits2At]
    exact if_congr (by grind) rfl rfl
  · rw [if_neg hxc, if_neg fun h => hxc h.1, hq.vabits2At]

@[simp] theorem contents_unmapSm {sm : Nat} : (unmapSm s sm).contents = s.contents := by
  unfold unmapSm
  split <;> rfl

@[simp] theorem installed_unmapSm {sm : Nat} : installed (unmapSm s sm) = installed s := by
  unfold unmapSm
  split <;> rfl

theorem writePlace_unmapSm {sm o d : Nat} {p : Place} :
    writePlace (updateSMCounts (unmapSm s sm) o d) d p =
      unmapSm (writePlace (updateSMCounts s o d) d p) sm := by
  unfold unmapSm
  cases p <;> split <;> rfl

/-- A secondary map that is not installed is not needed. -/
theorem SecMaps.Inv.unmapSm {sm : Nat} (h : s.Inv) (hno : ∀ c < wordMod / 65536,
    smDistDefined < sm → installed s c ≠ sm) : (unmapSm s sm).Inv := by
  unfold Memcheck.unmapSm
  split
  · exact h
  · rename_i hd
    refine ⟨h.distinguished, h.keys, h.l1, fun c hc hdc => ?_, h.once, h.count⟩
    have hsm : smDistDefined < sm := by simpa [isDistinguishedSm] using hd
    exact (List.mem_erase_of_ne (hno c hc hsm)).mpr (h.live c hc hdc)

/-- One turn of part 2. -/
theorem replaceChunk_spec (h : s.Inv) (ha : a < wordMod) (halign : startOfThisSm a = a)
    (hv : v.toNat ≤ smDistDefined) :
    Shows (writePlace (updateSMCounts (unmapSm s (installed s (a / 65536)))
        (installed s (a / 65536)) v.toNat) v.toNat (placeOf a))
      (paint (vabits2At s) a 65536 v) := by
  rw [writePlace_unmapSm]
  have hinst : installed (writePlace (updateSMCounts s (installed s (a / 65536)) v.toNat) v.toNat
      (placeOf a)) = Function.update (installed s) (a / 65536) v.toNat := installed_writePlace
  have hinv : (unmapSm (writePlace (updateSMCounts s (installed s (a / 65536)) v.toNat) v.toNat
      (placeOf a)) (installed s (a / 65536))).Inv := by
    refine (h.replace ha (.inl hv)).unmapSm fun c hc hd he => ?_
    -- the chunk itself has the distinguished map now, and no other chunk shared its old one
    rw [hinst] at he
    by_cases hca : c = a / 65536
    · rw [hca, Function.update_self] at he
      omega
    · rw [Function.update_of_ne hca] at he
      exact hca (h.once c hc _ (chunk_lt ha) (by omega) he)
  refine ⟨hinv, fun x hx => ?_⟩
  have hin : subW x a < 65536 ↔ x / 65536 = a / 65536 := by
    have hchunk : a % 65536 = 0 := by
      unfold startOfThisSm at halign
      omega
    rw [subW_lt_chunk_iff ha hx (by omega)]
    omega
  rw [paint, if_congr hin rfl rfl]
  split
  · rename_i hxc
    exact hinv.vabits2At_of_dist hv (by rw [installed_unmapSm, hinst, hxc, Function.update_self])
  · rename_i hxc
    have hcontents : (writePlace (updateSMCounts s (installed s (a / 65536)) v.toNat) v.toNat
        (placeOf a)).contents = s.contents := by
      unfold placeOf
      split <;> rfl
    rw [vabits2At, contents_unmapSm, hcontents, installed_unmapSm, hinst, Function.update_of_ne hxc]
    rfl

theorem addW_chunk (ha : a % 65536 = 0) : addW a (n * 65536) % 65536 = 0 := by
  unfold addW
  rcases wordMod_cases with hw | hw <;> rw [hw] <;> omega

theorem startOfThisSm_eq : startOfThisSm a = a ↔ a % 65536 = 0 := by
  unfold startOfThisSm
  omega

theorem replaceChunks_spec (h : s.Inv) (ha : a < wordMod) (halign : a % 65536 = 0)
    (hv : v.toNat ≤ smDistDefined) (hn : n * 65536 ≤ wordMod) :
    ∃ s', replaceChunks v.toNat s a n = .ok s' ∧
      Shows s' (paint (vabits2At s) a (n * 65536) v) := by
  induction n generalizing s a with
  | zero => exact ⟨s, rfl, (shows_self h).mono fun x _ => by rw [Nat.zero_mul, paint_zero]⟩
  | succ n ih =>
    obtain ⟨s₁, hrun, hq⟩ := getSecmapPtr_spec h ha
    have hs₂ := replaceChunk_spec hq.inv ha (startOfThisSm_eq.mpr halign) hv
    have hnext : addW a 65536 % 65536 = 0 := by
      have := addW_chunk (n := 1) halign
      rwa [Nat.one_mul] at this
    have hn' : n * 65536 ≤ wordMod := Nat.le_trans (Nat.mul_le_mul_right _ (Nat.le_succ n)) hn
    obtain ⟨s', hrest, hs'⟩ := ih hs₂.inv (addW_lt a 65536) hnext hn'
    refine ⟨s', ?_, ?_⟩
    · rw [replaceChunks, assertThat_of (startOfThisSm_eq.mpr halign), ok_bind, hrun, ok_bind]
      dsimp only
      rw [readPlace_placeOf]
      exact hrest
    · rw [Nat.succ_mul, Nat.add_comm] at hn ⊢
      have hall := hs₂.paint_append ha hn hs'
      refine hall.mono fun x _ => ?_
      unfold paint
      rw [hq.vabits2At]

theorem sarpParts23_spec (h : s.Inv) (ha : a < wordMod) (halign : a % 65536 = 0)
    (hv : v.toNat ≤ smDistDefined) (hlen : len ≤ wordMod) :
    Returns al (sarpParts23 al s a len (dup16 v) v.toNat)
      fun s' => Shows s' (paint (vabits2At s) a len v) := by
  obtain ⟨s₁, hrun, hs₁⟩ := replaceChunks_spec (n := len / 65536) h ha halign hv (by omega)
  have hnext := addW_chunk (n := len / 65536) halign
  unfold sarpParts23
  rw [hrun, ok_bind]
  dsimp only
  split
  · rename_i hzero
    refine .of_ok (hs₁.mono fun x _ => ?_)
    rw [show len / 65536 * 65536 = len by omega]
  · rw [assertThat_of ⟨startOfThisSm_eq.mpr hnext, by omega⟩, ok_bind]
    refine (fillChunk_spec (len % 65536) hs₁.inv (addW_lt _ _) hv (by omega) fun sm x =>
      vabits2In_fillAligned (.inl (by omega)) (by omega)).mono fun s' hs' => ?_
    have hall := hs₁.paint_append ha (by omega) hs'
    rwa [show len / 65536 * 65536 + len % 65536 = len by omega] at hall

omit [Machine] in
theorem toNat_le_of_ne_partdefined (hv : v ≠ vaBits2Partdefined) : v.toNat ≤ smDistDefined := by
  revert v
  decide

theorem lenToNextSecmap_eq (ha : a < wordMod) :
    subW (addW (startOfThisSm a) 65536) a = 65536 - a % 65536 := by
  unfold subW addW startOfThisSm
  rcases wordMod_cases with hw | hw <;> rw [hw] at ha ⊢ <;> omega

theorem nextSecmap_eq :
    addW (startOfThisSm a) 65536 = addW a (65536 - a % 65536) := by
  unfold addW startOfThisSm
  congr 1
  omega

/-- **`set_address_range_perms`** paints the range. -/
theorem setAddressRangePerms_spec (h : s.Inv) (ha : a < wordMod) (hlen : len < wordMod)
    (hv : v ≠ vaBits2Partdefined) :
    Returns al (setAddressRangePerms al s a len (dup16 v) v.toNat)
      fun s' => Shows s' (paint (vabits2At s) a len v) := by
  have hle := toNat_le_of_ne_partdefined hv
  have hconst : dup16 v = vaBits16Noaccess ∨ dup16 v = vaBits16Undefined ∨ dup16 v = vaBits16Defined := by
    revert hv
    revert v
    decide
  unfold setAddressRangePerms
  rw [assertThat_of hconst, ok_bind, setWidth_dup16, assertThat_of hv, ok_bind]
  split
  · rename_i hzero
    refine .of_ok ((shows_self h).mono fun x _ => ?_)
    rw [hzero, paint_zero]
  dsimp only
  rw [lenToNextSecmap_eq ha]
  split
  · -- the range is within one chunk
    exact fillChunk_spec len h ha hle (by omega) fun sm x => vabits2In_fillRange (by omega)
  split
  · rename_i hstart
    exact sarpParts23_spec h ha (startOfThisSm_eq.mp hstart) hle (by omega)
  · refine (fillChunk_spec (65536 - a % 65536) h ha hle (by omega) fun sm x =>
      vabits2In_fillRange (by omega)).bind fun s₁ hs₁ => ?_
    have hnext : addW (startOfThisSm a) 65536 % 65536 = 0 := by
      have := addW_chunk (n := 1) (a := startOfThisSm a) (by unfold startOfThisSm; omega)
      rwa [Nat.one_mul] at this
    refine (sarpParts23_spec hs₁.inv (addW_lt _ _) hnext hle (by omega)).mono fun s' hs' => ?_
    rw [nextSecmap_eq] at hs'
    have hall := hs₁.paint_append ha (by omega) hs'
    rwa [show 65536 - a % 65536 + (len - (65536 - a % 65536)) = len by omega] at hall

/-! ## What is remembered -/

section

variable {s : Shadow} {A A' : VBits} {maps' : SecMaps}

theorem Shadow.Rep.congr (h : s.Rep A) (hA : ∀ x < wordMod, A x = A' x) : s.Rep A' :=
  ⟨h.inv, h.nodes, fun x hx => by rw [← hA x hx]; exact h.state x hx,
    fun x hx => by rw [← hA x hx]; exact h.entry x hx⟩

/-- All bytes of a range are given a state that needs no entry in the table. -/
theorem Shadow.Rep.paint (h : s.Rep A) {o : Option (BitVec 8)} (ho : compress o ≠ vaBits2Partdefined)
    (hshows : Shows maps' (paint (vabits2At s.maps) a len (compress o))) :
    Shadow.Rep { s with maps := maps' } (paint A a len o) := by
  refine ⟨hshows.inv, h.nodes, fun x hx => ?_, fun x hx hp => ?_⟩
  · rw [hshows.at_eq x hx]
    unfold Memcheck.paint
    split
    · rfl
    · exact h.state x hx
  · unfold Memcheck.paint at hp ⊢
    split at hp
    · exact absurd hp ho
    · rename_i hout
      rw [if_neg hout]
      exact h.entry x hx hp

end

end

end Memcheck

end Valgrind
