import Valgrind.Memcheck.LoadStoreSpecs

/-!
# Copying and marking, byte by byte (`mc_main.c`)

`MC_(copy_address_range_state)` copies states and V bits of a range to another place, four
bytes at a time if the two do not overlap and are aligned. `make_mem_defined_if_addressable`
and `mc_get_or_set_vbits_for_client` are for client requests.

The states of four bytes are copied before the V bits that belong to them, so that for a
while there are bytes that are partly defined and have no entry in the table.
`Shadow.RepExcept` says which ones.
-/

namespace Valgrind

namespace Memcheck

section

variable [Machine]

open Machine

/-! ## The code -/

/-- The body of the loops over single bytes in `MC_(copy_address_range_state)`. -/
def copyByte (al : ShadowAlloc) (s : Shadow) (src dst : Nat) : Result Shadow := do
  let (vabits2, maps) ← getVabits2 s.maps src
  let maps ← setVabits2 al maps dst vabits2
  let s := { s with maps }
  if vabits2 = vaBits2Partdefined then do
    let vbits8 ← getSecVbits8 s src
    setSecVbits8 s dst vbits8
  else pure s

/-- Copy the secondary V bits of the bytes at the distances `ks`. -/
def copySecVbits (src dst : Nat) : List Nat → Shadow → Result Shadow
  | [], s => pure s
  | k :: ks, s => do
    let (vabits2, maps) ← getVabits2 s.maps (addW src k)
    let s := { s with maps }
    let s ← (if vabits2 = vaBits2Partdefined then do
        let vbits8 ← getSecVbits8 s (addW src k)
        setSecVbits8 s (addW dst k) vbits8
      else pure s)
    copySecVbits src dst ks s

/-- The body of the vectorised loop in `MC_(copy_address_range_state)`. -/
def copyWord (al : ShadowAlloc) (s : Shadow) (src dst : Nat) : Result Shadow := do
  let (vabits8, maps) ← getVabits8ForAlignedWord32 s.maps src
  let maps ← setVabits8ForAlignedWord32 al maps dst vabits8
  let s := { s with maps }
  if vabits8 = vaBits8Defined ∨ vabits8 = vaBits8Undefined ∨ vabits8 = vaBits8Noaccess then pure s
  else copySecVbits src dst [0, 1, 2, 3] s

/-- A loop over bytes at the distances `is`. -/
def copyBytes (al : ShadowAlloc) (src dst : Nat) (is : List Nat) (s : Shadow) : Result Shadow :=
  is.foldlM (fun s i => copyByte al s (addW src i) (addW dst i)) s

/-- A loop over words at the distances `is`. -/
def copyWords (al : ShadowAlloc) (src dst : Nat) (is : List Nat) (s : Shadow) : Result Shadow :=
  is.foldlM (fun s i => copyWord al s (addW src i) (addW dst i)) s

/-- `MC_(copy_address_range_state)`. -/
def copyAddressRangeState (al : ShadowAlloc) (s : Shadow) (src dst len : Nat) : Result Shadow :=
  if len = 0 ∨ src = dst then pure s
  else
    let aligned := src % 4 = 0 ∧ dst % 4 = 0
    let nooverlap := addW src len ≤ dst ∨ addW dst len ≤ src
    if nooverlap ∧ aligned then do
      let s ← copyWords al src dst ((List.range (len / 4)).map (4 * ·)) s
      copyBytes al src dst (List.range' (len / 4 * 4) (len % 4)) s
    else do
      let s ← (if src < dst then copyBytes al src dst (List.range len).reverse s else pure s)
      if dst < src then copyBytes al src dst (List.range len) s else pure s

/-- `make_mem_defined_if_addressable`. -/
def makeMemDefinedIfAddressable (al : ShadowAlloc) (s : Shadow) (a len : Nat) : Result Shadow :=
  (List.range len).foldlM (fun s i => do
    let (vabits2, maps) ← getVabits2 s.maps (addW a i)
    if vaBits2Noaccess ≠ vabits2 then do
      let maps ← setVabits2 al maps (addW a i) vaBits2Defined
      pure { s with maps }
    else pure { s with maps }) s

/-- The loop of `mc_get_or_set_vbits_for_client` that checks that both arrays are
addressable. -/
def bothAddressable (a vbits : Nat) : List Nat → SecMaps → Result (Bool × SecMaps)
  | [], maps => pure (true, maps)
  | i :: is, maps => do
    let (vabits2, maps) ← getVabits2 maps (addW a i)
    if vaBits2Noaccess = vabits2 then pure (false, maps)
    else do
      let (vabits2, maps) ← getVabits2 maps (addW vbits i)
      if vaBits2Noaccess = vabits2 then pure (false, maps)
      else bothAddressable a vbits is maps

/-- The loop of `mc_get_or_set_vbits_for_client` for setting. `mem` is the client's memory. -/
def setVbitsLoop (al : ShadowAlloc) (mem : Nat → BitVec 8) (a vbits : Nat) (is : List Nat) (s : Shadow) :
    Result Shadow :=
  is.foldlM (fun s i => do
    let (ok, s) ← setVbits8 al s (addW a i) (mem (addW vbits i))
    assertThat (ok = true)
    pure s) s

/-- The loop of `mc_get_or_set_vbits_for_client` for getting. -/
def getVbitsLoop (a vbits : Nat) : List Nat → (Nat → BitVec 8) → Shadow →
    Result ((Nat → BitVec 8) × Shadow)
  | [], mem, s => pure (mem, s)
  | i :: is, mem, s => do
    let (ok, vbits8, s) ← getVbits8 s (addW a i)
    assertThat (ok = true)
    getVbitsLoop a vbits is (Function.update mem (addW vbits i) vbits8) s

/-- `mc_get_or_set_vbits_for_client`: the result, the client's memory and the shadow memory. -/
def getOrSetVbitsForClient (al : ShadowAlloc) (s : Shadow) (mem : Nat → BitVec 8) (a vbits szB : Nat)
    (setting : Bool) : Result (Nat × (Nat → BitVec 8) × Shadow) := do
  let (ok, maps) ← bothAddressable a vbits (List.range szB) s.maps
  let s := { s with maps }
  if ok = false then pure (3, mem, s)
  else if setting then do
    let s ← setVbitsLoop al mem a vbits (List.range szB) s
    pure (1, mem, s)
  else do
    let (mem, s) ← getVbitsLoop a vbits (List.range szB) mem s
    let maps ← makeMemDefined al s.maps vbits szB
    pure (1, mem, { s with maps })

/-! ## Copying -/

variable {al : ShadowAlloc} {s s' : Shadow} {A A' : VBits} {a x src dst len : Nat} {pending : Nat → Prop}

/-- The shadow memory remembers `A`, but for the V bits of some bytes. -/
structure Shadow.RepExcept (s : Shadow) (A : VBits) (pending : Nat → Prop) : Prop where
  inv : s.maps.Inv
  nodes : NodesOk s.secVBitTable
  state : ∀ x < wordMod, vabits2At s.maps x = compress (A x)
  entry : ∀ x < wordMod, ¬ pending x → compress (A x) = vaBits2Partdefined → entryAt s x = A x

theorem Shadow.RepExcept.rep (h : s.RepExcept A pending) (hno : ∀ x, ¬ pending x) : s.Rep A :=
  ⟨h.inv, h.nodes, h.state, fun x hx => h.entry x hx (hno x)⟩

theorem Shadow.RepExcept.quiet (h : s.RepExcept A pending) {maps' : SecMaps} (hq : Quiet s.maps maps') :
    Shadow.RepExcept { s with maps := maps' } A pending :=
  ⟨hq.inv, h.nodes, fun x hx => hq.vabits2At.trans (h.state x hx), h.entry⟩

/-- The states of some bytes are set, and the V bits are not there yet. -/
theorem Shadow.Rep.setStates (h : s.Rep A) {maps' : SecMaps} (hshows : Shows maps' fun x => compress (A' x))
    (hsame : ∀ x < wordMod, ¬ pending x → A' x = A x) :
    Shadow.RepExcept { s with maps := maps' } A' pending := by
  refine ⟨hshows.inv, h.nodes, hshows.at_eq, fun x hx hpend hp => ?_⟩
  rw [hsame x hx hpend] at hp ⊢
  exact h.entry x hx hp

/-- The V bits of one more byte are there, because it needs none. -/
theorem Shadow.RepExcept.skip (h : s.RepExcept A pending) (ha : compress (A a) ≠ vaBits2Partdefined) :
    s.RepExcept A fun x => pending x ∧ x ≠ a := by
  refine ⟨h.inv, h.nodes, h.state, fun x hx hpend hp => h.entry x hx (fun hx' => ?_) hp⟩
  refine hpend ⟨hx', ?_⟩
  rintro rfl
  exact ha hp

/-- The V bits of one more byte are there, because they have been set. -/
theorem Shadow.RepExcept.setEntry {v : BitVec 8} (h : s.RepExcept A pending) (ha : A a = some v)
    (he : SetsEntry s s' a v) : s'.RepExcept A fun x => pending x ∧ x ≠ a := by
  refine ⟨he.quiet.inv, he.nodes, fun x hx => he.quiet.vabits2At.trans (h.state x hx), fun x hx hpend hp => ?_⟩
  by_cases hxa : x = a
  · subst hxa
    rw [he.entry_self, ha]
  · obtain ⟨w, hw, -⟩ := eq_of_compress_partdefined hp
    rw [hw]
    refine he.entry_ne x hx hxa ((h.state x hx).trans hp) w ?_
    rw [h.entry x hx (fun hx' => hpend ⟨hx', hxa⟩) hp, hw]

/-- **`get_sec_vbits8`** does not fail on a byte whose V bits are there. -/
theorem Shadow.RepExcept.getSecVbits8 (h : s.RepExcept A pending) (ha : a < wordMod) (hpend : ¬ pending a)
    (hp : compress (A a) = vaBits2Partdefined) : ∃ v, getSecVbits8 s a = .ok v ∧ A a = some v := by
  obtain ⟨v, hv, hok⟩ := eq_of_compress_partdefined hp
  have he := h.entry a ha hpend hp
  rw [hv, entryAt] at he
  unfold Memcheck.getSecVbits8
  cases hl : lookupSecVBitNode s.secVBitTable (roundDn a 16) with
  | none => simp [hl] at he
  | some n =>
    obtain rfl : n.vbits8 (a % 16) = v := by simpa [hl] using he
    exact ⟨_, by simp only [assertThat_of hok, ok_bind]; rfl, hv⟩

/-- The V bits of one byte are copied from a byte whose V bits are there. -/
theorem Shadow.RepExcept.copySec (h : s.RepExcept A pending) (hsrc : src < wordMod) (hdst : dst < wordMod)
    (hpend : ¬ pending src) (hA : A dst = A src) :
    ∃ s', (if compress (A src) = vaBits2Partdefined then do
        let vbits8 ← Memcheck.getSecVbits8 s src
        setSecVbits8 s dst vbits8
      else pure s) = .ok s' ∧ s'.RepExcept A (fun x => pending x ∧ x ≠ dst) ∧ s'.errors = s.errors := by
  by_cases hp : compress (A src) = vaBits2Partdefined
  · rw [if_pos hp]
    obtain ⟨v, hget, hv⟩ := h.getSecVbits8 hsrc hpend hp
    rw [hv] at hp hA
    obtain ⟨s', hset, he⟩ := setSecVbits8_spec h.inv h.nodes hdst (compress_eq_partdefined.mp hp)
    exact ⟨s', by rw [hget, ok_bind, hset], h.setEntry hA he, he.errors⟩
  · rw [if_neg hp]
    exact ⟨s, rfl, h.skip (by rw [hA]; exact hp), rfl⟩

/-- A byte takes over what is known of another one. -/
def copyV (A : VBits) (src dst : Nat) : VBits := Function.update A dst (A src)

/-- **One byte** is copied. -/
theorem copyByte_spec (h : s.Rep A) (hsrc : src < wordMod) (hdst : dst < wordMod) (hne : src ≠ dst) :
    Returns al (copyByte al s src dst) fun s' => s'.Rep (copyV A src dst) ∧ s'.errors = s.errors := by
  obtain ⟨maps₁, hget, hq⟩ := getVabits2_spec h.inv hsrc
  unfold copyByte
  rw [hget, ok_bind, h.state src hsrc]
  refine (setVabits2_spec hq.inv hdst _).bind fun maps₂ hshows => ?_
  have hex : Shadow.RepExcept { s with maps := maps₂ } (copyV A src dst) (· = dst) := by
    refine h.setStates (hshows.mono fun x hx => ?_) fun x _ hx => Function.update_of_ne hx _ _
    unfold copyV
    by_cases hxd : x = dst
    · rw [hxd, Function.update_self, Function.update_self]
    · rw [Function.update_of_ne hxd, Function.update_of_ne hxd, hq.vabits2At, h.state x hx]
  have hsrcA : copyV A src dst src = A src := Function.update_of_ne hne _ _
  have hdstA : copyV A src dst dst = A src := Function.update_self _ _ _
  obtain ⟨s', hrun, hrep, herr⟩ := hex.copySec hsrc hdst hne (hdstA.trans hsrcA.symm)
  rw [hsrcA] at hrun
  dsimp only
  rw [hrun]
  exact .of_ok ⟨hrep.rep fun x hx => hx.2 hx.1, herr⟩

/-- The secondary V bits of the bytes at some distances are copied. -/
theorem copySecVbits_spec (src dst : Nat) (ks : List Nat) (h : s.RepExcept A pending)
    (hpend : ∀ k ∈ ks, ¬ pending (addW src k)) (hA : ∀ k ∈ ks, A (addW dst k) = A (addW src k)) :
    ∃ s', copySecVbits src dst ks s = .ok s' ∧
      s'.RepExcept A (fun x => pending x ∧ ∀ k ∈ ks, x ≠ addW dst k) ∧ s'.errors = s.errors := by
  induction ks generalizing s pending with
  | nil => exact ⟨s, rfl, ⟨h.inv, h.nodes, h.state, fun x hx hno => h.entry x hx fun hp => hno (by simp [hp])⟩, rfl⟩
  | cons k ks ih =>
    obtain ⟨hk, hks⟩ := List.forall_mem_cons.mp hpend
    obtain ⟨hAk, hAks⟩ := List.forall_mem_cons.mp hA
    obtain ⟨maps₁, hget, hq⟩ := getVabits2_spec h.inv (addW_lt src k)
    have h₁ := h.quiet hq
    obtain ⟨s₂, hrun₂, h₂, herr₂⟩ := h₁.copySec (addW_lt src k) (addW_lt dst k) hk hAk
    obtain ⟨s', hrun, hrep, herr⟩ := ih h₂ (fun k' hk' hp => hks k' hk' hp.1) hAks
    refine ⟨s', ?_, ?_, herr.trans herr₂⟩
    · rw [copySecVbits, hget, ok_bind, h.state _ (addW_lt src k)]
      dsimp only
      rw [hrun₂, ok_bind, hrun]
    · refine ⟨hrep.inv, hrep.nodes, hrep.state, fun x hx hno => hrep.entry x hx ?_⟩
      rintro ⟨⟨hp, hne⟩, hne'⟩
      exact hno ⟨hp, by simpa using ⟨hne, hne'⟩⟩

/-- Bytes are copied one after the other. -/
def copyAll (A : VBits) (src dst : Nat) (is : List Nat) : VBits :=
  is.foldl (fun A i => copyV A (addW src i) (addW dst i)) A

theorem copyAll_of_ne {is : List Nat} (h : ∀ i ∈ is, x ≠ addW dst i) : copyAll A src dst is x = A x := by
  induction is generalizing A with
  | nil => rfl
  | cons i is ih =>
    obtain ⟨hi, his⟩ := List.forall_mem_cons.mp h
    exact (ih his).trans (Function.update_of_ne hi _ _)

/-- If no byte is written before it is read, and none is written twice, all arrive. -/
theorem copyAll_of_mem {is : List Nat} (hp : is.Pairwise fun i j => addW dst i ≠ addW src j ∧ addW dst i ≠ addW dst j)
    {i : Nat} (hi : i ∈ is) : copyAll A src dst is (addW dst i) = A (addW src i) := by
  induction is generalizing A with
  | nil => cases hi
  | cons k ks ih =>
    obtain ⟨hk, hks⟩ := List.pairwise_cons.mp hp
    change copyAll (copyV A (addW src k) (addW dst k)) src dst ks (addW dst i) = _
    rcases List.mem_cons.mp hi with rfl | hi
    · rw [copyAll_of_ne fun j hj => (hk j hj).2]
      exact Function.update_self _ _ _
    · rw [ih hks hi]
      exact Function.update_of_ne (hk i hi).1.symm _ _

/-- Four bytes that are copied one after the other, to another place. -/
theorem copyAll_word (hsrc : src < wordMod) (hdst : dst < wordMod) (hsrc4 : src % 4 = 0) (hdst4 : dst % 4 = 0)
    (hne : src ≠ dst) :
    copyAll A src dst [0, 1, 2, 3] x = if x / 4 = dst / 4 then A (src + x % 4) else A x := by
  have hs : ∀ i < 4, addW src i = src + i := fun i hi => (addW_aligned hsrc (by omega) hsrc4 hi).1
  have hd : ∀ i < 4, addW dst i = dst + i := fun i hi => (addW_aligned hdst (by omega) hdst4 hi).1
  have hfour : ∀ i ∈ [0, 1, 2, 3], i < 4 := by decide
  by_cases hin : x / 4 = dst / 4
  · rw [if_pos hin]
    have hmem : x % 4 ∈ [0, 1, 2, 3] := by
      have := Nat.mod_lt x (show 0 < 4 by omega)
      interval_cases x % 4 <;> decide
    have hx : addW dst (x % 4) = x := by
      rw [hd _ (hfour _ hmem)]
      omega
    have hpair : [0, 1, 2, 3].Pairwise fun i j => addW dst i ≠ addW src j ∧ addW dst i ≠ addW dst j := by
      have hnodup : [0, 1, 2, 3].Pairwise (· ≠ ·) := by decide
      refine hnodup.imp_of_mem fun hi hj hij => ?_
      rw [hd _ (hfour _ hi), hd _ (hfour _ hj), hs _ (hfour _ hj)]
      have := hfour _ hi
      have := hfour _ hj
      omega
    have hall := copyAll_of_mem (A := A) hpair hmem
    rwa [hx, hs _ (hfour _ hmem)] at hall
  · rw [if_neg hin]
    refine copyAll_of_ne fun i hi => ?_
    rw [hd i (hfour i hi)]
    have := hfour i hi
    omega

/-- **Four bytes** are copied, with the V bits of those that are partly defined. -/
theorem copyWord_spec (h : s.Rep A) (hsrc : src < wordMod) (hdst : dst < wordMod) (hsrc4 : src % 4 = 0)
    (hdst4 : dst % 4 = 0) (hne : src ≠ dst) :
    Returns al (copyWord al s src dst) fun s' =>
      s'.Rep (copyAll A src dst [0, 1, 2, 3]) ∧ s'.errors = s.errors := by
  obtain ⟨v8, maps₁, hget, hq, hv8⟩ := getVabits8ForAlignedWord32_spec h.inv hsrc
  unfold copyWord
  rw [hget, ok_bind]
  refine (setVabits8ForAlignedWord32_spec hq.inv hdst v8).bind fun maps₂ hshows => ?_
  have hs : ∀ i < 4, addW src i = src + i ∧ src + i < wordMod := fun i hi => addW_aligned hsrc (by omega) hsrc4 hi
  have hd : ∀ i < 4, addW dst i = dst + i := fun i hi => (addW_aligned hdst (by omega) hdst4 hi).1
  have hfour : ∀ i ∈ [0, 1, 2, 3], i < 4 := by decide
  have hat : ∀ i < 4, extractVabits2FromVabits8 i v8 = compress (A (src + i)) := by
    intro i hi
    rw [← h.state _ (hs i hi).2, ← hv8 (src + i) (by omega)]
    exact extract_congr (by omega)
  have hcopy : ∀ y, copyAll A src dst [0, 1, 2, 3] y = if y / 4 = dst / 4 then A (src + y % 4) else A y :=
    fun y => copyAll_word hsrc hdst hsrc4 hdst4 hne
  have hex : Shadow.RepExcept { s with maps := maps₂ } (copyAll A src dst [0, 1, 2, 3]) fun x => x / 4 = dst / 4 := by
    refine h.setStates (hshows.mono fun y hy => ?_) fun y _ hy => by rw [hcopy, if_neg hy]
    rw [hcopy]
    by_cases hin : y / 4 = dst / 4
    · rw [if_pos hin, if_pos hin, ← hat _ (Nat.mod_lt y (by omega))]
      exact extract_congr (by omega)
    · rw [if_neg hin, if_neg hin, hq.vabits2At, h.state y hy]
  split
  · -- all four bytes are in the same state, and not partly defined
    rename_i hsame
    refine .of_ok ⟨⟨hex.inv, hex.nodes, hex.state, fun y hy hp => ?_⟩, rfl⟩
    refine hex.entry y hy (fun hin => ?_) hp
    rw [hcopy, if_pos hin, ← hat _ (Nat.mod_lt y (by omega))] at hp
    rcases hsame with h8 | h8 | h8
    · rw [vabits8_eq_iff (v := vaBits2Defined) |>.mp h8] at hp
      exact absurd hp (by decide)
    · rw [vabits8_eq_iff (v := vaBits2Undefined) |>.mp h8] at hp
      exact absurd hp (by decide)
    · rw [vabits8_eq_iff (v := vaBits2Noaccess) |>.mp h8] at hp
      exact absurd hp (by decide)
  · obtain ⟨s', hrun, hrep, herr⟩ := copySecVbits_spec src dst [0, 1, 2, 3] hex
      (fun k hk => by rw [(hs k (hfour k hk)).1]; have := hfour k hk; omega) fun k hk => by
        have hk4 := hfour k hk
        rw [hd k hk4, (hs k hk4).1, hcopy, hcopy, if_pos (by omega), if_neg (by omega)]
        congr 1
        omega
    dsimp only
    rw [hrun]
    refine .of_ok ⟨hrep.rep fun y hy => ?_, herr⟩
    have hy4 := Nat.mod_lt y (show 0 < 4 by omega)
    refine hy.2 (y % 4) (by interval_cases y % 4 <;> decide) ?_
    rw [hd _ hy4]
    have := hy.1
    omega

/-- **Loops**: if every iteration returns and is matched by an abstract one, so does the
loop. -/
theorem Returns.foldlM {σ τ ι : Type} {step : σ → ι → Result σ} {astep : τ → ι → τ} {R : σ → τ → Prop}
    {is : List ι} (hstep : ∀ i ∈ is, ∀ s A, R s A → Returns al (step s i) fun s' => R s' (astep A i))
    {s : σ} {A : τ} (h : R s A) : Returns al (is.foldlM step s) fun s' => R s' (is.foldl astep A) := by
  induction is generalizing s A with
  | nil => exact .of_ok h
  | cons i is ih =>
    rw [List.foldlM_cons]
    refine (hstep i (by simp) s A h).bind fun s₁ h₁ => ?_
    exact ih (fun j hj => hstep j (by simp [hj])) h₁

theorem addW_ne_addW (hsrc : src < wordMod) (hdst : dst < wordMod) (hne : src ≠ dst) (i : Nat) :
    addW src i ≠ addW dst i := by
  unfold addW
  rcases wordMod_cases with hw | hw <;> rw [hw] at hsrc hdst ⊢ <;> omega

/-- What stays the same, apart from what is remembered. -/
def Remembers (e : List AddressError) (s : Shadow) (A : VBits) : Prop := s.Rep A ∧ s.errors = e

theorem copyBytes_spec (h : s.Rep A) (hsrc : src < wordMod) (hdst : dst < wordMod) (hne : src ≠ dst)
    (is : List Nat) :
    Returns al (copyBytes al src dst is s) fun s' => Remembers s.errors s' (copyAll A src dst is) := by
  refine Returns.foldlM (fun i _ s₁ A₁ h₁ => ?_) ⟨h, rfl⟩
  refine (copyByte_spec h₁.1 (addW_lt _ _) (addW_lt _ _) (addW_ne_addW hsrc hdst hne i)).mono ?_
  exact fun s' hs' => ⟨hs'.1, hs'.2.trans h₁.2⟩

theorem copyAll_append (is js : List Nat) :
    copyAll A src dst (is ++ js) = copyAll (copyAll A src dst is) src dst js :=
  List.foldl_append

/-- Words that are copied one after the other are bytes that are copied one after the
other. -/
theorem foldl_copyAll_word (n : Nat) :
    ((List.range n).map (4 * ·)).foldl (fun A i => copyAll A (addW src i) (addW dst i) [0, 1, 2, 3]) A =
      copyAll A src dst (List.range (4 * n)) := by
  induction n with
  | zero => rfl
  | succ n ih =>
    rw [List.range_succ, List.map_append, List.foldl_append, ih]
    rw [show 4 * (n + 1) = 4 * n + 1 + 1 + 1 + 1 by omega]
    simp only [List.range_succ, List.append_assoc, copyAll_append]
    simp only [copyAll, List.map_cons, List.map_nil, List.foldl_cons, List.foldl_nil, addW_addW,
      List.cons_append, List.nil_append, Nat.add_zero, Nat.add_assoc]

theorem copyWords_spec (h : s.Rep A) (hsrc : src < wordMod) (hdst : dst < wordMod) (hne : src ≠ dst)
    (hsrc4 : src % 4 = 0) (hdst4 : dst % 4 = 0) (n : Nat) :
    Returns al (copyWords al src dst ((List.range n).map (4 * ·)) s)
      fun s' => Remembers s.errors s' (copyAll A src dst (List.range (4 * n))) := by
  rw [← foldl_copyAll_word]
  refine Returns.foldlM (fun i hi s₁ A₁ h₁ => ?_) ⟨h, rfl⟩
  obtain ⟨k, -, rfl⟩ := List.mem_map.mp hi
  have halign : ∀ {b : Nat}, b % 4 = 0 → addW b (4 * k) % 4 = 0 := by
    intro b hb
    rw [addW_mod 4 (.inl rfl)]
    omega
  refine (copyWord_spec h₁.1 (addW_lt _ _) (addW_lt _ _) (halign hsrc4) (halign hdst4)
    (addW_ne_addW hsrc hdst hne _)).mono ?_
  exact fun s' hs' => ⟨hs'.1, hs'.2.trans h₁.2⟩

/-- What a copy of a range is meant to do: the bytes are copied one after the other, from the
upper end down if the range moves up and may overlap. -/
def copyRange (A : VBits) (src dst len : Nat) : VBits :=
  if len = 0 ∨ src = dst then A
  else if src < dst ∧ ¬ ((addW src len ≤ dst ∨ addW dst len ≤ src) ∧ src % 4 = 0 ∧ dst % 4 = 0)
  then copyAll A src dst (List.range len).reverse
  else copyAll A src dst (List.range len)

/-- **`MC_(copy_address_range_state)`** copies what is remembered of a range. -/
theorem copyAddressRangeState_spec (h : s.Rep A) (hsrc : src < wordMod) (hdst : dst < wordMod) (len : Nat) :
    Returns al (copyAddressRangeState al s src dst len)
      fun s' => Remembers s.errors s' (copyRange A src dst len) := by
  unfold copyAddressRangeState copyRange
  by_cases htriv : len = 0 ∨ src = dst
  · rw [if_pos htriv, if_pos htriv]
    exact .of_ok ⟨h, rfl⟩
  rw [if_neg htriv, if_neg htriv]
  have hne : src ≠ dst := fun he => htriv (.inr he)
  dsimp only
  by_cases hfast : (addW src len ≤ dst ∨ addW dst len ≤ src) ∧ src % 4 = 0 ∧ dst % 4 = 0
  · rw [if_pos hfast, if_neg fun hc => hc.2 hfast]
    refine (copyWords_spec h hsrc hdst hne hfast.2.1 hfast.2.2 (len / 4)).bind fun s₁ h₁ => ?_
    refine (copyBytes_spec h₁.1 hsrc hdst hne _).mono fun s' hs' => ⟨?_, hs'.2.trans h₁.2⟩
    have hrange : List.range len = List.range (4 * (len / 4)) ++ List.range' (len / 4 * 4) (len % 4) := by
      rw [List.range_eq_range', List.range_eq_range', Nat.mul_comm 4]
      have happ : List.range' 0 (len / 4 * 4) 1 ++ List.range' (0 + 1 * (len / 4 * 4)) (len % 4) 1 = _ :=
        List.range'_append
      rw [Nat.one_mul, Nat.zero_add] at happ
      rw [happ]
      congr 1
      omega
    rw [hrange, copyAll_append]
    exact hs'.1
  · rw [if_neg hfast]
    by_cases hup : src < dst
    · rw [if_pos hup, if_pos ⟨hup, hfast⟩]
      refine (copyBytes_spec h hsrc hdst hne _).bind fun s' hs' => ?_
      rw [if_neg (by omega)]
      exact .of_ok hs'
    · rw [if_neg hup, if_neg fun hc => hup hc.1, pure_bind, if_pos (by omega)]
      exact copyBytes_spec h hsrc hdst hne _

/-! ## Marking -/

/-- Store V bits into the addressable bytes of a range. -/
def storeRange (A : VBits) (a len : Nat) (w : Nat → BitVec 8) : VBits := fun x =>
  if subW x a < len ∧ (A x).isSome then some (w (subW x a)) else A x

/-- One byte after the other. -/
theorem foldl_storeByte {w : Nat → BitVec 8} (ha : a < wordMod) {n : Nat} (hn : n ≤ wordMod) (hx : x < wordMod) :
    (List.range n).foldl (fun A i => storeByte A (addW a i) (w i)) A x = storeRange A a n w x := by
  induction n generalizing x with
  | zero => simp [storeRange]
  | succ n ih =>
    have ih : ∀ {y}, y < wordMod → (List.range n).foldl (fun A i => storeByte A (addW a i) (w i)) A y =
        storeRange A a n w y := fun hy => ih (by omega) hy
    rw [List.range_succ, List.foldl_append, List.foldl_cons, List.foldl_nil]
    have hself : subW (addW a n) a = n := subW_addW ha (by omega)
    have hcur : (List.range n).foldl (fun A i => storeByte A (addW a i) (w i)) A (addW a n) = A (addW a n) := by
      rw [ih (addW_lt _ _), storeRange, hself, if_neg (by omega)]
    have hiff : x = addW a n ↔ subW x a = n := by
      constructor
      · rintro rfl
        exact hself
      · rintro rfl
        exact (addW_subW ha hx).symm
    generalize (List.range n).foldl (fun A i => storeByte A (addW a i) (w i)) A = B at ih hcur
    rw [storeByte, hcur]
    by_cases hxa : x = addW a n
    · have hnew : storeRange A a (n + 1) w x = if (A x).isSome then some (w n) else A x := by
        unfold storeRange
        rw [hiff.mp hxa]
        exact if_congr (by simp) rfl rfl
      rw [hnew, ← hxa]
      by_cases hsome : (A x).isSome
      · rw [if_pos hsome, if_pos hsome, Function.update_self]
      · rw [if_neg hsome, if_neg hsome, hxa]
        exact hcur
    · have hsame : storeRange A a (n + 1) w x = storeRange A a n w x := by
        have hne : subW x a ≠ n := fun he => hxa (hiff.mpr he)
        unfold storeRange
        refine if_congr ?_ rfl rfl
        constructor
        · rintro ⟨hlt, hsome⟩
          exact ⟨by omega, hsome⟩
        · rintro ⟨hlt, hsome⟩
          exact ⟨by omega, hsome⟩
      rw [hsame, ← ih hx]
      split
      · rw [Function.update_of_ne hxa]
      · rfl

/-- **`make_mem_defined_if_addressable`** makes the addressable bytes of a range defined. -/
theorem makeMemDefinedIfAddressable_spec (h : s.Rep A) (ha : a < wordMod) (hlen : len < wordMod) :
    Returns al (makeMemDefinedIfAddressable al s a len)
      fun s' => Remembers s.errors s' (storeRange A a len fun _ => vBits8Defined) := by
  have hloop : Returns al (makeMemDefinedIfAddressable al s a len) fun s' => Remembers s.errors s'
      ((List.range len).foldl (fun A i => storeByte A (addW a i) vBits8Defined) A) := by
    refine Returns.foldlM (fun i _ s₁ A₁ h₁ => ?_) ⟨h, rfl⟩
    obtain ⟨maps', hget, hq⟩ := getVabits2_spec h₁.1.inv (addW_lt a i)
    rw [hget, ok_bind, h₁.1.state _ (addW_lt a i)]
    dsimp only
    unfold storeByte
    by_cases hno : A₁ (addW a i) = none
    · rw [if_neg (by rw [hno]; simp [compress]), hno]
      exact .of_ok ⟨h₁.1.quiet hq, h₁.2⟩
    · have hsome : (A₁ (addW a i)).isSome = true := Option.isSome_iff_ne_none.mpr hno
      rw [if_pos fun he => hno (compress_eq_noaccess.mp he.symm), if_pos hsome]
      refine (setVabits2_spec hq.inv (addW_lt a i) vaBits2Defined).bind fun maps₂ hshows => .of_ok ⟨?_, h₁.2⟩
      exact h₁.1.update { s₁ with maps := maps' } (addW_lt a i) (o := some vBits8Defined) hshows hq h₁.1.nodes
        (fun hp => absurd hp (by decide)) fun _ _ _ _ _ hw => hw
  exact hloop.mono fun s' hs' => ⟨hs'.1.congr fun x hx => foldl_storeByte ha (by omega) hx, hs'.2⟩

/-! ## Client requests -/

variable {vbits szB : Nat} {mem : Nat → BitVec 8}

theorem bothAddressable_spec {is : List Nat} (h : s.Rep A) :
    ∃ maps', bothAddressable a vbits is s.maps =
        .ok (decide (∀ i ∈ is, (A (addW a i)).isSome ∧ (A (addW vbits i)).isSome), maps') ∧
      Quiet s.maps maps' := by
  induction is generalizing s with
  | nil => exact ⟨s.maps, rfl, .refl h.inv⟩
  | cons i is ih =>
    have hsee : ∀ {y : Nat}, vaBits2Noaccess = compress (A y) ↔ A y = none := fun {y} => by
      rw [eq_comm, compress_eq_noaccess]
    obtain ⟨maps₁, hget₁, hq₁⟩ := getVabits2_spec h.inv (addW_lt a i)
    have h₁ := h.quiet hq₁
    obtain ⟨maps₂, hget₂, hq₂⟩ := getVabits2_spec h₁.inv (addW_lt vbits i)
    have h₂ := h₁.quiet hq₂
    obtain ⟨maps₃, hrest, hq₃⟩ := ih h₂
    dsimp only at hget₂ hrest
    rw [bothAddressable, hget₁, ok_bind, h.state _ (addW_lt a i)]
    dsimp only
    by_cases ha : A (addW a i) = none
    · rw [if_pos (hsee.mpr ha)]
      exact ⟨maps₁, by simp [ha, pure, Except.pure], hq₁⟩
    rw [if_neg fun hc => ha (hsee.mp hc), hget₂, ok_bind, h₁.state _ (addW_lt vbits i)]
    dsimp only
    by_cases hv : A (addW vbits i) = none
    · rw [if_pos (hsee.mpr hv)]
      exact ⟨maps₂, by simp [hv, pure, Except.pure], hq₁.trans hq₂⟩
    rw [if_neg fun hc => hv (hsee.mp hc), hrest]
    refine ⟨maps₃, ?_, (hq₁.trans hq₂).trans hq₃⟩
    have hsome : (A (addW a i)).isSome ∧ (A (addW vbits i)).isSome :=
      ⟨Option.isSome_iff_ne_none.mpr ha, Option.isSome_iff_ne_none.mpr hv⟩
    simp [hsome]

/-- Both arrays of a request for V bits are addressable. -/
def VbitsAddressable (A : VBits) (a vbits szB : Nat) : Prop :=
  ∀ i ∈ List.range szB, (A (addW a i)).isSome ∧ (A (addW vbits i)).isSome

instance : Decidable (VbitsAddressable A a vbits szB) :=
  inferInstanceAs (Decidable (∀ i ∈ List.range szB, (A (addW a i)).isSome ∧ (A (addW vbits i)).isSome))

omit [Machine] in
theorem isSome_storeByte {v : BitVec 8} (h : (A x).isSome) : (storeByte A a v x).isSome := by
  unfold storeByte
  split
  · by_cases hxa : x = a
    · rw [hxa, Function.update_self]
      rfl
    · rwa [Function.update_of_ne hxa]
  · exact h

theorem setVbitsLoop_spec (h : s.Rep A) (ha : a < wordMod) (hszB : szB < wordMod)
    (hok : VbitsAddressable A a vbits szB) :
    Returns al (setVbitsLoop al mem a vbits (List.range szB) s) fun s' =>
      Remembers s.errors s' (storeRange A a szB fun i => mem (addW vbits i)) := by
  -- bytes that are addressable stay so
  have hloop : Returns al (setVbitsLoop al mem a vbits (List.range szB) s) fun s' =>
      (fun s' A' => Remembers s.errors s' A' ∧ ∀ i ∈ List.range szB, (A' (addW a i)).isSome) s'
        ((List.range szB).foldl (fun A i => storeByte A (addW a i) (mem (addW vbits i))) A) := by
    refine Returns.foldlM (R := fun s' A' => Remembers s.errors s' A' ∧ ∀ i ∈ List.range szB, (A' (addW a i)).isSome)
      (fun i hi s₁ A₁ h₁ => ?_) ⟨⟨h, rfl⟩, fun i hi => (hok i hi).1⟩
    refine (setVbits8_spec h₁.1.1 (addW_lt a i) _).bind fun (ok, s₂) ⟨hok₂, hrep, herr⟩ => ?_
    rw [h₁.2 i hi] at hok₂
    dsimp only
    rw [assertThat_of hok₂, ok_bind]
    exact .of_ok ⟨⟨hrep, herr.trans h₁.1.2⟩, fun j hj => isSome_storeByte (h₁.2 j hj)⟩
  refine hloop.mono fun s' hs' => ⟨hs'.1.1.congr fun x hx => ?_, hs'.1.2⟩
  exact foldl_storeByte (w := fun i => mem (addW vbits i)) ha (by omega) hx

theorem getVbitsLoop_spec (vbits : Nat) (mem : Nat → BitVec 8) {is : List Nat} (h : s.Rep A) (hok : ∀ i ∈ is, (A (addW a i)).isSome) :
    ∃ maps', getVbitsLoop a vbits is mem s =
        .ok (is.foldl (fun mem i => Function.update mem (addW vbits i) ((A (addW a i)).getD vBits8Defined)) mem,
          { s with maps := maps' }) ∧ Quiet s.maps maps' := by
  induction is generalizing s mem with
  | nil => exact ⟨s.maps, rfl, .refl h.inv⟩
  | cons i is ih =>
    obtain ⟨hi, his⟩ := List.forall_mem_cons.mp hok
    obtain ⟨maps₁, hget, hq₁⟩ := getVbits8_spec h (addW_lt a i)
    obtain ⟨maps₂, hrest, hq₂⟩ := ih
      (Function.update mem (addW vbits i) ((A (addW a i)).getD vBits8Defined)) (h.quiet hq₁) his
    refine ⟨maps₂, ?_, hq₁.trans hq₂⟩
    rw [getVbitsLoop, hget, ok_bind]
    dsimp only
    rw [assertThat_of hi, ok_bind, hrest]
    rfl

/-- What a request for V bits is meant to do to the V bits: set them, or make the array into
which they are written defined. -/
def clientVbits (A : VBits) (mem : Nat → BitVec 8) (a vbits szB : Nat) (setting : Bool) : VBits :=
  if VbitsAddressable A a vbits szB then
    if setting then storeRange A a szB fun i => mem (addW vbits i)
    else paint A vbits szB (some vBits8Defined)
  else A

/-- **`mc_get_or_set_vbits_for_client`**: none of its assertions fails. -/
theorem getOrSetVbitsForClient_spec (h : s.Rep A) (ha : a < wordMod) (hvbits : vbits < wordMod)
    (hszB : szB < wordMod) (setting : Bool) :
    Returns al (getOrSetVbitsForClient al s mem a vbits szB setting) fun (res, _, s') =>
      (res = 1 ↔ VbitsAddressable A a vbits szB) ∧
        Remembers s.errors s' (clientVbits A mem a vbits szB setting) := by
  obtain ⟨maps₁, hboth, hq₁⟩ : ∃ maps', bothAddressable a vbits (List.range szB) s.maps =
      .ok (decide (VbitsAddressable A a vbits szB), maps') ∧ Quiet s.maps maps' := bothAddressable_spec h
  have h₁ := h.quiet hq₁
  unfold getOrSetVbitsForClient clientVbits
  rw [hboth, ok_bind]
  dsimp only
  by_cases hok : VbitsAddressable A a vbits szB
  · rw [if_pos hok, if_neg fun hc => of_decide_eq_false hc hok]
    cases setting with
    | true =>
      refine (setVbitsLoop_spec h₁ ha hszB hok).bind fun s' hs' => .of_ok ⟨by simp [hok], hs'⟩
    | false =>
      obtain ⟨maps₂, hget, hq₂⟩ := getVbitsLoop_spec vbits mem h₁ fun i hi => (hok i hi).1
      have h₂ := h₁.quiet hq₂
      rw [if_neg (by simp), if_neg (by simp), hget, ok_bind]
      refine (makeMem_spec .defined h₂.inv hvbits hszB).bind fun maps₃ hshows => .of_ok ⟨by simp [hok], ?_⟩
      exact ⟨h₂.paint (o := some vBits8Defined) (by decide) hshows, rfl⟩
  · rw [if_neg hok, if_pos (decide_eq_false hok)]
    exact .of_ok ⟨by simp [hok], h₁, rfl⟩

end

end Memcheck

end Valgrind
