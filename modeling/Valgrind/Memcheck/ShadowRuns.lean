import Valgrind.Memcheck.Copy

/-!
# Runs of the shadow memory (`mc_main.c`)

All operations of the shadow memory as steps of one transition system, and what each of them
is meant to do to the V bits that are remembered. `shadow_run` is the result: whatever the
sequence of operations, the distinguished secondary maps stay as they are, no other secondary
map is installed at two places, and each byte that is partly defined has an entry in
`secVBitTable` with the V bits that were last stored for it.
-/

namespace Valgrind

namespace Memcheck

section

variable [Machine]

open Machine

/-- `Addr`, `SizeT` and `UWord`. -/
abbrev UWord := Fin wordMod

/-- An operation on the shadow memory, with its arguments. -/
inductive ShadowOp where
  /-- `MC_(make_mem_noaccess)`, `MC_(make_mem_undefined_w_otag)`, `MC_(make_mem_defined)`. -/
  | makeMem (perm : Perm) (a len : UWord)
  | makeMemDefinedIfAddressable (a len : UWord)
  /-- `MC_(helperc_LOADV...)`, with `--partial-loads-ok`. -/
  | loadv (partialLoadsOk : Bool) (sz : VSize) (bigendian : Bool) (a : UWord)
  /-- `MC_(helperc_STOREV...)`. -/
  | storev (sz : VSize) (bigendian : Bool) (a : UWord) (vbits : BitVec 64)
  | copyAddressRangeState (src dst len : UWord)
  /-- `mc_new_mem_stack_4` and the like. -/
  | newMemStackN (k : StackAmount) (newSP : UWord)
  /-- `mc_die_mem_stack_4` and the like. -/
  | dieMemStackN (k : StackAmount) (newSP : UWord)
  | newMemStack (a len : UWord)
  | dieMemStack (a len : UWord)
  | makeStackUninit (base len : UWord)
  /-- `mc_get_or_set_vbits_for_client`, with the client's memory at that time. -/
  | getOrSetVbits (mem : Nat → BitVec 8) (a vbits szB : UWord) (setting : Bool)

/-- An operation on the secondary maps only. -/
def onMaps (s : Shadow) (f : SecMaps → Result SecMaps) : Result Shadow := do
  let maps ← f s.maps
  pure { s with maps }

/-- Run one operation. `redzone` is `VG_STACK_REDZONE_SZB`. -/
def shadowStep (al : ShadowAlloc) (redzone : Nat) (s : Shadow) : ShadowOp → Result Shadow
  | .makeMem perm a len => onMaps s fun maps => makeMem al perm maps a len
  | .makeMemDefinedIfAddressable a len => makeMemDefinedIfAddressable al s a len
  | .loadv plo sz be a => do
    let (_, s) ← helpercLOADV plo sz be s a
    pure s
  | .storev sz be a v => helpercSTOREV al sz be s a v
  | .copyAddressRangeState src dst len => copyAddressRangeState al s src dst len
  | .newMemStackN k newSP => onMaps s fun maps => newMemStackN al redzone k.newWords maps newSP
  | .dieMemStackN k newSP => onMaps s fun maps => dieMemStackN al redzone k.dieWords k.dieTest maps newSP
  | .newMemStack a len => onMaps s fun maps => makeMemUndefined al maps (subW a redzone) len
  | .dieMemStack a len => onMaps s fun maps => makeMemNoaccess al maps (subW a redzone) len
  | .makeStackUninit base len => onMaps s fun maps => helpercMakeStackUninit al maps base len
  | .getOrSetVbits mem a vbits szB setting => do
    let (_, _, s) ← getOrSetVbitsForClient al s mem a vbits szB setting
    pure s

/-- What is remembered of a byte after its state has been set. -/
def Perm.vbits : Perm → Option (BitVec 8)
  | noaccess => none
  | undefined => some vBits8Undefined
  | defined => some vBits8Defined

/-- What an operation is meant to do to what is remembered. -/
def shadowMeans (redzone : Nat) (A : VBits) : ShadowOp → VBits
  | .makeMem perm a len => paint A a len perm.vbits
  | .makeMemDefinedIfAddressable a len => storeRange A a len fun _ => vBits8Defined
  | .loadv _ _ _ _ => A
  | .storev sz be a v => storeV A a sz.szB be v
  | .copyAddressRangeState src dst len => copyRange A src dst len
  | .newMemStackN k newSP => paint A (subW newSP redzone) k.newWords.len (some vBits8Undefined)
  | .dieMemStackN k newSP =>
    paint A (subW (subW newSP redzone) k.dieWords.len) k.dieWords.len none
  | .newMemStack a len => paint A (subW a redzone) len (some vBits8Undefined)
  | .dieMemStack a len => paint A (subW a redzone) len none
  | .makeStackUninit base len => paint A base len (some vBits8Undefined)
  | .getOrSetVbits mem a vbits szB setting => clientVbits A mem a vbits szB setting

/-- The operations that stop at an assertion of their own: the red zone wraps around. -/
def ShadowOp.wraps : ShadowOp → Prop
  | .makeStackUninit base len => RedzoneWraps base len
  | _ => False

variable {al : ShadowAlloc} {redzone : Nat} {s : Shadow} {A : VBits}

theorem Perm.compress_vbits (perm : Perm) : compress perm.vbits = perm.vabits2 := by
  cases perm <;> rfl

theorem onMaps_spec {f : SecMaps → Result SecMaps} {a len : Nat} (perm : Perm) (h : s.Rep A)
    (hf : Returns al (f s.maps) fun maps' => Shows maps' (paint (vabits2At s.maps) a len perm.vabits2)) :
    Returns al (onMaps s f) fun s' => s'.Rep (paint A a len perm.vbits) := by
  refine hf.bind fun maps' hshows => .of_ok (h.paint ?_ ?_)
  · rw [perm.compress_vbits]
    exact Perm.vabits2_ne
  · rw [perm.compress_vbits]
    exact hshows

/-- **One operation** does what it is meant to do. -/
theorem shadowStep_spec (redzone : Nat) (h : s.Rep A) (op : ShadowOp) (hwrap : ¬ op.wraps) :
    Returns al (shadowStep al redzone s op) fun s' => s'.Rep (shadowMeans redzone A op) := by
  cases op with
  | makeMem perm a len =>
    simp only [shadowStep, shadowMeans]
    refine onMaps_spec perm h ?_
    exact makeMem_spec _ h.inv a.isLt len.isLt
  | makeMemDefinedIfAddressable a len =>
    exact (makeMemDefinedIfAddressable_spec h a.isLt len.isLt).mono fun s' hs' => hs'.1
  | loadv plo sz be a =>
    obtain ⟨⟨v, s'⟩, hload, hl⟩ := loadv_spec plo be h a.isLt sz
    rw [shadowStep, hload, ok_bind]
    exact .of_ok hl.rep
  | storev sz be a v => exact (storev_spec h a.isLt sz v).mono fun s' hs' => hs'.rep
  | copyAddressRangeState src dst len =>
    exact (copyAddressRangeState_spec h src.isLt dst.isLt len).mono fun s' hs' => hs'.1
  | newMemStackN k newSP =>
    simp only [shadowStep, shadowMeans]
    refine onMaps_spec .undefined h ?_
    exact newMemStackN_spec h.inv k newSP
  | dieMemStackN k newSP =>
    simp only [shadowStep, shadowMeans]
    refine onMaps_spec .noaccess h ?_
    exact dieMemStackN_spec h.inv k newSP
  | newMemStack a len =>
    simp only [shadowStep, shadowMeans]
    refine onMaps_spec .undefined h ?_
    exact makeMem_spec _ h.inv (subW_lt _ _) len.isLt
  | dieMemStack a len =>
    simp only [shadowStep, shadowMeans]
    refine onMaps_spec .noaccess h ?_
    exact makeMem_spec _ h.inv (subW_lt _ _) len.isLt
  | makeStackUninit base len =>
    simp only [shadowStep, shadowMeans]
    refine onMaps_spec .undefined h ?_
    exact helpercMakeStackUninit_spec h.inv base.isLt len.isLt hwrap
  | getOrSetVbits mem a vbits szB setting =>
    refine (getOrSetVbitsForClient_spec h a.isLt vbits.isLt szB.isLt setting).bind ?_
    rintro ⟨res, mem', s'⟩ ⟨-, hs'⟩
    exact .of_ok hs'.1

/-- A red zone that wraps around stops at the assertion that compares its ends. -/
theorem shadowStep_wraps (op : ShadowOp) (hwrap : op.wraps) :
    shadowStep al redzone s op = .error .assertFailed := by
  cases op with
  | makeStackUninit base len =>
    obtain ⟨hlen, halign, hlt⟩ := hwrap
    have hbase := base.isLt
    have hstop : makeRedzoneUninit al s.maps base len = .error .assertFailed := by
      have hend : addW base (len - 1) ≤ base := by
        rw [addW_of_ge hbase (by rcases hlen with h | h <;> rw [h] <;> exact lt_wordMod (by omega)) (by omega)]
        omega
      unfold makeRedzoneUninit assertThat
      dsimp only
      rw [if_neg (show ¬ (base : Nat) < addW base (len - 1) by omega)]
      rfl
    have hrun : helpercMakeStackUninit al s.maps base len = .error .assertFailed := by
      unfold helpercMakeStackUninit
      rcases hlen with h | h
      · rw [h] at hstop ⊢
        rw [if_pos ⟨rfl, halign⟩, hstop]
        rfl
      · rw [h] at hstop ⊢
        rw [if_neg fun hc => absurd hc.1 (by omega), pure_bind]
        dsimp only
        rw [if_pos ⟨rfl, halign⟩, hstop]
        rfl
    rw [shadowStep, onMaps, hrun]
    rfl
  | _ => exact hwrap.elim

/-! ## Runs -/

/-- What holds of the shadow memory after every run. -/
structure ShadowOk (s : Shadow) (A : VBits) : Prop where
  /-- The V bits are those that were last stored. -/
  rep : s.Rep A
  /-- The distinguished secondary maps have not changed. -/
  distinguished : ∀ sm ≤ smDistDefined, ∀ i, s.maps.contents sm i = initSecMaps.contents sm i
  /-- No other secondary map is installed at two places. -/
  once : ∀ c < wordMod / 65536, ∀ c' < wordMod / 65536, smDistDefined < installed s.maps c →
    installed s.maps c = installed s.maps c' → c = c'
  count : numInstalled s.maps = s.maps.nIssuedSMs - s.maps.nDeissuedSMs
  /-- A byte that is partly defined has an entry, on which `get_sec_vbits8` does not fail. -/
  entry : ∀ x < wordMod, vabits2At s.maps x = vaBits2Partdefined → ∃ v, entryAt s x = some v ∧
    v ≠ vBits8Defined ∧ v ≠ vBits8Undefined ∧ A x = some v ∧ getSecVbits8 s x = .ok v

theorem Shadow.Rep.ok (h : s.Rep A) : ShadowOk s A := by
  refine ⟨h, fun sm hsm i => ?_, h.inv.once, h.inv.count, fun x hx hp => ?_⟩
  · rw [h.inv.distinguished sm hsm i, initSecMaps_inv.distinguished sm hsm i]
  · rw [h.state x hx] at hp
    obtain ⟨v, hget, hv⟩ := getSecVbits8_spec h hx hp
    rw [hv] at hp
    obtain ⟨hdef, hundef⟩ := compress_eq_partdefined.mp hp
    refine ⟨v, ?_, hdef, hundef, hv, hget⟩
    rw [h.entry x hx (by rw [hv, hp]), hv]

/-- **The shadow memory keeps its representation.** After every sequence of operations that
returns, the state represents the V bits last stored. A sequence does not return only if there
is no memory for a secondary map, or if a red zone wraps around. -/
theorem shadow_run (al : ShadowAlloc) (redzone : Nat) (ops : List ShadowOp) :
    (∃ s, runSteps (shadowStep al redzone) initShadowMemory ops = .ok s ∧
      ShadowOk s (ops.foldl (shadowMeans redzone) fun _ => none)) ∨
    (runSteps (shadowStep al redzone) initShadowMemory ops = .error .exit ∧
      ∃ mapped, al.alloc mapped = none) ∨
    (runSteps (shadowStep al redzone) initShadowMemory ops = .error .assertFailed ∧
      ∃ op ∈ ops, op.wraps) := by
  suffices hgen : ∀ {s : Shadow} {A : VBits}, s.Rep A →
      Returns al (runSteps (shadowStep al redzone) s ops)
        (fun s' => s'.Rep (ops.foldl (shadowMeans redzone) A)) ∨
      runSteps (shadowStep al redzone) s ops = .error .assertFailed ∧ ∃ op ∈ ops, op.wraps by
    rcases hgen initShadowMemory_rep with (⟨s, hrun, hrep⟩ | hexit) | hwrap
    · exact .inl ⟨s, hrun, hrep.ok⟩
    · exact .inr (.inl hexit)
    · exact .inr (.inr hwrap)
  induction ops with
  | nil => exact fun h => .inl (.of_ok h)
  | cons op ops ih =>
    intro s A h
    by_cases hwrap : op.wraps
    · refine .inr ⟨?_, op, by simp, hwrap⟩
      rw [runSteps, shadowStep_wraps op hwrap]
      rfl
    · rcases shadowStep_spec redzone h op hwrap with ⟨s₁, hrun₁, h₁⟩ | ⟨hexit, hnone⟩
      · rw [runSteps, hrun₁, ok_bind]
        rcases ih h₁ with hok | ⟨hstop, op', hmem, hw⟩
        · exact .inl hok
        · exact .inr ⟨hstop, op', by simp [hmem], hw⟩
      · refine .inl (.inr ⟨?_, hnone⟩)
        rw [runSteps, hexit]
        rfl

end

end Memcheck

end Valgrind
