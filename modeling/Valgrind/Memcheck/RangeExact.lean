import Valgrind.Memcheck.ShadowRuns

/-!
# Setting and copying ranges (`mc_main.c`)

`set_address_range_perms` cuts a range at the secondary maps and treats whole maps, words and
single bytes apart; `setAddressRangePerms_bytewise` says that it does what `set_vabits2` does
on one byte after the other.

`MC_(copy_address_range_state)` is to be a `memmove` of what is remembered. Its test for
overlap adds the length to the two addresses, and a range that ends with the last byte of the
address space has the sum 0. `copyAddressRangeState_exact` says when that does harm.
-/

namespace Valgrind

namespace Memcheck

section

variable [Machine]

open Machine

variable {al : ShadowAlloc} {s s₁ s₂ : SecMaps} {A : VBits} {a x len src dst : Nat} {v : BitVec 2}

theorem Returns.of_eq_ok {β : Type} {res : Result β} {right : β → Prop} {v : β} (h : Returns al res right)
    (hv : res = .ok v) : right v := by
  rcases h with ⟨v', hv', hr⟩ | ⟨hexit, -⟩
  · exact Except.ok.inj (hv'.symm.trans hv) ▸ hr
  · exact nomatch hexit.symm.trans hv

/-! ## `set_address_range_perms` -/

/-- The debug-only case of `set_address_range_perms`: `set_vabits2` on one byte after the other. -/
def setVabits2Range (al : ShadowAlloc) (s : SecMaps) (a lenT : Nat) (vabits2 : BitVec 2) : Result SecMaps :=
  (List.range lenT).foldlM (fun s i => setVabits2 al s (addW a i) vabits2) s

theorem setVabits2Range_spec (h : s.Inv) (ha : a < wordMod) (hlen : len ≤ wordMod) :
    Returns al (setVabits2Range al s a len v) fun s' => Shows s' (paint (vabits2At s) a len v) := by
  have hloop : Returns al (setVabits2Range al s a len v) fun s' =>
      Shows s' ((List.range len).foldl (fun f i => Function.update f (addW a i) v) (vabits2At s)) := by
    refine Returns.foldlM (fun i _ s f hs => ?_) (shows_self h)
    refine (setVabits2_spec hs.inv (addW_lt _ _) v).mono fun s' hs' => ⟨hs'.inv, fun x hx => ?_⟩
    rw [hs'.at_eq x hx]
    by_cases hxa : x = addW a i
    · rw [hxa, Function.update_self, Function.update_self]
    · rw [Function.update_of_ne hxa, Function.update_of_ne hxa, hs.at_eq x hx]
  refine hloop.mono fun s' hs' => hs'.mono fun x hx => ?_
  clear hloop hs'
  induction len with
  | zero => simp [paint]
  | succ n ih =>
    rw [List.range_succ, List.foldl_append, List.foldl_cons, List.foldl_nil]
    by_cases hxa : x = addW a n
    · subst hxa
      rw [Function.update_self, paint, subW_addW ha (by omega), if_pos (by omega)]
    · rw [Function.update_of_ne hxa, ih (by omega)]
      have hne : subW x a ≠ n := by
        rintro rfl
        exact hxa (addW_subW ha hx).symm
      exact if_congr (by omega) rfl rfl

/-- **`set_address_range_perms` is exact**: no assertion fails, all bytes of the range get the
state and no others, as if `set_vabits2` had been called for each. -/
theorem setAddressRangePerms_bytewise (al : ShadowAlloc) (s : SecMaps) (h : s.Inv) (a lenT : UWord) (vabits2 : BitVec 2)
    (hv : vabits2 ≠ vaBits2Partdefined) :
    Returns al (setAddressRangePerms al s a lenT (dup16 vabits2) vabits2.toNat) (fun s' => s'.Inv ∧
      ∀ x < wordMod, vabits2At s' x = if subW x a < lenT then vabits2 else vabits2At s x) ∧
    ∀ s₁ s₂, setAddressRangePerms al s a lenT (dup16 vabits2) vabits2.toNat = .ok s₁ →
      setVabits2Range al s a lenT vabits2 = .ok s₂ → ∀ x < wordMod, vabits2At s₁ x = vabits2At s₂ x := by
  have hspec : Returns al (setAddressRangePerms al s a lenT (dup16 vabits2) vabits2.toNat) _ :=
    setAddressRangePerms_spec h a.isLt lenT.isLt hv
  have hbytes : Returns al (setVabits2Range al s a lenT vabits2) _ := setVabits2Range_spec h a.isLt lenT.isLt.le
  refine ⟨hspec.mono fun s' hs' => ⟨hs'.inv, hs'.at_eq⟩, fun s₁ s₂ h₁ h₂ x hx => ?_⟩
  rw [(hspec.of_eq_ok h₁).at_eq x hx, (hbytes.of_eq_ok h₂).at_eq x hx]

end

/-- From startup, a range of 200 KB is made defined, from the middle of a chunk on. -/
theorem setAddressRangePerms_bytewise_startup :
    letI : Machine := amd64Linux
    ∃ s', setAddressRangePerms bumpAlloc initSecMaps 0x8001 0x32000 (dup16 vaBits2Defined) vaBits2Defined.toNat = .ok s' ∧
      s'.Inv ∧ ∀ x < wordMod,
        vabits2At s' x = if subW x 0x8001 < 0x32000 then vaBits2Defined else vabits2At initSecMaps x := by
  let _ : Machine := amd64Linux
  rcases (setAddressRangePerms_bytewise bumpAlloc initSecMaps initSecMaps_inv ⟨0x8001, by decide⟩ ⟨0x32000, by decide⟩
    vaBits2Defined (by decide)).1 with hok | ⟨-, mapped, hnone⟩
  · exact hok
  · exact nomatch hnone

section

variable [Machine]

open Machine

variable {al : ShadowAlloc} {A : VBits} {x len src dst : Nat}

/-! ## `MC_(copy_address_range_state)` -/

/-- A range is moved, as `memmove` does it. -/
def moveRange (A : VBits) (src dst len : Nat) : VBits :=
  fun x => if dst ≤ x ∧ x < dst + len then A (src + (x - dst)) else A x

/-- The ranges overlap, the target ends with the last byte of the address space, and the
vectorised loop takes them for disjoint. -/
def OverlapMissed (src dst len : Nat) : Prop :=
  src < dst ∧ dst < src + len ∧ dst + len = wordMod ∧ src % 4 = 0 ∧ dst % 4 = 0

instance (src dst len : Nat) : Decidable (OverlapMissed src dst len) := inferInstanceAs (Decidable (_ ∧ _))

/-- A loop that reads no byte after it has been written, and writes none twice. -/
theorem copyAll_eq_moveRange {is : List Nat} (hsrc : src + len ≤ wordMod) (hdst : dst + len ≤ wordMod) (hx : x < wordMod)
    (his : ∀ i, i ∈ is ↔ i < len) (hp : is.Pairwise fun i j => dst + i ≠ src + j ∧ i ≠ j) :
    copyAll A src dst is x = moveRange A src dst len x := by
  have hadd : ∀ {b i : Nat}, b + len ≤ wordMod → i < len → addW b i = b + i := fun hb hi => addW_of_lt (by omega)
  unfold moveRange
  split
  · rename_i hin
    obtain ⟨i, rfl⟩ := Nat.exists_eq_add_of_le hin.1
    have hi : i < len := by omega
    have hall : copyAll A src dst is (addW dst i) = A (addW src i) :=
      copyAll_of_mem (hp.imp_of_mem fun {i j} hi hj hij => by
        have hi := (his i).mp hi
        have hj := (his j).mp hj
        rw [hadd hdst hi, hadd hdst hj, hadd hsrc hj]
        omega) ((his i).mpr hi)
    rw [hadd hdst hi, hadd hsrc hi] at hall
    rw [Nat.add_sub_cancel_left, hall]
  · rename_i hout
    refine copyAll_of_ne fun i hi => ?_
    have hi := (his i).mp hi
    rw [hadd hdst hi]
    omega

/-- A copy moves the range, if the overlap is not missed. -/
theorem copyRange_eq_moveRange (hsrc : src + len ≤ wordMod) (hdst : dst + len ≤ wordMod)
    (hno : ¬ OverlapMissed src dst len) (hx : x < wordMod) :
    copyRange A src dst len x = moveRange A src dst len x := by
  unfold copyRange
  split
  · rename_i htriv
    unfold moveRange
    split
    · rw [show src + (x - dst) = x by omega]
    · rfl
  split
  · -- from the upper end down
    rename_i hup
    refine copyAll_eq_moveRange hsrc hdst hx (by simp) (List.pairwise_reverse.mpr ?_)
    exact List.pairwise_lt_range.imp fun {i j} hij => by omega
  · -- from the lower end up: no byte is read after it has been written
    rename_i htriv hup
    refine copyAll_eq_moveRange hsrc hdst hx (by simp) ?_
    refine List.pairwise_lt_range.imp_of_mem fun {i j} hi hj hij => ⟨fun he => ?_, by omega⟩
    have hi := List.mem_range.mp hi
    have hj := List.mem_range.mp hj
    have hfast : (addW src len ≤ dst ∨ addW dst len ≤ src) ∧ src % 4 = 0 ∧ dst % 4 = 0 := by
      by_contra hslow
      exact hup ⟨by omega, hslow⟩
    have hend : dst + len ≠ wordMod := fun he' => hno ⟨by omega, by omega, he', hfast.2⟩
    rw [addW_of_lt (show src + len < wordMod by omega), addW_of_lt (show dst + len < wordMod by omega)] at hfast
    omega

/-- If the overlap is missed, the first bytes of the source arrive a second time. -/
theorem copyRange_of_overlapMissed (hmiss : OverlapMissed src dst len) :
    copyRange A src dst len (dst + (dst - src)) = A src := by
  obtain ⟨hup, hover, hend, halign⟩ := hmiss
  have hpos := wordMod_pos
  have hadd : ∀ {i : Nat}, i < len → addW dst i = dst + i := fun hi => addW_of_lt (by omega)
  have hadd' : ∀ {i : Nat}, i < len → addW src i = src + i := fun hi => addW_of_lt (by omega)
  have hzero : addW dst len = 0 := by rw [addW, hend, Nat.mod_self]
  unfold copyRange
  rw [if_neg (by omega), if_neg fun hc => hc.2 ⟨.inr (hzero ▸ Nat.zero_le _), halign⟩]
  -- first the bytes in front of the target, whose first one arrives there
  obtain ⟨d, rfl⟩ := Nat.exists_eq_add_of_le hup.le
  obtain ⟨m, rfl⟩ := Nat.exists_eq_add_of_le (show d + 1 ≤ len by omega)
  have hrange : List.range (d + 1 + m) = List.range d ++ d :: List.range' (d + 1) m := by
    rw [List.range_eq_range', List.range_eq_range', ← List.range'_succ]
    have happ : List.range' 0 d 1 ++ List.range' (0 + 1 * d) (m + 1) 1 = _ := List.range'_append
    rw [Nat.one_mul, Nat.zero_add] at happ
    rw [happ]
    congr 1
    omega
  have hfirst : copyAll A src (src + d) (List.range d) (src + d) = A src := by
    have hall : copyAll A src (src + d) (List.range d) (addW (src + d) 0) = A (addW src 0) :=
      copyAll_of_mem (List.pairwise_lt_range.imp_of_mem fun {i j} hi hj hij => by
        have hi := List.mem_range.mp hi
        have hj := List.mem_range.mp hj
        rw [hadd (by omega), hadd (by omega), hadd' (by omega)]
        omega) (List.mem_range.mpr (show 0 < d by omega))
    rwa [hadd (by omega), hadd' (by omega)] at hall
  -- then that byte, once more
  rw [hrange, copyAll_append, Nat.add_sub_cancel_left, ← hadd (show d < d + 1 + m by omega)]
  change copyAll (copyV _ (addW src d) (addW (src + d) d)) src (src + d) _ _ = _
  rw [copyAll_of_ne fun i hi => ?_]
  · rw [copyV, Function.update_self, hadd' (by omega), hfirst]
  · have hi := List.mem_range'_1.mp hi
    rw [hadd (by omega), hadd (by omega)]
    omega

/-- **Copying the state of a range is exact** where the overlap is not missed. -/
theorem copyAddressRangeState_exact (src dst len : UWord) (hsrc : (src : Nat) + len ≤ wordMod)
    (hdst : (dst : Nat) + len ≤ wordMod) :
    (∀ (al : ShadowAlloc) (s : Shadow) (A : VBits), s.Rep A →
      Returns al (copyAddressRangeState al s src dst len) fun s' => s'.Rep (moveRange A src dst len)) ↔
    ¬ OverlapMissed src dst len := by
  constructor
  · intro hall hmiss
    -- the first byte of the target is defined, that of the source is not addressable
    have hmade : Returns bumpAlloc (makeMem bumpAlloc .defined initSecMaps dst 1) _ :=
      makeMem_spec .defined initSecMaps_inv dst.isLt (lt_wordMod (by omega))
    rcases hmade with ⟨maps, -, hshows⟩ | ⟨-, mapped, hnone⟩
    · have hrep := initShadowMemory_rep.paint (o := some vBits8Defined) (by decide) hshows
      have hcopy : Returns bumpAlloc (copyAddressRangeState bumpAlloc _ src dst len) _ :=
        copyAddressRangeState_spec hrep src.isLt dst.isLt len
      rcases hall bumpAlloc _ _ hrep with ⟨s', hs', hmove⟩ | ⟨-, mapped, hnone⟩
      · have hcopied := (hcopy.of_eq_ok hs').1
        have hx : (dst : Nat) + (dst - src) < wordMod := by
          obtain ⟨h₁, h₂, h₃, -⟩ := hmiss
          omega
        have heq := (hmove.state _ hx).symm.trans (hcopied.state _ hx)
        rw [copyRange_of_overlapMissed hmiss] at heq
        obtain ⟨h₁, h₂, h₃, -⟩ := hmiss
        have hself : subW (dst : Nat) dst = 0 := by
          rw [subW_of_le dst.isLt (Nat.le_refl _), Nat.sub_self]
        have hother : ¬ subW (src : Nat) dst < 1 := by
          rw [subW_lt_iff dst.isLt src.isLt (by omega)]
          omega
        rw [moveRange, if_pos (by omega), show (src : Nat) + (dst + (dst - src) - dst) = dst by omega, paint, paint,
          hself, if_pos (by omega), if_neg hother] at heq
        exact absurd heq (by decide)
      · cases hnone
    · cases hnone
  · intro hno al s A h
    refine (copyAddressRangeState_spec h src.isLt dst.isLt len).mono fun s' hs' => hs'.1.congr fun x hx => ?_
    exact copyRange_eq_moveRange hsrc hdst hno hx

end

/-- Two ranges that overlap, far from the end of the address space. -/
theorem copyAddressRangeState_exact_overlap :
    letI : Machine := x86Linux
    ¬ OverlapMissed 0x1000 0x1004 8 ∧ ∀ (al : ShadowAlloc) (s : Shadow) (A : VBits), s.Rep A →
      Returns al (copyAddressRangeState al s 0x1000 0x1004 8) fun s' => s'.Rep (moveRange A 0x1000 0x1004 8) := by
  let _ : Machine := x86Linux
  have hno : ¬ OverlapMissed 0x1000 0x1004 8 := by decide
  exact ⟨hno, (copyAddressRangeState_exact ⟨0x1000, by decide⟩ ⟨0x1004, by decide⟩ ⟨8, by decide⟩ (by decide)
    (by decide)).mpr hno⟩

/-- The last eight bytes of the address space, copied from four bytes below: the last four
should have become addressable. -/
theorem overlap_missed :
    letI : Machine := x86Linux
    ∃ (s s' : Shadow) (A : VBits), s.Rep A ∧ 0xFFFFFFF8 + 8 = wordMod ∧
      copyAddressRangeState bumpAlloc s 0xFFFFFFF4 0xFFFFFFF8 8 = .ok s' ∧
      moveRange A 0xFFFFFFF4 0xFFFFFFF8 8 0xFFFFFFFC = some vBits8Defined ∧
      vabits2At s'.maps 0xFFFFFFFC = vaBits2Noaccess := by
  let _ : Machine := x86Linux
  have hmade : Returns bumpAlloc (makeMem bumpAlloc .defined initSecMaps 0xFFFFFFF8 1) _ :=
    makeMem_spec .defined initSecMaps_inv (by decide) (by decide)
  rcases hmade with ⟨maps, -, hshows⟩ | ⟨-, mapped, hnone⟩
  · have hrep := initShadowMemory_rep.paint (o := some vBits8Defined) (by decide) hshows
    have hcopy : Returns bumpAlloc (copyAddressRangeState bumpAlloc _ 0xFFFFFFF4 0xFFFFFFF8 8) _ :=
      copyAddressRangeState_spec hrep (by decide) (by decide) 8
    rcases hcopy with ⟨s', hs', hcopied⟩ | ⟨-, mapped, hnone⟩
    · refine ⟨_, s', _, hrep, by decide, hs', by decide, ?_⟩
      rw [hcopied.1.state _ (by decide)]
      decide
    · exact nomatch hnone
  · exact nomatch hnone

end Memcheck

end Valgrind
