import Valgrind.Basics.Machine
import Valgrind.Lib.ByteMem

/-!
# Moving a block of memory (`m_libcbase.c`)

`VG_(memmove)` copies upwards when the destination comes before the source, and downwards when
it comes after it. The index is a `SizeT`, so the test `i >= 0` of the loop that goes down never
fails. Both loops run on fuel, and `none` is a loop that has not ended when the fuel is used up;
`memmove_iff` says for which arguments the block is moved.
-/

namespace Valgrind

namespace Coregrind

open ByteMem

section

variable [Machine]

/-- `((UChar*)dest)[i] = ((UChar*)src)[i];`. -/
def moveByte (dest src : Nat) (m : Mem) (i : Nat) : Mem :=
  Function.update m (addW dest i) (m (addW src i))

/-- The loop for `dest < src`. -/
def moveUp (dest src sz : Nat) : Nat → Mem → Nat → Option Mem
  | 0, _, _ => none
  | fuel + 1, m, i => if i < sz then moveUp dest src sz fuel (moveByte dest src m i) (addW i 1) else some m

/-- The loop for `dest > src`. -/
def moveDown (dest src : Nat) : Nat → Mem → Nat → Option Mem
  | 0, _, _ => none
  | fuel + 1, m, i => if i ≥ 0 then moveDown dest src fuel (moveByte dest src m i) (subW i 1) else some m

/-- `VG_(memmove)`. -/
def memmove (fuel : Nat) (m : Mem) (dest src sz : Nat) : Option Mem :=
  if sz = 0 then some m
  else if dest < src then moveUp dest src sz fuel m 0
  else if dest > src then moveDown dest src fuel m (subW sz 1)
  else some m

/-- The block at `src` has been moved to `dest`, and the rest of the memory is as before. -/
structure Moved (m m' : Mem) (dest src sz : Nat) : Prop where
  inside : ∀ i, i < sz → m' (addW dest i) = m (addW src i)
  outside : ∀ x, (∀ i, i < sz → x ≠ addW dest i) → m' x = m x

variable {m m' : Mem} {dest src sz i j k fuel : Nat}

theorem addW_inj (hi : i < wordMod) (hj : j < wordMod) (h : addW dest i = addW dest j) : i = j := by
  unfold addW at h
  rcases wordMod_cases with hw | hw <;> rw [hw] at hi hj h <;> omega

theorem moved_zero (m : Mem) (dest src : Nat) : Moved m m dest src 0 :=
  ⟨fun _ hi => absurd hi (Nat.not_lt_zero _), fun _ _ => rfl⟩

/-- A block that is moved to its own place. -/
theorem moved_self (m : Mem) (src sz : Nat) : Moved m m src src sz :=
  ⟨fun _ _ => rfl, fun _ _ => rfl⟩

/-! ## Upwards -/

/-- One byte more, if it has not been overwritten yet. -/
theorem Moved.step (h : Moved m m' dest src i) (hi : i < wordMod)
    (hkept : ∀ j, j < i → addW src i ≠ addW dest j) : Moved m (moveByte dest src m' i) dest src (i + 1) := by
  constructor
  · intro j hj
    unfold moveByte
    rcases Nat.lt_succ_iff_lt_or_eq.mp hj with hj | rfl
    · rw [Function.update_of_ne fun he => hj.ne (addW_inj (hj.trans hi) hi he)]
      exact h.inside j hj
    · rw [Function.update_self]
      exact h.outside _ hkept
  · intro x hx
    unfold moveByte
    rw [Function.update_of_ne (hx i (Nat.lt_succ_self i))]
    exact h.outside x fun j hj => hx j (Nat.lt_succ_of_lt hj)

/-- A byte of the source comes before what has been written, unless the ranges wrap around. -/
theorem source_kept (hsrc : src < wordMod) (hlt : dest < src) (hsz : sz ≤ wordMod - (src - dest)) (hi : i < sz)
    (hj : j < i) : addW src i ≠ addW dest j := by
  unfold addW
  rcases wordMod_cases with hw | hw <;> rw [hw] at hsrc hsz ⊢ <;> omega

/-- **The loop that goes up**: what is written is ahead of what is still to be read. -/
theorem moveUp_spec (hsrc : src < wordMod) (hlt : dest < src) (hsz : sz ≤ wordMod - (src - dest)) {n : Nat}
    (hn : i + n = sz) (h : Moved m m' dest src i) :
    ∃ m'', moveUp dest src sz (n + 1) m' i = some m'' ∧ Moved m m'' dest src sz := by
  induction n generalizing i m' with
  | zero =>
    obtain rfl : i = sz := hn
    exact ⟨m', by rw [moveUp, if_neg (Nat.lt_irrefl _)], h⟩
  | succ n ih =>
    have hi : i < sz := by omega
    have hstep := h.step (by omega) fun j hj => source_kept hsrc hlt hsz hi hj
    rw [moveUp, if_pos hi, addW_of_lt (by omega)]
    exact ih (by omega) hstep

/-- The loop comes to every index, and leaves alone what it has written. -/
theorem moveUp_reaches (hsz : sz < wordMod) (h : moveUp dest src sz fuel m i = some m') (hi : i ≤ k) (hk : k ≤ sz) :
    ∃ fuel' m'', moveUp dest src sz fuel' m'' k = some m' ∧
      ∀ j, j < i → m'' (addW dest j) = m (addW dest j) := by
  induction fuel generalizing i m with
  | zero => exact nomatch h
  | succ fuel ih =>
    rcases Nat.eq_or_lt_of_le hi with rfl | hlt
    · exact ⟨fuel + 1, m, h, fun _ _ => rfl⟩
    · rw [moveUp, if_pos (hlt.trans_le hk), addW_of_lt (by omega)] at h
      obtain ⟨fuel', m'', hrun, hsame⟩ := ih h hlt
      refine ⟨fuel', m'', hrun, fun j hj => ?_⟩
      rw [hsame j (Nat.lt_succ_of_lt hj)]
      unfold moveByte
      rw [Function.update_of_ne fun he => hj.ne (addW_inj (by omega) (by omega) he)]

/-- What has been written when the loop ends. -/
theorem moveUp_written (hsz : sz < wordMod) (h : moveUp dest src sz fuel m i = some m') (hi : i < sz) :
    m' (addW dest i) = m (addW src i) := by
  obtain - | fuel := fuel
  · exact nomatch h
  · rw [moveUp, if_pos hi, addW_of_lt (by omega)] at h
    obtain ⟨fuel', m'', hrun, hsame⟩ := moveUp_reaches hsz h (Nat.succ_le_of_lt hi) (Nat.le_refl sz)
    obtain - | fuel' := fuel'
    · exact nomatch hrun
    · rw [moveUp, if_neg (Nat.lt_irrefl _)] at hrun
      obtain rfl := Option.some.inj hrun
      rw [hsame i (Nat.lt_succ_self i)]
      exact Function.update_self _ _ _

/-! ## Downwards -/

/-- **The loop that goes down** does not end. -/
theorem moveDown_eq_none (dest src fuel : Nat) (m : Mem) (i : Nat) : moveDown dest src fuel m i = none := by
  induction fuel generalizing m i with
  | zero => rfl
  | succ fuel ih =>
    rw [moveDown, if_pos (Nat.zero_le i)]
    exact ih _ _

theorem memmove_eq_none (hsz : sz ≠ 0) (hgt : src < dest) (fuel : Nat) (m : Mem) :
    memmove fuel m dest src sz = none := by
  rw [memmove, if_neg hsz, if_neg hgt.asymm, if_pos hgt, moveDown_eq_none]

/-- A source that wraps around is overwritten before it is read. -/
theorem not_moved_of_wrap (hsrc : src < wordMod) (hlt : dest < src) (hsz : sz < wordMod)
    (hwrap : wordMod - (src - dest) < sz) : ∃ m, ∀ fuel m', moveUp dest src sz fuel m 0 = some m' →
      ¬ Moved m m' dest src sz := by
  refine ⟨fun x => if x = src then 1 else 0, fun fuel m' hrun hmoved => ?_⟩
  obtain ⟨k, hk⟩ : ∃ k, k = wordMod - (src - dest) := ⟨_, rfl⟩
  have hkpos : 0 < k := by omega
  have hback : addW src k = dest := by
    unfold addW
    rcases wordMod_cases with hw | hw <;> rw [hw] at hsrc hk ⊢ <;> omega
  have hbase : ∀ a, a < wordMod → addW a 0 = a := fun a ha => addW_of_lt ha
  -- the first turn writes the byte that the turn `k` reads
  obtain - | fuel := fuel
  · exact nomatch hrun
  rw [moveUp, if_pos (by omega), addW_of_lt (by omega)] at hrun
  obtain ⟨fuel', m'', hrun', hsame⟩ := moveUp_reaches hsz hrun (Nat.succ_le_of_lt hkpos) (by omega : k ≤ sz)
  have hfirst := hsame 0 Nat.one_pos
  have hread := moveUp_written hsz hrun' (by omega)
  have hwant := hmoved.inside k (by omega)
  have hone : (fun x => if x = src then (1 : UInt8) else 0) src = 1 := if_pos rfl
  rw [hread, hback] at hwant
  unfold moveByte at hfirst
  rw [Function.update_self, hbase dest (hlt.trans hsrc), hbase src hsrc, hwant, if_neg hlt.ne, hone] at hfirst
  exact absurd hfirst (by decide)

/-- **Moving a block**: the loop ends and the block is moved exactly when there is nothing to move,
or the destination comes before the source and the source does not wrap around to it. -/
theorem memmove_iff (hsrc : src < wordMod) (hsz : sz < wordMod) :
    (∀ m, ∃ fuel m', memmove fuel m dest src sz = some m' ∧ Moved m m' dest src sz) ↔
      sz = 0 ∨ dest = src ∨ (dest < src ∧ sz ≤ wordMod - (src - dest)) := by
  constructor
  · intro h
    by_contra hnot
    rw [not_or, not_or] at hnot
    obtain ⟨hpos, hne, hnot⟩ := hnot
    rcases Nat.lt_or_gt_of_ne hne with hlt | hgt
    · obtain ⟨m, hm⟩ := not_moved_of_wrap hsrc hlt hsz (by omega)
      obtain ⟨fuel, m', hrun, hmoved⟩ := h m
      rw [memmove, if_neg hpos, if_pos hlt] at hrun
      exact hm fuel m' hrun hmoved
    · obtain ⟨fuel, m', hrun, -⟩ := h fun _ => 0
      rw [memmove_eq_none hpos hgt] at hrun
      exact nomatch hrun
  · rintro hcond m
    by_cases hzero : sz = 0
    · exact ⟨0, m, by rw [memmove, if_pos hzero], hzero ▸ moved_zero m dest src⟩
    rcases hcond.resolve_left hzero with rfl | ⟨hlt, hfit⟩
    · exact ⟨0, m, by rw [memmove, if_neg hzero, if_neg (Nat.lt_irrefl _), if_neg (Nat.lt_irrefl _)], moved_self m dest sz⟩
    · obtain ⟨m', hrun, hmoved⟩ := moveUp_spec hsrc hlt hfit (Nat.zero_add sz) (moved_zero m dest src)
      exact ⟨sz + 1, m', by rw [memmove, if_neg hzero, if_pos hlt, hrun], hmoved⟩

end

/-- Two bytes are moved down by one. -/
theorem memmove_iff_sample : ∃ fuel m', @memmove x86Linux fuel UInt8.ofNat 4096 4097 2 = some m' ∧
    @Moved x86Linux UInt8.ofNat m' 4096 4097 2 :=
  (@memmove_iff x86Linux 4096 4097 2 (by decide) (by decide)).mpr (.inr (.inr ⟨by decide, by decide⟩)) UInt8.ofNat

/-- One byte is to be moved up by one. -/
theorem memmove_endless : ¬ ∃ fuel m', @memmove x86Linux fuel (fun _ => 0) 4097 4096 1 = some m' := by
  rintro ⟨fuel, m', h⟩
  rw [@memmove_eq_none x86Linux 4097 4096 1 (by decide) (by decide)] at h
  exact nomatch h

end Coregrind

end Valgrind
