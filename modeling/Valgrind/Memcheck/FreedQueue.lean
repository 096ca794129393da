import Valgrind.Memcheck.MallocWrappers

/-!
# The queue of freed blocks

Blocks that the client has freed are kept for a while, so that errors about them can be
explained. `freedQueue_window` says which: the latest ones, as many as `--freelist-vol` admits.
-/

namespace Valgrind.Memcheck

open Machine Coregrind

section

variable {ε : Type} (env : HeapEnv ε)

/-- The bytes of some chunks. -/
def volumeOf (list : List (HeapChunk ε)) : Int := (list.map fun mc => (mc.szB : Int)).sum

@[simp] theorem volumeOf_nil : volumeOf ([] : List (HeapChunk ε)) = 0 := rfl

@[simp] theorem volumeOf_cons (mc : HeapChunk ε) (list : List (HeapChunk ε)) :
    volumeOf (mc :: list) = mc.szB + volumeOf list := rfl

theorem volumeOf_append (l l' : List (HeapChunk ε)) : volumeOf (l ++ l') = volumeOf l + volumeOf l' := by
  rw [volumeOf, List.map_append, List.sum_append]
  rfl

theorem volumeOf_nonneg (list : List (HeapChunk ε)) : 0 ≤ volumeOf list := by
  induction list with
  | nil => exact le_rfl
  | cons mc list ih =>
    rw [volumeOf_cons]
    exact Int.add_nonneg (Int.natCast_nonneg _) ih

/-- The queue holds the latest of the blocks, as many of them as its volume admits. -/
structure FreedQueue.Window (freed : FreedQueue ε) (limit : Int) (blocks : List (HeapChunk ε)) : Prop where
  volume : freed.volume = volumeOf freed.list
  le : freed.volume ≤ limit
  latest : freed.list <:+ blocks
  longest : ∀ l, l <:+ blocks → volumeOf l ≤ limit → l <:+ freed.list

/-- The loop leaves the longest end of the queue that the volume admits. -/
theorem releaseOldest_spec (hvol : 0 ≤ env.cloFreelistVol) (list : List (HeapChunk ε)) :
    ∃ freed, releaseOldest env (volumeOf list) list = .ok freed ∧ freed.Window env.cloFreelistVol list := by
  induction list with
  | nil =>
    rw [releaseOldest, volumeOf_nil, assertThat_of hvol]
    exact ⟨_, rfl, rfl, hvol, List.suffix_rfl, fun l hl _ => hl⟩
  | cons mc list ih =>
    obtain ⟨freed, hrun, hwin⟩ := ih
    have hnonneg := volumeOf_nonneg list
    rw [releaseOldest]
    by_cases hover : volumeOf (mc :: list) > env.cloFreelistVol
    · -- The whole queue is too long, so that its longest end that fits is an end of the rest.
      have hrest : volumeOf (mc :: list) - mc.szB = volumeOf list := by
        rw [volumeOf_cons]
        omega
      rw [if_pos hover, hrest, assertThat_of hnonneg, ok_bind, hrun]
      refine ⟨freed, rfl, hwin.volume, hwin.le, hwin.latest.trans (List.suffix_cons mc list), fun l hl hle => ?_⟩
      rcases List.suffix_cons_iff.mp hl with rfl | hl
      · exact absurd hle (Int.not_le.mpr hover)
      · exact hwin.longest l hl hle
    · rw [if_neg hover]
      exact ⟨_, rfl, rfl, Int.not_lt.mp hover, List.suffix_rfl, fun l hl _ => hl⟩

/-- One block more. -/
theorem addToFreedQueue_spec (hvol : 0 ≤ env.cloFreelistVol) {freed : FreedQueue ε} {blocks : List (HeapChunk ε)}
    (h : freed.Window env.cloFreelistVol blocks) (mc : HeapChunk ε) :
    ∃ freed', addToFreedQueue env freed mc = .ok freed' ∧ freed'.Window env.cloFreelistVol (blocks ++ [mc]) := by
  have hvolume : (if freed.list = [] then (mc.szB : Int) else freed.volume + mc.szB) = volumeOf (freed.list ++ [mc]) := by
    rw [volumeOf_append, volumeOf_cons, volumeOf_nil, h.volume]
    split
    · next hnil =>
      rw [hnil, volumeOf_nil]
      omega
    · omega
  obtain ⟨freed', hrun, hwin⟩ := releaseOldest_spec env hvol (freed.list ++ [mc])
  refine ⟨freed', by rw [addToFreedQueue, hvolume, hrun], hwin.volume, hwin.le, ?_, fun l hl hle => ?_⟩
  · obtain ⟨r, hr⟩ := h.latest
    exact hwin.latest.trans ⟨r, by rw [← List.append_assoc, hr]⟩
  · rcases List.eq_nil_or_concat l with rfl | ⟨l, mc', rfl⟩
    · exact List.nil_suffix
    · -- An end of the new sequence that fits is `mc` behind an end of the old one that fits.
      rw [List.concat_eq_append] at hl hle ⊢
      obtain ⟨r, hr⟩ := hl
      rw [← List.append_assoc] at hr
      obtain ⟨hblocks, hmc⟩ := List.append_inj' hr rfl
      obtain rfl := List.singleton_inj.mp hmc
      have hsum : volumeOf (l ++ [mc']) = volumeOf l + mc'.szB := by
        rw [volumeOf_append, volumeOf_cons, volumeOf_nil, Int.add_zero]
      obtain ⟨r', hr'⟩ := h.longest l ⟨r, hblocks⟩ (by omega)
      exact hwin.longest _ ⟨r', by rw [← List.append_assoc, hr']⟩ hle

/-- **The freed blocks queue is a window** on the blocks that were freed: after every sequence of
calls, it holds the longest end of the sequence whose bytes `--freelist-vol` admits, its volume is
right, and no assertion fails. -/
theorem freedQueue_window (hvol : 0 ≤ env.cloFreelistVol) (blocks : List (HeapChunk ε)) :
    ∃ freed, runSteps (addToFreedQueue env) ⟨[], 0⟩ blocks = .ok freed ∧ freed.Window env.cloFreelistVol blocks := by
  induction blocks using List.reverseRecOn with
  | nil => exact ⟨⟨[], 0⟩, rfl, rfl, hvol, List.suffix_rfl, fun _ hl _ => hl⟩
  | append_singleton blocks mc ih =>
    obtain ⟨freed, hrun, hwin⟩ := ih
    obtain ⟨freed', hstep, hwin'⟩ := addToFreedQueue_spec env hvol hwin mc
    exact ⟨freed', runSteps_append.mpr ⟨freed, hrun, runSteps_cons.mpr ⟨freed', hstep, rfl⟩⟩, hwin'⟩

end

/-- A block of 16 bytes is freed three times over, and 40 bytes are kept. -/
theorem freedQueue_window_three : ∃ (env : HeapEnv Unit) (mc : HeapChunk Unit), env.cloFreelistVol = 40 ∧ mc.szB = 16 ∧
    ∃ freed, runSteps (addToFreedQueue env) ⟨[], 0⟩ [mc, mc, mc] = .ok freed ∧
      freed.Window env.cloFreelistVol [mc, mc, mc] := by
  let env : HeapEnv Unit := ⟨⟨fun _ => none, by simp⟩, 8, -1, -1, 40, fun _ _ => 0, 0x70000000, (), fun _ => 4⟩
  let mc : HeapChunk Unit := ⟨⟨0x1000, 16, ()⟩, .malloc⟩
  exact ⟨env, mc, rfl, rfl, freedQueue_window env (by decide) [mc, mc, mc]⟩

end Valgrind.Memcheck
