import Valgrind.Lib.Selection
import Valgrind.Memcheck.LeakCheck

/-!
# The order of the leak report

`full_report` reports its records by selection: of those that are left, the loop takes the
last one whose bytes are fewer than the bound, and the bound is the bytes *and* the indirect
bytes of the candidate before. `report_sorted` says for which lists the records come out
in the order of the sum of the two.
-/

namespace Valgrind

namespace Memcheck

open Machine Selection

section

variable [Machine] {ε : Type} {errlist A B out : List (LossRecord ε)} {p x : LossRecord ε} {i n : Nat}
  {pMin : Option Nat}

/-- `p->total_bytes + p->indirect_bytes`. -/
def LossRecord.size (p : LossRecord ε) : Nat := addW p.totalBytes p.indirectBytes

theorem LossRecord.size_le (p : LossRecord ε) : p.size ≤ wordMod - 1 :=
  Nat.le_sub_one_of_lt (addW_lt _ _)

/-- The records that have not been reported yet. -/
def pending (errlist : List (LossRecord ε)) : List (LossRecord ε) :=
  errlist.filter fun p => p.numBlocks > 0

/-! ## One round -/

/-- The walk over the records, of which only the pending ones count. -/
theorem selectMin_spec (errlist : List (LossRecord ε)) (i n : Nat) (pMin : Option Nat) :
    (selectMin errlist i n pMin = pMin ∧ ∀ p ∈ pending errlist, n ≤ p.totalBytes) ∨
    ∃ A x B, errlist = A ++ x :: B ∧ x.numBlocks > 0 ∧
      selectMin errlist i n pMin = some (i + A.length) ∧
      Chosen LossRecord.totalBytes LossRecord.size n (pending A) x (pending B) := by
  induction errlist generalizing i n pMin with
  | nil => exact .inl ⟨rfl, by simp [pending]⟩
  | cons p ps ih =>
    by_cases hp : p.numBlocks > 0 ∧ p.totalBytes < n
    · rw [selectMin, if_pos hp]
      refine .inr ?_
      rcases ih (i + 1) p.size (some i) with ⟨hsel, hall⟩ | ⟨A, x, B, rfl, hx, hsel, hC⟩
      · exact ⟨[], p, ps, rfl, hp.1, hsel, hp.2, hall⟩
      · refine ⟨p :: A, x, B, rfl, hx, ?_, ?_, hC.le⟩
        · rw [List.length_cons, Nat.add_comm A.length, ← Nat.add_assoc]
          exact hsel
        · rw [pending, List.filter_cons_of_pos (by simpa using hp.1), bound, List.foldl_cons, if_pos hp.2]
          exact hC.lt
    · rw [selectMin, if_neg hp]
      rcases ih (i + 1) n pMin with ⟨hsel, hall⟩ | ⟨A, x, B, rfl, hx, hsel, hC⟩
      · refine .inl ⟨hsel, fun q hq => ?_⟩
        obtain ⟨hq, hlive⟩ := List.mem_filter.mp hq
        rcases List.mem_cons.mp hq with rfl | hq
        · simp only [decide_eq_true_eq] at hlive
          omega
        · exact hall q (List.mem_filter.mpr ⟨hq, hlive⟩)
      · refine .inr ⟨p :: A, x, B, rfl, hx, ?_, ?_, hC.le⟩
        · rw [List.length_cons, Nat.add_comm A.length, ← Nat.add_assoc]
          exact hsel
        · by_cases hlive : p.numBlocks > 0
          · rw [pending, List.filter_cons_of_pos (by simpa using hlive), bound, List.foldl_cons,
              if_neg fun h => hp ⟨hlive, h⟩]
            exact hC.lt
          · rw [pending, List.filter_cons_of_neg (by simpa using hlive)]
            exact hC.lt

theorem pending_append : pending (A ++ B) = pending A ++ pending B :=
  List.filter_append A B

theorem pending_middle (hx : x.numBlocks > 0) : pending (A ++ x :: B) = pending A ++ x :: pending B := by
  rw [pending_append]
  simp [pending, hx]

/-- A record that has been reported is not looked at again. -/
theorem pending_set (x : LossRecord ε) :
    pending ((A ++ x :: B).set A.length { x with numBlocks := 0 }) = pending A ++ pending B := by
  rw [List.set_append_right _ _ (Nat.le_refl _), Nat.sub_self, List.set_cons_zero, pending_append]
  simp [pending]

/-! ## All rounds -/

/-- The report selects the pending records. -/
theorem reportLoop_iff {left : Nat} (hleft : (pending errlist).length = left) :
    reportLoop left errlist = .ok out ↔
      Selects LossRecord.totalBytes LossRecord.size (wordMod - 1) (pending errlist) out := by
  induction left generalizing errlist out with
  | zero =>
    rw [List.length_eq_zero_iff] at hleft
    rw [reportLoop, pure_eq_ok, hleft]
    constructor
    · rintro rfl
      exact .nil
    · intro hsel
      exact (List.perm_nil.mp hsel.perm).symm
  | succ left ih =>
    rw [reportLoop]
    rcases selectMin_spec errlist 0 (wordMod - 1) none with
      ⟨hsel, hall⟩ | ⟨A, x, B, rfl, hx, hsel, hC⟩
    · rw [hsel]
      refine ⟨fun h => absurd h throw_eq_ok, fun h => ?_⟩
      generalize hl : pending errlist = l at h hall hleft
      cases h with
      | nil => simp at hleft
      | @cons A x B out hC =>
        have hlt := hC.lt.trans_le (bound_le (Nat.le_refl _) fun p _ => LossRecord.size_le p)
        have := hall x (by simp)
        omega
    · have hlen : (pending ((A ++ x :: B).set A.length { x with numBlocks := 0 })).length = left := by
        rw [pending_set]
        rw [pending_middle hx] at hleft
        simp only [List.length_append, List.length_cons] at hleft ⊢
        omega
      have hget : (A ++ x :: B)[A.length]? = some x := by simp
      rw [hsel, Nat.zero_add]
      simp only [hget, bind_eq_ok, pure_eq_ok, ih hlen, pending_set, pending_middle hx, selects_cons_iff hC]
      exact exists_congr fun out' => by rw [and_comm, eq_comm]

/-- Every round reports one of the pending records. -/
theorem reportLoop_le {left : Nat} (h : reportLoop left errlist = .ok out) :
    left ≤ (pending errlist).length := by
  induction left generalizing errlist out with
  | zero => exact Nat.zero_le _
  | succ left ih =>
    rw [reportLoop] at h
    rcases selectMin_spec errlist 0 (wordMod - 1) none with
      ⟨hsel, -⟩ | ⟨A, x, B, rfl, hx, hsel, -⟩
    · rw [hsel] at h
      exact absurd h throw_eq_ok
    · have hget : (A ++ x :: B)[A.length]? = some x := by simp
      rw [hsel, Nat.zero_add] at h
      simp only [hget, bind_eq_ok] at h
      obtain ⟨out', hout, -⟩ := h
      have := ih hout
      rw [pending_set] at this
      rw [pending_middle hx]
      simp only [List.length_append, List.length_cons] at this ⊢
      omega

theorem pending_self (h : ∀ p ∈ errlist, p.numBlocks > 0) : pending errlist = errlist :=
  List.filter_eq_self.mpr fun p hp => by simpa using h p hp

/-- **The order of the report.** The records are all reported, and in non-decreasing order of
their bytes with the indirect bytes, iff every record has blocks and less than the highest
number of bytes, and of every two records, `a` before `b` in the list, the bytes of `b`
alone compare to the size of `a` as the size of `b` does. -/
theorem report_sorted (errlist : List (LossRecord ε)) :
    (∃ out, reported errlist = .ok out ∧ out.Pairwise fun a b => a.size ≤ b.size) ↔
      (∀ p ∈ errlist, p.numBlocks > 0 ∧ p.totalBytes < wordMod - 1) ∧
      errlist.Pairwise fun a b =>
        if b.totalBytes < a.size then b.size ≤ a.size else a.size ≤ b.size := by
  by_cases hlive : ∀ p ∈ errlist, p.numBlocks > 0
  · have hself := pending_self hlive
    simp only [reported, reportLoop_iff (congrArg List.length hself), hself]
    rw [exists_sorted_iff fun p _ => LossRecord.size_le p]
    exact and_congr_left' (forall₂_congr fun p hp => (and_iff_right (hlive p hp)).symm)
  · refine ⟨fun ⟨out, hout, _⟩ => absurd ?_ hlive, fun h => absurd (fun p hp => (h.1 p hp).1) hlive⟩
    have hle := reportLoop_le hout
    have heq := List.length_filter_le (fun p : LossRecord ε => decide (p.numBlocks > 0)) errlist
    intro p hp
    have := List.length_filter_eq_length_iff.mp (Nat.le_antisymm heq hle) p hp
    simpa using this

end

/-- Two records: 105 bytes, 100 of them indirect, are reported before 10 bytes. -/
theorem not_report_sorted :
    letI : Machine := x86Linux
    ∃ out, reported (ε := Unit) [⟨(), .unreached, 10, 0, 1⟩, ⟨(), .unreached, 5, 100, 1⟩] = .ok out ∧
      ¬ out.Pairwise fun a b => a.size ≤ b.size :=
  ⟨[⟨(), .unreached, 5, 100, 1⟩, ⟨(), .unreached, 10, 0, 1⟩], by decide, by decide +kernel⟩

end Memcheck

end Valgrind
