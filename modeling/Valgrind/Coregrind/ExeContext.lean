import Valgrind.Basics.Machine
import Valgrind.Basics.Result

/-!
# Storing and comparing stack backtraces (`m_execontext.c`)

Every trace that has been recorded is kept in a chained hash table, which grows through a
list of primes. A trace that is recorded again is looked up, and the context found moves one
step towards the head of its chain at every eighth such search.

The search compares as many addresses as the *new* trace has and never looks at the length
of the stored one. A stored context is therefore also found for every proper prefix of its
trace, and reading goes on behind its end when its own trace is a proper prefix of the new
one. `exeContexts_canonical`: as long as no such context comes before the right one in its
chain, contexts are canonical.
-/

namespace Valgrind

namespace Coregrind

open Machine

/-! ## Contexts and the table -/

/-- `ec_primes`. -/
def ecPrimes : List Nat :=
  [769, 1543, 3079, 6151, 12289, 24593, 49157, 98317, 196613, 393241, 786433, 1572869, 3145739, 6291469, 12582917,
    25165843, 50331653, 100663319]

/-- `N_EC_PRIMES`. -/
def nEcPrimes : Nat := 18

/-- `VG_DEEPEST_BACKTRACE`. -/
def deepestBacktrace : Nat := 50

/-- `struct _ExeContext`: there are `n_ips` addresses in `ips`. No two records have the same
`ecu`, so that it also stands for the address of the record. -/
structure ExeContext where
  ecu : Nat
  ips : List Nat
  deriving DecidableEq, Repr

/-- The static variables: `ecHtab i` is the chain that hangs from `ec_htab[i]`, and `ctr` is
the counter of `record_ExeContext_wrk2`. -/
structure Storage where
  ecHtab : Nat → List ExeContext
  ecHtabSize : Nat
  ecHtabSizeIdx : Nat
  ecNextEcu : Nat
  ecTotstored : Nat
  ctr : Nat

/-- `init_ExeContext_storage`. -/
def initExeContextStorage : Storage where
  ecHtab := fun _ => []
  ecHtabSize := 769
  ecHtabSizeIdx := 0
  ecNextEcu := 4
  ecTotstored := 0
  ctr := 0

/-- `VG_(is_plausible_ECU)`. -/
def isPlausibleECU (ecu : Nat) : Prop := ecu > 0 ∧ ecu &&& 3 = 0

instance (ecu : Nat) : Decidable (isPlausibleECU ecu) := inferInstanceAs (Decidable (_ ∧ _))

section Hash

variable [Machine]

/-- `ROLW`. -/
def rolw (w n : Nat) : Nat := (w <<< n) % wordMod ||| w >>> (8 * wordB - n)

/-- `calc_hash`, less its assertion that the table has a bucket, which is left to the
callers. -/
def calcHash (ips : List Nat) (htabSz : Nat) : Nat :=
  ips.foldl (fun hash ip => rolw (hash ^^^ ip) 19) 0 % htabSz

theorem calcHash_lt (ips : List Nat) {htabSz : Nat} (h : 0 < htabSz) : calcHash ips htabSz < htabSz :=
  Nat.mod_lt _ h

/-- Move a context to the head of its chain in the new table. -/
def rehash (newSize : Nat) (tab : Nat → List ExeContext) (cur : ExeContext) : Nat → List ExeContext :=
  let hash := calcHash cur.ips newSize
  Function.update tab hash (cur :: tab hash)

/-- `resize_ec_htab`. -/
def resizeEcHtab (st : Storage) : Result Storage := do
  assertThat (st.ecHtabSizeIdx < nEcPrimes)
  if st.ecHtabSizeIdx = nEcPrimes - 1 then return st
  let newSize := ecPrimes.getD (st.ecHtabSizeIdx + 1) 0
  assertThat (0 < newSize)
  let newEcHtab := (List.range st.ecHtabSize).foldl
    (fun tab i => (st.ecHtab i).foldl (rehash newSize) tab) fun _ => []
  return { st with ecHtab := newEcHtab, ecHtabSize := newSize, ecHtabSizeIdx := st.ecHtabSizeIdx + 1 }

end Hash

/-! ## Recording a trace -/

/-- What the memory holds behind the addresses of a stored context. -/
abbrev Beyond := ExeContext → Nat → Nat

/-- `ec->ips[i]`. -/
def ExeContext.ip (beyond : Beyond) (ec : ExeContext) (i : Nat) : Nat := ec.ips[i]?.getD (beyond ec i)

/-- The comparison of a stored context with the rest of a trace, from index `i` on: the value
of `same`, and how many entries of the stored one have been read. -/
def compareIps (beyond : Beyond) (list : ExeContext) : Nat → List Nat → Bool × Nat
  | i, [] => (true, i)
  | i, ip :: ips => if list.ip beyond i ≠ ip then (false, i + 1) else compareIps beyond list (i + 1) ips

/-- A stored context, and how many of its entries a comparison has read. -/
abbrev Comparison := ExeContext × Nat

/-- The walk along a chain: what is found, with its position, and the comparisons made. -/
def searchChain (beyond : Beyond) (ips : List Nat) : List ExeContext → Option (Nat × ExeContext) × List Comparison
  | [] => (none, [])
  | list :: chain =>
    let (same, read) := compareIps beyond list 0 ips
    if same then (some (0, list), [(list, read)])
    else
      let (found, cmps) := searchChain beyond ips chain
      (found.map fun (i, ec) => (i + 1, ec), (list, read) :: cmps)

/-- Exchange the context at a position of the chain with the one before it, if there is
one. -/
def moveCloser : Nat → List ExeContext → List ExeContext
  | 1, prev :: list :: chain => list :: prev :: chain
  | i + 2, ec :: chain => ec :: moveCloser (i + 1) chain
  | _, chain => chain

section Record

variable [Machine]

/-- `record_ExeContext_wrk2`, with the comparisons that it makes. -/
def recordExeContextWrk2 (cloBacktraceSize : Nat) (beyond : Beyond) (st : Storage) (ips : List Nat) :
    Result (Storage × ExeContext × List Comparison) := do
  assertThat (ips.length ≥ 1 ∧ ips.length ≤ cloBacktraceSize)
  assertThat (0 < st.ecHtabSize)
  let hash := calcHash ips st.ecHtabSize
  match searchChain beyond ips (st.ecHtab hash) with
  | (some (i, list), cmps) =>
    let chain := if st.ctr % 8 = 0 then moveCloser i (st.ecHtab hash) else st.ecHtab hash
    return ({ st with ecHtab := Function.update st.ecHtab hash chain, ctr := (st.ctr + 1) % 2 ^ 32 }, list, cmps)
  | (none, cmps) => do
    assertThat (isPlausibleECU st.ecNextEcu)
    let newEc : ExeContext := ⟨st.ecNextEcu, ips⟩
    let ecNextEcu := (st.ecNextEcu + 4) % 2 ^ 32
    if ecNextEcu = 0 then throw .panic
    let st := { st with ecHtab := Function.update st.ecHtab hash (newEc :: st.ecHtab hash),
                        ecNextEcu := ecNextEcu, ecTotstored := st.ecTotstored + 1 }
    if st.ecTotstored > st.ecHtabSize then do
      assertThat (st.ecHtabSizeIdx < nEcPrimes)
      if st.ecHtabSizeIdx < nEcPrimes - 1 then do
        let st ← resizeEcHtab st
        return (st, newEc, cmps)
      else return (st, newEc, cmps)
    else return (st, newEc, cmps)

/-- `VG_(get_ExeContext_from_ECU)`. -/
def getExeContextFromECU (st : Storage) (ecu : Nat) : Result (Option ExeContext) := do
  assertThat (isPlausibleECU ecu)
  assertThat (st.ecHtabSize > 0)
  return (List.range st.ecHtabSize).findSome? fun i => (st.ecHtab i).find? fun ec => ec.ecu = ecu

end Record

/-! ## The walk along a chain -/

/-- Neither is a proper prefix of the other, and they are not the same. -/
def Diverge (ips ips' : List Nat) : Prop := ¬ ips <+: ips' ∧ ¬ ips' <+: ips

instance (ips ips' : List Nat) : Decidable (Diverge ips ips') := inferInstanceAs (Decidable (_ ∧ _))

theorem Diverge.of_cons {ip : Nat} {ips ips' : List Nat} (h : Diverge (ip :: ips) (ip :: ips')) : Diverge ips ips' :=
  ⟨fun h' => h.1 (List.cons_prefix_cons.mpr ⟨rfl, h'⟩), fun h' => h.2 (List.cons_prefix_cons.mpr ⟨rfl, h'⟩)⟩

/-- A comparison has read no more than the context has. -/
def Comparison.Inside (cmp : Comparison) : Prop := cmp.2 ≤ cmp.1.ips.length

instance (cmp : Comparison) : Decidable cmp.Inside := inferInstanceAs (Decidable (_ ≤ _))

section Walk

variable {beyond : Beyond}

theorem ip_append {ec : ExeContext} {pre post : List Nat} {ip : Nat} (h : ec.ips = pre ++ ip :: post) :
    ec.ip beyond pre.length = ip := by
  rw [ExeContext.ip, h]
  simp

/-- Comparing with the trace itself: all of it is read. -/
theorem compareIps_self {ec : ExeContext} (pre : List Nat) {post : List Nat} (h : ec.ips = pre ++ post) :
    compareIps beyond ec pre.length post = (true, ec.ips.length) := by
  induction post generalizing pre with
  | nil => simp [compareIps, h]
  | cons ip post ih =>
    rw [compareIps, if_neg (by rw [ip_append h]; simp)]
    have hrest := ih (pre ++ [ip]) (by simp [h])
    rwa [List.length_append, List.length_singleton] at hrest

/-- Comparing with a trace that diverges: the difference is found inside. -/
theorem compareIps_of_diverge {ec : ExeContext} (pre : List Nat) {post ips : List Nat} (h : ec.ips = pre ++ post)
    (hne : Diverge post ips) :
    ∃ read, compareIps beyond ec pre.length ips = (false, read) ∧ read ≤ ec.ips.length := by
  induction ips generalizing pre post with
  | nil => exact absurd List.nil_prefix hne.2
  | cons ip ips ih =>
    cases post with
    | nil => exact absurd List.nil_prefix hne.1
    | cons ip' post =>
      rw [compareIps, ip_append h]
      by_cases heq : ip' = ip
      · subst heq
        rw [if_neg (fun hn => hn rfl)]
        obtain ⟨read, hrest, hread⟩ := ih (pre ++ [ip']) (by simp [h]) hne.of_cons
        rw [List.length_append, List.length_singleton] at hrest
        exact ⟨read, hrest, hread⟩
      · refine ⟨pre.length + 1, if_pos heq, ?_⟩
        rw [h, List.length_append, List.length_cons]
        omega

/-- The contexts that a search for a trace looks at before the one with that trace. -/
def aheadOf (ips : List Nat) (chain : List ExeContext) : List ExeContext := chain.takeWhile fun ec => ec.ips ≠ ips

theorem searchChain_spec (beyond : Beyond) {ips : List Nat} {chain : List ExeContext}
    (hahead : ∀ ec ∈ aheadOf ips chain, Diverge ec.ips ips) :
    ∃ found cmps, searchChain beyond ips chain = (found, cmps) ∧ (∀ cmp ∈ cmps, Comparison.Inside cmp) ∧
      match found with
      | some (i, ec) => chain[i]? = some ec ∧ ec.ips = ips
      | none => ∀ ec ∈ chain, ec.ips ≠ ips := by
  induction chain with
  | nil => exact ⟨none, [], rfl, List.forall_mem_nil _, List.forall_mem_nil _⟩
  | cons ec chain ih =>
    by_cases heq : ec.ips = ips
    · have hcmp : compareIps beyond ec 0 ips = (true, ec.ips.length) :=
        compareIps_self [] (by rw [heq]; rfl)
      refine ⟨some (0, ec), [(ec, ec.ips.length)], by simp [searchChain, hcmp], ?_, rfl, heq⟩
      exact List.forall_mem_singleton.mpr (Nat.le_refl _)
    · rw [aheadOf, List.takeWhile_cons_of_pos (by simpa using heq)] at hahead
      obtain ⟨read, hcmp, hread⟩ : ∃ read, compareIps beyond ec 0 ips = (false, read) ∧ read ≤ ec.ips.length :=
        compareIps_of_diverge [] rfl (hahead ec List.mem_cons_self)
      obtain ⟨found, cmps, hrun, hin, hfound⟩ := ih fun ec' h => hahead ec' (List.mem_cons_of_mem _ h)
      refine ⟨found.map fun (i, ec) => (i + 1, ec), (ec, read) :: cmps, ?_, ?_, ?_⟩
      · simp [searchChain, hcmp, hrun]
      · exact List.forall_mem_cons.mpr ⟨hread, hin⟩
      · cases found with
        | none => exact List.forall_mem_cons.mpr ⟨heq, hfound⟩
        | some f => exact hfound

end Walk

theorem moveCloser_perm (i : Nat) (chain : List ExeContext) : (moveCloser i chain).Perm chain := by
  induction i, chain using moveCloser.induct with
  | case1 prev list chain => exact List.Perm.swap prev list chain
  | case2 i ec chain ih => exact ih.cons ec
  | case3 i chain h₁ h₂ =>
    rw [moveCloser]
    · exact h₁
    · exact h₂

/-! ## What the table contains -/

section Table

variable [Machine]

/-- The chains hold the contexts that have been issued, each of them once, at its bucket;
traces and ECUs are not issued twice. -/
structure Storage.Inv (st : Storage) (issued : List ExeContext) : Prop where
  size : ecPrimes[st.ecHtabSizeIdx]? = some st.ecHtabSize
  nodup : ∀ i, (st.ecHtab i).Nodup
  mem : ∀ i ec, ec ∈ st.ecHtab i ↔ ec ∈ issued ∧ calcHash ec.ips st.ecHtabSize = i
  ecu : ∀ k ec, issued[k]? = some ec → ec.ecu = 4 * (k + 1)
  next : st.ecNextEcu = 4 * (issued.length + 1)
  nextLt : st.ecNextEcu < 2 ^ 32
  traces : (issued.map ExeContext.ips).Nodup

variable {st : Storage} {issued : List ExeContext}

omit [Machine] in
theorem ecPrimes_pos {i p : Nat} (h : ecPrimes[i]? = some p) : 0 < p :=
  (by decide : ∀ p ∈ ecPrimes, 0 < p) p (List.mem_of_getElem? h)

theorem Storage.Inv.idx_lt (h : st.Inv issued) : st.ecHtabSizeIdx < nEcPrimes :=
  (List.getElem?_eq_some_iff.mp h.size).1

theorem Storage.Inv.size_pos (h : st.Inv issued) : 0 < st.ecHtabSize := ecPrimes_pos h.size

theorem Storage.Inv.plausible (h : st.Inv issued) : isPlausibleECU st.ecNextEcu := by
  refine ⟨by rw [h.next]; omega, ?_⟩
  rw [h.next, show 3 = 2 ^ 2 - 1 from rfl, Nat.and_two_pow_sub_one_eq_mod]
  omega

/-- Contexts that have been issued are the same if their traces are. -/
theorem Storage.Inv.eq_of_ips (h : st.Inv issued) {ec ec' : ExeContext} (hec : ec ∈ issued) (hec' : ec' ∈ issued)
    (heq : ec.ips = ec'.ips) : ec = ec' :=
  List.inj_on_of_nodup_map h.traces hec hec' heq

/-- Contexts that have been issued are the same if their ECUs are. -/
theorem Storage.Inv.eq_of_ecu (h : st.Inv issued) {ec ec' : ExeContext} (hec : ec ∈ issued) (hec' : ec' ∈ issued)
    (heq : ec.ecu = ec'.ecu) : ec = ec' := by
  obtain ⟨k, hk⟩ := List.mem_iff_getElem?.mp hec
  obtain ⟨k', hk'⟩ := List.mem_iff_getElem?.mp hec'
  have h₁ := h.ecu k ec hk
  have h₂ := h.ecu k' ec' hk'
  obtain rfl : k = k' := by omega
  exact Option.some.inj (hk.symm.trans hk')

theorem initExeContextStorage_inv : initExeContextStorage.Inv [] where
  size := rfl
  nodup := fun _ => List.nodup_nil
  mem := fun _ _ => by simp [initExeContextStorage]
  ecu := fun _ _ h => by simp at h
  next := rfl
  nextLt := by decide
  traces := List.nodup_nil

/-! ### Resizing -/

/-- Rehashing a list of contexts puts each at the head of its chain. -/
theorem foldl_rehash (newSize : Nat) (l : List ExeContext) (tab : Nat → List ExeContext) (i : Nat) :
    l.foldl (rehash newSize) tab i =
      (l.filter fun ec => calcHash ec.ips newSize = i).reverse ++ tab i := by
  induction l generalizing tab with
  | nil => rfl
  | cons ec l ih =>
    rw [List.foldl_cons, ih, rehash]
    by_cases hi : calcHash ec.ips newSize = i
    · subst hi
      simp
    · rw [Function.update_of_ne (Ne.symm hi), List.filter_cons_of_neg (by simpa using hi)]

/-- All the chains, one behind the other. -/
def Storage.contents (st : Storage) : List ExeContext := (List.range st.ecHtabSize).flatMap st.ecHtab

theorem Storage.Inv.mem_contents (h : st.Inv issued) (ec : ExeContext) : ec ∈ st.contents ↔ ec ∈ issued := by
  simp only [contents, List.mem_flatMap, List.mem_range, h.mem]
  constructor
  · rintro ⟨i, -, hec, -⟩
    exact hec
  · intro hec
    exact ⟨_, calcHash_lt ec.ips h.size_pos, hec, rfl⟩

theorem Storage.Inv.nodup_contents (h : st.Inv issued) : st.contents.Nodup := by
  refine List.nodup_flatMap.mpr ⟨fun i _ => h.nodup i, List.nodup_range.imp fun {i j} hij => ?_⟩
  intro ec hi hj
  exact hij (((h.mem i ec).mp hi).2.symm.trans ((h.mem j ec).mp hj).2)

/-- The contents, dealt out to another number of chains. -/
theorem Storage.Inv.resized (h : st.Inv issued) {tab : Nat → List ExeContext} {idx newSize : Nat}
    (hsize : ecPrimes[idx]? = some newSize)
    (htab : ∀ i, tab i = (st.contents.filter fun ec => calcHash ec.ips newSize = i).reverse) :
    Storage.Inv { st with ecHtab := tab, ecHtabSize := newSize, ecHtabSizeIdx := idx } issued where
  size := hsize
  nodup := fun i => by
    simp only [htab]
    exact List.nodup_reverse.mpr (h.nodup_contents.filter _)
  mem := fun i ec => by simp [htab, h.mem_contents]
  ecu := h.ecu
  next := h.next
  nextLt := h.nextLt
  traces := h.traces

theorem resizeEcHtab_spec (h : st.Inv issued) : ∃ st', resizeEcHtab st = .ok st' ∧ st'.Inv issued := by
  rw [resizeEcHtab, assertThat_of h.idx_lt, ok_bind]
  by_cases hlast : st.ecHtabSizeIdx = nEcPrimes - 1
  · exact ⟨st, by rw [if_pos hlast]; rfl, h⟩
  · obtain ⟨newSize, hnew⟩ : ∃ newSize, ecPrimes[st.ecHtabSizeIdx + 1]? = some newSize := by
      refine ⟨_, List.getElem?_eq_getElem ?_⟩
      have := h.idx_lt
      show st.ecHtabSizeIdx + 1 < nEcPrimes
      omega
    have hget : ecPrimes.getD (st.ecHtabSizeIdx + 1) 0 = newSize := by
      rw [List.getD_eq_getElem?_getD, hnew]
      rfl
    rw [if_neg hlast, hget]
    simp only [assertThat_of (ecPrimes_pos hnew), ok_bind]
    refine ⟨_, rfl, h.resized hnew fun i => ?_⟩
    rw [← List.foldl_flatMap, foldl_rehash, List.append_nil]
    rfl

/-! ### One call -/

/-- The context is one of those before, or the next one. -/
theorem Storage.Inv.update {tab : Nat → List ExeContext} {ctr : Nat} (h : st.Inv issued)
    (hperm : ∀ i, (tab i).Perm (st.ecHtab i)) : Storage.Inv { st with ecHtab := tab, ctr := ctr } issued where
  size := h.size
  nodup := fun i => (hperm i).nodup_iff.mpr (h.nodup i)
  mem := fun i ec => (hperm i).mem_iff.trans (h.mem i ec)
  ecu := h.ecu
  next := h.next
  nextLt := h.nextLt
  traces := h.traces

/-- A new context, at the head of its chain. -/
theorem Storage.Inv.add (h : st.Inv issued) {ips : List Nat} (hnew : ips ∉ issued.map ExeContext.ips)
    (hroom : st.ecNextEcu + 4 < 2 ^ 32) :
    Storage.Inv
      { st with
        ecHtab := Function.update st.ecHtab (calcHash ips st.ecHtabSize)
          (⟨st.ecNextEcu, ips⟩ :: st.ecHtab (calcHash ips st.ecHtabSize))
        ecNextEcu := (st.ecNextEcu + 4) % 2 ^ 32
        ecTotstored := st.ecTotstored + 1 }
      (issued ++ [⟨st.ecNextEcu, ips⟩]) where
  size := h.size
  nodup := fun i => by
    by_cases hi : i = calcHash ips st.ecHtabSize
    · subst hi
      simp only [Function.update_self, List.nodup_cons, h.mem]
      exact ⟨fun hmem => hnew (List.mem_map_of_mem hmem.1), h.nodup _⟩
    · simp only [Function.update_of_ne hi, h.nodup]
  mem := fun i ec => by
    by_cases hi : i = calcHash ips st.ecHtabSize
    · subst hi
      simp only [Function.update_self, List.mem_cons, List.mem_append, List.not_mem_nil, or_false, h.mem]
      constructor
      · rintro (rfl | ⟨hec, hh⟩)
        · exact ⟨.inr rfl, rfl⟩
        · exact ⟨.inl hec, hh⟩
      · rintro ⟨hec | rfl, hh⟩
        · exact .inr ⟨hec, hh⟩
        · exact .inl rfl
    · simp only [Function.update_of_ne hi, List.mem_append, List.mem_cons, List.not_mem_nil, or_false, h.mem]
      constructor
      · rintro ⟨hec, hh⟩
        exact ⟨.inl hec, hh⟩
      · rintro ⟨hec | rfl, hh⟩
        · exact ⟨hec, hh⟩
        · exact absurd hh.symm hi
  ecu := fun k ec hk => by
    rw [List.getElem?_append] at hk
    split at hk
    · exact h.ecu k ec hk
    · next hge =>
      obtain ⟨hlt, rfl⟩ := List.getElem?_eq_some_iff.mp hk
      simp only [List.length_singleton] at hlt
      obtain rfl : k = issued.length := by omega
      simpa using h.next
  next := by
    rw [Nat.mod_eq_of_lt hroom, h.next]
    simp only [List.length_append, List.length_singleton]
    omega
  nextLt := Nat.mod_lt _ (by decide)
  traces := by
    rw [List.map_append, List.nodup_append]
    refine ⟨h.traces, List.nodup_singleton _, ?_⟩
    rintro ips' ha _ hb rfl
    obtain rfl : ips' = ips := by simpa using hb
    exact hnew ha

/-- The contexts that a search for the trace meets before its own diverge from it; and a
number is left for it if there is no such context yet. -/
structure Storage.Ready (st : Storage) (ips : List Nat) : Prop where
  ahead : ∀ ec ∈ aheadOf ips (st.ecHtab (calcHash ips st.ecHtabSize)), Diverge ec.ips ips
  room : (∃ ec ∈ st.ecHtab (calcHash ips st.ecHtabSize), ec.ips = ips) ∨ st.ecNextEcu + 4 < 2 ^ 32

instance (ips : List Nat) : Decidable (st.Ready ips) :=
  decidable_of_iff (_ ∧ _) ⟨fun h => ⟨h.1, h.2⟩, fun h => ⟨h.ahead, h.room⟩⟩

theorem recordExeContextWrk2_spec (h : st.Inv issued) {cloBacktraceSize : Nat} (beyond : Beyond) {ips : List Nat}
    (hlen : ips.length ≥ 1 ∧ ips.length ≤ cloBacktraceSize) (hready : st.Ready ips) :
    ∃ st' ec cmps issued', recordExeContextWrk2 cloBacktraceSize beyond st ips = .ok (st', ec, cmps) ∧
      st'.Inv issued' ∧ issued <+: issued' ∧ ec ∈ issued' ∧ ec.ips = ips ∧ ∀ cmp ∈ cmps, Comparison.Inside cmp := by
  obtain ⟨found, cmps, hsearch, hin, hfound⟩ := searchChain_spec beyond hready.ahead
  rw [recordExeContextWrk2, assertThat_of hlen, ok_bind, assertThat_of h.size_pos, ok_bind]
  simp only [hsearch]
  cases found with
  | some f =>
    obtain ⟨i, ec⟩ := f
    obtain ⟨hget, hips⟩ := hfound
    have hec := (h.mem _ ec).mp (List.mem_of_getElem? hget)
    refine ⟨_, ec, cmps, issued, rfl, h.update fun j => ?_, List.prefix_rfl, hec.1, hips, hin⟩
    by_cases hj : j = calcHash ips st.ecHtabSize
    · subst hj
      rw [Function.update_self]
      split
      · exact moveCloser_perm _ _
      · exact List.Perm.refl _
    · rw [Function.update_of_ne hj]
  | none =>
    have hroom : st.ecNextEcu + 4 < 2 ^ 32 :=
      hready.room.resolve_left fun ⟨ec, hec, heq⟩ => hfound ec hec heq
    have hnew : ips ∉ issued.map ExeContext.ips := by
      intro hmem
      obtain ⟨ec, hec, rfl⟩ := List.mem_map.mp hmem
      exact hfound ec ((h.mem _ ec).mpr ⟨hec, rfl⟩) rfl
    have hadd := h.add hnew hroom
    have hpos : ¬ (st.ecNextEcu + 4) % 2 ^ 32 = 0 := by
      rw [Nat.mod_eq_of_lt hroom]
      omega
    simp only [assertThat_of h.plausible, ok_bind, if_neg hpos]
    have hmem : (⟨st.ecNextEcu, ips⟩ : ExeContext) ∈ issued ++ [⟨st.ecNextEcu, ips⟩] := by simp
    split
    · rw [assertThat_of h.idx_lt, ok_bind]
      split
      · obtain ⟨st', hresize, hinv⟩ := resizeEcHtab_spec hadd
        exact ⟨st', _, cmps, _, by rw [hresize]; rfl, hinv, List.prefix_append _ _, hmem, rfl, hin⟩
      · exact ⟨_, _, cmps, _, rfl, hadd, List.prefix_append _ _, hmem, rfl, hin⟩
    · exact ⟨_, _, cmps, _, rfl, hadd, List.prefix_append _ _, hmem, rfl, hin⟩

/-- The map from ECUs back to contexts. -/
theorem getExeContextFromECU_spec (h : st.Inv issued) {ec : ExeContext} (hec : ec ∈ issued) :
    isPlausibleECU ec.ecu ∧ getExeContextFromECU st ec.ecu = .ok (some ec) := by
  have hplaus : isPlausibleECU ec.ecu := by
    obtain ⟨k, hk⟩ := List.mem_iff_getElem?.mp hec
    rw [h.ecu k ec hk]
    refine ⟨by omega, ?_⟩
    rw [show 3 = 2 ^ 2 - 1 from rfl, Nat.and_two_pow_sub_one_eq_mod]
    omega
  refine ⟨hplaus, ?_⟩
  rw [getExeContextFromECU, assertThat_of hplaus, ok_bind, assertThat_of h.size_pos, ok_bind]
  congr 1
  cases hfind : (List.range st.ecHtabSize).findSome? fun i => (st.ecHtab i).find? fun ec' => ec'.ecu = ec.ecu with
  | none =>
    rw [List.findSome?_eq_none_iff] at hfind
    have hnone := hfind _ (List.mem_range.mpr (calcHash_lt ec.ips h.size_pos))
    rw [List.find?_eq_none] at hnone
    exact absurd (decide_eq_true rfl) (hnone ec ((h.mem _ ec).mpr ⟨hec, rfl⟩))
  | some ec' =>
    obtain ⟨i, -, hi⟩ := List.exists_of_findSome?_eq_some hfind
    have hecu : ec'.ecu = ec.ecu := by simpa using List.find?_some hi
    rw [h.eq_of_ecu ((h.mem i ec').mp (List.mem_of_find?_eq_some hi)).1 hec hecu]

end Table

/-! ## Runs -/

/-- What `VG_(get_IP)` and `VG_(get_StackTrace)` find for a thread. -/
structure ThreadStack where
  ip : Nat
  stackTrace : List Nat

/-- The calls that record a trace. -/
inductive Call where
  /-- `VG_(record_ExeContext)`. -/
  | recordExeContext (tid : ThreadStack)
  /-- `VG_(record_depth_1_ExeContext)`. -/
  | recordDepth1ExeContext (tid : ThreadStack)
  /-- `VG_(make_depth_1_ExeContext_from_Addr)`. -/
  | makeDepth1ExeContextFromAddr (a : Nat)

/-- The trace that a call records. -/
def Call.trace : Call → List Nat
  | recordExeContext tid => tid.stackTrace
  | recordDepth1ExeContext tid => [tid.ip]
  | makeDepth1ExeContextFromAddr a => [a]

/-- A call, and what the memory behind the stored contexts holds at that time. -/
structure Request where
  mem : Beyond
  call : Call

/-- What a call has returned for a trace, and the comparisons it has made. -/
structure Answer where
  ips : List Nat
  ec : ExeContext
  cmps : List Comparison

section Runs

variable [Machine]

/-- `record_ExeContext_wrk`. -/
def recordExeContextWrk (cloBacktraceSize : Nat) (beyond : Beyond) (st : Storage) (tid : ThreadStack)
    (firstIpOnly : Bool) : Result (Storage × ExeContext × List Comparison) := do
  assertThat (cloBacktraceSize ≥ 1 ∧ cloBacktraceSize ≤ deepestBacktrace)
  let ips := if firstIpOnly then [tid.ip] else tid.stackTrace
  recordExeContextWrk2 cloBacktraceSize beyond st ips

/-- Make a call. -/
def Call.run (cloBacktraceSize : Nat) (beyond : Beyond) (st : Storage) :
    Call → Result (Storage × ExeContext × List Comparison)
  | recordExeContext tid => recordExeContextWrk cloBacktraceSize beyond st tid false
  | recordDepth1ExeContext tid => recordExeContextWrk cloBacktraceSize beyond st tid true
  | makeDepth1ExeContextFromAddr a => recordExeContextWrk2 cloBacktraceSize beyond st [a]

/-- A call, and its answer behind the ones before. -/
def answer (cloBacktraceSize : Nat) (s : Storage × List Answer) (req : Request) : Result (Storage × List Answer) := do
  let (st, ec, cmps) ← req.call.run cloBacktraceSize req.mem s.1
  return (st, s.2 ++ [⟨req.call.trace, ec, cmps⟩])

/-- What is expected of the table and of the answers that have been given. -/
structure Canonical (st : Storage) (log : List Answer) : Prop where
  /-- The context has the trace that was passed in. -/
  exact : ∀ a ∈ log, a.ec.ips = a.ips
  /-- The same context for the same trace, and for no other. -/
  same : ∀ a ∈ log, ∀ b ∈ log, a.ec = b.ec ↔ a.ips = b.ips
  /-- A context is in one chain, once, and at its bucket. -/
  chained : ∀ a ∈ log, ∀ i, (st.ecHtab i).count a.ec = if calcHash a.ips st.ecHtabSize = i then 1 else 0
  inside : ∀ a ∈ log, ∀ cmp ∈ a.cmps, Comparison.Inside cmp
  ecuOk : ∀ a ∈ log, isPlausibleECU a.ec.ecu
  ecuUnique : ∀ a ∈ log, ∀ b ∈ log, a.ec.ecu = b.ec.ecu → a.ec = b.ec
  ofECU : ∀ a ∈ log, getExeContextFromECU st a.ec.ecu = .ok (some a.ec)

/-- The answers are contexts that have been issued, for the traces asked for. -/
structure Answered (st : Storage) (log : List Answer) (issued : List ExeContext) : Prop where
  inv : st.Inv issued
  mem : ∀ a ∈ log, a.ec ∈ issued ∧ a.ec.ips = a.ips ∧ ∀ cmp ∈ a.cmps, Comparison.Inside cmp

variable {st : Storage} {log : List Answer} {issued : List ExeContext}

theorem Answered.canonical (h : Answered st log issued) : Canonical st log where
  exact := fun a ha => (h.mem a ha).2.1
  same := fun a ha b hb => by
    rw [← (h.mem a ha).2.1, ← (h.mem b hb).2.1]
    exact ⟨fun heq => heq ▸ rfl, h.inv.eq_of_ips (h.mem a ha).1 (h.mem b hb).1⟩
  chained := fun a ha i => by
    rw [List.Nodup.count (h.inv.nodup i), ← (h.mem a ha).2.1]
    simp [h.inv.mem, (h.mem a ha).1]
  inside := fun a ha => (h.mem a ha).2.2
  ecuOk := fun a ha => (getExeContextFromECU_spec h.inv (h.mem a ha).1).1
  ecuUnique := fun a ha b hb => h.inv.eq_of_ecu (h.mem a ha).1 (h.mem b hb).1
  ofECU := fun a ha => (getExeContextFromECU_spec h.inv (h.mem a ha).1).2

/-- Behind its assertion on the option, every call is `record_ExeContext_wrk2`. -/
theorem Call.run_eq {cloBacktraceSize : Nat} (hclo : cloBacktraceSize ≥ 1 ∧ cloBacktraceSize ≤ deepestBacktrace)
    (beyond : Beyond) (st : Storage) (call : Call) :
    call.run cloBacktraceSize beyond st = recordExeContextWrk2 cloBacktraceSize beyond st call.trace := by
  cases call with
  | recordExeContext tid =>
    rw [run, recordExeContextWrk, assertThat_of hclo, ok_bind]
    rfl
  | recordDepth1ExeContext tid =>
    rw [run, recordExeContextWrk, assertThat_of hclo, ok_bind]
    rfl
  | makeDepth1ExeContextFromAddr a => rfl

theorem answer_spec {cloBacktraceSize : Nat} (hclo : cloBacktraceSize ≥ 1 ∧ cloBacktraceSize ≤ deepestBacktrace)
    (h : Answered st log issued) {req : Request}
    (hlen : req.call.trace.length ≥ 1 ∧ req.call.trace.length ≤ cloBacktraceSize) (hready : st.Ready req.call.trace) :
    ∃ st' ec cmps issued', answer cloBacktraceSize (st, log) req = .ok (st', log ++ [⟨req.call.trace, ec, cmps⟩]) ∧
      Answered st' (log ++ [⟨req.call.trace, ec, cmps⟩]) issued' := by
  obtain ⟨st', ec, cmps, issued', hrun, hinv, hpre, hec, hips, hin⟩ :=
    recordExeContextWrk2_spec h.inv req.mem hlen hready
  refine ⟨st', ec, cmps, issued', ?_, hinv, fun a ha => ?_⟩
  · rw [answer, Call.run_eq hclo, hrun]
    rfl
  · rcases List.mem_append.mp ha with ha | ha
    · exact ⟨hpre.subset (h.mem a ha).1, (h.mem a ha).2⟩
    · rw [List.mem_singleton.mp ha]
      exact ⟨hec, hips, hin⟩

theorem answers_spec {cloBacktraceSize : Nat} (hclo : cloBacktraceSize ≥ 1 ∧ cloBacktraceSize ≤ deepestBacktrace)
    (h : Answered st log issued) {reqs : List Request}
    (hlen : ∀ req ∈ reqs, req.call.trace.length ≥ 1 ∧ req.call.trace.length ≤ cloBacktraceSize)
    (hready : runMeets (answer cloBacktraceSize) (fun s req => s.1.Ready req.call.trace) (st, log) reqs) :
    ∃ st' log' issued', runSteps (answer cloBacktraceSize) (st, log) reqs = .ok (st', log') ∧
      Answered st' log' issued' ∧ log'.map Answer.ips = log.map Answer.ips ++ reqs.map fun req => req.call.trace := by
  induction reqs generalizing st log issued with
  | nil => exact ⟨st, log, issued, rfl, h, by simp⟩
  | cons req reqs ih =>
    obtain ⟨st₁, ec, cmps, issued₁, hstep, h₁⟩ := answer_spec hclo h (hlen req List.mem_cons_self) hready.1
    obtain ⟨st', log', issued', hrun, h', hlog⟩ := ih h₁ (fun r hr => hlen r (List.mem_cons_of_mem _ hr))
      (hready.2 _ hstep)
    exact ⟨st', log', issued', runSteps_cons.mpr ⟨_, hstep, hrun⟩, h', by simp [hlog]⟩

/-- **ExeContexts are canonical** in every run in which the contexts that a search meets
before the one it looks for diverge from the trace, and in which there are numbers left. -/
theorem exeContexts_canonical (cloBacktraceSize : Nat)
    (hclo : cloBacktraceSize ≥ 1 ∧ cloBacktraceSize ≤ deepestBacktrace) (reqs : List Request)
    (hlen : ∀ req ∈ reqs, req.call.trace.length ≥ 1 ∧ req.call.trace.length ≤ cloBacktraceSize)
    (hready : runMeets (answer cloBacktraceSize) (fun s req => s.1.Ready req.call.trace)
      (initExeContextStorage, []) reqs) :
    ∃ st log, runSteps (answer cloBacktraceSize) (initExeContextStorage, []) reqs = .ok (st, log) ∧
      (log.map Answer.ips = reqs.map fun req => req.call.trace) ∧ Canonical st log := by
  obtain ⟨st, log, issued, hrun, h, hlog⟩ := answers_spec hclo
    ⟨initExeContextStorage_inv, List.forall_mem_nil _⟩ hlen hready
  exact ⟨st, log, hrun, hlog, h.canonical⟩

end Runs

/-- What the memory behind the contexts holds in the runs below. -/
def zeroBeyond : Beyond := fun _ _ => 0

/-- A stack of two frames: in the table of 769 chains its trace and the address on top of it
come to the same chain. -/
def deepThread : ThreadStack := ⟨0x400544, [0x400544, 0x40004d]⟩

/-- A trace of length two and the address on top of it, on two chains. -/
theorem exeContexts_canonical_two :
    ∃ st log, runSteps (@answer amd64Linux 12) (initExeContextStorage, [])
        [⟨zeroBeyond, .recordExeContext ⟨0x400544, [0x400544, 0x400017]⟩⟩,
          ⟨zeroBeyond, .recordDepth1ExeContext ⟨0x400544, [0x400544, 0x400017]⟩⟩,
          ⟨zeroBeyond, .makeDepth1ExeContextFromAddr 0x400544⟩] = .ok (st, log) ∧
      log.map Answer.ips = [[0x400544, 0x400017], [0x400544], [0x400544]] ∧ @Canonical amd64Linux st log :=
  @exeContexts_canonical amd64Linux 12 (by decide) _ (by decide) (by decide)

/-- **Not canonical**: a trace that is a proper prefix of a stored one is taken for it, and a
trace that a stored one is a proper prefix of is compared with what comes behind it. -/
theorem exeContexts_prefix :
    (∃ st log, runSteps (@answer amd64Linux 12) (initExeContextStorage, [])
        [⟨zeroBeyond, .recordExeContext deepThread⟩, ⟨zeroBeyond, .recordDepth1ExeContext deepThread⟩] =
          .ok (st, log) ∧ ¬ ∀ a ∈ log, a.ec.ips = a.ips) ∧
    ∃ st log, runSteps (@answer amd64Linux 12) (initExeContextStorage, [])
        [⟨zeroBeyond, .recordDepth1ExeContext deepThread⟩, ⟨zeroBeyond, .recordExeContext deepThread⟩] =
          .ok (st, log) ∧ ¬ ∀ a ∈ log, ∀ cmp ∈ a.cmps, Comparison.Inside cmp := by
  constructor
  · obtain ⟨⟨st, log⟩, hrun, h⟩ := Result.exists_of_holds
      (r := runSteps (@answer amd64Linux 12) (initExeContextStorage, [])
        [⟨zeroBeyond, .recordExeContext deepThread⟩, ⟨zeroBeyond, .recordDepth1ExeContext deepThread⟩])
      (p := fun s => decide ¬ ∀ a ∈ s.2, a.ec.ips = a.ips) (by decide)
    exact ⟨st, log, hrun, of_decide_eq_true h⟩
  · obtain ⟨⟨st, log⟩, hrun, h⟩ := Result.exists_of_holds
      (r := runSteps (@answer amd64Linux 12) (initExeContextStorage, [])
        [⟨zeroBeyond, .recordDepth1ExeContext deepThread⟩, ⟨zeroBeyond, .recordExeContext deepThread⟩])
      (p := fun s => decide ¬ ∀ a ∈ s.2, ∀ cmp ∈ a.cmps, cmp.Inside) (by decide)
    exact ⟨st, log, hrun, of_decide_eq_true h⟩

end Coregrind

end Valgrind
