import Valgrind.Coregrind.ExeContext
import Valgrind.Coregrind.StringMatch
import Valgrind.Lib.SinglyLinked

/-!
# Matching errors against suppressions (`m_errormgr.c`)

A suppression has a list of patterns for the innermost frames of a stack trace. The search along
the list of suppressions moves the one it finds to the front. `supp_matches_callers` reads as many
addresses of the trace as the suppression has patterns and never looks at the length of the trace,
so that for a short trace it may read behind its end.

The names of functions and objects, and what the tool says about an error, are parameters.
-/

namespace Valgrind.Coregrind

open Demangle (CString nul)
open SinglyLinked

/-! ## The code -/

/-- `SuppLocTy`. -/
inductive SuppLocTy where
  | noName
  | objName
  | funName
  deriving DecidableEq, Repr

/-- `SuppLoc`. -/
structure SuppLoc where
  ty : SuppLocTy
  name : Option CString

/-- `Supp`, as `load_one_suppressions_file` makes them: every caller has a name, which has been
found to be that of a function or of an object. There are `n_callers` callers. -/
structure Supp (κ : Type) where
  sname : CString
  callers : List SuppLoc
  skind : κ
  string : Option CString
  named : ∀ c ∈ callers, c.name.isSome
  typed : ∀ c ∈ callers, c.ty ≠ .noName

/-- A suppression in memory. -/
structure SuppNode (κ : Type) where
  next : Option Nat
  supp : Supp κ

/-- `suppressions`, and the memory it points into. -/
structure SuppState (κ : Type) where
  heap : Nat → Option (SuppNode κ)
  suppressions : Option Nat

/-- `Error`: the stack trace, and what the tool knows about it. -/
structure ToolError (η : Type) where
  where' : ExeContext
  data : η

/-- What the rest of the program contributes. -/
structure SuppEnv (η κ : Type) where
  /-- `VG_(get_objname)`. -/
  getObjname : Nat → Option CString
  /-- `VG_(get_fnname_Z_demangle_only)`. -/
  getFnname : Nat → Option CString
  /-- `VG_(needs).tool_errors`. -/
  toolErrors : Bool
  /-- `tool_error_matches_suppression`. -/
  toolMatches : ToolError η → Supp κ → Bool
  /-- What lies behind the trace of a context. -/
  beyond : Beyond

section

variable {η κ : Type} (env : SuppEnv η κ)

/-- What stands for a name that is not known. -/
def unknownName : CString := ⟨"???".toList, by decide⟩

/-- `caller_name`. -/
def callerName (ty : SuppLocTy) (a : Nat) : Result CString :=
  match ty with
  | .objName => return (env.getObjname a).getD unknownName
  | .funName => return (env.getFnname a).getD unknownName
  | .noName => throw .panic

/-- The loop of `supp_matches_callers`, from index `i` on: its result, and the indices at which
`ips` has been read. -/
def matchCallers (ec : ExeContext) : Nat → List SuppLoc → Result (Bool × List Nat)
  | _, [] => return (true, [])
  | i, c :: callers => do
    let a := ec.ip env.beyond i
    match c.name with
    | none => throw .assertFailed
    | some pat => do
      let name ← callerName env c.ty a
      if ← stringMatch pat name (pat.chars.length + name.chars.length + 1) then do
        let (r, read) ← matchCallers ec (i + 1) callers
        return (r, i :: read)
      else return (false, [i])

/-- `supp_matches_callers`. -/
def suppMatchesCallers (err : ToolError η) (su : Supp κ) : Result (Bool × List Nat) :=
  matchCallers env err.where' 0 su.callers

/-- `supp_matches_error`. -/
def suppMatchesError (su : Supp κ) (err : ToolError η) : Result Bool :=
  if env.toolErrors then return env.toolMatches err su else throw .panic

/-- `supp_matches_error(su, err) && supp_matches_callers(err, su)`. -/
def suppMatches (su : Supp κ) (err : ToolError η) : Result (Bool × List Nat) := do
  if ← suppMatchesError env su err then suppMatchesCallers env err su else return (false, [])

/-- The suppression at an address. -/
def suppAt (heap : Nat → Option (SuppNode κ)) (a : Nat) : Result (SuppNode κ) :=
  match heap a with
  | some node => .ok node
  | none => .error .fault

/-- "got a match. Move this entry to the head of the list". -/
def moveSuppToFront (st : SuppState κ) (suPrev : Option Nat) (su : Nat) : Result (SuppState κ) :=
  match suPrev with
  | none => return st
  | some prev => do
    let prevNode ← suppAt st.heap prev
    assertThat (prevNode.next = some su)
    let node ← suppAt st.heap su
    let heap := Function.update st.heap prev (some { prevNode with next := node.next })
    let node ← suppAt heap su
    return ⟨Function.update heap su (some { node with next := st.suppressions }), some su⟩

/-- The loop of `is_suppressible_error`. -/
def searchSupps (err : ToolError η) (st : SuppState κ) : Nat → Option Nat → Option Nat →
    Result (Option Nat × SuppState κ × List Nat)
  | 0, _, _ => throw .diverge
  | _ + 1, _, none => return (none, st, [])
  | fuel + 1, suPrev, some su => do
    let node ← suppAt st.heap su
    let (found, read) ← suppMatches env node.supp err
    if found then do
      let st ← moveSuppToFront st suPrev su
      return (some su, st, read)
    else do
      let (r, st, read') ← searchSupps err st fuel (some su) node.next
      return (r, st, read ++ read')

/-- `is_suppressible_error`: the suppression that is found, the list then, and the indices at which
the trace of the error has been read. -/
def isSuppressibleError (fuel : Nat) (st : SuppState κ) (err : ToolError η) :
    Result (Option Nat × SuppState κ × List Nat) :=
  searchSupps env err st fuel none st.suppressions

/-! ## What matching means -/

/-- The pattern matches the name of the frame. -/
def FrameMatches (c : SuppLoc) (a : Nat) : Prop :=
  ∃ pat name, c.name = some pat ∧ callerName env c.ty a = .ok name ∧ name.chars ∈ patLanguage pat.chars

/-- The suppression matches the trace: the trace has enough frames, and each pattern matches its
frame. -/
def TraceMatches (err : ToolError η) (su : Supp κ) : Prop :=
  su.callers.length ≤ err.where'.ips.length ∧ ∀ p ∈ su.callers.zip err.where'.ips, FrameMatches env p.1 p.2

/-- The suppression has no more patterns than the trace has frames, or a frame does not match its
pattern. -/
def StaysInside (err : ToolError η) (su : Supp κ) : Prop :=
  su.callers.length ≤ err.where'.ips.length ∨ ∃ p ∈ su.callers.zip err.where'.ips, ¬ FrameMatches env p.1 p.2

variable {env} {err : ToolError η} {su : Supp κ} {ec : ExeContext} {c : SuppLoc} {callers : List SuppLoc} {a i fuel : Nat}

/-! ## One suppression -/

/-- A caller of a suppression that has been loaded. -/
def SuppLoc.Loaded (c : SuppLoc) : Prop := c.name.isSome ∧ c.ty ≠ .noName

theorem Supp.loaded (su : Supp κ) : ∀ c ∈ su.callers, c.Loaded := fun c hc => ⟨su.named c hc, su.typed c hc⟩

/-- What is compared for one frame. -/
theorem frameMatches_spec (env : SuppEnv η κ) (hc : c.Loaded) (a : Nat) : ∃ pat name b, c.name = some pat ∧ callerName env c.ty a = .ok name ∧
    stringMatch pat name (pat.chars.length + name.chars.length + 1) = .ok b ∧ (b = true ↔ FrameMatches env c a) := by
  obtain ⟨pat, hpat⟩ := Option.isSome_iff_exists.mp hc.1
  obtain ⟨name, hname⟩ : ∃ name, callerName env c.ty a = .ok name := by
    cases hty : c.ty with
    | noName => exact absurd hty hc.2
    | objName => exact ⟨_, rfl⟩
    | funName => exact ⟨_, rfl⟩
  obtain ⟨b, hrun, hb⟩ := stringMatch_spec pat name
  refine ⟨pat, name, b, hpat, hname, hrun _ (Nat.lt_succ_self _), hb.trans ⟨fun h => ⟨pat, name, hpat, hname, h⟩, ?_⟩⟩
  rintro ⟨pat', name', hpat', hname', hmem⟩
  obtain rfl := Option.some.inj (hpat.symm.trans hpat')
  obtain rfl := Except.ok.inj (hname.symm.trans hname')
  exact hmem

/-- What the comparison of a suppression with a trace does: it stays inside the trace and gives the
right answer, or it reads behind the end. -/
structure Compared (ec : ExeContext) (inside matching : Prop) (b : Bool) (read : List Nat) : Prop where
  right : inside → (∀ j ∈ read, j < ec.ips.length) ∧ (b = true ↔ matching)
  overrun : ¬ inside → ∃ j ∈ read, ec.ips.length ≤ j

/-- **The loop**, from any index on. -/
theorem matchCallers_spec (env : SuppEnv η κ) (ec : ExeContext) (hloaded : ∀ c ∈ callers, c.Loaded) (i : Nat) :
    ∃ b read, matchCallers env ec i callers = .ok (b, read) ∧
      Compared ec
        (callers.length ≤ (ec.ips.drop i).length ∨ ∃ p ∈ callers.zip (ec.ips.drop i), ¬ FrameMatches env p.1 p.2)
        (callers.length ≤ (ec.ips.drop i).length ∧ ∀ p ∈ callers.zip (ec.ips.drop i), FrameMatches env p.1 p.2) b read := by
  induction callers generalizing i with
  | nil => exact ⟨true, [], rfl, fun _ => by simp, fun h => absurd (.inl (Nat.zero_le _)) h⟩
  | cons c callers ih =>
    obtain ⟨hc, hcallers⟩ := List.forall_mem_cons.mp hloaded
    obtain ⟨pat, name, b₁, hpat, hname, hmatch, hb₁⟩ := frameMatches_spec env hc (ec.ip env.beyond i)
    obtain ⟨b₂, read, hrun, H⟩ := ih hcallers (i + 1)
    rw [matchCallers, hpat]
    simp only [hname, hmatch, ok_bind]
    cases hdrop : ec.ips.drop i with
    | nil =>
      -- behind the end of the trace
      have hlen := List.drop_eq_nil_iff.mp hdrop
      have hout : ∀ b read, i ∈ read → Compared ec ((c :: callers).length ≤ ([] : List Nat).length ∨
          ∃ p ∈ (c :: callers).zip [], ¬ FrameMatches env p.1 p.2) ((c :: callers).length ≤ ([] : List Nat).length ∧
          ∀ p ∈ (c :: callers).zip [], FrameMatches env p.1 p.2) b read :=
        fun b read hi => ⟨fun h => by simp at h, fun _ => ⟨i, hi, hlen⟩⟩
      cases b₁ with
      | false => exact ⟨false, [i], rfl, hout _ _ List.mem_cons_self⟩
      | true =>
        refine ⟨b₂, i :: read, ?_, hout _ _ List.mem_cons_self⟩
        simp only [if_true, hrun, ok_bind]
        rfl
    | cons a frames =>
      have hget : ec.ips[i]? = some a := by rw [← List.head?_drop, hdrop, List.head?_cons]
      have hlt := (List.getElem?_eq_some_iff.mp hget).1
      have hip : ec.ip env.beyond i = a := by rw [ExeContext.ip, hget, Option.getD_some]
      have hrest : ec.ips.drop (i + 1) = frames := by rw [← List.drop_drop, hdrop, List.drop_one, List.tail_cons]
      rw [hip] at hb₁
      rw [hrest] at H
      rw [List.zip_cons_cons, List.exists_mem_cons_iff, List.forall_mem_cons, List.length_cons, List.length_cons,
        Nat.add_le_add_iff_right]
      cases b₁ with
      | false =>
        have hnot : ¬ FrameMatches env c a := fun h => by cases hb₁.mpr h
        refine ⟨false, [i], rfl, fun _ => ⟨?_, iff_of_false Bool.false_ne_true fun h => hnot h.2.1⟩, fun h => ?_⟩
        · rintro j hj
          rwa [List.mem_singleton.mp hj]
        · exact absurd (.inr (.inl hnot)) h
      | true =>
        have hmatches := hb₁.mp rfl
        refine ⟨b₂, i :: read, ?_, fun h => ?_, fun h => ?_⟩
        · simp only [if_true, hrun, ok_bind]
          rfl
        · obtain ⟨hread, hb⟩ := H.right (h.imp_right fun h => h.resolve_left (not_not_intro hmatches))
          exact ⟨List.forall_mem_cons.mpr ⟨hlt, hread⟩, by rw [hb, and_iff_right hmatches]⟩
        · obtain ⟨j, hj, hle⟩ := H.overrun fun h' => h (h'.imp_right .inr)
          exact ⟨j, List.mem_cons_of_mem i hj, hle⟩

/-- `supp_matches_callers` does what it is there for. -/
def CallersRight (env : SuppEnv η κ) (err : ToolError η) (su : Supp κ) : Prop :=
  ∃ b read, suppMatchesCallers env err su = .ok (b, read) ∧ (∀ j ∈ read, j < err.where'.ips.length) ∧
    (b = true ↔ TraceMatches env err su)

theorem suppMatchesCallers_spec (env : SuppEnv η κ) (err : ToolError η) (su : Supp κ) :
    ∃ b read, suppMatchesCallers env err su = .ok (b, read) ∧
      Compared err.where' (StaysInside env err su) (TraceMatches env err su) b read := by
  obtain ⟨b, read, hrun, H⟩ := matchCallers_spec env err.where' su.loaded 0
  exact ⟨b, read, hrun, H⟩

/-- **`supp_matches_callers`** does so if it stays inside the trace. -/
theorem callersRight_iff : CallersRight env err su ↔ StaysInside env err su := by
  obtain ⟨b, read, hrun, H⟩ := suppMatchesCallers_spec env err su
  constructor
  · rintro ⟨b', read', hrun', hread, -⟩
    obtain ⟨rfl, rfl⟩ := Prod.mk.inj (Except.ok.inj (hrun.symm.trans hrun'))
    by_contra hnot
    obtain ⟨j, hj, hle⟩ := H.overrun hnot
    exact absurd (hread j hj) (Nat.not_lt.mpr hle)
  · exact fun hin => ⟨b, read, hrun, H.right hin⟩

/-! ## The list of suppressions -/

/-- How the suppressions are linked. -/
def suppLinks (κ : Type) : Links (SuppNode κ) (Supp κ) where
  next := SuppNode.next
  val := SuppNode.supp
  setNext node next := { node with next }
  next_setNext _ _ := rfl
  val_setNext _ _ := rfl

variable {st st' : SuppState κ} {es pre rest : List (Nat × Supp κ)} {suPrev p : Option Nat}

theorem suppAt_of {heap : Nat → Option (SuppNode κ)} {node : SuppNode κ} (h : heap a = some node) :
    suppAt heap a = .ok node := by
  rw [suppAt, h]

/-- The list of suppressions: their addresses, and what they are. -/
structure SuppState.Holds (st : SuppState κ) (es : List (Nat × Supp κ)) : Prop where
  path : Path (suppLinks κ) st.heap st.suppressions es
  nodup : (es.map Prod.fst).Nodup

/-- **Moving to the front** keeps all entries. -/
theorem moveSuppToFront_spec (h : st.Holds (pre ++ (a, su) :: rest)) :
    ∃ st', moveSuppToFront st (pre.getLast?.map Prod.fst) a = .ok st' ∧
      ∃ es', st'.Holds es' ∧ es'.Perm (pre ++ (a, su) :: rest) := by
  rcases List.eq_nil_or_concat pre with rfl | ⟨pre', ⟨b, w⟩, rfl⟩
  · exact ⟨st, rfl, _, h, List.Perm.refl _⟩
  · rw [List.concat_eq_append] at h ⊢
    have hperm : ((a, su) :: (pre' ++ (b, w) :: rest)).Perm (pre' ++ [(b, w)] ++ (a, su) :: rest) := by
      rw [List.append_assoc, List.singleton_append]
      exact List.perm_middle.symm.trans (List.Perm.append_left pre' (List.Perm.swap _ _ _))
    have hnodup : (((a, su) :: (pre' ++ (b, w) :: rest)).map Prod.fst).Nodup := (hperm.map Prod.fst).nodup_iff.mpr h.nodup
    obtain ⟨hnotin, hnodup'⟩ := List.nodup_cons.mp hnodup
    have hpath := h.path
    rw [List.append_assoc, List.singleton_append] at hpath
    obtain ⟨q, -, node, hnode, hw, hnext, node', hnode', hsu, hrest⟩ := hpath.suffix
    have hb : b ∉ pre'.map Prod.fst ∧ b ∉ rest.map Prod.fst := by
      rw [List.map_append, List.map_cons, List.nodup_middle] at hnodup'
      have hout := (List.nodup_cons.mp hnodup').1
      rw [List.mem_append, not_or] at hout
      exact hout
    have hab : a ≠ b := by
      rintro rfl
      exact hnotin (by simp)
    have hlink := hpath.relink hb.1 hb.2 hnode hrest
    have hfront := hlink.push (c := node') hnotin
    rw [hsu] at hfront
    have hnext' : node.next = some a := hnext
    refine ⟨⟨Function.update (Function.update st.heap b (some { node with next := node'.next })) a
      (some { node' with next := st.suppressions }), some a⟩, ?_, _, ⟨hfront, hnodup⟩, hperm⟩
    rw [List.getLast?_concat, Option.map_some, moveSuppToFront, suppAt_of hnode, ok_bind, assertThat_of hnext', ok_bind,
      suppAt_of hnode', ok_bind]
    dsimp only
    rw [suppAt_of (by rw [Function.update_of_ne hab, hnode'])]
    rfl

/-- The suppression is for errors of this kind, and matches the trace. -/
def SuppMatches (env : SuppEnv η κ) (err : ToolError η) (su : Supp κ) : Prop :=
  env.toolMatches err su = true ∧ TraceMatches env err su

theorem suppMatches_spec (htool : env.toolErrors = true) (err : ToolError η) (su : Supp κ) :
    ∃ b read, suppMatches env su err = .ok (b, read) ∧
      Compared err.where' (env.toolMatches err su = true → StaysInside env err su) (SuppMatches env err su) b read := by
  rw [suppMatches, suppMatchesError, if_pos htool]
  simp only [pure_bind]
  cases hkind : env.toolMatches err su with
  | false =>
    refine ⟨false, [], rfl, fun _ => ⟨fun j hj => absurd hj List.not_mem_nil, ?_⟩, fun h => absurd (fun hf => nomatch hf) h⟩
    exact iff_of_false Bool.false_ne_true fun h => nomatch hkind.symm.trans h.1
  | true =>
    obtain ⟨b, read, hrun, H⟩ := suppMatchesCallers_spec env err su
    refine ⟨b, read, hrun, fun h => ?_, fun h => H.overrun fun hin => h fun _ => hin⟩
    rw [SuppMatches, and_iff_right hkind]
    exact H.right (h rfl)

/-- The search stays inside the trace: this holds for each suppression of the right kind, up to the
first that matches. -/
def SearchStaysInside (env : SuppEnv η κ) (err : ToolError η) : List (Nat × Supp κ) → Prop
  | [] => True
  | x :: rest => (env.toolMatches err x.2 = true → StaysInside env err x.2) ∧
      (¬ SuppMatches env err x.2 → SearchStaysInside env err rest)

/-- What the search finds in `rest`, and the list of all suppressions `es` then. -/
structure SearchOut (env : SuppEnv η κ) (err : ToolError η) (es rest : List (Nat × Supp κ)) (r : Option Nat)
    (st' : SuppState κ) : Prop where
  some_iff : r.isSome ↔ ∃ x ∈ rest, SuppMatches env err x.2
  found : ∀ a, r = some a → ∃ su, (a, su) ∈ rest ∧ SuppMatches env err su
  list : ∃ es', st'.Holds es' ∧ es'.Perm es

/-- **The search**, from any place of the list on. -/
theorem searchSupps_spec (htool : rest ≠ [] → env.toolErrors = true) (err : ToolError η) (h : st.Holds (pre ++ rest))
    (hp : Path (suppLinks κ) st.heap p rest) (hfuel : rest.length < fuel) :
    ∃ r st' read, searchSupps env err st fuel (pre.getLast?.map Prod.fst) p = .ok (r, st', read) ∧
      (SearchStaysInside env err rest → (∀ j ∈ read, j < err.where'.ips.length) ∧ SearchOut env err (pre ++ rest) rest r st') ∧
      (¬ SearchStaysInside env err rest → ∃ j ∈ read, err.where'.ips.length ≤ j) := by
  induction rest generalizing pre p fuel with
  | nil =>
    obtain ⟨fuel, rfl⟩ := Nat.exists_eq_succ_of_ne_zero (Nat.ne_zero_of_lt hfuel)
    obtain rfl : p = none := hp
    refine ⟨none, st, [], rfl, fun _ => ⟨fun j hj => absurd hj List.not_mem_nil, ?_⟩, fun h => absurd trivial h⟩
    exact ⟨by simp, fun a ha => (nomatch ha), _, h, List.Perm.refl _⟩
  | cons x rest ih =>
    obtain ⟨fuel, rfl⟩ := Nat.exists_eq_succ_of_ne_zero (Nat.ne_zero_of_lt hfuel)
    obtain ⟨a, su⟩ := x
    obtain ⟨rfl, node, hnode, hsu, hnext⟩ := hp
    obtain ⟨b, read, hrun, H⟩ := suppMatches_spec (htool (List.cons_ne_nil _ _)) err su
    have hsupp : node.supp = su := hsu
    rw [searchSupps, suppAt_of hnode, ok_bind, hsupp, hrun, ok_bind]
    cases b with
    | true =>
      obtain ⟨st', hmove, es', hholds, hperm⟩ := moveSuppToFront_spec h
      refine ⟨some a, st', read, ?_, fun hin => ?_, fun hnot => ?_⟩
      · simp only [if_true, hmove, ok_bind]
        rfl
      · obtain ⟨hread, hb⟩ := H.right hin.1
        have hmatch := hb.mp rfl
        refine ⟨hread, iff_of_true rfl ⟨(a, su), List.mem_cons_self, hmatch⟩, fun a' ha' => ?_, es', hholds, hperm⟩
        exact ⟨su, Option.some.inj ha' ▸ List.mem_cons_self, hmatch⟩
      · refine H.overrun fun hin => hnot ⟨hin, fun hno => absurd ((H.right hin).2.mp rfl) hno⟩
    | false =>
      have hpre : (pre ++ [(a, su)]).getLast?.map Prod.fst = some a := by rw [List.getLast?_concat]; rfl
      rw [List.append_cons] at h ⊢
      obtain ⟨r, st', read', hrun', hright, hover⟩ := ih (fun _ => htool (List.cons_ne_nil _ _)) h hnext
        (Nat.lt_of_succ_lt_succ hfuel)
      rw [hpre] at hrun'
      refine ⟨r, st', read ++ read', ?_, fun hin => ?_, fun hnot => ?_⟩
      · simp only [Bool.false_eq_true, if_false]
        rw [show node.next = (suppLinks κ).next node from rfl, hrun', ok_bind]
        rfl
      · obtain ⟨hread, hb⟩ := H.right hin.1
        have hno : ¬ SuppMatches env err su := fun hm => nomatch hb.mpr hm
        obtain ⟨hread', hout⟩ := hright (hin.2 hno)
        refine ⟨List.forall_mem_append.mpr ⟨hread, hread'⟩, ?_, fun a' ha' => ?_, hout.list⟩
        · rw [hout.some_iff, List.exists_mem_cons_iff, or_iff_right hno]
        · obtain ⟨su', hmem, hm⟩ := hout.found a' ha'
          exact ⟨su', List.mem_cons_of_mem _ hmem, hm⟩
      · by_cases hin : env.toolMatches err su = true → StaysInside env err su
        · obtain ⟨j, hj, hle⟩ := hover fun hrest => hnot ⟨hin, fun _ => hrest⟩
          exact ⟨j, List.mem_append_right read hj, hle⟩
        · obtain ⟨j, hj, hle⟩ := H.overrun hin
          exact ⟨j, List.mem_append_left read' hj, hle⟩

/-- `is_suppressible_error` does what it is there for. -/
def SearchRight (env : SuppEnv η κ) (err : ToolError η) (st : SuppState κ) (es : List (Nat × Supp κ)) : Prop :=
  ∃ r st' read, isSuppressibleError env (es.length + 1) st err = .ok (r, st', read) ∧
    (∀ j ∈ read, j < err.where'.ips.length) ∧ SearchOut env err es es r st'

/-- **Suppressing an error**: neither the comparison with a suppression nor the search along the
list reads behind the end of the trace, the suppression that is found matches, and the list keeps
its entries, exactly if no suppression is compared that has more patterns than the trace has
frames while all the frames match. -/
theorem suppressions_iff (h : st.Holds es) (htool : es ≠ [] → env.toolErrors = true) (err : ToolError η) (su : Supp κ) :
    (CallersRight env err su ∧ SearchRight env err st es) ↔ StaysInside env err su ∧ SearchStaysInside env err es := by
  refine and_congr callersRight_iff ?_
  obtain ⟨r, st', read, hrun, hright, hover⟩ := @searchSupps_spec η κ env (es.length + 1) st [] es st.suppressions htool err
    h h.path (Nat.lt_succ_self _)
  constructor
  · rintro ⟨r', st'', read', hrun', hread, -⟩
    obtain ⟨rfl, hrest⟩ := Prod.mk.inj (Except.ok.inj (hrun.symm.trans hrun'))
    obtain ⟨rfl, rfl⟩ := Prod.mk.inj hrest
    by_contra hnot
    obtain ⟨j, hj, hle⟩ := hover hnot
    exact absurd (hread j hj) (Nat.not_lt.mpr hle)
  · exact fun hin => ⟨r, st', read, hrun, hright hin⟩

/-! ## Two frames -/

/-- A suppression for a function that is called from another one. -/
def calledFrom : Supp Unit where
  sname := ⟨"called".toList, by decide⟩
  callers := [⟨.funName, some ⟨"ma*".toList, by decide⟩⟩, ⟨.funName, some ⟨"main".toList, by decide⟩⟩]
  skind := ()
  string := none
  named := by decide
  typed := by decide

/-- A program in which everything is called `main`; behind a trace there are zeroes. -/
def onlyMain : SuppEnv Unit Unit where
  getObjname _ := none
  getFnname _ := some ⟨"main".toList, by decide⟩
  toolErrors := true
  toolMatches _ _ := true
  beyond _ _ := 0

/-- The only suppression. -/
def oneSupp : SuppState Unit := ⟨fun a => if a = 8 then some ⟨none, calledFrom⟩ else none, some 8⟩

theorem oneSupp_holds : oneSupp.Holds [(8, calledFrom)] := by
  refine ⟨?_, by decide⟩
  exact ⟨rfl, ⟨none, calledFrom⟩, rfl, rfl, rfl⟩

/-- A trace with two frames is compared as it should be. -/
theorem suppressions_iff_two : CallersRight onlyMain ⟨⟨4, [4096, 4100]⟩, ()⟩ calledFrom ∧
    SearchRight onlyMain ⟨⟨4, [4096, 4100]⟩, ()⟩ oneSupp [(8, calledFrom)] :=
  (suppressions_iff oneSupp_holds (fun _ => rfl) _ _).mpr ⟨.inl (by decide), fun _ => .inl (by decide), fun _ => trivial⟩

/-- A trace with one frame is read behind its end. -/
theorem not_callersRight_short : ¬ CallersRight onlyMain ⟨⟨4, [4096]⟩, ()⟩ calledFrom := by
  rintro ⟨b, read, hrun, hread, -⟩
  have hover : suppMatchesCallers onlyMain ⟨⟨4, [4096]⟩, ()⟩ calledFrom = .ok (true, [0, 1]) := by decide
  obtain ⟨-, rfl⟩ := Prod.mk.inj (Except.ok.inj (hover.symm.trans hrun))
  exact absurd (hread 1 (by decide)) (by decide)

end

end Valgrind.Coregrind
