import Valgrind.Lib.Straight
import Valgrind.Vex.IR

/-!
# The meaning of a superblock

A superblock runs on a `World`: the guest state (one byte for each offset), the
guest memory, and the dirty helpers called so far. The temporaries live only
while the block runs. What lies outside the IR is a parameter, `Interp`: the
primops that are not spelled out, the clean helpers (functions of their arguments)
and the dirty helpers. A dirty helper may keep private state, so what it does
depends on all dirty calls before it; it sees the guest state only in the ranges
it is declared to read or modify and changes it only in those it is declared to
write or modify, while guest memory is open to it.
-/

namespace Valgrind.Vex

/-- What a dirty helper is given: its address and arguments, the memory effect
declared for the call, the guest state that it is declared to read, and memory. -/
structure DirtyCall where
  cee : IRCallee
  args : List Val
  mFx : IREffect
  mAddr : Option Val
  mSize : Int
  guest : Nat → BitVec 8
  mem : BitVec 64 → BitVec 8

/-- What a dirty helper leaves behind. -/
structure HelperResult where
  ret : Val
  guest : Nat → BitVec 8
  mem : BitVec 64 → BitVec 8

/-- The world outside the block. -/
structure Interp where
  /-- The byte order of the host, in which the guest state is kept. -/
  hostEnd : IREndness
  /-- The primops that `evalUnop` and `evalBinop` do not spell out. -/
  primop : IROp → List Val → Val
  /-- The clean helpers. -/
  ccall : IRCallee → List Val → Val
  /-- The dirty helpers, given the earlier dirty calls. -/
  helper : List DirtyCall → DirtyCall → HelperResult
  /-- What the result temporary of a dirty call holds if the guard is false. -/
  notCalled : Val

/-- Guest state, guest memory, and the dirty calls made, in order. -/
structure World where
  guest : Nat → BitVec 8
  mem : BitVec 64 → BitVec 8
  calls : List DirtyCall

/-- Helpers that do nothing. -/
instance : Inhabited Interp :=
  ⟨{ hostEnd := .LE, primop := fun _ _ => 0, ccall := fun _ _ => 0,
     helper := fun _ call => ⟨0, call.guest, call.mem⟩, notCalled := 0 }⟩

/-- Nothing but zeroes. -/
instance : Inhabited World := ⟨⟨fun _ => 0, fun _ => 0, []⟩⟩

/-- Where a block jumps to, and how. -/
structure Target where
  dst : Val
  jk : IRJumpKind

/-! ## Values as bytes -/

/-- The value made of `n` bytes, least significant byte first. -/
def joinLE : Nat → (Nat → BitVec 8) → Val
  | 0, _ => 0
  | n + 1, f => (f 0).setWidth 128 ||| joinLE n (fun k => f (k + 1)) <<< 8

/-- Byte `k` of a value, counted from the least significant one. -/
def byteLE (v : Val) (k : Nat) : BitVec 8 := (v >>> (8 * k)).setWidth 8

/-- The value made of the `n` bytes `f 0 .. f (n - 1)` in a byte order. -/
def joinBytes (en : IREndness) (n : Nat) (f : Nat → BitVec 8) : Val :=
  match en with
  | .LE => joinLE n f
  | .BE => joinLE n fun k => f (n - 1 - k)

/-- Byte `k` of the `n` bytes of a value in a byte order. -/
def byteOf (en : IREndness) (n : Nat) (v : Val) (k : Nat) : BitVec 8 :=
  match en with
  | .LE => byteLE v k
  | .BE => byteLE v (n - 1 - k)

theorem getLsbD_joinLE (n : Nat) (f : Nat → BitVec 8) (i : Nat) :
    (joinLE n f).getLsbD i = (decide (i < 8 * n) && decide (i < 128) && (f (i / 8)).getLsbD (i % 8)) := by
  induction n generalizing f i with
  | zero => simp [joinLE]
  | succ n ih =>
    simp only [joinLE, BitVec.getLsbD_or, BitVec.getLsbD_setWidth, BitVec.getLsbD_shiftLeft, ih]
    by_cases hi : i < 8
    · have hdiv : i / 8 = 0 := by omega
      have hmod : i % 8 = i := by omega
      have hn : i < 8 * (n + 1) := by omega
      simp [hi, hdiv, hmod, hn, show i < 128 by omega]
    · have hdiv : i / 8 = (i - 8) / 8 + 1 := by omega
      have hmod : i % 8 = (i - 8) % 8 := by omega
      have hbig : (f 0).getLsbD i = false := BitVec.getLsbD_of_ge _ _ (by omega)
      have hiff : (i - 8 < 8 * n) = (i < 8 * (n + 1)) := by apply propext; omega
      by_cases h128 : i < 128
      · simp [hi, hdiv, hmod, hbig, hiff, h128, show i - 8 < 128 by omega]
      · simp [h128]

theorem getLsbD_byteLE (v : Val) (k i : Nat) :
    (byteLE v k).getLsbD i = (decide (i < 8) && v.getLsbD (8 * k + i)) := by
  simp [byteLE, BitVec.getLsbD_setWidth, BitVec.getLsbD_ushiftRight]

theorem byteLE_joinLE {n k : Nat} (f : Nat → BitVec 8) (hk : k < n) (hn : n ≤ 16) :
    byteLE (joinLE n f) k = f k := by
  apply BitVec.eq_of_getLsbD_eq
  intro i hi
  have hdiv : (8 * k + i) / 8 = k := by omega
  have hmod : (8 * k + i) % 8 = i := by omega
  rw [getLsbD_byteLE, getLsbD_joinLE, hdiv, hmod]
  simp [hi, show 8 * k + i < 8 * n by omega, show 8 * k + i < 128 by omega]

theorem joinLE_byteLE (n : Nat) (v : Val) : joinLE n (byteLE v) = Val.low (8 * n) v := by
  apply BitVec.eq_of_getLsbD_eq
  intro i hi
  have hi8 : i % 8 < 8 := Nat.mod_lt _ (by decide)
  rw [getLsbD_joinLE, getLsbD_byteLE, Nat.div_add_mod, Val.low, BitVec.getLsbD_setWidth,
    BitVec.getLsbD_setWidth]
  simp [hi, hi8]

theorem joinLE_congr {n : Nat} {f g : Nat → BitVec 8} (h : ∀ k < n, f k = g k) :
    joinLE n f = joinLE n g := by
  induction n generalizing f g with
  | zero => rfl
  | succ n ih =>
    simp only [joinLE]
    rw [h 0 (by omega), ih fun k hk => h (k + 1) (by omega)]

theorem joinBytes_congr {en : IREndness} {n : Nat} {f g : Nat → BitVec 8} (h : ∀ k < n, f k = g k) :
    joinBytes en n f = joinBytes en n g := by
  cases en with
  | LE => exact joinLE_congr h
  | BE => exact joinLE_congr fun k hk => h _ (by omega)

theorem byteOf_joinBytes {en : IREndness} {n k : Nat} (f : Nat → BitVec 8) (hk : k < n)
    (hn : n ≤ 16) : byteOf en n (joinBytes en n f) k = f k := by
  cases en with
  | LE => exact byteLE_joinLE f hk hn
  | BE =>
    refine (byteLE_joinLE _ (show n - 1 - k < n by omega) hn).trans ?_
    rw [show n - 1 - (n - 1 - k) = k by omega]

theorem joinBytes_byteOf (en : IREndness) (n : Nat) (v : Val) :
    joinBytes en n (byteOf en n v) = Val.low (8 * n) v := by
  cases en with
  | LE => exact joinLE_byteLE n v
  | BE =>
    refine (joinLE_congr fun k hk => ?_).trans (joinLE_byteLE n v)
    show byteLE v (n - 1 - (n - 1 - k)) = byteLE v k
    rw [show n - 1 - (n - 1 - k) = k by omega]

/-! ## Guest state and memory -/

/-- Read a value of the guest state. -/
def readGuest (M : Interp) (g : Nat → BitVec 8) (offset : Nat) (ty : IRType) : Val :=
  Val.low ty.bits (joinBytes M.hostEnd ty.bytes fun k => g (offset + k))

/-- Write the `n` bytes of a value to the guest state. -/
def writeGuest (M : Interp) (g : Nat → BitVec 8) (offset n : Nat) (v : Val) : Nat → BitVec 8 :=
  fun o => if offset ≤ o ∧ o < offset + n then byteOf M.hostEnd n v (o - offset) else g o

/-- Load a value from memory. -/
def loadMem (m : BitVec 64 → BitVec 8) (en : IREndness) (a : BitVec 64) (ty : IRType) : Val :=
  Val.low ty.bits (joinBytes en ty.bytes fun k => m (a + BitVec.ofNat 64 k))

/-- Store the `n` bytes of a value to memory. -/
def storeMem (m : BitVec 64 → BitVec 8) (en : IREndness) (a : BitVec 64) (n : Nat) (v : Val) :
    BitVec 64 → BitVec 8 :=
  fun x => if (x - a).toNat < n then byteOf en n v (x - a).toNat else m x

/-- The element of a register array that an indexed access means: the indexing is circular. -/
def regIndex (descr : IRRegArray) (ix : Val) (bias : Int) : Nat :=
  (((BitVec.setWidth 32 ix).toInt + bias) % descr.nElems).toNat

/-- The guest state offset of that element. -/
def regOffset (descr : IRRegArray) (ix : Val) (bias : Int) : Nat :=
  descr.base + regIndex descr ix bias * descr.elemTy.bytes

theorem readGuest_congr {M : Interp} {g g' : Nat → BitVec 8} {offset : Nat} {ty : IRType}
    (h : ∀ o, offset ≤ o → o < offset + ty.bytes → g o = g' o) :
    readGuest M g offset ty = readGuest M g' offset ty := by
  unfold readGuest
  rw [joinBytes_congr fun k hk => h (offset + k) (by omega) (by omega)]

theorem readGuest_fits (M : Interp) (g : Nat → BitVec 8) (offset : Nat) (ty : IRType) :
    ty.Fits (readGuest M g offset ty) := IRType.fits_low _ _

theorem writeGuest_of_inside {M : Interp} {g : Nat → BitVec 8} {offset o n : Nat} {v : Val}
    (h₁ : offset ≤ o) (h₂ : o < offset + n) :
    writeGuest M g offset n v o = byteOf M.hostEnd n v (o - offset) := if_pos ⟨h₁, h₂⟩

theorem writeGuest_of_outside {M : Interp} {g : Nat → BitVec 8} {offset o n : Nat} {v : Val}
    (h : o < offset ∨ offset + n ≤ o) : writeGuest M g offset n v o = g o :=
  if_neg (by omega)

/-- A value that has been written is read back, cut to its type. -/
theorem readGuest_writeGuest (M : Interp) (g : Nat → BitVec 8) (offset : Nat) (ty : IRType)
    (v : Val) : readGuest M (writeGuest M g offset ty.bytes v) offset ty = Val.low ty.bits v := by
  have hbytes : joinBytes M.hostEnd ty.bytes
      (fun k => writeGuest M g offset ty.bytes v (offset + k)) = Val.low (8 * ty.bytes) v := by
    rw [← joinBytes_byteOf M.hostEnd]
    refine joinBytes_congr fun k hk => ?_
    rw [writeGuest_of_inside (by omega) (by omega), show offset + k - offset = k by omega]
  unfold readGuest
  rw [hbytes, ← BitVec.toNat_inj, Val.toNat_low, Val.toNat_low, Val.toNat_low]
  exact Nat.mod_mod_of_dvd _ (Nat.pow_dvd_pow 2 ty.bits_le_bytes)

theorem regIndex_lt (descr : IRRegArray) (ix : Val) (bias : Int) :
    regIndex descr ix bias < descr.nElems := by
  have hpos : (0 : Int) < descr.nElems := by have := descr.nElems_pos; omega
  have h₁ := Int.emod_lt_of_pos ((BitVec.setWidth 32 ix).toInt + bias) hpos
  unfold regIndex
  omega

/-! ## Expressions -/

/-- The value of a constant. -/
def constVal : IRConst → Val
  | .U1 v => (BitVec.ofBool v).setWidth 128
  | .U8 v => v.setWidth 128
  | .U16 v => v.setWidth 128
  | .U32 v => v.setWidth 128
  | .U64 v => v.setWidth 128
  | .F64 v => v.setWidth 128
  | .F64i v => v.setWidth 128
  | .V128 v => joinLE 16 fun k => if v.getLsbD k then 0xFF else 0

mutual

/-- The value of an expression, given the values of the temporaries. -/
def evalExpr (M : Interp) (ρ : IRTemp → Val) (w : World) : IRExpr → Val
  | .get offset ty => readGuest M w.guest offset ty
  | .getI descr ix bias =>
    readGuest M w.guest (regOffset descr (evalExpr M ρ w ix) bias) descr.elemTy
  | .rdTmp tmp => ρ tmp
  | .qop op arg1 arg2 arg3 arg4 =>
    evalPrimop M.primop op
      [evalExpr M ρ w arg1, evalExpr M ρ w arg2, evalExpr M ρ w arg3, evalExpr M ρ w arg4]
  | .triop op arg1 arg2 arg3 =>
    evalPrimop M.primop op [evalExpr M ρ w arg1, evalExpr M ρ w arg2, evalExpr M ρ w arg3]
  | .binop op arg1 arg2 => evalPrimop M.primop op [evalExpr M ρ w arg1, evalExpr M ρ w arg2]
  | .unop op arg => evalPrimop M.primop op [evalExpr M ρ w arg]
  | .load en ty addr => loadMem w.mem en ((evalExpr M ρ w addr).setWidth 64) ty
  | .const con => constVal con
  | .ccall cee retty args => Val.low retty.bits (M.ccall cee (evalArgs M ρ w args))
  | .mux0X cond expr0 exprX =>
    if evalExpr M ρ w cond = 0 then evalExpr M ρ w expr0 else evalExpr M ρ w exprX

/-- The values of the arguments of a call. -/
def evalArgs (M : Interp) (ρ : IRTemp → Val) (w : World) : List IRExpr → List Val
  | [] => []
  | e :: es => evalExpr M ρ w e :: evalArgs M ρ w es

end

theorem evalArgs_eq_map (M : Interp) (ρ : IRTemp → Val) (w : World) (args : List IRExpr) :
    evalArgs M ρ w args = args.map (evalExpr M ρ w) := by
  induction args with
  | nil => rfl
  | cons e es ih => simp [evalArgs, ih]

mutual

/-- An expression depends on no temporaries but those it reads. -/
theorem evalExpr_congr {M : Interp} {ρ ρ' : IRTemp → Val} {w : World} :
    ∀ e : IRExpr, (∀ t ∈ e.temps, ρ t = ρ' t) → evalExpr M ρ w e = evalExpr M ρ' w e
  | .get _ _, _ => rfl
  | .getI _ ix _, h => by simp only [evalExpr, evalExpr_congr ix h]
  | .rdTmp tmp, h => h tmp (by simp [IRExpr.temps])
  | .qop _ arg1 arg2 arg3 arg4, h => by
    simp only [IRExpr.temps, List.mem_append] at h
    simp only [evalExpr, evalExpr_congr arg1 fun t ht => h t (.inl (.inl (.inl ht))),
      evalExpr_congr arg2 fun t ht => h t (.inl (.inl (.inr ht))),
      evalExpr_congr arg3 fun t ht => h t (.inl (.inr ht)),
      evalExpr_congr arg4 fun t ht => h t (.inr ht)]
  | .triop _ arg1 arg2 arg3, h => by
    simp only [IRExpr.temps, List.mem_append] at h
    simp only [evalExpr, evalExpr_congr arg1 fun t ht => h t (.inl (.inl ht)),
      evalExpr_congr arg2 fun t ht => h t (.inl (.inr ht)),
      evalExpr_congr arg3 fun t ht => h t (.inr ht)]
  | .binop _ arg1 arg2, h => by
    simp only [IRExpr.temps, List.mem_append] at h
    simp only [evalExpr, evalExpr_congr arg1 fun t ht => h t (.inl ht),
      evalExpr_congr arg2 fun t ht => h t (.inr ht)]
  | .unop _ arg, h => by simp only [evalExpr, evalExpr_congr arg h]
  | .load _ _ addr, h => by simp only [evalExpr, evalExpr_congr addr h]
  | .const _, _ => rfl
  | .ccall _ _ args, h => by simp only [evalExpr, evalArgs_congr args h]
  | .mux0X cond expr0 exprX, h => by
    simp only [IRExpr.temps, List.mem_append] at h
    simp only [evalExpr, evalExpr_congr cond fun t ht => h t (.inl (.inl ht)),
      evalExpr_congr expr0 fun t ht => h t (.inl (.inr ht)),
      evalExpr_congr exprX fun t ht => h t (.inr ht)]

theorem evalArgs_congr {M : Interp} {ρ ρ' : IRTemp → Val} {w : World} :
    ∀ args : List IRExpr, (∀ t ∈ tempsOfArgs args, ρ t = ρ' t) →
      evalArgs M ρ w args = evalArgs M ρ' w args
  | [], _ => rfl
  | e :: es, h => by
    simp only [tempsOfArgs, List.mem_append] at h
    simp only [evalArgs, evalExpr_congr e fun t ht => h t (.inl ht),
      evalArgs_congr es fun t ht => h t (.inr ht)]

end

/-- An atom does not depend on the guest state or memory. -/
theorem evalExpr_atom {M : Interp} {ρ : IRTemp → Val} {e : IRExpr} (h : e.isIRAtom = true)
    (w w' : World) : evalExpr M ρ w e = evalExpr M ρ w' e := by
  cases e <;> first | rfl | exact nomatch h

/-! ## Statements -/

/-- What a statement does: to the world, to a temporary, and the exit it takes. -/
structure Effect where
  world : World
  def? : Option (IRTemp × Val) := none
  exit : Option Target := none

/-- The entry lets the helper look at the guest state. -/
def IREffect.reads (fx : IREffect) : Bool := fx == .Read || fx == .Modify

/-- The entry lets the helper change the guest state. -/
def IREffect.writes (fx : IREffect) : Bool := fx == .Write || fx == .Modify

/-- The helper is declared to read or modify the byte of the guest state. -/
def IRDirty.readsByte (d : IRDirty) (o : Nat) : Bool :=
  d.fxState.any fun f => f.fx.reads && decide (f.offset ≤ o ∧ o < f.offset + f.size)

/-- The helper is declared to write or modify the byte of the guest state. -/
def IRDirty.writesByte (d : IRDirty) (o : Nat) : Bool :=
  d.fxState.any fun f => f.fx.writes && decide (f.offset ≤ o ∧ o < f.offset + f.size)

/-- What the helper of a dirty call is given. -/
def dirtyCall (M : Interp) (ρ : IRTemp → Val) (w : World) (d : IRDirty) : DirtyCall where
  cee := d.cee
  args := evalArgs M ρ w d.args
  mFx := d.mFx
  mAddr := if d.mFx ≠ .None then d.mAddr.map (evalExpr M ρ w) else none
  mSize := d.mSize
  guest o := if d.readsByte o then w.guest o else 0
  mem := w.mem

/-- The result of a dirty call is cut to the type of the temporary. -/
def dirtyDef (tyenv : IRTypeEnv) (d : IRDirty) (v : Val) : Option (IRTemp × Val) :=
  d.tmp.map fun t => (t, Val.low (tyenv.getD t .I1).bits v)

/-- The effect of a statement. -/
def effect (M : Interp) (tyenv : IRTypeEnv) (ρ : IRTemp → Val) (w : World) : IRStmt → Effect
  | .noOp | .iMark _ _ | .abiHint _ _ _ | .mbe _ => { world := w }
  | .put offset data =>
    { world := { w with
        guest := writeGuest M w.guest offset (data.tyIn tyenv).bytes (evalExpr M ρ w data) } }
  | .putI descr ix bias data =>
    { world := { w with
        guest := writeGuest M w.guest (regOffset descr (evalExpr M ρ w ix) bias) descr.elemTy.bytes
          (evalExpr M ρ w data) } }
  | .wrTmp tmp data => { world := w, def? := some (tmp, evalExpr M ρ w data) }
  | .store en addr data =>
    { world := { w with
        mem := storeMem w.mem en ((evalExpr M ρ w addr).setWidth 64) (data.tyIn tyenv).bytes
          (evalExpr M ρ w data) } }
  | .dirty d =>
    if evalExpr M ρ w d.guard = 0 then
      { world := w, def? := dirtyDef tyenv d M.notCalled }
    else
      let call := dirtyCall M ρ w d
      let r := M.helper w.calls call
      { world :=
          { guest := fun o => if d.writesByte o then r.guest o else w.guest o
            mem := r.mem
            calls := w.calls ++ [call] }
        def? := dirtyDef tyenv d r.ret }
  | .exit guard jk dst =>
    { world := w, exit := if evalExpr M ρ w guard = 0 then none else some ⟨constVal dst, jk⟩ }

/-- The values of the temporaries after an assignment. -/
def assign (ρ : IRTemp → Val) : Option (IRTemp × Val) → IRTemp → Val
  | none => ρ
  | some (t, v) => fun u => if u = t then v else ρ u

/-- The temporaries and the world, between two statements of a block. -/
structure State where
  tmps : IRTemp → Val
  world : World

/-- Execute a statement. -/
def execStmt (M : Interp) (tyenv : IRTypeEnv) (s : State) (st : IRStmt) : State × Option Target :=
  let e := effect M tyenv s.tmps s.world st
  (⟨assign s.tmps e.def?, e.world⟩, e.exit)

/-- Execute a list of statements, up to the first exit that is taken. -/
def runStmts (M : Interp) (tyenv : IRTypeEnv) (s : State) (stmts : List IRStmt) :
    State × Option Target :=
  Straight.run (execStmt M tyenv) s stmts

theorem runStmts_append_of_next {M : Interp} {T : IRTypeEnv} {s : State} {l l' : List IRStmt}
    (h : (runStmts M T s l).2 = none) :
    runStmts M T s (l ++ l') = runStmts M T (runStmts M T s l).1 l' :=
  Straight.run_append_of_next (Prod.ext rfl h)

/-- Where control goes after the statements. -/
def finish (M : Interp) (next : IRExpr) (jk : IRJumpKind) : State × Option Target → World × Target
  | (s, some x) => (s.world, x)
  | (s, none) => (s.world, ⟨evalExpr M s.tmps s.world next, jk⟩)

/-- The temporaries before the block: none of them has been assigned. -/
def noTmps : IRTemp → Val := fun _ => 0

/-- Run a superblock: the world it leaves behind and where it goes. -/
def runBB (M : Interp) (bb : IRSB) (w : World) : World × Target :=
  finish M bb.next bb.jumpkind (runStmts M bb.tyenv ⟨noTmps, w⟩ bb.stmts)

/-- Two blocks mean the same: whatever the helpers do and wherever they start, they
leave the same guest state, memory and dirty calls behind and go to the same place. -/
def SameMeaning (bb bb' : IRSB) : Prop := ∀ M w, runBB M bb w = runBB M bb' w

/-- Two blocks run in step: after every number of statements they have the same
temporaries, guest state, memory and dirty calls, and have left at the same exit. -/
def Lockstep (bb bb' : IRSB) : Prop :=
  ∀ M w n, runStmts M bb.tyenv ⟨noTmps, w⟩ (bb.stmts.take n) =
    runStmts M bb'.tyenv ⟨noTmps, w⟩ (bb'.stmts.take n)

/-- Blocks that run in step and end in the same jump mean the same. -/
theorem Lockstep.sameMeaning {bb bb' : IRSB} (h : Lockstep bb bb') (hnext : bb.next = bb'.next)
    (hjk : bb.jumpkind = bb'.jumpkind) : SameMeaning bb bb' := by
  intro M w
  have hall := h M w (max bb.stmts.length bb'.stmts.length)
  rw [List.take_of_length_le (Nat.le_max_left _ _), List.take_of_length_le (Nat.le_max_right _ _)]
    at hall
  unfold runBB
  rw [hall, hnext, hjk]

@[simp] theorem assign_none (ρ : IRTemp → Val) : assign ρ none = ρ := rfl

@[simp] theorem assign_self (ρ : IRTemp → Val) (t : IRTemp) (v : Val) :
    assign ρ (some (t, v)) t = v := if_pos rfl

theorem assign_of_ne {ρ : IRTemp → Val} {t u : IRTemp} {v : Val} (h : u ≠ t) :
    assign ρ (some (t, v)) u = ρ u := if_neg h

theorem assign_congr {ρ ρ' : IRTemp → Val} {t : IRTemp} (h : ρ t = ρ' t) (d : Option (IRTemp × Val)) :
    assign ρ d t = assign ρ' d t := by
  cases d with
  | none => exact h
  | some p => simp only [assign, h]

/-- The temporary that an effect assigns is the one that the statement defines. -/
theorem effect_def? (M : Interp) (tyenv : IRTypeEnv) (ρ : IRTemp → Val) (w : World) (st : IRStmt) :
    (effect M tyenv ρ w st).def?.map Prod.fst = st.def? := by
  cases st with
  | dirty d =>
    have hdef : ∀ v, (dirtyDef tyenv d v).map Prod.fst = d.tmp := by
      intro v
      cases h : d.tmp with
      | none => simp [dirtyDef, h]
      | some t => simp [dirtyDef, h]
    simp only [effect]
    split
    · exact hdef _
    · exact hdef _
  | _ => rfl

/-- A temporary that the statement does not define keeps its value. -/
theorem execStmt_tmps_of_ne {M : Interp} {tyenv : IRTypeEnv} {s : State} {st : IRStmt} {t : IRTemp}
    (h : st.def? ≠ some t) : (execStmt M tyenv s st).1.tmps t = s.tmps t := by
  have hdef := effect_def? M tyenv s.tmps s.world st
  unfold execStmt
  rcases he : (effect M tyenv s.tmps s.world st).def? with _ | ⟨u, v⟩
  · simp [he]
  · rw [he] at hdef
    have hne : t ≠ u := by
      rintro rfl
      exact h hdef.symm
    simp [he, assign_of_ne hne]

/-- The effect of a statement depends on no temporaries but those it uses. -/
theorem effect_congr {M : Interp} {tyenv : IRTypeEnv} {ρ ρ' : IRTemp → Val} {w : World} {st : IRStmt}
    (h : ∀ t ∈ st.uses, ρ t = ρ' t) : effect M tyenv ρ w st = effect M tyenv ρ' w st := by
  cases st with
  | noOp | iMark | abiHint | mbe => rfl
  | put offset data => simp only [effect, evalExpr_congr data h]
  | putI descr ix bias data =>
    simp only [IRStmt.uses, List.mem_append] at h
    simp only [effect, evalExpr_congr ix fun t ht => h t (.inl ht),
      evalExpr_congr data fun t ht => h t (.inr ht)]
  | wrTmp tmp data => simp only [effect, evalExpr_congr data h]
  | store en addr data =>
    simp only [IRStmt.uses, List.mem_append] at h
    simp only [effect, evalExpr_congr addr fun t ht => h t (.inl ht),
      evalExpr_congr data fun t ht => h t (.inr ht)]
  | dirty d =>
    simp only [IRStmt.uses, List.mem_append] at h
    have hguard := evalExpr_congr (M := M) (w := w) d.guard fun t ht => h t (.inl (.inr ht))
    have hargs := evalArgs_congr (M := M) (w := w) d.args fun t ht => h t (.inr ht)
    have haddr : (if d.mFx ≠ .None then d.mAddr.map (evalExpr M ρ w) else none) =
        if d.mFx ≠ .None then d.mAddr.map (evalExpr M ρ' w) else none := by
      split
      · rename_i hfx
        cases hm : d.mAddr with
        | none => rfl
        | some e =>
          refine congrArg some (evalExpr_congr e fun t ht => h t (.inl (.inl ?_)))
          simpa [hfx, hm] using ht
      · rfl
    simp only [effect, dirtyCall, hguard, hargs, haddr]
  | exit guard jk dst => simp only [effect, evalExpr_congr guard h]

/-- The same statement run on the same world with the same values of what it reads. -/
theorem execStmt_congr (M : Interp) (tyenv : IRTypeEnv) {s s' : State} {st : IRStmt}
    (hw : s.world = s'.world) (h : ∀ t ∈ st.uses, s.tmps t = s'.tmps t) :
    (execStmt M tyenv s st).1.world = (execStmt M tyenv s' st).1.world ∧
      (execStmt M tyenv s st).2 = (execStmt M tyenv s' st).2 ∧
      ∀ t, s.tmps t = s'.tmps t ∨ st.def? = some t →
        (execStmt M tyenv s st).1.tmps t = (execStmt M tyenv s' st).1.tmps t := by
  have he : effect M tyenv s.tmps s.world st = effect M tyenv s'.tmps s'.world st := by
    rw [effect_congr h, hw]
  refine ⟨congrArg Effect.world he, congrArg Effect.exit he, fun t ht => ?_⟩
  have hdef := effect_def? M tyenv s'.tmps s'.world st
  simp only [execStmt, he]
  rcases hd : (effect M tyenv s'.tmps s'.world st).def? with _ | ⟨u, v⟩
  · rcases ht with ht | ht
    · exact ht
    · rw [hd, ht] at hdef
      exact nomatch hdef
  · by_cases hu : t = u
    · subst hu
      rw [assign_self, assign_self]
    · rw [assign_of_ne hu, assign_of_ne hu]
      rcases ht with ht | ht
      · exact ht
      · rw [hd, ht] at hdef
        exact absurd (Option.some.inj hdef).symm hu

/-- **Forward passes that keep each statement's effect**: if every statement is rewritten
to one that does the same, in the states that an invariant allows, the blocks run in
step. The invariant relates the environment of the pass, the statements to come and
the state. -/
theorem lockstep_of_scan {E : Type} {f : E → IRStmt → Result (IRStmt × E)} {bb : IRSB} {e e' : E}
    {stmts : List IRStmt} (Inv : Interp → E → List IRStmt → State → Prop)
    (hstart : ∀ M w, Inv M e bb.stmts ⟨noTmps, w⟩)
    (hstep : ∀ {M e st rest s st' e'}, Inv M e (st :: rest) s → f e st = .ok (st', e') →
      execStmt M bb.tyenv s st' = execStmt M bb.tyenv s st ∧
        Inv M e' rest (execStmt M bb.tyenv s st).1)
    (h : Straight.scan f e bb.stmts = .ok (stmts, e')) : Lockstep bb { bb with stmts := stmts } := by
  intro M w n
  obtain ⟨e₁, htake⟩ := Straight.scan_take h n
  have hone : ∀ {e st rest s s' st' e'}, s = s' ∧ Inv M e (st :: rest) s → f e st = .ok (st', e') →
      Straight.Agree (fun s s' => s = s' ∧ Inv M e' rest s) Eq (execStmt M bb.tyenv s st)
        (execStmt M bb.tyenv s' st') := by
    rintro e st rest s _ st' e' ⟨rfl, hinv⟩ hst
    obtain ⟨hexec, hinv'⟩ := hstep hinv hst
    rw [hexec]
    exact ⟨rfl, fun _ => ⟨rfl, hinv'⟩, fun _ => rfl⟩
  have hbegin : Inv M e (bb.stmts.take n ++ bb.stmts.drop n) ⟨noTmps, w⟩ := by
    rw [List.take_append_drop]
    exact hstart M w
  have hsim := Straight.scan_sim (fun e rest (s s' : State) => s = s' ∧ Inv M e rest s) Eq hone
    ⟨rfl, hbegin⟩ htake
  exact hsim.eq (fun s s' hR => hR.1) fun s s' hQ => hQ

end Valgrind.Vex
