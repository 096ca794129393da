import Valgrind.Massif.Heap
import Valgrind.Massif.SnapshotRuns

/-!
# Massif: the accounting matches the live heap

`Block` and `Owns` say which blocks the client owns after a run, in terms of the client's
calls alone. `Accounts` says that the sums the tool keeps are the sums over these blocks. Every
call keeps it (`step_spec`) as long as the change of the extra bytes fits into the `Int` by
which it is passed to `update_heap_stats`.
-/

namespace Valgrind.Massif

open Coregrind

/-! ## Results that may also be the failure of a snapshot -/

/-- Not one of the functions whose assertions are at stake. -/
def Site.Elsewhere (site : Site) : Prop := site ≠ .updateHeapStats ∧ site ≠ .updateXCon ∧ site ≠ .takeSnapshot

instance (site : Site) : Decidable site.Elsewhere := inferInstanceAs (Decidable (_ ∧ _))

/-- The function returns with this property, or an assertion fails elsewhere. -/
def Yields {α : Type} (r : Checked α) (Q : α → Prop) : Prop :=
  match r with
  | .ok a => Q a
  | .error site => site.Elsewhere

section Yields

variable {α β : Type} {r : Checked α} {f : α → Checked β} {Q : α → Prop} {R : β → Prop}

theorem Yields.bind (h : Yields r Q) (hf : ∀ a, Q a → Yields (f a) R) : Yields (r >>= f) R := by
  cases r with
  | error site => exact h
  | ok a => exact hf a h

theorem Yields.mono {Q' : α → Prop} (h : Yields r Q) (hQ : ∀ a, Q a → Q' a) : Yields r Q' := by
  cases r with
  | error site => exact h
  | ok a => exact hQ a h

theorem yields_tlAssert {site : Site} {p : Prop} [Decidable p] (h : site.Elsewhere) : Yields (tlAssert site p) fun _ => p := by
  unfold tlAssert
  split
  · next hp => exact hp
  · exact h

theorem yields_foldlM {f : α → Nat → Checked α} {I : Nat → α → Prop} {a : α} {i n : Nat} (h : I i a)
    (hstep : ∀ {i' a}, i' < i + n → I i' a → Yields (f a i') (I (i' + 1))) :
    Yields ((List.range' i n).foldlM f a) (I (i + n)) := by
  induction n generalizing i a with
  | zero => exact h
  | succ n ih =>
    rw [List.range'_succ, List.foldlM_cons]
    refine (hstep (by omega) h).bind fun a' ha' => ?_
    rw [show i + (n + 1) = i + 1 + n by omega]
    exact ih ha' fun hlt hI => hstep (by omega) hI

theorem yields_forM {f : α → Checked Unit} {l : List α} (h : ∀ a ∈ l, Yields (f a) fun _ => Q a) :
    Yields (l.forM f) fun _ => ∀ a ∈ l, Q a := by
  induction l with
  | nil => exact List.forall_mem_nil _
  | cons a l ih =>
    refine (h a List.mem_cons_self).bind fun _ ha => ?_
    exact (ih fun a' ha' => h a' (List.mem_cons_of_mem _ ha')).mono fun _ hl => List.forall_mem_cons.mpr ⟨ha, hl⟩

end Yields

/-! ## Culling, whatever the times are -/

section Cull

variable {l : List Snapshot} {s : Snapshot}

/-- `is_snapshot_in_use` is false of clear entries only. -/
theorem isSnapshotInUse_yields : Yields (isSnapshotInUse s) fun used => (used = false → s = clearSnapshot) ∧ isSnapshotInUse s = .ok used := by
  have hself : ∀ {r : Checked Bool}, isSnapshotInUse s = r → Yields r (fun used => used = false → s = clearSnapshot) →
      Yields r fun used => (used = false → s = clearSnapshot) ∧ r = .ok used := by
    intro r _ h
    cases r with
    | error site => exact h
    | ok used => exact ⟨h, rfl⟩
  refine hself rfl ?_
  unfold isSnapshotInUse
  have helse : Site.isSnapshotInUse.Elsewhere := by decide
  split
  · next hkind =>
    refine (yields_tlAssert helse).bind fun _ htime => (yields_tlAssert helse).bind fun _ hextra =>
      (yields_tlAssert helse).bind fun _ hheap => (yields_tlAssert helse).bind fun _ hstacks =>
      (yields_tlAssert helse).bind fun _ hsxpt => fun _ => ?_
    obtain ⟨kind, time, heapSzB, heapExtraSzB, stacksSzB, allocSxpt⟩ := s
    simp only [Option.isNone_iff_eq_none] at hkind htime hextra hheap hstacks hsxpt
    rw [clearSnapshot, hkind, htime, hextra, hheap, hstacks, hsxpt]
  · exact (yields_tlAssert helse).bind fun _ _ h => by cases h

theorem readSnapshot_yields {i : Nat} : Yields (readSnapshot l i) fun s => l[i]? = some s := by
  unfold readSnapshot
  split
  · next h => exact h
  · exact (by decide : Site.outOfBounds.Elsewhere)

theorem findFrom_yields {j : Nat} : Yields (findFrom l j) fun _ => True := by
  induction l generalizing j with
  | nil => trivial
  | cons s l ih =>
    refine isSnapshotInUse_yields.bind fun used _ => ?_
    split
    · trivial
    · exact ih

theorem scanTriples_yields {fuel jp j jn : Nat} {best : Int × Option Nat} :
    Yields (scanTriples l fuel jp j jn best) fun _ => True := by
  induction fuel generalizing jp j jn best with
  | zero => exact (by decide : Site.diverge.Elsewhere)
  | succ fuel ih =>
    rw [scanTriples]
    split
    · refine readSnapshot_yields.bind fun prev _ => readSnapshot_yields.bind fun curr _ =>
        readSnapshot_yields.bind fun next _ => (yields_tlAssert (by decide)).bind fun _ _ =>
        findFrom_yields.bind fun jnn _ => ih
    · trivial

theorem deleteSmallest_yields : Yields (deleteSmallest l) fun l' => l'.length = l.length := by
  refine findFrom_yields.bind fun j _ => findFrom_yields.bind fun jn _ => scanTriples_yields.bind fun best _ => ?_
  split
  · exact (by decide : Site.cullSnapshots.Elsewhere)
  · exact List.length_set

theorem deleteMany_yields {n : Nat} : Yields (deleteMany n l) fun l' => l'.length = l.length := by
  induction n generalizing l with
  | zero => rfl
  | succ n ih => exact deleteSmallest_yields.bind fun l₁ h₁ => ih.mono fun l₂ h₂ => h₂.trans h₁

theorem seek_yields {used : Bool} {i : Nat} :
    Yields (seek used l i) fun j => ∃ k s, j = i + k ∧ l[k]? = some s ∧ isSnapshotInUse s = .ok used := by
  induction l generalizing i with
  | nil => exact (by decide : Site.outOfBounds.Elsewhere)
  | cons s l ih =>
    refine isSnapshotInUse_yields.bind fun used' h => ?_
    split
    · next heq => exact ⟨0, s, rfl, rfl, heq ▸ h.2⟩
    · refine ih.mono fun j ⟨k, s', hj, hget, hs'⟩ => ⟨k + 1, s', by omega, hget, hs'⟩

/-- After the slide there is room for a snapshot: the first empty slot is before the first full
one after it, and every slide moves both on. -/
theorem slideDown_yields : Yields (slideDown l) fun r => r.1.length = l.length ∧ r.2 < l.length := by
  refine seek_yields.bind fun i ⟨k, s, hi, hget, hs⟩ => seek_yields.bind fun j ⟨k', s', hj, hget', hs'⟩ => ?_
  obtain rfl : i = k := by omega
  have hlt : i < j := by
    rcases Nat.eq_zero_or_pos k' with rfl | hk
    · rw [List.getElem?_drop, Nat.add_zero, hget, Option.some_inj] at hget'
      rw [hget', hs'] at hs
      exact nomatch hs
    · omega
  have hjl : j < l.length := by
    have hlt := (List.getElem?_eq_some_iff.mp hget').1
    rw [List.length_drop] at hlt
    omega
  have hfold := yields_foldlM (f := slideOne) (i := j) (n := l.length - j)
    (I := fun j st => st.1.length = l.length ∧ st.2 < j) (a := (l, i)) ⟨rfl, hlt⟩ fun {j st} _ hst => by
      refine readSnapshot_yields.bind fun s _ => isSnapshotInUse_yields.bind fun used _ => ?_
      split
      · exact ⟨by rw [List.length_set, List.length_set, hst.1], Nat.succ_lt_succ hst.2⟩
      · exact ⟨hst.1, Nat.lt_succ_of_lt hst.2⟩
  rwa [Nat.add_sub_cancel' hjl.le] at hfold

/-- What the sanity check leaves is a table whose entries from `next_snapshot_i` on are clear. -/
theorem sanityCheckSnapshotsArray_yields {next : Nat} :
    Yields (sanityCheckSnapshotsArray l next) fun _ => ∀ s ∈ l.drop next, s = clearSnapshot := by
  have helse : Site.sanityCheckSnapshotsArray.Elsewhere := by decide
  refine (yields_forM (Q := fun _ => True) fun s _ => ?_).bind fun _ _ => yields_forM fun s _ => ?_
  · exact isSnapshotInUse_yields.bind fun used _ => (yields_tlAssert helse).mono fun _ _ => trivial
  · exact isSnapshotInUse_yields.bind fun used h => (yields_tlAssert helse).mono fun _ hused => h.1 hused

theorem intervalOne_yields {next i : Nat} {best : Int × Option Nat} : Yields (intervalOne l next best i) fun _ => True := by
  refine readSnapshot_yields.bind fun s _ => readSnapshot_yields.bind fun prev _ => ?_
  split
  · trivial
  · exact (yields_tlAssert (by decide)).bind fun _ _ => trivial

theorem cullSnapshots_yields : Yields (cullSnapshots l) fun r =>
    r.1.length = l.length ∧ r.2.1 < l.length ∧ ∀ s ∈ r.1.drop r.2.1, s = clearSnapshot := by
  refine deleteMany_yields.bind fun l₁ h₁ => slideDown_yields.bind fun r h₂ => ?_
  obtain ⟨l₂, next⟩ := r
  refine sanityCheckSnapshotsArray_yields.bind fun _ h₃ => (yields_tlAssert (by decide)).bind fun _ _ => ?_
  refine (yields_foldlM (I := fun _ _ => True) trivial fun _ _ => intervalOne_yields).bind fun best _ => ?_
  exact (yields_tlAssert (by decide)).bind fun _ _ => ⟨h₂.1.trans h₁, h₁ ▸ h₂.2, h₃⟩

end Cull

/-! ## Snapshots, whatever the times are -/

section Snapshots

variable {cfg : Config} {tab : SnapshotTable} {r : Request} {d : Bool}

/-- There is room for a snapshot, and the entries from there on are clear. -/
def SnapshotTable.HasRoom (tab : SnapshotTable) : Prop :=
  tab.nextSnapshotI < tab.snapshots.length ∧ ∀ s ∈ tab.snapshots.drop tab.nextSnapshotI, s = clearSnapshot

theorem hasRoom_initTable {N : Nat} (hN : 0 < N) : (initTable N).HasRoom :=
  ⟨by rw [initTable, List.length_replicate]; exact hN, fun s hs => List.eq_of_mem_replicate (List.mem_of_mem_drop hs)⟩

theorem enterSnapshot_yields (h : tab.HasRoom) (hr : r.statics.Ready) : Yields (enterSnapshot cfg tab r d) fun tab' =>
    tab'.nextSnapshotI = tab.nextSnapshotI + 1 ∧ tab'.snapshots.length = tab.snapshots.length ∧
      ∀ s ∈ tab'.snapshots.drop tab'.nextSnapshotI, s = clearSnapshot := by
  have hget : tab.snapshots[tab.nextSnapshotI]? = some clearSnapshot := by
    have hlt := h.1
    rw [List.getElem?_eq_getElem hlt, h.2 tab.snapshots[tab.nextSnapshotI]]
    rw [List.drop_eq_getElem_cons hlt]
    exact List.mem_cons_self
  obtain ⟨sxpt, htake⟩ := takeSnapshot_clear cfg hr r.kind r.time d
  rw [enterSnapshot, readSnapshot, hget, ok_bind, htake, ok_bind]
  generalize hs : Snapshot.mk r.kind r.time _ _ _ sxpt = s
  have hdrop : ∀ t ∈ (tab.snapshots.set tab.nextSnapshotI s).drop (tab.nextSnapshotI + 1), t = clearSnapshot := by
    intro t ht
    rw [List.drop_set_of_lt (Nat.lt_succ_self _)] at ht
    refine h.2 t (List.mem_of_mem_drop (i := 1) ?_)
    rwa [List.drop_drop]
  unfold updatePeak
  split
  · refine Yields.bind (Q := fun tab' => tab'.nextSnapshotI = tab.nextSnapshotI ∧
      tab'.snapshots.length = tab.snapshots.length ∧
        tab'.snapshots.drop (tab.nextSnapshotI + 1) = (tab.snapshots.set tab.nextSnapshotI s).drop (tab.nextSnapshotI + 1))
      ?_ fun tab' h' => ⟨congrArg (· + 1) h'.1, h'.2.1, ?_⟩
    · refine (yields_tlAssert (by decide)).bind fun _ _ => (yields_tlAssert (by decide)).bind fun _ _ => ⟨rfl, ?_, ?_⟩
      · have hlt := h.1
        simp only [List.length_append, List.length_map, List.length_take, List.length_drop, List.length_set]
        omega
      · have hlt := h.1
        have hlen : (((tab.snapshots.set tab.nextSnapshotI s).take tab.nextSnapshotI).map demote).length = tab.nextSnapshotI := by
          rw [List.length_map, List.length_take, List.length_set, Nat.min_eq_left hlt.le]
        simp only
        rw [List.drop_append, hlen, List.drop_of_length_le (by omega), List.nil_append, List.drop_drop,
          Nat.add_sub_cancel_left]
    · intro t ht
      simp only at ht
      rw [h'.1, h'.2.2] at ht
      exact hdrop t ht
  · exact ⟨rfl, List.length_set, hdrop⟩

theorem cullIfFull_yields (hlt : tab.nextSnapshotI ≤ tab.snapshots.length)
    (hclear : ∀ s ∈ tab.snapshots.drop tab.nextSnapshotI, s = clearSnapshot) :
    Yields (cullIfFull tab) SnapshotTable.HasRoom := by
  rw [cullIfFull]
  split
  · refine cullSnapshots_yields.bind fun r hr => ?_
    obtain ⟨l, next, interval⟩ := r
    exact ⟨hr.1 ▸ hr.2.1, hr.2.2⟩
  · next hne => exact ⟨by omega, hclear⟩

/-- **A snapshot** leaves room for the next one, or an assertion about the times fails. -/
theorem maybeTakeSnapshot_yields (h : tab.HasRoom) (hr : r.statics.Ready) :
    Yields (maybeTakeSnapshot cfg tab r) SnapshotTable.HasRoom := by
  have hwanted : Yields (isWanted cfg tab r) fun _ => True := by
    unfold isWanted
    split
    · split <;> trivial
    · split <;> trivial
    · exact (by decide : Site.maybeTakeSnapshot.Elsewhere)
  refine hwanted.bind fun wanted _ => ?_
  cases wanted with
  | none => exact h
  | some d =>
    refine (enterSnapshot_yields h hr).bind fun tab' ⟨hn, hlen, hclear⟩ => ?_
    refine (cullIfFull_yields ?_ hclear).bind fun tab'' hroom => hroom
    have := h.1
    omega

end Snapshots

/-! ## The client's blocks -/

/-- A block of the client, with the stack trace of the call that allocated it last. -/
structure Block where
  data : Nat
  reqSzB : Nat
  slopSzB : Nat
  trace : List Nat

/-- What a call does to the blocks that the client owns. -/
inductive OwnsStep : Multiset Block → Op → Multiset Block → Prop
  | startup {owned now} : OwnsStep owned (.startup now) owned
  /-- The client has placed the block itself. -/
  | placed {owned p reqSzB malloced ips now} (hp : p ≠ 0) :
    OwnsStep owned (.newBlock p reqSzB malloced ips now) (⟨p, reqSzB, 0, ips⟩ ::ₘ owned)
  | malloced {owned reqSzB p actualSzB ips now} :
    OwnsStep owned (.newBlock 0 reqSzB (some (p, actualSzB)) ips now) (⟨p, reqSzB, actualSzB - reqSzB, ips⟩ ::ₘ owned)
  | outOfMemory {owned reqSzB ips now} : OwnsStep owned (.newBlock 0 reqSzB none ips now) owned
  | freed {b owned peak now} : OwnsStep (b ::ₘ owned) (.dieBlock b.data peak now) owned
  | bogusFree {owned p peak now} (h : ∀ b ∈ owned, b.data ≠ p) : OwnsStep owned (.dieBlock p peak now) owned
  /-- The block has room for the new size. -/
  | renewed {b owned newReqSzB malloced ips peak now} (h : newReqSzB ≤ b.reqSzB + b.slopSzB) :
    OwnsStep (b ::ₘ owned) (.renewBlock b.data newReqSzB malloced ips peak now)
      (⟨b.data, newReqSzB, b.reqSzB + b.slopSzB - newReqSzB, ips⟩ ::ₘ owned)
  | moved {b owned newReqSzB pNew actualSzB ips peak now} (h : b.reqSzB + b.slopSzB < newReqSzB) :
    OwnsStep (b ::ₘ owned) (.renewBlock b.data newReqSzB (some (pNew, actualSzB)) ips peak now)
      (⟨pNew, newReqSzB, actualSzB - newReqSzB, ips⟩ ::ₘ owned)
  | bogusRealloc {owned p newReqSzB malloced ips peak now} (h : ∀ b ∈ owned, b.data ≠ p) :
    OwnsStep owned (.renewBlock p newReqSzB malloced ips peak now) owned

/-- What a run does to them. -/
inductive Owns : Multiset Block → List Op → Multiset Block → Prop
  | nil {owned} : Owns owned [] owned
  | cons {owned₁ owned₂ owned₃ op ops} : OwnsStep owned₁ op owned₂ → Owns owned₂ ops owned₃ → Owns owned₁ (op :: ops) owned₃

/-! ## The sizes in the tree -/

section Tree

variable {tree tree' : List XPt} {owned : Multiset Block} {b : Block}

/-- The requested bytes of the blocks. -/
def reqOf (owned : Multiset Block) : Nat := (owned.map Block.reqSzB).sum

/-- The blocks whose allocation context passes through an `XPt` with this context. -/
def through (l : List Nat) (owned : Multiset Block) : Multiset Block := owned.filter fun b => l <+: b.trace

/-- Every `XPt` has the size of the blocks whose allocation context passes through it. -/
def TreeAccounts (tree : List XPt) (owned : Multiset Block) : Prop :=
  ∀ i x, tree[i]? = some x → x.szB = reqOf (through (context tree i) owned)

@[simp] theorem reqOf_cons : reqOf (b ::ₘ owned) = b.reqSzB + reqOf owned := by
  rw [reqOf, Multiset.map_cons, Multiset.sum_cons, reqOf]

theorem reqOf_through_le (l : List Nat) (owned : Multiset Block) : reqOf (through l owned) ≤ reqOf owned := by
  obtain ⟨rest, hrest⟩ := Multiset.le_iff_exists_add.mp (Multiset.filter_le (fun b : Block => l <+: b.trace) owned)
  rw [reqOf, reqOf, through]
  conv_rhs => rw [hrest]
  rw [Multiset.map_add, Multiset.sum_add]
  exact Nat.le_add_right _ _

theorem reqOf_through_cons (l : List Nat) :
    reqOf (through l (b ::ₘ owned)) = (if l <+: b.trace then b.reqSzB else 0) + reqOf (through l owned) := by
  unfold through
  split
  · next h => rw [Multiset.filter_cons_of_pos (p := fun b : Block => l <+: b.trace) _ h, reqOf_cons]
  · next h => rw [Multiset.filter_cons_of_neg (p := fun b : Block => l <+: b.trace) _ h, zero_add]

theorem reqOf_through_nil : reqOf (through [] owned) = reqOf owned := by
  rw [through, Multiset.filter_eq_self.mpr fun b _ => List.nil_prefix]

/-- A block more: the sizes along its context grow. -/
theorem TreeAccounts.add (h : TreeAccounts tree owned) (hlt : reqOf (b ::ₘ owned) < 2 ^ 64) :
    TreeAccounts (addAlong tree b.trace b.reqSzB) (b ::ₘ owned) := by
  intro i x hx
  obtain ⟨y, hy, -⟩ := exists_of_bare addAlong_bare.symm hx
  rw [addAlong_getElem? hy] at hx
  have hle := reqOf_through_le (context tree i) (b ::ₘ owned)
  have hsz := h i y hy
  rw [context_congr addAlong_bare, reqOf_through_cons]
  rw [reqOf_through_cons] at hle
  obtain rfl := Option.some.inj hx
  split
  · next hpre =>
    rw [if_pos hpre] at hle
    simp only
    unfold sizeT
    omega
  · rw [zero_add, hsz]

/-- A block less: the sizes along its context shrink. -/
theorem TreeAccounts.remove (h : TreeAccounts tree (b ::ₘ owned)) (hlt : reqOf (b ::ₘ owned) < 2 ^ 64) :
    TreeAccounts (addAlong tree b.trace (-b.reqSzB)) owned := by
  intro i x hx
  obtain ⟨y, hy, -⟩ := exists_of_bare addAlong_bare.symm hx
  rw [addAlong_getElem? hy] at hx
  have hle := reqOf_through_le (context tree i) (b ::ₘ owned)
  have hsz := h i y hy
  rw [context_congr addAlong_bare]
  rw [reqOf_through_cons] at hle hsz
  obtain rfl := Option.some.inj hx
  split
  · next hpre =>
    rw [if_pos hpre] at hle hsz
    simp only
    unfold sizeT
    omega
  · next hpre =>
    rw [if_neg hpre, zero_add] at hsz
    exact hsz

/-- New `XPt`s lie on the context of no block that is there. -/
theorem TreeAccounts.grow (h : TreeAccounts tree owned) (hl : Linked tree) (hl' : Linked tree') (hg : Grows tree tree')
    (htrace : ∀ b ∈ owned, ∃ w, w < tree.length ∧ b.trace = context tree w) : TreeAccounts tree' owned := by
  intro i x hx
  by_cases hi : i < tree.length
  · obtain ⟨hctx, y, hy, hsz⟩ := hg.old (List.getElem?_eq_getElem hi)
    obtain rfl : x = y := Option.some.inj (hx.symm.trans hy)
    rw [hsz, hctx]
    exact h i _ (List.getElem?_eq_getElem hi)
  · rw [hg.new hx (Nat.le_of_not_lt hi), through, Multiset.filter_eq_nil.mpr]
    · rfl
    · intro b hb hpre
      obtain ⟨w, hw, htrace⟩ := htrace b hb
      obtain ⟨k, hk, hctx⟩ := exists_of_prefix hl (List.getElem?_eq_getElem hw) (htrace ▸ hpre)
      obtain ⟨hctx', y, hy, -⟩ := hg.old (List.getElem?_eq_getElem hk)
      have := context_injective hl' hy hx (hctx'.trans hctx)
      omega

end Tree

/-! ## The invariant -/

section Accounts

variable {opts : Options} {st st' : Massif} {owned : Multiset Block} {chunks : Multiset HPChunk} {tree tree' : List XPt}

/-- The block of a chunk. -/
def HPChunk.block (tree : List XPt) (hc : HPChunk) : Block :=
  ⟨hc.data, hc.reqSzB, hc.slopSzB, context tree (hc.whereXPt.getD 0)⟩

/-- Every chunk has a place in the tree. -/
def Located (tree : List XPt) (chunks : Multiset HPChunk) : Prop :=
  ∀ hc ∈ chunks, ∃ w, hc.whereXPt = some w ∧ w < tree.length

/-- The bytes that the blocks take in addition to the requested ones. -/
def extraOf (opts : Options) (owned : Multiset Block) : Nat := (owned.map fun b => opts.cloHeapAdmin + b.slopSzB).sum

@[simp] theorem extraOf_cons {b : Block} : extraOf opts (b ::ₘ owned) = opts.cloHeapAdmin + b.slopSzB + extraOf opts owned := by
  rw [extraOf, Multiset.map_cons, Multiset.sum_cons, extraOf]

/-- The list of blocks is the client's blocks. -/
def Lists (mallocList : HashTable HPChunk) (tree : List XPt) (owned : Multiset Block) : Prop :=
  ∃ chunks, Stores HPChunk.data mallocList chunks ∧ Located tree chunks ∧ owned = chunks.map (HPChunk.block tree)

/-- **The accounts are right**: the sums, and the size of every `XPt`, are those of the blocks
that the client owns. -/
structure Accounts (opts : Options) (st : Massif) (owned : Multiset Block) : Prop where
  lists : Lists st.mallocList st.statics.xtree owned
  heap : st.statics.heapSzB = reqOf owned
  extra : st.statics.heapExtraSzB = extraOf opts owned
  xpts : TreeAccounts st.statics.xtree owned
  /-- `alloc_xpt` has the size of the heap. -/
  ready : st.statics.Ready
  hasRoom : st.table.HasRoom
  reqLt : reqOf owned < 2 ^ 64
  extraLt : extraOf opts owned < 2 ^ 64
  /-- The sizes of the blocks do not overflow. -/
  sizes : ∀ b ∈ owned, b.reqSzB ≤ 2 ^ 62 ∧ b.reqSzB + b.slopSzB < 2 ^ 64

theorem TreeAccounts.root (h : TreeAccounts tree owned) (hl : Linked tree) :
    (tree[0]?).map XPt.szB = some (reqOf owned) := by
  obtain ⟨x, hx, -⟩ := hl.root
  rw [hx, Option.map_some, h 0 x hx, context_root hl, reqOf_through_nil]

theorem accounts_initMassif {cloMaxSnapshots : Nat} (h : 0 < cloMaxSnapshots) : Accounts opts (initMassif cloMaxSnapshots) 0 where
  lists := ⟨0, stores_htConstruct, fun hc h => absurd h (Multiset.notMem_zero hc), rfl⟩
  heap := rfl
  extra := rfl
  xpts := by
    rintro (_ | i) x hx
    · cases hx
      rfl
    · exact nomatch hx
  ready := ⟨rfl, linked_initXTree, rfl⟩
  hasRoom := hasRoom_initTable h
  reqLt := by decide
  extraLt := by
    rw [extraOf, Multiset.map_zero, Multiset.sum_zero]
    decide
  sizes := fun b hb => absurd hb (Multiset.notMem_zero b)

/-- The blocks do not depend on the sizes in the tree. -/
theorem Lists.congr {l : HashTable HPChunk} (h : Lists l tree owned) (hbare : tree.map XPt.bare = tree'.map XPt.bare) :
    Lists l tree' owned := by
  obtain ⟨chunks, hstores, hloc, rfl⟩ := h
  have hlen : tree.length = tree'.length := by simpa using congrArg List.length hbare
  refine ⟨chunks, hstores, fun hc hmem => ?_, Multiset.map_congr rfl fun hc _ => ?_⟩
  · obtain ⟨w, hw, hlt⟩ := hloc hc hmem
    exact ⟨w, hw, hlen ▸ hlt⟩
  · rw [HPChunk.block, HPChunk.block, context_congr hbare]

/-- Nor on `XPt`s that are added. -/
theorem Lists.grow {l : HashTable HPChunk} (h : Lists l tree owned) (hg : Grows tree tree') : Lists l tree' owned := by
  obtain ⟨chunks, hstores, hloc, rfl⟩ := h
  refine ⟨chunks, hstores, fun hc hmem => ?_, Multiset.map_congr rfl fun hc hmem => ?_⟩
  · obtain ⟨w, hw, hlt⟩ := hloc hc hmem
    obtain ⟨-, y, hy, -⟩ := hg.old (List.getElem?_eq_getElem hlt)
    exact ⟨w, hw, (List.getElem?_eq_some_iff.mp hy).1⟩
  · obtain ⟨w, hw, hlt⟩ := hloc hc hmem
    rw [HPChunk.block, HPChunk.block, hw, Option.getD_some, (hg.old (List.getElem?_eq_getElem hlt)).1]

theorem Lists.located {l : HashTable HPChunk} (h : Lists l tree owned) :
    ∀ b ∈ owned, ∃ w, w < tree.length ∧ b.trace = context tree w := by
  obtain ⟨chunks, -, hloc, rfl⟩ := h
  intro b hb
  obtain ⟨hc, hmem, rfl⟩ := Multiset.mem_map.mp hb
  obtain ⟨w, hw, hlt⟩ := hloc hc hmem
  exact ⟨w, hlt, by rw [HPChunk.block, hw, Option.getD_some]⟩

/-- A chunk is taken off the list: its block is one of the client's. -/
theorem Lists.remove {l l' : HashTable HPChunk} {p : Nat} {hc : HPChunk} (h : Lists l tree owned)
    (hremove : htRemove HPChunk.data l p = some (hc, l')) :
    ∃ rest w, owned = hc.block tree ::ₘ rest ∧ Lists l' tree rest ∧ hc.data = p ∧ hc.whereXPt = some w ∧ w < tree.length := by
  obtain ⟨chunks, hstores, hloc, rfl⟩ := h
  obtain ⟨hdata, chunks', rfl, hstores'⟩ := htRemove_some hstores hremove
  obtain ⟨w, hw, hlt⟩ := hloc hc (Multiset.mem_cons_self hc chunks')
  refine ⟨chunks'.map (HPChunk.block tree), w, Multiset.map_cons _ _ _, ?_, hdata, hw, hlt⟩
  exact ⟨chunks', hstores', fun c hmem => hloc c (Multiset.mem_cons_of_mem hmem), rfl⟩

/-- No chunk with the address: no block of the client has it. -/
theorem Lists.remove_none {l : HashTable HPChunk} {p : Nat} (h : Lists l tree owned)
    (hremove : htRemove HPChunk.data l p = none) : ∀ b ∈ owned, b.data ≠ p := by
  obtain ⟨chunks, hstores, -, rfl⟩ := h
  intro b hb
  obtain ⟨hc, hmem, rfl⟩ := Multiset.mem_map.mp hb
  exact htRemove_none hstores hremove hc hmem

/-- A chunk is added. -/
theorem addChunk_spec (st : Massif) {w : Nat} (h : Lists st.mallocList tree owned) (hw : w < tree.length) (p reqSzB slopSzB : Nat) :
    ∃ mallocList, addChunk st ⟨p, reqSzB, slopSzB, some w⟩ = .ok { st with mallocList } ∧
      htAddNode HPChunk.data st.mallocList ⟨p, reqSzB, slopSzB, some w⟩ = .ok mallocList ∧
      Lists mallocList tree (⟨p, reqSzB, slopSzB, context tree w⟩ ::ₘ owned) := by
  obtain ⟨chunks, hstores, hloc, rfl⟩ := h
  obtain ⟨mallocList, hadd, hstores'⟩ := htAddNode_spec hstores ⟨p, reqSzB, slopSzB, some w⟩
  refine ⟨mallocList, by rw [addChunk, hadd], hadd, _, hstores', fun c hc => ?_, ?_⟩
  · rcases Multiset.mem_cons.mp hc with rfl | hc
    · exact ⟨w, rfl, hw⟩
    · exact hloc c hc
  · rw [Multiset.map_cons]
    rfl

theorem Accounts.xpt_lt (h : Accounts opts st owned) {i : Nat} {x : XPt} (hx : st.statics.xtree[i]? = some x) :
    x.szB < 2 ^ 64 := by
  rw [h.xpts i x hx]
  exact (reqOf_through_le _ _).trans_lt h.reqLt

/-- A call of `maybe_take_snapshot` changes the table only. -/
theorem snapshotAt_yields (opts : Options) (st : Massif) (hready : st.statics.Ready) (hroom : st.table.HasRoom) (kind : SnapshotKind) (now : Moment) :
    Yields (snapshotAt opts st kind now) fun st' => ∃ table, st' = { st with table } ∧ table.HasRoom :=
  (maybeTakeSnapshot_yields hroom hready).bind fun table h => ⟨table, rfl, h⟩

/-- **`update_heap_stats`** with changes that it can be told. -/
theorem updateHeapStats_spec (st : Massif) (dHeap dExtra : Int) (heapSzB heapExtraSzB : Nat)
    (hheap : (heapSzB : Int) = st.statics.heapSzB + dHeap) (hextra : (heapExtraSzB : Int) = st.statics.heapExtraSzB + dExtra)
    (hlt : heapSzB < 2 ^ 64) (hlt' : heapExtraSzB < 2 ^ 64) (hlo : -2 ^ 63 < dHeap) (hlo' : -2 ^ 31 < dExtra)
    (hhi' : dExtra < 2 ^ 31) :
    ∃ st', updateHeapStats st dHeap (int32 dExtra) = .ok st' ∧ st'.mallocList = st.mallocList ∧ st'.table = st.table ∧
      st'.statics = { st.statics with heapSzB, heapExtraSzB } ∧
      (0 ≤ dHeap + dExtra → dHeap + dExtra < 2 ^ 63 →
        st'.totalAllocsDeallocsSzB = sizeT (st.totalAllocsDeallocsSzB + (dHeap + dExtra))) := by
  rw [int32_of hlo'.le hhi', updateHeapStats, tlAssert_of, ok_bind, tlAssert_of, ok_bind]
  · have hH : sizeT (st.statics.heapSzB + dHeap) = heapSzB := by rw [← hheap, sizeT_nat hlt]
    have hE : sizeT (st.statics.heapExtraSzB + dExtra) = heapExtraSzB := by rw [← hextra, sizeT_nat hlt']
    refine ⟨_, rfl, rfl, rfl, by simp only [updateAllocStats, hH, hE], fun h₀ h => ?_⟩
    rw [sSizeT_of (by omega) h]
    simp only [updateAllocStats, if_neg (Int.not_lt.mpr h₀)]
  · intro hneg
    rw [int32_of (by omega) (by omega)]
    unfold sizeT
    omega
  · intro hneg
    unfold sizeT
    omega

/-! ### The tree in the course of a call -/

/-- `get_XCon` changes no account. -/
theorem getXCon_accounts {l : HashTable HPChunk} (hl : Linked tree) (hx : TreeAccounts tree owned)
    (hlists : Lists l tree owned) (ips : List Nat) :
    ∃ tree' w, getXCon tree ips = .ok (tree', w) ∧ Linked tree' ∧ TreeAccounts tree' owned ∧ Grows tree tree' ∧
      w < tree'.length ∧ context tree' w = ips := by
  obtain ⟨x, hroot, -⟩ := hl.root
  obtain ⟨tree', w, y, hget, hl', hg, hw, hctx⟩ : ∃ tree' w y, getXConFrom tree 0 ips = .ok (tree', w) ∧ Linked tree' ∧
      Grows tree tree' ∧ tree'[w]? = some y ∧ context tree' w = context tree 0 ++ ips :=
    getXConFrom_spec hl hroot
  rw [context_root hl, List.nil_append] at hctx
  exact ⟨tree', w, hget, hl', hx.grow hl hl' hg hlists.located, hg, (List.getElem?_eq_some_iff.mp hw).1, hctx⟩

/-- `update_XCon` for a block that has been allocated. -/
theorem updateXCon_add {b : Block} {w : Nat} (hl : Linked tree) (hx : TreeAccounts tree owned) (hw : w < tree.length)
    (hctx : context tree w = b.trace) (hreq : b.reqSzB ≤ 2 ^ 62) (hlt : reqOf (b ::ₘ owned) < 2 ^ 64) :
    ∃ tree', updateXCon true tree (some w) (sSizeT b.reqSzB) = .ok tree' ∧ tree'.map XPt.bare = tree.map XPt.bare ∧
      TreeAccounts tree' (b ::ₘ owned) := by
  have hcons : reqOf (b ::ₘ owned) = b.reqSzB + reqOf owned := reqOf_cons
  have hsz : ∀ {j : Nat} {x : XPt}, tree[j]? = some x → x.szB < 2 ^ 64 := by
    intro j x hj
    have hle := reqOf_through_le (context tree j) owned
    rw [hx j x hj]
    omega
  refine ⟨_, ?_, addAlong_bare, hx.add hlt⟩
  rw [sSizeT_of (by omega) (by omega), ← hctx]
  exact updateXCon_spec hl (List.getElem?_eq_getElem hw) (by omega) hsz fun _ _ => by omega

/-- `update_XCon` for a block that is going to be freed. -/
theorem updateXCon_remove {b : Block} {w : Nat} (hl : Linked tree) (hx : TreeAccounts tree (b ::ₘ owned))
    (hw : w < tree.length) (hctx : context tree w = b.trace) (hreq : b.reqSzB ≤ 2 ^ 62)
    (hlt : reqOf (b ::ₘ owned) < 2 ^ 64) :
    ∃ tree', updateXCon true tree (some w) (sSizeT (-b.reqSzB)) = .ok tree' ∧
      tree'.map XPt.bare = tree.map XPt.bare ∧ TreeAccounts tree' owned := by
  refine ⟨_, ?_, addAlong_bare, hx.remove hlt⟩
  rw [sSizeT_of (by omega) (by omega), ← hctx]
  refine updateXCon_spec hl (List.getElem?_eq_getElem hw) (by omega) (fun {j x} hj => ?_) fun {j x} hj hpre => ?_
  · rw [hx j x hj]
    exact (reqOf_through_le _ _).trans_lt hlt
  · rw [hx j x hj, reqOf_through_cons, if_pos (hctx ▸ hpre)]
    omega

/-! ### The calls -/

/-- **A block is recorded**: what is left to do is to take a snapshot. -/
theorem recordBlock_spec (hheap : opts.cloHeap = true) (h : Accounts opts st owned) {p reqSzB slopSzB : Nat}
    (ips : List Nat) (now : Moment) (hreq : reqSzB ≤ 2 ^ 62) (hsize : reqSzB + slopSzB < 2 ^ 64)
    (hdelta : opts.cloHeapAdmin + slopSzB < 2 ^ 31) (hreqLt : reqOf (⟨p, reqSzB, slopSzB, ips⟩ ::ₘ owned) < 2 ^ 64)
    (hextraLt : extraOf opts (⟨p, reqSzB, slopSzB, ips⟩ ::ₘ owned) < 2 ^ 64) :
    ∃ st₁, recordBlock opts st p reqSzB slopSzB ips now = snapshotAt opts st₁ .normal now ∧
      Accounts opts st₁ (⟨p, reqSzB, slopSzB, ips⟩ ::ₘ owned) ∧ st₁.table = st.table ∧
      st₁.statics.stacksSzB = st.statics.stacksSzB ∧
      st₁.totalAllocsDeallocsSzB = sizeT (st.totalAllocsDeallocsSzB + (reqSzB + (opts.cloHeapAdmin + slopSzB) : Nat)) ∧
      ∃ xpt, htAddNode HPChunk.data st.mallocList ⟨p, reqSzB, slopSzB, some xpt⟩ = .ok st₁.mallocList := by
  have hr := h.heap
  have he := h.extra
  have hreqOf : reqOf (⟨p, reqSzB, slopSzB, ips⟩ ::ₘ owned) = reqSzB + reqOf owned := reqOf_cons
  have hextraOf : extraOf opts (⟨p, reqSzB, slopSzB, ips⟩ ::ₘ owned) = opts.cloHeapAdmin + slopSzB + extraOf opts owned :=
    extraOf_cons
  have hreq' : sSizeT reqSzB = reqSzB := sSizeT_of (by omega) (by omega)
  obtain ⟨st₁, hstats, hlist₁, htable₁, hstatics₁, htotal₁⟩ := updateHeapStats_spec st reqSzB (opts.cloHeapAdmin + slopSzB)
    (reqOf (⟨p, reqSzB, slopSzB, ips⟩ ::ₘ owned)) (extraOf opts (⟨p, reqSzB, slopSzB, ips⟩ ::ₘ owned)) (by omega)
    (by omega) hreqLt hextraLt (by omega) (by omega) (by omega)
  obtain ⟨tree₁, w, hget, hl₁, hx₁, hg, hw, hctx⟩ := getXCon_accounts h.ready.linked h.xpts h.lists ips
  obtain ⟨tree₂, hupdate, hbare, hx₂⟩ := updateXCon_add (b := ⟨p, reqSzB, slopSzB, ips⟩) hl₁ hx₁ hw hctx hreq hreqLt
  have hl₂ := hl₁.congr hbare.symm
  have hlen : tree₂.length = tree₁.length := by simpa using congrArg List.length hbare
  have hlists₂ : Lists st₁.mallocList tree₂ owned := hlist₁ ▸ (h.lists.grow hg).congr hbare.symm
  obtain ⟨mallocList, hadd, hnode, hlists⟩ := addChunk_spec (st₁.setXTree tree₂) hlists₂ (hlen ▸ hw) p reqSzB slopSzB
  rw [context_congr hbare, hctx] at hlists
  simp only [hreq'] at hupdate
  have hready : Statics.Ready (st₁.setXTree tree₂).statics := by
    rw [Massif.setXTree, hstatics₁]
    exact ⟨h.ready.started, hl₂, hx₂.root hl₂⟩
  refine ⟨{ st₁.setXTree tree₂ with mallocList }, ?_, ?_, htable₁, ?_, ?_, w, ?_⟩
  · rw [recordBlock, if_pos hheap, hreq', hstats, ok_bind, hstatics₁]
    simp only [hget, ok_bind, hheap]
    rw [hupdate, ok_bind, hadd, ok_bind]
  · refine ⟨hlists, by rw [Massif.setXTree, hstatics₁], by rw [Massif.setXTree, hstatics₁], hx₂, hready, htable₁ ▸ h.hasRoom,
      hreqLt, hextraLt, fun b hb => ?_⟩
    rcases Multiset.mem_cons.mp hb with rfl | hb
    · exact ⟨hreq, hsize⟩
    · exact h.sizes b hb
  · rw [Massif.setXTree, hstatics₁]
  · exact (htotal₁ (by omega) (by omega)).trans (by push_cast; rfl)
  · rw [← hnode, Massif.setXTree, hlist₁]

theorem recordBlock_yields (hheap : opts.cloHeap = true) (h : Accounts opts st owned) {p reqSzB slopSzB : Nat}
    (ips : List Nat) (now : Moment) (hreq : reqSzB ≤ 2 ^ 62) (hsize : reqSzB + slopSzB < 2 ^ 64)
    (hdelta : opts.cloHeapAdmin + slopSzB < 2 ^ 31) (hreqLt : reqOf (⟨p, reqSzB, slopSzB, ips⟩ ::ₘ owned) < 2 ^ 64)
    (hextraLt : extraOf opts (⟨p, reqSzB, slopSzB, ips⟩ ::ₘ owned) < 2 ^ 64) :
    Yields (recordBlock opts st p reqSzB slopSzB ips now) fun st' => Accounts opts st' (⟨p, reqSzB, slopSzB, ips⟩ ::ₘ owned) := by
  obtain ⟨st₁, hrecord, hacc, -⟩ := recordBlock_spec hheap h ips now hreq hsize hdelta hreqLt hextraLt
  rw [hrecord]
  refine (snapshotAt_yields opts st₁ hacc.ready hacc.hasRoom .normal now).mono ?_
  rintro _ ⟨table, rfl, hroom⟩
  exact { hacc with hasRoom := hroom }

/-- A block of the client is freed. -/
theorem dieBlock_yields (hheap : opts.cloHeap = true) (h : Accounts opts st owned) {p : Nat} {hc : HPChunk}
    {mallocList : HashTable HPChunk} (peak now : Moment) (hremove : htRemove HPChunk.data st.mallocList p = some (hc, mallocList))
    (hdelta : opts.cloHeapAdmin + hc.slopSzB < 2 ^ 31) :
    Yields (dieBlock opts st p peak now) fun st' => ∃ rest, owned = hc.block st.statics.xtree ::ₘ rest ∧ Accounts opts st' rest := by
  obtain ⟨rest, w, rfl, hlists, hdata, hwhere, hw⟩ := h.lists.remove hremove
  have hr := h.heap
  have he := h.extra
  have hreqOf : reqOf (hc.block st.statics.xtree ::ₘ rest) = hc.reqSzB + reqOf rest := reqOf_cons
  have hextraOf : extraOf opts (hc.block st.statics.xtree ::ₘ rest) = opts.cloHeapAdmin + hc.slopSzB + extraOf opts rest :=
    extraOf_cons
  have hreq : hc.reqSzB ≤ 2 ^ 62 := (h.sizes _ (Multiset.mem_cons_self _ _)).1
  have hreq' : sSizeT (-hc.reqSzB) = -hc.reqSzB := sSizeT_of (by omega) (by omega)
  have hreqLt := h.reqLt
  have hextraLt := h.extraLt
  have hctx : context st.statics.xtree w = (hc.block st.statics.xtree).trace := by
    rw [HPChunk.block, hwhere, Option.getD_some]
  obtain ⟨tree', hupdate, hbare, hx'⟩ := updateXCon_remove h.ready.linked h.xpts hw hctx hreq hreqLt
  rw [dieBlock, hremove]
  simp only [hheap, if_true]
  refine (snapshotAt_yields opts { st with mallocList } h.ready h.hasRoom .peak peak).bind ?_
  rintro _ ⟨table, rfl, hroom⟩
  obtain ⟨st₁, hstats, hlist₁, htable₁, hstatics₁, -⟩ := updateHeapStats_spec { st with mallocList, table } (-hc.reqSzB)
    (-opts.cloHeapAdmin - hc.slopSzB) (reqOf rest) (extraOf opts rest) (by simp only; omega) (by simp only; omega)
    (by omega) (by omega) (by omega) (by omega) (by omega)
  rw [hreq', hstats, ok_bind, hstatics₁, hwhere]
  have hupdate' : updateXCon true st.statics.xtree (some w) (-hc.reqSzB) = .ok tree' := hreq' ▸ hupdate
  simp only [hupdate', ok_bind]
  have hready : Statics.Ready (st₁.setXTree tree').statics := by
    rw [Massif.setXTree, hstatics₁]
    exact ⟨h.ready.started, h.ready.linked.congr hbare.symm, hx'.root (h.ready.linked.congr hbare.symm)⟩
  refine (snapshotAt_yields opts (st₁.setXTree tree') hready (htable₁ ▸ hroom) .normal now).mono ?_
  rintro _ ⟨table', rfl, hroom'⟩
  refine ⟨rest, rfl, ?_, by rw [Massif.setXTree, hstatics₁], by rw [Massif.setXTree, hstatics₁], hx', hready, hroom', by omega,
    by omega, fun b hb => h.sizes b (Multiset.mem_cons_of_mem hb)⟩
  show Lists st₁.mallocList tree' rest
  rw [hlist₁]
  exact hlists.congr hbare.symm

/-- A block of the client gets another size, and perhaps another place. -/
theorem updateChunk_yields {st₀ : Massif} (hheap : opts.cloHeap = true) {hc : HPChunk} {rest : Multiset Block} {w : Nat}
    (h : Accounts opts st₀ (hc.block st₀.statics.xtree ::ₘ rest)) (hstatics : st.statics = st₀.statics)
    (hroom : st.table.HasRoom) (hlists : Lists st.mallocList st₀.statics.xtree rest) (hwhere : hc.whereXPt = some w)
    (hw : w < st₀.statics.xtree.length) {pNew newReqSzB newSlopSzB : Nat} (ips : List Nat) (now : Moment)
    (hreq : newReqSzB ≤ 2 ^ 62) (hsize : newReqSzB + newSlopSzB < 2 ^ 64)
    (hlo : -2 ^ 31 < (newSlopSzB - hc.slopSzB : Int)) (hhi : (newSlopSzB - hc.slopSzB : Int) < 2 ^ 31)
    (hreqLt : reqOf (⟨pNew, newReqSzB, newSlopSzB, ips⟩ ::ₘ rest) < 2 ^ 64)
    (hextraLt : extraOf opts (⟨pNew, newReqSzB, newSlopSzB, ips⟩ ::ₘ rest) < 2 ^ 64) :
    Yields (updateChunk opts st hc pNew newReqSzB newSlopSzB ips now) fun r =>
      Accounts opts r.1 (⟨pNew, newReqSzB, newSlopSzB, ips⟩ ::ₘ rest) := by
  have hr := h.heap
  have he := h.extra
  have hreqOf : reqOf (hc.block st₀.statics.xtree ::ₘ rest) = hc.reqSzB + reqOf rest := reqOf_cons
  have hextraOf : extraOf opts (hc.block st₀.statics.xtree ::ₘ rest) = opts.cloHeapAdmin + hc.slopSzB + extraOf opts rest :=
    extraOf_cons
  have hreqOf' : reqOf (⟨pNew, newReqSzB, newSlopSzB, ips⟩ ::ₘ rest) = newReqSzB + reqOf rest := reqOf_cons
  have hextraOf' : extraOf opts (⟨pNew, newReqSzB, newSlopSzB, ips⟩ ::ₘ rest) =
      opts.cloHeapAdmin + newSlopSzB + extraOf opts rest := extraOf_cons
  have hold : hc.reqSzB ≤ 2 ^ 62 := (h.sizes _ (Multiset.mem_cons_self _ _)).1
  have hdiff : sSizeT (newReqSzB - hc.reqSzB) = newReqSzB - hc.reqSzB := sSizeT_of (by omega) (by omega)
  obtain ⟨tree₁, v, hget, hl₁, hx₁, hg, hv, hctxv⟩ := getXCon_accounts h.ready.linked h.xpts h.lists ips
  obtain ⟨hctxw, x, hgetw, -⟩ := hg.old (List.getElem?_eq_getElem hw)
  have hctx : context tree₁ w = (hc.block st₀.statics.xtree).trace := by
    rw [HPChunk.block, hwhere, Option.getD_some, hctxw]
  obtain ⟨tree₂, hupdate₂, hbare₂, hx₂⟩ :=
    updateXCon_remove hl₁ hx₁ (List.getElem?_eq_some_iff.mp hgetw).1 hctx hold h.reqLt
  have hlen₂ : tree₂.length = tree₁.length := by simpa using congrArg List.length hbare₂
  have hl₂ := hl₁.congr hbare₂.symm
  obtain ⟨tree₃, hupdate₃, hbare₃, hx₃⟩ := updateXCon_add (b := ⟨pNew, newReqSzB, newSlopSzB, ips⟩) hl₂ hx₂
    (hlen₂ ▸ hv) ((context_congr hbare₂ v).trans hctxv) hreq hreqLt
  have hlen₃ : tree₃.length = tree₂.length := by simpa using congrArg List.length hbare₃
  have hl₃ := hl₂.congr hbare₃.symm
  have hlists₃ : Lists st.mallocList tree₃ rest := ((hlists.grow hg).congr hbare₂.symm).congr hbare₃.symm
  obtain ⟨mallocList, hadd, -, hlists'⟩ :=
    addChunk_spec (st.setXTree tree₃) hlists₃ (hlen₃ ▸ hlen₂ ▸ hv) pNew newReqSzB newSlopSzB
  rw [context_congr hbare₃, context_congr hbare₂, hctxv] at hlists'
  obtain ⟨st₄, hstats, hlist₄, htable₄, hstatics₄, -⟩ := updateHeapStats_spec { st.setXTree tree₃ with mallocList }
    (newReqSzB - hc.reqSzB) (newSlopSzB - hc.slopSzB) (reqOf (⟨pNew, newReqSzB, newSlopSzB, ips⟩ ::ₘ rest))
    (extraOf opts (⟨pNew, newReqSzB, newSlopSzB, ips⟩ ::ₘ rest))
    (by simp only [Massif.setXTree, hstatics]; omega) (by simp only [Massif.setXTree, hstatics]; omega) hreqLt hextraLt
    (by omega) hlo hhi
  rw [updateChunk, if_pos hheap, hstatics, hget, ok_bind]
  simp only [hheap, hwhere]
  rw [show updateXCon true tree₁ (some w) (sSizeT (-hc.reqSzB)) = .ok tree₂ from hupdate₂, ok_bind,
    show updateXCon true tree₂ (some v) (sSizeT newReqSzB) = .ok tree₃ from hupdate₃, ok_bind, hadd, ok_bind, hdiff, hstats,
    ok_bind]
  have hready : st₄.statics.Ready := by
    rw [hstatics₄]
    refine ⟨?_, hl₃, hx₃.root hl₃⟩
    show st.statics.haveStartedExecutingCode = true
    rw [hstatics, h.ready.started]
  refine (snapshotAt_yields opts st₄ hready (htable₄ ▸ hroom) .normal now).bind ?_
  rintro _ ⟨table, rfl, hroom'⟩
  refine ⟨?_, by rw [hstatics₄], by rw [hstatics₄], ?_, hready, hroom', hreqLt, hextraLt, fun b hb => ?_⟩
  · show Lists st₄.mallocList st₄.statics.xtree _
    rw [hlist₄, hstatics₄]
    exact hlists'
  · show TreeAccounts st₄.statics.xtree _
    rw [hstatics₄]
    exact hx₃
  · rcases Multiset.mem_cons.mp hb with rfl | hb
    · exact ⟨hreq, hsize⟩
    · exact h.sizes b (Multiset.mem_cons_of_mem hb)

end Accounts

/-! ## Runs -/

section Runs

variable {opts : Options} {st st' : Massif} {owned : Multiset Block} {op : Op} {ops : List Op}

/-- The sizes that are asked for are at most `2^62` bytes, the allocator gives at least what it
is asked for, and it does not fail in `renew_block`. -/
def Op.Valid : Op → Prop
  | .startup _ => True
  | .newBlock _ reqSzB malloced _ _ =>
    reqSzB ≤ 2 ^ 62 ∧ ∀ p actualSzB, malloced = some (p, actualSzB) → reqSzB ≤ actualSzB ∧ actualSzB < 2 ^ 64
  | .dieBlock _ _ _ => True
  | .renewBlock _ newReqSzB malloced _ _ _ =>
    newReqSzB ≤ 2 ^ 62 ∧ ∃ p actualSzB, malloced = some (p, actualSzB) ∧ newReqSzB ≤ actualSzB ∧ actualSzB < 2 ^ 64

/-- The deltas of `renew_block`. -/
def renewDeltas (hc : HPChunk) (newReqSzB : Nat) (malloced : Malloced) : Int × Int :=
  if newReqSzB ≤ hc.reqSzB + hc.slopSzB then (newReqSzB - hc.reqSzB, hc.reqSzB - newReqSzB)
  else
    match malloced with
    | none => (0, 0)
    | some (_, actualSzB) => (newReqSzB - hc.reqSzB, (actualSzB - newReqSzB) - hc.slopSzB)

/-- By how much a call changes the requested bytes of the client's blocks, and the extra ones. -/
def Op.deltas (opts : Options) (st : Massif) : Op → Int × Int
  | .startup _ => (0, 0)
  | .newBlock p reqSzB malloced _ _ =>
    if p = 0 then
      match malloced with
      | none => (0, 0)
      | some (_, actualSzB) => (reqSzB, opts.cloHeapAdmin + (actualSzB - reqSzB))
    else (reqSzB, opts.cloHeapAdmin)
  | .dieBlock p _ _ =>
    match htRemove HPChunk.data st.mallocList p with
    | none => (0, 0)
    | some (hc, _) => (-hc.reqSzB, -opts.cloHeapAdmin - hc.slopSzB)
  | .renewBlock pOld newReqSzB malloced _ _ _ =>
    match htRemove HPChunk.data st.mallocList pOld with
    | none => (0, 0)
    | some (hc, _) => renewDeltas hc newReqSzB malloced

/-- The change of the extra bytes fits into the `Int` that `update_heap_stats` is passed, and
the sums into a `SizeT`. -/
def Op.Fits (opts : Options) (st : Massif) (op : Op) : Prop :=
  -2 ^ 31 < (op.deltas opts st).2 ∧ (op.deltas opts st).2 < 2 ^ 31 ∧
    st.statics.heapSzB + (op.deltas opts st).1 < 2 ^ 64 ∧ st.statics.heapExtraSzB + (op.deltas opts st).2 < 2 ^ 64

instance (op : Op) : Decidable (op.Fits opts st) := inferInstanceAs (Decidable (_ ∧ _))

/-- All calls of the run fit. -/
def FitsAll (opts : Options) : Massif → List Op → Prop
  | _, [] => True
  | st, op :: ops => op.Fits opts st ∧ ∀ st', step opts st op = .ok st' → FitsAll opts st' ops

instance FitsAll.decidable (opts : Options) : ∀ st ops, Decidable (FitsAll opts st ops)
  | _, [] => isTrue trivial
  | st, op :: ops =>
    match h : step opts st op with
    | .error site => decidable_of_iff (op.Fits opts st) (by simp [FitsAll, h])
    | .ok st' =>
      have := FitsAll.decidable opts st' ops
      decidable_of_iff (op.Fits opts st ∧ FitsAll opts st' ops) (by simp [FitsAll, h])

/-- A block gets another size in its place, or a new place. -/
theorem reallocate_yields (st : Massif) {st₀ : Massif} (hheap : opts.cloHeap = true) {hc : HPChunk} {rest : Multiset Block}
    {w newReqSzB : Nat} {malloced : Malloced} (h : Accounts opts st₀ (hc.block st₀.statics.xtree ::ₘ rest))
    (hstatics : st.statics = st₀.statics) (hroom : st.table.HasRoom) (hlists : Lists st.mallocList st₀.statics.xtree rest)
    (hwhere : hc.whereXPt = some w) (hw : w < st₀.statics.xtree.length) (ips : List Nat) (peak now : Moment)
    (hvalid : (Op.renewBlock hc.data newReqSzB malloced ips peak now).Valid)
    (hlo : -2 ^ 31 < (renewDeltas hc newReqSzB malloced).2) (hhi : (renewDeltas hc newReqSzB malloced).2 < 2 ^ 31)
    (hreqLt : st₀.statics.heapSzB + (renewDeltas hc newReqSzB malloced).1 < 2 ^ 64)
    (hextraLt : st₀.statics.heapExtraSzB + (renewDeltas hc newReqSzB malloced).2 < 2 ^ 64) :
    Yields (reallocate opts st hc hc.data newReqSzB malloced ips now) fun r => ∃ owned',
      OwnsStep (hc.block st₀.statics.xtree ::ₘ rest) (.renewBlock hc.data newReqSzB malloced ips peak now) owned' ∧
      Accounts opts r.1 owned' := by
  obtain ⟨hreq, pNew, actualSzB, rfl, hle, hlt⟩ := hvalid
  obtain ⟨-, hsize⟩ := h.sizes _ (Multiset.mem_cons_self _ _)
  have hsize' : hc.reqSzB + hc.slopSzB < 2 ^ 64 := hsize
  have hr := h.heap
  have he := h.extra
  have hreqOf : reqOf (hc.block st₀.statics.xtree ::ₘ rest) = hc.reqSzB + reqOf rest := reqOf_cons
  have hextraOf : extraOf opts (hc.block st₀.statics.xtree ::ₘ rest) = opts.cloHeapAdmin + hc.slopSzB + extraOf opts rest :=
    extraOf_cons
  have hsum : sizeT (hc.reqSzB + hc.slopSzB) = hc.reqSzB + hc.slopSzB := sizeT_nat hsize'
  rw [reallocate, hsum]
  by_cases hfit : newReqSzB ≤ hc.reqSzB + hc.slopSzB
  · simp only [renewDeltas, if_pos hfit] at hlo hhi hreqLt hextraLt
    have hslop : sizeT (hc.slopSzB + (hc.reqSzB - newReqSzB)) = hc.reqSzB + hc.slopSzB - newReqSzB := by
      have hcast : (hc.slopSzB + (hc.reqSzB - newReqSzB) : Int) = ((hc.reqSzB + hc.slopSzB - newReqSzB : Nat) : Int) := by
        rw [Nat.cast_sub hfit, Nat.cast_add]
        ring
      rw [hcast]
      exact sizeT_nat ((Nat.sub_le _ _).trans_lt hsize')
    rw [if_pos hfit, hslop]
    refine (updateChunk_yields hheap h hstatics hroom hlists hwhere hw ips now hreq (by omega) (by omega) (by omega) ?_ ?_).mono
      fun r hacc => ⟨_, .renewed (b := hc.block st₀.statics.xtree) hfit, hacc⟩
    · rw [reqOf_cons]
      show newReqSzB + reqOf rest < 2 ^ 64
      omega
    · rw [extraOf_cons]
      show opts.cloHeapAdmin + (hc.reqSzB + hc.slopSzB - newReqSzB) + extraOf opts rest < 2 ^ 64
      omega
  · simp only [renewDeltas, if_neg hfit] at hlo hhi hreqLt hextraLt
    rw [if_neg hfit, tlAssert_of hle, ok_bind]
    refine (updateChunk_yields hheap h hstatics hroom hlists hwhere hw ips now hreq (by omega) (by omega) (by omega) ?_ ?_).mono
      fun r hacc => ⟨_, .moved (b := hc.block st₀.statics.xtree) (Nat.lt_of_not_le hfit), hacc⟩
    · rw [reqOf_cons]
      show newReqSzB + reqOf rest < 2 ^ 64
      omega
    · rw [extraOf_cons]
      show opts.cloHeapAdmin + (actualSzB - newReqSzB) + extraOf opts rest < 2 ^ 64
      omega

/-- **One call** keeps the accounts. -/
theorem step_yields (hheap : opts.cloHeap = true) (h : Accounts opts st owned) (hvalid : op.Valid) (hfits : op.Fits opts st) :
    Yields (step opts st op) fun st' => ∃ owned', OwnsStep owned op owned' ∧ Accounts opts st' owned' := by
  have hr := h.heap
  have he := h.extra
  obtain ⟨hlo, hhi, hreqLt, hextraLt⟩ := hfits
  cases op with
  | startup now =>
    refine (snapshotAt_yields opts st h.ready h.hasRoom .normal now).mono ?_
    rintro _ ⟨table, rfl, hroom⟩
    exact ⟨owned, .startup, { h with hasRoom := hroom }⟩
  | newBlock p reqSzB malloced ips now =>
    obtain ⟨hreq, hmalloc⟩ := hvalid
    rw [step, newBlock.eq_def]
    by_cases hp : p = 0
    · subst hp
      cases malloced with
      | none => exact ⟨owned, .outOfMemory, h⟩
      | some m =>
        obtain ⟨p, actualSzB⟩ := m
        obtain ⟨hle, hlt⟩ := hmalloc p actualSzB rfl
        simp only [Op.deltas, if_true] at hlo hhi hreqLt hextraLt
        simp only [if_true]
        rw [tlAssert_of hle, ok_bind]
        refine Yields.bind (Q := fun r => Accounts opts r.1 (⟨p, reqSzB, actualSzB - reqSzB, ips⟩ ::ₘ owned)) ?_
          fun r hacc => ⟨_, .malloced, hacc⟩
        refine (recordBlock_yields hheap h ips now hreq (by omega) (by omega) ?_ ?_).bind fun st' hacc => hacc
        · rw [reqOf_cons]
          show reqSzB + reqOf owned < 2 ^ 64
          omega
        · rw [extraOf_cons]
          show opts.cloHeapAdmin + (actualSzB - reqSzB) + extraOf opts owned < 2 ^ 64
          omega
    · simp only [Op.deltas, if_neg hp] at hlo hhi hreqLt hextraLt
      simp only [if_neg hp]
      refine Yields.bind (Q := fun r => Accounts opts r.1 (⟨p, reqSzB, 0, ips⟩ ::ₘ owned)) ?_
        fun r hacc => ⟨_, .placed hp, hacc⟩
      refine (recordBlock_yields hheap h ips now hreq (by omega) (by omega) ?_ ?_).bind fun st' hacc => hacc
      · rw [reqOf_cons]
        show reqSzB + reqOf owned < 2 ^ 64
        omega
      · rw [extraOf_cons]
        show opts.cloHeapAdmin + 0 + extraOf opts owned < 2 ^ 64
        omega
  | dieBlock p peak now =>
    rw [step]
    cases hremove : htRemove HPChunk.data st.mallocList p with
    | none =>
      rw [dieBlock, hremove]
      exact ⟨owned, .bogusFree (h.lists.remove_none hremove), h⟩
    | some r =>
      obtain ⟨hc, mallocList⟩ := r
      simp only [Op.deltas, hremove] at hlo hhi
      refine (dieBlock_yields hheap h peak now hremove (by omega)).mono ?_
      rintro st' ⟨rest, rfl, hacc⟩
      obtain ⟨-, -, -, -, hdata, -⟩ := h.lists.remove hremove
      refine ⟨rest, ?_, hacc⟩
      subst hdata
      exact .freed (b := hc.block st.statics.xtree)
  | renewBlock pOld newReqSzB malloced ips peak now =>
    rw [step, renewBlock.eq_def]
    cases hremove : htRemove HPChunk.data st.mallocList pOld with
    | none => exact ⟨owned, .bogusRealloc (h.lists.remove_none hremove), h⟩
    | some r =>
      obtain ⟨hc, mallocList⟩ := r
      obtain ⟨rest, w, rfl, hlists, rfl, hwhere, hw⟩ := h.lists.remove hremove
      have hpeak : Yields (if opts.cloHeap ∧ newReqSzB < hc.reqSzB then snapshotAt opts { st with mallocList } .peak peak
          else .ok { st with mallocList }) fun st' => ∃ table, st' = { st with mallocList, table } ∧ table.HasRoom := by
        split
        · refine (snapshotAt_yields opts { st with mallocList } h.ready h.hasRoom .peak peak).mono ?_
          rintro _ ⟨table, rfl, hroom⟩
          exact ⟨table, rfl, hroom⟩
        · exact ⟨st.table, rfl, h.hasRoom⟩
      refine Yields.bind (Q := fun r : Massif × Nat => ∃ owned', OwnsStep (hc.block st.statics.xtree ::ₘ rest)
        (.renewBlock hc.data newReqSzB malloced ips peak now) owned' ∧ Accounts opts r.1 owned') (hpeak.bind ?_)
        fun r hr => hr
      rintro _ ⟨table, rfl, hroom⟩
      simp only [Op.deltas, hremove] at hlo hhi hreqLt hextraLt
      exact reallocate_yields { st with mallocList, table } hheap h rfl hroom hlists hwhere hw ips peak now hvalid hlo hhi
        hreqLt hextraLt

/-- A run keeps the accounts. -/
theorem foldlM_step_yields (hheap : opts.cloHeap = true) (h : Accounts opts st owned) (hvalid : ∀ op ∈ ops, op.Valid)
    (hfits : FitsAll opts st ops) :
    Yields (ops.foldlM (step opts) st) fun st' => ∃ owned', Owns owned ops owned' ∧ Accounts opts st' owned' := by
  induction ops generalizing st owned with
  | nil => exact ⟨owned, .nil, h⟩
  | cons op ops ih =>
    rw [List.foldlM_cons]
    have hstep := step_yields hheap h (hvalid op List.mem_cons_self) hfits.1
    cases hrun : step opts st op with
    | error site =>
      rw [hrun] at hstep
      exact hstep
    | ok st₁ =>
      rw [hrun] at hstep
      obtain ⟨owned₁, hone, h₁⟩ := hstep
      rw [ok_bind]
      refine (ih h₁ (fun op' hop' => hvalid op' (List.mem_cons_of_mem _ hop')) (hfits.2 st₁ hrun)).mono ?_
      rintro st₂ ⟨owned₂, hrest, h₂⟩
      exact ⟨owned₂, .cons hone hrest, h₂⟩

/-- **The accounting matches the live heap.** In a run all of whose calls change the extra
bytes by what fits into an `Int`, no assertion in `update_heap_stats`, `update_XCon` or
`take_snapshot` fails, and after every call the sums and the sizes in the XTree are those of
the blocks that the client owns. -/
theorem heap_accounts (opts : Options) (hheap : opts.cloHeap = true) {cloMaxSnapshots : Nat} (hmax : 0 < cloMaxSnapshots)
    {ops : List Op} (hvalid : ∀ op ∈ ops, op.Valid) (hfits : FitsAll opts (initMassif cloMaxSnapshots) ops) :
    Yields (ops.foldlM (step opts) (initMassif cloMaxSnapshots)) fun st => ∃ owned, Owns 0 ops owned ∧ Accounts opts st owned :=
  foldlM_step_yields hheap (accounts_initMassif hmax) hvalid hfits

/-- The options by default. -/
def defaultOptions : Options where
  toConfig := defaultConfig
  cloTimeUnit := .timeI

/-- A small block that is allocated by the client itself, and freed. -/
theorem heap_accounts_placed :
    Yields ([.newBlock 4096 100 none [1, 2] ⟨0, 0⟩, .dieBlock 4096 ⟨1, 0⟩ ⟨1, 0⟩].foldlM (step defaultOptions)
      (initMassif 100)) fun st => ∃ owned,
        Owns 0 [.newBlock 4096 100 none [1, 2] ⟨0, 0⟩, .dieBlock 4096 ⟨1, 0⟩ ⟨1, 0⟩] owned ∧ Accounts defaultOptions st owned := by
  refine heap_accounts defaultOptions rfl (by decide) ?_ (by decide)
  exact List.forall_mem_cons.mpr ⟨⟨by decide, fun _ _ h => nomatch h⟩, List.forall_mem_singleton.mpr trivial⟩

/-- A block of four gigabytes that is made smaller in place: all but one of its bytes become
slop, and the `Int` that `update_heap_stats` is passed is -1. -/
def shrinkFourGigabytes : List Op :=
  [.newBlock 0 (2 ^ 32) (some (4096, 2 ^ 32)) [1] ⟨0, 0⟩, .renewBlock 4096 1 (some (8192, 1)) [1] ⟨1, 0⟩ ⟨1, 0⟩]

theorem exists_of_map {α β : Type} {r : Checked α} {f : α → β} {b : β} (h : r.map f = .ok b) : ∃ a, r = .ok a ∧ f a = b := by
  cases r with
  | error site => exact nomatch h
  | ok a => exact ⟨a, rfl, Except.ok.inj h⟩

/-- The block has been made smaller in its place. -/
theorem extraOf_of_renewed {ips : List Nat} {malloced : Malloced} {peak now : Moment}
    (h : OwnsStep (⟨4096, 2 ^ 32, 2 ^ 32 - 2 ^ 32, ips⟩ ::ₘ 0) (.renewBlock 4096 1 malloced ips peak now) owned) :
    extraOf defaultOptions owned = 8 + (2 ^ 32 - 1) := by
  generalize hold : (⟨4096, 2 ^ 32, 2 ^ 32 - 2 ^ 32, ips⟩ ::ₘ 0 : Multiset Block) = old at h
  generalize hop : Op.renewBlock 4096 1 malloced ips peak now = op at h
  cases h with
  | startup => exact nomatch hop
  | placed => exact nomatch hop
  | malloced => exact nomatch hop
  | outOfMemory => exact nomatch hop
  | freed => exact nomatch hop
  | bogusFree => exact nomatch hop
  | renewed hle =>
    obtain ⟨rfl, rfl⟩ := (Multiset.singleton_eq_cons_iff _).mp hold
    cases hop
    rw [extraOf_cons]
    simp [extraOf, defaultOptions, defaultConfig]
  | moved hlt =>
    obtain ⟨rfl, rfl⟩ := (Multiset.singleton_eq_cons_iff _).mp hold
    cases hop
    exact absurd hlt (Nat.not_lt.mpr (Nat.le_add_right_of_le (show 1 ≤ 2 ^ 32 by decide)))
  | bogusRealloc hno =>
    cases hop
    exact absurd rfl (hno _ (hold ▸ Multiset.mem_cons_self _ _))

/-- The extra bytes are seven, where the block has four gigabytes of slop. -/
theorem heap_accounts_shrinkFourGigabytes : ¬ ∀ ops : List Op, (∀ op ∈ ops, op.Valid) →
    Yields (ops.foldlM (step defaultOptions) (initMassif 100)) fun st =>
      ∃ owned, Owns 0 ops owned ∧ Accounts defaultOptions st owned := by
  intro hall
  have hvalid : ∀ op ∈ shrinkFourGigabytes, op.Valid := by
    refine List.forall_mem_cons.mpr ⟨⟨by decide, ?_⟩, List.forall_mem_singleton.mpr ⟨by decide, 8192, 1, rfl, by decide, by decide⟩⟩
    rintro _ _ ⟨⟩
    exact ⟨by decide, by decide⟩
  obtain ⟨st, hrun, hextra⟩ : ∃ st, shrinkFourGigabytes.foldlM (step defaultOptions) (initMassif 100) = .ok st ∧
      st.statics.heapExtraSzB = 7 := exists_of_map (f := fun st : Massif => st.statics.heapExtraSzB) (by decide)
  have hyields := hall shrinkFourGigabytes hvalid
  rw [hrun] at hyields
  obtain ⟨owned, howns, hacc⟩ := hyields
  have hslop : extraOf defaultOptions owned = 8 + (2 ^ 32 - 1) := by
    cases howns with
    | cons h₁ hrest =>
    cases hrest with
    | cons h₂ hnil =>
    cases hnil
    generalize hnone : (0 : Multiset Block) = none at h₁
    cases h₁ with
    | placed hp => exact absurd rfl hp
    | malloced => exact extraOf_of_renewed (hnone ▸ h₂)
  have := hacc.extra
  omega

end Runs

end Valgrind.Massif
