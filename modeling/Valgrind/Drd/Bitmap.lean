import Valgrind.Basics.Machine
import Valgrind.Basics.Result

/-!
# Bitmaps (`drd_bitmap.c`, `drd_bitmap.h`)

A bitmap records which addresses have been read and which have been written. It has two
levels: the ordered set of a bitmap has a node for each block of `addr0Count` addresses in
which there was an access, and the node points to the two bits of each address of the block.
These second-level maps are shared between bitmaps: they are reference counted, and copied
before a bitmap modifies a map that another one uses too. In front of the ordered set stands a
cache of four entries, which also records that a block is not there.

The nodes of an ordered set are kept as a list in the order of their keys. `malloc` never
returns the address of a block that is in use; the model does not use an address twice.
-/

namespace Valgrind.Drd

section

variable [Machine]

open Machine

/-! ## Words of bits -/

/-- `ADDR0_BITS`. -/
def addr0Bits : Nat := 14

/-- `ADDR0_COUNT`. -/
def addr0Count : Nat := 2 ^ addr0Bits

/-- `BITS_PER_UWORD`. -/
def bitsPerUWord : Nat := 8 * wordB

/-- `BITS_PER_BITS_PER_UWORD`. -/
def bitsPerBitsPerUWord : Nat := if wordB = 4 then 5 else 6

/-- `UWord`, as a word of bits. -/
abbrev UWord := BitVec bitsPerUWord

/-- `UWORD_MSB`. -/
def uwordMsb (a : Nat) : Nat := roundDn a bitsPerUWord

/-- `UWORD_LSB`. -/
def uwordLsb (a : Nat) : Nat := a % bitsPerUWord

/-- The words of `bm0_r` or of `bm0_w`, of which there are `bitmap1UWordCount`. -/
abbrev Bm0 := Nat → UWord

/-- `BITMAP1_UWORD_COUNT`. -/
def bitmap1UWordCount : Nat := addr0Count >>> bitsPerBitsPerUWord

/-- The word in which the bit of the address is. -/
def uwordIx (a : Nat) : Nat := a >>> bitsPerBitsPerUWord

/-- `bm0_mask`. -/
def bm0Mask (a : Nat) : UWord := (1 : UWord) <<< uwordLsb a

/-- `bm0_set`. -/
def bm0Set (bm0 : Bm0) (a : Nat) : Bm0 :=
  Function.update bm0 (uwordIx a) (bm0 (uwordIx a) ||| (1 : UWord) <<< uwordLsb a)

/-- `bm0_set_range`. -/
def bm0SetRange (bm0 : Bm0) (a1 size : Nat) : Bm0 :=
  Function.update bm0 (uwordIx a1) (bm0 (uwordIx a1) ||| (((1 : UWord) <<< size) - 1) <<< uwordLsb a1)

/-- `bm0_clear`. -/
def bm0Clear (bm0 : Bm0) (a : Nat) : Bm0 :=
  Function.update bm0 (uwordIx a) (bm0 (uwordIx a) &&& ~~~((1 : UWord) <<< uwordLsb a))

/-- `bm0_clear_range`. The complement is taken before the shift. -/
def bm0ClearRange (bm0 : Bm0) (a1 size : Nat) : Bm0 :=
  Function.update bm0 (uwordIx a1) (bm0 (uwordIx a1) &&& (~~~(((1 : UWord) <<< size) - 1)) <<< uwordLsb a1)

/-- `bm0_is_set`. -/
def bm0IsSet (bm0 : Bm0) (a : Nat) : UWord := bm0 (uwordIx a) &&& (1 : UWord) <<< uwordLsb a

/-- `bm0_is_any_set`. -/
def bm0IsAnySet (bm0 : Bm0) (a1 size : Nat) : UWord :=
  bm0 (uwordIx a1) &&& (((1 : UWord) <<< size) - 1) <<< uwordLsb a1

/-- `VG_(memset)(&bm0[idx], 0, bytes)`, for a whole number of words. -/
def bm0Memset (bm0 : Bm0) (idx bytes : Nat) : Bm0 :=
  fun k => if idx ≤ k ∧ k < idx + bytes / wordB then 0 else bm0 k

/-! ## The data -/

/-- `BmAccessTypeT`. -/
inductive BmAccessType where
  | eLoad | eStore | eStart | eEnd
  deriving DecidableEq, Repr

/-- The two rows of bits of a block. -/
inductive Row where
  | r | w
  deriving DecidableEq, Repr

/-- `struct bitmap1`: `bm0_r` and `bm0_w`. -/
structure Bitmap1 where
  bm0 : Row → Bm0

/-- The row that the code uses for an access type. -/
def BmAccessType.row : BmAccessType → Row
  | .eLoad => .r
  | _ => .w

/-- Change one row of bits. -/
def Bitmap1.modify (p1 : Bitmap1) (x : Row) (f : Bm0 → Bm0) : Bitmap1 :=
  ⟨Function.update p1.bm0 x (f (p1.bm0 x))⟩

/-- `struct bitmap2`. -/
structure Bitmap2 where
  addr : Nat
  refcnt : Nat
  bm1 : Bitmap1

/-- `struct bitmap2ref`, a node of an ordered set. `bm2` is the address of a `struct bitmap2`. -/
structure Bitmap2ref where
  addr : Nat
  bm2 : Nat
  deriving DecidableEq, Repr

/-- `struct bm_cache_elem`. -/
structure BmCacheElem where
  a1 : Nat
  bm2 : Option Nat
  deriving DecidableEq, Repr

/-- `N_CACHE_ELEM`. -/
def nCacheElem : Nat := 4

/-- `struct bitmap`. -/
structure Bitmap where
  cache : List BmCacheElem
  oset : List Bitmap2ref
  deriving DecidableEq, Repr

/-- All bitmaps and second-level maps, by their addresses. -/
structure BmHeap where
  bm2s : Nat → Option Bitmap2
  bms : Nat → Option Bitmap
  nextBm2 : Nat
  nextBm : Nat

/-- Nothing has been allocated. -/
def BmHeap.empty : BmHeap := ⟨fun _ => none, fun _ => none, 0, 0⟩

namespace BmHeap

/-- Read the bitmap at an address. -/
def bm (h : BmHeap) (b : Nat) : Result Bitmap :=
  match h.bms b with
  | some m => .ok m
  | none => .error .fault

/-- Read the second-level map at an address. -/
def bm2 (h : BmHeap) (p : Nat) : Result Bitmap2 :=
  match h.bm2s p with
  | some m => .ok m
  | none => .error .fault

/-- Write to a bitmap. -/
def setBm (h : BmHeap) (b : Nat) (m : Bitmap) : BmHeap := { h with bms := Function.update h.bms b (some m) }

/-- Write to a second-level map. -/
def setBm2 (h : BmHeap) (p : Nat) (m : Bitmap2) : BmHeap := { h with bm2s := Function.update h.bm2s p (some m) }

end BmHeap

/-! ## The ordered set and the cache -/

/-- `VG_(OSetGen_Lookup)(bm->oset, &a1)`. -/
def osetLookup (oset : List Bitmap2ref) (a1 : Nat) : Option Bitmap2ref := oset.find? fun n => n.addr = a1

/-- `VG_(OSetGen_Insert)`: the key must not be there. -/
def osetInsert (oset : List Bitmap2ref) (n : Bitmap2ref) : Result (List Bitmap2ref) := do
  assertThat ((osetLookup oset n.addr).isNone)
  pure (oset.orderedInsert (fun m m' => m.addr ≤ m'.addr) n)

/-- Write to the field `bm2` of the node with the key. -/
def osetSetBm2 (oset : List Bitmap2ref) (a1 p : Nat) : List Bitmap2ref :=
  oset.map fun n => if n.addr = a1 then { n with bm2 := p } else n

/-- `bm_cache_lookup`: what the first matching entry says. -/
def bmCacheLookup (cache : List BmCacheElem) (a1 : Nat) : Option (Option Nat) :=
  (cache.find? fun e => e.a1 = a1).map fun e => e.bm2

/-- `bm_update_cache`. -/
def bmUpdateCache (cache : List BmCacheElem) (a1 : Nat) (bm2 : Option Nat) : List BmCacheElem :=
  ⟨a1, bm2⟩ :: cache.take (nCacheElem - 1)

/-- `bm2_new`; the caller gives `bm1` its contents. -/
def bm2New (h : BmHeap) (a1 : Nat) (bm1 : Bitmap1) : Nat × BmHeap :=
  (h.nextBm2, { h.setBm2 h.nextBm2 ⟨a1, 1, bm1⟩ with nextBm2 := h.nextBm2 + 1 })

/-- `bm2_make_exclusive`. -/
def bm2MakeExclusive (h : BmHeap) (b : Nat) (bm2ref : Option Bitmap2ref) : Result (Nat × BmHeap) :=
  match bm2ref with
  | none => throw .assertFailed
  | some bm2ref => do
    let bm2 ← h.bm2 bm2ref.bm2
    assertThat (bm2.refcnt > 1)
    let h := h.setBm2 bm2ref.bm2 { bm2 with refcnt := bm2.refcnt - 1 }
    assertThat (bm2.refcnt - 1 ≥ 1)
    let (bm2Copy, h) := bm2New h bm2.addr bm2.bm1
    let bm ← h.bm b
    pure (bm2Copy, h.setBm b
      ⟨bmUpdateCache bm.cache bm2.addr (some bm2Copy), osetSetBm2 bm.oset bm2ref.addr bm2Copy⟩)

/-- `bm2_lookup`. -/
def bm2Lookup (h : BmHeap) (b a1 : Nat) : Result (Option Nat × BmHeap) := do
  let bm ← h.bm b
  match bmCacheLookup bm.cache a1 with
  | some bm2 => pure (bm2, h)
  | none =>
    let bm2 := (osetLookup bm.oset a1).map fun n => n.bm2
    pure (bm2, h.setBm b { bm with cache := bmUpdateCache bm.cache a1 bm2 })

/-- The end of `bm2_lookup_exclusive` and of `bm2_lookup_or_insert_exclusive`. -/
def unshare (h : BmHeap) (b bm2 : Nat) (bm2ref : Option Bitmap2ref) : Result (Nat × BmHeap) := do
  let m ← h.bm2 bm2
  if m.refcnt > 1 then bm2MakeExclusive h b bm2ref else pure (bm2, h)

/-- `bm2_lookup_exclusive`. -/
def bm2LookupExclusive (h : BmHeap) (b a1 : Nat) : Result (Option Nat × BmHeap) := do
  let bm ← h.bm b
  match bmCacheLookup bm.cache a1 with
  | some none => pure (none, h)
  | some (some bm2) => do
    let (bm2, h) ← unshare h b bm2 (osetLookup bm.oset a1)
    pure (some bm2, h)
  | none =>
    match osetLookup bm.oset a1 with
    | none => pure (none, h)
    | some bm2ref => do
      let (bm2, h) ← unshare h b bm2ref.bm2 (some bm2ref)
      pure (some bm2, h)

/-- A block without an access. -/
def Bitmap1.zero : Bitmap1 := ⟨fun _ _ => 0⟩

/-- `bm2_insert`. -/
def bm2Insert (h : BmHeap) (b a1 : Nat) : Result (Nat × BmHeap) := do
  let (bm2, h) := bm2New h a1 Bitmap1.zero
  let bm ← h.bm b
  let oset ← osetInsert bm.oset ⟨a1, bm2⟩
  pure (bm2, h.setBm b ⟨bmUpdateCache bm.cache a1 (some bm2), oset⟩)

/-- `bm2_insert_addref`. -/
def bm2InsertAddref (h : BmHeap) (b bm2 : Nat) : Result BmHeap := do
  let m ← h.bm2 bm2
  let h := h.setBm2 bm2 { m with refcnt := m.refcnt + 1 }
  let bm ← h.bm b
  let oset ← osetInsert bm.oset ⟨m.addr, bm2⟩
  pure (h.setBm b ⟨bmUpdateCache bm.cache m.addr (some bm2), oset⟩)

/-- `bm2_lookup_or_insert`. -/
def bm2LookupOrInsert (h : BmHeap) (b a1 : Nat) : Result (Nat × BmHeap) := do
  let bm ← h.bm b
  match bmCacheLookup bm.cache a1 with
  | some (some bm2) => pure (bm2, h)
  | some none => bm2Insert h b a1
  | none => do
    let (bm2, h) ← match osetLookup bm.oset a1 with
      | some bm2ref => pure (bm2ref.bm2, h)
      | none => bm2Insert h b a1
    let bm ← h.bm b
    pure (bm2, h.setBm b { bm with cache := bmUpdateCache bm.cache a1 (some bm2) })

/-- `bm2_lookup_or_insert_exclusive`. -/
def bm2LookupOrInsertExclusive (h : BmHeap) (b a1 : Nat) : Result (Nat × BmHeap) := do
  let (bm2, h) ← bm2LookupOrInsert h b a1
  let bm ← h.bm b
  unshare h b bm2 (osetLookup bm.oset a1)

/-- Change the bits of a second-level map. -/
def BmHeap.modifyBm1 (h : BmHeap) (p : Nat) (f : Bitmap1 → Bitmap1) : Result BmHeap := do
  let m ← h.bm2 p
  pure (h.setBm2 p { m with bm1 := f m.bm1 })

/-! ## Loops over the blocks of a range -/

/-- `a & ~ADDR0_MASK`. -/
def addr0Msb (a : Nat) : Nat := roundDn a addr0Count

/-- `b_next`: the end of the block, but not beyond the end of the range. -/
def bNext (a2 b : Nat) : Nat := if addW (addr0Msb b) addr0Count > a2 then a2 else addW (addr0Msb b) addr0Count

/-- The loop `for (b = a1; b < a2; b = b_next)`, whose body gets `b` and `b_next` and can leave the
function with a value. It goes on for ever if it has not come to an end after `fuel` turns
(`b` increases, unless it wraps around, and then it does so again and again). -/
def forBlocks {α : Type} (a2 : Nat) (body : BmHeap → Nat → Nat → Result (Option α × BmHeap)) :
    Nat → BmHeap → Nat → Result (Option α × BmHeap)
  | 0, _, _ => throw .diverge
  | fuel + 1, h, b =>
    if b < a2 then do
      let (res, h) ← body h b (bNext a2 b)
      match res with
      | some x => pure (some x, h)
      | none => forBlocks a2 body fuel h (bNext a2 b)
    else pure (none, h)

/-- `bm2->addr << ADDR0_BITS`. -/
def blockStart (addr : Nat) : Nat := addr * addr0Count % wordMod

/-- The part `b_start .. b_end` of the range that is in the block; nothing if the block starts
behind the range. -/
def clipToBlock (addr a1 a2 : Nat) : Result (Option (Nat × Nat)) := do
  let bStart? := if blockStart addr < a1 then some a1 else if blockStart addr < a2 then some (blockStart addr) else none
  match bStart? with
  | none => pure none
  | some bStart => do
    assertThat (a1 ≤ bStart ∧ bStart ≤ a2)
    let bEnd := if addW (blockStart addr) addr0Count < a2 then addW (blockStart addr) addr0Count else a2
    assertThat (a1 ≤ bEnd ∧ bEnd ≤ a2)
    assertThat (bStart < bEnd)
    assertThat (bStart % addr0Count ≤ (bEnd - 1) % addr0Count)
    pure (some (bStart, bEnd))

/-- The values of `b0` in the inner loops. -/
def addr0Range (bStart bEnd : Nat) : List Nat :=
  List.range' (bStart % addr0Count) ((bEnd - 1) % addr0Count + 1 - bStart % addr0Count)

/-! ## Recording accesses -/

/-- The loop body of `bm_access_range`. -/
def accessBlock (b a1 a2 : Nat) (x : Row) (h : BmHeap) (c : Nat) : Result (Option Unit × BmHeap) := do
  let (bm2, h) ← bm2LookupOrInsertExclusive h b (c / addr0Count)
  let m ← h.bm2 bm2
  match ← clipToBlock m.addr a1 a2 with
  | none => pure (some (), h)
  | some (bStart, bEnd) => do
    let h ← h.modifyBm1 bm2 fun p1 => p1.modify x fun bm0 => (addr0Range bStart bEnd).foldl bm0Set bm0
    pure (none, h)

/-- `bm_access_range`. -/
def bmAccessRange (h : BmHeap) (b a1 a2 : Nat) (accessType : BmAccessType) : Result BmHeap := do
  assertThat (a1 < a2)
  assertThat (addW a2 addr0Count > a2)
  let (_, h) ← forBlocks a2 (fun h c _ => accessBlock b a1 a2 accessType.row h c) (a2 - a1 + 1) h a1
  pure h

/-- `bm_access_aligned_load` and `bm_access_aligned_store`. -/
def bmAccessAligned (h : BmHeap) (b a1 size : Nat) (x : Row) : Result BmHeap := do
  let (bm2, h) ← bm2LookupOrInsertExclusive h b (a1 / addr0Count)
  h.modifyBm1 bm2 fun p1 => p1.modify x fun bm0 => bm0SetRange bm0 (a1 % addr0Count) size

/-- `bm_access_load_1` and `bm_access_store_1`. -/
def bmAccess1 (h : BmHeap) (b a1 : Nat) (t : BmAccessType) : Result BmHeap := bmAccessAligned h b a1 1 t.row

/-- `bm_access_load_2` and `bm_access_store_2`. -/
def bmAccess2 (h : BmHeap) (b a1 : Nat) (t : BmAccessType) : Result BmHeap :=
  if a1 % 2 = 0 then bmAccessAligned h b a1 2 t.row else bmAccessRange h b a1 (addW a1 2) t

/-- `bm_access_load_4` and `bm_access_store_4`. -/
def bmAccess4 (h : BmHeap) (b a1 : Nat) (t : BmAccessType) : Result BmHeap :=
  if a1 % 4 = 0 then bmAccessAligned h b a1 4 t.row else bmAccessRange h b a1 (addW a1 4) t

/-- `bm_access_load_8` and `bm_access_store_8`. -/
def bmAccess8 (h : BmHeap) (b a1 : Nat) (t : BmAccessType) : Result BmHeap :=
  if a1 % 8 = 0 then bmAccessAligned h b a1 8 t.row
  else if a1 % 4 = 0 then do
    let h ← bmAccessAligned h b a1 4 t.row
    bmAccessAligned h b (addW a1 4) 4 t.row
  else bmAccessRange h b a1 (addW a1 8) t

/-! ## Queries -/

/-- `bm_has_1`. -/
def bmHas1 (h : BmHeap) (b a : Nat) (t : BmAccessType) : Result (Bool × BmHeap) := do
  let (p2, h) ← bm2Lookup h b (a / addr0Count)
  match p2 with
  | none => pure (false, h)
  | some p2 => do
    let m ← h.bm2 p2
    pure (bm0IsSet (m.bm1.bm0 t.row) (a % addr0Count) != 0, h)

/-- The loop of `bm_has`, over `n` addresses. -/
def bmHasLoop (b : Nat) (t : BmAccessType) : Nat → BmHeap → Nat → Result (Bool × BmHeap)
  | 0, h, _ => pure (true, h)
  | n + 1, h, a => do
    let (has, h) ← bmHas1 h b a t
    if has = true then bmHasLoop b t n h (a + 1) else pure (false, h)

/-- `bm_has`. -/
def bmHas (h : BmHeap) (b a1 a2 : Nat) (t : BmAccessType) : Result (Bool × BmHeap) :=
  bmHasLoop b t (a2 - a1) h a1

/-- The loop bodies of `bm_has_any_load`, `bm_has_any_store`, `bm_has_any_access` and
`bm_has_conflict_with`, which differ in the test. -/
def hasAnyInBlock (test : Bitmap1 → Nat → Result Bool) (b a1 a2 : Nat) (h : BmHeap) (c : Nat) :
    Result (Option Bool × BmHeap) := do
  let (bm2, h) ← bm2Lookup h b (c / addr0Count)
  match bm2 with
  | none => pure (none, h)
  | some bm2 => do
    let m ← h.bm2 bm2
    match ← clipToBlock m.addr a1 a2 with
    | none => pure (some false, h)
    | some (bStart, bEnd) => do
      let any ← (addr0Range bStart bEnd).anyM (test m.bm1)
      pure (if any = true then some true else none, h)

/-- The functions with these loops. -/
def bmHasAny (test : Bitmap1 → Nat → Result Bool) (h : BmHeap) (b a1 a2 : Nat) : Result (Bool × BmHeap) := do
  let (res, h) ← forBlocks a2 (fun h c _ => hasAnyInBlock test b a1 a2 h c) (a2 - a1 + 1) h a1
  pure (res.getD false, h)

/-- `bm_has_any_load`. -/
def bmHasAnyLoad := bmHasAny fun p1 b0 => pure (bm0IsSet (p1.bm0 .r) b0 != 0)

/-- `bm_has_any_store`. -/
def bmHasAnyStore := bmHasAny fun p1 b0 => pure (bm0IsSet (p1.bm0 .w) b0 != 0)

/-- `bm_has_any_access`. -/
def bmHasAnyAccess := bmHasAny fun p1 b0 => pure (bm0IsSet (p1.bm0 .r) b0 ||| bm0IsSet (p1.bm0 .w) b0 != 0)

/-- `bm_has_conflict_with`. -/
def bmHasConflictWith (h : BmHeap) (b a1 a2 : Nat) (t : BmAccessType) : Result (Bool × BmHeap) :=
  bmHasAny (fun p1 b0 =>
    if t = .eLoad then pure (bm0IsSet (p1.bm0 .w) b0 != 0)
    else do
      assertThat (t = .eStore)
      pure (bm0IsSet (p1.bm0 .r) b0 ||| bm0IsSet (p1.bm0 .w) b0 != 0)) h b a1 a2

/-- `bm_aligned_load_has_conflict_with` and `bm_aligned_store_has_conflict_with`, which differ in the test. -/
def bmAlignedHasConflictWith (test : Bitmap1 → Nat → Nat → UWord) (h : BmHeap) (b a1 size : Nat) :
    Result (Bool × BmHeap) := do
  let (bm2, h) ← bm2Lookup h b (a1 / addr0Count)
  match bm2 with
  | none => pure (false, h)
  | some bm2 => do
    let m ← h.bm2 bm2
    pure (test m.bm1 (a1 % addr0Count) size != 0, h)

/-- `bm_aligned_load_has_conflict_with`. -/
def bmAlignedLoadHasConflictWith := bmAlignedHasConflictWith fun p1 a0 size => bm0IsAnySet (p1.bm0 .w) a0 size

/-- `bm_aligned_store_has_conflict_with`. -/
def bmAlignedStoreHasConflictWith := bmAlignedHasConflictWith fun p1 a0 size =>
  bm0IsAnySet (p1.bm0 .r) a0 size ||| bm0IsAnySet (p1.bm0 .w) a0 size

/-- `bm_load_N_has_conflict_with`, for `N` = 1, 2, 4, 8. -/
def bmLoadNHasConflictWith (n : Nat) (h : BmHeap) (b a1 : Nat) : Result (Bool × BmHeap) :=
  if a1 % n = 0 then bmAlignedLoadHasConflictWith h b a1 n else bmHasConflictWith h b a1 (addW a1 n) .eLoad

/-- `bm_store_N_has_conflict_with`, for `N` = 1, 2, 4, 8. -/
def bmStoreNHasConflictWith (n : Nat) (h : BmHeap) (b a1 : Nat) : Result (Bool × BmHeap) :=
  if a1 % n = 0 then bmAlignedStoreHasConflictWith h b a1 n else bmHasConflictWith h b a1 (addW a1 n) .eStore

/-! ## Clearing -/

/-- In the loop body of `bm_clear`: "If the first address in the bitmap that must be cleared does not start
on an UWord boundary, start clearing the first addresses." -/
def clearHead (c bNext : Nat) (bm0 : Bm0) : Nat × Bm0 :=
  if uwordLsb c ≠ 0 then
    let cNext := if addW (uwordMsb c) bitsPerUWord > bNext then bNext else addW (uwordMsb c) bitsPerUWord
    (cNext, bm0ClearRange bm0 (c % addr0Count) (cNext - c))
  else (c, bm0)

/-- "If some UWords have to be cleared entirely, do this now." -/
def clearWords (c bNext : Nat) (bm0 : Bm0) : Result (Nat × Bm0) :=
  if uwordLsb c = 0 then do
    let cNext := uwordMsb bNext
    assertThat (uwordLsb cNext = 0)
    assertThat (cNext ≤ bNext)
    assertThat (c ≤ cNext)
    pure (if cNext > c then (cNext, bm0Memset bm0 (uwordIx (c % addr0Count)) ((cNext - c) / 8)) else (c, bm0))
  else pure (c, bm0)

/-- The loop body of `bm_clear` for one row of bits, from `b` to `b_next`; last, the addresses from the last
word boundary on are cleared. -/
def clearBlock (b bNext : Nat) (bm0 : Bm0) : Result Bm0 := do
  let (c, bm0) := clearHead b bNext bm0
  let (c, bm0) ← clearWords c bNext bm0
  pure (bm0ClearRange bm0 (c % addr0Count) (bNext - c))

/-- The loop body of `bm_clear`, for both rows of bits. -/
def clearInBlock (b : Nat) (h : BmHeap) (c bNext : Nat) : Result (Option Unit × BmHeap) := do
  let (p2, h) ← bm2LookupExclusive h b (c / addr0Count)
  match p2 with
  | none => pure (none, h)
  | some p2 => do
    let m ← h.bm2 p2
    let r ← clearBlock c bNext (m.bm1.bm0 .r)
    let w ← clearBlock c bNext (m.bm1.bm0 .w)
    let h ← h.modifyBm1 p2 fun p1 => (p1.modify .r fun _ => r).modify .w fun _ => w
    pure (none, h)

/-- `bm_clear`. -/
def bmClear (h : BmHeap) (b a1 a2 : Nat) : Result BmHeap := do
  assertThat (a1 ≠ 0)
  assertThat (a1 ≤ a2)
  let (_, h) ← forBlocks a2 (clearInBlock b) (a2 - a1 + 1) h a1
  pure h

/-- The loop bodies of `bm_clear_load` and `bm_clear_store`. -/
def clearAddr (b : Nat) (x : Row) (h : BmHeap) (a : Nat) : Result BmHeap := do
  let (p2, h) ← bm2LookupExclusive h b (a / addr0Count)
  match p2 with
  | none => pure h
  | some p2 => h.modifyBm1 p2 fun p1 => p1.modify x fun bm0 => bm0Clear bm0 (a % addr0Count)

/-- The loops of `bm_clear_load` and `bm_clear_store`, over `n` addresses. -/
def bmClearRow (b : Nat) (x : Row) : Nat → BmHeap → Nat → Result BmHeap
  | 0, h, _ => pure h
  | n + 1, h, a => do
    let h ← clearAddr b x h a
    bmClearRow b x n h (a + 1)

/-- `bm_clear_load`. -/
def bmClearLoad (h : BmHeap) (b a1 a2 : Nat) : Result BmHeap := bmClearRow b .r (a2 - a1) h a1

/-- `bm_clear_store`. -/
def bmClearStore (h : BmHeap) (b a1 a2 : Nat) : Result BmHeap := bmClearRow b .w (a2 - a1) h a1

/-- `bm_test_and_clear`. -/
def bmTestAndClear (h : BmHeap) (b a1 a2 : Nat) : Result (Bool × BmHeap) := do
  let (result, h) ← bmHasAnyAccess h b a1 a2
  let h ← bmClear h b a1 a2
  pure (result, h)

/-! ## Whole bitmaps -/

/-- `bm_new`. -/
def bmNew (h : BmHeap) : Result (Nat × BmHeap) := do
  assertThat (1 <<< bitsPerBitsPerUWord = bitsPerUWord)
  let bm : Bitmap := ⟨List.replicate nCacheElem ⟨wordMod - 2, none⟩, []⟩
  pure (h.nextBm, { h.setBm h.nextBm bm with nextBm := h.nextBm + 1 })

/-- The loop of `bm_delete`. -/
def releaseAll : List Bitmap2ref → BmHeap → Result BmHeap
  | [], h => pure h
  | n :: oset, h => do
    let m ← h.bm2 n.bm2
    assertThat (m.refcnt ≥ 1)
    releaseAll oset (if m.refcnt - 1 = 0 then { h with bm2s := Function.update h.bm2s n.bm2 none }
      else h.setBm2 n.bm2 { m with refcnt := m.refcnt - 1 })

/-- `bm_delete`. -/
def bmDelete (h : BmHeap) (b : Nat) : Result BmHeap := do
  let bm ← h.bm b
  let h ← releaseAll bm.oset h
  pure { h with bms := Function.update h.bms b none }

/-- `bm2_merge`. -/
def bm2Merge (h : BmHeap) (bm2l bm2r : Nat) : Result BmHeap := do
  let l ← h.bm2 bm2l
  let r ← h.bm2 bm2r
  assertThat (l.addr = r.addr)
  assertThat (l.refcnt = 1)
  h.modifyBm1 bm2l fun p1 =>
    ⟨fun x k => if k < bitmap1UWordCount then p1.bm0 x k ||| r.bm1.bm0 x k else p1.bm0 x k⟩

/-- The loop body of `bm_merge2`. -/
def mergeNode (lhs : Nat) (h : BmHeap) (bm2rRef : Bitmap2ref) : Result BmHeap := do
  let r ← h.bm2 bm2rRef.bm2
  let bm ← h.bm lhs
  match osetLookup bm.oset r.addr with
  | some bm2lRef =>
    if bm2lRef.bm2 ≠ bm2rRef.bm2 then do
      let (bm2l, h) ← unshare h lhs bm2lRef.bm2 (some bm2lRef)
      bm2Merge h bm2l bm2rRef.bm2
    else pure h
  | none => bm2InsertAddref h lhs bm2rRef.bm2

/-- The loop of `bm_merge2`, over the nodes of `rhs`. -/
def bmMergeLoop (lhs : Nat) : List Bitmap2ref → BmHeap → Result BmHeap
  | [], h => pure h
  | bm2rRef :: oset, h => do
    let h ← mergeNode lhs h bm2rRef
    bmMergeLoop lhs oset h

/-- `bm_merge2`. -/
def bmMerge2 (h : BmHeap) (lhs rhs : Nat) : Result BmHeap := do
  let r ← h.bm rhs
  bmMergeLoop lhs r.oset h

/-- `bm_has_any_access` on the block of a second-level map. -/
def blockHasAccess (h : BmHeap) (b addr : Nat) : Result (Bool × BmHeap) :=
  bmHasAnyAccess h b (blockStart addr) (blockStart (addr + 1))

/-- `VG_(memcmp)(&bm2l->bm1, &bm2r->bm1, sizeof(bm2l->bm1)) == 0`. -/
def Bitmap1.same (p1 p1' : Bitmap1) : Prop :=
  ∀ k < bitmap1UWordCount, p1.bm0 .r k = p1'.bm0 .r k ∧ p1.bm0 .w k = p1'.bm0 .w k

instance (p1 p1' : Bitmap1) : Decidable (p1.same p1') := Nat.decidableBallLT _ _

/-- The loop of `bm_equal`, over the nodes of `lhs` and `rhs`; the inner loop skips nodes of `lhs`. -/
def bmEqualLoop (lhs rhs : Nat) : List Bitmap2ref → List Bitmap2ref → BmHeap → Result (Bool × BmHeap)
  | [], [], h => pure (true, h)
  | [], bm2rRef :: _, h => do
    let r ← h.bm2 bm2rRef.bm2
    let (any, h) ← blockHasAccess h rhs r.addr
    assertThat (any = true)
    pure (false, h)
  | bm2lRef :: lOset, rOset, h => do
    let l ← h.bm2 bm2lRef.bm2
    let (any, h) ← blockHasAccess h lhs l.addr
    if any = true then
      match rOset with
      | [] => pure (false, h)
      | bm2rRef :: rOset => do
        let r ← h.bm2 bm2rRef.bm2
        let (any, h) ← blockHasAccess h rhs r.addr
        assertThat (any = true)
        if bm2lRef.bm2 ≠ bm2rRef.bm2 ∧ (l.addr ≠ r.addr ∨ ¬ l.bm1.same r.bm1) then pure (false, h)
        else bmEqualLoop lhs rhs lOset rOset h
    else bmEqualLoop lhs rhs lOset rOset h

/-- `bm_equal`. -/
def bmEqual (h : BmHeap) (lhs rhs : Nat) : Result (Bool × BmHeap) := do
  assertThat (lhs ≠ rhs)
  let l ← h.bm lhs
  let r ← h.bm rhs
  bmEqualLoop lhs rhs l.oset r.oset h

/-- `bm_swap`. -/
def bmSwap (h : BmHeap) (bm1 bm2 : Nat) : Result BmHeap := do
  let m1 ← h.bm bm1
  let m2 ← h.bm bm2
  pure ((h.setBm bm1 { m1 with oset := m2.oset }).setBm bm2 { m2 with oset := m1.oset })

/-! ## Races -/

/-- `LHS_R`. -/
def lhsR : Nat := 1 <<< 0

/-- `LHS_W`. -/
def lhsW : Nat := 1 <<< 1

/-- `RHS_R`. -/
def rhsR : Nat := 1 <<< 2

/-- `RHS_W`. -/
def rhsW : Nat := 1 <<< 3

/-- `HAS_RACE`. -/
def hasRace (a : Nat) : Prop :=
  (a &&& rhsW ≠ 0 ∧ a &&& (lhsR ||| lhsW) ≠ 0) ∨ (a &&& lhsW ≠ 0 ∧ a &&& (rhsR ||| rhsW) ≠ 0)

instance (a : Nat) : Decidable (hasRace a) := by
  unfold hasRace
  infer_instance

/-- `MAKE_ADDRESS`. -/
def makeAddress (a1 a0 : Nat) : Nat := a1 * addr0Count % wordMod ||| a0

/-- `drd_is_suppressed`, for the bitmap `s_suppressed`. -/
def drdIsSuppressed (h : BmHeap) (sSuppressed a1 a2 : Nat) : Result (Bool × BmHeap) := bmHas h sSuppressed a1 a2 .eStore

/-- Where the iterators of the ordered sets are: the nodes that each has not returned yet. -/
abbrev Iterators := Nat → List Bitmap2ref

/-- `VG_(OSetGen_Next)(bm->oset)->bm2`. The node is not there if the iterator has come to the end. -/
def nextBm2 (h : BmHeap) (it : Iterators) (b : Nat) : Result (Bitmap2 × Iterators) :=
  match it b with
  | [] => throw .fault
  | bm2ref :: rest => do
    let bm2 ← h.bm2 bm2ref.bm2
    pure (bm2, Function.update it b rest)

/-- The loop of `bm_has_races` that goes on to two maps for the same block. Each turn takes a node from one of the
iterators. -/
def toCommonBlock (h : BmHeap) (lhs rhs : Nat) : Nat → Iterators → Bitmap2 → Bitmap2 →
    Result (Bitmap2 × Bitmap2 × Iterators)
  | 0, _, _, _ => throw .diverge
  | fuel + 1, it, l, r =>
    if l.addr ≠ r.addr then
      if l.addr < r.addr then do
        let (l, it) ← nextBm2 h it lhs
        toCommonBlock h lhs rhs fuel it l r
      else do
        let (r, it) ← nextBm2 h it rhs
        toCommonBlock h lhs rhs fuel it l r
    else pure (l, r, it)

/-- `access_mask`. -/
def accessMask (l r : Bitmap1) (k b : Nat) : Nat :=
  (if l.bm0 .r k &&& bm0Mask b ≠ 0 then lhsR else 0) ||| (if l.bm0 .w k &&& bm0Mask b ≠ 0 then lhsW else 0) |||
    (if r.bm0 .r k &&& bm0Mask b ≠ 0 then rhsR else 0) ||| (if r.bm0 .w k &&& bm0Mask b ≠ 0 then rhsW else 0)

/-- The body of the loops over the words and bits of a block. -/
def raceAt (sSuppressed : Nat) (l r : Bitmap2) (h : BmHeap) (k b : Nat) : Result (Bool × BmHeap) :=
  let a := makeAddress l.addr (k * bitsPerUWord ||| b)
  if hasRace (accessMask l.bm1 r.bm1 k b) then do
    let (suppressed, h) ← drdIsSuppressed h sSuppressed a (addW a 1)
    pure (!suppressed, h)
  else pure (false, h)

/-- The loops over the words and bits of a block, as one loop over the pairs of `k` and `b`. -/
def raceInBlock (sSuppressed : Nat) (l r : Bitmap2) : List (Nat × Nat) → BmHeap → Result (Bool × BmHeap)
  | [], h => pure (false, h)
  | (k, b) :: kbs, h => do
    let (race, h) ← raceAt sSuppressed l r h k b
    if race = true then pure (true, h) else raceInBlock sSuppressed l r kbs h

/-- The values of `k` and `b`. -/
def wordsAndBits : List (Nat × Nat) :=
  (List.range bitmap1UWordCount).flatMap fun k => (List.range bitsPerUWord).map fun b => (k, b)

/-- The outer loop of `bm_has_races`. The maps are never `NULL`, so that it is left only with a race. -/
def bmHasRacesLoop (sSuppressed lhs rhs : Nat) : Nat → Iterators → BmHeap → Result (Nat × BmHeap)
  | 0, _, _ => throw .diverge
  | fuel + 1, it, h => do
    let (l, it) ← nextBm2 h it lhs
    let (r, it) ← nextBm2 h it rhs
    let (l, r, it) ← toCommonBlock h lhs rhs ((it lhs).length + (it rhs).length + 1) it l r
    let (race, h) ← raceInBlock sSuppressed l r wordsAndBits h
    if race = true then pure (1, h) else bmHasRacesLoop sSuppressed lhs rhs fuel it h

/-- `bm_has_races`. -/
def bmHasRaces (h : BmHeap) (sSuppressed lhs rhs : Nat) : Result (Nat × BmHeap) := do
  let l ← h.bm lhs
  let r ← h.bm rhs
  let it := Function.update (Function.update (fun _ => []) lhs l.oset) rhs r.oset
  bmHasRacesLoop sSuppressed lhs rhs (l.oset.length + 1) it h

end

end Valgrind.Drd
