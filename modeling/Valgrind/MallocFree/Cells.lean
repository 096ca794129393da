import Valgrind.Lib.Intervals
import Valgrind.Lib.Ring
import Valgrind.MallocFree.Arena

/-!
# Blocks as cells

What a block is for: a *cell* is an address range with a status. Over cells, the
admin words of a block have names (`Field`), the words of different cells or of
different fields never overlap, and the low-level functions of the allocator
are reads and writes of fields.

A cell is `used`, `free`, or in `limbo`: off its free list but not handed out,
as blocks are between the steps of an operation. Nothing is known about the
memory of a cell in limbo, so cells in limbo can be cut and glued at will.

`Marked` is the correspondence between memory and cells: size words at both ends
of each block, and for each size class a ring of links through exactly the free
cells of that class.
-/

namespace Valgrind

namespace MallocFree

open ByteMem Machine Ring

/-- What a block is at a moment. -/
inductive Status where
  | used
  | free
  | limbo
  deriving DecidableEq, Repr

/-- An address range of a superblock and what it is at the moment. -/
structure Cell where
  addr : Nat
  size : Nat
  st : Status
  deriving DecidableEq, Repr

/-- The first address after a cell. -/
def Cell.stop (c : Cell) : Nat := c.addr + c.size

/-- The size word of a cell: bit 0 is the not-in-use attribute. -/
def Cell.tag (c : Cell) : Nat := if c.st = .free then c.size + 1 else c.size

/-- The same range with another status. -/
def Cell.become (c : Cell) (st : Status) : Cell := { c with st }

@[simp] theorem Cell.become_addr (c : Cell) (st : Status) : (c.become st).addr = c.addr := rfl
@[simp] theorem Cell.become_size (c : Cell) (st : Status) : (c.become st).size = c.size := rfl
@[simp] theorem Cell.become_st (c : Cell) (st : Status) : (c.become st).st = st := rfl
@[simp] theorem Cell.become_become (c : Cell) (st st' : Status) :
    (c.become st).become st' = c.become st' := rfl
@[simp] theorem Cell.become_stop (c : Cell) (st : Status) : (c.become st).stop = c.stop := rfl

/-- The admin words of a block. -/
inductive Field where
  | lo
  | prev
  | next
  | hi
  deriving DecidableEq, Repr

section

variable [Machine] (g : Config) (rz : Nat)

/-- Where a cell keeps an admin word. -/
def Cell.at (c : Cell) : Field → Nat
  | .lo => c.addr + hpOverheadSzB g
  | .prev => c.addr + (hpOverheadSzB g + wordB)
  | .next => c.addr + (c.size - wordB - wordB)
  | .hi => c.addr + (c.size - wordB)

/-- An admin word of a cell. -/
def word (m : Mem) (c : Cell) (f : Field) : Nat := loadW g m (c.at g f)

/-- Write an admin word of a cell. -/
def put (m : Mem) (c : Cell) (f : Field) (v : Nat) : Mem := storeW g m (c.at g f) v

/-- The overhead of a block in an arena with red zones of `rz` bytes. -/
def overhead : Nat := hpOverheadSzB g + wordB + rz + (rz + wordB)

/-- What `arena_init` sees to: red zones that can hold a link, and block admin
sections that are multiples of 8 and small. -/
structure RzOk : Prop where
  word_le : wordB ≤ rz
  lo_dvd : 8 ∣ hpOverheadSzB g + wordB + rz
  hi_dvd : 8 ∣ rz + wordB
  small : overhead g rz ≤ 300

/-- A range that can be a block: room for the admin words, a multiple of 8 long,
and inside the address space. -/
structure Cell.Fits (c : Cell) : Prop where
  pos : 0 < c.addr
  room : overhead g rz ≤ c.size
  dvd : 8 ∣ c.size
  lt : c.stop < wordMod

/-- Both size words of the block are as they should be. -/
structure Tagged (m : Mem) (c : Cell) : Prop where
  lo : word g m c .lo = c.tag
  hi : word g m c .hi = c.tag

/-- The payload size of a cell. -/
def Cell.psz (c : Cell) : Nat := c.size - overhead g rz

variable {g rz} {m m' : Mem} {c d : Cell} {cs : List Cell} {v : Nat}

/-! ## Sizes -/

omit [Machine] in
theorem hpOverheadSzB_cases : hpOverheadSzB g = 0 ∨ hpOverheadSzB g = 8 := by
  unfold hpOverheadSzB
  cases g.profileHeap with
  | false => exact .inl rfl
  | true => exact .inr rfl

theorem wordMod_eq_pow : wordMod = 256 ^ wordB := by
  unfold wordMod
  rw [pow_mul]
  norm_num

theorem loadW_lt (m : Mem) (a : Nat) : loadW g m a < wordMod := by
  rw [wordMod_eq_pow]
  exact load_lt m a

theorem word_lt (m : Mem) (c : Cell) (f : Field) : word g m c f < wordMod := loadW_lt m _

theorem eight_dvd_wordMod : 8 ∣ wordMod := by
  rcases wordMod_cases with h | h <;> rw [h] <;> decide

theorem overheadSzB_eq (a : Arena) : overheadSzB g a = overhead g a.rzSzB := rfl

theorem RzOk.dvd (hz : RzOk g rz) : 8 ∣ overhead g rz := Nat.dvd_add hz.lo_dvd hz.hi_dvd

/-- The words of a block leave room for one another. -/
theorem Cell.Fits.words (F : c.Fits g rz) (hz : RzOk g rz) :
    hpOverheadSzB g + 4 * wordB ≤ c.size ∧ 0 < wordB ∧ wordB ≤ 8 := by
  have h₁ := F.room
  have h₂ := hz.word_le
  have h₃ : wordB = 4 ∨ wordB = 8 := word_ok
  unfold overhead at h₁
  omega

theorem Cell.Fits.tag_lt (F : c.Fits g rz) : c.tag < wordMod := by
  have h₁ := F.lt
  have h₂ := F.pos
  unfold Cell.stop at h₁
  unfold Cell.tag
  split <;> omega

theorem Cell.Fits.become (F : c.Fits g rz) (st : Status) : (c.become st).Fits g rz :=
  ⟨F.pos, F.room, F.dvd, F.lt⟩

theorem Cell.Fits.addW_eq (F : c.Fits g rz) {k : Nat} (hk : k ≤ c.size) :
    addW c.addr k = c.addr + k := by
  have h := F.lt
  unfold Cell.stop at h
  exact addW_of_lt (by omega)

theorem Cell.Fits.subW_eq (F : c.Fits g rz) {k j : Nat} (hk : k ≤ c.size) (hj : j ≤ k) :
    subW k j = k - j := by
  have h := F.lt
  unfold Cell.stop at h
  exact subW_of_le (by omega) hj

/-! ## The low-level functions, over cells -/

section Access

variable (hz : RzOk g rz) (F : c.Fits g rz)

include F in
theorem mkPlainBszB_size : mkPlainBszB c.size = .ok c.size := by
  obtain ⟨k, hk⟩ := F.dvd
  have h₁ := F.room
  have h₂ : wordB = 4 ∨ wordB = 8 := word_ok
  unfold overhead at h₁
  simp only [mkPlainBszB, bind_eq_ok, assertThat_eq_ok, pure_eq_ok, roundDn]
  exact ⟨(), by omega, by omega⟩

include F in
theorem mkPlainBszB_tag : mkPlainBszB c.tag = .ok c.size := by
  obtain ⟨k, hk⟩ := F.dvd
  unfold Cell.tag
  split
  · simp only [mkPlainBszB, bind_eq_ok, assertThat_eq_ok, pure_eq_ok, roundDn]
    exact ⟨(), by omega, by omega⟩
  · exact mkPlainBszB_size F

include hz F

theorem addW_lo : addW c.addr (hpOverheadSzB g) = c.at g .lo :=
  F.addW_eq (by have := F.words hz; omega)

theorem addW_prev : addW c.addr (hpOverheadSzB g + wordB) = c.at g .prev :=
  F.addW_eq (by have := F.words hz; omega)

theorem addW_hi : addW c.addr (subW c.size wordB) = c.at g .hi := by
  have h := F.words hz
  rw [F.subW_eq (Nat.le_refl _) (by omega)]
  exact F.addW_eq (by omega)

theorem addW_next : addW c.addr (subW (subW c.size wordB) wordB) = c.at g .next := by
  have h := F.words hz
  rw [F.subW_eq (Nat.le_refl _) (by omega), F.subW_eq (by omega) (by omega)]
  exact F.addW_eq (by omega)

theorem setBszB_tag (m : Mem) :
    setBszB g m c.addr c.tag = .ok (put g (put g m c .lo c.tag) c .hi c.tag) := by
  simp only [setBszB, mkPlainBszB_tag F, ok_bind, addW_lo hz F, addW_hi hz F]
  rfl

theorem setPrevB_eq (m : Mem) : setPrevB g m c.addr v = put g m c .prev v := by
  rw [setPrevB, addW_prev hz F]
  rfl

theorem getPrevB_eq (m : Mem) : getPrevB g m c.addr = word g m c .prev := by
  rw [getPrevB, addW_prev hz F]
  rfl

variable (T : Tagged g m c)

include T

theorem getBszBAsIs_eq : getBszBAsIs g m c.addr = .ok c.tag := by
  have hlo : loadW g m (addW c.addr (hpOverheadSzB g)) = c.tag := by
    rw [addW_lo hz F]
    exact T.lo
  have hhi : loadW g m (addW c.addr (subW c.size wordB)) = c.tag := by
    rw [addW_hi hz F]
    exact T.hi
  simp only [getBszBAsIs, hlo, mkPlainBszB_tag F, ok_bind, hhi, assertThat_of]
  rfl

theorem getBszB_eq : getBszB g m c.addr = .ok c.size := by
  simp only [getBszB, getBszBAsIs_eq hz F T, ok_bind, mkPlainBszB_tag F]

theorem isInuseBlock_eq : isInuseBlock g m c.addr = .ok (decide (c.st ≠ .free)) := by
  obtain ⟨k, hk⟩ := F.dvd
  have hw := F.words hz
  have hpos : c.tag ≠ 0 := by
    unfold Cell.tag
    split <;> omega
  simp only [isInuseBlock, getBszBAsIs_eq hz F T, ok_bind, assertThat_of hpos, pure_eq_ok]
  refine decide_eq_decide.mpr ?_
  unfold Cell.tag
  split <;> simp_all <;> omega

theorem setNextB_eq : setNextB g m c.addr v = .ok (put g m c .next v) := by
  simp only [setNextB, getBszB_eq hz F T, ok_bind, addW_next hz F]
  rfl

theorem getNextB_eq : getNextB g m c.addr = .ok (word g m c .next) := by
  simp only [getNextB, getBszB_eq hz F T, ok_bind, addW_next hz F]
  rfl

theorem getPszB_eq {a : Arena} (ha : a.rzSzB = rz) :
    getPszB g a m c.addr = .ok (c.psz g rz) := by
  simp only [getPszB, getBszB_eq hz F T, ok_bind, bszBToPszB, overheadSzB_eq, ha,
    assertThat_of F.room]
  rfl

end Access

/-! ## Fields do not overlap -/

/-- The cells stand apart, in address order. -/
def Apart (cs : List Cell) : Prop := cs.Pairwise fun x y => x.stop ≤ y.addr

/-- A field lies inside its cell. -/
theorem Cell.Fits.at_bounds (F : c.Fits g rz) (hz : RzOk g rz) (f : Field) :
    c.addr ≤ c.at g f ∧ c.at g f + wordB ≤ c.stop := by
  have h := F.words hz
  unfold Cell.stop
  cases f <;> simp only [Cell.at] <;> omega

/-- The fields of one cell do not overlap. -/
theorem Cell.Fits.at_apart (F : c.Fits g rz) (hz : RzOk g rz) {f f' : Field} (h : f ≠ f') :
    c.at g f + wordB ≤ c.at g f' ∨ c.at g f' + wordB ≤ c.at g f := by
  have hw := F.words hz
  cases f <;> cases f' <;> first | exact absurd rfl h | (simp only [Cell.at]; omega)

omit [Machine] in
theorem Apart.stop_le (h : Apart cs) (hc : c ∈ cs) (hd : d ∈ cs) (hne : c ≠ d) :
    c.stop ≤ d.addr ∨ d.stop ≤ c.addr := by
  obtain ⟨l₁, l₂, rfl⟩ := List.append_of_mem hc
  obtain ⟨-, hr, hl⟩ := List.pairwise_append.mp h
  rcases List.mem_append.mp hd with hd | hd
  · exact .inr (hl d hd c (by simp))
  · rcases List.mem_cons.mp hd with rfl | hd
    · exact absurd rfl hne
    · exact .inl ((List.pairwise_cons.mp hr).1 d hd)

/-- Cells that stand apart are told apart by their addresses. -/
theorem Apart.eq_of_addr (h : Apart cs) (hF : ∀ c ∈ cs, c.Fits g rz) (hz : RzOk g rz)
    (hc : c ∈ cs) (hd : d ∈ cs) (he : c.addr = d.addr) : c = d := by
  by_contra hne
  have h₁ := (hF c hc).words hz
  have h₂ := (hF d hd).words hz
  have h₃ := h.stop_le hc hd hne
  unfold Cell.stop at h₃
  omega

theorem put_sameOff (m : Mem) (c : Cell) (f : Field) (v : Nat) :
    SameOff m (put g m c f v) (c.at g f) (c.at g f + wordB) :=
  store_sameOff _ _ _

/-- Writing a field touches nothing outside its cell. -/
theorem Cell.Fits.put_sameOff (F : c.Fits g rz) (hz : RzOk g rz) (m : Mem) (f : Field) (v : Nat) :
    SameOff m (put g m c f v) c.addr c.stop :=
  (MallocFree.put_sameOff m c f v).mono (F.at_bounds hz f).1 (F.at_bounds hz f).2

theorem word_put_self (hv : v < wordMod) (f : Field) : word g (put g m c f v) c f = v := by
  rw [wordMod_eq_pow] at hv
  exact load_store_self hv

/-- A write to a field leaves the other fields of the cell alone. -/
theorem word_put_field (hz : RzOk g rz) (F : c.Fits g rz) {f f' : Field} (h : f' ≠ f) :
    word g (put g m c f v) c f' = word g m c f' :=
  (MallocFree.put_sameOff m c f v).load_eq (F.at_apart hz h)

/-- A change inside a cell leaves the fields of the other cells alone. -/
theorem word_of_sameOff (hz : RzOk g rz) (hs : SameOff m m' c.addr c.stop)
    (F : d.Fits g rz) (h : c.stop ≤ d.addr ∨ d.stop ≤ c.addr) (f : Field) :
    word g m' d f = word g m d f := by
  refine hs.load_eq ?_
  have hb := F.at_bounds hz f
  omega

/-- **Field by field**: over cells that stand apart, a write to one field is an
update of the function from fields to words. -/
theorem word_put (hz : RzOk g rz) (hF : ∀ c ∈ cs, c.Fits g rz) (hA : Apart cs)
    (hc : c ∈ cs) (hd : d ∈ cs) (hv : v < wordMod) (f f' : Field) :
    word g (put g m c f v) d f' = if d = c ∧ f' = f then v else word g m d f' := by
  split
  · rename_i h
    obtain ⟨rfl, rfl⟩ := h
    exact word_put_self hv f'
  · rename_i h
    by_cases hdc : d = c
    · subst hdc
      exact word_put_field hz (hF d hd) fun hff => h ⟨rfl, hff⟩
    · exact word_of_sameOff hz ((hF c hc).put_sameOff hz m f v) (hF d hd)
        (hA.stop_le hc hd (Ne.symm hdc)) f'

end

end MallocFree

end Valgrind
