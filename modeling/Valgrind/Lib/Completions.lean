import Mathlib.Tactic

/-!
# Values with undefined bits

A bit vector `a` some of whose bits are undefined, those that are set in a mask `q`, stands for
all the values that agree with `a` on the other bits: its completions. An operation on two such
operands, which are completed independently of each other, leaves a bit of its result undefined
if the completions do not determine it: `Varies`.

For addition and subtraction, `and`, `or` and comparison for equality, `Varies` is computed by
a few operations on the values and the masks (`varies_add`, `varies_sub`, `varies_and`,
`varies_or`, `varies_eq`). What makes it work for addition is that carries are monotone: the
smallest completions give the fewest, the greatest the most.
-/

namespace Completions

variable {n : Nat}

/-- `x` agrees with `a` on the defined bits. -/
def Completes (a q x : BitVec n) : Prop := x &&& ~~~q = a &&& ~~~q

/-- Some two completions of the operands give results that differ. -/
def Varies {β : Type} (f : BitVec n → BitVec n → β) (a qa b qb : BitVec n) : Prop :=
  ∃ x x' y y', Completes a qa x ∧ Completes a qa x' ∧ Completes b qb y ∧ Completes b qb y' ∧
    f x y ≠ f x' y'

/-- The smallest completion. -/
def least (a q : BitVec n) : BitVec n := a &&& ~~~q

/-- The greatest completion. -/
def greatest (a q : BitVec n) : BitVec n := a ||| q

variable {a b q qa qb x y : BitVec n} {i : Nat}

theorem getLsbD_least (a q : BitVec n) (i : Nat) :
    (least a q).getLsbD i = (a.getLsbD i && !q.getLsbD i) := by
  by_cases hi : i < n
  · simp only [least, BitVec.getLsbD_and, BitVec.getLsbD_not, hi, decide_true, Bool.true_and]
  · rw [BitVec.getLsbD_of_ge _ i (by omega), BitVec.getLsbD_of_ge a i (by omega)]
    rfl

theorem getLsbD_greatest (a q : BitVec n) (i : Nat) :
    (greatest a q).getLsbD i = (a.getLsbD i || q.getLsbD i) := BitVec.getLsbD_or

theorem completes_iff : Completes a q x ↔ ∀ i, q.getLsbD i = false → x.getLsbD i = a.getLsbD i := by
  have hbits : ∀ z : BitVec n, z &&& ~~~q = least z q := fun z => rfl
  unfold Completes
  rw [hbits, hbits]
  constructor
  · intro h i hq
    have hbit := congrArg (fun z => z.getLsbD i) h
    simpa only [getLsbD_least, hq, Bool.not_false, Bool.and_true] using hbit
  · intro h
    refine BitVec.eq_of_getLsbD_eq fun i hi => ?_
    rw [getLsbD_least, getLsbD_least]
    cases hq : q.getLsbD i with
    | false => rw [h i hq]
    | true => simp

theorem completes_self : Completes a q a := rfl

theorem completes_least : Completes a q (least a q) := by
  rw [completes_iff]
  intro i hq
  rw [getLsbD_least, hq]
  simp

theorem completes_greatest : Completes a q (greatest a q) := by
  rw [completes_iff]
  intro i hq
  rw [getLsbD_greatest, hq]
  simp

theorem Completes.least_le (h : Completes a q x) (i : Nat) : (least a q).getLsbD i ≤ x.getLsbD i := by
  cases hq : q.getLsbD i with
  | false => rw [completes_iff.mp h i hq, completes_iff.mp completes_least i hq]
  | true =>
    rw [getLsbD_least, hq]
    simp

theorem Completes.le_greatest (h : Completes a q x) (i : Nat) : x.getLsbD i ≤ (greatest a q).getLsbD i := by
  cases hq : q.getLsbD i with
  | false => rw [completes_iff.mp h i hq, completes_iff.mp completes_greatest i hq]
  | true =>
    rw [getLsbD_greatest, hq]
    simp

/-- Turn the bit `i` around. -/
def flip (i : Nat) (x : BitVec n) : BitVec n := x ^^^ BitVec.twoPow n i

theorem getLsbD_flip_of_ne {j : Nat} (h : j ≠ i) (x : BitVec n) : (flip i x).getLsbD j = x.getLsbD j := by
  rw [flip, BitVec.getLsbD_xor, BitVec.getLsbD_twoPow]
  simp [h.symm]

theorem getLsbD_flip_self (hi : i < n) (x : BitVec n) : (flip i x).getLsbD i = !x.getLsbD i := by
  rw [flip, BitVec.getLsbD_xor, BitVec.getLsbD_twoPow]
  simp [hi]

/-- An undefined bit can be turned around. -/
theorem Completes.flip (h : Completes a q x) (hq : q.getLsbD i = true) : Completes a q (flip i x) := by
  rw [completes_iff] at h ⊢
  intro j hj
  have hne : j ≠ i := fun hij => by
    rw [hij, hq] at hj
    exact nomatch hj
  rw [getLsbD_flip_of_ne hne, h j hj]

/-- The completions of a complement. -/
theorem completes_not : Completes (~~~a) q (~~~x) ↔ Completes a q x := by
  rw [completes_iff, completes_iff]
  refine forall_congr' fun i => forall_congr' fun _ => ?_
  by_cases hi : i < n
  · simp only [BitVec.getLsbD_not, hi, decide_true, Bool.true_and, Bool.not_inj_iff]
  · simp only [BitVec.getLsbD_of_ge _ i (Nat.not_lt.mp hi)]

theorem least_not : least (~~~b) q = ~~~greatest b q := by
  refine BitVec.eq_of_getLsbD_eq fun i hi => ?_
  simp [least, greatest, hi]

theorem greatest_not : greatest (~~~b) q = ~~~least b q := by
  refine BitVec.eq_of_getLsbD_eq fun i hi => ?_
  simp [least, greatest, hi]

/-! ## Addition and subtraction -/

theorem atLeastTwo_mono {p p' q q' r r' : Bool} (hp : p ≤ p') (hq : q ≤ q') (hr : r ≤ r') :
    Bool.atLeastTwo p q r ≤ Bool.atLeastTwo p' q' r' := by
  decide +revert

/-- Greater operands give more carries. -/
theorem carry_mono {x x' y y' : BitVec n} (hx : ∀ i, x.getLsbD i ≤ x'.getLsbD i)
    (hy : ∀ i, y.getLsbD i ≤ y'.getLsbD i) (c : Bool) (i : Nat) :
    BitVec.carry i x y c ≤ BitVec.carry i x' y' c := by
  induction i with
  | zero => simp
  | succ i ih =>
    rw [BitVec.carry_succ, BitVec.carry_succ]
    exact atLeastTwo_mono (hx i) (hy i) ih

/-- The carry into a bit comes from the bits below it. -/
theorem carry_congr {x x' y y' : BitVec n} (hx : ∀ j < i, x.getLsbD j = x'.getLsbD j)
    (hy : ∀ j < i, y.getLsbD j = y'.getLsbD j) (c : Bool) :
    BitVec.carry i x y c = BitVec.carry i x' y' c := by
  induction i with
  | zero => simp
  | succ i ih =>
    rw [BitVec.carry_succ, BitVec.carry_succ, hx i (by omega), hy i (by omega),
      ih (fun j hj => hx j (by omega)) fun j hj => hy j (by omega)]

/-- The bit of a sum with carry-in. -/
def addBit (c : Bool) (i : Nat) (x y : BitVec n) : Bool := (x + y + BitVec.setWidth n (BitVec.ofBool c)).getLsbD i

theorem addBit_eq (hi : i < n) (c : Bool) (x y : BitVec n) :
    addBit c i x y = (x.getLsbD i ^^ (y.getLsbD i ^^ BitVec.carry i x y c)) :=
  BitVec.getLsbD_add_add_bool hi x y c

/-- A bit of a sum varies iff it varies in an operand, or it differs between the sum of the
smallest and that of the greatest completions. -/
theorem varies_addBit (hi : i < n) (c : Bool) : Varies (addBit c i) a qa b qb ↔
    qa.getLsbD i = true ∨ qb.getLsbD i = true ∨
      addBit c i (least a qa) (least b qb) ≠ addBit c i (greatest a qa) (greatest b qb) := by
  constructor
  · rintro ⟨x, x', y, y', hx, hx', hy, hy', hne⟩
    by_contra hno
    simp only [not_or, Bool.not_eq_true, ne_eq, not_not] at hno
    obtain ⟨hqa, hqb, heq⟩ := hno
    -- the bit of both operands is defined, so all sums have the same carry there
    have hbit : ∀ {z : BitVec n}, Completes a qa z → z.getLsbD i = a.getLsbD i := fun hz =>
      completes_iff.mp hz i hqa
    have hbit' : ∀ {z : BitVec n}, Completes b qb z → z.getLsbD i = b.getLsbD i := fun hz =>
      completes_iff.mp hz i hqb
    rw [addBit_eq hi, addBit_eq hi, hbit completes_least, hbit completes_greatest, hbit' completes_least,
      hbit' completes_greatest, Bool.xor_right_inj, Bool.xor_right_inj] at heq
    have hall : ∀ {z w : BitVec n}, Completes a qa z → Completes b qb w →
        BitVec.carry i z w c = BitVec.carry i (least a qa) (least b qb) c := by
      intro z w hz hw
      refine le_antisymm ?_ (carry_mono hz.least_le hw.least_le c i)
      rw [heq]
      exact carry_mono hz.le_greatest hw.le_greatest c i
    rw [addBit_eq hi, addBit_eq hi, hbit hx, hbit hx', hbit' hy, hbit' hy', hall hx hy, hall hx' hy'] at hne
    exact hne rfl
  · have hflip : ∀ z : BitVec n, ∀ j < i, z.getLsbD j = (flip i z).getLsbD j := fun z j hj =>
      (getLsbD_flip_of_ne (Nat.ne_of_lt hj) z).symm
    rintro (hqa | hqb | hne)
    · refine ⟨a, _, b, b, completes_self, completes_self.flip hqa, completes_self, completes_self, ?_⟩
      rw [addBit_eq hi, addBit_eq hi, getLsbD_flip_self hi, carry_congr (hflip a) fun _ _ => rfl]
      simp
    · refine ⟨a, a, b, _, completes_self, completes_self, completes_self, completes_self.flip hqb, ?_⟩
      rw [addBit_eq hi, addBit_eq hi, getLsbD_flip_self hi, carry_congr (fun _ _ => rfl) (hflip b)]
      simp
    · exact ⟨_, _, _, _, completes_least, completes_greatest, completes_least, completes_greatest, hne⟩

theorem or_xor_eq_true {p q r s : Bool} : (p || q || (r ^^ s)) = true ↔ p = true ∨ q = true ∨ r ≠ s := by
  decide +revert

/-- **Addition**: the bits that vary. -/
theorem varies_add (hi : i < n) : Varies (fun x y => (x + y).getLsbD i) a qa b qb ↔
    ((qa ||| qb) ||| ((least a qa + least b qb) ^^^ (greatest a qa + greatest b qb))).getLsbD i = true := by
  have hbit : ∀ x y : BitVec n, (x + y).getLsbD i = addBit false i x y := fun x y => by simp [addBit]
  have hfun : (fun x y : BitVec n => (x + y).getLsbD i) = addBit false i := funext fun x => funext (hbit x)
  rw [hfun, varies_addBit hi, BitVec.getLsbD_or, BitVec.getLsbD_or, BitVec.getLsbD_xor, or_xor_eq_true, hbit,
    hbit]

/-- **Subtraction**: the bits that vary. The difference is the sum with the complement, and the
smallest completion of the complement is the complement of the greatest. -/
theorem varies_sub (hi : i < n) : Varies (fun x y => (x - y).getLsbD i) a qa b qb ↔
    ((qa ||| qb) ||| ((least a qa - greatest b qb) ^^^ (greatest a qa - least b qb))).getLsbD i = true := by
  have hbit : ∀ x y : BitVec n, (x - y).getLsbD i = addBit true i x (~~~y) := by
    intro x y
    have hone : BitVec.setWidth n (BitVec.ofBool true) = 1#n := by
      refine BitVec.eq_of_toNat_eq ?_
      simp
    rw [addBit, hone, BitVec.sub_eq_add_neg, BitVec.neg_eq_not_add, BitVec.add_assoc]
  have hnot : Varies (fun x y => (x - y).getLsbD i) a qa b qb ↔ Varies (addBit true i) a qa (~~~b) qb := by
    constructor
    · rintro ⟨x, x', y, y', hx, hx', hy, hy', hne⟩
      exact ⟨x, x', ~~~y, ~~~y', hx, hx', completes_not.mpr hy, completes_not.mpr hy',
        by rwa [← hbit, ← hbit]⟩
    · rintro ⟨x, x', y, y', hx, hx', hy, hy', hne⟩
      refine ⟨x, x', ~~~y, ~~~y', hx, hx', ?_, ?_, ?_⟩
      · rwa [← completes_not, BitVec.not_not]
      · rwa [← completes_not, BitVec.not_not]
      · dsimp only
        rwa [hbit, hbit, BitVec.not_not, BitVec.not_not]
  rw [hnot, varies_addBit hi, BitVec.getLsbD_or, BitVec.getLsbD_or, BitVec.getLsbD_xor, or_xor_eq_true, hbit,
    hbit, least_not, greatest_not]

/-! ## Bitwise operations -/

/-- The values that a bit of a completion can have. -/
theorem exists_completes_bit {v : Bool} : (∃ x, Completes a q x ∧ x.getLsbD i = v) ↔
    a.getLsbD i = v ∨ (q.getLsbD i = true ∧ i < n) := by
  constructor
  · rintro ⟨x, hx, rfl⟩
    cases hq : q.getLsbD i with
    | false => exact .inl (completes_iff.mp hx i hq).symm
    | true =>
      refine .inr ⟨rfl, ?_⟩
      by_contra hi
      rw [BitVec.getLsbD_of_ge _ i (by omega)] at hq
      exact nomatch hq
  · rintro (h | ⟨hq, hi⟩)
    · exact ⟨a, completes_self, h⟩
    · by_cases h : a.getLsbD i = v
      · exact ⟨a, completes_self, h⟩
      · refine ⟨_, completes_self.flip hq, ?_⟩
        rw [getLsbD_flip_self hi]
        exact (Bool.eq_not_of_ne (Ne.symm h)).symm

/-- A bit of an operation that works bit by bit varies iff it does for the two operand bits. -/
theorem varies_bit {f : BitVec n → BitVec n → Bool} {g : Bool → Bool → Bool}
    (hf : ∀ x y, f x y = g (x.getLsbD i) (y.getLsbD i)) (hi : i < n) : Varies f a qa b qb ↔
      ∃ p p' r r', (a.getLsbD i = p ∨ qa.getLsbD i = true) ∧ (a.getLsbD i = p' ∨ qa.getLsbD i = true) ∧
        (b.getLsbD i = r ∨ qb.getLsbD i = true) ∧ (b.getLsbD i = r' ∨ qb.getLsbD i = true) ∧
        g p r ≠ g p' r' := by
  have hex : ∀ {c qc : BitVec n} {v}, (c.getLsbD i = v ∨ qc.getLsbD i = true) ↔
      ∃ x, Completes c qc x ∧ x.getLsbD i = v := by
    intro c qc v
    rw [exists_completes_bit]
    grind
  simp only [hex]
  constructor
  · rintro ⟨x, x', y, y', hx, hx', hy, hy', hne⟩
    exact ⟨_, _, _, _, ⟨x, hx, rfl⟩, ⟨x', hx', rfl⟩, ⟨y, hy, rfl⟩, ⟨y', hy', rfl⟩, by rwa [← hf, ← hf]⟩
  · rintro ⟨_, _, _, _, ⟨x, hx, rfl⟩, ⟨x', hx', rfl⟩, ⟨y, hy, rfl⟩, ⟨y', hy', rfl⟩, hne⟩
    exact ⟨x, x', y, y', hx, hx', hy, hy', by rwa [hf, hf]⟩

/-- **And**: the bits that vary. -/
theorem varies_and (hi : i < n) : Varies (fun x y => (x &&& y).getLsbD i) a qa b qb ↔
    ((qa ||| qb) &&& ((a ||| qa) &&& (b ||| qb))).getLsbD i = true := by
  rw [varies_bit (fun x y => BitVec.getLsbD_and) hi]
  simp only [BitVec.getLsbD_and, BitVec.getLsbD_or]
  generalize a.getLsbD i = a, qa.getLsbD i = qa, b.getLsbD i = b, qb.getLsbD i = qb
  decide +revert

/-- **Or**: the bits that vary. -/
theorem varies_or (hi : i < n) : Varies (fun x y => (x ||| y).getLsbD i) a qa b qb ↔
    ((qa ||| qb) &&& ((~~~a ||| qa) &&& (~~~b ||| qb))).getLsbD i = true := by
  rw [varies_bit (fun x y => BitVec.getLsbD_or) hi]
  simp only [BitVec.getLsbD_and, BitVec.getLsbD_or, BitVec.getLsbD_not, hi, decide_true, Bool.true_and]
  generalize a.getLsbD i = a, qa.getLsbD i = qa, b.getLsbD i = b, qb.getLsbD i = qb
  decide +revert

/-! ## Comparison -/

/-- Every bit is undefined in one of the operands, or the same in both. -/
theorem noDiff_iff : (qa ||| qb) ||| ~~~(a ^^^ b) = BitVec.allOnes n ↔
    ∀ i < n, qa.getLsbD i = true ∨ qb.getLsbD i = true ∨ a.getLsbD i = b.getLsbD i := by
  have hbit : ∀ i < n, ((qa ||| qb) ||| ~~~(a ^^^ b)).getLsbD i = (BitVec.allOnes n).getLsbD i ↔
      qa.getLsbD i = true ∨ qb.getLsbD i = true ∨ a.getLsbD i = b.getLsbD i := by
    intro i hi
    simp only [BitVec.getLsbD_or, BitVec.getLsbD_not, BitVec.getLsbD_xor, BitVec.getLsbD_allOnes, hi,
      decide_true, Bool.true_and]
    generalize a.getLsbD i = a, qa.getLsbD i = qa, b.getLsbD i = b, qb.getLsbD i = qb
    decide +revert
  constructor
  · intro h i hi
    rw [← hbit i hi, h]
  · exact fun h => BitVec.eq_of_getLsbD_eq fun i hi => (hbit i hi).mpr (h i hi)

/-- The completion of `a` that is as close to `b` as can be. -/
def towards (a q b : BitVec n) : BitVec n := least a q ||| (b &&& q)

theorem getLsbD_towards (a q b : BitVec n) (i : Nat) : (towards a q b).getLsbD i =
    if q.getLsbD i = true then b.getLsbD i else a.getLsbD i := by
  rw [towards, BitVec.getLsbD_or, getLsbD_least, BitVec.getLsbD_and]
  cases q.getLsbD i <;> simp

/-- Two completions are equal iff no two bits are both defined and different. -/
theorem exists_eq_iff : (∃ z, Completes a qa z ∧ Completes b qb z) ↔
    (qa ||| qb) ||| ~~~(a ^^^ b) = BitVec.allOnes n := by
  rw [noDiff_iff]
  constructor
  · rintro ⟨z, ha, hb⟩ i -
    cases hqa : qa.getLsbD i with
    | true => exact .inl rfl
    | false =>
      cases hqb : qb.getLsbD i with
      | true => exact .inr (.inl rfl)
      | false => exact .inr (.inr ((completes_iff.mp ha i hqa).symm.trans (completes_iff.mp hb i hqb)))
  · intro h
    refine ⟨towards a qa b, ?_, ?_⟩
    · rw [completes_iff]
      intro i hq
      rw [getLsbD_towards, hq]
      rfl
    · rw [completes_iff]
      intro i hq
      rw [getLsbD_towards]
      split
      · rfl
      · rename_i hqa
        by_cases hi : i < n
        · rcases h i hi with h | h | h
          · exact absurd h hqa
          · rw [hq] at h
            exact nomatch h
          · exact h
        · rw [BitVec.getLsbD_of_ge a i (by omega), BitVec.getLsbD_of_ge b i (by omega)]

/-- **Comparison for equality**: it varies iff some bit is undefined and no two bits are both defined
and different. -/
theorem varies_eq : Varies (fun x y : BitVec n => x == y) a qa b qb ↔
    qa ||| qb ≠ 0 ∧ (qa ||| qb) ||| ~~~(a ^^^ b) = BitVec.allOnes n := by
  rw [← exists_eq_iff]
  constructor
  · rintro ⟨x, x', y, y', hx, hx', hy, hy', hne⟩
    refine ⟨fun hq => ?_, ?_⟩
    · -- without an undefined bit there is one completion
      obtain ⟨rfl, rfl⟩ := BitVec.or_eq_zero_iff.mp hq
      have hone : ∀ {c z : BitVec n}, Completes c 0 z → z = c := fun h =>
        BitVec.eq_of_getLsbD_eq fun i _ => completes_iff.mp h i (by simp)
      rw [hone hx, hone hx', hone hy, hone hy'] at hne
      exact hne rfl
    · by_cases hxy : x = y
      · exact ⟨x, hx, hxy ▸ hy⟩
      · have hx'y' : x' = y' := by
          by_contra hn
          simp [hxy, hn] at hne
        exact ⟨x', hx', hx'y' ▸ hy'⟩
  · rintro ⟨hq, z, ha, hb⟩
    obtain ⟨i, hi, hbit⟩ : ∃ i, i < n ∧ (qa ||| qb).getLsbD i = true := by
      by_contra hno
      refine hq (BitVec.eq_of_getLsbD_eq fun i hi => ?_)
      have hzero : (0 : BitVec n).getLsbD i = false := by simp
      rw [hzero, Bool.eq_false_iff]
      exact fun h => hno ⟨i, hi, h⟩
    have hne : flip i z ≠ z := fun h => by
      have hb := getLsbD_flip_self hi z
      rw [h] at hb
      simp at hb
    rw [BitVec.getLsbD_or, Bool.or_eq_true] at hbit
    rcases hbit with hqa | hqb
    · exact ⟨z, flip i z, z, z, ha, ha.flip hqa, hb, hb, by simp [hne]⟩
    · exact ⟨z, z, z, flip i z, ha, ha, hb, hb.flip hqb, by simp [hne.symm]⟩

/-- Comparison for inequality varies whenever comparison for equality does. -/
theorem varies_ne : Varies (fun x y : BitVec n => x != y) a qa b qb ↔
    Varies (fun x y : BitVec n => x == y) a qa b qb := by
  unfold Varies
  simp only [bne, ne_eq, Bool.not_inj_iff]

end Completions
