import Mathlib.Tactic

/-!
# Byte-addressed memory

Memory is a function from addresses to bytes. Unsigned numbers of `n` bytes are
read and written at an address in either byte order; blocks of bytes are filled
and copied.

Everything a proof about memory needs is one of two kinds of fact: what a write
leaves at its own place (`load_store_self`), and that it touches nothing else.
The second kind is stated once, as `SameOff m m' lo hi` ("`m'` differs from `m`
at most inside `[lo, hi)`"), and every writing operation comes with an instance
of it.
-/

namespace ByteMem

/-- Memory. -/
abbrev Mem := Nat → UInt8

/-- The order of the bytes of a number. -/
inductive Order where
  | little
  | big
  deriving DecidableEq, Repr

/-- Where, counted from its address, a number of `n` bytes keeps its digit `i`. -/
def Order.place : Order → Nat → Nat → Nat
  | .little, _, i => i
  | .big, n, i => n - 1 - i

/-- The number whose first `n` base-256 digits are `f 0, .., f (n - 1)`. -/
def ofDigits (f : Nat → UInt8) : Nat → Nat
  | 0 => 0
  | n + 1 => ofDigits f n + (f n).toNat * 256 ^ n

variable (o : Order) (n : Nat)

/-- Read the `n`-byte number at `a`. -/
def load (m : Mem) (a : Nat) : Nat := ofDigits (fun i => m (a + o.place n i)) n

/-- Write `v` as an `n`-byte number at `a`. -/
def store (m : Mem) (a v : Nat) : Mem := fun x =>
  if a ≤ x ∧ x < a + n then UInt8.ofNat (v / 256 ^ o.place n (x - a)) else m x

/-- Fill `[a, a + k)` with a byte. -/
def fill (m : Mem) (a : Nat) (v : UInt8) (k : Nat) : Mem := fun x =>
  if a ≤ x ∧ x < a + k then v else m x

/-- Copy `[src, src + k)` to `[dst, dst + k)`. -/
def copy (m : Mem) (dst src k : Nat) : Mem := fun x =>
  if dst ≤ x ∧ x < dst + k then m (src + (x - dst)) else m x

/-- `m'` differs from `m` at most inside `[lo, hi)`. -/
def SameOff (m m' : Mem) (lo hi : Nat) : Prop := ∀ x, x < lo ∨ hi ≤ x → m' x = m x

variable {o n} {m m' m'' : Mem} {a b v lo hi k : Nat}

/-! ## Digits -/

theorem Order.place_lt {i : Nat} (h : i < n) : o.place n i < n := by
  cases o with
  | little => exact h
  | big =>
    show n - 1 - i < n
    omega

theorem Order.place_place {i : Nat} (h : i < n) : o.place n (o.place n i) = i := by
  cases o with
  | little => rfl
  | big =>
    show n - 1 - (n - 1 - i) = i
    omega

theorem ofDigits_lt (f : Nat → UInt8) (n : Nat) : ofDigits f n < 256 ^ n := by
  induction n with
  | zero => simp [ofDigits]
  | succ n ih =>
    have hb : (f n).toNat ≤ 255 := by
      have := (f n).toNat_lt
      omega
    have hm := Nat.mul_le_mul_right (256 ^ n) hb
    simp only [ofDigits, pow_succ]
    omega

theorem ofDigits_congr {f g : Nat → UInt8} (h : ∀ i < n, f i = g i) :
    ofDigits f n = ofDigits g n := by
  induction n with
  | zero => rfl
  | succ n ih =>
    simp only [ofDigits]
    rw [ih fun i hi => h i (by omega), h n (by omega)]

/-- The digits of a number give it back. -/
theorem ofDigits_div (v n : Nat) :
    ofDigits (fun i => UInt8.ofNat (v / 256 ^ i)) n = v % 256 ^ n := by
  induction n with
  | zero => simp [ofDigits, Nat.mod_one]
  | succ n ih =>
    have hsucc : v % 256 ^ (n + 1) = v % 256 ^ n + 256 ^ n * (v / 256 ^ n % 256) :=
      Nat.mod_pow_succ
    have hdigit : (UInt8.ofNat (v / 256 ^ n)).toNat = v / 256 ^ n % 256 := UInt8.toNat_ofNat'
    simp only [ofDigits]
    rw [ih, hdigit, hsucc, Nat.mul_comm]

theorem load_lt (m : Mem) (a : Nat) : load o n m a < 256 ^ n := ofDigits_lt _ n

/-! ## Reading back -/

theorem load_store_self (h : v < 256 ^ n) : load o n (store o n m a v) a = v := by
  have hd : ∀ i < n, (fun i => store o n m a v (a + o.place n i)) i =
      UInt8.ofNat (v / 256 ^ i) := by
    intro i hi
    have hp := o.place_lt hi
    show store o n m a v (a + o.place n i) = _
    rw [store, if_pos ⟨by omega, by omega⟩, Nat.add_sub_cancel_left, o.place_place hi]
  show ofDigits _ n = v
  rw [ofDigits_congr hd, ofDigits_div, Nat.mod_eq_of_lt h]

/-- A number depends only on its own bytes. -/
theorem load_congr (h : ∀ x, a ≤ x → x < a + n → m' x = m x) :
    load o n m' a = load o n m a := by
  refine ofDigits_congr fun i hi => ?_
  have hp := o.place_lt hi
  exact h _ (by omega) (by omega)

/-! ## Nothing else is touched -/

theorem SameOff.refl : SameOff m m lo hi := fun _ _ => rfl

theorem SameOff.trans (h : SameOff m m' lo hi) (h' : SameOff m' m'' lo hi) :
    SameOff m m'' lo hi :=
  fun x hx => (h' x hx).trans (h x hx)

theorem SameOff.mono {lo' hi' : Nat} (h : SameOff m m' lo hi) (hlo : lo' ≤ lo) (hhi : hi ≤ hi') :
    SameOff m m' lo' hi' :=
  fun x hx => h x (by omega)

/-- A number whose bytes lie outside the written range keeps its value. -/
theorem SameOff.load_eq (h : SameOff m m' lo hi) (ha : a + n ≤ lo ∨ hi ≤ a) :
    load o n m' a = load o n m a :=
  load_congr fun x h₁ h₂ => h x (by omega)

theorem store_sameOff (m : Mem) (a v : Nat) : SameOff m (store o n m a v) a (a + n) := by
  intro x hx
  exact if_neg (by omega)

theorem fill_sameOff (m : Mem) (a : Nat) (u : UInt8) (k : Nat) :
    SameOff m (fill m a u k) a (a + k) := by
  intro x hx
  exact if_neg (by omega)

theorem copy_sameOff (m : Mem) (a b k : Nat) : SameOff m (copy m a b k) a (a + k) := by
  intro x hx
  exact if_neg (by omega)

theorem copy_apply {i : Nat} (hi : i < k) : copy m a b k (a + i) = m (b + i) := by
  rw [copy, if_pos ⟨by omega, by omega⟩, Nat.add_sub_cancel_left]

end ByteMem
