import Mathlib.Algebra.Group.Nat.Even
import Mathlib.Algebra.Ring.Int.Defs
import VintageUnix.Word.Bits

/-! Arithmetic of fixed width beside the integers that it truncates. A sum or difference keeps the
exact result modulo a power of two. What is lost shows in two ways: a carry or borrow, if the
exact result is no unsigned value of the width, and an overflow, if it is no signed one. -/
namespace VintageUnix

/-- The integer is the unsigned value of a word of `n` bits. -/
def FitsUnsigned (n : Nat) (r : Int) : Prop :=
  0 ≤ r ∧ r < 2 ^ n

/-- The integer is the signed value of a word of `n` bits. -/
def FitsSigned (n : Nat) (r : Int) : Prop :=
  -2 ^ (n - 1) ≤ r ∧ r < 2 ^ (n - 1)

instance (n : Nat) (r : Int) : Decidable (FitsUnsigned n r) :=
  inferInstanceAs (Decidable (_ ∧ _))

instance (n : Nat) (r : Int) : Decidable (FitsSigned n r) :=
  inferInstanceAs (Decidable (_ ∧ _))

/-- What `n` bits keep of an integer. -/
def residue (n : Nat) (r : Int) : Nat :=
  (r % 2 ^ n).toNat

variable {n : Nat}

theorem two_pow_eq_double (hn : 0 < n) : (2 : Int) ^ n = 2 * 2 ^ (n - 1) := by
  obtain ⟨k, rfl⟩ := Nat.exists_eq_add_one_of_ne_zero (Nat.pos_iff_ne_zero.1 hn)
  exact Int.pow_succ' 2 k

theorem fitsUnsigned_toNat (x : BitVec n) : FitsUnsigned n x.toNat :=
  ⟨Int.natCast_nonneg _, by exact_mod_cast x.isLt⟩

theorem fitsSigned_toInt (x : BitVec n) : FitsSigned n x.toInt :=
  ⟨x.le_toInt, x.toInt_lt⟩

/-- The constant one is one in every reading. -/
theorem readings_one (hn : 1 < n) :
    (1 : BitVec n).toNat = 1 ∧ (1 : BitVec n).toInt = 1 ∧ (1 : BitVec n).msb = false := by
  have hSigned : (1 : BitVec n).toInt = 1 := BitVec.toInt_one hn
  refine ⟨BitVec.toNat_one (by omega), hSigned, ?_⟩
  rw [BitVec.msb_eq_toInt, hSigned]
  rfl

theorem toNat_ofInt_eq_residue (r : Int) : (BitVec.ofInt n r).toNat = residue n r := by
  simp [residue]

theorem ofInt_beq_zero (r : Int) : (BitVec.ofInt n r == 0) = decide (residue n r = 0) := by
  rw [← toNat_ofInt_eq_residue, beq_eq_decide, decide_eq_decide]
  exact BitVec.toNat_eq

theorem msb_ofInt (r : Int) : (BitVec.ofInt n r).msb = decide (2 ^ (n - 1) ≤ residue n r) := by
  rw [← toNat_ofInt_eq_residue, BitVec.msb_eq_decide]

/-- Folding with exclusive or counts modulo two. -/
theorem foldl_xor_eq_odd_countP (p : Nat → Bool) (l : List Nat) (odd : Bool) :
    l.foldl (fun odd i => odd ^^ p i) odd = (odd ^^ decide (¬ Even (l.countP p))) := by
  induction l generalizing odd with
  | nil => simp
  | cons i rest ih =>
      rw [List.foldl_cons, ih, List.countP_cons]
      cases p i <;> by_cases hEven : Even (rest.countP p) <;> cases odd <;>
        simp [hEven, Nat.even_add_one]

theorem evenParity_eq (v : BitVec n) :
    Word.evenParity v = decide (Even ((List.range 8).countP v.getLsbD)) := by
  simp only [Word.evenParity, foldl_xor_eq_odd_countP, Bool.false_xor, decide_not, Bool.not_not]

theorem evenParity_ofInt (r : Int) : Word.evenParity (BitVec.ofInt n r) =
    decide (Even ((List.range 8).countP (residue n r).testBit)) := by
  rw [evenParity_eq, ← toNat_ofInt_eq_residue]
  rfl

theorem ofInt_add_two_pow (r : Int) : BitVec.ofInt n (r + 2 ^ n) = BitVec.ofInt n r := by
  apply BitVec.eq_of_toNat_eq
  simp

theorem ofInt_sub_two_pow (r : Int) : BitVec.ofInt n (r - 2 ^ n) = BitVec.ofInt n r := by
  rw [← ofInt_add_two_pow, Int.sub_add_cancel]

theorem msb_ofInt_of_fitsSigned (hn : 0 < n) {r : Int} (h : FitsSigned n r) :
    (BitVec.ofInt n r).msb = decide (r < 0) := by
  rw [BitVec.msb_eq_toInt, BitVec.toInt_ofInt_eq_self hn h.1 h.2]

/-- In an overflow the top bit is not the sign of the exact result. -/
theorem signedMisfit_eq (hn : 0 < n) {r : Int} (hLeast : -2 ^ n ≤ r) (hMost : r < 2 ^ n) :
    decide (¬ FitsSigned n r) = ((BitVec.ofInt n r).msb != decide (r < 0)) := by
  have hDouble := two_pow_eq_double hn
  by_cases hFits : FitsSigned n r
  · simp [hFits, msb_ofInt_of_fitsSigned hn hFits]
  · rcases Int.lt_or_le r 0 with hNegative | hPositive
    · have hWrapped : FitsSigned n (r + 2 ^ n) := by
        simp only [FitsSigned] at hFits ⊢
        omega
      have hMsb := msb_ofInt_of_fitsSigned hn hWrapped
      have hSign : ¬ r + 2 ^ n < 0 := by omega
      rw [ofInt_add_two_pow] at hMsb
      simp [hFits, hMsb, hSign, hNegative]
    · have hWrapped : FitsSigned n (r - 2 ^ n) := by
        simp only [FitsSigned] at hFits ⊢
        omega
      have hMsb := msb_ofInt_of_fitsSigned hn hWrapped
      have hSign : r - 2 ^ n < 0 := by omega
      rw [ofInt_sub_two_pow] at hMsb
      simp [hFits, hMsb, hSign, hPositive]

/-- The sign of the exact result is the top bit, corrected by the overflow. -/
theorem msb_ofInt_bne_signedMisfit (hn : 0 < n) {r : Int} (hLeast : -2 ^ n ≤ r)
    (hMost : r < 2 ^ n) :
    ((BitVec.ofInt n r).msb != decide (¬ FitsSigned n r)) = decide (r < 0) := by
  rw [signedMisfit_eq hn hLeast hMost]
  generalize (BitVec.ofInt n r).msb = top
  cases top <;> cases decide (r < 0) <;> rfl

variable (x y : BitVec n) (c : Bool)

theorem sum_eq_ofInt_toNat :
    x + y + BitVec.ofNat n c.toNat = BitVec.ofInt n (x.toNat + y.toNat + c.toNat) := by
  simp [BitVec.ofInt_add]

theorem sum_eq_ofInt_toInt :
    x + y + BitVec.ofNat n c.toNat = BitVec.ofInt n (x.toInt + y.toInt + c.toNat) := by
  simp [BitVec.ofInt_add]

/-- A carry from the low `k` bits. -/
theorem carry_eq_misfit (k : Nat) : BitVec.carry k x y c =
    decide (¬ FitsUnsigned k ((x.toNat % 2 ^ k : Nat) + (y.toNat % 2 ^ k : Nat) + c.toNat)) := by
  have hPower : ((2 ^ k : Nat) : Int) = 2 ^ k := by norm_cast
  rw [BitVec.carry, decide_eq_decide]
  simp only [FitsUnsigned]
  omega

theorem carry_width_eq_misfit :
    BitVec.carry n x y c = decide (¬ FitsUnsigned n (x.toNat + y.toNat + c.toNat)) := by
  rw [carry_eq_misfit, Nat.mod_eq_of_lt x.isLt, Nat.mod_eq_of_lt y.isLt]

theorem toInt_sum_bounds (hn : 0 < n) :
    -2 ^ n ≤ x.toInt + y.toInt + c.toNat ∧ x.toInt + y.toInt + c.toNat < 2 ^ n := by
  have hDouble := two_pow_eq_double hn
  have hCarry := c.toNat_le
  have hx := And.intro x.le_toInt x.toInt_lt
  have hy := And.intro y.le_toInt y.toInt_lt
  omega

/-- Overflow of a sum: both operands have the sign that the result has not. -/
theorem sum_overflow_eq_misfit (hn : 0 < n) :
    (x.msb == y.msb && x.msb != (x + y + BitVec.ofNat n c.toNat).msb) =
      decide (¬ FitsSigned n (x.toInt + y.toInt + c.toNat)) := by
  have hBounds := toInt_sum_bounds x y c hn
  have hCarry := c.toNat_le
  rw [x.msb_eq_toInt, y.msb_eq_toInt, sum_eq_ofInt_toInt]
  by_cases hSame : x.toInt < 0 ↔ y.toInt < 0
  · have hSum : decide (x.toInt + y.toInt + c.toNat < 0) = decide (y.toInt < 0) := by
      rw [decide_eq_decide]
      omega
    rw [signedMisfit_eq hn hBounds.1 hBounds.2, hSum, decide_eq_decide.2 hSame,
      beq_self_eq_true, Bool.true_and, bne_comm]
  · have hFits : FitsSigned n (x.toInt + y.toInt + c.toNat) := by
      have hx := And.intro x.le_toInt x.toInt_lt
      have hy := And.intro y.le_toInt y.toInt_lt
      simp only [FitsSigned]
      omega
    simp [hFits, hSame]

theorem ofInt_sub (a b : Int) : BitVec.ofInt n (a - b) = BitVec.ofInt n a - BitVec.ofInt n b := by
  rw [Int.sub_eq_add_neg, BitVec.ofInt_add, BitVec.ofInt_neg, BitVec.sub_eq_add_neg]

theorem difference_eq_ofInt_toNat :
    x - y - BitVec.ofNat n c.toNat = BitVec.ofInt n (x.toNat - y.toNat - c.toNat) := by
  simp [ofInt_sub]

theorem difference_eq_ofInt_toInt :
    x - y - BitVec.ofNat n c.toNat = BitVec.ofInt n (x.toInt - y.toInt - c.toNat) := by
  simp [ofInt_sub]

theorem residue_sub_eq_zero_iff : residue n (x.toNat - y.toNat) = 0 ↔ x = y := by
  have hResult : BitVec.ofInt n (x.toNat - y.toNat) = x - y := by
    simpa using (difference_eq_ofInt_toNat x y false).symm
  rw [← toNat_ofInt_eq_residue, hResult]
  constructor
  · intro hZero
    have hDifference : x - y = 0 := BitVec.eq_of_toNat_eq (by simpa using hZero)
    rw [← BitVec.sub_add_cancel x y, hDifference]
    simp
  · rintro rfl
    simp

/-- A borrow of the low `k` bits. -/
theorem borrow_eq_misfit (k : Nat) :
    decide (x.toNat % 2 ^ k < y.toNat % 2 ^ k + c.toNat) =
    decide (¬ FitsUnsigned k ((x.toNat % 2 ^ k : Nat) - (y.toNat % 2 ^ k : Nat) - c.toNat)) := by
  have hPower : ((2 ^ k : Nat) : Int) = 2 ^ k := by norm_cast
  have hx := Nat.mod_lt x.toNat (Nat.two_pow_pos k)
  rw [decide_eq_decide]
  simp only [FitsUnsigned]
  omega

theorem borrow_width_eq_misfit :
    decide (x.toNat < y.toNat + c.toNat) =
      decide (¬ FitsUnsigned n (x.toNat - y.toNat - c.toNat)) := by
  have h := borrow_eq_misfit x y c n
  rwa [Nat.mod_eq_of_lt x.isLt, Nat.mod_eq_of_lt y.isLt] at h

theorem toInt_difference_bounds (hn : 0 < n) :
    -2 ^ n ≤ x.toInt - y.toInt - c.toNat ∧ x.toInt - y.toInt - c.toNat < 2 ^ n := by
  have hDouble := two_pow_eq_double hn
  have hBorrow := c.toNat_le
  have hx := And.intro x.le_toInt x.toInt_lt
  have hy := And.intro y.le_toInt y.toInt_lt
  omega

/-- Overflow of a difference: the operands differ in sign and the result has the sign of the
second. -/
theorem difference_overflow_eq_misfit (hn : 0 < n) :
    (x.msb != y.msb && x.msb != (x - y - BitVec.ofNat n c.toNat).msb) =
      decide (¬ FitsSigned n (x.toInt - y.toInt - c.toNat)) := by
  have hBounds := toInt_difference_bounds x y c hn
  have hBorrow := c.toNat_le
  rw [x.msb_eq_toInt, y.msb_eq_toInt, difference_eq_ofInt_toInt]
  by_cases hSame : x.toInt < 0 ↔ y.toInt < 0
  · have hFits : FitsSigned n (x.toInt - y.toInt - c.toNat) := by
      have hx := And.intro x.le_toInt x.toInt_lt
      have hy := And.intro y.le_toInt y.toInt_lt
      simp only [FitsSigned]
      omega
    simp [hFits, hSame]
  · have hDifference : decide (x.toInt - y.toInt - c.toNat < 0) = decide (x.toInt < 0) := by
      rw [decide_eq_decide]
      omega
    have hDiffer : (decide (x.toInt < 0) != decide (y.toInt < 0)) = true := by
      simpa using hSame
    rw [signedMisfit_eq hn hBounds.1 hBounds.2, hDifference, hDiffer, Bool.true_and, bne_comm]

end VintageUnix
