import Mathlib.Algebra.Order.Ring.Abs
import Mathlib.Algebra.Order.Ring.Int
import VintageUnix.Proofs.ExactResults

/-! Products and quotients of words beside those of the integers that the words stand for. A product
always fits in double width, and whether its upper half is needed shows in the lower. A quotient
is rounded toward zero, and the remainder has the sign of the dividend. -/
namespace VintageUnix

theorem setWidth_ofInt {m n : Nat} (h : n ≤ m) (r : Int) :
    (BitVec.ofInt m r).setWidth n = BitVec.ofInt n r := by
  have hPower : ((2 ^ n : Int)).toNat = 2 ^ n := by norm_cast
  have hDvd : (2 ^ n : Int) ∣ 2 ^ m := pow_dvd_pow 2 h
  have hLeast : 0 ≤ r % 2 ^ m := Int.emod_nonneg r (Int.pow_ne_zero (by decide))
  refine BitVec.eq_of_toNat_eq ?_
  rw [BitVec.toNat_setWidth, toNat_ofInt_eq_residue, toNat_ofInt_eq_residue, residue, residue,
    ← Int.emod_emod_of_dvd r hDvd, Int.toNat_emod hLeast (Int.le_of_lt (Int.pow_pos (by decide))),
    hPower]

/-- How a word is read as an integer. -/
inductive Reading where
  | unsigned
  | signed
  deriving DecidableEq, Repr

namespace Reading

variable {n : Nat}

def value (reading : Reading) (x : BitVec n) : Int :=
  match reading with
  | .unsigned => x.toNat
  | .signed => x.toInt

/-- The integer is the value of a word of `n` bits. -/
def Fits (reading : Reading) (n : Nat) (r : Int) : Prop :=
  match reading with
  | .unsigned => FitsUnsigned n r
  | .signed => FitsSigned n r

instance (reading : Reading) (n : Nat) (r : Int) : Decidable (reading.Fits n r) :=
  match reading with
  | .unsigned => inferInstanceAs (Decidable (FitsUnsigned n r))
  | .signed => inferInstanceAs (Decidable (FitsSigned n r))

/-- The word in a greater width. -/
def extend (reading : Reading) (m : Nat) (x : BitVec n) : BitVec m :=
  match reading with
  | .unsigned => x.setWidth m
  | .signed => x.signExtend m

variable (reading : Reading)

theorem fits_value (x : BitVec n) : reading.Fits n (reading.value x) := by
  cases reading with
  | unsigned => exact fitsUnsigned_toNat x
  | signed => exact fitsSigned_toInt x

theorem value_ofInt (hn : 0 < n) {r : Int} (h : reading.Fits n r) :
    reading.value (BitVec.ofInt n r) = r := by
  cases reading with
  | unsigned =>
      obtain ⟨hLeast, hMost⟩ := h
      have hSame : ((residue n r : Nat) : Int) = r := by
        rw [residue, Int.emod_eq_of_lt hLeast hMost, Int.toNat_of_nonneg hLeast]
      exact (congrArg Nat.cast (toNat_ofInt_eq_residue r)).trans hSame
  | signed => exact BitVec.toInt_ofInt_eq_self hn h.1 h.2

theorem value_ofInt_eq_iff (hn : 0 < n) (r : Int) :
    reading.value (BitVec.ofInt n r) = r ↔ reading.Fits n r := by
  refine ⟨fun hSame => ?_, reading.value_ofInt hn⟩
  rw [← hSame]
  exact reading.fits_value _

theorem ofInt_value (x : BitVec n) : BitVec.ofInt n (reading.value x) = x := by
  cases reading with
  | unsigned => simp [value]
  | signed => exact BitVec.ofInt_toInt

theorem value_inj {x y : BitVec n} : reading.value x = reading.value y ↔ x = y := by
  cases reading with
  | unsigned => exact Int.natCast_inj.trans BitVec.toNat_inj
  | signed => exact BitVec.toInt_inj

theorem value_eq_zero_iff (x : BitVec n) : reading.value x = 0 ↔ x = 0 := by
  have hZero : reading.value (0 : BitVec n) = 0 := by cases reading <;> simp [value]
  rw [← hZero, value_inj]

theorem value_extend {m : Nat} (h : n ≤ m) (x : BitVec n) :
    reading.value (reading.extend m x) = reading.value x := by
  cases reading with
  | unsigned => exact congrArg Nat.cast (BitVec.toNat_setWidth_of_le h)
  | signed => exact BitVec.toInt_signExtend_of_le h

theorem fits_mul (hn : 0 < n) {a b : Int} (ha : reading.Fits n a) (hb : reading.Fits n b) :
    reading.Fits (n + n) (a * b) := by
  cases reading with
  | unsigned =>
      refine ⟨Int.mul_nonneg ha.1 hb.1, ?_⟩
      rw [Int.pow_add]
      exact mul_lt_mul'' ha.2 hb.2 ha.1 hb.1
  | signed =>
      have hPower : (2 : Int) ^ (n + n - 1) = 2 * (2 ^ (n - 1) * 2 ^ (n - 1)) := by
        have hDouble := two_pow_eq_double (n := n + n - 1) (by omega)
        have hExponent : n + n - 1 - 1 = n - 1 + (n - 1) := by omega
        rw [hDouble, hExponent, Int.pow_add]
      have hHalf : (0 : Int) < 2 ^ (n - 1) := Int.pow_pos (by decide)
      have hPositive := Int.mul_pos hHalf hHalf
      have hProduct : |a * b| ≤ 2 ^ (n - 1) * 2 ^ (n - 1) := by
        rw [abs_mul]
        exact mul_le_mul (abs_le.2 ⟨ha.1, Int.le_of_lt ha.2⟩) (abs_le.2 ⟨hb.1, Int.le_of_lt hb.2⟩)
          (abs_nonneg b) (Int.le_of_lt hHalf)
      obtain ⟨hLeast, hMost⟩ := abs_le.1 hProduct
      exact ⟨by omega, by omega⟩

/-- The product of two words in double width. -/
def product (x y : BitVec n) : BitVec (n + n) :=
  reading.extend (n + n) x * reading.extend (n + n) y

theorem product_eq_ofInt (x y : BitVec n) :
    reading.product x y = BitVec.ofInt (n + n) (reading.value x * reading.value y) := by
  have hWidth : n ≤ n + n := Nat.le_add_right n n
  rw [BitVec.ofInt_mul, ← reading.value_extend hWidth x, ← reading.value_extend hWidth y,
    ofInt_value, ofInt_value, product]

theorem value_product (hn : 0 < n) (x y : BitVec n) :
    reading.value (reading.product x y) = reading.value x * reading.value y := by
  rw [product_eq_ofInt]
  exact reading.value_ofInt (by omega) (reading.fits_mul hn (reading.fits_value x)
    (reading.fits_value y))

/-- The upper half of a word is needed exactly if the lower has another value. -/
theorem bne_extend_eq (v : BitVec (n + n)) :
    (v != reading.extend (n + n) (v.setWidth n)) =
      decide (reading.value (v.setWidth n) ≠ reading.value v) := by
  have hSame : reading.value (v.setWidth n) = reading.value v ↔
      v = reading.extend (n + n) (v.setWidth n) := by
    rw [← reading.value_extend (Nat.le_add_right n n), reading.value_inj, eq_comm]
  rw [bne, beq_eq_decide, ← decide_not, decide_eq_decide]
  exact not_congr hSame.symm

end Reading

/-- A word of double width is put together from its halves. -/
theorem append_halves {n : Nat} (v : BitVec (n + n)) :
    (v >>> n).setWidth n ++ v.setWidth n = v := by
  refine BitVec.eq_of_getLsbD_eq fun i hi => ?_
  simp only [BitVec.getLsbD_append, BitVec.getLsbD_setWidth, BitVec.getLsbD_ushiftRight]
  grind

/-- The division of `a` by `b` with the quotient `q`, rounded toward zero, and the remainder `r`. -/
structure TruncatedDivision (a b q r : Int) : Prop where
  exact : a = q * b + r
  small : r.natAbs < b.natAbs
  sign : r = 0 ∨ r.sign = a.sign

theorem truncatedDivision_tdiv (a : Int) {b : Int} (hb : b ≠ 0) :
    TruncatedDivision a b (a.tdiv b) (a.tmod b) where
  exact := (Int.tdiv_mul_add_tmod a b).symm
  small := by
    rw [Int.natAbs_tmod]
    exact Nat.mod_lt _ (Int.natAbs_pos.2 hb)
  sign := by
    by_cases hDvd : b ∣ a
    · exact .inl (Int.tmod_eq_zero_of_dvd hDvd)
    · exact .inr ((Int.sign_tmod a b).trans (if_neg hDvd))

namespace TruncatedDivision

variable {a b q r : Int}

/-- The remainder is on the same side of zero as the dividend. -/
theorem side (h : TruncatedDivision a b q r) : (0 ≤ a → 0 ≤ r) ∧ (a ≤ 0 → r ≤ 0) := by
  rcases h.sign with rfl | hSign
  · exact ⟨fun _ => Int.le_refl 0, fun _ => Int.le_refl 0⟩
  · have hPositive := Int.sign_nonneg_iff (x := a)
    rw [← hSign, Int.sign_nonneg_iff] at hPositive
    have hNegative := Int.sign_nonpos_iff (x := a)
    rw [← hSign, Int.sign_nonpos_iff] at hNegative
    exact ⟨hPositive.2, hNegative.2⟩

/-- There is only one such division. -/
theorem unique {s t : Int} (h : TruncatedDivision a b q r) (h' : TruncatedDivision a b s t) :
    s = q ∧ t = r := by
  have hSmall := h.small
  have hSmall' := h'.small
  have hSide := h.side
  have hSide' := h'.side
  have hMultiple : (q - s) * b = t - r := by
    rw [Int.sub_mul]
    have := h.exact
    have := h'.exact
    omega
  have hRemainder : t - r = 0 := by
    have hDvd : b ∣ t - r := ⟨q - s, hMultiple.symm.trans (Int.mul_comm _ _)⟩
    exact Int.eq_zero_of_dvd_of_natAbs_lt_natAbs hDvd (by omega)
  have hb : b ≠ 0 := by omega
  rw [hRemainder] at hMultiple
  have hQuotient := (Int.mul_eq_zero.1 hMultiple).resolve_right hb
  omega

theorem iff_tdiv (hb : b ≠ 0) : TruncatedDivision a b q r ↔ q = a.tdiv b ∧ r = a.tmod b := by
  have hDivision := truncatedDivision_tdiv a hb
  refine ⟨fun h => hDivision.unique h, ?_⟩
  rintro ⟨rfl, rfl⟩
  exact hDivision

/-- The remainder fits where the divisor does. -/
theorem fits_remainder {reading : Reading} {m n : Nat} (ha : reading.Fits m a)
    (hb : reading.Fits n b) (h : TruncatedDivision a b q r) : reading.Fits n r := by
  have hSmall := h.small
  cases reading with
  | unsigned =>
      have hSide := h.side.1 ha.1
      obtain ⟨hLeast, hMost⟩ := hb
      exact ⟨hSide, by omega⟩
  | signed =>
      obtain ⟨hLeast, hMost⟩ := hb
      exact ⟨by omega, by omega⟩

end TruncatedDivision
end VintageUnix
