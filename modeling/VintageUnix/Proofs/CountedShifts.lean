import VintageUnix.Proofs.ExactResults

/-! Shifts and rotations by a count, which are as many by one place. The processors repeat one step,
with the bit that it moves out of the value beside it, so what holds of a step is shown here for
words of any width. -/
namespace VintageUnix

/-- If each step turns what is seen of a state by one place, `k` steps turn it by `k` places. -/
theorem view_repeat {σ τ : Type} {step : σ → σ} (view : σ → τ) (turn : Nat → τ → τ)
    (hZero : ∀ t, turn 0 t = t) (hSucc : ∀ k t, turn (k + 1) t = turn 1 (turn k t))
    (hStep : ∀ s, view (step s) = turn 1 (view s)) (k : Nat) (s : σ) :
    view (Nat.repeat step k s) = turn k (view s) := by
  induction k with
  | zero => exact (hZero _).symm
  | succ k ih => rw [Nat.repeat, hStep, ih, ← hSucc]

variable {n : Nat} (x : BitVec n) (c : Bool)

theorem rotateLeft_add (j k : Nat) : x.rotateLeft (j + k) = (x.rotateLeft j).rotateLeft k := by
  refine BitVec.eq_of_getMsbD_eq fun i hi => ?_
  have hn : 0 < n := by omega
  have hIndex : (j + (k + i) % n) % n = (j + k + i) % n := by
    rw [Nat.add_mod_mod, Nat.add_assoc]
  simp only [BitVec.getMsbD_rotateLeft, hi, Nat.mod_lt _ hn, hIndex, decide_true, Bool.true_and]

theorem rotateRight_eq_rotateLeft (k : Nat) : x.rotateRight k = x.rotateLeft (n - k % n) := by
  refine BitVec.eq_of_getMsbD_eq fun i hi => ?_
  have hk := Nat.mod_lt k (show 0 < n by omega)
  have hIndex : (n - k % n + i) % n = if i < k % n then (n + i - k % n) % n else i - k % n := by
    split
    · congr 1
      omega
    · have hWrap : n - k % n + i = i - k % n + n := by omega
      rw [hWrap, Nat.add_mod_right, Nat.mod_eq_of_lt (by omega)]
  simp only [BitVec.getMsbD_rotateLeft, BitVec.getMsbD_rotateRight, hi, hIndex, decide_true,
    Bool.true_and]
  split <;> rfl

theorem rotateLeft_zero : x.rotateLeft 0 = x := by
  simp [BitVec.rotateLeft_def, BitVec.ushiftRight_eq_zero]

theorem rotateRight_zero : x.rotateRight 0 = x := by
  simp [BitVec.rotateRight_def, BitVec.shiftLeft_eq_zero]

/-- All the way around is not at all. -/
theorem rotateLeft_width : x.rotateLeft n = x := by
  rw [← BitVec.rotateLeft_mod_eq_rotateLeft, Nat.mod_self, rotateLeft_zero]

theorem rotateRight_rotateLeft (hn : 0 < n) (k : Nat) : (x.rotateLeft k).rotateRight k = x := by
  have hAround : k % n + (n - k % n) = n := Nat.add_sub_of_le (Nat.le_of_lt (Nat.mod_lt k hn))
  rw [rotateRight_eq_rotateLeft, ← BitVec.rotateLeft_mod_eq_rotateLeft (r := k), ← rotateLeft_add,
    hAround, rotateLeft_width]

theorem rotateLeft_rotateRight (hn : 0 < n) (k : Nat) : (x.rotateRight k).rotateLeft k = x := by
  have hAround : n - k % n + k % n = n := Nat.sub_add_cancel (Nat.le_of_lt (Nat.mod_lt k hn))
  rw [rotateRight_eq_rotateLeft, ← BitVec.rotateLeft_mod_eq_rotateLeft (r := k), ← rotateLeft_add,
    hAround, rotateLeft_width]

theorem rotateRight_add (hn : 0 < n) (j k : Nat) :
    x.rotateRight (j + k) = (x.rotateRight j).rotateRight k := by
  have hBack : (x.rotateRight (j + k)).rotateLeft k = x.rotateRight j := by
    rw [← rotateRight_rotateLeft ((x.rotateRight (j + k)).rotateLeft k) hn j, ← rotateLeft_add,
      Nat.add_comm k j, rotateLeft_rotateRight x hn]
  rw [← hBack, rotateRight_rotateLeft _ hn]

/-- The bit that leaves the top comes in at the bottom. -/
theorem getLsbD_zero_rotateLeft_one (hn : 1 < n) : (x.rotateLeft 1).getLsbD 0 = x.msb := by
  rw [BitVec.getLsbD_rotateLeft, Nat.mod_eq_of_lt hn, BitVec.msb_eq_getLsbD_last]
  rfl

/-- The bit that leaves the bottom comes in at the top. -/
theorem msb_rotateRight_one (hn : 1 < n) : (x.rotateRight 1).msb = x.getLsbD 0 := by
  have hLast : n - 1 - (n - 1) = 0 := by omega
  have hBelow : n - 1 < n := by omega
  rw [BitVec.msb_rotateRight, Nat.mod_eq_of_lt hn, Nat.mod_eq_of_lt hBelow,
    BitVec.getMsbD_eq_getLsbD, hLast, decide_eq_true hBelow, Bool.true_and]

/-- A rotation through the carry turns the two as one word with the carry on top. -/
theorem cons_rotateLeft (hn : 0 < n) :
    (BitVec.cons c x).rotateLeft 1 =
      BitVec.cons x.msb ((x <<< 1) ||| BitVec.ofNat n c.toNat) := by
  have hOne : 1 % (n + 1) = 1 := Nat.mod_eq_of_lt (by omega)
  refine BitVec.eq_of_getLsbD_eq fun i hi => ?_
  have hCarry : (BitVec.ofNat n c.toNat).getLsbD i = (decide (i = 0) && c) := by
    rw [BitVec.getLsbD_ofNat, Nat.testBit_bool_toNat]
    grind
  simp only [BitVec.getLsbD_rotateLeft, hOne, BitVec.getLsbD_cons, BitVec.getLsbD_or,
    BitVec.getLsbD_shiftLeft, hCarry, BitVec.msb_eq_getLsbD_last]
  grind

theorem cons_rotateRight (hn : 0 < n) :
    (BitVec.cons c x).rotateRight 1 =
      BitVec.cons (x.getLsbD 0) ((x >>> 1) ||| if c then BitVec.intMin n else 0) := by
  have hOne : 1 % (n + 1) = 1 := Nat.mod_eq_of_lt (by omega)
  refine BitVec.eq_of_getLsbD_eq fun i hi => ?_
  have hTop : (if c then BitVec.intMin n else 0).getLsbD i = (decide (i + 1 = n) && c) := by
    cases c <;> simp [BitVec.getLsbD_intMin]
  simp only [BitVec.getLsbD_rotateRight, hOne, BitVec.getLsbD_cons, BitVec.getLsbD_or,
    BitVec.getLsbD_ushiftRight, hTop]
  grind

theorem cons_inj {a b : Bool} {y : BitVec n} (h : BitVec.cons a x = BitVec.cons b y) :
    a = b ∧ x = y := by
  constructor
  · simpa using congrArg BitVec.msb h
  · refine BitVec.eq_of_getLsbD_eq fun i hi => ?_
    have hBit := congrArg (·.getLsbD i) h
    simpa [BitVec.getLsbD_cons, Nat.ne_of_lt hi] using hBit

theorem toInt_emod_two (hn : 0 < n) : x.toInt % 2 = (x.getLsbD 0).toNat := by
  obtain ⟨k, rfl⟩ := Nat.exists_eq_add_one_of_ne_zero (Nat.pos_iff_ne_zero.1 hn)
  have hBit : (x.getLsbD 0).toNat = x.toNat % 2 := by
    rw [BitVec.getLsbD, Nat.testBit_zero]
    rcases Nat.mod_two_eq_zero_or_one x.toNat with hEven | hOdd
    · simp [hEven]
    · simp [hOdd]
  rw [hBit, BitVec.toInt_eq_msb_cond, Nat.pow_succ]
  split <;> omega

/-- An arithmetic shift to the right divides, rounding down. -/
theorem toInt_sshiftRight (k : Nat) : (x.sshiftRight k).toInt = x.toInt / 2 ^ k := by
  rw [BitVec.toInt_sshiftRight, Int.shiftRight_eq_div_pow]
  norm_cast

/-- A shift to the left multiplies, as far as the product fits. -/
theorem shiftLeft_eq_ofInt (k : Nat) : x <<< k = BitVec.ofInt n (x.toInt * 2 ^ k) := by
  rw [BitVec.ofInt_mul, BitVec.ofInt_toInt, BitVec.shiftLeft_eq_mul_twoPow]
  congr 1
  refine BitVec.eq_of_toNat_eq ?_
  rw [toNat_ofInt_eq_residue, residue, BitVec.toNat_twoPow]
  norm_cast

/-- A shift to the left by one changes the sign exactly if the double does not fit. -/
theorem msb_shiftLeft_one_bne (hn : 0 < n) :
    ((x <<< 1).msb != x.msb) = decide (¬ FitsSigned n (x.toInt * 2)) := by
  have hDouble := two_pow_eq_double hn
  have hFits := fitsSigned_toInt x
  simp only [FitsSigned] at hFits
  have hSign : x.msb = decide (x.toInt * 2 < 0) := by
    rw [BitVec.msb_eq_toInt, decide_eq_decide]
    omega
  rw [signedMisfit_eq hn (by omega) (by omega), shiftLeft_eq_ofInt, hSign, Int.pow_one]

/-- The top bit after a shift to the left is the next one to be moved out. -/
theorem msb_shiftLeft (k : Nat) : (x <<< k).msb = (decide (k < n) && x.getLsbD (n - (k + 1))) := by
  rw [BitVec.msb_shiftLeft, BitVec.getMsbD_eq_getLsbD, Nat.sub_sub, Nat.add_comm 1 k]

end VintageUnix
