/-! Single bits of a 16-bit word, and the parity of a byte. The status words of both
processors are read and written one bit at a time through `bit` and `putBit`. -/
namespace VintageUnix.Word

/-- The bit of weight `2 ^ i`. -/
def bit (w : UInt16) (i : Nat) : Bool :=
  w.toBitVec.getLsbD i

/-- The word with the bit of weight `2 ^ i` set to `b` and every other bit kept. -/
def putBit (w : UInt16) (i : Nat) (b : Bool) : UInt16 :=
  let mask := BitVec.twoPow 16 i
  ⟨if b then w.toBitVec ||| mask else w.toBitVec &&& ~~~mask⟩

theorem bit_putBit (w : UInt16) {i j : Nat} (b : Bool) (hj : j < 16) :
    bit (putBit w i b) j = if i = j then b else bit w j := by
  unfold bit putBit
  cases b <;> by_cases h : i = j <;>
    simp only [BitVec.getLsbD_or, BitVec.getLsbD_and, BitVec.getLsbD_not, BitVec.getLsbD_twoPow,
      hj, h, decide_true, decide_false, Bool.and_true, Bool.not_true, Bool.not_false,
      Bool.and_false, Bool.or_true, Bool.or_false, Bool.false_eq_true, if_true, if_false]

theorem bit_and (v w : UInt16) (i : Nat) : bit (v &&& w) i = (bit v i && bit w i) := by
  simp [bit]

theorem bit_or (v w : UInt16) (i : Nat) : bit (v ||| w) i = (bit v i || bit w i) := by
  simp [bit]

theorem bit_not (w : UInt16) {i : Nat} (hi : i < 16) : bit (~~~w) i = !bit w i := by
  simp [bit, hi]

/-- Words with the same sixteen bits are the same word. -/
theorem ext_bit {v w : UInt16} (h : ∀ i, i < 16 → bit v i = bit w i) : v = w := by
  apply UInt16.toBitVec_inj.1
  exact BitVec.eq_of_getLsbD_eq h

/-- Putting back the bit that is there changes nothing. -/
theorem putBit_bit_self (w : UInt16) (i : Nat) : putBit w i (bit w i) = w := by
  refine ext_bit fun j hj => ?_
  rw [bit_putBit _ _ hj]
  split
  next hSame => rw [hSame]
  next => rfl

/-- Whether the low eight bits of `v` hold an even number of ones. -/
def evenParity {n : Nat} (v : BitVec n) : Bool :=
  !(List.range 8).foldl (fun odd i => odd ^^ v.getLsbD i) false

/-- The low byte of a word. -/
def low (w : UInt16) : UInt8 :=
  ⟨w.toBitVec.setWidth 8⟩

/-- The high byte of a word. -/
def high (w : UInt16) : UInt8 :=
  ⟨(w.toBitVec >>> 8).setWidth 8⟩

/-- The word with the given low and high byte. -/
def ofBytes (lowByte highByte : UInt8) : UInt16 :=
  ⟨highByte.toBitVec ++ lowByte.toBitVec⟩

/-- The two bytes of a word in memory order, low byte first. -/
def toBytes (w : UInt16) : List UInt8 :=
  [low w, high w]

theorem ofBytes_low_high (w : UInt16) : ofBytes (low w) (high w) = w := by
  apply ext_bit
  intro i hi
  simp only [bit, ofBytes, low, high, BitVec.getLsbD_append, BitVec.getLsbD_setWidth,
    BitVec.getLsbD_ushiftRight]
  split
  · simp [*]
  · have h8 : i - 8 < 8 := by omega
    have hSum : 8 + (i - 8) = i := by omega
    simp [h8, hSum]

theorem low_ofBytes (lowByte highByte : UInt8) : low (ofBytes lowByte highByte) = lowByte := by
  apply UInt8.toBitVec_inj.1
  change (highByte.toBitVec ++ lowByte.toBitVec).setWidth 8 = _
  exact BitVec.setWidth_append_eq_right

theorem high_ofBytes (lowByte highByte : UInt8) : high (ofBytes lowByte highByte) = highByte := by
  apply UInt8.toBitVec_inj.1
  apply BitVec.eq_of_getLsbD_eq
  intro i hi
  simp only [high, ofBytes, BitVec.getLsbD_setWidth, BitVec.getLsbD_ushiftRight,
    BitVec.getLsbD_append]
  simp [hi]

theorem bit_ofBytes_of_le (lowByte highByte : UInt8) {i : Nat} (h : 8 ≤ i) :
    bit (ofBytes lowByte highByte) i = highByte.toBitVec.getLsbD (i - 8) := by
  rw [bit, ofBytes, BitVec.getLsbD_append, if_neg (Nat.not_lt.2 h)]

/-- A byte as a word, its top bit copied into the high byte. -/
def signExtend (b : UInt8) : UInt16 :=
  ⟨b.toBitVec.signExtend 16⟩

end VintageUnix.Word
