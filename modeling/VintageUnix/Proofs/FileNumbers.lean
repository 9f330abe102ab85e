import Mathlib.Algebra.Group.Nat.Defs
import VintageUnix.Proofs.SegmentFilling

/-! The numbers of a file, which have their low byte first. None of them is cut when it is read as
a word or a double word, and a word is read as it was written. -/
namespace VintageUnix

theorem Word.toNat_low (w : UInt16) : (low w).toNat = w.toNat % 256 :=
  BitVec.toNat_setWidth 8 w.toBitVec

theorem Word.toNat_high (w : UInt16) : (high w).toNat = w.toNat / 256 := by
  have hWord := w.toNat_lt
  change (w.toBitVec >>> 8).toNat % 256 = _
  rw [BitVec.toNat_ushiftRight, Nat.shiftRight_eq_div_pow]
  change w.toNat / 256 % 256 = _
  omega

theorem fileNumber_lt (bytes : List UInt8) (offset count : Nat) :
    fileNumber bytes offset count < 256 ^ count := by
  induction count generalizing offset with
  | zero => exact Nat.one_pos
  | succ count ih =>
      have hByte := (fileByte bytes offset).toNat_lt
      have hRest := ih (offset + 1)
      change (fileByte bytes offset).toNat + 256 * fileNumber bytes (offset + 1) count < _
      rw [pow_succ]
      omega

@[simp] theorem toNat_fileLong (bytes : List UInt8) (offset : Nat) :
    (fileLong bytes offset).toNat = fileNumber bytes offset 4 :=
  UInt32.toNat_ofNat_of_lt' (fileNumber_lt bytes offset 4)

theorem toNat_fileWord (bytes : List UInt8) (offset : Nat) :
    (fileWord bytes offset).toNat =
      (fileByte bytes offset).toNat + 256 * (fileByte bytes (offset + 1)).toNat :=
  UInt16.toNat_ofNat_of_lt' (fileNumber_lt bytes offset 2)

/-- A word has the bytes that make it up, and no others. -/
theorem fileWord_eq_iff (bytes : List UInt8) (offset : Nat) (w : UInt16) :
    fileWord bytes offset = w ↔
      fileByte bytes offset = Word.low w ∧ fileByte bytes (offset + 1) = Word.high w := by
  have hLow := (fileByte bytes offset).toNat_lt
  rw [← UInt16.toNat_inj, ← UInt8.toNat_inj, ← UInt8.toNat_inj, toNat_fileWord, Word.toNat_low,
    Word.toNat_high]
  omega

theorem fileByte_append (front rest : List UInt8) (i : Nat) :
    fileByte (front ++ rest) i =
      if i < front.length then fileByte front i else fileByte rest (i - front.length) := by
  simp only [fileByte, List.getElem?_append]
  split <;> rfl

theorem fileByte_replicate_zero (count i : Nat) : fileByte (List.replicate count 0) i = 0 := by
  rw [fileByte, List.getElem?_replicate]
  split <;> rfl

theorem length_flatMap_toBytes (words : List UInt16) :
    (words.flatMap Word.toBytes).length = 2 * words.length := by
  induction words with
  | nil => rfl
  | cons w words ih =>
      rw [List.flatMap_cons, List.length_append, ih, List.length_cons, Nat.mul_succ, Nat.add_comm]
      rfl

/-- Words that a file starts with are found at even offsets. -/
theorem fileWord_flatMap_toBytes {words : List UInt16} (rest : List UInt8) {i : Nat}
    (h : i < words.length) : fileWord (words.flatMap Word.toBytes ++ rest) (2 * i) = words[i] := by
  rw [fileWord_eq_iff]
  induction words generalizing i with
  | nil => exact absurd h (Nat.not_lt_zero i)
  | cons w words ih =>
      cases i with
      | zero => exact ⟨rfl, rfl⟩
      | succ i => exact ih (Nat.lt_of_succ_lt_succ h)

end VintageUnix
