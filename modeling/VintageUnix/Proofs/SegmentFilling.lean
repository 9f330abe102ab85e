import VintageUnix.Image.Basic
import VintageUnix.Proofs.StringsInMemory

/-! How a segment is filled from a file. The bytes that are placed are those of the file, and
zeros where the file has ended; what would lie past the end of the segment is cut off. Done with
slices that are checked, the same copy never leaves the file nor the segment. -/
namespace VintageUnix

/-- The byte at a place of a file. Behind its end a file reads as zeros. -/
def fileByte (bytes : List UInt8) (place : Nat) : UInt8 :=
  bytes[place]?.getD 0

theorem getElem?_filePart (bytes : List UInt8) (offset length i : Nat) :
    (filePart bytes offset length)[i]? = if i < length then bytes[offset + i]? else none := by
  rw [filePart, List.getElem?_take, List.getElem?_drop]

/-- The bytes from `first` up to `last`, if the buffer has all of them. -/
def slice? (bytes : List UInt8) (first last : Nat) : Option (List UInt8) :=
  if first ≤ last ∧ last ≤ bytes.length then some ((bytes.take last).drop first) else none

theorem slice?_front {bytes : List UInt8} {count : Nat} (h : count ≤ bytes.length) :
    slice? bytes 0 count = some (bytes.take count) := by
  rw [slice?, if_pos ⟨Nat.zero_le _, h⟩, List.drop_zero]

/-- A slice up to the end is empty or missing if it starts behind the end. -/
theorem getD_slice?_end (bytes : List UInt8) (offset : Nat) :
    (slice? bytes offset bytes.length).getD [] = bytes.drop offset := by
  unfold slice?
  split
  · rw [Option.getD_some, List.take_length]
  · rw [Option.getD_none, List.drop_of_length_le (by omega)]

namespace Segment

/-- Bytes that do not wrap are found where they are written, and the others are kept. -/
theorem get_write (s : Segment) {position : Nat} {bytes : List UInt8}
    (hFits : position + bytes.length ≤ segmentSize) (address : UInt16) :
    (s.write (.ofNat position) bytes).get address =
      if position ≤ address.toNat then bytes[address.toNat - position]?.getD (s.get address)
      else s.get address := by
  by_cases hInside : position ≤ address.toNat ∧ address.toNat < position + bytes.length
  · obtain ⟨i, hi⟩ := Nat.exists_eq_add_of_le hInside.1
    have hLess : i < bytes.length := by omega
    have hByte := AddressSpace.byte_write { layout := .shared s } (.ofNat position)
      (by omega) hLess
    rw [← UInt16.ofNat_add, ← hi, UInt16.ofNat_toNat] at hByte
    rw [if_pos hInside.1, hi, Nat.add_sub_cancel_left, List.getElem?_eq_getElem hLess]
    exact hByte
  · rw [AddressSpace.get_write_of_not_mem _ _ _ _ (by rwa [Region.mem_ofNat hFits])]
    split
    · rw [List.getElem?_eq_none (by omega), Option.getD_none]
    · rfl

theorem get_place (s : Segment) {position : Nat} (hPosition : position ≤ segmentSize)
    (bytes : List UInt8) (address : UInt16) :
    (s.place position bytes).get address =
      if position ≤ address.toNat then bytes[address.toNat - position]?.getD (s.get address)
      else s.get address := by
  have hInside := toNat_lt_segmentSize address
  have hFits : position + (bytes.take (segmentSize - position)).length ≤ segmentSize := by
    rw [List.length_take]
    omega
  rw [place, get_write s hFits]
  split
  · rw [List.getElem?_take, if_pos (by omega)]
  · rfl

/-- A segment that is zero from the position on then has the bytes of the file there, and zeros
behind them. -/
theorem get_place_filePart (s : Segment) {position offset length : Nat}
    (hPosition : position ≤ segmentSize) (bytes : List UInt8) (address : UInt16)
    (hZero : position ≤ address.toNat → s.get address = 0) :
    (s.place position (filePart bytes offset length)).get address =
      if position ≤ address.toNat then
        if address.toNat < position + length then
          fileByte bytes (offset + (address.toNat - position))
        else 0
      else s.get address := by
  rw [get_place s hPosition]
  split
  next hBehind =>
    have hLess : address.toNat - position < length ↔ address.toNat < position + length := by omega
    simp only [getElem?_filePart, hZero hBehind, hLess, fileByte]
    split <;> rfl
  next => rfl

/-- A segment with the bytes of a list of its size reads as the list. -/
theorem read_eq_of_get {s : Segment} {bytes : List UInt8}
    (hLength : bytes.length = segmentSize) (h : ∀ i, s.get i = fileByte bytes i.toNat) :
    s.read 0 segmentSize = bytes := by
  have hRead (count first : Nat) (hEnd : first + count = segmentSize) :
      s.read (.ofNat first) count = bytes.drop first := by
    induction count generalizing first with
    | zero => rw [List.drop_of_length_le (by omega), read]
    | succ count ih =>
        have hFirst : first < bytes.length := by omega
        have hRest := ih (first + 1) (by omega)
        have hByte := h (.ofNat first)
        rw [UInt16.ofNat_add] at hRest
        rw [UInt16.toNat_ofNat_of_lt' (Nat.lt_of_lt_of_eq hFirst hLength), fileByte,
          List.getElem?_eq_getElem hFirst, Option.getD_some] at hByte
        rw [List.drop_eq_getElem_cons hFirst]
        exact congrArg₂ List.cons hByte hRest
  exact hRead segmentSize 0 (Nat.zero_add _)

/-- The segment with the bytes from `first` up to `last` replaced, if it has such bytes and
there are as many new ones. -/
def replace? (s : Segment) (first last : Nat) (bytes : List UInt8) : Option Segment :=
  if first ≤ last ∧ last ≤ segmentSize ∧ bytes.length = last - first then
    some (s.write (.ofNat first) bytes)
  else none

/-- Fill a segment from a file with slices that are checked. A file that ends before the offset
counts as empty; the count is cut to what the file has left and to what the segment has room
for. -/
def fill? (s : Segment) (position : Nat) (bytes : List UInt8) (offset length : Nat) :
    Option Segment := do
  let source := (slice? bytes offset bytes.length).getD []
  let count := min length (min source.length (segmentSize - position))
  let part ← slice? source 0 count
  s.replace? position (position + count) part

/-- No slice is out of bounds as long as the position is not. -/
theorem fill?_eq (s : Segment) {position : Nat} (hPosition : position ≤ segmentSize)
    (bytes : List UInt8) (offset length : Nat) :
    s.fill? position bytes offset length =
      some (s.place position (filePart bytes offset length)) := by
  obtain ⟨count, hCount⟩ :
      ∃ count, count = min length (min (bytes.drop offset).length (segmentSize - position)) :=
    ⟨_, rfl⟩
  have hCut : (filePart bytes offset length).take (segmentSize - position) =
      (bytes.drop offset).take count := by
    rw [filePart, List.take_take, List.take_eq_take_iff]
    omega
  have hLength : ((bytes.drop offset).take count).length = position + count - position := by
    rw [List.length_take]
    omega
  simp only [fill?, getD_slice?_end, ← hCount]
  rw [slice?_front (by omega)]
  change s.replace? position (position + count) _ = _
  rw [replace?, if_pos ⟨by omega, by omega, hLength⟩, place, hCut]

/-- The segment has `length` bytes of the file from the offset on at its start and zeros behind
them, and copying them takes no slice out of bounds. -/
structure FilledFrom (bytes : List UInt8) (offset length : Nat) (s : Segment) : Prop where
  get : ∀ i, s.get i = if i.toNat < length then fileByte bytes (offset + i.toNat) else 0
  inBounds : zero.fill? 0 bytes offset length = some s

theorem filledFrom (bytes : List UInt8) (offset length : Nat) :
    FilledFrom bytes offset length (zero.place 0 (filePart bytes offset length)) where
  get i := by
    rw [get_place_filePart zero (Nat.zero_le _) bytes i fun _ => get_zero i,
      if_pos (Nat.zero_le _), Nat.zero_add, Nat.sub_zero]
  inBounds := fill?_eq zero (Nat.zero_le _) bytes offset length

end Segment
end VintageUnix
