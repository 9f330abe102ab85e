import VintageUnix.Image.Minix
import VintageUnix.Proofs.FileNumbers

/-! What is an executable of Minix, and where each of its bytes goes. The header decides alone
whether a file is accepted. Its sizes are numbers of 32 bits and the place where the text starts is
any byte, so the file may end anywhere before what they announce, even before the text. -/
namespace VintageUnix.Minix

/-- The file is long enough for a header and starts like one. -/
def HasHeader (bytes : List UInt8) : Prop :=
  32 ≤ bytes.length ∧ [1, 3] <+: bytes

instance (bytes : List UInt8) : Decidable (HasHeader bytes) :=
  inferInstanceAs (Decidable (_ ∧ _))

/-- The file asks for a segment each for text and data. -/
def AsksForTwo (bytes : List UInt8) : Prop :=
  fileByte bytes 2 &&& 0x20 ≠ 0

instance (bytes : List UInt8) : Decidable (AsksForTwo bytes) :=
  inferInstanceAs (Decidable (¬ _))

def textStart (bytes : List UInt8) : Nat :=
  (fileByte bytes 4).toNat

def textLength (bytes : List UInt8) : Nat :=
  fileNumber bytes 8 4

def dataLength (bytes : List UInt8) : Nat :=
  fileNumber bytes 12 4

/-- The sizes are small enough for the segments that the file asks for. -/
def SizesFit (bytes : List UInt8) : Prop :=
  if AsksForTwo bytes then textLength bytes ≤ 0xffff ∧ dataLength bytes ≤ 0xffff
  else textLength bytes + dataLength bytes ≤ 65536

instance (bytes : List UInt8) : Decidable (SizesFit bytes) :=
  inferInstanceAs (Decidable (if AsksForTwo bytes then _ ≤ _ ∧ _ ≤ _ else _ ≤ _))

/-- Each segment that the file asks for is filled with its part of the file. -/
def FilledAsAsked (bytes : List UInt8) (m : AddressSpace) : Prop :=
  if AsksForTwo bytes then
    m.isSplit = true ∧ m.text.FilledFrom bytes (textStart bytes) (textLength bytes) ∧
      m.data.FilledFrom bytes (textStart bytes + textLength bytes) (dataLength bytes)
  else
    m.isSplit = false ∧
      m.text.FilledFrom bytes (textStart bytes) (textLength bytes + dataLength bytes)

namespace Header

/-- The header is the one that the file starts with. -/
structure IsOf (h : Header) (bytes : List UInt8) : Prop where
  isSeparate : h.isSeparate = true ↔ AsksForTwo bytes
  cpu : h.cpu = fileByte bytes 3
  length : h.length.toNat = textStart bytes
  text : h.text.toNat = textLength bytes
  data : h.data.toNat = dataLength bytes

theorem magic_iff {bytes : List UInt8} (hLength : 32 ≤ bytes.length) :
    fileWord bytes 0 = 0x0301 ↔ [1, 3] <+: bytes := by
  match bytes, hLength with
  | first :: second :: rest, _ =>
    rw [fileWord_eq_iff, List.cons_prefix_cons, List.cons_prefix_cons]
    have hLow : Word.low 0x0301 = 1 := rfl
    have hHigh : Word.high 0x0301 = 3 := rfl
    simp [fileByte, hLow, hHigh, eq_comm]

theorem exists_of_hasHeader {bytes : List UInt8} (h : HasHeader bytes) :
    ∃ header, ofBytes? bytes = some header ∧ header.IsOf bytes := by
  have hSome : ofBytes? bytes = some _ := if_pos (by
    rw [Bool.and_eq_true, decide_eq_true_iff, decide_eq_true_iff]
    exact ⟨h.1, (magic_iff h.1).2 h.2⟩)
  exact ⟨_, hSome, decide_eq_true_iff, rfl, rfl, toNat_fileLong bytes 8, toNat_fileLong bytes 12⟩

theorem ofBytes?_of_not_hasHeader {bytes : List UInt8} (h : ¬ HasHeader bytes) :
    ofBytes? bytes = none := by
  refine if_neg fun hBoth => h ?_
  rw [Bool.and_eq_true, decide_eq_true_iff, decide_eq_true_iff] at hBoth
  exact ⟨hBoth.1, (magic_iff hBoth.1).1 hBoth.2⟩

variable {h : Header} {bytes : List UInt8}

theorem IsOf.fits_iff (hOf : h.IsOf bytes) : h.fits = true ↔ SizesFit bytes := by
  unfold fits SizesFit
  rw [hOf.text, hOf.data]
  by_cases hTwo : AsksForTwo bytes
  · rw [if_pos (hOf.isSeparate.2 hTwo), if_pos hTwo, Bool.and_eq_true, decide_eq_true_iff,
      decide_eq_true_iff]
    exact and_congr Nat.lt_succ_iff Nat.lt_succ_iff
  · rw [if_neg fun hSeparate => hTwo (hOf.isSeparate.1 hSeparate), if_neg hTwo, decide_eq_true_iff]
    rfl

theorem IsOf.filledAsAsked (hOf : h.IsOf bytes) : FilledAsAsked bytes (h.memory bytes) := by
  unfold FilledAsAsked
  rw [← hOf.text, ← hOf.data, ← hOf.length]
  by_cases hTwo : AsksForTwo bytes
  · have hSeparate := hOf.isSeparate.2 hTwo
    simp only [memory, hSeparate, if_true, hTwo]
    exact ⟨rfl, Segment.filledFrom bytes _ _, Segment.filledFrom bytes _ _⟩
  · have hCombined : ¬ h.isSeparate = true := fun hSeparate => hTwo (hOf.isSeparate.1 hSeparate)
    simp only [memory, hCombined, if_false, hTwo]
    exact ⟨rfl, Segment.filledFrom bytes _ _⟩

end Header

/-- A file with a header is refused for its processor first, then for its sizes, and otherwise its
text and data go where the header says. Any other file is refused if it is too long, and otherwise
goes to address zero as it is. -/
theorem load_places_every_byte (bytes : List UInt8) :
    if HasHeader bytes then
      if fileByte bytes 3 ≠ 4 then load bytes = .error (.unknownCpu (fileByte bytes 3))
      else if SizesFit bytes then
        ∃ image, load bytes = .ok image ∧ FilledAsAsked bytes image.memory
      else load bytes =
        .error (.segmentsTooLarge (.ofNat (textLength bytes)) (.ofNat (dataLength bytes)))
    else if bytes.length ≤ 0xffff then
      ∃ image, load bytes = .ok image ∧ image.memory.isSplit = false ∧
        image.memory.text.FilledFrom bytes 0 bytes.length
    else load bytes = .error (.tooLarge bytes.length) := by
  split
  next hHeader =>
    obtain ⟨header, hSome, hOf⟩ := Header.exists_of_hasHeader hHeader
    simp only [load, hSome, hOf.cpu, Header.cpuI8086]
    split
    next => rfl
    next =>
      split
      next hFits =>
        rw [hOf.fits_iff.2 hFits]
        exact ⟨_, rfl, hOf.filledAsAsked⟩
      next hNot =>
        have hRefused : header.fits = false :=
          Bool.eq_false_iff.2 fun hFits => hNot (hOf.fits_iff.1 hFits)
        rw [hRefused, ← hOf.text, ← hOf.data, UInt32.ofNat_toNat, UInt32.ofNat_toNat]
        rfl
  next hNone =>
    simp only [load, Header.ofBytes?_of_not_hasHeader hNone, Image.ofRaw]
    split
    next hShort =>
      refine ⟨_, if_neg (Nat.not_lt.2 hShort), rfl, ?_⟩
      have hFilled := Segment.filledFrom bytes 0 bytes.length
      rwa [filePart, List.drop_zero, List.take_length] at hFilled
    next hLong => exact if_pos (Nat.lt_of_not_le hLong)

end VintageUnix.Minix
