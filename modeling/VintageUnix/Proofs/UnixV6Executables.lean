import Mathlib.Algebra.Order.Floor.Div
import VintageUnix.Proofs.FileNumbers
import VintageUnix.Proofs.LoadedImages

/-! Executables of Unix V6 written out, and read back by the loader. An executable is given by what
it consists of. Its file is the concatenation of these parts, and what is loaded from the file has
every one of them again, in the place that its arrangement asks for. -/
namespace VintageUnix

namespace UnixV6

/-- How text and data are arranged in memory. -/
inductive Arrangement where
  | contiguous
  | sharedText
  | separate
  deriving DecidableEq, Repr

def Arrangement.format : Arrangement → Format
  | contiguous => .v6Contiguous
  | sharedText => .v6SharedText
  | separate => .v6Separate

/-- The first word of a file. For the 8086 it is a jump over the header. -/
def Arrangement.magic : Target → Arrangement → UInt16
  | .pdp11, contiguous => 0o407
  | .pdp11, sharedText => 0o410
  | .pdp11, separate => 0o411
  | .i8086, contiguous => 0x0eeb
  | .i8086, sharedText => 0x10eb
  | .i8086, separate => 0x12eb

theorem Arrangement.format?_magic (target : Target) (a : Arrangement) :
    target.format? (magic target a) = some a.format := by
  cases target <;> cases a <;> rfl

/-- An entry of a symbol table as it stands in a file. -/
structure SymbolRecord where
  name : List UInt8
  kind : UInt16
  address : UInt16
  length_name : name.length = 8

namespace SymbolRecord

def bytes (r : SymbolRecord) : List UInt8 :=
  r.name ++ ([r.kind, r.address].flatMap Word.toBytes)

/-- The symbol that is meant. Its name ends before the first zero byte, if there is one. -/
def symbol (r : SymbolRecord) : Symbol where
  name := Utf8.decode (r.name.takeWhile (· ≠ 0))
  kind := r.kind
  address := r.address

theorem length_bytes (r : SymbolRecord) : r.bytes.length = symbolSize := by
  rw [bytes, List.length_append, r.length_name]
  rfl

theorem symbol_bytes (r : SymbolRecord) : UnixV6.symbol r.bytes = r.symbol := by
  have hName : r.bytes.take 8 = r.name := List.take_left' r.length_name
  have hByte (i : Nat) :
      fileByte r.bytes (8 + i) = fileByte ([r.kind, r.address].flatMap Word.toBytes) i := by
    rw [bytes, fileByte_append, r.length_name, if_neg (by omega), Nat.add_sub_cancel_left]
  have hKind : fileWord r.bytes 8 = r.kind :=
    (fileWord_eq_iff _ _ _).2 ⟨hByte 0, hByte 1⟩
  have hAddress : fileWord r.bytes 10 = r.address :=
    (fileWord_eq_iff _ _ _).2 ⟨hByte 2, hByte 3⟩
  rw [UnixV6.symbol, hName, hKind, hAddress, symbol]

/-- A whole table is read back. -/
theorem readSymbols_flatMap (records : List SymbolRecord) :
    readSymbols (records.flatMap bytes) records.length = records.map symbol := by
  induction records with
  | nil => rfl
  | cons r records ih =>
      have hFirst : (r.bytes ++ records.flatMap bytes).take symbolSize = r.bytes :=
        List.take_left' r.length_bytes
      have hRest : (r.bytes ++ records.flatMap bytes).drop symbolSize = records.flatMap bytes :=
        List.drop_left' r.length_bytes
      rw [List.flatMap_cons, List.length_cons, readSymbols, hFirst, hRest, ih,
        if_neg (Nat.not_lt.2 r.length_bytes.ge), symbol_bytes, List.map_cons]

end SymbolRecord

/-- What an executable consists of. Its sizes are words, and it has a relocation bit field as long
as its text and data unless it is marked as having none. -/
structure Executable where
  arrangement : Arrangement
  text : List UInt8
  data : List UInt8
  bss : UInt16
  entry : UInt16
  unused : UInt16
  relocation : UInt16
  relocationBits : List UInt8
  symbols : List SymbolRecord
  text_lt : text.length < 65536
  data_lt : data.length < 65536
  symbols_lt : 12 * symbols.length < 65536
  length_relocationBits :
    relocationBits.length = if relocation = 0 then text.length + data.length else 0

namespace Executable

variable (e : Executable) (target : Target)

def header : List UInt16 :=
  [e.arrangement.magic target, .ofNat e.text.length, .ofNat e.data.length, e.bss,
    .ofNat (12 * e.symbols.length), e.entry, e.unused, e.relocation]

/-- The file of an executable. -/
def bytes : List UInt8 :=
  (e.header target).flatMap Word.toBytes ++
    (e.text ++ (e.data ++ (e.relocationBits ++ e.symbols.flatMap SymbolRecord.bytes)))

/-- Where the data belong in their segment. -/
def dataStart : Nat :=
  match e.arrangement with
  | .contiguous => e.text.length
  | .sharedText => 8192 * (e.text.length ⌈/⌉ 8192)
  | .separate => 0

def dataEnd : Nat :=
  e.dataStart + e.data.length

/-- All bytes of the data segment. -/
def dataSegment : List UInt8 :=
  match e.arrangement with
  | .separate => e.data ++ .replicate (65536 - e.data.length) 0
  | _ => e.text ++ (.replicate (e.dataStart - e.text.length) 0 ++
      (e.data ++ .replicate (65536 - e.dataEnd) 0))

/-- All bytes of the text segment. -/
def textSegment : List UInt8 :=
  match e.arrangement with
  | .separate => e.text ++ .replicate (65536 - e.text.length) 0
  | _ => e.dataSegment

/-- How far instructions may reach. -/
def textLimit : Option Nat :=
  match target, e.arrangement with
  | .i8086, _ => none
  | .pdp11, .contiguous => some (e.text.length + e.data.length)
  | .pdp11, _ => some e.text.length

/-- The image has all that the executable consists of, and nothing else. -/
structure IsImage (image : Image) : Prop where
  format : image.format = e.arrangement.format
  isSplit : image.memory.isSplit = true ↔ e.arrangement = .separate
  text : image.memory.text.read 0 65536 = e.textSegment
  data : image.memory.data.read 0 65536 = e.dataSegment
  textSize : image.memory.textSize.toNat = e.text.length
  dataSize : image.memory.dataSize.toNat = e.data.length
  brk : image.memory.brk.toNat = (e.dataEnd + e.bss.toNat) % 65536
  textLimit : image.memory.textLimit = e.textLimit target
  entry : image.entry = e.entry
  symbols : image.symbols = e.symbols.map SymbolRecord.symbol

variable {e : Executable} {target : Target}

theorem length_header : ((e.header target).flatMap Word.toBytes).length = 16 :=
  rfl

theorem fileWord_bytes {i : Nat} (h : i < 8) :
    fileWord (e.bytes target) (2 * i) = (e.header target)[i] :=
  fileWord_flatMap_toBytes _ h

/-- The header that is read is the one that was written. -/
theorem ofBytes_bytes : Header.ofBytes (e.bytes target) =
    { text := .ofNat e.text.length, data := .ofNat e.data.length, bss := e.bss
      symbols := .ofNat (12 * e.symbols.length), entry := e.entry
      relocation := e.relocation } := by
  rw [Header.ofBytes, fileWord_bytes (i := 1) (by decide), fileWord_bytes (i := 2) (by decide),
    fileWord_bytes (i := 3) (by decide), fileWord_bytes (i := 4) (by decide),
    fileWord_bytes (i := 5) (by decide), fileWord_bytes (i := 7) (by decide)]
  rfl

/-- The loader rounds up to the next multiple of eight kilobytes. -/
theorem alignedData_eq (h : Header) : h.alignedData = 8192 * (h.text.toNat ⌈/⌉ 8192) := by
  rw [Nat.ceilDiv_eq_add_pred_div, Nat.mul_comm]
  rfl

/-- What the file of an executable should announce. -/
def announcement (e : Executable) : Announcement where
  offset := 16
  text := e.text.length
  data := e.data.length
  bss := e.bss.toNat
  separate := e.arrangement = .separate
  dataStart := e.dataStart

theorem announcement_bytes :
    (Header.ofBytes (e.bytes target)).announcement e.arrangement.format = e.announcement := by
  rw [ofBytes_bytes, announcement]
  cases hArrangement : e.arrangement <;>
    simp only [Header.announcement, alignedData_eq, Header.size, Arrangement.format, dataStart,
      hArrangement, UInt16.toNat_ofNat_of_lt' e.text_lt, UInt16.toNat_ofNat_of_lt' e.data_lt,
      reduceCtorEq]

/-- The text is where it is announced, and so are the data. -/
theorem fileByte_text {i : Nat} (h : i < e.text.length) :
    fileByte (e.bytes target) (16 + i) = fileByte e.text i := by
  rw [bytes, fileByte_append, length_header, if_neg (by omega), Nat.add_sub_cancel_left,
    fileByte_append, if_pos h]

theorem fileByte_data {i : Nat} (h : i < e.data.length) :
    fileByte (e.bytes target) (16 + e.text.length + i) = fileByte e.data i := by
  rw [bytes, fileByte_append, length_header, if_neg (by omega), Nat.add_assoc,
    Nat.add_sub_cancel_left, fileByte_append, if_neg (by omega), Nat.add_sub_cancel_left,
    fileByte_append, if_pos h]

theorem text_length_le_dataStart (h : e.arrangement ≠ .separate) :
    e.text.length ≤ e.dataStart := by
  unfold dataStart
  cases hArrangement : e.arrangement with
  | contiguous => exact Nat.le_refl _
  | sharedText => exact le_smul_ceilDiv (Nat.zero_lt_succ 8191)
  | separate => exact absurd hArrangement h

theorem length_dataSegment (hFits : e.dataEnd ≤ 65536) : e.dataSegment.length = 65536 := by
  have hData := e.data_lt
  have hApart := @text_length_le_dataStart e
  unfold dataSegment
  rw [dataEnd] at hFits ⊢
  cases hArrangement : e.arrangement <;>
    simp only [hArrangement, ne_eq, reduceCtorEq, not_false_eq_true, true_implies, not_true,
      List.length_append, List.length_replicate] at hApart ⊢ <;>
    omega

/-- The data segment, place by place. -/
theorem fileByte_dataSegment (place : Nat) :
    fileByte e.dataSegment place =
      if e.dataStart ≤ place ∧ place < e.dataEnd then fileByte e.data (place - e.dataStart)
      else if e.arrangement ≠ .separate ∧ place < e.text.length then fileByte e.text place
      else 0 := by
  have hShared (hApart : e.text.length ≤ e.dataStart) :
      fileByte (e.text ++ (.replicate (e.dataStart - e.text.length) 0 ++
          (e.data ++ .replicate (65536 - e.dataEnd) 0))) place =
        if e.dataStart ≤ place ∧ place < e.dataEnd then fileByte e.data (place - e.dataStart)
        else if place < e.text.length then fileByte e.text place else 0 := by
    have hGap : place - e.text.length - (e.dataStart - e.text.length) = place - e.dataStart := by
      omega
    simp only [fileByte_append, fileByte_replicate_zero, List.length_replicate, hGap]
    rw [dataEnd]
    split_ifs <;> first | rfl | omega
  unfold dataSegment
  cases hArrangement : e.arrangement with
  | contiguous | sharedText =>
      have hApart : e.text.length ≤ e.dataStart := text_length_le_dataStart (by simp [hArrangement])
      simpa using hShared hApart
  | separate =>
      have hStart : e.dataStart = 0 := by simp [dataStart, hArrangement]
      simp [fileByte_append, fileByte_replicate_zero, dataEnd, hStart]

theorem dataByte_bytes (place : Nat) :
    e.announcement.dataByte (e.bytes target) place = fileByte e.dataSegment place := by
  rw [fileByte_dataSegment]
  by_cases hData : e.dataStart ≤ place ∧ place < e.dataEnd
  · have hInside : place - e.dataStart < e.data.length := by
      rw [dataEnd] at hData
      omega
    rw [if_pos hData]
    exact (if_pos hData).trans (fileByte_data hInside)
  · rw [if_neg hData]
    refine (if_neg hData).trans ?_
    by_cases hText : e.arrangement ≠ .separate ∧ place < e.text.length
    · rw [if_pos hText]
      exact (if_pos ⟨decide_eq_false hText.1, hText.2⟩).trans (fileByte_text hText.2)
    · rw [if_neg hText]
      exact if_neg fun h => hText ⟨of_decide_eq_false h.1, h.2⟩

theorem textByte_bytes (place : Nat) :
    e.announcement.textByte (e.bytes target) place = fileByte e.textSegment place := by
  cases hArrangement : e.arrangement with
  | contiguous | sharedText =>
      have hShared : ¬ e.announcement.separate = true := by simp [announcement, hArrangement]
      rw [Announcement.textByte, if_neg hShared]
      simpa only [textSegment, hArrangement] using dataByte_bytes (e := e) place
  | separate =>
      simp only [textSegment, hArrangement, Announcement.textByte, announcement, decide_true,
        if_true, fileByte_append, fileByte_replicate_zero]
      split
      next hText => exact fileByte_text hText
      next => rfl

theorem length_textSegment (hFits : e.dataEnd ≤ 65536) : e.textSegment.length = 65536 := by
  have hText := e.text_lt
  cases hArrangement : e.arrangement with
  | contiguous | sharedText => simpa only [textSegment, hArrangement] using length_dataSegment hFits
  | separate =>
      simp only [textSegment, hArrangement, List.length_append, List.length_replicate]
      omega

/-- The symbol table starts behind everything else. -/
theorem drop_symbolOffset :
    (e.bytes target).drop (Header.ofBytes (e.bytes target)).symbolOffset =
      e.symbols.flatMap SymbolRecord.bytes := by
  have hOffset : (Header.ofBytes (e.bytes target)).symbolOffset =
      16 + (e.text.length + (e.data.length + e.relocationBits.length)) := by
    rw [ofBytes_bytes, e.length_relocationBits]
    simp only [Header.symbolOffset, Header.contentSize, Header.size,
      UInt16.toNat_ofNat_of_lt' e.text_lt, UInt16.toNat_ofNat_of_lt' e.data_lt]
    split <;> omega
  rw [hOffset, bytes, ← List.append_assoc e.data, ← List.append_assoc e.text,
    ← List.append_assoc]
  refine List.drop_left' ?_
  rw [List.length_append, length_header, List.length_append, List.length_append]

theorem textLimit_memory :
    ((Header.ofBytes (e.bytes target)).memory target e.arrangement.format
      (e.bytes target)).textLimit = e.textLimit target := by
  rw [ofBytes_bytes]
  cases target <;> cases hArrangement : e.arrangement <;>
    simp only [Header.memory, Header.contentSize, Arrangement.format, textLimit, hArrangement,
      UInt16.toNat_ofNat_of_lt' e.text_lt, UInt16.toNat_ofNat_of_lt' e.data_lt]

/-- Every executable whose data end in memory is read back from its file. -/
theorem load_bytes (e : Executable) (target : Target) (hFits : e.dataEnd ≤ 65536) :
    ∃ image, load target (e.bytes target) = .ok image ∧ e.IsImage target image := by
  have hLong : ¬ (e.bytes target).length < Header.size := by
    rw [bytes, List.length_append, length_header]
    exact Nat.not_lt.2 (Nat.le_add_right _ _)
  have hFormat : target.format? (fileWord (e.bytes target) 0) = some e.arrangement.format :=
    (congrArg target.format? (fileWord_bytes (i := 0) (by decide))).trans
      (Arrangement.format?_magic target e.arrangement)
  have hFilled := (Header.ofBytes (e.bytes target)).filled_memory target e.arrangement.format
    (e.bytes target)
  have hSized := (Header.ofBytes (e.bytes target)).sized_memory target e.arrangement.format
    (e.bytes target)
  rw [announcement_bytes] at hFilled hSized
  have hCount :
      (Header.ofBytes (e.bytes target)).symbols.toNat / symbolSize = e.symbols.length := by
    rw [ofBytes_bytes, UInt16.toNat_ofNat_of_lt' e.symbols_lt]
    exact Nat.mul_div_cancel_left _ (by decide)
  refine ⟨_, by rw [load, if_neg hLong, hFormat], ?_⟩
  constructor
  case format => rfl
  case isSplit => rw [hFilled.isSplit]; exact decide_eq_true_iff
  case text =>
    exact Segment.read_eq_of_get (length_textSegment hFits) fun i =>
      (hFilled.text i).trans (textByte_bytes _)
  case data =>
    exact Segment.read_eq_of_get (length_dataSegment hFits) fun i =>
      (hFilled.data i).trans (dataByte_bytes _)
  case textSize =>
    rw [hSized.textSize]
    exact UInt16.toNat_ofNat_of_lt' e.text_lt
  case dataSize =>
    rw [hSized.dataSize]
    exact UInt16.toNat_ofNat_of_lt' e.data_lt
  case brk => rw [hSized.brk, UInt16.toNat_ofNat']; rfl
  case textLimit => exact textLimit_memory
  case entry => rw [ofBytes_bytes]
  case symbols => rw [drop_symbolOffset, hCount, SymbolRecord.readSymbols_flatMap]

/-- Four bytes of text with relocation bits, two bytes of data on the next boundary, and two
symbols. -/
theorem load_bytes_sharedText :
    let e : Executable := {
      arrangement := .sharedText
      text := [0, 10, 0x87, 0], data := [0x34, 0x12]
      bss := 6, entry := 2, unused := 0, relocation := 0
      relocationBits := [0, 0, 0, 0, 0, 0]
      symbols := [⟨[95, 109, 97, 105, 110, 0, 0, 0], 2, 0, rfl⟩,
        ⟨[95, 101, 110, 100, 0, 120, 0, 0], 3, 4, rfl⟩]
      text_lt := by decide, data_lt := by decide, symbols_lt := by decide
      length_relocationBits := by decide }
    ∃ image, load .pdp11 (e.bytes .pdp11) = .ok image ∧ e.IsImage .pdp11 image ∧
      image.memory.brk.toNat = 0x2008 ∧
      image.symbols = [⟨"_main", 2, 0⟩, ⟨"_end", 3, 4⟩] := by
  intro e
  obtain ⟨image, hLoad, hImage⟩ := e.load_bytes .pdp11 (by decide)
  refine ⟨image, hLoad, hImage, ?_, ?_⟩
  · rw [hImage.brk]
    decide
  · rw [hImage.symbols]
    decide +kernel

end Executable
end UnixV6
end VintageUnix
