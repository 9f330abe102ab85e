import VintageUnix.Image.Basic
import VintageUnix.Text.Utf8

/-! Executables of Unix V6: a header of 16 bytes, text, data, relocation bits, and a symbol
table. -/
namespace VintageUnix.UnixV6

/-- The processors that executables exist for. They differ in the first word of
the header, which for the 8086 is a jump over it. -/
inductive Target where
  | pdp11
  | i8086
  deriving DecidableEq, Repr

/-- The layout that the first word of a file announces. -/
def Target.format? (target : Target) (magic : UInt16) : Option Format :=
  match target, magic with
  | .pdp11, 0o407 => some .v6Contiguous
  | .pdp11, 0o410 => some .v6SharedText
  | .pdp11, 0o411 => some .v6Separate
  | .i8086, 0x0eeb => some .v6Contiguous
  | .i8086, 0x10eb => some .v6SharedText
  | .i8086, 0x12eb => some .v6Separate
  | _, _ => none

structure Header where
  text : UInt16
  data : UInt16
  bss : UInt16
  /-- The length of the symbol table in bytes. -/
  symbols : UInt16
  entry : UInt16
  /-- Zero if relocation bits follow the data. -/
  relocation : UInt16
  deriving Repr

namespace Header

def size : Nat := 16

def ofBytes (bytes : List UInt8) : Header where
  text := fileWord bytes 2
  data := fileWord bytes 4
  bss := fileWord bytes 6
  symbols := fileWord bytes 8
  entry := fileWord bytes 10
  relocation := fileWord bytes 14

/-- The bytes of text and data together. -/
def contentSize (h : Header) : Nat :=
  h.text.toNat + h.data.toNat

/-- Where the data start if they share a segment with the text but begin on a
boundary of eight kilobytes. -/
def alignedData (h : Header) : Nat :=
  (h.text.toNat + 0x1fff) / 0x2000 * 0x2000

/-- Memory filled from a file. Only the PDP-11 has a limit on what is text. -/
def memory (h : Header) (target : Target) (format : Format) (bytes : List UInt8) :
    AddressSpace :=
  let text := h.text.toNat
  let data := h.data.toNat
  let limit (n : Nat) : Option Nat := match target with
    | .pdp11 => some n
    | .i8086 => none
  match format with
  | .v6Separate =>
    { layout := .split (Segment.zero.place 0 (filePart bytes size text))
        (Segment.zero.place 0 (filePart bytes (size + text) data))
      textSize := h.text, dataSize := h.data, brk := h.data + h.bss, textLimit := limit text }
  | .v6SharedText =>
    { layout := .shared ((Segment.zero.place 0 (filePart bytes size text)).place h.alignedData
        (filePart bytes (size + text) data))
      textSize := h.text, dataSize := h.data
      brk := UInt16.ofNat h.alignedData + h.data + h.bss, textLimit := limit text }
  | _ =>
    { layout := .shared (Segment.zero.place 0 (filePart bytes size h.contentSize))
      textSize := h.text, dataSize := h.data
      brk := h.text + h.data + h.bss, textLimit := limit h.contentSize }

/-- Where the symbol table starts in the file. -/
def symbolOffset (h : Header) : Nat :=
  size + if h.relocation = 0 then 2 * h.contentSize else h.contentSize

end Header

/-- The bytes of one symbol: a name of at most eight bytes, a kind and an
address. -/
def symbolSize : Nat := 12

/-- The symbol at the start of `bytes`. -/
def symbol (bytes : List UInt8) : Symbol where
  name := Utf8.decode ((bytes.take 8).takeWhile (· ≠ 0))
  kind := fileWord bytes 8
  address := fileWord bytes 10

/-- The first `count` symbols of a table, as far as it goes. -/
def readSymbols (bytes : List UInt8) : (count : Nat) → List Symbol
  | 0 => []
  | count + 1 =>
    let entry := bytes.take symbolSize
    if entry.length < symbolSize then []
    else symbol entry :: readSymbols (bytes.drop symbolSize) count

/-- The image of an executable file. A file without a header for the target is
taken as it is. -/
def load (target : Target) (bytes : List UInt8) : Except LoadError Image :=
  if bytes.length < Header.size then Image.ofRaw bytes
  else match target.format? (fileWord bytes 0) with
    | none => Image.ofRaw bytes
    | some format =>
      let h := Header.ofBytes bytes
      .ok {
        memory := h.memory target format bytes
        entry := h.entry
        format
        symbols := readSymbols (bytes.drop h.symbolOffset) (h.symbols.toNat / symbolSize) }

end VintageUnix.UnixV6
