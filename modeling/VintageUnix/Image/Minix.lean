import VintageUnix.Image.Basic

/-! Executables of Minix 2: a header of 32 bytes or more, then text and data. -/
namespace VintageUnix.Minix

/-- The fields of a header that matter here. -/
structure Header where
  flags : UInt8
  cpu : UInt8
  /-- Where the text starts in the file. -/
  length : UInt8
  text : UInt32
  data : UInt32
  bss : UInt32
  entry : UInt32
  deriving Repr

namespace Header

def size : Nat := 32

/-- The processor number of the 8086. -/
def cpuI8086 : UInt8 := 4

/-- The header at the start of a file, if there is one. -/
def ofBytes? (bytes : List UInt8) : Option Header :=
  if size ≤ bytes.length && fileWord bytes 0 = 0x0301 then
    some {
      flags := bytes[2]?.getD 0
      cpu := bytes[3]?.getD 0
      length := bytes[4]?.getD 0
      text := fileLong bytes 8
      data := fileLong bytes 12
      bss := fileLong bytes 16
      entry := fileLong bytes 20 }
  else none

/-- Whether text and data have a segment each. -/
def isSeparate (h : Header) : Bool :=
  h.flags &&& 0x20 ≠ 0

/-- Whether the announced segments fit in memory. -/
def fits (h : Header) : Bool :=
  if h.isSeparate then h.text.toNat < segmentSize && h.data.toNat < segmentSize
  else h.text.toNat + h.data.toNat ≤ segmentSize

/-- Memory filled from a file as the header says. -/
def memory (h : Header) (bytes : List UInt8) : AddressSpace :=
  let text := h.text.toNat
  let data := h.data.toNat
  let start := h.length.toNat
  let textSize := h.text.toUInt16
  let dataSize := h.data.toUInt16
  if h.isSeparate then
    { layout := .split (Segment.zero.place 0 (filePart bytes start text))
        (Segment.zero.place 0 (filePart bytes (start + text) data))
      textSize, dataSize, brk := dataSize + h.bss.toUInt16 }
  else
    { layout := .shared (Segment.zero.place 0 (filePart bytes start (text + data)))
      textSize, dataSize, brk := textSize + dataSize + h.bss.toUInt16 }

end Header

/-- The image of an executable file. A file without a header is taken as it is. -/
def load (bytes : List UInt8) : Except LoadError Image :=
  match Header.ofBytes? bytes with
  | none => Image.ofRaw bytes
  | some h =>
    if h.cpu ≠ Header.cpuI8086 then .error (.unknownCpu h.cpu)
    else if !h.fits then .error (.segmentsTooLarge h.text h.data)
    else .ok {
      memory := h.memory bytes
      entry := h.entry.toUInt16
      format := if h.isSeparate then .minixSeparate else .minixCombined }

end VintageUnix.Minix
