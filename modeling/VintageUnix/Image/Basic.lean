import VintageUnix.Host.Errno
import VintageUnix.Memory.AddressSpace

/-! Executable images: what a binary file becomes before a process runs it. -/
namespace VintageUnix

/-- The layouts that a binary can have. -/
inductive Format where
  /-- No header: the whole file at address zero. -/
  | raw
  | minixCombined
  | minixSeparate
  | v6Contiguous
  /-- Data start at the next multiple of eight kilobytes after the text. -/
  | v6SharedText
  | v6Separate
  deriving DecidableEq, Repr

/-- An entry of a symbol table. -/
structure Symbol where
  name : String
  kind : UInt16
  address : UInt16
  deriving DecidableEq, Repr

/-- Whether a symbol labels a place in the text. -/
def Symbol.isText (s : Symbol) : Bool :=
  s.kind &&& 0o37 = 2

structure Image where
  memory : AddressSpace
  entry : UInt16
  format : Format
  symbols : List Symbol := []

/-- Why a binary cannot be loaded. -/
inductive LoadError where
  | unreadable (path : String) (cause : Failure)
  /-- A file without a header is longer than the address space. -/
  | tooLarge (length : Nat)
  | unknownCpu (id : UInt8)
  /-- The segments that a header announces do not fit. -/
  | segmentsTooLarge (text data : UInt32)
  deriving DecidableEq, Repr

def LoadError.message : LoadError → String
  | unreadable path cause => path ++ ": " ++ cause.message
  | tooLarge length => "too long raw binary: " ++ toString length ++ " bytes"
  | unknownCpu id => "unknown cpu id: " ++ toString id.toNat
  | segmentsTooLarge text data =>
    "segments too large: text " ++ toString text.toNat ++ ", data " ++ toString data.toNat

/-- The part of a file that a segment is filled from. A file that is too short
gives less. -/
def filePart (bytes : List UInt8) (offset length : Nat) : List UInt8 :=
  (bytes.drop offset).take length

/-- Put a part of a file into a segment. What would lie past its end is cut off. -/
def Segment.place (s : Segment) (position : Nat) (bytes : List UInt8) : Segment :=
  s.write (UInt16.ofNat position) (bytes.take (segmentSize - position))

/-- The little endian number in the `count` bytes of a file at `offset`. -/
def fileNumber (bytes : List UInt8) (offset : Nat) : (count : Nat) → Nat
  | 0 => 0
  | count + 1 => (bytes[offset]?.getD 0).toNat + 256 * fileNumber bytes (offset + 1) count

/-- A word of a file. -/
def fileWord (bytes : List UInt8) (offset : Nat) : UInt16 :=
  UInt16.ofNat (fileNumber bytes offset 2)

/-- A double word of a file. -/
def fileLong (bytes : List UInt8) (offset : Nat) : UInt32 :=
  UInt32.ofNat (fileNumber bytes offset 4)

namespace Image

/-- The longest file that is loaded without a header. -/
def rawLimit : Nat := 0xffff

/-- The image of a file without a header. -/
def ofRaw (bytes : List UInt8) : Except LoadError Image :=
  if rawLimit < bytes.length then .error (.tooLarge bytes.length)
  else
    let length := UInt16.ofNat bytes.length
    .ok {
      memory := {
        layout := .shared (Segment.zero.place 0 bytes), textSize := length, brk := length }
      entry := 0
      format := .raw }

end Image
end VintageUnix
