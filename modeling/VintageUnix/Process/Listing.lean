import VintageUnix.Image.Basic
import VintageUnix.Machine.Processor
import VintageUnix.Text.Numeral

/-! A listing of a program: every instruction of its text once, from address zero on, with the
labels in front of it. -/
namespace VintageUnix

/-- An instruction in a listing. The bytes are cut where the segment ends. -/
structure ListedInstruction (Instruction : Type) where
  address : Nat
  bytes : List UInt8
  instruction : Instruction
  labels : List String

namespace Listing

variable (Cpu : Type) [Processor Cpu]

/-- The number of bytes on a line. -/
def bytesPerLine : Nat := 6

/-- The width of the column of bytes. -/
def bytesColumn : Nat := 14

/-- The instructions from `address` up to `stop`. Every one is taken to be at least
one byte long. -/
def instructions (text : Segment) (symbols : List Symbol) (stop address : Nat) :
    List (ListedInstruction (Processor.Instruction Cpu)) :=
  if address < stop then
    let start := UInt16.ofNat address
    let instruction := Processor.decode text.get start
    let length := max (Processor.length instruction).toNat 1
    { address, instruction
      bytes := text.read start (min length (segmentSize - address))
      labels := (symbols.filter fun s => s.isText && s.address.toNat = address).map
        Symbol.name } ::
      instructions text symbols stop (address + length)
  else []
termination_by stop - address
decreasing_by
  have : 1 ≤ max (Processor.length instruction).toNat 1 := Nat.le_max_right _ _
  omega

/-- Bytes in groups of one line each. -/
def lines (bytes : List UInt8) : List (List UInt8) :=
  if bytes.length ≤ bytesPerLine then [bytes]
  else bytes.take bytesPerLine :: lines (bytes.drop bytesPerLine)
termination_by bytes.length
decreasing_by
  simp only [bytesPerLine, List.length_drop] at *
  omega

/-- A text filled up with blanks on the right. -/
def padRight (width : Nat) (text : String) : String :=
  text ++ String.ofList (List.replicate (width - text.length) ' ')

variable {Cpu}

/-- The lines of one instruction: its labels, the instruction after its first bytes,
and the other bytes. -/
def render (i : ListedInstruction (Processor.Instruction Cpu)) : List String :=
  let labels := i.labels.map (· ++ ":")
  match lines i.bytes with
  | [] => labels
  | first :: rest =>
    let address := Numeral.padded 16 4 i.address
    let shown := padRight bytesColumn (Numeral.hexBytes first)
    labels ++
      (address ++ ": " ++ shown ++ " " ++ Processor.render i.instruction) ::
      rest.map fun bytes => "      " ++ Numeral.hexBytes bytes

variable (Cpu)

/-- The listing of a program. A last line counts the undefined instructions, if
there are any. -/
def ofMemory (m : AddressSpace) (symbols : List Symbol) : List String :=
  let listed := instructions Cpu m.text symbols m.textSize.toNat 0
  let undefined := listed.countP fun i => Processor.isUndefined i.instruction
  listed.flatMap render ++
    if undefined = 0 then [] else ["undefined: " ++ toString undefined]

end Listing
end VintageUnix
