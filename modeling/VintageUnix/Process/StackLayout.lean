import VintageUnix.Memory.Strings
import VintageUnix.Machine.Processor

/-! The stack that a program finds at its start: the argument count, pointers to the arguments and,
on systems that have one, the environment, with the strings above the pointers. -/
namespace VintageUnix

/-- A place in memory where pointers and strings are laid out. -/
structure StackCursor where
  memory : AddressSpace
  /-- Where the last word was stored. -/
  pointer : UInt16
  /-- Where the next string goes. -/
  strings : UInt16

namespace StackCursor

/-- Store the next word. -/
def putWord (c : StackCursor) (value : UInt16) : StackCursor :=
  let pointer := c.pointer + 2
  { c with memory := c.memory.setWord pointer value, pointer }

/-- Store the next string and a pointer to it. -/
def putString (c : StackCursor) (text : String) : StackCursor :=
  let bytes := Utf8.encode text
  let c := c.putWord c.strings
  { c with
    memory := c.memory.setTerminated c.strings bytes
    strings := c.strings + UInt16.ofNat (bytes.length + 1) }

def putStrings (c : StackCursor) (texts : List String) : StackCursor :=
  texts.foldl putString c

end StackCursor

namespace StackLayout

/-- The bytes that strings take with their terminators. -/
def stringBytes (texts : List String) : Nat :=
  texts.foldl (fun count t => count + t.utf8ByteSize + 1) 0

/-- The words in front of the strings. Only an environment brings terminators:
without one, programs find their arguments through the count alone. -/
def words (arguments : List String) (environment : Option (List String)) : Nat :=
  match environment with
  | none => 1 + arguments.length
  | some e => 1 + arguments.length + 1 + e.length + 1

variable {Cpu : Type} [Processor Cpu]

/-- Lay out arguments below the stack pointer, which then points at their count
and is recorded as the one the program is entered with. -/
def build (arguments : List String) (environment : Option (List String)) (m : Machine Cpu) :
    Machine Cpu :=
  let bytes := stringBytes (arguments ++ environment.getD [])
  let strings := StackPointer.sp m.cpu - UInt16.ofNat ((bytes + 1) / 2 * 2)
  let sp := strings - UInt16.ofNat (words arguments environment * 2)
  let counted := m.memory.setWord sp (UInt16.ofNat arguments.length)
  let c := StackCursor.putStrings { memory := counted, pointer := sp, strings } arguments
  let c := match environment with
    | none => c
    | some e => ((c.putWord 0).putStrings e).putWord 0
  { cpu := Processor.setEntrySp (StackPointer.setSp m.cpu sp) sp, memory := c.memory }

end StackLayout
end VintageUnix
