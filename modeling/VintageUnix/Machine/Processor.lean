import VintageUnix.Memory.AddressSpace

/-! What the two processors have in common: the faults that end a program, the events an
instruction can leave to the system, and the operations that an execution engine needs. -/
namespace VintageUnix

/-- The reasons why a program is killed. -/
inductive Fault where
  | undefinedInstruction
  | unimplementedInstruction
  | stackOverflow
  | executeOutsideText
  | divideByZero
  | divisionOverflow
  | unimplementedCall
  | unknownCall
  deriving DecidableEq, Repr

/-- The wording of a fault in the log. -/
def Fault.message : Fault → String
  | .undefinedInstruction => "undefined instruction"
  | .unimplementedInstruction => "not implemented"
  | .stackOverflow => "stack overflow"
  | .executeOutsideText => "overrun"
  | .divideByZero => "divide by zero"
  | .divisionOverflow => "division overflow"
  | .unimplementedCall => "syscall not implemented"
  | .unknownCall => "unknown syscall"

/-- What is left to do after an instruction. -/
inductive Event where
  /-- Go on with the next instruction. -/
  | proceed
  /-- Answer the system call trap with this number. -/
  | trap (number : UInt16)
  /-- The program returned from its entry point and is done. -/
  | finished
  deriving DecidableEq, Repr

/-- The bytes that instructions are decoded from, by address. -/
abbrev Code := UInt16 → UInt8

/-- A code view of finitely many bytes from address zero on. It reads as zero
after them. -/
def Code.ofBytes (bytes : ByteArray) : Code :=
  fun address => bytes.data[address.toNat]?.getD 0

/-- The word in `code` whose low byte is at `address`. -/
def Code.word (code : Code) (address : UInt16) : UInt16 :=
  Word.ofBytes (code address) (code (address + 1))

/-- A processor with the memory it works on. -/
structure Machine (Cpu : Type) where
  cpu : Cpu
  memory : AddressSpace

/-- The outcome of an instruction. The machine it leaves is there after a fault
as well, since an instruction may fault after it has stepped a register. -/
abbrev Outcome (Cpu : Type) := Machine Cpu × Except Fault Event

namespace Machine

variable {Cpu : Type}

/-- Change the registers only. -/
def mapCpu (f : Cpu → Cpu) (m : Machine Cpu) : Machine Cpu :=
  { m with cpu := f m.cpu }

/-- Change the memory only. -/
def mapMemory (f : AddressSpace → AddressSpace) (m : Machine Cpu) : Machine Cpu :=
  { m with memory := f m.memory }

/-- The outcome of an instruction that neither traps nor faults. -/
def proceed (m : Machine Cpu) : Outcome Cpu :=
  (m, .ok .proceed)

/-- Go on with a value, or stop with the fault in its place. -/
def attempt {α : Type} (m : Machine Cpu) (value : Except Fault α) (next : α → Outcome Cpu) :
    Outcome Cpu :=
  match value with
  | .ok a => next a
  | .error fault => (m, .error fault)

end Machine

/-- A register that points at the top of a stack growing downwards. -/
class StackPointer (Cpu : Type) where
  sp : Cpu → UInt16
  setSp : Cpu → UInt16 → Cpu

namespace Machine

variable {Cpu : Type} [StackPointer Cpu]

/-- Push a word: the stack pointer goes down by two and the word is stored
there. -/
def push (m : Machine Cpu) (value : UInt16) : Machine Cpu :=
  let sp := StackPointer.sp m.cpu - 2
  { cpu := StackPointer.setSp m.cpu sp, memory := m.memory.setWord sp value }

/-- Take the word at the stack pointer, which goes up by two. -/
def pop (m : Machine Cpu) : UInt16 × Machine Cpu :=
  let sp := StackPointer.sp m.cpu
  (m.memory.word sp, { m with cpu := StackPointer.setSp m.cpu (sp + 2) })

end Machine

/-- A processor that programs can be run on. Decoding is a function of the code
alone, so that decoded instructions can be kept; `execute` is called with the
instruction pointer already past the instruction. -/
class Processor (Cpu : Type) extends StackPointer Cpu where
  Instruction : Type
  /-- All registers and flags zero. -/
  reset : Cpu
  /-- The instruction at an address, as a listing shows it. -/
  decode : Code → UInt16 → Instruction
  /-- The instruction at an address, as it is executed. -/
  fetch : Code → UInt16 → Instruction
  length : Instruction → UInt16
  isUndefined : Instruction → Bool
  render : Instruction → String
  execute : Instruction → Machine Cpu → Outcome Cpu
  ip : Cpu → UInt16
  setIp : Cpu → UInt16 → Cpu
  /-- The stack pointer that the program was entered with. -/
  entrySp : Cpu → UInt16
  setEntrySp : Cpu → UInt16 → Cpu
  /-- The register in which a system call takes its first argument and leaves
  its result. -/
  accumulator : Cpu → UInt16
  setAccumulator : Cpu → UInt16 → Cpu
  setCarry : Cpu → Bool → Cpu
  /-- The registers and condition flags on one line. -/
  renderState : Cpu → String

end VintageUnix
