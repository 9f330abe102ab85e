import VintageUnix.I8086.Registers
import VintageUnix.Text.Numeral
import VintageUnix.Word.Width

/-! Decoded instructions of the 8086 with the 80186 additions, and how a listing prints them. -/
namespace VintageUnix.I8086

open Numeral (hex hexByte hexWord)

/-- The base and index registers of a memory operand. -/
inductive Base where
  | bxSi
  | bxDi
  | bpSi
  | bpDi
  | si
  | di
  | bp
  | bx
  deriving DecidableEq, Repr

inductive SegmentRegister where
  | es
  | cs
  | ss
  | ds
  deriving DecidableEq, Repr

/-- An operand as it is encoded. -/
inductive Operand where
  | half (h : Half)
  | register (r : Register)
  | segment (s : SegmentRegister)
  | byteValue (v : UInt8)
  | wordValue (v : UInt16)
  /-- A code address: where a relative jump or call leads. -/
  | target (address : UInt16)
  /-- Memory at a fixed address. -/
  | direct (address : UInt16)
  /-- Memory at a base plus a signed displacement. -/
  | based (base : Base) (displacement : UInt16)
  /-- An address in another segment. -/
  | far (offset base : UInt16)
  deriving DecidableEq, Repr

/-- The two-operand operations that share one encoding group. -/
inductive Arithmetic where
  | add
  | or
  | adc
  | sbb
  | and
  | sub
  | xor
  | cmp
  deriving DecidableEq, Repr

/-- The operations that replace or test one operand. -/
inductive Unary where
  | inc
  | dec
  | not
  | neg
  | mul
  | imul
  | div
  | idiv
  deriving DecidableEq, Repr

/-- The rotations: of the operand alone, or of the operand with the carry. -/
inductive Rotation where
  | rol
  | ror
  | rcl
  | rcr
  deriving DecidableEq, Repr

inductive Shift where
  | shl
  | shr
  | sar
  deriving DecidableEq, Repr

/-- The string operations, which step through memory. -/
inductive Block where
  | movs
  | cmps
  | stos
  | lods
  | scas
  deriving DecidableEq, Repr

/-- The corrections after decimal arithmetic. -/
inductive Adjustment where
  | daa
  | das
  | aaa
  | aas
  | aam
  | aad
  deriving DecidableEq, Repr

/-- The loop instructions by what they test besides the count. -/
inductive Loop where
  | always
  | whileZero
  | whileNotZero
  deriving DecidableEq, Repr

/-- A byte in front of an instruction that modifies it. -/
inductive Modifier where
  | segment (s : SegmentRegister)
  | lock
  | repne
  | rep
  deriving DecidableEq, Repr

/-- Whether a modifier repeats a string instruction. -/
def Modifier.isRepeat : Modifier → Bool
  | .repne | .rep => true
  | .segment _ | .lock => false

/-- What an instruction does, with its operands. The ones from `callf` on have
no meaning in a flat user program. -/
inductive Operation where
  | arithmetic (op : Arithmetic) (w : Width) (destination source : Operand)
  | unary (op : Unary) (w : Width) (operand : Operand)
  | rotate (op : Rotation) (w : Width) (operand count : Operand)
  | shift (op : Shift) (w : Width) (operand count : Operand)
  | block (op : Block) (w : Width)
  | adjust (op : Adjustment)
  | test (w : Width) (first second : Operand)
  | xchg (w : Width) (first second : Operand)
  | mov (w : Width) (destination source : Operand)
  | lea (destination : Register) (source : Operand)
  | push (source : Operand)
  | pop (destination : Operand)
  | pushf
  | popf
  | sahf
  | lahf
  | xlat
  | cbw
  | cwd
  | enter (size : UInt16) (level : UInt8)
  | leave
  | jumpIf (condition : Condition) (target : UInt16)
  | jump (target : Operand)
  | jumpShort (target : UInt16)
  | call (target : Operand)
  | ret (drop : Option UInt16)
  | loop (kind : Loop) (target : UInt16)
  | jcxz (target : UInt16)
  | interrupt (number : UInt8)
  | clc
  | stc
  | cmc
  | cli
  | sti
  | cld
  | std
  | nop
  | wait
  | escape
  /-- A modifier that no instruction follows closely enough. -/
  | modifier (m : Modifier)
  | callf (target : Operand)
  | jumpf (target : Operand)
  | retf (drop : Option UInt16)
  | loadFar (segment : SegmentRegister) (destination : Register) (source : Operand)
  | int3
  | into
  | iret
  | input (w : Width) (device : Operand)
  | output (w : Width) (device : Operand)
  | hlt
  | undefined
  deriving DecidableEq, Repr

/-- A decoded instruction. Its length counts the modifiers folded into it. -/
structure Instruction where
  operation : Operation
  length : UInt16
  modifier : Option Modifier := none
  deriving DecidableEq, Repr

def Register.name : Register → String
  | .ax => "ax"
  | .cx => "cx"
  | .dx => "dx"
  | .bx => "bx"
  | .sp => "sp"
  | .bp => "bp"
  | .si => "si"
  | .di => "di"

/-- `al`, `ah` and so on; a pointer or index register has no named halves. -/
def Half.name (h : Half) : String :=
  let letter := match h.register with
    | .ax => "a"
    | .cx => "c"
    | .dx => "d"
    | .bx => "b"
    | r => r.name
  letter ++ if h.high then "h" else "l"

def SegmentRegister.name : SegmentRegister → String
  | .es => "es"
  | .cs => "cs"
  | .ss => "ss"
  | .ds => "ds"

def Base.name : Base → String
  | .bxSi => "bx+si"
  | .bxDi => "bx+di"
  | .bpSi => "bp+si"
  | .bpDi => "bp+di"
  | .si => "si"
  | .di => "di"
  | .bp => "bp"
  | .bx => "bx"

namespace Operand

def isMemory : Operand → Bool
  | .direct _ | .based .. => true
  | _ => false

def isImmediate : Operand → Bool
  | .byteValue _ | .wordValue _ => true
  | _ => false

def render : Operand → String
  | .half h => h.name
  | .register r => r.name
  | .segment s => s.name
  | .byteValue v => hex v.toNat
  | .wordValue v | .target v => hexWord v
  | .direct a => "[" ++ hexWord a ++ "]"
  | .based base d =>
    if d = 0 then "[" ++ base.name ++ "]"
    else if d < 0x8000 then "[" ++ base.name ++ "+" ++ hex d.toNat ++ "]"
    else "[" ++ base.name ++ "-" ++ hex (0x10000 - d.toNat) ++ "]"
  | .far offset base => hexWord base ++ ":" ++ hexWord offset

end Operand

def Modifier.name : Modifier → String
  | .segment s => s.name
  | .lock => "lock"
  | .repne => "repne"
  | .rep => "rep"

def Arithmetic.name : Arithmetic → String
  | .add => "add"
  | .or => "or"
  | .adc => "adc"
  | .sbb => "sbb"
  | .and => "and"
  | .sub => "sub"
  | .xor => "xor"
  | .cmp => "cmp"

def Unary.name : Unary → String
  | .inc => "inc"
  | .dec => "dec"
  | .not => "not"
  | .neg => "neg"
  | .mul => "mul"
  | .imul => "imul"
  | .div => "div"
  | .idiv => "idiv"

def Rotation.name : Rotation → String
  | .rol => "rol"
  | .ror => "ror"
  | .rcl => "rcl"
  | .rcr => "rcr"

def Shift.name : Shift → String
  | .shl => "shl"
  | .shr => "shr"
  | .sar => "sar"

def Block.name : Block → String
  | .movs => "movs"
  | .cmps => "cmps"
  | .stos => "stos"
  | .lods => "lods"
  | .scas => "scas"

def Adjustment.name : Adjustment → String
  | .daa => "daa"
  | .das => "das"
  | .aaa => "aaa"
  | .aas => "aas"
  | .aam => "aam"
  | .aad => "aad"

def Loop.name : Loop → String
  | .always => "loop"
  | .whileZero => "loopz"
  | .whileNotZero => "loopnz"

def Test.letters : Test → String
  | .overflow => "o"
  | .below => "b"
  | .equal => "e"
  | .belowOrEqual => "be"
  | .sign => "s"
  | .parity => "p"
  | .less => "l"
  | .lessOrEqual => "le"

def Condition.name (c : Condition) : String :=
  (if c.negated then "jn" else "j") ++ c.test.letters

namespace Operation

def mnemonic : Operation → String
  | arithmetic op .. => op.name
  | unary op .. => op.name
  | rotate op .. => op.name
  | shift op .. => op.name
  | block op .byte => op.name ++ "b"
  | block op .word => op.name ++ "w"
  | adjust op => op.name
  | test .. => "test"
  | xchg .. => "xchg"
  | mov .. => "mov"
  | lea .. => "lea"
  | push _ => "push"
  | pop _ => "pop"
  | pushf => "pushf"
  | popf => "popf"
  | sahf => "sahf"
  | lahf => "lahf"
  | xlat => "xlat"
  | cbw => "cbw"
  | cwd => "cwd"
  | enter .. => "enter"
  | leave => "leave"
  | jumpIf c _ => c.name
  | jump _ => "jmp"
  | jumpShort _ => "jmp short"
  | call _ => "call"
  | ret _ => "ret"
  | loop kind _ => kind.name
  | jcxz _ => "jcxz"
  | interrupt _ => "int"
  | clc => "clc"
  | stc => "stc"
  | cmc => "cmc"
  | cli => "cli"
  | sti => "sti"
  | cld => "cld"
  | std => "std"
  | nop => "nop"
  | wait => "wait"
  | escape => "esc"
  | modifier m => m.name
  | callf _ => "callf"
  | jumpf _ => "jmpf"
  | retf _ => "retf"
  | loadFar .es .. => "les"
  | loadFar .. => "lds"
  | int3 => "int3"
  | into => "into"
  | iret => "iret"
  | input .. => "in"
  | output .. => "out"
  | hlt => "hlt"
  | undefined => "(undefined)"

/-- The accumulator of a width: `al` or `ax`. -/
def accumulator : Width → Operand
  | .byte => .half .al
  | .word => .register .ax

/-- The operands in the order in which they are printed. -/
def operands : Operation → List Operand
  | arithmetic _ _ a b => [a, b]
  | unary _ _ a => [a]
  | rotate _ _ a b => [a, b]
  | shift _ _ a b => [a, b]
  | test _ a b => [a, b]
  | xchg _ a b => [a, b]
  | mov _ a b => [a, b]
  | lea r a => [.register r, a]
  | push a => [a]
  | pop a => [a]
  | enter size level => [.wordValue size, .byteValue level]
  | jumpIf _ t => [.target t]
  | jump t => [t]
  | jumpShort t => [.target t]
  | call t => [t]
  | ret (some n) => [.wordValue n]
  | loop _ t => [.target t]
  | jcxz t => [.target t]
  | interrupt n => [.byteValue n]
  | callf t => [t]
  | jumpf t => [t]
  | retf (some n) => [.wordValue n]
  | loadFar _ r a => [.register r, a]
  | input w device => [accumulator w, device]
  | output w device => [device, accumulator w]
  | _ => []

/-- Whether the operation works on words. Short jumps and operations without
a sized operand count as not doing so. -/
def isWord : Operation → Bool
  | arithmetic _ w .. => w = .word
  | unary _ w _ => w = .word
  | rotate _ w .. => w = .word
  | shift _ w .. => w = .word
  | block _ w => w = .word
  | test w .. => w = .word
  | xchg w .. => w = .word
  | mov w .. => w = .word
  | input w _ => w = .word
  | output w _ => w = .word
  | lea .. | push _ | pop _ | enter .. | jump _ | call _ | ret (some _) => true
  | callf _ | jumpf _ | retf (some _) | loadFar .. => true
  | _ => false

/-- The mnemonic and the operands. A memory operand is marked `byte` where no
register beside it shows the width. -/
def render (op : Operation) : String :=
  match op.operands with
  | [] => op.mnemonic
  | first :: rest =>
    let unsized := match rest with
      | [] => true
      | second :: _ => second.isImmediate
    let mark := if first.isMemory && !op.isWord && unsized then "byte " else ""
    op.mnemonic ++ " " ++ mark ++ ", ".intercalate ((first :: rest).map Operand.render)

end Operation

/-- An instruction as a listing shows it, a modifier first. -/
def Instruction.render (i : Instruction) : String :=
  match i.modifier with
  | none => i.operation.render
  | some m => m.name ++ " " ++ i.operation.render

end VintageUnix.I8086
