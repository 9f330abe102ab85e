import VintageUnix.Word.Bits
import VintageUnix.Text.Numeral
import VintageUnix.Word.Width

/-! Decoded instructions of the PDP-11, and how a listing prints them. -/
namespace VintageUnix.Pdp11

open Numeral (hexWord octal)

/-- A register by number: `r0` to `r5`, then the stack pointer and the program
counter. -/
abbrev Register := Fin 8

/-- The register with a number. Only its low three bits count. -/
def Register.ofNat (n : Nat) : Register :=
  ⟨n % 8, Nat.mod_lt n (by decide)⟩

def Register.r0 : Register := .ofNat 0
def Register.r1 : Register := .ofNat 1
def Register.r5 : Register := .ofNat 5
def Register.sp : Register := .ofNat 6
def Register.pc : Register := .ofNat 7

/-- An operand. The four modes that mean something else on the program counter
have constructors of their own, with addresses already made absolute. -/
inductive Operand where
  | register (r : Register)
  /-- The register holds the address. -/
  | deferred (r : Register)
  /-- The register holds the address and then steps up. -/
  | increment (r : Register)
  /-- The register holds the address of the address and then steps up. -/
  | incrementDeferred (r : Register)
  /-- The register steps down and then holds the address. -/
  | decrement (r : Register)
  /-- The register steps down and then holds the address of the address. -/
  | decrementDeferred (r : Register)
  | indexed (r : Register) (index : UInt16)
  | indexedDeferred (r : Register) (index : UInt16)
  | immediate (v : UInt16)
  | absolute (address : UInt16)
  | relative (address : UInt16)
  /-- The address of the address, relative to the program counter. -/
  | relativeDeferred (address : UInt16)
  deriving DecidableEq, Repr

/-- The operations with a source and a destination. -/
inductive Double where
  | mov
  | cmp
  | bit
  | bic
  | bis
  | add
  | sub
  deriving DecidableEq, Repr

/-- The operations with one destination. -/
inductive Single where
  | clr
  | com
  | inc
  | dec
  | neg
  | adc
  | sbc
  | tst
  | ror
  | rol
  | asr
  | asl
  deriving DecidableEq, Repr

/-- The operations of the extended set, from a source into a register. -/
inductive Extended where
  | mul
  | div
  | ash
  | ashc
  deriving DecidableEq, Repr

/-- The conditions of the branches. -/
inductive Condition where
  | always
  | notEqual
  | equal
  | greaterOrEqual
  | less
  | greater
  | lessOrEqual
  | plus
  | minus
  | higher
  | lowerOrSame
  | overflowClear
  | overflowSet
  | carryClear
  | carrySet
  deriving DecidableEq, Repr

/-- The operations with no meaning in a user program. -/
inductive Privileged where
  | halt
  | wait
  | rti
  | bpt
  | iot
  | reset
  | rtt
  deriving DecidableEq, Repr

/-- The moves between address spaces and to the status word. -/
inductive Transfer where
  | mfpi
  | mtpi
  | mfpd
  | mtpd
  | mfps
  | mtps
  deriving DecidableEq, Repr

inductive Operation where
  | double (op : Double) (w : Width) (source destination : Operand)
  | single (op : Single) (w : Width) (destination : Operand)
  | extended (op : Extended) (source : Operand) (r : Register)
  | swab (destination : Operand)
  | sxt (destination : Operand)
  | xor (r : Register) (destination : Operand)
  | sob (r : Register) (target : UInt16)
  | branch (condition : Condition) (target : UInt16)
  | jmp (target : Operand)
  | jsr (link : Register) (target : Operand)
  | rts (link : Register)
  | mark (count : UInt16)
  /-- Clear the condition codes of a mask, carry being the lowest bit. -/
  | clear (mask : UInt16)
  | set (mask : UInt16)
  | sys (number : UInt8)
  | emt (number : UInt8)
  | privileged (op : Privileged)
  | transfer (op : Transfer) (operand : Operand)
  /-- A floating point instruction, which does nothing. -/
  | float
  | undefined
  deriving DecidableEq, Repr

/-- A decoded instruction and its length in bytes with all extension words. -/
structure Instruction where
  operation : Operation
  length : UInt16
  deriving DecidableEq, Repr

def Register.name (r : Register) : String :=
  match r with
  | 6 => "sp"
  | 7 => "pc"
  | _ => "r" ++ toString r.val

def Operand.render : Operand → String
  | .register r => Register.name r
  | .deferred r => "(" ++ Register.name r ++ ")"
  | .increment r => "(" ++ Register.name r ++ ")+"
  | .incrementDeferred r => "*(" ++ Register.name r ++ ")+"
  | .decrement r => "-(" ++ Register.name r ++ ")"
  | .decrementDeferred r => "*-(" ++ Register.name r ++ ")"
  | .indexed r x => hexWord x ++ "(" ++ Register.name r ++ ")"
  | .indexedDeferred r x => "*" ++ hexWord x ++ "(" ++ Register.name r ++ ")"
  | .immediate v => "$" ++ hexWord v
  | .absolute a => "*$" ++ hexWord a
  | .relative a => hexWord a
  | .relativeDeferred a => "*" ++ hexWord a

def Double.name : Double → String
  | .mov => "mov"
  | .cmp => "cmp"
  | .bit => "bit"
  | .bic => "bic"
  | .bis => "bis"
  | .add => "add"
  | .sub => "sub"

def Single.name : Single → String
  | .clr => "clr"
  | .com => "com"
  | .inc => "inc"
  | .dec => "dec"
  | .neg => "neg"
  | .adc => "adc"
  | .sbc => "sbc"
  | .tst => "tst"
  | .ror => "ror"
  | .rol => "rol"
  | .asr => "asr"
  | .asl => "asl"

def Extended.name : Extended → String
  | .mul => "mul"
  | .div => "div"
  | .ash => "ash"
  | .ashc => "ashc"

def Condition.name : Condition → String
  | .always => "br"
  | .notEqual => "bne"
  | .equal => "beq"
  | .greaterOrEqual => "bge"
  | .less => "blt"
  | .greater => "bgt"
  | .lessOrEqual => "ble"
  | .plus => "bpl"
  | .minus => "bmi"
  | .higher => "bhi"
  | .lowerOrSame => "blos"
  | .overflowClear => "bvc"
  | .overflowSet => "bvs"
  | .carryClear => "bcc"
  | .carrySet => "bcs"

def Privileged.name : Privileged → String
  | .halt => "halt"
  | .wait => "wait"
  | .rti => "rti"
  | .bpt => "bpt"
  | .iot => "iot"
  | .reset => "reset"
  | .rtt => "rtt"

def Transfer.name : Transfer → String
  | .mfpi => "mfpi"
  | .mtpi => "mtpi"
  | .mfpd => "mfpd"
  | .mtpd => "mtpd"
  | .mfps => "mfps"
  | .mtps => "mtps"

/-- The letters of a condition code mask, highest bit first. -/
def maskLetters (mask : UInt16) : String :=
  String.join <| [(3, "n"), (2, "z"), (1, "v"), (0, "c")].map fun (index, letter) =>
    if Word.bit mask index then letter else ""

/-- The name of an instruction that changes condition codes: `nop` for none of
them, `ccc` or `scc` for all four, otherwise a verb and their letters. -/
def maskName (verb all : String) (mask : UInt16) : String :=
  if mask = 0 then "nop" else if mask = 0xf then all else verb ++ maskLetters mask

/-- The operands in the order in which they are printed. -/
def Operation.operands : Operation → List String
  | .double _ _ s d => [s.render, d.render]
  | .single _ _ d => [d.render]
  | .extended _ s r => [s.render, Register.name r]
  | .swab d | .sxt d | .jmp d | .transfer _ d => [d.render]
  | .xor r d | .jsr r d => [Register.name r, d.render]
  | .sob r t => [Register.name r, hexWord t]
  | .branch _ t => [hexWord t]
  | .rts r => [Register.name r]
  | .mark n => [toString n.toNat]
  | .sys n => [toString n.toNat]
  | .emt n => [octal n.toNat]
  | .clear _ | .set _ | .privileged _ | .float | .undefined => []

/-- The letter after the name of an operation on bytes. -/
def widthSuffix : Width → String
  | .byte => "b"
  | .word => ""

def Operation.mnemonic : Operation → String
  | .double op w .. => op.name ++ widthSuffix w
  | .single op w _ => op.name ++ widthSuffix w
  | .extended op .. => op.name
  | .swab _ => "swab"
  | .sxt _ => "sxt"
  | .xor .. => "xor"
  | .sob .. => "sob"
  | .branch c _ => c.name
  | .jmp _ => "jmp"
  | .jsr .. => "jsr"
  | .rts _ => "rts"
  | .mark _ => "mark"
  | .clear mask => maskName "cl" "ccc" mask
  | .set mask => maskName "se" "scc" mask
  | .sys _ => "sys"
  | .emt _ => "emt"
  | .privileged op => op.name
  | .transfer op _ => op.name
  | .float => "(fpu)"
  | .undefined => "(undefined)"

/-- An instruction as a listing shows it. -/
def Instruction.render (i : Instruction) : String :=
  match i.operation.operands with
  | [] => i.operation.mnemonic
  | operands => i.operation.mnemonic ++ " " ++ ", ".intercalate operands

end VintageUnix.Pdp11
