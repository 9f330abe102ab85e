import VintageUnix.Pdp11.Instruction
import VintageUnix.Machine.Processor

/-! Decoding PDP-11 instructions. The first word fixes the form; the operand fields in it may
each take one more word, the source before the destination. -/
namespace VintageUnix.Pdp11

/-- The layout that the first word selects. Where an operand field still has to
be read, the operation waits for it. -/
inductive Form where
  | complete (op : Operation)
  /-- One operand field of six bits. -/
  | one (field : UInt16) (op : Operand → Operation)
  /-- A source field and a destination field. -/
  | two (source destination : UInt16) (op : Operand → Operand → Operation)
  /-- A target at a distance from the word after this one. -/
  | near (distance : UInt16) (op : UInt16 → Operation)

/-- A register by the low three bits of a field. -/
def Register.ofField (field : UInt16) : Register :=
  .ofNat field.toNat

/-- The operand that a six bit field selects and the length read so far, where
`length` bytes of the instruction come before its extension word. -/
def operand (code : Code) (start : UInt16) (field length : UInt16) : Operand × UInt16 :=
  let r := Register.ofField field
  let extension := code.word (start + length)
  let next := length + 2
  match (field >>> 3) &&& 7 with
  | 0 => (.register r, length)
  | 1 => (.deferred r, length)
  | 2 => if r = .pc then (.immediate extension, next) else (.increment r, length)
  | 3 => if r = .pc then (.absolute extension, next) else (.incrementDeferred r, length)
  | 4 => (.decrement r, length)
  | 5 => (.decrementDeferred r, length)
  | 6 =>
    if r = .pc then (.relative (start + next + extension), next)
    else (.indexed r extension, next)
  | _ =>
    if r = .pc then (.relativeDeferred (start + next + extension), next)
    else (.indexedDeferred r extension, next)

/-- Read the operands that a form asks for. -/
def Form.decode (code : Code) (start : UInt16) : Form → Instruction
  | .complete op => { operation := op, length := 2 }
  | .one field op =>
    let (o, length) := operand code start field 2
    { operation := op o, length }
  | .two sourceField destinationField op =>
    let (source, middle) := operand code start sourceField 2
    let (destination, length) := operand code start destinationField middle
    { operation := op source destination, length }
  | .near distance op => { operation := op (start + 2 + distance), length := 2 }

/-- The condition with the given number in the encoding, which has no seventh. -/
def Condition.ofCode? (code : UInt16) : Option Condition :=
  match code with
  | 0 => some .always
  | 1 => some .notEqual
  | 2 => some .equal
  | 3 => some .greaterOrEqual
  | 4 => some .less
  | 5 => some .greater
  | 6 => some .lessOrEqual
  | 8 => some .plus
  | 9 => some .minus
  | 10 => some .higher
  | 11 => some .lowerOrSame
  | 12 => some .overflowClear
  | 13 => some .overflowSet
  | 14 => some .carryClear
  | 15 => some .carrySet
  | _ => none

/-- The single operand group by its place in the encoding, from `clr` on. -/
def Single.ofCode? (code : UInt16) : Option Single :=
  match code with
  | 0 => some .clr
  | 1 => some .com
  | 2 => some .inc
  | 3 => some .dec
  | 4 => some .neg
  | 5 => some .adc
  | 6 => some .sbc
  | 7 => some .tst
  | 8 => some .ror
  | 9 => some .rol
  | 10 => some .asr
  | 11 => some .asl
  | _ => none

namespace Form

/-- The width that the top bit of an instruction selects. -/
def topWidth (w : UInt16) : Width :=
  if Word.bit w 15 then .byte else .word

/-- The double operand group: the top four bits select the operation and its
width. In place of an add of bytes there is a subtraction of words. -/
def doubleGroup (w : UInt16) : Form :=
  let form (op : Double) (width : Width) : Form := .two (w >>> 6) w (.double op width)
  match (w >>> 12) &&& 7 with
  | 1 => form .mov (topWidth w)
  | 2 => form .cmp (topWidth w)
  | 3 => form .bit (topWidth w)
  | 4 => form .bic (topWidth w)
  | 5 => form .bis (topWidth w)
  | _ => if Word.bit w 15 then form .sub .word else form .add .word

/-- The extended set, whose second operand is a register. -/
def extendedGroup (w : UInt16) : Form :=
  let r := Register.ofField (w >>> 6)
  match (w >>> 9) &&& 7 with
  | 0 => .one w fun s => .extended .mul s r
  | 1 => .one w fun s => .extended .div s r
  | 2 => .one w fun s => .extended .ash s r
  | 3 => .one w fun s => .extended .ashc s r
  | 4 => .one w (.xor r)
  | 7 => .near (0 - (w &&& 0x3f) * 2) (.sob r)
  | _ => .complete .undefined

/-- The distance of a branch in bytes: its low byte counts words and is signed. -/
def branchDistance (w : UInt16) : UInt16 :=
  Word.signExtend (Word.low w) * 2

/-- The branches. -/
def branchGroup (w : UInt16) : Form :=
  let index := (w >>> 8) &&& 7
  let code := if Word.bit w 15 then index + 8 else index - 1
  match Condition.ofCode? code with
  | some c => .near (branchDistance w) (.branch c)
  | none => .complete .undefined

/-- The words below octal 400: control, jumps, condition codes and `swab`. -/
def controlGroup (w : UInt16) : Form :=
  if w < 0o100 then
    match w with
    | 0 => .complete (.privileged .halt)
    | 1 => .complete (.privileged .wait)
    | 2 => .complete (.privileged .rti)
    | 3 => .complete (.privileged .bpt)
    | 4 => .complete (.privileged .iot)
    | 5 => .complete (.privileged .reset)
    | 6 => .complete (.privileged .rtt)
    | _ => .complete .undefined
  else if w < 0o200 then
    if w &&& 0o70 = 0 then .complete .undefined else .one w .jmp
  else if w < 0o210 then .complete (.rts (Register.ofField w))
  else if w < 0o240 then .complete .undefined
  else if w < 0o260 then .complete (.clear (w &&& 0xf))
  else if w < 0o300 then .complete (.set (w &&& 0xf))
  else .one w .swab

/-- The words from octal 4000 to 7777 and the same with the top bit, except for
the traps: subroutine calls, the single operand group and a few moves. -/
def singleGroup (w : UInt16) : Form :=
  let selector := (w >>> 6) &&& 0o77
  match Single.ofCode? (selector - 0o50) with
  | some op => .one w (.single op (topWidth w))
  | none =>
    match Word.bit w 15, selector with
    | false, 0o64 => .complete (.mark (w &&& 0o77))
    | false, 0o65 => .one w (.transfer .mfpi)
    | false, 0o66 => .one w (.transfer .mtpi)
    | false, 0o67 => .one w .sxt
    | true, 0o64 => .one w (.transfer .mtps)
    | true, 0o65 => .one w (.transfer .mfpd)
    | true, 0o66 => .one w (.transfer .mtpd)
    | true, 0o67 => .one w (.transfer .mfps)
    | _, _ => .complete .undefined

/-- Subroutine calls, and the traps in the same place with the top bit. -/
def callGroup (w : UInt16) : Form :=
  if Word.bit w 15 then
    if w &&& 0o400 = 0 then .complete (.emt (Word.low w)) else .complete (.sys (Word.low w))
  else if w &&& 0o70 = 0 then .complete .undefined
  else .one w (.jsr (Register.ofField (w >>> 6)))

/-- The form that the first word of an instruction selects. -/
def ofWord (w : UInt16) : Form :=
  match (w >>> 12) &&& 7 with
  | 0 =>
    if w < 0o400 then controlGroup w
    else if w &&& 0o4000 = 0 then branchGroup w
    else if w &&& 0o7000 = 0o4000 then callGroup w
    else singleGroup w
  | 7 =>
    if Word.bit w 15 then .one w fun _ => .float else extendedGroup w
  | _ => doubleGroup w

end Form

/-- The instruction at `start`. Words that encode nothing give the undefined
instruction of length two, so decoding always succeeds. -/
def decode (code : Code) (start : UInt16) : Instruction :=
  (Form.ofWord (code.word start)).decode code start

end VintageUnix.Pdp11
