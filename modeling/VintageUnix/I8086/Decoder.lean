import VintageUnix.I8086.Instruction

/-! Decoding 8086 instructions. The first byte alone fixes the form of an instruction: which
bytes follow it and what they mean. Reading those bytes is a second step, so everything that
depends on the code is in `Form.decode`. -/
namespace VintageUnix.I8086

/-- The layout of the bytes after the first one, with the operation that they
complete. The forms with a register field can turn out to encode nothing. -/
inductive Form where
  /-- No bytes follow that matter; the length may still count some. -/
  | complete (length : UInt16) (op : Operation)
  /-- A signed byte, relative to the end of the instruction. -/
  | shortTarget (op : UInt16 → Operation)
  /-- A word, relative to the end of the instruction. -/
  | nearTarget (op : UInt16 → Operation)
  /-- An offset and a segment. -/
  | farTarget (op : Operand → Operation)
  | byteValue (op : UInt8 → Operation)
  | wordValue (op : UInt16 → Operation)
  /-- A word and then a byte. -/
  | wordAndByte (op : UInt16 → UInt8 → Operation)
  /-- The base ten, the only one supported for these adjustments. -/
  | baseTen (op : Operation)
  /-- A register field and an operand field. -/
  | fields (w : Width) (op : UInt8 → Operand → Option Operation)
  /-- The same, with a byte value after them. -/
  | fieldsByte (w : Width) (op : UInt8 → Operand → UInt8 → Option Operation)
  /-- The same, with a word value after them. -/
  | fieldsWord (w : Width) (op : UInt8 → Operand → UInt16 → Option Operation)
  /-- A value of the width follows only if the register field is zero. -/
  | fieldsOrTest (w : Width) (op : UInt8 → Operand → Option Operation)
  | undefined

/-- The register operand of a width with a three bit encoding. -/
def registerOperand (w : Width) (code : UInt8) : Operand :=
  match w with
  | .byte => .half (Half.ofCode code)
  | .word => .register (Register.ofCode code)

def SegmentRegister.ofCode (code : UInt8) : SegmentRegister :=
  match code &&& 3 with
  | 0 => .es
  | 1 => .cs
  | 2 => .ss
  | _ => .ds

def Base.ofCode (code : UInt8) : Base :=
  match code &&& 7 with
  | 0 => .bxSi
  | 1 => .bxDi
  | 2 => .bpSi
  | 3 => .bpDi
  | 4 => .si
  | 5 => .di
  | 6 => .bp
  | _ => .bx

def Arithmetic.ofCode (code : UInt8) : Arithmetic :=
  match code &&& 7 with
  | 0 => .add
  | 1 => .or
  | 2 => .adc
  | 3 => .sbb
  | 4 => .and
  | 5 => .sub
  | 6 => .xor
  | _ => .cmp

/-- The rotation or shift of `m` that a register field selects; one of the eight
is not in use. -/
def shiftOperation (w : Width) (field : UInt8) (m count : Operand) : Option Operation :=
  match field &&& 7 with
  | 0 => some (.rotate .rol w m count)
  | 1 => some (.rotate .ror w m count)
  | 2 => some (.rotate .rcl w m count)
  | 3 => some (.rotate .rcr w m count)
  | 4 => some (.shift .shl w m count)
  | 5 => some (.shift .shr w m count)
  | 6 => none
  | _ => some (.shift .sar w m count)

/-- The bit of an opcode that usually tells words from bytes. -/
def opcodeWidth (b : UInt8) : Width :=
  if b &&& 1 = 0 then .byte else .word

namespace Form

/-- The form of opcodes below `40`: the arithmetic group in six forms each,
segment register pushes and pops, segment modifiers and decimal corrections. -/
def arithmeticGroup (b : UInt8) : Form :=
  let w := opcodeWidth b
  let op := Arithmetic.ofCode (b >>> 3)
  let segment := SegmentRegister.ofCode (b >>> 3)
  match b &&& 7 with
  | 0 | 1 => .fields w fun r m => some (.arithmetic op w m (registerOperand w r))
  | 2 | 3 => .fields w fun r m => some (.arithmetic op w (registerOperand w r) m)
  | 4 => .byteValue fun v => .arithmetic op .byte (.half .al) (.byteValue v)
  | 5 => .wordValue fun v => .arithmetic op .word (.register .ax) (.wordValue v)
  | 6 =>
    if b < 0x20 then .complete 1 (.push (.segment segment))
    else .complete 1 (.modifier (.segment segment))
  | _ =>
    match b with
    | 0x07 | 0x17 | 0x1f => .complete 1 (.pop (.segment segment))
    | 0x27 => .complete 1 (.adjust .daa)
    | 0x2f => .complete 1 (.adjust .das)
    | 0x37 => .complete 1 (.adjust .aaa)
    | 0x3f => .complete 1 (.adjust .aas)
    | _ => .undefined

/-- The memory operand that instructions which need an address insist on. -/
def ifMemory (op : Operation) (m : Operand) : Option Operation :=
  if m.isMemory then some op else none

/-- The form of opcodes `80` to `8f`: the arithmetic group with an immediate
value, and the moves and exchanges. -/
def moveGroup (b : UInt8) : Form :=
  let w := opcodeWidth b
  match b with
  | 0x81 => .fieldsWord .word fun f m v =>
      some (.arithmetic (.ofCode f) .word m (.wordValue v))
  | 0x83 => .fieldsByte .word fun f m v =>
      some (.arithmetic (.ofCode f) .word m (.wordValue (Word.signExtend v)))
  | 0x80 | 0x82 => .fieldsByte .byte fun f m v =>
      some (.arithmetic (.ofCode f) .byte m (.byteValue v))
  | 0x84 | 0x85 => .fields w fun r m => some (.test w m (registerOperand w r))
  | 0x86 | 0x87 => .fields w fun r m => some (.xchg w m (registerOperand w r))
  | 0x88 | 0x89 => .fields w fun r m => some (.mov w m (registerOperand w r))
  | 0x8a | 0x8b => .fields w fun r m => some (.mov w (registerOperand w r) m)
  | 0x8c => .fields .word fun r m => some (.mov .word m (.segment (.ofCode r)))
  | 0x8d => .fields .word fun r m => ifMemory (.lea (.ofCode r) m) m
  | 0x8e => .fields .word fun r m => some (.mov .word (.segment (.ofCode r)) m)
  | _ => .fields .word fun f m => if f = 0 then some (.pop m) else none

/-- The form of opcodes `98` to `af`. -/
def accumulatorGroup (b : UInt8) : Form :=
  let w := opcodeWidth b
  match b with
  | 0x98 => .complete 1 .cbw
  | 0x99 => .complete 1 .cwd
  | 0x9a => .farTarget .callf
  | 0x9b => .complete 1 .wait
  | 0x9c => .complete 1 .pushf
  | 0x9d => .complete 1 .popf
  | 0x9e => .complete 1 .sahf
  | 0x9f => .complete 1 .lahf
  | 0xa0 | 0xa1 => .wordValue fun a => .mov w (Operation.accumulator w) (.direct a)
  | 0xa2 | 0xa3 => .wordValue fun a => .mov w (.direct a) (Operation.accumulator w)
  | 0xa4 | 0xa5 => .complete 1 (.block .movs w)
  | 0xa6 | 0xa7 => .complete 1 (.block .cmps w)
  | 0xa8 => .byteValue fun v => .test .byte (.half .al) (.byteValue v)
  | 0xa9 => .wordValue fun v => .test .word (.register .ax) (.wordValue v)
  | 0xaa | 0xab => .complete 1 (.block .stos w)
  | 0xac | 0xad => .complete 1 (.block .lods w)
  | _ => .complete 1 (.block .scas w)

/-- The form of opcodes `c0` to `cf`. -/
def returnGroup (b : UInt8) : Form :=
  let w := opcodeWidth b
  match b with
  | 0xc0 | 0xc1 => .fieldsByte w fun f m v => shiftOperation w f m (.byteValue v)
  | 0xc2 => .wordValue fun n => .ret (some n)
  | 0xc3 => .complete 1 (.ret none)
  | 0xc4 => .fields .word fun r m => ifMemory (.loadFar .es (.ofCode r) m) m
  | 0xc5 => .fields .word fun r m => ifMemory (.loadFar .ds (.ofCode r) m) m
  | 0xc6 => .fieldsByte .byte fun f m v =>
      if f = 0 then some (.mov .byte m (.byteValue v)) else none
  | 0xc7 => .fieldsWord .word fun f m v =>
      if f = 0 then some (.mov .word m (.wordValue v)) else none
  | 0xc8 => .wordAndByte .enter
  | 0xc9 => .complete 1 .leave
  | 0xca => .wordValue fun n => .retf (some n)
  | 0xcb => .complete 1 (.retf none)
  | 0xcc => .complete 1 .int3
  | 0xcd => .byteValue .interrupt
  | 0xce => .complete 1 .into
  | _ => .complete 1 .iret

/-- The form of opcodes `d0` to `df`. -/
def shiftGroup (b : UInt8) : Form :=
  let w := opcodeWidth b
  match b with
  | 0xd0 | 0xd1 => .fields w fun f m => shiftOperation w f m (.byteValue 1)
  | 0xd2 | 0xd3 => .fields w fun f m => shiftOperation w f m (.half .cl)
  | 0xd4 => .baseTen (.adjust .aam)
  | 0xd5 => .baseTen (.adjust .aad)
  | 0xd6 => .undefined
  | 0xd7 => .complete 1 .xlat
  | _ => .complete 2 .escape

/-- The form of opcodes `e0` to `ef`. -/
def jumpGroup (b : UInt8) : Form :=
  let w := opcodeWidth b
  match b with
  | 0xe0 => .shortTarget (.loop .whileNotZero)
  | 0xe1 => .shortTarget (.loop .whileZero)
  | 0xe2 => .shortTarget (.loop .always)
  | 0xe3 => .shortTarget .jcxz
  | 0xe4 | 0xe5 => .byteValue fun p => .input w (.byteValue p)
  | 0xe6 | 0xe7 => .byteValue fun p => .output w (.byteValue p)
  | 0xe8 => .nearTarget fun t => .call (.target t)
  | 0xe9 => .nearTarget fun t => .jump (.target t)
  | 0xea => .farTarget .jumpf
  | 0xeb => .shortTarget .jumpShort
  | 0xec | 0xed => .complete 1 (.input w (.register .dx))
  | _ => .complete 1 (.output w (.register .dx))

/-- The one-operand operations selected by the register field of `f6` and `f7`. -/
def unaryOperation (w : Width) (field : UInt8) (m : Operand) : Option Operation :=
  match field with
  | 2 => some (.unary .not w m)
  | 3 => some (.unary .neg w m)
  | 4 => some (.unary .mul w m)
  | 5 => some (.unary .imul w m)
  | 6 => some (.unary .div w m)
  | 7 => some (.unary .idiv w m)
  | _ => none

/-- The operations selected by the register field of `ff`. -/
def wordOperation (field : UInt8) (m : Operand) : Option Operation :=
  match field with
  | 0 => some (.unary .inc .word m)
  | 1 => some (.unary .dec .word m)
  | 2 => some (.call m)
  | 3 => some (.callf m)
  | 4 => some (.jump m)
  | 5 => some (.jumpf m)
  | 6 => some (.push m)
  | _ => none

/-- The operations selected by the register field of `fe`. -/
def byteOperation (field : UInt8) (m : Operand) : Option Operation :=
  match field with
  | 0 => some (.unary .inc .byte m)
  | 1 => some (.unary .dec .byte m)
  | _ => none

/-- The form of opcodes from `f0` on. -/
def controlGroup (b : UInt8) : Form :=
  match b with
  | 0xf0 => .complete 1 (.modifier .lock)
  | 0xf1 => .undefined
  | 0xf2 => .complete 1 (.modifier .repne)
  | 0xf3 => .complete 1 (.modifier .rep)
  | 0xf4 => .complete 1 .hlt
  | 0xf5 => .complete 1 .cmc
  | 0xf6 => .fieldsOrTest .byte (unaryOperation .byte)
  | 0xf7 => .fieldsOrTest .word (unaryOperation .word)
  | 0xf8 => .complete 1 .clc
  | 0xf9 => .complete 1 .stc
  | 0xfa => .complete 1 .cli
  | 0xfb => .complete 1 .sti
  | 0xfc => .complete 1 .cld
  | 0xfd => .complete 1 .std
  | 0xfe => .fields .byte byteOperation
  | _ => .fields .word wordOperation

/-- The form that the first byte of an instruction selects. -/
def ofOpcode (b : UInt8) : Form :=
  if b < 0x40 then arithmeticGroup b
  else if b < 0x48 then .complete 1 (.unary .inc .word (.register (.ofCode b)))
  else if b < 0x50 then .complete 1 (.unary .dec .word (.register (.ofCode b)))
  else if b < 0x58 then .complete 1 (.push (.register (.ofCode b)))
  else if b < 0x60 then .complete 1 (.pop (.register (.ofCode b)))
  else if b < 0x70 then .undefined
  else if b < 0x80 then .shortTarget (.jumpIf (.ofCode b))
  else if b < 0x90 then moveGroup b
  else if b = 0x90 then .complete 1 .nop
  else if b < 0x98 then .complete 1 (.xchg .word (.register (.ofCode b)) (.register .ax))
  else if b < 0xb0 then accumulatorGroup b
  else if b < 0xb8 then .byteValue fun v => .mov .byte (.half (.ofCode b)) (.byteValue v)
  else if b < 0xc0 then .wordValue fun v => .mov .word (.register (.ofCode b)) (.wordValue v)
  else if b < 0xd0 then returnGroup b
  else if b < 0xe0 then shiftGroup b
  else if b < 0xf0 then jumpGroup b
  else controlGroup b

end Form

/-- The register field of the second byte of an instruction. -/
def registerField (code : Code) (start : UInt16) : UInt8 :=
  (code (start + 1) >>> 3) &&& 7

/-- The operand field of the second byte, with the displacement that may follow
it, and the length of the instruction up to there. -/
def operandField (code : Code) (start : UInt16) (w : Width) : Operand × UInt16 :=
  let second := code (start + 1)
  let base := Base.ofCode second
  match second >>> 6 with
  | 0 =>
    if second &&& 7 = 6 then (.direct (code.word (start + 2)), 4)
    else (.based base 0, 2)
  | 1 => (.based base (Word.signExtend (code (start + 2))), 3)
  | 2 => (.based base (code.word (start + 2)), 4)
  | _ => (registerOperand w second, 2)

/-- The placeholder for bytes that encode nothing. It takes one byte. -/
def Instruction.undefined : Instruction where
  operation := .undefined
  length := 1

/-- The instruction with an operation, or the placeholder. -/
def Instruction.ofOption (length : UInt16) : Option Operation → Instruction
  | some op => { operation := op, length }
  | none => .undefined

/-- Read the bytes that a form asks for. -/
def Form.decode (code : Code) (start : UInt16) : Form → Instruction
  | .complete length op => { operation := op, length }
  | .shortTarget op =>
    { operation := op (start + 2 + Word.signExtend (code (start + 1))), length := 2 }
  | .nearTarget op => { operation := op (start + 3 + code.word (start + 1)), length := 3 }
  | .farTarget op =>
    { operation := op (.far (code.word (start + 1)) (code.word (start + 3))), length := 5 }
  | .byteValue op => { operation := op (code (start + 1)), length := 2 }
  | .wordValue op => { operation := op (code.word (start + 1)), length := 3 }
  | .wordAndByte op =>
    { operation := op (code.word (start + 1)) (code (start + 3)), length := 4 }
  | .baseTen op =>
    .ofOption 2 (if code (start + 1) = 0x0a then some op else none)
  | .fields w op =>
    let (m, length) := operandField code start w
    .ofOption length (op (registerField code start) m)
  | .fieldsByte w op =>
    let (m, length) := operandField code start w
    .ofOption (length + 1) (op (registerField code start) m (code (start + length)))
  | .fieldsWord w op =>
    let (m, length) := operandField code start w
    .ofOption (length + 2) (op (registerField code start) m (code.word (start + length)))
  | .fieldsOrTest w op =>
    let (m, length) := operandField code start w
    if registerField code start = 0 then
      match w with
      | .byte =>
        { operation := .test .byte m (.byteValue (code (start + length))), length := length + 1 }
      | .word =>
        { operation := .test .word m (.wordValue (code.word (start + length))),
          length := length + 2 }
    else .ofOption length (op (registerField code start) m)
  | .undefined => .undefined

/-- The instruction at `start`. Bytes that encode nothing give the undefined
instruction of length one, so decoding always succeeds. -/
def decode (code : Code) (start : UInt16) : Instruction :=
  (Form.ofOpcode (code start)).decode code start

/-- The most modifier bytes that are folded into one instruction. -/
def maxModifiers : Nat := 15

/-- Of two modifiers the later one counts, except that a repetition stays. -/
def Modifier.combine (earlier : Option Modifier) (later : Modifier) : Option Modifier :=
  match earlier with
  | some m => if m.isRepeat then some m else some later
  | none => some later

/-- Fold up to `budget` more modifiers into the instruction after them, when
`length` bytes and the modifier `earlier` have been read. -/
def fold (code : Code) (start : UInt16) :
    (budget : Nat) → (length : UInt16) → (earlier : Option Modifier) → Instruction
  | 0, length, earlier =>
    let i := decode code (start + length)
    { i with length := i.length + length, modifier := earlier }
  | budget + 1, length, earlier =>
    let i := decode code (start + length)
    match i.operation with
    | .modifier m => fold code start budget (length + i.length) (Modifier.combine earlier m)
    | _ => { i with length := i.length + length, modifier := earlier }

/-- The instruction at `start` with the modifiers in front of it folded in, as
it is executed. -/
def decodeFolded (code : Code) (start : UInt16) : Instruction :=
  fold code start maxModifiers 0 none

end VintageUnix.I8086
