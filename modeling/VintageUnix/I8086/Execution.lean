import VintageUnix.I8086.Arithmetic
import VintageUnix.I8086.Decoder

/-! Executing 8086 instructions. Memory is flat: segment registers cannot be used and segment
modifiers have no effect. -/
namespace VintageUnix.I8086

/-- Where an operand is, once its address has been computed. -/
inductive Location where
  | half (h : Half)
  | register (r : Register)
  | memory (address : UInt16)
  | constant (v : UInt16)
  deriving DecidableEq, Repr

namespace Cpu

/-- The address of a base plus a displacement, wrapping. -/
def effectiveAddress (c : Cpu) (base : Base) (displacement : UInt16) : UInt16 :=
  let start := match base with
    | .bxSi => c.get .bx + c.get .si
    | .bxDi => c.get .bx + c.get .di
    | .bpSi => c.get .bp + c.get .si
    | .bpDi => c.get .bp + c.get .di
    | .si => c.get .si
    | .di => c.get .di
    | .bp => c.get .bp
    | .bx => c.get .bx
  start + displacement

/-- Find an operand. Segment registers and far addresses are nowhere. -/
def locate (c : Cpu) : Operand → Except Fault Location
  | .half h => .ok (.half h)
  | .register r => .ok (.register r)
  | .byteValue v => .ok (.constant v.toUInt16)
  | .wordValue v | .target v => .ok (.constant v)
  | .direct a => .ok (.memory a)
  | .based base d => .ok (.memory (c.effectiveAddress base d))
  | .segment _ | .far .. => .error .unimplementedInstruction

/-- The low part of the accumulator pair: `al`, or `ax`. -/
def lowAccumulator (c : Cpu) : (w : Width) → BitVec w.bits
  | .byte => (c.getHalf .al).toBitVec
  | .word => (c.get .ax).toBitVec

/-- The high part of the accumulator pair: `ah`, or `dx`. -/
def highAccumulator (c : Cpu) : (w : Width) → BitVec w.bits
  | .byte => (c.getHalf .ah).toBitVec
  | .word => (c.get .dx).toBitVec

/-- Replace both parts of the accumulator pair. -/
def setAccumulators (c : Cpu) : (w : Width) → (low high : BitVec w.bits) → Cpu
  | .byte, low, high => (c.setHalf .al ⟨low⟩).setHalf .ah ⟨high⟩
  | .word, low, high => (c.set .ax ⟨low⟩).set .dx ⟨high⟩

/-- Replace the low part of the accumulator pair only. -/
def setLowAccumulator (c : Cpu) : (w : Width) → BitVec w.bits → Cpu
  | .byte, v => c.setHalf .al ⟨v⟩
  | .word, v => c.set .ax ⟨v⟩

end Cpu

/-- The state that 8086 instructions transform. -/
abbrev State := Machine Cpu

/-- Read a value of a width. -/
def load (m : State) (w : Width) : Location → BitVec w.bits
  | .half h => (m.cpu.getHalf h).toBitVec.setWidth w.bits
  | .register r => (m.cpu.get r).toBitVec.setWidth w.bits
  | .memory a =>
    match w with
    | .byte => (m.memory.byte a).toBitVec
    | .word => (m.memory.word a).toBitVec
  | .constant v => v.toBitVec.setWidth w.bits

/-- Write a value of a width. Constants stay as they are. -/
def store (w : Width) (location : Location) (v : BitVec w.bits) (m : State) : State :=
  match location with
  | .half h => m.mapCpu (·.setHalf h ⟨v.setWidth 8⟩)
  | .register r => m.mapCpu (·.set r ⟨v.setWidth 16⟩)
  | .memory a =>
    match w, v with
    | .byte, v => m.mapMemory (·.setByte a ⟨v⟩)
    | .word, v => m.mapMemory (·.setWord a ⟨v⟩)
  | .constant _ => m

/-- Read a word operand. -/
def loadWord (m : State) (location : Location) : UInt16 :=
  ⟨load m .word location⟩

/-- Replace the flags. -/
def setFlags (f : Flags) (m : State) : State :=
  m.mapCpu fun c => { c with flags := f }

/-- Replace one flag. -/
def putFlag (flag : Flag) (value : Bool) (m : State) : State :=
  m.mapCpu (·.putFlag flag value)

/-- Continue at `address`. -/
def jumpTo (address : UInt16) (m : State) : State :=
  m.mapCpu fun c => { c with ip := address }

/-- Put a computed value into a location and its flags into the flag register. -/
def put {w : Width} (location : Location) (result : BitVec w.bits × Flags) (m : State) : State :=
  m |> setFlags result.2 |> store w location result.1

/-- How far a string instruction steps: the element size, negative if the
direction flag is set. -/
def stride (f : Flags) (w : Width) : UInt16 :=
  if f.get .direction then 0 - w.size else w.size

/-- Step an index register past one element. -/
def advance (w : Width) (r : Register) (m : State) : State :=
  m.mapCpu fun c => c.set r (c.get r + stride c.flags w)

/-- Set the flags as a comparison of two values does. -/
def compare {w : Width} (x y : BitVec w.bits) (m : State) : State :=
  setFlags (Arithmetic.cmp.compute m.cpu.flags x y).2 m

/-- One element of a string instruction. -/
def blockStep (op : Block) (w : Width) (m : State) : State :=
  let source := Location.memory (m.cpu.get .si)
  let destination := Location.memory (m.cpu.get .di)
  match op with
  | .movs => m |> store w destination (load m w source) |> advance w .si |> advance w .di
  | .cmps =>
    m |> compare (load m w source) (load m w destination) |> advance w .si |> advance w .di
  | .stos => m |> store w destination (m.cpu.lowAccumulator w) |> advance w .di
  | .lods => m.mapCpu (·.setLowAccumulator w (load m w source)) |> advance w .si
  | .scas => m |> compare (m.cpu.lowAccumulator w) (load m w destination) |> advance w .di

/-- Whether a repeated comparison ends: `repne` when it finds equality, `rep`
when it finds a difference. The other string instructions go on. -/
def repeatEnds (op : Block) (modifier : Modifier) (f : Flags) : Bool :=
  match op, modifier with
  | .cmps, .repne | .scas, .repne => f.get .zero
  | .cmps, .rep | .scas, .rep => !f.get .zero
  | _, _ => false

/-- Repeat a string instruction `count` times, with `cx` counting down to zero,
unless a comparison ends it early. -/
def blockRepeat (op : Block) (w : Width) (modifier : Modifier) : (count : Nat) → State → State
  | 0, m => m
  | count + 1, m =>
    let next := (blockStep op w m).mapCpu (·.set .cx (UInt16.ofNat count))
    if repeatEnds op modifier next.cpu.flags then next else blockRepeat op w modifier count next

/-- A string instruction with the modifier in front of it. -/
def block (op : Block) (w : Width) (modifier : Option Modifier) (m : State) : State :=
  match modifier with
  | some r =>
    if r.isRepeat then blockRepeat op w r (m.cpu.get .cx).toNat m else blockStep op w m
  | none => blockStep op w m

/-- Push copies of `count` frame pointers of the enclosing frame, which `bp`
walks down through. -/
def copyFrames : (count : Nat) → State → State
  | 0, m => m
  | count + 1, m =>
    let bp := m.cpu.get .bp - 2
    copyFrames count ((m.mapCpu (·.set .bp bp)).push (m.memory.word bp))

/-- Build a stack frame: save `bp`, copy the frame pointers of the enclosing
levels, add the new one, and reserve `size` bytes. -/
def enter (size : UInt16) (level : UInt8) (m : State) : State :=
  let level := level.toNat % 32
  let saved := m.push (m.cpu.get .bp)
  let frame := saved.cpu.get .sp
  let linked := if level = 0 then saved else (copyFrames (level - 1) saved).push frame
  linked.mapCpu fun c => (c.set .bp frame).set .sp (c.get .sp - size)

/-- Take down a stack frame. -/
def leave (m : State) : State :=
  let (bp, m) := (m.mapCpu fun c => c.set .sp (c.get .bp)).pop
  m.mapCpu (·.set .bp bp)

/-- Return to the address on the stack and drop `extra` bytes more. -/
def ret (extra : UInt16) (m : State) : State :=
  let (address, m) := m.pop
  m.mapCpu (fun c => c.set .sp (c.get .sp + extra)) |> jumpTo address

/-- Locate two operands, the first one first. -/
def withBoth (m : State) (a b : Operand) (next : Location → Location → Outcome Cpu) :
    Outcome Cpu :=
  m.attempt (m.cpu.locate a) fun x => m.attempt (m.cpu.locate b) fun y => next x y

/-- The product of the accumulator and a value, in the accumulator pair. -/
def setProduct (w : Width) (product : BitVec (w.bits + w.bits) × Bool) (m : State) : State :=
  let low := product.1.setWidth w.bits
  let high := (product.1 >>> w.bits).setWidth w.bits
  m.mapCpu (·.setAccumulators w low high) |> putFlag .carry product.2 |>
    putFlag .overflow product.2

/-- The quotient and remainder of a division in the accumulator pair, unless
the division faults, which changes nothing. -/
def setQuotient (w : Width) (m : State) (result : Except Fault (BitVec w.bits × BitVec w.bits)) :
    Outcome Cpu :=
  m.attempt result fun (quotient, remainder) =>
    (m.mapCpu (·.setAccumulators w quotient remainder)).proceed

/-- The operations with one operand. -/
def unary (op : Unary) (w : Width) (location : Location) (m : State) : Outcome Cpu :=
  let c := m.cpu
  let v := load m w location
  match op with
  | .inc => (put location (increment c.flags v) m).proceed
  | .dec => (put location (decrement c.flags v) m).proceed
  | .neg => (put location (negate c.flags v) m).proceed
  | .not => (store w location (~~~v) m).proceed
  | .mul => (setProduct w (multiply (c.lowAccumulator w) v) m).proceed
  | .imul => (setProduct w (multiplySigned (c.lowAccumulator w) v) m).proceed
  | .div => setQuotient w m (divide (c.highAccumulator w ++ c.lowAccumulator w) v)
  | .idiv => setQuotient w m (divideSigned (c.highAccumulator w ++ c.lowAccumulator w) v)

/-- Execute one instruction. A plain return at the entry stack pointer ends the
program. -/
def execute (i : Instruction) (m : State) : Outcome Cpu :=
  let c := m.cpu
  let f := c.flags
  match i.operation with
  | .arithmetic op w a b => withBoth m a b fun x y =>
    let result := op.compute f (load m w x) (load m w y)
    (if op.stores then put x result m else setFlags result.2 m).proceed
  | .unary op w a => m.attempt (c.locate a) fun x => unary op w x m
  | .rotate op w a b => withBoth m a b fun x count =>
    (put x (op.compute f (load m w x) ⟨load m .byte count⟩) m).proceed
  | .shift op w a b => withBoth m a b fun x count =>
    (put x (op.compute f (load m w x) ⟨load m .byte count⟩) m).proceed
  | .block op w => (block op w i.modifier m).proceed
  | .adjust op =>
    let (al, ah, flags) := op.compute f (c.getHalf .al) (c.getHalf .ah)
    (m.mapCpu (fun c => (c.setHalf .al al).setHalf .ah ah) |> setFlags flags).proceed
  | .test w a b => withBoth m a b fun x y =>
    (setFlags (f.logical (load m w x &&& load m w y)) m).proceed
  | .xchg w a b => withBoth m a b fun x y =>
    (m |> store w x (load m w y) |> store w y (load m w x)).proceed
  | .mov w a b => withBoth m a b fun x y => (store w x (load m w y) m).proceed
  | .lea r a => m.attempt (c.locate a) fun
    | .memory address => (m.mapCpu (·.set r address)).proceed
    | _ => (m, .error .undefinedInstruction)
  | .push a => m.attempt (c.locate a) fun
    -- the stack pointer itself is stored as it is after the push
    | .register .sp => (m.push (c.get .sp - 2)).proceed
    | x => (m.push (loadWord m x)).proceed
  | .pop a => m.attempt (c.locate a) fun x =>
    let (v, m) := m.pop
    (store .word x v.toBitVec m).proceed
  | .pushf => (m.push (f.word ||| Flags.reserved)).proceed
  | .popf =>
    let (v, m) := m.pop
    (setFlags ⟨v &&& Flags.modifiable⟩ m).proceed
  | .sahf =>
    let ah := (c.getHalf .ah).toUInt16
    (setFlags ⟨(f.word &&& ~~~0xd5) ||| (ah &&& 0xd5)⟩ m).proceed
  | .lahf => (m.mapCpu (·.setHalf .ah ((Word.low f.word &&& 0xd5) ||| 2))).proceed
  | .xlat =>
    let address := c.get .bx + (c.getHalf .al).toUInt16
    (m.mapCpu (·.setHalf .al (m.memory.byte address))).proceed
  | .cbw => (m.mapCpu (·.set .ax (Word.signExtend (c.getHalf .al)))).proceed
  | .cwd => (m.mapCpu (·.set .dx (if Word.bit (c.get .ax) 15 then 0xffff else 0))).proceed
  | .enter size level => (enter size level m).proceed
  | .leave => (leave m).proceed
  | .jumpIf condition t => (if condition.holds f then jumpTo t m else m).proceed
  | .jump a => m.attempt (c.locate a) fun x => (jumpTo (loadWord m x) m).proceed
  | .jumpShort t => (jumpTo t m).proceed
  | .call a => m.attempt (c.locate a) fun x => (m.push c.ip |> jumpTo (loadWord m x)).proceed
  | .ret none => if c.get .sp = c.entrySp then (m, .ok .finished) else (ret 0 m).proceed
  | .ret (some extra) => (ret extra m).proceed
  | .loop kind t =>
    let count := c.get .cx - 1
    let again := match kind with
      | .always => true
      | .whileZero => f.get .zero
      | .whileNotZero => !f.get .zero
    let counted := m.mapCpu (·.set .cx count)
    (if count != 0 && again then jumpTo t counted else counted).proceed
  | .jcxz t => (if c.get .cx = 0 then jumpTo t m else m).proceed
  | .interrupt number => (m, .ok (.trap number.toUInt16))
  | .clc => (putFlag .carry false m).proceed
  | .stc => (putFlag .carry true m).proceed
  | .cmc => (setFlags (f.flip .carry) m).proceed
  | .cli => (putFlag .interrupt false m).proceed
  | .sti => (putFlag .interrupt true m).proceed
  | .cld => (putFlag .direction false m).proceed
  | .std => (putFlag .direction true m).proceed
  | .nop | .wait | .escape | .modifier _ => m.proceed
  | .callf _ | .jumpf _ | .retf _ | .loadFar .. | .int3 | .into | .iret | .input .. | .output ..
  | .hlt => (m, .error .unimplementedInstruction)
  | .undefined => (m, .error .undefinedInstruction)

/-- The registers and the four flags that conditions depend on most. -/
def Cpu.render (c : Cpu) : String :=
  let shown (r : Register) := r.name ++ "=" ++ Numeral.hexWord (c.get r) ++ " "
  let letter (flag : Flag) (s : String) := if c.flags.get flag then s else "-"
  String.join ([Register.ax, .bx, .cx, .dx, .sp, .bp, .si, .di].map shown) ++
    letter .overflow "O" ++ letter .sign "S" ++ letter .zero "Z" ++ letter .carry "C" ++
    " ip=" ++ Numeral.hexWord c.ip

instance : Processor Cpu where
  Instruction := Instruction
  reset := {}
  decode := decode
  fetch := decodeFolded
  length i := i.length
  isUndefined i := match i.operation with
    | .undefined => true
    | _ => false
  render := Instruction.render
  execute := execute
  ip c := c.ip
  setIp c v := { c with ip := v }
  entrySp c := c.entrySp
  setEntrySp c v := { c with entrySp := v }
  accumulator c := c.get .ax
  setAccumulator c v := c.set .ax v
  setCarry c v := c.putFlag .carry v
  renderState := Cpu.render

end VintageUnix.I8086
