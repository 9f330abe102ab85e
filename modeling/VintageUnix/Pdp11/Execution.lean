import VintageUnix.Pdp11.Arithmetic
import VintageUnix.Pdp11.Decoder

/-! Executing PDP-11 instructions. Resolving an operand steps its register, so each operand is
resolved exactly once, the source before the destination. -/
namespace VintageUnix.Pdp11

/-- Where an operand is, once its addressing mode has been applied. -/
inductive Location where
  | register (r : Register)
  | memory (address : UInt16)
  | constant (v : UInt16)
  deriving DecidableEq, Repr

/-- The state that PDP-11 instructions transform. -/
abbrev State := Machine Cpu

/-- Replace a register. -/
def setRegister (r : Register) (v : UInt16) (m : State) : State :=
  m.mapCpu (·.set r v)

/-- Replace the status. -/
def setStatus (s : Status) (m : State) : State :=
  m.mapCpu fun c => { c with status := s }

/-- Continue at `address`. -/
def jumpTo (address : UInt16) (m : State) : State :=
  setRegister .pc address m

/-- How far a stepping mode moves its register. The stack pointer and the
program counter always move by words. -/
def stepSize (r : Register) (w : Width) : UInt16 :=
  if r < Register.sp then w.size else 2

/-- Find an operand, with the register that its mode steps already moved. -/
def resolve (o : Operand) (w : Width) (m : State) : Location × State :=
  match o with
  | .register r => (.register r, m)
  | .deferred r => (.memory (m.cpu.get r), m)
  | .increment r =>
    let a := m.cpu.get r
    (.memory a, setRegister r (a + stepSize r w) m)
  | .incrementDeferred r =>
    let a := m.cpu.get r
    (.memory (m.memory.word a), setRegister r (a + 2) m)
  | .decrement r =>
    let a := m.cpu.get r - stepSize r w
    (.memory a, setRegister r a m)
  | .decrementDeferred r =>
    let a := m.cpu.get r - 2
    (.memory (m.memory.word a), setRegister r a m)
  | .indexed r x => (.memory (m.cpu.get r + x), m)
  | .indexedDeferred r x => (.memory (m.memory.word (m.cpu.get r + x)), m)
  | .immediate v => (.constant v, m)
  | .absolute a | .relative a => (.memory a, m)
  | .relativeDeferred a => (.memory (m.memory.word a), m)

/-- Read a value of a width. -/
def load (m : State) (w : Width) : Location → BitVec w.bits
  | .register r => (m.cpu.get r).toBitVec.setWidth w.bits
  | .memory a =>
    match w with
    | .byte => (m.memory.byte a).toBitVec
    | .word => (m.memory.word a).toBitVec
  | .constant v => v.toBitVec.setWidth w.bits

/-- Write a value of a width. A byte leaves the other half of a register as it
is, and constants stay as they are. -/
def store (w : Width) (location : Location) (v : BitVec w.bits) (m : State) : State :=
  match location, w, v with
  | .register r, .byte, v => setRegister r (Word.ofBytes ⟨v⟩ (Word.high (m.cpu.get r))) m
  | .register r, .word, v => setRegister r ⟨v⟩ m
  | .memory a, .byte, v => m.mapMemory (·.setByte a ⟨v⟩)
  | .memory a, .word, v => m.mapMemory (·.setWord a ⟨v⟩)
  | .constant _, _, _ => m

/-- Write the result of a move. A byte that moves into a register is extended
with its sign. -/
def storeMoved (w : Width) (location : Location) (v : BitVec w.bits) (m : State) : State :=
  match location, w, v with
  | .register r, .byte, v => setRegister r ⟨v.signExtend 16⟩ m
  | location, w, v => store w location v m

/-- Read a word operand. -/
def loadWord (m : State) (location : Location) : UInt16 :=
  ⟨load m .word location⟩

/-- Resolve an operand that must be in memory and go on with its address. -/
def withAddress (o : Operand) (m : State) (next : UInt16 → State → Outcome Cpu) : Outcome Cpu :=
  match resolve o .word m with
  | (.memory a, m) => next a m
  | (_, m) => (m, .error .undefinedInstruction)

/-- The operations with two operands. -/
def double (op : Double) (w : Width) (source destination : Operand) (m : State) : State :=
  let (s, m) := resolve source w m
  let x := load m w s
  let (d, m) := resolve destination w m
  let (r, status) := op.compute m.cpu.status x (load m w d)
  let m := setStatus status m
  if op = .mov then storeMoved w d r m else if op.stores then store w d r m else m

/-- The operations with one operand. -/
def single (op : Single) (w : Width) (destination : Operand) (m : State) : State :=
  let (d, m) := resolve destination w m
  let (r, status) := op.compute m.cpu.status (load m w d)
  let m := setStatus status m
  if op.stores then store w d r m else m

/-- The double word in a register and the odd register of its pair. -/
def pair (c : Cpu) (r : Register) : BitVec 32 :=
  (c.get r).toBitVec ++ (c.get (Register.pairLow r)).toBitVec

/-- Replace a pair. The odd register is written last. -/
def setPair (r : Register) (v : BitVec 32) (m : State) : State :=
  m |> setRegister r ⟨(v >>> 16).setWidth 16⟩ |> setRegister (Register.pairLow r) ⟨v.setWidth 16⟩

/-- A multiplication. The upper half of the product is dropped for an odd
register. -/
def mul (r : Register) (source : UInt16) (m : State) : State :=
  let (product, status) := multiply m.cpu.status (m.cpu.get r) source
  m |> setStatus status |>
    if r.val % 2 = 0 then setPair r product else setRegister r ⟨product.setWidth 16⟩

/-- A division. On overflow only the overflow code is set, and a division by
zero changes nothing. -/
def div (r : Register) (source : UInt16) (m : State) : Outcome Cpu :=
  match divide (pair m.cpu r) source with
  | .ok (quotient, remainder) =>
    (m |> setRegister r quotient |> setRegister (Register.pairLow r) remainder |>
      setStatus ((m.cpu.status.describe quotient.toBitVec).put .carry false)).proceed
  | .error .divisionOverflow =>
    (setStatus (m.cpu.status.put .overflow true) m, .error .divisionOverflow)
  | .error fault => (m, .error fault)

/-- The operations of the extended set. -/
def extended (op : Extended) (source : Operand) (r : Register) (m : State) : Outcome Cpu :=
  let (s, m) := resolve source .word m
  let x := loadWord m s
  match op with
  | .mul => (mul r x m).proceed
  | .div => div r x m
  | .ash =>
    let (v, status) := shift m.cpu.status (m.cpu.get r).toBitVec (shiftCount x)
    (m |> setRegister r ⟨v⟩ |> setStatus status).proceed
  | .ashc =>
    let (v, status) := shift m.cpu.status (pair m.cpu r) (shiftCount x)
    (m |> setPair r v |> setStatus status).proceed

/-- Exchange the bytes of a word. The codes describe the low byte. -/
def swab (destination : Operand) (m : State) : State :=
  let (d, m) := resolve destination .word m
  let v := loadWord m d
  let r := Word.ofBytes (Word.high v) (Word.low v)
  m |> store .word d r.toBitVec |>
    setStatus ((m.cpu.status.describe (Word.low r).toBitVec).put .carry false)

/-- Spread the negative code over a word. -/
def sxt (destination : Operand) (m : State) : State :=
  let (d, m) := resolve destination .word m
  let negative := m.cpu.status.get .negative
  m |> store .word d (if negative then BitVec.allOnes 16 else 0) |>
    setStatus ((m.cpu.status.put .zero !negative).put .overflow false)

/-- Exclusive or of a register into an operand. -/
def xor (r : Register) (destination : Operand) (m : State) : State :=
  let (d, m) := resolve destination .word m
  let v := load m .word d ^^^ (m.cpu.get r).toBitVec
  m |> store .word d v |> setStatus (m.cpu.status.describe v)

/-- Enter a subroutine: the link register is saved on the stack and takes the
return address. -/
def jsr (link : Register) (target : UInt16) (m : State) : State :=
  let m := m.push (m.cpu.get link)
  m |> setRegister link (m.cpu.get .pc) |> jumpTo target

/-- Leave a subroutine through its link register. -/
def rts (link : Register) (m : State) : State :=
  let (saved, m) := (jumpTo (m.cpu.get link) m).pop
  setRegister link saved m

/-- Drop the arguments of a subroutine and leave it through `r5`. -/
def mark (count : UInt16) (m : State) : State :=
  m |> setRegister .sp (m.cpu.get .pc + 2 * count) |> rts .r5

/-- Execute one instruction. A return through the program counter at the entry
stack pointer ends the program. -/
def execute (i : Instruction) (m : State) : Outcome Cpu :=
  let c := m.cpu
  match i.operation with
  | .double op w s d => (double op w s d m).proceed
  | .single op w d => (single op w d m).proceed
  | .extended op s r => extended op s r m
  | .swab d => (swab d m).proceed
  | .sxt d => (sxt d m).proceed
  | .xor r d => (xor r d m).proceed
  | .sob r t =>
    let count := c.get r - 1
    let counted := setRegister r count m
    (if count = 0 then counted else jumpTo t counted).proceed
  | .branch condition t => (if condition.holds c.status then jumpTo t m else m).proceed
  | .jmp o => withAddress o m fun target m => (jumpTo target m).proceed
  | .jsr link o => withAddress o m fun target m => (jsr link target m).proceed
  | .rts link =>
    if link = .pc ∧ c.get .sp = c.entrySp then (m, .ok .finished) else (rts link m).proceed
  | .mark count => (mark count m).proceed
  | .clear mask => (setStatus ⟨c.status.word &&& ~~~(mask &&& Status.codes)⟩ m).proceed
  | .set mask => (setStatus ⟨c.status.word ||| (mask &&& Status.codes)⟩ m).proceed
  | .sys number => (m, .ok (.trap number.toUInt16))
  | .float => m.proceed
  | .emt _ | .privileged _ | .transfer .. => (m, .error .unimplementedInstruction)
  | .undefined => (m, .error .undefinedInstruction)

instance : Processor Cpu where
  Instruction := Instruction
  reset := {}
  decode := decode
  fetch := decode
  length i := i.length
  isUndefined i := match i.operation with
    | .undefined => true
    | _ => false
  render := Instruction.render
  execute := execute
  ip c := c.get .pc
  setIp c v := c.set .pc v
  entrySp c := c.entrySp
  setEntrySp c v := { c with entrySp := v }
  accumulator c := c.get .r0
  setAccumulator c v := c.set .r0 v
  setCarry c v := c.putCode .carry v
  renderState := Cpu.render

end VintageUnix.Pdp11
