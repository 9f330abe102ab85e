import VintageUnix.Machine.Processor
import VintageUnix.Pdp11.Instruction

/-! The registers of the PDP-11, its condition codes, and the branches that are decided by them. -/
namespace VintageUnix.Pdp11

/-- The register that holds the low word of a pair: the odd one of the two. -/
def Register.pairLow (r : Register) : Register :=
  .ofNat (r.val ||| 1)

/-- The condition codes. -/
inductive Code where
  | carry
  | overflow
  | zero
  | negative
  deriving DecidableEq, Repr

/-- The place of a condition code in the status word. -/
def Code.index : Code → Nat
  | .carry => 0
  | .overflow => 1
  | .zero => 2
  | .negative => 3

/-- The processor status. Its other bits have no meaning but are kept. -/
structure Status where
  word : UInt16 := 0
  deriving DecidableEq, Repr

namespace Status

/-- The bits that hold condition codes. -/
def codes : UInt16 := 0o17

def get (s : Status) (code : Code) : Bool :=
  Word.bit s.word code.index

def put (s : Status) (code : Code) (value : Bool) : Status :=
  ⟨Word.putBit s.word code.index value⟩

theorem get_put (s : Status) (a b : Code) (v : Bool) :
    (s.put a v).get b = if a = b then v else s.get b := by
  have hIndex : a.index = b.index ↔ a = b := by
    cases a <;> cases b <;> simp [Code.index]
  have hRange : b.index < 16 := by cases b <;> simp [Code.index]
  simp only [get, put, Word.bit_putBit s.word v hRange, hIndex]

/-- The order of two signed values after they were compared. -/
def isGreaterOrEqual (s : Status) : Bool :=
  s.get .negative == s.get .overflow

def isGreater (s : Status) : Bool :=
  !s.get .zero && s.isGreaterOrEqual

/-- The order of two unsigned values after they were compared. -/
def isHigher (s : Status) : Bool :=
  !s.get .carry && !s.get .zero

end Status

/-- Whether a branch is taken. -/
def Condition.holds (s : Status) : Condition → Bool
  | .always => true
  | .notEqual => !s.get .zero
  | .equal => s.get .zero
  | .greaterOrEqual => s.isGreaterOrEqual
  | .less => !s.isGreaterOrEqual
  | .greater => s.isGreater
  | .lessOrEqual => !s.isGreater
  | .plus => !s.get .negative
  | .minus => s.get .negative
  | .higher => s.isHigher
  | .lowerOrSame => !s.isHigher
  | .overflowClear => !s.get .overflow
  | .overflowSet => s.get .overflow
  | .carryClear => !s.get .carry
  | .carrySet => s.get .carry

/-- The state of the processor. `entrySp` is the stack pointer at the start of
the program, where a plain return ends it. -/
structure Cpu where
  registers : Vector UInt16 8 := Vector.replicate 8 0
  status : Status := {}
  entrySp : UInt16 := 0

namespace Cpu

def get (c : Cpu) (r : Register) : UInt16 :=
  c.registers[r]

def set (c : Cpu) (r : Register) (value : UInt16) : Cpu :=
  { c with registers := c.registers.set r value }

/-- Replace one condition code. -/
def putCode (c : Cpu) (code : Code) (value : Bool) : Cpu :=
  { c with status := c.status.put code value }

theorem get_set (c : Cpu) (r s : Register) (v : UInt16) :
    (c.set r v).get s = if r = s then v else c.get s := by
  simp only [get, set, Fin.getElem_fin, Vector.getElem_set, Fin.val_inj]

instance : StackPointer Cpu where
  sp c := c.get .sp
  setSp c v := c.set .sp v

/-- All registers and the condition codes on one line. -/
def render (c : Cpu) : String :=
  let shown (r : Register) := Register.name r ++ "=" ++ Numeral.hexWord (c.get r) ++ " "
  let letter (code : Code) (s : String) := if c.status.get code then s else "-"
  String.join ((List.finRange 8).map shown) ++
    letter .negative "N" ++ letter .zero "Z" ++ letter .overflow "V" ++ letter .carry "C"

end Cpu
end VintageUnix.Pdp11
