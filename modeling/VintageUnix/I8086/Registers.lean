import VintageUnix.I8086.Flags
import VintageUnix.Machine.Processor

/-! The registers of the 8086 and the halves of the first four that byte instructions name. -/
namespace VintageUnix.I8086

/-- The eight general registers in the order of their encoding. -/
inductive Register where
  | ax
  | cx
  | dx
  | bx
  | sp
  | bp
  | si
  | di
  deriving DecidableEq, Repr

/-- The register with a three bit encoding. Higher bits are ignored. -/
def Register.ofCode (code : UInt8) : Register :=
  match code &&& 7 with
  | 0 => .ax
  | 1 => .cx
  | 2 => .dx
  | 3 => .bx
  | 4 => .sp
  | 5 => .bp
  | 6 => .si
  | _ => .di

def Register.index : Register → Fin 8
  | .ax => 0
  | .cx => 1
  | .dx => 2
  | .bx => 3
  | .sp => 4
  | .bp => 5
  | .si => 6
  | .di => 7

/-- Half of a general register: the low or the high byte of `ax` to `bx`. -/
structure Half where
  register : Register
  high : Bool
  deriving DecidableEq, Repr

/-- The half with a three bit encoding: four low bytes, then four high ones. -/
def Half.ofCode (code : UInt8) : Half where
  register := Register.ofCode (code &&& 3)
  high := code &&& 4 != 0

def Half.al : Half := ⟨.ax, false⟩
def Half.ah : Half := ⟨.ax, true⟩
def Half.cl : Half := ⟨.cx, false⟩

/-- The state of the processor. `entrySp` is the stack pointer at the start of
the program, where a plain return ends it. -/
structure Cpu where
  registers : Vector UInt16 8 := Vector.replicate 8 0
  ip : UInt16 := 0
  flags : Flags := {}
  entrySp : UInt16 := 0

namespace Cpu

def get (c : Cpu) (r : Register) : UInt16 :=
  c.registers[r.index]

def set (c : Cpu) (r : Register) (value : UInt16) : Cpu :=
  { c with registers := c.registers.set r.index value }

def getHalf (c : Cpu) (h : Half) : UInt8 :=
  if h.high then Word.high (c.get h.register) else Word.low (c.get h.register)

/-- Replace half of a register and keep the other half. -/
def setHalf (c : Cpu) (h : Half) (value : UInt8) : Cpu :=
  let old := c.get h.register
  c.set h.register
    (if h.high then Word.ofBytes (Word.low old) value else Word.ofBytes value (Word.high old))

/-- Replace one flag. -/
def putFlag (c : Cpu) (flag : Flag) (value : Bool) : Cpu :=
  { c with flags := c.flags.put flag value }

theorem get_set (c : Cpu) (r s : Register) (v : UInt16) :
    (c.set r v).get s = if r = s then v else c.get s := by
  have hIndex : (r.index : Nat) = s.index ↔ r = s := by
    cases r <;> cases s <;> decide
  simp only [get, set, Fin.getElem_fin, Vector.getElem_set, hIndex]

instance : StackPointer Cpu where
  sp c := c.get .sp
  setSp c v := c.set .sp v

end Cpu
end VintageUnix.I8086
