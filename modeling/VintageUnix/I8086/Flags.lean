import VintageUnix.Word.Bits

/-! The FLAGS register of the 8086 and the conditions that are read off it. -/
namespace VintageUnix.I8086

inductive Flag where
  | carry
  | parity
  | auxiliary
  | zero
  | sign
  | trap
  | interrupt
  | direction
  | overflow
  deriving DecidableEq, Repr

/-- The place of a flag in the word. -/
def Flag.index : Flag → Nat
  | .carry => 0
  | .parity => 2
  | .auxiliary => 4
  | .zero => 6
  | .sign => 7
  | .trap => 8
  | .interrupt => 9
  | .direction => 10
  | .overflow => 11

/-- The flags as one word. Its other bits have no meaning but are kept. -/
structure Flags where
  word : UInt16 := 0
  deriving DecidableEq, Repr

namespace Flags

/-- The bits that a program can set through `popf`: the nine flags. -/
def modifiable : UInt16 := 0x0fd5

/-- The bits that `pushf` stores as ones whatever the flags are. -/
def reserved : UInt16 := 0xf002

def get (f : Flags) (flag : Flag) : Bool :=
  Word.bit f.word flag.index

def put (f : Flags) (flag : Flag) (value : Bool) : Flags :=
  ⟨Word.putBit f.word flag.index value⟩

def flip (f : Flags) (flag : Flag) : Flags :=
  f.put flag (!f.get flag)

theorem get_put (f : Flags) (a b : Flag) (v : Bool) :
    (f.put a v).get b = if a = b then v else f.get b := by
  have hIndex : a.index = b.index ↔ a = b := by
    cases a <;> cases b <;> simp [Flag.index]
  have hRange : b.index < 16 := by cases b <;> simp [Flag.index]
  simp only [get, put, Word.bit_putBit f.word v hRange, hIndex]

end Flags

/-- What a conditional jump can test. -/
inductive Test where
  | overflow
  | below
  | equal
  | belowOrEqual
  | sign
  | parity
  | less
  | lessOrEqual
  deriving DecidableEq, Repr

/-- Whether a test succeeds. After a comparison the orders are unsigned for
`below` and signed for `less`. -/
def Test.holds (f : Flags) : Test → Bool
  | .overflow => f.get .overflow
  | .below => f.get .carry
  | .equal => f.get .zero
  | .belowOrEqual => f.get .carry || f.get .zero
  | .sign => f.get .sign
  | .parity => f.get .parity
  | .less => f.get .sign != f.get .overflow
  | .lessOrEqual => f.get .zero || (f.get .sign != f.get .overflow)

/-- A test or its negation. -/
structure Condition where
  test : Test
  negated : Bool
  deriving DecidableEq, Repr

namespace Condition

def holds (c : Condition) (f : Flags) : Bool :=
  c.test.holds f != c.negated

/-- The condition with the given number in the encoding. Odd numbers negate
the test before them. -/
def ofCode (code : UInt8) : Condition where
  test := match (code >>> 1) &&& 7 with
    | 0 => .overflow
    | 1 => .below
    | 2 => .equal
    | 3 => .belowOrEqual
    | 4 => .sign
    | 5 => .parity
    | 6 => .less
    | _ => .lessOrEqual
  negated := code &&& 1 != 0

end Condition
end VintageUnix.I8086
