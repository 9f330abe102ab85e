/-! Operand widths. Both processors work on bytes and on words of two bytes. -/
namespace VintageUnix

/-- Whether an instruction works on bytes or on words. -/
inductive Width where
  | byte
  | word
  deriving DecidableEq, Repr

namespace Width

/-- The number of bits in an operand of this width. -/
@[reducible]
def bits : Width → Nat
  | .byte => 8
  | .word => 16

theorem eight_le_bits (w : Width) : 8 ≤ w.bits := by
  cases w <;> decide

theorem bits_pos (w : Width) : 0 < w.bits :=
  Nat.lt_of_lt_of_le (by decide) w.eight_le_bits

/-- The number of bytes in an operand of this width. -/
def size : Width → UInt16
  | .byte => 1
  | .word => 2

end Width
end VintageUnix
