import VintageUnix.Pdp11.Registers

/-! Arithmetic of the PDP-11 on values of any width: each operation gives its result and the
status after it. Nothing here knows where the operands come from. -/
namespace VintageUnix.Pdp11

variable {n : Nat}

/-- The status after a result: negative and zero describe it and overflow is
clear. The carry is not touched. -/
def Status.describe (s : Status) (r : BitVec n) : Status :=
  ((s.put .negative r.msb).put .zero (r == 0)).put .overflow false

/-- Set the two codes that arithmetic adds to the description of a result. -/
def Status.putArithmetic (s : Status) (overflow carry : Bool) : Status :=
  (s.put .overflow overflow).put .carry carry

namespace Double

/-- Whether the result is stored. The comparisons only set the codes. -/
def stores : Double → Bool
  | .cmp | .bit => false
  | _ => true

/-- The operation on the source `x` and the destination `y`. -/
def compute (op : Double) (s : Status) (x y : BitVec n) : BitVec n × Status :=
  match op with
  | .mov => (x, s.describe x)
  | .bit => (x &&& y, s.describe (x &&& y))
  | .bic => (y &&& ~~~x, s.describe (y &&& ~~~x))
  | .bis => (y ||| x, s.describe (y ||| x))
  | .cmp =>
    let r := x - y
    (r, (s.describe r).putArithmetic (x.msb != y.msb && r.msb == y.msb) (x.toNat < y.toNat))
  | .add =>
    let r := x + y
    (r, (s.describe r).putArithmetic (x.msb == y.msb && r.msb != x.msb) (x.uaddOverflow y))
  | .sub =>
    let r := y - x
    (r, (s.describe r).putArithmetic (x.msb != y.msb && r.msb == x.msb) (y.toNat < x.toNat))

end Double

namespace Single

/-- Whether the result is stored. A test only sets the codes. -/
def stores : Single → Bool
  | .tst => false
  | _ => true

/-- The status after a shift by one that moved `out` into the carry. -/
def shifted (s : Status) (r : BitVec n) (out : Bool) : Status :=
  (s.describe r).putArithmetic (r.msb != out) out

/-- The operation on a value. -/
def compute (op : Single) (s : Status) (x : BitVec n) : BitVec n × Status :=
  let carry := s.get .carry
  let increment := BitVec.ofNat n carry.toNat
  match op with
  | .clr => (0, (s.describe (0 : BitVec n)).put .carry false)
  | .com => (~~~x, (s.describe (~~~x)).put .carry true)
  | .tst => (x, (s.describe x).put .carry false)
  | .inc => (x + 1, (s.describe (x + 1)).put .overflow (x == BitVec.intMax n))
  | .dec => (x - 1, (s.describe (x - 1)).put .overflow (x == BitVec.intMin n))
  | .neg => (-x, (s.describe (-x)).putArithmetic (-x == BitVec.intMin n) (-x != 0))
  | .adc =>
    (x + increment, (s.describe (x + increment)).putArithmetic
      (x == BitVec.intMax n && carry) (x == BitVec.allOnes n && carry))
  | .sbc =>
    (x - increment, (s.describe (x - increment)).putArithmetic
      (x == BitVec.intMin n && carry) (x == 0 && carry))
  | .ror =>
    let r := (x >>> 1) ||| if carry then BitVec.intMin n else 0
    (r, shifted s r (x.getLsbD 0))
  | .rol =>
    let r := (x <<< 1) ||| increment
    (r, shifted s r x.msb)
  | .asr => (x.sshiftRight 1, shifted s (x.sshiftRight 1) (x.getLsbD 0))
  | .asl => (x <<< 1, shifted s (x <<< 1) x.msb)

end Single

/-- A value on its way through a shift by a count: the last bit moved out, and
whether the sign changed at any step to the left. -/
structure Shifting (n : Nat) where
  value : BitVec n
  carry : Bool := false
  signChanged : Bool := false

namespace Shifting

/-- One position to the left. -/
def left (x : Shifting n) : Shifting n where
  value := x.value <<< 1
  carry := x.value.msb
  signChanged := x.signChanged || (x.value <<< 1).msb != x.value.msb

/-- One position to the right, keeping the sign. -/
def right (x : Shifting n) : Shifting n where
  value := x.value.sshiftRight 1
  carry := x.value.getLsbD 0
  signChanged := x.signChanged

end Shifting

/-- The count of a shift: the low six bits of its source, signed. -/
def shiftCount (source : UInt16) : Int :=
  (source.toBitVec.setWidth 6).toInt

/-- An arithmetic shift, to the left for a positive count, and the status after
it. -/
def shift (s : Status) (x : BitVec n) (count : Int) : BitVec n × Status :=
  let r := if 0 < count then Nat.repeat Shifting.left count.toNat { value := x }
    else Nat.repeat Shifting.right (-count).toNat { value := x }
  (r.value, (s.describe r.value).putArithmetic r.signChanged r.carry)

/-- The signed product in double width, and the status after it. The carry says
that the product does not fit in one word. -/
def multiply (s : Status) (x y : UInt16) : BitVec 32 × Status :=
  let product := x.toBitVec.signExtend 32 * y.toBitVec.signExtend 32
  (product, (s.describe product).put .carry
    (product != (product.setWidth 16).signExtend 32))

/-- The signed quotient, rounded toward zero, and remainder. A quotient that does
not fit in a word is an overflow, except that the most negative value divided by
minus one counts as undefined, like a division by zero. -/
def divide (x : BitVec 32) (y : UInt16) : Except Fault (UInt16 × UInt16) :=
  let divisor := y.toBitVec.toInt
  if divisor = 0 || (x = BitVec.intMin 32 && divisor = -1) then .error .divideByZero
  else
    let quotient := x.toInt.tdiv divisor
    let word := BitVec.ofInt 16 quotient
    if word.toInt = quotient then .ok (⟨word⟩, ⟨BitVec.ofInt 16 (x.toInt.tmod divisor)⟩)
    else .error .divisionOverflow

end VintageUnix.Pdp11
