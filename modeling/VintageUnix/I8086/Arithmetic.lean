import VintageUnix.I8086.Instruction

/-! Arithmetic of the 8086 on values of any width: each operation gives its result and the flags
after it. Nothing here knows where the operands come from. -/
namespace VintageUnix.I8086

variable {n : Nat}

namespace Flags

/-- The flags that describe a result: zero, sign and the parity of its low byte. -/
def describe (f : Flags) (r : BitVec n) : Flags :=
  ((f.put .zero (r == 0)).put .sign r.msb).put .parity (Word.evenParity r)

/-- The flags after a logical operation, which never carries or overflows. -/
def logical (f : Flags) (r : BitVec n) : Flags :=
  ((f.describe r).put .carry false).put .overflow false

end Flags

/-- The sum of two values and a carry. Overflow means that both operands have
the sign that the result has not. -/
def sum (f : Flags) (x y : BitVec n) (carry : Bool) : BitVec n × Flags :=
  let r := x + y + BitVec.ofNat n carry.toNat
  (r, (((f.describe r).put .carry (BitVec.carry n x y carry)).put .auxiliary
    (BitVec.carry 4 x y carry)).put .overflow (x.msb == y.msb && x.msb != r.msb))

/-- The difference of two values and a borrow. Overflow means that the operands
differ in sign and the result has the sign of the second. -/
def difference (f : Flags) (x y : BitVec n) (borrow : Bool) : BitVec n × Flags :=
  let r := x - y - BitVec.ofNat n borrow.toNat
  (r, (((f.describe r).put .carry (x.toNat < y.toNat + borrow.toNat)).put .auxiliary
    (x.toNat % 16 < y.toNat % 16 + borrow.toNat)).put .overflow
    (x.msb != y.msb && x.msb != r.msb))

/-- Whether the result is stored. A comparison only sets the flags. -/
def Arithmetic.stores : Arithmetic → Bool
  | .cmp => false
  | _ => true

/-- The operation on two values. -/
def Arithmetic.compute (op : Arithmetic) (f : Flags) (x y : BitVec n) : BitVec n × Flags :=
  match op with
  | .add => sum f x y false
  | .adc => sum f x y (f.get .carry)
  | .sub | .cmp => difference f x y false
  | .sbb => difference f x y (f.get .carry)
  | .or => (x ||| y, f.logical (x ||| y))
  | .and => (x &&& y, f.logical (x &&& y))
  | .xor => (x ^^^ y, f.logical (x ^^^ y))

/-- Increment. The carry is not touched. -/
def increment (f : Flags) (x : BitVec n) : BitVec n × Flags :=
  let r := x + 1
  (r, ((f.describe r).put .auxiliary (r.toNat % 16 = 0)).put .overflow (!x.msb && r.msb))

/-- Decrement. The carry is not touched. -/
def decrement (f : Flags) (x : BitVec n) : BitVec n × Flags :=
  let r := x - 1
  (r, ((f.describe r).put .auxiliary (r.toNat % 16 = 15)).put .overflow (x.msb && !r.msb))

/-- The negative of a value. It carries unless the value is zero. -/
def negate (f : Flags) (x : BitVec n) : BitVec n × Flags :=
  let r := -x
  (r, (((f.describe r).put .carry (x != 0)).put .auxiliary (x.toNat % 16 != 0)).put .overflow
    (x.msb && r.msb))

/-- One step of a rotation, with the carry before and after it. -/
def Rotation.step (op : Rotation) (state : BitVec n × Bool) : BitVec n × Bool :=
  let (v, carry) := state
  match op with
  | .rol => (v.rotateLeft 1, v.msb)
  | .ror => (v.rotateRight 1, v.getLsbD 0)
  | .rcl => ((v <<< 1) ||| BitVec.ofNat n carry.toNat, v.msb)
  | .rcr => ((v >>> 1) ||| if carry then BitVec.twoPow n (n - 1) else 0, v.getLsbD 0)

/-- The overflow flag after a rotation: to the left, whether the carry differs
from the top bit; to the right, whether the two top bits differ. -/
def Rotation.overflow (op : Rotation) (v : BitVec n) (carry : Bool) : Bool :=
  match op with
  | .rol | .rcl => carry != v.msb
  | .ror | .rcr => v.msb != v.getLsbD (n - 2)

/-- The part of a shift count that the processor looks at. -/
def maskedCount (count : UInt8) : Nat :=
  count.toNat % 32

/-- A rotation by a count. No other flags than carry and overflow change, and
none if the masked count is zero. -/
def Rotation.compute (op : Rotation) (f : Flags) (x : BitVec n) (count : UInt8) :
    BitVec n × Flags :=
  let k := maskedCount count
  if k = 0 then (x, f)
  else
    let (v, carry) := Nat.repeat op.step k (x, f.get .carry)
    (v, (f.put .carry carry).put .overflow (op.overflow v carry))

/-- A shift by a count, in one step. Nothing changes if the masked count is
zero. The carry is the last bit that was shifted out. -/
def Shift.compute (op : Shift) (f : Flags) (x : BitVec n) (count : UInt8) : BitVec n × Flags :=
  let k := maskedCount count
  if k = 0 then (x, f)
  else
    let (v, carry, overflow) := match op with
      | .shl =>
        let carry := (x.toNat <<< k).testBit n
        (x <<< k, carry, carry != (x <<< k).msb)
      | .shr => (x >>> k, x.getLsbD (k - 1), x.msb)
      | .sar => (x.sshiftRight k, (x.sshiftRight (k - 1)).getLsbD 0, false)
    (v, ((f.describe v).put .carry carry).put .overflow overflow)

/-- The unsigned product in double width, and whether its upper half is needed. -/
def multiply (x y : BitVec n) : BitVec (n + n) × Bool :=
  let product := x.setWidth (n + n) * y.setWidth (n + n)
  (product, product != (product.setWidth n).setWidth (n + n))

/-- The signed product in double width, and whether its upper half is needed. -/
def multiplySigned (x y : BitVec n) : BitVec (n + n) × Bool :=
  let product := x.signExtend (n + n) * y.signExtend (n + n)
  (product, product != (product.setWidth n).signExtend (n + n))

/-- The unsigned quotient and remainder of a value of double width. A quotient
that does not fit is a fault. -/
def divide (x : BitVec (n + n)) (y : BitVec n) : Except Fault (BitVec n × BitVec n) :=
  if y = 0 then .error .divideByZero
  else
    let q := x.toNat / y.toNat
    if (BitVec.ofNat n q).toNat = q then .ok (BitVec.ofNat n q, BitVec.ofNat n (x.toNat % y.toNat))
    else .error .divisionOverflow

/-- The signed quotient, rounded toward zero, and remainder of a value of double
width. A quotient that does not fit is a fault. -/
def divideSigned (x : BitVec (n + n)) (y : BitVec n) : Except Fault (BitVec n × BitVec n) :=
  if y = 0 then .error .divideByZero
  else
    let q := x.toInt.tdiv y.toInt
    if (BitVec.ofInt n q).toInt = q then
      .ok (BitVec.ofInt n q, BitVec.ofInt n (x.toInt.tmod y.toInt))
    else .error .divisionOverflow

/-- The decimal corrections of `al` and `ah` with the flags after them. -/
def Adjustment.compute (op : Adjustment) (f : Flags) (al ah : UInt8) : UInt8 × UInt8 × Flags :=
  let decimal := 9 < al.toNat % 16 || f.get .auxiliary
  match op with
  | .daa | .das =>
    let carry := 0x99 < al || f.get .carry
    let adjust : UInt8 := (if decimal then 6 else 0) + (if carry then 0x60 else 0)
    let r := if op = .daa then al + adjust else al - adjust
    (r, ah, ((f.put .auxiliary decimal).put .carry carry).describe r.toBitVec)
  | .aaa | .aas =>
    let (al, ah) :=
      if !decimal then (al, ah)
      else if op = .aaa then (al + 6, ah + 1)
      else (al - 6, ah - 1)
    (al &&& 15, ah, (f.put .auxiliary decimal).put .carry decimal)
  | .aam => (al % 10, al / 10, f.describe (al % 10).toBitVec)
  | .aad => (al + ah * 10, 0, f.describe (al + ah * 10).toBitVec)

end VintageUnix.I8086
