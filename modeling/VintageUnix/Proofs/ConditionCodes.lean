import VintageUnix.Proofs.CountedShifts
import VintageUnix.Proofs.Pdp11Stores

/-! Arithmetic of the PDP-11 against the integers, and its shifts by one against the rotation of the
value together with the carry. Each operation has rules of its own for overflow and carry; what
they come to is the same for all: the exact result is no signed, or no unsigned, value of the
width. -/
namespace VintageUnix.Pdp11

/-- The operands of an instruction when both have been resolved: the value of the source, the
place of the destination, and the state with the registers stepped. -/
structure Operands (w : Width) where
  source : BitVec w.bits := 0
  place : Location
  state : State

namespace Operands

variable {w : Width}

/-- The value at the destination. -/
def value (o : Operands w) : BitVec w.bits :=
  load o.state w o.place

/-- A destination alone. -/
def one (w : Width) (destination : Operand) (m : State) : Operands w :=
  let (place, m) := resolve destination w m
  { place, state := m }

/-- A source, whose value is taken before the destination is resolved, and a destination. -/
def two (w : Width) (source destination : Operand) (m : State) : Operands w :=
  let (s, m) := resolve source w m
  let x := load m w s
  let (place, m) := resolve destination w m
  { source := x, place, state := m }

end Operands

/-- The data addresses of a place. -/
def Location.regions (w : Width) : Location → List Region
  | .memory a => [⟨a, w.size.toNat⟩]
  | _ => []

/-- The second state has the value in the place and is otherwise as the first, except for the
status. A byte leaves the upper half of a register, and nothing is stored in a constant. -/
structure Stored (w : Width) (place : Location) (v : BitVec w.bits) (m n : State) : Prop where
  value : (∀ c, place ≠ .constant c) → load n w place = v
  high (r : Register) : w = .byte → place = .register r →
    Word.high (n.cpu.get r) = Word.high (m.cpu.get r)
  registers (r : Register) : place ≠ .register r → n.cpu.get r = m.cpu.get r
  memory : AddressSpace.StoresWithin (place.regions w) m.memory n.memory
  entrySp : n.cpu.entrySp = m.cpu.entrySp

theorem status_resolve (o : Operand) (w : Width) (m : State) :
    (resolve o w m).2.cpu.status = m.cpu.status := by
  cases o <;> rfl

namespace Operands

theorem status_one (w : Width) (d : Operand) (m : State) :
    (one w d m).state.cpu.status = m.cpu.status :=
  status_resolve d w m

theorem status_two (w : Width) (s d : Operand) (m : State) :
    (two w s d m).state.cpu.status = m.cpu.status :=
  (status_resolve d w _).trans (status_resolve s w m)

end Operands

theorem stored_store (w : Width) (place : Location) (v : BitVec w.bits) (status : Status)
    (m : State) : Stored w place v m (store w place v (setStatus status m)) := by
  cases place with
  | register r =>
      have hOther (x : UInt16) (s : Register) (hPlace : Location.register r ≠ .register s) :
          (m.cpu.set r x).get s = m.cpu.get s := by
        rw [Cpu.get_set, if_neg fun hSame => hPlace (congrArg _ hSame)]
      cases w with
      | byte =>
          have hStored : (m.cpu.set r (Word.ofBytes ⟨v⟩ (Word.high (m.cpu.get r)))).get r =
              Word.ofBytes ⟨v⟩ (Word.high (m.cpu.get r)) := by
            rw [Cpu.get_set, if_pos rfl]
          refine ⟨fun _ => ?_, fun s _ hPlace => ?_, fun s hPlace => hOther _ s hPlace,
            .refl _ _, rfl⟩
          · exact congrArg UInt8.toBitVec ((congrArg Word.low hStored).trans (Word.low_ofBytes _ _))
          · obtain rfl := Location.register.inj hPlace
            exact (congrArg Word.high hStored).trans (Word.high_ofBytes _ _)
      | word =>
          have hStored : (m.cpu.set r ⟨v⟩).get r = ⟨v⟩ := by rw [Cpu.get_set, if_pos rfl]
          refine ⟨fun _ => ?_, nofun, fun s hPlace => hOther _ s hPlace, .refl _ _, rfl⟩
          exact (congrArg (·.toBitVec.setWidth 16) hStored).trans (BitVec.setWidth_eq v)
  | memory a =>
      cases w with
      | byte =>
          refine ⟨fun _ => ?_, nofun, fun _ _ => rfl, .setByte _ a _, rfl⟩
          exact congrArg UInt8.toBitVec ((m.memory.byte_setByte a a ⟨v⟩).trans (if_pos rfl))
      | word =>
          refine ⟨fun _ => ?_, nofun, fun _ _ => rfl, .setWord _ a _, rfl⟩
          exact congrArg UInt16.toBitVec (m.memory.word_setWord a ⟨v⟩)
  | constant c => exact ⟨fun h => absurd rfl (h c), nofun, fun _ _ => rfl, .refl _ _, rfl⟩

theorem status_store (w : Width) (place : Location) (v : BitVec w.bits) (m : State) :
    (store w place v m).cpu.status = m.cpu.status := by
  cases place <;> cases w <;> rfl

/-- The operations that add or subtract. The first three have a source. -/
inductive Additive where
  | add
  | sub
  | cmp
  | inc
  | dec
  | neg
  | adc
  | sbc
  deriving DecidableEq, Repr

namespace Additive

/-- The operation as an instruction has it. -/
def operation (op : Additive) (w : Width) (source destination : Operand) : Operation :=
  match op with
  | .add => .double .add w source destination
  | .sub => .double .sub w source destination
  | .cmp => .double .cmp w source destination
  | .inc => .single .inc w destination
  | .dec => .single .dec w destination
  | .neg => .single .neg w destination
  | .adc => .single .adc w destination
  | .sbc => .single .sbc w destination

/-- The operands that the operation has. -/
def operands (op : Additive) (w : Width) (source destination : Operand) (m : State) : Operands w :=
  match op with
  | .add | .sub | .cmp => .two w source destination m
  | _ => .one w destination m

/-- Whether the result replaces the destination. -/
def stores : Additive → Bool
  | .cmp => false
  | _ => true

/-- Whether the carry is left as it was. -/
def keepsCarry : Additive → Bool
  | .inc | .dec => true
  | _ => false

/-- The exact result on the source, the destination and the carry. Only a comparison takes the
destination from the source. -/
def exact (op : Additive) (source destination carry : Int) : Int :=
  match op with
  | .add => destination + source
  | .sub => destination - source
  | .cmp => source - destination
  | .inc => destination + 1
  | .dec => destination - 1
  | .neg => 0 - destination
  | .adc => destination + carry
  | .sbc => destination - carry

/-- The result and the status that the processor computes. -/
def compute {n : Nat} (op : Additive) (s : Status) (x y : BitVec n) : BitVec n × Status :=
  match op with
  | .add => Double.add.compute s x y
  | .sub => Double.sub.compute s x y
  | .cmp => Double.cmp.compute s x y
  | .inc => Single.inc.compute s y
  | .dec => Single.dec.compute s y
  | .neg => Single.neg.compute s y
  | .adc => Single.adc.compute s y
  | .sbc => Single.sbc.compute s y

end Additive

/-- The codes of `t` tell about a result of `n` bits what there is to tell, and the rest of the
status is as in `s`. The exact result is there for the operands as unsigned integers and for the
operands as signed ones. -/
structure Status.Reports (n : Nat) (unsigned signed : Int) (keepsCarry : Bool)
    (s t : Status) : Prop where
  negative : t.get .negative = decide (2 ^ (n - 1) ≤ residue n unsigned)
  zero : t.get .zero = decide (residue n unsigned = 0)
  overflow : t.get .overflow = decide (¬ FitsSigned n signed)
  carry : t.get .carry = if keepsCarry then s.get .carry else decide (¬ FitsUnsigned n unsigned)
  others : ∀ i < 16, 4 ≤ i → Word.bit t.word i = Word.bit s.word i

namespace Status

variable {n : Nat} (s : Status)

theorem bit_put {code : Code} {value : Bool} {i : Nat} (hi : i < 16) (hOther : 4 ≤ i) :
    Word.bit (s.put code value).word i = Word.bit s.word i := by
  have hIndex : code.index ≠ i := by
    cases code <;> simp only [Code.index] <;> omega
  rw [put, Word.bit_putBit _ _ hi, if_neg hIndex]

theorem put_get_self (code : Code) : s.put code (s.get code) = s :=
  congrArg Status.mk (Word.putBit_bit_self s.word code.index)

/-- An operation that leaves the carry alone puts back what it was. -/
theorem describe_put_overflow (r : BitVec n) (overflow : Bool) :
    (s.describe r).put .overflow overflow =
      (s.describe r).putArithmetic overflow (s.get .carry) := by
  have hCarry : s.get .carry = ((s.describe r).put .overflow overflow).get .carry := by
    simp [describe, get_put]
  rw [putArithmetic, hCarry, put_get_self]

/-- It is enough that overflow and carry are right. -/
theorem reports_of_codes {unsigned signed : Int} {keepsCarry overflow carry : Bool}
    {r : BitVec n} (hResult : r = BitVec.ofInt n unsigned)
    (hOverflow : overflow = decide (¬ FitsSigned n signed))
    (hCarry : carry = if keepsCarry then s.get .carry else decide (¬ FitsUnsigned n unsigned)) :
    Reports n unsigned signed keepsCarry s ((s.describe r).putArithmetic overflow carry) := by
  subst hResult
  constructor
  case others =>
    intro i hi hOther
    simp only [putArithmetic, describe, bit_put _ hi hOther]
  all_goals simp only [putArithmetic, describe, get_put, reduceCtorEq, if_true, if_false]
  case negative => exact msb_ofInt unsigned
  case zero => exact ofInt_beq_zero unsigned
  case overflow => exact hOverflow
  case carry => exact hCarry

end Status

section Additive

variable {n : Nat} (s : Status) (x y : BitVec n)

theorem Additive.fst_compute (op : Additive) :
    (op.compute s x y).1 = BitVec.ofInt n (op.exact x.toNat y.toNat (s.get .carry).toNat) := by
  cases op <;> simp [compute, exact, Double.compute, Single.compute, BitVec.ofInt_add, ofInt_sub,
    BitVec.ofInt_neg, BitVec.add_comm]

-- Adding one overflows on the greatest signed value and carries on the greatest unsigned one, and
-- subtracting one does so on the least ones.
theorem overflow_add_carry_eq (c : Bool) :
    (y == BitVec.intMax n && c) = decide (¬ FitsSigned n (y.toInt + c.toNat)) := by
  have hFits := fitsSigned_toInt y
  cases c with
  | false => simp [hFits]
  | true =>
      rw [Bool.and_true, beq_eq_decide, decide_eq_decide, ← BitVec.toInt_inj, BitVec.toInt_intMax]
      simp only [FitsSigned, Bool.toNat_true] at hFits ⊢
      omega

theorem carry_add_carry_eq (c : Bool) :
    (y == BitVec.allOnes n && c) = decide (¬ FitsUnsigned n (y.toNat + c.toNat)) := by
  have hFits := fitsUnsigned_toNat y
  have hPower : ((2 ^ n : Nat) : Int) = 2 ^ n := by norm_cast
  cases c with
  | false => simp [hFits]
  | true =>
      rw [Bool.and_true, beq_eq_decide, decide_eq_decide, BitVec.toNat_eq, BitVec.toNat_allOnes]
      simp only [FitsUnsigned, Bool.toNat_true] at hFits ⊢
      omega

theorem overflow_sub_carry_eq (hn : 0 < n) (c : Bool) :
    (y == BitVec.intMin n && c) = decide (¬ FitsSigned n (y.toInt - c.toNat)) := by
  have hFits := fitsSigned_toInt y
  cases c with
  | false => simp [hFits]
  | true =>
      rw [Bool.and_true, beq_eq_decide, decide_eq_decide, ← BitVec.toInt_inj,
        BitVec.toInt_intMin_of_pos hn]
      simp only [FitsSigned, Bool.toNat_true] at hFits ⊢
      omega

theorem carry_sub_carry_eq (c : Bool) :
    (y == 0 && c) = decide (¬ FitsUnsigned n (y.toNat - c.toNat)) := by
  have hFits := fitsUnsigned_toNat y
  cases c with
  | false => simp [hFits]
  | true =>
      have hZero : y = 0 ↔ y.toNat = 0 := by simp [BitVec.toNat_eq]
      rw [Bool.and_true, beq_eq_decide, decide_eq_decide, hZero]
      simp only [FitsUnsigned, Bool.toNat_true] at hFits ⊢
      omega

theorem overflow_neg_eq (hn : 0 < n) :
    (-y == BitVec.intMin n) = decide (¬ FitsSigned n (0 - y.toInt)) := by
  have hFits := fitsSigned_toInt y
  rw [beq_eq_decide, decide_eq_decide, BitVec.neg_eq_intMin, ← BitVec.toInt_inj,
    BitVec.toInt_intMin_of_pos hn]
  simp only [FitsSigned] at hFits ⊢
  omega

theorem carry_neg_eq : (-y != 0) = decide (¬ FitsUnsigned n (0 - y.toNat)) := by
  have hFits := fitsUnsigned_toNat y
  have hNegative : -y = 0 ↔ y.toNat = 0 :=
    BitVec.neg_eq_zero_iff.trans (by simp [BitVec.toNat_eq])
  rw [bne, beq_eq_decide, ← decide_not, decide_eq_decide, hNegative]
  simp only [FitsUnsigned] at hFits ⊢
  omega

theorem carry_add_eq : x.uaddOverflow y = decide (¬ FitsUnsigned n (y.toNat + x.toNat)) := by
  have hPower : ((2 ^ n : Nat) : Int) = 2 ^ n := by norm_cast
  rw [BitVec.uaddOverflow, decide_eq_decide]
  simp only [FitsUnsigned]
  omega

theorem borrow_eq : decide (x.toNat < y.toNat) = decide (¬ FitsUnsigned n (x.toNat - y.toNat)) := by
  simpa using borrow_width_eq_misfit x y false

theorem overflow_add_eq (hn : 0 < n) :
    (x.msb == y.msb && (x + y).msb != x.msb) = decide (¬ FitsSigned n (y.toInt + x.toInt)) := by
  have hRule : ∀ a b r : Bool, (a == b && r != a) = (a == b && a != r) := by decide
  rw [hRule, Int.add_comm]
  simpa using sum_overflow_eq_misfit x y false hn

theorem overflow_sub_eq (hn : 0 < n) :
    (x.msb != y.msb && (y - x).msb == x.msb) = decide (¬ FitsSigned n (y.toInt - x.toInt)) := by
  have hRule : ∀ a b r : Bool, (a != b && r == a) = (b != a && b != r) := by decide
  rw [hRule]
  simpa using difference_overflow_eq_misfit y x false hn

theorem overflow_cmp_eq (hn : 0 < n) :
    (x.msb != y.msb && (x - y).msb == y.msb) = decide (¬ FitsSigned n (x.toInt - y.toInt)) := by
  have hRule : ∀ a b r : Bool, (a != b && r == b) = (a != b && a != r) := by decide
  rw [hRule]
  simpa using difference_overflow_eq_misfit x y false hn

/-- Every operation reports on its exact result. -/
theorem Additive.reports_compute (op : Additive) (hn : 0 < n) :
    let carry : Int := (s.get .carry).toNat
    Status.Reports n (op.exact x.toNat y.toNat carry) (op.exact x.toInt y.toInt carry)
      op.keepsCarry s (op.compute s x y).2 := by
  have hResult := op.fst_compute s x y
  cases op with
  | add => exact s.reports_of_codes hResult (overflow_add_eq x y hn) (carry_add_eq x y)
  | sub => exact s.reports_of_codes hResult (overflow_sub_eq x y hn) (borrow_eq y x)
  | cmp => exact s.reports_of_codes hResult (overflow_cmp_eq x y hn) (borrow_eq x y)
  | inc =>
      have hOverflow := overflow_add_carry_eq y true
      rw [Bool.and_true] at hOverflow
      have h : Status.Reports n _ _ true s _ := s.reports_of_codes hResult hOverflow rfl
      rwa [if_pos rfl, ← Status.describe_put_overflow] at h
  | dec =>
      have hOverflow := overflow_sub_carry_eq y hn true
      rw [Bool.and_true] at hOverflow
      have h : Status.Reports n _ _ true s _ := s.reports_of_codes hResult hOverflow rfl
      rwa [if_pos rfl, ← Status.describe_put_overflow] at h
  | neg => exact s.reports_of_codes hResult (overflow_neg_eq y hn) (carry_neg_eq y)
  | adc => exact s.reports_of_codes hResult (overflow_add_carry_eq y _) (carry_add_carry_eq y _)
  | sbc => exact s.reports_of_codes hResult (overflow_sub_carry_eq y hn _) (carry_sub_carry_eq y _)

end Additive

/-- The shifts by one: through the carry, or arithmetic. -/
inductive Turn where
  | ror
  | rol
  | asr
  | asl
  deriving DecidableEq, Repr

namespace Turn

def single : Turn → Single
  | .ror => .ror
  | .rol => .rol
  | .asr => .asr
  | .asl => .asl

/-- What a shift makes of a carry and a value. The rotations turn the two as one word with the
carry on top. An arithmetic shift halves the signed value or doubles the unsigned one, and what
is lost of it goes to the carry. -/
def Relates {n : Nat} (op : Turn) (c : Bool) (x : BitVec n) (out : Bool) (r : BitVec n) : Prop :=
  match op with
  | .ror => BitVec.cons out r = (BitVec.cons c x).rotateRight 1
  | .rol => BitVec.cons out r = (BitVec.cons c x).rotateLeft 1
  | .asr => x.toInt = 2 * r.toInt + out.toNat
  | .asl => 2 * x.toNat = 2 ^ n * out.toNat + r.toNat

end Turn

section Turn

variable {n : Nat} (x : BitVec n) (c : Bool)

/-- An arithmetic shift to the right halves, and the carry is the rest. -/
theorem toInt_sshiftRight_one (hn : 0 < n) :
    x.toInt = 2 * (x.sshiftRight 1).toInt + (x.getLsbD 0).toNat := by
  rw [toInt_sshiftRight, Int.pow_one, ← toInt_emod_two x hn]
  omega

/-- A shift to the left doubles, and the carry is what does not fit. -/
theorem toNat_shiftLeft_one (hn : 0 < n) :
    2 * x.toNat = 2 ^ n * x.msb.toNat + (x <<< 1).toNat := by
  have hBelow := x.isLt
  obtain ⟨k, rfl⟩ := Nat.exists_eq_add_one_of_ne_zero (Nat.pos_iff_ne_zero.1 hn)
  have hShifted : (x <<< 1).toNat = 2 * (x.toNat % 2 ^ k) := by
    rw [BitVec.toNat_shiftLeft, Nat.shiftLeft_eq, Nat.pow_one, Nat.pow_succ,
      Nat.mul_mod_mul_right, Nat.mul_comm]
  rw [hShifted, BitVec.msb_eq_decide, Nat.add_sub_cancel]
  by_cases hTop : 2 ^ k ≤ x.toNat
  · have hRest : x.toNat % 2 ^ k = x.toNat - 2 ^ k := by
      rw [Nat.mod_eq_sub_mod hTop, Nat.mod_eq_of_lt (by omega)]
    simp only [hTop, decide_true, Bool.toNat_true]
    omega
  · simp only [hTop, decide_false, Bool.toNat_false]
    rw [Nat.mod_eq_of_lt (by omega)]
    omega

/-- The codes after a shift that leaves `r` and moves `out` into the carry. -/
theorem get_shifted (s : Status) (r : BitVec n) (out : Bool) :
    (Single.shifted s r out).get .carry = out ∧ (Single.shifted s r out).get .negative = r.msb ∧
      (Single.shifted s r out).get .zero = (r == 0) ∧
      (Single.shifted s r out).get .overflow = (r.msb != out) := by
  simp [Single.shifted, Status.putArithmetic, Status.describe, Status.get_put]

/-- The result of a shift and the codes that tell about it. -/
structure Turn.Shifts (op : Turn) (s : Status) (x r : BitVec n) (t : Status) : Prop where
  relates : op.Relates (s.get .carry) x (t.get .carry) r
  negative : t.get .negative = r.msb
  zero : t.get .zero = (r == 0)
  overflow : t.get .overflow = (t.get .negative ^^ t.get .carry)

theorem Turn.Shifts.of_shifted {op : Turn} {s : Status} {x r : BitVec n} {out : Bool}
    (h : op.Relates (s.get .carry) x out r) : op.Shifts s x r (Single.shifted s r out) := by
  obtain ⟨hCarry, hNegative, hZero, hOverflow⟩ := get_shifted s r out
  exact ⟨hCarry.symm ▸ h, hNegative, hZero, by rw [hOverflow, hNegative, hCarry]⟩

theorem Turn.shifts_compute (op : Turn) (hn : 0 < n) (s : Status) (x : BitVec n) :
    op.Shifts s x (op.single.compute s x).1 (op.single.compute s x).2 := by
  cases op with
  | ror => exact .of_shifted (cons_rotateRight x _ hn).symm
  | rol => exact .of_shifted (cons_rotateLeft x _ hn).symm
  | asr => exact .of_shifted (toInt_sshiftRight_one x hn)
  | asl => exact .of_shifted (toNat_shiftLeft_one x hn)

/-- A rotation to the right undoes one to the left. -/
theorem Turn.eq_of_rol_ror {x y z : BitVec n} {a b c : Bool}
    (hLeft : Turn.rol.Relates a x b y) (hRight : Turn.ror.Relates b y c z) : z = x ∧ c = a := by
  have hBack := calc BitVec.cons c z
    _ = (BitVec.cons b y).rotateRight 1 := hRight
    _ = ((BitVec.cons a x).rotateLeft 1).rotateRight 1 := congrArg (·.rotateRight 1) hLeft
    _ = BitVec.cons a x := rotateRight_rotateLeft _ n.succ_pos 1
  obtain ⟨hCarry, hValue⟩ := cons_inj z hBack
  exact ⟨hValue, hCarry⟩

end Turn

/-- The end of an instruction: the status is replaced, and the result stored if it is stored. -/
def Operands.finish {w : Width} (o : Operands w) (stores : Bool) (result : BitVec w.bits × Status) :
    State :=
  if stores then store w o.place result.1 (setStatus result.2 o.state)
  else setStatus result.2 o.state

namespace Operands

variable {w : Width} (o : Operands w) (result : BitVec w.bits × Status)

theorem status_finish (stores : Bool) : (o.finish stores result).cpu.status = result.2 := by
  cases stores with
  | true => exact status_store w o.place result.1 _
  | false => rfl

theorem stored_finish : Stored w o.place result.1 o.state (o.finish true result) :=
  stored_store w o.place result.1 result.2 o.state

end Operands

theorem execute_single (op : Single) (w : Width) (d : Operand) (length : UInt16) (m : State) :
    let o := Operands.one w d m
    execute ⟨.single op w d, length⟩ m =
      (o.finish op.stores (op.compute m.cpu.status o.value)).proceed := by
  intro o
  rw [← Operands.status_one w d m]
  rfl

theorem execute_double {op : Double} (hOp : op ≠ .mov) (w : Width) (s d : Operand)
    (length : UInt16) (m : State) :
    let o := Operands.two w s d m
    execute ⟨.double op w s d, length⟩ m =
      (o.finish op.stores (op.compute m.cpu.status o.source o.value)).proceed := by
  intro o
  rw [← Operands.status_two w s d m]
  simp only [execute, double, if_neg hOp]
  rfl

theorem execute_additive (op : Additive) (w : Width) (s d : Operand) (length : UInt16)
    (m : State) :
    let o := op.operands w s d m
    execute ⟨op.operation w s d, length⟩ m =
      (o.finish op.stores (op.compute m.cpu.status o.source o.value)).proceed := by
  cases op with
  | add | sub | cmp => exact execute_double (by decide) w s d length m
  | inc | dec | neg | adc | sbc => exact execute_single _ w d length m

/-- Resolving an operand does not change what is in the place that it finds. -/
theorem load_resolve (d : Operand) (w : Width) (m : State) :
    (Operands.one w d m).value = load m w (Operands.one w d m).place := by
  cases d <;> cases w <;> rfl

section Instructions

variable (w : Width) (s d : Operand) (length : UInt16) (m : State)

theorem additive_result (op : Additive) :
    let o := op.operands w s d m
    let carry : Int := (m.cpu.status.get .carry).toNat
    let unsigned := op.exact o.source.toNat o.value.toNat carry
    let n := o.finish op.stores (op.compute m.cpu.status o.source o.value)
    Status.Reports w.bits unsigned (op.exact o.source.toInt o.value.toInt carry) op.keepsCarry
      m.cpu.status n.cpu.status ∧
    if op.stores then Stored w o.place (BitVec.ofInt w.bits unsigned) o.state n
    else n = setStatus n.cpu.status o.state := by
  intro o carry unsigned n
  have hReports := op.reports_compute m.cpu.status o.source o.value w.bits_pos
  have hResult := op.fst_compute m.cpu.status o.source o.value
  refine ⟨?_, ?_⟩
  · rw [Operands.status_finish]
    exact hReports
  · cases hStores : op.stores with
    | true =>
        have hStored := o.stored_finish (op.compute m.cpu.status o.source o.value)
        rw [hResult, ← hStores] at hStored
        exact hStored
    | false =>
        simp only [n, hStores]
        rfl

/-- The place has the result of the shift, and the codes tell about it. -/
theorem turn_result (op : Turn) :
    let o := Operands.one w d m
    let result := op.single.compute m.cpu.status o.value
    ∃ n : State, execute ⟨.single op.single w d, length⟩ m = n.proceed ∧
      Stored w o.place result.1 o.state n ∧
      op.Shifts m.cpu.status o.value result.1 n.cpu.status := by
  intro o result
  have hStores : op.single.stores = true := by cases op <;> rfl
  refine ⟨o.finish true result, ?_, o.stored_finish result, ?_⟩
  · rw [execute_single, hStores]
  · rw [Operands.status_finish]
    exact op.shifts_compute w.bits_pos m.cpu.status o.value

theorem rol_ror_restores (e : Operand) (next : UInt16) : ∃ n p : State,
    let o := Operands.one w d m
    execute ⟨.single .rol w d, length⟩ m = n.proceed ∧
    execute ⟨.single .ror w e, next⟩ n = p.proceed ∧
    ((Operands.one w e n).place = o.place → (∀ c, o.place ≠ .constant c) →
      load p w o.place = o.value ∧ p.cpu.status.get .carry = m.cpu.status.get .carry) := by
  obtain ⟨n, hRol, hFirst, hLeft⟩ := turn_result w d length m .rol
  obtain ⟨p, hRor, hSecond, hRight⟩ := turn_result w e next n .ror
  refine ⟨n, p, hRol, hRor, fun hSame hPlace => ?_⟩
  have hBetween := load_resolve e w n
  rw [hSame, hFirst.value hPlace] at hBetween
  rw [hSame] at hSecond
  have hRelates := hRight.relates
  rw [hBetween] at hSecond hRelates
  rw [hSecond.value hPlace]
  exact Turn.eq_of_rol_ror hLeft.relates hRelates

theorem high_finish {o : Operands .byte} {r : Register} (hPlace : o.place = .register r)
    (stores : Bool) (result : BitVec 8 × Status) :
    Word.high ((o.finish stores result).cpu.get r) = Word.high (o.state.cpu.get r) := by
  cases stores with
  | true => exact (o.stored_finish result).high r rfl hPlace
  | false => rfl

/-- A byte that moves into a register is extended with its sign. -/
theorem get_movb (r : Register) : ∃ n : State,
    execute ⟨.double .mov .byte s (.register r), length⟩ m = n.proceed ∧
      n.cpu.get r = Word.signExtend ⟨(Operands.two .byte s (.register r) m).source⟩ :=
  ⟨_, rfl, (Cpu.get_set _ r r _).trans (if_pos rfl)⟩

end Instructions

/-- Addition, subtraction and shifts by one on the PDP-11 agree with the integers, for operands of
any mode and width in every state. An addition or subtraction stores the exact result modulo a
power of two, a comparison nothing, and the codes report on the exact result. A shift by one
moves the value and the carry as `Turn.Relates` says, and overflow is negative or carry but not
both. A rotation to the left and one to the right of the same place restore its value and the
carry. A byte in a register leaves the upper half, except that a move extends its sign. -/
theorem condition_codes_match_integers (w : Width) (s d : Operand) (length : UInt16) (m : State) :
    (∀ op : Additive, ∃ n : State,
      let o := op.operands w s d m
      let carry : Int := (m.cpu.status.get .carry).toNat
      let unsigned := op.exact o.source.toNat o.value.toNat carry
      execute ⟨op.operation w s d, length⟩ m = n.proceed ∧
      Status.Reports w.bits unsigned (op.exact o.source.toInt o.value.toInt carry) op.keepsCarry
        m.cpu.status n.cpu.status ∧
      if op.stores then Stored w o.place (BitVec.ofInt w.bits unsigned) o.state n
      else n = setStatus n.cpu.status o.state) ∧
    (∀ op : Turn, ∃ (n : State) (r : BitVec w.bits),
      let o := Operands.one w d m
      execute ⟨.single op.single w d, length⟩ m = n.proceed ∧ Stored w o.place r o.state n ∧
      op.Shifts m.cpu.status o.value r n.cpu.status) ∧
    (∀ (e : Operand) (next : UInt16), ∃ n p : State,
      let o := Operands.one w d m
      execute ⟨.single .rol w d, length⟩ m = n.proceed ∧
      execute ⟨.single .ror w e, next⟩ n = p.proceed ∧
      ((Operands.one w e n).place = o.place → (∀ c, o.place ≠ .constant c) →
        load p w o.place = o.value ∧ p.cpu.status.get .carry = m.cpu.status.get .carry)) ∧
    (∀ r : Register,
      (∀ op : Single, ∃ n : State, execute ⟨.single op .byte (.register r), length⟩ m = n.proceed ∧
        Word.high (n.cpu.get r) = Word.high (m.cpu.get r)) ∧
      (∀ op : Double, ∃ n : State,
        let o := Operands.two .byte s (.register r) m
        execute ⟨.double op .byte s (.register r), length⟩ m = n.proceed ∧
        if op = .mov then n.cpu.get r = Word.signExtend ⟨o.source⟩
        else Word.high (n.cpu.get r) = Word.high (o.state.cpu.get r))) := by
  refine ⟨fun op => ?_, fun op => ?_, rol_ror_restores w d length m, fun r => ⟨fun op => ?_, ?_⟩⟩
  · exact ⟨_, execute_additive op w s d length m, additive_result w s d m op⟩
  · obtain ⟨n, hExecute, hStored, hShifts⟩ := turn_result w d length m op
    exact ⟨n, _, hExecute, hStored, hShifts⟩
  · exact ⟨_, execute_single op .byte (.register r) length m, high_finish rfl _ _⟩
  · intro op
    by_cases hMove : op = .mov
    · subst hMove
      exact get_movb s length m r
    · refine ⟨_, execute_double hMove .byte s (.register r) length m, ?_⟩
      rw [if_neg hMove]
      exact high_finish rfl _ _

private abbrev byteState : State where
  cpu := ({ status := ({} : Status).put .carry true } : Cpu).set .r1 0x5a81
  memory := .shared

/-- The low byte of a register holds -127. Its negative fits, but borrows, and leaves the upper
byte. Rotated to the left and back it is the same, and so is the carry. -/
theorem condition_codes_match_integers_byte :
    (∃ n : State, execute ⟨.single .neg .byte (.register .r1), 2⟩ byteState = n.proceed ∧
      load n .byte (.register .r1) = 127 ∧ n.cpu.status.get .overflow = false ∧
      n.cpu.status.get .carry = true ∧ Word.high (n.cpu.get .r1) = 0x5a) ∧
    (∃ n p : State, execute ⟨.single .rol .byte (.register .r1), 2⟩ byteState = n.proceed ∧
      execute ⟨.single .ror .byte (.register .r1), 2⟩ n = p.proceed ∧
      load p .byte (.register .r1) = 0x81 ∧ p.cpu.status.get .carry = true) := by
  obtain ⟨hAdditive, -, hRestore, -⟩ :=
    condition_codes_match_integers .byte (.register .r1) (.register .r1) 2 byteState
  constructor
  · obtain ⟨n, hExecute, hReports, hStored⟩ := hAdditive .neg
    refine ⟨n, hExecute, ?_, ?_, ?_, ?_⟩
    · exact (hStored.value nofun).trans (by decide +kernel)
    · exact hReports.overflow.trans (by decide +kernel)
    · exact hReports.carry.trans (by decide +kernel)
    · exact (hStored.high .r1 rfl rfl).trans (by decide +kernel)
  · obtain ⟨n, p, hRol, hRor, hBack⟩ := hRestore (.register .r1) 2
    obtain ⟨hValue, hCarry⟩ := hBack rfl nofun
    exact ⟨n, p, hRol, hRor, hValue.trans (by decide +kernel), hCarry.trans (by decide +kernel)⟩

end VintageUnix.Pdp11
