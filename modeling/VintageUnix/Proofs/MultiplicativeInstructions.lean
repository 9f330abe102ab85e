import VintageUnix.Proofs.ExactProducts
import VintageUnix.Proofs.SizedOperands

/-! Multiplication and division on the 8086 against the integers. A product fills the accumulator
pair. A division takes its dividend from the pair and leaves the quotient in the low part and
the remainder in the high part, or it faults and leaves everything as it was. -/
namespace VintageUnix.I8086

/-- Both parts of the accumulator pair. -/
def Cpu.accumulators (c : Cpu) (w : Width) : BitVec (w.bits + w.bits) :=
  c.highAccumulator w ++ c.lowAccumulator w

/-- The places of the accumulator pair. -/
def accumulatorPlaces : Width → List Location
  | .byte => [.half .al, .half .ah]
  | .word => [.register .ax, .register .dx]

/-- Replace the accumulator pair and the flags. -/
def putAccumulators {w : Width} (low high : BitVec w.bits) (f : Flags) (m : State) : State :=
  setFlags f (m.mapCpu (·.setAccumulators w low high))

section PutAccumulators

variable {w : Width} (low high : BitVec w.bits) (f : Flags) (m : State)

theorem lowAccumulator_putAccumulators :
    (putAccumulators low high f m).cpu.lowAccumulator w = low := by
  have hDistinct : Half.ah ≠ Half.al := by decide
  cases w with
  | byte =>
      refine congrArg UInt8.toBitVec ((Cpu.getHalf_setHalf ..).trans ?_)
      rw [if_neg hDistinct, Cpu.getHalf_setHalf, if_pos rfl]
  | word =>
      refine congrArg UInt16.toBitVec ((Cpu.get_set ..).trans ?_)
      rw [if_neg (by decide), Cpu.get_set, if_pos rfl]

theorem highAccumulator_putAccumulators :
    (putAccumulators low high f m).cpu.highAccumulator w = high := by
  cases w with
  | byte => exact congrArg UInt8.toBitVec ((Cpu.getHalf_setHalf ..).trans (if_pos rfl))
  | word => exact congrArg UInt16.toBitVec ((Cpu.get_set ..).trans (if_pos rfl))

theorem changesOnly_putAccumulators :
    ChangesOnly w (accumulatorPlaces w) m (putAccumulators low high f m) := by
  refine ⟨fun h hOther => ?_, .refl _ _, by cases w <;> rfl, by cases w <;> rfl⟩
  cases w with
  | byte =>
      have hLow : Half.al ≠ h := fun hSame => hOther _ (.head _) hSame.symm
      have hHigh : Half.ah ≠ h := fun hSame => hOther _ (.tail _ (.head _)) hSame.symm
      refine (Cpu.getHalf_setHalf ..).trans ?_
      rw [if_neg hHigh, Cpu.getHalf_setHalf, if_neg hLow]
  | word =>
      have hLow : Register.ax ≠ h.register := fun hSame => hOther _ (.head _) hSame.symm
      have hHigh : Register.dx ≠ h.register := fun hSame => hOther _ (.tail _ (.head _)) hSame.symm
      refine (Cpu.getHalf_set ..).trans ?_
      rw [if_neg hHigh, Cpu.getHalf_set, if_neg hLow]

theorem setProduct_eq_putAccumulators (v : BitVec (w.bits + w.bits)) (needed : Bool) :
    setProduct w (v, needed) m =
      putAccumulators (v.setWidth w.bits) ((v >>> w.bits).setWidth w.bits)
        ((m.cpu.flags.put .carry needed).put .overflow needed) m := by
  cases w <;> rfl

end PutAccumulators

/-- After a multiplication of `a` and `b` the accumulator pair holds their product. Carry and
overflow tell whether the lower half alone has another value. -/
structure LeavesProduct (reading : Reading) (w : Width) (a b : Int) (m n : State) : Prop where
  exact : reading.value (n.cpu.accumulators w) = a * b
  carry : n.cpu.flags.get .carry = decide (reading.value (n.cpu.lowAccumulator w) ≠ a * b)
  overflow : n.cpu.flags.get .overflow = n.cpu.flags.get .carry
  others : Flags.SameBut [.carry, .overflow] m.cpu.flags n.cpu.flags
  elsewhere : ChangesOnly w (accumulatorPlaces w) m n

/-- After a division the accumulator pair holds the quotient and the remainder. -/
structure LeavesQuotient (reading : Reading) (w : Width) (q r : Int) (m n : State) : Prop where
  quotient : reading.value (n.cpu.lowAccumulator w) = q
  remainder : reading.value (n.cpu.highAccumulator w) = r
  flags : n.cpu.flags = m.cpu.flags
  elsewhere : ChangesOnly w (accumulatorPlaces w) m n

theorem leavesProduct_setProduct (reading : Reading) {w : Width} (x y : BitVec w.bits)
    (m : State) :
    let v := reading.product x y
    LeavesProduct reading w (reading.value x) (reading.value y) m
      (setProduct w (v, v != reading.extend (w.bits + w.bits) (v.setWidth w.bits)) m) := by
  intro v
  have hExact : reading.value v = reading.value x * reading.value y :=
    reading.value_product w.bits_pos x y
  rw [setProduct_eq_putAccumulators, reading.bne_extend_eq, hExact]
  constructor
  case exact =>
    rw [Cpu.accumulators, highAccumulator_putAccumulators, lowAccumulator_putAccumulators,
      append_halves, hExact]
  case carry =>
    rw [lowAccumulator_putAccumulators]
    exact (Flags.get_put ..).trans ((if_neg (by decide)).trans
      ((Flags.get_put ..).trans (if_pos rfl)))
  case overflow => simp [putAccumulators, setFlags, Machine.mapCpu, Flags.get_put]
  case others => exact ((Flags.SameBut.refl _ m.cpu.flags).put (by decide)).put (by decide)
  case elsewhere => exact changesOnly_putAccumulators _ _ _ m

/-- The division of the accumulator pair by a value. -/
def divideAs {n : Nat} (reading : Reading) (x : BitVec (n + n)) (y : BitVec n) :
    Except Fault (BitVec n × BitVec n) :=
  match reading with
  | .unsigned => divide x y
  | .signed => divideSigned x y

theorem divideAs_eq {n : Nat} (reading : Reading) (x : BitVec (n + n)) (y : BitVec n) :
    divideAs reading x y =
      if y = 0 then .error .divideByZero
      else
        let q := (reading.value x).tdiv (reading.value y)
        let r := (reading.value x).tmod (reading.value y)
        if reading.value (BitVec.ofInt n q) = q then .ok (BitVec.ofInt n q, BitVec.ofInt n r)
        else .error .divisionOverflow := by
  cases reading with
  | unsigned =>
      simp only [divideAs, divide, Reading.value, ← Int.ofNat_tdiv, ← Int.ofNat_tmod,
        BitVec.ofInt_natCast, Int.natCast_inj]
  | signed => rfl

section Divisions

variable {n : Nat} {reading : Reading} {x : BitVec (n + n)} {y : BitVec n} {q r : Int}

theorem divideAs_of_fits (hn : 0 < n) (hy : y ≠ 0)
    (h : TruncatedDivision (reading.value x) (reading.value y) q r) (hFits : reading.Fits n q) :
    divideAs reading x y = .ok (BitVec.ofInt n q, BitVec.ofInt n r) := by
  obtain ⟨rfl, rfl⟩ := (TruncatedDivision.iff_tdiv ((reading.value_eq_zero_iff y).not.2 hy)).1 h
  rw [divideAs_eq, if_neg hy]
  exact if_pos (reading.value_ofInt hn hFits)

theorem divideAs_of_not_fits (hn : 0 < n) (hy : y ≠ 0)
    (h : TruncatedDivision (reading.value x) (reading.value y) q r) (hFits : ¬ reading.Fits n q) :
    divideAs reading x y = .error .divisionOverflow := by
  obtain ⟨rfl, rfl⟩ := (TruncatedDivision.iff_tdiv ((reading.value_eq_zero_iff y).not.2 hy)).1 h
  rw [divideAs_eq, if_neg hy]
  exact if_neg ((reading.value_ofInt_eq_iff hn _).not.2 hFits)

end Divisions

theorem leavesQuotient_putAccumulators {reading : Reading} {w : Width}
    {x : BitVec (w.bits + w.bits)} {y : BitVec w.bits} {q r : Int}
    (h : TruncatedDivision (reading.value x) (reading.value y) q r)
    (hFits : reading.Fits w.bits q) (m : State) :
    LeavesQuotient reading w q r m
      (m.mapCpu (·.setAccumulators w (BitVec.ofInt w.bits q) (BitVec.ofInt w.bits r))) := by
  have hRemainder := h.fits_remainder (reading.fits_value x) (reading.fits_value y)
  have hState : m.mapCpu (·.setAccumulators w (BitVec.ofInt w.bits q) (BitVec.ofInt w.bits r)) =
      putAccumulators (BitVec.ofInt w.bits q) (BitVec.ofInt w.bits r) m.cpu.flags m := by
    cases w <;> rfl
  rw [hState]
  constructor
  case quotient => rw [lowAccumulator_putAccumulators, reading.value_ofInt w.bits_pos hFits]
  case remainder => rw [highAccumulator_putAccumulators, reading.value_ofInt w.bits_pos hRemainder]
  case flags => rfl
  case elsewhere => exact changesOnly_putAccumulators _ _ _ m

/-- The operations that multiply or divide. -/
inductive Multiplicative where
  | product (reading : Reading)
  | quotient (reading : Reading)

namespace Multiplicative

def operation (op : Multiplicative) (w : Width) (d : Operand) : Operation :=
  match op with
  | .product .unsigned => .unary .mul w d
  | .product .signed => .unary .imul w d
  | .quotient .unsigned => .unary .div w d
  | .quotient .signed => .unary .idiv w d

/-- What comes of the operation on a value. A multiplication proceeds. A division by zero and one
with a quotient that does not fit are faults, and leave the state as it was. Any other proceeds
with the one quotient and remainder that there are. -/
def Yields (op : Multiplicative) (w : Width) (v : BitVec w.bits) (m : State)
    (outcome : Outcome Cpu) : Prop :=
  match op with
  | .product reading => ∃ n, outcome = n.proceed ∧
      LeavesProduct reading w (reading.value (m.cpu.lowAccumulator w)) (reading.value v) m n
  | .quotient reading =>
      let Divides := TruncatedDivision (reading.value (m.cpu.accumulators w)) (reading.value v)
      if reading.value v = 0 then outcome = (m, .error .divideByZero)
      else ∃ q r, Divides q r ∧ (∀ {s t}, Divides s t → s = q ∧ t = r) ∧
        if reading.Fits w.bits q then ∃ n, outcome = n.proceed ∧ LeavesQuotient reading w q r m n
        else outcome = (m, .error .divisionOverflow)

theorem yields_execute {op : Multiplicative} {w : Width} {d : Operand} {i : Instruction}
    (h : i.operation = op.operation w d) {m : State} {place : Location}
    (hPlace : m.cpu.locate d = .ok place) :
    op.Yields w (load m w place) m (execute i m) := by
  cases op with
  | product reading =>
      refine ⟨_, ?_, leavesProduct_setProduct reading _ _ m⟩
      cases reading <;> simp only [execute, h, operation, hPlace] <;> rfl
  | quotient reading =>
      have hExecute : execute i m =
          setQuotient w m (divideAs reading (m.cpu.accumulators w) (load m w place)) := by
        cases reading <;> simp only [execute, h, operation, hPlace] <;> rfl
      rw [hExecute, Yields]
      by_cases hZero : reading.value (load m w place) = 0
      · rw [if_pos hZero, divideAs_eq, if_pos ((reading.value_eq_zero_iff _).1 hZero)]
        rfl
      · have hValue := (reading.value_eq_zero_iff _).not.1 hZero
        have hDivides := truncatedDivision_tdiv (reading.value (m.cpu.accumulators w)) hZero
        rw [if_neg hZero]
        refine ⟨_, _, hDivides, hDivides.unique, ?_⟩
        split
        case isTrue hFits =>
          rw [divideAs_of_fits w.bits_pos hValue hDivides hFits]
          exact ⟨_, rfl, leavesQuotient_putAccumulators hDivides hFits m⟩
        case isFalse hFits =>
          rw [divideAs_of_not_fits w.bits_pos hValue hDivides hFits]
          rfl

end Multiplicative

/-- Multiplication and division on the 8086 are exact or refuse. Every such instruction, as it is
decoded from any code and in every state, has its operand somewhere. A multiplication then
leaves the exact product in the accumulator pair, and carry and overflow tell whether its upper
half is needed. A division faults if the operand is zero, and otherwise if the quotient, rounded
toward zero, does not fit, which is so for the least dividend and minus one. A fault changes
nothing. Any other division leaves the quotient and the remainder and keeps the flags. -/
theorem multiplicative_instructions_exact_or_refused {code : Code} {start : UInt16}
    {op : Multiplicative} {w : Width} {d : Operand}
    (h : (decodeFolded code start).operation = op.operation w d) (m : State) :
    ∃ place, m.cpu.locate d = .ok place ∧
      op.Yields w (load m w place) m (execute (decodeFolded code start) m) := by
  have hSized := sized_decodeFolded code start
  rw [h] at hSized
  have hIsPlace : d.IsPlace w := by
    cases op with
    | product reading => cases reading <;> exact hSized
    | quotient reading => cases reading <;> exact hSized
  obtain ⟨place, hPlace, -⟩ := hIsPlace.exists_locate m.cpu
  exact ⟨place, hPlace, Multiplicative.yields_execute h hPlace⟩

/-- Divide the word pair by a register, as signed values. -/
private abbrev leastBytes : Array UInt8 :=
  #[0xf7, 0xfb]

private abbrev leastState : State where
  cpu := ((({} : Cpu).set .ax 0).set .dx 0x8000).set .bx 0xffff
  memory := .shared

/-- The least dividend by minus one. -/
theorem multiplicative_instructions_exact_or_refused_least :
    (decodeFolded (.ofBytes ⟨leastBytes⟩) 0).operation =
      (Multiplicative.quotient .signed).operation .word (.register .bx) ∧
    execute (decodeFolded (.ofBytes ⟨leastBytes⟩) 0) leastState =
      (leastState, .error .divisionOverflow) := by
  have hDecode : (decodeFolded (.ofBytes ⟨leastBytes⟩) 0).operation =
      (Multiplicative.quotient .signed).operation .word (.register .bx) := by
    decide +kernel
  refine ⟨hDecode, ?_⟩
  obtain ⟨place, hPlace, hYields⟩ :=
    multiplicative_instructions_exact_or_refused hDecode leastState
  cases hPlace
  have hDivisor : Reading.signed.value (load leastState .word (.register .bx)) = -1 := by
    decide +kernel
  have hDividend : Reading.signed.value (leastState.cpu.accumulators .word) = -2 ^ 31 := by
    decide +kernel
  rw [Multiplicative.Yields, hDivisor, hDividend, if_neg (by decide)] at hYields
  obtain ⟨q, r, hDivides, -, hRest⟩ := hYields
  have hQuotient : q = 2 ^ 31 := by
    have hExact := hDivides.exact
    have hSmall := hDivides.small
    omega
  rw [hQuotient, if_neg (by decide)] at hRest
  exact hRest

end VintageUnix.I8086
