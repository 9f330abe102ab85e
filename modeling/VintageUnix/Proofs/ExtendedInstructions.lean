import VintageUnix.Proofs.ConditionCodes
import VintageUnix.Proofs.ExactProducts

/-! The extended instructions of the PDP-11 against the integers: the multiplication, the division
and the arithmetic shifts by a count, on a register or on a pair of them. -/
namespace VintageUnix.Pdp11

variable {n : Nat}

/-- The result of an arithmetic shift by a count, with overflow and carry. To the left it
multiplies, and overflows if the product does not fit. To the right, for the count `-(k + 1)`, it divides and
rounds down. The carry is the last bit moved out, of a value with its sign extended. -/
def Scales (count : Int) (x r : BitVec n) (overflow carry : Bool) : Prop :=
  match count with
  | .ofNat k =>
    let product := x.toInt * 2 ^ k
    r = BitVec.ofInt n product ∧ overflow = decide (¬ FitsSigned n product) ∧
      carry = (decide (0 < k ∧ k ≤ n) && x.getLsbD (n - k))
  | .negSucc k =>
    r.toInt = x.toInt / 2 ^ (k + 1) ∧ overflow = false ∧ carry = decide (x.toInt / 2 ^ k % 2 = 1)

namespace Shifting

/-- If a value does not fit, its double does not. -/
theorem signChanged_succ (hn : 0 < n) (x : BitVec n) (k : Nat) :
    (decide (¬ FitsSigned n (x.toInt * 2 ^ k)) || ((x <<< k) <<< 1).msb != (x <<< k).msb) =
      decide (¬ FitsSigned n (x.toInt * 2 ^ (k + 1))) := by
  have hDouble : x.toInt * 2 ^ (k + 1) = x.toInt * 2 ^ k * 2 := by
    rw [Int.pow_succ, Int.mul_assoc]
  rw [hDouble]
  -- as long as it fits the word is the product, and after that only the flag remembers
  by_cases hFits : FitsSigned n (x.toInt * 2 ^ k)
  · have hValue : (x <<< k).toInt = x.toInt * 2 ^ k := by
      rw [shiftLeft_eq_ofInt, BitVec.toInt_ofInt_eq_self hn hFits.1 hFits.2]
    rw [msb_shiftLeft_one_bne _ hn, hValue, decide_eq_false (not_not.2 hFits), Bool.false_or]
  · have hTwice : ¬ FitsSigned n (x.toInt * 2 ^ k * 2) := by
      have hPositive : (0 : Int) < 2 ^ (n - 1) := Int.pow_pos (by decide)
      simp only [FitsSigned] at hFits ⊢
      omega
    rw [decide_eq_true hFits, decide_eq_true hTwice, Bool.true_or]

/-- The sign has changed at some step exactly if the product does not fit. -/
theorem repeat_left (hn : 0 < n) (x : BitVec n) (k : Nat) :
    Nat.repeat left k { value := x } =
      { value := x <<< k
        carry := decide (0 < k ∧ k ≤ n) && x.getLsbD (n - k)
        signChanged := decide (¬ FitsSigned n (x.toInt * 2 ^ k)) } := by
  induction k with
  | zero => simp [Nat.repeat, fitsSigned_toInt]
  | succ k ih =>
      rw [Nat.repeat, ih]
      simp only [left, Shifting.mk.injEq]
      have hRange : k < n ↔ 0 < k + 1 ∧ k + 1 ≤ n := by omega
      refine ⟨(BitVec.shiftLeft_add x k 1).symm, ?_, signChanged_succ hn x k⟩
      rw [msb_shiftLeft, decide_eq_decide.2 hRange]

theorem repeat_right (hn : 0 < n) (x : BitVec n) (k : Nat) :
    Nat.repeat right (k + 1) { value := x } =
      { value := x.sshiftRight (k + 1), carry := decide (x.toInt / 2 ^ k % 2 = 1) } := by
  have hBottom (y : BitVec n) : y.getLsbD 0 = decide (y.toInt % 2 = 1) := by
    rw [toInt_emod_two y hn]
    cases y.getLsbD 0 <;> rfl
  induction k with
  | zero => simp [Nat.repeat, right, hBottom]
  | succ k ih =>
      rw [Nat.repeat, ih]
      simp only [right, Shifting.mk.injEq, hBottom, toInt_sshiftRight, and_true]
      exact BitVec.sshiftRight_add.symm

end Shifting

/-- Negative and zero describe a result, and what is no condition code is as it was. -/
structure Status.Describes (r : Int) (s t : Status) : Prop where
  negative : t.get .negative = decide (r < 0)
  zero : t.get .zero = decide (r = 0)
  others : ∀ i < 16, 4 ≤ i → Word.bit t.word i = Word.bit s.word i

namespace Status

theorem describes_describe (s : Status) (r : BitVec n) : Describes r.toInt s (s.describe r) := by
  constructor
  case others =>
    intro i hi hOther
    simp only [describe, bit_put _ hi hOther]
  all_goals simp only [describe, get_put, reduceCtorEq, if_true, if_false]
  case negative => exact BitVec.msb_eq_toInt
  case zero =>
    rw [beq_eq_decide, decide_eq_decide]
    exact (Reading.signed.value_eq_zero_iff r).symm

/-- The other two codes do not describe the result. -/
theorem Describes.put {r : Int} {s t : Status} {code : Code} {value : Bool}
    (h : Describes r s t) (hCode : code = .overflow ∨ code = .carry) :
    Describes r s (t.put code value) := by
  constructor
  case others =>
    intro i hi hOther
    rw [bit_put t hi hOther, h.others i hi hOther]
  all_goals rw [get_put, if_neg (by rintro rfl; simp at hCode)]
  case negative => exact h.negative
  case zero => exact h.zero

/-- The codes of a product or a quotient. -/
theorem describe_put_carry (s : Status) (r : BitVec n) (carry : Bool) :
    let t := (s.describe r).put .carry carry
    Describes r.toInt s t ∧ t.get .overflow = false ∧ t.get .carry = carry := by
  refine ⟨(s.describes_describe r).put (.inr rfl), ?_, ?_⟩
  · simp [describe, get_put]
  · rw [get_put, if_pos rfl]

end Status

/-- The value and the status at the end of a shift. -/
def Shifting.finish (s : Status) (r : Shifting n) : BitVec n × Status :=
  (r.value, (s.describe r.value).putArithmetic r.signChanged r.carry)

theorem shift_ofNat (s : Status) (x : BitVec n) (k : Nat) :
    shift s x (.ofNat k) = (Nat.repeat Shifting.left k { value := x }).finish s := by
  cases k with
  | zero => rfl
  | succ k =>
      have hPositive : 0 < Int.ofNat (k + 1) := Int.natCast_pos.2 k.succ_pos
      rw [shift, if_pos hPositive]
      rfl

theorem shift_negSucc (s : Status) (x : BitVec n) (k : Nat) :
    shift s x (.negSucc k) = (Nat.repeat Shifting.right (k + 1) { value := x }).finish s := by
  rw [shift, if_neg (Int.not_lt.2 (Int.le_of_lt (Int.negSucc_lt_zero k)))]
  rfl

theorem scales_shift (hn : 0 < n) (s : Status) (x : BitVec n) (count : Int) :
    let result := shift s x count
    Scales count x result.1 (result.2.get .overflow) (result.2.get .carry) ∧
      Status.Describes result.1.toInt s result.2 := by
  have hFinish (r : Shifting n) (h : Scales count x r.value r.signChanged r.carry) :
      let result := r.finish s
      Scales count x result.1 (result.2.get .overflow) (result.2.get .carry) ∧
        Status.Describes result.1.toInt s result.2 := by
    refine ⟨?_, ((s.describes_describe r.value).put (.inl rfl)).put (.inr rfl)⟩
    simpa [Shifting.finish, Status.putArithmetic, Status.get_put] using h
  cases count with
  | ofNat k =>
      rw [shift_ofNat]
      refine hFinish _ ?_
      rw [Shifting.repeat_left hn]
      exact ⟨shiftLeft_eq_ofInt x k, rfl, rfl⟩
  | negSucc k =>
      rw [shift_negSucc]
      refine hFinish _ ?_
      rw [Shifting.repeat_right hn]
      exact ⟨toInt_sshiftRight x (k + 1), rfl, rfl⟩

/-- Everything but the listed registers and the status is the same in both states. -/
structure ChangesRegisters (rs : List Register) (m n : State) : Prop where
  registers : ∀ r ∉ rs, n.cpu.get r = m.cpu.get r
  memory : n.memory = m.memory
  entrySp : n.cpu.entrySp = m.cpu.entrySp

section Registers

variable (r : Register) (s : Status) (m : State)

theorem changesRegisters_setRegister (v : UInt16) :
    ChangesRegisters [r] m (setStatus s (setRegister r v m)) := by
  refine ⟨fun other hOther => ?_, rfl, rfl⟩
  have hDistinct : r ≠ other := fun hSame => hOther (hSame ▸ List.mem_cons_self)
  exact (Cpu.get_set ..).trans (if_neg hDistinct)

theorem changesRegisters_two (v u : UInt16) :
    ChangesRegisters [r, r.pairLow] m
      (setStatus s (setRegister r.pairLow u (setRegister r v m))) := by
  refine ⟨fun other hOther => ?_, rfl, rfl⟩
  have hHigh : r ≠ other := fun hSame => hOther (hSame ▸ List.mem_cons_self)
  have hLow : r.pairLow ≠ other := fun hSame => hOther (hSame ▸ .tail _ List.mem_cons_self)
  exact (Cpu.get_set ..).trans ((if_neg hLow).trans ((Cpu.get_set ..).trans (if_neg hHigh)))

/-- The registers of a pair are two. -/
theorem pairLow_ne (hEven : r.val % 2 = 0) : r.pairLow ≠ r := by
  revert r
  decide

theorem get_two (hEven : r.val % 2 = 0) (v u : UInt16) :
    let n := setStatus s (setRegister r.pairLow u (setRegister r v m))
    n.cpu.get r = v ∧ n.cpu.get r.pairLow = u := by
  have hDistinct := pairLow_ne r hEven
  constructor
  · exact (Cpu.get_set ..).trans ((if_neg hDistinct).trans ((Cpu.get_set ..).trans (if_pos rfl)))
  · exact (Cpu.get_set ..).trans (if_pos rfl)

theorem pair_setPair (hEven : r.val % 2 = 0) (v : BitVec 32) :
    pair (setStatus s (setPair r v m)).cpu r = v := by
  obtain ⟨hHigh, hLow⟩ := get_two r s m hEven ⟨(v >>> 16).setWidth 16⟩ ⟨v.setWidth 16⟩
  rw [pair, setPair, hHigh, hLow]
  exact append_halves (n := 16) v

end Registers

/-- After an arithmetic shift of `x` by a count: the result is `r`, and the codes tell about it. -/
structure LeavesShift (count : Int) (x r : BitVec n) (rs : List Register) (m n : State) : Prop where
  scales : Scales count x r (n.cpu.status.get .overflow) (n.cpu.status.get .carry)
  describes : Status.Describes r.toInt m.cpu.status n.cpu.status
  elsewhere : ChangesRegisters rs m n

/-- After a multiplication: a pair holds the product, and a single odd register its low word. -/
structure LeavesProduct (product : Int) (r : Register) (m n : State) : Prop where
  value : if r.val % 2 = 0 then (pair n.cpu r).toInt = product
    else (n.cpu.get r).toBitVec = BitVec.ofInt 16 product
  describes : Status.Describes product m.cpu.status n.cpu.status
  overflow : n.cpu.status.get .overflow = false
  carry : n.cpu.status.get .carry = decide (¬ FitsSigned 16 product)
  elsewhere : ChangesRegisters (if r.val % 2 = 0 then [r, r.pairLow] else [r]) m n

/-- After a division: the quotient, which the codes tell about, and the remainder. -/
structure LeavesQuotient (q t : Int) (r : Register) (m n : State) : Prop where
  quotient : (n.cpu.get r).toBitVec.toInt = q
  remainder : (n.cpu.get r.pairLow).toBitVec.toInt = t
  describes : Status.Describes q m.cpu.status n.cpu.status
  overflow : n.cpu.status.get .overflow = false
  carry : n.cpu.status.get .carry = false
  elsewhere : ChangesRegisters [r, r.pairLow] m n

theorem leavesShift_shift (hn : 0 < n) (x : BitVec n) (count : Int) {r : BitVec n}
    {rs : List Register} {m p : State} (hResult : r = (shift m.cpu.status x count).1)
    (hStatus : p.cpu.status = (shift m.cpu.status x count).2)
    (hElsewhere : ChangesRegisters rs m p) : LeavesShift count x r rs m p := by
  obtain ⟨hScales, hDescribes⟩ := scales_shift hn m.cpu.status x count
  rw [← hResult, ← hStatus] at hScales hDescribes
  exact ⟨hScales, hDescribes, hElsewhere⟩

theorem multiply_eq (status : Status) (x y : UInt16) :
    let product := x.toBitVec.toInt * y.toBitVec.toInt
    let v := BitVec.ofInt 32 product
    multiply status x y = (v, (status.describe v).put .carry (decide (¬ FitsSigned 16 product))) ∧
      v.toInt = product := by
  intro product v
  have hProduct : x.toBitVec.signExtend 32 * y.toBitVec.signExtend 32 = v :=
    Reading.signed.product_eq_ofInt x.toBitVec y.toBitVec
  have hValue : v.toInt = product := by
    rw [← hProduct]
    exact Reading.signed.value_product (n := 16) (by decide) x.toBitVec y.toBitVec
  have hLow : v.setWidth 16 = BitVec.ofInt 16 product := setWidth_ofInt (by decide) product
  have hFits : (v.setWidth 16).toInt = v.toInt ↔ FitsSigned 16 product := by
    rw [hLow, hValue]
    exact Reading.signed.value_ofInt_eq_iff (by decide) product
  have hCarry : (v != (v.setWidth 16).signExtend 32) = decide (¬ FitsSigned 16 product) :=
    (Reading.signed.bne_extend_eq (n := 16) v).trans (decide_eq_decide.2 (not_congr hFits))
  refine ⟨?_, hValue⟩
  simp only [multiply, hProduct, hCarry]

theorem leavesProduct_mul (r : Register) (y : UInt16) (m : State) :
    LeavesProduct ((m.cpu.get r).toBitVec.toInt * y.toBitVec.toInt) r m (mul r y m) := by
  obtain ⟨hMultiply, hValue⟩ := multiply_eq m.cpu.status (m.cpu.get r) y
  rw [mul, hMultiply]
  generalize (m.cpu.get r).toBitVec.toInt * y.toBitVec.toInt = product at hValue ⊢
  obtain ⟨hDescribes, hOverflow, hCarry⟩ := m.cpu.status.describe_put_carry
    (BitVec.ofInt 32 product) (decide (¬ FitsSigned 16 product))
  rw [hValue] at hDescribes
  by_cases hEven : r.val % 2 = 0
  · simp only [if_pos hEven]
    refine ⟨?_, hDescribes, hOverflow, hCarry, ?_⟩
    · rw [if_pos hEven]
      exact (congrArg BitVec.toInt (pair_setPair r _ m hEven _)).trans hValue
    · rw [if_pos hEven]
      exact changesRegisters_two r _ m _ _
  · simp only [if_neg hEven]
    refine ⟨?_, hDescribes, hOverflow, hCarry, ?_⟩
    · rw [if_neg hEven]
      refine (congrArg UInt16.toBitVec ((Cpu.get_set ..).trans (if_pos rfl))).trans ?_
      exact setWidth_ofInt (show 16 ≤ 32 by decide) product
    · rw [if_neg hEven]
      exact changesRegisters_setRegister r _ m _

theorem divide_of_undefined (x : BitVec 32) (y : UInt16)
    (h : y.toBitVec.toInt = 0 ∨ (x.toInt = -2 ^ 31 ∧ y.toBitVec.toInt = -1)) :
    divide x y = .error .divideByZero := by
  have hLeast : x = BitVec.intMin 32 ↔ x.toInt = -2 ^ 31 := BitVec.toInt_inj.symm
  simp only [divide, hLeast]
  exact if_pos (by simpa using h)

/-- The quotient and the remainder of every other division decide what comes of it. -/
theorem divide_eq (x : BitVec 32) (y : UInt16) {q t : Int}
    (h : TruncatedDivision x.toInt y.toBitVec.toInt q t)
    (hDefined : ¬ (y.toBitVec.toInt = 0 ∨ (x.toInt = -2 ^ 31 ∧ y.toBitVec.toInt = -1))) :
    divide x y = if FitsSigned 16 q then .ok (⟨BitVec.ofInt 16 q⟩, ⟨BitVec.ofInt 16 t⟩)
      else .error .divisionOverflow := by
  have hLeast : x = BitVec.intMin 32 ↔ x.toInt = -2 ^ 31 := BitVec.toInt_inj.symm
  have hFits := Reading.signed.value_ofInt_eq_iff (n := 16) (by decide) q
  obtain ⟨hQuotient, hRemainder⟩ :=
    (TruncatedDivision.iff_tdiv (fun hZero => hDefined (.inl hZero))).1 h
  simp only [divide, hLeast]
  rw [if_neg (by simpa using hDefined), ← hQuotient, ← hRemainder]
  exact if_congr hFits rfl rfl

theorem leavesQuotient_put (r : Register) (m : State) (hEven : r.val % 2 = 0) {q t : Int}
    (hQuotient : FitsSigned 16 q) (hRemainder : FitsSigned 16 t) :
    LeavesQuotient q t r m
      (setStatus ((m.cpu.status.describe (BitVec.ofInt 16 q)).put .carry false)
        (setRegister r.pairLow ⟨BitVec.ofInt 16 t⟩ (setRegister r ⟨BitVec.ofInt 16 q⟩ m))) := by
  have hValue : (BitVec.ofInt 16 q).toInt = q := Reading.signed.value_ofInt (by decide) hQuotient
  obtain ⟨hDescribes, hOverflow, hCarry⟩ :=
    m.cpu.status.describe_put_carry (BitVec.ofInt 16 q) false
  obtain ⟨hHigh, hLow⟩ := get_two r ((m.cpu.status.describe (BitVec.ofInt 16 q)).put .carry false)
    m hEven ⟨BitVec.ofInt 16 q⟩ ⟨BitVec.ofInt 16 t⟩
  rw [hValue] at hDescribes
  refine ⟨?_, ?_, hDescribes, hOverflow, hCarry, changesRegisters_two r _ m _ _⟩
  · rw [hHigh]
    exact hValue
  · rw [hLow]
    exact Reading.signed.value_ofInt (by decide) hRemainder

/-- Multiplication and arithmetic shifts on the PDP-11 agree with the integers, for operands of any
mode in every state. The count of a shift is the low six bits of the source, read as a signed
value. Carry and overflow tell what the result has lost. -/
theorem extended_arithmetic_matches_integers (s : Operand) (r : Register) (length : UInt16)
    (m : State) :
    let o := Operands.one .word s m
    let count := (o.value.setWidth 6).toInt
    (∃ n : State, execute ⟨.extended .ash s r, length⟩ m = n.proceed ∧
      LeavesShift count (o.state.cpu.get r).toBitVec (n.cpu.get r).toBitVec [r] o.state n) ∧
    (r.val % 2 = 0 → ∃ n : State, execute ⟨.extended .ashc s r, length⟩ m = n.proceed ∧
      LeavesShift count (pair o.state.cpu r) (pair n.cpu r) [r, r.pairLow] o.state n) ∧
    ∃ n : State, execute ⟨.extended .mul s r, length⟩ m = n.proceed ∧
      LeavesProduct ((o.state.cpu.get r).toBitVec.toInt * o.value.toInt) r o.state n := by
  intro o count
  refine ⟨?_, fun hEven => ?_, _, rfl, leavesProduct_mul r ⟨o.value⟩ o.state⟩
  · refine ⟨_, rfl, leavesShift_shift (by decide) _ count ?_ rfl ?_⟩
    · exact congrArg UInt16.toBitVec ((Cpu.get_set ..).trans (if_pos rfl))
    · exact changesRegisters_setRegister r _ o.state _
  · refine ⟨_, rfl, leavesShift_shift (by decide) _ count ?_ rfl ?_⟩
    · exact pair_setPair r _ o.state hEven _
    · exact changesRegisters_two r _ o.state _ _

private abbrev scaledState : State where
  cpu := (({} : Cpu).set .r0 0x8000).set .r1 1
  memory := .shared

/-- The least word overflows and carries if it is doubled, and needs a second word if it is
multiplied by two. With the word behind it, it is half of it rounded down, and one is lost. -/
theorem extended_arithmetic_matches_integers_least :
    (∃ n : State, execute ⟨.extended .ash (.immediate 1) .r0, 4⟩ scaledState = n.proceed ∧
      n.cpu.get .r0 = 0 ∧ n.cpu.status.get .overflow = true ∧
      n.cpu.status.get .carry = true) ∧
    (∃ n : State, execute ⟨.extended .ashc (.immediate 0o77) .r0, 4⟩ scaledState = n.proceed ∧
      (pair n.cpu .r0).toInt = -2 ^ 30 ∧ n.cpu.status.get .carry = true) ∧
    (∃ n : State, execute ⟨.extended .mul (.immediate 2) .r0, 4⟩ scaledState = n.proceed ∧
      (pair n.cpu .r0).toInt = -2 ^ 16 ∧ n.cpu.status.get .carry = true) := by
  refine ⟨?_, ?_, ?_⟩
  · obtain ⟨⟨n, hExecute, hShift⟩, -, -⟩ :=
      extended_arithmetic_matches_integers (.immediate 1) .r0 4 scaledState
    obtain ⟨hValue, hOverflow, hCarry⟩ : Scales (.ofNat 1) _ _ _ _ := hShift.scales
    refine ⟨n, hExecute, UInt16.toBitVec_inj.1 (hValue.trans ?_), hOverflow.trans ?_,
      hCarry.trans ?_⟩ <;> decide +kernel
  · obtain ⟨-, hAshc, -⟩ :=
      extended_arithmetic_matches_integers (.immediate 0o77) .r0 4 scaledState
    obtain ⟨n, hExecute, hShift⟩ := hAshc rfl
    obtain ⟨hValue, -, hCarry⟩ : Scales (.negSucc 0) _ _ _ _ := hShift.scales
    exact ⟨n, hExecute, hValue.trans (by decide +kernel), hCarry.trans (by decide +kernel)⟩
  · obtain ⟨-, -, n, hExecute, hProduct⟩ :=
      extended_arithmetic_matches_integers (.immediate 2) .r0 4 scaledState
    exact ⟨n, hExecute, hProduct.value.trans (by decide +kernel),
      hProduct.carry.trans (by decide +kernel)⟩

/-- Division on the PDP-11, of the pair that starts with an even register, for operands of any mode
in every state. A divisor of zero is a fault that changes nothing but what finding the operand
did, and the least dividend with the divisor minus one counts as one, although its quotient merely
does not fit. Any other quotient that does not fit sets the overflow code and is a fault of its
own. Every other division leaves the one quotient and remainder that there are. -/
theorem division_exact_or_refused (s : Operand) (r : Register) (length : UInt16) (m : State)
    (hEven : r.val % 2 = 0) :
    let o := Operands.one .word s m
    let outcome := execute ⟨.extended .div s r, length⟩ m
    let dividend := (pair o.state.cpu r).toInt
    let divisor := o.value.toInt
    if divisor = 0 ∨ (dividend = -2 ^ 31 ∧ divisor = -1) then
      outcome = (o.state, .error .divideByZero)
    else ∃ q t, TruncatedDivision dividend divisor q t ∧
      (∀ {q' t'}, TruncatedDivision dividend divisor q' t' → q' = q ∧ t' = t) ∧
      if FitsSigned 16 q then ∃ n, outcome = n.proceed ∧ LeavesQuotient q t r o.state n
      else outcome =
        (setStatus (o.state.cpu.status.put .overflow true) o.state, .error .divisionOverflow) := by
  intro o outcome dividend divisor
  have hOutcome : outcome = div r ⟨o.value⟩ o.state := rfl
  split
  case isTrue hUndefined =>
    rw [hOutcome, div, divide_of_undefined _ ⟨o.value⟩ hUndefined]
  case isFalse hDefined =>
    have hDivision := truncatedDivision_tdiv dividend fun hZero => hDefined (.inl hZero)
    have hDivide := divide_eq (pair o.state.cpu r) ⟨o.value⟩ hDivision hDefined
    refine ⟨_, _, hDivision, hDivision.unique, ?_⟩
    split
    case isTrue hFits =>
      have hRemainder : Reading.signed.Fits 16 (dividend.tmod divisor) :=
        hDivision.fits_remainder (Reading.signed.fits_value (pair o.state.cpu r))
          (Reading.signed.fits_value o.value)
      rw [if_pos hFits] at hDivide
      rw [hOutcome, div, hDivide]
      exact ⟨_, rfl, leavesQuotient_put r o.state hEven hFits hRemainder⟩
    case isFalse hFits =>
      rw [if_neg hFits] at hDivide
      rw [hOutcome, div, hDivide]

private abbrev negativeState : State where
  cpu := (({} : Cpu).set .r0 0xffff).set .r1 0xfff9
  memory := .shared

/-- From -7 in the pair, divided by 2, the quotient -3 and the remainder -1. -/
theorem division_exact_or_refused_negative :
    (0 : Register).val % 2 = 0 ∧
    ∃ n : State, execute ⟨.extended .div (.immediate 2) .r0, 4⟩ negativeState = n.proceed ∧
      (n.cpu.get .r0).toBitVec.toInt = -3 ∧ (n.cpu.get .r1).toBitVec.toInt = -1 ∧
      n.cpu.status.get .negative = true := by
  have hEven : (0 : Register).val % 2 = 0 := rfl
  refine ⟨hEven, ?_⟩
  have hOutcome := division_exact_or_refused (.immediate 2) .r0 4 negativeState hEven
  have hDividend : (pair (Operands.one .word (.immediate 2) negativeState).state.cpu .r0).toInt =
      -7 := by
    decide +kernel
  have hDivisor : (Operands.one .word (.immediate 2) negativeState).value.toInt = 2 := by
    decide +kernel
  simp only [hDividend, hDivisor] at hOutcome
  rw [if_neg (by decide)] at hOutcome
  obtain ⟨q, t, hDivision, -, hRest⟩ := hOutcome
  obtain ⟨rfl, rfl⟩ := (TruncatedDivision.iff_tdiv (by decide)).1 hDivision
  rw [if_pos (by decide)] at hRest
  obtain ⟨n, hExecute, hQuotient⟩ := hRest
  exact ⟨n, hExecute, hQuotient.quotient.trans (by decide), hQuotient.remainder.trans (by decide),
    hQuotient.describes.negative.trans (by decide)⟩

private abbrev leastPairState : State where
  cpu := ({} : Cpu).set .r0 0x8000
  memory := .shared

/-- The least dividend by minus one is reported as a division by zero. The overflow code is not set,
though the divisor is not zero and the quotient does not fit. -/
theorem division_of_least_reported_as_zero :
    (Operands.one .word (.immediate 0xffff) leastPairState).value.toInt = -1 ∧
    (pair (Operands.one .word (.immediate 0xffff) leastPairState).state.cpu .r0).toInt = -2 ^ 31 ∧
    ¬ FitsSigned 16 ((-2 ^ 31 : Int).tdiv (-1)) ∧
    execute ⟨.extended .div (.immediate 0xffff) .r0, 4⟩ leastPairState =
      (leastPairState, .error .divideByZero) ∧
    leastPairState.cpu.status.get .overflow = false := by
  have hDivide : divide (pair leastPairState.cpu .r0) 0xffff = .error .divideByZero :=
    divide_of_undefined _ _ (by decide +kernel)
  refine ⟨by decide +kernel, by decide +kernel, by decide, ?_, by decide +kernel⟩
  show div .r0 0xffff leastPairState = _
  rw [div, hDivide]

end VintageUnix.Pdp11
