import VintageUnix.Proofs.ExactResults
import VintageUnix.Proofs.SizedOperands

/-! Addition and subtraction on the 8086 against the integers. The result is the exact one modulo a
power of two, and each flag answers one question about the exact result. The operations compute
their flags by different rules; that all of them come to the same answers is what is shown. -/
namespace VintageUnix.I8086

/-- The operations that add or subtract. The last three have no source. -/
inductive Additive where
  | add
  | adc
  | sub
  | sbb
  | cmp
  | inc
  | dec
  | neg
  deriving DecidableEq, Repr

namespace Additive

/-- The operation as an instruction has it. -/
def operation (op : Additive) (w : Width) (destination source : Operand) : Operation :=
  match op with
  | .add => .arithmetic .add w destination source
  | .adc => .arithmetic .adc w destination source
  | .sub => .arithmetic .sub w destination source
  | .sbb => .arithmetic .sbb w destination source
  | .cmp => .arithmetic .cmp w destination source
  | .inc => .unary .inc w destination
  | .dec => .unary .dec w destination
  | .neg => .unary .neg w destination

def hasSource : Additive → Bool
  | .inc | .dec | .neg => false
  | _ => true

/-- Whether the result replaces the destination. -/
def stores : Additive → Bool
  | .cmp => false
  | _ => true

/-- Whether the carry flag is left as it was. -/
def keepsCarry : Additive → Bool
  | .inc | .dec => true
  | _ => false

/-- The exact result on the destination, the source and the carry flag. -/
def exact (op : Additive) (a b carry : Int) : Int :=
  match op with
  | .add => a + b
  | .adc => a + b + carry
  | .sub | .cmp => a - b
  | .sbb => a - b - carry
  | .inc => a + 1
  | .dec => a - 1
  | .neg => 0 - a

/-- The result and the flags that the processor computes. -/
def compute {n : Nat} (op : Additive) (f : Flags) (x y : BitVec n) : BitVec n × Flags :=
  match op with
  | .add => Arithmetic.add.compute f x y
  | .adc => Arithmetic.adc.compute f x y
  | .sub => Arithmetic.sub.compute f x y
  | .sbb => Arithmetic.sbb.compute f x y
  | .cmp => Arithmetic.cmp.compute f x y
  | .inc => increment f x
  | .dec => decrement f x
  | .neg => negate f x

end Additive

/-- The flags that tell about the result of an addition or subtraction. -/
def Flag.ofResult : List Flag :=
  [.carry, .parity, .auxiliary, .zero, .sign, .overflow]

/-- The flags `g` tell about a result of `n` bits what there is to tell, and the others are as in
`f`. The exact result is there three times: for the operands as unsigned integers, for the
operands as signed integers, and for their low four bits alone. -/
structure Flags.Reports (n : Nat) (unsigned signed nibble : Int) (keepsCarry : Bool)
    (f g : Flags) : Prop where
  zero : g.get .zero = decide (residue n unsigned = 0)
  sign : g.get .sign = decide (2 ^ (n - 1) ≤ residue n unsigned)
  parity : g.get .parity = decide (Even ((List.range 8).countP (residue n unsigned).testBit))
  overflow : g.get .overflow = decide (¬ FitsSigned n signed)
  carry : g.get .carry = if keepsCarry then f.get .carry else decide (¬ FitsUnsigned n unsigned)
  auxiliary : g.get .auxiliary = decide (¬ FitsUnsigned 4 nibble)
  others : ∀ i < 16, (∀ flag ∈ Flag.ofResult, flag.index ≠ i) →
    Word.bit g.word i = Word.bit f.word i

namespace Flags

variable {n : Nat} (f : Flags)

theorem put_get_self (flag : Flag) : f.put flag (f.get flag) = f :=
  congrArg Flags.mk (Word.putBit_bit_self f.word flag.index)

theorem describe_put_carry (r : BitVec n) :
    (f.describe r).put .carry (f.get .carry) = f.describe r := by
  have hCarry : f.get .carry = (f.describe r).get .carry := by
    simp [describe, get_put]
  rw [hCarry, put_get_self]

/-- It is enough that the three flags that an operation computes for itself are right. -/
theorem reports_of_flags {unsigned signed nibble : Int} {keepsCarry carry auxiliary overflow : Bool}
    {r : BitVec n} (hResult : r = BitVec.ofInt n unsigned)
    (hCarry : carry = if keepsCarry then f.get .carry else decide (¬ FitsUnsigned n unsigned))
    (hAuxiliary : auxiliary = decide (¬ FitsUnsigned 4 nibble))
    (hOverflow : overflow = decide (¬ FitsSigned n signed)) :
    Reports n unsigned signed nibble keepsCarry f
      ((((f.describe r).put .carry carry).put .auxiliary auxiliary).put .overflow overflow) := by
  subst hResult
  constructor
  case others =>
    intro i hi hOther
    simp only [Flag.ofResult, List.forall_mem_cons] at hOther
    obtain ⟨hCarry, hParity, hAuxiliary, hZero, hSign, hOverflow, -⟩ := hOther
    rw [bit_put _ hi hOverflow, bit_put _ hi hAuxiliary, bit_put _ hi hCarry, describe,
      bit_put _ hi hParity, bit_put _ hi hSign, bit_put _ hi hZero]
  all_goals simp only [describe, get_put, reduceCtorEq, if_true, if_false]
  case zero => exact ofInt_beq_zero unsigned
  case sign => exact msb_ofInt unsigned
  case parity => exact evenParity_ofInt unsigned
  case overflow => exact hOverflow
  case carry => exact hCarry
  case auxiliary => exact hAuxiliary

end Flags

variable {n : Nat} (f : Flags) (x y : BitVec n) (c : Bool)

theorem reports_sum (hn : 0 < n) :
    Flags.Reports n (x.toNat + y.toNat + c.toNat) (x.toInt + y.toInt + c.toNat)
      ((x.toNat % 16 : Nat) + (y.toNat % 16 : Nat) + c.toNat) false f (sum f x y c).2 :=
  f.reports_of_flags (sum_eq_ofInt_toNat x y c) (carry_width_eq_misfit x y c)
    (carry_eq_misfit x y c 4) (sum_overflow_eq_misfit x y c hn)

theorem reports_difference (hn : 0 < n) :
    Flags.Reports n (x.toNat - y.toNat - c.toNat) (x.toInt - y.toInt - c.toNat)
      ((x.toNat % 16 : Nat) - (y.toNat % 16 : Nat) - c.toNat) false f (difference f x y c).2 :=
  f.reports_of_flags (difference_eq_ofInt_toNat x y c) (borrow_width_eq_misfit x y c)
    (borrow_eq_misfit x y c 4) (difference_overflow_eq_misfit x y c hn)

/-- A negation is a subtraction from zero. -/
theorem negate_eq_difference : negate f x = difference f 0 x false := by
  have hCarry : (x != 0) = decide ((0 : BitVec n).toNat < x.toNat + false.toNat) := by
    rw [Bool.eq_iff_iff]
    simp [BitVec.toNat_eq, Nat.pos_iff_ne_zero]
  have hAuxiliary : (x.toNat % 16 != 0) =
      decide ((0 : BitVec n).toNat % 16 < x.toNat % 16 + false.toNat) := by
    rw [Bool.eq_iff_iff]
    simp [Nat.pos_iff_ne_zero]
  have hResult : (0 : BitVec n) - x - BitVec.ofNat n false.toNat = -x := by simp
  simp only [negate, difference, hResult, hCarry, hAuxiliary]
  simp

/-- An increment adds one, but keeps the carry flag. -/
theorem reports_increment (hn : 4 ≤ n) :
    Flags.Reports n (x.toNat + 1) (x.toInt + 1) ((x.toNat % 16 : Nat) + 1) true f
      (increment f x).2 := by
  obtain ⟨hUnsigned, hSigned, hSign⟩ := readings_one (n := n) (by omega)
  have hAuxiliary : decide ((x + 1).toNat % 16 = 0) =
      decide (¬ FitsUnsigned 4 ((x.toNat % 16 : Nat) + 1)) := by
    have hNibble : (x + 1).toNat % 16 = (x.toNat + 1) % 16 := by
      rw [BitVec.toNat_add, Nat.mod_mod_of_dvd _ (Nat.pow_dvd_pow 2 hn), hUnsigned]
    rw [decide_eq_decide, hNibble]
    simp only [FitsUnsigned]
    omega
  have hOverflow : (!x.msb && (x + 1).msb) = decide (¬ FitsSigned n (x.toInt + 1)) := by
    have h := sum_overflow_eq_misfit x 1 false (by omega)
    simp only [hSign, hSigned, Bool.toNat_false, Int.natCast_zero, Int.add_zero] at h
    rw [← h]
    cases hMsb : x.msb <;> simp
  have hSum : x + 1 = BitVec.ofInt n (x.toNat + 1) := by simp [BitVec.ofInt_add]
  have h : Flags.Reports n _ _ _ true f _ := f.reports_of_flags hSum rfl hAuxiliary hOverflow
  rwa [if_pos rfl, Flags.describe_put_carry] at h

/-- A decrement subtracts one, but keeps the carry flag. -/
theorem reports_decrement (hn : 4 ≤ n) :
    Flags.Reports n (x.toNat - 1) (x.toInt - 1) ((x.toNat % 16 : Nat) - 1) true f
      (decrement f x).2 := by
  obtain ⟨hUnsigned, hSigned, hSign⟩ := readings_one (n := n) (by omega)
  have hAuxiliary : decide ((x - 1).toNat % 16 = 15) =
      decide (¬ FitsUnsigned 4 ((x.toNat % 16 : Nat) - 1)) := by
    obtain ⟨k, hPower⟩ : 2 ^ 4 ∣ 2 ^ n := Nat.pow_dvd_pow 2 hn
    have hPositive := Nat.two_pow_pos n
    have hNibble : (x - 1).toNat % 16 = (x.toNat + 15) % 16 := by
      rw [BitVec.toNat_sub, Nat.mod_mod_of_dvd _ (Nat.pow_dvd_pow 2 hn), hUnsigned]
      omega
    rw [decide_eq_decide, hNibble]
    simp only [FitsUnsigned]
    omega
  have hOverflow : (x.msb && !(x - 1).msb) = decide (¬ FitsSigned n (x.toInt - 1)) := by
    have h := difference_overflow_eq_misfit x 1 false (by omega)
    simp only [hSign, hSigned, Bool.toNat_false, Int.natCast_zero, Int.sub_zero] at h
    rw [← h]
    cases hMsb : x.msb <;> simp
  have hDifference : x - 1 = BitVec.ofInt n (x.toNat - 1) := by simp [ofInt_sub]
  have h : Flags.Reports n _ _ _ true f _ :=
    f.reports_of_flags hDifference rfl hAuxiliary hOverflow
  rwa [if_pos rfl, Flags.describe_put_carry] at h

namespace Additive

/-- Every operation computes the exact result modulo a power of two. -/
theorem fst_compute (op : Additive) :
    (op.compute f x y).1 = BitVec.ofInt n (op.exact x.toNat y.toNat (f.get .carry).toNat) := by
  cases op <;> simp [compute, exact, Arithmetic.compute, sum, difference, increment, decrement,
    negate, BitVec.ofInt_add, ofInt_sub, BitVec.ofInt_neg]

/-- Every operation reports on its exact result. -/
theorem reports_compute (op : Additive) (hn : 4 ≤ n) :
    let carry : Int := (f.get .carry).toNat
    Flags.Reports n (op.exact x.toNat y.toNat carry) (op.exact x.toInt y.toInt carry)
      (op.exact (x.toNat % 16 : Nat) (y.toNat % 16 : Nat) carry) op.keepsCarry
      f (op.compute f x y).2 := by
  have hPositive : 0 < n := by omega
  have hSum := reports_sum f x y false hPositive
  have hDifference := reports_difference f x y false hPositive
  have hNegative := reports_difference f 0 x false hPositive
  rw [← negate_eq_difference] at hNegative
  simp only [Bool.toNat_false, Int.natCast_zero, Int.add_zero, Int.sub_zero] at *
  cases op with
  | add => exact hSum
  | adc => exact reports_sum f x y _ hPositive
  | sub | cmp => exact hDifference
  | sbb => exact reports_difference f x y _ hPositive
  | inc => exact reports_increment f x hn
  | dec => exact reports_decrement f x hn
  | neg => simpa [exact, keepsCarry, compute] using hNegative

end Additive

theorem execute_additive {i : Instruction} {op : Additive} {w : Width} {d s : Operand}
    (h : i.operation = op.operation w d s) {m : State} {place source : Location}
    (hPlace : m.cpu.locate d = .ok place)
    (hSource : op.hasSource = true → m.cpu.locate s = .ok source) :
    execute i m =
      let result := op.compute m.cpu.flags (load m w place) (load m w source)
      (if op.stores then put place result m else setFlags result.2 m).proceed := by
  cases op with
  | inc | dec | neg =>
      simp only [execute, h, Additive.operation, hPlace]
      rfl
  | add | adc | sub | sbb | cmp =>
      simp only [execute, h, Additive.operation, withBoth, hPlace, hSource rfl]
      rfl

/-- An addition or subtraction has its operands somewhere. -/
theorem exists_locate_of_additive {op : Additive} {w : Width} {d s : Operand}
    (h : (op.operation w d s).Sized) (c : Cpu) :
    (∃ place, c.locate d = .ok place ∧ place.Holds w) ∧
      (op.hasSource = true → ∃ source, c.locate s = .ok source) := by
  have hPlaces : d.IsPlace w ∧ (op.hasSource = true → s.IsPlace w ∨ s.isImmediate = true) := by
    cases op with
    | inc | dec | neg => exact ⟨h, nofun⟩
    | add | adc | sub | sbb | cmp => exact ⟨h.1, fun _ => h.2⟩
  exact ⟨hPlaces.1.exists_locate c, fun hSource => exists_locate_of_source (hPlaces.2 hSource) c⟩

/-- Addition and subtraction on the 8086 agree with the integers. Every instruction that adds or
subtracts, as it is decoded from any code, proceeds in every state. Where it stores a result,
the destination then holds the exact one modulo a power of two. The flags report on the exact
result: whether what is kept of it is zero, its top bit and the parity of its low byte, whether
it overflows as a signed value, whether it carries or borrows as an unsigned one, and whether
its low four bits do. No other flag, register or byte changes. -/
theorem additive_instructions_compute_exactly {code : Code} {start : UInt16} {op : Additive}
    {w : Width} {d s : Operand} (h : (decodeFolded code start).operation = op.operation w d s)
    (m : State) :
    ∃ (place : Location) (a b : BitVec w.bits) (n : State),
      let carry : Int := (m.cpu.flags.get .carry).toNat
      let unsigned := op.exact a.toNat b.toNat carry
      m.cpu.locate d = .ok place ∧ load m w place = a ∧ (op.hasSource = true → Reads m w s b) ∧
      execute (decodeFolded code start) m = n.proceed ∧
      (op.stores = true → (load n w place).toNat = residue w.bits unsigned) ∧
      Flags.Reports w.bits unsigned (op.exact a.toInt b.toInt carry)
        (op.exact (a.toNat % 16 : Nat) (b.toNat % 16 : Nat) carry) op.keepsCarry
        m.cpu.flags n.cpu.flags ∧
      ChangesOnly w (if op.stores then [place] else []) m n := by
  have hSized := sized_decodeFolded code start
  rw [h] at hSized
  obtain ⟨⟨place, hPlace, hHolds⟩, hSource⟩ := exists_locate_of_additive hSized m.cpu
  obtain ⟨source, hSource⟩ : ∃ source, op.hasSource = true → m.cpu.locate s = .ok source := by
    cases hHas : op.hasSource with
    | false => exact ⟨.constant 0, nofun⟩
    | true => exact (hSource hHas).imp fun _ hLocate _ => hLocate
  have hWidth : 4 ≤ w.bits := Nat.le_trans (by decide) w.eight_le_bits
  have hResult := op.fst_compute m.cpu.flags (load m w place) (load m w source)
  have hReports := op.reports_compute m.cpu.flags (load m w place) (load m w source) hWidth
  refine ⟨place, _, _, _, hPlace, rfl, fun hHas => ⟨source, hSource hHas, rfl⟩,
    execute_additive h hPlace hSource, ?_⟩
  cases hStores : op.stores with
  | true =>
      refine ⟨fun _ => ?_, ?_, changesOnly_put hHolds _ m⟩
      · rw [if_pos rfl, load_put hHolds, hResult, toNat_ofInt_eq_residue]
      · rw [if_pos rfl, flags_put]
        exact hReports
  | false => exact ⟨nofun, hReports, changesOnly_setFlags w _ m⟩

/-- Subtract with borrow, a byte from memory, of the value with all bits set. -/
private abbrev borrowBytes : Array UInt8 :=
  #[0x80, 0x1f, 0xff]

private abbrev borrowState : State where
  cpu := ({ flags := ({} : Flags).put .carry true } : Cpu).set .bx 0x10
  memory := AddressSpace.shared.setByte 0x10 0x80

/-- From 128 the subtraction takes 255 and the borrow, which leaves -128. As a signed value that
fits, as an unsigned one it borrows, and so does the low half. -/
theorem additive_instructions_compute_exactly_borrow :
    (decodeFolded (.ofBytes ⟨borrowBytes⟩) 0).operation =
      Additive.sbb.operation .byte (.based .bx 0) (.byteValue 0xff) ∧
    ∃ n : State, execute (decodeFolded (.ofBytes ⟨borrowBytes⟩) 0) borrowState = n.proceed ∧
      n.memory.byte 0x10 = 0x80 ∧ n.cpu.flags.get .sign = true ∧
      n.cpu.flags.get .overflow = false ∧ n.cpu.flags.get .carry = true ∧
      n.cpu.flags.get .auxiliary = true := by
  have hDecode : (decodeFolded (.ofBytes ⟨borrowBytes⟩) 0).operation =
      Additive.sbb.operation .byte (.based .bx 0) (.byteValue 0xff) := by
    decide +kernel
  refine ⟨hDecode, ?_⟩
  obtain ⟨place, a, b, n, hPlace, ha, hb, hExecute, hResult, hReports, -⟩ :=
    additive_instructions_compute_exactly hDecode borrowState
  obtain ⟨source, hSource, hb⟩ := hb rfl
  cases hPlace
  cases hSource
  subst ha hb
  refine ⟨n, hExecute, ?_, ?_, ?_, ?_, ?_⟩
  · apply UInt8.toBitVec_inj.1
    apply BitVec.eq_of_toNat_eq
    exact (hResult rfl).trans (by decide +kernel)
  · exact hReports.sign.trans (by decide +kernel)
  · exact hReports.overflow.trans (by decide +kernel)
  · exact hReports.carry.trans (by decide +kernel)
  · exact hReports.auxiliary.trans (by decide +kernel)

end VintageUnix.I8086
