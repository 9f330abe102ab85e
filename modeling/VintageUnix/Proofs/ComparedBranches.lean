import VintageUnix.Proofs.AdditiveInstructions
import VintageUnix.Proofs.ConditionCodes
import VintageUnix.Proofs.ProcessorLaws

/-! A comparison followed by a conditional branch decides a relation of integers. The processors
number their conditions differently and call the codes by other names, but both combine the
same four of them in the same way. -/
namespace VintageUnix

/-- The relations of two values that branches decide. The orders are unsigned for `below` and
signed for `less`. -/
inductive Relation where
  | equal
  | below
  | belowOrEqual
  | less
  | lessOrEqual
  deriving DecidableEq, Repr

namespace Relation

def holds {n : Nat} (r : Relation) (x y : BitVec n) : Bool :=
  match r with
  | .equal => x = y
  | .below => x.toNat < y.toNat
  | .belowOrEqual => x.toNat ≤ y.toNat
  | .less => x.toInt < y.toInt
  | .lessOrEqual => x.toInt ≤ y.toInt

/-- The relation as it is read off the codes after a comparison. -/
def ofCodes (r : Relation) (zero carry sign overflow : Bool) : Bool :=
  match r with
  | .equal => zero
  | .below => carry
  | .belowOrEqual => carry || zero
  | .less => sign != overflow
  | .lessOrEqual => zero || (sign != overflow)

end Relation

section Codes

variable {n : Nat} (x y : BitVec n)

/-- The sign of a difference, corrected by the overflow, is the order of the signed operands. -/
theorem sign_bne_overflow_sub (hn : 0 < n) :
    (decide (2 ^ (n - 1) ≤ residue n (x.toNat - y.toNat)) !=
      decide (¬ FitsSigned n (x.toInt - y.toInt))) = decide (x.toInt < y.toInt) := by
  have hBounds := toInt_difference_bounds x y false hn
  have hSame : BitVec.ofInt n (x.toNat - y.toNat) = BitVec.ofInt n (x.toInt - y.toInt) := by
    simpa using (difference_eq_ofInt_toNat x y false).symm.trans
      (difference_eq_ofInt_toInt x y false)
  simp only [Bool.toNat_false, Int.natCast_zero, Int.sub_zero] at hBounds
  rw [← msb_ofInt, hSame, msb_ofInt_bne_signedMisfit hn hBounds.1 hBounds.2, decide_eq_decide]
  omega

/-- The codes of a difference decide every relation of its operands. -/
theorem Relation.ofCodes_eq_holds (hn : 0 < n) (r : Relation) :
    r.ofCodes (decide (residue n (x.toNat - y.toNat) = 0))
      (decide (¬ FitsUnsigned n (x.toNat - y.toNat)))
      (decide (2 ^ (n - 1) ≤ residue n (x.toNat - y.toNat)))
      (decide (¬ FitsSigned n (x.toInt - y.toInt))) = r.holds x y := by
  have hBorrow : decide (¬ FitsUnsigned n (x.toNat - y.toNat)) = decide (x.toNat < y.toNat) := by
    simpa using (borrow_width_eq_misfit x y false).symm
  have hUnsigned : x.toNat ≤ y.toNat ↔ x.toNat < y.toNat ∨ x = y := by
    rw [Nat.le_iff_lt_or_eq, BitVec.toNat_inj]
  have hSigned : x.toInt ≤ y.toInt ↔ x = y ∨ x.toInt < y.toInt := by
    rw [Int.le_iff_lt_or_eq, BitVec.toInt_inj, or_comm]
  cases r <;>
    simp only [ofCodes, holds, sign_bne_overflow_sub x y hn, hBorrow, residue_sub_eq_zero_iff,
      hUnsigned, hSigned, Bool.decide_or]

end Codes

namespace I8086

/-- The opcode of the jump that is taken if a relation holds, or if it does not. -/
def jumpOpcode (r : Relation) (negated : Bool) : UInt8 :=
  match r, negated with
  | .equal, false => 0x74
  | .equal, true => 0x75
  | .below, false => 0x72
  | .below, true => 0x73
  | .belowOrEqual, false => 0x76
  | .belowOrEqual, true => 0x77
  | .less, false => 0x7c
  | .less, true => 0x7d
  | .lessOrEqual, false => 0x7e
  | .lessOrEqual, true => 0x7f

/-- The test that decides a relation after a comparison. -/
def testOf : Relation → Test
  | .equal => .equal
  | .below => .below
  | .belowOrEqual => .belowOrEqual
  | .less => .less
  | .lessOrEqual => .lessOrEqual

theorem holds_testOf (r : Relation) (f : Flags) :
    (testOf r).holds f =
      r.ofCodes (f.get .zero) (f.get .carry) (f.get .sign) (f.get .overflow) := by
  cases r <;> rfl

theorem decodeFolded_of_not_modifier {c : Code} {start : UInt16}
    (h : Modifier.ofByte? (c start) = none) : decodeFolded c start = decode c start := by
  have hPlain : (decode c start).modifier = none := Form.modifier_decode _ c start
  rw [decodeFolded_eq, modifiersAt_of_not_modifier h]
  simp [behindModifiers, Modifier.effective, ← hPlain]

theorem decodeFolded_jump {c : Code} {start : UInt16} {r : Relation} {negated : Bool}
    (h : c start = jumpOpcode r negated) :
    decodeFolded c start =
      { operation := .jumpIf ⟨testOf r, negated⟩ (start + 2 + Word.signExtend (c (start + 1)))
        length := 2 } := by
  have hNoModifier : Modifier.ofByte? (c start) = none := by
    rw [h]
    cases r <;> cases negated <;> rfl
  have hForm : Form.ofOpcode (c start) = .shortTarget (.jumpIf ⟨testOf r, negated⟩) := by
    rw [h]
    cases r <;> cases negated <;> rfl
  rw [decodeFolded_of_not_modifier hNoModifier, decode, hForm]
  rfl

/-- A conditional jump only sets the instruction pointer: to its target, or past itself. -/
theorem executePast_jumpIf {i : Instruction} {condition : Condition} {target : UInt16}
    (h : i.operation = .jumpIf condition target) (m : State) :
    executePast i m =
      (jumpTo (if condition.holds m.cpu.flags then target else m.cpu.ip + i.length) m).proceed := by
  simp only [executePast, execute, h]
  cases hHolds : condition.holds m.cpu.flags with
  | true => exact congrArg Machine.proceed (if_pos hHolds)
  | false => exact congrArg Machine.proceed (if_neg (Bool.not_eq_true _ ▸ hHolds))

theorem holds_of_reports {n : Nat} {x y : BitVec n} {nibble : Int} {f g : Flags} (hn : 0 < n)
    (h : Flags.Reports n (x.toNat - y.toNat) (x.toInt - y.toInt) nibble false f g) (r : Relation) :
    (testOf r).holds g = r.holds x y := by
  rw [holds_testOf, h.zero, h.carry, h.sign, h.overflow]
  exact r.ofCodes_eq_holds x y hn

/-- A comparison stores nothing, and the jump behind it decides the relation. -/
theorem compare_then_jump {compare branch : Code} {start next : UInt16} {w : Width}
    {a b : Operand} (hCompare : (decodeFolded compare start).operation = .arithmetic .cmp w a b)
    {r : Relation} {negated : Bool} (hJump : branch next = jumpOpcode r negated) (m : State) :
    ∃ (x y : BitVec w.bits) (n : State), Reads m w a x ∧ Reads m w b y ∧
      execute (decodeFolded compare start) m = n.proceed ∧ n = setFlags n.cpu.flags m ∧
      executePast (decodeFolded branch next) n =
        (jumpTo (if r.holds x y != negated
          then next + 2 + Word.signExtend (branch (next + 1)) else n.cpu.ip + 2) n).proceed := by
  have hOperation : (decodeFolded compare start).operation =
      Additive.cmp.operation w a b := hCompare
  have hSized := sized_decodeFolded compare start
  rw [hOperation] at hSized
  obtain ⟨⟨place, hPlace, -⟩, hSource⟩ := exists_locate_of_additive hSized m.cpu
  obtain ⟨source, hSource⟩ := hSource rfl
  have hWidth : 4 ≤ w.bits := Nat.le_trans (by decide) w.eight_le_bits
  have hReports :=
    Additive.cmp.reports_compute m.cpu.flags (load m w place) (load m w source) hWidth
  refine ⟨load m w place, load m w source, _, ⟨place, hPlace, rfl⟩, ⟨source, hSource, rfl⟩,
    execute_additive hOperation hPlace fun _ => hSource, rfl, ?_⟩
  rw [decodeFolded_jump hJump, executePast_jumpIf rfl]
  exact congrArg (fun holds => (jumpTo (if holds != negated then _ else _) _).proceed)
    (holds_of_reports (by omega) hReports r)

end I8086

namespace Pdp11

/-- The upper byte of the branch that is taken if a relation holds, or if it does not. -/
def branchByte (r : Relation) (negated : Bool) : UInt8 :=
  match r, negated with
  | .equal, false => 0x03
  | .equal, true => 0x02
  | .below, false => 0x87
  | .below, true => 0x86
  | .belowOrEqual, false => 0x83
  | .belowOrEqual, true => 0x82
  | .less, false => 0x05
  | .less, true => 0x04
  | .lessOrEqual, false => 0x07
  | .lessOrEqual, true => 0x06

/-- The condition that decides a relation after a comparison. -/
def conditionOf (r : Relation) (negated : Bool) : Condition :=
  match r, negated with
  | .equal, false => .equal
  | .equal, true => .notEqual
  | .below, false => .carrySet
  | .below, true => .carryClear
  | .belowOrEqual, false => .lowerOrSame
  | .belowOrEqual, true => .higher
  | .less, false => .less
  | .less, true => .greaterOrEqual
  | .lessOrEqual, false => .lessOrEqual
  | .lessOrEqual, true => .greater

theorem holds_conditionOf (r : Relation) (negated : Bool) (s : Status) :
    (conditionOf r negated).holds s =
      (r.ofCodes (s.get .zero) (s.get .carry) (s.get .negative) (s.get .overflow) != negated) := by
  cases r <;> cases negated <;>
    simp only [conditionOf, Condition.holds, Relation.ofCodes, Status.isHigher, Status.isGreater,
      Status.isGreaterOrEqual] <;>
    generalize s.get .zero = zero <;> generalize s.get .carry = carry <;>
    generalize s.get .negative = negative <;> generalize s.get .overflow = overflow <;>
    revert zero carry negative overflow <;> decide

/-- Two words have the same in the fields that the decoder looks at first. -/
structure SameSelector (v w : UInt16) : Prop where
  top : v >>> 12 = w >>> 12
  upper : v >>> 8 = w >>> 8
  single : v &&& 0o4000 = w &&& 0o4000
  sign : Word.bit v 15 = Word.bit w 15

/-- All of these fields are in the upper byte. -/
theorem sameSelector_ofBytes (lowByte highByte : UInt8) :
    SameSelector (Word.ofBytes lowByte highByte) (Word.ofBytes 0 highByte) := by
  have hUpper (i : Nat) (h : 8 ≤ i) :
      Word.bit (Word.ofBytes lowByte highByte) i = Word.bit (Word.ofBytes 0 highByte) i := by
    rw [Word.bit_ofBytes_of_le _ _ h, Word.bit_ofBytes_of_le _ _ h]
  constructor
  case top =>
    refine Word.ext_bit fun i hi => ?_
    simpa [Word.bit] using hUpper (12 + i) (by omega)
  case upper =>
    refine Word.ext_bit fun i hi => ?_
    simpa [Word.bit] using hUpper (8 + i) (by omega)
  case single =>
    refine Word.ext_bit fun i hi => ?_
    have hMask : ∀ k < 8, Word.bit 0o4000 k = false := by decide
    rw [Word.bit_and, Word.bit_and]
    rcases Nat.lt_or_ge i 8 with hLow | hHigh
    · rw [hMask i hLow, Bool.and_false, Bool.and_false]
    · rw [hUpper i hHigh]
  case sign => exact hUpper 15 (by decide)

theorem lt_iff_upper_eq_zero (w : UInt16) : w < 0o400 ↔ w >>> 8 = 0 := by
  rw [UInt16.lt_iff_toNat_lt, ← UInt16.toNat_inj]
  simp [Nat.shiftRight_eq_div_pow]

theorem ofWord_branch (r : Relation) (negated : Bool) (low : UInt8) :
    Form.ofWord (Word.ofBytes low (branchByte r negated)) =
      .near (Form.branchDistance (Word.ofBytes low (branchByte r negated)))
        (.branch (conditionOf r negated)) := by
  have hSame := sameSelector_ofBytes low (branchByte r negated)
  simp only [Form.ofWord, Form.branchGroup, lt_iff_upper_eq_zero, hSame.top, hSame.upper,
    hSame.single, hSame.sign]
  cases r <;> cases negated <;> rfl

theorem decode_branch {c : VintageUnix.Code} {start : UInt16} {r : Relation} {negated : Bool}
    (h : c (start + 1) = branchByte r negated) :
    decode c start =
      { operation := .branch (conditionOf r negated) (start + 2 + Word.signExtend (c start) * 2)
        length := 2 } := by
  rw [decode, VintageUnix.Code.word, h, ofWord_branch, Form.branchDistance, Word.low_ofBytes]
  rfl

/-- Execute an instruction with the program counter first moved past it. -/
def executePast (i : Instruction) (m : State) : Outcome Cpu :=
  execute i (jumpTo (m.cpu.get .pc + i.length) m)

theorem jumpTo_jumpTo (first second : UInt16) (m : State) :
    jumpTo second (jumpTo first m) = jumpTo second m := by
  simp only [jumpTo, setRegister, Machine.mapCpu, Cpu.set_set]

/-- A branch only sets the program counter: to its target, or past itself. -/
theorem executePast_branch {i : Instruction} {condition : Condition} {target : UInt16}
    (h : i.operation = .branch condition target) (m : State) :
    executePast i m =
      (jumpTo (if condition.holds m.cpu.status then target else m.cpu.get .pc + i.length)
        m).proceed := by
  simp only [executePast, execute, h]
  cases hHolds : condition.holds m.cpu.status with
  | true =>
      rw [if_pos rfl]
      exact congrArg Machine.proceed ((if_pos hHolds).trans (jumpTo_jumpTo _ target m))
  | false => exact congrArg Machine.proceed (if_neg (Bool.not_eq_true _ ▸ hHolds))

theorem holds_of_reports {n : Nat} {x y : BitVec n} {s t : Status} (hn : 0 < n)
    (h : Status.Reports n (x.toNat - y.toNat) (x.toInt - y.toInt) false s t) (r : Relation)
    (negated : Bool) : (conditionOf r negated).holds t = (r.holds x y != negated) := by
  rw [holds_conditionOf, h.zero, h.carry, h.negative, h.overflow]
  exact congrArg (· != negated) (r.ofCodes_eq_holds x y hn)

/-- A comparison stores nothing, and the branch behind it decides the relation of the source to
the destination. -/
theorem compare_then_branch {compare branch : VintageUnix.Code} {start next : UInt16} {w : Width}
    {s d : Operand} (hCompare : (decode compare start).operation = .double .cmp w s d)
    {r : Relation} {negated : Bool} (hBranch : branch (next + 1) = branchByte r negated)
    (m : State) :
    ∃ n : State,
      let o := Operands.two w s d m
      execute (decode compare start) m = n.proceed ∧ n = setStatus n.cpu.status o.state ∧
      executePast (decode branch next) n =
        (jumpTo (if r.holds o.source o.value != negated
          then next + 2 + Word.signExtend (branch next) * 2 else n.cpu.get .pc + 2) n).proceed := by
  have hInstruction : decode compare start =
      ⟨Additive.cmp.operation w s d, (decode compare start).length⟩ := by
    rw [Additive.operation, ← hCompare]
  obtain ⟨hReports, hStored⟩ := additive_result w s d m .cmp
  refine ⟨_, hInstruction ▸ execute_additive .cmp w s d _ m, hStored, ?_⟩
  rw [decode_branch hBranch, executePast_branch rfl,
    holds_of_reports w.bits_pos hReports r negated]
  rfl

end Pdp11

/-- A comparison and the conditional branch behind it decide a relation of integers, on both
processors and for any operands and width. The branch for a relation is taken exactly if it
holds, and its negation exactly if it does not. A branch that is taken goes on at the target in
its bytes, any other behind itself. Nothing else changes, whatever the condition. -/
theorem compare_then_branch_decides_relation (r : Relation) (negated : Bool) :
    (∀ {compare branch : Code} {start next : UInt16} {w : Width} {a b : I8086.Operand},
      (I8086.decodeFolded compare start).operation = .arithmetic .cmp w a b →
      branch next = I8086.jumpOpcode r negated → ∀ m : I8086.State,
      ∃ (x y : BitVec w.bits) (n : I8086.State), I8086.Reads m w a x ∧ I8086.Reads m w b y ∧
        I8086.execute (I8086.decodeFolded compare start) m = n.proceed ∧
        n = I8086.setFlags n.cpu.flags m ∧
        I8086.executePast (I8086.decodeFolded branch next) n =
          (I8086.jumpTo (if r.holds x y != negated
            then next + 2 + Word.signExtend (branch (next + 1)) else n.cpu.ip + 2) n).proceed) ∧
    (∀ {compare branch : Code} {start next : UInt16} {w : Width} {s d : Pdp11.Operand},
      (Pdp11.decode compare start).operation = .double .cmp w s d →
      branch (next + 1) = Pdp11.branchByte r negated → ∀ m : Pdp11.State,
      ∃ n : Pdp11.State,
        let o := Pdp11.Operands.two w s d m
        Pdp11.execute (Pdp11.decode compare start) m = n.proceed ∧
        n = Pdp11.setStatus n.cpu.status o.state ∧
        Pdp11.executePast (Pdp11.decode branch next) n =
          (Pdp11.jumpTo (if r.holds o.source o.value != negated
            then next + 2 + Word.signExtend (branch next) * 2
            else n.cpu.get .pc + 2) n).proceed) ∧
    (∀ {i : I8086.Instruction} {condition : I8086.Condition} {target : UInt16},
      i.operation = .jumpIf condition target → ∀ m : I8086.State,
      I8086.executePast i m = (I8086.jumpTo
        (if condition.holds m.cpu.flags then target else m.cpu.ip + i.length) m).proceed) ∧
    (∀ {i : Pdp11.Instruction} {condition : Pdp11.Condition} {target : UInt16},
      i.operation = .branch condition target → ∀ m : Pdp11.State,
      Pdp11.executePast i m = (Pdp11.jumpTo
        (if condition.holds m.cpu.status then target
          else m.cpu.get .pc + i.length) m).proceed) :=
  ⟨fun hCompare hJump => I8086.compare_then_jump hCompare hJump,
    fun hCompare hBranch => Pdp11.compare_then_branch hCompare hBranch,
    fun hJump => I8086.executePast_jumpIf hJump,
    fun hBranch => Pdp11.executePast_branch hBranch⟩

/-- A comparison of `al` with -128, and a jump if it is not less. -/
private abbrev notLessBytes : Array UInt8 :=
  #[0x3c, 0x80, 0x7d, 0x10]

/-- A comparison of `r0` with `r1`, and a branch if it is not less. -/
private abbrev notLessWords : Array UInt8 :=
  #[0x01, 0x20, 0x08, 0x04]

/-- The greatest value is not less than the least one, although their difference is negative. -/
theorem compare_then_branch_decides_relation_overflow :
    (∃ n p : I8086.State,
      I8086.execute (I8086.decodeFolded (.ofBytes ⟨notLessBytes⟩) 0)
        ⟨({} : I8086.Cpu).set .ax 0x7f, .shared⟩ = n.proceed ∧
      I8086.executePast (I8086.decodeFolded (.ofBytes ⟨notLessBytes⟩) 2) n = p.proceed ∧
      p.cpu.ip = 0x14) ∧
    (∃ n p : Pdp11.State,
      Pdp11.execute (Pdp11.decode (.ofBytes ⟨notLessWords⟩) 0)
        ⟨(({} : Pdp11.Cpu).set .r0 0x7fff).set .r1 0x8000, .shared⟩ = n.proceed ∧
      Pdp11.executePast (Pdp11.decode (.ofBytes ⟨notLessWords⟩) 2) n = p.proceed ∧
      p.cpu.get .pc = 0x14) := by
  obtain ⟨hJump, hBranch, -⟩ := compare_then_branch_decides_relation .less true
  constructor
  · have hCompare : (I8086.decodeFolded (.ofBytes ⟨notLessBytes⟩) 0).operation =
        .arithmetic .cmp .byte (.half .al) (.byteValue 0x80) := by
      decide +kernel
    have hOpcode : Code.ofBytes ⟨notLessBytes⟩ 2 = I8086.jumpOpcode .less true := by
      decide +kernel
    obtain ⟨_, _, n, ⟨_, hFirst, rfl⟩, ⟨_, hSecond, rfl⟩, hExecute, -, hTaken⟩ :=
      hJump hCompare hOpcode ⟨({} : I8086.Cpu).set .ax 0x7f, .shared⟩
    cases hFirst
    cases hSecond
    refine ⟨n, _, hExecute, hTaken, ?_⟩
    rw [if_pos (by decide +kernel)]
    show 2 + 2 + Word.signExtend (Code.ofBytes ⟨notLessBytes⟩ (2 + 1)) = 0x14
    decide +kernel
  · have hCompare : (Pdp11.decode (.ofBytes ⟨notLessWords⟩) 0).operation =
        .double .cmp .word (.register .r0) (.register .r1) := by
      decide +kernel
    have hUpper : Code.ofBytes ⟨notLessWords⟩ (2 + 1) = Pdp11.branchByte .less true := by
      decide +kernel
    obtain ⟨n, hExecute, -, hTaken⟩ := hBranch hCompare hUpper
      ⟨(({} : Pdp11.Cpu).set .r0 0x7fff).set .r1 0x8000, .shared⟩
    refine ⟨n, _, hExecute, hTaken, ?_⟩
    rw [if_pos (by decide +kernel)]
    exact (Pdp11.Cpu.get_set _ .pc .pc _).trans ((if_pos rfl).trans (by decide +kernel))

end VintageUnix
