import VintageUnix.Proofs.CountedShifts
import VintageUnix.Proofs.SizedOperands

/-! Shifts and rotations of the 8086 by a count against their definitions. A shift is computed in
one step and has to be what as many shifts by one are, also where the count reaches the width. A
rotation is computed place by place and has to be one turn of the value, or of the value
together with the carry. -/
namespace VintageUnix.I8086

variable {n : Nat}

namespace Shift

/-- A shift by one place. The carry that was there is lost, the new one is the bit moved out. -/
def step (op : Shift) (state : BitVec n × Bool) : BitVec n × Bool :=
  let v := state.1
  match op with
  | .shl => (v <<< 1, v.msb)
  | .shr => (v >>> 1, v.getLsbD 0)
  | .sar => (v.sshiftRight 1, v.getLsbD 0)

/-- What a shift by `k` places leaves of the value `x` and the flags `f`. -/
structure Moves (op : Shift) (k : Nat) (f : Flags) (x r : BitVec n) (g : Flags) : Prop where
  steps : (r, g.get .carry) = Nat.repeat op.step k (x, f.get .carry)
  zero : g.get .zero = decide (r = 0)
  sign : g.get .sign = r.msb
  parity : g.get .parity = decide (Even ((List.range 8).countP r.getLsbD))
  overflow : g.get .overflow = match op with
    | .shl => g.get .carry != r.msb
    | .shr => x.msb
    | .sar => false
  others : Flags.SameBut [.carry, .zero, .sign, .parity, .overflow] f g

/-- The value after a shift by a count. -/
def value (op : Shift) (k : Nat) (x : BitVec n) : BitVec n :=
  match op with
  | .shl => x <<< k
  | .shr => x >>> k
  | .sar => x.sshiftRight k

theorem fst_repeat_step (op : Shift) (k : Nat) (state : BitVec n × Bool) :
    (Nat.repeat op.step k state).1 = op.value k state.1 := by
  refine view_repeat Prod.fst op.value ?_ ?_ ?_ k state
  · intro x
    cases op <;> simp [value]
  · intro j x
    cases op with
    | shl => exact BitVec.shiftLeft_add x j 1
    | shr => exact BitVec.shiftRight_add x j 1
    | sar => exact BitVec.sshiftRight_add
  · intro state
    cases op <;> rfl

/-- The last bit that is moved out is the end of what the shift by one less leaves. -/
theorem repeat_step_succ (op : Shift) (k : Nat) (x : BitVec n) (c : Bool) :
    Nat.repeat op.step (k + 1) (x, c) =
      (op.value (k + 1) x, match op with
        | .shl => (x.toNat <<< (k + 1)).testBit n
        | .shr => x.getLsbD k
        | .sar => (x.sshiftRight k).getLsbD 0) := by
  have hBefore := op.fst_repeat_step k (x, c)
  refine Prod.ext (op.fst_repeat_step (k + 1) (x, c)) ?_
  -- the carry of the last step does not depend on those before it, only on the value they left
  show (op.step (Nat.repeat op.step k (x, c))).2 = _
  cases op with
  | shl =>
      have hTop : (x <<< k).msb = (x.toNat <<< (k + 1)).testBit n := by
        rw [msb_shiftLeft, Nat.testBit_shiftLeft]
        rfl
      exact (congrArg BitVec.msb hBefore).trans hTop
  | shr =>
      have hBottom : (x >>> k).getLsbD 0 = x.getLsbD k := BitVec.getLsbD_ushiftRight x k 0
      exact (congrArg (·.getLsbD 0) hBefore).trans hBottom
  | sar => exact congrArg (·.getLsbD 0) hBefore

/-- A shift in one step says of its result what a shift place by place does. -/
theorem moves_compute (op : Shift) (f : Flags) (x : BitVec n) {count : UInt8}
    (hCount : count.toNat % 32 ≠ 0) :
    op.Moves (count.toNat % 32) f x (op.compute f x count).1 (op.compute f x count).2 := by
  obtain ⟨k, hk⟩ := Nat.exists_eq_add_one_of_ne_zero hCount
  have hSteps := op.repeat_step_succ k x (f.get .carry)
  simp only [compute, maskedCount, hk, Nat.succ_ne_zero, if_false]
  constructor
  case steps =>
    rw [hSteps]
    cases op <;> simp only [Flags.get_put, reduceCtorEq, if_true, if_false] <;> rfl
  case zero =>
    simp only [Flags.describe, Flags.get_put, reduceCtorEq, if_true, if_false]
    rfl
  case sign => simp only [Flags.describe, Flags.get_put, reduceCtorEq, if_true, if_false]
  case parity =>
    simp only [Flags.describe, Flags.get_put, reduceCtorEq, if_true, if_false, evenParity_eq]
  case overflow => cases op <;> simp only [Flags.get_put, reduceCtorEq, if_true, if_false]
  case others =>
    exact (((((Flags.SameBut.refl _ f).put (by decide)).put (by decide)).put (by decide)).put
      (by decide)).put (by decide)

end Shift

namespace Rotation

/-- What a rotation by `k` places makes of a carry and a value. One with the carry turns the two as
one word with the carry on top. Any other turns the value alone and copies the bit that was moved
around last into the carry. -/
def Turns (op : Rotation) (k : Nat) (c : Bool) (x : BitVec n) (out : Bool) (r : BitVec n) : Prop :=
  match op with
  | .rol => r = x.rotateLeft (k % n) ∧ out = r.getLsbD 0
  | .ror => r = x.rotateRight (k % n) ∧ out = r.msb
  | .rcl => BitVec.cons out r = (BitVec.cons c x).rotateLeft (k % (n + 1))
  | .rcr => BitVec.cons out r = (BitVec.cons c x).rotateRight (k % (n + 1))

/-- What a rotation by `k` places leaves of the value `x` and the flags `f`. -/
structure Moves (op : Rotation) (k : Nat) (f : Flags) (x r : BitVec n) (g : Flags) : Prop where
  turns : op.Turns k (f.get .carry) x (g.get .carry) r
  overflow : g.get .overflow = match op with
    | .rol | .rcl => g.get .carry != r.msb
    | .ror | .rcr => r.msb != r.getLsbD (n - 2)
  others : Flags.SameBut [.carry, .overflow] f g

/-- The carry and the value of a state as one word. -/
def whole (state : BitVec n × Bool) : BitVec (n + 1) :=
  BitVec.cons state.2 state.1

theorem whole_step_rcl (hn : 0 < n) (state : BitVec n × Bool) :
    whole (Rotation.rcl.step state) = (whole state).rotateLeft 1 :=
  (cons_rotateLeft state.1 state.2 hn).symm

theorem whole_step_rcr (hn : 0 < n) (state : BitVec n × Bool) :
    whole (Rotation.rcr.step state) = (whole state).rotateRight 1 := by
  have hTop : BitVec.twoPow n (n - 1) = BitVec.intMin n := rfl
  rw [whole, whole, cons_rotateRight state.1 state.2 hn, ← hTop]
  rfl

/-- Repeating a step turns by as many places. For a rotation of the value alone there has to be a
last step, which leaves its bit in the carry. -/
theorem turns_repeat_step (op : Rotation) (hn : 1 < n) {k : Nat} (hk : k ≠ 0)
    (x : BitVec n) (c : Bool) :
    op.Turns k c x (Nat.repeat op.step k (x, c)).2 (Nat.repeat op.step k (x, c)).1 := by
  obtain ⟨j, rfl⟩ := Nat.exists_eq_add_one_of_ne_zero hk
  have hPositive : 0 < n := by omega
  cases op with
  | rol =>
      refine ⟨?_, (getLsbD_zero_rotateLeft_one _ hn).symm⟩
      rw [BitVec.rotateLeft_mod_eq_rotateLeft]
      exact view_repeat Prod.fst (fun k v => BitVec.rotateLeft v k) rotateLeft_zero
        (fun k v => rotateLeft_add v k 1) (fun _ => rfl) (j + 1) (x, c)
  | ror =>
      refine ⟨?_, (msb_rotateRight_one _ hn).symm⟩
      rw [BitVec.rotateRight_mod_eq_rotateRight]
      exact view_repeat Prod.fst (fun k v => BitVec.rotateRight v k) rotateRight_zero
        (fun k v => rotateRight_add v hPositive k 1) (fun _ => rfl) (j + 1) (x, c)
  | rcl =>
      show whole _ = _
      rw [BitVec.rotateLeft_mod_eq_rotateLeft]
      exact view_repeat whole (fun k v => BitVec.rotateLeft v k) rotateLeft_zero
        (fun k v => rotateLeft_add v k 1) (whole_step_rcl hPositive) (j + 1) (x, c)
  | rcr =>
      show whole _ = _
      rw [BitVec.rotateRight_mod_eq_rotateRight]
      exact view_repeat whole (fun k v => BitVec.rotateRight v k) rotateRight_zero
        (fun k v => rotateRight_add v n.succ_pos k 1) (whole_step_rcr hPositive) (j + 1) (x, c)

theorem moves_compute (op : Rotation) (hn : 1 < n) (f : Flags) (x : BitVec n) {count : UInt8}
    (hCount : count.toNat % 32 ≠ 0) :
    op.Moves (count.toNat % 32) f x (op.compute f x count).1 (op.compute f x count).2 := by
  have hTurns := op.turns_repeat_step hn hCount x (f.get .carry)
  simp only [compute, maskedCount, hCount, if_false]
  constructor
  case turns =>
    simp only [Flags.get_put, reduceCtorEq, if_true, if_false]
    exact hTurns
  case overflow => cases op <;> simp only [Flags.get_put, reduceCtorEq, if_true, if_false, overflow]
  case others => exact ((Flags.SameBut.refl _ f).put (by decide)).put (by decide)

/-- A rotation to the right undoes one to the left by the same count. -/
theorem eq_of_rcl_rcr {k : Nat} {x y z : BitVec n} {a b c : Bool}
    (hLeft : Rotation.rcl.Turns k a x b y) (hRight : Rotation.rcr.Turns k b y c z) :
    z = x ∧ c = a := by
  have hBack := calc BitVec.cons c z
    _ = (BitVec.cons b y).rotateRight (k % (n + 1)) := hRight
    _ = ((BitVec.cons a x).rotateLeft (k % (n + 1))).rotateRight (k % (n + 1)) :=
        congrArg (fun v => BitVec.rotateRight v (k % (n + 1))) hLeft
    _ = BitVec.cons a x := rotateRight_rotateLeft _ n.succ_pos _
  obtain ⟨hCarry, hValue⟩ := cons_inj z hBack
  exact ⟨hValue, hCarry⟩

end Rotation

/-- The operations that move a value by a count of places. -/
inductive BitMove where
  | shift (op : Shift)
  | rotation (op : Rotation)

namespace BitMove

def operation (op : BitMove) (w : Width) (d count : Operand) : Operation :=
  match op with
  | .shift op => .shift op w d count
  | .rotation op => .rotate op w d count

def compute (op : BitMove) (f : Flags) (x : BitVec n) (count : UInt8) : BitVec n × Flags :=
  match op with
  | .shift op => op.compute f x count
  | .rotation op => op.compute f x count

/-- What a move by `k` places leaves of the value `x` and the flags `f`. -/
def Moves (op : BitMove) (k : Nat) (f : Flags) (x r : BitVec n) (g : Flags) : Prop :=
  match op with
  | .shift op => op.Moves k f x r g
  | .rotation op => op.Moves k f x r g

theorem compute_of_zero (op : BitMove) (f : Flags) (x : BitVec n) {count : UInt8}
    (hCount : count.toNat % 32 = 0) : op.compute f x count = (x, f) := by
  cases op with
  | shift op => exact if_pos hCount
  | rotation op => exact if_pos hCount

theorem moves_compute (op : BitMove) (hn : 1 < n) (f : Flags) (x : BitVec n) {count : UInt8}
    (hCount : count.toNat % 32 ≠ 0) :
    op.Moves (count.toNat % 32) f x (op.compute f x count).1 (op.compute f x count).2 := by
  cases op with
  | shift op => exact op.moves_compute f x hCount
  | rotation op => exact op.moves_compute hn f x hCount

theorem exists_locate {op : BitMove} {w : Width} {d count : Operand}
    (h : (op.operation w d count).Sized) (c : Cpu) :
    (∃ place, c.locate d = .ok place ∧ place.Holds w) ∧ ∃ source, c.locate count = .ok source := by
  have hPlaces : d.IsPlace w ∧ (count.IsPlace .byte ∨ count.isImmediate = true) := by
    cases op <;> exact h
  exact ⟨hPlaces.1.exists_locate c, exists_locate_of_source hPlaces.2 c⟩

theorem execute_eq {i : Instruction} {op : BitMove} {w : Width} {d count : Operand}
    (h : i.operation = op.operation w d count) {m : State} {place source : Location}
    (hPlace : m.cpu.locate d = .ok place) (hSource : m.cpu.locate count = .ok source) :
    execute i m =
      (put place (op.compute m.cpu.flags (load m w place) ⟨load m .byte source⟩) m).proceed := by
  cases op with
  | shift op =>
      simp only [execute, h, operation, withBoth, hPlace, hSource]
      rfl
  | rotation op =>
      simp only [execute, h, operation, withBoth, hPlace, hSource]
      rfl

/-- The state after a move by a count, which is the same state if the count has no places. -/
def Leaves (op : BitMove) (w : Width) (place : Location) (k : Nat) (m n : State) : Prop :=
  if k = 0 then n = m
  else op.Moves k m.cpu.flags (load m w place) (load n w place) n.cpu.flags ∧
    ChangesOnly w [place] m n

theorem leaves_put (op : BitMove) {w : Width} {place : Location} (h : place.Holds w)
    (count : UInt8) (m : State) :
    op.Leaves w place (count.toNat % 32) m
      (put place (op.compute m.cpu.flags (load m w place) count) m) := by
  by_cases hCount : count.toNat % 32 = 0
  · rw [Leaves, if_pos hCount, op.compute_of_zero _ _ hCount]
    exact store_load h m
  · have hWidth : 1 < w.bits := Nat.lt_of_lt_of_le (by decide) w.eight_le_bits
    rw [Leaves, if_neg hCount, load_put h, flags_put]
    exact ⟨op.moves_compute hWidth _ _ hCount, changesOnly_put h _ m⟩

/-- Executing an instruction that moves the value at a place by `k` places. -/
structure Executes (op : BitMove) (w : Width) (d count : Operand) (i : Instruction)
    (place : Location) (k : Nat) (m n : State) : Prop where
  located : m.cpu.locate d = .ok place
  counted : ∃ v, Reads m .byte count v ∧ v.toNat % 32 = k
  proceeds : execute i m = n.proceed
  leaves : op.Leaves w place k m n

theorem exists_executes (op : BitMove) {code : Code} {start : UInt16} {w : Width}
    {d count : Operand} (h : (decodeFolded code start).operation = op.operation w d count)
    (m : State) : ∃ place k n, op.Executes w d count (decodeFolded code start) place k m n := by
  have hSized := sized_decodeFolded code start
  rw [h] at hSized
  obtain ⟨⟨place, hPlace, hHolds⟩, source, hSource⟩ := exists_locate hSized m.cpu
  exact ⟨place, _, _, hPlace, ⟨_, ⟨source, hSource, rfl⟩, rfl⟩, execute_eq h hPlace hSource,
    op.leaves_put hHolds _ m⟩

/-- A rotation to the right undoes one to the left, wherever the program goes on in between. -/
theorem eq_of_rcl_rcr {w : Width} {place : Location} {k : Nat} {next : UInt16} {m n p : State}
    (hLeft : (rotation .rcl).Leaves w place k m n)
    (hRight : (rotation .rcr).Leaves w place k (jumpTo next n) p) :
    load p w place = load m w place ∧ p.cpu.flags.get .carry = m.cpu.flags.get .carry := by
  have hLoad (m : State) : load (jumpTo next m) w place = load m w place := by
    cases place <;> rfl
  by_cases hk : k = 0
  · rw [Leaves, if_pos hk] at hLeft hRight
    rw [hRight, hLeft, hLoad]
    exact ⟨rfl, rfl⟩
  · rw [Leaves, if_neg hk] at hLeft hRight
    have hTurns := hRight.1.turns
    rw [hLoad] at hTurns
    exact Rotation.eq_of_rcl_rcr hLeft.1.turns hTurns

end BitMove

/-- Shifts and rotations on the 8086 move by their count. Every one of them, as it is decoded from
any code, proceeds in every state. A count that is a multiple of 32 changes nothing at all. Any
other leaves in the destination and the flags what the definition of a move by `k` places says,
the count being `k` modulo 32, also where that is the width or more. Nothing else changes. What
a rotation to the left through the carry has made of a value and the carry, a later one to the
right by as many places undoes. -/
theorem shift_instructions_move_by_count {code : Code} {start : UInt16} {op : BitMove} {w : Width}
    {d count : Operand} (h : (decodeFolded code start).operation = op.operation w d count)
    (m : State) :
    ∃ place k n, op.Executes w d count (decodeFolded code start) place k m n ∧
      (op = .rotation .rcl → ∀ {back : Code} {origin : UInt16} {e again : Operand},
        (decodeFolded back origin).operation = .rotate .rcr w e again → ∀ next : UInt16,
        ∃ other j p, (BitMove.rotation .rcr).Executes w e again (decodeFolded back origin) other j
            (jumpTo next n) p ∧
          (other = place → j = k → load p w place = load m w place ∧
            p.cpu.flags.get .carry = m.cpu.flags.get .carry)) := by
  obtain ⟨place, k, n, hExecutes⟩ := op.exists_executes h m
  refine ⟨place, k, n, hExecutes, ?_⟩
  rintro rfl back origin e again hBack next
  obtain ⟨other, j, p, hRight⟩ :=
    (BitMove.rotation .rcr).exists_executes hBack (jumpTo next n)
  refine ⟨other, j, p, hRight, ?_⟩
  rintro rfl rfl
  exact BitMove.eq_of_rcl_rcr hExecutes.leaves hRight.leaves

/-- A byte in memory through the carry and back, by ten places. -/
private abbrev roundBytes : Array UInt8 :=
  #[0xd2, 0x16, 0x10, 0x00, 0xd2, 0x1e, 0x10, 0x00]

private abbrev roundState : State where
  cpu := ({ flags := ({} : Flags).put .carry true } : Cpu).setHalf .cl 10
  memory := AddressSpace.shared.setByte 0x10 0x81

/-- Ten places are all nine of a byte and the carry, and one more. -/
theorem shift_instructions_move_by_count_ten :
    (decodeFolded (.ofBytes ⟨roundBytes⟩) 0).operation =
      (BitMove.rotation .rcl).operation .byte (.direct 0x10) (.half .cl) ∧
    ∃ n p : State, execute (decodeFolded (.ofBytes ⟨roundBytes⟩) 0) roundState = n.proceed ∧
      n.memory.byte 0x10 = 0x03 ∧ n.cpu.flags.get .carry = true ∧
      execute (decodeFolded (.ofBytes ⟨roundBytes⟩) 4) (jumpTo 8 n) = p.proceed ∧
      p.memory.byte 0x10 = 0x81 ∧ p.cpu.flags.get .carry = true := by
  have hDecode : (decodeFolded (.ofBytes ⟨roundBytes⟩) 0).operation =
      (BitMove.rotation .rcl).operation .byte (.direct 0x10) (.half .cl) := by
    decide +kernel
  have hBack : (decodeFolded (.ofBytes ⟨roundBytes⟩) 4).operation =
      .rotate .rcr .byte (.direct 0x10) (.half .cl) := by
    decide +kernel
  refine ⟨hDecode, ?_⟩
  obtain ⟨place, k, n, hLeft, hRest⟩ := shift_instructions_move_by_count hDecode roundState
  obtain ⟨other, j, p, hRight, hRestored⟩ := hRest rfl hBack 8
  obtain ⟨v, ⟨_, hLocate, rfl⟩, rfl⟩ := hLeft.counted
  obtain ⟨v, ⟨_, hLocateBack, rfl⟩, rfl⟩ := hRight.counted
  cases hLeft.located
  cases hRight.located
  cases hLocate
  cases hLocateBack
  have hPlaces : (load roundState .byte (.half .cl)).toNat % 32 = 10 := by decide +kernel
  rw [hPlaces] at hLeft hRestored
  obtain ⟨hMoves, hChanges⟩ : BitMove.Moves _ _ _ _ _ _ ∧ ChangesOnly _ _ _ _ := hLeft.leaves
  have hCount : n.cpu.getHalf .cl = 10 :=
    (hChanges.halves .cl (by simp [Location.Covers])).trans (by decide +kernel)
  have hAgain : (load (jumpTo 8 n) .byte (.half .cl)).toNat % 32 = 10 := by
    show (((n.cpu.getHalf .cl).toBitVec.setWidth 8).toNat % 32) = 10
    rw [hCount]
    rfl
  obtain ⟨hValue, hCarry⟩ := hRestored rfl hAgain
  have hTurned : BitVec.cons (n.cpu.flags.get .carry) (n.memory.byte 0x10).toBitVec =
      BitVec.cons true 0x03#8 :=
    hMoves.turns.trans (by decide +kernel)
  obtain ⟨hOut, hByte⟩ := cons_inj _ hTurned
  refine ⟨n, p, hLeft.proceeds, UInt8.toBitVec_inj.1 hByte, hOut, hRight.proceeds, ?_, ?_⟩
  · exact UInt8.toBitVec_inj.1 (hValue.trans (by decide +kernel))
  · exact hCarry.trans (by decide +kernel)

end VintageUnix.I8086
