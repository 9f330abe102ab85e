import VintageUnix.Proofs.InstructionBytes

/-! Decoding does not depend on where the code is. Code that is moved as a whole, around the top of
the segment as well, gives the same instructions at the new place, but for the code addresses in
them, which move with it. -/
namespace VintageUnix

/-- The code moved up by `shift` bytes. What reaches the top goes on at the bottom. -/
def Code.moved (c : Code) (shift : UInt16) : Code :=
  fun address => c (address - shift)

namespace Code

variable (c : Code) (start shift : UInt16)

@[simp] theorem moved_start : c.moved shift (start + shift) = c start := by
  rw [moved, UInt16.add_sub_cancel]

@[simp] theorem moved_at (offset : UInt16) :
    c.moved shift (start + shift + offset) = c (start + offset) := by
  have hPlace : start + shift + offset - shift = start + offset := by grind
  rw [moved, hPlace]

@[simp] theorem word_moved_start : (c.moved shift).word (start + shift) = c.word start := by
  rw [word, word, moved_start, moved_at]

@[simp] theorem word_moved_at (offset : UInt16) :
    (c.moved shift).word (start + shift + offset) = c.word (start + offset) := by
  simp only [word, UInt16.add_assoc _ offset 1, moved_at]

end Code

namespace I8086

/-- The operand in an instruction that has been moved. -/
def Operand.moved (shift : UInt16) : Operand → Operand
  | .target address => .target (address + shift)
  | o => o

/-- The operation of an instruction that has been moved. Its code addresses have moved
with it. -/
@[grind =] def Operation.moved (shift : UInt16) : Operation → Operation
  | .arithmetic op w a b => .arithmetic op w (a.moved shift) (b.moved shift)
  | .unary op w a => .unary op w (a.moved shift)
  | .rotate op w a b => .rotate op w (a.moved shift) (b.moved shift)
  | .shift op w a b => .shift op w (a.moved shift) (b.moved shift)
  | .test w a b => .test w (a.moved shift) (b.moved shift)
  | .xchg w a b => .xchg w (a.moved shift) (b.moved shift)
  | .mov w a b => .mov w (a.moved shift) (b.moved shift)
  | .lea r a => .lea r (a.moved shift)
  | .push a => .push (a.moved shift)
  | .pop a => .pop (a.moved shift)
  | .jumpIf condition target => .jumpIf condition (target + shift)
  | .jump a => .jump (a.moved shift)
  | .jumpShort target => .jumpShort (target + shift)
  | .call a => .call (a.moved shift)
  | .loop kind target => .loop kind (target + shift)
  | .jcxz target => .jcxz (target + shift)
  | .callf a => .callf (a.moved shift)
  | .jumpf a => .jumpf (a.moved shift)
  | .loadFar segment r a => .loadFar segment r (a.moved shift)
  | .input w a => .input w (a.moved shift)
  | .output w a => .output w (a.moved shift)
  | op => op

/-- The instruction after it has been moved. Length and modifier are what they were. -/
def Instruction.moved (shift : UInt16) (i : Instruction) : Instruction :=
  { i with operation := i.operation.moved shift }

variable {c : Code} {start shift : UInt16}

namespace Operand

@[simp] theorem moved_of_ne_target {o : Operand} (h : ∀ address, o ≠ .target address) :
    o.moved shift = o := by
  cases o with
  | target address => exact absurd rfl (h address)
  | _ => rfl

@[simp] theorem registerOperand_ne_target (w : Width) (field : UInt8) (address : UInt16) :
    registerOperand w field ≠ .target address := by
  cases w <;> simp [registerOperand]

@[simp] theorem accumulator_ne_target (w : Width) (address : UInt16) :
    Operation.accumulator w ≠ .target address := by
  cases w <;> simp [Operation.accumulator]

theorem operandField_ne_target (c : Code) (start : UInt16) (w : Width) (address : UInt16) :
    (operandField c start w).1 ≠ .target address := by
  simp only [operandField]
  split
  · split <;> simp
  · simp
  · simp
  · exact registerOperand_ne_target w _ address

end Operand

theorem Operation.moved_eq_modifier {op : Operation} {m : Modifier} :
    op.moved shift = .modifier m ↔ op = .modifier m := by
  cases op <;> simp [moved]

/-- The operation that a form finds in its fields names no code address of its own. -/
def StaysPut (shift : UInt16) (result : Operand → Option Operation) : Prop :=
  ∀ o, (∀ address, o ≠ .target address) → (result o).map (·.moved shift) = result o

/-- A form whose operations move with the addresses that they are built from, and with
nothing else. -/
def Form.Movable (shift : UInt16) : Form → Prop
  | .complete _ op => op.moved shift = op
  | .shortTarget op => ∀ target, (op target).moved shift = op (target + shift)
  | .nearTarget op => ∀ target, (op target).moved shift = op (target + shift)
  | .farTarget op => ∀ offset base, (op (.far offset base)).moved shift = op (.far offset base)
  | .byteValue op => ∀ v, (op v).moved shift = op v
  | .wordValue op => ∀ v, (op v).moved shift = op v
  | .wordAndByte op => ∀ v b, (op v b).moved shift = op v b
  | .baseTen op => op.moved shift = op
  | .fields _ op => ∀ r, StaysPut shift (op r)
  | .fieldsByte _ op => ∀ r v, StaysPut shift (op r · v)
  | .fieldsWord _ op => ∀ r v, StaysPut shift (op r · v)
  | .fieldsOrTest _ op => ∀ r, StaysPut shift (op r)
  | .undefined => True

theorem staysPut_shiftOperation (w : Width) (field : UInt8) {count : Operand}
    (hCount : ∀ address, count ≠ .target address) :
    StaysPut shift (shiftOperation w field · count) := by
  intro o hOperand
  unfold shiftOperation
  split <;> simp [Operation.moved, hOperand, hCount]

namespace Form

theorem staysPut_unaryOperation (w : Width) (field : UInt8) :
    StaysPut shift (unaryOperation w field) := by
  intro o hOperand
  unfold unaryOperation
  split <;> simp [Operation.moved, hOperand]

theorem staysPut_wordOperation (field : UInt8) : StaysPut shift (wordOperation field) := by
  intro o hOperand
  unfold wordOperation
  split <;> simp [Operation.moved, hOperand]

theorem staysPut_byteOperation (field : UInt8) : StaysPut shift (byteOperation field) := by
  intro o hOperand
  unfold byteOperation
  split <;> simp [Operation.moved, hOperand]

theorem movable_arithmeticGroup (b : UInt8) : (arithmeticGroup b).Movable shift := by
  simp only [arithmeticGroup]
  split <;> try split
  all_goals simp +contextual [Movable, StaysPut, Operation.moved]

theorem movable_moveGroup (b : UInt8) : (moveGroup b).Movable shift := by
  simp only [moveGroup]
  split <;> simp +contextual [Movable, StaysPut, ifMemory, Operation.moved, apply_ite]

theorem movable_accumulatorGroup (b : UInt8) : (accumulatorGroup b).Movable shift := by
  simp only [accumulatorGroup]
  split <;> simp [Movable, Operation.moved]

theorem movable_returnGroup (b : UInt8) : (returnGroup b).Movable shift := by
  simp only [returnGroup]
  split
  case h_1 | h_2 => exact fun r v => staysPut_shiftOperation _ r (by simp)
  all_goals simp +contextual [Movable, StaysPut, ifMemory, Operation.moved, apply_ite]

theorem movable_shiftGroup (b : UInt8) : (shiftGroup b).Movable shift := by
  simp only [shiftGroup]
  split <;> simp [Movable, staysPut_shiftOperation, Operation.moved]

theorem movable_jumpGroup (b : UInt8) : (jumpGroup b).Movable shift := by
  simp only [jumpGroup]
  split <;> simp [Movable, Operation.moved, Operand.moved]

theorem movable_controlGroup (b : UInt8) : (controlGroup b).Movable shift := by
  unfold controlGroup
  split <;> simp [Movable, staysPut_unaryOperation, staysPut_wordOperation,
    staysPut_byteOperation, Operation.moved]

theorem movable_ofOpcode (b : UInt8) : (ofOpcode b).Movable shift :=
  ofOpcode_cases b (movable_arithmeticGroup b) rfl rfl rfl rfl trivial (fun _ => rfl)
    (movable_moveGroup b) rfl rfl (movable_accumulatorGroup b) (fun _ => rfl) (fun _ => rfl)
    (movable_returnGroup b) (movable_shiftGroup b) (movable_jumpGroup b) (movable_controlGroup b)

end Form

theorem registerField_moved : registerField (c.moved shift) (start + shift) =
    registerField c start := by
  rw [registerField, registerField, Code.moved_at]

theorem operandField_moved (w : Width) :
    operandField (c.moved shift) (start + shift) w = operandField c start w := by
  simp only [operandField, Code.moved_at, Code.word_moved_at]

theorem valueAt_moved (offset : UInt16) (w : Width) :
    valueAt (c.moved shift) (start + shift + offset) w = valueAt c (start + offset) w := by
  cases w <;> simp only [valueAt, Code.moved_at, Code.word_moved_at]

theorem moved_valueAt (c : Code) (start : UInt16) (w : Width) :
    (valueAt c start w).moved shift = valueAt c start w := by
  cases w <;> rfl

theorem Instruction.moved_ofOption (length : UInt16) (op : Option Operation) :
    (ofOption length op).moved shift = ofOption length (op.map (·.moved shift)) := by
  cases op <;> rfl

theorem StaysPut.moved_ofOption {result : Operand → Option Operation}
    (h : StaysPut shift result) (c : Code) (start : UInt16) (w : Width) (length : UInt16) :
    (Instruction.ofOption length (result (operandField c start w).1)).moved shift =
      .ofOption length (result (operandField c start w).1) := by
  rw [Instruction.moved_ofOption, h _ (Operand.operandField_ne_target c start w)]

/-- What a form reads is the same at the new place, and its targets are relative to that. -/
theorem Form.decode_moved {form : Form} (h : form.Movable shift) (c : Code) (start : UInt16) :
    form.decode (c.moved shift) (start + shift) = (form.decode c start).moved shift := by
  have hTarget (length distance : UInt16) :
      start + shift + length + distance = start + length + distance + shift := by grind
  cases form <;> simp only [Movable] at h
  case undefined => rfl
  case fields w op =>
    simp only [decode, registerField_moved, operandField_moved]
    exact ((h _).moved_ofOption c start w _).symm
  case fieldsByte w op =>
    simp only [decode, registerField_moved, operandField_moved, Code.moved_at]
    exact ((h _ _).moved_ofOption c start w _).symm
  case fieldsWord w op =>
    simp only [decode, registerField_moved, operandField_moved, Code.word_moved_at]
    exact ((h _ _).moved_ofOption c start w _).symm
  case fieldsOrTest w op =>
    simp only [decode_fieldsOrTest, registerField_moved, operandField_moved, valueAt_moved]
    split
    · have hOperand := Operand.operandField_ne_target c start w
      simp only [Instruction.moved_ofOption, Option.map_some, Operation.moved, moved_valueAt,
        Operand.moved_of_ne_target hOperand]
    · exact ((h _).moved_ofOption c start w _).symm
  case baseTen op =>
    simp only [decode, Code.moved_at, Instruction.moved_ofOption]
    split <;> simp [h]
  all_goals simp only [decode, Code.moved_at, Code.word_moved_at, Instruction.moved, hTarget, h]

theorem decode_moved (c : Code) (start shift : UInt16) :
    decode (c.moved shift) (start + shift) = (decode c start).moved shift := by
  rw [decode, decode, Code.moved_start]
  exact Form.decode_moved (Form.movable_ofOpcode (c start)) c start

theorem behindModifiers_moved (c : Code) (start shift length : UInt16)
    (earlier : Option Modifier) :
    behindModifiers (c.moved shift) (start + shift) length earlier =
      (behindModifiers c start length earlier).moved shift := by
  have hPlace : start + shift + length = start + length + shift := by grind
  simp only [behindModifiers, hPlace, decode_moved]
  rfl

/-- The modifiers are at the new place too, and each is a modifier of the same kind there. -/
theorem fold_moved (c : Code) (start shift : UInt16) (budget : Nat) (length : UInt16)
    (earlier : Option Modifier) :
    fold (c.moved shift) (start + shift) budget length earlier =
      (fold c start budget length earlier).moved shift := by
  induction budget generalizing length earlier with
  | zero => exact behindModifiers_moved c start shift length earlier
  | succ budget ih =>
      have hPlace : start + shift + length = start + length + shift := by grind
      have hSame (m : Modifier) :
          (decode (c.moved shift) (start + shift + length)).operation = .modifier m ↔
            (decode c (start + length)).operation = .modifier m := by
        rw [hPlace, decode_moved]
        exact Operation.moved_eq_modifier
      by_cases hModifier : ∃ m, (decode c (start + length)).operation = .modifier m
      · obtain ⟨m, hModifier⟩ := hModifier
        rw [fold_of_modifier hModifier, fold_of_modifier ((hSame m).2 hModifier)]
        exact ih (length + 1) (Modifier.combine earlier m)
      · have hOther := not_exists.1 hModifier
        rw [fold_of_not_modifier hOther,
          fold_of_not_modifier fun m hMoved => hOther m ((hSame m).1 hMoved)]
        exact behindModifiers_moved c start shift length earlier

end I8086

namespace Pdp11

/-- The operand in an instruction that has been moved. Addresses relative to the program
counter move with it. -/
def Operand.moved (shift : UInt16) : Operand → Operand
  | .relative address => .relative (address + shift)
  | .relativeDeferred address => .relativeDeferred (address + shift)
  | o => o

/-- The operation of an instruction that has been moved. Its code addresses have moved
with it. -/
@[grind =] def Operation.moved (shift : UInt16) : Operation → Operation
  | .double op w source destination => .double op w (source.moved shift) (destination.moved shift)
  | .single op w destination => .single op w (destination.moved shift)
  | .extended op source r => .extended op (source.moved shift) r
  | .swab destination => .swab (destination.moved shift)
  | .sxt destination => .sxt (destination.moved shift)
  | .xor r destination => .xor r (destination.moved shift)
  | .sob r target => .sob r (target + shift)
  | .branch condition target => .branch condition (target + shift)
  | .jmp target => .jmp (target.moved shift)
  | .jsr link target => .jsr link (target.moved shift)
  | .transfer op o => .transfer op (o.moved shift)
  | op => op

/-- The instruction after it has been moved. It is as long as before. -/
def Instruction.moved (shift : UInt16) (i : Instruction) : Instruction :=
  { i with operation := i.operation.moved shift }

variable {shift : UInt16}

/-- A form whose operations move with the operands and the targets that they are built from. -/
def Form.Movable (shift : UInt16) : Form → Prop
  | .complete op => op.moved shift = op
  | .one _ op => ∀ o, (op o).moved shift = op (o.moved shift)
  | .two _ _ op => ∀ source destination,
      (op source destination).moved shift = op (source.moved shift) (destination.moved shift)
  | .near _ op => ∀ target, (op target).moved shift = op (target + shift)

namespace Form

theorem movable_doubleGroup (w : UInt16) : (doubleGroup w).Movable shift := by
  simp only [doubleGroup]
  split <;> try split
  all_goals exact fun _ _ => rfl

theorem movable_extendedGroup (w : UInt16) : (extendedGroup w).Movable shift := by
  simp only [extendedGroup]
  split <;> simp [Movable, Operation.moved]

theorem movable_branchGroup (w : UInt16) : (branchGroup w).Movable shift := by
  simp only [branchGroup]
  split <;> simp [Movable, Operation.moved]

theorem movable_controlGroup (w : UInt16) : (controlGroup w).Movable shift := by
  unfold controlGroup
  repeat' split
  all_goals simp [Movable, Operation.moved]

theorem movable_singleGroup (w : UInt16) : (singleGroup w).Movable shift := by
  simp only [singleGroup]
  split <;> try split
  all_goals simp [Movable, Operation.moved]

theorem movable_callGroup (w : UInt16) : (callGroup w).Movable shift := by
  unfold callGroup
  repeat' split
  all_goals simp [Movable, Operation.moved]

theorem movable_ofWord (w : UInt16) : (ofWord w).Movable shift := by
  unfold ofWord
  split
  · split
    · exact movable_controlGroup w
    · split
      · exact movable_branchGroup w
      · split
        · exact movable_callGroup w
        · exact movable_singleGroup w
  · split
    · exact fun _ => rfl
    · exact movable_extendedGroup w
  · exact movable_doubleGroup w

end Form

/-- The base of a relative operand counts the bytes read so far, which are as many at the new
place. -/
theorem operand_moved (c : VintageUnix.Code) (start field length : UInt16) :
    operand (c.moved shift) (start + shift) field length =
      ((operand c start field length).1.moved shift, (operand c start field length).2) := by
  have hTarget (next extension : UInt16) :
      start + shift + next + extension = start + next + extension + shift := by grind
  simp only [operand, Code.word_moved_at, hTarget]
  split <;> try split
  all_goals rfl

theorem Form.decode_moved {form : Form} (h : form.Movable shift) (c : VintageUnix.Code)
    (start : UInt16) :
    form.decode (c.moved shift) (start + shift) = (form.decode c start).moved shift := by
  cases form with
  | complete op => exact congrArg (Instruction.mk · 2) h.symm
  | one field op =>
      simp only [decode, operand_moved]
      exact congrArg (Instruction.mk · _) (h _).symm
  | two source destination op =>
      simp only [decode, operand_moved]
      exact congrArg (Instruction.mk · _) (h _ _).symm
  | near distance op =>
      have hTarget : start + shift + 2 + distance = start + 2 + distance + shift := by grind
      simp only [decode, hTarget]
      exact congrArg (Instruction.mk · 2) (h _).symm

theorem decode_moved (c : VintageUnix.Code) (start shift : UInt16) :
    decode (c.moved shift) (start + shift) = (decode c start).moved shift := by
  rw [decode, decode, Code.word_moved_start]
  exact Form.decode_moved (Form.movable_ofWord (c.word start)) c start

end Pdp11

/-- Decoding is position independent. Move any code by any distance, around the top of the
segment if need be: at the new place both processors find the instruction that was at the old
one, with its code addresses moved by the same distance and everything else as it was. On the
8086 this holds with and without the modifiers folded in. -/
theorem decoding_moves_with_code (c : Code) (start shift : UInt16) :
    I8086.decode (c.moved shift) (start + shift) = (I8086.decode c start).moved shift ∧
    I8086.decodeFolded (c.moved shift) (start + shift) =
      (I8086.decodeFolded c start).moved shift ∧
    Pdp11.decode (c.moved shift) (start + shift) = (Pdp11.decode c start).moved shift :=
  ⟨I8086.decode_moved c start shift, I8086.fold_moved c start shift I8086.maxModifiers 0 none,
    Pdp11.decode_moved c start shift⟩

end VintageUnix
