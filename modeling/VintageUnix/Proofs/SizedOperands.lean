import VintageUnix.Proofs.FoldedModifiers
import VintageUnix.Proofs.I8086Stores

/-! The operands of 8086 instructions that are decoded have the width of their instruction. A value
stored into such an operand is read back as it was, and everything that does not overlap with
it stays as it is: the other half of a register, the other registers, the rest of memory. -/
namespace VintageUnix.I8086

/-- An operand that holds a value of a width. Half of a register holds a byte, and a whole
register holds a word. -/
def Operand.IsPlace (w : Width) : Operand → Prop
  | .half _ => w = .byte
  | .register _ => w = .word
  | .direct _ | .based .. => True
  | _ => False

/-- The arithmetic and logical operations, the shifts and the rotations have the operands that they
work on: a place for the result, and a place or a value to combine with it. The count of a shift
is a byte, whatever is shifted. -/
def Operation.Sized : Operation → Prop
  | .arithmetic _ w d s => d.IsPlace w ∧ (s.IsPlace w ∨ s.isImmediate = true)
  | .unary _ w d => d.IsPlace w
  | .rotate _ w d count | .shift _ w d count =>
    d.IsPlace w ∧ (count.IsPlace .byte ∨ count.isImmediate = true)
  | _ => True

/-- Every operation that a form can complete satisfies `P`, whatever bytes follow. The operand
fields hold places of the width of the form. -/
def Form.Yields (P : Operation → Prop) : Form → Prop
  | .complete _ op => P op
  | .shortTarget op => ∀ target, P (op target)
  | .nearTarget op => ∀ target, P (op target)
  | .farTarget op => ∀ offset base, P (op (.far offset base))
  | .byteValue op => ∀ v, P (op v)
  | .wordValue op => ∀ v, P (op v)
  | .wordAndByte op => ∀ v b, P (op v b)
  | .baseTen op => P op
  | .fields w op => ∀ r o, o.IsPlace w → ∀ result ∈ op r o, P result
  | .fieldsByte w op => ∀ r o v, o.IsPlace w → ∀ result ∈ op r o v, P result
  | .fieldsWord w op => ∀ r o v, o.IsPlace w → ∀ result ∈ op r o v, P result
  | .fieldsOrTest w op => ∀ r o, o.IsPlace w →
      (∀ v, P (.test w o v)) ∧ ∀ result ∈ op r o, P result
  | .undefined => True

theorem isPlace_registerOperand (w : Width) (code : UInt8) :
    (registerOperand w code).IsPlace w := by
  cases w <;> rfl

theorem isPlace_operandField (c : Code) (start : UInt16) (w : Width) :
    (operandField c start w).1.IsPlace w := by
  simp only [operandField]
  split
  · split <;> trivial
  · trivial
  · trivial
  · exact isPlace_registerOperand w _

theorem operation_ofOption {P : Operation → Prop} {length : UInt16} {op : Option Operation}
    (hOp : ∀ result ∈ op, P result) (hUndefined : P .undefined) :
    P (Instruction.ofOption length op).operation := by
  cases op with
  | none => exact hUndefined
  | some op => exact hOp op rfl

theorem Form.Yields.operation_decode {P : Operation → Prop} {form : Form} (h : form.Yields P)
    (hUndefined : P .undefined) (c : Code) (start : UInt16) :
    P (form.decode c start).operation := by
  cases form with
  | complete length op => exact h
  | shortTarget op => exact h _
  | nearTarget op => exact h _
  | farTarget op => exact h _ _
  | byteValue op => exact h _
  | wordValue op => exact h _
  | wordAndByte op => exact h _ _
  | baseTen op =>
      refine operation_ofOption (fun result hResult => ?_) hUndefined
      split at hResult
      · exact Option.some.inj hResult ▸ h
      · cases hResult
  | fields w op => exact operation_ofOption (h _ _ (isPlace_operandField c start w)) hUndefined
  | fieldsByte w op =>
      exact operation_ofOption (h _ _ _ (isPlace_operandField c start w)) hUndefined
  | fieldsWord w op =>
      exact operation_ofOption (h _ _ _ (isPlace_operandField c start w)) hUndefined
  | fieldsOrTest w op =>
      obtain ⟨hTest, hOther⟩ := h (registerField c start) _ (isPlace_operandField c start w)
      rw [decode_fieldsOrTest]
      refine operation_ofOption (fun result hResult => ?_) hUndefined
      split at hResult
      · exact Option.some.inj hResult ▸ hTest _
      · exact hOther result hResult
  | undefined => exact hUndefined

namespace Form

theorem sized_arithmeticGroup (b : UInt8) : (arithmeticGroup b).Yields Operation.Sized := by
  simp only [arithmeticGroup]
  split <;> try split
  case h_5 => exact fun v => ⟨rfl, .inr rfl⟩
  case h_6 => exact fun v => ⟨rfl, .inr rfl⟩
  all_goals simp +contextual [Yields, Operation.Sized, isPlace_registerOperand]

theorem sized_moveGroup (b : UInt8) : (moveGroup b).Yields Operation.Sized := by
  simp only [moveGroup]
  split <;> simp +contextual [Yields, Operation.Sized, ifMemory, Operand.isImmediate]

theorem sized_accumulatorGroup (b : UInt8) : (accumulatorGroup b).Yields Operation.Sized := by
  simp only [accumulatorGroup]
  split <;> simp [Yields, Operation.Sized]

theorem sized_shiftOperation {w : Width} (field : UInt8) {o count : Operand} (h : o.IsPlace w)
    (hCount : count.IsPlace .byte ∨ count.isImmediate = true) :
    ∀ result ∈ shiftOperation w field o count, result.Sized := by
  unfold shiftOperation
  split <;> simp [Operation.Sized, h, hCount]

theorem sized_returnGroup (b : UInt8) : (returnGroup b).Yields Operation.Sized := by
  simp only [returnGroup]
  split
  case h_1 | h_2 => exact fun r o v h => sized_shiftOperation r h (.inr rfl)
  all_goals simp [Yields, Operation.Sized, ifMemory]

theorem sized_shiftGroup (b : UInt8) : (shiftGroup b).Yields Operation.Sized := by
  simp only [shiftGroup]
  split
  case h_1 | h_2 => exact fun r o h => sized_shiftOperation r h (.inr rfl)
  case h_3 | h_4 => exact fun r o h => sized_shiftOperation r h (.inl rfl)
  all_goals simp [Yields, Operation.Sized]

theorem sized_jumpGroup (b : UInt8) : (jumpGroup b).Yields Operation.Sized := by
  simp only [jumpGroup]
  split <;> simp [Yields, Operation.Sized]

theorem sized_unaryOperation {w : Width} (field : UInt8) {o : Operand} (h : o.IsPlace w) :
    ∀ result ∈ unaryOperation w field o, result.Sized := by
  unfold unaryOperation
  split <;> simp [Operation.Sized, h]

theorem sized_wordOperation (field : UInt8) {o : Operand} (h : o.IsPlace .word) :
    ∀ result ∈ wordOperation field o, result.Sized := by
  unfold wordOperation
  split <;> simp [Operation.Sized, h]

theorem sized_byteOperation (field : UInt8) {o : Operand} (h : o.IsPlace .byte) :
    ∀ result ∈ byteOperation field o, result.Sized := by
  unfold byteOperation
  split <;> simp [Operation.Sized, h]

theorem sized_controlGroup (b : UInt8) : (controlGroup b).Yields Operation.Sized := by
  unfold controlGroup
  split
  case h_7 | h_8 => exact fun r o h => ⟨fun _ => trivial, sized_unaryOperation r h⟩
  case h_15 => exact fun r o h => sized_byteOperation r h
  case h_16 => exact fun r o h => sized_wordOperation r h
  all_goals trivial

theorem sized_ofOpcode (b : UInt8) : (ofOpcode b).Yields Operation.Sized :=
  ofOpcode_cases b (sized_arithmeticGroup b) rfl rfl trivial trivial trivial (fun _ => trivial)
    (sized_moveGroup b) trivial trivial (sized_accumulatorGroup b) (fun _ => trivial)
    (fun _ => trivial) (sized_returnGroup b) (sized_shiftGroup b) (sized_jumpGroup b)
    (sized_controlGroup b)

end Form

theorem sized_decodeFolded (c : Code) (start : UInt16) :
    (decodeFolded c start).operation.Sized := by
  rw [decodeFolded_eq]
  exact (Form.sized_ofOpcode _).operation_decode trivial c _

namespace Location

/-- A place that holds a value of a width. -/
def Holds (w : Width) : Location → Prop
  | .half _ => w = .byte
  | .register _ => w = .word
  | .memory _ => True
  | .constant _ => False

/-- Half of a register is part of a place. -/
def Covers : Location → Half → Prop
  | .half h, k => k = h
  | .register r, k => k.register = r
  | _, _ => False

/-- The data addresses of a place. -/
def regions (w : Width) : Location → List Region
  | .memory a => [⟨a, w.size.toNat⟩]
  | _ => []

end Location

theorem Operand.IsPlace.exists_locate {w : Width} {o : Operand} (h : o.IsPlace w) (c : Cpu) :
    ∃ place, c.locate o = .ok place ∧ place.Holds w := by
  cases o with
  | half k => exact ⟨_, rfl, h⟩
  | register r => exact ⟨_, rfl, h⟩
  | direct a => exact ⟨_, rfl, trivial⟩
  | based base d => exact ⟨_, rfl, trivial⟩
  | _ => exact h.elim

theorem exists_locate_of_isImmediate {o : Operand} (h : o.isImmediate = true) (c : Cpu) :
    ∃ v, c.locate o = .ok (.constant v) := by
  cases o with
  | byteValue v => exact ⟨_, rfl⟩
  | wordValue v => exact ⟨_, rfl⟩
  | _ => cases h

/-- What an operation reads is a place or a value. -/
theorem exists_locate_of_source {w : Width} {o : Operand}
    (h : o.IsPlace w ∨ o.isImmediate = true) (c : Cpu) : ∃ source, c.locate o = .ok source := by
  rcases h with hPlace | hImmediate
  · obtain ⟨source, hLocate, -⟩ := hPlace.exists_locate c
    exact ⟨source, hLocate⟩
  · obtain ⟨v, hLocate⟩ := exists_locate_of_isImmediate hImmediate c
    exact ⟨_, hLocate⟩

theorem Cpu.getHalf_set (c : Cpu) (r : Register) (v : UInt16) (h : Half) :
    (c.set r v).getHalf h =
      if r = h.register then (if h.high then Word.high v else Word.low v) else c.getHalf h := by
  simp only [getHalf, get_set]
  by_cases hRegister : r = h.register <;> simp only [hRegister, if_true, if_false]

theorem Cpu.getHalf_setHalf (c : Cpu) (h k : Half) (v : UInt8) :
    (c.setHalf h v).getHalf k = if h = k then v else c.getHalf k := by
  obtain ⟨r, high⟩ := h
  obtain ⟨s, other⟩ := k
  by_cases hRegister : r = s
  · subst hRegister
    cases high <;> cases other <;>
      simp [setHalf, getHalf, get_set, Word.low_ofBytes, Word.high_ofBytes]
  · simp [setHalf, getHalf_set, hRegister]

theorem Cpu.set_get (c : Cpu) (r : Register) : c.set r (c.get r) = c := by
  have hRegisters : c.registers.set r.index (c.get r) = c.registers := Vector.set_getElem_self _
  rw [Cpu.set, hRegisters]

theorem Cpu.set_set (c : Cpu) (r : Register) (v w : UInt16) : (c.set r v).set r w = c.set r w := by
  simp only [set, Vector.set_set]

theorem Cpu.set_comm (c : Cpu) {r s : Register} (hDistinct : r ≠ s) (v w : UInt16) :
    (c.set r v).set s w = (c.set s w).set r v := by
  have hIndex : (r.index : Nat) ≠ s.index := by
    cases r <;> cases s <;> first | exact absurd rfl hDistinct | decide
  simp only [set]
  rw [Vector.set_comm _ _ hIndex]

theorem Cpu.setHalf_getHalf (c : Cpu) (h : Half) : c.setHalf h (c.getHalf h) = c := by
  obtain ⟨r, high⟩ := h
  cases high <;> simp [setHalf, getHalf, Word.ofBytes_low_high, set_get]

theorem load_store {w : Width} {place : Location} (h : place.Holds w) (v : BitVec w.bits)
    (m : State) : load (store w place v m) w place = v := by
  cases place with
  | half k =>
      obtain rfl := h
      simp [load, store, Machine.mapCpu, Cpu.getHalf_setHalf]
  | register r =>
      obtain rfl := h
      simp [load, store, Machine.mapCpu, Cpu.get_set]
  | memory a =>
      cases w with
      | byte => simp [load, store, Machine.mapMemory, AddressSpace.byte_setByte]
      | word => simp [load, store, Machine.mapMemory, AddressSpace.word_setWord]
  | constant c => exact h.elim

/-- Storing the value that is there changes nothing. -/
theorem store_load {w : Width} {place : Location} (h : place.Holds w) (m : State) :
    store w place (load m w place) m = m := by
  cases place with
  | half k =>
      obtain rfl := h
      show m.mapCpu (·.setHalf k ⟨((m.cpu.getHalf k).toBitVec.setWidth 8).setWidth 8⟩) = m
      rw [BitVec.setWidth_eq, BitVec.setWidth_eq]
      exact congrArg (Machine.mk · m.memory) (m.cpu.setHalf_getHalf k)
  | register r =>
      obtain rfl := h
      show m.mapCpu (·.set r ⟨((m.cpu.get r).toBitVec.setWidth 16).setWidth 16⟩) = m
      rw [BitVec.setWidth_eq, BitVec.setWidth_eq]
      exact congrArg (Machine.mk · m.memory) (m.cpu.set_get r)
  | memory a =>
      cases w with
      | byte => exact congrArg (Machine.mk m.cpu) (m.memory.setByte_byte a)
      | word => exact congrArg (Machine.mk m.cpu) (m.memory.setWord_word a)
  | constant c => exact h.elim

theorem load_put {w : Width} {place : Location} (h : place.Holds w)
    (result : BitVec w.bits × Flags) (m : State) : load (put place result m) w place = result.1 :=
  load_store h result.1 _

theorem flags_put {w : Width} (place : Location) (result : BitVec w.bits × Flags) (m : State) :
    (put place result m).cpu.flags = result.2 := by
  cases place <;> cases w <;> rfl

namespace Flags

variable {f g : Flags} {changed : List Flag} {flag : Flag} {value : Bool}

theorem bit_put (f : Flags) {i : Nat} (hi : i < 16) (hOther : flag.index ≠ i) :
    Word.bit (f.put flag value).word i = Word.bit f.word i := by
  rw [put, Word.bit_putBit _ _ hi, if_neg hOther]

/-- All flags but the listed ones are the same, and so are the bits that have no meaning. -/
def SameBut (changed : List Flag) (f g : Flags) : Prop :=
  ∀ i < 16, (∀ flag ∈ changed, flag.index ≠ i) → Word.bit g.word i = Word.bit f.word i

theorem SameBut.refl (changed : List Flag) (f : Flags) : SameBut changed f f :=
  fun _ _ _ => rfl

theorem SameBut.put (h : SameBut changed f g) (hFlag : flag ∈ changed) :
    SameBut changed f (g.put flag value) := by
  intro i hi hOther
  rw [bit_put g hi (hOther flag hFlag)]
  exact h i hi hOther

end Flags

/-- The operand is somewhere, and this is the value there. -/
def Reads (m : State) (w : Width) (o : Operand) (v : BitVec w.bits) : Prop :=
  ∃ place, m.cpu.locate o = .ok place ∧ load m w place = v

/-- Everything outside the places is the same in both states, except for the flags. -/
structure ChangesOnly (w : Width) (places : List Location) (m n : State) : Prop where
  halves : ∀ h, (∀ place ∈ places, ¬ place.Covers h) → n.cpu.getHalf h = m.cpu.getHalf h
  memory : AddressSpace.StoresWithin (places.flatMap (·.regions w)) m.memory n.memory
  ip : n.cpu.ip = m.cpu.ip
  entrySp : n.cpu.entrySp = m.cpu.entrySp

theorem changesOnly_setFlags (w : Width) (f : Flags) (m : State) :
    ChangesOnly w [] m (setFlags f m) where
  halves _ _ := rfl
  memory := .refl _ _
  ip := rfl
  entrySp := rfl

theorem changesOnly_put {w : Width} {place : Location} (h : place.Holds w)
    (result : BitVec w.bits × Flags) (m : State) :
    ChangesOnly w [place] m (put place result m) := by
  cases place with
  | half k =>
      refine ⟨fun other hOther => ?_, .refl _ _, rfl, rfl⟩
      have hDistinct : k ≠ other := fun hSame => hOther _ List.mem_cons_self hSame.symm
      exact (Cpu.getHalf_setHalf _ _ _ _).trans (if_neg hDistinct)
  | register r =>
      refine ⟨fun other hOther => ?_, .refl _ _, rfl, rfl⟩
      have hDistinct : r ≠ other.register := fun hSame => hOther _ List.mem_cons_self hSame.symm
      exact (Cpu.getHalf_set _ _ _ _).trans (if_neg hDistinct)
  | memory a =>
      refine ⟨fun _ _ => by cases w <;> rfl, ?_, by cases w <;> rfl, by cases w <;> rfl⟩
      cases w with
      | byte => exact .setByte _ a _
      | word => exact .setWord _ a _
  | constant v => exact h.elim

end VintageUnix.I8086
