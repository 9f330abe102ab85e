import VintageUnix.Proofs.ConditionCodes

/-! How instructions of the PDP-11 step the registers of their operands. What an addressing mode
does is said of one operand in one state; the second operand is resolved in the state that the
first one leaves, and the result goes to the place that was found then. -/
namespace VintageUnix.Pdp11

namespace Operand

/-- The number of the addressing mode in the encoding. -/
def mode : Operand → Nat
  | .register _ => 0
  | .deferred _ => 1
  | .increment _ | .immediate _ => 2
  | .incrementDeferred _ | .absolute _ => 3
  | .decrement _ => 4
  | .decrementDeferred _ => 5
  | .indexed .. | .relative _ => 6
  | .indexedDeferred .. | .relativeDeferred _ => 7

/-- The register that the mode applies to. Where that is the program counter and the operand
follows the instruction, there is none left. -/
def register? : Operand → Option Register
  | .register r | .deferred r | .increment r | .incrementDeferred r | .decrement r
  | .decrementDeferred r | .indexed r _ | .indexedDeferred r _ => some r
  | .immediate _ | .absolute _ | .relative _ | .relativeDeferred _ => none

/-- By how much the mode steps a register: by one byte only where it addresses a byte through
`r0` to `r5`. -/
def stepOf (o : Operand) (w : Width) (r : Register) : UInt16 :=
  if w = .byte ∧ (o.mode = 2 ∨ o.mode = 4) ∧ r.val ≤ 5 then 1 else 2

/-- What the mode adds to its register. -/
def signedStep (o : Operand) (w : Width) (r : Register) : UInt16 :=
  if o.mode = 2 ∨ o.mode = 3 then o.stepOf w r
  else if o.mode = 4 ∨ o.mode = 5 then 0 - o.stepOf w r
  else 0

/-- What the operand adds to a register: nothing, unless it is the one that the mode applies to. -/
def change (o : Operand) (w : Width) (r : Register) : UInt16 :=
  if o.register? = some r then o.signedStep w r else 0

/-- Where the operand is, for the values that it finds in the registers. -/
def locate (memory : AddressSpace) (value : Register → UInt16) : Operand → Location
  | .register r => .register r
  | .deferred r | .increment r | .decrement r => .memory (value r)
  | .incrementDeferred r | .decrementDeferred r => .memory (memory.word (value r))
  | .indexed r x => .memory (value r + x)
  | .indexedDeferred r x => .memory (memory.word (value r + x))
  | .immediate v => .constant v
  | .absolute a | .relative a => .memory a
  | .relativeDeferred a => .memory (memory.word a)

/-- The operand is found at `place`, and the second state is the first one with its register
stepped once: after it was used in the modes 2 and 3, before that in the others. -/
structure Resolves (o : Operand) (w : Width) (place : Location) (m n : State) : Prop where
  place : place = o.locate m.memory (if o.mode = 2 ∨ o.mode = 3 then m.cpu.get else n.cpu.get)
  registers (r : Register) : n.cpu.get r = m.cpu.get r + o.change w r
  memory : n.memory = m.memory
  status : n.cpu.status = m.cpu.status
  entrySp : n.cpu.entrySp = m.cpu.entrySp

/-- The operand has the mode and the register of a field of six bits. The modes that stay on the
program counter are those that do not read behind the instruction. -/
structure IsEncodedBy (o : Operand) (field : UInt16) : Prop where
  mode : o.mode = field.toNat / 8 % 8
  register : o.register?.getD .pc = Register.ofField field
  extension : o.register? = none ↔ Register.ofField field = .pc ∧ o.mode ∈ [2, 3, 6, 7]

end Operand

theorem stepSize_eq (r : Register) (w : Width) :
    stepSize r w = if w = .byte ∧ r.val ≤ 5 then 1 else 2 := by
  have hBelow : r < Register.sp ↔ r.val ≤ 5 := Nat.lt_succ_iff
  cases w <;> simp [stepSize, hBelow, Width.size]

/-- It is enough that the register of the mode is stepped. -/
theorem get_stepped {o : Operand} {w : Width} {m : State} {r : Register} {v : UInt16}
    (hRegister : o.register? = some r) (hStep : v = m.cpu.get r + o.signedStep w r) (s : Register) :
    (setRegister r v m).cpu.get s = m.cpu.get s + o.change w s := by
  rw [setRegister, Machine.mapCpu, Cpu.get_set, Operand.change, hRegister]
  by_cases hSame : r = s
  · subst hSame
    simp [hStep]
  · simp [hSame]

theorem get_resolve (o : Operand) (w : Width) (m : State) (s : Register) :
    (resolve o w m).2.cpu.get s = m.cpu.get s + o.change w s := by
  cases o with
  | increment r =>
      apply get_stepped rfl
      simp [Operand.signedStep, Operand.stepOf, Operand.mode, stepSize_eq]
  | incrementDeferred r =>
      apply get_stepped rfl
      simp [Operand.signedStep, Operand.stepOf, Operand.mode]
  | decrement r =>
      apply get_stepped rfl
      simp [Operand.signedStep, Operand.stepOf, Operand.mode, stepSize_eq, UInt16.sub_eq_add_neg]
  | decrementDeferred r =>
      apply get_stepped rfl
      simp [Operand.signedStep, Operand.stepOf, Operand.mode, UInt16.sub_eq_add_neg]
  | _ => simp [resolve, Operand.change, Operand.register?, Operand.signedStep, Operand.mode]

theorem resolves_resolve (o : Operand) (w : Width) (m : State) :
    o.Resolves w (resolve o w m).1 m (resolve o w m).2 := by
  constructor
  case registers => exact get_resolve o w m
  case memory => exact memory_resolve m o w
  case status => exact status_resolve o w m
  case entrySp => cases o <;> rfl
  case place =>
    cases o <;>
      simp [resolve, Operand.locate, Operand.mode, setRegister, Machine.mapCpu, Cpu.get_set]

namespace Operand.IsEncodedBy

variable {o : Operand} {field : UInt16}

theorem plain (hMode : o.mode = field.toNat / 8 % 8)
    (hRegister : o.register? = some (Register.ofField field))
    (hPlain : ¬ (Register.ofField field = .pc ∧ o.mode ∈ [2, 3, 6, 7])) : o.IsEncodedBy field := by
  refine ⟨hMode, by simp [hRegister], ?_⟩
  simp only [hRegister, reduceCtorEq, false_iff]
  exact hPlain

/-- On the program counter the operand is what follows. -/
theorem behind (hMode : o.mode = field.toNat / 8 % 8) (hRegister : o.register? = none)
    (hPc : Register.ofField field = .pc) (hBehind : o.mode ∈ [2, 3, 6, 7]) :
    o.IsEncodedBy field := by
  refine ⟨hMode, ?_, ?_⟩
  · rw [hRegister, hPc]
    rfl
  · simp only [hRegister, true_iff]
    exact ⟨hPc, hBehind⟩

theorem ite {p : Operand} {next length : UInt16} (hMode : o.mode = field.toNat / 8 % 8)
    (hBehind : o.mode ∈ [2, 3, 6, 7]) (hNone : o.register? = none) (hSame : p.mode = o.mode)
    (hRegister : p.register? = some (Register.ofField field)) :
    (if Register.ofField field = .pc then (o, next) else (p, length)).1.IsEncodedBy field := by
  split
  next hPc => exact behind hMode hNone hPc hBehind
  next hPc => exact plain (hSame.trans hMode) hRegister fun h => hPc h.1

end Operand.IsEncodedBy

open Operand (IsEncodedBy)

theorem toNat_mode_field (field : UInt16) :
    ((field >>> 3) &&& 7).toNat = field.toNat / 8 % 8 := by
  simp [Nat.shiftRight_eq_div_pow, Nat.and_two_pow_sub_one_eq_mod _ 3]

theorem isEncodedBy_operand (code : VintageUnix.Code) (start field length : UInt16) :
    (operand code start field length).1.IsEncodedBy field := by
  have hMode := toNat_mode_field field
  simp only [operand]
  generalize (field >>> 3) &&& 7 = mode at hMode
  split
  next => exact .plain hMode rfl (by simp [Operand.mode])
  next => exact .plain hMode rfl (by simp [Operand.mode])
  next => exact .ite hMode (by simp [Operand.mode]) rfl rfl rfl
  next => exact .ite hMode (by simp [Operand.mode]) rfl rfl rfl
  next => exact .plain hMode rfl (by simp [Operand.mode])
  next => exact .plain hMode rfl (by simp [Operand.mode])
  next => exact .ite hMode (by simp [Operand.mode]) rfl rfl rfl
  next h₀ h₁ h₂ h₃ h₄ h₅ h₆ =>
    -- The match has no case for seven, which is what is left below eight.
    have hSeven : 7 = field.toNat / 8 % 8 := by
      have hLt := Nat.mod_lt (field.toNat / 8) (show 0 < 8 by decide)
      simp only [← UInt16.toNat_inj, UInt16.reduceToNat, imp_false] at h₀ h₁ h₂ h₃ h₄ h₅ h₆
      omega
    exact .ite hSeven (by simp [Operand.mode]) rfl rfl rfl

/-- The operands of the operation are encoded by the low bits of the first word, a source by the
bits above. -/
def Operation.IsEncodedBy (first : UInt16) : Operation → Prop
  | .double _ _ s d => s.IsEncodedBy (first >>> 6) ∧ d.IsEncodedBy first
  | .single _ _ d | .swab d | .sxt d => d.IsEncodedBy first
  | _ => True

/-- Whatever the operands turn out to be, the form puts them where their fields say. -/
def Form.ReadsFields (first : UInt16) : Form → Prop
  | .complete op => op.IsEncodedBy first
  | .one field op => ∀ d, d.IsEncodedBy field → (op d).IsEncodedBy first
  | .two source destination op =>
    ∀ s d, s.IsEncodedBy source → d.IsEncodedBy destination → (op s d).IsEncodedBy first
  | .near _ op => ∀ target, (op target).IsEncodedBy first

namespace Form

theorem readsFields_doubleGroup (w : UInt16) : (doubleGroup w).ReadsFields w := by
  simp only [doubleGroup]
  split <;> try split
  all_goals exact fun _ _ => And.intro

theorem readsFields_extendedGroup (w : UInt16) : (extendedGroup w).ReadsFields w := by
  simp only [extendedGroup]
  split <;> simp [ReadsFields, Operation.IsEncodedBy]

theorem readsFields_branchGroup (w : UInt16) : (branchGroup w).ReadsFields w := by
  simp only [branchGroup]
  split <;> simp [ReadsFields, Operation.IsEncodedBy]

theorem readsFields_controlGroup (w : UInt16) : (controlGroup w).ReadsFields w := by
  unfold controlGroup
  repeat' split
  all_goals simp [ReadsFields, Operation.IsEncodedBy]

theorem readsFields_singleGroup (w : UInt16) : (singleGroup w).ReadsFields w := by
  simp only [singleGroup]
  split <;> try split
  all_goals simp [ReadsFields, Operation.IsEncodedBy]

theorem readsFields_callGroup (w : UInt16) : (callGroup w).ReadsFields w := by
  unfold callGroup
  repeat' split
  all_goals simp [ReadsFields, Operation.IsEncodedBy]

theorem readsFields_ofWord (w : UInt16) : (ofWord w).ReadsFields w := by
  unfold ofWord
  split
  · split
    · exact readsFields_controlGroup w
    · split
      · exact readsFields_branchGroup w
      · split
        · exact readsFields_callGroup w
        · exact readsFields_singleGroup w
  · split
    · exact fun _ _ => trivial
    · exact readsFields_extendedGroup w
  · exact readsFields_doubleGroup w

end Form

theorem isEncodedBy_decode (code : VintageUnix.Code) (start : UInt16) :
    (decode code start).operation.IsEncodedBy (code.word start) := by
  have hFields := Form.readsFields_ofWord (code.word start)
  unfold decode
  generalize Form.ofWord (code.word start) = form at hFields
  cases form with
  | complete op => exact hFields
  | one field op => exact hFields _ (isEncodedBy_operand code start field 2)
  | two source destination op =>
      apply hFields
      · exact isEncodedBy_operand code start source 2
      · exact isEncodedBy_operand code start destination _
  | near distance op => exact hFields _

namespace Status

/-- The statuses differ in their condition codes only. -/
def SameButCodes (s t : Status) : Prop :=
  ∀ i < 16, 4 ≤ i → Word.bit t.word i = Word.bit s.word i

namespace SameButCodes

variable {n : Nat} {s t : Status}

theorem refl (s : Status) : SameButCodes s s :=
  fun _ _ _ => rfl

theorem put (h : SameButCodes s t) (code : Code) (value : Bool) :
    SameButCodes s (t.put code value) :=
  fun i hi hOther => (bit_put t hi hOther).trans (h i hi hOther)

theorem putArithmetic (h : SameButCodes s t) (overflow carry : Bool) :
    SameButCodes s (t.putArithmetic overflow carry) :=
  (h.put _ _).put _ _

theorem describe (s : Status) (r : BitVec n) : SameButCodes s (s.describe r) :=
  (((refl s).put _ _).put _ _).put _ _

end SameButCodes
end Status

open Status (SameButCodes)

theorem Double.sameButCodes_compute {n : Nat} (op : Double) (s : Status) (x y : BitVec n) :
    SameButCodes s (op.compute s x y).2 := by
  cases op with
  | mov | bit | bic | bis => exact .describe s _
  | cmp | add | sub => exact (SameButCodes.describe s _).putArithmetic _ _

theorem Single.sameButCodes_compute {n : Nat} (op : Single) (s : Status) (x : BitVec n) :
    SameButCodes s (op.compute s x).2 := by
  cases op with
  | clr | com | tst | inc | dec => exact (SameButCodes.describe s _).put _ _
  | neg | adc | sbc | ror | rol | asr | asl => exact (SameButCodes.describe s _).putArithmetic _ _

/-- The operations on one operand. -/
inductive Unary where
  | single (op : Single) (w : Width)
  | swab
  | sxt
  deriving DecidableEq, Repr

namespace Unary

/-- The operation as an instruction has it. -/
def operation (op : Unary) (destination : Operand) : Operation :=
  match op with
  | .single op w => .single op w destination
  | .swab => .swab destination
  | .sxt => .sxt destination

def width : Unary → Width
  | .single _ w => w
  | .swab | .sxt => .word

/-- Whether the result is stored. -/
def stores : Unary → Bool
  | .single op _ => op.stores
  | .swab | .sxt => true

/-- The result for the value of the operand, and the status after it. -/
def compute (op : Unary) (s : Status) (x : BitVec op.width.bits) :
    BitVec op.width.bits × Status :=
  match op with
  | .single op _ => op.compute s x
  | .swab =>
    let r := Word.ofBytes (Word.high ⟨x⟩) (Word.low ⟨x⟩)
    (r.toBitVec, (s.describe (Word.low r).toBitVec).put .carry false)
  | .sxt =>
    let negative := s.get .negative
    (if negative then BitVec.allOnes 16 else 0, (s.put .zero !negative).put .overflow false)

theorem sameButCodes_compute (op : Unary) (s : Status) (x : BitVec op.width.bits) :
    SameButCodes s (op.compute s x).2 := by
  cases op with
  | single op w => exact op.sameButCodes_compute s x
  | swab => exact (SameButCodes.describe s _).put _ _
  | sxt => exact ((SameButCodes.refl s).put _ _).put _ _

end Unary

/-- The status may be replaced before or after the result is stored. -/
theorem setStatus_store (w : Width) (place : Location) (v : BitVec w.bits) (status : Status)
    (m : State) : setStatus status (store w place v m) = store w place v (setStatus status m) := by
  cases place <;> cases w <;> rfl

theorem execute_unary (op : Unary) (d : Operand) (length : UInt16) (m : State) :
    let o := Operands.one op.width d m
    execute ⟨op.operation d, length⟩ m =
      (o.finish op.stores (op.compute m.cpu.status o.value)).proceed := by
  intro o
  cases op with
  | single op w => exact execute_single op w d length m
  | swab =>
      rw [← Operands.status_one .word d m]
      exact congrArg Machine.proceed (setStatus_store _ _ _ _ _)
  | sxt =>
      rw [← Operands.status_one .word d m]
      exact congrArg Machine.proceed (setStatus_store _ _ _ _ _)

/-- The width of what is stored. A byte that is moved to a register fills all of it. -/
def Double.storedWidth (op : Double) (w : Width) : Location → Width
  | .register _ => if op = .mov then .word else w
  | _ => w

/-- The result, if there is one to be stored, is in the place, and only the condition codes and
the place are not as in the first state. A constant is no place to store anything. -/
structure Completes (w : Width) (place : Location) (result : Option (BitVec w.bits))
    (after : Status) (m n : State) : Prop where
  status : n.cpu.status = after
  codes : SameButCodes m.cpu.status after
  stored (v : BitVec w.bits) : result = some v → Stored w place v m n
  unstored : result = none ∨ (∃ c, place = .constant c) → n = setStatus after m

/-- The result if it is stored. -/
def stored? {w : Width} (stores : Bool) (v : BitVec w.bits) : Option (BitVec w.bits) :=
  if stores then some v else none

theorem completes_finish {w : Width} (o : Operands w) (stores : Bool)
    (result : BitVec w.bits × Status) (hCodes : SameButCodes o.state.cpu.status result.2) :
    Completes w o.place (stored? stores result.1) result.2 o.state (o.finish stores result) := by
  constructor
  case status => exact o.status_finish result stores
  case codes => exact hCodes
  case stored =>
    intro v hResult
    cases stores with
    | true =>
        obtain rfl := Option.some.inj hResult
        exact o.stored_finish result
    | false => cases hResult
  case unstored =>
    intro hUnstored
    cases stores with
    | true =>
        obtain hNone | ⟨c, hPlace⟩ := hUnstored
        · cases hNone
        · rw [Operands.finish, if_pos rfl, hPlace]
          rfl
    | false => rfl

theorem Operands.resolves_one (w : Width) (d : Operand) (m : State) :
    d.Resolves w (one w d m).place m (one w d m).state :=
  resolves_resolve d w m

theorem Operands.resolves_two (w : Width) (s d : Operand) (m : State) :
    let source := resolve s w m
    s.Resolves w source.1 m source.2 ∧
      d.Resolves w (two w s d m).place source.2 (two w s d m).state :=
  ⟨resolves_resolve s w m, resolves_resolve d w _⟩

theorem storeMoved_eq (w : Width) (place : Location) (v : BitVec w.bits) (m : State) :
    let width := Double.mov.storedWidth w place
    storeMoved w place v m = store width place (v.signExtend width.bits) m := by
  cases place <;> cases w <;>
    simp [storeMoved, store, Double.storedWidth, Width.bits, BitVec.signExtend_eq]

/-- All operations end alike, once a moved byte is taken for the word that it is stored as. -/
theorem execute_double_finish (op : Double) (w : Width) (s d : Operand) (length : UInt16)
    (m : State) :
    let o := Operands.two w s d m
    let result := op.compute m.cpu.status o.source o.value
    let width := op.storedWidth w o.place
    let stored : Operands width := { place := o.place, state := o.state }
    execute ⟨.double op w s d, length⟩ m =
      (stored.finish op.stores (result.1.signExtend width.bits, result.2)).proceed := by
  intro o result width stored
  by_cases hMove : op = .mov
  · subst hMove
    have hResult : result = Double.mov.compute o.state.cpu.status o.source o.value := by
      rw [Operands.status_two]
    calc execute ⟨.double .mov w s d, length⟩ m
      _ = (storeMoved w o.place result.1 (setStatus result.2 o.state)).proceed := by
        rw [hResult]
        rfl
      _ = _ := by
        rw [storeMoved_eq]
        rfl
  · have hWidth : width = w := by
      simp only [width, Double.storedWidth, if_neg hMove]
      split <;> rfl
    rw [execute_double hMove]
    apply congrArg Machine.proceed
    revert stored
    rw [hWidth, BitVec.signExtend_eq]
    intro stored
    rfl

theorem double_completes (op : Double) (w : Width) (s d : Operand) (length : UInt16) (m : State) :
    ∃ (m₁ m₂ n : State) (source place : Location),
      s.Resolves w source m m₁ ∧ d.Resolves w place m₁ m₂ ∧
      execute ⟨.double op w s d, length⟩ m = n.proceed ∧
      let result := op.compute m.cpu.status (load m₁ w source) (load m₂ w place)
      let width := op.storedWidth w place
      Completes width place (stored? op.stores (result.1.signExtend width.bits)) result.2 m₂ n := by
  let o := Operands.two w s d m
  let result := op.compute m.cpu.status o.source o.value
  let width := op.storedWidth w o.place
  let stored : Operands width := { place := o.place, state := o.state }
  have hCodes : SameButCodes o.state.cpu.status result.2 := by
    rw [Operands.status_two]
    exact op.sameButCodes_compute _ _ _
  obtain ⟨hSource, hPlace⟩ := Operands.resolves_two w s d m
  exact ⟨_, o.state, _, _, o.place, hSource, hPlace, execute_double_finish op w s d length m,
    completes_finish stored op.stores (result.1.signExtend width.bits, result.2) hCodes⟩

theorem unary_completes (op : Unary) (d : Operand) (length : UInt16) (m : State) :
    ∃ (m₁ n : State) (place : Location),
      d.Resolves op.width place m m₁ ∧ execute ⟨op.operation d, length⟩ m = n.proceed ∧
      let result := op.compute m.cpu.status (load m₁ op.width place)
      Completes op.width place (stored? op.stores result.1) result.2 m₁ n := by
  let o := Operands.one op.width d m
  let result := op.compute m.cpu.status o.value
  have hCodes : SameButCodes o.state.cpu.status result.2 := by
    rw [Operands.status_one]
    exact op.sameButCodes_compute _ _
  exact ⟨o.state, _, o.place, Operands.resolves_one op.width d m, execute_unary op d length m,
    completes_finish o op.stores result hCodes⟩

/-- The operands of an instruction are resolved once each and in order, for operands of any mode
and width in every state. The source is found, its register stepped and its value read; then the
destination is found in the state that this leaves. The result goes to the place where the
destination was found, whatever became of the pointer that led there, and a constant takes none.
Otherwise only the condition codes change. Decoding gives operands the mode and the register that
their fields say. -/
theorem operands_step_once_and_in_order (length : UInt16) (m : State) :
    (∀ (op : Double) (w : Width) (s d : Operand),
      ∃ (m₁ m₂ n : State) (source place : Location),
        s.Resolves w source m m₁ ∧ d.Resolves w place m₁ m₂ ∧
        execute ⟨.double op w s d, length⟩ m = n.proceed ∧
        let result := op.compute m.cpu.status (load m₁ w source) (load m₂ w place)
        let width := op.storedWidth w place
        Completes width place (stored? op.stores (result.1.signExtend width.bits)) result.2
          m₂ n) ∧
    (∀ (op : Unary) (d : Operand), ∃ (m₁ n : State) (place : Location),
      d.Resolves op.width place m m₁ ∧ execute ⟨op.operation d, length⟩ m = n.proceed ∧
      let result := op.compute m.cpu.status (load m₁ op.width place)
      Completes op.width place (stored? op.stores result.1) result.2 m₁ n) ∧
    (∀ (code : VintageUnix.Code) (start : UInt16),
      (∀ op w s d, (decode code start).operation = .double op w s d →
        s.IsEncodedBy (code.word start >>> 6) ∧ d.IsEncodedBy (code.word start)) ∧
      (∀ (op : Unary) (d : Operand), (decode code start).operation = op.operation d →
        d.IsEncodedBy (code.word start))) := by
  refine ⟨fun op w s d => ?_, fun op d => ?_, fun code start => ⟨?_, ?_⟩⟩
  · exact double_completes op w s d length m
  · exact unary_completes op d length m
  · intro op w s d hOperation
    have hEncoded := isEncodedBy_decode code start
    rw [hOperation] at hEncoded
    exact hEncoded
  · intro op d hOperation
    have hEncoded := isEncodedBy_decode code start
    rw [hOperation] at hEncoded
    cases op <;> exact hEncoded

/-- The word 062141, which adds the word behind `r1` to itself: `add (r1)+, -(r1)`. -/
private abbrev addToItself : VintageUnix.Code :=
  fun address => if address = 0 then 0x61 else 0x64

private abbrev fiveBehindPointer : State where
  cpu := ({} : Cpu).set .r1 0x100
  memory := ({ layout := .shared .zero } : AddressSpace).setWord 0x100 5

/-- The destination sees the step of the source: the register steps up and down again, and the
word is added to itself. -/
theorem operands_step_once_and_in_order_shared :
    (Operand.decrement .r1).IsEncodedBy 0o062141 ∧
    ∃ n : State,
      execute ⟨.double .add .word (.increment .r1) (.decrement .r1), 2⟩ fiveBehindPointer =
        n.proceed ∧ n.cpu.get .r1 = 0x100 ∧ n.memory.word 0x100 = 10 := by
  obtain ⟨hDouble, -, hDecode⟩ := operands_step_once_and_in_order 2 fiveBehindPointer
  obtain ⟨-, hEncoded⟩ :=
    (hDecode addToItself 0).1 .add .word (.increment .r1) (.decrement .r1) (by decide)
  obtain ⟨m₁, m₂, n, source, place, hSource, hPlace, hExecute, hCompletes⟩ :=
    hDouble .add .word (.increment .r1) (.decrement .r1)
  have hStored := hCompletes.stored _ rfl
  have hUp : m₁.cpu.get .r1 = 0x102 := (hSource.registers .r1).trans (by decide)
  have hDown : m₂.cpu.get .r1 = 0x100 := by
    rw [hPlace.registers, hUp]
    decide
  have hFrom : source = .memory 0x100 := hSource.place
  have hTo : place = .memory 0x100 := hPlace.place.trans (congrArg Location.memory hDown)
  have hFirst : m₁.memory.word 0x100 = 5 := by
    rw [hSource.memory]
    exact AddressSpace.word_setWord { layout := .shared .zero } 0x100 5
  have hSecond : m₂.memory.word 0x100 = 5 := by rw [hPlace.memory, hFirst]
  subst hFrom hTo
  refine ⟨hEncoded, n, hExecute, ?_, ?_⟩
  · rw [hStored.registers .r1 nofun, hDown]
  · have hSum : load n .word (.memory 0x100) =
        ((load m₁ .word (.memory 0x100) + load m₂ .word (.memory 0x100)).signExtend 16) :=
      hStored.value nofun
    apply UInt16.toBitVec_inj.1
    rw [show (n.memory.word 0x100).toBitVec = load n .word (.memory 0x100) from rfl, hSum]
    simp only [load, hFirst, hSecond]
    decide

end VintageUnix.Pdp11
