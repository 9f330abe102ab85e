import VintageUnix.I8086.Execution
import VintageUnix.Proofs.InstructionBytes

/-! Folding the modifiers into the instruction behind them is a shortcut and no more. It finds the
modifiers that plain decoding finds one by one, and executing the folded instruction does what
executing all of these in turn does. Repeated string instructions are the exception and the
reason for folding: there the modifier has a meaning, which it loses when it stands alone. -/
namespace VintageUnix.I8086

/-- The modifier that a byte stands for. -/
def Modifier.ofByte? : UInt8 → Option Modifier
  | 0x26 => some (.segment .es)
  | 0x2e => some (.segment .cs)
  | 0x36 => some (.segment .ss)
  | 0x3e => some (.segment .ds)
  | 0xf0 => some .lock
  | 0xf2 => some .repne
  | 0xf3 => some .rep
  | _ => none

/-- The modifiers from `start` on, up to the first byte that is none, and at most
`limit` of them. -/
def modifiersAt (c : Code) (start : UInt16) : (limit : Nat) → List Modifier
  | 0 => []
  | limit + 1 =>
    match Modifier.ofByte? (c start) with
    | some m => m :: modifiersAt c (start + 1) limit
    | none => []

/-- The instruction that a modifier is by itself. -/
def Modifier.alone (m : Modifier) : Instruction where
  operation := .modifier m
  length := 1

/-- Of several modifiers the first repetition counts, and the last one if there is none. -/
def Modifier.effective (ms : List Modifier) : Option Modifier :=
  (ms.find? Modifier.isRepeat).or ms.getLast?

/-- The modifier of a form that has no other bytes. -/
def Form.modifier? : Form → Option Modifier
  | .complete _ (.modifier m) => some m
  | _ => none

namespace Form

theorem modifier?_ofOpcode (b : UInt8) : (ofOpcode b).modifier? = Modifier.ofByte? b := by
  have hBytes : ∀ i : Fin 256, (ofOpcode (.ofNat i)).modifier? = Modifier.ofByte? (.ofNat i) := by
    decide +kernel
  simpa using hBytes ⟨b.toNat, b.toNat_lt⟩

theorem eq_of_modifier? {form : Form} {m : Modifier} (hRegular : form.Regular)
    (h : form.modifier? = some m) : form = .complete 1 (.modifier m) := by
  unfold modifier? at h
  split at h
  · obtain rfl := Option.some.inj h
    rcases hRegular with rfl | ⟨-, hOther⟩
    · rfl
    · exact absurd rfl (hOther _)
  · cases h

theorem ofOption_ne_modifier {length : UInt16} {op : Option Operation} {m : Modifier}
    (h : op ≠ some (.modifier m)) :
    (Instruction.ofOption length op).operation ≠ .modifier m := by
  cases op with
  | none => simp [Instruction.ofOption, Instruction.undefined]
  | some op => simpa [Instruction.ofOption] using h

theorem decode_ne_modifier {form : Form} (hRegular : form.Regular) (h : form.modifier? = none)
    (c : Code) (start : UInt16) (m : Modifier) :
    (form.decode c start).operation ≠ .modifier m := by
  cases form <;> simp only [Regular] at hRegular
  case complete length op =>
    rintro rfl
    simp [modifier?] at h
  case undefined => simp [decode, Instruction.undefined]
  case baseTen op =>
    refine ofOption_ne_modifier ?_
    split <;> simp [hRegular]
  case fieldsOrTest w op =>
    rw [decode_fieldsOrTest]
    refine ofOption_ne_modifier ?_
    split <;> simp [hRegular]
  case fields | fieldsByte | fieldsWord => exact ofOption_ne_modifier (by simp [hRegular])
  all_goals simp [decode, hRegular]

theorem modifier_ofOption (length : UInt16) (op : Option Operation) :
    (Instruction.ofOption length op).modifier = none := by
  cases op <;> rfl

/-- Plain decoding folds nothing. -/
theorem modifier_decode (form : Form) (c : Code) (start : UInt16) :
    (form.decode c start).modifier = none := by
  cases form
  case fieldsOrTest w op => rw [decode_fieldsOrTest, modifier_ofOption]
  case baseTen | fields | fieldsByte | fieldsWord => exact modifier_ofOption _ _
  all_goals rfl

end Form

variable {c : Code} {start : UInt16}

theorem decode_of_modifier {m : Modifier} (h : Modifier.ofByte? (c start) = some m) :
    decode c start = m.alone := by
  rw [← Form.modifier?_ofOpcode] at h
  rw [decode, Form.eq_of_modifier? (Form.regular_ofOpcode _) h]
  rfl

theorem decode_of_not_modifier (h : Modifier.ofByte? (c start) = none) (m : Modifier) :
    (decode c start).operation ≠ .modifier m := by
  rw [← Form.modifier?_ofOpcode] at h
  exact Form.decode_ne_modifier (Form.regular_ofOpcode _) h c start m

theorem modifiersAt_of_modifier {m : Modifier} (h : Modifier.ofByte? (c start) = some m)
    (limit : Nat) : modifiersAt c start (limit + 1) = m :: modifiersAt c (start + 1) limit := by
  simp [modifiersAt, h]

theorem modifiersAt_of_not_modifier (h : Modifier.ofByte? (c start) = none) (limit : Nat) :
    modifiersAt c start limit = [] := by
  cases limit <;> simp [modifiersAt, h]

theorem length_modifiersAt_le (c : Code) (start : UInt16) (limit : Nat) :
    (modifiersAt c start limit).length ≤ limit := by
  induction limit generalizing start with
  | zero => simp [modifiersAt]
  | succ limit ih =>
      cases h : Modifier.ofByte? (c start) with
      | none => simp [modifiersAt_of_not_modifier h]
      | some m => simpa [modifiersAt_of_modifier h] using ih (start + 1)

theorem add_ofNat_succ (start : UInt16) (i : Nat) :
    start + .ofNat (i + 1) = start + 1 + .ofNat i := by
  rw [UInt16.ofNat_add, UInt16.add_comm (.ofNat i), UInt16.add_assoc]
  rfl

/-- Every byte counted is the modifier that it is counted as. -/
theorem ofByte?_of_lt_modifiersAt {limit i : Nat} (h : i < (modifiersAt c start limit).length) :
    Modifier.ofByte? (c (start + .ofNat i)) = some (modifiersAt c start limit)[i] := by
  induction limit generalizing start i with
  | zero => simp [modifiersAt] at h
  | succ limit ih =>
      cases hFirst : Modifier.ofByte? (c start) with
      | none => simp [modifiersAt_of_not_modifier hFirst] at h
      | some m =>
          simp only [modifiersAt_of_modifier hFirst] at h ⊢
          cases i with
          | zero => simpa using hFirst
          | succ i =>
              rw [add_ofNat_succ]
              exact ih (Nat.lt_of_succ_lt_succ h)

/-- Counting stops only at the limit or before a byte that is no modifier. -/
theorem ofByte?_length_modifiersAt {limit : Nat}
    (h : (modifiersAt c start limit).length < limit) :
    Modifier.ofByte? (c (start + .ofNat (modifiersAt c start limit).length)) = none := by
  induction limit generalizing start with
  | zero => simp at h
  | succ limit ih =>
      cases hFirst : Modifier.ofByte? (c start) with
      | none => simpa [modifiersAt_of_not_modifier hFirst] using hFirst
      | some m =>
          simp only [modifiersAt_of_modifier hFirst, List.length_cons] at h ⊢
          rw [add_ofNat_succ]
          exact ih (Nat.lt_of_succ_lt_succ h)

/-- Combining from left to right keeps a repetition once there is one. -/
theorem foldl_combine_some (m : Modifier) (ms : List Modifier) :
    ms.foldl Modifier.combine (some m) = Modifier.effective (m :: ms) := by
  induction ms generalizing m with
  | nil => cases h : m.isRepeat <;> simp [Modifier.effective, h]
  | cons next ms ih =>
      by_cases h : m.isRepeat
      · have hKept : Modifier.combine (some m) next = some m := by simp [Modifier.combine, h]
        rw [List.foldl_cons, hKept, ih]
        simp [Modifier.effective, h]
      · have hReplaced : Modifier.combine (some m) next = some next := by
          simp [Modifier.combine, h]
        rw [List.foldl_cons, hReplaced, ih]
        simp [Modifier.effective, h]

theorem foldl_combine (ms : List Modifier) :
    ms.foldl Modifier.combine none = Modifier.effective ms := by
  cases ms with
  | nil => rfl
  | cons m ms => exact foldl_combine_some m ms

theorem fold_eq (c : Code) (start : UInt16) (budget : Nat) (length : UInt16)
    (earlier : Option Modifier) :
    let ms := modifiersAt c (start + length) budget
    fold c start budget length earlier =
      behindModifiers c start (length + .ofNat ms.length) (ms.foldl Modifier.combine earlier) := by
  induction budget generalizing length earlier with
  | zero => simp [modifiersAt, fold, behindModifiers]
  | succ budget ih =>
      cases h : Modifier.ofByte? (c (start + length)) with
      | none =>
          rw [fold_of_not_modifier (decode_of_not_modifier h), modifiersAt_of_not_modifier h]
          simp
      | some m =>
          have hModifier : (decode c (start + length)).operation = .modifier m := by
            rw [decode_of_modifier h, Modifier.alone]
          rw [fold_of_modifier hModifier, ih, modifiersAt_of_modifier h]
          simp only [List.length_cons, List.foldl_cons, add_ofNat_succ, UInt16.add_assoc]

/-- Folding finds the plain instruction behind the modifiers. -/
theorem decodeFolded_eq (c : Code) (start : UInt16) :
    let ms := modifiersAt c start maxModifiers
    decodeFolded c start =
      behindModifiers c start (.ofNat ms.length) (Modifier.effective ms) := by
  simp only [decodeFolded, fold_eq, UInt16.add_zero, UInt16.zero_add, foldl_combine]

/-- Move the instruction pointer up and leave everything else. -/
def skip (count : UInt16) (m : State) : State :=
  m.mapCpu fun c => { c with ip := c.ip + count }

/-- Execute an instruction with the instruction pointer first moved past it. -/
def executePast (i : Instruction) (m : State) : Outcome Cpu :=
  execute i (skip i.length m)

/-- Execute instructions one after the other, until one of them traps, faults or ends the
program. -/
def executeInTurn : List Instruction → State → Outcome Cpu
  | [], m => m.proceed
  | i :: rest, m =>
    match executePast i m with
    | (next, .ok .proceed) => executeInTurn rest next
    | stopped => stopped

/-- Whether an instruction repeats a string operation. -/
def Instruction.isRepeatedString (i : Instruction) : Bool :=
  match i.operation, i.modifier with
  | .block .., some m => m.isRepeat
  | _, _ => false

theorem skip_skip (first second : UInt16) (m : State) :
    skip second (skip first m) = skip (first + second) m := by
  simp [skip, Machine.mapCpu, UInt16.add_assoc]

theorem skip_zero (m : State) : skip 0 m = m := by
  simp [skip, Machine.mapCpu]

theorem executeInTurn_singleton (i : Instruction) (m : State) :
    executeInTurn [i] m = executePast i m := by
  simp only [executeInTurn]
  split
  next next hProceed => exact hProceed.symm
  next => rfl

/-- A modifier that stands alone only takes up its byte. -/
theorem executeInTurn_alone (modifier : Modifier) (rest : List Instruction) (m : State) :
    executeInTurn (modifier.alone :: rest) m = executeInTurn rest (skip 1 m) :=
  rfl

theorem executeInTurn_modifiers (ms : List Modifier) (rest : List Instruction) (m : State) :
    executeInTurn (ms.map Modifier.alone ++ rest) m =
      executeInTurn rest (skip (.ofNat ms.length) m) := by
  induction ms generalizing m with
  | nil => simp [skip_zero]
  | cons x ms ih =>
      rw [List.map_cons, List.cons_append, executeInTurn_alone, ih, skip_skip,
        List.length_cons, UInt16.ofNat_add, UInt16.add_comm]
      rfl

/-- Only string instructions look at their modifier, and only at a repetition. -/
theorem execute_modifier {i : Instruction} {length : UInt16} {modifier : Option Modifier}
    (hPlain : i.modifier = none)
    (h : ({ i with length, modifier } : Instruction).isRepeatedString = false) (m : State) :
    execute { i with length, modifier } m = execute i m := by
  obtain ⟨op, _, _⟩ := i
  obtain rfl := hPlain
  cases op
  case block op w =>
    cases modifier with
    | none => rfl
    | some x =>
        simp only [Instruction.isRepeatedString] at h
        simp [execute, block, h]
  case ret drop => cases drop <;> rfl
  all_goals rfl

/-- The modifiers in front take up their bytes and do nothing else. -/
theorem executePast_behindModifiers {length : UInt16} {modifier : Option Modifier}
    (h : (behindModifiers c start length modifier).isRepeatedString = false) (m : State) :
    executePast (behindModifiers c start length modifier) m =
      executePast (decode c (start + length)) (skip length m) := by
  have hPlain : (decode c (start + length)).modifier = none := Form.modifier_decode _ c _
  rw [executePast, executePast, skip_skip, UInt16.add_comm length]
  exact execute_modifier hPlain h _

/-- Plain decoding finds the modifiers one by one and then the instruction behind them. -/
theorem map_decode_modifiersAt (c : Code) (start : UInt16) (limit : Nat) :
    let ms := modifiersAt c start limit
    ((List.range (ms.length + 1)).map fun i => decode c (start + .ofNat i)) =
      ms.map Modifier.alone ++ [decode c (start + .ofNat ms.length)] := by
  intro ms
  have hModifiers : ((List.range ms.length).map fun i => decode c (start + .ofNat i)) =
      ms.map Modifier.alone := by
    refine List.ext_getElem (by simp) fun i hi _ => ?_
    have hCounted : i < (modifiersAt c start limit).length := by simpa using hi
    simpa using decode_of_modifier (ofByte?_of_lt_modifiersAt hCounted)
  rw [List.range_succ, List.map_append, hModifiers, List.map_singleton]

/-- Folding the modifiers into an instruction agrees with plain decoding and execution. For any
code and any start, the modifiers counted are the bytes from there on that stand for one, at
most fifteen; plain decoding finds each of them as an instruction of one byte. The folded
instruction is the plain one behind them, longer by their number, with the first repetition
as its modifier, or else the last modifier. Unless it is a repeated string instruction,
executing it does to every machine what executing all the plain ones in turn does, each with
the instruction pointer first moved past it, and leaves the same event or fault. -/
theorem folding_agrees_with_plain_instructions (c : Code) (start : UInt16) :
    let ms := modifiersAt c start maxModifiers
    let plain := decode c (start + .ofNat ms.length)
    ms.length ≤ 15 ∧
    (∀ i, (h : i < ms.length) →
      Modifier.ofByte? (c (start + .ofNat i)) = some ms[i] ∧
      decode c (start + .ofNat i) = ms[i].alone) ∧
    (ms.length < 15 → Modifier.ofByte? (c (start + .ofNat ms.length)) = none) ∧
    decodeFolded c start =
      { plain with
        length := plain.length + .ofNat ms.length
        modifier := Modifier.effective ms } ∧
    ((decodeFolded c start).isRepeatedString = false → ∀ m : State,
      executePast (decodeFolded c start) m =
        executeInTurn ((List.range (ms.length + 1)).map fun i => decode c (start + .ofNat i)) m) := by
  intro ms plain
  have hByte (i : Nat) (h : i < ms.length) : Modifier.ofByte? (c (start + .ofNat i)) = some ms[i] :=
    ofByte?_of_lt_modifiersAt h
  refine ⟨length_modifiersAt_le c start maxModifiers, ?_, ofByte?_length_modifiersAt,
    decodeFolded_eq c start, ?_⟩
  · intro i h
    exact ⟨hByte i h, decode_of_modifier (hByte i h)⟩
  · intro hOnce m
    rw [decodeFolded_eq] at hOnce
    calc executePast (decodeFolded c start) m
        = executePast plain (skip (.ofNat ms.length) m) := by
          rw [decodeFolded_eq, executePast_behindModifiers hOnce]
      _ = executeInTurn (ms.map Modifier.alone ++ [plain]) m := by
          rw [executeInTurn_modifiers, executeInTurn_singleton]
      _ = _ := congrArg (executeInTurn · m) (map_decode_modifiersAt c start maxModifiers).symm

/-- A near call behind a segment modifier and a repetition. -/
private abbrev callBytes : Array UInt8 :=
  #[0x26, 0xf3, 0xe8, 0x34, 0x12]

/-- The call pushes the address behind all five bytes, folded or not. -/
theorem folding_agrees_with_plain_instructions_call :
    (decodeFolded (.ofBytes ⟨callBytes⟩) 0).isRepeatedString = false ∧
      executePast (decodeFolded (.ofBytes ⟨callBytes⟩) 0) ⟨{}, .shared⟩ =
        executeInTurn [(Modifier.segment .es).alone, Modifier.rep.alone,
          { operation := .call (.target 0x1239), length := 3 }] ⟨{}, .shared⟩ := by
  have hOnce : (decodeFolded (.ofBytes ⟨callBytes⟩) 0).isRepeatedString = false := by
    decide +kernel
  have hPlain : ((List.range 3).map fun i => decode (.ofBytes ⟨callBytes⟩) (0 + .ofNat i)) =
      [(Modifier.segment .es).alone, Modifier.rep.alone,
        { operation := .call (.target 0x1239), length := 3 }] := by
    decide +kernel
  have hLength : (modifiersAt (.ofBytes ⟨callBytes⟩) 0 maxModifiers).length = 2 := by
    decide +kernel
  obtain ⟨-, -, -, -, hAgrees⟩ :=
    folding_agrees_with_plain_instructions (.ofBytes ⟨callBytes⟩) 0
  rw [hLength] at hAgrees
  refine ⟨hOnce, ?_⟩
  rw [← hPlain]
  exact hAgrees hOnce ⟨{}, .shared⟩

end VintageUnix.I8086
