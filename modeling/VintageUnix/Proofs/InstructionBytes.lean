import VintageUnix.I8086.Decoder
import VintageUnix.Pdp11.Decoder

/-! An instruction is determined by the bytes that it claims. Decoding reads no byte behind them
that matters, so any other code with the same bytes there gives the same instruction. Only the
undefined instruction of the 8086 claims less than was read to find it. -/
namespace VintageUnix

/-- The codes have the same `length` bytes from `start` on. -/
def Code.AgreesOn (c d : Code) (start length : UInt16) : Prop :=
  ∀ offset < length, d (start + offset) = c (start + offset)

namespace Code.AgreesOn

variable {c d : Code} {start length : UInt16} (h : c.AgreesOn d start length)

include h

theorem mono {shorter : UInt16} (hShorter : shorter ≤ length) : c.AgreesOn d start shorter :=
  fun offset hOffset => h offset (UInt16.lt_of_lt_of_le hOffset hShorter)

theorem first (hLength : 0 < length) : d start = c start := by
  simpa using h 0 hLength

theorem word {offset : UInt16} (hLow : offset < length) (hHigh : offset + 1 < length) :
    d.word (start + offset) = c.word (start + offset) := by
  simp only [Code.word, UInt16.add_assoc, h offset hLow, h (offset + 1) hHigh]

/-- What is left behind the first bytes, unless it wraps. -/
theorem tail {skipped rest : UInt16} (hFits : skipped.toNat + rest.toNat ≤ length.toNat) :
    c.AgreesOn d (start + skipped) rest := by
  intro offset hOffset
  have hInside : skipped + offset < length := by
    have hLength := length.toNat_lt
    rw [UInt16.lt_iff_toNat_lt] at hOffset ⊢
    rw [UInt16.toNat_add]
    omega
  rw [UInt16.add_assoc]
  exact h _ hInside

end Code.AgreesOn

namespace I8086

variable {c d : Code} {start : UInt16}

/-- The lengths of an instruction up to its displacement. -/
theorem length_operandField (c : Code) (start : UInt16) (w : Width) :
    (operandField c start w).2 = 2 ∨ (operandField c start w).2 = 3 ∨
      (operandField c start w).2 = 4 := by
  simp only [operandField]
  split
  · split
    · exact .inr (.inr rfl)
    · exact .inl rfl
  · exact .inr (.inl rfl)
  · exact .inr (.inr rfl)
  · exact .inl rfl

/-- The second byte and the displacement are within that length. -/
theorem operandField_congr {w : Width} (h : c.AgreesOn d start (operandField c start w).2) :
    registerField d start = registerField c start ∧
      operandField d start w = operandField c start w := by
  have hSecond : d (start + 1) = c (start + 1) := by
    refine h 1 ?_
    rcases length_operandField c start w with hField | hField | hField <;> rw [hField] <;> decide
  refine ⟨by rw [registerField, registerField, hSecond], ?_⟩
  simp only [operandField] at h ⊢
  rw [hSecond]
  split
  next hMode =>
    simp only [hMode] at h
    split
    next hDirect =>
      simp only [if_pos hDirect] at h
      rw [h.word (by decide) (by decide)]
    next => rfl
  next hMode =>
    simp only [hMode] at h
    rw [h 2 (by decide)]
  next hMode =>
    simp only [hMode] at h
    rw [h.word (by decide) (by decide)]
  next => rfl

/-- Decoding a form reads a second byte only if it claims it, and claims no more than a
form can. A modifier is a single byte. -/
def Form.Regular : Form → Prop
  | .complete length op => length = 1 ∨ length = 2 ∧ ∀ m, op ≠ .modifier m
  | .shortTarget op => ∀ target m, op target ≠ .modifier m
  | .nearTarget op => ∀ target m, op target ≠ .modifier m
  | .farTarget op => ∀ target m, op target ≠ .modifier m
  | .byteValue op => ∀ v m, op v ≠ .modifier m
  | .wordValue op => ∀ v m, op v ≠ .modifier m
  | .wordAndByte op => ∀ v b m, op v b ≠ .modifier m
  | .baseTen op => ∀ m, op ≠ .modifier m
  | .fields _ op => ∀ r o m, op r o ≠ some (.modifier m)
  | .fieldsByte _ op => ∀ r o v m, op r o v ≠ some (.modifier m)
  | .fieldsWord _ op => ∀ r o v m, op r o v ≠ some (.modifier m)
  | .fieldsOrTest _ op => ∀ r o m, op r o ≠ some (.modifier m)
  | .undefined => True

theorem shiftOperation_ne_modifier (w : Width) (field : UInt8) (o count : Operand)
    (m : Modifier) : shiftOperation w field o count ≠ some (.modifier m) := by
  unfold shiftOperation
  split <;> simp

namespace Form

theorem unaryOperation_ne_modifier (w : Width) (field : UInt8) (o : Operand) (m : Modifier) :
    unaryOperation w field o ≠ some (.modifier m) := by
  unfold unaryOperation
  split <;> simp

theorem wordOperation_ne_modifier (field : UInt8) (o : Operand) (m : Modifier) :
    wordOperation field o ≠ some (.modifier m) := by
  unfold wordOperation
  split <;> simp

theorem byteOperation_ne_modifier (field : UInt8) (o : Operand) (m : Modifier) :
    byteOperation field o ≠ some (.modifier m) := by
  unfold byteOperation
  split <;> simp

theorem regular_arithmeticGroup (b : UInt8) : (arithmeticGroup b).Regular := by
  simp only [arithmeticGroup]
  split <;> try split
  all_goals simp [Regular]

theorem regular_moveGroup (b : UInt8) : (moveGroup b).Regular := by
  simp only [moveGroup]
  split <;> simp [Regular, ifMemory]

theorem regular_accumulatorGroup (b : UInt8) : (accumulatorGroup b).Regular := by
  simp only [accumulatorGroup]
  split <;> simp [Regular]

theorem regular_returnGroup (b : UInt8) : (returnGroup b).Regular := by
  simp only [returnGroup]
  split <;> simp [Regular, ifMemory, shiftOperation_ne_modifier]

theorem regular_shiftGroup (b : UInt8) : (shiftGroup b).Regular := by
  simp only [shiftGroup]
  split <;> simp [Regular, shiftOperation_ne_modifier]

theorem regular_jumpGroup (b : UInt8) : (jumpGroup b).Regular := by
  simp only [jumpGroup]
  split <;> simp [Regular]

theorem regular_controlGroup (b : UInt8) : (controlGroup b).Regular := by
  unfold controlGroup
  split <;> simp [Regular, unaryOperation_ne_modifier, wordOperation_ne_modifier,
    byteOperation_ne_modifier]

theorem ite_cases {P : Form → Prop} {p : Prop} [Decidable p] {first second : Form}
    (hFirst : P first) (hSecond : P second) : P (if p then first else second) := by
  split
  · exact hFirst
  · exact hSecond

/-- The forms in the order of their opcodes: the groups, and what stands between them. -/
theorem ofOpcode_cases {P : Form → Prop} (b : UInt8) (arithmetic : P (arithmeticGroup b))
    (inc : P (.complete 1 (.unary .inc .word (.register (.ofCode b)))))
    (dec : P (.complete 1 (.unary .dec .word (.register (.ofCode b)))))
    (push : P (.complete 1 (.push (.register (.ofCode b)))))
    (pop : P (.complete 1 (.pop (.register (.ofCode b))))) (unused : P .undefined)
    (jumpIf : P (.shortTarget (.jumpIf (.ofCode b)))) (move : P (moveGroup b))
    (nop : P (.complete 1 .nop))
    (xchg : P (.complete 1 (.xchg .word (.register (.ofCode b)) (.register .ax))))
    (accumulator : P (accumulatorGroup b))
    (byteMove : P (.byteValue fun v => .mov .byte (.half (.ofCode b)) (.byteValue v)))
    (wordMove : P (.wordValue fun v => .mov .word (.register (.ofCode b)) (.wordValue v)))
    (returns : P (returnGroup b)) (shift : P (shiftGroup b)) (jump : P (jumpGroup b))
    (control : P (controlGroup b)) : P (ofOpcode b) := by
  refine ite_cases arithmetic (ite_cases inc (ite_cases dec (ite_cases push (ite_cases pop ?_))))
  refine ite_cases unused (ite_cases jumpIf (ite_cases move (ite_cases nop (ite_cases xchg ?_))))
  refine ite_cases accumulator (ite_cases byteMove (ite_cases wordMove ?_))
  exact ite_cases returns (ite_cases shift (ite_cases jump control))

/-- What stands between the groups names no modifier. -/
theorem regular_ofOpcode (b : UInt8) : (ofOpcode b).Regular :=
  ofOpcode_cases b (regular_arithmeticGroup b) (.inl rfl) (.inl rfl) (.inl rfl) (.inl rfl) trivial
    (fun _ _ => nofun) (regular_moveGroup b) (.inl rfl) (.inl rfl) (regular_accumulatorGroup b)
    (fun _ _ => nofun) (fun _ _ => nofun) (regular_returnGroup b) (regular_shiftGroup b)
    (regular_jumpGroup b) (regular_controlGroup b)

end Form

/-- The instruction that a reader finds is determined by the bytes it claims. It claims
between one and six of them, and a modifier is a single byte. -/
structure ReadsOwnBytes (read : Code → Instruction) (start : UInt16) (c : Code) : Prop where
  length_pos : 1 ≤ (read c).length
  length_le : (read c).length ≤ 6
  modifier {m : Modifier} : (read c).operation = .modifier m → (read c).length = 1
  congr {d : Code} : (read c).operation ≠ .undefined →
    c.AgreesOn d start (read c).length → read d = read c

namespace ReadsOwnBytes

theorem oneByte {i : Instruction} (hLength : i.length = 1) :
    ReadsOwnBytes (fun _ => i) start c where
  length_pos := hLength ▸ UInt16.le_refl 1
  length_le := hLength ▸ by decide
  modifier _ := hLength
  congr _ _ := rfl

/-- If nothing is encoded, the one byte of the placeholder says nothing about other code. -/
theorem ofOption {length : Code → UInt16} {op : Code → Option Operation}
    (hPos : 1 ≤ length c) (hLe : length c ≤ 6) (hModifier : ∀ m, op c ≠ some (.modifier m))
    (hCongr : ∀ {d}, c.AgreesOn d start (length c) → length d = length c ∧ op d = op c) :
    ReadsOwnBytes (fun c => .ofOption (length c) (op c)) start c := by
  cases hOp : op c with
  | none =>
      constructor <;> simp only [hOp, Instruction.ofOption]
      · decide
      · decide
      · nofun
      · exact fun hDefined => absurd rfl hDefined
  | some operation =>
      constructor <;> simp only [hOp, Instruction.ofOption]
      · exact hPos
      · exact hLe
      · exact fun hModified => absurd (hOp.trans (congrArg some hModified)) (hModifier _)
      · intro d hDefined hAgrees
        obtain ⟨hLength, hSame⟩ := hCongr hAgrees
        rw [hLength, hSame, hOp]

theorem fixed {length : UInt16} {op : Code → Operation} (hPos : 1 ≤ length) (hLe : length ≤ 6)
    (hModifier : ∀ m, op c ≠ .modifier m)
    (hCongr : ∀ {d}, c.AgreesOn d start length → op d = op c) :
    ReadsOwnBytes (fun c => { operation := op c, length }) start c :=
  @ofOption c start (fun _ => length) (fun c => some (op c)) hPos hLe
    (fun m hModified => hModifier m (Option.some.inj hModified))
    fun hAgrees => ⟨rfl, congrArg some (hCongr hAgrees)⟩

/-- The operand field comes first, and at most two bytes follow it. -/
theorem fields {w : Width} {length : Code → UInt16} {op : Code → Option Operation}
    (hLength : ∃ count, (count = 0 ∨ count = 1 ∨ count = 2) ∧
      length c = (operandField c start w).2 + count)
    (hModifier : ∀ m, op c ≠ some (.modifier m))
    (hCongr : ∀ {d}, c.AgreesOn d start (length c) →
      registerField d start = registerField c start →
      operandField d start w = operandField c start w → length d = length c ∧ op d = op c) :
    ReadsOwnBytes (fun c => .ofOption (length c) (op c)) start c := by
  have hBounds : 1 ≤ length c ∧ length c ≤ 6 ∧ (operandField c start w).2 ≤ length c := by
    obtain ⟨count, hCount, hLength⟩ := hLength
    rw [hLength]
    rcases length_operandField c start w with hField | hField | hField <;> rw [hField] <;>
      rcases hCount with rfl | rfl | rfl <;> decide
  obtain ⟨hPos, hLe, hCovers⟩ := hBounds
  refine ofOption hPos hLe hModifier fun hAgrees => ?_
  obtain ⟨hRegister, hOperand⟩ := operandField_congr (hAgrees.mono hCovers)
  exact hCongr hAgrees hRegister hOperand

end ReadsOwnBytes

/-- The bytes of a value behind an operand field are within the length of both. -/
theorem byte_behind_operandField {w : Width}
    (h : c.AgreesOn d start ((operandField c start w).2 + 1)) :
    d (start + (operandField c start w).2) = c (start + (operandField c start w).2) := by
  refine h _ ?_
  rcases length_operandField c start w with hField | hField | hField <;> rw [hField] <;> decide

theorem word_behind_operandField {w : Width}
    (h : c.AgreesOn d start ((operandField c start w).2 + 2)) :
    d.word (start + (operandField c start w).2) = c.word (start + (operandField c start w).2) := by
  refine h.word ?_ ?_ <;>
    rcases length_operandField c start w with hField | hField | hField <;> rw [hField] <;> decide

/-- The immediate value of a width at an address. -/
def valueAt (c : Code) (address : UInt16) : Width → Operand
  | .byte => .byteValue (c address)
  | .word => .wordValue (c.word address)

theorem valueAt_behind_operandField {w : Width}
    (h : c.AgreesOn d start ((operandField c start w).2 + w.size)) :
    valueAt d (start + (operandField c start w).2) w =
      valueAt c (start + (operandField c start w).2) w := by
  cases w with
  | byte => exact congrArg Operand.byteValue (byte_behind_operandField h)
  | word => exact congrArg Operand.wordValue (word_behind_operandField h)

namespace Form

/-- The register field tells whether a value follows. -/
theorem decode_fieldsOrTest (c : Code) (start : UInt16) (w : Width)
    (op : UInt8 → Operand → Option Operation) :
    (fieldsOrTest w op).decode c start =
      let (o, length) := operandField c start w
      let test := registerField c start = 0
      .ofOption (if test then length + w.size else length)
        (if test then some (.test w o (valueAt c (start + length) w))
        else op (registerField c start) o) := by
  simp only [decode]
  split
  · cases w <;> rfl
  · rfl

theorem readsOwnBytes {form : Form} (hRegular : form.Regular) (c : Code)
    (start : UInt16) : ReadsOwnBytes (form.decode · start) start c := by
  cases form with
  | complete length op =>
      rcases hRegular with rfl | ⟨rfl, hNoModifier⟩
      · exact .oneByte rfl
      · exact .fixed (by decide) (by decide) hNoModifier fun _ => rfl
  | shortTarget op =>
      refine .fixed (by decide) (by decide) (hRegular _) fun h => ?_
      rw [h 1 (by decide)]
  | nearTarget op =>
      refine .fixed (by decide) (by decide) (hRegular _) fun h => ?_
      rw [h.word (by decide) (by decide)]
  | farTarget op =>
      refine .fixed (by decide) (by decide) (hRegular _) fun h => ?_
      rw [h.word (by decide) (by decide), h.word (by decide) (by decide)]
  | byteValue op =>
      refine .fixed (by decide) (by decide) (hRegular _) fun h => ?_
      rw [h 1 (by decide)]
  | wordValue op =>
      refine .fixed (by decide) (by decide) (hRegular _) fun h => ?_
      rw [h.word (by decide) (by decide)]
  | wordAndByte op =>
      refine .fixed (by decide) (by decide) (hRegular _ _) fun h => ?_
      rw [h.word (by decide) (by decide), h 3 (by decide)]
  | baseTen op =>
      refine .ofOption (by decide) (by decide) (fun m => ?_) fun h => ⟨rfl, ?_⟩
      · split
        · exact fun hModified => hRegular m (Option.some.inj hModified)
        · nofun
      · rw [h 1 (by decide)]
  | fields w op =>
      exact @ReadsOwnBytes.fields c start w (fun c => (operandField c start w).2)
        (fun c => op (registerField c start) (operandField c start w).1)
        ⟨0, .inl rfl, (UInt16.add_zero _).symm⟩ (hRegular _ _) fun _ hRegister hOperand => by
          rw [hRegister, hOperand]
          exact ⟨rfl, rfl⟩
  | fieldsByte w op =>
      exact @ReadsOwnBytes.fields c start w (fun c => (operandField c start w).2 + 1)
        (fun c => op (registerField c start) (operandField c start w).1
          (c (start + (operandField c start w).2)))
        ⟨1, .inr (.inl rfl), rfl⟩ (hRegular _ _ _) fun h hRegister hOperand => by
          rw [hRegister, hOperand, byte_behind_operandField h]
          exact ⟨rfl, rfl⟩
  | fieldsWord w op =>
      exact @ReadsOwnBytes.fields c start w (fun c => (operandField c start w).2 + 2)
        (fun c => op (registerField c start) (operandField c start w).1
          (c.word (start + (operandField c start w).2)))
        ⟨2, .inr (.inr rfl), rfl⟩ (hRegular _ _ _) fun h hRegister hOperand => by
          rw [hRegister, hOperand, word_behind_operandField h]
          exact ⟨rfl, rfl⟩
  | fieldsOrTest w op =>
      simp only [decode_fieldsOrTest]
      refine @ReadsOwnBytes.fields c start w _ _ ?_ (fun m => ?_) fun h hRegister hOperand => ?_
      · split
        · exact ⟨w.size, .inr (by cases w <;> decide), rfl⟩
        · exact ⟨0, .inl rfl, (UInt16.add_zero _).symm⟩
      · split
        · nofun
        · exact hRegular _ _ m
      · rw [hRegister, hOperand]
        split
        next hTest =>
          rw [if_pos hTest] at h
          rw [valueAt_behind_operandField h]
          exact ⟨rfl, rfl⟩
        next => exact ⟨rfl, rfl⟩
  | undefined => exact .oneByte rfl

end Form

theorem readsOwnBytes_decode (c : Code) (start : UInt16) :
    ReadsOwnBytes (decode · start) start c := by
  have hForm := Form.readsOwnBytes (Form.regular_ofOpcode (c start)) c start
  refine ⟨hForm.length_pos, hForm.length_le, hForm.modifier, fun hDefined hAgrees => ?_⟩
  have hSome : 0 < ((Form.ofOpcode (c start)).decode c start).length :=
    UInt16.lt_of_lt_of_le (by decide) hForm.length_pos
  have hOpcode := hAgrees.first hSome
  rw [decode, hOpcode]
  exact hForm.congr hDefined hAgrees

theorem toNat_length_decode (c : Code) (start : UInt16) :
    1 ≤ (decode c start).length.toNat ∧ (decode c start).length.toNat ≤ 6 :=
  have hRead := readsOwnBytes_decode c start
  ⟨UInt16.le_iff_toNat_le.1 hRead.length_pos, UInt16.le_iff_toNat_le.1 hRead.length_le⟩

/-- The instruction behind `length` bytes of modifiers, when nothing more is folded. -/
def behindModifiers (c : Code) (start length : UInt16) (earlier : Option Modifier) :
    Instruction :=
  let i := decode c (start + length)
  { i with length := i.length + length, modifier := earlier }

theorem fold_of_modifier {m : Modifier} {length : UInt16}
    (hModifier : (decode c (start + length)).operation = .modifier m) (budget : Nat)
    (earlier : Option Modifier) :
    fold c start (budget + 1) length earlier =
      fold c start budget (length + 1) (Modifier.combine earlier m) := by
  have hLength := (readsOwnBytes_decode c (start + length)).modifier hModifier
  simp only [fold, hModifier, hLength]

theorem fold_of_not_modifier {length : UInt16}
    (hOther : ∀ m, (decode c (start + length)).operation ≠ .modifier m) (budget : Nat)
    (earlier : Option Modifier) :
    fold c start budget length earlier = behindModifiers c start length earlier := by
  cases budget with
  | zero => rfl
  | succ budget =>
      simp only [fold]
      rfl

section Fold

variable {length : UInt16} (hRoom : length.toNat + 6 < UInt16.size)

include hRoom

theorem toNat_length_behindModifiers (c : Code) (start : UInt16) (earlier : Option Modifier) :
    (behindModifiers c start length earlier).length.toNat =
      length.toNat + (decode c (start + length)).length.toNat := by
  obtain ⟨-, hLe⟩ := toNat_length_decode c (start + length)
  have hNoWrap : (decode c (start + length)).length.toNat + length.toNat < 2 ^ 16 := by
    change length.toNat + 6 < 2 ^ 16 at hRoom
    omega
  rw [Nat.add_comm]
  exact (UInt16.toNat_add _ _).trans (Nat.mod_eq_of_lt hNoWrap)

theorem length_behindModifiers (c : Code) (start : UInt16) (earlier : Option Modifier) :
    length.toNat < (behindModifiers c start length earlier).length.toNat ∧
      (behindModifiers c start length earlier).length.toNat ≤ length.toNat + 6 := by
  have hLength := toNat_length_decode c (start + length)
  rw [toNat_length_behindModifiers hRoom]
  omega

theorem decode_behindModifiers_congr {earlier : Option Modifier}
    (hDefined : (behindModifiers c start length earlier).operation ≠ .undefined)
    (h : c.AgreesOn d start (behindModifiers c start length earlier).length) :
    decode d (start + length) = decode c (start + length) := by
  have hFits := toNat_length_behindModifiers hRoom c start earlier
  exact (readsOwnBytes_decode c (start + length)).congr hDefined (h.tail (Nat.le_of_eq hFits.symm))

end Fold

theorem toNat_length_next {budget : Nat} {length : UInt16}
    (hRoom : length.toNat + budget + 6 < UInt16.size) : (length + 1).toNat = length.toNat + 1 := by
  refine (UInt16.toNat_add length 1).trans (Nat.mod_eq_of_lt ?_)
  change length.toNat + 1 < UInt16.size
  omega

/-- Folding claims the modifiers, each of them one byte, and the instruction behind them. -/
theorem length_fold (c : Code) (start : UInt16) {budget : Nat} {length : UInt16}
    (earlier : Option Modifier) (hRoom : length.toNat + budget + 6 < UInt16.size) :
    length.toNat < (fold c start budget length earlier).length.toNat ∧
      (fold c start budget length earlier).length.toNat ≤ length.toNat + budget + 6 := by
  induction budget generalizing length earlier with
  | zero => exact length_behindModifiers hRoom c start earlier
  | succ budget ih =>
      by_cases hModifier : ∃ m, (decode c (start + length)).operation = .modifier m
      · obtain ⟨m, hModifier⟩ := hModifier
        have hNext := toNat_length_next hRoom
        have hRest : (length + 1).toNat + budget + 6 < UInt16.size := by omega
        have hLength := ih (Modifier.combine earlier m) hRest
        rw [fold_of_modifier hModifier]
        omega
      · rw [fold_of_not_modifier (not_exists.1 hModifier)]
        have hLast : length.toNat + 6 < UInt16.size := by omega
        have hLength := length_behindModifiers hLast c start earlier
        omega

/-- The modifiers that were folded are within the length, so the other code has them too, and
then the same instruction behind them. -/
theorem fold_congr {budget : Nat} {length : UInt16} {earlier : Option Modifier}
    (hRoom : length.toNat + budget + 6 < UInt16.size)
    (hDefined : (fold c start budget length earlier).operation ≠ .undefined)
    (h : c.AgreesOn d start (fold c start budget length earlier).length) :
    fold d start budget length earlier = fold c start budget length earlier := by
  induction budget generalizing length earlier with
  | zero =>
      have hSame := decode_behindModifiers_congr hRoom hDefined h
      simp only [fold, hSame]
  | succ budget ih =>
      by_cases hModifier : ∃ m, (decode c (start + length)).operation = .modifier m
      · obtain ⟨m, hModifier⟩ := hModifier
        rw [fold_of_modifier hModifier] at hDefined h ⊢
        have hNext := toNat_length_next hRoom
        have hRest : (length + 1).toNat + budget + 6 < UInt16.size := by omega
        have hRead := readsOwnBytes_decode c (start + length)
        have hFits : length.toNat + (decode c (start + length)).length.toNat ≤
            (fold c start budget (length + 1) (Modifier.combine earlier m)).length.toNat := by
          have hBeyond := (length_fold c start (Modifier.combine earlier m) hRest).1
          rw [hRead.modifier hModifier]
          change length.toNat + 1 ≤ _
          omega
        have hSame : decode d (start + length) = decode c (start + length) :=
          hRead.congr (hModifier ▸ nofun) (h.tail hFits)
        rw [fold_of_modifier (hSame ▸ hModifier)]
        exact ih hRest hDefined h
      · have hOther := not_exists.1 hModifier
        rw [fold_of_not_modifier hOther] at hDefined h ⊢
        have hLast : length.toNat + 6 < UInt16.size := by omega
        have hSame := decode_behindModifiers_congr hLast hDefined h
        rw [fold_of_not_modifier (hSame ▸ hOther)]
        simp only [behindModifiers, hSame]

end I8086

namespace Pdp11

variable {c d : VintageUnix.Code} {start : UInt16}

theorem length_operand (c : VintageUnix.Code) (start field length : UInt16) :
    (operand c start field length).2 = length ∨
      (operand c start field length).2 = length + 2 := by
  simp only [operand]
  split <;> try split
  all_goals first
    | exact .inl rfl
    | exact .inr rfl

/-- An extension word is read only if it is claimed. -/
theorem operand_congr {field length : UInt16} (hLength : length = 2 ∨ length = 4)
    (h : c.AgreesOn d start (operand c start field length).2) :
    operand d start field length = operand c start field length := by
  have hExtension (hClaimed : c.AgreesOn d start (length + 2)) :
      d.word (start + length) = c.word (start + length) := by
    rcases hLength with rfl | rfl <;> exact hClaimed.word (by decide) (by decide)
  simp only [operand] at h ⊢
  generalize (field >>> 3) &&& 7 = mode at h ⊢
  split at h
  · rfl
  · rfl
  · split at h
    next hPc => simp only [if_pos hPc, hExtension h]
    next hOther => simp only [if_neg hOther]
  · split at h
    next hPc => simp only [if_pos hPc, hExtension h]
    next hOther => simp only [if_neg hOther]
  · rfl
  · rfl
  · split at h <;> simp only [hExtension h]
  · split at h <;> simp only [hExtension h]

theorem length_first_operand (c : VintageUnix.Code) (start field : UInt16) :
    (operand c start field 2).2 = 2 ∨ (operand c start field 2).2 = 4 :=
  length_operand c start field 2

theorem Form.length_decode (form : Form) (c : VintageUnix.Code) (start : UInt16) :
    (form.decode c start).length = 2 ∨ (form.decode c start).length = 4 ∨
      (form.decode c start).length = 6 := by
  cases form with
  | complete op => exact .inl rfl
  | one field op =>
      rcases length_first_operand c start field with hLength | hLength
      · exact .inl hLength
      · exact .inr (.inl hLength)
  | two source destination op =>
      have hBoth : ((two source destination op).decode c start).length =
          (operand c start destination (operand c start source 2).2).2 := rfl
      rw [hBoth]
      rcases length_first_operand c start source with hMiddle | hMiddle <;>
        rcases length_operand c start destination (operand c start source 2).2 with
          hLast | hLast <;> rw [hLast, hMiddle] <;> decide
  | near distance op => exact .inl rfl

/-- The first operand is within the length of both. -/
theorem Form.decode_congr {form : Form}
    (h : c.AgreesOn d start (form.decode c start).length) :
    form.decode d start = form.decode c start := by
  cases form with
  | complete op => rfl
  | one field op =>
      have hOperand : operand d start field 2 = operand c start field 2 :=
        operand_congr (.inl rfl) h
      simp only [decode, hOperand]
  | two source destination op =>
      have hMiddle := length_first_operand c start source
      have hDestination : operand d start destination (operand c start source 2).2 =
          operand c start destination (operand c start source 2).2 :=
        operand_congr hMiddle h
      have hCovers : (operand c start source 2).2 ≤
          (operand c start destination (operand c start source 2).2).2 := by
        rcases length_operand c start destination (operand c start source 2).2 with
          hLast | hLast <;> rw [hLast]
        · exact UInt16.le_refl _
        · rcases hMiddle with hMiddle | hMiddle <;> rw [hMiddle] <;> decide
      have hSource : operand d start source 2 = operand c start source 2 :=
        operand_congr (.inl rfl) (h.mono hCovers)
      simp only [decode, hSource, hDestination]
  | near distance op => rfl

theorem length_decode (c : VintageUnix.Code) (start : UInt16) :
    (decode c start).length = 2 ∨ (decode c start).length = 4 ∨ (decode c start).length = 6 :=
  Form.length_decode _ c start

theorem decode_congr (h : c.AgreesOn d start (decode c start).length) :
    decode d start = decode c start := by
  have hFirst : d.word start = c.word start := by
    have hTwo : c.AgreesOn d start 2 := by
      refine h.mono ?_
      rcases length_decode c start with hLength | hLength | hLength <;> rw [hLength] <;> decide
    have hWord : d.word (start + 0) = c.word (start + 0) := hTwo.word (by decide) (by decide)
    simpa using hWord
  rw [decode, hFirst]
  exact Form.decode_congr h

end Pdp11

/-- An instruction is determined by the bytes that it claims, at every address of any code. Take
other code with the same bytes there: if the instruction is defined, the 8086 finds it in
both, with or without its modifiers folded in, and the PDP-11 finds the same in both whatever
it is. An instruction of the 8086 claims at most six bytes, at most 21 with its modifiers,
and one of the PDP-11 claims one to three words. -/
theorem instruction_determined_by_claimed_bytes (c d : Code) (start : UInt16) :
    ((I8086.decode c start).operation ≠ .undefined →
      c.AgreesOn d start (I8086.decode c start).length →
      I8086.decode d start = I8086.decode c start) ∧
    ((I8086.decodeFolded c start).operation ≠ .undefined →
      c.AgreesOn d start (I8086.decodeFolded c start).length →
      I8086.decodeFolded d start = I8086.decodeFolded c start) ∧
    (c.AgreesOn d start (Pdp11.decode c start).length →
      Pdp11.decode d start = Pdp11.decode c start) ∧
    (1 ≤ (I8086.decode c start).length ∧ (I8086.decode c start).length ≤ 6) ∧
    (1 ≤ (I8086.decodeFolded c start).length ∧ (I8086.decodeFolded c start).length ≤ 21) ∧
    ((Pdp11.decode c start).length = 2 ∨ (Pdp11.decode c start).length = 4 ∨
      (Pdp11.decode c start).length = 6) := by
  have hRead := I8086.readsOwnBytes_decode c start
  have hRoom : (0 : UInt16).toNat + I8086.maxModifiers + 6 < UInt16.size := by decide
  have hFolded := I8086.length_fold c start none hRoom
  exact ⟨hRead.congr, I8086.fold_congr hRoom, Pdp11.decode_congr,
    ⟨hRead.length_pos, hRead.length_le⟩,
    ⟨UInt16.le_iff_toNat_le.2 hFolded.1, UInt16.le_iff_toNat_le.2 hFolded.2⟩,
    Pdp11.length_decode c start⟩

/-- A move of a word into memory, with a segment modifier in front. It claims all of these
bytes. -/
private abbrev moveBytes : Array UInt8 :=
  #[0x2e, 0xc7, 0x06, 0x10, 0x00, 0x34, 0x12]

/-- Another byte behind the move changes nothing. -/
theorem instruction_determined_by_claimed_bytes_move :
    (I8086.decodeFolded (.ofBytes ⟨moveBytes⟩) 0).length = 7 ∧
      I8086.decodeFolded (.ofBytes ⟨moveBytes.push 0xff⟩) 0 =
        I8086.decodeFolded (.ofBytes ⟨moveBytes⟩) 0 ∧
      I8086.decode (.ofBytes ⟨moveBytes.push 0xff⟩) 0 = I8086.decode (.ofBytes ⟨moveBytes⟩) 0 ∧
      Pdp11.decode (.ofBytes ⟨moveBytes.push 0xff⟩) 0 = Pdp11.decode (.ofBytes ⟨moveBytes⟩) 0 := by
  have hAgrees : (Code.ofBytes ⟨moveBytes⟩).AgreesOn (.ofBytes ⟨moveBytes.push 0xff⟩) 0 7 := by
    intro offset hOffset
    have hBytes : ∀ i : Fin 7, Code.ofBytes ⟨moveBytes.push 0xff⟩ (.ofNat i) =
        Code.ofBytes ⟨moveBytes⟩ (.ofNat i) := by
      decide
    have hByte := hBytes ⟨offset.toNat, UInt16.lt_iff_toNat_lt.1 hOffset⟩
    simpa only [UInt16.ofNat_toNat, UInt16.zero_add] using hByte
  obtain ⟨hDecode, hFolded, hPdp11, -⟩ := instruction_determined_by_claimed_bytes
    (.ofBytes ⟨moveBytes⟩) (.ofBytes ⟨moveBytes.push 0xff⟩) 0
  exact ⟨by decide +kernel,
    hFolded (by decide +kernel) (hAgrees.mono (by decide +kernel)),
    hDecode (by decide +kernel) (hAgrees.mono (by decide +kernel)),
    hPdp11 (hAgrees.mono (by decide +kernel))⟩

end VintageUnix
