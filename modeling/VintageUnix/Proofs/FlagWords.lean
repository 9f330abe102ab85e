import VintageUnix.Proofs.OperandSteps
import VintageUnix.Proofs.ProgramRuns
import VintageUnix.Proofs.SizedOperands

/-! The words that hold flags. A processor starts with a word of zeros, and whatever a program does,
no bit is ever set in it but those of the flags. So what a program saves of its flags is enough to
have all of them back. -/
namespace VintageUnix

namespace Word

/-- No bit is set outside the mask. -/
def Within (mask w : UInt16) : Prop :=
  w &&& ~~~mask = 0

instance (mask w : UInt16) : Decidable (Within mask w) :=
  inferInstanceAs (Decidable (_ = _))

variable {mask v w : UInt16}

theorem within_iff_bit : Within mask w ↔ ∀ i < 16, bit w i = true → bit mask i = true := by
  have hBit (i : Nat) (hi : i < 16) : bit (w &&& ~~~mask) i = (bit w i && !bit mask i) := by
    rw [bit_and, bit_not mask hi]
  have hZero (i : Nat) : bit 0 i = false := by
    simp [bit]
  constructor
  · intro h i hi hSet
    have hClear : bit (w &&& ~~~mask) i = false := by
      rw [h, hZero]
    rw [hBit i hi, hSet] at hClear
    simpa using hClear
  · intro h
    apply ext_bit
    intro i hi
    rw [hBit i hi, hZero]
    cases hSet : bit w i with
    | false => rfl
    | true => simp [h i hi hSet]

theorem within_zero (mask : UInt16) : Within mask 0 :=
  UInt16.zero_and

theorem within_and_right (mask w : UInt16) : Within mask (w &&& mask) := by
  apply within_iff_bit.2
  intro i _ hSet
  rw [bit_and] at hSet
  exact (Bool.and_eq_true_iff.1 hSet).2

namespace Within

theorem and_left (h : Within mask w) (v : UInt16) : Within mask (w &&& v) := by
  apply within_iff_bit.2
  intro i hi hSet
  rw [bit_and] at hSet
  exact within_iff_bit.1 h i hi (Bool.and_eq_true_iff.1 hSet).1

theorem or (first : Within mask v) (second : Within mask w) : Within mask (v ||| w) := by
  apply within_iff_bit.2
  intro i hi hSet
  rw [bit_or, Bool.or_eq_true_iff] at hSet
  rcases hSet with hSet | hSet
  · exact within_iff_bit.1 first i hi hSet
  · exact within_iff_bit.1 second i hi hSet

theorem putBit {i : Nat} (h : Within mask w) (hMask : bit mask i = true) (b : Bool) :
    Within mask (putBit w i b) := by
  apply within_iff_bit.2
  intro j hj hSet
  rw [bit_putBit w b hj] at hSet
  split at hSet
  next hSame => exact hSame ▸ hMask
  next => exact within_iff_bit.1 h j hj hSet

theorem mono {small : UInt16} (h : Within small w) (hMask : Within mask small) : Within mask w := by
  apply within_iff_bit.2
  intro i hi hSet
  exact within_iff_bit.1 hMask i hi (within_iff_bit.1 h i hi hSet)

/-- Nothing is lost by cutting a word to the mask. -/
theorem and_eq (h : Within mask w) : w &&& mask = w := by
  apply ext_bit
  intro i hi
  rw [bit_and]
  cases hSet : bit w i with
  | false => rfl
  | true => rw [within_iff_bit.1 h i hi hSet, Bool.and_self]

end Within

theorem or_and_of_apart {extra : UInt16} (w : UInt16) (h : extra &&& mask = 0) :
    (w ||| extra) &&& mask = w &&& mask := by
  apply ext_bit
  intro i hi
  have hApart : (bit extra i && bit mask i) = false := by
    rw [← bit_and, h]
    simp [bit]
  rw [bit_and, bit_or, Bool.and_or_distrib_right, hApart, Bool.or_false, bit_and]

theorem and_not_or_and (mask w : UInt16) : (w &&& ~~~mask) ||| (w &&& mask) = w := by
  apply ext_bit
  intro i hi
  rw [bit_or, bit_and, bit_and, bit_not mask hi, ← Bool.and_or_distrib_left,
    Bool.not_or_self, Bool.and_true]

/-- A mask of one byte cuts a word to its low byte. -/
theorem toUInt16_low_and (w : UInt16) (mask : UInt8) :
    (low w &&& mask).toUInt16 = w &&& mask.toUInt16 := by
  apply ext_bit
  intro i hi
  simp only [bit, low, UInt8.toBitVec_and, UInt8.toBitVec_toUInt16, UInt16.toBitVec_and,
    BitVec.getLsbD_and, BitVec.getLsbD_setWidth]
  cases hSet : mask.toBitVec.getLsbD i with
  | false => simp only [Bool.and_false]
  | true => simp [hi, BitVec.lt_of_getLsbD hSet]

end Word

open Word (Within within_and_right)

namespace I8086

namespace Flags

/-- No bit is set but those of the flags. -/
def Tidy (f : Flags) : Prop :=
  Within modifiable f.word

namespace Tidy

variable {n : Nat} {f : Flags}

theorem put (h : f.Tidy) (flag : Flag) (value : Bool) : (f.put flag value).Tidy :=
  Within.putBit h (by cases flag <;> decide) value

theorem describe (h : f.Tidy) (r : BitVec n) : (f.describe r).Tidy :=
  ((h.put _ _).put _ _).put _ _

theorem logical (h : f.Tidy) (r : BitVec n) : (f.logical r).Tidy :=
  ((h.describe r).put _ _).put _ _

theorem sum (h : f.Tidy) (x y : BitVec n) (carry : Bool) : (sum f x y carry).2.Tidy :=
  (((h.describe _).put _ _).put _ _).put _ _

theorem difference (h : f.Tidy) (x y : BitVec n) (borrow : Bool) :
    (difference f x y borrow).2.Tidy :=
  (((h.describe _).put _ _).put _ _).put _ _

theorem arithmetic (h : f.Tidy) (op : Arithmetic) (x y : BitVec n) : (op.compute f x y).2.Tidy := by
  cases op with
  | add | adc => exact h.sum _ _ _
  | sub | cmp | sbb => exact h.difference _ _ _
  | or | and | xor => exact h.logical _

theorem rotation (h : f.Tidy) (op : Rotation) (x : BitVec n) (count : UInt8) :
    (op.compute f x count).2.Tidy := by
  simp only [Rotation.compute]
  split
  · exact h
  · exact (h.put _ _).put _ _

theorem shift (h : f.Tidy) (op : Shift) (x : BitVec n) (count : UInt8) :
    (op.compute f x count).2.Tidy := by
  simp only [Shift.compute]
  split
  · exact h
  · exact ((h.describe _).put _ _).put _ _

theorem adjustment (h : f.Tidy) (op : Adjustment) (al ah : UInt8) :
    (op.compute f al ah).2.2.Tidy := by
  cases op with
  | daa | das => exact ((h.put _ _).put _ _).describe _
  | aaa | aas => exact (h.put _ _).put _ _
  | aam | aad => exact h.describe _

end Tidy
end Flags

theorem flags_store (w : Width) (place : Location) (v : BitVec w.bits) (m : State) :
    (store w place v m).cpu.flags = m.cpu.flags := by
  cases place <;> cases w <;> rfl

section Tidy

variable {m : State} (h : m.cpu.flags.Tidy)

include h

theorem tidy_store (w : Width) (place : Location) (v : BitVec w.bits) :
    (store w place v m).cpu.flags.Tidy := by
  rwa [flags_store]

theorem tidy_blockStep (op : Block) (w : Width) : (blockStep op w m).cpu.flags.Tidy := by
  cases op with
  | movs | stos => exact tidy_store h w _ _
  | cmps | scas => exact h.arithmetic .cmp _ _
  | lods => cases w <;> exact h

theorem tidy_blockRepeat (op : Block) (w : Width) (modifier : Modifier) (count : Nat) :
    (blockRepeat op w modifier count m).cpu.flags.Tidy := by
  induction count generalizing m with
  | zero => exact h
  | succ count ih =>
      have hStep := tidy_blockStep h op w
      simp only [blockRepeat]
      split
      · exact hStep
      · exact ih hStep

theorem tidy_block (op : Block) (w : Width) (modifier : Option Modifier) :
    (block op w modifier m).cpu.flags.Tidy := by
  cases modifier with
  | none => exact tidy_blockStep h op w
  | some r =>
      simp only [block]
      split
      · exact tidy_blockRepeat h op w r _
      · exact tidy_blockStep h op w

theorem tidy_copyFrames (count : Nat) : (copyFrames count m).cpu.flags.Tidy := by
  induction count generalizing m with
  | zero => exact h
  | succ count ih => exact ih h

theorem tidy_enter (size : UInt16) (level : UInt8) : (enter size level m).cpu.flags.Tidy := by
  simp only [enter, Machine.mapCpu]
  split
  · exact h
  · exact tidy_copyFrames (m := m.push (m.cpu.get .bp)) h _

theorem tidy_attempt {α : Type} (value : Except Fault α) {next : α → Outcome Cpu}
    (hNext : ∀ a, (next a).1.cpu.flags.Tidy) : (m.attempt value next).1.cpu.flags.Tidy := by
  cases value with
  | ok a => exact hNext a
  | error fault => exact h

theorem tidy_withBoth (a b : Operand) {next : Location → Location → Outcome Cpu}
    (hNext : ∀ x y, (next x y).1.cpu.flags.Tidy) : (withBoth m a b next).1.cpu.flags.Tidy :=
  tidy_attempt h _ fun x => tidy_attempt h _ fun y => hNext x y

end Tidy

/-- Where flags are computed, they are put into the register together with the result. -/
theorem tidy_put {w : Width} {result : BitVec w.bits × Flags} (h : result.2.Tidy)
    (place : Location) (m : State) : (put place result m).cpu.flags.Tidy := by
  rwa [flags_put]

theorem tidy_unary {m : State} (h : m.cpu.flags.Tidy) (op : Unary) (w : Width)
    (place : Location) : (unary op w place m).1.cpu.flags.Tidy := by
  cases op with
  | inc | dec => exact tidy_put (((h.describe _).put _ _).put _ _) place m
  | neg => exact tidy_put ((((h.describe _).put _ _).put _ _).put _ _) place m
  | not => exact tidy_store h w place _
  | mul | imul => cases w <;> exact (h.put _ _).put _ _
  | div | idiv => exact tidy_attempt h _ fun _ => by cases w <;> exact h

/-- No instruction sets a bit that is no flag. Two of them take their flags from elsewhere: `popf`
cuts what it finds on the stack to the flags, and `sahf` takes five of them from `ah`. -/
theorem tidy_execute (i : Instruction) {m : State} (h : m.cpu.flags.Tidy) :
    (execute i m).1.cpu.flags.Tidy := by
  unfold execute
  cases i.operation with
  | arithmetic op w a b =>
      apply tidy_withBoth h
      intro x y
      have hFlags := h.arithmetic op (load m w x) (load m w y)
      simp only [Machine.proceed]
      split
      · exact tidy_put hFlags x m
      · exact hFlags
  | unary op w a => exact tidy_attempt h _ fun x => tidy_unary h op w x
  | rotate op w a b => exact tidy_withBoth h a b fun x _ => tidy_put (h.rotation op _ _) x m
  | shift op w a b => exact tidy_withBoth h a b fun x _ => tidy_put (h.shift op _ _) x m
  | block op w => exact tidy_block h op w i.modifier
  | adjust op => exact h.adjustment op _ _
  | test w a b => exact tidy_withBoth h a b fun _ _ => h.logical _
  | xchg w a b => exact tidy_withBoth h a b fun x y => tidy_store (tidy_store h w x _) w y _
  | mov w a b => exact tidy_withBoth h a b fun x _ => tidy_store h w x _
  | lea r a =>
      apply tidy_attempt h
      intro x
      cases x <;> exact h
  | push a =>
      apply tidy_attempt h
      intro x
      split <;> exact h
  | pop a => exact tidy_attempt h _ fun x => tidy_store (m := m.pop.2) h .word x _
  | popf => exact within_and_right Flags.modifiable _
  | sahf =>
      have hLow : Within Flags.modifiable ((m.cpu.getHalf .ah).toUInt16 &&& 0xd5) :=
        (within_and_right 0xd5 _).mono (by decide)
      exact (Within.and_left h _).or hLow
  | enter size level => exact tidy_enter h size level
  | jumpIf condition t =>
      simp only [Machine.proceed]
      split <;> exact h
  | jump a => exact tidy_attempt h _ fun _ => h
  | call a => exact tidy_attempt h _ fun _ => h
  | ret extra =>
      cases extra with
      | none =>
          simp only
          split <;> exact h
      | some extra => exact h
  | loop kind t =>
      simp only [Machine.proceed]
      generalize (_ && _) = again
      cases again <;> exact h
  | jcxz t =>
      simp only [Machine.proceed]
      split <;> exact h
  | clc | stc | cmc | cli | sti | cld | std => exact h.put _ _
  | _ => exact h

/-- The word at the top of the stack is where it was and as it was. -/
structure SameTop (m n : State) : Prop where
  sp : n.cpu.get .sp = m.cpu.get .sp
  word : n.memory.word (n.cpu.get .sp) = m.memory.word (m.cpu.get .sp)

/-- A program that has saved the flags of a state gets them back, for all it has done in between:
all flags from the stack, and those of the low byte from `ah`, with the others as it left them. -/
structure RestoresFlags (m : State) : Prop where
  stack (save restore : Instruction) :
    save.operation = .pushf → restore.operation = .popf →
      ∃ saved : State, execute save m = saved.proceed ∧ ∀ n, SameTop saved n →
        ∃ restored : State, execute restore n = restored.proceed ∧ restored.cpu.flags = m.cpu.flags
  half (save restore : Instruction) :
    save.operation = .lahf → restore.operation = .sahf →
      ∃ saved : State, execute save m = saved.proceed ∧
        (∃ restored : State, execute restore saved = restored.proceed ∧
          restored.cpu.flags = m.cpu.flags) ∧
        ∀ n : State, n.cpu.getHalf .ah = saved.cpu.getHalf .ah →
          ∃ restored : State, execute restore n = restored.proceed ∧ restored.cpu.flags.word =
            (n.cpu.flags.word &&& ~~~0xd5) ||| (m.cpu.flags.word &&& 0xd5)

/-- What `pushf` adds is no flag. -/
theorem Flags.Tidy.and_modifiable {f : Flags} (h : f.Tidy) :
    (f.word ||| reserved) &&& modifiable = f.word :=
  (Word.or_and_of_apart f.word (by decide)).trans (Within.and_eq h)

/-- What `lahf` adds is no flag, and all of the flags that it leaves out are in the high byte. -/
theorem and_sahf (w : UInt16) : ((Word.low w &&& 0xd5) ||| 2).toUInt16 &&& 0xd5 = w &&& 0xd5 :=
  calc ((Word.low w &&& 0xd5) ||| 2).toUInt16 &&& 0xd5
    _ = ((w &&& 0xd5) ||| 2) &&& 0xd5 := by
      rw [UInt8.toUInt16_or, Word.toUInt16_low_and]
      rfl
    _ = (w &&& 0xd5) &&& 0xd5 := Word.or_and_of_apart _ (by decide)
    _ = w &&& 0xd5 := Within.and_eq (within_and_right _ _)

section Instructions

variable {i : Instruction} (m : State)

theorem execute_pushf (h : i.operation = .pushf) :
    execute i m = (m.push (m.cpu.flags.word ||| Flags.reserved)).proceed := by
  simp only [execute, h]

theorem execute_popf (h : i.operation = .popf) : execute i m =
    (setFlags ⟨m.memory.word (m.cpu.get .sp) &&& Flags.modifiable⟩ m.pop.2).proceed := by
  simp only [execute, h]
  rfl

theorem execute_lahf (h : i.operation = .lahf) : execute i m =
    (m.mapCpu (·.setHalf .ah ((Word.low m.cpu.flags.word &&& 0xd5) ||| 2))).proceed := by
  simp only [execute, h]

theorem execute_sahf (h : i.operation = .sahf) : execute i m =
    (setFlags ⟨(m.cpu.flags.word &&& ~~~0xd5) ||| ((m.cpu.getHalf .ah).toUInt16 &&& 0xd5)⟩
      m).proceed := by
  simp only [execute, h]

end Instructions

theorem Flags.Tidy.restoresFlags {m : State} (h : m.cpu.flags.Tidy) : RestoresFlags m := by
  constructor
  case stack =>
    intro save restore hSave hRestore
    refine ⟨_, execute_pushf m hSave, fun n hTop => ⟨_, execute_popf n hRestore, ?_⟩⟩
    have hSp : (m.push (m.cpu.flags.word ||| reserved)).cpu.get .sp = m.cpu.get .sp - 2 :=
      (Cpu.get_set ..).trans (if_pos rfl)
    have hPushed : n.memory.word (n.cpu.get .sp) = m.cpu.flags.word ||| reserved := by
      rw [hTop.word, hSp]
      exact AddressSpace.word_setWord _ _ _
    apply congrArg Flags.mk
    rw [hPushed, h.and_modifiable]
  case half =>
    intro save restore hSave hRestore
    let saved := m.mapCpu (·.setHalf .ah ((Word.low m.cpu.flags.word &&& 0xd5) ||| 2))
    have hHalf : saved.cpu.getHalf .ah = (Word.low m.cpu.flags.word &&& 0xd5) ||| 2 :=
      (Cpu.getHalf_setHalf ..).trans (if_pos rfl)
    have hRestored (n : State) (hSame : n.cpu.getHalf .ah = saved.cpu.getHalf .ah) :
        ∃ restored : State, execute restore n = restored.proceed ∧ restored.cpu.flags.word =
          (n.cpu.flags.word &&& ~~~0xd5) ||| (m.cpu.flags.word &&& 0xd5) := by
      refine ⟨_, execute_sahf n hRestore, ?_⟩
      rw [← and_sahf m.cpu.flags.word, ← hHalf, ← hSame]
      rfl
    refine ⟨saved, execute_lahf m hSave, ?_, hRestored⟩
    obtain ⟨restored, hExecute, hWord⟩ := hRestored saved rfl
    exact ⟨restored, hExecute, congrArg Flags.mk (hWord.trans (Word.and_not_or_and _ _))⟩

end I8086

namespace Pdp11

namespace Status

/-- No bit is set but the condition codes. -/
def Tidy (s : Status) : Prop :=
  Within codes s.word

/-- A mask that is cut to the codes reaches no other bit. -/
theorem bit_and_codes (mask : UInt16) {i : Nat} (hi : i < 16) (hOther : 4 ≤ i) :
    Word.bit (mask &&& codes) i = false := by
  have hCodes : ∀ i < 16, 4 ≤ i → Word.bit codes i = false := by decide
  rw [Word.bit_and, hCodes i hi hOther, Bool.and_false]

namespace SameButCodes

variable {s t : Status}

theorem tidy (h : SameButCodes s t) (hTidy : s.Tidy) : t.Tidy := by
  have hCodes : ∀ i < 4, Word.bit codes i = true := by decide
  apply Word.within_iff_bit.2
  intro i hi hSet
  by_cases hCode : i < 4
  · exact hCodes i hCode
  · rw [h i hi (Nat.not_lt.1 hCode)] at hSet
    exact Word.within_iff_bit.1 hTidy i hi hSet

theorem of_eq (h : t = s) : SameButCodes s t :=
  h ▸ .refl s

theorem clear (s : Status) (mask : UInt16) :
    SameButCodes s ⟨s.word &&& ~~~(mask &&& codes)⟩ := by
  intro i hi hOther
  rw [Word.bit_and, Word.bit_not _ hi, bit_and_codes mask hi hOther, Bool.not_false, Bool.and_true]

theorem set (s : Status) (mask : UInt16) : SameButCodes s ⟨s.word ||| (mask &&& codes)⟩ := by
  intro i hi hOther
  rw [Word.bit_or, bit_and_codes mask hi hOther, Bool.or_false]

end SameButCodes
end Status

open Status (SameButCodes)

theorem status_withAddress (o : Operand) (m : State) {next : UInt16 → State → Outcome Cpu}
    (hNext : ∀ a n, (next a n).1.cpu.status = n.cpu.status) :
    (withAddress o m next).1.cpu.status = m.cpu.status := by
  rw [← status_resolve o .word m]
  unfold withAddress
  split
  next a n hResolve =>
    rw [hResolve]
    exact hNext a n
  next n _ hResolve => rw [hResolve]

theorem sameButCodes_mul (r : Register) (source : UInt16) (m : State) :
    SameButCodes m.cpu.status (mul r source m).cpu.status := by
  simp only [mul]
  split <;> exact (SameButCodes.describe _ _).put _ _

theorem sameButCodes_div (r : Register) (source : UInt16) (m : State) :
    SameButCodes m.cpu.status (div r source m).1.cpu.status := by
  simp only [div]
  split
  · exact (SameButCodes.describe _ _).put _ _
  · exact (SameButCodes.refl _).put _ _
  · exact .refl _

theorem sameButCodes_extended (op : Extended) (source : Operand) (r : Register) (m : State) :
    SameButCodes m.cpu.status (extended op source r m).1.cpu.status := by
  rw [← status_resolve source .word m]
  cases op with
  | mul => exact sameButCodes_mul r _ _
  | div => exact sameButCodes_div r _ _
  | ash | ashc => exact (SameButCodes.describe _ _).putArithmetic _ _

/-- No instruction changes a bit of the status that is no condition code. -/
theorem sameButCodes_execute (i : Instruction) (m : State) :
    SameButCodes m.cpu.status (execute i m).1.cpu.status := by
  obtain ⟨operation, length⟩ := i
  have hUnary (op : Unary) (d : Operand) :
      SameButCodes m.cpu.status (execute ⟨op.operation d, length⟩ m).1.cpu.status := by
    have hFinish := Operands.status_finish (.one op.width d m)
      (op.compute m.cpu.status (Operands.one op.width d m).value) op.stores
    simp only [execute_unary, Machine.proceed, hFinish]
    exact op.sameButCodes_compute _ _
  cases operation with
  | double op w s d =>
      simp only [execute_double_finish, Machine.proceed, Operands.status_finish]
      exact op.sameButCodes_compute _ _ _
  | single op w d => exact hUnary (.single op w) d
  | extended op s r => exact sameButCodes_extended op s r m
  | swab d => exact hUnary .swab d
  | sxt d => exact hUnary .sxt d
  | xor r d =>
      rw [← status_resolve d .word m]
      exact .describe _ _
  | sob r t =>
      simp only [execute, Machine.proceed]
      split <;> exact .refl _
  | branch condition t =>
      simp only [execute, Machine.proceed]
      split <;> exact .refl _
  | jmp o => exact .of_eq (status_withAddress o m fun _ _ => rfl)
  | jsr link o => exact .of_eq (status_withAddress o m fun _ _ => rfl)
  | rts link =>
      simp only [execute, Machine.proceed]
      split <;> exact .refl _
  | clear mask => exact .clear _ mask
  | set mask => exact .set _ mask
  | _ => exact .refl _

end Pdp11

namespace I8086

theorem programInvariant_tidy {note : UInt16 → Cpu → Cpu}
    (hNote : ∀ v c, (note v c).flags = c.flags) :
    ProgramInvariant note fun _ m => m.cpu.flags.Tidy where
  fresh _ := Word.within_zero _
  restored h _ := h
  stores h _ := h
  moveBreak _ h := h
  setIp _ h := h
  setSp _ h := h
  setEntrySp _ h := h
  setAccumulator _ h := h
  setCarry carry h := h.put .carry carry
  note v h := by
    rw [← hNote v] at h
    exact h
  execute i h := tidy_execute i h

end I8086

namespace Pdp11

theorem programInvariant_tidy {note : UInt16 → Cpu → Cpu}
    (hNote : ∀ v c, (note v c).status = c.status) :
    ProgramInvariant note fun _ m => m.cpu.status.Tidy where
  fresh _ := Word.within_zero _
  restored h _ := h
  stores h _ := h
  moveBreak _ h := h
  setIp _ h := h
  setSp _ h := h
  setEntrySp _ h := h
  setAccumulator _ h := h
  setCarry carry h := ((Status.SameButCodes.refl _).put .carry carry).tidy h
  note v h := by
    rw [← hNote v] at h
    exact h
  execute i h := (sameButCodes_execute i _).tidy h

end Pdp11

namespace Personality

/-- The word that holds the flags. -/
def flagWord : (p : Personality) → p.Cpu → UInt16
  | .minix | .unixV6I8086 => fun (c : I8086.Cpu) => c.flags.word
  | .unixV6Pdp11 => fun (c : Pdp11.Cpu) => c.status.word

/-- The bits of it that are flags: nine of the 8086, and four condition codes of the PDP-11. -/
def flagMask : Personality → UInt16
  | .minix | .unixV6I8086 => I8086.Flags.modifiable
  | .unixV6Pdp11 => Pdp11.Status.codes

/-- Saved flags can be restored. The PDP-11 has no instructions that save them. -/
def RestoresFlags : (p : Personality) → Session p.Cpu → Prop
  | .minix | .unixV6I8086 => fun (s : Session I8086.Cpu) => I8086.RestoresFlags s.process.machine
  | .unixV6Pdp11 => fun _ => True

/-- No bit of the word is set but the flags, and that is what can be saved and restored. -/
structure KeepsFlags (p : Personality) (s : Session p.Cpu) : Prop where
  within : p.flagWord s.cpu &&& ~~~p.flagMask = 0
  restores : p.RestoresFlags s

theorem programInvariant_flagWord (p : Personality) :
    ProgramInvariant p.noteStatus fun _ m => Within p.flagMask (p.flagWord m.cpu) := by
  cases p with
  | minix => exact I8086.programInvariant_tidy fun _ _ => rfl
  | unixV6Pdp11 => exact Pdp11.programInvariant_tidy fun _ _ => rfl
  | unixV6I8086 => exact I8086.programInvariant_tidy fun _ _ => rfl

theorem RunsFrom.keepsFlags {p : Personality} {image : Image} {s : Session p.Cpu}
    (h : p.RunsFrom image s) : p.KeepsFlags s := by
  have hWithin := p.programInvariant_flagWord.runsFrom h
  apply KeepsFlags.mk hWithin
  cases p with
  | minix | unixV6I8086 => exact I8086.Flags.Tidy.restoresFlags hWithin
  | unixV6Pdp11 => exact trivial

end Personality

/-- In every session that comes up while a process runs, after whatever is asked of the engine then,
and wherever a step begins on the way, the word of the flags has no bit but those of the flags. What
the 8086 saves of them is enough to have them back. -/
theorem flag_words_hold_flags_only {p : Personality} {image : Image} {s : Session p.Cpu}
    (hRuns : p.RunsFrom image s) :
    p.KeepsFlags s ∧
    ∀ (ops : List (Nat × Operation)) (t : Session p.Cpu) (responses : List Response),
      Operation.performAll (Operation.perform p.system) ops s = some (t, responses) →
        p.KeepsFlags t ∧ ∀ (bound : Nat) (op : Operation) (v : Session p.Cpu),
          p.StepsDuring bound t v op → p.KeepsFlags v := by
  apply And.intro hRuns.keepsFlags
  intro ops t responses hOps
  obtain ⟨later, hLater⟩ := hRuns.performAll hOps
  apply And.intro hLater.keepsFlags
  intro bound op v hSteps
  obtain ⟨inner, hInner⟩ := hLater.stepsDuring hSteps
  exact hInner.keepsFlags

/-- A program that sets the carry, pushes the flags, and pops them. -/
private abbrev carryImage : Image where
  memory := AddressSpace.shared.write 0 [0xf9, 0x9c, 0x9d]
  entry := 0
  format := .raw

/-- The program when it has set the carry. -/
private abbrev carrying : Session Personality.minix.Cpu :=
  (System.advance (Minix.conventions.start carryImage {} {})).1

/-- The carry alone is set, and it comes back from the stack. -/
theorem flag_words_hold_flags_only_carry :
    Personality.minix.flagWord carrying.cpu = 1 ∧ Personality.minix.KeepsFlags carrying ∧
    ∃ saved : I8086.State,
      I8086.execute ⟨.pushf, 1, none⟩ carrying.process.machine = saved.proceed ∧
      ∃ restored : I8086.State, I8086.execute ⟨.popf, 1, none⟩ saved = restored.proceed ∧
        restored.cpu.flags.word = 1 := by
  have hRuns : Personality.minix.RunsFrom carryImage carrying :=
    .instruction (.start carryImage {} {})
  have hWord : Personality.minix.flagWord carrying.cpu = 1 := by
    decide +kernel
  obtain ⟨hKeeps, -⟩ := flag_words_hold_flags_only hRuns
  have hRestores : I8086.RestoresFlags carrying.process.machine := hKeeps.restores
  obtain ⟨saved, hSave, hSaved⟩ := hRestores.stack ⟨.pushf, 1, none⟩ ⟨.popf, 1, none⟩ rfl rfl
  obtain ⟨restored, hRestore, hFlags⟩ := hSaved saved ⟨rfl, rfl⟩
  have hBack : restored.cpu.flags.word = 1 := (congrArg I8086.Flags.word hFlags).trans hWord
  exact ⟨hWord, hKeeps, saved, hSave, restored, hRestore, hBack⟩

end VintageUnix
