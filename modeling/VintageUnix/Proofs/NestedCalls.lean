import VintageUnix.Proofs.ProcessorLaws
import VintageUnix.Proofs.SizedOperands

/-! Calls and returns nest like a stack. A call saves one word below the stack pointer and a plain
return takes it back. The 8086 saves the return address itself. The PDP-11 saves the link
register and keeps the return address there, so that a register that links at several depths
goes through the stack once for each of them. -/
namespace VintageUnix

open AddressSpace (StoresWithin)

section Sequences

variable {Cpu : Type}

/-- Go on from an instruction that neither faults nor traps nor ends the program. -/
def Outcome.andThen (outcome : Outcome Cpu) (rest : Machine Cpu → Outcome Cpu) : Outcome Cpu :=
  match outcome with
  | (m, .ok .proceed) => rest m
  | stopped => stopped

@[simp] theorem Outcome.andThen_proceed (outcome : Outcome Cpu) :
    outcome.andThen Machine.proceed = outcome := by
  obtain ⟨m, fault | event⟩ := outcome
  · rfl
  · cases event <;> rfl

theorem Outcome.andThen_assoc (outcome : Outcome Cpu) (f g : Machine Cpu → Outcome Cpu) :
    (outcome.andThen f).andThen g = outcome.andThen fun m => (f m).andThen g := by
  obtain ⟨m, fault | event⟩ := outcome
  · rfl
  · cases event <;> rfl

variable [Processor Cpu]

/-- Execute an instruction with the instruction pointer already past it, at `next`. -/
def executeAt (next : UInt16) (i : Processor.Instruction Cpu) (m : Machine Cpu) : Outcome Cpu :=
  Processor.execute i (m.mapCpu (Processor.setIp · next))

/-- Execute instructions one after the other, each with the address past it. -/
def executeAll : List (UInt16 × Processor.Instruction Cpu) → Machine Cpu → Outcome Cpu
  | [], m => m.proceed
  | (next, i) :: rest, m => (executeAt next i m).andThen (executeAll rest)

theorem executeAll_append (first second : List (UInt16 × Processor.Instruction Cpu))
    (m : Machine Cpu) :
    executeAll (first ++ second) m = (executeAll first m).andThen (executeAll second) := by
  induction first generalizing m with
  | nil => rfl
  | cons head rest ih =>
      have hRest : executeAll (rest ++ second) =
          fun n => (executeAll rest n).andThen (executeAll second) := funext ih
      simp only [List.cons_append, executeAll, Outcome.andThen_assoc, hRest]

theorem executeAll_singleton (next : UInt16) (i : Processor.Instruction Cpu) (m : Machine Cpu) :
    executeAll [(next, i)] m = executeAt next i m :=
  Outcome.andThen_proceed _

/-- The state after calls that have not been returned from, as many as `depth`. -/
structure CalledDown (depth : Nat) (m n : Machine Cpu) : Prop where
  sp : StackPointer.sp n.cpu = StackPointer.sp m.cpu - .ofNat (2 * depth)
  entrySp : Processor.entrySp n.cpu = Processor.entrySp m.cpu
  memory : StoresWithin [.below (StackPointer.sp m.cpu) (2 * depth)] m.memory n.memory

/-- The state after calls and all their returns. Up to the instruction pointer the registers are
as they were, and so is memory outside of what the calls have saved. -/
structure CameBack (depth : Nat) (m n : Machine Cpu) : Prop where
  registers : ∀ next, Processor.setIp n.cpu next = Processor.setIp m.cpu next
  memory : StoresWithin [.below (StackPointer.sp m.cpu) (2 * depth)] m.memory n.memory

namespace CalledDown

variable {first second depth : Nat} {l m n : Machine Cpu}

theorem refl (m : Machine Cpu) : CalledDown 0 m m where
  sp := by simp
  entrySp := rfl
  memory := .refl _ _

/-- What is stored below calls that have been made. -/
theorem stores (h : CalledDown first l m)
    (hBelow : StoresWithin [.below (StackPointer.sp m.cpu) (2 * second)] m.memory n.memory) :
    StoresWithin [.below (StackPointer.sp l.cpu) (2 * (first + second))] l.memory n.memory := by
  rw [h.sp] at hBelow
  rw [Nat.mul_add]
  exact h.memory.below_trans hBelow

theorem trans (hFirst : CalledDown first l m) (hSecond : CalledDown second m n) :
    CalledDown (first + second) l n where
  sp := by
    rw [hSecond.sp, hFirst.sp, Nat.mul_add, UInt16.ofNat_add]
    grind
  entrySp := hSecond.entrySp.trans hFirst.entrySp
  memory := hFirst.stores hSecond.memory

end CalledDown

theorem CameBack.refl (m : Machine Cpu) : CameBack 0 m m where
  registers _ := rfl
  memory := .refl _ _

/-- The word on top of the stack is still there, unless the calls have come round to it. -/
theorem CameBack.word_sp {depth : Nat} {m n : Machine Cpu} (h : CameBack depth m n)
    (hDepth : depth < 32768) :
    n.memory.word (StackPointer.sp m.cpu) = m.memory.word (StackPointer.sp m.cpu) :=
  h.memory.agrees.word_above (by simp only [segmentSize]; omega)

end Sequences

/-- Which instructions of a processor are calls, and how they are returned from. -/
class Linkage (Cpu : Type) [Processor Cpu] where
  /-- The second instruction is the plain return from where the first one calls. -/
  Returns (call ret : Processor.Instruction Cpu) : Prop
  /-- Whether the return ends the program instead if the stack is as it was on entry. -/
  endsAtEntry (ret : Processor.Instruction Cpu) : Bool

/-- What a call leaves to its return. It saves one word, and from this word and the registers as
the call has left them the return restores those of `m`, wherever it is executed itself. -/
structure Entered {Cpu : Type} [Processor Cpu] [Linkage Cpu]
    (call ret : Processor.Instruction Cpu) (m called : Machine Cpu) : Prop where
  execute : Processor.execute call m = called.proceed
  down : CalledDown 1 m called
  finishes : ∀ next memory, Linkage.endsAtEntry ret = true →
    StackPointer.sp called.cpu = Processor.entrySp called.cpu →
    Processor.execute ret ⟨Processor.setIp called.cpu next, memory⟩ =
      (⟨Processor.setIp called.cpu next, memory⟩, .ok .finished)
  returns : ∀ next memory, ¬ (Linkage.endsAtEntry ret = true ∧
      StackPointer.sp called.cpu = Processor.entrySp called.cpu) →
    memory.word (StackPointer.sp called.cpu) = called.memory.word (StackPointer.sp called.cpu) →
    Processor.execute ret ⟨Processor.setIp called.cpu next, memory⟩ =
      Machine.proceed ⟨m.cpu, memory⟩

/-- A processor whose calls can be returned from, whatever is in its registers. -/
class LawfulLinkage (Cpu : Type) [Processor Cpu] [Linkage Cpu] : Prop where
  setIp_setIp (c : Cpu) (v w : UInt16) :
    Processor.setIp (Processor.setIp c v) w = Processor.setIp c w
  sp_setIp (c : Cpu) (v : UInt16) : StackPointer.sp (Processor.setIp c v) = StackPointer.sp c
  entrySp_setIp (c : Cpu) (v : UInt16) :
    Processor.entrySp (Processor.setIp c v) = Processor.entrySp c
  exists_entered {call ret : Processor.Instruction Cpu} (h : Linkage.Returns call ret)
    (m : Machine Cpu) : ∃ called, Entered call ret m called

/-- A call and the return that matches it. -/
structure NestedCall (Cpu : Type) [Processor Cpu] [Linkage Cpu] where
  call : Processor.Instruction Cpu
  /-- Where control is to come back: the address past the call. -/
  returnAddress : UInt16
  ret : Processor.Instruction Cpu
  /-- The address past the return. -/
  next : UInt16
  returns : Linkage.Returns call ret

section Nesting

variable {Cpu : Type} [Processor Cpu] [Linkage Cpu]

namespace NestedCall

def entry (c : NestedCall Cpu) : UInt16 × Processor.Instruction Cpu :=
  (c.returnAddress, c.call)

def exit (c : NestedCall Cpu) : UInt16 × Processor.Instruction Cpu :=
  (c.next, c.ret)

/-- The return ends the program when it is executed with this stack pointer. -/
def Finishes (c : NestedCall Cpu) (entrySp sp : UInt16) : Prop :=
  Linkage.endsAtEntry c.ret = true ∧ sp = entrySp

instance (c : NestedCall Cpu) (entrySp sp : UInt16) : Decidable (c.Finishes entrySp sp) :=
  inferInstanceAs (Decidable (_ ∧ _))

/-- None of the returns ends the program, if the first call is made with this stack pointer. -/
def NoneFinishes (entrySp : UInt16) : (sp : UInt16) → List (NestedCall Cpu) → Prop
  | _, [] => True
  | sp, c :: inner => ¬ c.Finishes entrySp (sp - 2) ∧ NoneFinishes entrySp (sp - 2) inner

end NestedCall

open NestedCall (NoneFinishes)

/-- The state in which calls end up that are made one inside the other. -/
def callAll (calls : List (NestedCall Cpu)) (m : Machine Cpu) : Machine Cpu :=
  (executeAll (calls.map NestedCall.entry) m).1

/-- The calls, and their returns in reverse order. -/
def thereAndBack (calls : List (NestedCall Cpu)) : List (UInt16 × Processor.Instruction Cpu) :=
  calls.map NestedCall.entry ++ calls.reverse.map NestedCall.exit

/-- The innermost calls come back to the one around them, which then returns. -/
theorem executeAll_thereAndBack {c : NestedCall Cpu} {inner : List (NestedCall Cpu)}
    {m called n : Machine Cpu} (hCall : executeAt c.returnAddress c.call m = called.proceed)
    (hInner : executeAll (thereAndBack inner) called = n.proceed) :
    executeAll (thereAndBack (c :: inner)) m = executeAt c.next c.ret n := by
  have hShape : thereAndBack (c :: inner) =
      (c.returnAddress, c.call) :: (thereAndBack inner ++ [(c.next, c.ret)]) := by
    simp [thereAndBack, NestedCall.entry, NestedCall.exit]
  rw [hShape, executeAll, hCall]
  show executeAll (thereAndBack inner ++ [(c.next, c.ret)]) called = _
  rw [executeAll_append, hInner]
  exact executeAll_singleton ..

variable [LawfulLinkage Cpu]

theorem CalledDown.of_setIp {depth : Nat} {m n : Machine Cpu} {address : UInt16}
    (h : CalledDown depth (m.mapCpu (Processor.setIp · address)) n) : CalledDown depth m n := by
  obtain ⟨hSp, hEntrySp, hMemory⟩ := h
  simp only [Machine.mapCpu, LawfulLinkage.sp_setIp, LawfulLinkage.entrySp_setIp]
    at hSp hEntrySp hMemory
  exact ⟨hSp, hEntrySp, hMemory⟩

/-- Making a call, with what it leaves to its return. -/
theorem NestedCall.exists_entered (c : NestedCall Cpu) (m : Machine Cpu) :
    ∃ called, executeAt c.returnAddress c.call m = called.proceed ∧ CalledDown 1 m called ∧
      Entered c.call c.ret (m.mapCpu (Processor.setIp · c.returnAddress)) called := by
  obtain ⟨called, hEntered⟩ :=
    LawfulLinkage.exists_entered c.returns (m.mapCpu (Processor.setIp · c.returnAddress))
  exact ⟨called, hEntered.execute, hEntered.down.of_setIp, hEntered⟩

theorem executeAll_calls (calls : List (NestedCall Cpu)) (m : Machine Cpu) :
    executeAll (calls.map NestedCall.entry) m = (callAll calls m).proceed ∧
      CalledDown calls.length m (callAll calls m) := by
  induction calls generalizing m with
  | nil => exact ⟨rfl, .refl m⟩
  | cons c inner ih =>
      obtain ⟨called, hCall, hDown, -⟩ := c.exists_entered m
      obtain ⟨hInner, hDeeper⟩ := ih called
      have hAll : executeAll ((c :: inner).map NestedCall.entry) m =
          executeAll (inner.map NestedCall.entry) called := by
        rw [List.map_cons, NestedCall.entry, executeAll, hCall]
        rfl
      have hState : callAll (c :: inner) m = callAll inner called := congrArg Prod.fst hAll
      rw [hAll, hState, List.length_cons, Nat.add_comm]
      exact ⟨hInner, hDown.trans hDeeper⟩

/-- The return from a call, once the calls inside it have come back. -/
theorem Entered.executeAt_ret {c : NestedCall Cpu} {m called n : Machine Cpu} {depth : Nat}
    (h : Entered c.call c.ret (m.mapCpu (Processor.setIp · c.returnAddress)) called)
    (hBack : CameBack depth called n) (hDepth : depth < 32768) :
    ∃ o, o.memory = n.memory ∧
      executeAt c.next c.ret n =
        (o, .ok (if c.Finishes (Processor.entrySp m.cpu) (StackPointer.sp m.cpu - 2)
          then .finished else .proceed)) ∧
      (¬ c.Finishes (Processor.entrySp m.cpu) (StackPointer.sp m.cpu - 2) →
        o.cpu = Processor.setIp m.cpu c.returnAddress) := by
  have hDown := h.down.of_setIp
  have hSp : StackPointer.sp m.cpu - 2 = StackPointer.sp called.cpu := hDown.sp.symm
  rw [executeAt, Machine.mapCpu, hBack.registers, hSp, ← hDown.entrySp]
  by_cases hFinishes : c.Finishes (Processor.entrySp called.cpu) (StackPointer.sp called.cpu)
  · refine ⟨⟨Processor.setIp called.cpu c.next, n.memory⟩, rfl, ?_, (absurd hFinishes ·)⟩
    rw [if_pos hFinishes]
    exact h.finishes _ _ hFinishes.1 hFinishes.2
  · refine ⟨⟨Processor.setIp m.cpu c.returnAddress, n.memory⟩, rfl, ?_, fun _ => rfl⟩
    rw [if_neg hFinishes]
    exact h.returns _ _ hFinishes (hBack.word_sp hDepth)

/-- One more call around calls that come back. -/
theorem exists_execute_around (c : NestedCall Cpu) {inner : List (NestedCall Cpu)}
    (hDepth : (c :: inner).length ≤ 32767) (m : Machine Cpu)
    (hInner : ∀ called : Machine Cpu, CalledDown 1 m called →
      ∃ n, executeAll (thereAndBack inner) called = n.proceed ∧ CameBack inner.length called n) :
    ∃ n, StoresWithin [.below (StackPointer.sp m.cpu) (2 * (c :: inner).length)]
        m.memory n.memory ∧
      executeAll (thereAndBack (c :: inner)) m =
        (n, .ok (if c.Finishes (Processor.entrySp m.cpu) (StackPointer.sp m.cpu - 2)
          then .finished else .proceed)) ∧
      (¬ c.Finishes (Processor.entrySp m.cpu) (StackPointer.sp m.cpu - 2) →
        n.cpu = Processor.setIp m.cpu c.returnAddress) := by
  obtain ⟨called, hCall, hDown, hEntered⟩ := c.exists_entered m
  obtain ⟨back, hExecute, hBack⟩ := hInner called hDown
  obtain ⟨n, hMemory, hReturn, hRegisters⟩ :=
    hEntered.executeAt_ret hBack (Nat.lt_succ_of_le (Nat.le_of_succ_le hDepth))
  refine ⟨n, ?_, (executeAll_thereAndBack hCall hExecute).trans hReturn, hRegisters⟩
  rw [hMemory, List.length_cons, Nat.add_comm]
  exact hDown.stores hBack.memory

theorem NestedCall.NoneFinishes.exists_cameBack {calls : List (NestedCall Cpu)}
    (hDepth : calls.length ≤ 32767) {m : Machine Cpu}
    (hNone : NoneFinishes (Processor.entrySp m.cpu) (StackPointer.sp m.cpu) calls) :
    ∃ n, executeAll (thereAndBack calls) m = n.proceed ∧ CameBack calls.length m n := by
  induction calls generalizing m with
  | nil => exact ⟨m, rfl, .refl m⟩
  | cons c inner ih =>
      obtain ⟨hReturns, hNone⟩ := hNone
      obtain ⟨n, hMemory, hExecute, hRegisters⟩ :=
        exists_execute_around c hDepth m fun called hDown => by
          refine ih (Nat.le_of_succ_le hDepth) ?_
          rw [hDown.entrySp, hDown.sp]
          exact hNone
      rw [if_neg hReturns] at hExecute
      refine ⟨n, hExecute, fun next => ?_, hMemory⟩
      rw [hRegisters hReturns, LawfulLinkage.setIp_setIp]

end Nesting

namespace I8086

/-- A call, to an address in the code, in a register or in memory, and the plain return. -/
def Returns (call ret : Instruction) : Prop :=
  (∃ target : Operand, call.operation = .call target ∧
    (target.IsPlace .word ∨ ∃ a, target = .target a)) ∧ ret.operation = .ret none

instance : Linkage Cpu where
  Returns := Returns
  endsAtEntry (ret : Instruction) := ret.operation = .ret none

theorem Returns.exists_execute {call ret : Instruction} (h : Returns call ret) (m : State) :
    ∃ target, execute call m = (m.push m.cpu.ip |> jumpTo target).proceed := by
  obtain ⟨⟨target, hCall, hPlace⟩, -⟩ := h
  have hLocate : ∃ place, m.cpu.locate target = .ok place := by
    rcases hPlace with hPlace | ⟨a, rfl⟩
    · obtain ⟨place, hPlace, -⟩ := hPlace.exists_locate m.cpu
      exact ⟨place, hPlace⟩
    · exact ⟨_, rfl⟩
  obtain ⟨place, hLocate⟩ := hLocate
  exact ⟨loadWord m place, by simp only [execute, hCall, hLocate, Machine.attempt]⟩

/-- The plain return takes the address from the stack. -/
theorem ret_zero (m : State) : ret 0 m =
    ⟨{ m.cpu.set .sp (m.cpu.get .sp + 2) with ip := m.memory.word (m.cpu.get .sp) }, m.memory⟩ := by
  have hPop : m.pop =
      (m.memory.word (m.cpu.get .sp), ⟨m.cpu.set .sp (m.cpu.get .sp + 2), m.memory⟩) :=
    rfl
  simp only [ret, hPop, jumpTo, Machine.mapCpu, Cpu.set_set, Cpu.get_set, if_true, UInt16.add_zero]

/-- The return takes back what the call has pushed. -/
theorem ret_called (c : Cpu) (next : UInt16) (memory : AddressSpace)
    (hWord : memory.word (c.get .sp - 2) = c.ip) :
    ret 0 ⟨{ c.set .sp (c.get .sp - 2) with ip := next }, memory⟩ = ⟨c, memory⟩ := by
  have hSp : ({ c.set .sp (c.get .sp - 2) with ip := next } : Cpu).get .sp = c.get .sp - 2 :=
    c.get_set .sp .sp _
  have hRestored : (c.set .sp (c.get .sp - 2)).set .sp (c.get .sp) = c := by
    rw [Cpu.set_set, Cpu.set_get]
  rw [ret_zero]
  simp only [hSp, hWord, UInt16.sub_add_cancel]
  have hSame := congrArg (fun d : Cpu => (⟨{ d with ip := c.ip }, memory⟩ : State)) hRestored
  exact hSame

instance : LawfulLinkage Cpu where
  setIp_setIp _ _ _ := rfl
  sp_setIp _ _ := rfl
  entrySp_setIp _ _ := rfl
  exists_entered {call ret} h m := by
    obtain ⟨target, hCall⟩ := Returns.exists_execute h m
    have hRet : Instruction.operation ret = .ret none := h.2
    have hSp : StackPointer.sp (jumpTo target (m.push m.cpu.ip)).cpu = m.cpu.get .sp - 2 :=
      m.cpu.get_set .sp .sp _
    have hExecute (n : State) : Processor.execute ret n =
        if n.cpu.get .sp = n.cpu.entrySp then (n, .ok .finished) else (I8086.ret 0 n).proceed := by
      show execute ret n = _
      rw [execute, hRet]
    refine ⟨_, hCall, ⟨hSp, rfl, m.storesWithin_push _⟩, ?_, ?_⟩
    · intro next memory _ hEntry
      rw [hExecute]
      exact if_pos hEntry
    · intro next memory hGoesOn hWord
      rw [hSp] at hWord
      have hSaved : memory.word (m.cpu.get .sp - 2) = m.cpu.ip :=
        hWord.trans (m.memory.word_setWord ..)
      rw [hExecute]
      refine (if_neg fun hEntry => hGoesOn ⟨decide_eq_true hRet, hEntry⟩).trans ?_
      exact congrArg Machine.proceed (ret_called m.cpu next memory hSaved)

end I8086

namespace Pdp11

/-- An operand in memory whose address is found without a step of its register. -/
def Operand.isSteady : Operand → Bool
  | .deferred _ | .indexed .. | .indexedDeferred .. => true
  | .absolute _ | .relative _ | .relativeDeferred _ => true
  | _ => false

/-- A call that links through any register but the stack pointer, and the return through the same
register. -/
def Returns (call ret : Instruction) : Prop :=
  ∃ link target, link ≠ .sp ∧ target.isSteady = true ∧ call.operation = .jsr link target ∧
    ret.operation = .rts link

instance : Linkage Cpu where
  Returns := Returns
  endsAtEntry (ret : Instruction) := ret.operation = .rts .pc

theorem exists_resolve {o : Operand} (h : o.isSteady = true) (w : Width) (m : State) :
    ∃ a, resolve o w m = (.memory a, m) := by
  cases o with
  | deferred | indexed | indexedDeferred | absolute | relative | relativeDeferred =>
      exact ⟨_, rfl⟩
  | register | increment | incrementDeferred | decrement | decrementDeferred | immediate =>
      cases h

theorem Cpu.set_get (c : Cpu) (r : Register) : c.set r (c.get r) = c := by
  have hRegisters : c.registers.set r (c.get r) = c.registers := Vector.set_getElem_self _
  rw [Cpu.set, hRegisters]

theorem Cpu.ext_get {c d : Cpu} (hRegisters : ∀ r, c.get r = d.get r)
    (hStatus : c.status = d.status) (hEntry : c.entrySp = d.entrySp) : c = d := by
  obtain ⟨registers, status, entrySp⟩ := c
  obtain ⟨registers', status', entrySp'⟩ := d
  obtain rfl : status = status' := hStatus
  obtain rfl : entrySp = entrySp' := hEntry
  obtain rfl : registers = registers' := Vector.ext fun i hi => hRegisters ⟨i, hi⟩
  rfl

/-- The registers after a call. -/
theorem get_jsr (m : State) (link : Register) (target : UInt16) (r : Register) :
    (jsr link target m).cpu.get r =
      if .pc = r then target
      else if link = r then m.cpu.get .pc
      else if .sp = r then m.cpu.get .sp - 2
      else m.cpu.get r := by
  have hPc : (m.push (m.cpu.get link)).cpu.get .pc = m.cpu.get .pc := m.cpu.get_set .sp .pc _
  have hPushed : (m.push (m.cpu.get link)).cpu.get r =
      if .sp = r then m.cpu.get .sp - 2 else m.cpu.get r :=
    m.cpu.get_set .sp r _
  rw [← hPushed, ← hPc]
  simp only [jsr, jumpTo, setRegister, Machine.mapCpu, Cpu.get_set]

/-- The return takes the saved register from the stack. -/
theorem rts_eq (m : State) {link : Register} : rts link m =
    ⟨((m.cpu.set .pc (m.cpu.get link)).set .sp (m.cpu.get .sp + 2)).set link
      (m.memory.word (m.cpu.get .sp)), m.memory⟩ := by
  have hSp : StackPointer.sp (m.cpu.set .pc (m.cpu.get link)) = m.cpu.get .sp :=
    m.cpu.get_set .pc .sp _
  simp only [rts, jumpTo, setRegister, Machine.mapCpu, Machine.pop, hSp]
  rfl

/-- The return takes back what the call has pushed, through the register that links them. -/
theorem rts_called (m : State) {link : Register} (hLink : link ≠ .sp) (target next : UInt16)
    (memory : AddressSpace) (hWord : memory.word (m.cpu.get .sp - 2) = m.cpu.get link) :
    rts link ⟨(jsr link target m).cpu.set .pc next, memory⟩ = ⟨m.cpu, memory⟩ := by
  have hSp : ((jsr link target m).cpu.set .pc next).get .sp = m.cpu.get .sp - 2 := by
    rw [Cpu.get_set, if_neg (by decide), get_jsr, if_neg (by decide), if_neg hLink, if_pos rfl]
  rw [rts_eq, hSp, hWord]
  refine congrArg (Machine.mk · memory) (Cpu.ext_get (fun r => ?_) rfl rfl)
  simp only [Cpu.get_set, get_jsr]
  by_cases hSaved : link = r
  · rw [if_pos hSaved, hSaved]
  · rw [if_neg hSaved]
    by_cases hStack : .sp = r
    · rw [if_pos hStack, UInt16.sub_add_cancel, hStack]
    · by_cases hPointer : .pc = r
      · subst hPointer
        simp only [if_neg hStack, if_neg (Ne.symm hSaved), if_true]
      · simp only [if_neg hStack, if_neg hPointer, if_neg hSaved]

instance : LawfulLinkage Cpu where
  setIp_setIp c := c.set_set .pc
  sp_setIp c := c.get_set .pc .sp
  entrySp_setIp _ _ := rfl
  exists_entered {call ret} h m := by
    obtain ⟨link, o, hLink, hSteady, hCall, hRet⟩ := h
    obtain ⟨target, hResolve⟩ := exists_resolve hSteady .word m
    have hCall : execute call m = (jsr link target m).proceed := by
      simp only [execute, hCall, withAddress, hResolve]
    have hSp : StackPointer.sp (jsr link target m).cpu = m.cpu.get .sp - 2 :=
      (get_jsr ..).trans (by rw [if_neg (by decide), if_neg hLink, if_pos rfl])
    have hExecute (n : State) : Processor.execute ret n =
        if link = .pc ∧ n.cpu.get .sp = n.cpu.entrySp then (n, .ok .finished)
        else (rts link n).proceed := by
      show execute ret n = _
      rw [execute, hRet]
    have hNext (next : UInt16) : StackPointer.sp ((jsr link target m).cpu.set .pc next) =
        StackPointer.sp (jsr link target m).cpu :=
      Cpu.get_set _ .pc .sp _
    have hEnds : Linkage.endsAtEntry ret = true ↔ link = .pc := by
      show decide (Instruction.operation ret = .rts .pc) = true ↔ _
      rw [hRet, decide_eq_true_iff, Operation.rts.injEq]
    refine ⟨_, hCall, ⟨hSp, rfl, m.storesWithin_push _⟩, ?_, ?_⟩
    · intro next memory hPlain hEntry
      rw [hExecute]
      exact if_pos ⟨hEnds.1 hPlain, (hNext next).trans hEntry⟩
    · intro next memory hGoesOn hWord
      rw [hSp] at hWord
      have hSaved : memory.word (m.cpu.get .sp - 2) = m.cpu.get link :=
        hWord.trans (m.memory.word_setWord ..)
      rw [hExecute]
      refine (if_neg fun ⟨hPlain, hEntry⟩ =>
        hGoesOn ⟨hEnds.2 hPlain, (hNext next).symm.trans hEntry⟩).trans ?_
      exact congrArg Machine.proceed (rts_called m hLink target next memory hSaved)

end Pdp11

instance (p : Personality) : Linkage p.Cpu :=
  match p with
  | .minix | .unixV6I8086 => inferInstanceAs (Linkage I8086.Cpu)
  | .unixV6Pdp11 => inferInstanceAs (Linkage Pdp11.Cpu)

instance (p : Personality) : LawfulLinkage p.Cpu := by
  cases p with
  | minix => exact inferInstanceAs (LawfulLinkage I8086.Cpu)
  | unixV6Pdp11 => exact inferInstanceAs (LawfulLinkage Pdp11.Cpu)
  | unixV6I8086 => exact inferInstanceAs (LawfulLinkage I8086.Cpu)

/-- Calls and returns nest like a stack. Up to 32767 calls are made one inside the other, on either
processor and from any state, to wherever their operands lead and with any return addresses. On
the PDP-11 they link through any registers but the stack pointer, the same one as often as
one likes. Then the plain returns are executed in reverse order. Each of them gives control
back to its call: all registers and flags are as they were before the call was made, with the
return address as the instruction pointer. Only the words that the calls have saved below the
stack pointer have changed. The exception is a plain return of the 8086, or one through the
program counter of the PDP-11, at the entry stack pointer, which ends the program. -/
theorem nested_calls_return_in_turn (p : Personality) (outer inner : List (NestedCall p.Cpu))
    (c : NestedCall p.Cpu) (hDepth : (outer ++ c :: inner).length ≤ 32767) (m : Machine p.Cpu) :
    let calls := outer ++ c :: inner
    let before := callAll outer m
    let sp := StackPointer.sp before.cpu
    let entrySp := Processor.entrySp m.cpu
    executeAll (outer.map NestedCall.entry) m = before.proceed ∧
    sp = StackPointer.sp m.cpu - .ofNat (2 * outer.length) ∧
    (NestedCall.NoneFinishes entrySp (sp - 2) inner →
      ∃ n, executeAll (calls.map NestedCall.entry ++ (c :: inner).reverse.map NestedCall.exit) m =
          (n, .ok (if c.Finishes entrySp (sp - 2) then .finished else .proceed)) ∧
        (¬ c.Finishes entrySp (sp - 2) → n.cpu = Processor.setIp before.cpu c.returnAddress) ∧
        StoresWithin [.below (StackPointer.sp m.cpu) (2 * calls.length)] m.memory n.memory) := by
  intro calls before sp entrySp
  obtain ⟨hOuter, hDown⟩ := executeAll_calls outer m
  refine ⟨hOuter, hDown.sp, fun hNone => ?_⟩
  have hInner : (c :: inner).length ≤ 32767 := by
    rw [List.length_append] at hDepth
    omega
  have hEntry : Processor.entrySp before.cpu = entrySp := hDown.entrySp
  obtain ⟨n, hMemory, hExecute, hRegisters⟩ :=
    exists_execute_around c hInner before fun called hCalled => by
      refine NestedCall.NoneFinishes.exists_cameBack (Nat.le_of_succ_le hInner) ?_
      rw [hCalled.entrySp, hCalled.sp, hEntry]
      exact hNone
  rw [hEntry] at hExecute hRegisters
  refine ⟨n, ?_, hRegisters, ?_⟩
  · have hShape : calls.map NestedCall.entry ++ (c :: inner).reverse.map NestedCall.exit =
        outer.map NestedCall.entry ++ thereAndBack (c :: inner) := by
      simp only [calls, thereAndBack, List.map_append, List.append_assoc]
    rw [hShape, executeAll_append, hOuter]
    exact hExecute
  · simp only [calls, List.length_append]
    exact hDown.stores hMemory

/-- A call of a subroutine that links through a register, and its return. -/
private abbrev linked (link : Pdp11.Register) (hLink : link ≠ .sp) (returnAddress : UInt16) :
    NestedCall (Personality.Cpu .unixV6Pdp11) where
  call := Pdp11.Instruction.mk (.jsr link (.absolute 0x100)) 4
  returnAddress := returnAddress
  ret := Pdp11.Instruction.mk (.rts link) 2
  next := 0x102
  returns := ⟨link, .absolute 0x100, hLink, rfl, rfl, rfl⟩

/-- A stack at the bottom of memory. -/
private abbrev linkedState : Machine (Personality.Cpu .unixV6Pdp11) :=
  Machine.mk { (({} : Pdp11.Cpu).set .r5 0x1234).set .sp 2 with entrySp := 0xfffe } .shared

/-- The register links twice and then the program counter links. The second return meets the
entry stack pointer, but it is not a plain one. -/
theorem nested_calls_return_in_turn_linked :
    let outermost := linked .r5 (by decide) 0x10
    let inner := [linked .r5 (by decide) 0x20, linked .pc (by decide) 0x30]
    let calls := outermost :: inner
    calls.length ≤ 32767 ∧ NestedCall.NoneFinishes 0xfffe 0 inner ∧
    ∃ n : Machine Pdp11.Cpu,
      executeAll (calls.map NestedCall.entry ++ calls.reverse.map NestedCall.exit) linkedState =
        n.proceed ∧
      n.cpu.get .r5 = 0x1234 ∧ n.cpu.get .sp = 2 ∧ n.cpu.get .pc = 0x10 ∧
      n.memory.byte 2 = 0 ∧ n.memory.byte 0xfffb = 0 := by
  intro outermost inner calls
  have hNone : NestedCall.NoneFinishes 0xfffe 0 inner :=
    ⟨by decide +kernel, by decide +kernel, trivial⟩
  refine ⟨by decide, hNone, ?_⟩
  obtain ⟨-, -, hReturns⟩ :=
    nested_calls_return_in_turn .unixV6Pdp11 [] inner outermost (by decide) linkedState
  obtain ⟨n, hExecute, hRegisters, hMemory⟩ := hReturns hNone
  have hPasses : ¬ outermost.Finishes 0xfffe 0 := by decide +kernel
  have hCpu : n.cpu = Processor.setIp linkedState.cpu 0x10 := hRegisters hPasses
  refine ⟨n, ?_, ?_, ?_, ?_, ?_, ?_⟩
  · exact hExecute.trans (congrArg (fun event => (n, Except.ok event)) (if_neg hPasses))
  · rw [hCpu]; rfl
  · rw [hCpu]; rfl
  · rw [hCpu]; rfl
  · exact (hMemory.agrees 2 (by decide +kernel)).trans (Segment.get_zero 2)
  · exact (hMemory.agrees 0xfffb (by decide +kernel)).trans (Segment.get_zero 0xfffb)

end VintageUnix
