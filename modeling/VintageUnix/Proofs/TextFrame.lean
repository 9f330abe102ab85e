import Mathlib.Logic.Relation
import VintageUnix.Proofs.AnswerRelation
import VintageUnix.Proofs.Dispatch
import VintageUnix.Proofs.Operations

/-! When the text of a process can change. Nothing that a program, its handlers or its children do
reaches a text of its own segment, except that a call of the process itself replaces it. -/
namespace VintageUnix

open AddressSpace (Stores SameText)

theorem AddressSpace.SameText.of_machine {Cpu : Type} [Processor Cpu] {s t : Session Cpu}
    (h : t.process.machine = s.process.machine) : SameText s.memory t.memory := by
  simp only [Session.memory, h]
  exact .refl _

section Engine

variable {Cpu : Type} [Processor Cpu]

/-- A step after the other, none of which faults. -/
abbrev System.Follows (step : System.Stepper Cpu) : Session Cpu → Session Cpu → Prop :=
  Relation.ReflTransGen fun s t => step s = some (t, .ok ())

/-- In one step the process itself comes to take a trap. It does so with the instruction
of the step, or in the handler of a signal that arrives before it. -/
inductive System.TakesTrap (sys : System Cpu) :
    (bound : Nat) → Session Cpu → (trap : UInt16) → Session Cpu → Prop
  | instruction {bound s trap t} (hPending : sys.takePending s.host = none)
    (hTrap : System.advance s = (t, .ok (.trap trap))) : TakesTrap sys (bound + 1) s trap t
  | handled {bound s signal host u trap t}
    (hPending : sys.takePending s.host = some (signal, host))
    (hHandled : sys.deliver bound signal (s.withHost host) = some (u, .ok ()))
    (hTrap : System.advance u = (t, .ok (.trap trap))) : TakesTrap sys (bound + 1) s trap t
  | handler {bound s signal host handler u trap t}
    (hPending : sys.takePending s.host = some (signal, host))
    (hHandler : sys.disposition (s.process.signals.get signal).handler = .catch handler)
    (hFollows : System.Follows (sys.step bound) (System.enterHandler handler (s.withHost host)) u)
    (hTrap : TakesTrap sys bound u trap t) : TakesTrap sys (bound + 1) s trap t

/-- The traps that a process itself takes during an operation. -/
def Operation.TakesTrap (sys : System Cpu) (bound : Nat) (s : Session Cpu) (trap : UInt16)
    (t : Session Cpu) : Operation → Prop
  | step => sys.TakesTrap bound s trap t
  | cycles _ => ∃ u, System.Follows (sys.step bound) s u ∧ sys.TakesTrap bound u trap t
  | run => ∃ u, System.Follows (sys.step bound)
      (s.mapHost (sys.installActions s.process.signals)) u ∧ sys.TakesTrap bound u trap t
  | deliver signal => ∃ handler u,
      sys.disposition (s.process.signals.get signal).handler = .catch handler ∧
      System.Follows (sys.step bound) (System.enterHandler handler s) u ∧
      sys.TakesTrap bound u trap t
  | Operation.trap number => trap = number ∧ t = s
  | execute _ => False
  | raise _ => False

theorem System.sameText_enterHandler (handler : UInt16) (s : Session Cpu) :
    SameText s.memory (enterHandler handler s).memory :=
  (s.process.machine.stores_push _).sameText

variable {sys : System Cpu} {replaces : UInt16 → Session Cpu → Prop}

section Steps

variable {bound : Nat} (hStep : ∀ {s t : Session Cpu} {result : Except Fault Unit},
  sys.step bound s = some (t, result) → SameText s.memory t.memory ∨
    ∃ trap u, sys.TakesTrap bound s trap u ∧ replaces trap u)

include hStep

theorem System.sameText_handlerLoop {ip sp : UInt16} {limit : Nat} {s t : Session Cpu}
    {result : Except Fault Unit}
    (h : handlerLoop (sys.step bound) ip sp limit s = some (t, result)) :
    SameText s.memory t.memory ∨ ∃ v trap u, Follows (sys.step bound) s v ∧
      sys.TakesTrap bound v trap u ∧ replaces trap u := by
  induction limit generalizing s with
  | zero =>
      simp only [handlerLoop] at h
      split at h <;> cases h
      exact .inl (.refl _)
  | succ limit ih =>
      simp only [handlerLoop] at h
      split at h
      · cases h
        exact .inl (.refl _)
      · split at h
        next v hFirst =>
          rcases hStep hFirst with hSame | ⟨trap, u, hTakes⟩
          · rcases ih h with hRest | ⟨w, trap, u, hFollows, hTakes⟩
            · exact .inl (hSame.trans hRest)
            · exact .inr ⟨w, trap, u, .head hFirst hFollows, hTakes⟩
          · exact .inr ⟨s, trap, u, .refl, hTakes⟩
        next hOther =>
          rcases hStep h with hSame | ⟨trap, u, hTakes⟩
          · exact .inl hSame
          · exact .inr ⟨s, trap, u, .refl, hTakes⟩

/-- Registers are restored after a handler, but memory stays as the handler left it. -/
theorem System.sameText_deliver {signal : UInt16} {s t : Session Cpu}
    {result : Except Fault Unit} (h : sys.deliver bound signal s = some (t, result)) :
    SameText s.memory t.memory ∨ ∃ trap u,
      Operation.TakesTrap sys bound s trap u (.deliver signal) ∧ replaces trap u := by
  simp only [deliver, deliverWith] at h
  split at h
  next handler hHandler =>
    have hLoop : ∃ v, handlerLoop (sys.step bound) (Processor.ip s.cpu) (StackPointer.sp s.cpu)
        bound (enterHandler handler s) = some (v, result) ∧ t.memory = v.memory := by
      split at h
      next v hOk =>
        cases h
        refine ⟨v, hOk, ?_⟩
        split <;> rfl
      next => exact ⟨t, h, rfl⟩
    obtain ⟨v, hLoop, hMemory⟩ := hLoop
    rw [hMemory]
    rcases sameText_handlerLoop hStep hLoop with hSame | ⟨w, trap, u, hFollows, hTakes, hReplaces⟩
    · exact .inl ((sameText_enterHandler handler s).trans hSame)
    · exact .inr ⟨trap, u, ⟨handler, w, hHandler, hFollows, hTakes⟩, hReplaces⟩
  next =>
    cases h
    exact .inl (.refl _)

theorem System.sameText_cycleLoop {count done : Nat} {s t : Session Cpu} {report : CycleReport}
    (h : cycleLoop (sys.step bound) count done s = some (t, report)) :
    SameText s.memory t.memory ∨ ∃ v trap u, Follows (sys.step bound) s v ∧
      sys.TakesTrap bound v trap u ∧ replaces trap u := by
  induction count generalizing s done with
  | zero =>
      cases h
      exact .inl (.refl _)
  | succ count ih =>
      simp only [cycleLoop] at h
      split at h
      next => cases h
      next v fault hFault =>
        cases h
        rcases hStep hFault with hSame | ⟨trap, u, hTakes⟩
        · exact .inl hSame
        · exact .inr ⟨s, trap, u, .refl, hTakes⟩
      next v hFirst =>
        rcases hStep hFirst with hSame | ⟨trap, u, hTakes⟩
        · split at h
          next =>
            cases h
            exact .inl hSame
          next =>
            rcases ih h with hRest | ⟨w, trap, u, hFollows, hTakes⟩
            · exact .inl (hSame.trans hRest)
            · exact .inr ⟨w, trap, u, .head hFirst hFollows, hTakes⟩
        · exact .inr ⟨s, trap, u, .refl, hTakes⟩

theorem System.sameText_executeCycles {count : Nat} {s t : Session Cpu} {report : CycleReport}
    (h : sys.executeCycles bound count s = some (t, report)) :
    SameText s.memory t.memory ∨ ∃ v trap u, Follows (sys.step bound) s v ∧
      sys.TakesTrap bound v trap u ∧ replaces trap u := by
  simp only [executeCycles, cyclesWith] at h
  split at h
  · exact sameText_cycleLoop hStep h
  · cases h
    exact .inl (.refl _)

end Steps

variable [LawfulProcessor Cpu]

theorem System.sameText_advance (s : Session Cpu) :
    SameText s.memory (System.advance s).1.memory :=
  (System.advances_advance s).stores.sameText

variable (hAnswer : ∀ {run : Runner Cpu} {trap : UInt16} {s t : Session Cpu} {result},
    sys.answer run trap s = some (t, result) → ¬ replaces trap s → SameText s.memory t.memory)

include hAnswer

/-- An instruction, and the answer to it if it traps. -/
theorem System.sameText_executeNext {run : Runner Cpu} {s t : Session Cpu}
    {result : Except Fault Unit} (h : sys.executeNext run s = some (t, result)) :
    SameText s.memory t.memory ∨
      ∃ trap u, advance s = (u, .ok (.trap trap)) ∧ replaces trap u := by
  have hAdvance := sameText_advance s
  unfold executeNext at h
  split at h
  next u hProceed =>
    cases h
    rw [hProceed] at hAdvance
    exact .inl hAdvance
  next u hFinished =>
    cases h
    rw [hFinished] at hAdvance
    exact .inl hAdvance
  next u trap hTrap =>
    rw [hTrap] at hAdvance
    by_cases hReplaces : replaces trap u
    · exact .inr ⟨trap, u, hTrap, hReplaces⟩
    · exact .inl (hAdvance.trans (hAnswer h hReplaces))
  next u fault hFault =>
    cases h
    rw [hFault] at hAdvance
    exact .inl hAdvance

/-- The induction is on the bound. The handler of a signal runs under a smaller one, and
the child of a fork has a memory of its own. -/
theorem System.sameText_step {bound : Nat} {s t : Session Cpu} {result : Except Fault Unit}
    (h : sys.step bound s = some (t, result)) :
    SameText s.memory t.memory ∨ ∃ trap u, sys.TakesTrap bound s trap u ∧ replaces trap u := by
  induction bound generalizing s t result with
  | zero => cases h
  | succ bound ih =>
      change sys.stepWith (sys.run bound) (sys.deliver bound) s = some (t, result) at h
      unfold stepWith at h
      split at h
      next hPending =>
        rcases sys.sameText_executeNext hAnswer h with hSame | ⟨trap, u, hTrap, hReplaces⟩
        · exact .inl hSame
        · exact .inr ⟨trap, u, .instruction hPending hTrap, hReplaces⟩
      next signal host hPending =>
        have hDelivered {v result}
            (h : sys.deliver bound signal (s.withHost host) = some (v, result)) :
            SameText s.memory v.memory ∨
              ∃ trap u, sys.TakesTrap (bound + 1) s trap u ∧ replaces trap u := by
          rcases sameText_deliver ih h with hSame | ⟨trap, u, hTakes, hReplaces⟩
          · exact .inl hSame
          · obtain ⟨handler, w, hHandler, hFollows, hTakes⟩ := hTakes
            exact .inr ⟨trap, u, .handler hPending hHandler hFollows hTakes, hReplaces⟩
        split at h
        next v hHandled =>
          rcases hDelivered hHandled with hSame | hTakes
          · split at h
            · rcases sys.sameText_executeNext hAnswer h with hRest | ⟨trap, u, hTrap, hReplaces⟩
              · exact .inl (hSame.trans hRest)
              · exact .inr ⟨trap, u, .handled hPending hHandled hTrap, hReplaces⟩
            · cases h
              exact .inl hSame
          · exact .inr hTakes
        next => exact hDelivered h

/-- An operation changes the text only by a replacing trap, or by replacing the program
itself. -/
theorem Operation.sameText_perform {bound : Nat} {op : Operation} {s t : Session Cpu}
    {response : Response} (h : op.perform sys bound s = some (t, response)) :
    SameText s.memory t.memory ∨ (∃ trap u, op.TakesTrap sys bound s trap u ∧ replaces trap u) ∨
      ∃ path, op = .execute path ∧ response = .reply (.ok ()) := by
  have hStep {s t : Session Cpu} {result} (h : sys.step bound s = some (t, result)) :=
    sys.sameText_step hAnswer h
  cases op with
  | step =>
      obtain ⟨⟨t, result⟩, hRun, hEnd⟩ := Option.map_eq_some_iff.1 h
      cases hEnd
      rcases hStep hRun with hSame | hTakes
      · exact .inl hSame
      · exact .inr (.inl hTakes)
  | cycles count =>
      obtain ⟨⟨t, report⟩, hRun, hEnd⟩ := Option.map_eq_some_iff.1 h
      cases hEnd
      rcases System.sameText_executeCycles hStep hRun with
        hSame | ⟨v, trap, u, hFollows, hTakes, hReplaces⟩
      · exact .inl hSame
      · exact .inr (.inl ⟨trap, u, ⟨v, hFollows, hTakes⟩, hReplaces⟩)
  | run =>
      obtain ⟨t, hRun, hEnd⟩ := Option.map_eq_some_iff.1 h
      cases hEnd
      obtain ⟨⟨t, report⟩, hCycles, rfl⟩ := Option.map_eq_some_iff.1 hRun
      rcases System.sameText_executeCycles hStep hCycles with
        hSame | ⟨v, trap, u, hFollows, hTakes, hReplaces⟩
      · exact .inl hSame
      · exact .inr (.inl ⟨trap, u, ⟨v, hFollows, hTakes⟩, hReplaces⟩)
  | deliver signal =>
      obtain ⟨⟨t, result⟩, hRun, hEnd⟩ := Option.map_eq_some_iff.1 h
      cases hEnd
      rcases System.sameText_deliver hStep hRun with hSame | hTakes
      · exact .inl hSame
      · exact .inr (.inl hTakes)
  | trap number =>
      obtain ⟨⟨t, result⟩, hRun, hEnd⟩ := Option.map_eq_some_iff.1 h
      cases hEnd
      by_cases hReplaces : replaces number s
      · exact .inr (.inl ⟨number, s, ⟨rfl, rfl⟩, hReplaces⟩)
      · exact .inl (hAnswer hRun hReplaces)
  | execute path =>
      rcases hExecute : s.execute sys.toConventions path with ⟨result, v⟩
      simp only [perform, hExecute, Option.some.injEq, Prod.mk.injEq] at h
      obtain ⟨rfl, rfl⟩ := h
      cases result with
      | ok _ => exact .inr (.inr ⟨path, rfl, rfl⟩)
      | error e =>
          have hLogs := Session.failsCleanly_execute sys.toConventions path s e
            (congrArg Prod.fst hExecute)
          rw [hExecute] at hLogs
          exact .inl (.of_machine (congrArg Process.machine hLogs.process))
  | raise number =>
      cases h
      exact .inl (.refl _)

end Engine

/-- An invariant of sessions: the text of a process, if it has a segment of its own. -/
theorem keepsText {Cpu : Type} [Processor Cpu] (c : Conventions Cpu) (m : AddressSpace) :
    MachineInvariant c fun s => SameText m s.memory where
  host h _ := h
  descriptors _ h := h
  umask _ h := h
  setAction {s t signal action old} h hSet := by
    unfold Session.setSignalAction at hSet
    split at hSet <;> cases hSet
    exact h
  finished _ h := h
  machine hStores h := h.trans (hStores _).sameText
  moveBreak _ h := ⟨h.isSplit, h.text⟩

namespace Minix

/-- The trap is an exec of a file that can be loaded. -/
def Replaces (trap : UInt16) (s : Session I8086.Cpu) : Prop :=
  let block := s.cpu.get .bx
  trap = messageTrap ∧ Call.ofNumber? (s.memory.word (block + 2)) = some .exec ∧
    ∃ image, conventions.loadFile s.host
      (s.process.hostPath (s.memory.stringAt (s.memory.word (block + 10)))) = .ok image

theorem loads_of_executeFrame {path : String} {frame size : UInt16} {s : Session I8086.Cpu}
    (h : (executeFrame path frame size s).1 = .ok ()) :
    ∃ image, conventions.loadFile s.host (s.process.hostPath path) = .ok image := by
  obtain ⟨_, t, hExecute, -⟩ := Reply.andThen_ok (Prod.ext h rfl)
  obtain ⟨image, hLoad⟩ := Session.execute_ok (congrArg Prod.fst hExecute)
  rw [(Session.Logs.trace _ _ _ _ s).loadFile] at hLoad
  exact ⟨image, hLoad⟩

theorem sameText_perform {run : Runner I8086.Cpu} {s : Session I8086.Cpu}
    {completion : Completion}
    (h : perform run (s.cpu.get .bx) s = some completion) (hKeeps : ¬ Replaces messageTrap s) :
    SameText s.memory completion.session.memory := by
  cases performs h with
  | fault f hLogs => exact .of_machine (congrArg Process.machine hLogs.process)
  | exit code => exact .of_machine (s.machine_exit code)
  | fork hCall hFork =>
      exact .of_machine (congrArg Process.machine (Session.process_of_fork hFork))
  | exec hCall hExecuted =>
      exact absurd ⟨rfl, hCall, loads_of_executeFrame (congrArg Prod.fst hExecuted)⟩ hKeeps
  | failedExec e hLogs => exact .of_machine (congrArg Process.machine hLogs.process)
  | ordinary c hCall =>
      exact (c.perform_related (keepsText conventions s.memory).machineRelation ⟨rfl, .refl _⟩
        _).session.2

theorem sameText_answer {run : Runner I8086.Cpu} {trap : UInt16} {s t : Session I8086.Cpu}
    {result : Except Fault Unit} (h : answer run trap s = some (t, result))
    (hKeeps : ¬ Replaces trap s) : SameText s.memory t.memory := by
  simp only [answer] at h
  split at h
  next =>
    cases h
    exact .refl _
  next hTrap =>
    obtain rfl : trap = messageTrap := Decidable.of_not_not hTrap
    obtain ⟨completion, hPerform, hEnd⟩ := Option.map_eq_some_iff.1 h
    have hSame := sameText_perform hPerform hKeeps
    cases completion with
    | reply result u =>
        cases hEnd
        exact hSame.trans (ReplyConvention.stores_report .message _ result _).sameText
    | final u =>
        cases hEnd
        exact hSame
    | fault f u =>
        cases hEnd
        exact hSame

end Minix

namespace UnixV6

variable {Cpu : Type} [Platform Cpu]

/-- The trap is an exec, direct or not, of a file that can be loaded. -/
def Replaces (trap : UInt16) (s : Session Cpu) : Prop :=
  let (number, arguments) := request trap s
  Call.ofNumber? number = some .exec ∧
    ∃ image, (conventions : Conventions Cpu).loadFile s.host
      (s.process.hostPath (s.memory.stringAt (arguments.word s.memory 0))) = .ok image

theorem loads_of_execute {path : String} {vector : UInt16} {s : Session Cpu}
    (h : (execute path vector s).1 = .ok ()) :
    ∃ image, (conventions : Conventions Cpu).loadFile s.host (s.process.hostPath path) =
      .ok image := by
  obtain ⟨_, t, hExecute, -⟩ := Reply.andThen_ok (Prod.ext h rfl)
  obtain ⟨image, hLoad⟩ := Session.execute_ok (congrArg Prod.fst hExecute)
  rw [(Session.Logs.trace _ _ _ _ s).loadFile] at hLoad
  exact ⟨image, hLoad⟩

theorem sameText_perform {run : Runner Cpu} {trap : UInt16} {s : Session Cpu}
    {completion : Completion Cpu} (h : perform run trap s = some completion)
    (hKeeps : ¬ Replaces trap s) : SameText s.memory completion.session.memory := by
  cases performs h with
  | fault f hLogs => exact .of_machine (congrArg Process.machine hLogs.process)
  | exit code => exact .of_machine (s.machine_exit code)
  | fork skip skipped hCall hFork =>
      exact .of_machine (congrArg Process.machine (Session.process_of_fork hFork))
  | exec skip hCall hExecuted =>
      exact absurd ⟨hCall, loads_of_execute (congrArg Prod.fst hExecuted)⟩ hKeeps
  | failed e skip hLogs => exact .of_machine (congrArg Process.machine hLogs.process)
  | ordinary c skip hCall =>
      exact (c.perform_related (keepsText conventions s.memory).machineRelation ⟨rfl, .refl _⟩
        _).session.2

theorem sameText_answer {run : Runner Cpu} {trap : UInt16} {s t : Session Cpu}
    {result : Except Fault Unit} (h : answer run trap s = some (t, result))
    (hKeeps : ¬ Replaces trap s) : SameText s.memory t.memory := by
  obtain ⟨completion, hPerform, hEnd⟩ := Option.map_eq_some_iff.1 h
  have hSame := sameText_perform hPerform hKeeps
  cases completion with
  | reply result skip u =>
      cases hEnd
      exact hSame.trans (ReplyConvention.stores_report .carry 0 result _).sameText
  | final u =>
      cases hEnd
      exact hSame
  | fault f u =>
      cases hEnd
      exact hSame

end UnixV6

/-- The trap replaces the program of a process: it is an exec of a file that can be
loaded. -/
def Personality.Replaces : (p : Personality) → UInt16 → Session p.Cpu → Prop
  | .minix => Minix.Replaces
  | .unixV6Pdp11 => (UnixV6.Replaces : UInt16 → Session Pdp11.Cpu → Prop)
  | .unixV6I8086 => (UnixV6.Replaces : UInt16 → Session I8086.Cpu → Prop)

theorem Personality.sameText_answer (p : Personality) {run : Runner p.Cpu} {trap : UInt16}
    {s t : Session p.Cpu} {result : Except Fault Unit}
    (h : p.system.answer run trap s = some (t, result)) (hKeeps : ¬ p.Replaces trap s) :
    SameText s.memory t.memory := by
  cases p with
  | minix => exact Minix.sameText_answer h hKeeps
  | unixV6Pdp11 => exact UnixV6.sameText_answer h hKeeps
  | unixV6I8086 => exact UnixV6.sameText_answer h hKeeps

end VintageUnix
