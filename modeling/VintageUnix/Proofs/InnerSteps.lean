import VintageUnix.Proofs.EnginePreorder
import VintageUnix.Proofs.ForkIsolation
import VintageUnix.Proofs.TextFrame

/-! The steps inside an operation: those of the process itself, of the handlers of its signals, and
of its children, which may have handlers and children of their own. No other step is taken. An
engine that does something else wherever a step begins in a session that is not among these
comes to the same. -/
namespace VintageUnix

section Engine

variable {Cpu : Type} [Processor Cpu]

/-- The session in which a step executes its instruction: the one it starts in, or the one
that the handler of a pending signal has left, if it has not ended the process. -/
inductive System.ExecutesIn (sys : System Cpu) (bound : Nat) (s : Session Cpu) :
    Session Cpu → Prop
  | undisturbed (hPending : sys.takePending s.host = none) : ExecutesIn sys bound s s
  | handled {signal host u} (hPending : sys.takePending s.host = some (signal, host))
    (hHandled : sys.deliver bound signal (s.withHost host) = some (u, .ok ()))
    (hRunning : u.isRunning = true) : ExecutesIn sys bound s u

variable {sys : System Cpu} {start : Session Cpu → Prop} {bound : Nat} {s t : Session Cpu}

theorem Arises.follows (h : Arises sys start s) (hFollows : System.Follows (sys.step bound) s t) :
    Arises sys start t := by
  induction hFollows with
  | refl => exact h
  | @tail u v _ hStep ih =>
      have hPerform : Operation.step.perform sys bound u = some (v, .reaction (.ok ())) := by
        simp only [Operation.perform, hStep]
        rfl
      exact .operation ih bound .step hPerform

theorem Arises.executesIn (h : Arises sys start s) (hExecutes : sys.ExecutesIn bound s t) :
    Arises sys start t := by
  cases hExecutes with
  | undisturbed hPending => exact h
  | @handled signal host _ hPending hHandled hRunning =>
      have hPerform : (Operation.deliver signal).perform sys bound (s.withHost host) =
          some (t, .reaction (.ok ())) := by
        simp only [Operation.perform, hHandled]
        rfl
      exact .operation (.pending h hPending) bound (.deliver signal) hPerform

theorem Arises.performAll {ops : List (Nat × Operation)} {responses : List Response}
    (h : Arises sys start s)
    (hOps : Operation.performAll (Operation.perform sys) ops s = some (t, responses)) :
    Arises sys start t := by
  induction ops generalizing s responses with
  | nil =>
      cases hOps
      exact h
  | cons first rest ih =>
      obtain ⟨⟨u, response⟩, hFirst, hRest⟩ := Option.bind_eq_some_iff.1 hOps
      obtain ⟨⟨v, others⟩, hOthers, hEnd⟩ := Option.map_eq_some_iff.1 hRest
      cases hEnd
      exact ih (.operation h first.1 first.2 hFirst) hOthers

end Engine

namespace Personality

variable (p : Personality)

/-- The child of a fork at its first step, with the host acting for it. -/
def startedChild (trap : UInt16) (s : Session p.Cpu) : Session p.Cpu :=
  (p.forkedChild trap s).mapHost
    (p.system.installActions (p.forkedChild trap s).process.signals)

/-- The sessions in which a step begins while a process takes a step: the one that it starts
in, those of the handler of a signal that arrives, and those of the child if it forks. -/
inductive StepsIn : (bound : Nat) → Session p.Cpu → Session p.Cpu → Prop
  | own {bound s} : StepsIn bound s s
  | handler {bound s signal host handler u v}
    (hPending : p.system.takePending s.host = some (signal, host))
    (hHandler : p.system.disposition (s.process.signals.get signal).handler = .catch handler)
    (hFollows : System.Follows (p.system.step bound)
      (System.enterHandler handler (s.withHost host)) u)
    (hInside : StepsIn bound u v) : StepsIn (bound + 1) s v
  | child {bound s w trap t u v} (hExecutes : p.system.ExecutesIn bound s w)
    (hTrap : System.advance w = (t, .ok (.trap trap))) (hForks : p.Forks trap t)
    (hFollows : System.Follows (p.system.step bound) (p.startedChild trap t) u)
    (hInside : StepsIn bound u v) : StepsIn (bound + 1) s v

/-- The sessions in which a step begins during an operation on a process. -/
def StepsDuring (bound : Nat) (s v : Session p.Cpu) : Operation → Prop
  | .step => p.StepsIn bound s v
  | .cycles _ => ∃ u, System.Follows (p.system.step bound) s u ∧ p.StepsIn bound u v
  | .run => ∃ u, System.Follows (p.system.step bound)
      (s.mapHost (p.system.installActions s.process.signals)) u ∧ p.StepsIn bound u v
  | .deliver signal => ∃ handler u,
      p.system.disposition (s.process.signals.get signal).handler = .catch handler ∧
      System.Follows (p.system.step bound) (System.enterHandler handler s) u ∧
      p.StepsIn bound u v
  | .trap trap => p.Forks trap s ∧
      ∃ u, System.Follows (p.system.step bound) (p.startedChild trap s) u ∧ p.StepsIn bound u v
  | .execute _ => False
  | .raise _ => False

end Personality

namespace System

section Congruence

variable {Cpu : Type} [Processor Cpu] {sys : System Cpu} {step other : Stepper Cpu}
  {s : Session Cpu}

theorem handlerLoop_congr {ip sp : UInt16} {limit : Nat}
    (h : ∀ u, Follows step s u → other u = step u) :
    handlerLoop other ip sp limit s = handlerLoop step ip sp limit s := by
  induction limit generalizing s with
  | zero => rfl
  | succ limit ih =>
      simp only [handlerLoop, h s .refl]
      split
      · rfl
      · split
        next u hFirst => exact ih fun v hFollows => h v (.head hFirst hFollows)
        next => rfl

/-- A delivery depends on the steps of the handler. -/
theorem deliverWith_congr {limit : Nat} {signal : UInt16}
    (h : ∀ handler, sys.disposition (s.process.signals.get signal).handler = .catch handler →
      ∀ u, Follows step (enterHandler handler s) u → other u = step u) :
    sys.deliverWith other limit signal s = sys.deliverWith step limit signal s := by
  simp only [deliverWith]
  split
  next handler hCaught => rw [handlerLoop_congr (h handler hCaught)]
  next => rfl

theorem cycleLoop_congr {count done : Nat} (h : ∀ u, Follows step s u → other u = step u) :
    cycleLoop other count done s = cycleLoop step count done s := by
  induction count generalizing s done with
  | zero => rfl
  | succ count ih =>
      simp only [cycleLoop, h s .refl]
      split
      next => rfl
      next => rfl
      next u hFirst =>
        split
        next => rfl
        next => exact ih fun v hFollows => h v (.head hFirst hFollows)

theorem cyclesWith_congr {count : Nat} (h : ∀ u, Follows step s u → other u = step u) :
    cyclesWith other count s = cyclesWith step count s := by
  unfold cyclesWith
  rw [cycleLoop_congr h]

/-- A run depends on the steps that follow each other once the host acts for the process. -/
theorem runWith_congr (h : ∀ u, Follows step (s.mapHost (sys.installActions s.process.signals)) u →
      other u = step u) :
    sys.runWith other s = sys.runWith step s := by
  simp only [runWith]
  rw [cyclesWith_congr h]

/-- A step depends on the delivery of the signal that is pending and on the instruction that it
executes. -/
theorem stepWith_congr {run run' : Runner Cpu} {deliver : UInt16 → Stepper Cpu} {bound : Nat}
    (hDeliver : ∀ {signal host}, sys.takePending s.host = some (signal, host) →
      deliver signal (s.withHost host) = sys.deliver bound signal (s.withHost host))
    (hNext : ∀ {w}, sys.ExecutesIn bound s w → sys.executeNext run' w = sys.executeNext run w) :
    sys.stepWith run' deliver s = sys.stepWith run (sys.deliver bound) s := by
  unfold stepWith
  split
  next hNone => exact hNext (.undisturbed hNone)
  next signal host hPending =>
    have hSame := hDeliver hPending
    unfold Session.withHost at hSame
    rw [hSame]
    split
    next u hHandled =>
      split
      next hRunning => exact hNext (.handled hPending hHandled hRunning)
      next => rfl
    next => rfl

end Congruence

/-- The engine with another stepper in the place of its own wherever a step begins in a session
that a condition does not hold of. -/
def stepWhere {Cpu : Type} [Processor Cpu] (sys : System Cpu) (Holds : Session Cpu → Prop)
    [DecidablePred Holds] (elsewhere : Stepper Cpu) : (bound : Nat) → Stepper Cpu
  | 0, s => if Holds s then none else elsewhere s
  | bound + 1, s =>
    if Holds s then
      let inner := sys.stepWhere Holds elsewhere bound
      sys.stepWith (sys.runWith inner) (sys.deliverWith inner bound) s
    else elsewhere s

end System

/-- Do what is asked with a stepper that need not be that of the engine. -/
def Operation.performWith {Cpu : Type} [Processor Cpu] (sys : System Cpu)
    (step : Nat → System.Stepper Cpu) (bound : Nat) (s : Session Cpu) :
    Operation → Option (Session Cpu × Response)
  | .step => (step bound s).map (Prod.map id .reaction)
  | .cycles count => (System.cyclesWith (step bound) count s).map (Prod.map id .report)
  | .run => (sys.runWith (step bound) s).map (·, .done)
  | .deliver signal =>
    (sys.deliverWith (step bound) bound signal s).map (Prod.map id .reaction)
  | .trap number => (sys.answer (sys.runWith (step bound)) number s).map (Prod.map id .reaction)
  | .execute path => Operation.perform sys bound s (.execute path)
  | .raise number => Operation.perform sys bound s (.raise number)

namespace Personality

variable {p : Personality} {Holds : Session p.Cpu → Prop} [DecidablePred Holds]
  {elsewhere : System.Stepper p.Cpu} {bound : Nat} {s : Session p.Cpu}

theorem executeNext_congr {run run' : Runner p.Cpu}
    (h : ∀ {trap t}, System.advance s = (t, .ok (.trap trap)) → p.Forks trap t →
      run (p.forkedChild trap t) = run' (p.forkedChild trap t)) :
    p.system.executeNext run s = p.system.executeNext run' s := by
  unfold System.executeNext
  split
  next => rfl
  next => rfl
  next t trap hTrap => exact p.answer_congr (h hTrap)
  next => rfl

/-- All steps inside a step are among those listed. The induction is on the bound, as the steps of
handlers and children are taken under a smaller one. -/
theorem stepWhere_eq_step (h : ∀ v, p.StepsIn bound s v → Holds v) :
    p.system.stepWhere Holds elsewhere bound s = p.system.step bound s := by
  induction bound generalizing s with
  | zero => exact if_pos (h s .own)
  | succ bound ih =>
      apply (if_pos (h s .own)).trans
      apply System.stepWith_congr
      · intro signal host hPending
        apply System.deliverWith_congr
        intro handler hCaught u hFollows
        exact ih fun v hInside => h v (.handler hPending hCaught hFollows hInside)
      · intro w hExecutes
        apply executeNext_congr
        intro trap t hTrap hForks
        apply System.runWith_congr
        intro u hFollows
        exact ih fun v hInside => h v (.child hExecutes hTrap hForks hFollows hInside)

/-- All steps inside an operation are among those listed. -/
theorem performWith_stepWhere {op : Operation} (h : ∀ v, p.StepsDuring bound s v op → Holds v) :
    op.performWith p.system (p.system.stepWhere Holds elsewhere) bound s =
      op.perform p.system bound s := by
  cases op with
  | step => exact congrArg (Option.map _) (stepWhere_eq_step h)
  | cycles count =>
      apply congrArg (Option.map _)
      apply System.cyclesWith_congr
      intro u hFollows
      exact stepWhere_eq_step fun v hInside => h v ⟨u, hFollows, hInside⟩
  | run =>
      apply congrArg (Option.map _)
      apply System.runWith_congr
      intro u hFollows
      exact stepWhere_eq_step fun v hInside => h v ⟨u, hFollows, hInside⟩
  | deliver signal =>
      apply congrArg (Option.map _)
      apply System.deliverWith_congr
      intro handler hCaught u hFollows
      exact stepWhere_eq_step fun v hInside => h v ⟨handler, u, hCaught, hFollows, hInside⟩
  | trap number =>
      apply congrArg (Option.map _)
      apply p.answer_congr
      intro hForks
      apply System.runWith_congr
      intro u hFollows
      exact stepWhere_eq_step fun v hInside => h v ⟨hForks, u, hFollows, hInside⟩
  | execute path => rfl
  | raise number => rfl

end Personality

namespace EnginePreorder

section Steps

variable {Cpu : Type} [Processor Cpu] {sys : System Cpu} {B : Session Cpu → Session Cpu → Prop}
  (hB : EnginePreorder sys B) {bound : Nat} {s t : Session Cpu}

include hB

theorem follows (h : System.Follows (sys.step bound) s t) : B s t := by
  induction h with
  | refl => exact hB.refl s
  | tail _ hStep ih => exact hB.trans ih (hB.step hStep)

/-- An instruction is executed where the signal handlers before it have left the process. -/
theorem executesIn (h : sys.ExecutesIn bound s t) : B s t := by
  cases h with
  | undisturbed hPending => exact hB.refl s
  | handled hPending hHandled =>
      exact hB.trans (hB.pending hPending) (hB.deliverWith (fun h => hB.step h) hHandled)

end Steps

-- A relation that holds of what the engine does may hold of the start of a child as well, or be
-- part of one that does. Then that one holds of every step inside an operation.
variable {p : Personality} {B C : Session p.Cpu → Session p.Cpu → Prop}
  (hB : EnginePreorder p.system B) (hCoarser : ∀ {s t}, B s t → C s t)
  (hTrans : ∀ {s t u}, C s t → C t u → C s u)
  (hChild : ∀ {trap s}, p.Forks trap s → C s (p.startedChild trap s))
  {bound : Nat} {s v : Session p.Cpu}

include hB hCoarser hTrans hChild

theorem stepsIn (h : p.StepsIn bound s v) : C s v := by
  induction h with
  | own => exact hCoarser (hB.refl _)
  | @handler bound s signal host handler u v hPending hHandler hFollows hInside ih =>
      have hEntered := hB.trans (hB.pending hPending) (hB.enter handler (s.withHost host))
      exact hTrans (hCoarser (hB.trans hEntered (hB.follows hFollows))) ih
  | child hExecutes hTrap hForks hFollows hInside ih =>
      have hCame := hB.trans (hB.executesIn hExecutes) (hB.advance _)
      rw [hTrap] at hCame
      have hStarted := hTrans (hCoarser hCame) (hChild hForks)
      exact hTrans (hTrans hStarted (hCoarser (hB.follows hFollows))) ih

theorem stepsDuring {op : Operation} (h : p.StepsDuring bound s v op) : C s v := by
  have hInside {u v} (h : p.StepsIn bound u v) : C u v :=
    hB.stepsIn hCoarser hTrans hChild h
  cases op with
  | step => exact hInside h
  | cycles count =>
      obtain ⟨u, hFollows, hSteps⟩ := h
      exact hTrans (hCoarser (hB.follows hFollows)) (hInside hSteps)
  | run =>
      obtain ⟨u, hFollows, hSteps⟩ := h
      have hReady := hB.trans (hB.ready s) (hB.follows hFollows)
      exact hTrans (hCoarser hReady) (hInside hSteps)
  | deliver signal =>
      obtain ⟨handler, u, -, hFollows, hSteps⟩ := h
      have hEntered := hB.trans (hB.enter handler s) (hB.follows hFollows)
      exact hTrans (hCoarser hEntered) (hInside hSteps)
  | trap trap =>
      obtain ⟨hForks, u, hFollows, hSteps⟩ := h
      exact hTrans (hTrans (hChild hForks) (hCoarser (hB.follows hFollows))) (hInside hSteps)
  | execute path => exact h.elim
  | raise number => exact h.elim

end EnginePreorder

variable {p : Personality} {start : Session p.Cpu → Prop} {bound : Nat} {s t u v : Session p.Cpu}

theorem Arises.startedChild (h : Arises p.system start s) (trap : UInt16) :
    Arises p.system start (p.startedChild trap s) := by
  have hChild : Arises p.system start (p.forkedChild trap s) := by
    cases p with
    | minix => exact .child (fun m => ReplyConvention.stores_report .message _ _ m) h
    | unixV6Pdp11 => exact .child (fun m => ReplyConvention.stores_report .carry _ _ _) h
    | unixV6I8086 => exact .child (fun m => ReplyConvention.stores_report .carry _ _ _) h
  exact .ready hChild

theorem Arises.stepsIn (h : Arises p.system start s) (hInside : p.StepsIn bound s v) :
    Arises p.system start v := by
  induction hInside with
  | own => exact h
  | handler hPending hHandler hFollows hInside ih =>
      exact ih ((Arises.handler (.pending h hPending) _).follows hFollows)
  | child hExecutes hTrap hForks hFollows hInside ih =>
      have hInstruction := Arises.instruction (h.executesIn hExecutes)
      rw [hTrap] at hInstruction
      exact ih ((hInstruction.startedChild _).follows hFollows)

theorem Arises.stepsDuring (h : Arises p.system start s) {op : Operation}
    (hSteps : p.StepsDuring bound s v op) : Arises p.system start v := by
  cases op with
  | step => exact h.stepsIn hSteps
  | cycles count =>
      obtain ⟨u, hFollows, hInside⟩ := hSteps
      exact (h.follows hFollows).stepsIn hInside
  | run =>
      obtain ⟨u, hFollows, hInside⟩ := hSteps
      exact ((Arises.ready h).follows hFollows).stepsIn hInside
  | deliver signal =>
      obtain ⟨handler, u, -, hFollows, hInside⟩ := hSteps
      exact ((Arises.handler h handler).follows hFollows).stepsIn hInside
  | trap trap =>
      obtain ⟨-, u, hFollows, hInside⟩ := hSteps
      exact ((h.startedChild trap).follows hFollows).stepsIn hInside
  | execute path => exact hSteps.elim
  | raise number => exact hSteps.elim

/-- What holds of all sessions that arise holds wherever a step begins, so an engine that does
something else where it does not hold comes to the same. -/
theorem Arises.performAll_stepWhere {Holds : Session p.Cpu → Prop} [DecidablePred Holds]
    (hHolds : ∀ u, Arises p.system start u → Holds u) (elsewhere : System.Stepper p.Cpu)
    (h : Arises p.system start s) (ops : List (Nat × Operation)) :
    Operation.performAll
        (Operation.performWith p.system (p.system.stepWhere Holds elsewhere)) ops s =
      Operation.performAll (Operation.perform p.system) ops s := by
  induction ops generalizing s with
  | nil => rfl
  | cons first rest ih =>
      obtain ⟨bound, op⟩ := first
      have hFirst : op.performWith p.system (p.system.stepWhere Holds elsewhere) bound s =
          op.perform p.system bound s :=
        Personality.performWith_stepWhere fun v hSteps => hHolds v (h.stepsDuring hSteps)
      simp only [Operation.performAll, hFirst]
      apply Option.bind_congr
      rintro ⟨t, response⟩ hPerform
      rw [ih (.operation h bound op hPerform)]

end VintageUnix
