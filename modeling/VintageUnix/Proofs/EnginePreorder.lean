import VintageUnix.Proofs.Operations

/-! What becomes of a session. When a relation between a session and a later one holds of every
primitive action of the engine, and of an answer if it holds of the runs of children, it holds of
everything that the engine does. -/
namespace VintageUnix

variable {Cpu : Type} [Processor Cpu]

/-- A relation between a session and what it becomes in one step. The fields are what a step
does besides answering a trap. -/
structure StepPreorder (sys : System Cpu) (B : Session Cpu → Session Cpu → Prop) : Prop where
  refl (s) : B s s
  trans {s t u} : B s t → B t u → B s u
  pending {s} {signal : UInt16} {host : Host} : sys.takePending s.host = some (signal, host) →
    B s (s.withHost host)
  enter (handler : UInt16) (s) : B s (System.enterHandler handler s)
  /-- After a handler the registers are as they were before it. -/
  restored {s t} : B s t → B s (t.mapCpu fun _ => s.cpu)
  advance (s) : B s (System.advance s).1
  finish (s) : B s (s.setState (.terminated 0))

/-- A relation between a session and what it becomes. The fields are the primitive actions
of the engine, which also runs the child of a fork. -/
structure EnginePreorder (sys : System Cpu) (B : Session Cpu → Session Cpu → Prop) : Prop
    extends StepPreorder sys B where
  ready (s) : B s (s.mapHost (sys.installActions s.process.signals))
  fail (fault : Fault) (s) : B s (s.setState (.failed fault))
  answer {bound : Nat} {trap : UInt16} {s t} {result : Except Fault Unit} :
    (∀ {s t}, sys.run bound s = some t → B s t) →
      sys.answer (sys.run bound) trap s = some (t, result) → B s t

namespace StepPreorder

variable {sys : System Cpu} {B : Session Cpu → Session Cpu → Prop} (hB : StepPreorder sys B)
  {s t : Session Cpu} {result : Except Fault Unit}

include hB

theorem executeNext {run : Runner Cpu}
    (hAnswer : ∀ {trap : UInt16} {s t} {result : Except Fault Unit},
      sys.answer run trap s = some (t, result) → B s t)
    (h : sys.executeNext run s = some (t, result)) : B s t := by
  have hAdvance := hB.advance s
  unfold System.executeNext at h
  split at h
  next u hProceed =>
    cases h
    rwa [hProceed] at hAdvance
  next u hFinished =>
    cases h
    rw [hFinished] at hAdvance
    exact hB.trans hAdvance (hB.finish u)
  next u trap hTrap =>
    rw [hTrap] at hAdvance
    exact hB.trans hAdvance (hAnswer h)
  next u fault hFault =>
    cases h
    rwa [hFault] at hAdvance

section Handlers

variable {step : System.Stepper Cpu}
  (hStep : ∀ {s t} {result : Except Fault Unit}, step s = some (t, result) → B s t)

include hStep

theorem handlerLoop {ip sp : UInt16} {limit : Nat}
    (h : System.handlerLoop step ip sp limit s = some (t, result)) : B s t := by
  induction limit generalizing s with
  | zero =>
      simp only [System.handlerLoop] at h
      split at h <;> cases h
      exact hB.refl _
  | succ limit ih =>
      simp only [System.handlerLoop] at h
      split at h
      · cases h
        exact hB.refl _
      · split at h
        next u hFirst => exact hB.trans (hStep hFirst) (ih h)
        next => exact hStep h

theorem deliverWith {limit : Nat} {signal : UInt16}
    (h : sys.deliverWith step limit signal s = some (t, result)) : B s t := by
  simp only [System.deliverWith] at h
  split at h
  next handler _ =>
    have hEntered := hB.enter handler s
    split at h
    next u hLoop =>
      have hHandled := hB.trans hEntered (hB.handlerLoop hStep hLoop)
      cases h
      split
      · exact hB.restored hHandled
      · exact hHandled
    next => exact hB.trans hEntered (hB.handlerLoop hStep h)
  next =>
    cases h
    exact hB.refl _

end Handlers

theorem stepWith {run : Runner Cpu} {deliver : UInt16 → System.Stepper Cpu}
    (hAnswer : ∀ {trap : UInt16} {s t} {result : Except Fault Unit},
      sys.answer run trap s = some (t, result) → B s t)
    (hDeliver : ∀ {signal : UInt16} {s t} {result : Except Fault Unit},
      deliver signal s = some (t, result) → B s t)
    (h : sys.stepWith run deliver s = some (t, result)) : B s t := by
  unfold System.stepWith at h
  split at h
  next => exact hB.executeNext hAnswer h
  next signal host hPending =>
    have hArrived := hB.pending hPending
    split at h
    next u hHandled =>
      have hDelivered := hB.trans hArrived (hDeliver hHandled)
      split at h
      · exact hB.trans hDelivered (hB.executeNext hAnswer h)
      · cases h
        exact hDelivered
    next => exact hB.trans hArrived (hDeliver h)

/-- One step, if every answer is within the relation, whatever the children come to. -/
theorem step (hAnswer : ∀ {run : Runner Cpu} {trap : UInt16} {s t} {result : Except Fault Unit},
      sys.answer run trap s = some (t, result) → B s t)
    {bound : Nat} (h : sys.step bound s = some (t, result)) : B s t := by
  induction bound generalizing s t result with
  | zero => cases h
  | succ bound ih => exact hB.stepWith hAnswer (hB.deliverWith fun h => ih h) h

end StepPreorder

namespace EnginePreorder

variable {sys : System Cpu} {B : Session Cpu → Session Cpu → Prop} (hB : EnginePreorder sys B)
  {s t : Session Cpu} {result : Except Fault Unit}

include hB

section Cycles

variable {step : System.Stepper Cpu}
  (hStep : ∀ {s t} {result : Except Fault Unit}, step s = some (t, result) → B s t)

include hStep

theorem cycleLoop {count done : Nat} {report : CycleReport}
    (h : System.cycleLoop step count done s = some (t, report)) : B s t := by
  induction count generalizing s done with
  | zero =>
      cases h
      exact hB.refl _
  | succ count ih =>
      simp only [System.cycleLoop] at h
      split at h
      next => cases h
      next u fault hFault =>
        cases h
        exact hB.trans (hStep hFault) (hB.fail _ u)
      next u hFirst =>
        split at h
        next =>
          cases h
          exact hStep hFirst
        next => exact hB.trans (hStep hFirst) (ih h)

theorem cyclesWith {count : Nat} {report : CycleReport}
    (h : System.cyclesWith step count s = some (t, report)) : B s t := by
  unfold System.cyclesWith at h
  split at h
  · exact hB.cycleLoop hStep h
  · cases h
    exact hB.refl _

theorem runWith (h : sys.runWith step s = some t) : B s t := by
  obtain ⟨⟨u, report⟩, hCycles, rfl⟩ := Option.map_eq_some_iff.1 h
  exact hB.trans (hB.ready s) (hB.cyclesWith hStep hCycles)

end Cycles

/-- One step. The induction is on the bound, since the children and the handlers inside
a step run under a smaller one. -/
theorem step {bound : Nat} (h : sys.step bound s = some (t, result)) : B s t := by
  induction bound generalizing s t result with
  | zero => cases h
  | succ bound ih =>
      exact hB.stepWith (hB.answer fun h => hB.runWith (fun h => ih h) h)
        (hB.deliverWith fun h => ih h) h

theorem run {bound : Nat} (h : sys.run bound s = some t) : B s t :=
  hB.runWith (fun h => hB.step h) h

/-- Whatever is asked of the engine, if the replacement of a program from outside and the
arrival of a signal are within the relation as well. -/
theorem perform {bound : Nat} {op : Operation} {response : Response}
    (hExecute : ∀ path s, B s (s.execute sys.toConventions path).2)
    (hRaise : ∀ number s, B s (s.mapHost fun h => { h with signals := h.signals.raise number }))
    (h : op.perform sys bound s = some (t, response)) : B s t := by
  cases op with
  | step =>
      obtain ⟨⟨t, result⟩, hStep, hEnd⟩ := Option.map_eq_some_iff.1 h
      cases hEnd
      exact hB.step hStep
  | cycles count =>
      obtain ⟨⟨t, report⟩, hCycles, hEnd⟩ := Option.map_eq_some_iff.1 h
      cases hEnd
      exact hB.cyclesWith (fun h => hB.step h) hCycles
  | run =>
      obtain ⟨t, hRun, hEnd⟩ := Option.map_eq_some_iff.1 h
      cases hEnd
      exact hB.run hRun
  | deliver signal =>
      obtain ⟨⟨t, result⟩, hDelivered, hEnd⟩ := Option.map_eq_some_iff.1 h
      cases hEnd
      exact hB.deliverWith (fun h => hB.step h) hDelivered
  | trap number =>
      obtain ⟨⟨t, result⟩, hAnswer, hEnd⟩ := Option.map_eq_some_iff.1 h
      cases hEnd
      exact hB.answer (fun h => hB.run h) hAnswer
  | execute path =>
      cases h
      exact hExecute path s
  | raise number =>
      cases h
      exact hRaise number s

theorem performAll {ops : List (Nat × Operation)} {responses : List Response}
    (hExecute : ∀ path s, B s (s.execute sys.toConventions path).2)
    (hRaise : ∀ number s, B s (s.mapHost fun h => { h with signals := h.signals.raise number }))
    (h : Operation.performAll (Operation.perform sys) ops s = some (t, responses)) : B s t := by
  induction ops generalizing s responses with
  | nil =>
      cases h
      exact hB.refl _
  | cons first rest ih =>
      obtain ⟨⟨u, response⟩, hFirst, hRest⟩ := Option.bind_eq_some_iff.1 h
      obtain ⟨⟨v, others⟩, hOthers, hEnd⟩ := Option.map_eq_some_iff.1 hRest
      cases hEnd
      exact hB.trans (hB.perform hExecute hRaise hFirst) (ih hOthers)

end EnginePreorder
end VintageUnix
