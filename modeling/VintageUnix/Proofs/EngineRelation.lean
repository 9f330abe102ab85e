import VintageUnix.Proofs.CallRelation
import VintageUnix.System.Engine

/-! Relations that whole runs keep. When every primitive action of the engine keeps a relation
between the sessions of two systems, and answering a trap does if running a child does, then
steps, deliveries and runs keep it, however deeply handlers and children are nested. -/
namespace VintageUnix

variable {Cpu : Type} [Processor Cpu]

/-- Results that are related stay so under functions that relate what they are given. -/
theorem Option.Rel.map {α β γ δ : Type} {R : α → β → Prop} {S : γ → δ → Prop} {x : Option α}
    {y : Option β} (h : Option.Rel R x y) {f : α → γ} {g : β → δ}
    (hNext : ∀ a b, R a b → S (f a) (g b)) : Option.Rel S (x.map f) (y.map g) := by
  cases h with
  | none => exact .none
  | some h => exact .some (hNext _ _ h)

/-- The same result in related sessions. -/
def Together (R : Session Cpu → Session Cpu → Prop) {α : Type} (x y : Session Cpu × α) : Prop :=
  y.2 = x.2 ∧ R x.1 y.1

theorem Together.cases {R : Session Cpu → Session Cpu → Prop} {α : Type}
    {x y : Option (Session Cpu × α)} (h : Option.Rel (Together R) x y) :
    (x = none ∧ y = none) ∨
      ∃ s t result, R s t ∧ x = some (s, result) ∧ y = some (t, result) := by
  cases h with
  | none => exact .inl ⟨rfl, rfl⟩
  | @some x y h =>
      refine .inr ⟨x.1, y.1, x.2, h.2, rfl, ?_⟩
      rw [← h.1]

/-- A relation between the sessions of two systems that the engine keeps. The fields are
its primitive actions; an answer may run a child, and then keeps the relation if the
two runners do. -/
structure EngineRelation (a b : System Cpu) (R : Session Cpu → Session Cpu → Prop) : Prop where
  state {s t} : R s t → t.process.state = s.process.state
  cpu {s t} : R s t → t.cpu = s.cpu
  disposition {s t} (signal : UInt16) : R s t →
    b.disposition (t.process.signals.get signal).handler =
      a.disposition (s.process.signals.get signal).handler
  pending {s t} : R s t →
    Option.Rel (fun x y => y.1 = x.1 ∧ R (s.withHost x.2) (t.withHost y.2))
      (a.takePending s.host) (b.takePending t.host)
  enter {s t} (handler : UInt16) : R s t →
    R (System.enterHandler handler s) (System.enterHandler handler t)
  registers {s t} (cpu : Cpu) : R s t → R (s.mapCpu fun _ => cpu) (t.mapCpu fun _ => cpu)
  setState {s t} (state : RunState) : R s t → R (s.setState state) (t.setState state)
  ready {s t} : R s t →
    R (s.mapHost (a.installActions s.process.signals))
      (t.mapHost (b.installActions t.process.signals))
  advance {s t} : R s t → Together R (System.advance s) (System.advance t)
  answer {run run' : Runner Cpu} (hRun : ∀ s t, R s t → Option.Rel R (run s) (run' t))
    (trap : UInt16) {s t} : R s t →
    Option.Rel (Together R) (a.answer run trap s) (b.answer run' trap t)

namespace EngineRelation

variable {a b : System Cpu} {R : Session Cpu → Session Cpu → Prop} (hE : EngineRelation a b R)
  {s t : Session Cpu}

include hE

theorem isRunning (h : R s t) : t.isRunning = s.isRunning := by
  simp only [Session.isRunning, Process.isRunning, hE.state h]

theorem executeNext {run run' : Runner Cpu}
    (hRun : ∀ s t, R s t → Option.Rel R (run s) (run' t)) (h : R s t) :
    Option.Rel (Together R) (a.executeNext run s) (b.executeNext run' t) := by
  have hAdvance := hE.advance h
  simp only [System.executeNext]
  generalize System.advance s = x at hAdvance
  generalize System.advance t = y at hAdvance
  obtain ⟨s, outcome⟩ := x
  obtain ⟨t, outcome'⟩ := y
  obtain ⟨hOutcome, h⟩ := hAdvance
  obtain rfl : outcome' = outcome := hOutcome
  cases outcome' with
  | error fault => exact .some ⟨rfl, h⟩
  | ok event =>
      cases event with
      | proceed => exact .some ⟨rfl, h⟩
      | trap number => exact hE.answer hRun number h
      | finished => exact .some ⟨rfl, hE.setState _ h⟩

section Step

variable {step step' : System.Stepper Cpu}
  (hStep : ∀ s t, R s t → Option.Rel (Together R) (step s) (step' t))

include hStep

theorem handlerLoop (ip sp : UInt16) (limit : Nat) (h : R s t) :
    Option.Rel (Together R) (System.handlerLoop step ip sp limit s)
      (System.handlerLoop step' ip sp limit t) := by
  have hEnded {s t} (h : R s t) :
      System.handlerLoop.ended ip sp t = System.handlerLoop.ended ip sp s := by
    simp only [System.handlerLoop.ended, hE.isRunning h, hE.cpu h]
  induction limit generalizing s t with
  | zero =>
      simp only [System.handlerLoop, hEnded h]
      split
      · exact .some ⟨rfl, h⟩
      · exact .none
  | succ limit ih =>
      simp only [System.handlerLoop, hEnded h]
      split
      · exact .some ⟨rfl, h⟩
      · rcases Together.cases (hStep s t h) with
          ⟨hs, ht⟩ | ⟨u, v, result, hNext, hs, ht⟩
        · simp only [hs, ht]
          exact .none
        · cases result with
          | ok _ =>
              simp only [hs, ht]
              exact ih hNext
          | error fault =>
              simp only [hs, ht]
              exact .some ⟨rfl, hNext⟩

theorem deliverWith (limit : Nat) (signal : UInt16) (h : R s t) :
    Option.Rel (Together R) (a.deliverWith step limit signal s)
      (b.deliverWith step' limit signal t) := by
  simp only [System.deliverWith, hE.disposition signal h]
  split
  next handler _ =>
    have hLoop := hE.handlerLoop hStep (Processor.ip s.cpu) (StackPointer.sp s.cpu) limit
      (hE.enter handler h)
    rw [hE.cpu h]
    rcases Together.cases hLoop with ⟨hs, ht⟩ | ⟨u, v, result, hEnd, hs, ht⟩
    · simp only [hs, ht]
      exact .none
    · cases result with
      | error fault =>
          simp only [hs, ht]
          exact .some ⟨rfl, hEnd⟩
      | ok _ =>
          simp only [hs, ht, hE.isRunning hEnd]
          split
          · exact .some ⟨rfl, hE.registers _ hEnd⟩
          · exact .some ⟨rfl, hEnd⟩
  next => exact .some ⟨rfl, h⟩

theorem cycleLoop (count done : Nat) (h : R s t) :
    Option.Rel (Together R) (System.cycleLoop step count done s)
      (System.cycleLoop step' count done t) := by
  induction count generalizing s t done with
  | zero => exact .some ⟨rfl, h⟩
  | succ count ih =>
      rcases Together.cases (hStep s t h) with ⟨hs, ht⟩ | ⟨u, v, result, hNext, hs, ht⟩
      · simp only [System.cycleLoop, hs, ht]
        exact .none
      · cases result with
        | error fault =>
            simp only [System.cycleLoop, hs, ht]
            exact .some ⟨rfl, hE.setState _ hNext⟩
        | ok _ =>
            simp only [System.cycleLoop, hs, ht, hE.state hNext]
            split
            · exact .some ⟨rfl, hNext⟩
            · exact ih _ hNext

theorem cyclesWith (count : Nat) (h : R s t) :
    Option.Rel (Together R) (System.cyclesWith step count s)
      (System.cyclesWith step' count t) := by
  simp only [System.cyclesWith, hE.isRunning h]
  split
  · exact hE.cycleLoop hStep count 0 h
  · exact .some ⟨rfl, h⟩

theorem runWith (h : R s t) : Option.Rel R (a.runWith step s) (b.runWith step' t) := by
  exact Option.Rel.map (hE.cyclesWith hStep System.maxCycles (hE.ready h)) fun _ _ hEnd => hEnd.2

end Step

theorem stepWith {run run' : Runner Cpu} {deliver deliver' : UInt16 → System.Stepper Cpu}
    (hRun : ∀ s t, R s t → Option.Rel R (run s) (run' t))
    (hDeliver : ∀ signal s t, R s t →
      Option.Rel (Together R) (deliver signal s) (deliver' signal t)) (h : R s t) :
    Option.Rel (Together R) (a.stepWith run deliver s) (b.stepWith run' deliver' t) := by
  have hPending := hE.pending h
  simp only [System.stepWith]
  generalize a.takePending s.host = x at hPending
  generalize b.takePending t.host = y at hPending
  cases hPending with
  | none => exact hE.executeNext hRun h
  | @some x y hPending =>
      obtain ⟨signal, host⟩ := x
      obtain ⟨signal', host'⟩ := y
      obtain ⟨hSignal, h⟩ := hPending
      obtain rfl : signal' = signal := hSignal
      rcases Together.cases (hDeliver signal' _ _ h) with ⟨hs, ht⟩ | ⟨u, v, result, hNext, hs, ht⟩
      · simp only [Session.withHost] at hs ht
        simp only [hs, ht]
        exact .none
      · simp only [Session.withHost] at hs ht
        cases result with
        | error fault =>
            simp only [hs, ht]
            exact .some ⟨rfl, hNext⟩
        | ok _ =>
            simp only [hs, ht, hE.isRunning hNext]
            split
            · exact hE.executeNext hRun hNext
            · exact .some ⟨rfl, hNext⟩

/-- One step. The induction is on the bound, since the children and the handlers inside
a step run under a smaller one. -/
theorem step (bound : Nat) (h : R s t) :
    Option.Rel (Together R) (a.step bound s) (b.step bound t) := by
  induction bound generalizing s t with
  | zero => exact .none
  | succ bound ih =>
      have hInner : ∀ s t, R s t →
          Option.Rel (Together R) (a.step bound s) (b.step bound t) := fun _ _ h => ih h
      exact hE.stepWith (fun _ _ h => hE.runWith hInner h)
        (fun signal _ _ h => hE.deliverWith hInner bound signal h) h

theorem run (bound : Nat) (h : R s t) : Option.Rel R (a.run bound s) (b.run bound t) :=
  hE.runWith (fun _ _ h => hE.step bound h) h

theorem deliver (bound : Nat) (signal : UInt16) (h : R s t) :
    Option.Rel (Together R) (a.deliver bound signal s) (b.deliver bound signal t) :=
  hE.deliverWith (fun _ _ h => hE.step bound h) bound signal h

theorem trap (bound : Nat) (number : UInt16) (h : R s t) :
    Option.Rel (Together R) (a.trap bound number s) (b.trap bound number t) :=
  hE.answer (fun _ _ h => hE.run bound h) number h

theorem executeCycles (bound count : Nat) (h : R s t) :
    Option.Rel (Together R) (a.executeCycles bound count s) (b.executeCycles bound count t) :=
  hE.cyclesWith (fun _ _ h => hE.step bound h) count h

end EngineRelation
end VintageUnix
