import VintageUnix.Proofs.Operations
import VintageUnix.System.Selection

/-! What can still be done with a process that has ended. Runs leave it alone, and so does a step
if there is a signal to deliver first. A step without a signal is no different from that of a
running process, and a signal with a handler leaves the process at the start of the handler. -/
namespace VintageUnix

variable {Cpu : Type} [Processor Cpu] {sys : System Cpu} {s : Session Cpu}

namespace System

/-- The process has a handler for a signal. -/
def Catches (sys : System Cpu) (s : Session Cpu) (signal : UInt16) : Prop :=
  ∃ handler, sys.disposition (s.process.signals.get signal).handler = .catch handler

/-- The session at the first instruction of the handler for a signal, if there is one. -/
def receive (sys : System Cpu) (signal : UInt16) (s : Session Cpu) : Session Cpu :=
  match sys.disposition (s.process.signals.get signal).handler with
  | .catch handler => enterHandler handler s
  | _ => s

theorem process_receive (signal : UInt16) (s : Session Cpu) :
    (sys.receive signal s).process =
      { s.process with machine := (sys.receive signal s).process.machine } := by
  unfold receive
  split <;> rfl

theorem receive_of_not_catches {signal : UInt16} (h : ¬ sys.Catches s signal) :
    sys.receive signal s = s := by
  unfold receive
  split
  next handler hHandler => exact absurd ⟨handler, hHandler⟩ h
  next => rfl

theorem isRunning_receive (signal : UInt16) (s : Session Cpu) :
    (sys.receive signal s).isRunning = s.isRunning := by
  unfold Session.isRunning
  rw [process_receive]
  rfl

theorem cyclesWith_of_ended {step : Stepper Cpu} (hEnded : s.isRunning = false) (count : Nat) :
    cyclesWith step count s = some (s, { cycles := 0, stop := .notRunning }) := by
  simp [cyclesWith, hEnded]

/-- A run makes the host act on signals for the process, and that is all. -/
theorem runWith_of_ended {step : Stepper Cpu} (hEnded : s.isRunning = false) :
    sys.runWith step s = some (s.mapHost (sys.installActions s.process.signals)) := by
  have hReady : (s.mapHost (sys.installActions s.process.signals)).isRunning = false := hEnded
  simp only [runWith, cyclesWith_of_ended hReady, Option.map_some]

/-- No step of the handler is taken, and the registers stay as they are on its entry. -/
theorem deliverWith_of_ended {step : Stepper Cpu} (hEnded : s.isRunning = false) (limit : Nat)
    (signal : UInt16) :
    sys.deliverWith step limit signal s = some (sys.receive signal s, .ok ()) := by
  unfold deliverWith receive
  cases sys.disposition (s.process.signals.get signal).handler with
  | «catch» handler =>
      have hEntered : (enterHandler handler s).isRunning = false := hEnded
      have hOver (ip sp : UInt16) : handlerLoop.ended ip sp (enterHandler handler s) = true := by
        simp [handlerLoop.ended, hEntered]
      cases limit <;> simp [handlerLoop, hOver, hEntered]
  | default => rfl
  | ignore => rfl

theorem step_of_ended {signal : UInt16} {host : Host} (hEnded : s.isRunning = false)
    (hPending : sys.takePending s.host = some (signal, host)) (bound : Nat) :
    sys.step (bound + 1) s = some (sys.receive signal (s.withHost host), .ok ()) := by
  have hArrived : (s.withHost host).isRunning = false := hEnded
  change sys.stepWith (sys.run bound) (sys.deliver bound) s = _
  have hDelivered : sys.deliver bound signal (s.withHost host) =
      some (sys.receive signal (s.withHost host), .ok ()) :=
    deliverWith_of_ended hArrived bound signal
  simp only [Session.withHost] at hDelivered hArrived
  simp [stepWith, hPending, hDelivered, isRunning_receive, hArrived, Session.withHost]

end System

namespace Operation

/-- The operation asks for no instruction of an ended process and for nothing that an
instruction does. A step only delivers the signal that has arrived. -/
def ExecutesNothing (sys : System Cpu) (s : Session Cpu) : Operation → Prop
  | step => (sys.takePending s.host).isSome
  | trap _ => False
  | execute _ => False
  | _ => True

/-- The operation delivers no signal that the process has a handler for. -/
def EntersNoHandler (sys : System Cpu) (s : Session Cpu) : Operation → Prop
  | step => ∀ signal host, sys.takePending s.host = some (signal, host) → ¬ sys.Catches s signal
  | deliver signal => ¬ sys.Catches s signal
  | _ => True

/-- The response of an ended process to what executes nothing. -/
def idleResponse : Operation → Response
  | step => .reaction (.ok ())
  | cycles _ => .report { cycles := 0, stop := .notRunning }
  | deliver _ => .reaction (.ok ())
  | _ => .done

/-- Something holds whenever one of the operations begins. -/
def Throughout (perform : Nat → Session Cpu → Operation → Option (Session Cpu × Response))
    (holds : Session Cpu → Operation → Prop) : List (Nat × Operation) → Session Cpu → Prop
  | [], _ => True
  | (bound, op) :: rest, s => holds s op ∧ ∀ t response, perform bound s op = some (t, response) →
    Throughout perform holds rest t

/-- An operation that executes nothing leaves all of an ended process alone but for the
machine, and that too if no handler is entered. -/
theorem perform_of_ended (hEnded : s.isRunning = false) {op : Operation}
    (hNothing : op.ExecutesNothing sys s) {bound : Nat} (hBound : 0 < bound) :
    ∃ t, op.perform sys bound s = some (t, op.idleResponse) ∧
      t.process = { s.process with machine := t.process.machine } ∧
      (op.EntersNoHandler sys s → t.process = s.process) := by
  cases op with
  | step =>
      obtain ⟨⟨signal, host⟩, hPending⟩ := Option.isSome_iff_exists.1 hNothing
      obtain ⟨bound, rfl⟩ := Nat.exists_eq_succ_of_ne_zero (Nat.ne_of_gt hBound)
      have hStep := System.step_of_ended hEnded hPending bound
      refine ⟨sys.receive signal (s.withHost host), by rw [perform, hStep]; rfl,
        System.process_receive _ _, fun hEnters => ?_⟩
      have hIgnored : ¬ sys.Catches (s.withHost host) signal := hEnters signal host hPending
      rw [System.receive_of_not_catches hIgnored]
      rfl
  | cycles count =>
      have hCycles : sys.executeCycles bound count s = _ := System.cyclesWith_of_ended hEnded count
      exact ⟨s, by rw [perform, hCycles]; rfl, rfl, fun _ => rfl⟩
  | run =>
      have hRun : sys.run bound s = _ := System.runWith_of_ended hEnded
      exact ⟨s.mapHost _, by rw [perform, hRun]; rfl, rfl, fun _ => rfl⟩
  | deliver signal =>
      have hDeliver : sys.deliver bound signal s = _ :=
        System.deliverWith_of_ended hEnded bound signal
      refine ⟨_, by rw [perform, hDeliver]; rfl, System.process_receive _ _, fun hIgnored => ?_⟩
      exact congrArg Session.process (System.receive_of_not_catches hIgnored)
  | trap number => exact hNothing.elim
  | execute path => exact hNothing.elim
  | raise number => exact ⟨_, rfl, rfl, fun _ => rfl⟩

/-- So does a sequence of them. What the process is before each operation is what it was at
first, but for its machine. -/
theorem performAll_of_ended (hEnded : s.isRunning = false) {ops : List (Nat × Operation)}
    (hBounds : ∀ x ∈ ops, 0 < x.1)
    (hNothing : Throughout (perform sys) (ExecutesNothing sys) ops s) :
    ∃ t, performAll (perform sys) ops s = some (t, ops.map fun x => x.2.idleResponse) ∧
      t.process = { s.process with machine := t.process.machine } ∧
      (Throughout (perform sys) (EntersNoHandler sys) ops s → t.process = s.process) := by
  induction ops generalizing s with
  | nil => exact ⟨s, rfl, rfl, fun _ => rfl⟩
  | cons first rest ih =>
      obtain ⟨bound, op⟩ := first
      obtain ⟨hFirst, hRest⟩ := hNothing
      obtain ⟨u, hPerform, hProcess, hSame⟩ :=
        perform_of_ended hEnded hFirst (hBounds _ List.mem_cons_self)
      have hStillEnded : u.isRunning = false := by
        unfold Session.isRunning
        rw [hProcess]
        exact hEnded
      obtain ⟨t, hOthers, hKept, hUntouched⟩ :=
        ih hStillEnded (fun x hx => hBounds x (List.mem_cons_of_mem _ hx)) (hRest _ _ hPerform)
      refine ⟨t, ?_, ?_, fun hEnters => ?_⟩
      · simp only [performAll, hPerform, Option.bind_some, hOthers, Option.map_some, List.map_cons]
      · rw [hKept, hProcess]
      · exact (hUntouched (hEnters.2 _ _ hPerform)).trans (hSame hEnters.1)

end Operation

/-- An ended process stays ended, with its exit code, descriptors and signal table, through
everything that executes no instruction in it. The code is the one that it left with, or minus
one if it failed. Unless a handler is entered, its registers and its memory stay the same as
well. -/
theorem ended_process_stays_ended (sys : System Cpu) {s : Session Cpu}
    (hEnded : s.isRunning = false) {ops : List (Nat × Operation)}
    (hBounds : ∀ x ∈ ops, 0 < x.1)
    (hNothing : Operation.Throughout (Operation.perform sys) (Operation.ExecutesNothing sys)
      ops s) :
    ∃ t, Operation.performAll (Operation.perform sys) ops s =
        some (t, ops.map fun x => x.2.idleResponse) ∧
      t.process.state = s.process.state ∧
      (∀ code, s.process.state = .terminated code → t.process.state.exitCode? = some code) ∧
      (∀ fault, s.process.state = .failed fault → t.process.state.exitCode? = some (-1)) ∧
      t.process = { s.process with machine := t.process.machine } ∧
      (Operation.Throughout (Operation.perform sys) (Operation.EntersNoHandler sys) ops s →
        t.process = s.process) := by
  obtain ⟨t, hPerformed, hKept, hUntouched⟩ :=
    Operation.performAll_of_ended hEnded hBounds hNothing
  have hState : t.process.state = s.process.state := by rw [hKept]
  refine ⟨t, hPerformed, hState, fun code hLeft => ?_, fun fault hFailed => ?_, hKept, hUntouched⟩
  · rw [hState, hLeft]
    rfl
  · rw [hState, hFailed]
    rfl

/-- A program that leaves with code three. What lies behind it would clear the register that
the code is in, and leave again. A signal has a handler there. -/
private abbrev threeImage : Image where
  memory := AddressSpace.shared.write 0
    [0xc0, 0x15, 0x03, 0x00, 0x01, 0x89, 0x00, 0x0a, 0x01, 0x89]
  entry := 0
  format := .raw

/-- The program after it has left, with a word on its stack. -/
private abbrev left : Session Personality.unixV6Pdp11.Cpu :=
  let c : Conventions Pdp11.Cpu := UnixV6.conventions
  let started := ((c.start threeImage {} {}).setHandler c 2 6).2
  let placed := started.mapCpu fun cpu => (cpu.set .sp 0x20).set .r0 3 |>.set .pc 6
  placed.setState (.terminated 3)

/-- A signal without a handler is taken, and nothing else becomes of the step. -/
theorem ended_process_stays_ended_left :
    ∃ t, Operation.performAll (Operation.perform Personality.unixV6Pdp11.system)
        [(1, .raise 11), (1, .step), (1, .cycles 9), (1, .run)] left =
      some (t, [.done, .reaction (.ok ()), .report { cycles := 0, stop := .notRunning }, .done]) ∧
      t.process.state = .terminated 3 ∧ t.process = left.process := by
  have hTaken : (Personality.unixV6Pdp11.system.takePending
      { left.host with signals := left.host.signals.raise 11 }).map Prod.fst = some 11 := by
    decide +kernel
  obtain ⟨⟨_, host⟩, hPending, rfl⟩ := Option.map_eq_some_iff.1 hTaken
  have hUnhandled : ¬ Personality.unixV6Pdp11.system.Catches left 11 := by
    rintro ⟨handler, hHandler⟩
    have hDefault : Personality.unixV6Pdp11.system.disposition
        (left.process.signals.get 11).handler = .default := by
      decide +kernel
    cases hDefault.symm.trans hHandler
  have hEnded : left.isRunning = false := rfl
  have hBounds : ∀ x ∈ ([(1, .raise 11), (1, .step), (1, .cycles 9), (1, .run)] :
      List (Nat × Operation)), 0 < x.1 := by
    decide
  obtain ⟨t, hPerformed, hState, -, -, -, hUntouched⟩ :=
    ended_process_stays_ended Personality.unixV6Pdp11.system hEnded hBounds
      ⟨trivial, fun _ _ hRaised => by
        cases hRaised
        refine ⟨Option.isSome_iff_exists.2 ⟨_, hPending⟩, fun _ _ _ => ?_⟩
        exact ⟨trivial, fun _ _ _ => ⟨trivial, fun _ _ _ => trivial⟩⟩⟩
  refine ⟨t, hPerformed, hState, hUntouched ⟨trivial, fun _ _ hRaised => ?_⟩⟩
  cases hRaised
  refine ⟨fun signal host hOther => ?_, fun _ _ _ => ?_⟩
  · cases hPending.symm.trans hOther
    exact hUnhandled
  · exact ⟨trivial, fun _ _ _ => ⟨trivial, fun _ _ _ => trivial⟩⟩

/-- Without a signal the ended program goes on, and leaves with another code. A caught signal
moves it to its handler, and puts a word on its stack. -/
theorem step_goes_on_in_ended_process :
    left.process.state = .terminated 3 ∧
      (Operation.performAll (Operation.perform Personality.unixV6Pdp11.system)
        [(1, .step)] left).map (fun x => (x.1.process.state, Pdp11.Cpu.get x.1.cpu .r0)) =
      some (.terminated 3, 0) ∧
      (Operation.performAll (Operation.perform Personality.unixV6Pdp11.system)
        [(1, .step), (1, .step)] left).map (fun x => x.1.process.state) = some (.terminated 0) ∧
      (Operation.performAll (Operation.perform Personality.unixV6Pdp11.system)
        [(1, .deliver 2)] left).map
          (fun x => (Pdp11.Cpu.get x.1.cpu .pc, x.1.memory.word 0x1e)) = some (6, 6) ∧
      left.memory.word 0x1e = 0 := by
  decide +kernel

end VintageUnix
