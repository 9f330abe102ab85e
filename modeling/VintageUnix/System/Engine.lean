import VintageUnix.System.Basic

/-! Running a process: one step at a time, with signals delivered between the steps. A step may
contain the whole run of a forked child or of a signal handler, so it is defined by recursion on a
bound for how deeply those are nested and for how long a handler runs. Without a result the bound
was too small. -/
namespace VintageUnix

variable {Cpu : Type} [Processor Cpu]

/-- Why a run of some cycles ended. -/
inductive Stop where
  | notRunning
  | outOfCycles
  | failed (fault : Fault)
  | terminated (code : Int)
  deriving DecidableEq, Repr

/-- What some cycles came to. The cycle in which a fault occurs is not counted. -/
structure CycleReport where
  cycles : Nat
  stop : Stop
  deriving DecidableEq, Repr

namespace System

/-- One step of a process. -/
abbrev Stepper (Cpu : Type) [Processor Cpu] := Session Cpu → Reaction Cpu

/-- The checks before an instruction is executed: it may not reach past the text,
and the stack may not reach into the data. Gives the fault and a warning. -/
def guard (ip length : UInt16) (m : Machine Cpu) : Option (Fault × String) :=
  let sp := StackPointer.sp m.cpu
  if m.memory.textLimit.any (· < ip.toNat + length.toNat) then
    some (.executeOutsideText, Numeral.hexWord ip ++ ": overrun")
  else if sp < m.memory.brk then
    some (.stackOverflow,
      "stack overflow: sp=" ++ Numeral.hexWord sp ++ " brk=" ++ Numeral.hexWord m.memory.brk)
  else none

/-- Execute the next instruction, but leave a trap to be answered. -/
def advance (s : Session Cpu) : Session Cpu × Except Fault Event :=
  let ip := Processor.ip s.cpu
  let (i, process) := s.process.fetch
  let length := Processor.length i
  let shown := Numeral.hexWord ip ++ ": " ++ Processor.render i
  let fetched : Session Cpu := { s with process }
  let s := fetched.trace .registers .trace .registers (Processor.renderState s.cpu)
    |>.trace .instructions .trace .execution shown
  match guard ip length s.process.machine with
  | some (fault, warning) => (s.log .warn .execution warning, .error fault)
  | none =>
    let advanced := s.process.machine.mapCpu (Processor.setIp · (ip + length))
    let (machine, outcome) := Processor.execute i advanced
    let executed := s.mapMachine fun _ => machine
    match outcome with
    | .ok event => (executed, .ok event)
    | .error fault =>
      (executed.log .warn .execution (shown ++ ": " ++ fault.message), .error fault)

/-- Execute the next instruction, and answer the trap if it is one. -/
def executeNext (sys : System Cpu) (run : Runner Cpu) (s : Session Cpu) : Reaction Cpu :=
  match advance s with
  | (t, .ok .proceed) => some (t, .ok ())
  | (t, .ok .finished) => some (t.setState (.terminated 0), .ok ())
  | (t, .ok (.trap number)) => sys.answer run number t
  | (t, .error fault) => some (t, .error fault)

/-- Deliver one pending signal, if there is any, and then execute an instruction,
unless the handler ended the process. -/
def stepWith (sys : System Cpu) (run : Runner Cpu) (deliver : UInt16 → Stepper Cpu) :
    Stepper Cpu := fun s =>
  match sys.takePending s.host with
  | none => sys.executeNext run s
  | some (signal, host) =>
    match deliver signal { s with host } with
    | some (s, .ok ()) => if s.isRunning then sys.executeNext run s else some (s, .ok ())
    | other => other

/-- Run a handler until it has returned to where the signal arrived, with the
stack as it was there. -/
def handlerLoop (step : Stepper Cpu) (ip sp : UInt16) : (limit : Nat) → Stepper Cpu
  | 0, s => if ended s then some (s, .ok ()) else none
  | limit + 1, s =>
    if ended s then some (s, .ok ())
    else match step s with
      | some (s, .ok ()) => handlerLoop step ip sp limit s
      | other => other
where
  ended (s : Session Cpu) : Bool :=
    !s.isRunning || (Processor.ip s.cpu = ip && StackPointer.sp s.cpu = sp)

/-- The session at the first instruction of a handler, with the place that the signal
interrupts on the stack. -/
def enterHandler (handler : UInt16) (s : Session Cpu) : Session Cpu :=
  s.mapMachine fun m => (m.push (Processor.ip m.cpu)).mapCpu (Processor.setIp · handler)

/-- Run the handler of a signal as if the signal interrupted the program. Afterwards
the registers are as before; what the handler did to memory stays. -/
def deliverWith (sys : System Cpu) (step : Stepper Cpu) (limit : Nat) (signal : UInt16) :
    Stepper Cpu := fun s =>
  match sys.disposition (s.process.signals.get signal).handler with
  | .catch handler =>
    let saved := s.cpu
    match handlerLoop step (Processor.ip saved) (StackPointer.sp saved) limit
        (enterHandler handler s) with
    | some (s, .ok ()) => some (if s.isRunning then s.mapCpu fun _ => saved else s, .ok ())
    | other => other
  | _ => some (s, .ok ())

/-- Take at most `count` steps, of which `done` have been taken before. A fault ends
the process. -/
def cycleLoop (step : Stepper Cpu) : (count done : Nat) → Session Cpu →
    Option (Session Cpu × CycleReport)
  | 0, done, s => some (s, { cycles := done, stop := .outOfCycles })
  | count + 1, done, s =>
    match step s with
    | none => none
    | some (s, .error fault) =>
      some (s.setState (.failed fault), { cycles := done, stop := .failed fault })
    | some (s, .ok ()) => match s.process.state with
      | .terminated code => some (s, { cycles := done + 1, stop := .terminated code })
      | _ => cycleLoop step count (done + 1) s

/-- Take at most `count` steps, if the process is running. -/
def cyclesWith (step : Stepper Cpu) (count : Nat) (s : Session Cpu) :
    Option (Session Cpu × CycleReport) :=
  if s.isRunning then cycleLoop step count 0 s
  else some (s, { cycles := 0, stop := .notRunning })

/-- The number of cycles that count as no limit. -/
def maxCycles : Nat := 0xffffffffffffffff

/-- Run a process to its end, with the host acting on signals as the process has
asked for. -/
def runWith (sys : System Cpu) (step : Stepper Cpu) : Runner Cpu := fun s =>
  let ready := s.mapHost (sys.installActions s.process.signals)
  (cyclesWith step maxCycles ready).map (·.1)

/-- One step, with at most `bound` levels of children and handlers inside. -/
def step (sys : System Cpu) : (bound : Nat) → Stepper Cpu
  | 0, _ => none
  | bound + 1, s =>
    let inner := sys.step bound
    sys.stepWith (sys.runWith inner) (sys.deliverWith inner bound) s

/-- Deliver a signal. -/
def deliver (sys : System Cpu) (bound : Nat) (signal : UInt16) : Stepper Cpu :=
  sys.deliverWith (sys.step bound) bound signal

/-- Answer a trap that was taken at the current instruction pointer. -/
def trap (sys : System Cpu) (bound : Nat) (number : UInt16) : Stepper Cpu :=
  sys.answer (sys.runWith (sys.step bound)) number

/-- Take at most `count` steps. -/
def executeCycles (sys : System Cpu) (bound count : Nat) (s : Session Cpu) :
    Option (Session Cpu × CycleReport) :=
  cyclesWith (sys.step bound) count s

/-- Run a process to its end. -/
def run (sys : System Cpu) (bound : Nat) : Runner Cpu :=
  sys.runWith (sys.step bound)

end System

namespace Conventions

/-- A new process on an image. Its stack is still empty. -/
def start (c : Conventions Cpu) (image : Image) (settings : Settings) (h : Host) :
    Session Cpu :=
  let (pid, host) := h.newPid
  { process := .ofImage image c.signalCount pid settings, host }

/-- A new process on the binary at a path of the host, with its arguments laid out. -/
def startFile (c : Conventions Cpu) (path : String) (arguments environment : List String)
    (settings : Settings) (h : Host) : Except LoadError (Session Cpu) :=
  (c.loadFile h path).map fun image =>
    (c.start image settings h).mapMachine (c.layOut arguments environment)

end Conventions
end VintageUnix
