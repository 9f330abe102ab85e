import VintageUnix.Image.Personality
import VintageUnix.Process.Calls
import VintageUnix.Process.StackLayout

/-! What an emulated operating system has to define, and the calls that depend on it: signals,
fork, and the replacement of a program. -/
namespace VintageUnix

/-- How a system hands the result of a call back to the program. -/
inductive ReplyConvention where
  /-- The result, or the negative of the error number, goes into the message block
  in place of the call number, and the accumulator is cleared. -/
  | message
  /-- The result or the error number goes into the accumulator, and the carry tells
  which of the two it is. -/
  | carry
  deriving DecidableEq, Repr

/-- Report a result. The address of the message block counts only where there
is one. -/
def ReplyConvention.report {Cpu : Type} [Processor Cpu] (c : ReplyConvention) (block : UInt16)
    (result : Except Errno UInt16) (m : Machine Cpu) : Machine Cpu :=
  match c, result with
  | .message, .ok v => { cpu := Processor.setAccumulator m.cpu 0
                         memory := m.memory.setWord (block + 2) v }
  | .message, .error e => { cpu := Processor.setAccumulator m.cpu 0
                            memory := m.memory.setWord (block + 2) (0 - e.word) }
  | .carry, .ok v => m.mapCpu fun c => Processor.setCarry (Processor.setAccumulator c v) false
  | .carry, .error e =>
    m.mapCpu fun c => Processor.setCarry (Processor.setAccumulator c e.word) true

/-- The conventions of a system, apart from its calls. -/
structure Conventions (Cpu : Type) [Processor Cpu] where
  personality : Personality
  reply : ReplyConvention
  /-- The number of signals, zero included. -/
  signalCount : Nat
  /-- The environment of a program that is given none. -/
  environment : List String
  load : List UInt8 → Except LoadError Image
  /-- Lay out the arguments and the environment of a new program. -/
  layOut : (arguments environment : List String) → Machine Cpu → Machine Cpu
  /-- What a handler value that a program stored asks for. -/
  disposition : UInt16 → Disposition

/-- Running a process to its end. There is no result if it takes too long. -/
abbrev Runner (Cpu : Type) [Processor Cpu] := Session Cpu → Option (Session Cpu)

/-- A session after something that may end in a fault. There is no result if it
takes too long. -/
abbrev Reaction (Cpu : Type) [Processor Cpu] := Option (Session Cpu × Except Fault Unit)

/-- A system: its conventions, and how it answers a trap. The instruction pointer
is already past the trapping instruction, and a forked child is run by the runner. -/
structure System (Cpu : Type) [Processor Cpu] extends Conventions Cpu where
  answer : Runner Cpu → (trap : UInt16) → Session Cpu → Reaction Cpu

variable {Cpu : Type} [Processor Cpu]

namespace Conventions

/-- The signals of the system in order. -/
def signals (c : Conventions Cpu) : List UInt16 :=
  (List.range c.signalCount).map UInt16.ofNat

/-- Make the host act on one signal as a table says. -/
def installAction (c : Conventions Cpu) (t : SignalTable) (h : Host) (signal : UInt16) : Host :=
  match HostSignal.ofGuest? signal with
  | some number => h.install number (c.disposition (t.get signal).handler).action
  | none => h

/-- Make the host act on every signal as a table says. -/
def installActions (c : Conventions Cpu) (t : SignalTable) (h : Host) : Host :=
  c.signals.foldl (c.installAction t) h

/-- Take one pending signal that the system knows. -/
def takePending (c : Conventions Cpu) (h : Host) : Option (UInt16 × Host) :=
  (h.signals.takeFirst c.signals).map fun (signal, signals) => (signal, { h with signals })

/-- The image of the binary at a path of the host. -/
def loadFile (c : Conventions Cpu) (h : Host) (path : String) : Except LoadError Image :=
  match h.readFile path with
  | .ok bytes => c.load bytes
  | .error cause => .error (.unreadable path cause)

end Conventions

/-- Change the value and the session of a call that succeeded. -/
def Reply.andThen {α β : Type} (f : α → Session Cpu → β × Session Cpu) :
    Reply Cpu α → Reply Cpu β
  | (.ok a, s) => let (b, s) := f a s; (.ok b, s)
  | (.error e, s) => (.error e, s)

namespace Session

/-- Replace the action of a signal that the host can deliver, and make the host
act on it. Gives the old action. -/
def setSignalAction (c : Conventions Cpu) (signal : UInt16) (action : SignalAction)
    (s : Session Cpu) : Except Errno (SignalAction × Session Cpu) :=
  match HostSignal.ofGuest? signal, s.process.signals.set? signal action with
  | some number, some (old, table) =>
    .ok (old, {
      process := { s.process with signals := table }
      host := s.host.install number (c.disposition action.handler).action })
  | _, _ => .error .invalidArgument

/-- Store a handler for a signal, and give the old one. -/
def setHandler (c : Conventions Cpu) (signal handler : UInt16) (s : Session Cpu) :
    Reply Cpu UInt16 :=
  s.conclude (shownCall "signal" [shownWord signal, Numeral.hexAddress handler]) shownWord <|
    (s.setSignalAction c signal { handler }).map fun (old, s) => (old.handler, s)

/-- The child of a fork: a copy of the process under a number of its own, prepared so
that the call returns zero in it. -/
def child (prepare : Machine Cpu → Machine Cpu) (s : Session Cpu) : Session Cpu :=
  let (pid, host) := s.host.newPid
  { process := { s.process with pid, machine := prepare s.process.machine }, host }

/-- What a fork comes to in the parent when the child has ended. The child is recorded
for a later wait, and the host acts on signals for the parent again. -/
def rejoin (c : Conventions Cpu) (pid : UInt16) (s ended : Session Cpu) : Session Cpu :=
  let code := (ended.process.state.exitCode?).getD (-1)
  s.withHost (c.installActions s.process.signals (ended.host.addFinished { pid, code }))

/-- Run a copy of the process to its end, as the child of a fork. The host has no part
in it and cannot refuse it. -/
def fork (c : Conventions Cpu) (run : Runner Cpu) (prepare : Machine Cpu → Machine Cpu)
    (s : Session Cpu) : Option (Reply Cpu UInt16) :=
  let child := s.child prepare
  (run child).map fun ended =>
    s.conclude (shownCall "fork" []) shownWord
      (.ok (child.process.pid, s.rejoin c child.process.pid ended))

/-- Replace the program by the one in a file. Handlers are forgotten. On failure
nothing changes but the log. -/
def execute (c : Conventions Cpu) (path : String) (s : Session Cpu) : Reply Cpu Unit :=
  match c.loadFile s.host (s.process.hostPath path) with
  | .ok image =>
    let signals := s.process.signals.resetCaught c.disposition
    (.ok (), {
      process := { s.process.install image with signals }
      host := c.installActions signals s.host })
  | .error e =>
    (.error .invalidArgument, s.log .debug .calls ("exec " ++ path ++ ": " ++ e.message))

/-- A call that exists but cannot be answered. -/
def notImplemented (name : String) (s : Session Cpu) : Session Cpu × Except Fault Unit :=
  (s.log .warn .calls ("<" ++ name ++ ": not implemented>"), .error .unimplementedCall)

/-- A call that does not exist. -/
def unknownCall (number : UInt16) (s : Session Cpu) : Session Cpu × Except Fault Unit :=
  (s.log .warn .calls ("<" ++ shownWord number ++ ": unknown syscall>"), .error .unknownCall)

end Session
end VintageUnix
