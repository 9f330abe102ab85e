import VintageUnix.Host.Basic
import VintageUnix.Image.Basic
import VintageUnix.Memory.Strings
import VintageUnix.Process.DecodeCache
import VintageUnix.Process.Descriptors
import VintageUnix.Process.SignalTable

/-! A process: one processor with its memory, and its view of the host. A process and the host it
runs on together make a session, which is what instructions and system calls transform. -/
namespace VintageUnix

/-- What stays the same through the life of a process. How forks are carried out is not among it:
a child is always run to its end before its parent goes on, and never becomes a process of the
machine that the host stands for. -/
structure Settings where
  /-- The directory that absolute paths are looked up in. -/
  root : Option String := none
  trace : Trace := .off

inductive RunState where
  | running
  | terminated (code : Int)
  | failed (fault : Fault)
  deriving DecidableEq, Repr

/-- The exit code of a process that has ended. A fault counts as -1. -/
def RunState.exitCode? : RunState → Option Int
  | running => none
  | terminated code => some code
  | failed _ => some (-1)

variable {Cpu : Type}

structure Process (Cpu : Type) [Processor Cpu] where
  machine : Machine Cpu
  descriptors : Descriptors := .standard
  signals : SignalTable
  pid : UInt16
  umask : UInt16 := 0
  symbols : List Symbol
  settings : Settings
  cache : DecodeCache (Processor.Instruction Cpu)
  state : RunState := .running

/-- A process and the host. -/
structure Session (Cpu : Type) [Processor Cpu] where
  process : Process Cpu
  host : Host

variable [Processor Cpu]

/-- The machine that an image starts on, before its stack is laid out. -/
def Image.machine (i : Image) : Machine Cpu where
  cpu := Processor.setIp Processor.reset i.entry
  memory := i.memory

namespace Process

/-- A process at the entry point of an image. -/
def ofImage (i : Image) (signalCount : Nat) (pid : UInt16) (settings : Settings) :
    Process Cpu where
  machine := i.machine
  signals := .ofCount signalCount
  pid
  symbols := i.symbols
  settings
  cache := .empty i.memory.isSplit

/-- Replace the program. Memory, registers and decoded instructions all come from
the image. -/
def install (p : Process Cpu) (i : Image) : Process Cpu :=
  { p with
    machine := i.machine
    symbols := i.symbols
    cache := .empty i.memory.isSplit }

def isRunning (p : Process Cpu) : Bool :=
  p.state = .running

/-- Where the host finds a path of the program. -/
def hostPath (p : Process Cpu) (path : String) : String :=
  Path.onHost p.settings.root path

/-- Take the next instruction from the text, through the cache. -/
def fetch (p : Process Cpu) : Processor.Instruction Cpu × Process Cpu :=
  let ip := Processor.ip p.machine.cpu
  let (i, cache) := p.cache.fetch ip fun _ => Processor.fetch p.machine.memory.text.get ip
  (i, { p with cache })

end Process

namespace Session

/-- Change the process only. -/
def mapProcess (f : Process Cpu → Process Cpu) (s : Session Cpu) : Session Cpu :=
  { s with process := f s.process }

/-- Change the host only. -/
def mapHost (f : Host → Host) (s : Session Cpu) : Session Cpu :=
  { s with host := f s.host }

def mapMachine (f : Machine Cpu → Machine Cpu) (s : Session Cpu) : Session Cpu :=
  s.mapProcess fun p => { p with machine := f p.machine }

def mapMemory (f : AddressSpace → AddressSpace) (s : Session Cpu) : Session Cpu :=
  s.mapMachine (·.mapMemory f)

def mapCpu (f : Cpu → Cpu) (s : Session Cpu) : Session Cpu :=
  s.mapMachine (·.mapCpu f)

def cpu (s : Session Cpu) : Cpu :=
  s.process.machine.cpu

def memory (s : Session Cpu) : AddressSpace :=
  s.process.machine.memory

def isRunning (s : Session Cpu) : Bool :=
  s.process.isRunning

def setState (state : RunState) (s : Session Cpu) : Session Cpu :=
  s.mapProcess fun p => { p with state }

/-- Write a record into the log, whatever is being traced. -/
def log (level : Level) (topic : Topic) (text : String) (s : Session Cpu) : Session Cpu :=
  s.mapHost (·.log { level, topic, text })

/-- Write a record into the log if as much as `least` is traced. -/
def trace (least : Trace) (level : Level) (topic : Topic) (text : String) (s : Session Cpu) :
    Session Cpu :=
  if s.process.settings.trace.includes least then s.log level topic text else s

end Session
end VintageUnix
