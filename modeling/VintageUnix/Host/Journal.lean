/-! The journal of a run: log records and what the programs print on standard error, in order. -/
namespace VintageUnix

inductive Level where
  | trace
  | debug
  | warn
  deriving DecidableEq, Repr

/-- What a log record is about. -/
inductive Topic where
  | program
  | registers
  | execution
  | calls
  deriving DecidableEq, Repr

structure LogRecord where
  level : Level
  topic : Topic
  text : String
  deriving DecidableEq, Repr

inductive JournalEntry where
  | record (r : LogRecord)
  | output (bytes : List UInt8)
  deriving DecidableEq, Repr

namespace Level

def name : Level → String
  | .trace => "TRACE"
  | .debug => "DEBUG"
  | .warn => "WARN"

def severity : Level → Nat
  | .trace => 0
  | .debug => 1
  | .warn => 2

/-- The name filled up with blanks on the left to the longest one. -/
def column (l : Level) : String :=
  String.ofList (List.replicate (5 - l.name.length) ' ') ++ l.name

end Level

/-- A log record as a line on a terminal. -/
def LogRecord.render (r : LogRecord) : String :=
  r.level.column ++ " " ++ r.text

/-- How much of a run is logged besides warnings. -/
inductive Trace where
  | off
  /-- The system calls. -/
  | calls
  /-- Also the instructions. -/
  | instructions
  /-- Also the registers before each instruction. -/
  | registers
  deriving DecidableEq, Repr

namespace Trace

def rank : Trace → Nat
  | .off => 0
  | .calls => 1
  | .instructions => 2
  | .registers => 3

/-- Whether something that is logged from `least` on is logged. -/
def includes (t least : Trace) : Bool :=
  least.rank ≤ t.rank

/-- The least severe level that is printed at all. -/
def level : Trace → Level
  | .off => .warn
  | .calls => .debug
  | .instructions | .registers => .trace

end Trace
end VintageUnix
