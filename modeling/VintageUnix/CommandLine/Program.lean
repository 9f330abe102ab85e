import VintageUnix.CommandLine.Options
import VintageUnix.Process.Listing
import VintageUnix.System.Selection

/-! What the command does on a host: print its help, list a binary, or run it. -/
namespace VintageUnix.CommandLine

def programName : String := "legacy16"

def versionText : String := programName ++ " 0.1.0\n"

def helpText : String :=
  "Runs Minix 2 and Unix V6 executables on an emulated 8086 or PDP-11\n\n" ++
  "Usage: " ++ programName ++ " [OPTIONS] [BINARY]...\n\n" ++
  "Arguments:\n" ++
  "  [BINARY]...  The executable to run, followed by its arguments\n\n" ++
  "Options:\n" ++
  "  -r <ROOTDIR>   Directory that absolute paths of the emulated program are resolved in\n" ++
  "  -m             Trace system calls, instructions and registers\n" ++
  "  -v             Trace system calls and instructions\n" ++
  "  -s             Trace system calls\n" ++
  "  -d             Disassemble the text segment instead of running\n" ++
  "  -p             Treat the binary as a PDP-11 executable\n" ++
  "  -h, --help     Print help\n" ++
  "  -V, --version  Print version\n"

/-- The text for arguments that make no sense together. -/
def usageText : String :=
  "error: invalid arguments\n\nUsage: " ++ programName ++ " [OPTIONS] [BINARY]...\n\n" ++
  "For more information, try '--help'.\n"

/-- The host after the command, with its exit code. -/
structure Result where
  code : Int
  host : Host

/-- The exit code as the caller of the command sees it. -/
def Result.status (r : Result) : UInt8 :=
  UInt8.ofInt r.code

/-- Print on standard output. -/
def print (text : String) (h : Host) : Host :=
  { h with output := h.output ++ Utf8.encode text }

/-- Print on standard error. -/
def printError (text : String) (h : Host) : Host :=
  { h with journal := h.journal.push (.output (Utf8.encode text)) }

/-- How deeply children and signal handlers may be nested, and how many steps a
handler may take. No real program comes near. -/
def nestingBound : Nat := 0x4000000000000000

/-- List or run the binary at a path under a system. -/
def startOn {Cpu : Type} [Processor Cpu] (sys : System Cpu) (o : Options) (path : String)
    (command : List String) (h : Host) : Option Result :=
  let settings : Settings := { root := o.root, trace := o.trace }
  match sys.startFile path command sys.environment settings h with
  | .error e =>
    some { code := 1, host := printError ("can not load " ++ path ++ ": " ++ e.message ++ "\n") h }
  | .ok s =>
    if o.has .list then
      let lines := Listing.ofMemory Cpu s.memory s.process.symbols
      some { code := 0, host := print (String.join (lines.map (· ++ "\n"))) s.host }
    else (sys.run nestingBound s).map fun s =>
      { code := s.process.state.exitCode?.getD (-1), host := s.host }

/-- Start a binary under the system that it seems to be made for. -/
def start (o : Options) (binary : String) (arguments : List String) (h : Host) :
    Option Result :=
  let path := Path.onHost o.root binary
  match h.readFile path with
  | .error cause =>
    let message := (LoadError.unreadable path cause).message
    some { code := 1, host := printError (message ++ "\n") h }
  | .ok bytes =>
    let personality := Personality.detect bytes (o.has .pdp11)
    let record : LogRecord :=
      { level := .debug, topic := .program, text := binary ++ ": " ++ personality.name }
    startOn personality.system o path (binary :: arguments)
      (if o.trace.includes .calls then h.log record else h)

/-- Do what was asked for. There is no result only if programs nest too deeply. -/
def Request.perform (r : Request) (h : Host) : Option Result :=
  match r with
  | .help => some { code := 0, host := print helpText h }
  | .version => some { code := 0, host := print versionText h }
  | .invalid => some { code := 2, host := printError usageText h }
  | .start _ [] => some { code := 1, host := print helpText h }
  | .start o (binary :: arguments) => CommandLine.start o binary arguments h

/-- What standard error shows of a journal: all that programs printed, and the log
records that are not below a level. -/
def errorOutput (level : Level) (journal : List JournalEntry) : List UInt8 :=
  journal.flatMap fun
    | .output bytes => bytes
    | .record r =>
      if level.severity ≤ r.level.severity then Utf8.encode (r.render ++ "\n") else []

/-- The least severe level that a request prints. -/
def Request.level : Request → Level
  | .start o _ => o.trace.level
  | _ => .warn

/-- Standard error after a request. -/
def Request.errorOutput (r : Request) (result : Result) : List UInt8 :=
  CommandLine.errorOutput r.level result.host.journal.toList

end VintageUnix.CommandLine
