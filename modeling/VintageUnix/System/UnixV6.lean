import VintageUnix.I8086.Execution
import VintageUnix.Image.UnixV6
import VintageUnix.Pdp11.Execution
import VintageUnix.System.Basic

/-! Unix V6 on the PDP-11 and the 8086. The first argument of a call is in the accumulator, the
others are words in the text behind the trap, which the call skips. An indirect call finds its
number and arguments in data memory instead. -/
namespace VintageUnix.UnixV6

/-- A processor that Unix V6 runs on. -/
class Platform (Cpu : Type) extends Processor Cpu where
  personality : Personality
  target : Target
  /-- Store the status word of a finished child where wait returns it. -/
  setWaitStatus : UInt16 → Cpu → Cpu

instance : Platform Pdp11.Cpu where
  personality := .unixV6Pdp11
  target := .pdp11
  setWaitStatus status c := c.set .r1 status

instance : Platform I8086.Cpu where
  personality := .unixV6I8086
  target := .i8086
  setWaitStatus status c := c.set .dx (status ||| 14)

/-- A call by number: its name, if it exists, and how many words follow the trap. -/
structure TableEntry where
  name : Option String
  inlineWords : Nat
  deriving DecidableEq, Repr

/-- The calls by number. -/
def callTable : List TableEntry :=
  [⟨some "indir", 1⟩, ⟨some "exit", 0⟩, ⟨some "fork", 0⟩, ⟨some "read", 2⟩, ⟨some "write", 2⟩,
    ⟨some "open", 2⟩, ⟨some "close", 0⟩, ⟨some "wait", 0⟩, ⟨some "creat", 2⟩, ⟨some "link", 2⟩,
    ⟨some "unlink", 1⟩, ⟨some "exec", 2⟩, ⟨some "chdir", 1⟩, ⟨some "time", 0⟩, ⟨some "mknod", 3⟩,
    ⟨some "chmod", 2⟩, ⟨some "chown", 2⟩, ⟨some "brk", 1⟩, ⟨some "stat", 2⟩, ⟨some "seek", 2⟩,
    ⟨some "getpid", 0⟩, ⟨some "mount", 3⟩, ⟨some "umount", 1⟩, ⟨some "setuid", 0⟩,
    ⟨some "getuid", 0⟩, ⟨some "stime", 0⟩, ⟨some "ptrace", 3⟩, ⟨none, 0⟩, ⟨some "fstat", 1⟩,
    ⟨none, 0⟩, ⟨some "smdate", 1⟩, ⟨some "stty", 1⟩, ⟨some "gtty", 1⟩, ⟨none, 0⟩,
    ⟨some "nice", 0⟩, ⟨some "sleep", 0⟩, ⟨some "sync", 0⟩, ⟨some "kill", 1⟩, ⟨some "switch", 0⟩,
    ⟨none, 0⟩, ⟨none, 0⟩, ⟨some "dup", 0⟩, ⟨some "pipe", 0⟩, ⟨some "times", 1⟩,
    ⟨some "prof", 4⟩, ⟨some "tiu", 0⟩, ⟨some "setgid", 0⟩, ⟨some "getgid", 0⟩,
    ⟨some "signal", 2⟩]

/-- The name of a call, if it exists. -/
def callName? (number : UInt16) : Option String :=
  callTable[number.toNat]?.bind TableEntry.name

/-- The bytes of text behind the trap that belong to a call. -/
def inlineBytes (number : UInt16) : UInt16 :=
  UInt16.ofNat (2 * (callTable[number.toNat]?.map TableEntry.inlineWords).getD 0)

/-- The calls that give a result to the caller and change nothing else in how it
goes on. -/
inductive OrdinaryCall where
  | read
  | write
  | openFile
  | close
  | wait
  | creat
  | link
  | unlink
  | chdir
  | chmod
  | brk
  | stat
  | seek
  | getpid
  | dup
  | signal
  deriving DecidableEq, Repr

/-- The calls that are answered. -/
inductive Call where
  | indir
  | exit
  | fork
  | exec
  | ordinary (c : OrdinaryCall)
  deriving DecidableEq, Repr

def Call.ofNumber? (number : UInt16) : Option Call :=
  match number with
  | 0 => some .indir
  | 1 => some .exit
  | 2 => some .fork
  | 3 => some (.ordinary .read)
  | 4 => some (.ordinary .write)
  | 5 => some (.ordinary .openFile)
  | 6 => some (.ordinary .close)
  | 7 => some (.ordinary .wait)
  | 8 => some (.ordinary .creat)
  | 9 => some (.ordinary .link)
  | 10 => some (.ordinary .unlink)
  | 11 => some .exec
  | 12 => some (.ordinary .chdir)
  | 15 => some (.ordinary .chmod)
  | 17 => some (.ordinary .brk)
  | 18 => some (.ordinary .stat)
  | 19 => some (.ordinary .seek)
  | 20 => some (.ordinary .getpid)
  | 41 => some (.ordinary .dup)
  | 48 => some (.ordinary .signal)
  | _ => none

/-- Where the arguments of a call are: behind the trap in the text, or behind the
number of an indirect call in the data. -/
structure Arguments where
  address : UInt16
  inText : Bool
  deriving DecidableEq, Repr

/-- The argument with the given index. -/
def Arguments.word (a : Arguments) (m : AddressSpace) (index : UInt16) : UInt16 :=
  if a.inText then m.textWord (a.address + 2 * index) else m.word (a.address + 2 * index)

/-- An odd handler means no action, and zero the default action. -/
def disposition (handler : UInt16) : Disposition :=
  if handler = 0 then .default
  else if handler &&& 1 ≠ 0 then .ignore
  else .catch handler

/-- The position that a seek asks for. Origins from three on count in blocks of 512
bytes, and only offsets from the start are unsigned. -/
def seekPosition (offset origin : UInt16) : Except Errno SeekPosition :=
  let signed := offset.toInt16.toInt
  match origin with
  | 0 => .ok (.start offset.toNat)
  | 1 => .ok (.current signed)
  | 2 => .ok (.fromEnd signed)
  | 3 => .ok (.start (offset.toNat * 512))
  | 4 => .ok (.current (signed * 512))
  | 5 => .ok (.fromEnd (signed * 512))
  | _ => .error .invalidArgument

/-- The type bits of a status record. Plain files have none. -/
def fileType (mode : UInt32) : UInt16 :=
  match mode &&& 0o170000 with
  | 0o040000 => 0o040000
  | 0o020000 => 0o020000
  | 0o060000 => 0o060000
  | _ => 0

/-- Store a time, high word first. -/
def storeTime (address : UInt16) (time : Int64) (m : AddressSpace) : AddressSpace :=
  let bits := time.toUInt64
  (m.setWord address (bits >>> 16).toUInt16).setWord (address + 2) bits.toUInt16

/-- Store a status record of 36 bytes: the file number, the mode with the mark of
an allocated file, one byte each for links and owners, a size of three bytes, eight
unused words and two times. -/
def storeStatus (address : UInt16) (st : FileStatus) (m : AddressSpace) : AddressSpace :=
  m |>.setWord address st.device.toUInt16
    |>.setWord (address + 2) st.inode.toUInt16
    |>.setWord (address + 4)
      (0o100000 ||| fileType st.mode ||| (st.mode &&& 0o7777).toUInt16)
    |>.setByte (address + 6) st.links.toUInt8
    |>.setByte (address + 7) st.user.toUInt8
    |>.setByte (address + 8) st.group.toUInt8
    |>.setByte (address + 9) (st.size >>> 16).toUInt8
    |>.setWord (address + 10) st.size.toUInt16
    |>.write (address + 12) (List.replicate 16 0)
    |> storeTime (address + 28) st.accessed
    |> storeTime (address + 32) st.modified

variable {Cpu : Type} [Platform Cpu]

def conventions : Conventions Cpu where
  personality := Platform.personality Cpu
  reply := .carry
  signalCount := 20
  environment := []
  load := load (Platform.target Cpu)
  layOut arguments _ := StackLayout.build arguments none
  disposition := disposition

/-- Answer an ordinary call. -/
def OrdinaryCall.perform (c : OrdinaryCall) (arguments : Arguments) (s : Session Cpu) :
    Reply Cpu UInt16 :=
  let first := Processor.accumulator s.cpu
  let argument (index : UInt16) := arguments.word s.memory index
  let path (index : UInt16) := s.memory.stringAt (argument index)
  match c with
  | .read => s.read first (argument 0) (argument 1)
  | .write => s.write first (argument 0) (argument 1)
  | .openFile => s.openFile (path 0) (argument 1 &&& 3) 0
  | .close => s.close first
  | .wait => Reply.andThen
      (fun child s => (child.pid, s.mapCpu (Platform.setWaitStatus child.status))) s.wait
  | .creat => s.create (path 0) (argument 1)
  | .link => s.link (path 0) (path 1)
  | .unlink => s.unlink (path 0)
  | .chdir => s.changeDirectory (path 0)
  | .chmod => s.changeMode (path 0) (argument 1)
  | .brk => s.setBreak (argument 0)
  | .stat =>
    let buffer := argument 1
    Reply.andThen (fun st s => (0, s.mapMemory (storeStatus buffer st))) (s.status (path 0))
  | .seek =>
    match seekPosition (argument 0) (argument 1) with
    | .error e => (.error e, s)
    | .ok position =>
      Reply.andThen (fun offset s => (UInt16.ofNat offset, s)) (s.seek first position)
  | .getpid => s.processNumber
  | .dup => s.duplicate first
  | .signal => s.setHandler conventions (argument 0) (argument 1)

/-- Replace the program. Its stack is laid out anew with copies of the argument
strings. -/
def execute (path : String) (vector : UInt16) (s : Session Cpu) : Reply Cpu Unit :=
  let arguments := s.memory.stringVector vector
  let logged := s.trace .calls .debug .calls
    ("<exec(" ++ shownPath path ++ ", [" ++ Quoted.quoteAll arguments ++ "])>")
  let start (m : Machine Cpu) : Machine Cpu :=
    StackLayout.build arguments none (m.mapCpu (StackPointer.setSp · 0))
  Reply.andThen (fun _ s => ((), s.mapMachine start)) (logged.execute conventions path)

/-- What is left after a call. -/
inductive Completion (Cpu : Type) [Platform Cpu] where
  /-- Report a result and go on `skip` bytes further. -/
  | reply (result : Except Errno UInt16) (skip : UInt16) (s : Session Cpu)
  /-- The process is already as it shall be. -/
  | final (s : Session Cpu)
  | fault (fault : Fault) (s : Session Cpu)

/-- Where a forked child goes on: behind the words that belong to the trap itself,
with a zero result. -/
def prepareChild (skip : UInt16) (m : Machine Cpu) : Machine Cpu :=
  ReplyConvention.carry.report 0 (.ok 0)
    (m.mapCpu fun c => Processor.setIp c (Processor.ip c + skip))

/-- How far the parent of a fork goes on: one word further than the child, unless
the result looks as it does in the child. -/
def parentSkip (result : Except Errno UInt16) : UInt16 :=
  match result with
  | .ok 0 => 0
  | _ => 2

/-- Answer a call that is not indirect itself. Behind the trap are `skipped` bytes
that do not belong to the arguments. -/
def performDirect (run : Runner Cpu) (number : UInt16) (arguments : Arguments)
    (skipped : UInt16) (s : Session Cpu) : Option (Completion Cpu) :=
  let skip := inlineBytes number
  match Call.ofNumber? number with
  | none => match callName? number with
    | some name => let (t, _) := s.notImplemented name; some (.fault .unimplementedCall t)
    | none => let (t, _) := s.unknownCall number; some (.fault .unknownCall t)
  | some .indir => some (.reply (.error .invalidArgument) skip s)
  | some .exit => some (.final (s.exit (Processor.accumulator s.cpu).toInt16.toInt))
  | some .fork => (s.fork conventions run (prepareChild skipped)).map fun (result, s) =>
    .reply result (parentSkip result) s
  | some .exec =>
    let path := s.memory.stringAt (arguments.word s.memory 0)
    match execute path (arguments.word s.memory 1) s with
    | (.ok (), s) => some (.reply (.ok 0) 0 s)
    | (.error e, s) => some (.reply (.error e) skip s)
  | some (.ordinary c) =>
    let (result, s) := c.perform arguments s
    some (.reply result skip s)

/-- The skip of an indirect call: that of the trap, except that a new program
starts at its entry point. -/
def indirectSkip (number : UInt16) (result : Except Errno UInt16) : UInt16 :=
  match Call.ofNumber? number, result with
  | some .exec, .ok _ => 0
  | _, _ => inlineBytes 0

/-- Answer a call. An indirect call finds its number in the low byte of a word in
the data, and may not be indirect again. -/
def perform (run : Runner Cpu) (number : UInt16) (s : Session Cpu) :
    Option (Completion Cpu) :=
  let arguments : Arguments := { address := Processor.ip s.cpu, inText := true }
  if number = 0 then
    let address := arguments.word s.memory 0
    let inner := (s.memory.byte address).toUInt16
    let completion :=
      performDirect run inner { address := address + 2, inText := false } (inlineBytes 0) s
    completion.map fun
      | .reply result _ s => .reply result (indirectSkip inner result) s
      | other => other
  else performDirect run number arguments 0 s

/-- Answer a trap. -/
def answer (run : Runner Cpu) (trap : UInt16) (s : Session Cpu) : Reaction Cpu :=
  (perform run trap s).map fun
    | .reply result skip s =>
      let reported := s.mapMachine (ReplyConvention.carry.report 0 result)
      (reported.mapCpu fun c => Processor.setIp c (Processor.ip c + skip), .ok ())
    | .final s => (s, .ok ())
    | .fault fault s => (s, .error fault)

def system : System Cpu where
  toConventions := conventions
  answer := answer

end VintageUnix.UnixV6
