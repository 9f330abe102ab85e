import VintageUnix.I8086.Execution
import VintageUnix.Image.Minix
import VintageUnix.System.Basic

/-! Minix 2 on the 8086. A program traps with a message block in `bx`: the call number is its second
word, the arguments follow at fixed offsets, and the reply takes the place of the number. -/
namespace VintageUnix.Minix

open I8086 (Cpu)

/-- The trap that passes messages. -/
def messageTrap : UInt16 := 0x20

/-- The calls that give a result to the caller and change nothing else in how it
goes on. -/
inductive OrdinaryCall where
  | read
  | write
  | openFile
  | close
  | wait
  | creat
  | link
  | unlink
  | chdir
  | time
  | chmod
  | brk
  | stat
  | lseek
  | getpid
  | getuid
  | getgid
  | fstat
  | access
  | signal
  | ioctl
  | umask
  | sigaction
  deriving DecidableEq, Repr

/-- The calls that are answered. -/
inductive Call where
  | exit
  | fork
  | exec
  | ordinary (c : OrdinaryCall)
  deriving DecidableEq, Repr

def Call.ofNumber? (number : UInt16) : Option Call :=
  match number with
  | 1 => some .exit
  | 2 => some .fork
  | 3 => some (.ordinary .read)
  | 4 => some (.ordinary .write)
  | 5 => some (.ordinary .openFile)
  | 6 => some (.ordinary .close)
  | 7 => some (.ordinary .wait)
  | 8 => some (.ordinary .creat)
  | 9 => some (.ordinary .link)
  | 10 => some (.ordinary .unlink)
  | 12 => some (.ordinary .chdir)
  | 13 => some (.ordinary .time)
  | 15 => some (.ordinary .chmod)
  | 17 => some (.ordinary .brk)
  | 18 => some (.ordinary .stat)
  | 19 => some (.ordinary .lseek)
  | 20 => some (.ordinary .getpid)
  | 24 => some (.ordinary .getuid)
  | 28 => some (.ordinary .fstat)
  | 33 => some (.ordinary .access)
  | 47 => some (.ordinary .getgid)
  | 48 => some (.ordinary .signal)
  | 54 => some (.ordinary .ioctl)
  | 59 => some .exec
  | 60 => some (.ordinary .umask)
  | 71 => some (.ordinary .sigaction)
  | _ => none

/-- The calls that exist but are not answered. -/
def unansweredCalls : List (UInt16 × String) :=
  [(11, "waitpid"), (14, "mknod"), (16, "chown"), (21, "mount"), (22, "umount"), (23, "setuid"),
    (25, "stime"), (26, "ptrace"), (27, "alarm"), (29, "pause"), (30, "utime"), (36, "sync"),
    (37, "kill"), (38, "rename"), (39, "mkdir"), (40, "rmdir"), (41, "dup"), (42, "pipe"),
    (43, "times"), (46, "setgid"), (55, "fcntl"), (61, "chroot"), (62, "setsid"), (63, "getpgrp"),
    (64, "ksig"), (65, "unpause"), (67, "revive"), (68, "task_reply"), (72, "sigsuspend"),
    (73, "sigpending"), (74, "sigprocmask"), (75, "sigreturn"), (76, "reboot"), (77, "svrctl")]

/-- Handlers zero and one mean the default action and no action. -/
def disposition (handler : UInt16) : Disposition :=
  match handler with
  | 0 => .default
  | 1 => .ignore
  | address => .catch address

def conventions : Conventions Cpu where
  personality := .minix
  reply := .message
  signalCount := 12
  environment := ["PATH=/bin:/usr/bin"]
  load := load
  layOut arguments environment := StackLayout.build arguments (some environment)
  disposition := disposition

/-- The bit of an open call that asks for creation. The message then has a mode
and holds the path in another place. -/
def createBit : UInt16 := 0o100

/-- Store a status record of 30 bytes. Every field is cut to its width. -/
def storeStatus (address : UInt16) (st : FileStatus) (m : AddressSpace) : AddressSpace :=
  m |>.setWord address st.device.toUInt16
    |>.setWord (address + 2) st.inode.toUInt16
    |>.setWord (address + 4) st.mode.toUInt16
    |>.setWord (address + 6) st.links.toUInt16
    |>.setWord (address + 8) st.user.toUInt16
    |>.setWord (address + 10) st.group.toUInt16
    |>.setWord (address + 12) st.special.toUInt16
    |>.setLong (address + 14) st.size.toUInt32
    |>.setLong (address + 18) st.accessed.toUInt64.toUInt32
    |>.setLong (address + 22) st.modified.toUInt64.toUInt32
    |>.setLong (address + 26) st.changed.toUInt64.toUInt32

/-- The position that a seek with the given origin asks for. Only an offset from
the start is unsigned. -/
def seekPosition? (offset : UInt32) (origin : UInt16) : Option SeekPosition :=
  match origin with
  | 0 => some (.start offset.toNat)
  | 1 => some (.current offset.toInt32.toInt)
  | 2 => some (.fromEnd offset.toInt32.toInt)
  | _ => none

/-- Go on in memory after a call that succeeded, with `result` for the program. -/
def thenStore {α : Type} (store : α → AddressSpace → AddressSpace) (result : α → UInt16) :
    Reply Cpu α → Reply Cpu UInt16 :=
  Reply.andThen fun a s => (result a, s.mapMemory (store a))

/-- Make the action stored at an address that of a signal. A null pointer only asks
whether the signal could have one. -/
def changeAction (signal action : UInt16) (s : Session Cpu) : Except Errno (Session Cpu) :=
  let m := s.memory
  if action ≠ 0 then
    (s.setSignalAction conventions signal
      { handler := m.word action, mask := m.word (action + 2), flags := m.word (action + 4) }).map
      (·.2)
  else if (HostSignal.ofGuest? signal).isSome then .ok s
  else .error .invalidArgument

/-- Install a new action at a signal and store the old one. A null pointer skips
its half of the work. -/
def replaceAction (signal action oldAction : UInt16) (s : Session Cpu) : Reply Cpu UInt16 :=
  let old := s.process.signals.get signal
  let record (text : String) (s : Session Cpu) : Session Cpu :=
    let call := shownCall "sigaction"
      [shownWord signal, Numeral.hexAddress action, Numeral.hexAddress oldAction]
    s.trace .calls .debug .calls ("<" ++ call ++ " => " ++ text ++ ">")
  match changeAction signal action s with
  | .error e => (.error e, record ("Err(Errno(" ++ toString e.number ++ "))") s)
  | .ok t =>
    let stored := if oldAction = 0 then t else t.mapMemory fun m =>
      ((m.setWord oldAction old.handler).setWord (oldAction + 2) old.mask).setWord
        (oldAction + 4) old.flags
    (.ok 0, record "Ok(0)" stored)

/-- Answer an ordinary call from the message block at `block`. -/
def OrdinaryCall.perform (c : OrdinaryCall) (block : UInt16) (s : Session Cpu) :
    Reply Cpu UInt16 :=
  let argument (offset : UInt16) := s.memory.word (block + offset)
  let path (offset : UInt16) := s.memory.stringAt (argument offset)
  match c with
  | .read => s.read (argument 4) (argument 10) (argument 6)
  | .write => s.write (argument 4) (argument 10) (argument 6)
  | .openFile =>
    if argument 6 &&& createBit ≠ 0 then s.openFile (path 10) (argument 6) (argument 8)
    else s.openFile (path 8) (argument 6) 0
  | .close => s.close (argument 4)
  | .wait => thenStore (fun child m => m.setWord (block + 4) child.status) (·.pid) s.wait
  | .creat => s.create (path 8) (argument 6)
  | .link => s.link (path 10) (path 12)
  | .unlink => s.unlink (path 8)
  | .chdir => s.changeDirectory (path 8)
  | .time => thenStore (fun t m => m.setLong (block + 10) t) (fun _ => 0) s.time
  | .chmod => s.changeMode (path 8) (argument 6)
  | .brk => thenStore (fun _ m => m.setWord (block + 18) m.brk) id (s.setBreak (argument 10))
  | .stat =>
    let buffer := argument 12
    thenStore (fun st m => storeStatus buffer st m) (fun _ => 0) (s.status (path 10))
  | .lseek =>
    match seekPosition? (s.memory.long (block + 10)) (argument 6) with
    | none => (.error .invalidArgument, s)
    | some position =>
      thenStore (fun offset m => m.setLong (block + 10) (UInt32.ofNat offset)) (fun _ => 0)
        (s.seek (argument 4) position)
  | .getpid => s.processNumber
  | .getuid => s.userNumber
  | .getgid => s.groupNumber
  | .fstat =>
    let buffer := argument 10
    thenStore (fun st m => storeStatus buffer st m) (fun _ => 0)
      (s.descriptorStatus (argument 4))
  | .access => s.access (path 8) (argument 6)
  | .signal => s.setHandler conventions (argument 4) (argument 14)
  | .ioctl => s.deviceControl (argument 4) (argument 8) (argument 18)
  | .umask => s.setMask (argument 4)
  | .sigaction => replaceAction (argument 6) (argument 10) (argument 12) s

/-- Add `base` to at most `count` pointers from `address` on, up to a null pointer.
Gives the address of the first one left alone. -/
def relocate (base : UInt16) : (count : Nat) → (address : UInt16) → AddressSpace →
    AddressSpace × UInt16
  | 0, address, m => (m, address)
  | count + 1, address, m =>
    let pointer := m.word address
    if pointer = 0 then (m, address)
    else relocate base count (address + 2) (m.setWord address (base + pointer))

/-- Put an argument frame that was built for address zero at the top of memory:
its argument pointers and then its environment pointers become addresses. -/
def placeFrame (frame : List UInt8) (m : Machine Cpu) : Machine Cpu :=
  let sp : UInt16 := 0 - UInt16.ofNat frame.length
  let placed := m.memory.write sp frame
  let (arguments, terminator) := relocate sp (frame.length / 2) (sp + 2) placed
  let (memory, _) := relocate sp (frame.length / 2) (terminator + 2) arguments
  { cpu := { m.cpu.set .sp sp with entrySp := sp }, memory }

/-- Replace the program and keep the argument frame that the caller built. -/
def executeFrame (path : String) (frame size : UInt16) (s : Session Cpu) : Reply Cpu Unit :=
  let bytes := s.memory.read frame size.toNat
  let count := Word.ofBytes (bytes[0]?.getD 0) (bytes[1]?.getD 0)
  let logged := s.trace .calls .debug .calls
    ("<exec(" ++ shownPath path ++ ") argc=" ++ shownWord count ++ ">")
  Reply.andThen (fun _ s => ((), s.mapMachine (placeFrame bytes)))
    (logged.execute conventions path)

/-- What is left after a call. -/
inductive Completion where
  /-- Report a result in the message block. -/
  | reply (result : Except Errno UInt16) (s : Session Cpu)
  /-- The process is already as it shall be. -/
  | final (s : Session Cpu)
  | fault (fault : Fault) (s : Session Cpu)

/-- What a forked child finds: a zero result. -/
def prepareChild (block : UInt16) (m : Machine Cpu) : Machine Cpu :=
  ReplyConvention.message.report block (.ok 0) m

/-- Carry out a call. A successful exec leaves no message block to reply to. -/
def Call.perform (c : Call) (run : Runner Cpu) (block : UInt16) (s : Session Cpu) :
    Option Completion :=
  let argument (offset : UInt16) := s.memory.word (block + offset)
  match c with
  | .exit => some (.final (s.exit (argument 4).toInt16.toInt))
  | .fork => (s.fork conventions run (prepareChild block)).map fun (result, s) =>
    .reply result s
  | .exec =>
    match executeFrame (s.memory.stringAt (argument 10)) (argument 12) (argument 6) s with
    | (.ok (), s) => some (.final s)
    | (.error e, s) => some (.reply (.error e) s)
  | .ordinary c =>
    let (result, s) := c.perform block s
    some (.reply result s)

/-- Carry out the call whose number is in the message block. -/
def perform (run : Runner Cpu) (block : UInt16) (s : Session Cpu) : Option Completion :=
  let number := s.memory.word (block + 2)
  match Call.ofNumber? number with
  | some call => call.perform run block s
  | none => match unansweredCalls.lookup number with
    | some name => let (t, _) := s.notImplemented name; some (.fault .unimplementedCall t)
    | none => let (t, _) := s.unknownCall number; some (.fault .unknownCall t)

/-- Answer a trap. -/
def answer (run : Runner Cpu) (trap : UInt16) (s : Session Cpu) : Reaction Cpu :=
  if trap ≠ messageTrap then some (s, .error .unimplementedInstruction)
  else
    let block := s.cpu.get .bx
    (perform run block s).map fun
      | .reply result s => (s.mapMachine (ReplyConvention.message.report block result), .ok ())
      | .final s => (s, .ok ())
      | .fault fault s => (s, .error fault)

def system : System Cpu where
  toConventions := conventions
  answer := answer

end VintageUnix.Minix
