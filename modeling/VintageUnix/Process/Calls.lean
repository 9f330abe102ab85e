import VintageUnix.Process.Basic
import VintageUnix.Text.Quoted

/-! The system calls that both systems share, on arguments that have already been decoded. A call
either succeeds with a value and a changed session, or fails with an error number and leaves the
session as it was, apart from the log. -/
namespace VintageUnix

variable {Cpu : Type} [Processor Cpu]

/-- What a call came to, and the session after it. -/
abbrev Reply (Cpu : Type) [Processor Cpu] (α : Type) := Except Errno α × Session Cpu

/-- A number in the argument list of a log record. -/
def shownWord (w : UInt16) : String :=
  toString w.toNat

/-- A path in the argument list of a log record. Nothing in it is escaped. -/
def shownPath (path : String) : String :=
  "\"" ++ path ++ "\""

/-- The name and the arguments of a call as the log shows them. -/
def shownCall (name : String) (arguments : List String) : String :=
  name ++ "(" ++ ", ".intercalate arguments ++ ")"

namespace Session

/-- Finish a call: keep the changed session if it succeeded and the old one if it
failed, and log the call with its result. -/
def conclude {α : Type} (s : Session Cpu) (call : String) (shown : α → String)
    (result : Except Errno (α × Session Cpu)) : Reply Cpu α :=
  let record (text : String) (s : Session Cpu) : Session Cpu :=
    s.trace .calls .debug .calls ("<" ++ call ++ " => " ++ text ++ ">")
  match result with
  | .ok (value, t) => (.ok value, record (shown value) t)
  | .error e => (.error e, record e.message s)

/-- A call that has no result but success. -/
def succeed (result : Except Errno (Session Cpu)) : Except Errno (UInt16 × Session Cpu) :=
  result.map fun s => (0, s)

/-- The session with another host. -/
def withHost (s : Session Cpu) (h : Host) : Session Cpu :=
  { s with host := h }

/-- The session with another table of descriptors. -/
def withDescriptors (s : Session Cpu) (d : Descriptors) : Session Cpu :=
  s.mapProcess fun p => { p with descriptors := d }

/-- How much of a buffer lies below the top of memory. -/
def clampLength (buffer length : UInt16) : Nat :=
  min length.toNat (segmentSize - buffer.toNat)

/-- End the process. -/
def exit (code : Int) (s : Session Cpu) : Session Cpu :=
  (s.trace .calls .debug .calls ("<exit(" ++ toString code ++ ")>")).setState (.terminated code)

/-- Read from a descriptor into memory. -/
def read (descriptor buffer length : UInt16) (s : Session Cpu) : Reply Cpu UInt16 :=
  let count := clampLength buffer length
  s.conclude
    (shownCall "read" [shownWord descriptor, Numeral.hexAddress buffer, toString count])
    shownWord do
    let handle ← s.process.descriptors.get descriptor
    let (bytes, host) ← (s.host.read handle count).mapError StreamError.errno
    return (UInt16.ofNat bytes.length, (s.withHost host).mapMemory (·.write buffer bytes))

/-- Write from memory to a descriptor. -/
def write (descriptor buffer length : UInt16) (s : Session Cpu) : Reply Cpu UInt16 :=
  let count := clampLength buffer length
  s.conclude
    (shownCall "write" [shownWord descriptor, Numeral.hexAddress buffer, toString count])
    shownWord do
    let handle ← s.process.descriptors.get descriptor
    let (written, host) ←
      (s.host.write handle (s.memory.read buffer count)).mapError StreamError.errno
    return (UInt16.ofNat written, s.withHost host)

/-- Open a file in the lowest free descriptor. -/
def openWith (path : String) (o : OpenOptions) (s : Session Cpu) :
    Except Errno (UInt16 × Session Cpu) := do
  let (handle, host) ← s.host.openFile (s.process.hostPath path) o
  let (descriptor, descriptors) := s.process.descriptors.insert handle
  return (descriptor, (s.withHost host).withDescriptors descriptors)

/-- The permissions of a file that the process creates. -/
def creationMode (s : Session Cpu) (mode : UInt16) : UInt16 :=
  mode &&& ~~~s.process.umask &&& 0o7777

/-- The options that the bits of an open call ask for. The two low bits give the
access; with both of them set there is none. -/
def openOptions (s : Session Cpu) (flags mode : UInt16) : OpenOptions :=
  let access := flags &&& 3
  { readable := access = 0 || access = 2
    writable := access = 1 || access = 2
    appending := flags &&& 0o2000 ≠ 0
    truncate := flags &&& 0o1000 ≠ 0
    create := flags &&& 0o100 ≠ 0
    exclusive := flags &&& 0o100 ≠ 0 && flags &&& 0o200 ≠ 0
    permissions := s.creationMode mode }

/-- Open a file. The mode counts if the call creates it. -/
def openFile (path : String) (flags mode : UInt16) (s : Session Cpu) : Reply Cpu UInt16 :=
  s.conclude
    (shownCall "open" [shownPath path, shownWord flags, Numeral.octalMode mode]) shownWord
    (s.openWith path (s.openOptions flags mode))

/-- Create or empty a file and open it for writing. -/
def create (path : String) (mode : UInt16) (s : Session Cpu) : Reply Cpu UInt16 :=
  s.conclude (shownCall "creat" [shownPath path, Numeral.octalMode mode]) shownWord <|
    s.openWith path
      { writable := true, create := true, truncate := true, permissions := s.creationMode mode }

def close (descriptor : UInt16) (s : Session Cpu) : Reply Cpu UInt16 :=
  s.conclude (shownCall "close" [shownWord descriptor]) shownWord <|
    succeed ((s.process.descriptors.close descriptor).map s.withDescriptors)

def duplicate (descriptor : UInt16) (s : Session Cpu) : Reply Cpu UInt16 :=
  s.conclude (shownCall "dup" [shownWord descriptor]) shownWord <|
    (s.process.descriptors.duplicate descriptor).map fun (copy, d) => (copy, s.withDescriptors d)

def link (source destination : String) (s : Session Cpu) : Reply Cpu UInt16 :=
  s.conclude (shownCall "link" [shownPath source, shownPath destination]) shownWord <|
    succeed ((s.host.link (s.process.hostPath source) (s.process.hostPath destination)).map
      s.withHost)

def unlink (path : String) (s : Session Cpu) : Reply Cpu UInt16 :=
  s.conclude (shownCall "unlink" [shownPath path]) shownWord <|
    succeed ((s.host.unlink (s.process.hostPath path)).map s.withHost)

def changeDirectory (path : String) (s : Session Cpu) : Reply Cpu UInt16 :=
  s.conclude (shownCall "chdir" [shownPath path]) shownWord <|
    succeed ((s.host.changeDirectory (s.process.hostPath path)).map s.withHost)

def changeMode (path : String) (mode : UInt16) (s : Session Cpu) : Reply Cpu UInt16 :=
  s.conclude (shownCall "chmod" [shownPath path, Numeral.octalMode mode]) shownWord <|
    succeed ((s.host.setPermissions (s.process.hostPath path) mode).map s.withHost)

def access (path : String) (mode : UInt16) (s : Session Cpu) : Reply Cpu UInt16 :=
  s.conclude (shownCall "access" [shownPath path, Numeral.octalMode mode]) shownWord <|
    succeed ((s.host.access (s.process.hostPath path) mode).map fun _ => s)

/-- The seconds since the epoch. -/
def time (s : Session Cpu) : Reply Cpu UInt32 :=
  s.conclude (shownCall "time" []) (fun t => toString t.toNat) (.ok (s.host.clock, s))

/-- Where the break may not reach: one kilobyte below the stack pointer, rounded
down, which is negative for a small stack pointer. -/
def breakLimit (s : Session Cpu) : Int :=
  ((StackPointer.sp s.cpu).toNat - 0x400 : Int) / 0x400 * 0x400

/-- Move the break, which may not go below the size of the initialized data. -/
def setBreak (address : UInt16) (s : Session Cpu) : Reply Cpu UInt16 :=
  s.conclude (shownCall "brk" [Numeral.hexAddress address]) shownWord <|
    if address < s.memory.dataSize || s.breakLimit ≤ address.toNat then .error .outOfMemory
    else .ok (0, s.mapMemory fun m => { m with brk := address })

/-- The status of the file at a path. -/
def status (path : String) (s : Session Cpu) : Reply Cpu FileStatus :=
  s.conclude (shownCall "stat" [shownPath path]) (fun _ => "0") <|
    (s.host.pathStatus (s.process.hostPath path)).map fun st => (st, s)

/-- The status of an open file. The standard streams have none. -/
def descriptorStatus (descriptor : UInt16) (s : Session Cpu) : Reply Cpu FileStatus :=
  s.conclude (shownCall "fstat" [shownWord descriptor]) (fun _ => "0") do
    let handle ← s.process.descriptors.get descriptor
    let st ← (s.host.status handle).mapError StreamError.errno
    return (st, s)

/-- Move a descriptor, and tell where it stands then. -/
def seek (descriptor : UInt16) (position : SeekPosition) (s : Session Cpu) : Reply Cpu Nat :=
  s.conclude (shownCall "lseek" [shownWord descriptor, position.render]) toString do
    let handle ← s.process.descriptors.get descriptor
    let (offset, host) ← (s.host.seek handle position).mapError StreamError.errno
    return (offset, s.withHost host)

def processNumber (s : Session Cpu) : Reply Cpu UInt16 :=
  s.conclude (shownCall "getpid" []) shownWord (.ok (s.process.pid, s))

def userNumber (s : Session Cpu) : Reply Cpu UInt16 :=
  s.conclude (shownCall "getuid" []) shownWord (.ok (s.host.user, s))

def groupNumber (s : Session Cpu) : Reply Cpu UInt16 :=
  s.conclude (shownCall "getgid" []) shownWord (.ok (s.host.group, s))

/-- Control of a device, of which there is none. -/
def deviceControl (descriptor request data : UInt16) (s : Session Cpu) : Reply Cpu UInt16 :=
  s.conclude
    (shownCall "ioctl"
      [shownWord descriptor, Numeral.hexAddress request, Numeral.hexAddress data])
    shownWord (.error .invalidArgument)

/-- Set the mask of permissions that created files do not get, and give the old
one. -/
def setMask (mask : UInt16) (s : Session Cpu) : Reply Cpu UInt16 :=
  s.conclude (shownCall "umask" [Numeral.octalMode mask]) shownWord <|
    .ok (s.process.umask, s.mapProcess fun p => { p with umask := mask &&& 0o777 })

/-- Take the child that finished last among those nobody has waited for. A child has
finished when its fork returns, so the call never has to wait. -/
def wait (s : Session Cpu) : Reply Cpu FinishedChild :=
  s.conclude (shownCall "wait" []) (fun child => Numeral.hexAddress child.status) <|
    match s.host.finished with
    | child :: rest => .ok (child, s.mapHost fun h => { h with finished := rest })
    | [] => .error .invalidArgument

end Session
end VintageUnix
