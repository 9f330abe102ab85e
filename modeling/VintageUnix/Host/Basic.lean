import VintageUnix.Host.Journal
import VintageUnix.Host.Signals
import VintageUnix.Host.Stream

/-! The host: everything outside a process that its system calls can see or change. There is one
host for a process and all processes forked from it. -/
namespace VintageUnix

/-- The input that the host was started with. What has been fetched ahead of the
programs is counted. -/
structure StandardInput where
  content : List UInt8 := []
  fetched : Nat := 0
  deriving Repr

/-- A child process that has finished, with its exit code. -/
structure FinishedChild where
  pid : UInt16
  code : Int
  deriving DecidableEq, Repr

/-- The status word of a finished child: the low byte of its exit code in the
high byte, and 14 in the low byte. -/
def FinishedChild.status (child : FinishedChild) : UInt16 :=
  (UInt16.ofInt child.code <<< 8) ||| 14

/-- A host without failures of its own: the clock can always be read, there is room for whatever
is written, and the standard streams stay open. Only a handle that is not meant for it refuses a
write. -/
structure Host where
  tree : FileTree := .empty
  /-- The directory that relative paths start from. -/
  directory : NodeId := FileTree.root
  /-- The streams opened so far. None is ever removed. -/
  streams : Array Stream := #[]
  signals : SignalState := {}
  /-- The children that nobody has waited for, the last one first. -/
  finished : List FinishedChild := []
  lastPid : UInt16 := 0
  clock : UInt32 := 0
  user : UInt16 := 0
  group : UInt16 := 0
  input : StandardInput := {}
  output : List UInt8 := []
  journal : Array JournalEntry := #[]

namespace Host

/-- Fetches of standard input are this large. -/
def inputBlock : Nat := 8192

/-- Standard output keeps at most this much of an unfinished line back. -/
def lineBuffer : Nat := 1024

def log (h : Host) (r : LogRecord) : Host :=
  { h with journal := h.journal.push (.record r) }

/-- The number of the next process. -/
def newPid (h : Host) : UInt16 × Host :=
  (h.lastPid + 1, { h with lastPid := h.lastPid + 1 })

def addFinished (h : Host) (child : FinishedChild) : Host :=
  { h with finished := child :: h.finished }

def install (h : Host) (signal : HostSignal) (action : HostAction) : Host :=
  { h with signals := h.signals.install signal action }

/-- Keep a new stream. -/
def addStream (h : Host) (s : Stream) : Handle × Host :=
  (.file h.streams.size, { h with streams := h.streams.push s })

def setStream (h : Host) (id : Nat) (s : Stream) : Host :=
  { h with streams := h.streams.setIfInBounds id s }

/-- Read from standard input. A block is fetched when nothing is left of the last
one, except for a read that is as large as a block. -/
def readInput (h : Host) (count : Nat) : List UInt8 × Host :=
  let fetched :=
    if h.input.fetched = 0 && count < inputBlock then min inputBlock h.input.content.length
    else h.input.fetched
  let available := if fetched = 0 then h.input.content.length else fetched
  let bytes := h.input.content.take (min count available)
  (bytes, { h with input :=
    { content := h.input.content.drop bytes.length, fetched := fetched - bytes.length } })

/-- How many bytes of `bytes` standard output takes at once: all of them, unless
much of an unfinished line follows the last finished one. -/
def acceptedByOutput (bytes : List UInt8) : Nat :=
  let tail := (bytes.reverse.takeWhile (· ≠ 0x0a)).length
  if tail < bytes.length && lineBuffer ≤ tail then bytes.length - tail else bytes.length

/-- Read at most `count` bytes. -/
def read (h : Host) (handle : Handle) (count : Nat) : Except StreamError (List UInt8 × Host) :=
  match handle with
  | .standard .input => .ok (h.readInput count)
  | .standard _ => .error .denied
  | .file id => match h.streams[id]? with
    | some (.memory f) => match f.read count with
      | .ok (bytes, f) => .ok (bytes, h.setStream id (.memory f))
      | .error e => .error e
    | some (.disk f) => match f.read h.tree count with
      | .ok (bytes, f) => .ok (bytes, h.setStream id (.disk f))
      | .error e => .error e
    | none => .error .denied

/-- Write bytes, and tell how many were taken. -/
def write (h : Host) (handle : Handle) (bytes : List UInt8) : Except StreamError (Nat × Host) :=
  match handle with
  | .standard .input => .error .denied
  | .standard .output =>
    let count := acceptedByOutput bytes
    .ok (count, { h with output := h.output ++ bytes.take count })
  | .standard .error =>
    .ok (bytes.length, { h with journal := h.journal.push (.output bytes) })
  | .file id => match h.streams[id]? with
    | some (.memory f) => match f.write bytes with
      | .ok f => .ok (bytes.length, h.setStream id (.memory f))
      | .error e => .error e
    | some (.disk f) => match f.write h.tree bytes with
      | .ok (f, tree) => .ok (bytes.length, { h with tree }.setStream id (.disk f))
      | .error e => .error e
    | none => .error .denied

/-- Move a stream, and tell where it stands then. -/
def seek (h : Host) (handle : Handle) (p : SeekPosition) : Except StreamError (Nat × Host) :=
  match handle with
  | .standard _ => .error (.failed .illegalSeek)
  | .file id => match h.streams[id]? with
    | some (.memory f) => match f.seek p with
      | .ok f => .ok (f.position, h.setStream id (.memory f))
      | .error e => .error e
    | some (.disk f) => match f.seek h.tree p with
      | .ok f => .ok (f.position, h.setStream id (.disk f))
      | .error e => .error e
    | none => .error .denied

/-- The status of a stream. The standard streams have none. -/
def status (h : Host) (handle : Handle) : Except StreamError FileStatus :=
  match handle with
  | .standard _ => .error .denied
  | .file id => match h.streams[id]? with
    | some (.memory f) => .ok f.status
    | some (.disk f) => .ok (h.tree.status f.node)
    | none => .error .denied

/-- Open a file of the tree. -/
def openFile (h : Host) (path : String) (o : OpenOptions) : Except Errno (Handle × Host) :=
  match h.tree.openFile h.directory path o with
  | .ok (node, tree) => .ok <| { h with tree }.addStream <| .disk
      { node, readable := o.readable, writable := o.writes, appending := o.appending }
  | .error e => .error e

/-- Replace the tree by the result of an operation on it. -/
def updateTree (h : Host) (result : Except Errno FileTree) : Except Errno Host :=
  result.map fun tree => { h with tree }

def link (h : Host) (source destination : String) : Except Errno Host :=
  h.updateTree (h.tree.link h.directory source destination)

def unlink (h : Host) (path : String) : Except Errno Host :=
  h.updateTree (h.tree.unlink h.directory path)

def setPermissions (h : Host) (path : String) (permissions : UInt16) : Except Errno Host :=
  h.updateTree (h.tree.setPermissions h.directory path permissions)

def changeDirectory (h : Host) (path : String) : Except Errno Host :=
  (h.tree.changeDirectory h.directory path).map fun directory => { h with directory }

def access (h : Host) (path : String) (mode : UInt16) : Except Errno Unit :=
  h.tree.access h.directory path mode

/-- The status of the file at a path. -/
def pathStatus (h : Host) (path : String) : Except Errno FileStatus :=
  (h.tree.resolve h.directory path).map h.tree.status

def readFile (h : Host) (path : String) : Except Failure (List UInt8) :=
  h.tree.readFile h.directory path

end Host
end VintageUnix
