import VintageUnix.Host.FileTree

/-! Streams: what a descriptor stands for. All descriptors that were duplicated from one another
share one stream with its position. -/
namespace VintageUnix

/-- The streams that the host itself was started with. -/
inductive StandardStream where
  | input
  | output
  | error
  deriving DecidableEq, Repr

/-- A reference to a stream. -/
inductive Handle where
  | standard (s : StandardStream)
  | file (id : Nat)
  deriving DecidableEq, Repr

/-- A position to move to. -/
inductive SeekPosition where
  | start (offset : Nat)
  | current (offset : Int)
  | fromEnd (offset : Int)
  deriving DecidableEq, Repr

/-- A file that is kept in memory. What may be done with it is up to whoever
made it. -/
structure MemoryFile where
  content : List UInt8
  position : Nat := 0
  readable : Bool := true
  writable : Bool := true
  seekable : Bool := true
  appending : Bool := false
  deriving Repr

/-- An open file or directory of the file tree. -/
structure OpenFile where
  node : NodeId
  position : Nat := 0
  readable : Bool
  writable : Bool
  appending : Bool
  deriving Repr

inductive Stream where
  | memory (f : MemoryFile)
  | disk (f : OpenFile)
  deriving Repr

/-- Why a stream refuses: the handle is not meant for it, or the host said no. -/
inductive StreamError where
  | denied
  | failed (e : Errno)
  deriving DecidableEq, Repr

/-- The number that a program sees. -/
def StreamError.errno : StreamError → Errno
  | denied => .badDescriptor
  | failed e => e

namespace SeekPosition

/-- The position in the log. -/
def render : SeekPosition → String
  | start n => "Start(" ++ toString n ++ ")"
  | current d => "Current(" ++ toString d ++ ")"
  | fromEnd d => "End(" ++ toString d ++ ")"

/-- The absolute position that is meant, if it lies below `limit`. -/
def target? (p : SeekPosition) (position size limit : Nat) : Option Nat :=
  let absolute : Int := match p with
    | start n => n
    | current d => position + d
    | fromEnd d => size + d
  if 0 ≤ absolute && absolute < limit then some absolute.toNat else none

end SeekPosition

/-- At most `count` bytes of a content from a position on. -/
def sliceAt (content : List UInt8) (position count : Nat) : List UInt8 :=
  (content.drop position).take count

/-- A content with `bytes` put at a position. A gap before them is filled with
zeros. -/
def overwriteAt (content : List UInt8) (position : Nat) (bytes : List UInt8) : List UInt8 :=
  content.take position ++ List.replicate (position - content.length) 0 ++ bytes ++
    content.drop (position + bytes.length)

namespace MemoryFile

/-- The positions that a memory file can stand at lie below this. -/
def positionLimit : Nat := 0x10000000000000000

def read (f : MemoryFile) (count : Nat) : Except StreamError (List UInt8 × MemoryFile) :=
  if f.readable then
    let bytes := sliceAt f.content f.position count
    .ok (bytes, { f with position := f.position + bytes.length })
  else .error .denied

/-- Write at the position, or at the end of an appending file. -/
def write (f : MemoryFile) (bytes : List UInt8) : Except StreamError MemoryFile :=
  if f.writable then
    let position := if f.appending then f.content.length else f.position
    .ok { f with
      content := overwriteAt f.content position bytes
      position := position + bytes.length }
  else .error .denied

def seek (f : MemoryFile) (p : SeekPosition) : Except StreamError MemoryFile :=
  if f.seekable then
    match p.target? f.position f.content.length positionLimit with
    | some position => .ok { f with position }
    | none => .error (.failed .invalidArgument)
  else .error (.failed .illegalSeek)

def status (f : MemoryFile) : FileStatus where
  mode := 0o100644
  links := 1
  size := UInt64.ofNat f.content.length

end MemoryFile

namespace OpenFile

/-- The positions that a file of the tree can stand at lie below this. -/
def positionLimit : Nat := 0x8000000000000000

def read (f : OpenFile) (t : FileTree) (count : Nat) :
    Except StreamError (List UInt8 × OpenFile) :=
  if !f.readable then .error (.failed .badDescriptor)
  else if t.isDirectory f.node then .error (.failed .isDirectory)
  else
    let bytes := sliceAt (t.content f.node) f.position count
    .ok (bytes, { f with position := f.position + bytes.length })

/-- Write at the position, or at the end of an appending file. Writing nothing
has no effect at all. -/
def write (f : OpenFile) (t : FileTree) (bytes : List UInt8) :
    Except StreamError (OpenFile × FileTree) :=
  if !f.writable then .error (.failed .badDescriptor)
  else if bytes.isEmpty then .ok (f, t)
  else
    let content := t.content f.node
    let position := if f.appending then content.length else f.position
    .ok ({ f with position := position + bytes.length },
      t.setContent f.node (overwriteAt content position bytes))

def seek (f : OpenFile) (t : FileTree) (p : SeekPosition) : Except StreamError OpenFile :=
  match p.target? f.position (t.status f.node).size.toNat positionLimit with
  | some position => .ok { f with position }
  | none => .error (.failed .invalidArgument)

end OpenFile
end VintageUnix
