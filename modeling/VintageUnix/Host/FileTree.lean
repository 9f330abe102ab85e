import VintageUnix.Host.Errno
import VintageUnix.Host.Path

/-! The file tree of the host, as an ordinary user sees it who owns everything in it: of the
permissions of a file or directory, those of its owner decide what may be done. -/
namespace VintageUnix

/-- The place of a file or directory in the tree. -/
abbrev NodeId := Nat

/-- A file with its content, or a directory with its parent and its entries. -/
inductive Node where
  | file (content : List UInt8)
  | directory (parent : NodeId) (entries : List (String × NodeId))
  deriving Repr

/-- A node with its twelve permission bits. -/
structure Inode where
  permissions : UInt16
  node : Node
  deriving Repr

/-- All nodes. The first one is the root directory. Nodes are never removed, so
a file stays readable through a stream after its last name is gone. -/
structure FileTree where
  inodes : Array Inode
  deriving Repr

/-- How a file is to be opened. -/
structure OpenOptions where
  readable : Bool := false
  writable : Bool := false
  appending : Bool := false
  truncate : Bool := false
  create : Bool := false
  /-- Fail if the file is there already. -/
  exclusive : Bool := false
  permissions : UInt16 := 0

/-- The status of a file, in the widths of the host. -/
structure FileStatus where
  device : UInt64 := 0
  inode : UInt64 := 0
  mode : UInt32 := 0
  links : UInt64 := 0
  user : UInt32 := 0
  group : UInt32 := 0
  special : UInt64 := 0
  size : UInt64 := 0
  accessed : Int64 := 0
  modified : Int64 := 0
  changed : Int64 := 0

namespace OpenOptions

/-- Whether the options make sense together: something must be allowed, only a
writer may create or truncate, and an appending one may not truncate. -/
def isValid (o : OpenOptions) : Bool :=
  if o.appending then !o.truncate || o.exclusive
  else if o.writable then true
  else o.readable && !o.truncate && !o.create && !o.exclusive

/-- Whether the file is written to. -/
def writes (o : OpenOptions) : Bool :=
  o.writable || o.appending

/-- Whether a missing file is created. -/
def creates (o : OpenOptions) : Bool :=
  o.create || o.exclusive

end OpenOptions

namespace FileTree

/-- The longest path that the host takes, and one more. -/
def pathLimit : Nat := 4096

/-- The longest name in a directory. -/
def nameLimit : Nat := 255

def root : NodeId := 0

/-- A tree with an empty root directory, to which nothing may be added. -/
def empty : FileTree where
  inodes := #[⟨0o555, .directory root []⟩]

instance : Inhabited FileTree := ⟨empty⟩

def entries? (t : FileTree) (id : NodeId) : Option (NodeId × List (String × NodeId)) :=
  match t.inodes[id]? with
  | some ⟨_, .directory parent entries⟩ => some (parent, entries)
  | _ => none

def isDirectory (t : FileTree) (id : NodeId) : Bool :=
  (t.entries? id).isSome

/-- The content of a file. Directories have none. -/
def content (t : FileTree) (id : NodeId) : List UInt8 :=
  match t.inodes[id]? with
  | some ⟨_, .file content⟩ => content
  | _ => []

def permissions (t : FileTree) (id : NodeId) : UInt16 :=
  (t.inodes[id]?.map Inode.permissions).getD 0

/-- What can be asked of a file or directory. -/
inductive Right where
  | read
  | write
  /-- Execute a file, or look for names in a directory. -/
  | execute
  deriving DecidableEq, Repr

/-- The bit of a right among the permissions of an owner. -/
def Right.bit : Right → UInt16
  | .read => 0o400
  | .write => 0o200
  | .execute => 0o100

/-- Whether the owner has a right. -/
def allows (t : FileTree) (id : NodeId) (right : Right) : Bool :=
  t.permissions id &&& right.bit ≠ 0

/-- Fail unless the owner has a right. -/
def demand (t : FileTree) (id : NodeId) (right : Right) : Except Errno Unit :=
  if t.allows id right then .ok () else .error .accessDenied

/-- The permissions of a file after an ordinary user has written to it: it does not
run as its owner any more, nor as its group if the group may execute it. -/
def withoutPrivileges (permissions : UInt16) : UInt16 :=
  let p := permissions &&& ~~~0o4000
  if p &&& 0o10 = 0 then p else p &&& ~~~0o2000

/-- Change one node. -/
def modify (t : FileTree) (id : NodeId) (f : Inode → Inode) : FileTree where
  inodes := t.inodes.modify id f

/-- Write to a file. -/
def setContent (t : FileTree) (id : NodeId) (content : List UInt8) : FileTree :=
  t.modify id fun i =>
    { permissions := withoutPrivileges i.permissions, node := .file content }

/-- Replace the entries of a directory. -/
def setEntries (t : FileTree) (id : NodeId) (f : List (String × NodeId) → List (String × NodeId)) :
    FileTree :=
  t.modify id fun i => match i.node with
    | .directory parent entries => { i with node := .directory parent (f entries) }
    | .file _ => i

/-- Add a name to a directory. -/
def addEntry (t : FileTree) (directory : NodeId) (name : String) (id : NodeId) : FileTree :=
  t.setEntries directory ((name, id) :: ·)

/-- Add a node under a new name. -/
def add (t : FileTree) (directory : NodeId) (name : String) (i : Inode) : NodeId × FileTree :=
  let id := t.inodes.size
  (id, ({ inodes := t.inodes.push i } : FileTree).addEntry directory name id)

/-- Fail unless names can be looked for in a node. -/
def checkSearch (t : FileTree) (id : NodeId) : Except Errno Unit :=
  if t.isDirectory id then t.demand id .execute else .error .notDirectory

/-- Look for a name in a directory. -/
def find (t : FileTree) (directory : NodeId) (name : String) : Except Errno (Option NodeId) :=
  match t.entries? directory with
  | none => .error .notDirectory
  | some (_, entries) =>
    if nameLimit < name.utf8ByteSize then .error .nameTooLong
    else .ok ((entries.find? (·.1 = name)).map (·.2))

/-- The directory that a directory is in. -/
def above (t : FileTree) (id : NodeId) : NodeId :=
  ((t.entries? id).map (·.1)).getD root

/-- One step of a path. -/
def enter (t : FileTree) (id : NodeId) (name : String) : Except Errno NodeId := do
  t.checkSearch id
  if name = "." then return id
  if name = ".." then return t.above id
  match ← t.find id name with
  | some next => return next
  | none => throw .notFound

/-- Follow components from a node on. -/
def walk (t : FileTree) (start : NodeId) : List String → Except Errno NodeId
  | [] => .ok start
  | name :: rest => match t.enter start name with
    | .ok next => t.walk next rest
    | .error e => .error e

/-- The node at which a path starts, unless its text is out of bounds. -/
def start (directory : NodeId) (path : String) : Except Errno NodeId :=
  if path.isEmpty then .error .notFound
  else if pathLimit ≤ path.utf8ByteSize then .error .nameTooLong
  else .ok (if Path.isAbsolute path then root else directory)

/-- The node that a path names. A path that ends in a slash names a directory. -/
def resolve (t : FileTree) (directory : NodeId) (path : String) : Except Errno NodeId := do
  let first ← start directory path
  let id ← t.walk first (Path.components path)
  if Path.endsInSlash path && !t.isDirectory id then throw .notDirectory
  return id

/-- The directory that the last component of a path is looked up in, and that
component if it is a proper name. -/
def parent (t : FileTree) (directory : NodeId) (path : String) :
    Except Errno (NodeId × Option String) := do
  let first ← start directory path
  let components := Path.components path
  let id ← t.walk first components.dropLast
  match components.getLast? with
  | none => return (id, none)
  | some name =>
    t.checkSearch id
    return (id, if name = "." || name = ".." then none else some name)

/-- Open a node that is there already. Directories can only be read. -/
def openNode (t : FileTree) (id : NodeId) (o : OpenOptions) : Except Errno FileTree := do
  if o.writes && t.isDirectory id then throw .isDirectory
  if o.readable then t.demand id .read
  if o.writes then t.demand id .write
  return if o.truncate then t.setContent id [] else t

/-- Open a file, creating or emptying it as the options say. What may be done with
a file does not matter to the one who creates it. -/
def openFile (t : FileTree) (directory : NodeId) (path : String) (o : OpenOptions) :
    Except Errno (NodeId × FileTree) := do
  if !o.isValid then throw .invalidArgument
  if o.creates then
    match ← t.parent directory path with
    | (_, none) => throw (if o.exclusive then .alreadyExists else .isDirectory)
    | (parent, some name) =>
      if Path.endsInSlash path then throw .isDirectory
      match ← t.find parent name with
      | none =>
        t.demand parent .write
        return t.add parent name ⟨o.permissions, .file []⟩
      | some id =>
        if o.exclusive then throw .alreadyExists
        if t.isDirectory id then throw .isDirectory
        return (id, ← t.openNode id o)
  else
    let id ← t.resolve directory path
    return (id, ← t.openNode id o)

/-- Give a file one more name. -/
def link (t : FileTree) (directory : NodeId) (source destination : String) :
    Except Errno FileTree := do
  let id ← t.resolve directory source
  match ← t.parent directory destination with
  | (_, none) => throw .alreadyExists
  | (parent, some name) =>
    if (← t.find parent name).isSome then throw .alreadyExists
    if Path.endsInSlash destination then throw .notFound
    t.demand parent .write
    if t.isDirectory id then throw .notPermitted
    return t.addEntry parent name id

/-- Remove a name of a file. -/
def unlink (t : FileTree) (directory : NodeId) (path : String) : Except Errno FileTree := do
  match ← t.parent directory path with
  | (_, none) => throw .isDirectory
  | (parent, some name) =>
    match ← t.find parent name with
    | none => throw .notFound
    | some id =>
      if Path.endsInSlash path then
        throw (if t.isDirectory id then .isDirectory else .notDirectory)
      t.demand parent .write
      if t.isDirectory id then throw .isDirectory
      return t.setEntries parent fun entries => entries.filter (·.1 ≠ name)

/-- Replace the permissions of a file or directory. -/
def setPermissions (t : FileTree) (directory : NodeId) (path : String) (permissions : UInt16) :
    Except Errno FileTree := do
  let id ← t.resolve directory path
  return t.modify id fun i => { i with permissions := permissions &&& 0o7777 }

/-- Find a directory to work in. -/
def changeDirectory (t : FileTree) (directory : NodeId) (path : String) :
    Except Errno NodeId := do
  let id ← t.resolve directory path
  t.checkSearch id
  return id

/-- Ask for access: the bits of the mode are those of the three rights. -/
def access (t : FileTree) (directory : NodeId) (path : String) (mode : UInt16) :
    Except Errno Unit := do
  if mode &&& ~~~7 ≠ 0 then throw .invalidArgument
  let id ← t.resolve directory path
  if t.permissions id &&& (mode <<< 6) ≠ mode <<< 6 then throw .accessDenied

/-- How many names lead to a file, or how many directories to a directory. -/
def links (t : FileTree) (id : NodeId) : Nat :=
  match t.entries? id with
  | some (_, entries) => 2 + entries.countP fun entry => t.isDirectory entry.2
  | none => (t.inodes.toList.flatMap fun i => match i.node with
      | .directory _ entries => entries
      | .file _ => []).countP (·.2 = id)

/-- The size that the host reports for a directory. -/
def directorySize : UInt64 := 4096

/-- The status of a node. The tree keeps no owners and no times. -/
def status (t : FileTree) (id : NodeId) : FileStatus :=
  if t.isDirectory id then
    { mode := 0o040000 ||| (t.permissions id).toUInt32, inode := UInt64.ofNat id,
      links := UInt64.ofNat (t.links id), size := directorySize }
  else
    { mode := 0o100000 ||| (t.permissions id).toUInt32, inode := UInt64.ofNat id,
      links := UInt64.ofNat (t.links id), size := UInt64.ofNat (t.content id).length }

/-- The whole content of the file at a path. -/
def readFile (t : FileTree) (directory : NodeId) (path : String) :
    Except Failure (List UInt8) :=
  if path.toList.any (· = '\x00') then
    .error (.early .invalidInput "file name contained an unexpected NUL byte")
  else match t.openFile directory path { readable := true } with
    | .error e => .error (.numbered e)
    | .ok (id, _) =>
      if t.isDirectory id then .error (.numbered .isDirectory) else .ok (t.content id)

end FileTree
end VintageUnix
