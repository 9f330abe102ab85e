import VintageUnix.CommandLine.Program
import VintageUnix.Host.TreeContents

/-! The command. Programs work on a copy of what is in the working directory and in the root
directory that was asked for; what they changed there is written back when the command ends. -/
namespace VintageUnix.CommandLine

/-- The permissions that files and directories are taken to have. -/
def filePermissions : UInt16 := 0o755

/-- The file tree with a copy of what is at a path. What cannot be read is left out. -/
partial def importPath (t : FileTree) (path : String) : IO FileTree := do
  let components := Path.components path
  match ← (IO.FS.readBinFile path).toBaseIO with
  | .ok content =>
    return t.addFile filePermissions FileTree.root components
      ⟨filePermissions, .file content.toList⟩
  | .error _ => match ← (IO.FS.realPath path >>= (·.readDir)).toBaseIO with
    | .error _ => return t
    | .ok entries =>
      let mut t := (t.makeDirectories filePermissions FileTree.root components).2
      for entry in entries do
        t ← importPath t (Path.join path entry.fileName)
      return t

/-- The paths of all files in a tree. -/
def filePaths (t : FileTree) : List (String × NodeId) :=
  (t.below FileTree.root).filterMap fun (path, id) =>
    if t.isDirectory id then none else some ("/" ++ path, id)

/-- The rights that three permission bits give. -/
def accessRight (permissions : UInt16) (shift : UInt16) : IO.AccessRight where
  read := (permissions >>> shift) &&& 4 != 0
  write := (permissions >>> shift) &&& 2 != 0
  execution := (permissions >>> shift) &&& 1 != 0

/-- Write back the differences between two trees. -/
def exportChanges (before after : FileTree) : IO Unit := do
  let old := filePaths before
  let new := filePaths after
  for (path, _) in old do
    if (new.lookup path).isNone then IO.FS.removeFile path
  for (path, id) in new do
    let content := after.content id
    let permissions := after.permissions id
    let known := old.lookup path
    if known.map before.content ≠ some content then
      IO.FS.writeBinFile path content.toByteArray
    if known.map before.permissions ≠ some permissions then
      IO.setAccessRights path {
        user := accessRight permissions 6
        group := accessRight permissions 3
        other := accessRight permissions 0 }

/-- All that a stream still has to give. -/
partial def readAll (s : IO.FS.Stream) (done : ByteArray) : IO ByteArray := do
  let block ← s.read 65536
  if block.isEmpty then return done else readAll s (done ++ block)

/-- The host that a request finds: the standard input unless it is a terminal, and
the files that it may be about. -/
def hostFor (request : Request) : IO Host := do
  match request with
  | .start o (binary :: _) =>
    let here := toString (← IO.currentDir)
    let stdin ← IO.getStdin
    let content ← if ← stdin.isTty then pure ByteArray.empty else readAll stdin ByteArray.empty
    let mut tree ← importPath .empty here
    if let some root := o.root then tree ← importPath tree (Path.join here root)
    let path := Path.join here (Path.onHost o.root binary)
    if (tree.resolve FileTree.root path).toOption.isNone then tree ← importPath tree path
    let directory := (tree.resolve FileTree.root here).toOption.getD FileTree.root
    return { tree, directory, input := { content := content.toList } }
  | _ => return {}

end VintageUnix.CommandLine

open VintageUnix CommandLine in
/-- Run the command with its arguments. -/
def main (arguments : List String) : IO UInt32 := do
  let request := Request.ofArguments arguments
  let host ← hostFor request
  match request.perform host with
  | none => return 1
  | some result =>
    (← IO.getStdout).write result.host.output.toByteArray
    (← IO.getStderr).write (request.errorOutput result).toByteArray
    exportChanges host.tree result.host.tree
    return result.status.toUInt32
