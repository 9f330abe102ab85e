import VintageUnix.Host.FileTree

/-! Filling a file tree, and listing what is in one. -/
namespace VintageUnix.FileTree

/-- The directory at the end of some components. The ones that are missing are made
with the given permissions. -/
def makeDirectories (permissions : UInt16) (t : FileTree) (id : NodeId) :
    List String → NodeId × FileTree
  | [] => (id, t)
  | name :: rest => match t.enter id name with
    | .ok next => t.makeDirectories permissions next rest
    | .error _ =>
      let (next, t) := t.add id name ⟨permissions, .directory id []⟩
      t.makeDirectories permissions next rest

/-- Add a file at the end of some components, below directories that are made where
they are missing. -/
def addFile (directoryPermissions : UInt16) (t : FileTree) (id : NodeId)
    (components : List String) (file : Inode) : FileTree :=
  match components.getLast? with
  | none => t
  | some name =>
    let (directory, t) := t.makeDirectories directoryPermissions id components.dropLast
    (t.add directory name file).2

/-- Everything below a directory, with paths that start with `start`. Directories
that the owner may not look into are left out, and so is what is nested deeper than
`depth`. -/
def contents (t : FileTree) : (depth : Nat) → (id : NodeId) → (start : String) →
    List (String × NodeId)
  | 0, _, _ => []
  | depth + 1, id, start =>
    if t.allows id .read && t.allows id .execute then
      let entries := ((t.entries? id).map (·.2)).getD []
      entries.flatMap fun (name, child) =>
        (start ++ name, child) :: t.contents depth child (start ++ name ++ "/")
    else []

/-- Everything below a directory. -/
def below (t : FileTree) (id : NodeId) : List (String × NodeId) :=
  t.contents t.inodes.size id ""

end VintageUnix.FileTree
