/-! Paths on the host. They are plain texts; their components are the parts between slashes. -/
namespace VintageUnix.Path

/-- The parts between slashes, empty ones included. -/
def split : List Char → List (List Char)
  | [] => [[]]
  | c :: rest =>
    if c = '/' then [] :: split rest
    else match split rest with
      | [] => [[c]]
      | first :: others => (c :: first) :: others

/-- The components of a path. Doubled slashes count once. -/
def components (path : String) : List String :=
  ((split path.toList).filter (· ≠ [])).map String.ofList

def isAbsolute (path : String) : Bool :=
  path.toList.head? = some '/'

/-- Whether the last component is followed by a slash. -/
def endsInSlash (path : String) : Bool :=
  path.toList.getLast? = some '/'

/-- Go on from a directory. An absolute path replaces it, and otherwise one slash
stands between the two. -/
def join (directory path : String) : String :=
  if isAbsolute path then path
  else if directory.isEmpty || endsInSlash directory then directory ++ path
  else directory ++ "/" ++ path

/-- Where the host finds a path of the program: what follows the slash of an
absolute path is looked up from the root directory, if there is one. -/
def onHost (root : Option String) (path : String) : String :=
  match root, path.toList with
  | some root, '/' :: rest => join root (String.ofList rest)
  | _, _ => path

end VintageUnix.Path
