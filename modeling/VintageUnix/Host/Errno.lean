/-! Error numbers of the host. A call that fails hands its number on to the program. -/
namespace VintageUnix

/-- An error number. -/
structure Errno where
  number : Int
  deriving DecidableEq, Repr

namespace Errno

def notPermitted : Errno := ⟨1⟩
def notFound : Errno := ⟨2⟩
def inputOutput : Errno := ⟨5⟩
def badDescriptor : Errno := ⟨9⟩
def outOfMemory : Errno := ⟨12⟩
def accessDenied : Errno := ⟨13⟩
def alreadyExists : Errno := ⟨17⟩
def notDirectory : Errno := ⟨20⟩
def isDirectory : Errno := ⟨21⟩
def invalidArgument : Errno := ⟨22⟩
def illegalSeek : Errno := ⟨29⟩
def nameTooLong : Errno := ⟨36⟩

/-- The number as a register holds it. -/
def word (e : Errno) : UInt16 :=
  UInt16.ofInt e.number

/-- An error number in the log. -/
def message (e : Errno) : String :=
  "errno " ++ toString e.number

/-- What the host calls an error. -/
def description (e : Errno) : String :=
  match e.number with
  | 1 => "Operation not permitted"
  | 2 => "No such file or directory"
  | 5 => "Input/output error"
  | 9 => "Bad file descriptor"
  | 12 => "Cannot allocate memory"
  | 13 => "Permission denied"
  | 17 => "File exists"
  | 20 => "Not a directory"
  | 21 => "Is a directory"
  | 22 => "Invalid argument"
  | 29 => "Illegal seek"
  | 36 => "File name too long"
  | n => "Unknown error " ++ toString n

end Errno

/-- The kinds of failure that are found before the host is asked. -/
inductive FailureKind where
  | notFound
  | permissionDenied
  | alreadyExists
  | invalidInput
  | other
  deriving DecidableEq, Repr

/-- The number that a failure without one counts as. -/
def FailureKind.errno : FailureKind → Errno
  | .notFound => .notFound
  | .permissionDenied => .accessDenied
  | .alreadyExists => .alreadyExists
  | .invalidInput => .invalidArgument
  | .other => .inputOutput

/-- Why something could not be done on the host: an error number of its own, or
a failure that was found before. -/
inductive Failure where
  | numbered (e : Errno)
  | early (kind : FailureKind) (text : String)
  deriving DecidableEq, Repr

namespace Failure

def errno : Failure → Errno
  | numbered e => e
  | early kind _ => kind.errno

/-- The wording for a person. -/
def message : Failure → String
  | numbered e => e.description ++ " (os error " ++ toString e.number ++ ")"
  | early _ text => text

end Failure
end VintageUnix
