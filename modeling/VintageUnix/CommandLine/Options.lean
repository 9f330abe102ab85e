import VintageUnix.Host.Journal

/-! The arguments of the command. Options come first; the first word that is none of them names the
binary, and everything after it is left to the emulated program. -/
namespace VintageUnix.CommandLine

/-- The options that are either given or not. -/
inductive Flag where
  /-- Trace calls, instructions and registers. -/
  | traceRegisters
  /-- Trace calls and instructions. -/
  | traceInstructions
  | traceCalls
  /-- Print a listing instead of running the program. -/
  | list
  /-- Take the binary for one of the PDP-11. -/
  | pdp11
  deriving DecidableEq, Repr

/-- The letters of an option word that stand for something. -/
inductive Letter where
  | flag (f : Flag)
  /-- The root directory, with a value behind it. -/
  | root
  | help
  | version
  deriving DecidableEq, Repr

def Letter.ofChar? : Char → Option Letter
  | 'm' => some (.flag .traceRegisters)
  | 'v' => some (.flag .traceInstructions)
  | 's' => some (.flag .traceCalls)
  | 'd' => some (.flag .list)
  | 'p' => some (.flag .pdp11)
  | 'r' => some .root
  | 'h' => some .help
  | 'V' => some .version
  | _ => none

/-- What has been read of the options so far. -/
structure Options where
  root : Option String := none
  flags : List Flag := []
  deriving DecidableEq, Repr

/-- What the arguments ask for. -/
inductive Request where
  /-- Run or list a binary. The command is its name and its arguments. -/
  | start (o : Options) (command : List String)
  | help
  | version
  | invalid
  deriving DecidableEq, Repr

namespace Options

def has (o : Options) (f : Flag) : Bool :=
  o.flags.contains f

/-- The flags that say how much to trace. At most one of them may be given. -/
def traceFlags (o : Options) : List Flag :=
  o.flags.filter fun f => f = .traceRegisters || f = .traceInstructions || f = .traceCalls

def trace (o : Options) : Trace :=
  if o.has .traceRegisters then .registers
  else if o.has .traceInstructions then .instructions
  else if o.has .traceCalls then .calls
  else .off

/-- Set the root directory, which may be done once and not to the empty path. -/
def setRoot? (o : Options) (value : String) : Option Options :=
  if o.root.isSome || value.isEmpty then none else some { o with root := some value }

/-- Set a flag, which may be done once. -/
def setFlag? (o : Options) (f : Flag) : Option Options :=
  if o.has f then none else some { o with flags := f :: o.flags }

end Options

/-- The characters of a word that consists of a dash and option letters only. Any
other word is no option. -/
def optionLetters? (word : String) : Option (List Char) :=
  match word.toList with
  | '-' :: c :: rest =>
    if (c :: rest).all fun c => (Letter.ofChar? c).isSome then some (c :: rest) else none
  | _ => none

/-- How a word with option letters ends. -/
inductive WordResult where
  | next (o : Options)
  /-- The root directory is in the next word. -/
  | rootFollows (o : Options)
  | stop (r : Request)

/-- Read option letters. What stands behind the letter of the root directory is its
value. -/
def readLetters (o : Options) : List Char → WordResult
  | [] => .next o
  | c :: rest => match Letter.ofChar? c with
    | some (.flag f) => match o.setFlag? f with
      | some o => readLetters o rest
      | none => .stop .invalid
    | some .root =>
      if rest.isEmpty then .rootFollows o
      else match o.setRoot? (String.ofList rest) with
        | some o => .next o
        | none => .stop .invalid
    | some .help => .stop .help
    | some .version => .stop .version
    | none => .stop .invalid

/-- The long options, which take no value. -/
inductive LongOption where
  | help
  | version
  /-- One of the two with a value. -/
  | withValue
  deriving DecidableEq, Repr

def LongOption.ofWord? (word : String) : Option LongOption :=
  if word = "--help" then some .help
  else if word = "--version" then some .version
  else if "--help=".toList.isPrefixOf word.toList then some .withValue
  else if "--version=".toList.isPrefixOf word.toList then some .withValue
  else none

/-- The word that ends the options. -/
def optionsEnd : String := "--"

/-- Whether a word can be the value of the option before it. -/
def isValue (word : String) : Bool :=
  word ≠ optionsEnd && (LongOption.ofWord? word).isNone && (optionLetters? word).isNone

/-- All options have been read. -/
def finish (o : Options) (command : List String) : Request :=
  if 1 < o.traceFlags.length then .invalid else .start o command

/-- Read words up to the name of the binary. -/
def readWords (o : Options) : List String → Request
  | [] => finish o []
  | word :: rest =>
    if word = optionsEnd then finish o rest
    else match LongOption.ofWord? word with
      | some .help => .help
      | some .version => .version
      | some .withValue => .invalid
      | none => match optionLetters? word with
        | none => finish o (word :: rest)
        | some letters => match readLetters o letters with
          | .stop r => r
          | .next o => readWords o rest
          | .rootFollows o => match rest with
            | [] => .invalid
            | value :: rest =>
              if isValue value then
                match o.setRoot? value with
                | some o => readWords o rest
                | none => .invalid
              else .invalid

/-- What the arguments of the command ask for. -/
def Request.ofArguments (arguments : List String) : Request :=
  readWords {} arguments

end VintageUnix.CommandLine
