import VintageUnix.Host.Signals

/-! The signal actions that a process has asked for, by its own signal numbers. -/
namespace VintageUnix

/-- What a program stored for one signal. -/
structure SignalAction where
  handler : UInt16 := 0
  mask : UInt16 := 0
  flags : UInt16 := 0
  deriving DecidableEq, Repr

/-- One action for each signal number below the length of the list. -/
structure SignalTable where
  actions : List SignalAction
  deriving DecidableEq, Repr

namespace SignalTable

/-- The table in which every signal has the default action. -/
def ofCount (count : Nat) : SignalTable where
  actions := List.replicate count {}

/-- The action of a signal. Numbers outside the table have the default action. -/
def get (t : SignalTable) (signal : UInt16) : SignalAction :=
  t.actions[signal.toNat]?.getD {}

/-- Replace an action, and give the old one. There may be no such signal. -/
def set? (t : SignalTable) (signal : UInt16) (action : SignalAction) :
    Option (SignalAction × SignalTable) :=
  t.actions[signal.toNat]?.map fun old => (old, { actions := t.actions.set signal.toNat action })

/-- Forget the handlers, as a new program does. Ignored signals stay ignored. -/
def resetCaught (t : SignalTable) (disposition : UInt16 → Disposition) : SignalTable where
  actions := t.actions.map fun a => match disposition a.handler with
    | .catch _ => { a with handler := 0 }
    | _ => a

end SignalTable
end VintageUnix
