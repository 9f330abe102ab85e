/-! Signals of the host: what it does when one arrives, and which ones have arrived and wait to be
handed to the running program. -/
namespace VintageUnix

/-- What a program wants to happen when a signal arrives. -/
inductive Disposition where
  | default
  | ignore
  /-- Run the handler at this address. -/
  | catch (handler : UInt16)
  deriving DecidableEq, Repr

/-- What the host does when a signal arrives. -/
inductive HostAction where
  | default
  | ignore
  /-- Remember the signal until the program is ready for it. -/
  | catch
  deriving DecidableEq, Repr

def Disposition.action : Disposition → HostAction
  | .default => .default
  | .ignore => .ignore
  | .catch _ => .catch

/-- A signal of the host by number. -/
abbrev HostSignal := Fin 64

namespace HostSignal

def interrupt : HostSignal := 2
def illegalInstruction : HostSignal := 4
def arithmetic : HostSignal := 8
def segmentViolation : HostSignal := 11

/-- The host signal that has the meaning of a signal of the program. Both
systems number these four as the host does, and no other reaches a program. -/
def ofGuest? (signal : UInt16) : Option HostSignal :=
  match signal with
  | 2 => some interrupt
  | 4 => some illegalInstruction
  | 8 => some arithmetic
  | 11 => some segmentViolation
  | _ => none

end HostSignal

/-- The signal state of the host. There is one for all programs. -/
structure SignalState where
  actions : Vector HostAction 64 := Vector.replicate 64 .default
  pending : BitVec 64 := 0
  deriving Repr

namespace SignalState

def action (s : SignalState) (signal : HostSignal) : HostAction :=
  s.actions[signal]

def install (s : SignalState) (signal : HostSignal) (action : HostAction) : SignalState :=
  { s with actions := s.actions.set signal action }

def isPending (s : SignalState) (signal : HostSignal) : Bool :=
  s.pending.getLsbD signal

/-- Note that a signal has arrived. Numbers that are no signals are ignored. -/
def raise (s : SignalState) (number : Int) : SignalState :=
  if 0 ≤ number && number < 64 then
    { s with pending := s.pending ||| BitVec.twoPow 64 number.toNat }
  else s

def clear (s : SignalState) (signal : HostSignal) : SignalState :=
  { s with pending := s.pending &&& ~~~BitVec.twoPow 64 signal }

/-- Take the first pending signal among the given ones of the program. -/
def takeFirst (s : SignalState) : List UInt16 → Option (UInt16 × SignalState)
  | [] => none
  | guest :: rest => match HostSignal.ofGuest? guest with
    | some signal => if s.isPending signal then some (guest, s.clear signal) else s.takeFirst rest
    | none => s.takeFirst rest

end SignalState
end VintageUnix
