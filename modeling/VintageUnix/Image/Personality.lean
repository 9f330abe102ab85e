import VintageUnix.Image.UnixV6

/-! The systems that a binary can be made for, and how to tell them apart by its first bytes. -/
namespace VintageUnix

/-- A system together with the processor it runs on. -/
inductive Personality where
  | minix
  | unixV6Pdp11
  | unixV6I8086
  deriving DecidableEq, Repr

namespace Personality

def name : Personality → String
  | .minix => "minix2/i8086"
  | .unixV6Pdp11 => "unixv6/pdp11"
  | .unixV6I8086 => "unixv6/i8086"

/-- The personality to run a binary under. What has no header of Unix V6 is
taken for Minix, unless the PDP-11 is asked for. -/
def detect (bytes : List UInt8) (forcePdp11 : Bool) : Personality :=
  let magic := if bytes.length < 2 then 0 else fileWord bytes 0
  if forcePdp11 || (UnixV6.Target.pdp11.format? magic).isSome then .unixV6Pdp11
  else if (UnixV6.Target.i8086.format? magic).isSome then .unixV6I8086
  else .minix

end Personality
end VintageUnix
