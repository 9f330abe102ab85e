import VintageUnix.System.Engine
import VintageUnix.System.Minix
import VintageUnix.System.UnixV6

/-! The processor and the system that belong to a personality. -/
namespace VintageUnix.Personality

/-- The processor that programs of a personality run on. -/
def Cpu : Personality → Type
  | .minix => I8086.Cpu
  | .unixV6Pdp11 => Pdp11.Cpu
  | .unixV6I8086 => I8086.Cpu

instance processor : (p : Personality) → Processor p.Cpu
  | .minix => inferInstanceAs (Processor I8086.Cpu)
  | .unixV6Pdp11 => inferInstanceAs (Processor Pdp11.Cpu)
  | .unixV6I8086 => inferInstanceAs (Processor I8086.Cpu)

/-- The system of a personality. -/
def system : (p : Personality) → System p.Cpu
  | .minix => Minix.system
  | .unixV6Pdp11 => (UnixV6.system : System Pdp11.Cpu)
  | .unixV6I8086 => (UnixV6.system : System I8086.Cpu)

end VintageUnix.Personality
