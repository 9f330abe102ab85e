import Std.Data.HashMap
import VintageUnix.Machine.Processor

/-! Decoded instructions kept by address. Only text that has a segment of its own is cached,
because nothing can write to it after loading. -/
namespace VintageUnix

structure DecodeCache (Instruction : Type) where
  enabled : Bool
  entries : Std.HashMap UInt16 Instruction

namespace DecodeCache

variable {Instruction : Type}

/-- The cache without entries. -/
def empty (enabled : Bool) : DecodeCache Instruction where
  enabled
  entries := ∅

/-- The instruction at an address, decoded only if it is not kept already. -/
def fetch (c : DecodeCache Instruction) (address : UInt16) (decode : Unit → Instruction) :
    Instruction × DecodeCache Instruction :=
  if c.enabled then
    match c.entries[address]? with
    | some i => (i, c)
    | none =>
      let i := decode ()
      (i, { c with entries := c.entries.insert address i })
  else (decode (), c)

end DecodeCache
end VintageUnix
