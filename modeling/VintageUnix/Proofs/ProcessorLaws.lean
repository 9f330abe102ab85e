import VintageUnix.Proofs.I8086Stores
import VintageUnix.Proofs.Pdp11Stores
import VintageUnix.System.Selection

/-! What every processor promises to a system that runs on it. -/
namespace VintageUnix

open AddressSpace (Stores)

/-- A processor whose instructions leave the text alone, and whose instruction
pointer is not where a call leaves its result. -/
class LawfulProcessor (Cpu : Type) [Processor Cpu] : Prop where
  stores_execute (i : Processor.Instruction Cpu) (m : Machine Cpu) :
    Stores m.memory (Processor.execute i m).1.memory
  ip_setAccumulator (c : Cpu) (v : UInt16) :
    Processor.ip (Processor.setAccumulator c v) = Processor.ip c
  ip_setCarry (c : Cpu) (b : Bool) : Processor.ip (Processor.setCarry c b) = Processor.ip c

instance : LawfulProcessor Pdp11.Cpu where
  stores_execute i m := Pdp11.stores_execute m i
  ip_setAccumulator c v := Pdp11.Cpu.get_set c .r0 .pc v
  ip_setCarry _ _ := rfl

instance : LawfulProcessor I8086.Cpu where
  stores_execute i m := I8086.stores_execute m i
  ip_setAccumulator _ _ := rfl
  ip_setCarry _ _ := rfl

instance (p : Personality) : LawfulProcessor p.Cpu := by
  cases p with
  | minix => exact inferInstanceAs (LawfulProcessor I8086.Cpu)
  | unixV6Pdp11 => exact inferInstanceAs (LawfulProcessor Pdp11.Cpu)
  | unixV6I8086 => exact inferInstanceAs (LawfulProcessor I8086.Cpu)

namespace UnixV6

/-- A processor of Unix V6 on which the instruction pointer is none of the places where a
call looks for its first argument or leaves a result. -/
class LawfulPlatform (Cpu : Type) [Platform Cpu] : Prop extends LawfulProcessor Cpu where
  ip_setIp (c : Cpu) (v : UInt16) : Processor.ip (Processor.setIp c v) = v
  setIp_setIp (c : Cpu) (v w : UInt16) :
    Processor.setIp (Processor.setIp c v) w = Processor.setIp c w
  sp_setIp (c : Cpu) (v : UInt16) : StackPointer.sp (Processor.setIp c v) = StackPointer.sp c
  accumulator_setIp (c : Cpu) (v : UInt16) :
    Processor.accumulator (Processor.setIp c v) = Processor.accumulator c
  setAccumulator_setIp (c : Cpu) (v w : UInt16) :
    Processor.setAccumulator (Processor.setIp c v) w =
      Processor.setIp (Processor.setAccumulator c w) v
  setCarry_setIp (c : Cpu) (v : UInt16) (b : Bool) :
    Processor.setCarry (Processor.setIp c v) b = Processor.setIp (Processor.setCarry c b) v
  setWaitStatus_setIp (c : Cpu) (v status : UInt16) :
    Platform.setWaitStatus status (Processor.setIp c v) =
      Processor.setIp (Platform.setWaitStatus status c) v

/-- A processor of Unix V6 on which a reply does not move the stack. -/
class LawfulStack (Cpu : Type) [Platform Cpu] : Prop extends LawfulPlatform Cpu where
  sp_setSp (c : Cpu) (v : UInt16) : StackPointer.sp (StackPointer.setSp c v) = v
  sp_setEntrySp (c : Cpu) (v : UInt16) :
    StackPointer.sp (Processor.setEntrySp c v) = StackPointer.sp c
  sp_setAccumulator (c : Cpu) (v : UInt16) :
    StackPointer.sp (Processor.setAccumulator c v) = StackPointer.sp c
  sp_setCarry (c : Cpu) (b : Bool) : StackPointer.sp (Processor.setCarry c b) = StackPointer.sp c

end UnixV6

theorem Pdp11.Cpu.set_set (c : Pdp11.Cpu) (r : Pdp11.Register) (v w : UInt16) :
    (c.set r v).set r w = c.set r w := by
  simp only [set, Vector.set_set]

theorem Pdp11.Cpu.set_comm (c : Pdp11.Cpu) {r s : Pdp11.Register} (hDistinct : r ≠ s)
    (v w : UInt16) : (c.set r v).set s w = (c.set s w).set r v := by
  have hIndex : r.val ≠ s.val := fun hSame => hDistinct (Fin.ext hSame)
  simp only [set]
  rw [Vector.set_comm _ _ hIndex]

namespace UnixV6

instance : LawfulPlatform Pdp11.Cpu where
  ip_setIp c v := c.get_set .pc .pc v
  setIp_setIp c := c.set_set .pc
  sp_setIp c := c.get_set .pc .sp
  accumulator_setIp c := c.get_set .pc .r0
  setAccumulator_setIp c := c.set_comm (by decide)
  setCarry_setIp _ _ _ := rfl
  setWaitStatus_setIp c v status := c.set_comm (by decide) v status

instance : LawfulPlatform I8086.Cpu where
  ip_setIp _ _ := rfl
  setIp_setIp _ _ _ := rfl
  sp_setIp _ _ := rfl
  accumulator_setIp _ _ := rfl
  setAccumulator_setIp _ _ _ := rfl
  setCarry_setIp _ _ _ := rfl
  setWaitStatus_setIp _ _ _ := rfl

instance : LawfulStack Pdp11.Cpu where
  sp_setSp c := c.get_set .sp .sp
  sp_setEntrySp _ _ := rfl
  sp_setAccumulator c := c.get_set .r0 .sp
  sp_setCarry _ _ := rfl

instance : LawfulStack I8086.Cpu where
  sp_setSp c := c.get_set .sp .sp
  sp_setEntrySp _ _ := rfl
  sp_setAccumulator c := c.get_set .ax .sp
  sp_setCarry _ _ := rfl

end UnixV6
end VintageUnix
