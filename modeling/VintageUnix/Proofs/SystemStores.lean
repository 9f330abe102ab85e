import VintageUnix.Proofs.MemoryFrame
import VintageUnix.System.Minix
import VintageUnix.System.UnixV6

/-! What the systems store: replies, status records, and the arguments of a new program. Records
keep to the bytes that belong to them. -/
namespace VintageUnix

open AddressSpace (Stores StoresWithin)

variable {Cpu : Type} [Processor Cpu]

theorem ReplyConvention.stores_report (c : ReplyConvention) (block : UInt16)
    (result : Except Errno UInt16) (m : Machine Cpu) :
    Stores m.memory (c.report block result m).memory := by
  cases c with
  | message => cases result <;> exact .setWord _ _ _
  | carry => cases result <;> exact .refl _

theorem StackCursor.stores_putString (c : StackCursor) (text : String) :
    Stores c.memory (c.putString text).memory :=
  (Stores.setWord _ _ _).trans (.setTerminated _ _ _)

theorem StackCursor.stores_putStrings (c : StackCursor) (texts : List String) :
    Stores c.memory (c.putStrings texts).memory := by
  induction texts generalizing c with
  | nil => exact .refl _
  | cons text rest ih => exact (c.stores_putString text).trans (ih _)

theorem StackLayout.stores_build (arguments : List String) (environment : Option (List String))
    (m : Machine Cpu) : Stores m.memory (build arguments environment m).memory := by
  have hArguments (sp strings : UInt16) : Stores m.memory
      (StackCursor.putStrings
        { memory := m.memory.setWord sp (UInt16.ofNat arguments.length), pointer := sp, strings }
        arguments).memory :=
    (Stores.setWord _ _ _).trans (StackCursor.stores_putStrings _ _)
  cases environment with
  | none => exact hArguments _ _
  | some e =>
      refine Stores.trans ?_ (.setWord _ _ _)
      refine Stores.trans ?_ (StackCursor.stores_putStrings _ e)
      exact (hArguments _ _).trans (.setWord _ _ _)

theorem Minix.stores_relocate (base : UInt16) (count : Nat) (address : UInt16)
    (m : AddressSpace) : Stores m (relocate base count address m).1 := by
  induction count generalizing address m with
  | zero => exact .refl _
  | succ count ih =>
      simp only [relocate]
      split
      · exact .refl _
      · exact (Stores.setWord _ _ _).trans (ih _ _)

theorem Minix.stores_placeFrame (frame : List UInt8) (m : Machine I8086.Cpu) :
    Stores m.memory (placeFrame frame m).memory := by
  refine Stores.trans ?_ (stores_relocate _ _ _ _)
  exact Stores.trans (.write _ _ _) (stores_relocate _ _ _ _)

theorem Minix.storesWithin_storeStatus (m : AddressSpace) (address : UInt16) (st : FileStatus) :
    StoresWithin [⟨address, 30⟩] m (storeStatus address st m) := by
  unfold storeStatus
  -- four double words at the end, seven words before them
  refine .thenLong ?_ (by decide)
  refine .thenLong ?_ (by decide)
  refine .thenLong ?_ (by decide)
  refine .thenLong ?_ (by decide)
  refine .thenWord ?_ (by decide)
  refine .thenWord ?_ (by decide)
  refine .thenWord ?_ (by decide)
  refine .thenWord ?_ (by decide)
  refine .thenWord ?_ (by decide)
  refine .thenWord ?_ (by decide)
  exact (StoresWithin.setWord m address _).front (by decide)

theorem UnixV6.storesWithin_storeTime (m : AddressSpace) (address : UInt16) (time : Int64) :
    StoresWithin [⟨address, 4⟩] m (storeTime address time m) :=
  ((StoresWithin.setWord m address _).front (by decide)).thenWord (by decide)

theorem UnixV6.storesWithin_storeStatus (m : AddressSpace) (address : UInt16)
    (st : FileStatus) : StoresWithin [⟨address, 36⟩] m (storeStatus address st m) := by
  unfold storeStatus
  -- two times, the unused words, and eight fields before them
  refine .trans ?_ ((storesWithin_storeTime _ (address + 32) _).part (by decide))
  refine .trans ?_ ((storesWithin_storeTime _ (address + 28) _).part (by decide))
  refine .trans ?_ ((StoresWithin.write _ (address + 12) _).part (by decide))
  refine .thenWord ?_ (by decide)
  refine .thenByte ?_ (by decide)
  refine .thenByte ?_ (by decide)
  refine .thenByte ?_ (by decide)
  refine .thenByte ?_ (by decide)
  refine .thenWord ?_ (by decide)
  refine .thenWord ?_ (by decide)
  exact (StoresWithin.setWord m address _).front (by decide)

end VintageUnix
