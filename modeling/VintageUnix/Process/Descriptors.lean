import Std.Data.TreeMap
import VintageUnix.Host.Stream

/-! The open descriptors of a process: numbered slots that refer to streams. -/
namespace VintageUnix

/-- The slots by number. A copy of the table refers to the same streams. -/
structure Descriptors where
  /-- What the open slots refer to. -/
  handles : Std.TreeMap Nat Handle
  /-- How many slots there are, open or free. -/
  size : Nat
  /-- All slots below this one are open. -/
  filled : Nat
  lt_size : ∀ slot ∈ handles, slot < size
  mem_of_lt_filled : ∀ slot < filled, slot ∈ handles

namespace Descriptors

/-- The table without slots. -/
def empty : Descriptors where
  handles := ∅
  size := 0
  filled := 0
  lt_size slot h := by simp at h
  mem_of_lt_filled slot h := absurd h (Nat.not_lt_zero slot)

/-- The handle at a descriptor, if it is open. -/
def get? (d : Descriptors) (descriptor : UInt16) : Option Handle :=
  d.handles[descriptor.toNat]?

/-- The handle at a descriptor. -/
def get (d : Descriptors) (descriptor : UInt16) : Except Errno Handle :=
  match d.get? descriptor with
  | some handle => .ok handle
  | none => .error .badDescriptor

/-- The slots in order, with nothing for the free ones. -/
def slots (d : Descriptors) : List (Option Handle) :=
  (List.range d.size).map (d.handles[·]?)

/-- The first free slot from `slot` on, or the one behind the next `count` if they are
all open. -/
def freeFrom (handles : Std.TreeMap Nat Handle) : (count slot : Nat) → Nat
  | 0, slot => slot
  | count + 1, slot => if slot ∈ handles then freeFrom handles count (slot + 1) else slot

/-- The lowest slot that is free. -/
def firstFree (d : Descriptors) : Nat :=
  freeFrom d.handles (d.size - d.filled) d.filled

theorem mem_of_lt_freeFrom {handles : Std.TreeMap Nat Handle} {count start slot : Nat}
    (hStart : start ≤ slot) (hSlot : slot < freeFrom handles count start) : slot ∈ handles := by
  induction count generalizing start with
  | zero => exact absurd hSlot (Nat.not_lt.2 hStart)
  | succ count ih =>
      rw [freeFrom] at hSlot
      split at hSlot
      next hOpen =>
        rcases Nat.eq_or_lt_of_le hStart with rfl | hLater
        · exact hOpen
        · exact ih hLater hSlot
      next => exact absurd hSlot (Nat.not_lt.2 hStart)

/-- All slots below the first free one are open. -/
theorem mem_of_lt_firstFree {d : Descriptors} {slot : Nat} (h : slot < d.firstFree) :
    slot ∈ d.handles := by
  by_cases hFilled : slot < d.filled
  · exact d.mem_of_lt_filled slot hFilled
  · exact mem_of_lt_freeFrom (Nat.not_lt.1 hFilled) h

/-- Fill the lowest free slot. Its number is cut to a word. -/
def insert (d : Descriptors) (handle : Handle) : UInt16 × Descriptors :=
  let slot := d.firstFree
  (UInt16.ofNat slot, {
    handles := d.handles.insert slot handle
    size := max d.size (slot + 1)
    filled := slot + 1
    lt_size other h := by
      rcases Std.TreeMap.mem_insert.1 h with hSame | hOpen
      · have hSlot : slot = other := Nat.compare_eq_eq.1 hSame
        omega
      · have hOther := d.lt_size other hOpen
        omega
    mem_of_lt_filled other h := by
      rw [Std.TreeMap.mem_insert]
      rcases Nat.lt_succ_iff_lt_or_eq.1 h with hBelow | hSame
      · exact .inr (mem_of_lt_firstFree hBelow)
      · exact .inl (Nat.compare_eq_eq.2 hSame.symm) })

/-- Replace whatever is open at a descriptor. -/
def install (d : Descriptors) (descriptor : UInt16) (handle : Handle) : Descriptors where
  handles := d.handles.insert descriptor.toNat handle
  size := max d.size (descriptor.toNat + 1)
  filled := d.filled
  lt_size slot h := by
    rcases Std.TreeMap.mem_insert.1 h with hSame | hOpen
    · have hSlot : descriptor.toNat = slot := Nat.compare_eq_eq.1 hSame
      omega
    · have hSlot := d.lt_size slot hOpen
      omega
  mem_of_lt_filled slot h := Std.TreeMap.mem_insert.2 (.inr (d.mem_of_lt_filled slot h))

def close (d : Descriptors) (descriptor : UInt16) : Except Errno Descriptors :=
  if descriptor.toNat ∈ d.handles then
    .ok {
      handles := d.handles.erase descriptor.toNat
      size := d.size
      filled := min d.filled descriptor.toNat
      lt_size := fun slot h => d.lt_size slot (Std.TreeMap.mem_erase.1 h).2
      mem_of_lt_filled := fun slot h => Std.TreeMap.mem_erase.2
        ⟨fun hSame => by
          have hSlot : descriptor.toNat = slot := Nat.compare_eq_eq.1 hSame
          omega, d.mem_of_lt_filled slot (by omega)⟩ }
  else .error .badDescriptor

/-- Open a second descriptor for the same stream. -/
def duplicate (d : Descriptors) (descriptor : UInt16) : Except Errno (UInt16 × Descriptors) :=
  (d.get descriptor).map d.insert

/-- The table that a process starts with: the standard streams of the host. -/
def standard : Descriptors :=
  [.input, .output, .error].foldl (fun d s => (d.insert (.standard s)).2) empty

instance : Inhabited Descriptors := ⟨standard⟩

end Descriptors
end VintageUnix
