import VintageUnix.Memory.Segment
import VintageUnix.Word.Bits

/-! The memory of one process. Text and data either share one segment or have one each;
loads and stores always go to data and instructions are always fetched from text. -/
namespace VintageUnix

/-- How text and data are placed in segments. -/
inductive Layout where
  | shared (memory : Segment)
  | split (text data : Segment)

/-- Memory together with the sizes that were recorded when it was loaded. The
stack may not grow below `brk`, and an instruction may not reach past `textLimit`
where there is one. -/
structure AddressSpace where
  layout : Layout
  textSize : UInt16 := 0
  dataSize : UInt16 := 0
  brk : UInt16 := 0
  textLimit : Option Nat := none

namespace AddressSpace

/-- A zeroed space in which text and data are the same bytes. -/
def shared : AddressSpace where
  layout := .shared .zero

/-- A zeroed space with separate text and data. -/
def split : AddressSpace where
  layout := .split .zero .zero

instance : Inhabited AddressSpace := ⟨shared⟩

def isSplit (m : AddressSpace) : Bool :=
  match m.layout with
  | .shared _ => false
  | .split _ _ => true

/-- The segment that instructions are fetched from. -/
def text (m : AddressSpace) : Segment :=
  match m.layout with
  | .shared memory => memory
  | .split text _ => text

/-- The segment that loads and stores go to. -/
def data (m : AddressSpace) : Segment :=
  match m.layout with
  | .shared memory => memory
  | .split _ data => data

/-- Replace the data segment. In a shared space the text changes with it. -/
def mapData (f : Segment → Segment) (m : AddressSpace) : AddressSpace :=
  { m with
    layout := match m.layout with
      | .shared memory => .shared (f memory)
      | .split text data => .split text (f data) }

/-- Replace the text segment. In a shared space the data changes with it. -/
def mapText (f : Segment → Segment) (m : AddressSpace) : AddressSpace :=
  { m with
    layout := match m.layout with
      | .shared memory => .shared (f memory)
      | .split text data => .split (f text) data }

/-- The data byte at `address`. -/
def byte (m : AddressSpace) (address : UInt16) : UInt8 :=
  m.data.get address

def setByte (m : AddressSpace) (address : UInt16) (value : UInt8) : AddressSpace :=
  m.mapData (·.set address value)

/-- The data word whose low byte is at `address`. Its high byte is at the next
address, which after the top of memory is zero. -/
def word (m : AddressSpace) (address : UInt16) : UInt16 :=
  Word.ofBytes (m.byte address) (m.byte (address + 1))

def setWord (m : AddressSpace) (address value : UInt16) : AddressSpace :=
  (m.setByte address (Word.low value)).setByte (address + 1) (Word.high value)

/-- The text word whose low byte is at `address`. -/
def textWord (m : AddressSpace) (address : UInt16) : UInt16 :=
  Word.ofBytes (m.text.get address) (m.text.get (address + 1))

/-- The data double word at `address`, low word first. -/
def long (m : AddressSpace) (address : UInt16) : UInt32 :=
  ⟨(m.word (address + 2)).toBitVec ++ (m.word address).toBitVec⟩

def setLong (m : AddressSpace) (address : UInt16) (value : UInt32) : AddressSpace :=
  (m.setWord address ⟨value.toBitVec.setWidth 16⟩).setWord (address + 2)
    ⟨(value.toBitVec >>> 16).setWidth 16⟩

/-- Copy `count` data bytes out of memory, wrapping at the top. -/
def read (m : AddressSpace) (address : UInt16) (count : Nat) : List UInt8 :=
  m.data.read address count

/-- Copy `bytes` into data memory, wrapping at the top. -/
def write (m : AddressSpace) (address : UInt16) (bytes : List UInt8) : AddressSpace :=
  m.mapData (·.write address bytes)

end AddressSpace
end VintageUnix
