import VintageUnix.Memory.AddressSpace
import VintageUnix.Text.Utf8

/-! Strings in data memory: bytes up to a zero byte, and arrays of pointers to such strings. -/
namespace VintageUnix.AddressSpace

/-- At most `count` bytes from `address` on, stopping before the first zero. -/
def terminatedWithin (m : AddressSpace) (address : UInt16) : Nat → List UInt8
  | 0 => []
  | count + 1 =>
    let b := m.byte address
    if b = 0 then [] else b :: m.terminatedWithin (address + 1) count

/-- The bytes of the string at `address`, without its terminator. A string that
runs off the top of memory ends there. -/
def terminated (m : AddressSpace) (address : UInt16) : List UInt8 :=
  m.terminatedWithin address (segmentSize - address.toNat)

/-- Store `bytes` and a zero byte after them. -/
def setTerminated (m : AddressSpace) (address : UInt16) (bytes : List UInt8) : AddressSpace :=
  (m.write address bytes).setByte (address + UInt16.ofNat bytes.length) 0

/-- The text of the string at `address`. -/
def stringAt (m : AddressSpace) (address : UInt16) : String :=
  Utf8.decode (m.terminated address)

/-- At most `count` strings, pointed at by the words from `address` on up to
a zero word. -/
def stringsWithin (m : AddressSpace) (address : UInt16) : Nat → List String
  | 0 => []
  | count + 1 =>
    let pointer := m.word address
    if pointer = 0 then []
    else m.stringAt pointer :: m.stringsWithin (address + 2) count

/-- The strings of the null terminated pointer array at `address`. An array
without a terminator is cut after as many words as a segment holds. -/
def stringVector (m : AddressSpace) (address : UInt16) : List String :=
  m.stringsWithin address (segmentSize / 2)

end VintageUnix.AddressSpace
