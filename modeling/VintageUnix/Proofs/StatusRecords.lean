import Mathlib.Algebra.Group.Int.Defs
import VintageUnix.Proofs.StoredValues
import VintageUnix.Proofs.SystemStores

/-! Status records as programs find them in memory. A record is a block of bytes in which every
field has a place of its own, so a program reads back all that the widths of the fields hold. -/
namespace VintageUnix

open AddressSpace LittleEndian

/-- The low half of a signed number, also of a negative one. -/
theorem toUInt64_mod (t : Int64) : t.toUInt64.toNat % 2 ^ 32 = (t.toInt % 2 ^ 32).toNat := by
  have hBits : t.toUInt64.toNat = (t.toInt % 2 ^ 64).toNat := by
    show t.toBitVec.toNat = (t.toBitVec.toInt % 2 ^ 64).toNat
    conv_lhs => rw [← @BitVec.ofInt_toInt _ t.toBitVec, BitVec.toNat_ofInt]
    rfl
  omega

theorem toNat_shiftRight_sixteen (x : UInt64) : (x >>> 16).toNat = x.toNat / 2 ^ 16 := by
  rw [UInt64.toNat_shiftRight, Nat.shiftRight_eq_div_pow]
  rfl

namespace Minix

/-- The numbers in a status record. -/
structure StatusRecord where
  device : Nat
  inode : Nat
  mode : Nat
  links : Nat
  user : Nat
  group : Nat
  special : Nat
  size : Nat
  accessed : Nat
  modified : Nat
  changed : Nat
  deriving DecidableEq, Repr

/-- The record at an address: seven words and four double words. -/
def loadStatus (address : UInt16) (m : AddressSpace) : StatusRecord where
  device := (m.word address).toNat
  inode := (m.word (address + 2)).toNat
  mode := (m.word (address + 4)).toNat
  links := (m.word (address + 6)).toNat
  user := (m.word (address + 8)).toNat
  group := (m.word (address + 10)).toNat
  special := (m.word (address + 12)).toNat
  size := (m.long (address + 14)).toNat
  accessed := (m.long (address + 18)).toNat
  modified := (m.long (address + 22)).toNat
  changed := (m.long (address + 26)).toNat

/-- The bytes of a status record. -/
def statusBytes (st : FileStatus) : List UInt8 :=
  encode 2 st.device.toUInt16.toNat ++ encode 2 st.inode.toUInt16.toNat ++
  encode 2 st.mode.toUInt16.toNat ++ encode 2 st.links.toUInt16.toNat ++
  encode 2 st.user.toUInt16.toNat ++ encode 2 st.group.toUInt16.toNat ++
  encode 2 st.special.toUInt16.toNat ++ encode 4 st.size.toUInt32.toNat ++
  encode 4 st.accessed.toUInt64.toUInt32.toNat ++ encode 4 st.modified.toUInt64.toUInt32.toNat ++
  encode 4 st.changed.toUInt64.toUInt32.toNat

theorem storeStatus_eq_write (address : UInt16) (st : FileStatus) (m : AddressSpace) :
    storeStatus address st m = m.write address (statusBytes st) := by
  simp only [storeStatus, statusBytes, setWord_eq_write, setLong_eq_write, write_append,
    List.length_append, length_encode, Nat.reduceAdd, UInt16.reduceOfNat]

theorem holdsBytes_storeStatus (address : UInt16) (st : FileStatus) (m : AddressSpace) :
    (storeStatus address st m).HoldsBytes address (statusBytes st) := by
  rw [storeStatus_eq_write]
  exact holdsBytes_write m address (by simp [statusBytes, segmentSize])

/-- Where the bytes of a record are, its fields are found, each cut to its width. -/
theorem loadStatus_eq {address : UInt16} {st : FileStatus} {m : AddressSpace}
    (h : m.HoldsBytes address (statusBytes st)) :
    loadStatus address m = {
      device := st.device.toNat % 2 ^ 16
      inode := st.inode.toNat % 2 ^ 16
      mode := st.mode.toNat % 2 ^ 16
      links := st.links.toNat % 2 ^ 16
      user := st.user.toNat % 2 ^ 16
      group := st.group.toNat % 2 ^ 16
      special := st.special.toNat % 2 ^ 16
      size := st.size.toNat % 2 ^ 32
      accessed := (st.accessed.toInt % 2 ^ 32).toNat
      modified := (st.modified.toInt % 2 ^ 32).toNat
      changed := (st.changed.toInt % 2 ^ 32).toNat } := by
  simp only [statusBytes, holdsBytes_append, holdsBytes_word, holdsBytes_long, List.length_append,
    length_encode, Nat.reduceAdd, UInt16.reduceOfNat, and_assoc] at h
  obtain ⟨hDevice, hInode, hMode, hLinks, hUser, hGroup, hSpecial, hSize, hAccessed, hModified,
    hChanged⟩ := h
  simp only [loadStatus, hDevice, hInode, hMode, hLinks, hUser, hGroup, hSpecial, hSize, hAccessed,
    hModified, hChanged, UInt64.toNat_toUInt16, UInt32.toNat_toUInt16, UInt64.toNat_toUInt32,
    toUInt64_mod]

end Minix

namespace UnixV6

/-- The kinds of files that a status record tells apart. -/
inductive FileKind where
  | plain
  | directory
  | character
  | block
  deriving DecidableEq, Repr

namespace FileKind

/-- The kind of file that a mode of the host means. All the others pass for plain files. -/
def ofMode (mode : UInt32) : FileKind :=
  match mode &&& 0o170000 with
  | 0o040000 => .directory
  | 0o020000 => .character
  | 0o060000 => .block
  | _ => .plain

/-- The two bits that a status record has for a kind. -/
def code : FileKind → Nat
  | plain => 0
  | character => 1
  | directory => 2
  | block => 3

def ofCode : Nat → FileKind
  | 1 => .character
  | 2 => .directory
  | 3 => .block
  | _ => .plain

theorem ofCode_code (kind : FileKind) : ofCode kind.code = kind := by
  cases kind <;> rfl

theorem code_lt (kind : FileKind) : kind.code < 4 := by
  cases kind <;> decide

end FileKind

/-- The flags in a status record. -/
structure StatusFlags where
  allocated : Bool
  kind : FileKind
  large : Bool
  permissions : Nat
  deriving DecidableEq, Repr

/-- The flags in a word: the mark of an allocated file at the top, the kind of the file in the two
bits below it, the mark of a large file, and the permissions. -/
def StatusFlags.ofWord (w : UInt16) : StatusFlags where
  allocated := Word.bit w 15
  kind := .ofCode (w.toNat / 2 ^ 13 % 4)
  large := Word.bit w 12
  permissions := w.toNat % 2 ^ 12

/-- What a status record says. -/
structure StatusRecord where
  device : Nat
  inode : Nat
  flags : StatusFlags
  links : Nat
  user : Nat
  group : Nat
  size : Nat
  unused : List UInt8
  accessed : Nat
  modified : Nat
  deriving DecidableEq, Repr

/-- The time at an address, high word first. -/
def loadTime (address : UInt16) (m : AddressSpace) : Nat :=
  65536 * (m.word address).toNat + (m.word (address + 2)).toNat

/-- The record at an address: three words, five bytes, a word, and two times behind bytes that are
not used. The first byte of the size is its highest. -/
def loadStatus (address : UInt16) (m : AddressSpace) : StatusRecord where
  device := (m.word address).toNat
  inode := (m.word (address + 2)).toNat
  flags := .ofWord (m.word (address + 4))
  links := (m.byte (address + 6)).toNat
  user := (m.byte (address + 7)).toNat
  group := (m.byte (address + 8)).toNat
  size := 65536 * (m.byte (address + 9)).toNat + (m.word (address + 10)).toNat
  unused := m.read (address + 12) 16
  accessed := loadTime (address + 28) m
  modified := loadTime (address + 32) m

/-- The flags in the status record of a file. -/
def flagsWord (mode : UInt32) : UInt16 :=
  0o100000 ||| fileType mode ||| (mode &&& 0o7777).toUInt16

/-- No two of the flags share a bit, so the word is their sum. -/
theorem toNat_flagsWord (mode : UInt32) :
    (flagsWord mode).toNat =
      2 ^ 15 + 2 ^ 13 * (FileKind.ofMode mode).code + mode.toNat % 2 ^ 12 := by
  have hType : fileType mode = .ofNat (2 ^ 13 * (FileKind.ofMode mode).code) := by
    unfold fileType FileKind.ofMode
    split <;> simp only [*, FileKind.code] <;> rfl
  have hMarked (kind : FileKind) :
      (0o100000 ||| UInt16.ofNat (2 ^ 13 * kind.code)).toNat = 2 ^ 12 * (8 + 2 * kind.code) := by
    cases kind <;> decide
  have hPermissions : (mode &&& 0o7777).toUInt16.toNat = mode.toNat % 2 ^ 12 := by
    rw [UInt32.toNat_toUInt16, UInt32.toNat_and]
    show (mode.toNat &&& 2 ^ 12 - 1) % 2 ^ 16 = _
    rw [Nat.and_two_pow_sub_one_eq_mod]
    omega
  rw [flagsWord, hType, UInt16.toNat_or, hMarked, hPermissions,
    ← Nat.two_pow_add_eq_or_of_lt (Nat.mod_lt _ (Nat.two_pow_pos 12))]
  omega

theorem ofWord_flagsWord (mode : UInt32) :
    StatusFlags.ofWord (flagsWord mode) = {
      allocated := true
      kind := .ofMode mode
      large := false
      permissions := mode.toNat % 2 ^ 12 } := by
  have hWord := toNat_flagsWord mode
  have hCode := (FileKind.ofMode mode).code_lt
  have hBit (i : Nat) : Word.bit (flagsWord mode) i =
      decide ((flagsWord mode).toNat / 2 ^ i % 2 = 1) := Nat.testBit_eq_decide_div_mod_eq
  have hAllocated : Word.bit (flagsWord mode) 15 = true := by
    rw [hBit]
    exact decide_eq_true (by omega)
  have hKind : (flagsWord mode).toNat / 2 ^ 13 % 4 = (FileKind.ofMode mode).code := by
    omega
  have hLarge : Word.bit (flagsWord mode) 12 = false := by
    rw [hBit]
    exact decide_eq_false (by omega)
  have hPermissions : (flagsWord mode).toNat % 2 ^ 12 = mode.toNat % 2 ^ 12 := by
    omega
  rw [StatusFlags.ofWord, hAllocated, hKind, hLarge, hPermissions, FileKind.ofCode_code]

/-- The bytes of a time, high word first. -/
def timeBytes (time : Int64) : List UInt8 :=
  encode 2 (time.toUInt64 >>> 16).toUInt16.toNat ++ encode 2 time.toUInt64.toUInt16.toNat

theorem length_timeBytes (time : Int64) : (timeBytes time).length = 4 := by
  simp [timeBytes]

/-- The bytes of a status record. -/
def statusBytes (st : FileStatus) : List UInt8 :=
  encode 2 st.device.toUInt16.toNat ++ encode 2 st.inode.toUInt16.toNat ++
  encode 2 (flagsWord st.mode).toNat ++ [st.links.toUInt8] ++ [st.user.toUInt8] ++
  [st.group.toUInt8] ++ [(st.size >>> 16).toUInt8] ++ encode 2 st.size.toUInt16.toNat ++
  List.replicate 16 0 ++ timeBytes st.accessed ++ timeBytes st.modified

theorem storeTime_eq_write (address : UInt16) (time : Int64) (m : AddressSpace) :
    storeTime address time m = m.write address (timeBytes time) := by
  rw [timeBytes, write_append, ← setWord_eq_write, length_encode, ← setWord_eq_write]
  rfl

theorem storeStatus_eq_write (address : UInt16) (st : FileStatus) (m : AddressSpace) :
    storeStatus address st m = m.write address (statusBytes st) := by
  simp only [storeStatus, statusBytes, flagsWord, setWord_eq_write, setByte_eq_write,
    storeTime_eq_write, write_append, List.length_append, length_encode, List.length_singleton,
    List.length_replicate, length_timeBytes, Nat.reduceAdd, UInt16.reduceOfNat]

theorem holdsBytes_storeStatus (address : UInt16) (st : FileStatus) (m : AddressSpace) :
    (storeStatus address st m).HoldsBytes address (statusBytes st) := by
  rw [storeStatus_eq_write]
  exact holdsBytes_write m address (by simp [statusBytes, length_timeBytes, segmentSize])

/-- A time comes back as far as two words hold it. -/
theorem loadTime_eq {m : AddressSpace} {address : UInt16} {time : Int64}
    (h : m.HoldsBytes address (timeBytes time)) :
    loadTime address m = (time.toInt % 2 ^ 32).toNat := by
  rw [timeBytes, holdsBytes_append, holdsBytes_word, holdsBytes_word, length_encode] at h
  have hLow : m.word (address + 2) = time.toUInt64.toUInt16 := h.2
  rw [loadTime, h.1, hLow, UInt64.toNat_toUInt16, UInt64.toNat_toUInt16, toNat_shiftRight_sixteen,
    ← toUInt64_mod]
  omega

/-- Where the bytes of a record are, its fields are found, each cut to its width, and all of its
flags. -/
theorem loadStatus_eq {address : UInt16} {st : FileStatus} {m : AddressSpace}
    (h : m.HoldsBytes address (statusBytes st)) :
    loadStatus address m = {
      device := st.device.toNat % 2 ^ 16
      inode := st.inode.toNat % 2 ^ 16
      flags := {
        allocated := true
        kind := .ofMode st.mode
        large := false
        permissions := st.mode.toNat % 2 ^ 12 }
      links := st.links.toNat % 2 ^ 8
      user := st.user.toNat % 2 ^ 8
      group := st.group.toNat % 2 ^ 8
      size := st.size.toNat % 2 ^ 24
      unused := List.replicate 16 0
      accessed := (st.accessed.toInt % 2 ^ 32).toNat
      modified := (st.modified.toInt % 2 ^ 32).toNat } := by
  simp only [statusBytes, holdsBytes_append, holdsBytes_byte, holdsBytes_word, List.length_append,
    length_encode, List.length_singleton, List.length_replicate, length_timeBytes, Nat.reduceAdd,
    UInt16.reduceOfNat, and_assoc] at h
  obtain ⟨hDevice, hInode, hFlags, hLinks, hUser, hGroup, hSizeHigh, hSizeLow, hUnused, hAccessed,
    hModified⟩ := h
  rw [HoldsBytes, List.length_replicate] at hUnused
  have hSize : 65536 * (m.byte (address + 9)).toNat + (m.word (address + 10)).toNat =
      st.size.toNat % 2 ^ 24 := by
    rw [hSizeHigh, hSizeLow, UInt64.toNat_toUInt8, UInt64.toNat_toUInt16, toNat_shiftRight_sixteen]
    omega
  simp only [loadStatus, hDevice, hInode, hFlags, hLinks, hUser, hGroup, hSize, hUnused,
    loadTime_eq hAccessed, loadTime_eq hModified, ofWord_flagsWord, UInt64.toNat_toUInt16,
    UInt64.toNat_toUInt8, UInt32.toNat_toUInt8]

end UnixV6

/-- What a status call stores is read back. For every file, memory and address, wherever the record
wraps, only the bytes of the record are stored to, and they say all that fits: each number modulo
the width of its field, the times also if they are negative. In the flags of Unix V6 the mark of an
allocated file, the kind of the file and the low twelve bits of its mode stand side by side. -/
theorem status_records_read_back (address : UInt16) (st : FileStatus) (m : AddressSpace) :
    (StoresWithin [⟨address, 30⟩] m (Minix.storeStatus address st m) ∧
      Minix.loadStatus address (Minix.storeStatus address st m) = {
        device := st.device.toNat % 2 ^ 16
        inode := st.inode.toNat % 2 ^ 16
        mode := st.mode.toNat % 2 ^ 16
        links := st.links.toNat % 2 ^ 16
        user := st.user.toNat % 2 ^ 16
        group := st.group.toNat % 2 ^ 16
        special := st.special.toNat % 2 ^ 16
        size := st.size.toNat % 2 ^ 32
        accessed := (st.accessed.toInt % 2 ^ 32).toNat
        modified := (st.modified.toInt % 2 ^ 32).toNat
        changed := (st.changed.toInt % 2 ^ 32).toNat }) ∧
    StoresWithin [⟨address, 36⟩] m (UnixV6.storeStatus address st m) ∧
      UnixV6.loadStatus address (UnixV6.storeStatus address st m) = {
        device := st.device.toNat % 2 ^ 16
        inode := st.inode.toNat % 2 ^ 16
        flags := {
          allocated := true
          kind := .ofMode st.mode
          large := false
          permissions := st.mode.toNat % 2 ^ 12 }
        links := st.links.toNat % 2 ^ 8
        user := st.user.toNat % 2 ^ 8
        group := st.group.toNat % 2 ^ 8
        size := st.size.toNat % 2 ^ 24
        unused := List.replicate 16 0
        accessed := (st.accessed.toInt % 2 ^ 32).toNat
        modified := (st.modified.toInt % 2 ^ 32).toNat } :=
  ⟨⟨Minix.storesWithin_storeStatus m address st,
      Minix.loadStatus_eq (Minix.holdsBytes_storeStatus address st m)⟩,
    UnixV6.storesWithin_storeStatus m address st,
    UnixV6.loadStatus_eq (UnixV6.holdsBytes_storeStatus address st m)⟩

end VintageUnix
