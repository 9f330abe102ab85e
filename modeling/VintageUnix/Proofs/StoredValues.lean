import VintageUnix.Proofs.FileNumbers

/-! What is stored is read back, wherever the addresses wrap. Words and double words are stored and
loaded as blocks of the bytes that they consist of, the low one first, and a string is found again
as far as it does not run off the top of memory. -/
namespace VintageUnix

namespace LittleEndian

/-- The low `count` bytes of a number, the lowest first. -/
def encode : (count value : Nat) → List UInt8
  | 0, _ => []
  | count + 1, value => .ofNat value :: encode count (value / 256)

@[simp] theorem length_encode (count value : Nat) : (encode count value).length = count := by
  induction count generalizing value with
  | zero => rfl
  | succ count ih => exact congrArg Nat.succ (ih _)

theorem encode_add (first second value : Nat) :
    encode (first + second) value = encode first value ++ encode second (value / 256 ^ first) := by
  induction first generalizing value with
  | zero => simp [encode]
  | succ first ih =>
      rw [Nat.add_right_comm, encode, encode, ih, Nat.div_div_eq_div_mul, ← Nat.pow_succ',
        List.cons_append]

/-- Numbers have the same bytes exactly if they differ in what is cut off only. -/
theorem encode_eq_iff {count v w : Nat} :
    encode count v = encode count w ↔ v % 256 ^ count = w % 256 ^ count := by
  induction count generalizing v w with
  | zero => simp [encode, Nat.mod_one]
  | succ count ih =>
      have hLow : UInt8.ofNat v = .ofNat w ↔ v % 256 = w % 256 := by
        rw [← UInt8.toNat_inj, UInt8.toNat_ofNat', UInt8.toNat_ofNat']
      rw [encode, encode, List.cons.injEq, hLow, ih, Nat.pow_succ', Nat.mod_mul, Nat.mod_mul]
      have hFirst := Nat.mod_lt v (Nat.zero_lt_succ 255)
      have hSecond := Nat.mod_lt w (Nat.zero_lt_succ 255)
      omega

theorem encode_two (w : UInt16) : encode 2 w.toNat = Word.toBytes w := by
  have hLow : UInt8.ofNat w.toNat = Word.low w := by
    rw [← UInt8.toNat_inj, UInt8.toNat_ofNat', Word.toNat_low]
  have hHigh : UInt8.ofNat (w.toNat / 256) = Word.high w := by
    have hWord := w.toNat_lt
    rw [← UInt8.toNat_inj, UInt8.toNat_ofNat', Word.toNat_high]
    omega
  rw [encode, encode, encode, hLow, hHigh, Word.toBytes]

end LittleEndian

namespace AddressSpace

open LittleEndian

variable {m : AddressSpace} {a : UInt16}

theorem write_append (m : AddressSpace) (a : UInt16) (first second : List UInt8) :
    m.write a (first ++ second) = (m.write a first).write (a + .ofNat first.length) second := by
  induction first generalizing m a with
  | nil =>
      show m.write a second = (m.mapData id).write (a + 0) second
      rw [mapData_id, UInt16.add_zero]
  | cons b rest ih =>
      rw [List.cons_append, write_cons, write_cons, ih, List.length_cons, UInt16.ofNat_add,
        UInt16.add_comm (.ofNat rest.length), UInt16.add_assoc]
      rfl

theorem setByte_eq_write (m : AddressSpace) (a : UInt16) (v : UInt8) :
    m.setByte a v = m.write a [v] :=
  rfl

theorem setWord_eq_write (m : AddressSpace) (a v : UInt16) :
    m.setWord a v = m.write a (encode 2 v.toNat) := by
  rw [encode_two, Word.toBytes, write_cons, write_cons]
  exact (mapData_id _).symm

theorem read_two (m : AddressSpace) (a : UInt16) : m.read a 2 = encode 2 (m.word a).toNat := by
  rw [encode_two, Word.toBytes, word, Word.low_ofBytes, Word.high_ofBytes]
  rfl

theorem setLong_eq_write (m : AddressSpace) (a : UInt16) (v : UInt32) :
    m.setLong a v = m.write a (encode 4 v.toNat) := by
  have hLow : encode 2 v.toNat = encode 2 (v.toBitVec.setWidth 16).toNat :=
    encode_eq_iff.2 (by simp [BitVec.toNat_setWidth])
  have hHigh : encode 2 (v.toNat / 256 ^ 2) =
      encode 2 ((v.toBitVec >>> 16).setWidth 16).toNat :=
    encode_eq_iff.2 (by simp [BitVec.toNat_setWidth, Nat.shiftRight_eq_div_pow])
  rw [encode_add 2 2, hLow, hHigh, write_append, length_encode, setLong, setWord_eq_write,
    setWord_eq_write]
  rfl

/-- A double word as a number: two words, the low one first. -/
theorem toNat_long (m : AddressSpace) (a : UInt16) :
    (m.long a).toNat = (m.word a).toNat + 65536 * (m.word (a + 2)).toNat := by
  show ((m.word (a + 2)).toBitVec ++ (m.word a).toBitVec).toNat = _
  rw [BitVec.toNat_append, ← Nat.shiftLeft_add_eq_or_of_lt (m.word a).toBitVec.isLt,
    Nat.shiftLeft_eq, Nat.add_comm, Nat.mul_comm]
  rfl

theorem read_four (m : AddressSpace) (a : UInt16) : m.read a 4 = encode 4 (m.long a).toNat := by
  have hWord := (m.word a).toNat_lt
  have hLow : encode 2 (m.word a).toNat = encode 2 (m.long a).toNat :=
    encode_eq_iff.2 (by rw [toNat_long]; omega)
  have hHigh : encode 2 (m.word (a + 2)).toNat = encode 2 ((m.long a).toNat / 256 ^ 2) :=
    encode_eq_iff.2 (by rw [toNat_long]; omega)
  rw [encode_add 2 2, ← hLow, ← hHigh, ← read_two, ← read_two]
  exact read_add m a 2 2

/-- The bytes from an address on are the given ones. -/
def HoldsBytes (m : AddressSpace) (a : UInt16) (bytes : List UInt8) : Prop :=
  m.read a bytes.length = bytes

theorem holdsBytes_write (m : AddressSpace) (a : UInt16) {bytes : List UInt8}
    (hFits : bytes.length ≤ segmentSize) : (m.write a bytes).HoldsBytes a bytes :=
  read_write m a hFits

/-- A block that is made of parts holds each of them behind the ones before it. -/
theorem holdsBytes_append {first second : List UInt8} :
    m.HoldsBytes a (first ++ second) ↔
      m.HoldsBytes a first ∧ m.HoldsBytes (a + .ofNat first.length) second := by
  rw [HoldsBytes, List.length_append, read_add]
  exact ⟨fun h => List.append_inj h (length_read ..), fun h => congrArg₂ _ h.1 h.2⟩

theorem holdsBytes_byte {v : UInt8} : m.HoldsBytes a [v] ↔ m.byte a = v :=
  List.singleton_inj

theorem holdsBytes_word {v : UInt16} : m.HoldsBytes a (encode 2 v.toNat) ↔ m.word a = v := by
  rw [HoldsBytes, length_encode, read_two, encode_eq_iff, ← UInt16.toNat_inj]
  have hFound := (m.word a).toNat_lt
  have hStored := v.toNat_lt
  omega

theorem holdsBytes_long {v : UInt32} : m.HoldsBytes a (encode 4 v.toNat) ↔ m.long a = v := by
  rw [HoldsBytes, length_encode, read_four, encode_eq_iff, ← UInt32.toNat_inj]
  have hFound := (m.long a).toNat_lt
  have hStored := v.toNat_lt
  omega

/-- A double word reads back as it was stored, also where it wraps. -/
theorem long_setLong (m : AddressSpace) (a : UInt16) (v : UInt32) :
    (m.setLong a v).long a = v := by
  rw [← holdsBytes_long, setLong_eq_write]
  apply holdsBytes_write
  rw [length_encode]
  decide

/-- The second space is the first with bytes stored at an address. They are read back, every byte
at another address is kept, and of the text only a shared one has changed: with the data. -/
structure Stored (a : UInt16) (bytes : List UInt8) (m n : AddressSpace) : Prop where
  holds : n.HoldsBytes a bytes
  kept (b : UInt16) : (∀ i < bytes.length, b.toNat ≠ (a.toNat + i) % segmentSize) →
    n.byte b = m.byte b
  sameText : SameText m n
  shared : m.isSplit = false → n.text = n.data

theorem Stored.write (m : AddressSpace) (a : UInt16) {bytes : List UInt8}
    (hFits : bytes.length ≤ segmentSize) : Stored a bytes m (m.write a bytes) where
  holds := holdsBytes_write m a hFits
  kept b hElsewhere := by
    refine AgreesOutside.write m a bytes b fun r hr hMem => ?_
    obtain rfl := List.mem_singleton.1 hr
    refine hElsewhere _ hMem ?_
    have hBack : b = a + (b - a) := by grind
    conv_lhs => rw [hBack, UInt16.toNat_add]
    rfl
  sameText := (Stores.write m a bytes).sameText
  shared hShared := text_eq_data ((Stores.write m a bytes).sameText.isSplit.trans hShared)

theorem holdsBytes_setTerminated (m : AddressSpace) (a : UInt16) {bytes : List UInt8}
    (hFits : bytes.length < segmentSize) :
    (m.setTerminated a bytes).HoldsBytes a (bytes ++ [0]) := by
  rw [HoldsBytes, List.length_append]
  exact read_setTerminated m a hFits

/-- What there is room for below the top of memory is found again, up to the first zero byte. -/
theorem terminated_setTerminated (m : AddressSpace) (a : UInt16) {bytes : List UInt8}
    (hFits : bytes.length < segmentSize) :
    (m.setTerminated a bytes).terminated a =
      (bytes.take (segmentSize - a.toNat)).takeWhile (· ≠ 0) := by
  have hHolds := holdsBytes_setTerminated m a hFits
  rw [terminated]
  rcases Nat.lt_or_ge bytes.length (segmentSize - a.toNat) with hBelow | hOver
  · have hCount : (bytes ++ [0]).length ≤ segmentSize - a.toNat := by
      rw [List.length_append]
      exact Nat.succ_le_of_lt hBelow
    rw [terminatedWithin_of_zero_mem hHolds (by simp) hCount, List.takeWhile_append,
      List.take_of_length_le (Nat.le_of_lt hBelow)]
    split
    next hAll =>
      exact (List.append_nil _).trans ((List.takeWhile_prefix _).eq_of_length hAll).symm
    next => rfl
  · -- the zero byte is behind the top of memory, where the string is not looked for
    rw [← List.take_append_drop (segmentSize - a.toNat) bytes, List.append_assoc,
      holdsBytes_append, List.take_append_drop] at hHolds
    have hRoom := hHolds.1
    rw [HoldsBytes, List.length_take, Nat.min_eq_left hOver] at hRoom
    rw [terminatedWithin_eq_takeWhile, hRoom]

/-- What is stored at an address is read back from it, whatever the space and wherever the
addresses wrap. A block of bytes, as long as a segment at most, changes no other byte and no text
of its own. Words and double words are stored and loaded as blocks of their bytes, low byte first.
A string without a zero byte comes back whole if its terminator is below the top of memory, and
cut off at the top if it is not. -/
theorem stored_values_are_read_back (m : AddressSpace) (a : UInt16) :
    (∀ bytes : List UInt8, bytes.length ≤ segmentSize → Stored a bytes m (m.write a bytes)) ∧
    (∀ v : UInt16, m.setWord a v = m.write a (encode 2 v.toNat) ∧ (m.setWord a v).word a = v) ∧
    (∀ v : UInt32, m.setLong a v = m.write a (encode 4 v.toNat) ∧ (m.setLong a v).long a = v) ∧
    m.read a 2 = encode 2 (m.word a).toNat ∧
    m.read a 4 = encode 4 (m.long a).toNat ∧
    ∀ bytes : List UInt8, 0 ∉ bytes →
      (a.toNat + bytes.length < segmentSize → (m.setTerminated a bytes).terminated a = bytes) ∧
      (segmentSize ≤ a.toNat + bytes.length → bytes.length < segmentSize →
        (m.setTerminated a bytes).terminated a = bytes.take (segmentSize - a.toNat)) := by
  refine ⟨fun bytes hFits => .write m a hFits,
    fun v => ⟨m.setWord_eq_write a v, m.word_setWord a v⟩,
    fun v => ⟨m.setLong_eq_write a v, m.long_setLong a v⟩, m.read_two a, m.read_four a, ?_⟩
  intro bytes hNonzero
  have hKept (count : Nat) : (bytes.take count).takeWhile (· ≠ 0) = bytes.take count := by
    rw [List.takeWhile_eq_self_iff]
    intro b hMem
    exact decide_eq_true fun hZero => hNonzero (hZero ▸ List.mem_of_mem_take hMem)
  constructor
  · intro hBelow
    rw [terminated_setTerminated m a (by omega), hKept, List.take_of_length_le (by omega)]
  · intro _ hFits
    rw [terminated_setTerminated m a hFits, hKept]

/-- Four bytes at the top of memory, two of which are at the bottom. -/
theorem stored_values_are_read_back_wrapping :
    let bytes : List UInt8 := [0x61, 0x62, 0x63, 0x64]
    let stored := shared.write 0xfffe bytes
    stored.read 0xfffe 4 = bytes ∧ stored.byte 2 = shared.byte 2 ∧ stored.text = stored.data ∧
    (split.setWord 0xffff 0x1234).word 0xffff = 0x1234 ∧
    (split.setLong 0xfffd 0x12345678).long 0xfffd = 0x12345678 ∧
    (split.setTerminated 0xfffb bytes).terminated 0xfffb = bytes ∧
    (split.setTerminated 0xfffe bytes).terminated 0xfffe = [0x61, 0x62] := by
  intro bytes stored
  have hStored := (stored_values_are_read_back shared 0xfffe).1 bytes (by decide)
  have hBelow := (stored_values_are_read_back split 0xfffb).2.2.2.2.2 bytes (by decide)
  have hOver := (stored_values_are_read_back split 0xfffe).2.2.2.2.2 bytes (by decide)
  exact ⟨hStored.holds, hStored.kept 2 (by decide), hStored.shared rfl,
    ((stored_values_are_read_back split 0xffff).2.1 0x1234).2,
    ((stored_values_are_read_back split 0xfffd).2.2.1 0x12345678).2,
    hBelow.1 (by decide), hOver.2 (by decide) (by decide)⟩

end AddressSpace
end VintageUnix
