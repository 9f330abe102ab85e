import Mathlib.Data.List.Forall2
import Mathlib.Data.List.TakeWhile
import VintageUnix.Memory.Strings
import VintageUnix.Proofs.MemoryFrame

/-! Strings that were stored are read back. Decoding undoes encoding, a string without a null
character ends at the zero byte behind it and not before, and stores elsewhere keep it. -/
namespace VintageUnix

namespace Utf8

theorem next_encodeChar (c : Char) (rest : List UInt8) :
    next (String.utf8EncodeChar c ++ rest) = (c, c.utf8Size) := by
  have hWhole : (String.utf8EncodeChar c ++ rest).take 4 =
      String.utf8EncodeChar c ++ rest.take (4 - (String.utf8EncodeChar c).length) := by
    rw [List.take_append, List.take_of_length_le]
    rw [String.length_utf8EncodeChar]
    exact c.utf8Size_le_four
  rw [next, hWhole, List.toByteArray_append, ByteArray.utf8DecodeChar?_utf8EncodeChar_append]

theorem decodeChars_encodeChar (c : Char) (rest : List UInt8) :
    decodeChars (String.utf8EncodeChar c ++ rest) = c :: decodeChars rest := by
  have hNext := next_encodeChar c rest
  have hLength := String.length_utf8EncodeChar c
  cases hBytes : String.utf8EncodeChar c with
  | nil => exact absurd hBytes String.utf8EncodeChar_ne_nil
  | cons b tail =>
      rw [hBytes] at hNext hLength
      simp only [List.cons_append] at hNext ⊢
      rw [decodeChars, hNext]
      simp [← hLength]

theorem decodeChars_flatMap (chars : List Char) :
    decodeChars (chars.flatMap String.utf8EncodeChar) = chars := by
  induction chars with
  | nil => simp [decodeChars]
  | cons c chars ih => rw [List.flatMap_cons, decodeChars_encodeChar, ih]

/-- A text is read from its own bytes. -/
@[simp] theorem decode_encode (text : String) : decode (encode text) = text := by
  rw [decode, encode, decodeChars_flatMap, String.ofList_toList]

@[simp] theorem length_encode (text : String) : (encode text).length = text.utf8ByteSize := by
  have hBytes : (encode text).toByteArray = text.toByteArray := String.utf8Encode_toList
  rw [← List.size_toByteArray, hBytes, String.size_toByteArray]

theorem zero_ne_or (a : UInt8) {b : UInt8} (h : b ≠ 0) : 0 ≠ a ||| b :=
  fun hZero => h (UInt8.or_eq_zero_iff.1 hZero.symm).2

/-- Only the null character has a zero byte. The bytes of a longer character all have
their top bit set. -/
theorem eq_null_of_zero_mem {c : Char} (h : 0 ∈ String.utf8EncodeChar c) : c = '\x00' := by
  rcases c.utf8Size_eq with hSize | hSize | hSize | hSize
  · have hSmall : c.val ≤ 127 := Char.utf8Size_eq_one_iff.1 hSize
    rw [String.utf8EncodeChar_eq_singleton hSize, List.mem_singleton] at h
    have hLow : c.val.toNat % 2 ^ 8 = 0 := by
      rw [← UInt32.toNat_toUInt8, ← h]
      rfl
    have hZero : c.val.toNat = 0 := by
      rw [UInt32.le_iff_toNat_le] at hSmall
      change c.val.toNat ≤ 127 at hSmall
      omega
    exact Char.ext (UInt32.toNat_inj.1 hZero)
  · simp [String.utf8EncodeChar_eq_cons_cons hSize, zero_ne_or] at h
  · simp [String.utf8EncodeChar_eq_cons_cons_cons hSize, zero_ne_or] at h
  · simp [String.utf8EncodeChar_eq_cons_cons_cons_cons hSize, zero_ne_or] at h

theorem zero_not_mem_encode {text : String} (h : '\x00' ∉ text.toList) : 0 ∉ encode text := by
  intro hZero
  obtain ⟨c, hChar, hByte⟩ := List.mem_flatMap.1 hZero
  rw [eq_null_of_zero_mem hByte] at hChar
  exact h hChar

/-- Bytes survive decoding exactly if they are valid. -/
theorem encode_decode_eq_iff (bytes : List UInt8) :
    encode (decode bytes) = bytes ↔ bytes.toByteArray.IsValidUTF8 := by
  constructor
  · intro h
    exact .intro (decode bytes).toList (congrArg List.toByteArray h.symm)
  · rintro ⟨chars, hChars⟩
    rw [List.toByteArray_inj.1 hChars, decode, encode, decodeChars_flatMap, String.toList_ofList]

/-- A character is never longer than four bytes, and a null character is a zero byte. -/
theorem next_ne_null {bytes : List UInt8} (h : 0 ∉ bytes) : (next bytes).1 ≠ '\x00' := by
  unfold next
  split
  next c hChar =>
    rintro rfl
    obtain ⟨rest, hRest⟩ := ByteArray.exists_of_utf8DecodeChar?_eq_some hChar
    have hNull : String.utf8EncodeChar '\x00' = [0] := rfl
    have hBytes : bytes.take 4 = 0 :: rest.data.toList := by
      simpa [hNull] using congrArg (fun b => b.data.toList) hRest
    exact h (List.mem_of_mem_take (hBytes ▸ List.mem_cons_self))
  · change replacement ≠ '\x00'
    decide

theorem null_not_mem_decodeChars {bytes : List UInt8} (h : 0 ∉ bytes) :
    '\x00' ∉ decodeChars bytes := by
  induction bytes using decodeChars.induct with
  | case1 => simp [decodeChars]
  | case2 b rest first ih =>
      have hRest : 0 ∉ rest.drop (first.2 - 1) := fun hMem =>
        h (List.mem_cons_of_mem _ (List.mem_of_mem_drop hMem))
      rw [decodeChars, List.mem_cons, not_or]
      exact ⟨(next_ne_null h).symm, ih hRest⟩

theorem null_not_mem_decode {bytes : List UInt8} (h : 0 ∉ bytes) :
    '\x00' ∉ (decode bytes).toList := by
  rw [decode, String.toList_ofList]
  exact null_not_mem_decodeChars h

end Utf8

namespace AddressSpace

variable {m n : AddressSpace}

theorem write_cons (m : AddressSpace) (a : UInt16) (b : UInt8) (rest : List UInt8) :
    m.write a (b :: rest) = (m.setByte a b).write (a + 1) rest := by
  rw [setByte, write, write, mapData_mapData]
  rfl

/-- Bytes that do not come round to their own start are there after they are written. -/
theorem byte_write (m : AddressSpace) (a : UInt16) {bytes : List UInt8} {i : Nat}
    (hFits : bytes.length ≤ segmentSize) (h : i < bytes.length) :
    (m.write a bytes).byte (a + .ofNat i) = bytes[i] := by
  induction bytes generalizing m a i with
  | nil => cases h
  | cons b rest ih =>
      rw [write_cons]
      cases i with
      | zero =>
          have hBehind := Region.not_mem_next a (Nat.lt_of_succ_le hFits)
          change ((m.setByte a b).write (a + 1) rest).byte (a + 0) = b
          rw [UInt16.add_zero, AgreesOutside.write _ (a + 1) rest a (by simpa using hBehind)]
          simp [byte_setByte]
      | succ i =>
          have hNext := ih (m.setByte a b) (a + 1) (Nat.le_of_succ_le hFits)
            (Nat.lt_of_succ_lt_succ h)
          rwa [UInt16.add_assoc, UInt16.add_comm 1, ← UInt16.ofNat_one, ← UInt16.ofNat_add] at hNext

/-- Where the words are the same, so are the bytes. -/
theorem byte_of_words {address : UInt16} {count : Nat}
    (h : ∀ k < count, n.word (address + .ofNat (2 * k)) = m.word (address + .ofNat (2 * k)))
    {i : Nat} (hi : i < 2 * count) :
    n.byte (address + .ofNat i) = m.byte (address + .ofNat i) := by
  obtain ⟨k, hk | hk⟩ : ∃ k, i = 2 * k ∨ i = 2 * k + 1 := ⟨i / 2, by omega⟩
  · have hLow := congrArg Word.low (h k (by omega))
    rwa [word, word, Word.low_ofBytes, Word.low_ofBytes, ← hk] at hLow
  · have hHigh := congrArg Word.high (h k (by omega))
    rw [word, word, Word.high_ofBytes, Word.high_ofBytes] at hHigh
    rw [hk, UInt16.ofNat_add, ← UInt16.add_assoc]
    exact hHigh

theorem setTerminated_nil (m : AddressSpace) (a : UInt16) :
    m.setTerminated a [] = m.setByte a 0 := by
  change (m.mapData id).setByte (a + 0) 0 = m.setByte a 0
  rw [mapData_id, UInt16.add_zero]

theorem setTerminated_cons (m : AddressSpace) (a : UInt16) (b : UInt8) (rest : List UInt8) :
    m.setTerminated a (b :: rest) = (m.setByte a b).setTerminated (a + 1) rest := by
  rw [setTerminated, setTerminated, write_cons, List.length_cons, UInt16.ofNat_add,
    UInt16.add_comm (.ofNat rest.length), UInt16.add_assoc]
  rfl

theorem StoresWithin.setTerminated (m : AddressSpace) (a : UInt16) (bytes : List UInt8) :
    StoresWithin [⟨a, bytes.length + 1⟩] m (m.setTerminated a bytes) := by
  have hOffset : (UInt16.ofNat bytes.length).toNat ≤ bytes.length := by
    rw [UInt16.toNat_ofNat']
    exact Nat.mod_le _ _
  exact ((StoresWithin.write m a bytes).front (Nat.le_succ _)).trans
    ((StoresWithin.setByte _ _ 0).part (Nat.succ_le_succ hOffset))

/-- A string that does not come round to its own start is there, and its zero byte. -/
theorem read_setTerminated (m : AddressSpace) (a : UInt16) {bytes : List UInt8}
    (hFits : bytes.length < segmentSize) :
    (m.setTerminated a bytes).read a (bytes.length + 1) = bytes ++ [0] := by
  induction bytes generalizing m a with
  | nil =>
      have hZero : (m.setByte a 0).byte a = 0 := by simp [byte_setByte]
      rw [setTerminated_nil]
      exact congrArg ([·]) hZero
  | cons b rest ih =>
      have hRest : rest.length + 1 < segmentSize := by simpa using hFits
      have hFirst : ((m.setByte a b).setTerminated (a + 1) rest).byte a = b := by
        have hBehind := Region.not_mem_next a hRest
        rw [(StoresWithin.setTerminated _ (a + 1) rest).agrees a (by simpa using hBehind)]
        simp [byte_setByte]
      have hTail := ih (m.setByte a b) (a + 1) (Nat.lt_of_succ_lt hRest)
      rw [setTerminated_cons]
      exact congrArg₂ List.cons hFirst hTail

@[simp] theorem length_read (m : AddressSpace) (a : UInt16) (count : Nat) :
    (m.read a count).length = count := by
  induction count generalizing a with
  | zero => rfl
  | succ count ih => exact congrArg Nat.succ (ih (a + 1))

theorem read_add (m : AddressSpace) (a : UInt16) (first second : Nat) :
    m.read a (first + second) = m.read a first ++ m.read (a + .ofNat first) second :=
  m.data.read_add a first second

theorem read_eq {address : UInt16} {bytes : List UInt8}
    (h : ∀ i (hi : i < bytes.length), m.byte (address + .ofNat i) = bytes[i]) :
    m.read address bytes.length = bytes := by
  induction bytes generalizing address with
  | nil => rfl
  | cons b rest ih =>
      have hFirst : m.byte address = b := by simpa using h 0 (Nat.zero_lt_succ _)
      have hRest := @ih (address + 1) fun i hi => by
        rw [UInt16.add_assoc, UInt16.add_comm 1]
        simpa [UInt16.ofNat_add] using h (i + 1) (Nat.succ_lt_succ hi)
      exact congrArg₂ List.cons hFirst hRest

/-- Bytes that are written to memory are read from it. -/
theorem read_write (m : AddressSpace) (address : UInt16) {bytes : List UInt8}
    (hFits : bytes.length ≤ segmentSize) :
    (m.write address bytes).read address bytes.length = bytes :=
  read_eq fun _ hInside => byte_write m address hFits hInside

/-- The bytes that are read depend on nothing else. -/
theorem read_congr {first count : Nat}
    (h : ∀ i, first ≤ i → i < first + count → n.byte (.ofNat i) = m.byte (.ofNat i)) :
    n.read (.ofNat first) count = m.read (.ofNat first) count := by
  induction count generalizing first with
  | zero => rfl
  | succ count ih =>
      have hFirst := h first (Nat.le_refl _) (by omega)
      have hRest := @ih (first + 1) fun i hLow hHigh => h i (by omega) (by omega)
      rw [UInt16.ofNat_add] at hRest
      exact congrArg₂ List.cons hFirst hRest

theorem word_congr {first : Nat} (hLow : n.byte (.ofNat first) = m.byte (.ofNat first))
    (hHigh : n.byte (.ofNat (first + 1)) = m.byte (.ofNat (first + 1))) :
    n.word (.ofNat first) = m.word (.ofNat first) := by
  rw [UInt16.ofNat_add] at hHigh
  exact congrArg₂ Word.ofBytes hLow hHigh

theorem terminatedWithin_eq_takeWhile (m : AddressSpace) (a : UInt16) (count : Nat) :
    m.terminatedWithin a count = (m.read a count).takeWhile (· ≠ 0) := by
  induction count generalizing a with
  | zero => rfl
  | succ count ih =>
      show _ = (m.byte a :: m.read (a + 1) count).takeWhile (· ≠ 0)
      by_cases hEnd : m.byte a = 0
      · simp [terminatedWithin, hEnd]
      · simp [terminatedWithin, hEnd, ih]

/-- A string ends before the first zero byte. -/
theorem terminatedWithin_of_zero_mem {address : UInt16} {bytes : List UInt8} {count : Nat}
    (h : m.read address bytes.length = bytes) (hZero : 0 ∈ bytes) (hCount : bytes.length ≤ count) :
    m.terminatedWithin address count = bytes.takeWhile (· ≠ 0) := by
  obtain ⟨behind, rfl⟩ := Nat.exists_eq_add_of_le hCount
  have hStops : (bytes.takeWhile (· ≠ 0)).length ≠ bytes.length := by
    intro hAll
    rw [← (List.takeWhile_prefix _).eq_of_length hAll] at hZero
    simpa using List.mem_takeWhile_imp hZero
  rw [terminatedWithin_eq_takeWhile, read_add, h, List.takeWhile_append, if_neg hStops]

theorem terminatedWithin_of_read {address : UInt16} {bytes : List UInt8} {count : Nat}
    (h : m.read address (bytes.length + 1) = bytes ++ [0]) (hNonzero : 0 ∉ bytes)
    (hCount : bytes.length < count) : m.terminatedWithin address count = bytes := by
  have hBytes : m.read address (bytes ++ [0]).length = bytes ++ [0] := by simpa using h
  have hKept : ∀ b ∈ bytes, decide (b ≠ 0) = true := fun b hMem =>
    decide_eq_true fun hZero => hNonzero (hZero ▸ hMem)
  have hFits : (bytes ++ [0]).length ≤ count := by
    rw [List.length_append]
    exact hCount
  rw [terminatedWithin_of_zero_mem hBytes (by simp) hFits, List.takeWhile_append_of_pos hKept]
  simp

/-- There is only one string at an address. -/
theorem eq_of_read {address : UInt16} {first second : List UInt8}
    (hFirst : m.read address (first.length + 1) = first ++ [0])
    (hSecond : m.read address (second.length + 1) = second ++ [0])
    (hNonzero : 0 ∉ first) (hOther : 0 ∉ second) : first = second := by
  let count := first.length + second.length + 1
  calc first
    _ = m.terminatedWithin address count :=
      (terminatedWithin_of_read hFirst hNonzero (by omega)).symm
    _ = second := terminatedWithin_of_read hSecond hOther (by omega)

theorem zero_not_mem_terminatedWithin (m : AddressSpace) (address : UInt16) (count : Nat) :
    0 ∉ m.terminatedWithin address count := by
  induction count generalizing address with
  | zero => exact List.not_mem_nil
  | succ count ih =>
      simp only [terminatedWithin]
      split
      · exact List.not_mem_nil
      next hNonzero =>
        exact fun hMem => (List.mem_cons.1 hMem).elim (Ne.symm hNonzero) (ih (address + 1))

theorem null_not_mem_stringAt (m : AddressSpace) (address : UInt16) :
    '\x00' ∉ (m.stringAt address).toList :=
  Utf8.null_not_mem_decode (zero_not_mem_terminatedWithin m address _)

/-- A string that ends below the top of memory is read as the text that was encoded. -/
theorem stringAt_of_read {address : UInt16} {text : String}
    (h : m.read address (text.utf8ByteSize + 1) = Utf8.encode text ++ [0])
    (hText : '\x00' ∉ text.toList) (hTop : address.toNat + text.utf8ByteSize < segmentSize) :
    m.stringAt address = text := by
  rw [← Utf8.length_encode] at h hTop
  have hBytes : m.terminated address = Utf8.encode text :=
    terminatedWithin_of_read h (Utf8.zero_not_mem_encode hText) (by omega)
  rw [stringAt, hBytes, Utf8.decode_encode]

/-- The words from an address on, `count` of them. -/
def words (m : AddressSpace) (address : UInt16) : (count : Nat) → List UInt16
  | 0 => []
  | count + 1 => m.word address :: m.words (address + 2) count

@[simp] theorem length_words (m : AddressSpace) (address : UInt16) (count : Nat) :
    (m.words address count).length = count := by
  induction count generalizing address with
  | zero => rfl
  | succ count ih => exact congrArg Nat.succ (ih (address + 2))

/-- The place of a pointer, counted from the one before it. -/
theorem add_ofNat_two_mul_succ (address : UInt16) (i : Nat) :
    address + .ofNat (2 * (i + 1)) = address + 2 + .ofNat (2 * i) := by
  rw [Nat.mul_add, UInt16.ofNat_add, UInt16.add_comm (.ofNat (2 * i)), UInt16.add_assoc]
  rfl

theorem getElem_words (m : AddressSpace) (address : UInt16) {count i : Nat}
    (hi : i < (m.words address count).length) :
    (m.words address count)[i] = m.word (address + .ofNat (2 * i)) := by
  induction count generalizing address i with
  | zero => cases hi
  | succ count ih =>
      cases i with
      | zero => exact congrArg m.word (UInt16.add_zero address).symm
      | succ i =>
          rw [add_ofNat_two_mul_succ]
          exact ih (address + 2) (Nat.lt_of_succ_lt_succ hi)

theorem words_eq {address : UInt16} {words : List UInt16}
    (h : ∀ i (hi : i < words.length), m.word (address + .ofNat (2 * i)) = words[i]) :
    m.words address words.length = words :=
  List.ext_getElem (length_words ..) fun i hi hWords =>
    (getElem_words m address hi).trans (h i hWords)

/-- The words from an address on point at the texts in order, and a zero byte ends each. -/
def PointsAt (m : AddressSpace) (address : UInt16) (texts : List String) : Prop :=
  List.Forall₂
    (fun pointer text => m.read pointer (text.utf8ByteSize + 1) = Utf8.encode text ++ [0] ∧
      m.stringAt pointer = text)
    (m.words address texts.length) texts

/-- The string that one of the words points at. -/
theorem PointsAt.read_getElem {address : UInt16} {texts : List String}
    (h : m.PointsAt address texts) {i : Nat} (hi : i < texts.length) :
    m.read (m.word (address + .ofNat (2 * i))) (texts[i].utf8ByteSize + 1) =
      Utf8.encode texts[i] ++ [0] := by
  have hWord : i < (m.words address texts.length).length := (length_words ..).symm ▸ hi
  have hText := (h.get hWord hi).1
  rwa [List.get_eq_getElem, List.get_eq_getElem, getElem_words] at hText

/-- Pointers and a null pointer behind them are an array of the strings they point at. -/
theorem stringsWithin_of_pointers {address : UInt16} {pointers : List UInt16} {count : Nat}
    (hPointers : m.words address pointers.length = pointers) (hNonzero : 0 ∉ pointers)
    (hEnd : m.word (address + .ofNat (2 * pointers.length)) = 0)
    (hCount : pointers.length < count) :
    m.stringsWithin address count = pointers.map m.stringAt := by
  induction pointers generalizing address count with
  | nil =>
      obtain ⟨count, rfl⟩ := Nat.exists_eq_succ_of_ne_zero (Nat.ne_zero_of_lt hCount)
      have hZero : m.word address = 0 := by simpa using hEnd
      simp [stringsWithin, hZero]
  | cons pointer rest ih =>
      obtain ⟨count, rfl⟩ := Nat.exists_eq_succ_of_ne_zero (Nat.ne_zero_of_lt hCount)
      obtain ⟨hFirst, hRest⟩ := List.cons.inj hPointers
      obtain ⟨hPointer, hNonzero⟩ := not_or.1 (fun hMem => hNonzero (List.mem_cons.2 hMem))
      have hTail := ih hRest hNonzero (add_ofNat_two_mul_succ address rest.length ▸ hEnd)
        (Nat.lt_of_succ_lt_succ hCount)
      simp [stringsWithin, hFirst, Ne.symm hPointer, hTail]

/-- Pointers to texts and a null pointer behind them are an array of these texts. -/
theorem stringsWithin_of_pointsAt {address : UInt16} {texts : List String} {count : Nat}
    (h : m.PointsAt address texts) (hPointers : 0 ∉ m.words address texts.length)
    (hEnd : m.word (address + .ofNat (2 * texts.length)) = 0) (hCount : texts.length < count) :
    m.stringsWithin address count = texts := by
  have hTexts : (m.words address texts.length).map m.stringAt = texts :=
    List.forall₂_eq_eq_eq ▸ List.forall₂_map_left_iff.2 (h.imp fun _ _ hText => hText.2)
  rw [← length_words m address texts.length] at hEnd hCount
  rw [stringsWithin_of_pointers (by rw [length_words]) hPointers hEnd hCount, hTexts]

end AddressSpace
end VintageUnix
