import VintageUnix.Proofs.ExecFrames
import VintageUnix.Proofs.FileNumbers

/-! What a new program finds of a well-formed argument frame. Its pointers address at the top of
memory what they addressed in the frame, and all other memory is as the program was loaded. -/
namespace VintageUnix.Minix

open AddressSpace (AgreesOutside)

/-- An argument frame by its parts. The pointers are offsets from its start. -/
structure ArgumentFrame where
  count : UInt16
  arguments : List UInt16
  environment : List UInt16
  strings : List UInt8

namespace ArgumentFrame

/-- The count and both pointer arrays, each ended by a null pointer. -/
def words (f : ArgumentFrame) : List UInt16 :=
  f.count :: (f.arguments ++ 0 :: (f.environment ++ [0]))

def bytes (f : ArgumentFrame) : List UInt8 :=
  f.words.flatMap Word.toBytes ++ f.strings

/-- How much of the frame its words take. -/
def tableSize (f : ArgumentFrame) : Nat :=
  2 * f.words.length

/-- The string at an offset, up to the first zero byte. -/
def stringAt (f : ArgumentFrame) (offset : UInt16) : String :=
  Utf8.decode ((f.bytes.drop offset.toNat).takeWhile (· ≠ 0))

/-- Every pointer addresses a string behind the words that ends inside the frame. -/
structure WellFormed (f : ArgumentFrame) : Prop where
  behind : ∀ offset ∈ f.arguments ++ f.environment, f.tableSize ≤ offset.toNat
  ends : ∀ offset ∈ f.arguments ++ f.environment, 0 ∈ f.bytes.drop offset.toNat

/-- The frame as it is when it starts at `base`, with addresses for its pointers. -/
def moved (f : ArgumentFrame) (base : UInt16) : ArgumentFrame :=
  { f with
    arguments := f.arguments.map (base + ·)
    environment := f.environment.map (base + ·) }

variable {f : ArgumentFrame}

theorem length_words (f : ArgumentFrame) :
    f.words.length = f.arguments.length + 2 + f.environment.length + 1 := by
  simp only [words, List.length_cons, List.length_append, List.length_nil]
  omega

theorem length_bytes (f : ArgumentFrame) : f.bytes.length = f.tableSize + f.strings.length := by
  rw [bytes, List.length_append, length_flatMap_toBytes, tableSize]

/-- How long a frame is, by its parts. -/
theorem length_eq (f : ArgumentFrame) : f.bytes.length =
    2 * (f.arguments.length + 2 + f.environment.length + 1) + f.strings.length := by
  rw [length_bytes, tableSize, length_words]

theorem word_argument {i : Nat} {offset : UInt16} (h : f.arguments[i]? = some offset) :
    f.words[i + 1]? = some offset := by
  have hBound := (List.getElem?_eq_some_iff.1 h).1
  rw [words, List.getElem?_cons_succ, List.getElem?_append_left hBound, h]

theorem word_first_null (f : ArgumentFrame) : f.words[f.arguments.length + 1]? = some 0 := by
  simp [words]

theorem word_environment {i : Nat} {offset : UInt16} (h : f.environment[i]? = some offset) :
    f.words[f.arguments.length + 2 + i]? = some offset := by
  have hBound := (List.getElem?_eq_some_iff.1 h).1
  have hIndex : f.arguments.length + 2 + i = f.arguments.length + (i + 1) + 1 := by omega
  rw [hIndex, words, List.getElem?_cons_succ, List.getElem?_append_right (by omega),
    Nat.add_sub_cancel_left, List.getElem?_cons_succ, List.getElem?_append_left hBound, h]

theorem word_second_null (f : ArgumentFrame) :
    f.words[f.arguments.length + 2 + f.environment.length]? = some 0 := by
  have hIndex : f.arguments.length + 2 + f.environment.length =
      f.arguments.length + (f.environment.length + 1) + 1 := by omega
  rw [hIndex, words, List.getElem?_cons_succ, List.getElem?_append_right (by omega)]
  simp

theorem frameWord_bytes {k : Nat} {w : UInt16} (h : f.words[k]? = some w) :
    frameWord f.bytes k = w := by
  obtain ⟨hk, rfl⟩ := List.getElem?_eq_some_iff.1 h
  obtain ⟨hLow, hHigh⟩ := (fileWord_eq_iff _ _ _).1 (fileWord_flatMap_toBytes f.strings hk)
  rw [fileByte] at hLow hHigh
  rw [frameWord, bytes, hLow, hHigh, Word.ofBytes_low_high]

/-- A placed frame has its words at the top of memory. -/
theorem word_write {k : Nat} {w : UInt16} (m : AddressSpace)
    (hLength : f.bytes.length < segmentSize) (h : f.words[k]? = some w) :
    (m.write (frameStart f.bytes) f.bytes).word (frameStart f.bytes + .ofNat (2 * k)) = w := by
  have hk := (List.getElem?_eq_some_iff.1 h).1
  have hInside : 2 * k + 1 < f.bytes.length := by
    rw [length_bytes, tableSize]
    omega
  exact (word_placed m hLength hInside).trans (frameWord_bytes h)

theorem tableSize_moved (f : ArgumentFrame) (base : UInt16) :
    (f.moved base).tableSize = f.tableSize := by
  simp only [tableSize, length_words, moved, List.length_map]

theorem length_bytes_moved (f : ArgumentFrame) (base : UInt16) :
    (f.moved base).bytes.length = f.bytes.length := by
  rw [length_bytes, length_bytes, tableSize_moved]
  rfl

theorem frameStart_moved (f : ArgumentFrame) (base : UInt16) :
    frameStart (f.moved base).bytes = frameStart f.bytes := by
  rw [frameStart, length_bytes_moved, frameStart]

/-- Behind the words nothing changes. -/
theorem drop_bytes_moved (f : ArgumentFrame) (base : UInt16) {k : Nat} (hk : f.tableSize ≤ k) :
    (f.moved base).bytes.drop k = f.bytes.drop k := by
  have hWords (g : ArgumentFrame) (hTable : g.tableSize = f.tableSize) :
      g.bytes.drop k = g.strings.drop (k - f.tableSize) := by
    have hLength : (g.words.flatMap Word.toBytes).length = f.tableSize := by
      rw [length_flatMap_toBytes, ← hTable, tableSize]
    rw [bytes, List.drop_append, List.drop_of_length_le (hLength ▸ hk), hLength, List.nil_append]
  rw [hWords f rfl, hWords _ (tableSize_moved f base)]
  rfl

theorem getElem?_bytes_moved (f : ArgumentFrame) (base : UInt16) {i : Nat}
    (hi : f.tableSize ≤ i) : (f.moved base).bytes[i]? = f.bytes[i]? := by
  have hFirst := congrArg (·[0]?) (f.drop_bytes_moved base hi)
  simpa only [List.getElem?_drop, Nat.add_zero] using hFirst

/-- Every word of a frame is its count, a pointer of one of the arrays, or one of the
null pointers behind them. -/
theorem word_cases {k : Nat} (hk : k < f.words.length) :
    k = 0 ∨ (∃ i < f.arguments.length, k = i + 1) ∨ k = f.arguments.length + 1 ∨
      (∃ i < f.environment.length, k = f.arguments.length + 2 + i) ∨
      k = f.arguments.length + 2 + f.environment.length := by
  rw [length_words] at hk
  rcases Nat.lt_trichotomy k (f.arguments.length + 1) with hFirst | rfl | hBehind
  · cases k with
    | zero => exact .inl rfl
    | succ i => exact .inr (.inl ⟨i, Nat.lt_of_succ_lt_succ hFirst, rfl⟩)
  · exact .inr (.inr (.inl rfl))
  · rcases Nat.lt_or_ge (k - (f.arguments.length + 2)) f.environment.length with hSecond | hLast
    · exact .inr (.inr (.inr (.inl ⟨_, hSecond, by omega⟩)))
    · exact .inr (.inr (.inr (.inr (by omega))))

namespace WellFormed

variable (hWell : f.WellFormed)

include hWell

/-- No pointer is null, since none addresses the words. -/
theorem ne_zero {offset : UInt16} (hMem : offset ∈ f.arguments ++ f.environment) : offset ≠ 0 := by
  intro hZero
  have hBehind := hWell.behind offset hMem
  rw [hZero, tableSize, length_words] at hBehind
  change 2 * _ ≤ 0 at hBehind
  omega

theorem lt_length {offset : UInt16} (hMem : offset ∈ f.arguments ++ f.environment) :
    offset.toNat < f.bytes.length := by
  by_contra hBeyond
  have hEnds := hWell.ends offset hMem
  rw [List.drop_of_length_le (Nat.not_lt.1 hBeyond)] at hEnds
  cases hEnds

/-- A moved pointer stays below the top of memory. -/
theorem toNat_pointer (hLength : f.bytes.length < segmentSize) {offset : UInt16}
    (hMem : offset ∈ f.arguments ++ f.environment) :
    (frameStart f.bytes + offset).toNat = segmentSize - f.bytes.length + offset.toNat := by
  have hInside := hWell.lt_length hMem
  rw [UInt16.toNat_add, toNat_frameStart hLength (Nat.zero_lt_of_lt hInside)]
  exact Nat.mod_eq_of_lt (by simp only [segmentSize] at *; omega)

end WellFormed
end ArgumentFrame

/-- A scan stops at the first null pointer. -/
theorem Scan.eq_of_null {base address : UInt16} {count k j : Nat} {m n : AddressSpace}
    (h : Scan base count address m k n)
    (hNonzero : ∀ i < j, m.word (address + .ofNat (2 * i)) ≠ 0)
    (hNull : m.word (address + .ofNat (2 * j)) = 0) (hCount : j ≤ count) : k = j := by
  rcases Nat.lt_trichotomy k j with hLess | hEq | hGreater
  · exact absurd (h.stops (Nat.lt_of_lt_of_le hLess hCount)) (hNonzero k hLess)
  · exact hEq
  · exact absurd hNull (h.nonzero j hGreater)

namespace Placed

variable {f : ArgumentFrame} {m middle n : AddressSpace} {first second : Nat}
  (h : Placed f.bytes m first second middle n) (hLength : f.bytes.length < segmentSize)
  (hWell : f.WellFormed)

include h hLength hWell

/-- The first scan relocates the arguments. -/
theorem first_eq : first = f.arguments.length := by
  have hSize := f.length_eq
  have hPlace (i : Nat) : 2 + 2 * i = 2 * (i + 1) := by omega
  refine h.arguments.eq_of_null (fun i hi => ?_) ?_ (by omega)
  · rw [offset_add, hPlace, ArgumentFrame.word_write m hLength
      (ArgumentFrame.word_argument (List.getElem?_eq_getElem hi))]
    exact hWell.ne_zero (List.mem_append_left _ (List.getElem_mem hi))
  · rw [offset_add, hPlace, ArgumentFrame.word_write m hLength f.word_first_null]

/-- The second scan relocates the environment. -/
theorem second_eq : second = f.environment.length := by
  obtain rfl := h.first_eq hLength hWell
  have hSize := f.length_eq
  have hPlace (i : Nat) :
      2 * f.arguments.length + 4 + 2 * i = 2 * (f.arguments.length + 2 + i) := by
    omega
  refine h.environment.eq_of_null (fun i hi => ?_) ?_ (by omega)
  · rw [offset_add, hPlace, h.word_middle (by omega) (by omega), ArgumentFrame.word_write m hLength
      (ArgumentFrame.word_environment (List.getElem?_eq_getElem hi))]
    exact hWell.ne_zero (List.mem_append_right _ (List.getElem_mem hi))
  · rw [offset_add, hPlace, h.word_middle (by omega) (by omega),
      ArgumentFrame.word_write m hLength f.word_second_null]

/-- A word that neither scan comes to is as it was placed. -/
theorem word_kept {k : Nat} {w : UInt16} (hWord : f.words[k]? = some w)
    (hArguments : k < 1 ∨ f.arguments.length + 1 ≤ k)
    (hEnvironment : k < f.arguments.length + 2 ∨
      f.arguments.length + 2 + f.environment.length ≤ k) :
    n.word (frameStart f.bytes + .ofNat (2 * k)) = w := by
  have hSize := f.length_eq
  have hk := (List.getElem?_eq_some_iff.1 hWord).1
  rw [ArgumentFrame.length_words] at hk
  obtain rfl := h.first_eq hLength hWell
  obtain rfl := h.second_eq hLength hWell
  rw [h.environment.kept.word_offset (by omega) (by omega) (by omega),
    h.arguments.kept.word_offset (by omega) (by omega) (by omega),
    ArgumentFrame.word_write m hLength hWord]

theorem word_relocated_argument {i : Nat} (hi : i < f.arguments.length) :
    n.word (frameStart f.bytes + .ofNat (2 * (i + 1))) =
      frameStart f.bytes + f.arguments[i] := by
  have hSize := f.length_eq
  obtain rfl := h.first_eq hLength hWell
  obtain rfl := h.second_eq hLength hWell
  have hPlace : 2 * (i + 1) = 2 + 2 * i := by omega
  have hMoved := h.arguments.moved i hi
  rw [offset_add, ← hPlace, ArgumentFrame.word_write m hLength
    (ArgumentFrame.word_argument (List.getElem?_eq_getElem hi))] at hMoved
  rw [h.environment.kept.word_offset (by omega) (by omega) (by omega), hMoved]

theorem word_relocated_environment {i : Nat} (hi : i < f.environment.length) :
    n.word (frameStart f.bytes + .ofNat (2 * (f.arguments.length + 2 + i))) =
      frameStart f.bytes + f.environment[i] := by
  have hSize := f.length_eq
  obtain rfl := h.first_eq hLength hWell
  obtain rfl := h.second_eq hLength hWell
  have hPlace : 2 * f.arguments.length + 4 + 2 * i = 2 * (f.arguments.length + 2 + i) := by omega
  have hMoved := h.environment.moved i hi
  rwa [offset_add, hPlace, h.word_middle (by omega) (by omega), ArgumentFrame.word_write m hLength
    (ArgumentFrame.word_environment (List.getElem?_eq_getElem hi))] at hMoved

/-- The words of the frame are those of the moved one. -/
theorem word_moved {k : Nat} {w : UInt16}
    (hWord : (f.moved (frameStart f.bytes)).words[k]? = some w) :
    n.word (frameStart f.bytes + .ofNat (2 * k)) = w := by
  let g := f.moved (frameStart f.bytes)
  have hArguments : g.arguments.length = f.arguments.length := List.length_map _
  have hEnvironment : g.environment.length = f.environment.length := List.length_map _
  have hk : k < g.words.length := (List.getElem?_eq_some_iff.1 hWord).1
  rcases g.word_cases hk with rfl | ⟨i, hi, rfl⟩ | rfl | ⟨i, hi, rfl⟩ | rfl
  · exact h.word_kept hLength hWell (k := 0) hWord (by omega) (by omega)
  · have hPointer := g.word_argument (List.getElem?_eq_getElem hi)
    obtain rfl := Option.some.inj (hPointer.symm.trans hWord)
    rw [h.word_relocated_argument hLength hWell (hArguments ▸ hi)]
    exact (List.getElem_map _).symm
  · obtain rfl := Option.some.inj (g.word_first_null.symm.trans hWord)
    rw [hArguments]
    exact h.word_kept hLength hWell f.word_first_null (by omega) (by omega)
  · have hPointer := g.word_environment (List.getElem?_eq_getElem hi)
    obtain rfl := Option.some.inj (hPointer.symm.trans hWord)
    rw [hArguments, h.word_relocated_environment hLength hWell (hEnvironment ▸ hi)]
    exact (List.getElem_map _).symm
  · obtain rfl := Option.some.inj (g.word_second_null.symm.trans hWord)
    rw [hArguments, hEnvironment]
    exact h.word_kept hLength hWell f.word_second_null (by omega) (by omega)

/-- Behind the words the frame stands as it was. -/
theorem byte_behind_words {i : Nat} (hTable : f.tableSize ≤ i) (hi : i < f.bytes.length) :
    n.byte (frameStart f.bytes + .ofNat i) = f.bytes[i] := by
  have hWords := f.length_words
  rw [ArgumentFrame.tableSize] at hTable
  obtain rfl := h.first_eq hLength hWell
  obtain rfl := h.second_eq hLength hWell
  rw [h.environment.kept.byte_offset (by omega) (by omega) (by omega),
    h.arguments.kept.byte_offset (by omega) (by omega) (by omega),
    AddressSpace.byte_write m _ (Nat.le_of_lt hLength) hi]

/-- Memory is as if the moved frame had been written, and nothing else. -/
theorem byte_eq (address : UInt16) :
    n.byte address =
      (m.write (frameStart f.bytes) (f.moved (frameStart f.bytes)).bytes).byte address := by
  let start := frameStart f.bytes
  let g := f.moved start
  have hMovedLength : g.bytes.length = f.bytes.length := f.length_bytes_moved start
  have hTableSize : g.tableSize = f.tableSize := f.tableSize_moved start
  by_cases hInside : address ∈ (⟨start, f.bytes.length⟩ : Region)
  · obtain ⟨i, hi, rfl⟩ : ∃ i < f.bytes.length, address = start + .ofNat i :=
      ⟨_, hInside, by rw [UInt16.ofNat_toNat]; grind⟩
    by_cases hTable : i < f.tableSize
    · have hWords : ∀ k < g.words.length, n.word (start + .ofNat (2 * k)) =
          (m.write start g.bytes).word (start + .ofNat (2 * k)) := by
        intro k hk
        have hWord := List.getElem?_eq_getElem hk
        have hWritten := g.word_write m (hMovedLength ▸ hLength) hWord
        rw [f.frameStart_moved] at hWritten
        exact (h.word_moved hLength hWell hWord).trans hWritten.symm
      rw [← hTableSize] at hTable
      exact AddressSpace.byte_of_words hWords hTable
    · have hBehind := Nat.not_lt.1 hTable
      have hMovedInside : i < g.bytes.length := hMovedLength ▸ hi
      have hMoved : (m.write start g.bytes).byte (start + .ofNat i) = g.bytes[i] :=
        AddressSpace.byte_write m start (by omega) hMovedInside
      have hSame := f.getElem?_bytes_moved start hBehind
      rw [List.getElem?_eq_getElem hi, List.getElem?_eq_getElem hMovedInside] at hSame
      rw [h.byte_behind_words hLength hWell hBehind hi, hMoved, Option.some.inj hSame]
  · have hFirst := h.first_eq hLength hWell
    have hSecond := h.second_eq hLength hWell
    have hSize := f.length_eq
    have hKept := h.agreesOutside (Nat.le_refl _) (by omega)
    have hWritten := AgreesOutside.write m start g.bytes
    rw [hMovedLength] at hWritten
    have hOutside : ∀ r ∈ [(⟨start, f.bytes.length⟩ : Region)], address ∉ r := by
      simpa using hInside
    exact (hKept address hOutside).trans (hWritten address hOutside).symm

/-- A relocated pointer addresses what it addressed in the frame. -/
theorem stringAt_eq {offset : UInt16} (hMem : offset ∈ f.arguments ++ f.environment) :
    n.stringAt (frameStart f.bytes + offset) = f.stringAt offset := by
  have hBehind := hWell.behind offset hMem
  have hInside := hWell.lt_length hMem
  have hRead : n.read (frameStart f.bytes + offset) (f.bytes.drop offset.toNat).length =
      f.bytes.drop offset.toNat := by
    refine AddressSpace.read_eq fun i hi => ?_
    rw [List.length_drop] at hi
    have hPlace : frameStart f.bytes + offset + .ofNat i =
        frameStart f.bytes + .ofNat (offset.toNat + i) := by
      rw [← offset_add, UInt16.ofNat_toNat]
    rw [hPlace, h.byte_behind_words hLength hWell (by omega) (by omega), List.getElem_drop]
  have hCount : (f.bytes.drop offset.toNat).length ≤
      segmentSize - (frameStart f.bytes + offset).toNat := by
    rw [hWell.toNat_pointer hLength hMem, List.length_drop]
    omega
  rw [AddressSpace.stringAt, AddressSpace.terminated,
    AddressSpace.terminatedWithin_of_zero_mem hRead (hWell.ends offset hMem) hCount,
    ArgumentFrame.stringAt]

/-- An array of relocated pointers gives the strings of the frame. -/
theorem stringVector_eq {address : UInt16} {offsets : List UInt16}
    (hOffsets : ∀ offset ∈ offsets, offset ∈ f.arguments ++ f.environment)
    (hPointers : ∀ i (hi : i < offsets.length),
      n.word (address + .ofNat (2 * i)) = frameStart f.bytes + offsets[i])
    (hEnd : n.word (address + .ofNat (2 * offsets.length)) = 0)
    (hCount : offsets.length < segmentSize / 2) :
    n.stringVector address = offsets.map f.stringAt := by
  let pointers := offsets.map (frameStart f.bytes + ·)
  have hSame : pointers.length = offsets.length := List.length_map _
  have hWords : n.words address pointers.length = pointers := by
    refine AddressSpace.words_eq fun i hi => ?_
    rw [hPointers i (hSame ▸ hi), List.getElem_map]
  have hNonzero : 0 ∉ pointers := by
    intro hZero
    obtain ⟨offset, hMem, hNull⟩ := List.mem_map.1 hZero
    have hPointer := hWell.toNat_pointer hLength (hOffsets offset hMem)
    rw [hNull] at hPointer
    change 0 = _ at hPointer
    omega
  rw [← hSame] at hEnd hCount
  rw [AddressSpace.stringVector, AddressSpace.stringsWithin_of_pointers hWords hNonzero hEnd hCount,
    List.map_map]
  exact List.map_congr_left fun offset hMem => h.stringAt_eq hLength hWell (hOffsets offset hMem)

end Placed

/-- What a new program finds of an argument frame: its start is the stack, its strings are there
through both pointer arrays, and below it stands nothing but the program. -/
structure FindsFrame (f : ArgumentFrame) (image : AddressSpace) (t : Session I8086.Cpu) :
    Prop where
  top : (frameStart f.bytes).toNat = segmentSize - f.bytes.length
  sp : t.cpu.get .sp = frameStart f.bytes
  entrySp : t.cpu.entrySp = frameStart f.bytes
  count : t.memory.word (frameStart f.bytes) = f.count
  arguments : t.memory.stringVector (frameStart f.bytes + 2) = f.arguments.map f.stringAt
  environment : t.memory.stringVector
    (frameStart f.bytes + .ofNat (2 * (f.arguments.length + 2))) = f.environment.map f.stringAt
  behind : ∀ i (hi : i < f.bytes.length), f.tableSize ≤ i →
    t.memory.byte (frameStart f.bytes + .ofNat i) = f.bytes[i]
  below : ∀ address < frameStart f.bytes, t.memory.byte address = image.byte address
  memory : ∀ address, t.memory.byte address =
    (image.write (frameStart f.bytes) (f.moved (frameStart f.bytes)).bytes).byte address

theorem findsFrame_of_machine {f : ArgumentFrame} (hWell : f.WellFormed)
    (hLength : f.bytes.length < segmentSize) {m : Machine I8086.Cpu} {t : Session I8086.Cpu}
    (hMachine : t.process.machine = placeFrame f.bytes m) : FindsFrame f m.memory t := by
  obtain ⟨first, second, middle, h⟩ := exists_placed f.bytes m hLength
  have hMemory : t.memory = (placeFrame f.bytes m).memory := congrArg Machine.memory hMachine
  have hCpu : t.cpu = { m.cpu.set .sp (frameStart f.bytes) with
      entrySp := frameStart f.bytes } := congrArg Machine.cpu hMachine
  rw [← hMemory] at h
  have hSize := f.length_eq
  have hTop := toNat_frameStart hLength (by omega)
  constructor
  case top => exact hTop
  case sp =>
    rw [hCpu]
    exact I8086.Cpu.get_set m.cpu .sp .sp _
  case entrySp => rw [hCpu]
  case count => simpa using h.word_kept hLength hWell (k := 0) rfl (by omega) (by omega)
  case arguments =>
    have hPlace (i : Nat) : frameStart f.bytes + 2 + .ofNat (2 * i) =
        frameStart f.bytes + .ofNat (2 * (i + 1)) :=
      (AddressSpace.add_ofNat_two_mul_succ _ i).symm
    refine h.stringVector_eq hLength hWell (fun _ => List.mem_append_left _) (fun i hi => ?_) ?_
      (by simp only [segmentSize] at *; omega)
    · rw [hPlace]
      exact h.word_relocated_argument hLength hWell hi
    · rw [hPlace]
      exact h.word_kept hLength hWell f.word_first_null (by omega) (by omega)
  case environment =>
    have hPlace (i : Nat) : frameStart f.bytes + .ofNat (2 * (f.arguments.length + 2)) +
        .ofNat (2 * i) = frameStart f.bytes + .ofNat (2 * (f.arguments.length + 2 + i)) := by
      rw [offset_add, ← Nat.mul_add]
    refine h.stringVector_eq hLength hWell (fun _ => List.mem_append_right _) (fun i hi => ?_) ?_
      (by simp only [segmentSize] at *; omega)
    · rw [hPlace]
      exact h.word_relocated_environment hLength hWell hi
    · rw [hPlace]
      exact h.word_kept hLength hWell f.word_second_null (by omega) (by omega)
  case behind => exact fun i hi hTable => h.byte_behind_words hLength hWell hTable hi
  case below =>
    intro address hBelow
    rw [h.byte_eq hLength hWell address]
    refine AgreesOutside.write _ _ _ address fun r hr => ?_
    obtain rfl := List.mem_singleton.1 hr
    have hStart : frameStart f.bytes = .ofNat (segmentSize - f.bytes.length) := by
      rw [← hTop, UInt16.ofNat_toNat]
    rw [f.length_bytes_moved, hStart, Region.mem_ofNat (by omega)]
    rw [UInt16.lt_iff_toNat_lt, hTop] at hBelow
    omega
  case memory => exact h.byte_eq hLength hWell

/-- An exec with a well-formed frame of any size, wherever the frame lies and even where it wraps,
gives the new program its frame: the stack begins with the count at exactly the size of the frame
below the top of memory, and both arrays give the strings that they gave in the frame. Memory is
the program with the relocated frame at its top, and no reply is written. -/
theorem exec_relocates_well_formed_frame {f : ArgumentFrame} {run : Runner I8086.Cpu}
    {s : Session I8086.Cpu} {image : Image} (hWell : f.WellFormed)
    (hCall : Call.ofNumber? (s.memory.word (s.cpu.get .bx + 2)) = some .exec)
    (hFrame : s.memory.read (s.memory.word (s.cpu.get .bx + 12))
      (s.memory.word (s.cpu.get .bx + 6)).toNat = f.bytes)
    (hLoad : conventions.loadFile s.host (s.process.hostPath
      (s.memory.stringAt (s.memory.word (s.cpu.get .bx + 10)))) = .ok image) :
    frameStart f.bytes = 0 - s.memory.word (s.cpu.get .bx + 6) ∧
      ∃ t, answer run messageTrap s = some (t, .ok ()) ∧ FindsFrame f image.memory t := by
  have hLength : f.bytes.length = (s.memory.word (s.cpu.get .bx + 6)).toNat := by
    rw [← hFrame, AddressSpace.length_read]
  obtain ⟨t, hExecuted, hMachine⟩ := executeFrame_of_load
    (s.memory.word (s.cpu.get .bx + 12)) (s.memory.word (s.cpu.get .bx + 6)) hLoad
  rw [hFrame] at hMachine
  refine ⟨?_, t, answer_of_executeFrame hCall hExecuted, ?_⟩
  · rw [frameStart, hLength, UInt16.ofNat_toNat]
  · exact findsFrame_of_machine (m := image.machine) hWell (hLength ▸ UInt16.toNat_lt _) hMachine

/-- A frame of odd size with one argument and one variable. -/
def ArgumentFrame.prog : ArgumentFrame where
  count := 1
  arguments := [10]
  environment := [15]
  strings := [0x70, 0x72, 0x6f, 0x67, 0, 0x41, 0x3d, 0x31, 0]

/-- A process with the frame in its memory, and a message block that asks for an exec of
the file `a`. -/
private def withOddFrame : Session I8086.Cpu :=
  let started := conventions.start
    { memory := AddressSpace.shared.write 0x100 ArgumentFrame.prog.bytes
        |>.write 0x140 [0, 0, 59, 0, 0, 0, 19, 0, 0, 0, 0x80, 0x01, 0x00, 0x01]
        |>.setTerminated 0x180 [0x61],
      entry := 0, format := .raw }
    {} { tree := { inodes := #[⟨0o755, .directory 0 [("a", 1)]⟩, ⟨0o644, .file [0xeb, 0xfe]⟩] } }
  started.mapCpu (·.set .bx 0x140)

theorem exec_relocates_well_formed_frame_prog :
    ∃ image t, answer (fun _ => none) messageTrap withOddFrame = some (t, .ok ()) ∧
      FindsFrame .prog image t ∧ t.memory.stringVector (0xffed + 2) = ["prog"] := by
  have hPointers : ArgumentFrame.prog.arguments ++ ArgumentFrame.prog.environment = [10, 15] := rfl
  have hWell : ArgumentFrame.prog.WellFormed := by
    constructor <;> rw [hPointers, List.forall_mem_cons, List.forall_mem_singleton] <;>
      decide +kernel
  have hLoads : (conventions.loadFile withOddFrame.host (withOddFrame.process.hostPath
      (withOddFrame.memory.stringAt (withOddFrame.memory.word
        (withOddFrame.cpu.get .bx + 10))))).toOption.isSome = true := by
    decide +kernel
  obtain ⟨image, hImage⟩ := Option.isSome_iff_exists.1 hLoads
  have hCall : Call.ofNumber? (withOddFrame.memory.word
      (withOddFrame.cpu.get .bx + 2)) = some .exec := by
    decide +kernel
  have hFrame : withOddFrame.memory.read
      (withOddFrame.memory.word (withOddFrame.cpu.get .bx + 12))
      (withOddFrame.memory.word (withOddFrame.cpu.get .bx + 6)).toNat =
        ArgumentFrame.prog.bytes := by
    decide +kernel
  obtain ⟨-, t, hAnswer, hFinds⟩ := @exec_relocates_well_formed_frame _ (fun _ => none) _ _ hWell
    hCall hFrame (ok_of_toOption hImage)
  have hStart : frameStart ArgumentFrame.prog.bytes = 0xffed := by decide +kernel
  have hText : ArgumentFrame.prog.arguments.map ArgumentFrame.prog.stringAt = ["prog"] := by
    decide +kernel
  have hStrings := hFinds.arguments
  rw [hStart, hText] at hStrings
  exact ⟨_, t, hAnswer, hFinds, hStrings⟩

end VintageUnix.Minix
