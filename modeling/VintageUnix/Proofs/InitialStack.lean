import VintageUnix.Proofs.StringsInMemory
import VintageUnix.System.Selection

/-! The stack that a program is started with can be read back. The words and the strings of the
layout are stored by two cursors that never meet, so what is stored first is still there at
the end, up to a layout that fills the whole memory. -/
namespace VintageUnix

namespace Region

theorem disjoint_ofNat {first length next count : Nat} (hFirst : first + length ≤ segmentSize)
    (hNext : next + count ≤ segmentSize) (hApart : first + length ≤ next) :
    Disjoint ⟨.ofNat first, length⟩ ⟨.ofNat next, count⟩ := by
  intro address hMem
  rw [mem_ofNat hFirst] at hMem
  rw [mem_ofNat hNext]
  omega

end Region

namespace AddressSpace

variable {m n : AddressSpace}

theorem AgreesOutside.byte_ofNat {first length i : Nat}
    (h : AgreesOutside [⟨.ofNat first, length⟩] m n) (hFits : first + length ≤ segmentSize)
    (hAddress : i < segmentSize) (hOutside : i < first ∨ first + length ≤ i) :
    n.byte (.ofNat i) = m.byte (.ofNat i) := by
  have hRegion : (UInt16.ofNat first) = 0 + .ofNat first := (UInt16.zero_add _).symm
  rw [hRegion] at h
  simpa using h.byte_offset hFits hAddress hOutside

theorem byte_setWord_ofNat (m : AddressSpace) (v : UInt16) {first i : Nat}
    (hFits : first + 2 ≤ segmentSize) (hAddress : i < segmentSize)
    (hOutside : i < first ∨ first + 2 ≤ i) :
    (m.setWord (.ofNat first) v).byte (.ofNat i) = m.byte (.ofNat i) :=
  (StoresWithin.setWord m (.ofNat first) v).agrees.byte_ofNat hFits hAddress hOutside

theorem byte_setTerminated_ofNat (m : AddressSpace) (bytes : List UInt8) {first i : Nat}
    (hFits : first + (bytes.length + 1) ≤ segmentSize) (hAddress : i < segmentSize)
    (hOutside : i < first ∨ first + (bytes.length + 1) ≤ i) :
    (m.setTerminated (.ofNat first) bytes).byte (.ofNat i) = m.byte (.ofNat i) :=
  (StoresWithin.setTerminated m (.ofNat first) bytes).agrees.byte_ofNat hFits hAddress hOutside

end AddressSpace

namespace StackLayout

theorem foldl_stringBytes (count : Nat) (texts : List String) :
    texts.foldl (fun count t => count + t.utf8ByteSize + 1) count = count + stringBytes texts := by
  induction texts generalizing count with
  | nil => rfl
  | cons text rest ih =>
      rw [stringBytes, List.foldl_cons, List.foldl_cons, ih, ih]
      omega

@[simp] theorem stringBytes_nil : stringBytes [] = 0 :=
  rfl

@[simp] theorem stringBytes_cons (text : String) (rest : List String) :
    stringBytes (text :: rest) = text.utf8ByteSize + 1 + stringBytes rest := by
  rw [stringBytes, List.foldl_cons, foldl_stringBytes, Nat.zero_add]

@[simp] theorem stringBytes_append (first second : List String) :
    stringBytes (first ++ second) = stringBytes first + stringBytes second := by
  rw [stringBytes, List.foldl_append, foldl_stringBytes]
  rfl

theorem words_pos (arguments : List String) (environment : Option (List String)) :
    0 < words arguments environment := by
  cases environment <;> simp only [words] <;> omega

/-- The bytes of a whole layout, with those of the strings rounded up to words. -/
def size (arguments : List String) (environment : Option (List String)) : Nat :=
  2 * words arguments environment +
    (stringBytes (arguments ++ environment.getD []) + 1) / 2 * 2

/-- The words from `table` on point at the texts. These stand one behind the other from
`place` on, a zero byte behind each. -/
inductive StringTable (m : AddressSpace) : (table place : Nat) → List String → Prop
  | nil {table place : Nat} : StringTable m table place []
  | cons {table place : Nat} {text : String} {rest : List String}
      (pointer : m.word (.ofNat table) = .ofNat place)
      (bytes : m.read (.ofNat place) (text.utf8ByteSize + 1) = Utf8.encode text ++ [0])
      (tail : StringTable m (table + 2) (place + (text.utf8ByteSize + 1)) rest) :
      StringTable m table place (text :: rest)

/-- The places of the texts that stand one behind the other from `place` on. -/
def spans (place : Nat) : List String → List Region
  | [] => []
  | text :: rest =>
    ⟨.ofNat place, text.utf8ByteSize + 1⟩ :: spans (place + (text.utf8ByteSize + 1)) rest

/-- The strings that the words from `address` on point at. -/
def stringRegions (m : AddressSpace) (address : UInt16) (texts : List String) : List Region :=
  List.zipWith (fun pointer text => ⟨pointer, text.utf8ByteSize + 1⟩)
    (m.words address texts.length) texts

namespace StringTable

variable {m n : AddressSpace} {table place : Nat} {texts : List String}

/-- Stores elsewhere keep the table. -/
theorem congr (h : StringTable m table place texts)
    (hTable : ∀ i, table ≤ i → i < table + 2 * texts.length →
      n.byte (.ofNat i) = m.byte (.ofNat i))
    (hStrings : ∀ i, place ≤ i → i < place + stringBytes texts →
      n.byte (.ofNat i) = m.byte (.ofNat i)) :
    StringTable n table place texts := by
  induction h with
  | nil => exact .nil
  | @cons table place text rest pointer bytes tail ih =>
      simp only [List.length_cons, stringBytes_cons] at hTable hStrings
      refine .cons ?_ ?_ (ih ?_ ?_)
      · rw [AddressSpace.word_congr (hTable _ (by omega) (by omega))
          (hTable _ (by omega) (by omega)), pointer]
      · rw [AddressSpace.read_congr fun i hLow hHigh => hStrings i hLow (by omega), bytes]
      · exact fun i hLow hHigh => hTable i (by omega) (by omega)
      · exact fun i hLow hHigh => hStrings i (by omega) (by omega)

theorem stringRegions (h : StringTable m table place texts) :
    stringRegions m (.ofNat table) texts = spans place texts := by
  induction h with
  | nil => rfl
  | cons pointer bytes tail ih =>
      rw [UInt16.ofNat_add] at ih
      simp only [StackLayout.stringRegions, List.length_cons, AddressSpace.words, spans,
        List.zipWith_cons_cons, pointer]
      exact congrArg _ ih

/-- The texts are read back if no null character cuts them and memory does not end before. -/
theorem pointsAt (h : StringTable m table place texts) (hTexts : ∀ t ∈ texts, '\x00' ∉ t.toList)
    (hTop : place + stringBytes texts ≤ segmentSize) : m.PointsAt (.ofNat table) texts := by
  induction h with
  | nil => exact .nil
  | @cons table place text rest pointer bytes tail ih =>
      rw [stringBytes_cons] at hTop
      have hPlace : (UInt16.ofNat place).toNat = place :=
        UInt16.toNat_ofNat_of_lt' (by simp only [segmentSize, UInt16.size] at *; omega)
      have hText : m.stringAt (.ofNat place) = text :=
        AddressSpace.stringAt_of_read bytes (hTexts _ List.mem_cons_self) (by omega)
      have hRest := ih (fun t ht => hTexts t (List.mem_cons_of_mem _ ht)) (by omega)
      rw [UInt16.ofNat_add] at hRest
      refine .cons ?_ hRest
      rw [pointer]
      exact ⟨bytes, hText⟩

/-- No string starts at address zero, so no pointer is a null pointer. -/
theorem zero_not_mem_words (h : StringTable m table place texts) (hPlace : 0 < place)
    (hTop : place + stringBytes texts ≤ segmentSize) :
    0 ∉ m.words (.ofNat table) texts.length := by
  induction h with
  | nil => simp [AddressSpace.words]
  | @cons table place text rest pointer bytes tail ih =>
      rw [stringBytes_cons] at hTop
      have hRest := ih (by omega) (by omega)
      rw [UInt16.ofNat_add] at hRest
      have hPointer : 0 ≠ m.word (.ofNat table) := by
        rw [pointer, ne_eq, ← UInt16.toNat_inj,
          UInt16.toNat_ofNat_of_lt' (by simp only [segmentSize, UInt16.size] at *; omega)]
        exact Nat.ne_of_lt hPlace
      exact fun hMem => (List.mem_cons.1 hMem).elim hPointer hRest

theorem stringVector (h : StringTable m table place texts)
    (hTexts : ∀ t ∈ texts, '\x00' ∉ t.toList) (hPlace : 0 < place)
    (hTop : place + stringBytes texts ≤ segmentSize)
    (hCount : texts.length < segmentSize / 2)
    (hEnd : m.word (.ofNat (table + 2 * texts.length)) = 0) :
    m.stringVector (.ofNat table) = texts := by
  rw [UInt16.ofNat_add] at hEnd
  exact AddressSpace.stringsWithin_of_pointsAt (h.pointsAt hTexts hTop)
    (h.zero_not_mem_words hPlace hTop) hEnd hCount

end StringTable

theorem mem_spans {place : Nat} {texts : List String} {r : Region} (h : r ∈ spans place texts) :
    ∃ first, r.start = .ofNat first ∧ place ≤ first ∧
      first + r.length ≤ place + stringBytes texts := by
  induction texts generalizing place with
  | nil => cases h
  | cons text rest ih =>
      rw [stringBytes_cons]
      rcases List.mem_cons.1 h with rfl | hRest
      · exact ⟨place, rfl, Nat.le_refl _, by simp only; omega⟩
      · obtain ⟨first, hStart, hLow, hHigh⟩ := ih hRest
        exact ⟨first, hStart, by omega, by omega⟩

theorem spans_append (place : Nat) (first second : List String) :
    spans place (first ++ second) =
      spans place first ++ spans (place + stringBytes first) second := by
  induction first generalizing place with
  | nil => rfl
  | cons text rest ih =>
      rw [List.cons_append, spans, ih, spans, stringBytes_cons, List.cons_append,
        Nat.add_assoc place]

/-- What ends before the first text is apart from all of them. -/
theorem disjoint_spans {first length place : Nat} {texts : List String}
    (hTop : place + stringBytes texts ≤ segmentSize) (hApart : first + length ≤ place) :
    ∀ r ∈ spans place texts, Region.Disjoint ⟨.ofNat first, length⟩ r := by
  intro r hr
  obtain ⟨next, hStart, hLow, hHigh⟩ := mem_spans hr
  have hRegion : r = ⟨.ofNat next, r.length⟩ := by rw [← hStart]
  rw [hRegion]
  exact Region.disjoint_ofNat (by omega) (by omega) (by omega)

theorem pairwise_spans {place : Nat} {texts : List String}
    (hTop : place + stringBytes texts ≤ segmentSize) :
    (spans place texts).Pairwise Region.Disjoint := by
  induction texts generalizing place with
  | nil => exact .nil
  | cons text rest ih =>
      rw [stringBytes_cons] at hTop
      have hRest : place + (text.utf8ByteSize + 1) + stringBytes rest ≤ segmentSize := by omega
      exact .cons (disjoint_spans hRest (Nat.le_refl _)) (ih hRest)

end StackLayout

namespace StackCursor

open StackLayout (StringTable stringBytes stringBytes_cons)

/-- What storing texts comes to, when the last word stored is at `word` and the next string
goes to `place`: a table behind that word, the strings from that place on, and no other byte
changed. -/
structure Put (c : StackCursor) (word place : Nat) (texts : List String) (d : StackCursor) :
    Prop where
  pointer : d.pointer = .ofNat (word + 2 * texts.length)
  strings : d.strings = .ofNat (place + stringBytes texts)
  table : StringTable d.memory (word + 2) place texts
  kept : ∀ i < segmentSize, (i < word + 2 ∨ word + 2 + 2 * texts.length ≤ i) →
    (i < place ∨ place + stringBytes texts ≤ i) →
    d.memory.byte (.ofNat i) = c.memory.byte (.ofNat i)

variable {c : StackCursor} {word place : Nat}

theorem pointer_putWord (hPointer : c.pointer = .ofNat word) (v : UInt16) :
    (c.putWord v).pointer = .ofNat (word + 2) := by
  rw [UInt16.ofNat_add, ← hPointer]
  rfl

theorem memory_putWord (hPointer : c.pointer = .ofNat word) (v : UInt16) :
    (c.putWord v).memory = c.memory.setWord (.ofNat (word + 2)) v := by
  rw [← pointer_putWord hPointer v]
  rfl

theorem put_string (hPointer : c.pointer = .ofNat word) (hStrings : c.strings = .ofNat place)
    {text : String} (hBelow : word + 4 ≤ place)
    (hTop : place + (text.utf8ByteSize + 1) ≤ segmentSize) :
    c.Put word place [text] (c.putString text) := by
  have hText : place + ((Utf8.encode text).length + 1) ≤ segmentSize := by
    rwa [Utf8.length_encode]
  have hMemory : (c.putString text).memory =
      (c.memory.setWord (.ofNat (word + 2)) (.ofNat place)).setTerminated (.ofNat place)
        (Utf8.encode text) := by
    rw [← hStrings, ← memory_putWord hPointer]
    rfl
  constructor
  · exact pointer_putWord hPointer c.strings
  · change c.strings + .ofNat ((Utf8.encode text).length + 1) = _
    simp [hStrings, UInt16.ofNat_add]
  · rw [hMemory]
    refine .cons ?_ ?_ .nil
    · -- the string stands above the word
      rw [AddressSpace.word_congr
        (AddressSpace.byte_setTerminated_ofNat _ _ hText (by omega) (by omega))
        (AddressSpace.byte_setTerminated_ofNat _ _ hText (by omega) (by omega))]
      exact AddressSpace.word_setWord _ _ _
    · rw [← Utf8.length_encode]
      exact AddressSpace.read_setTerminated _ _ (by omega)
  · intro i hAddress hTable hPlace
    simp only [List.length_singleton, stringBytes_cons, StackLayout.stringBytes_nil] at *
    rw [hMemory, AddressSpace.byte_setTerminated_ofNat _ _ hText hAddress (by simp; omega),
      AddressSpace.byte_setWord_ofNat _ _ (by omega) hAddress (by omega)]

/-- The table and the strings of the later texts keep away from those of the first one. -/
theorem put_strings (texts : List String) (hPointer : c.pointer = .ofNat word)
    (hStrings : c.strings = .ofNat place) (hBelow : word + 2 + 2 * texts.length ≤ place)
    (hTop : place + stringBytes texts ≤ segmentSize) :
    c.Put word place texts (c.putStrings texts) := by
  induction texts generalizing c word place with
  | nil => exact ⟨hPointer, hStrings, .nil, fun _ _ _ _ => rfl⟩
  | cons text rest ih =>
      simp only [List.length_cons, stringBytes_cons] at hBelow hTop
      have hFirst : c.Put word place [text] (c.putString text) :=
        put_string hPointer hStrings (by omega) (by omega)
      have hRest : (c.putString text).Put (word + 2) (place + (text.utf8ByteSize + 1)) rest
          (c.putStrings (text :: rest)) :=
        ih hFirst.pointer (by simpa using hFirst.strings) (by omega) (by omega)
      have hKept := hFirst.kept
      simp only [List.length_singleton, stringBytes_cons, StackLayout.stringBytes_nil] at hKept
      constructor
      · rw [hRest.pointer, List.length_cons]
        congr 1
        omega
      · rw [hRest.strings, stringBytes_cons, Nat.add_assoc]
      · obtain _ | ⟨hWord, hBytes, -⟩ := hFirst.table
        refine .cons ?_ ?_ hRest.table
        · rw [AddressSpace.word_congr
            (hRest.kept _ (by omega) (by omega) (by omega))
            (hRest.kept _ (by omega) (by omega) (by omega)), hWord]
        · rw [AddressSpace.read_congr fun i hLow hHigh =>
            hRest.kept i (by omega) (by omega) (by omega), hBytes]
      · intro i hAddress hTable hPlace
        simp only [List.length_cons, stringBytes_cons] at hTable hPlace
        rw [hRest.kept i hAddress (by omega) (by omega),
          hKept i hAddress (by omega) (by omega)]

/-- What storing an array between two null pointers comes to. -/
structure PutArray (c : StackCursor) (word place : Nat) (texts : List String)
    (m : AddressSpace) : Prop where
  first : m.word (.ofNat (word + 2)) = 0
  table : StringTable m (word + 4) place texts
  last : m.word (.ofNat (word + 4 + 2 * texts.length)) = 0
  kept : ∀ i < segmentSize, (i < word + 2 ∨ word + 6 + 2 * texts.length ≤ i) →
    (i < place ∨ place + stringBytes texts ≤ i) → m.byte (.ofNat i) = c.memory.byte (.ofNat i)

theorem put_array (texts : List String) (hPointer : c.pointer = .ofNat word)
    (hStrings : c.strings = .ofNat place) (hBelow : word + 6 + 2 * texts.length ≤ place)
    (hTop : place + stringBytes texts ≤ segmentSize) :
    c.PutArray word place texts (((c.putWord 0).putStrings texts).putWord 0).memory := by
  have hFirst : (c.putWord 0).memory = c.memory.setWord (.ofNat (word + 2)) 0 :=
    memory_putWord hPointer 0
  have hPut : (c.putWord 0).Put (word + 2) place texts ((c.putWord 0).putStrings texts) :=
    put_strings texts (pointer_putWord hPointer 0) hStrings (by omega) hTop
  have hLast := memory_putWord hPut.pointer 0
  have hAbove (i : Nat) (hAddress : i < segmentSize)
      (hOutside : i < word + 4 + 2 * texts.length ∨ word + 6 + 2 * texts.length ≤ i) :
      (((c.putWord 0).putStrings texts).putWord 0).memory.byte (.ofNat i) =
        ((c.putWord 0).putStrings texts).memory.byte (.ofNat i) := by
    rw [hLast]
    exact AddressSpace.byte_setWord_ofNat _ _ (by omega) hAddress (by omega)
  constructor
  · rw [AddressSpace.word_congr (hAbove _ (by omega) (by omega)) (hAbove _ (by omega) (by omega)),
      AddressSpace.word_congr (hPut.kept _ (by omega) (by omega) (by omega))
        (hPut.kept _ (by omega) (by omega) (by omega)), hFirst]
    exact AddressSpace.word_setWord _ _ _
  · exact hPut.table.congr (fun i _ hHigh => hAbove i (by omega) (by omega))
      (fun i hLow _ => hAbove i (by omega) (by omega))
  · have hWord : word + 4 + 2 * texts.length = word + 2 + 2 * texts.length + 2 := by omega
    rw [hLast, hWord]
    exact AddressSpace.word_setWord _ _ _
  · intro i hAddress hTable hPlace
    rw [hAbove i hAddress (by omega), hPut.kept i hAddress (by omega) hPlace, hFirst]
    exact AddressSpace.byte_setWord_ofNat _ _ (by omega) hAddress (by omega)

end StackCursor

namespace StackLayout

/-- What a program finds at its entry stack pointer: the count of its arguments, pointers to
them and, on systems that have one, the environment. Both arrays then end with a null
pointer. The strings keep clear of each other and of the words. -/
structure InMemory (m : AddressSpace) (sp : UInt16) (arguments : List String)
    (environment : Option (List String)) : Prop where
  count : (m.word sp).toNat = arguments.length
  pointers : m.PointsAt (sp + 2) arguments
  vectors : ∀ e ∈ environment,
    m.stringVector (sp + 2) = arguments ∧
    m.word (sp + 2 + .ofNat (2 * arguments.length)) = 0 ∧
    m.PointsAt (sp + 4 + .ofNat (2 * arguments.length)) e ∧
    m.stringVector (sp + 4 + .ofNat (2 * arguments.length)) = e ∧
    m.word (sp + 4 + .ofNat (2 * arguments.length) + .ofNat (2 * e.length)) = 0
  apart : (⟨sp, 2 * words arguments environment⟩ ::
    (stringRegions m (sp + 2) arguments ++ environment.elim []
      (stringRegions m (sp + 4 + .ofNat (2 * arguments.length))))).Pairwise Region.Disjoint

/-- The words end where the first of the strings begins. -/
theorem pairwise_layout {start length place : Nat} {texts : List String}
    (hWords : start + length = place) (hTop : place + stringBytes texts ≤ segmentSize) :
    (⟨.ofNat start, length⟩ :: spans place texts).Pairwise Region.Disjoint :=
  .cons (disjoint_spans hTop (Nat.le_of_eq hWords)) (pairwise_spans hTop)

section Cursors

variable (m : AddressSpace) {arguments environment : List String} {start place : Nat}

/-- The cursors when the count of the arguments has been stored. -/
def counted (m : AddressSpace) (arguments : List String) (start place : Nat) : StackCursor where
  memory := m.setWord (.ofNat start) (.ofNat arguments.length)
  pointer := .ofNat start
  strings := .ofNat place

theorem put_arguments (hBelow : start + 2 * (1 + arguments.length) ≤ place)
    (hTop : place + stringBytes arguments ≤ segmentSize) :
    (counted m arguments start place).Put start place arguments
      ((counted m arguments start place).putStrings arguments) :=
  StackCursor.put_strings arguments rfl rfl (by omega) hTop

/-- Storing the arguments keeps the count in front of them. -/
theorem word_put_arguments {c : StackCursor} (hBelow : start + 2 ≤ place)
    (hTop : place + stringBytes arguments ≤ segmentSize)
    (hPut : (counted m arguments start place).Put start place arguments c) :
    c.memory.word (.ofNat start) = .ofNat arguments.length := by
  rw [AddressSpace.word_congr (hPut.kept _ (by omega) (by omega) (by omega))
    (hPut.kept _ (by omega) (by omega) (by omega))]
  exact AddressSpace.word_setWord _ _ _

theorem inMemory_arguments (hTexts : ∀ t ∈ arguments, '\x00' ∉ t.toList)
    (hWords : start + 2 * words arguments none = place)
    (hTop : place + stringBytes arguments ≤ segmentSize) :
    let c := (counted m arguments start place).putStrings arguments
    InMemory c.memory (.ofNat start) arguments none ∧
      ∀ i < start, c.memory.byte (.ofNat i) = m.byte (.ofNat i) := by
  intro c
  have hWords' : start + 2 * (1 + arguments.length) = place := hWords
  have hPut : (counted m arguments start place).Put start place arguments c :=
    put_arguments m (by omega) hTop
  have hTable : UInt16.ofNat start + 2 = .ofNat (start + 2) := (UInt16.ofNat_add start 2).symm
  constructor
  · constructor
    · rw [word_put_arguments m (by omega) hTop hPut]
      exact UInt16.toNat_ofNat_of_lt' (by simp only [segmentSize, UInt16.size] at *; omega)
    · rw [hTable]
      exact hPut.table.pointsAt hTexts hTop
    · exact fun _ h => absurd h (Option.not_mem_none _)
    · rw [hTable, hPut.table.stringRegions, Option.elim_none, List.append_nil]
      exact pairwise_layout hWords hTop
  · intro i hi
    rw [hPut.kept i (by omega) (by omega) (by omega)]
    exact AddressSpace.byte_setWord_ofNat _ _ (by omega) (by omega) (by omega)

/-- Both string tables with the words around them are what a program finds. -/
theorem inMemory_of_tables (hTexts : ∀ t ∈ arguments ++ environment, '\x00' ∉ t.toList)
    (hWords : start + 2 * words arguments (some environment) = place)
    (hTop : place + stringBytes (arguments ++ environment) ≤ segmentSize)
    (hCount : m.word (.ofNat start) = .ofNat arguments.length)
    (hTable : StringTable m (start + 2) place arguments)
    (hMiddle : m.word (.ofNat (start + 2 * arguments.length + 2)) = 0)
    (hNext : StringTable m (start + 2 * arguments.length + 4) (place + stringBytes arguments)
      environment)
    (hLast : m.word (.ofNat (start + 2 * arguments.length + 4 + 2 * environment.length)) = 0) :
    InMemory m (.ofNat start) arguments (some environment) := by
  have hWords' : start + 2 * (1 + arguments.length + 1 + environment.length + 1) = place := hWords
  have hHalf : segmentSize / 2 = 32768 := rfl
  have hApart := pairwise_layout hWords hTop
  rw [stringBytes_append] at hTop
  have hArguments : ∀ t ∈ arguments, '\x00' ∉ t.toList :=
    fun t ht => hTexts t (List.mem_append_left _ ht)
  have hEnvironment : ∀ t ∈ environment, '\x00' ∉ t.toList :=
    fun t ht => hTexts t (List.mem_append_right _ ht)
  have hFirst : UInt16.ofNat start + 2 = .ofNat (start + 2) := (UInt16.ofNat_add start 2).symm
  have hSecond : UInt16.ofNat start + 4 + .ofNat (2 * arguments.length) =
      .ofNat (start + 2 * arguments.length + 4) := by
    rw [Nat.add_right_comm, UInt16.ofNat_add, UInt16.ofNat_add]
    rfl
  constructor
  case count =>
    rw [hCount]
    exact UInt16.toNat_ofNat_of_lt' (by simp only [segmentSize, UInt16.size] at *; omega)
  case pointers =>
    rw [hFirst]
    exact hTable.pointsAt hArguments (by omega)
  case vectors =>
    rintro _ ⟨⟩
    have hEnd : start + 2 + 2 * arguments.length = start + 2 * arguments.length + 2 := by omega
    rw [← hEnd] at hMiddle
    rw [hFirst, hSecond, ← UInt16.ofNat_add, ← UInt16.ofNat_add]
    refine ⟨?_, hMiddle, hNext.pointsAt hEnvironment (by omega), ?_, hLast⟩
    · exact hTable.stringVector hArguments (by omega) (by omega) (by omega) hMiddle
    · exact hNext.stringVector hEnvironment (by omega) (by omega) (by omega) hLast
  case apart =>
    rwa [hFirst, Option.elim_some, hSecond, hTable.stringRegions, hNext.stringRegions,
      ← spans_append]

/-- The array of the environment keeps what has been stored for the arguments. -/
theorem inMemory_environment (hTexts : ∀ t ∈ arguments ++ environment, '\x00' ∉ t.toList)
    (hWords : start + 2 * words arguments (some environment) = place)
    (hTop : place + stringBytes (arguments ++ environment) ≤ segmentSize) :
    let c := (counted m arguments start place).putStrings arguments
    let d := ((c.putWord 0).putStrings environment).putWord 0
    InMemory d.memory (.ofNat start) arguments (some environment) ∧
      ∀ i < start, d.memory.byte (.ofNat i) = m.byte (.ofNat i) := by
  intro c d
  have hBytes := stringBytes_append arguments environment
  have hWords' : start + 2 * (1 + arguments.length + 1 + environment.length + 1) = place := hWords
  have hPut : (counted m arguments start place).Put start place arguments c :=
    put_arguments m (by omega) (by omega)
  have hArray : c.PutArray (start + 2 * arguments.length) (place + stringBytes arguments)
      environment d.memory :=
    StackCursor.put_array environment hPut.pointer hPut.strings (by omega) (by omega)
  have hCount : d.memory.word (.ofNat start) = .ofNat arguments.length := by
    rw [AddressSpace.word_congr (hArray.kept _ (by omega) (by omega) (by omega))
      (hArray.kept _ (by omega) (by omega) (by omega))]
    exact word_put_arguments m (by omega) (by omega) hPut
  have hTable : StringTable d.memory (start + 2) place arguments :=
    hPut.table.congr (fun i _ hHigh => hArray.kept i (by omega) (by omega) (by omega))
      (fun i hLow _ => hArray.kept i (by omega) (by omega) (by omega))
  constructor
  · exact inMemory_of_tables d.memory hTexts hWords hTop hCount hTable hArray.first hArray.table
      hArray.last
  · intro i hi
    rw [hArray.kept i (by omega) (by omega) (by omega),
      hPut.kept i (by omega) (by omega) (by omega)]
    exact AddressSpace.byte_setWord_ofNat _ _ (by omega) (by omega) (by omega)

end Cursors

section Build

variable {Cpu : Type} [Processor Cpu] {arguments : List String}
  {environment : Option (List String)} {m : Machine Cpu}

/-- Below an empty stack the words and the strings are at addresses that do not wrap. -/
theorem build_eq (hEmpty : StackPointer.sp m.cpu = 0)
    (hFits : size arguments environment ≤ segmentSize) :
    let start := segmentSize - size arguments environment
    let place := start + 2 * words arguments environment
    let c := (counted m.memory arguments start place).putStrings arguments
    build arguments environment m =
      { cpu := Processor.setEntrySp (StackPointer.setSp m.cpu (.ofNat start)) (.ofNat start)
        memory := match environment with
          | none => c.memory
          | some e => (((c.putWord 0).putStrings e).putWord 0).memory } := by
  intro start place c
  have hStart : start = place - words arguments environment * 2 := by omega
  have hPlace : place =
      segmentSize - (stringBytes (arguments ++ environment.getD []) + 1) / 2 * 2 := by
    simp only [size] at hFits
    simp only [place, start, size]
    omega
  have hStrings : (.ofNat place : UInt16) = StackPointer.sp m.cpu -
      .ofNat ((stringBytes (arguments ++ environment.getD []) + 1) / 2 * 2) := by
    simp only [size] at hFits
    rw [hPlace, UInt16.ofNat_sub (by omega), hEmpty]
    rfl
  have hSp : (.ofNat start : UInt16) =
      .ofNat place - .ofNat (words arguments environment * 2) := by
    rw [hStart, UInt16.ofNat_sub (by omega)]
  simp only [build, c, counted, hSp, hStrings]
  cases environment <;> rfl

/-- The layout ends where memory ends. Its start is even, since words and rounded strings are. -/
theorem inMemory_build (hTexts : ∀ t ∈ arguments ++ environment.getD [], '\x00' ∉ t.toList)
    (hEmpty : StackPointer.sp m.cpu = 0) (hFits : size arguments environment ≤ segmentSize) :
    let sp := UInt16.ofNat (segmentSize - size arguments environment)
    InMemory (build arguments environment m).memory sp arguments environment ∧
      ∀ i < segmentSize - size arguments environment,
        (build arguments environment m).memory.byte (.ofNat i) = m.memory.byte (.ofNat i) := by
  have hTop : segmentSize - size arguments environment + 2 * words arguments environment +
      stringBytes (arguments ++ environment.getD []) ≤ segmentSize := by
    simp only [size] at hFits ⊢
    omega
  rw [build_eq hEmpty hFits]
  cases environment with
  | none =>
      rw [Option.getD_none, List.append_nil] at hTexts hTop
      exact inMemory_arguments m.memory hTexts rfl hTop
  | some e => exact inMemory_environment m.memory hTexts rfl hTop

end Build

end StackLayout

/-- The environment as programs of a personality find it on their stack, if they do. -/
def Personality.environment? (p : Personality) (environment : List String) :
    Option (List String) :=
  match p with
  | .minix => some environment
  | .unixV6Pdp11 | .unixV6I8086 => none

theorem Personality.layOut_eq_build (p : Personality) (arguments environment : List String)
    (m : Machine p.Cpu) :
    p.system.layOut arguments environment m =
      StackLayout.build arguments (p.environment? environment) m := by
  cases p <;> rfl

/-- The entry stack pointer is where the stack pointer has been set to. -/
theorem Personality.sp_setEntrySp (p : Personality) (c : p.Cpu) (sp : UInt16) :
    let entered := Processor.setEntrySp (StackPointer.setSp c sp) sp
    StackPointer.sp entered = sp ∧ Processor.entrySp entered = sp := by
  cases p with
  | minix => exact ⟨I8086.Cpu.get_set c .sp .sp sp, rfl⟩
  | unixV6Pdp11 => exact ⟨Pdp11.Cpu.get_set c .sp .sp sp, rfl⟩
  | unixV6I8086 => exact ⟨I8086.Cpu.get_set c .sp .sp sp, rfl⟩

open StackLayout in
/-- The initial stack is readable back. Lay out any arguments and any environment whose strings
hold no null character and which do not take more than the whole memory, for a program with
an empty stack. The stack pointer, which is recorded as the one at entry, is then even and as
far below the top as the layout is long; the count, both pointer arrays and the strings are
there, each apart from the others; and no byte below them has changed. -/
theorem initial_stack_reads_back (p : Personality) (arguments environment : List String)
    (m : Machine p.Cpu)
    (hTexts : ∀ t ∈ arguments ++ (p.environment? environment).getD [], '\x00' ∉ t.toList)
    (hFits : size arguments (p.environment? environment) ≤ segmentSize)
    (hEmpty : StackPointer.sp m.cpu = 0) :
    let started := p.system.layOut arguments environment m
    let sp := StackPointer.sp started.cpu
    let length := size arguments (p.environment? environment)
    sp = 0 - .ofNat length ∧ sp.toNat % 2 = 0 ∧ Processor.entrySp started.cpu = sp ∧
      InMemory started.memory sp arguments (p.environment? environment) ∧
      AddressSpace.AgreesOutside [⟨sp, length⟩] m.memory started.memory := by
  intro started sp length
  have hBuild : started = build arguments (p.environment? environment) m :=
    p.layOut_eq_build arguments environment m
  have hCpu : started.cpu = Processor.setEntrySp
      (StackPointer.setSp m.cpu (.ofNat (segmentSize - length)))
      (.ofNat (segmentSize - length)) := by
    rw [hBuild, build_eq hEmpty hFits]
  have hEntered := p.sp_setEntrySp m.cpu (.ofNat (segmentSize - length))
  rw [← hCpu] at hEntered
  have hSp : sp = .ofNat (segmentSize - length) := hEntered.1
  obtain ⟨hMemory, hKept⟩ := inMemory_build hTexts hEmpty hFits
  rw [← hBuild] at hMemory hKept
  have hToNat : (UInt16.ofNat (segmentSize - length)).toNat = segmentSize - length := by
    have hWords := words_pos arguments (p.environment? environment)
    refine UInt16.toNat_ofNat_of_lt' ?_
    simp only [segmentSize, UInt16.size, length, size]
    omega
  rw [hSp]
  refine ⟨?_, ?_, hEntered.2, hMemory, ?_⟩
  · rw [UInt16.ofNat_sub hFits]
    rfl
  · rw [hToNat]
    simp only [segmentSize, length, size]
    omega
  · intro address hOutside
    have hInside := Segment.toNat_lt_segmentSize address
    have hBelow := hOutside _ List.mem_cons_self
    rw [Region.mem_ofNat (by omega)] at hBelow
    have hAddress := hKept address.toNat (by omega)
    rwa [UInt16.ofNat_toNat] at hAddress

/-- One argument and the usual environment of a Minix program. -/
theorem initial_stack_reads_back_minix :
    let started := Personality.minix.system.layOut ["test"] ["PATH=/bin:/usr/bin"]
      (⟨{}, .shared⟩ : Machine I8086.Cpu)
    StackPointer.sp started.cpu = 65502 ∧
      StackLayout.InMemory started.memory 65502 ["test"] (some ["PATH=/bin:/usr/bin"]) := by
  intro started
  obtain ⟨hSp, -, -, hMemory, -⟩ := initial_stack_reads_back .minix ["test"]
    ["PATH=/bin:/usr/bin"] (⟨{}, .shared⟩ : Machine I8086.Cpu) (by decide) (by decide) rfl
  have hLength : StackLayout.size ["test"]
      (Personality.minix.environment? ["PATH=/bin:/usr/bin"]) = 34 := by decide
  rw [hLength] at hSp
  rw [hSp] at hMemory
  exact ⟨hSp, hMemory⟩

end VintageUnix
