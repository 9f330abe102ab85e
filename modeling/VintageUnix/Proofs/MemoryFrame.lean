import VintageUnix.Machine.Processor
import VintageUnix.Memory.Strings

/-! What stores leave alone. They go to data, so the text of a split space stays as it was loaded,
and the bytes outside the stored ones keep their values wherever the addresses wrap. -/
namespace VintageUnix

/-- A run of data addresses, which may wrap at the top of memory. -/
structure Region where
  start : UInt16
  length : Nat
  deriving DecidableEq, Repr

namespace Region

instance : Membership UInt16 Region where
  mem r address := (address - r.start).toNat < r.length

instance (r : Region) (address : UInt16) : Decidable (address ∈ r) :=
  inferInstanceAs (Decidable ((address - r.start).toNat < r.length))

theorem mem_def {r : Region} {address : UInt16} :
    address ∈ r ↔ (address - r.start).toNat < r.length :=
  Iff.rfl

/-- The bytes just below an address, where a stack that reaches down to it is continued. -/
def below (top : UInt16) (length : Nat) : Region :=
  ⟨top - .ofNat length, length⟩

/-- No address is in both regions. -/
def Disjoint (r s : Region) : Prop :=
  ∀ address ∈ r, address ∉ s

/-- A part of a region. The sum of offset and length does not wrap, although the
addresses may. -/
theorem mem_of_mem_part {start offset address : UInt16} {count length : Nat}
    (hFits : offset.toNat + count ≤ length)
    (hPart : address ∈ (⟨start + offset, count⟩ : Region)) :
    address ∈ (⟨start, length⟩ : Region) := by
  rw [mem_def] at hPart ⊢
  have hShift : address - start = (address - (start + offset)) + offset := by
    grind
  have hSum : (address - start).toNat ≤ (address - (start + offset)).toNat + offset.toNat := by
    rw [hShift, UInt16.toNat_add]
    exact Nat.mod_le _ _
  simp only at hPart ⊢
  omega

/-- Membership by distances from a base, for a region that does not come round to it. -/
theorem mem_offset {base : UInt16} {first length k : Nat} (hFits : first + length ≤ segmentSize)
    (hk : k < segmentSize) :
    base + .ofNat k ∈ (⟨base + .ofNat first, length⟩ : Region) ↔ first ≤ k ∧ k < first + length := by
  have hDistance : base + .ofNat k - (base + .ofNat first) = .ofNat k - .ofNat first := by grind
  simp only [segmentSize] at hFits hk
  simp only [mem_def, hDistance, UInt16.toNat_sub, UInt16.toNat_ofNat']
  omega

/-- A region that does not wrap holds the addresses between its ends. -/
theorem mem_ofNat {first length : Nat} (hFits : first + length ≤ segmentSize)
    {address : UInt16} :
    address ∈ (⟨.ofNat first, length⟩ : Region) ↔
      first ≤ address.toNat ∧ address.toNat < first + length := by
  have h := @mem_offset 0 first length address.toNat hFits (Segment.toNat_lt_segmentSize address)
  simpa using h

/-- The addresses of a word. -/
theorem mem_two {a address : UInt16} :
    address ∈ (⟨a, 2⟩ : Region) ↔ address = a ∨ address = a + 1 := by
  have hAddress := address.toNat_lt
  have hStart := a.toNat_lt
  simp only [mem_def, ← UInt16.toNat_inj, UInt16.toNat_sub, UInt16.toNat_add, UInt16.toNat_one]
  omega

/-- Bytes further down below an address. -/
theorem mem_of_mem_below {top address : UInt16} {skipped count length : Nat}
    (hFits : skipped + count ≤ length) (h : address ∈ below (top - .ofNat skipped) count) :
    address ∈ below top length := by
  obtain ⟨rest, rfl⟩ := Nat.exists_eq_add_of_le hFits
  have hStart : top - .ofNat skipped - .ofNat count =
      top - .ofNat (skipped + count + rest) + .ofNat rest := by
    rw [UInt16.ofNat_add, UInt16.ofNat_add]
    grind
  rw [below, hStart] at h
  refine mem_of_mem_part ?_ h
  have hRest := Nat.mod_le rest (2 ^ 16)
  rw [UInt16.toNat_ofNat']
  omega

theorem mem_below_mono {top address : UInt16} {count length : Nat} (hLe : count ≤ length)
    (h : address ∈ below top count) : address ∈ below top length := by
  have hTop : top - .ofNat 0 = top := by simp
  rw [← hTop] at h
  exact mem_of_mem_below (by omega) h

theorem Disjoint.mono {r s smaller smaller' : Region} (h : r.Disjoint s)
    (hFirst : ∀ address ∈ smaller, address ∈ r) (hSecond : ∀ address ∈ smaller', address ∈ s) :
    smaller.Disjoint smaller' :=
  fun address hMem hOther => h address (hFirst address hMem) (hSecond address hOther)

/-- What starts at the next address ends before this one. -/
theorem not_mem_next (address : UInt16) {count : Nat} (hFits : count < segmentSize) :
    address ∉ (⟨address + 1, count⟩ : Region) := by
  have hDistance : address - (address + 1) = 65535 := by grind
  rw [mem_def, hDistance]
  exact Nat.not_lt.2 (Nat.le_of_lt_succ hFits)

end Region

namespace AddressSpace

@[simp] theorem data_mapData (m : AddressSpace) (f : Segment → Segment) :
    (m.mapData f).data = f m.data := by
  obtain ⟨layout, _, _, _, _⟩ := m
  cases layout <;> rfl

@[simp] theorem isSplit_mapData (m : AddressSpace) (f : Segment → Segment) :
    (m.mapData f).isSplit = m.isSplit := by
  obtain ⟨layout, _, _, _, _⟩ := m
  cases layout <;> rfl

theorem text_eq_data {m : AddressSpace} (hShared : m.isSplit = false) : m.text = m.data := by
  obtain ⟨layout, _, _, _, _⟩ := m
  cases layout with
  | shared memory => rfl
  | split text data => cases hShared

theorem text_mapData (m : AddressSpace) (f : Segment → Segment) (hSplit : m.isSplit = true) :
    (m.mapData f).text = m.text := by
  obtain ⟨layout, _, _, _, _⟩ := m
  cases layout with
  | shared memory => cases hSplit
  | split text data => rfl

theorem mapData_mapData (m : AddressSpace) (f g : Segment → Segment) :
    (m.mapData f).mapData g = m.mapData (g ∘ f) := by
  obtain ⟨layout, _, _, _, _⟩ := m
  cases layout <;> rfl

theorem mapData_id (m : AddressSpace) : m.mapData id = m := by
  obtain ⟨layout, _, _, _, _⟩ := m
  cases layout <;> rfl

theorem byte_setByte (m : AddressSpace) (a b : UInt16) (v : UInt8) :
    (m.setByte a v).byte b = if a = b then v else m.byte b := by
  simp only [byte, setByte, data_mapData, Segment.get_set]

/-- Storing the byte that is there changes nothing. -/
theorem setByte_byte (m : AddressSpace) (a : UInt16) : m.setByte a (m.byte a) = m := by
  have hSame : m.data.set a (m.data.get a) = m.data := by
    refine Segment.ext_get fun b => ?_
    rw [Segment.get_set]
    split
    next hAddress => rw [hAddress]
    next => rfl
  obtain ⟨layout, _, _, _, _⟩ := m
  cases layout with
  | shared memory => exact congrArg (fun data => AddressSpace.mk (.shared data) _ _ _ _) hSame
  | split text data => exact congrArg (fun data => AddressSpace.mk (.split text data) _ _ _ _) hSame

theorem setWord_word (m : AddressSpace) (a : UInt16) : m.setWord a (m.word a) = m := by
  rw [setWord, word, Word.low_ofBytes, Word.high_ofBytes, setByte_byte, setByte_byte]

/-- A word reads back as it was stored, also where it wraps. -/
theorem word_setWord (m : AddressSpace) (a v : UInt16) : (m.setWord a v).word a = v := by
  have hNext : a + 1 ≠ a := by
    intro h
    have hOne : (1 : UInt16) = 0 := by grind
    exact absurd hOne (by decide)
  simp only [word, setWord, byte_setByte, if_neg hNext, if_true, Word.ofBytes_low_high]

/-- The layout is the same, and so is the text if it has a segment of its own. -/
structure SameText (m n : AddressSpace) : Prop where
  isSplit : n.isSplit = m.isSplit
  text : m.isSplit = true → n.text = m.text

namespace SameText

theorem refl (m : AddressSpace) : SameText m m :=
  ⟨rfl, fun _ => rfl⟩

theorem trans {l m n : AddressSpace} (first : SameText l m) (second : SameText m n) :
    SameText l n where
  isSplit := second.isSplit.trans first.isSplit
  text hSplit := (second.text (first.isSplit ▸ hSplit)).trans (first.text hSplit)

end SameText

/-- The second space comes from the first by stores. The recorded sizes and the
break are the same, and so is the text if it has a segment of its own. -/
def Stores (m n : AddressSpace) : Prop :=
  ∃ f, n = m.mapData f

namespace Stores

theorem refl (m : AddressSpace) : Stores m m :=
  ⟨id, m.mapData_id.symm⟩

/-- A space that is the same has seen no store. -/
theorem of_eq {m n : AddressSpace} (h : n = m) : Stores m n :=
  h ▸ refl m

theorem trans {l m n : AddressSpace} (first : Stores l m) (second : Stores m n) : Stores l n := by
  obtain ⟨f, rfl⟩ := first
  obtain ⟨g, rfl⟩ := second
  exact ⟨g ∘ f, l.mapData_mapData f g⟩

theorem sameText {m n : AddressSpace} (h : Stores m n) : SameText m n := by
  obtain ⟨f, rfl⟩ := h
  exact ⟨m.isSplit_mapData f, m.text_mapData f⟩

theorem setByte (m : AddressSpace) (a : UInt16) (v : UInt8) : Stores m (m.setByte a v) :=
  ⟨_, rfl⟩

theorem setWord (m : AddressSpace) (a v : UInt16) : Stores m (m.setWord a v) :=
  (setByte m a _).trans (setByte _ _ _)

theorem setLong (m : AddressSpace) (a : UInt16) (v : UInt32) : Stores m (m.setLong a v) :=
  (setWord m a _).trans (setWord _ _ _)

theorem write (m : AddressSpace) (a : UInt16) (bytes : List UInt8) :
    Stores m (m.write a bytes) :=
  ⟨_, rfl⟩

theorem setTerminated (m : AddressSpace) (a : UInt16) (bytes : List UInt8) :
    Stores m (m.setTerminated a bytes) :=
  (write m a bytes).trans (setByte _ _ _)

end Stores

/-- The two spaces hold the same data byte at every address outside the regions. -/
def AgreesOutside (regions : List Region) (m n : AddressSpace) : Prop :=
  ∀ address, (∀ r ∈ regions, address ∉ r) → n.byte address = m.byte address

namespace AgreesOutside

variable {regions : List Region} {l m n : AddressSpace}

theorem refl (regions : List Region) (m : AddressSpace) : AgreesOutside regions m m :=
  fun _ _ => rfl

theorem trans (first : AgreesOutside regions l m) (second : AgreesOutside regions m n) :
    AgreesOutside regions l n :=
  fun address hOutside => (second address hOutside).trans (first address hOutside)

/-- More regions promise less. -/
theorem mono {wider : List Region} (h : AgreesOutside regions m n)
    (hSubset : ∀ r ∈ regions, r ∈ wider) : AgreesOutside wider m n :=
  fun address hOutside => h address fun r hr => hOutside r (hSubset r hr)

/-- Stores in parts of a region are stores in the region. -/
theorem part {start offset : UInt16} {count length : Nat}
    (h : AgreesOutside [⟨start + offset, count⟩] m n) (hFits : offset.toNat + count ≤ length) :
    AgreesOutside [⟨start, length⟩] m n := by
  intro address hOutside
  refine h address fun r hr hMem => ?_
  obtain rfl := List.mem_singleton.1 hr
  exact hOutside _ List.mem_cons_self (Region.mem_of_mem_part hFits hMem)

/-- A region from its start on. -/
theorem front {start : UInt16} {count length : Nat}
    (h : AgreesOutside [⟨start, count⟩] m n) (hFits : count ≤ length) :
    AgreesOutside [⟨start, length⟩] m n := by
  rw [← UInt16.add_zero start] at h
  exact h.part (by simpa using hFits)

theorem setByte (m : AddressSpace) (a : UInt16) (v : UInt8) :
    AgreesOutside [⟨a, 1⟩] m (m.setByte a v) := by
  intro address hOutside
  have hNot : a ≠ address := by
    rintro rfl
    refine hOutside _ List.mem_cons_self ?_
    simp [Region.mem_def]
  rw [byte_setByte, if_neg hNot]

end AgreesOutside

/-- A byte at a distance from a base that is before a region or behind it. -/
theorem AgreesOutside.byte_offset {m n : AddressSpace} {base : UInt16} {first length k : Nat}
    (h : AgreesOutside [⟨base + .ofNat first, length⟩] m n) (hFits : first + length ≤ segmentSize)
    (hk : k < segmentSize) (hOutside : k < first ∨ first + length ≤ k) :
    n.byte (base + .ofNat k) = m.byte (base + .ofNat k) := by
  refine h _ fun r hr => ?_
  obtain rfl := List.mem_singleton.1 hr
  rw [Region.mem_offset hFits hk]
  omega

theorem AgreesOutside.word_offset {m n : AddressSpace} {base : UInt16} {first length k : Nat}
    (h : AgreesOutside [⟨base + .ofNat first, length⟩] m n) (hFits : first + length ≤ segmentSize)
    (hk : k + 1 < segmentSize) (hOutside : k + 1 < first ∨ first + length ≤ k) :
    n.word (base + .ofNat k) = m.word (base + .ofNat k) := by
  have hLow := h.byte_offset hFits (Nat.lt_of_succ_lt hk) (by omega)
  have hHigh := h.byte_offset hFits hk (by omega)
  rw [UInt16.ofNat_add, ← UInt16.add_assoc] at hHigh
  rw [word, hLow]
  exact congrArg (Word.ofBytes _) hHigh

/-- A word is the same if its bytes are. -/
theorem word_eq_of_bytes {m n : AddressSpace} {a : UInt16}
    (h : ∀ address ∈ (⟨a, 2⟩ : Region), n.byte address = m.byte address) : n.word a = m.word a := by
  have hLow := h a (Region.mem_two.2 (.inl rfl))
  have hHigh := h (a + 1) (Region.mem_two.2 (.inr rfl))
  rw [word, word, hLow, hHigh]

/-- A word whose bytes are none of those that are stored. -/
theorem AgreesOutside.word_apart {r : Region} {m n : AddressSpace} {a : UInt16}
    (h : AgreesOutside [r] m n) (hApart : Region.Disjoint ⟨a, 2⟩ r) : n.word a = m.word a :=
  word_eq_of_bytes fun address hMem =>
    h address fun _ hs => List.mem_singleton.1 hs ▸ hApart address hMem

/-- The word on top of a stack, while stores go below it and do not come round to it. -/
theorem AgreesOutside.word_above {m n : AddressSpace} {top : UInt16} {length : Nat}
    (h : AgreesOutside [.below top length] m n) (hFits : length + 2 ≤ segmentSize) :
    n.word top = m.word top := by
  have hZero : (top - .ofNat length : UInt16) + .ofNat 0 = top - .ofNat length := by simp
  have hTop : top - .ofNat length + .ofNat length = top := by grind
  rw [Region.below, ← hZero] at h
  have hWord := h.word_offset (k := length) (by omega) (by omega) (.inr (by omega))
  rwa [hTop] at hWord

/-- A segment keeps every byte outside the ones that are written. They may wrap,
and may even be more than a segment holds. -/
theorem get_write_of_not_mem (s : Segment) (start address : UInt16) (bytes : List UInt8)
    (hOutside : address ∉ (⟨start, bytes.length⟩ : Region)) :
    (s.write start bytes).get address = s.get address := by
  induction bytes generalizing s start with
  | nil => rfl
  | cons b rest ih =>
      have hTail : address ∉ (⟨start + 1, rest.length⟩ : Region) := fun hMem =>
        hOutside (Region.mem_of_mem_part (by simp [Nat.add_comm]) hMem)
      have hHead : start ≠ address := by
        rintro rfl
        exact hOutside (by simp [Region.mem_def])
      rw [Segment.write, ih _ _ hTail, Segment.get_set, if_neg hHead]

theorem AgreesOutside.write (m : AddressSpace) (a : UInt16) (bytes : List UInt8) :
    AgreesOutside [⟨a, bytes.length⟩] m (m.write a bytes) := by
  intro address hOutside
  simp only [byte, AddressSpace.write, data_mapData]
  exact get_write_of_not_mem m.data a address bytes (hOutside _ List.mem_cons_self)

/-- The second space comes from the first by stores in the regions. -/
structure StoresWithin (regions : List Region) (m n : AddressSpace) : Prop where
  stores : Stores m n
  agrees : AgreesOutside regions m n

namespace StoresWithin

variable {regions : List Region} {l m n : AddressSpace}

theorem refl (regions : List Region) (m : AddressSpace) : StoresWithin regions m m :=
  ⟨.refl m, .refl _ m⟩

theorem trans (first : StoresWithin regions l m) (second : StoresWithin regions m n) :
    StoresWithin regions l n :=
  ⟨first.stores.trans second.stores, first.agrees.trans second.agrees⟩

theorem mono {wider : List Region} (h : StoresWithin regions m n)
    (hSubset : ∀ r ∈ regions, r ∈ wider) : StoresWithin wider m n :=
  ⟨h.stores, h.agrees.mono hSubset⟩

theorem part {start offset : UInt16} {count length : Nat}
    (h : StoresWithin [⟨start + offset, count⟩] m n) (hFits : offset.toNat + count ≤ length) :
    StoresWithin [⟨start, length⟩] m n :=
  ⟨h.stores, h.agrees.part hFits⟩

theorem front {start : UInt16} {count length : Nat} (h : StoresWithin [⟨start, count⟩] m n)
    (hFits : count ≤ length) : StoresWithin [⟨start, length⟩] m n :=
  ⟨h.stores, h.agrees.front hFits⟩

theorem setByte (m : AddressSpace) (a : UInt16) (v : UInt8) :
    StoresWithin [⟨a, 1⟩] m (m.setByte a v) :=
  ⟨.setByte m a v, .setByte m a v⟩

theorem setWord (m : AddressSpace) (a v : UInt16) : StoresWithin [⟨a, 2⟩] m (m.setWord a v) :=
  ((setByte m a _).front (by decide)).trans ((setByte _ (a + 1) _).part (by decide))

theorem setLong (m : AddressSpace) (a : UInt16) (v : UInt32) :
    StoresWithin [⟨a, 4⟩] m (m.setLong a v) :=
  ((setWord m a _).front (by decide)).trans ((setWord _ (a + 2) _).part (by decide))

theorem write (m : AddressSpace) (a : UInt16) (bytes : List UInt8) :
    StoresWithin [⟨a, bytes.length⟩] m (m.write a bytes) :=
  ⟨.write m a bytes, .write m a bytes⟩

/-- Stores below an address, and then stores below those. -/
theorem below_trans {top : UInt16} {first second : Nat}
    (hFirst : StoresWithin [.below top first] l m)
    (hSecond : StoresWithin [.below (top - .ofNat first) second] m n) :
    StoresWithin [.below top (first + second)] l n := by
  have hUpper : top - .ofNat first = top - .ofNat (first + second) + .ofNat second := by
    rw [UInt16.ofNat_add]
    grind
  have hLower : top - .ofNat first - .ofNat second = top - .ofNat (first + second) := by
    rw [UInt16.ofNat_add]
    grind
  rw [Region.below, hUpper] at hFirst
  rw [Region.below, hLower] at hSecond
  refine (hFirst.part ?_).trans (hSecond.front (Nat.le_add_left ..))
  rw [UInt16.toNat_ofNat']
  have hShorter := Nat.mod_le second (2 ^ 16)
  omega

/-- A word is pushed. -/
theorem setWord_below (m : AddressSpace) (top value : UInt16) :
    StoresWithin [.below top 2] m (m.setWord (top - 2) value) :=
  setWord m (top - 2) value

-- A record is stored field by field, each at its offset in the region of the record.
variable {start offset : UInt16} {length : Nat} (h : StoresWithin [⟨start, length⟩] l m)

include h

theorem thenByte {v : UInt8} (hFits : offset.toNat + 1 ≤ length) :
    StoresWithin [⟨start, length⟩] l (m.setByte (start + offset) v) :=
  h.trans ((setByte m _ v).part hFits)

theorem thenWord {v : UInt16} (hFits : offset.toNat + 2 ≤ length) :
    StoresWithin [⟨start, length⟩] l (m.setWord (start + offset) v) :=
  h.trans ((setWord m _ v).part hFits)

theorem thenLong {v : UInt32} (hFits : offset.toNat + 4 ≤ length) :
    StoresWithin [⟨start, length⟩] l (m.setLong (start + offset) v) :=
  h.trans ((setLong m _ v).part hFits)

end StoresWithin

/-- A word at a distance from one that is stored. -/
theorem word_setWord_apart (m : AddressSpace) (a v : UInt16) {k : Nat} (hLow : 2 ≤ k)
    (hHigh : k + 1 < segmentSize) :
    (m.setWord a v).word (a + .ofNat k) = m.word (a + .ofNat k) := by
  have h : AgreesOutside [⟨a + .ofNat 0, 2⟩] m (m.setWord a v) := by
    simpa using (StoresWithin.setWord m a v).agrees
  exact h.word_offset (by decide) hHigh (by omega)

end AddressSpace

theorem Machine.stores_push {Cpu : Type} [StackPointer Cpu] (m : Machine Cpu) (value : UInt16) :
    AddressSpace.Stores m.memory (m.push value).memory :=
  .setWord _ _ _

theorem Machine.storesWithin_push {Cpu : Type} [StackPointer Cpu] (m : Machine Cpu)
    (value : UInt16) :
    AddressSpace.StoresWithin [.below (StackPointer.sp m.cpu) 2] m.memory
      (m.push value).memory :=
  .setWord_below ..

end VintageUnix
