import VintageUnix.Image.Minix
import VintageUnix.Image.UnixV6
import VintageUnix.Proofs.SegmentFilling

/-! What a file announces to a loader, and what becomes of it. An image that is loaded has the
bytes of the file where they were announced to be, as far as they have a place in memory. The
sizes and the break are cut to words. So nothing is lost and the break protects the data only if
everything that is announced ends inside memory. -/
namespace VintageUnix

/-- What a file announces: where in it the text starts, how long the text, the data behind it and
the cleared memory are, whether text and data have a segment each, and where the data shall start
in theirs. The numbers are as in the file, not yet cut to the width of an address. -/
structure Announcement where
  offset : Nat
  text : Nat
  data : Nat
  bss : Nat
  separate : Bool
  dataStart : Nat

namespace Announcement

/-- Where the initialized data shall end. -/
def dataEnd (a : Announcement) : Nat :=
  a.dataStart + a.data

/-- The byte announced for a place in the data segment. -/
def dataByte (a : Announcement) (bytes : List UInt8) (place : Nat) : UInt8 :=
  if a.dataStart ≤ place ∧ place < a.dataEnd then
    fileByte bytes (a.offset + a.text + (place - a.dataStart))
  else if a.separate = false ∧ place < a.text then fileByte bytes (a.offset + place)
  else 0

/-- The byte announced for a place in the text segment, which without a segment of its own is
the data segment. -/
def textByte (a : Announcement) (bytes : List UInt8) (place : Nat) : UInt8 :=
  if a.separate then if place < a.text then fileByte bytes (a.offset + place) else 0
  else a.dataByte bytes place

/-- Memory holds what the file announces, with everything cut off that does not fit in it. -/
structure Filled (a : Announcement) (bytes : List UInt8) (m : AddressSpace) : Prop where
  isSplit : m.isSplit = a.separate
  text : ∀ i, m.text.get i = a.textByte bytes i.toNat
  data : ∀ i, m.data.get i = a.dataByte bytes i.toNat

/-- The sizes that memory records are those announced, cut to words. -/
structure Sized (a : Announcement) (m : AddressSpace) : Prop where
  textSize : m.textSize = .ofNat a.text
  dataSize : m.dataSize = .ofNat a.data
  brk : m.brk = .ofNat (a.dataEnd + a.bss)

/-- Text and data of one segment keep clear of each other, and the data start in memory or
where it ends. -/
structure Ordered (a : Announcement) : Prop where
  apart : a.separate = false → a.text ≤ a.dataStart
  dataStart_le : a.dataStart ≤ segmentSize

/-- Memory was filled as the file announces. -/
structure Loaded (a : Announcement) (bytes : List UInt8) (m : AddressSpace) : Prop
    extends a.Filled bytes m, a.Sized m, a.Ordered

variable {a : Announcement} {bytes : List UInt8} {m : AddressSpace}

/-- Data of a segment of their own start at its start. -/
theorem filled_of_separate (hSeparate : a.separate = true) (hStart : a.dataStart = 0)
    (hLayout : m.layout = .split (Segment.zero.place 0 (filePart bytes a.offset a.text))
      (Segment.zero.place 0 (filePart bytes (a.offset + a.text) a.data))) :
    a.Filled bytes m where
  isSplit := by rw [AddressSpace.isSplit, hLayout, hSeparate]
  text i := by
    rw [AddressSpace.text, hLayout, textByte, if_pos hSeparate]
    exact (Segment.filledFrom bytes a.offset a.text).get i
  data i := by
    rw [AddressSpace.data, hLayout]
    simp only [(Segment.filledFrom bytes (a.offset + a.text) a.data).get i, dataByte, dataEnd,
      hSeparate, hStart, Nat.zero_le, true_and, Nat.zero_add, Nat.sub_zero, Bool.true_eq_false,
      false_and, if_false]

theorem filled_of_shared {s : Segment} (hShared : a.separate = false)
    (hLayout : m.layout = .shared s) (hBytes : ∀ i, s.get i = a.dataByte bytes i.toNat) :
    a.Filled bytes m where
  isSplit := by rw [AddressSpace.isSplit, hLayout, hShared]
  text i := by
    rw [AddressSpace.text, hLayout, textByte, hShared]
    exact hBytes i
  data i := by
    rw [AddressSpace.data, hLayout]
    exact hBytes i

/-- Data that start right behind the text are copied together with it. -/
theorem filled_of_contiguous (hShared : a.separate = false) (hBehind : a.dataStart = a.text)
    (hLayout : m.layout =
      .shared (Segment.zero.place 0 (filePart bytes a.offset (a.text + a.data)))) :
    a.Filled bytes m := by
  refine filled_of_shared hShared hLayout fun i => ?_
  simp only [(Segment.filledFrom bytes a.offset (a.text + a.data)).get i, dataByte, dataEnd,
    hShared, hBehind, true_and]
  split
  next hInside =>
    split
    next hData => rw [Nat.add_assoc, Nat.add_sub_cancel' hData.1]
    next hNot => rw [if_pos (by omega)]
  next hOutside => rw [if_neg (by omega), if_neg (by omega)]

/-- Data that start further up are copied on their own. -/
theorem filled_of_apart (hShared : a.separate = false) (hOrdered : a.Ordered)
    (hLayout : m.layout = .shared ((Segment.zero.place 0 (filePart bytes a.offset a.text)).place
      a.dataStart (filePart bytes (a.offset + a.text) a.data))) :
    a.Filled bytes m := by
  have hApart := hOrdered.apart hShared
  refine filled_of_shared hShared hLayout fun i => ?_
  have hText := (Segment.filledFrom bytes a.offset a.text).get i
  rw [Segment.get_place_filePart _ hOrdered.dataStart_le bytes i fun hBehind => by
    rw [hText, if_neg (by omega)], hText]
  by_cases hBehind : a.dataStart ≤ i.toNat
  · have hNotText : ¬ i.toNat < a.text := by omega
    simp only [dataByte, dataEnd, hShared, hBehind, hNotText, true_and, if_true, if_false]
  · simp only [dataByte, hShared, hBehind, true_and, false_and, if_false]

/-- Every byte of text and data that is announced has a place of its own, and lies there. -/
structure Complete (a : Announcement) (bytes : List UInt8) (m : AddressSpace) : Prop where
  text : ∀ i < a.text, i < segmentSize ∧ m.text.get (.ofNat i) = fileByte bytes (a.offset + i)
  data : ∀ i < a.data, a.dataStart + i < segmentSize ∧
    m.data.get (.ofNat (a.dataStart + i)) = fileByte bytes (a.offset + a.text + i)
  apart : m.isSplit = false → a.text ≤ a.dataStart

/-- A stack pointer that is not below the break is not below the end of the data. -/
def Protected (a : Announcement) (m : AddressSpace) : Prop :=
  ∀ sp : UInt16, ¬ sp < m.brk → a.dataEnd ≤ sp.toNat

theorem Complete.ends_le (hOrdered : a.Ordered) (h : a.Complete bytes m) :
    a.text ≤ segmentSize ∧ a.dataEnd ≤ segmentSize := by
  have hStart := hOrdered.dataStart_le
  constructor <;> by_contra hPast
  · have := (h.text segmentSize (by omega)).1
    omega
  · have := (h.data (segmentSize - a.dataStart) (by rw [dataEnd] at hPast; omega)).1
    omega

theorem Loaded.complete (h : a.Loaded bytes m) (hText : a.text ≤ segmentSize)
    (hData : a.dataEnd ≤ segmentSize) : a.Complete bytes m where
  text i hi := by
    have hInside : i < segmentSize := by omega
    refine ⟨hInside, ?_⟩
    rw [h.text, UInt16.toNat_ofNat_of_lt' hInside, textByte, if_pos hi]
    cases hSeparate : a.separate with
    | true => exact if_pos rfl
    | false =>
        have hApart := h.apart hSeparate
        simp only [dataByte, hSeparate, hi, Bool.false_eq_true, if_false, true_and, if_true]
        exact if_neg (by omega)
  data i hi := by
    have hInside : a.dataStart + i < segmentSize := by
      rw [dataEnd] at hData
      omega
    refine ⟨hInside, ?_⟩
    rw [h.data, UInt16.toNat_ofNat_of_lt' hInside, dataByte, dataEnd,
      if_pos ⟨by omega, by omega⟩, Nat.add_sub_cancel_left]
  apart hShared := h.apart (h.isSplit ▸ hShared)

theorem Loaded.complete_iff (h : a.Loaded bytes m) :
    a.Complete bytes m ↔ a.text ≤ segmentSize ∧ a.dataEnd ≤ segmentSize :=
  ⟨fun hComplete => hComplete.ends_le h.toOrdered, fun hEnds => h.complete hEnds.1 hEnds.2⟩

theorem Sized.sizes_iff (h : a.Sized m) :
    m.textSize.toNat = a.text ∧ m.dataSize.toNat = a.data ↔
      a.text < segmentSize ∧ a.data < segmentSize := by
  rw [h.textSize, h.dataSize, UInt16.toNat_ofNat', UInt16.toNat_ofNat']
  exact and_congr (Nat.mod_eq_iff_lt (by decide)) (Nat.mod_eq_iff_lt (by decide))

theorem protected_iff_le_brk : a.Protected m ↔ a.dataEnd ≤ m.brk.toNat := by
  constructor
  · exact fun h => h m.brk (UInt16.lt_irrefl m.brk)
  · intro h sp hGuard
    exact Nat.le_trans h (UInt16.le_iff_toNat_le.1 (UInt16.not_lt.1 hGuard))

/-- The break protects the data unless adding the cleared memory to them leaves memory. -/
theorem Sized.protected_iff (h : a.Sized m) :
    a.Protected m ↔ a.dataEnd + a.bss % segmentSize < segmentSize := by
  rw [protected_iff_le_brk, h.brk, UInt16.toNat_ofNat']
  simp only [segmentSize]
  omega

/-- What a file announces fits if its sizes are words and its data, with the cleared memory cut to
a word, end below the top of memory. -/
def Fits (a : Announcement) : Prop :=
  a.text < segmentSize ∧ a.data < segmentSize ∧ a.dataEnd + a.bss % segmentSize < segmentSize

instance (a : Announcement) : Decidable a.Fits :=
  inferInstanceAs (Decidable (_ ∧ _ ∧ _))

end Announcement

/-- A file without a header is nothing but text. -/
def Announcement.ofRaw (bytes : List UInt8) : Announcement where
  offset := 0
  text := bytes.length
  data := 0
  bss := 0
  separate := false
  dataStart := bytes.length

theorem Image.loaded_ofRaw {bytes : List UInt8} {image : Image} (h : ofRaw bytes = .ok image) :
    (Announcement.ofRaw bytes).Loaded bytes image.memory ∧ bytes.length < segmentSize := by
  unfold ofRaw at h
  split at h
  next => cases h
  next hShort =>
    have hWhole : filePart bytes 0 (bytes.length + 0) = bytes := List.take_length
    have hLength : bytes.length < segmentSize := Nat.lt_succ_of_le (Nat.not_lt.1 hShort)
    cases h
    refine ⟨⟨?_, ⟨rfl, rfl, rfl⟩, fun _ => Nat.le_refl _, Nat.le_of_lt hLength⟩, hLength⟩
    refine Announcement.filled_of_contiguous rfl rfl ?_
    change Layout.shared _ = .shared (Segment.zero.place 0 (filePart bytes 0 (bytes.length + 0)))
    rw [hWhole]

namespace Minix.Header

/-- What a header says. -/
def announcement (h : Header) : Announcement where
  offset := h.length.toNat
  text := h.text.toNat
  data := h.data.toNat
  bss := h.bss.toNat
  separate := h.isSeparate
  dataStart := if h.isSeparate then 0 else h.text.toNat

theorem filled_memory (h : Header) (bytes : List UInt8) :
    h.announcement.Filled bytes (h.memory bytes) := by
  cases hSeparate : h.isSeparate with
  | true =>
      refine Announcement.filled_of_separate hSeparate (if_pos hSeparate) ?_
      simp only [memory, hSeparate, if_true, announcement]
  | false =>
      have hStart : h.announcement.dataStart = h.text.toNat := by
        simp only [announcement, hSeparate, Bool.false_eq_true, if_false]
      refine Announcement.filled_of_contiguous hSeparate hStart ?_
      simp only [memory, hSeparate, Bool.false_eq_true, if_false, announcement]

theorem sized_memory (h : Header) (bytes : List UInt8) :
    h.announcement.Sized (h.memory bytes) := by
  cases hSeparate : h.isSeparate <;>
    constructor <;>
    simp [memory, hSeparate, announcement, Announcement.dataEnd]

theorem fits_iff (h : Header) : h.fits = true ↔
    if h.isSeparate then h.text.toNat < segmentSize ∧ h.data.toNat < segmentSize
    else h.text.toNat + h.data.toNat ≤ segmentSize := by
  unfold fits
  split <;> simp

/-- Segments that fit end inside memory. -/
theorem ends_of_fits {h : Header} (hFits : h.fits = true) :
    h.announcement.text ≤ segmentSize ∧ h.announcement.dataEnd ≤ segmentSize := by
  rw [fits_iff] at hFits
  cases hSeparate : h.isSeparate <;>
    simp only [hSeparate, announcement, Announcement.dataEnd, Bool.false_eq_true, if_true,
      if_false] at hFits ⊢ <;>
    omega

/-- The check never refuses what fits. -/
theorem fits_of_announcement {h : Header} (hFits : h.announcement.Fits) : h.fits = true := by
  obtain ⟨hText, hData, hEnd⟩ := hFits
  rw [fits_iff]
  cases hSeparate : h.isSeparate <;>
    simp only [hSeparate, announcement, Announcement.dataEnd, Bool.false_eq_true, if_true,
      if_false] at hText hData hEnd ⊢ <;>
    omega

theorem ordered {h : Header} (hFits : h.fits = true) : h.announcement.Ordered where
  apart hShared := by
    have hCombined : h.isSeparate = false := hShared
    simp [announcement, hCombined]
  dataStart_le := Nat.le_of_add_right_le (ends_of_fits hFits).2

end Minix.Header

namespace UnixV6.Header

/-- What a header says to those who know the layout. -/
def announcement (h : Header) (format : Format) : Announcement where
  offset := size
  text := h.text.toNat
  data := h.data.toNat
  bss := h.bss.toNat
  separate := format = .v6Separate
  dataStart := match format with
    | .v6Separate => 0
    | .v6SharedText => h.alignedData
    | _ => h.text.toNat

/-- Rounding up never leaves memory. The text is shorter than memory, which is a multiple of
eight kilobytes itself. -/
theorem ordered (h : Header) (format : Format) : (h.announcement format).Ordered := by
  have hText : h.text.toNat < segmentSize := Segment.toNat_lt_segmentSize h.text
  simp only [segmentSize] at hText
  cases format <;>
    constructor <;>
    simp only [announcement, alignedData, segmentSize, reduceCtorEq, decide_false, decide_true,
      Bool.true_eq_false, false_implies, Nat.zero_le] <;>
    omega

theorem filled_memory (h : Header) (target : Target) (format : Format) (bytes : List UInt8) :
    (h.announcement format).Filled bytes (h.memory target format bytes) := by
  cases format with
  | v6Separate => exact Announcement.filled_of_separate rfl rfl rfl
  | v6SharedText => exact Announcement.filled_of_apart rfl (h.ordered _) rfl
  | raw | minixCombined | minixSeparate | v6Contiguous =>
      exact Announcement.filled_of_contiguous rfl rfl rfl

theorem sized_memory (h : Header) (target : Target) (format : Format) (bytes : List UInt8) :
    (h.announcement format).Sized (h.memory target format bytes) := by
  cases format <;>
    constructor <;>
    simp [memory, announcement, Announcement.dataEnd]

end UnixV6.Header

/-- What can be loaded as a file of which kind. -/
inductive Loader where
  | raw
  | minix
  | unixV6 (target : UnixV6.Target)
  deriving DecidableEq, Repr

namespace Loader

def load : Loader → List UInt8 → Except LoadError Image
  | raw => Image.ofRaw
  | minix => Minix.load
  | unixV6 target => UnixV6.load target

/-- What a file says to a loader. One without the right header is taken as it is. -/
def announcement (l : Loader) (bytes : List UInt8) : Announcement :=
  match l with
  | raw => .ofRaw bytes
  | minix => match Minix.Header.ofBytes? bytes with
    | some h => h.announcement
    | none => .ofRaw bytes
  | unixV6 target =>
    if bytes.length < UnixV6.Header.size then .ofRaw bytes
    else match target.format? (fileWord bytes 0) with
      | some format => (UnixV6.Header.ofBytes bytes).announcement format
      | none => .ofRaw bytes

/-- What loading comes to: a file is taken as it is, or by what its header says. -/
inductive Loads : Loader → List UInt8 → Except LoadError Image → Prop
  | asItIs {l bytes result} (hAnnounced : l.announcement bytes = .ofRaw bytes)
    (hResult : Image.ofRaw bytes = result) : Loads l bytes result
  | unknownCpu {bytes} (id : UInt8) : Loads minix bytes (.error (.unknownCpu id))
  | misfit {bytes} {h : Minix.Header} (hAnnounced : minix.announcement bytes = h.announcement)
    (hNot : h.fits = false) : Loads minix bytes (.error (.segmentsTooLarge h.text h.data))
  | minix {bytes image} {h : Minix.Header} (hAnnounced : minix.announcement bytes = h.announcement)
    (hFits : h.fits = true) (hMemory : image.memory = h.memory bytes) :
    Loads minix bytes (.ok image)
  | unixV6 {target format bytes image} (h : UnixV6.Header)
    (hAnnounced : (unixV6 target).announcement bytes = h.announcement format)
    (hMemory : image.memory = h.memory target format bytes) :
    Loads (unixV6 target) bytes (.ok image)

theorem loads (l : Loader) (bytes : List UInt8) : l.Loads bytes (l.load bytes) := by
  cases l with
  | raw => exact .asItIs rfl rfl
  | minix =>
      simp only [load, Minix.load]
      split
      next hNone => exact .asItIs (by simp only [announcement, hNone]) rfl
      next h hSome =>
        have hAnnounced : Loader.minix.announcement bytes = h.announcement := by
          simp only [announcement, hSome]
        cases hFits : h.fits <;> split
        · exact .unknownCpu _
        · exact .misfit hAnnounced hFits
        · exact .unknownCpu _
        · exact .minix hAnnounced hFits rfl
  | unixV6 target =>
      simp only [load, UnixV6.load]
      split
      next hShort => exact .asItIs (by simp only [announcement, hShort, if_true]) rfl
      next hLong =>
        split
        next hNone => exact .asItIs (by simp only [announcement, hLong, if_false, hNone]) rfl
        next format hSome =>
          exact .unixV6 _ (by simp only [announcement, hLong, if_false, hSome]) rfl

variable {l : Loader} {bytes : List UInt8} {image : Image}

/-- Every loader fills memory as the file announces to it. -/
theorem loaded (h : l.load bytes = .ok image) :
    (l.announcement bytes).Loaded bytes image.memory := by
  have hLoads := h ▸ l.loads bytes
  cases hLoads with
  | asItIs hAnnounced hResult =>
      rw [hAnnounced]
      exact (Image.loaded_ofRaw hResult).1
  | minix hAnnounced hFits hMemory =>
      rw [hAnnounced, hMemory]
      exact ⟨Minix.Header.filled_memory _ bytes, Minix.Header.sized_memory _ bytes,
        Minix.Header.ordered hFits⟩
  | unixV6 header hAnnounced hMemory =>
      rw [hAnnounced, hMemory]
      exact ⟨header.filled_memory _ _ bytes, header.sized_memory _ _ bytes, header.ordered _⟩

/-- Without a header the length is checked, and so are the sizes for Minix. -/
theorem ends_le (h : l.load bytes = .ok image) (hChecked : ∀ target, l ≠ .unixV6 target) :
    (l.announcement bytes).text ≤ segmentSize ∧
      (l.announcement bytes).dataEnd ≤ segmentSize := by
  have hLoads := h ▸ l.loads bytes
  cases hLoads with
  | asItIs hAnnounced hResult =>
      have hLess := Nat.le_of_lt (Image.loaded_ofRaw hResult).2
      rw [hAnnounced]
      exact ⟨hLess, hLess⟩
  | minix hAnnounced hFits hMemory =>
      rw [hAnnounced]
      exact Minix.Header.ends_of_fits hFits
  | unixV6 => exact absurd rfl (hChecked _)

/-- Only a loader for Minix refuses a file for its sizes, and only if they do not fit. -/
theorem refused {e : LoadError} (h : l.load bytes = .error e) :
    e = .tooLarge bytes.length ∧ segmentSize ≤ bytes.length ∨
      l = .minix ∧ ((∃ id, e = .unknownCpu id) ∨
        e = .segmentsTooLarge (.ofNat (l.announcement bytes).text)
            (.ofNat (l.announcement bytes).data) ∧
          ¬ (l.announcement bytes).Fits) := by
  have hLoads := h ▸ l.loads bytes
  cases hLoads with
  | asItIs hAnnounced hResult =>
      unfold Image.ofRaw at hResult
      split at hResult
      next hLong =>
        cases hResult
        exact .inl ⟨rfl, hLong⟩
      next => cases hResult
  | unknownCpu id => exact .inr ⟨rfl, .inl ⟨id, rfl⟩⟩
  | misfit hAnnounced hNot =>
      rw [hAnnounced]
      refine .inr ⟨rfl, .inr ⟨by simp [Minix.Header.announcement], fun hFits => ?_⟩⟩
      rw [Minix.Header.fits_of_announcement hFits] at hNot
      cases hNot

end Loader

/-- An accepted image has everything in its place exactly if text and data end in memory, records
the announced sizes exactly if they are words, and protects its data exactly if the break does not
wrap. Those who load for Unix V6 check none of this. Whoever refuses a file for its sizes has a
reason to, and those who load for Minix, or without a header, at least drop nothing. -/
theorem image_as_far_as_it_fits (l : Loader) (bytes : List UInt8) :
    (∀ image, l.load bytes = .ok image →
      let a := l.announcement bytes
      (a.Complete bytes image.memory ↔ a.text ≤ segmentSize ∧ a.dataEnd ≤ segmentSize) ∧
      (image.memory.textSize.toNat = a.text ∧ image.memory.dataSize.toNat = a.data ↔
        a.text < segmentSize ∧ a.data < segmentSize) ∧
      (a.Protected image.memory ↔ a.dataEnd + a.bss % segmentSize < segmentSize) ∧
      ((∀ target, l ≠ .unixV6 target) → a.Complete bytes image.memory)) ∧
    ∀ e, l.load bytes = .error e →
      e = .tooLarge bytes.length ∧ segmentSize ≤ bytes.length ∨
        l = .minix ∧ ((∃ id, e = .unknownCpu id) ∨
          e = .segmentsTooLarge (.ofNat (l.announcement bytes).text)
              (.ofNat (l.announcement bytes).data) ∧
            ¬ (l.announcement bytes).Fits) := by
  refine ⟨fun image h => ?_, fun e h => Loader.refused h⟩
  have hLoaded := Loader.loaded h
  refine ⟨hLoaded.complete_iff, hLoaded.sizes_iff, hLoaded.protected_iff, fun hChecked => ?_⟩
  exact hLoaded.complete_iff.2 (Loader.ends_le h hChecked)

/-- Text of four bytes, data of two on the next boundary and six bytes that are cleared. -/
theorem image_as_far_as_it_fits_sharedText :
    let bytes := [8, 1, 4, 0, 2, 0, 6, 0, 0, 0, 0, 0, 0, 0, 1, 0, 10, 11, 12, 13, 14, 15]
    let a := (Loader.unixV6 .pdp11).announcement bytes
    ∃ image, (Loader.unixV6 .pdp11).load bytes = .ok image ∧
      a.Complete bytes image.memory ∧ a.Protected image.memory ∧
      image.memory.textSize.toNat = 4 ∧ image.memory.dataSize.toNat = 2 := by
  intro bytes a
  refine ⟨_, rfl, ?_⟩
  obtain ⟨hComplete, hSizes, hProtected, -⟩ :=
    (image_as_far_as_it_fits (.unixV6 .pdp11) bytes).1 _ rfl
  exact ⟨hComplete.2 (by decide), hProtected.2 (by decide), hSizes.2 (by decide)⟩

/-- A header that announces 65535 bytes of text and two of data behind them is accepted. The second
of the data has no place, and the break is at one, far below the data. -/
theorem contiguous_file_past_memory :
    let bytes := [7, 1, 0xff, 0xff, 2, 0, 0, 0, 0, 0, 0, 0, 0, 0, 0, 0, 0, 0, 0xaa, 0xbb]
    let a := (Loader.unixV6 .pdp11).announcement bytes
    ∃ image, (Loader.unixV6 .pdp11).load bytes = .ok image ∧
      ¬ a.Complete bytes image.memory ∧ image.memory.brk = 1 ∧ ¬ a.Protected image.memory := by
  intro bytes a
  refine ⟨_, rfl, ?_⟩
  have hLoaded := @Loader.loaded (.unixV6 .pdp11) bytes _ rfl
  refine ⟨fun hComplete => ?_, hLoaded.brk.trans (by decide), fun hProtected => ?_⟩
  · exact absurd (hLoaded.complete_iff.1 hComplete) (by decide)
  · exact absurd (hLoaded.protected_iff.1 hProtected) (by decide)

end VintageUnix
