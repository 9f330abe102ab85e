import VintageUnix.Proofs.HandlerRuns
import VintageUnix.Proofs.StringsInMemory
import VintageUnix.Proofs.TextFrame

/-! What an exec leaves of the new program. The argument frame is copied to the top of memory and
its pointers are relocated there by two scans, each up to a null pointer. They stay inside the
frame if it has both null pointers. The bound of the scans does not keep them there without:
each may go as far as the whole frame is long, wherever it starts, and so goes on around the
top of memory into the new program. -/
namespace VintageUnix.Minix

open AddressSpace (AgreesOutside)

/-- The scan of at most `count` pointers from `address` on has added the base to the first `k`,
and to nothing else. It ends early only at a null pointer. -/
structure Scan (base : UInt16) (count : Nat) (address : UInt16) (m : AddressSpace) (k : Nat)
    (n : AddressSpace) : Prop where
  le : k ≤ count
  nonzero : ∀ i < k, m.word (address + .ofNat (2 * i)) ≠ 0
  stops : k < count → m.word (address + .ofNat (2 * k)) = 0
  moved : ∀ i < k, n.word (address + .ofNat (2 * i)) = base + m.word (address + .ofNat (2 * i))
  kept : AgreesOutside [⟨address, 2 * k⟩] m n

theorem offset_add (base : UInt16) (j k : Nat) :
    base + .ofNat j + .ofNat k = base + .ofNat (j + k) := by
  rw [UInt16.add_assoc, ← UInt16.ofNat_add]

/-- A scan that begins with a pointer goes on behind it, where nothing has changed yet. -/
theorem Scan.step {base address : UInt16} {count k : Nat} {m n : AddressSpace}
    (hPointer : m.word address ≠ 0) (hCount : 2 * (count + 1) ≤ segmentSize)
    (h : Scan base count (address + 2) (m.setWord address (base + m.word address)) k n) :
    Scan base (count + 1) address m (k + 1) n := by
  have hLe := h.le
  have hSame (i : Nat) (hi : i < count) :
      (m.setWord address (base + m.word address)).word (address + 2 + .ofNat (2 * i)) =
        m.word (address + 2 + .ofNat (2 * i)) := by
    rw [← AddressSpace.add_ofNat_two_mul_succ]
    exact m.word_setWord_apart address _ (by omega) (by omega)
  constructor
  case le => omega
  case nonzero =>
    intro i hi
    cases i with
    | zero => simpa using hPointer
    | succ i =>
        rw [AddressSpace.add_ofNat_two_mul_succ, ← hSame i (by omega)]
        exact h.nonzero i (by omega)
  case stops =>
    intro hEarly
    rw [AddressSpace.add_ofNat_two_mul_succ, ← hSame k (by omega)]
    exact h.stops (by omega)
  case moved =>
    intro i hi
    cases i with
    | zero =>
        have hKept : AgreesOutside [⟨address + .ofNat 2, 2 * k⟩] _ n := h.kept
        rw [hKept.word_offset (by omega) (by decide) (by omega)]
        simp [AddressSpace.word_setWord]
    | succ i =>
        rw [AddressSpace.add_ofNat_two_mul_succ, ← hSame i (by omega)]
        exact h.moved i (by omega)
  case kept =>
    have hFirst := (AddressSpace.StoresWithin.setWord m address (base + m.word address)).agrees
    have hTwo : (2 : UInt16).toNat = 2 := rfl
    exact (hFirst.front (by omega)).trans (h.kept.part (by omega))

theorem exists_scan (base : UInt16) (count : Nat) (address : UInt16) (m : AddressSpace)
    (hCount : 2 * count ≤ segmentSize) :
    ∃ k n, relocate base count address m = (n, address + .ofNat (2 * k)) ∧
      Scan base count address m k n := by
  induction count generalizing address m with
  | zero =>
      refine ⟨0, m, by simp [relocate], ?_⟩
      constructor <;> simp [AgreesOutside.refl]
  | succ count ih =>
      by_cases hNull : m.word address = 0
      · refine ⟨0, m, by simp [relocate, hNull], ?_⟩
        constructor <;> simp [hNull, AgreesOutside.refl]
      · obtain ⟨k, n, hRun, hScan⟩ :=
          ih (address + 2) (m.setWord address (base + m.word address)) (by omega)
        refine ⟨k + 1, n, ?_, hScan.step hNull hCount⟩
        simp only [relocate, hNull, if_false, AddressSpace.add_ofNat_two_mul_succ]
        exact hRun

/-- The word with a number in a frame. The count of the arguments has number zero. -/
def frameWord (frame : List UInt8) (i : Nat) : UInt16 :=
  Word.ofBytes (frame[2 * i]?.getD 0) (frame[2 * i + 1]?.getD 0)

/-- Both pointer arrays end within the frame, or it is too short for a scan to begin. -/
def FrameEnds (frame : List UInt8) : Prop :=
  frame.length < 2 ∨
    ∃ i j, 0 < i ∧ i < j ∧ 2 * j + 1 < frame.length ∧ frameWord frame i = 0 ∧ frameWord frame j = 0

/-- Where a frame is placed. -/
def frameStart (frame : List UInt8) : UInt16 :=
  0 - .ofNat frame.length

theorem toNat_frameStart {frame : List UInt8} (hLength : frame.length < segmentSize)
    (hPositive : 0 < frame.length) :
    (frameStart frame).toNat = segmentSize - frame.length := by
  have hSize : segmentSize = 65536 := rfl
  rw [frameStart, UInt16.toNat_sub, UInt16.toNat_ofNat']
  change (2 ^ 16 - frame.length % 2 ^ 16 + 0) % 2 ^ 16 = _
  omega

theorem frameStart_ne_zero {frame : List UInt8} (hLength : frame.length < segmentSize)
    (hPositive : 0 < frame.length) : frameStart frame ≠ 0 := by
  intro hZero
  have hStart := toNat_frameStart hLength hPositive
  rw [hZero] at hStart
  change 0 = _ at hStart
  omega

theorem word_placed {frame : List UInt8} (m : AddressSpace)
    (hLength : frame.length < segmentSize) {i : Nat}
    (hi : 2 * i + 1 < frame.length) :
    (m.write (frameStart frame) frame).word (frameStart frame + .ofNat (2 * i)) =
      frameWord frame i := by
  have hLow := AddressSpace.byte_write m (frameStart frame) (Nat.le_of_lt hLength)
    (Nat.lt_of_succ_lt hi)
  have hHigh := AddressSpace.byte_write m (frameStart frame) (Nat.le_of_lt hLength) hi
  rw [UInt16.ofNat_add, ← UInt16.add_assoc] at hHigh
  rw [frameWord, List.getElem?_eq_getElem (Nat.lt_of_succ_lt hi), List.getElem?_eq_getElem hi]
  exact congrArg₂ Word.ofBytes hLow hHigh

/-- What placing a frame comes to: the second scan starts behind the pointer at which the first
one stopped. -/
structure Placed (frame : List UInt8) (m : AddressSpace) (first second : Nat)
    (middle n : AddressSpace) : Prop where
  arguments : Scan (frameStart frame) (frame.length / 2) (frameStart frame + .ofNat 2)
    (m.write (frameStart frame) frame) first middle
  environment : Scan (frameStart frame) (frame.length / 2)
    (frameStart frame + .ofNat (2 * first + 4)) middle second n

theorem exists_placed (frame : List UInt8) (m : Machine I8086.Cpu)
    (hLength : frame.length < segmentSize) :
    ∃ first second middle,
      Placed frame m.memory first second middle (placeFrame frame m).memory := by
  have hCount : 2 * (frame.length / 2) ≤ segmentSize := by omega
  obtain ⟨first, middle, hFirst, hArguments⟩ := exists_scan (frameStart frame)
    (frame.length / 2) (frameStart frame + 2) (m.memory.write (frameStart frame) frame) hCount
  have hBehind : frameStart frame + 2 + .ofNat (2 * first) + 2 =
      frameStart frame + .ofNat (2 * first + 4) := by
    rw [UInt16.ofNat_add]
    grind
  obtain ⟨second, n, hSecond, hEnvironment⟩ := exists_scan (frameStart frame)
    (frame.length / 2) (frameStart frame + .ofNat (2 * first + 4)) middle hCount
  refine ⟨first, second, middle, hArguments, ?_⟩
  have hMemory : (placeFrame frame m).memory = n := by
    let scan := relocate (frameStart frame) (frame.length / 2)
    let stopped := scan (frameStart frame + 2) (m.memory.write (frameStart frame) frame)
    change (scan (stopped.2 + 2) stopped.1).1 = n
    simp only [stopped, scan, hFirst, hBehind, hSecond]
  rw [hMemory]
  exact hEnvironment

namespace Placed

variable {frame : List UInt8} {m middle n : AddressSpace} {first second : Nat}

/-- What stands behind the pointers of the first scan is as it was placed. -/
theorem word_middle (h : Placed frame m first second middle n) {j : Nat} (hBehind : first < j)
    (hj : 2 * j + 1 < segmentSize) :
    middle.word (frameStart frame + .ofNat (2 * j)) =
      (m.write (frameStart frame) frame).word (frameStart frame + .ofNat (2 * j)) :=
  h.arguments.kept.word_offset (by omega) hj (by omega)

/-- The first scan ends before any null pointer behind the count. -/
theorem first_lt (h : Placed frame m first second middle n)
    (hLength : frame.length < segmentSize) {i : Nat} (hPositive : 0 < i)
    (hInside : 2 * i + 1 < frame.length) (hNull : frameWord frame i = 0) : first < i := by
  by_contra hBeyond
  obtain ⟨i, rfl⟩ := Nat.exists_eq_succ_of_ne_zero (Nat.ne_of_gt hPositive)
  refine h.arguments.nonzero i (by omega) ?_
  have hWord := word_placed m hLength hInside
  rw [hNull, Nat.succ_eq_add_one, Nat.mul_add, Nat.add_comm (2 * i)] at hWord
  rwa [offset_add]

/-- The second scan ends before any null pointer behind the one at which the first scan
stopped. -/
theorem second_le (h : Placed frame m first second middle n)
    (hLength : frame.length < segmentSize) {j : Nat} (hBehind : first + 1 < j)
    (hInside : 2 * j + 1 < frame.length) (hNull : frameWord frame j = 0) :
    first + 2 + second ≤ j := by
  by_contra hBeyond
  refine h.environment.nonzero (j - (first + 2)) (by omega) ?_
  have hPlace : 2 * first + 4 + 2 * (j - (first + 2)) = 2 * j := by omega
  rw [offset_add, hPlace, h.word_middle (by omega) (by omega), word_placed m hLength hInside,
    hNull]

/-- The frame and the pointers of both scans are all that changes. -/
theorem agreesOutside (h : Placed frame m first second middle n) {length : Nat}
    (hFrame : frame.length ≤ length) (hScans : 2 * first + 4 + 2 * second ≤ length) :
    AgreesOutside [⟨frameStart frame, length⟩] m n := by
  have hOffset (k : Nat) : (UInt16.ofNat k).toNat ≤ k := by
    rw [UInt16.toNat_ofNat']
    exact Nat.mod_le _ _
  have hFirst := hOffset 2
  have hSecond := hOffset (2 * first + 4)
  have hPlaced : AgreesOutside [⟨frameStart frame, frame.length⟩] m
      (m.write (frameStart frame) frame) := .write _ _ _
  refine (hPlaced.front hFrame).trans ?_
  exact (h.arguments.kept.part (by omega)).trans (h.environment.kept.part (by omega))

/-- With both null pointers inside the frame the scans do not leave it. -/
theorem spares (h : Placed frame m first second middle n) (hLength : frame.length < segmentSize)
    (hEnds : FrameEnds frame) : AgreesOutside [⟨frameStart frame, frame.length⟩] m n := by
  rcases hEnds with hShort | ⟨i, j, hPositive, hLess, hInside, hFirst, hSecond⟩
  · -- no scan begins
    have hArguments := h.arguments.le
    have hEnvironment := h.environment.le
    obtain rfl : first = 0 := by omega
    obtain rfl : second = 0 := by omega
    intro address hOutside
    have hEmpty (start : UInt16) : ∀ r ∈ [(⟨start, 2 * 0⟩ : Region)], address ∉ r := by
      simp [Region.mem_def]
    rw [h.environment.kept address (hEmpty _), h.arguments.kept address (hEmpty _)]
    exact AgreesOutside.write m _ frame address hOutside
  · have hArguments := h.first_lt hLength hPositive (by omega) hFirst
    have hEnvironment := h.second_le hLength (by omega) hInside hSecond
    exact h.agreesOutside (Nat.le_refl _) (by omega)

-- The word behind the frame is the first one of the new program.
section Program

variable (hLength : frame.length < segmentSize) (hEven : frame.length % 2 = 0)

include hEven

theorem frameStart_add_half :
    frameStart frame + .ofNat (2 * (frame.length / 2)) = 0 := by
  have hWhole : 2 * (frame.length / 2) = frame.length := by omega
  rw [hWhole, frameStart]
  grind

include hLength

theorem word_program (m : AddressSpace) :
    (m.write (frameStart frame) frame).word 0 = m.word 0 := by
  have hFrame : AgreesOutside [⟨frameStart frame + .ofNat 0, frame.length⟩] m
      (m.write (frameStart frame) frame) := by
    simpa using AgreesOutside.write m (frameStart frame) frame
  rw [← frameStart_add_half hEven]
  exact hFrame.word_offset (by omega) (by simp only [segmentSize] at *; omega) (by omega)

/-- A scan that stops at the second null pointer or at none goes past the end of an open frame,
unless the program begins with a null word. -/
theorem passes_end (h : Placed frame m first second middle n) (hOpen : ¬ FrameEnds frame)
    (hProgram : m.word 0 ≠ 0) (hStopped : first < frame.length / 2) :
    first + 1 < frame.length / 2 ∧ frame.length / 2 < first + 2 + second := by
  have hEnd := frameStart_add_half hEven
  have hNull := h.arguments.stops hStopped
  have hPlace : 2 + 2 * first = 2 * (first + 1) := by omega
  rw [offset_add, hPlace] at hNull
  have hInside : first + 1 < frame.length / 2 := by
    refine Nat.lt_of_le_of_ne hStopped fun hLast => ?_
    rw [hLast, hEnd, word_program hLength hEven] at hNull
    exact hProgram hNull
  refine ⟨hInside, ?_⟩
  by_contra hEarly
  have hSize : segmentSize = 65536 := rfl
  have hSecond := h.environment.stops (by omega)
  have hNext : 2 * first + 4 + 2 * second = 2 * (first + 2 + second) := by omega
  rw [offset_add, hNext, h.word_middle (by omega) (by omega)] at hSecond
  by_cases hLast : first + 2 + second = frame.length / 2
  · rw [hLast, hEnd, word_program hLength hEven] at hSecond
    exact hProgram hSecond
  · rw [word_placed m hLength (by omega)] at hNull hSecond
    exact hOpen (.inr ⟨first + 1, first + 2 + second, by omega, by omega, by omega, hNull, hSecond⟩)

/-- The second scan adds the start of the frame to the first word of the program. -/
theorem damages_by_environment (h : Placed frame m first second middle n)
    (hInside : first + 1 < frame.length / 2) (hPast : frame.length / 2 < first + 2 + second) :
    n.word 0 ≠ m.word 0 := by
  have hSize : segmentSize = 65536 := rfl
  have hEnd := frameStart_add_half hEven
  have hNonzero := frameStart_ne_zero hLength (by omega)
  have hMoved := h.environment.moved (frame.length / 2 - (first + 2)) (by omega)
  have hPlace : 2 * first + 4 + 2 * (frame.length / 2 - (first + 2)) =
      2 * (frame.length / 2) := by omega
  rw [offset_add, hPlace, h.word_middle (by omega) (by omega), hEnd,
    word_program hLength hEven] at hMoved
  grind

/-- A first scan without a null pointer ends behind the first word of the program. The second
one starts there, and comes to the word again only if the frame fills all other memory. -/
theorem damages_by_arguments (h : Placed frame m first second middle n)
    (hLong : 2 ≤ frame.length) (hWhole : first = frame.length / 2) : n.word 0 ≠ m.word 0 := by
  have hSize : segmentSize = 65536 := rfl
  have hEnd := frameStart_add_half hEven
  have hNonzero := frameStart_ne_zero hLength (by omega)
  have hMoved := h.arguments.moved (frame.length / 2 - 1) (by omega)
  have hPlace : 2 + 2 * (frame.length / 2 - 1) = 2 * (frame.length / 2) := by omega
  rw [offset_add, hPlace, hEnd, word_program hLength hEven] at hMoved
  subst hWhole
  have hNext : frameStart frame + .ofNat (2 * (frame.length / 2) + 4) = 4 := by
    rw [← offset_add, hEnd]
    rfl
  have hRound : (4 : UInt16) + .ofNat (2 * 32766) = 0 := rfl
  have hSecond := h.environment.le
  have hEnvironment := h.environment
  rw [hNext] at hEnvironment
  by_cases hTwice : 32766 < second
  · have hAgain := hEnvironment.moved 32766 hTwice
    have hTwo : frameStart frame = 2 := by
      rw [← UInt16.toNat_inj, toNat_frameStart hLength (by omega)]
      change _ = 2
      omega
    rw [hRound, hMoved, hTwo] at hAgain
    grind
  · have hKept : AgreesOutside [⟨4 + .ofNat 0, 2 * second⟩] middle n := hEnvironment.kept
    have hSame : n.word (4 + .ofNat (2 * 32766)) = middle.word (4 + .ofNat (2 * 32766)) :=
      hKept.word_offset (by omega) (by omega) (by omega)
    rw [hRound, hMoved] at hSame
    grind

/-- Without both null pointers in the frame the scans come to the first word of the program. -/
theorem damages (h : Placed frame m first second middle n) (hOpen : ¬ FrameEnds frame)
    (hProgram : m.word 0 ≠ 0) : n.word 0 ≠ m.word 0 := by
  have hLong : 2 ≤ frame.length := Nat.not_lt.1 fun hShort => hOpen (.inl hShort)
  have hFirst := h.arguments.le
  by_cases hStopped : first < frame.length / 2
  · obtain ⟨hInside, hPast⟩ := h.passes_end hLength hEven hOpen hProgram hStopped
    exact h.damages_by_environment hLength hEven hInside hPast
  · exact h.damages_by_arguments hLength hEven hLong (by omega)

end Program

end Placed

/-- What a successful exec leaves of the new program. The text of a split space is as it was
loaded, whatever the frame holds, and so is all data from a certain distance behind the
frame on. If both pointer arrays end inside the frame, all data outside it is as it was
loaded. Without that the exec changes the new program: if the frame consists of words and the
program does not begin with a null word, this is the first one to change. -/
theorem exec_spares_program_if_frame_ends {path : String} {frame size : UInt16}
    {s t : Session I8086.Cpu} (h : executeFrame path frame size s = (.ok (), t)) :
    ∃ image, conventions.loadFile s.host (s.process.hostPath path) = .ok image ∧
      image.memory.SameText t.memory ∧
      AgreesOutside [⟨0 - size, 2 * size.toNat + 4⟩] image.memory t.memory ∧
      (FrameEnds (s.memory.read frame size.toNat) →
        AgreesOutside [⟨0 - size, size.toNat⟩] image.memory t.memory) ∧
      (¬ FrameEnds (s.memory.read frame size.toNat) → size.toNat % 2 = 0 →
        image.memory.word 0 ≠ 0 → t.memory.word 0 ≠ image.memory.word 0) := by
  obtain ⟨image, hLoad⟩ := loads_of_executeFrame (congrArg Prod.fst h)
  obtain ⟨u, hRun, hMachine⟩ := executeFrame_of_load frame size hLoad
  obtain rfl : t = u := congrArg Prod.snd (h.symm.trans hRun)
  let bytes := s.memory.read frame size.toNat
  have hBytes : bytes.length = size.toNat := AddressSpace.length_read _ _ _
  have hLength : bytes.length < segmentSize := hBytes ▸ size.toNat_lt
  have hStart : frameStart bytes = 0 - size := by
    rw [frameStart, hBytes, UInt16.ofNat_toNat]
  obtain ⟨first, second, middle, hPlaced⟩ := exists_placed bytes image.machine hLength
  have hMemory : t.memory = (placeFrame bytes image.machine).memory :=
    congrArg Machine.memory hMachine
  rw [← hMemory] at hPlaced
  refine ⟨image, hLoad, ?_, ?_, ?_, ?_⟩
  · rw [hMemory]
    exact (stores_placeFrame bytes image.machine).sameText
  · have hFirst := hPlaced.arguments.le
    have hSecond := hPlaced.environment.le
    rw [← hStart, ← hBytes]
    exact hPlaced.agreesOutside (by omega) (by omega)
  · intro hEnds
    rw [← hStart, ← hBytes]
    exact hPlaced.spares hLength hEnds
  · intro hOpen hEven hProgram
    rw [← hBytes] at hEven
    exact hPlaced.damages hLength hEven hOpen hProgram

/-- A program that exits with code seven. -/
private abbrev exitingProgram : List UInt8 :=
  [0xbb, 0x10, 0x00, 0xcd, 0x20, 0x90, 0x90, 0x90, 0x90, 0x90, 0x90, 0x90, 0x90, 0x90, 0x90, 0x90,
    0x00, 0x00, 0x01, 0x00, 0x07, 0x00]

/-- A process with the program as the file `a`, and a frame for one argument in its memory. -/
private abbrev withFrame : Session I8086.Cpu :=
  conventions.start
    { memory := AddressSpace.shared.write 0x100
        [1, 0, 8, 0, 0, 0, 0, 0, 0x70, 0x72, 0x6f, 0x67, 0, 0],
      entry := 0, format := .raw }
    {} { tree := { inodes := #[⟨0o755, .directory 0 [("a", 1)]⟩, ⟨0o644, .file exitingProgram⟩] } }

/-- Behind the two null pointers of the frame stands the name of the program. -/
theorem exec_spares_program_if_frame_ends_prog :
    ∃ image t, executeFrame "a" 0x100 14 withFrame = (.ok (), t) ∧
      conventions.loadFile withFrame.host (withFrame.process.hostPath "a") = .ok image ∧
      AgreesOutside [⟨0 - 14, 14⟩] image.memory t.memory := by
  have hRuns : (executeFrame "a" 0x100 14 withFrame).1.toOption = some () := by
    decide +kernel
  have hEnds : FrameEnds (withFrame.memory.read 0x100 14) := by
    have hFrame : withFrame.memory.read 0x100 14 =
        [1, 0, 8, 0, 0, 0, 0, 0, 0x70, 0x72, 0x6f, 0x67, 0, 0] := by
      decide +kernel
    rw [hFrame]
    exact .inr ⟨2, 3, by decide⟩
  have hExecuted : executeFrame "a" 0x100 14 withFrame =
      (.ok (), (executeFrame "a" 0x100 14 withFrame).2) :=
    Prod.ext (ok_of_toOption hRuns) rfl
  obtain ⟨image, hLoad, -, -, hSpares, -⟩ := exec_spares_program_if_frame_ends hExecuted
  exact ⟨image, _, hExecuted, hLoad, hSpares hEnds⟩

/-- A frame of nothing but the count leaves the scans no null pointer. The call of the new program
is changed into one that does not exist. -/
theorem exec_changes_program_behind_count :
    (executeFrame "a" 0x100 2 withFrame).1.toOption = some () ∧
      (executeFrame "a" 0x100 2 withFrame).2.memory.read 0 5 = [0xb9, 0x10, 0x00, 0xcd, 0x1e] ∧
      (conventions.loadFile withFrame.host (withFrame.process.hostPath "a")).toOption.map
        (·.memory.read 0 5) = some [0xbb, 0x10, 0x00, 0xcd, 0x20] := by
  decide +kernel

end VintageUnix.Minix
