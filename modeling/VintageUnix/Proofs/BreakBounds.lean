import VintageUnix.Proofs.ArgumentVectors
import VintageUnix.Proofs.CallFootprint
import VintageUnix.Proofs.FlagInstructions
import VintageUnix.Proofs.LoadedImages
import VintageUnix.Proofs.ProgramRuns

/-! Where a program can move its break. The bound from above is the stack, with a kilobyte between.
The bound from below is the size of the data as it was recorded when the image was loaded, which is
where they end only in a segment of their own. -/
namespace VintageUnix

open AddressSpace (Stores)
open Session (Logs)

/-- The sizes that were recorded when memory was filled are the same. -/
structure AddressSpace.SameSizes (m n : AddressSpace) : Prop where
  textSize : n.textSize = m.textSize
  dataSize : n.dataSize = m.dataSize
  textLimit : n.textLimit = m.textLimit

theorem AddressSpace.SameSizes.stores {l m n : AddressSpace} (h : SameSizes l m)
    (hStores : Stores m n) : SameSizes l n := by
  obtain ⟨f, rfl⟩ := hStores
  exact ⟨h.textSize, h.dataSize, h.textLimit⟩

section Common

variable {Cpu : Type} [Processor Cpu]

/-- A program has the sizes of its image for as long as it runs. -/
theorem programInvariant_sameSizes [LawfulProcessor Cpu] (note : UInt16 → Cpu → Cpu) :
    ProgramInvariant note fun image m => image.memory.SameSizes m.memory where
  fresh _ := ⟨rfl, rfl, rfl⟩
  restored _ h := h
  stores h hStores := h.stores hStores
  moveBreak _ h := ⟨h.textSize, h.dataSize, h.textLimit⟩
  setIp _ h := h
  setSp _ h := h
  setEntrySp _ h := h
  setAccumulator _ h := h
  setCarry _ h := h
  note _ h := h
  execute i h := h.stores (LawfulProcessor.stores_execute i _)

namespace Session

/-- The break can be moved to an address. -/
def AcceptsBreak (s : Session Cpu) (address : UInt16) : Prop :=
  s.memory.dataSize ≤ address ∧ address.toNat < s.breakLimit

instance (s : Session Cpu) (address : UInt16) : Decidable (s.AcceptsBreak address) :=
  inferInstanceAs (Decidable (_ ∧ _))

/-- The machine after an attempt to move the break. -/
def machineAfterBreak (address : UInt16) (s : Session Cpu) : Machine Cpu :=
  if s.AcceptsBreak address then s.process.machine.mapMemory ({ · with brk := address })
  else s.process.machine

variable {s t : Session Cpu} {address : UInt16}

theorem setBreak_eq (address : UInt16) (s : Session Cpu) :
    (s.setBreak address).1 =
        (if s.AcceptsBreak address then .ok 0 else .error .outOfMemory) ∧
      (s.setBreak address).2.process.machine = s.machineAfterBreak address := by
  have hRefused : (address < s.memory.dataSize || s.breakLimit ≤ address.toNat) = true ↔
      ¬ s.AcceptsBreak address := by
    simp only [AcceptsBreak, Bool.or_eq_true, decide_eq_true_eq, not_and_or, UInt16.not_le,
      Int.not_lt]
  simp only [setBreak, conclude, machineAfterBreak, hRefused]
  by_cases hAccepts : s.AcceptsBreak address
  · simp only [hAccepts, not_true_eq_false, if_false, if_true, (Logs.trace ..).process]
    exact ⟨trivial, rfl⟩
  · simp only [hAccepts, not_false_eq_true, if_false, if_true, (Logs.trace ..).process, and_self]

/-- There is a kilobyte between the break and the stack. -/
theorem AcceptsBreak.add_le_sp (h : s.AcceptsBreak address) :
    address.toNat + 0x400 ≤ (StackPointer.sp s.cpu).toNat := by
  have hBelow := h.2
  unfold breakLimit at hBelow
  omega

theorem brk_machineAfterBreak (address : UInt16) (s : Session Cpu) :
    (s.machineAfterBreak address).memory.brk =
      if s.AcceptsBreak address then address else s.memory.brk := by
  unfold machineAfterBreak
  split <;> rfl

theorem cpu_machineAfterBreak (address : UInt16) (s : Session Cpu) :
    (s.machineAfterBreak address).cpu = s.cpu := by
  unfold machineAfterBreak
  split <;> rfl

/-- No instruction is stopped because the stack reaches into the data. -/
def KeepsClear (s : Session Cpu) : Prop :=
  ∀ (ip length : UInt16) (warning : String),
    System.guard ip length s.process.machine ≠ some (.stackOverflow, warning)

theorem keepsClear (h : s.memory.brk ≤ StackPointer.sp s.cpu) : s.KeepsClear := by
  intro ip length warning
  have hNot : ¬ StackPointer.sp s.process.machine.cpu < s.process.machine.memory.brk :=
    UInt16.not_lt.2 h
  simp only [System.guard, hNot, if_false]
  split <;> simp

/-- A handler finds two bytes less on the stack. -/
theorem keepsClear_enterHandler [LawfulPointers Cpu] (handler : UInt16)
    (h : s.memory.brk.toNat + 2 ≤ (StackPointer.sp s.cpu).toNat) :
    (System.enterHandler handler s).KeepsClear := by
  apply keepsClear
  have hSp : StackPointer.sp (System.enterHandler handler s).cpu = StackPointer.sp s.cpu - 2 :=
    (LawfulPointers.sp_setIp _ _).trans (LawfulPointers.sp_setSp _ _)
  have hTwo : (2 : UInt16) ≤ StackPointer.sp s.cpu := by
    rw [UInt16.le_iff_toNat_le]
    exact Nat.le_of_add_left_le h
  rw [hSp, UInt16.le_iff_toNat_le, UInt16.toNat_sub_of_le _ _ hTwo]
  exact Nat.le_sub_of_add_le h

end Session
end Common

/-- A call that was answered moved the break if it could, and left the stack where it was. -/
structure Session.BreakAnswered {Cpu : Type} [Processor Cpu] (address : UInt16)
    (s t : Session Cpu) : Prop where
  brk : t.memory.brk = if s.AcceptsBreak address then address else s.memory.brk
  sp : StackPointer.sp t.cpu = StackPointer.sp s.cpu

namespace Minix

theorem answer_of_brk (run : Runner I8086.Cpu) {s : Session I8086.Cpu}
    (hCall : Call.ofNumber? (s.memory.word (s.cpu.get .bx + 2)) = some (.ordinary .brk)) :
    ∃ t, answer run messageTrap s = some (t, .ok ()) ∧
      s.BreakAnswered (s.memory.word (s.cpu.get .bx + 10)) t := by
  let block := s.cpu.get .bx
  let address := s.memory.word (block + 10)
  let moved := (s.setBreak address).2
  let done := OrdinaryCall.perform .brk block s
  have hMachine : moved.process.machine = s.machineAfterBreak address := (s.setBreak_eq address).2
  have hDone : done.2.memory.brk = moved.memory.brk ∧ done.2.cpu = moved.cpu := by
    simp only [done, moved, OrdinaryCall.perform]
    generalize s.setBreak _ = reply
    obtain ⟨result, u⟩ := reply
    cases result <;> exact ⟨rfl, rfl⟩
  have hPerform : perform run block s = some (.reply done.1 done.2) := by
    simp only [perform, block, hCall, Call.perform, done]
  refine ⟨_, answer_of_reply hPerform, ?_⟩
  constructor
  case brk =>
    rw [← Session.brk_machineAfterBreak, ← hMachine]
    cases done.1 <;> exact hDone.1
  case sp =>
    have hCpu : done.2.cpu = s.cpu := by
      rw [hDone.2, ← s.cpu_machineAfterBreak address, ← hMachine]
      rfl
    rw [← hCpu]
    cases done.1 <;> exact done.2.cpu.get_set .ax .sp 0

end Minix

namespace UnixV6

variable {Cpu : Type} [Platform Cpu] [LawfulStack Cpu]

theorem answer_of_brk (run : Runner Cpu) {trap : UInt16} {s : Session Cpu}
    (hCall : Call.ofNumber? (request trap s).1 = some (.ordinary .brk)) :
    ∃ t, answer run trap s = some (t, .ok ()) ∧
      s.BreakAnswered ((request trap s).2.word s.memory 0) t := by
  obtain ⟨-, hMachine⟩ := s.setBreak_eq ((request trap s).2.word s.memory 0)
  refine ⟨_, answer_of_reply (perform_of_ordinary hCall), ?_⟩
  constructor
  case brk =>
    rw [← Session.brk_machineAfterBreak, ← hMachine]
    rfl
  case sp =>
    apply (sp_resume _ _ _).trans
    rw [← Session.cpu_machineAfterBreak ((request trap s).2.word s.memory 0) s, ← hMachine]
    rfl

end UnixV6

namespace Personality

/-- The trap asks for the break to be moved to an address. -/
def AsksBreak : (p : Personality) → (trap address : UInt16) → Session p.Cpu → Prop
  | .minix => fun trap address (s : Session I8086.Cpu) =>
    trap = Minix.messageTrap ∧
      Minix.Call.ofNumber? (s.memory.word (s.cpu.get .bx + 2)) = some (.ordinary .brk) ∧
      s.memory.word (s.cpu.get .bx + 10) = address
  | .unixV6Pdp11 => fun trap address (s : Session Pdp11.Cpu) =>
    UnixV6.Call.ofNumber? (UnixV6.request trap s).1 = some (.ordinary .brk) ∧
      (UnixV6.request trap s).2.word s.memory 0 = address
  | .unixV6I8086 => fun trap address (s : Session I8086.Cpu) =>
    UnixV6.Call.ofNumber? (UnixV6.request trap s).1 = some (.ordinary .brk) ∧
      (UnixV6.request trap s).2.word s.memory 0 = address

theorem answer_of_asksBreak {p : Personality} {trap address : UInt16} {s : Session p.Cpu}
    (run : Runner p.Cpu) (h : p.AsksBreak trap address s) :
    ∃ t, p.system.answer run trap s = some (t, .ok ()) ∧ s.BreakAnswered address t := by
  cases p with
  | minix =>
      obtain ⟨rfl, hCall, rfl⟩ := h
      exact Minix.answer_of_brk run hCall
  | unixV6Pdp11 =>
      obtain ⟨hCall, rfl⟩ := h
      exact @UnixV6.answer_of_brk Pdp11.Cpu _ _ run trap s hCall
  | unixV6I8086 =>
      obtain ⟨hCall, rfl⟩ := h
      exact @UnixV6.answer_of_brk I8086.Cpu _ _ run trap s hCall

end Personality

/-- Data with a segment of their own start at its start. -/
theorem Loader.dataStart_of_separate {l : Loader} {bytes : List UInt8} {image : Image}
    (hLoad : l.load bytes = .ok image) (hSeparate : (l.announcement bytes).separate = true) :
    (l.announcement bytes).dataStart = 0 := by
  have hLoads := hLoad ▸ l.loads bytes
  cases hLoads with
  | asItIs hAnnounced =>
      rw [hAnnounced] at hSeparate
      cases hSeparate
  | minix hAnnounced =>
      rw [hAnnounced] at hSeparate ⊢
      exact if_pos hSeparate
  | @unixV6 target format _ _ header hAnnounced =>
      rw [hAnnounced] at hSeparate ⊢
      obtain rfl : format = .v6Separate := of_decide_eq_true hSeparate
      rfl

section

variable {Cpu : Type} [Processor Cpu] {s : Session Cpu} {a : Announcement}

theorem Session.AcceptsBreak.size_le {address : UInt16} (h : s.AcceptsBreak address)
    (hSize : s.memory.dataSize = .ofNat a.data) : a.data % segmentSize ≤ address.toNat := by
  have hLe := UInt16.le_iff_toNat_le.1 h.1
  rwa [hSize, UInt16.toNat_ofNat'] at hLe

/-- The smallest break that is accepted is the recorded size of the data. -/
theorem Session.accepted_spares_data_iff (hSize : s.memory.dataSize = .ofNat a.data) :
    (∀ address, s.AcceptsBreak address → a.dataEnd ≤ address.toNat) ↔
      a.dataEnd ≤ a.data % segmentSize ∨ s.breakLimit ≤ (a.data % segmentSize : Nat) := by
  have hRecorded : s.memory.dataSize.toNat = a.data % segmentSize := by
    rw [hSize, UInt16.toNat_ofNat']
    rfl
  constructor
  · intro hSpares
    by_cases hLimit : s.breakLimit ≤ (a.data % segmentSize : Nat)
    · exact .inr hLimit
    · have hLeast : s.AcceptsBreak s.memory.dataSize :=
        ⟨UInt16.le_refl _, by rw [hRecorded]; exact Int.not_le.1 hLimit⟩
      exact .inl (hRecorded ▸ hSpares _ hLeast)
  · rintro (hEnd | hLimit) address hAccepts
    · exact Nat.le_trans hEnd (hAccepts.size_le hSize)
    · have hSizeLe := hAccepts.size_le hSize
      have hBelow := hAccepts.2
      omega

end

/-- For a process whose program is from a file that a loader accepts, in every session that comes
up: the break moves to an address exactly if that is not below the recorded size of the data and
below the limit under the stack. Otherwise it stays. Where it can be moved it leaves a kilobyte to
the stack, and neither the next instruction nor the first one of a handler fails for the stack. It
spares the data exactly if their end is their recorded size, as in a segment of their own, or if
the stack leaves no room to move it. -/
theorem break_between_recorded_size_and_stack {p : Personality} {l : Loader}
    {bytes : List UInt8} {image : Image} {s : Session p.Cpu} (hLoad : l.load bytes = .ok image)
    (hRuns : p.RunsFrom image s) :
    let a := l.announcement bytes
    (∀ address, (s.setBreak address).1 =
        (if s.AcceptsBreak address then .ok 0 else .error .outOfMemory) ∧
      (s.setBreak address).2.process.machine = s.machineAfterBreak address) ∧
    (∀ address, s.AcceptsBreak address → a.data % segmentSize ≤ address.toNat ∧
      address.toNat + 0x400 ≤ (StackPointer.sp s.cpu).toNat) ∧
    ((∀ address, s.AcceptsBreak address → a.dataEnd ≤ address.toNat) ↔
      a.dataEnd ≤ a.data % segmentSize ∨ s.breakLimit ≤ (a.data % segmentSize : Nat)) ∧
    (a.separate = true → a.data < segmentSize →
      ∀ address, s.AcceptsBreak address → a.dataEnd ≤ address.toNat) ∧
    ∀ (run : Runner p.Cpu) (trap address : UInt16), p.AsksBreak trap address s →
      ∃ t, p.system.answer run trap s = some (t, .ok ()) ∧
        t.memory.brk = (if s.AcceptsBreak address then address else s.memory.brk) ∧
        (s.AcceptsBreak address →
          t.KeepsClear ∧ ∀ handler, (System.enterHandler handler t).KeepsClear) := by
  intro a
  have hSizes := (programInvariant_sameSizes p.noteStatus).runsFrom hRuns
  have hSize : s.memory.dataSize = .ofNat a.data :=
    hSizes.dataSize.trans (Loader.loaded hLoad).dataSize
  refine ⟨fun address => s.setBreak_eq address, fun address h => ⟨h.size_le hSize, h.add_le_sp⟩,
    Session.accepted_spares_data_iff hSize, ?_, ?_⟩
  · intro hSeparate hWord
    apply (Session.accepted_spares_data_iff hSize).2
    have hEnd : a.dataEnd = a.data % segmentSize := by
      rw [Announcement.dataEnd, Loader.dataStart_of_separate hLoad hSeparate, Nat.zero_add,
        Nat.mod_eq_of_lt hWord]
    exact .inl (Nat.le_of_eq hEnd)
  · intro run trap address hAsks
    obtain ⟨t, hAnswer, hBrk, hSp⟩ := Personality.answer_of_asksBreak run hAsks
    refine ⟨t, hAnswer, hBrk, fun hAccepts => ?_⟩
    have hRoom := hAccepts.add_le_sp
    rw [if_pos hAccepts] at hBrk
    rw [← hSp, ← hBrk] at hRoom
    constructor
    · apply Session.keepsClear
      rw [UInt16.le_iff_toNat_le]
      omega
    · intro handler
      apply Session.keepsClear_enterHandler
      omega

/-- A file with a text of six bytes, which asks for the break to be moved to address four, and data
of two. The first byte says how they are placed. -/
private abbrev askingForFour (magic : UInt8) : List UInt8 :=
  [magic, 1, 6, 0, 2, 0, 0, 0, 0, 0, 0, 0, 0, 0, 1, 0, 0x11, 0x89, 4, 0, 1, 0x89, 0xaa, 0xbb]

private abbrev imageForFour (magic : UInt8) (format : Format) : Image :=
  let bytes := askingForFour magic
  let header := UnixV6.Header.ofBytes bytes
  { memory := header.memory .pdp11 format bytes
    entry := header.entry
    format
    symbols := UnixV6.readSymbols (bytes.drop header.symbolOffset)
      (header.symbols.toNat / UnixV6.symbolSize) }

/-- A process at the trap of a program that was started with its name alone. -/
private abbrev trapped (image : Image) : Session Personality.unixV6Pdp11.Cpu :=
  let c : Conventions Pdp11.Cpu := UnixV6.conventions
  (System.advance ((c.start image {} {}).mapMachine (c.layOut ["a"] []))).1

private theorem runsFrom_trapped (image : Image) :
    Personality.unixV6Pdp11.RunsFrom image (trapped image) :=
  .instruction (.startFile image {} {} ["a"] [])

/-- Data with a segment of their own are spared. -/
theorem break_between_recorded_size_and_stack_separate :
    let s := trapped (imageForFour 9 .v6Separate)
    (Loader.unixV6 .pdp11).load (askingForFour 9) = .ok (imageForFour 9 .v6Separate) ∧
      (∀ address, s.AcceptsBreak address → 2 ≤ address.toNat) ∧
      ∃ t, Personality.unixV6Pdp11.system.answer (fun _ => none) 17 s = some (t, .ok ()) ∧
        t.memory.brk = 4 ∧ t.KeepsClear := by
  intro s
  have hLoad : (Loader.unixV6 .pdp11).load (askingForFour 9) = .ok (imageForFour 9 .v6Separate) :=
    rfl
  obtain ⟨-, -, -, hSpares, hAnswers⟩ :=
    break_between_recorded_size_and_stack hLoad (runsFrom_trapped _)
  have hAccepts : s.AcceptsBreak 4 := by
    decide +kernel
  obtain ⟨t, hAnswer, hBrk, hClear⟩ :=
    hAnswers (fun _ => none) 17 4 ⟨by decide +kernel, by decide +kernel⟩
  exact ⟨hLoad, hSpares (by decide) (by decide), t, hAnswer, hBrk.trans (if_pos hAccepts),
    (hClear hAccepts).1⟩

/-- The same text and data in one segment. All of the file fits with room to spare, and the break
is moved into the text, below the data at six. -/
theorem break_moves_below_data :
    let s := trapped (imageForFour 7 .v6Contiguous)
    let a := (Loader.unixV6 .pdp11).announcement (askingForFour 7)
    (Loader.unixV6 .pdp11).load (askingForFour 7) = .ok (imageForFour 7 .v6Contiguous) ∧
      a.text + a.data + a.bss ≤ segmentSize ∧
      Personality.unixV6Pdp11.RunsFrom (imageForFour 7 .v6Contiguous) s ∧
      Personality.unixV6Pdp11.AsksBreak 17 4 s ∧
      (s.setBreak 4).1 = .ok 0 ∧ (s.setBreak 4).2.memory.brk = 4 ∧ a.dataEnd = 8 := by
  intro s a
  have hAccepts : s.AcceptsBreak 4 := by
    decide +kernel
  obtain ⟨hResult, hMachine⟩ := s.setBreak_eq 4
  rw [Session.machineAfterBreak, if_pos hAccepts] at hMachine
  exact ⟨rfl, by decide, runsFrom_trapped _, ⟨by decide +kernel, by decide +kernel⟩,
    hResult.trans (if_pos hAccepts), congrArg (·.memory.brk) hMachine, by decide⟩

end VintageUnix
