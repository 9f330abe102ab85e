import VintageUnix.Proofs.CacheTransparency
import VintageUnix.Proofs.FlagInstructions
import VintageUnix.Proofs.HandlerRuns

/-! The delivery of a signal to a handler that does nothing but change flags. Whatever stack the
signal finds, the program goes on as if nothing had happened, unless the place that the
signal puts on the stack is where the stack was when the program started. -/
namespace VintageUnix

open VintageUnix.System (handlerLoop enterHandler)

section Engine

variable {Cpu : Type} [Processor Cpu]

/-- At an address there are so many instructions that change flags at most, one after the
other, and then a plain return. All of them may be executed. -/
def Processor.FlagsThenReturn (Cpu : Type) [Processor Cpu] (m : AddressSpace) :
    (count : Nat) → (address : UInt16) → Prop
  | 0, address =>
    let i : Processor.Instruction Cpu := Processor.fetch m.text.get address
    (∀ limit, m.textLimit = some limit → address.toNat + (Processor.length i).toNat ≤ limit) ∧
      Processor.PlainReturn i
  | count + 1, address =>
    let i : Processor.Instruction Cpu := Processor.fetch m.text.get address
    (∀ limit, m.textLimit = some limit → address.toNat + (Processor.length i).toNat ≤ limit) ∧
      Processor.OnlyFlags i ∧ FlagsThenReturn Cpu m count (address + Processor.length i)

theorem Session.CacheSound.advance [LawfulProcessor Cpu] {s : Session Cpu} (h : s.CacheSound) :
    (System.advance s).1.CacheSound :=
  (Session.Uncached.advance (t := s.withoutCache) ⟨h, rfl⟩).2.1

theorem System.guard_eq_none {ip length : UInt16} {m : Machine Cpu}
    (hText : ∀ limit, m.memory.textLimit = some limit → ip.toNat + length.toNat ≤ limit)
    (hStack : m.memory.brk ≤ StackPointer.sp m.cpu) : guard ip length m = none := by
  have hInside : m.memory.textLimit.any (· < ip.toNat + length.toNat) = false := by
    cases hLimit : m.memory.textLimit with
    | none => rfl
    | some limit => simpa using hText limit hLimit
  simp only [guard, hInside, Bool.false_eq_true, if_false, if_neg (UInt16.not_lt.2 hStack)]

/-- An instruction that may be executed does what the processor does with it. -/
theorem System.advance_of_execute [LawfulProcessor Cpu] {s : Session Cpu}
    {i : Processor.Instruction Cpu} {m : Machine Cpu} {event : Event} (hSound : s.CacheSound)
    (hFetch : Processor.fetch s.memory.text.get (Processor.ip s.cpu) = i)
    (hText : ∀ limit, s.memory.textLimit = some limit →
      (Processor.ip s.cpu).toNat + (Processor.length i).toNat ≤ limit)
    (hStack : s.memory.brk ≤ StackPointer.sp s.cpu)
    (hExecute : Processor.execute i (s.process.machine.mapCpu
      (Processor.setIp · (Processor.ip s.cpu + Processor.length i))) = (m, .ok event)) :
    ∃ t, advance s = (t, .ok event) ∧ s.Advances t ∧ t.process.machine = m ∧ t.CacheSound := by
  have hFetched : s.process.fetch.1 = i := (hSound.fetch (Processor.ip s.cpu)).1.trans hFetch
  have hMachine (registers instruction : String) :
      ((({ s with process := s.process.fetch.2 } : Session Cpu).trace .registers .trace .registers
        registers).trace .instructions .trace .execution instruction).process.machine =
      s.process.machine := by
    rw [(Session.Logs.trace _ _ _ _ _).process, (Session.Logs.trace _ _ _ _ _).process]
    rfl
  have hGuard : guard (Processor.ip s.cpu) (Processor.length i) s.process.machine = none :=
    guard_eq_none hText hStack
  have hOutcome : (advance s).2 = .ok event ∧ (advance s).1.process.machine = m := by
    simp only [advance, hFetched, hMachine, hGuard, hExecute, true_and]
    rfl
  exact ⟨(advance s).1, Prod.ext rfl hOutcome.1, advances_advance s, hOutcome.2, hSound.advance⟩

theorem Conventions.takePending_eq_none {c : Conventions Cpu} {h k : Host}
    (hPending : c.takePending h = none) (hSignals : k.signals = h.signals) :
    c.takePending k = none := by
  unfold takePending at hPending ⊢
  rw [Option.map_eq_none_iff] at hPending ⊢
  rw [hSignals]
  exact hPending

theorem System.step_of_advance {sys : System Cpu} {s t : Session Cpu} {event : Event}
    (hPending : sys.takePending s.host = none) (hAdvance : advance s = (t, .ok event))
    (bound : Nat) : sys.step (bound + 1) s = match event with
      | .proceed => some (t, .ok ())
      | .finished => some (t.setState (.terminated 0), .ok ())
      | .trap number => sys.answer (sys.run bound) number t := by
  change sys.stepWith (sys.run bound) (sys.deliver bound) s = _
  simp only [stepWith, hPending, executeNext, hAdvance]
  cases event <;> rfl

theorem System.ended_eq_false {ip sp : UInt16} {s : Session Cpu} (hRunning : s.isRunning = true)
    (hSp : StackPointer.sp s.cpu ≠ sp) : handlerLoop.ended ip sp s = false := by
  simp [handlerLoop.ended, hRunning, hSp]

/-- The second session is at an address, and comes from the first by instructions that change
flags at most. -/
structure Session.FlagsOnlyTo (s : Session Cpu) (address : UInt16) (t : Session Cpu) : Prop where
  advances : s.Advances t
  memory : t.memory = s.memory
  ip : Processor.ip t.cpu = address
  sp : StackPointer.sp t.cpu = StackPointer.sp s.cpu
  entrySp : Processor.entrySp t.cpu = Processor.entrySp s.cpu
  sound : t.CacheSound

theorem Session.FlagsOnlyTo.isRunning {s t : Session Cpu} {address : UInt16}
    (h : s.FlagsOnlyTo address t) : t.isRunning = s.isRunning := by
  unfold Session.isRunning
  rw [h.advances.process]
  rfl

variable [LawfulProcessor Cpu] [LawfulPointers Cpu]

/-- One instruction that changes flags at most is one step on the way. -/
theorem Session.FlagsOnlyTo.step {sys : System Cpu} {s t : Session Cpu} {address : UInt16}
    {i : Processor.Instruction Cpu} (h : s.FlagsOnlyTo address t)
    (hPending : sys.takePending s.host = none) (hStack : s.memory.brk ≤ StackPointer.sp s.cpu)
    (hFetch : Processor.fetch s.memory.text.get address = i)
    (hText : ∀ limit, s.memory.textLimit = some limit →
      address.toNat + (Processor.length i).toNat ≤ limit)
    (hFlags : Processor.OnlyFlags i) (bound : Nat) :
    ∃ u, sys.step (bound + 1) t = some (u, .ok ()) ∧
      s.FlagsOnlyTo (address + Processor.length i) u := by
  obtain ⟨hAdvances, hMemory, rfl, hSp, hEntrySp, hSound⟩ := h
  let next : Machine Cpu := t.process.machine.mapCpu
    (Processor.setIp · (Processor.ip t.cpu + Processor.length i))
  obtain ⟨c, hExecute, hIp', hSp', hEntrySp'⟩ := hFlags next
  rw [← hMemory] at hFetch hText hStack
  rw [← hSp] at hStack
  obtain ⟨u, hAdvance, hNext, hMachine, hSound'⟩ :=
    System.advance_of_execute hSound hFetch hText hStack hExecute
  have hQuiet : sys.takePending t.host = none :=
    Conventions.takePending_eq_none hPending (by rw [hAdvances.host])
  have hCpu : u.cpu = c := by
    show u.process.machine.cpu = c
    rw [hMachine]
  refine ⟨u, System.step_of_advance hQuiet hAdvance bound, hAdvances.trans hNext, ?_, ?_, ?_, ?_,
    hSound'⟩
  · show u.process.machine.memory = s.memory
    rw [hMachine]
    exact hMemory
  · rw [hCpu, hIp']
    exact LawfulPointers.ip_setIp _ _
  · rw [hCpu, hSp', ← hSp]
    exact LawfulPointers.sp_setIp _ _
  · rw [hCpu, hEntrySp', ← hEntrySp]
    exact LawfulPointers.entrySp_setIp _ _

/-- All of them are steps of a handler, since the stack pointer is never where it was when the
handler was entered. -/
theorem Session.FlagsOnlyTo.exists_handles {sys : System Cpu} {s t : Session Cpu}
    {count : Nat} {address sp : UInt16} (ip : UInt16) (h : s.FlagsOnlyTo address t)
    (hRunning : s.isRunning = true) (hPending : sys.takePending s.host = none)
    (hStack : s.memory.brk ≤ StackPointer.sp s.cpu) (hInside : StackPointer.sp s.cpu ≠ sp)
    (hCode : Processor.FlagsThenReturn Cpu s.memory count address) (bound : Nat) :
    ∃ last u, System.Handles (sys.step (bound + 1)) ip sp count t u ∧ s.FlagsOnlyTo last u ∧
      Processor.FlagsThenReturn Cpu s.memory 0 last := by
  induction count generalizing address t with
  | zero => exact ⟨address, t, .refl t, h, hCode⟩
  | succ count ih =>
      obtain ⟨hText, hFlags, hRest⟩ := hCode
      obtain ⟨v, hStep, hNext⟩ := h.step hPending hStack rfl hText hFlags bound
      obtain ⟨last, u, hHandles, hLast, hReturn⟩ := ih hNext hRest
      refine ⟨last, u, .head ?_ hStep hHandles, hLast, hReturn⟩
      apply System.ended_eq_false
      · rw [h.isRunning]
        exact hRunning
      · rw [h.sp]
        exact hInside

/-- The return ends the program at the entry stack pointer, and elsewhere takes it to the place
on the stack. -/
theorem Session.FlagsOnlyTo.exists_return {sys : System Cpu} {s t : Session Cpu}
    {address : UInt16} (h : s.FlagsOnlyTo address t)
    (hPending : sys.takePending s.host = none) (hStack : s.memory.brk ≤ StackPointer.sp s.cpu)
    (hReturn : Processor.FlagsThenReturn Cpu s.memory 0 address) (bound : Nat) :
    ∃ u, s.Advances u ∧ u.memory = s.memory ∧
      if StackPointer.sp s.cpu = Processor.entrySp s.cpu then
        sys.step (bound + 1) t = some (u.setState (.terminated 0), .ok ())
      else sys.step (bound + 1) t = some (u, .ok ()) ∧
        Processor.ip u.cpu = s.memory.word (StackPointer.sp s.cpu) ∧
        StackPointer.sp u.cpu = StackPointer.sp s.cpu + 2 := by
  obtain ⟨hAdvances, hMemory, rfl, hSp, hEntrySp, hSound⟩ := h
  obtain ⟨hText, hReturn⟩ := hReturn
  generalize hFetch : (Processor.fetch s.memory.text.get (Processor.ip t.cpu) :
    Processor.Instruction Cpu) = i at hText hReturn
  let next : Machine Cpu := t.process.machine.mapCpu
    (Processor.setIp · (Processor.ip t.cpu + Processor.length i))
  have hNextSp : StackPointer.sp next.cpu = StackPointer.sp s.cpu := by
    rw [← hSp]
    exact LawfulPointers.sp_setIp _ _
  have hNextEntry : Processor.entrySp next.cpu = Processor.entrySp s.cpu := by
    rw [← hEntrySp]
    exact LawfulPointers.entrySp_setIp _ _
  have hQuiet : sys.takePending t.host = none :=
    Conventions.takePending_eq_none hPending (by rw [hAdvances.host])
  rw [← hMemory] at hFetch hText hStack
  rw [← hSp] at hStack
  split
  next hEntry =>
    have hExecute := hReturn.finishes (hNextSp.trans (hEntry.trans hNextEntry.symm))
    obtain ⟨u, hAdvance, hLast, hMachine, -⟩ :=
      System.advance_of_execute hSound hFetch hText hStack hExecute
    refine ⟨u, hAdvances.trans hLast, ?_, System.step_of_advance hQuiet hAdvance bound⟩
    show u.process.machine.memory = s.memory
    rw [hMachine]
    exact hMemory
  next hBelow =>
    have hInside : StackPointer.sp next.cpu ≠ Processor.entrySp next.cpu := by
      rw [hNextSp, hNextEntry]
      exact hBelow
    obtain ⟨c, hExecute, hIp, hSpAfter⟩ := hReturn.returns hInside
    obtain ⟨u, hAdvance, hLast, hMachine, -⟩ :=
      System.advance_of_execute hSound hFetch hText hStack hExecute
    have hCpu : u.cpu = c := by
      show u.process.machine.cpu = c
      rw [hMachine]
    refine ⟨u, hAdvances.trans hLast, ?_, System.step_of_advance hQuiet hAdvance bound, ?_, ?_⟩
    · show u.process.machine.memory = s.memory
      rw [hMachine]
      exact hMemory
    · rw [hCpu, hIp, hNextSp, ← hMemory]
      rfl
    · rw [hCpu, hSpAfter, hNextSp]

/-- The delivery of a signal to a handler that changes flags and returns. The stack must have
room for a word. -/
theorem System.deliver_of_flagsThenReturn {sys : System Cpu} {s : Session Cpu}
    {signal handler : UInt16} {count bound : Nat} (hRunning : s.isRunning = true)
    (hSound : s.CacheSound)
    (hHandler : sys.disposition (s.process.signals.get signal).handler = .catch handler)
    (hCode : Processor.FlagsThenReturn Cpu
      (s.memory.setWord (StackPointer.sp s.cpu - 2) (Processor.ip s.cpu)) count handler)
    (hPending : sys.takePending s.host = none)
    (hStack : s.memory.brk ≤ StackPointer.sp s.cpu - 2) (hBound : count < bound) :
    ∃ t, sys.deliver bound signal s = some (t, .ok ()) ∧
      t.memory = s.memory.setWord (StackPointer.sp s.cpu - 2) (Processor.ip s.cpu) ∧
      t.process = { s.process with
        machine := t.process.machine, cache := t.process.cache, state := t.process.state } ∧
      t.host = { s.host with journal := t.host.journal } ∧
      if StackPointer.sp s.cpu - 2 = Processor.entrySp s.cpu then
        t.process.state = .terminated 0
      else t.isRunning = true ∧ t.cpu = s.cpu := by
  let entered := enterHandler handler s
  have hSp : StackPointer.sp entered.cpu = StackPointer.sp s.cpu - 2 :=
    (LawfulPointers.sp_setIp _ _).trans (LawfulPointers.sp_setSp _ _)
  have hEntrySp : Processor.entrySp entered.cpu = Processor.entrySp s.cpu :=
    (LawfulPointers.entrySp_setIp _ _).trans (LawfulPointers.entrySp_setSp _ _)
  have hStart : entered.FlagsOnlyTo handler entered :=
    ⟨.refl _, rfl, LawfulPointers.ip_setIp _ _, rfl, rfl,
      hSound.mapMachine (Machine.stores_push _ _)⟩
  have hRoom : entered.memory.brk ≤ StackPointer.sp entered.cpu := by
    rw [hSp]
    exact hStack
  have hBelow : StackPointer.sp entered.cpu ≠ StackPointer.sp s.cpu := by
    rw [hSp]
    intro hSame
    have hTwo : (2 : UInt16) = 0 := by grind
    exact absurd hTwo (by decide)
  obtain ⟨bound, rfl⟩ : ∃ rest, bound = rest + 1 := Nat.exists_eq_add_one.2 (by omega)
  obtain ⟨last, u, hHandles, hLast, hReturn⟩ :=
    hStart.exists_handles (Processor.ip s.cpu) hRunning hPending hRoom hBelow hCode bound
  have hInside : handlerLoop.ended (Processor.ip s.cpu) (StackPointer.sp s.cpu) u = false := by
    apply ended_eq_false
    · rw [hLast.isRunning]
      exact hRunning
    · rw [hLast.sp]
      exact hBelow
  obtain ⟨v, hAdvances, hMemory, hStep⟩ := hLast.exists_return hPending hRoom hReturn bound
  rw [hSp, hEntrySp] at hStep
  split at hStep
  next hEntry =>
    have hEnded : handlerLoop.ended (Processor.ip s.cpu) (StackPointer.sp s.cpu)
        (v.setState (.terminated 0)) = true := rfl
    refine ⟨v.setState (.terminated 0),
      deliver_of_ended hHandler (hHandles.trans (.single hInside hStep)) hEnded hBound, hMemory,
      ?_, hAdvances.host, ?_⟩
    · show { v.process with state := RunState.terminated 0 } = _
      rw [hAdvances.process]
      rfl
    · rw [if_pos hEntry]
      rfl
  next hElsewhere =>
    obtain ⟨hStep, hIp, hSpAfter⟩ := hStep
    have hRunning' : v.isRunning = true := by
      unfold Session.isRunning
      rw [hAdvances.process]
      exact hRunning
    have hPlace : Processor.ip v.cpu = Processor.ip s.cpu :=
      hIp.trans (AddressSpace.word_setWord _ _ _)
    rw [UInt16.sub_add_cancel] at hSpAfter
    have hEnded : handlerLoop.ended (Processor.ip s.cpu) (StackPointer.sp s.cpu) v = true := by
      simp [handlerLoop.ended, hPlace, hSpAfter]
    have hDelivered :=
      deliver_of_ended hHandler (hHandles.trans (.single hInside hStep)) hEnded hBound
    rw [if_pos hRunning'] at hDelivered
    refine ⟨_, hDelivered, hMemory, ?_, hAdvances.host, ?_⟩
    · simp only [Session.mapCpu, Session.mapMachine, Session.mapProcess]
      rw [hAdvances.process]
      rfl
    · rw [if_neg hElsewhere]
      exact ⟨hRunning', rfl⟩

end Engine

namespace AddressSpace

/-- A word stored outside the text leaves it alone, also where both share a segment. -/
theorem get_text_setWord {m : AddressSpace} {place address : UInt16} (v : UInt16)
    (hApart : m.isSplit = false → address ∉ (⟨place, 2⟩ : Region)) :
    (m.setWord place v).text.get address = m.text.get address := by
  have hStored := StoresWithin.setWord m place v
  cases hSplit : m.isSplit with
  | true => rw [hStored.stores.sameText.text hSplit]
  | false =>
      have hShared := hStored.stores.sameText.isSplit.trans hSplit
      rw [text_eq_data hSplit, text_eq_data hShared]
      apply hStored.agrees
      intro r hr
      obtain rfl := List.mem_singleton.1 hr
      exact hApart hSplit

end AddressSpace

namespace Personality

/-- The bytes of an instruction without operands. -/
def unit : Personality → UInt16
  | .minix => 1
  | .unixV6Pdp11 => 2
  | .unixV6I8086 => 1

/-- The instruction at an address of the text changes flags at most. -/
def FlagsAt : Personality → AddressSpace → UInt16 → Prop
  | .minix, m, address => m.text.get address ∈ I8086.flagOpcodes
  | .unixV6Pdp11, m, address => Pdp11.ChangesCodes (m.textWord address)
  | .unixV6I8086, m, address => m.text.get address ∈ I8086.flagOpcodes

/-- The instruction at an address of the text is a plain return. -/
def ReturnAt : Personality → AddressSpace → UInt16 → Prop
  | .minix, m, address => m.text.get address = I8086.returnOpcode
  | .unixV6Pdp11, m, address => m.textWord address = Pdp11.returnWord
  | .unixV6I8086, m, address => m.text.get address = I8086.returnOpcode

/-- A handler of so many instructions that change flags at most, and a plain return. It is
all text, and a word at a place of the stack is apart from it. -/
structure QuietHandler (p : Personality) (m : AddressSpace) (place handler : UInt16)
    (count : Nat) : Prop where
  flags (i : Nat) : i < count → p.FlagsAt m (handler + UInt16.ofNat i * p.unit)
  returns : p.ReturnAt m (handler + UInt16.ofNat count * p.unit)
  inText (i : Nat) : i ≤ count → ∀ limit, m.textLimit = some limit →
    (handler + UInt16.ofNat i * p.unit).toNat + p.unit.toNat ≤ limit
  apart (i : Nat) : i ≤ count → m.isSplit = false → ∀ offset, offset < p.unit →
    handler + UInt16.ofNat i * p.unit + offset ∉ (⟨place, 2⟩ : Region)

variable {p : Personality} {m : AddressSpace} {place handler : UInt16} {count : Nat}

private theorem address_zero (handler unit : UInt16) :
    handler + UInt16.ofNat 0 * unit = handler := by
  show handler + 0 * unit = handler
  rw [UInt16.zero_mul, UInt16.add_zero]

/-- Behind its first instruction a handler is one with an instruction less. -/
theorem QuietHandler.tail (h : p.QuietHandler m place handler (count + 1)) :
    p.QuietHandler m place (handler + p.unit) count := by
  have hShift (i : Nat) : handler + p.unit + UInt16.ofNat i * p.unit =
      handler + UInt16.ofNat (i + 1) * p.unit := by
    rw [UInt16.ofNat_add]
    grind
  constructor
  · intro i hi
    rw [hShift]
    exact h.flags (i + 1) (by omega)
  · rw [hShift]
    exact h.returns
  · intro i hi
    rw [hShift]
    exact h.inText (i + 1) (by omega)
  · intro i hi
    rw [hShift]
    exact h.apart (i + 1) (by omega)

/-- A word stored apart from an instruction leaves the instruction as it is. -/
theorem instructionAt_setWord {address : UInt16} (v : UInt16)
    (hApart : m.isSplit = false → ∀ offset, offset < p.unit →
      address + offset ∉ (⟨place, 2⟩ : Region)) :
    (p.FlagsAt m address → p.FlagsAt (m.setWord place v) address) ∧
      (p.ReturnAt m address → p.ReturnAt (m.setWord place v) address) := by
  have hByte (offset : UInt16) (hOffset : offset < p.unit) :
      (m.setWord place v).text.get (address + offset) = m.text.get (address + offset) :=
    AddressSpace.get_text_setWord v fun hShared => hApart hShared offset hOffset
  have hFirst (hOne : 0 < p.unit) :
      (m.setWord place v).text.get address = m.text.get address := by
    rw [← UInt16.add_zero address]
    exact hByte 0 hOne
  cases p with
  | minix => simp only [FlagsAt, ReturnAt, hFirst (by decide), imp_self, and_self]
  | unixV6Pdp11 =>
      have hWord : (m.setWord place v).textWord address = m.textWord address := by
        simp only [AddressSpace.textWord, hFirst (by decide), hByte 1 (by decide)]
      simp only [FlagsAt, ReturnAt, hWord, imp_self, and_self]
  | unixV6I8086 => simp only [FlagsAt, ReturnAt, hFirst (by decide), imp_self, and_self]

theorem FlagsAt.onlyFlags {address : UInt16} (h : p.FlagsAt m address) :
    Processor.OnlyFlags (Processor.fetch m.text.get address : Processor.Instruction p.Cpu) ∧
      Processor.length (Processor.fetch m.text.get address : Processor.Instruction p.Cpu) =
        p.unit := by
  cases p with
  | minix => exact I8086.onlyFlags_decodeFolded h
  | unixV6Pdp11 => exact Pdp11.onlyFlags_decode h
  | unixV6I8086 => exact I8086.onlyFlags_decodeFolded h

theorem ReturnAt.plainReturn {address : UInt16} (h : p.ReturnAt m address) :
    Processor.PlainReturn (Processor.fetch m.text.get address : Processor.Instruction p.Cpu) ∧
      Processor.length (Processor.fetch m.text.get address : Processor.Instruction p.Cpu) =
        p.unit := by
  cases p with
  | minix => exact I8086.plainReturn_decodeFolded h
  | unixV6Pdp11 => exact Pdp11.plainReturn_decode h
  | unixV6I8086 => exact I8086.plainReturn_decodeFolded h

/-- The word that the signal puts on the stack leaves the handler as it is. -/
theorem QuietHandler.flagsThenReturn (h : p.QuietHandler m place handler count) (v : UInt16) :
    Processor.FlagsThenReturn p.Cpu (m.setWord place v) count handler := by
  induction count generalizing handler with
  | zero =>
      have hInText := h.inText 0 (Nat.le_refl 0)
      have hApart := h.apart 0 (Nat.le_refl 0)
      have hReturns := h.returns
      rw [address_zero] at hInText hReturns
      simp only [address_zero] at hApart
      obtain ⟨hReturn, hLength⟩ := ((instructionAt_setWord v hApart).2 hReturns).plainReturn
      refine ⟨?_, hReturn⟩
      rw [hLength]
      exact hInText
  | succ count ih =>
      have hInText := h.inText 0 (Nat.zero_le _)
      have hApart := h.apart 0 (Nat.zero_le _)
      have hFlags := h.flags 0 (Nat.zero_lt_succ _)
      rw [address_zero] at hInText hFlags
      simp only [address_zero] at hApart
      obtain ⟨hOnly, hLength⟩ := ((instructionAt_setWord v hApart).1 hFlags).onlyFlags
      refine ⟨?_, hOnly, ?_⟩
      · rw [hLength]
        exact hInText
      · rw [hLength]
        exact ih h.tail

end Personality

/-- The delivery of a signal to a handler that changes flags at most and returns puts the
interrupted instruction pointer on the stack and changes nothing else of the program, at
every stack pointer but one. Where the word goes to the entry stack pointer, the return of the
handler counts as that of the program and ends it. -/
theorem quiet_signal_changes_only_stack_word (p : Personality) {s : Session p.Cpu}
    {signal handler : UInt16} {count bound : Nat} (hRunning : s.isRunning = true)
    (hSound : s.CacheSound)
    (hHandler : p.system.disposition (s.process.signals.get signal).handler = .catch handler)
    (hQuiet : p.QuietHandler s.memory (StackPointer.sp s.cpu - 2) handler count)
    (hPending : p.system.takePending s.host = none)
    (hStack : s.memory.brk ≤ StackPointer.sp s.cpu - 2) (hBound : count < bound) :
    ∃ t, p.system.deliver bound signal s = some (t, .ok ()) ∧
      t.memory = s.memory.setWord (StackPointer.sp s.cpu - 2) (Processor.ip s.cpu) ∧
      t.process = { s.process with
        machine := t.process.machine, cache := t.process.cache, state := t.process.state } ∧
      t.host = { s.host with journal := t.host.journal } ∧
      if StackPointer.sp s.cpu - 2 = Processor.entrySp s.cpu then
        t.process.state = .terminated 0
      else t.isRunning = true ∧ t.cpu = s.cpu :=
  System.deliver_of_flagsThenReturn hRunning hSound hHandler
    (hQuiet.flagsThenReturn (Processor.ip s.cpu)) hPending hStack hBound

/-- A program that waits in a loop. Its handler clears the carry and returns. -/
private abbrev waitingImage : Image where
  memory := AddressSpace.shared.write 0 [0xeb, 0xfe, 0xf8, 0xc3]
  entry := 0
  format := .raw

/-- The program with its handler set, and its stack somewhere. -/
private abbrev waiting (sp : UInt16) : Session Personality.unixV6I8086.Cpu :=
  let c : Conventions I8086.Cpu := UnixV6.conventions
  let caught := ((c.start waitingImage {} {}).setHandler c 2 2).2
  caught.mapCpu fun cpu => ({ cpu with entrySp := 0xfff0 } : I8086.Cpu).set .sp sp

private theorem quietHandler_waiting {sp place : UInt16}
    (hApart : 2 ∉ (⟨place, 2⟩ : Region) ∧ 3 ∉ (⟨place, 2⟩ : Region)) :
    Personality.unixV6I8086.QuietHandler (waiting sp).memory place 2 1 where
  flags i hi := by
    obtain rfl : i = 0 := by omega
    change waitingImage.memory.text.get 2 ∈ I8086.flagOpcodes
    decide +kernel
  returns := by
    change waitingImage.memory.text.get 3 = I8086.returnOpcode
    decide +kernel
  inText i hi limit hLimit := nomatch hLimit
  apart i hi _ offset hOffset := by
    obtain rfl : offset = 0 := UInt16.lt_one_iff.1 hOffset
    obtain rfl | rfl : i = 0 ∨ i = 1 := by omega
    · exact hApart.1
    · exact hApart.2

/-- The waiting program goes on waiting. -/
theorem quiet_signal_changes_only_stack_word_waiting :
    ∃ t, Personality.unixV6I8086.system.deliver 2 2 (waiting 0xfff0) = some (t, .ok ()) ∧
      t.memory = (waiting 0xfff0).memory.setWord 0xffee 0 ∧ t.isRunning = true ∧
      t.cpu = (waiting 0xfff0).cpu := by
  have hSound : (waiting 0xfff0).CacheSound := .empty _
  have hHandler : Personality.unixV6I8086.system.disposition
      ((waiting 0xfff0).process.signals.get 2).handler = .catch 2 := by
    decide +kernel
  have hOneStep : 1 < 2 := by decide
  obtain ⟨t, hDeliver, hMemory, -, -, hAfter⟩ :=
    quiet_signal_changes_only_stack_word .unixV6I8086 rfl hSound hHandler
      (quietHandler_waiting (by decide +kernel)) (by decide +kernel) (by decide +kernel) hOneStep
  rw [if_neg (by decide +kernel)] at hAfter
  exact ⟨t, hDeliver, hMemory, hAfter⟩

/-- With a word less on the stack than at the entry, the same signal ends the program. -/
theorem quiet_signal_at_entry_stack_ends_program :
    (waiting 0xfff2).isRunning = true ∧
      Personality.unixV6I8086.system.disposition
        ((waiting 0xfff2).process.signals.get 2).handler = .catch 2 ∧
      Personality.unixV6I8086.QuietHandler (waiting 0xfff2).memory 0xfff0 2 1 ∧
      Personality.unixV6I8086.system.takePending (waiting 0xfff2).host = none ∧
      (waiting 0xfff2).memory.brk ≤ 0xfff0 ∧
      (Personality.unixV6I8086.system.deliver 2 2 (waiting 0xfff2)).map
        (fun x => (x.2.toOption, x.1.process.state)) = some (some (), .terminated 0) :=
  ⟨rfl, by decide +kernel, quietHandler_waiting (by decide +kernel), by decide +kernel,
    by decide +kernel, by decide +kernel⟩

end VintageUnix
