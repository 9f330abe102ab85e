import VintageUnix.Proofs.SizedOperands

/-! Stack frames of the 8086. Entering a frame saves the frame pointer, copies those of the
enclosing frames, which the display below the old frame holds, and adds the new one. Leaving it
goes back through the saved frame pointer alone, so that it does not depend on how much has been
pushed or reserved below. -/
namespace VintageUnix.I8086

open AddressSpace (StoresWithin)

/-- The address of the `k`-th word below another one. -/
def wordBelow (top : UInt16) (k : Nat) : UInt16 :=
  top - .ofNat (2 * k)

section Words

variable (top : UInt16)

theorem wordBelow_wordBelow (j k : Nat) :
    wordBelow (wordBelow top j) k = wordBelow top (j + k) := by
  rw [wordBelow, wordBelow, wordBelow, Nat.mul_add, UInt16.ofNat_add]
  grind

theorem wordBelow_succ (k : Nat) : wordBelow top (k + 1) = wordBelow top k - 2 :=
  (wordBelow_wordBelow top k 1).symm

/-- A word below an address is among the bytes below it. -/
theorem mem_below_of_mem_word {top address : UInt16} {k count : Nat} (hk : 0 < k) (hLe : k ≤ count)
    (h : address ∈ (⟨wordBelow top k, 2⟩ : Region)) : address ∈ Region.below top (2 * count) := by
  obtain ⟨k, rfl⟩ := Nat.exists_eq_add_one_of_ne_zero (Nat.ne_of_gt hk)
  rw [← wordBelow_wordBelow] at h
  have hWord : address ∈ Region.below (top - .ofNat (2 * k)) 2 := h
  exact Region.mem_of_mem_below (by omega) hWord

/-- What is stored further down does not come round to a word. -/
theorem word_setWord_wordBelow (memory : AddressSpace) (value : UInt16) {j k : Nat} (hLess : k < j)
    (hFits : 2 * (j + 1) ≤ segmentSize) :
    (memory.setWord (wordBelow top j) value).word (wordBelow top k) =
      memory.word (wordBelow top k) := by
  have hDistance : wordBelow top k = wordBelow top j + .ofNat (2 * (j - k)) := by
    obtain ⟨d, rfl⟩ := Nat.exists_eq_add_of_lt hLess
    rw [Nat.add_assoc, ← wordBelow_wordBelow, Nat.add_sub_cancel_left]
    exact (UInt16.sub_add_cancel ..).symm
  rw [hDistance]
  exact memory.word_setWord_apart _ _ (by omega) (by omega)

end Words

theorem sp_push (m : State) (value : UInt16) :
    (m.push value).cpu.get .sp = wordBelow (m.cpu.get .sp) 1 :=
  m.cpu.get_set .sp .sp _

theorem bp_push (m : State) (value : UInt16) : (m.push value).cpu.get .bp = m.cpu.get .bp :=
  m.cpu.get_set .sp .bp _

/-- As many words as `count` have been pushed, each a copy of the next one below the frame pointer,
which has walked down through them. -/
structure DisplayCopied (count : Nat) (m n : State) : Prop where
  cpu : n.cpu =
    (m.cpu.set .bp (wordBelow (m.cpu.get .bp) count)).set .sp (wordBelow (m.cpu.get .sp) count)
  elsewhere : StoresWithin [.below (m.cpu.get .sp) (2 * count)] m.memory n.memory
  words : Region.Disjoint (.below (m.cpu.get .bp) (2 * count))
      (.below (m.cpu.get .sp) (2 * count)) →
    ∀ k, 0 < k → k ≤ count →
      n.memory.word (wordBelow (m.cpu.get .sp) k) = m.memory.word (wordBelow (m.cpu.get .bp) k)

theorem displayCopied_zero (m : State) : DisplayCopied 0 m m where
  cpu := by simp [wordBelow, Cpu.set_get]
  elsewhere := .refl _ _
  words _ k hk hLe := absurd hk (by omega)

/-- The first word is copied before the others. -/
theorem DisplayCopied.cons {count : Nat} {m first n : State} (hFits : 2 * (count + 1) ≤ segmentSize)
    (hCpu : first.cpu =
      (m.cpu.set .bp (wordBelow (m.cpu.get .bp) 1)).set .sp (wordBelow (m.cpu.get .sp) 1))
    (hMemory : first.memory = m.memory.setWord (wordBelow (m.cpu.get .sp) 1)
      (m.memory.word (wordBelow (m.cpu.get .bp) 1)))
    (h : DisplayCopied count first n) : DisplayCopied (count + 1) m n := by
  have hSp : first.cpu.get .sp = wordBelow (m.cpu.get .sp) 1 := by
    rw [hCpu, Cpu.get_set, if_pos rfl]
  have hBp : first.cpu.get .bp = wordBelow (m.cpu.get .bp) 1 := by
    rw [hCpu, Cpu.get_set, if_neg (by decide), Cpu.get_set, if_pos rfl]
  have hStored : StoresWithin [.below (m.cpu.get .sp) 2] m.memory first.memory :=
    hMemory ▸ .setWord_below ..
  obtain ⟨hNext, hElsewhere, hWords⟩ := h
  rw [hSp, hBp] at hNext hWords
  rw [hSp] at hElsewhere
  constructor
  case cpu =>
    rw [hNext, hCpu, wordBelow_wordBelow, wordBelow_wordBelow, Cpu.set_comm _ (by decide),
      Cpu.set_set, Cpu.set_comm _ (by decide), Cpu.set_set, Nat.add_comm]
  case elsewhere =>
    rw [Nat.mul_add, Nat.add_comm]
    exact hStored.below_trans hElsewhere
  case words =>
    intro hApart k hk hLe
    obtain ⟨k, rfl⟩ := Nat.exists_eq_add_one_of_ne_zero (Nat.ne_of_gt hk)
    rcases Nat.eq_zero_or_pos k with rfl | hPositive
    · -- what is stored later lies below the first copy
      refine (hElsewhere.agrees.word_above (by omega)).trans ?_
      rw [hMemory, AddressSpace.word_setWord]
    · have hNextApart : Region.Disjoint (.below (wordBelow (m.cpu.get .bp) 1) (2 * count))
          (.below (wordBelow (m.cpu.get .sp) 1) (2 * count)) :=
        hApart.mono (fun _ => Region.mem_of_mem_below (by omega))
          (fun _ => Region.mem_of_mem_below (by omega))
      have hCopied := hWords hNextApart k hPositive (by omega)
      rw [wordBelow_wordBelow, wordBelow_wordBelow, Nat.add_comm] at hCopied
      -- what is read later has not been stored over by the first copy
      refine hCopied.trans (hStored.agrees.word_apart (hApart.mono ?_ ?_))
      · exact fun _ => mem_below_of_mem_word hk hLe
      · exact fun _ => Region.mem_below_mono (by omega)

theorem displayCopied_copyFrames (count : Nat) (m : State) (hFits : 2 * count ≤ segmentSize) :
    DisplayCopied count m (copyFrames count m) := by
  induction count generalizing m with
  | zero => exact displayCopied_zero m
  | succ count ih =>
      have hSp : (m.cpu.set .bp (m.cpu.get .bp - 2)).get .sp = m.cpu.get .sp :=
        m.cpu.get_set .bp .sp _
      refine .cons hFits ?_ ?_ (ih _ (by omega))
      · exact congrArg (fun sp => (m.cpu.set .bp _).set .sp (sp - 2)) hSp
      · exact congrArg (fun sp => m.memory.setWord (sp - 2) _) hSp

/-- The words of a frame in memory: the saved frame pointer, copies of the display of the enclosing
frame, and the new frame pointer at the end of the new display. The copies are faithful if
that display does not overlap with what is pushed. -/
structure FrameStored (depth : Nat) (m : State) (memory : AddressSpace) : Prop where
  saved : memory.word (wordBelow (m.cpu.get .sp) 1) = m.cpu.get .bp
  display : Region.Disjoint (.below (m.cpu.get .bp) (2 * (depth - 1)))
      (.below (m.cpu.get .sp) (2 * (depth + 1))) →
    ∀ k, 0 < k → k < depth →
      memory.word (wordBelow (m.cpu.get .sp) (k + 1)) = m.memory.word (wordBelow (m.cpu.get .bp) k)
  link : 0 < depth →
    memory.word (wordBelow (m.cpu.get .sp) (depth + 1)) = wordBelow (m.cpu.get .sp) 1
  elsewhere : StoresWithin [.below (m.cpu.get .sp) (2 * (depth + 1))] m.memory memory

theorem frameStored_zero (m : State) :
    FrameStored 0 m (m.push (m.cpu.get .bp)).memory where
  saved := AddressSpace.word_setWord ..
  display _ k _ hk := absurd hk (Nat.not_lt_zero k)
  link hNone := absurd hNone (Nat.lt_irrefl 0)
  elsewhere := m.storesWithin_push _

theorem frameStored_succ {count : Nat} (hFits : 2 * (count + 3) ≤ segmentSize) {m copied : State}
    (h : DisplayCopied count (m.push (m.cpu.get .bp)) copied) :
    FrameStored (count + 1) m
      (copied.memory.setWord (wordBelow (m.cpu.get .sp) (count + 2))
        (wordBelow (m.cpu.get .sp) 1)) := by
  obtain ⟨-, hCopied, hWords⟩ := h
  rw [sp_push] at hCopied
  rw [sp_push, bp_push] at hWords
  have hSaved : StoresWithin [.below (m.cpu.get .sp) 2] m.memory (m.push (m.cpu.get .bp)).memory :=
    m.storesWithin_push _
  have hPushed : StoresWithin [.below (wordBelow (m.cpu.get .sp) 1) (2 * count + 2)]
      (m.push (m.cpu.get .bp)).memory
      (copied.memory.setWord (wordBelow (m.cpu.get .sp) (count + 2))
        (wordBelow (m.cpu.get .sp) 1)) := by
    have hNext : wordBelow (m.cpu.get .sp) (count + 2) =
        wordBelow (wordBelow (m.cpu.get .sp) 1) count - 2 := by
      rw [wordBelow_wordBelow, ← wordBelow_succ, Nat.add_comm 1]
    rw [hNext]
    exact hCopied.below_trans (.setWord_below ..)
  constructor
  case saved =>
    refine (hPushed.agrees.word_above (by omega)).trans ?_
    exact AddressSpace.word_setWord ..
  case display =>
    intro hApart k hk hLess
    have hCopiedWord := hWords (hApart.mono (fun _ => id)
      fun _ => Region.mem_of_mem_below (by omega)) k hk (Nat.le_of_lt_succ hLess)
    rw [wordBelow_wordBelow, Nat.add_comm] at hCopiedWord
    rw [word_setWord_wordBelow _ _ _ (by omega) (by omega), hCopiedWord]
    refine hSaved.agrees.word_apart (hApart.mono ?_ ?_)
    · exact fun _ => mem_below_of_mem_word hk (Nat.le_of_lt_succ hLess)
    · exact fun _ => Region.mem_below_mono (by omega)
  case link => exact fun _ => AddressSpace.word_setWord ..
  case elsewhere =>
    have hLength : 2 * (count + 1 + 1) = 2 + (2 * count + 2) := by omega
    rw [hLength]
    exact hSaved.below_trans hPushed

/-- The word that is pushed behind the copies. -/
theorem push_copied {count : Nat} {m copied : State}
    (h : DisplayCopied count (m.push (m.cpu.get .bp)) copied) (value : UInt16) :
    copied.push value =
      ⟨(m.cpu.set .bp (wordBelow (m.cpu.get .bp) count)).set .sp
          (wordBelow (m.cpu.get .sp) (count + 2)),
        copied.memory.setWord (wordBelow (m.cpu.get .sp) (count + 2)) value⟩ := by
  have hCpu := h.cpu
  rw [sp_push, bp_push, wordBelow_wordBelow] at hCpu
  have hNext : StackPointer.sp copied.cpu - 2 = wordBelow (m.cpu.get .sp) (count + 2) := by
    have hCopiedSp : StackPointer.sp copied.cpu = wordBelow (m.cpu.get .sp) (1 + count) := by
      rw [hCpu]
      exact Cpu.get_set _ .sp .sp _
    rw [hCopiedSp, ← wordBelow_succ, Nat.add_comm 1]
  rw [Machine.push, hNext]
  refine congrArg (Machine.mk · _) ?_
  rw [hCpu]
  show (((m.cpu.set .sp _).set .bp _).set .sp _).set .sp _ = _
  rw [Cpu.set_set, Cpu.set_comm _ (by decide), Cpu.set_set, Cpu.set_comm _ (by decide)]

/-- Entering a frame, up to the size of what is reserved. -/
theorem exists_linked (size : UInt16) {level : UInt8} {depth : Nat}
    (hLevel : level.toNat % 32 = depth) (m : State) :
    ∃ linked : State, FrameStored depth m linked.memory ∧
      (∃ bp, linked.cpu =
        (m.cpu.set .bp bp).set .sp (wordBelow (m.cpu.get .sp) (depth + 1))) ∧
      enter size level m = linked.mapCpu fun c =>
        (c.set .bp (wordBelow (m.cpu.get .sp) 1)).set .sp (c.get .sp - size) := by
  rw [enter, sp_push, hLevel]
  cases depth with
  | zero =>
      refine ⟨_, frameStored_zero m, ⟨m.cpu.get .bp, ?_⟩, rfl⟩
      rw [Cpu.set_get]
      rfl
  | succ count =>
      have hFits : 2 * (count + 3) ≤ segmentSize := by
        simp only [segmentSize]
        omega
      have hCopied := displayCopied_copyFrames count (m.push (m.cpu.get .bp)) (by omega)
      have hPushed := push_copied hCopied (wordBelow (m.cpu.get .sp) 1)
      exact ⟨⟨_, _⟩, frameStored_succ hFits hCopied, ⟨_, rfl⟩, congrArg (Machine.mapCpu _) hPushed⟩

/-- Leaving a frame takes the stack pointer and the frame pointer back through the saved one. -/
theorem leave_eq (n : State) :
    leave n = ⟨(n.cpu.set .sp (n.cpu.get .bp + 2)).set .bp (n.memory.word (n.cpu.get .bp)),
      n.memory⟩ := by
  have hSp : StackPointer.sp (n.cpu.set .sp (n.cpu.get .bp)) = n.cpu.get .bp :=
    n.cpu.get_set .sp .sp _
  simp only [leave, Machine.pop, Machine.mapCpu, hSp]
  exact congrArg (fun c : Cpu => Machine.mk (c.set .bp _) _) (n.cpu.set_set .sp _ _)

/-- Leaving a frame undoes entering it. For every state, size and level, of which five bits count,
entering moves nothing but the stack and the frame pointer. The frame pointer ends at its own
saved value, and below it are copies of the display of the enclosing frame, which are faithful
if it does not overlap with what is pushed, then the new frame pointer, and then the reserved
bytes. No other byte has changed. A `leave` after it, from anywhere, restores both pointers, and
with them all registers. -/
theorem leave_undoes_enter {i : Instruction} {size : UInt16} {level : UInt8}
    (hOperation : i.operation = .enter size level) (m : State) :
    let depth := level.toNat % 32
    let frame := wordBelow (m.cpu.get .sp) 1
    ∃ n, execute i m = n.proceed ∧
      n.cpu = (m.cpu.set .bp frame).set .sp (wordBelow (m.cpu.get .sp) (depth + 1) - size) ∧
      FrameStored depth m n.memory ∧
      ∀ j : Instruction, j.operation = .leave → ∀ next,
        execute j (jumpTo next n) = (jumpTo next ⟨m.cpu, n.memory⟩).proceed := by
  intro depth frame
  obtain ⟨linked, hStored, ⟨bp, hCpu⟩, hEnter⟩ := exists_linked size rfl m
  have hRegisters : (enter size level m).cpu =
      (m.cpu.set .bp frame).set .sp (wordBelow (m.cpu.get .sp) (depth + 1) - size) := by
    rw [hEnter]
    show (linked.cpu.set .bp frame).set .sp (linked.cpu.get .sp - size) = _
    rw [hCpu, Cpu.get_set, if_pos rfl, Cpu.set_comm _ (by decide), Cpu.set_set,
      Cpu.set_comm _ (by decide), Cpu.set_set]
  have hMemory : (enter size level m).memory = linked.memory := by rw [hEnter, Machine.mapCpu]
  refine ⟨_, by rw [execute, hOperation], hRegisters, hMemory ▸ hStored, fun j hLeave next => ?_⟩
  have hRestored : leave (enter size level m) = ⟨m.cpu, (enter size level m).memory⟩ := by
    have hBp : (enter size level m).cpu.get .bp = frame := by
      rw [hRegisters, Cpu.get_set, if_neg (by decide), Cpu.get_set, if_pos rfl]
    have hSp : frame + 2 = m.cpu.get .sp := UInt16.sub_add_cancel ..
    rw [leave_eq, hBp, hSp, hMemory, hStored.saved, hRegisters, Cpu.set_set,
      Cpu.set_comm _ (by decide), Cpu.set_set, Cpu.set_get, Cpu.set_get]
  have hExecute : execute j (jumpTo next (enter size level m)) =
      (jumpTo next (leave (enter size level m))).proceed := by
    rw [execute, hLeave]
    rfl
  rw [hExecute, hRestored]

/-- Entering a frame with a display, and leaving it. Only five bits of the level count. -/
private abbrev frameBytes : Array UInt8 :=
  #[0xc8, 0x10, 0, 0x23, 0xc9]

/-- A stack that goes around the bottom of memory, and a display of two words elsewhere. -/
private abbrev frameState : State where
  cpu := (({} : Cpu).set .sp 4).set .bp 0x200
  memory := (AddressSpace.shared.setWord 0x1fe 0x1234).setWord 0x1fc 0x5678

/-- The second copy is at the top of memory. -/
theorem leave_undoes_enter_wrapping :
    let i := decodeFolded (.ofBytes ⟨frameBytes⟩) 0
    let j := decodeFolded (.ofBytes ⟨frameBytes⟩) 4
    i.operation = .enter 0x10 0x23 ∧ j.operation = .leave ∧
    ∃ n : State, execute i frameState = n.proceed ∧
      n.cpu.get .bp = 2 ∧ n.cpu.get .sp = 0xffec ∧
      n.memory.word 2 = 0x200 ∧ n.memory.word 0 = 0x1234 ∧ n.memory.word 0xfffe = 0x5678 ∧
      n.memory.word 0xfffc = 2 ∧ n.memory.byte 4 = 0 ∧
      execute j (jumpTo 5 n) = (jumpTo 5 ⟨frameState.cpu, n.memory⟩).proceed := by
  intro i j
  have hEnter : i.operation = .enter 0x10 0x23 := by decide +kernel
  have hLeave : j.operation = .leave := by decide +kernel
  refine ⟨hEnter, hLeave, ?_⟩
  obtain ⟨n, hExecute, hRegisters, hStored, hRestores⟩ := leave_undoes_enter hEnter frameState
  have hApart : Region.Disjoint (.below (frameState.cpu.get .bp) 4)
      (.below (frameState.cpu.get .sp) 8) := by
    intro address hDisplay hStack
    have hAddress := address.toNat_lt
    have hBp : frameState.cpu.get .bp = 0x200 := by decide +kernel
    have hSp : frameState.cpu.get .sp = 4 := by decide +kernel
    simp only [hBp, hSp, Region.below, Region.mem_def, UInt16.toNat_sub, UInt16.toNat_ofNat',
      UInt16.reduceToNat] at hDisplay hStack
    omega
  have hDisplay := hStored.display hApart
  refine ⟨n, hExecute, ?_, ?_, ?_, ?_, ?_, ?_, ?_, hRestores j hLeave 5⟩
  · rw [hRegisters]; decide +kernel
  · rw [hRegisters]; decide +kernel
  · exact hStored.saved.trans (by decide +kernel)
  · exact (hDisplay 1 (by decide) (by decide)).trans (by decide +kernel)
  · exact (hDisplay 2 (by decide) (by decide)).trans (by decide +kernel)
  · exact (hStored.link (by decide)).trans (by decide +kernel)
  · refine (hStored.elsewhere.agrees 4 ?_).trans (by decide +kernel)
    decide +kernel

end VintageUnix.I8086
