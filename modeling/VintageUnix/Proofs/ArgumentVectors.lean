import VintageUnix.Proofs.HandlerRuns
import VintageUnix.Proofs.InitialStack

/-! What a new program of Unix V6 finds of the argument strings of the old one. On their way they
are text: the old memory is decoded, the new memory is encoded, and a string that is not
valid UTF-8 comes out as another one. -/
namespace VintageUnix

namespace AddressSpace

/-- The bytes of a string are at the address, and its zero byte behind them. -/
def HoldsString (m : AddressSpace) (address : UInt16) (bytes : List UInt8) : Prop :=
  m.read address (bytes.length + 1) = bytes ++ [0]

instance (m : AddressSpace) (address : UInt16) (bytes : List UInt8) :
    Decidable (m.HoldsString address bytes) :=
  inferInstanceAs (Decidable (_ = _))

/-- An array of pointers that a null pointer ends. -/
structure IsVector (m : AddressSpace) (address : UInt16) (pointers : List UInt16) : Prop where
  words : m.words address pointers.length = pointers
  nonnull : 0 ∉ pointers
  ended : m.word (address + .ofNat (2 * pointers.length)) = 0

variable {m : AddressSpace} {address : UInt16}

theorem HoldsString.unique {first second : List UInt8} (hFirst : m.HoldsString address first)
    (hSecond : m.HoldsString address second) (hNonzero : 0 ∉ first) (hOther : 0 ∉ second) :
    first = second :=
  eq_of_read hFirst hSecond hNonzero hOther

theorem IsVector.stringVector {pointers : List UInt16} (h : m.IsVector address pointers)
    (hCount : pointers.length < segmentSize / 2) :
    m.stringVector address = pointers.map m.stringAt :=
  stringsWithin_of_pointers h.words h.nonnull h.ended hCount

end AddressSpace

/-- A layout that fits has fewer words than a vector may have. -/
theorem StackLayout.length_lt_of_size_le {arguments : List String}
    (hFits : size arguments none ≤ segmentSize) : arguments.length < segmentSize / 2 := by
  simp only [size, words, segmentSize] at *
  omega

namespace UnixV6

/-- What a program finds of the texts that it is started with: their count at the stack pointer,
and pointers to them behind it. -/
structure FindsTexts (texts : List String) (sp : UInt16) (m : AddressSpace) : Prop where
  count : (m.word sp).toNat = texts.length
  pointed : ∀ i (hi : i < texts.length),
    m.HoldsString (m.word (sp + 2 + .ofNat (2 * i))) (Utf8.encode texts[i])

/-- Where the text of a string is, the string itself is if it is valid. -/
theorem holdsString_iff_valid {m : AddressSpace} {address : UInt16} {string : List UInt8}
    (hText : m.HoldsString address (Utf8.encode (Utf8.decode string))) (hNonzero : 0 ∉ string) :
    m.HoldsString address string ↔ string.toByteArray.IsValidUTF8 := by
  rw [← Utf8.encode_decode_eq_iff]
  constructor
  · intro hString
    exact hText.unique hString
      (Utf8.zero_not_mem_encode (Utf8.null_not_mem_decode hNonzero)) hNonzero
  · intro hValid
    rwa [hValid] at hText

variable {Cpu : Type} [Platform Cpu] [LawfulStack Cpu]

theorem sp_resume (result : Except Errno UInt16) (skip : UInt16) (c : Cpu) :
    StackPointer.sp (resume result skip c) = StackPointer.sp c := by
  cases result <;>
    simp only [resume, LawfulPlatform.sp_setIp, LawfulStack.sp_setCarry,
      LawfulStack.sp_setAccumulator]

theorem sp_build {arguments : List String} {m : Machine Cpu}
    (hEmpty : StackPointer.sp m.cpu = 0)
    (hFits : StackLayout.size arguments none ≤ segmentSize) :
    StackPointer.sp (StackLayout.build arguments none m).cpu =
      .ofNat (segmentSize - StackLayout.size arguments none) := by
  rw [StackLayout.build_eq hEmpty hFits, LawfulStack.sp_setEntrySp, LawfulStack.sp_setSp]

theorem findsTexts_build {texts : List String} {m : Machine Cpu}
    (hTexts : ∀ t ∈ texts, '\x00' ∉ t.toList) (hEmpty : StackPointer.sp m.cpu = 0)
    (hFits : StackLayout.size texts none ≤ segmentSize) :
    FindsTexts texts (StackPointer.sp (StackLayout.build texts none m).cpu)
      (StackLayout.build texts none m).memory := by
  rw [← List.append_nil texts] at hTexts
  obtain ⟨hMemory, -⟩ := StackLayout.inMemory_build hTexts hEmpty hFits
  rw [sp_build hEmpty hFits]
  constructor
  case count => exact hMemory.count
  case pointed =>
    intro i hi
    have hRead := hMemory.pointers.read_getElem hi
    rwa [← Utf8.length_encode] at hRead

variable {run : Runner Cpu} {trap : UInt16} {s : Session Cpu} {pointers : List UInt16}

theorem findsTexts_of_exec (hReplaces : Replaces trap s)
    (hVector : s.memory.IsVector ((request trap s).2.word s.memory 1) pointers)
    (hFits : StackLayout.size (pointers.map s.memory.stringAt) none ≤ segmentSize) :
    ∃ t, system.answer run trap s = some (t, .ok ()) ∧
      FindsTexts (pointers.map s.memory.stringAt) (StackPointer.sp t.cpu) t.memory := by
  obtain ⟨hCall, image, hLoad⟩ := hReplaces
  obtain ⟨t, hAnswer, hMachine⟩ := @answer_of_exec Cpu _ _ run _ _ _ hCall hLoad
  refine ⟨t, hAnswer, ?_⟩
  have hCount : pointers.length < segmentSize / 2 := by
    simpa using StackLayout.length_lt_of_size_le hFits
  rw [hVector.stringVector hCount] at hMachine
  have hTexts : ∀ t ∈ pointers.map s.memory.stringAt, '\x00' ∉ t.toList := by
    rw [List.forall_mem_map]
    exact fun pointer _ => s.memory.null_not_mem_stringAt pointer
  let emptied : Machine Cpu := image.machine.mapCpu (StackPointer.setSp · 0)
  have hFinds := findsTexts_build hTexts (m := emptied) (LawfulStack.sp_setSp _ 0) hFits
  have hSp : StackPointer.sp t.cpu = StackPointer.sp
      (StackLayout.build (pointers.map s.memory.stringAt) none emptied).cpu :=
    (congrArg (StackPointer.sp ∘ Machine.cpu) hMachine).trans (sp_resume (.ok 0) 0 _)
  have hMemory : t.memory =
      (StackLayout.build (pointers.map s.memory.stringAt) none emptied).memory :=
    (congrArg Machine.memory hMachine).trans rfl
  rwa [hSp, hMemory]

/-- An exec of a file that can be loaded gives the new program its arguments as text. It finds
their number on its stack, and the i-th pointer addresses the i-th string after decoding and
encoding. That is the string of the old program, byte for byte and with a zero byte behind
it, exactly if this is valid UTF-8. The vector may lie anywhere and the texts may fill all
the memory that the new program has. -/
theorem exec_passes_arguments_as_text (hReplaces : Replaces trap s)
    (hVector : s.memory.IsVector ((request trap s).2.word s.memory 1) pointers)
    (hFits : StackLayout.size (pointers.map s.memory.stringAt) none ≤ segmentSize) :
    ∃ t, system.answer run trap s = some (t, .ok ()) ∧
      (t.memory.word (StackPointer.sp t.cpu)).toNat = pointers.length ∧
      ∀ i (hi : i < pointers.length),
        let pointer := t.memory.word (StackPointer.sp t.cpu + 2 + .ofNat (2 * i))
        let string := s.memory.terminated pointers[i]
        t.memory.HoldsString pointer (Utf8.encode (Utf8.decode string)) ∧
          (t.memory.HoldsString pointer string ↔ string.toByteArray.IsValidUTF8) := by
  obtain ⟨t, hAnswer, hFinds⟩ := @findsTexts_of_exec Cpu _ _ run _ _ _ hReplaces hVector hFits
  refine ⟨t, hAnswer, ?_, fun i hi => ?_⟩
  · rw [hFinds.count, List.length_map]
  · have hText := hFinds.pointed i (by simpa using hi)
    rw [List.getElem_map] at hText
    exact ⟨hText, holdsString_iff_valid hText
      (AddressSpace.zero_not_mem_terminatedWithin s.memory _ _)⟩

/-- A process behind the trap of an exec of the file `a`, with one argument at address 18. -/
private def executing (argument : List UInt8) : Session Pdp11.Cpu :=
  (conventions : Conventions Pdp11.Cpu).start
    { memory := AddressSpace.shared.write 2
        ([12, 0, 14, 0, 0, 0, 0, 0, 0, 0, 0x61, 0, 18, 0, 0, 0] ++ argument ++ [0]),
      entry := 2, format := .raw }
    {} { tree := { inodes := #[⟨0o755, .directory 0 [("a", 1)]⟩, ⟨0o644, .file [0xff, 0x01]⟩] } }

private theorem replaces_executing {argument : List UInt8}
    (hLoads : ((conventions : Conventions Pdp11.Cpu).loadFile (executing argument).host
      ((executing argument).process.hostPath ((executing argument).memory.stringAt
        ((request 11 (executing argument)).2.word (executing argument).memory 0)))
      ).toOption.isSome = true) : Replaces 11 (executing argument) := by
  obtain ⟨image, hImage⟩ := Option.isSome_iff_exists.1 hLoads
  exact ⟨rfl, image, ok_of_toOption hImage⟩

/-- A letter of two bytes. -/
theorem exec_passes_arguments_as_text_letter :
    ∃ t, system.answer (fun _ => none) 11 (executing [0xc3, 0xa9]) = some (t, .ok ()) ∧
      t.memory.HoldsString (t.memory.word (StackPointer.sp t.cpu + 2)) [0xc3, 0xa9] := by
  have hVector : (executing [0xc3, 0xa9]).memory.IsVector
      ((request 11 (executing [0xc3, 0xa9])).2.word (executing [0xc3, 0xa9]).memory 1) [18] :=
    ⟨by decide +kernel, by decide, by decide +kernel⟩
  have hString : (executing [0xc3, 0xa9]).memory.terminated 18 = [0xc3, 0xa9] := by
    decide +kernel
  have hFits : StackLayout.size ([18].map (executing [0xc3, 0xa9]).memory.stringAt) none ≤
      segmentSize := by
    decide +kernel
  obtain ⟨t, hAnswer, -, hFinds⟩ := @exec_passes_arguments_as_text _ _ _ (fun _ => none) _ _ _
    (replaces_executing (by decide +kernel)) hVector hFits
  obtain ⟨-, hHolds⟩ := hFinds 0 (by decide)
  change t.memory.HoldsString (t.memory.word (StackPointer.sp t.cpu + 2 + 0))
    ((executing [0xc3, 0xa9]).memory.terminated 18) ↔ _ at hHolds
  rw [hString, UInt16.add_zero] at hHolds
  exact ⟨t, hAnswer, hHolds.2 (.intro ['é'] (by decide))⟩

/-- A byte that no text has is an argument of one byte in the old program. The new one finds a
replacement character of three bytes in its place. -/
theorem exec_replaces_invalid_argument :
    (executing [0xff]).memory.HoldsString 18 [0xff] ∧
    ∃ t, system.answer (fun _ => none) 11 (executing [0xff]) = some (t, .ok ()) ∧
      t.memory.HoldsString (t.memory.word (StackPointer.sp t.cpu + 2)) [0xef, 0xbf, 0xbd] ∧
      ¬ t.memory.HoldsString (t.memory.word (StackPointer.sp t.cpu + 2)) [0xff] := by
  have hVector : (executing [0xff]).memory.IsVector
      ((request 11 (executing [0xff])).2.word (executing [0xff]).memory 1) [18] :=
    ⟨by decide +kernel, by decide, by decide +kernel⟩
  have hText : (executing [0xff]).memory.stringAt 18 = "\ufffd" := by decide +kernel
  have hTexts : [18].map (executing [0xff]).memory.stringAt = ["\ufffd"] := by
    rw [List.map_singleton, hText]
  obtain ⟨t, hAnswer, hFinds⟩ := @findsTexts_of_exec _ _ _ (fun _ => none) _ _ _
    (replaces_executing (by decide +kernel)) hVector (hTexts ▸ by decide +kernel)
  rw [hTexts] at hFinds
  have hBytes : Utf8.encode "\ufffd" = [0xef, 0xbf, 0xbd] := by decide
  have hHolds : t.memory.HoldsString (t.memory.word (StackPointer.sp t.cpu + 2))
      [0xef, 0xbf, 0xbd] := by
    simpa [hBytes] using hFinds.pointed 0 (by decide)
  refine ⟨by decide +kernel, t, hAnswer, hHolds, fun hKept => ?_⟩
  exact absurd (hKept.unique hHolds (by decide) (by decide)) (by decide)

end UnixV6
end VintageUnix
