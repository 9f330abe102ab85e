import VintageUnix.Proofs.SharedStreams
import VintageUnix.Proofs.StringsInMemory

/-! What is written to a file in memory is read back from it. A write replaces bytes, goes past the
end or leaves a gap, as the position has it, and is cut off only at the top of memory. -/
namespace VintageUnix

/-- The second content is the first with bytes put at a position. It is longer if they go past the
end, and zero between the old end and the position. -/
structure Overwrites (content : List UInt8) (position : Nat) (bytes result : List UInt8) :
    Prop where
  length : result.length = max content.length (position + bytes.length)
  before (i : Nat) : i < position → result[i]? = some (content.getD i 0)
  inside (i : Nat) : i < bytes.length → result[position + i]? = bytes[i]?
  behind (i : Nat) : position + bytes.length ≤ i → result[i]? = content[i]?

section Content

variable (content : List UInt8) (position : Nat) (bytes : List UInt8)

/-- The content up to the position, filled with zeros. -/
def paddedTo : List UInt8 :=
  content.take position ++ List.replicate (position - content.length) 0

theorem length_paddedTo : (paddedTo content position).length = position := by
  simp only [paddedTo, List.length_append, List.length_take, List.length_replicate]
  omega

theorem overwriteAt_eq : overwriteAt content position bytes =
    paddedTo content position ++ (bytes ++ content.drop (position + bytes.length)) := by
  simp only [overwriteAt, paddedTo, List.append_assoc]

theorem getElem?_paddedTo {i : Nat} (h : i < position) :
    (paddedTo content position)[i]? = some (content.getD i 0) := by
  rw [paddedTo]
  rcases Nat.lt_or_ge i content.length with hInside | hGap
  · rw [List.getElem?_append_left (by simp only [List.length_take]; omega),
      List.getElem?_take_of_lt h, List.getD_eq_getElem?_getD, List.getElem?_eq_getElem hInside]
    rfl
  · rw [List.getElem?_append_right (by simp only [List.length_take]; omega),
      List.getElem?_replicate_of_lt (by simp only [List.length_take]; omega),
      List.getD_eq_getElem?_getD, List.getElem?_eq_none hGap]
    rfl

theorem overwrites_overwriteAt :
    Overwrites content position bytes (overwriteAt content position bytes) := by
  have hPadded := length_paddedTo content position
  rw [overwriteAt_eq]
  constructor
  case length =>
    simp only [List.length_append, hPadded, List.length_drop]
    omega
  case before =>
    intro i hBefore
    rw [List.getElem?_append_left (by omega), getElem?_paddedTo content position hBefore]
  case inside =>
    intro i hInside
    rw [List.getElem?_append_right (by omega), hPadded, Nat.add_sub_cancel_left,
      List.getElem?_append_left hInside]
  case behind =>
    intro i hBehind
    rw [List.getElem?_append_right (by omega), List.getElem?_append_right (by omega), hPadded,
      List.getElem?_drop]
    congr 1
    omega

/-- Only one content is as described. -/
theorem Overwrites.eq_overwriteAt {result : List UInt8}
    (h : Overwrites content position bytes result) :
    result = overwriteAt content position bytes := by
  have hPut := overwrites_overwriteAt content position bytes
  apply List.ext_getElem?
  intro i
  rcases Nat.lt_or_ge i position with hBefore | hPlace
  · rw [h.before i hBefore, hPut.before i hBefore]
  · obtain ⟨k, rfl⟩ := Nat.exists_eq_add_of_le hPlace
    rcases Nat.lt_or_ge k bytes.length with hInside | hBehind
    · rw [h.inside k hInside, hPut.inside k hInside]
    · have hEnd := Nat.add_le_add_left hBehind position
      rw [h.behind _ hEnd, hPut.behind _ hEnd]

theorem sliceAt_overwriteAt :
    sliceAt (overwriteAt content position bytes) position bytes.length = bytes := by
  rw [sliceAt, overwriteAt_eq, List.drop_left' (length_paddedTo content position),
    List.take_left]

end Content

variable {Cpu : Type} [Processor Cpu] {s t : Session Cpu} {descriptor : UInt16} {id : Nat}
  {f : MemoryFile}

namespace Session

/-- The descriptor is open to a file in memory. -/
structure HoldsFile (s : Session Cpu) (descriptor : UInt16) (id : Nat) (f : MemoryFile) : Prop where
  handle : s.process.descriptors.get? descriptor = some (.file id)
  stream : s.host.streams[id]? = some (.memory f)

namespace HoldsFile

variable (h : s.HoldsFile descriptor id f)

include h

theorem of_logs (hLogs : Logs s t) : t.HoldsFile descriptor id f where
  handle := by rw [hLogs.process, h.handle]
  stream := by rw [hLogs.host, h.stream]

/-- The file is replaced. -/
theorem setStream (g : MemoryFile) :
    (s.withHost (s.host.setStream id (.memory g))).HoldsFile descriptor id g where
  handle := h.handle
  stream := by
    have hBound : id < s.host.streams.size := (Array.getElem?_eq_some_iff.1 h.stream).1
    simp [withHost, Host.setStream, hBound]

theorem mapMemory (g : AddressSpace → AddressSpace) : (s.mapMemory g).HoldsFile descriptor id f :=
  ⟨h.handle, h.stream⟩

/-- A write replaces what stands at the position, and leaves the process as it is. -/
theorem write (hWritable : f.writable = true) (hPlain : f.appending = false)
    (buffer length : UInt16) :
    ∃ t bytes, bytes = s.memory.read buffer (clampLength buffer length) ∧
      s.write descriptor buffer length = (.ok (.ofNat bytes.length), t) ∧
      t.process = s.process ∧
      t.HoldsFile descriptor id { f with
        content := overwriteAt f.content f.position bytes
        position := f.position + bytes.length } := by
  have hServed (bytes : List UInt8) : s.host.write (.file id) bytes =
      .ok (bytes.length, s.host.setStream id (.memory { f with
        content := overwriteAt f.content f.position bytes
        position := f.position + bytes.length })) := by
    rw [Host.write, h.stream]
    simp only [MemoryFile.write, if_pos hWritable, hPlain, Bool.false_eq_true, if_false]
  rw [Session.write, Descriptors.get_eq_ok_iff.2 h.handle]
  simp only [bind, Except.bind, hServed, Except.mapError]
  obtain ⟨t, hCall, hLogs⟩ := exists_conclude s _ _ _ _
  exact ⟨t, _, rfl, hCall, hLogs.process, (h.setStream _).of_logs hLogs⟩

/-- The file moves to any position that it can stand at. -/
theorem seek (hSeekable : f.seekable = true) {position : Nat}
    (hLimit : position < MemoryFile.positionLimit) :
    ∃ t, s.seek descriptor (.start position) = (.ok position, t) ∧ t.process = s.process ∧
      t.HoldsFile descriptor id { f with position } := by
  have hTarget : SeekPosition.target? (.start position) f.position f.content.length
      MemoryFile.positionLimit = some position := by
    simp [SeekPosition.target?, hLimit]
  have hServed : s.host.seek (.file id) (.start position) =
      .ok (position, s.host.setStream id (.memory { f with position })) := by
    rw [Host.seek, h.stream]
    simp only [MemoryFile.seek, if_pos hSeekable, hTarget]
  rw [Session.seek, Descriptors.get_eq_ok_iff.2 h.handle]
  simp only [bind, Except.bind, hServed, Except.mapError]
  obtain ⟨t, hCall, hLogs⟩ := exists_conclude s _ _ _ _
  exact ⟨t, hCall, hLogs.process, (h.setStream _).of_logs hLogs⟩

/-- A read puts what stands at the position into memory, and moves past it. -/
theorem read (hReadable : f.readable = true) (buffer length : UInt16) :
    ∃ t bytes, bytes = sliceAt f.content f.position (clampLength buffer length) ∧
      s.read descriptor buffer length = (.ok (.ofNat bytes.length), t) ∧
      t.memory = s.memory.write buffer bytes ∧
      t.HoldsFile descriptor id { f with position := f.position + bytes.length } := by
  have hHolds : SharedTables.Holds ⟨s.host, []⟩ id f := h.stream
  have hServed := hHolds.read hReadable (clampLength buffer length)
  obtain ⟨t, hCall, hLogs⟩ := read_of_served h.handle hServed
  refine ⟨t, _, rfl, hCall, ?_, ((h.setStream _).mapMemory _).of_logs hLogs⟩
  rw [memory, hLogs.process]
  rfl

end HoldsFile

end Session

/-- A length that does not reach past the top of memory is not cut off. -/
theorem clampLength_ofNat {buffer : UInt16} {length : Nat} (hLength : length < UInt16.size)
    (hFits : length ≤ segmentSize - buffer.toNat) :
    Session.clampLength buffer (.ofNat length) = length := by
  rw [Session.clampLength, UInt16.toNat_ofNat_of_lt' hLength, Nat.min_eq_left hFits]

/-- What is written is read back. A process that has a file in memory open for reading and
writing writes bytes to it, moves back to where they were put and reads them into memory. Each
call does all it is asked to, whether the position is in the content or behind it and whether or
not the buffers overlap. Nothing else in memory changes. -/
theorem written_bytes_are_read_back (hFile : s.HoldsFile descriptor id f)
    (hReadable : f.readable = true) (hWritable : f.writable = true)
    (hSeekable : f.seekable = true) (hPlain : f.appending = false)
    (hPosition : f.position + 65536 < 2 ^ 63) {source target length : UInt16} {count : Nat}
    (hCount : count = min length.toNat (65536 - source.toNat))
    (hSome : 1 ≤ count) (hFits : count ≤ 65536 - target.toNat) :
    ∃ written sought read content,
      s.write descriptor source length = (.ok (.ofNat count), written) ∧
      written.seek descriptor (.start f.position) = (.ok f.position, sought) ∧
      sought.read descriptor target (.ofNat count) = (.ok (.ofNat count), read) ∧
      read.memory.read target count = s.memory.read source count ∧
      AddressSpace.StoresWithin [⟨target, count⟩] s.memory read.memory ∧
      Overwrites f.content f.position (s.memory.read source count) content ∧
      read.HoldsFile descriptor id { f with content, position := f.position + count } := by
  have hClamp : Session.clampLength source length = count := hCount.symm
  have hSize : count < UInt16.size := by
    have hBelow := length.toNat_lt_size
    omega
  obtain ⟨written, bytes, hBytes, hWrite, hWritten, hAfterWrite⟩ :=
    hFile.write hWritable hPlain source length
  have hLimit : f.position < MemoryFile.positionLimit := by
    rw [MemoryFile.positionLimit]
    omega
  obtain ⟨sought, hSeek, hSought, hAfterSeek⟩ := hAfterWrite.seek hSeekable hLimit
  obtain ⟨read, back, hBack, hRead, hMemory, hAfterRead⟩ :=
    hAfterSeek.read hReadable target (.ofNat count)
  rw [hClamp] at hBytes
  have hLength : bytes.length = count := by rw [hBytes, AddressSpace.length_read]
  have hSame : back = bytes := by
    rw [hBack, clampLength_ofNat hSize hFits, ← hLength]
    exact sliceAt_overwriteAt _ _ _
  subst hSame
  have hKept : sought.memory = s.memory := by
    rw [Session.memory, hSought, hWritten, Session.memory]
  rw [hKept] at hMemory
  rw [hLength] at hWrite hRead hAfterRead
  refine ⟨written, sought, read, _, hWrite, hSeek, hRead, ?_, ?_, ?_, hAfterRead⟩
  · rw [hMemory, ← hBytes, ← hLength]
    exact AddressSpace.read_write _ _ (by rw [hLength]; exact Nat.le_of_lt hSize)
  · rw [hMemory, ← hLength]
    exact .write _ _ _
  · rw [← hBytes]
    exact overwrites_overwriteAt _ _ _

/-- A process with three bytes at the top of memory, that has a file open behind its end. -/
private abbrev behindEnd : Session Pdp11.Cpu :=
  (UnixV6.conventions.start
    { memory := AddressSpace.shared.write 0xfffd [1, 2, 3], entry := 0, format := .raw } {}
    { streams := #[.memory { content := [7], position := 4 }] }).withDescriptors
    (Descriptors.standard.insert (.file 0)).2

/-- The write is cut off at the top of memory and leaves a gap in the file, and the bytes are read
back over themselves. -/
theorem written_bytes_are_read_back_behindEnd :
    ∃ written sought read,
      behindEnd.write 3 0xfffd 9 = (.ok 3, written) ∧
      written.seek 3 (.start 4) = (.ok 4, sought) ∧
      sought.read 3 0xfffc 3 = (.ok 3, read) ∧
      read.memory.read 0xfffc 3 = [1, 2, 3] ∧
      read.HoldsFile 3 0 { content := [7, 0, 0, 0, 1, 2, 3], position := 7 } := by
  have hFile : behindEnd.HoldsFile 3 0 { content := [7], position := 4 } :=
    ⟨by decide +kernel, rfl⟩
  have hBytes : behindEnd.memory.read 0xfffd 3 = [1, 2, 3] :=
    AddressSpace.read_write .shared 0xfffd (by decide : [1, 2, 3].length ≤ segmentSize)
  obtain ⟨written, sought, read, content, hWrite, hSeek, hRead, hBack, -, hContent, hAfter⟩ :=
    written_bytes_are_read_back hFile rfl rfl rfl rfl (by decide)
      (by decide : 3 = min (9 : UInt16).toNat (65536 - (0xfffd : UInt16).toNat)) (by decide)
      (by decide : 3 ≤ 65536 - (0xfffc : UInt16).toNat)
  rw [hBytes] at hBack hContent
  rw [hContent.eq_overwriteAt] at hAfter
  exact ⟨written, sought, read, hWrite, hSeek, hRead, hBack, hAfter⟩

end VintageUnix
