import Mathlib.Algebra.GroupWithZero.Nat
import Mathlib.Data.List.Infix
import VintageUnix.Proofs.HostServices
import VintageUnix.Proofs.OpenDescriptors

/-! Descriptors that share a stream. However they were made and whichever are closed, reading
through all of them in turn gives the content of a file once, from its start to its end. -/
namespace VintageUnix

theorem sliceAt_append_drop (content : List UInt8) (position count : Nat) :
    sliceAt content position count ++
      content.drop (position + (sliceAt content position count).length) =
      content.drop position := by
  rw [sliceAt, ← List.drop_drop, List.length_take]
  rcases Nat.le_total count (content.drop position).length with hWhole | hShort
  · rw [Nat.min_eq_left hWhole, List.take_append_drop]
  · rw [Nat.min_eq_right hShort, List.take_of_length_le hShort, List.drop_length,
      List.append_nil]

theorem sliceAt_add (content : List UInt8) (position count further : Nat) :
    sliceAt content position (count + further) = sliceAt content position count ++
      sliceAt content (position + (sliceAt content position count).length) further := by
  simp only [sliceAt, List.take_add, ← List.drop_drop, List.length_take]
  rcases Nat.le_total count (content.drop position).length with hWhole | hShort
  · rw [Nat.min_eq_left hWhole]
  · rw [Nat.min_eq_right hShort, List.drop_length, List.drop_of_length_le hShort]

/-- A slice that is shorter than asked for ends where the content does. -/
theorem sliceAt_of_short {content : List UInt8} {position count : Nat}
    (hShort : (sliceAt content position count).length < count) :
    sliceAt content position count = content.drop position := by
  rw [sliceAt, List.length_take] at hShort
  exact List.take_of_length_le (by omega)

/-- A read: how much was asked for, and what was given. -/
structure ReadResult where
  count : Nat
  result : Except StreamError (List UInt8)

namespace ReadResult

/-- The bytes that were given, if any. -/
def bytes (r : ReadResult) : List UInt8 :=
  match r.result with
  | .ok bytes => bytes
  | .error _ => []

/-- Reads of a content from a position on, each of them where the one before has ended. -/
def inTurn (content : List UInt8) : (position : Nat) → (counts : List Nat) → List ReadResult
  | _, [] => []
  | position, count :: counts =>
      let bytes := sliceAt content position count
      ⟨count, .ok bytes⟩ :: inTurn content (position + bytes.length) counts

theorem bytes_inTurn (content : List UInt8) (position : Nat) (counts : List Nat) :
    (inTurn content position counts).flatMap bytes = sliceAt content position counts.sum := by
  induction counts generalizing position with
  | nil => simp [inTurn, sliceAt]
  | cons count counts ih =>
      rw [List.sum_cons, sliceAt_add, inTurn, List.flatMap_cons, ih]
      rfl

theorem map_count_inTurn (content : List UInt8) (position : Nat) (counts : List Nat) :
    (inTurn content position counts).map count = counts := by
  induction counts generalizing position with
  | nil => rfl
  | cons count counts ih => rw [inTurn, List.map_cons, ih]

/-- Each read succeeds, and one that gives less than was asked for has reached the end. -/
theorem of_inTurn {content : List UInt8} {position : Nat} {counts : List Nat}
    {before after : List ReadResult} {r : ReadResult}
    (hSplit : inTurn content position counts = before ++ r :: after) :
    ∃ bytes, r.result = .ok bytes ∧ bytes.length ≤ r.count ∧
      (bytes.length < r.count →
        before.flatMap ReadResult.bytes ++ bytes = content.drop position) := by
  induction counts generalizing position before with
  | nil => cases before <;> cases hSplit
  | cons count counts ih =>
      cases before with
      | nil =>
          obtain ⟨rfl, -⟩ := List.cons.inj hSplit
          exact ⟨_, rfl, length_sliceAt_le _ _ _, sliceAt_of_short⟩
      | cons first before =>
          obtain ⟨rfl, hRest⟩ := List.cons.inj hSplit
          obtain ⟨bytes, hResult, hLength, hEnd⟩ := ih hRest
          refine ⟨bytes, hResult, hLength, fun hShort => ?_⟩
          rw [List.flatMap_cons, List.append_assoc, hEnd hShort]
          exact sliceAt_append_drop content position count

end ReadResult

namespace Host

/-- Only the stream of the handle may have changed. -/
def TouchesOnly (handle : Handle) (h k : Host) : Prop :=
  ∀ id, handle ≠ .file id → k.streams[id]? = h.streams[id]?

theorem touchesOnly_setStream {h : Host} (id : Nat) (f : Stream) :
    TouchesOnly (.file id) h (h.setStream id f) :=
  fun _ hOther => Array.getElem?_setIfInBounds_ne fun hSame => hOther (congrArg Handle.file hSame)

theorem touchesOnly_read {h k : Host} {handle : Handle} {count : Nat} {bytes : List UInt8}
    (hRead : h.read handle count = .ok (bytes, k)) : TouchesOnly handle h k := by
  unfold read at hRead
  split at hRead
  next =>
    cases hRead
    exact fun _ _ => rfl
  next => cases hRead
  next =>
    split at hRead
    next => split at hRead <;> cases hRead; exact touchesOnly_setStream _ _
    next => split at hRead <;> cases hRead; exact touchesOnly_setStream _ _
    next => cases hRead

theorem touchesOnly_write {h k : Host} {handle : Handle} {bytes : List UInt8} {count : Nat}
    (hWrite : h.write handle bytes = .ok (count, k)) : TouchesOnly handle h k := by
  unfold write at hWrite
  split at hWrite
  next => cases hWrite
  next =>
    cases hWrite
    exact fun _ _ => rfl
  next =>
    cases hWrite
    exact fun _ _ => rfl
  next =>
    split at hWrite
    next => split at hWrite <;> cases hWrite; exact touchesOnly_setStream _ _
    next => split at hWrite <;> cases hWrite; exact touchesOnly_setStream _ _
    next => cases hWrite

theorem touchesOnly_seek {h k : Host} {handle : Handle} {p : SeekPosition} {position : Nat}
    (hSeek : h.seek handle p = .ok (position, k)) : TouchesOnly handle h k := by
  unfold seek at hSeek
  split at hSeek
  next => cases hSeek
  next =>
    split at hSeek
    next => split at hSeek <;> cases hSeek; exact touchesOnly_setStream _ _
    next => split at hSeek <;> cases hSeek; exact touchesOnly_setStream _ _
    next => cases hSeek

end Host

/-- Descriptor tables of several processes of one host. -/
structure SharedTables where
  host : Host
  tables : List Descriptors

namespace SharedTables

/-- A descriptor of one of the tables. -/
@[ext]
structure Place where
  table : Nat
  descriptor : UInt16
  deriving DecidableEq

/-- What is done with the tables and the streams. -/
inductive Action where
  /-- The host keeps one more stream. -/
  | create (f : Stream)
  | insert (table : Nat) (handle : Handle)
  | install (place : Place) (handle : Handle)
  | close (place : Place)
  | duplicate (place : Place)
  /-- Another table that refers to the same streams, as a fork makes it. -/
  | copy (table : Nat)
  | read (place : Place) (count : Nat)
  | write (place : Place) (bytes : List UInt8)
  | seek (place : Place) (p : SeekPosition)

variable {s : SharedTables} {id : Nat} {place : Place}

/-- The handle at a place, if it is open. -/
def handle? (s : SharedTables) (place : Place) : Option Handle :=
  s.tables[place.table]?.bind (·.get? place.descriptor)

/-- Change a table. A change that fails leaves it as it is. -/
def updateTable (s : SharedTables) (table : Nat)
    (change : Descriptors → Except Errno Descriptors) : SharedTables :=
  { s with tables := s.tables.modify table fun d => (change d).toOption.getD d }

/-- Use the stream at a place, if there is one and it does not refuse. -/
def use {α : Type} (s : SharedTables) (place : Place)
    (serve : Handle → Except StreamError (α × Host)) : SharedTables :=
  match s.handle? place with
  | some handle => match serve handle with
    | .ok (_, host) => { s with host }
    | .error _ => s
  | none => s

def perform (s : SharedTables) : Action → SharedTables
  | .create f => { s with host := (s.host.addStream f).2 }
  | .insert table handle => s.updateTable table fun d => .ok (d.insert handle).2
  | .install place handle =>
      s.updateTable place.table fun d => .ok (d.install place.descriptor handle)
  | .close place => s.updateTable place.table (·.close place.descriptor)
  | .duplicate place =>
      s.updateTable place.table fun d => (d.duplicate place.descriptor).map Prod.snd
  | .copy table => { s with tables := s.tables ++ s.tables[table]?.toList }
  | .read place count => s.use place (s.host.read · count)
  | .write place bytes => s.use place (s.host.write · bytes)
  | .seek place p => s.use place (s.host.seek · p)

def run (s : SharedTables) (actions : List Action) : SharedTables :=
  actions.foldl perform s

/-- The descriptor that an action closes, or whose stream it replaces. -/
def Action.freed? : Action → Option Place
  | .install place _ | .close place => some place
  | _ => none

/-- The descriptor whose stream an action writes or moves. -/
def Action.altered? : Action → Option Place
  | .write place _ | .seek place _ => some place
  | _ => none

/-- What an action reads from a stream. -/
def readOf (s : SharedTables) (id : Nat) : Action → Option ReadResult
  | .read place count =>
      if s.handle? place = some (.file id) then
        some ⟨count, (s.host.read (.file id) count).map Prod.fst⟩
      else none
  | _ => none

/-- What a run reads from a stream, through any descriptor. -/
def reads (id : Nat) : SharedTables → List Action → List ReadResult
  | _, [] => []
  | s, action :: actions => (s.readOf id action).toList ++ reads id (s.perform action) actions

/-- The stream is this file. -/
def Holds (s : SharedTables) (id : Nat) (f : MemoryFile) : Prop :=
  s.host.streams[id]? = some (.memory f)

theorem Holds.use_other {α : Type} {f : MemoryFile}
    {serve : Handle → Except StreamError (α × Host)} (hHolds : s.Holds id f)
    (hOther : s.handle? place ≠ some (.file id))
    (hServe : ∀ handle value k, serve handle = .ok (value, k) → s.host.TouchesOnly handle k) :
    (s.use place serve).Holds id f := by
  unfold use
  split
  next handle hHandle =>
    split
    next value k hResult =>
      have hApart : handle ≠ .file id := fun hSame => hOther (hSame ▸ hHandle)
      exact (hServe handle value k hResult id hApart).trans hHolds
    next => exact hHolds
  next => exact hHolds

/-- Reading the file moves it past what was read. -/
theorem Holds.read {f : MemoryFile} (hHolds : s.Holds id f) (hReadable : f.readable = true)
    (count : Nat) :
    s.host.read (.file id) count = .ok (sliceAt f.content f.position count,
      s.host.setStream id (.memory { f with
        position := f.position + (sliceAt f.content f.position count).length })) := by
  rw [Holds] at hHolds
  rw [Host.read, hHolds]
  simp only [MemoryFile.read, if_pos hReadable]

/-- An action that does not read the file, write it or move it leaves it. -/
theorem Holds.perform_of_none {f : MemoryFile} {action : Action} (hHolds : s.Holds id f)
    (hSpares : ∀ place ∈ action.altered?, s.handle? place ≠ some (.file id))
    (hNone : s.readOf id action = none) : (s.perform action).Holds id f := by
  cases action with
  | create g =>
      have hBound : id < s.host.streams.size := (Array.getElem?_eq_some_iff.1 hHolds).1
      refine (Array.getElem?_push_lt hBound).trans ?_
      rw [← Array.getElem?_eq_getElem hBound]
      exact hHolds
  | insert | install | close | duplicate | copy => exact hHolds
  | read place count =>
      have hOther : s.handle? place ≠ some (.file id) := by
        intro hSame
        rw [readOf, if_pos hSame] at hNone
        cases hNone
      exact hHolds.use_other hOther fun _ _ _ => Host.touchesOnly_read
  | write place bytes =>
      exact hHolds.use_other (hSpares place rfl) fun _ _ _ => Host.touchesOnly_write
  | seek place p => exact hHolds.use_other (hSpares place rfl) fun _ _ _ => Host.touchesOnly_seek

/-- A read of the file gives what comes next in it. -/
theorem Holds.perform_of_some {f : MemoryFile} {action : Action} {r : ReadResult}
    (hHolds : s.Holds id f) (hReadable : f.readable = true)
    (hRead : s.readOf id action = some r) :
    r.result = .ok (sliceAt f.content f.position r.count) ∧
      (s.perform action).Holds id { f with
        position := f.position + (sliceAt f.content f.position r.count).length } := by
  unfold readOf at hRead
  split at hRead
  next place count =>
    split at hRead
    next hHandle =>
      cases hRead
      have hBound : id < s.host.streams.size := (Array.getElem?_eq_some_iff.1 hHolds).1
      simp only [perform, use, hHandle, hHolds.read hReadable]
      exact ⟨rfl, Array.getElem?_setIfInBounds_self_of_lt hBound⟩
    next => cases hRead
  next => cases hRead

/-- No action of a run writes the file or moves it. -/
def OnlyRead (id : Nat) : SharedTables → List Action → Prop
  | _, [] => True
  | s, action :: actions =>
      (∀ place ∈ action.altered?, s.handle? place ≠ some (.file id)) ∧
        OnlyRead id (s.perform action) actions

instance OnlyRead.decidable (id : Nat) : (s : SharedTables) → (actions : List Action) →
    Decidable (OnlyRead id s actions)
  | _, [] => inferInstanceAs (Decidable True)
  | s, action :: actions =>
      haveI := OnlyRead.decidable id (s.perform action) actions
      inferInstanceAs (Decidable ((∀ place ∈ action.altered?,
        s.handle? place ≠ some (.file id)) ∧ OnlyRead id (s.perform action) actions))

theorem reads_eq_inTurn {f : MemoryFile} {actions : List Action} (hHolds : s.Holds id f)
    (hReadable : f.readable = true) (hOnly : OnlyRead id s actions) :
    reads id s actions =
      ReadResult.inTurn f.content f.position ((reads id s actions).map ReadResult.count) := by
  induction actions generalizing s f with
  | nil => rfl
  | cons action actions ih =>
      rw [reads]
      cases hRead : s.readOf id action with
      | none => exact ih (hHolds.perform_of_none hOnly.1 hRead) hReadable hOnly.2
      | some r =>
          obtain ⟨hResult, hNext⟩ := hHolds.perform_of_some hReadable hRead
          have hRest := ih hNext hReadable hOnly.2
          simp only [Option.toList_some, List.singleton_append, List.map_cons,
            ReadResult.inTurn, ← hResult]
          exact congrArg (r :: ·) hRest

theorem handle?_updateTable (s : SharedTables) (table : Nat)
    (change : Descriptors → Except Errno Descriptors) (place : Place) :
    (s.updateTable table change).handle? place =
      if table = place.table then
        s.tables[place.table]?.bind fun d =>
          ((change d).toOption.getD d).get? place.descriptor
      else s.handle? place := by
  simp only [updateTable, handle?, List.getElem?_modify]
  split
  · cases s.tables[place.table]? <;> rfl
  · cases s.tables[place.table]? <;> rfl

theorem handle?_use {α : Type} (s : SharedTables) (other : Place)
    (serve : Handle → Except StreamError (α × Host)) (place : Place) :
    (s.use other serve).handle? place = s.handle? place := by
  unfold use
  split
  · split <;> rfl
  · rfl

/-- A change of a table keeps a descriptor if it keeps it in the table. -/
theorem handle?_updateTable_of_kept {table : Nat} {handle : Handle}
    {change : Descriptors → Except Errno Descriptors} (hHandle : s.handle? place = some handle)
    (hKept : ∀ d, table = place.table → d.get? place.descriptor = some handle →
      ∀ e, change d = .ok e → e.get? place.descriptor = some handle) :
    (s.updateTable table change).handle? place = some handle := by
  rw [handle?_updateTable]
  split
  next hTable =>
    obtain ⟨d, hTable', hOpen⟩ := Option.bind_eq_some_iff.1 hHandle
    rw [hTable', Option.bind_some]
    cases hChange : change d with
    | ok e => exact hKept d hTable hOpen e hChange
    | error e => exact hOpen
  next => exact hHandle

/-- A descriptor keeps its handle through every action that neither closes nor
replaces it. -/
theorem handle?_perform {action : Action} {handle : Handle}
    (hHandle : s.handle? place = some handle) (hKept : place ∉ action.freed?) :
    (s.perform action).handle? place = some handle := by
  cases action with
  | create f => exact hHandle
  | insert table inserted =>
      refine handle?_updateTable_of_kept hHandle fun d _ hOpen e hChange => ?_
      cases hChange
      exact Descriptors.get?_insert_of_open hOpen inserted
  | install target installed =>
      refine handle?_updateTable_of_kept hHandle fun d hTable hOpen e hChange => ?_
      cases hChange
      have hApart : target.descriptor ≠ place.descriptor := fun hSame =>
        hKept (congrArg some (Place.ext hTable hSame))
      rw [Descriptors.get?_install, if_neg hApart, hOpen]
  | close target =>
      refine handle?_updateTable_of_kept hHandle fun d hTable hOpen e hChange => ?_
      have hApart : target.descriptor ≠ place.descriptor := fun hSame =>
        hKept (congrArg some (Place.ext hTable hSame))
      rw [Descriptors.get?_close hChange, if_neg hApart, hOpen]
  | duplicate target =>
      refine handle?_updateTable_of_kept hHandle fun d _ hOpen e hChange => ?_
      obtain ⟨_, hDuplicate, rfl⟩ := Except.of_map_eq_ok hChange
      obtain ⟨copied, -, rfl⟩ := Except.of_map_eq_ok hDuplicate
      exact Descriptors.get?_insert_of_open hOpen copied
  | copy table =>
      obtain ⟨d, hTable, hOpen⟩ := Option.bind_eq_some_iff.1 hHandle
      have hBound := (List.getElem?_eq_some_iff.1 hTable).1
      rw [handle?, perform, List.getElem?_append_left hBound]
      exact hHandle
  | read other count => exact (s.handle?_use other _ place).trans hHandle
  | write other bytes => exact (s.handle?_use other _ place).trans hHandle
  | seek other p => exact (s.handle?_use other _ place).trans hHandle

theorem handle?_run {actions : List Action} {handle : Handle}
    (hHandle : s.handle? place = some handle)
    (hKept : ∀ action ∈ actions, place ∉ action.freed?) :
    (s.run actions).handle? place = some handle := by
  induction actions generalizing s with
  | nil => exact hHandle
  | cons action actions ih =>
      refine ih (handle?_perform hHandle (hKept action (.head _))) fun other hOther => ?_
      exact hKept other (.tail _ hOther)

theorem run_append (s : SharedTables) (first second : List Action) :
    s.run (first ++ second) = (s.run first).run second :=
  List.foldl_append

/-- No table has more slots than there are descriptors. -/
def Roomy (s : SharedTables) : Prop :=
  ∀ d ∈ s.tables, d.size ≤ UInt16.size

/-- Duplicating an open descriptor opens a closed one for the same stream, if there
is room for it. -/
theorem exists_duplicate {handle : Handle} (hHandle : s.handle? place = some handle)
    (hRoom : (s.perform (.duplicate place)).Roomy) :
    ∃ d copy e, s.tables[place.table]? = some d ∧
      d.duplicate place.descriptor = .ok (copy, e) ∧
      s.handle? ⟨place.table, copy⟩ = none ∧
      (s.perform (.duplicate place)).handle? ⟨place.table, copy⟩ = some handle := by
  obtain ⟨d, hTable, hOpen⟩ := Option.bind_eq_some_iff.1 hHandle
  have hDuplicate : d.duplicate place.descriptor = .ok (d.insert handle) := by
    rw [Descriptors.duplicate, Descriptors.get_eq_ok_iff.2 hOpen]
    rfl
  have hAfter : (s.perform (.duplicate place)).tables[place.table]? =
      some (d.insert handle).2 := by
    simp only [perform, updateTable, List.getElem?_modify, hTable, Option.map_eq_map,
      Option.map_some, if_true, hDuplicate]
    rfl
  -- the table has a slot for the copy, and it has no more slots than descriptors
  have hSize := hRoom _ (List.mem_of_getElem? hAfter)
  have hSlot : d.firstFree < UInt16.size :=
    Nat.lt_of_lt_of_le (Nat.lt_of_succ_le (Nat.le_max_right d.size _)) hSize
  have hNumber : (UInt16.ofNat d.firstFree).toNat = d.firstFree :=
    UInt16.toNat_ofNat_of_lt' hSlot
  refine ⟨d, .ofNat d.firstFree, (d.insert handle).2, hTable, hDuplicate, ?_, ?_⟩
  · rw [handle?, hTable, Option.bind_some, Descriptors.get?_eq_none_iff, hNumber]
    exact d.firstFree_not_mem
  · rw [handle?, hAfter, Option.bind_some, Descriptors.get?_insert, if_pos hNumber.symm]

/-- A copied table refers to the same streams. -/
theorem handle?_copy {handle : Handle} (hHandle : s.handle? place = some handle) :
    (s.perform (.copy place.table)).handle? ⟨s.tables.length, place.descriptor⟩ =
      some handle := by
  obtain ⟨d, hTable, hOpen⟩ := Option.bind_eq_some_iff.1 hHandle
  rw [handle?, perform, hTable]
  simpa using hOpen

/-- What the descriptors of a file in memory come to in a run: together they read it once, from
its start to its end, and each of them lasts until it is closed or replaced itself. -/
structure SharesFile (s : SharedTables) (id : Nat) (content : List UInt8)
    (actions : List Action) : Prop where
  bytes : (reads id s actions).flatMap ReadResult.bytes =
    content.take (min ((reads id s actions).map ReadResult.count).sum content.length)
  each : ∀ before r after, reads id s actions = before ++ r :: after →
    ∃ bytes, r.result = .ok bytes ∧ bytes.length ≤ r.count ∧
      (bytes.length < r.count → before.flatMap ReadResult.bytes ++ bytes = content)
  kept : ∀ before middle after, actions = before ++ middle ++ after →
    ∀ place, (s.run before).handle? place = some (.file id) →
      (∀ action ∈ middle, place ∉ action.freed?) →
      (s.run (before ++ middle)).handle? place = some (.file id)
  duplicated : ∀ before place after, actions = before ++ .duplicate place :: after →
    (s.run before).handle? place = some (.file id) →
    ∃ d copy e, (s.run before).tables[place.table]? = some d ∧
      d.duplicate place.descriptor = .ok (copy, e) ∧
      (s.run before).handle? ⟨place.table, copy⟩ = none ∧
      (s.run (before ++ [.duplicate place])).handle? ⟨place.table, copy⟩ = some (.file id)
  copied : ∀ before table after, actions = before ++ .copy table :: after →
    ∀ descriptor, (s.run before).handle? ⟨table, descriptor⟩ = some (.file id) →
      (s.run (before ++ [.copy table])).handle? ⟨(s.run before).tables.length, descriptor⟩ =
        some (.file id)

end SharedTables

/-- What the call that reads does with the bytes that the host serves. -/
theorem Session.read_of_served {Cpu : Type} [Processor Cpu] {s : Session Cpu}
    {descriptor buffer length : UInt16} {handle : Handle} {bytes : List UInt8} {host : Host}
    (hOpen : s.process.descriptors.get? descriptor = some handle)
    (hServed : s.host.read handle (clampLength buffer length) = .ok (bytes, host)) :
    ∃ u, s.read descriptor buffer length = (.ok (.ofNat bytes.length), u) ∧
      Logs ((s.withHost host).mapMemory (·.write buffer bytes)) u := by
  rw [Session.read, Descriptors.get_eq_ok_iff.2 hOpen]
  simp only [bind, Except.bind, hServed, Except.mapError]
  exact exists_conclude s _ _ _ _

/-- The call that reads is such a read, of what has room behind the buffer. -/
theorem Session.read_of_holds {Cpu : Type} [Processor Cpu] {s : Session Cpu} {t : SharedTables}
    {place : SharedTables.Place} {id : Nat} {f : MemoryFile} (hHost : t.host = s.host)
    (hTable : t.tables[place.table]? = some s.process.descriptors)
    (hPlace : t.handle? place = some (.file id)) (hFile : t.Holds id f)
    (hReadable : f.readable = true) (buffer length : UInt16) :
    ∃ bytes u, bytes = sliceAt f.content f.position (clampLength buffer length) ∧
      s.read place.descriptor buffer length = (.ok (.ofNat bytes.length), u) ∧
      u.memory = s.memory.write buffer bytes ∧
      u.host.streams =
        (t.perform (.read place (clampLength buffer length))).host.streams := by
  have hOpen : s.process.descriptors.get? place.descriptor = some (.file id) := by
    rwa [SharedTables.handle?, hTable] at hPlace
  have hServed := hFile.read hReadable (clampLength buffer length)
  rw [hHost] at hServed
  obtain ⟨u, hCall, hLogs⟩ := read_of_served hOpen hServed
  refine ⟨_, u, rfl, hCall, ?_, ?_⟩
  · rw [memory, hLogs.process]
    rfl
  · rw [hLogs.host, SharedTables.perform, SharedTables.use, hPlace]
    simp only [hHost, hServed]
    rfl

open SharedTables in
/-- All descriptors of a file share its position. Whatever else is opened, closed, replaced,
duplicated, copied, read and written, reads of a file in memory through any of its descriptors
give its content once and in order, and none gives less than asked for before the end. Closing or
replacing a descriptor leaves the others, and duplicates and copies are descriptors of the file as
long as the tables have no more slots than there are descriptors. -/
theorem aliases_share_one_stream {s : SharedTables} {id : Nat} {f : MemoryFile}
    {actions : List Action} (hFile : s.Holds id f) (hReadable : f.readable = true)
    (hStart : f.position = 0) (hOnly : OnlyRead id s actions)
    (hRoom : ∀ before ∈ actions.inits, (s.run before).Roomy) :
    s.SharesFile id f.content actions := by
  have hTurns := reads_eq_inTurn hFile hReadable hOnly
  rw [hStart] at hTurns
  constructor
  case bytes =>
    rw [hTurns, ReadResult.bytes_inTurn, ReadResult.map_count_inTurn, sliceAt, List.drop_zero,
      ← List.take_eq_take_min]
  case each =>
    intro before r after hSplit
    exact ReadResult.of_inTurn (hTurns.symm.trans hSplit)
  case kept =>
    intro before middle after _ place hPlace hSpared
    rw [run_append]
    exact handle?_run hPlace hSpared
  case duplicated =>
    intro before place after hSplit hPlace
    have hPrefix : before ++ [.duplicate place] <+: actions :=
      ⟨after, by rw [hSplit, ← List.append_cons]⟩
    have hNext := hRoom _ ((List.mem_inits _ _).2 hPrefix)
    rw [run_append] at hNext ⊢
    exact exists_duplicate hPlace hNext
  case copied =>
    intro before table after _ descriptor hPlace
    rw [run_append]
    exact handle?_copy hPlace

namespace SharedTables

/-- A host with one file in memory, and a process that has it open at descriptor 3. -/
def oneFile : SharedTables where
  host := { streams := #[.memory { content := [1, 2, 3, 4, 5] }] }
  tables := [(Descriptors.standard.insert (.file 0)).2]

/-- The file is read through three descriptors in two tables. The first one is closed and reused
for another file, and its copy is redirected. -/
def readThrice : List Action :=
  [.duplicate ⟨0, 3⟩, .copy 0, .read ⟨0, 3⟩ 2, .close ⟨0, 3⟩, .create (.memory { content := [9] }),
    .insert 0 (.file 1), .write ⟨0, 3⟩ [8], .read ⟨1, 4⟩ 2, .install ⟨1, 3⟩ (.standard .output),
    .read ⟨0, 4⟩ 9]

end SharedTables

open SharedTables in
theorem aliases_share_one_stream_readThrice :
    oneFile.SharesFile 0 [1, 2, 3, 4, 5] readThrice ∧
      (reads 0 oneFile readThrice).map ReadResult.bytes = [[1, 2], [3, 4], [5]] := by
  refine ⟨?_, by decide +kernel⟩
  exact aliases_share_one_stream (f := { content := [1, 2, 3, 4, 5] }) rfl rfl rfl
    (by decide +kernel) (by simp only [Roomy]; decide +kernel)

end VintageUnix
