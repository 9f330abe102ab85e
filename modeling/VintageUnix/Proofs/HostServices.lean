import VintageUnix.Host.Basic

/-! What the host may do for a call. It serves calls from the file tree and the streams, never
looks at its journal, and leaves signals, numbers, finished children, users and the clock to
others. -/
namespace VintageUnix

/-- Two results that fail with the same error, or succeed with related values. -/
inductive ResultsRelated {ε α β : Type} (R : α → β → Prop) : Except ε α → Except ε β → Prop
  | ok {a : α} {b : β} (h : R a b) : ResultsRelated R (.ok a) (.ok b)
  | error (e : ε) : ResultsRelated R (.error e) (.error e)

namespace ResultsRelated

variable {ε α β γ δ : Type} {R : α → β → Prop} {S : γ → δ → Prop}
  {x : Except ε α} {y : Except ε β}

theorem refl (x : Except ε α) : ResultsRelated Eq x x := by
  cases x with
  | ok a => exact .ok rfl
  | error e => exact .error e

theorem mono (h : ResultsRelated R x y) {R' : α → β → Prop} (hMono : ∀ a b, R a b → R' a b) :
    ResultsRelated R' x y := by
  cases h with
  | ok h => exact .ok (hMono _ _ h)
  | error e => exact .error e

theorem map (h : ResultsRelated R x y) {f : α → γ} {g : β → δ}
    (hNext : ∀ a b, R a b → S (f a) (g b)) : ResultsRelated S (x.map f) (y.map g) := by
  cases h with
  | ok h => exact .ok (hNext _ _ h)
  | error e => exact .error e

theorem mapError (h : ResultsRelated R x y) {ε' : Type} (f : ε → ε') :
    ResultsRelated R (x.mapError f) (y.mapError f) := by
  cases h with
  | ok h => exact .ok h
  | error e => exact .error _

theorem bind (h : ResultsRelated R x y) {f : α → Except ε γ} {g : β → Except ε δ}
    (hNext : ∀ a b, R a b → ResultsRelated S (f a) (g b)) :
    ResultsRelated S (x >>= f) (y >>= g) := by
  cases h with
  | ok h => exact hNext _ _ h
  | error e => exact .error e

end ResultsRelated

theorem length_sliceAt_le (content : List UInt8) (position count : Nat) :
    (sliceAt content position count).length ≤ count := by
  rw [sliceAt, List.length_take]
  exact Nat.min_le_left _ _

theorem MemoryFile.length_le_of_read {f g : MemoryFile} {count : Nat} {bytes : List UInt8}
    (hRead : f.read count = .ok (bytes, g)) : bytes.length ≤ count := by
  unfold MemoryFile.read at hRead
  split at hRead
  · cases hRead
    exact length_sliceAt_le _ _ _
  · cases hRead

theorem OpenFile.length_le_of_read {f g : OpenFile} {t : FileTree} {count : Nat}
    {bytes : List UInt8} (hRead : f.read t count = .ok (bytes, g)) : bytes.length ≤ count := by
  unfold OpenFile.read at hRead
  split at hRead
  · cases hRead
  · split at hRead
    · cases hRead
    · cases hRead
      exact length_sliceAt_le _ _ _

/-- The same stream at a later time: it may stand elsewhere, and a file in memory may
hold something else. -/
inductive Stream.SameFile : Stream → Stream → Prop
  | memory (f : MemoryFile) (content : List UInt8) (position : Nat) :
    SameFile (.memory f) (.memory { f with content, position })
  | disk (f : OpenFile) (position : Nat) : SameFile (.disk f) (.disk { f with position })

namespace Stream.SameFile

theorem refl (f : Stream) : SameFile f f := by
  cases f with
  | memory f => exact .memory f f.content f.position
  | disk f => exact .disk f f.position

theorem trans {f g k : Stream} (first : SameFile f g) (second : SameFile g k) :
    SameFile f k := by
  cases first with
  | memory f _ _ =>
      cases second with
      | memory _ content position => exact .memory f content position
  | disk f _ =>
      cases second with
      | disk _ position => exact .disk f position

end Stream.SameFile

namespace MemoryFile

variable {f g : MemoryFile}

theorem sameFile_of_read {count : Nat} {bytes : List UInt8}
    (h : f.read count = .ok (bytes, g)) : Stream.SameFile (.memory f) (.memory g) := by
  unfold read at h
  split at h <;> cases h
  exact .memory f f.content _

theorem sameFile_of_write {bytes : List UInt8} (h : f.write bytes = .ok g) :
    Stream.SameFile (.memory f) (.memory g) := by
  unfold write at h
  split at h <;> cases h
  exact .memory f _ _

theorem sameFile_of_seek {p : SeekPosition} (h : f.seek p = .ok g) :
    Stream.SameFile (.memory f) (.memory g) := by
  unfold seek at h
  split at h
  · split at h <;> cases h
    exact .memory f f.content _
  · cases h

end MemoryFile

namespace OpenFile

variable {f g : OpenFile} {t : FileTree}

theorem sameFile_of_read {count : Nat} {bytes : List UInt8}
    (h : f.read t count = .ok (bytes, g)) : Stream.SameFile (.disk f) (.disk g) := by
  unfold read at h
  split at h
  · cases h
  · split at h <;> cases h
    exact .disk f _

theorem sameFile_of_write {u : FileTree} {bytes : List UInt8}
    (h : f.write t bytes = .ok (g, u)) : Stream.SameFile (.disk f) (.disk g) := by
  unfold write at h
  split at h
  · cases h
  · split at h <;> cases h
    · exact .refl _
    · exact .disk f _

theorem sameFile_of_seek {p : SeekPosition} (h : f.seek t p = .ok g) :
    Stream.SameFile (.disk f) (.disk g) := by
  unfold seek at h
  split at h <;> cases h
  exact .disk f _

end OpenFile

namespace Host

/-- Every stream of the first host is the same file in the second one, under the same
handle. -/
def KeepsStreams (h k : Host) : Prop :=
  ∀ (id : Nat) (f : Stream), h.streams[id]? = some f →
    ∃ g, k.streams[id]? = some g ∧ f.SameFile g

namespace KeepsStreams

theorem refl (h : Host) : h.KeepsStreams h :=
  fun _ f hStream => ⟨f, hStream, .refl f⟩

theorem trans {h k l : Host} (first : h.KeepsStreams k) (second : k.KeepsStreams l) :
    h.KeepsStreams l := by
  intro id f hStream
  obtain ⟨g, hStream, hFirst⟩ := first id f hStream
  obtain ⟨g', hStream, hSecond⟩ := second id g hStream
  exact ⟨g', hStream, hFirst.trans hSecond⟩

theorem setStream {h : Host} {id : Nat} {f g : Stream} (hStream : h.streams[id]? = some f)
    (hSame : f.SameFile g) : h.KeepsStreams (h.setStream id g) := by
  intro other f' hOther
  simp only [Host.setStream, Array.getElem?_setIfInBounds]
  split
  next hId =>
    subst hId
    obtain rfl : f = f' := Option.some.inj (hStream.symm.trans hOther)
    have hBound : id < h.streams.size := (Array.getElem?_eq_some_iff.1 hStream).1
    exact ⟨g, by rw [if_pos hBound], hSame⟩
  next => exact ⟨f', hOther, .refl f'⟩

theorem addStream (h : Host) (f : Stream) : h.KeepsStreams (h.addStream f).2 := by
  intro id f' hStream
  have hBound : id < h.streams.size := (Array.getElem?_eq_some_iff.1 hStream).1
  refine ⟨f', ?_, .refl f'⟩
  simp only [Host.addStream, Array.getElem?_push, if_neg (Nat.ne_of_lt hBound), hStream]

end KeepsStreams

/-- The host with another journal. -/
def withJournal (h : Host) (journal : Array JournalEntry) : Host :=
  { h with journal }

/-- The second host comes from the first by serving a call other than a wait. -/
structure Serves (h k : Host) : Prop where
  signals : k.signals = h.signals
  lastPid : k.lastPid = h.lastPid
  finished : k.finished = h.finished
  clock : k.clock = h.clock
  user : k.user = h.user
  group : k.group = h.group
  journal : k.journal = h.journal
  streams : h.KeepsStreams k

/-- What a host becomes by a call, and what the same host with another journal
becomes by it. -/
structure Served (h : Host) (journal : Array JournalEntry) (k k' : Host) : Prop where
  serves : h.Serves k
  journal : k' = k.withJournal journal

/-- The two calls have given the same value. -/
def ServedWith {α : Type} (h : Host) (journal : Array JournalEntry) (x y : α × Host) : Prop :=
  y.1 = x.1 ∧ h.Served journal x.2 y.2

variable (h : Host) (journal : Array JournalEntry)

theorem served_read (handle : Handle) (count : Nat) :
    ResultsRelated (h.ServedWith journal) (h.read handle count)
      ((h.withJournal journal).read handle count) := by
  cases handle with
  | standard stream =>
      cases stream with
      | input => exact .ok ⟨rfl, ⟨rfl, rfl, rfl, rfl, rfl, rfl, rfl, .refl h⟩, rfl⟩
      | output => exact .error _
      | error => exact .error _
  | file id =>
      simp only [read, withJournal]
      cases hStream : h.streams[id]? with
      | none => exact .error _
      | some stream =>
          cases stream with
          | memory f =>
              simp only
              cases hRead : f.read count with
              | ok result =>
                  have hKept := KeepsStreams.setStream hStream (MemoryFile.sameFile_of_read hRead)
                  exact .ok ⟨rfl, ⟨rfl, rfl, rfl, rfl, rfl, rfl, rfl, hKept⟩, rfl⟩
              | error e => exact .error e
          | disk f =>
              simp only
              cases hRead : f.read h.tree count with
              | ok result =>
                  have hKept := KeepsStreams.setStream hStream (OpenFile.sameFile_of_read hRead)
                  exact .ok ⟨rfl, ⟨rfl, rfl, rfl, rfl, rfl, rfl, rfl, hKept⟩, rfl⟩
              | error e => exact .error e

/-- No stream gives more bytes than it is asked for. -/
theorem length_le_of_read {handle : Handle} {count : Nat} {bytes : List UInt8} {k : Host}
    (hRead : h.read handle count = .ok (bytes, k)) : bytes.length ≤ count := by
  unfold read at hRead
  split at hRead
  next =>
    cases hRead
    simp only [List.length_take]
    omega
  next => cases hRead
  next =>
    split at hRead
    next f _ =>
      split at hRead
      next hFile =>
        cases hRead
        exact MemoryFile.length_le_of_read hFile
      next => cases hRead
    next f _ =>
      split at hRead
      next hFile =>
        cases hRead
        exact OpenFile.length_le_of_read hFile
      next => cases hRead
    next => cases hRead

/-- Standard error is the journal itself. -/
theorem served_write (handle : Handle) (bytes : List UInt8) (hHandle : handle ≠ .standard .error) :
    ResultsRelated (h.ServedWith journal) (h.write handle bytes)
      ((h.withJournal journal).write handle bytes) := by
  cases handle with
  | standard stream =>
      cases stream with
      | input => exact .error _
      | output => exact .ok ⟨rfl, ⟨rfl, rfl, rfl, rfl, rfl, rfl, rfl, .refl h⟩, rfl⟩
      | error => exact absurd rfl hHandle
  | file id =>
      simp only [write, withJournal]
      cases hStream : h.streams[id]? with
      | none => exact .error _
      | some stream =>
          cases stream with
          | memory f =>
              simp only
              cases hWrite : f.write bytes with
              | ok result =>
                  have hKept := KeepsStreams.setStream hStream (MemoryFile.sameFile_of_write hWrite)
                  exact .ok ⟨rfl, ⟨rfl, rfl, rfl, rfl, rfl, rfl, rfl, hKept⟩, rfl⟩
              | error e => exact .error e
          | disk f =>
              simp only
              cases hWrite : f.write h.tree bytes with
              | ok result =>
                  have hKept := KeepsStreams.setStream hStream (OpenFile.sameFile_of_write hWrite)
                  exact .ok ⟨rfl, ⟨rfl, rfl, rfl, rfl, rfl, rfl, rfl, hKept⟩, rfl⟩
              | error e => exact .error e

theorem served_seek (handle : Handle) (p : SeekPosition) :
    ResultsRelated (h.ServedWith journal) (h.seek handle p)
      ((h.withJournal journal).seek handle p) := by
  cases handle with
  | standard stream => exact .error _
  | file id =>
      simp only [seek, withJournal]
      cases hStream : h.streams[id]? with
      | none => exact .error _
      | some stream =>
          cases stream with
          | memory f =>
              simp only
              cases hSeek : f.seek p with
              | ok result =>
                  have hKept := KeepsStreams.setStream hStream (MemoryFile.sameFile_of_seek hSeek)
                  exact .ok ⟨rfl, ⟨rfl, rfl, rfl, rfl, rfl, rfl, rfl, hKept⟩, rfl⟩
              | error e => exact .error e
          | disk f =>
              simp only
              cases hSeek : f.seek h.tree p with
              | ok result =>
                  have hKept := KeepsStreams.setStream hStream (OpenFile.sameFile_of_seek hSeek)
                  exact .ok ⟨rfl, ⟨rfl, rfl, rfl, rfl, rfl, rfl, rfl, hKept⟩, rfl⟩
              | error e => exact .error e

theorem served_openFile (path : String) (o : OpenOptions) :
    ResultsRelated (h.ServedWith journal) (h.openFile path o)
      ((h.withJournal journal).openFile path o) := by
  simp only [openFile, withJournal]
  cases h.tree.openFile h.directory path o with
  | ok result => exact .ok ⟨rfl, ⟨rfl, rfl, rfl, rfl, rfl, rfl, rfl, .addStream h _⟩, rfl⟩
  | error e => exact .error e

theorem served_updateTree (result : Except Errno FileTree) :
    ResultsRelated (h.Served journal) (h.updateTree result)
      ((h.withJournal journal).updateTree result) := by
  cases result with
  | ok tree => exact .ok ⟨⟨rfl, rfl, rfl, rfl, rfl, rfl, rfl, .refl h⟩, rfl⟩
  | error e => exact .error e

theorem served_link (source destination : String) :
    ResultsRelated (h.Served journal) (h.link source destination)
      ((h.withJournal journal).link source destination) :=
  h.served_updateTree journal _

theorem served_unlink (path : String) :
    ResultsRelated (h.Served journal) (h.unlink path) ((h.withJournal journal).unlink path) :=
  h.served_updateTree journal _

theorem served_setPermissions (path : String) (permissions : UInt16) :
    ResultsRelated (h.Served journal) (h.setPermissions path permissions)
      ((h.withJournal journal).setPermissions path permissions) :=
  h.served_updateTree journal _

theorem served_changeDirectory (path : String) :
    ResultsRelated (h.Served journal) (h.changeDirectory path)
      ((h.withJournal journal).changeDirectory path) := by
  simp only [changeDirectory, withJournal]
  cases h.tree.changeDirectory h.directory path with
  | ok directory => exact .ok ⟨⟨rfl, rfl, rfl, rfl, rfl, rfl, rfl, .refl h⟩, rfl⟩
  | error e => exact .error e

end Host
end VintageUnix
