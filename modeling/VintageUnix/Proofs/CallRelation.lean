import VintageUnix.Proofs.HostServices
import VintageUnix.Proofs.MemoryFrame
import VintageUnix.System.Basic

/-! Relations between sessions that the common calls keep. A call sees little of a session, so two
sessions that look the same to it get the same result. With a relation of a session to itself
this is how an invariant survives a call. -/
namespace VintageUnix

open AddressSpace (Stores)

variable {Cpu : Type} [Processor Cpu]

namespace Session

/-- The two sessions look the same to every call. -/
structure LooksLike (s t : Session Cpu) : Prop where
  memory : t.memory = s.memory
  sp : StackPointer.sp t.cpu = StackPointer.sp s.cpu
  descriptors : t.process.descriptors = s.process.descriptors
  signals : t.process.signals = s.process.signals
  pid : t.process.pid = s.process.pid
  umask : t.process.umask = s.process.umask
  root : t.process.settings.root = s.process.settings.root
  host : t.host = s.host.withJournal t.host.journal

theorem LooksLike.refl (s : Session Cpu) : LooksLike s s :=
  ⟨rfl, rfl, rfl, rfl, rfl, rfl, rfl, rfl⟩

/-- The session with other children to wait for. -/
def withFinished (s : Session Cpu) (finished : List FinishedChild) : Session Cpu :=
  s.mapHost fun h => { h with finished }

theorem LooksLike.hostPath {s t : Session Cpu} (h : LooksLike s t) (path : String) :
    t.process.hostPath path = s.process.hostPath path := by
  simp only [Process.hostPath, h.root]

end Session

open Session (LooksLike)

/-- Two replies are the same to the program and leave related sessions. -/
structure RepliesRelated (R : Session Cpu → Session Cpu → Prop) {α : Type}
    (x y : Reply Cpu α) : Prop where
  result : y.1 = x.1
  session : R x.2 y.2

/-- The text of a log record that opens a bracket, as the records of calls do. -/
def Bracketed (text : String) : Prop :=
  ∃ rest, text = "<" ++ rest

theorem Bracketed.append {text : String} (h : Bracketed text) (more : String) :
    Bracketed (text ++ more) := by
  obtain ⟨rest, rfl⟩ := h
  exact ⟨rest ++ more, String.append_assoc⟩

theorem bracketed_reply (call shown : String) : Bracketed ("<" ++ call ++ " => " ++ shown ++ ">") :=
  (Bracketed.append ⟨call, rfl⟩ _ |>.append _).append _

theorem bracketed_exit (code : Int) : Bracketed ("<exit(" ++ toString code ++ ")>") :=
  (Bracketed.append ⟨"exit(", rfl⟩ _).append _

/-- The two systems show different things behind the path of an exec. -/
theorem bracketed_exec (path between arguments close : String) :
    Bracketed ("<exec(" ++ shownPath path ++ between ++ arguments ++ close) :=
  (Bracketed.append ⟨"exec(", rfl⟩ _ |>.append _ |>.append _).append _

/-- A relation that the calls keep which leave the machine and the finished children alone.
The fields are what such calls do to a session besides looking at it. -/
structure QuietRelation (c : Conventions Cpu) (R : Session Cpu → Session Cpu → Prop) :
    Prop where
  looksLike {s t} : R s t → LooksLike s t
  log {s t} (level : Level) (topic : Topic) (text : String) :
    R s t → R (s.log level topic text) (t.log level topic text)
  trace {s t} {text : String} : Bracketed text →
    R s t → R (s.trace .calls .debug .calls text) (t.trace .calls .debug .calls text)
  serve {s t} {k : Host} : R s t → s.host.Serves k →
    R (s.withHost k) (t.withHost (k.withJournal t.host.journal))
  print {s t} (bytes : List UInt8) : R s t →
    R (s.mapHost fun h => h.withJournal (h.journal.push (.output bytes)))
      (t.mapHost fun h => h.withJournal (h.journal.push (.output bytes)))
  descriptors {s t} (d : Descriptors) : R s t → R (s.withDescriptors d) (t.withDescriptors d)
  umask {s t} (umask : UInt16) : R s t →
    R (s.mapProcess fun p => { p with umask }) (t.mapProcess fun p => { p with umask })
  setAction {s t} (signal : UInt16) (action : SignalAction) : R s t →
    ResultsRelated (fun x y => y.1 = x.1 ∧ R x.2 y.2) (s.setSignalAction c signal action)
      (t.setSignalAction c signal action)

/-- A relation that all common calls but wait keep, those included that store into memory
or move the break. -/
structure CallRelation (c : Conventions Cpu) (R : Session Cpu → Session Cpu → Prop) : Prop
    extends QuietRelation c R where
  store {s t} {f : AddressSpace → AddressSpace} : (∀ m, Stores m (f m)) → R s t →
    R (s.mapMemory f) (t.mapMemory f)
  moveBreak {s t} (brk : UInt16) : R s t →
    R (s.mapMemory fun m => { m with brk }) (t.mapMemory fun m => { m with brk })

/-- A relation of sessions with the same registers, which everything keeps that does not
touch a text of its own segment. -/
structure MachineRelation (c : Conventions Cpu) (R : Session Cpu → Session Cpu → Prop) : Prop
    extends CallRelation c R where
  finished {s t} (finished : List FinishedChild) : R s t →
    R (s.withFinished finished) (t.withFinished finished)
  cpu {s t} : R s t → t.cpu = s.cpu
  machine {s t} {f : Machine Cpu → Machine Cpu} : (∀ m, Stores m.memory (f m).memory) →
    R s t → R (s.mapMachine f) (t.mapMachine f)

/-- What is done with a value after a call that gave it. -/
theorem RepliesRelated.andThen {R : Session Cpu → Session Cpu → Prop} {α β : Type}
    {x y : Reply Cpu α} {f g : α → Session Cpu → β × Session Cpu} (hReply : RepliesRelated R x y)
    (hNext : ∀ a s t, R s t → (g a t).1 = (f a s).1 ∧ R (f a s).2 (g a t).2) :
    RepliesRelated R (x.andThen f) (y.andThen g) := by
  obtain ⟨result, s⟩ := x
  obtain ⟨result', t⟩ := y
  obtain ⟨hResult, hSession⟩ := hReply
  obtain rfl : result' = result := hResult
  cases result' with
  | ok a =>
      obtain ⟨hValue, hNext⟩ := hNext a s t hSession
      exact ⟨congrArg Except.ok hValue, hNext⟩
  | error e => exact ⟨rfl, hSession⟩

namespace QuietRelation

variable {c : Conventions Cpu} {R : Session Cpu → Session Cpu → Prop} (hR : QuietRelation c R)
  {s t : Session Cpu} (h : R s t)

include hR h

theorem memory : t.memory = s.memory :=
  (hR.looksLike h).memory

theorem conclude {α : Type} (call : String) (shown : α → String)
    {x y : Except Errno (α × Session Cpu)}
    (hResult : ResultsRelated (fun x y => y.1 = x.1 ∧ R x.2 y.2) x y) :
    RepliesRelated R (s.conclude call shown x) (t.conclude call shown y) := by
  cases hResult with
  | ok hOk =>
      obtain ⟨hValue, hSession⟩ := hOk
      simp only [Session.conclude, hValue]
      exact ⟨rfl, hR.trace (bracketed_reply _ _) hSession⟩
  | error e => exact ⟨rfl, hR.trace (bracketed_reply _ _) h⟩

/-- What the hosts become by the same call on both. They may differ in the journal. -/
theorem served {k k' : Host} (hServed : s.host.Served t.host.journal k k') :
    R (s.withHost k) (t.withHost k') := by
  rw [hServed.journal]
  exact hR.serve h hServed.serves

/-- A call of the host that gives a value. -/
theorem request {ε α : Type} {op : Host → Except ε (α × Host)}
    (hOp : ∀ (h : Host) journal,
      ResultsRelated (h.ServedWith journal) (op h) (op (h.withJournal journal))) :
    ResultsRelated (fun x y => y.1 = x.1 ∧ R (s.withHost x.2) (t.withHost y.2)) (op s.host)
      (op t.host) := by
  have hHost := hOp s.host t.host.journal
  rw [← (hR.looksLike h).host] at hHost
  exact hHost.mono fun x y hServed => ⟨hServed.1, hR.served h hServed.2⟩

/-- A call of the host that gives no value. -/
theorem command {op : Host → Except Errno Host}
    (hOp : ∀ (h : Host) journal,
      ResultsRelated (h.Served journal) (op h) (op (h.withJournal journal))) :
    ResultsRelated (fun x y => y.1 = x.1 ∧ R x.2 y.2)
      (Session.succeed ((op s.host).map s.withHost))
      (Session.succeed ((op t.host).map t.withHost)) := by
  have hHost := hOp s.host t.host.journal
  rw [← (hR.looksLike h).host] at hHost
  refine (hHost.map (S := R) fun k k' hServed => hR.served h hServed).map ?_
  exact fun _ _ hSession => ⟨rfl, hSession⟩

theorem write (descriptor buffer length : UInt16) :
    RepliesRelated R (s.write descriptor buffer length) (t.write descriptor buffer length) := by
  refine hR.conclude h _ _ ?_
  rw [(hR.looksLike h).descriptors, (hR.looksLike h).memory]
  refine (ResultsRelated.refl _).bind fun handle _ hHandle => ?_
  subst hHandle
  by_cases hError : handle = .standard .error
  · subst hError
    exact .ok ⟨rfl, hR.print _ h⟩
  · refine ((hR.request h fun h j => h.served_write j handle _ hError).mapError _).bind ?_
    rintro ⟨count, k⟩ ⟨count', k'⟩ ⟨rfl, hHost⟩
    exact .ok ⟨rfl, hHost⟩

theorem openWith (path : String) (o : OpenOptions) :
    ResultsRelated (fun x y => y.1 = x.1 ∧ R x.2 y.2) (s.openWith path o)
      (t.openWith path o) := by
  simp only [Session.openWith, (hR.looksLike h).hostPath, (hR.looksLike h).descriptors]
  refine (hR.request h fun h j => h.served_openFile j _ o).bind ?_
  rintro ⟨handle, k⟩ ⟨handle', k'⟩ ⟨rfl, hHost⟩
  exact .ok ⟨rfl, hR.descriptors _ hHost⟩

theorem openFile (path : String) (flags mode : UInt16) :
    RepliesRelated R (s.openFile path flags mode) (t.openFile path flags mode) := by
  refine hR.conclude h _ _ ?_
  simp only [Session.openOptions, Session.creationMode, (hR.looksLike h).umask]
  exact hR.openWith h path _

theorem create (path : String) (mode : UInt16) :
    RepliesRelated R (s.create path mode) (t.create path mode) := by
  refine hR.conclude h _ _ ?_
  simp only [Session.creationMode, (hR.looksLike h).umask]
  exact hR.openWith h path _

theorem close (descriptor : UInt16) :
    RepliesRelated R (s.close descriptor) (t.close descriptor) := by
  refine hR.conclude h _ _ ?_
  rw [(hR.looksLike h).descriptors]
  refine ((ResultsRelated.refl _).map (S := R) ?_).map fun _ _ hSession => ⟨rfl, hSession⟩
  rintro d _ rfl
  exact hR.descriptors d h

theorem duplicate (descriptor : UInt16) :
    RepliesRelated R (s.duplicate descriptor) (t.duplicate descriptor) := by
  refine hR.conclude h _ _ ?_
  rw [(hR.looksLike h).descriptors]
  refine (ResultsRelated.refl _).map ?_
  rintro ⟨copy, d⟩ _ rfl
  exact ⟨rfl, hR.descriptors d h⟩

theorem link (source destination : String) :
    RepliesRelated R (s.link source destination) (t.link source destination) := by
  refine hR.conclude h _ _ ?_
  simp only [(hR.looksLike h).hostPath]
  exact hR.command h fun h j => h.served_link j _ _

theorem unlink (path : String) : RepliesRelated R (s.unlink path) (t.unlink path) := by
  refine hR.conclude h _ _ ?_
  rw [(hR.looksLike h).hostPath]
  exact hR.command h fun h j => h.served_unlink j _

theorem changeDirectory (path : String) :
    RepliesRelated R (s.changeDirectory path) (t.changeDirectory path) := by
  refine hR.conclude h _ _ ?_
  rw [(hR.looksLike h).hostPath]
  exact hR.command h fun h j => h.served_changeDirectory j _

theorem changeMode (path : String) (mode : UInt16) :
    RepliesRelated R (s.changeMode path mode) (t.changeMode path mode) := by
  refine hR.conclude h _ _ ?_
  rw [(hR.looksLike h).hostPath]
  exact hR.command h fun h j => h.served_setPermissions j _ mode

theorem access (path : String) (mode : UInt16) :
    RepliesRelated R (s.access path mode) (t.access path mode) := by
  refine hR.conclude h _ _ ?_
  rw [(hR.looksLike h).hostPath, (hR.looksLike h).host]
  exact ((ResultsRelated.refl _).map (S := R) fun _ _ _ => h).map
    fun _ _ hSession => ⟨rfl, hSession⟩

theorem time : RepliesRelated R s.time t.time := by
  refine hR.conclude h _ _ ?_
  rw [(hR.looksLike h).host]
  exact .ok ⟨rfl, h⟩

theorem status (path : String) : RepliesRelated R (s.status path) (t.status path) := by
  refine hR.conclude h _ _ ?_
  rw [(hR.looksLike h).hostPath, (hR.looksLike h).host]
  refine (ResultsRelated.refl _).map ?_
  rintro st _ rfl
  exact ⟨rfl, h⟩

theorem descriptorStatus (descriptor : UInt16) :
    RepliesRelated R (s.descriptorStatus descriptor) (t.descriptorStatus descriptor) := by
  refine hR.conclude h _ _ ?_
  rw [(hR.looksLike h).descriptors, (hR.looksLike h).host]
  refine (ResultsRelated.refl _).bind fun handle _ hHandle => ?_
  subst hHandle
  refine ((ResultsRelated.refl _).mapError _).bind ?_
  rintro st _ rfl
  exact .ok ⟨rfl, h⟩

theorem seek (descriptor : UInt16) (position : SeekPosition) :
    RepliesRelated R (s.seek descriptor position) (t.seek descriptor position) := by
  refine hR.conclude h _ _ ?_
  rw [(hR.looksLike h).descriptors]
  refine (ResultsRelated.refl _).bind fun handle _ hHandle => ?_
  subst hHandle
  refine ((hR.request h fun h j => h.served_seek j handle position).mapError _).bind ?_
  rintro ⟨offset, k⟩ ⟨offset', k'⟩ ⟨rfl, hHost⟩
  exact .ok ⟨rfl, hHost⟩

theorem processNumber : RepliesRelated R s.processNumber t.processNumber := by
  refine hR.conclude h _ _ ?_
  rw [(hR.looksLike h).pid]
  exact .ok ⟨rfl, h⟩

theorem userNumber : RepliesRelated R s.userNumber t.userNumber := by
  refine hR.conclude h _ _ ?_
  rw [(hR.looksLike h).host]
  exact .ok ⟨rfl, h⟩

theorem groupNumber : RepliesRelated R s.groupNumber t.groupNumber := by
  refine hR.conclude h _ _ ?_
  rw [(hR.looksLike h).host]
  exact .ok ⟨rfl, h⟩

theorem deviceControl (descriptor request data : UInt16) :
    RepliesRelated R (s.deviceControl descriptor request data)
      (t.deviceControl descriptor request data) :=
  hR.conclude h _ _ (.error _)

theorem setMask (mask : UInt16) : RepliesRelated R (s.setMask mask) (t.setMask mask) := by
  refine hR.conclude h _ _ ?_
  rw [(hR.looksLike h).umask]
  exact .ok ⟨rfl, hR.umask _ h⟩

theorem setHandler (signal handler : UInt16) :
    RepliesRelated R (s.setHandler c signal handler) (t.setHandler c signal handler) := by
  refine hR.conclude h _ _ ((hR.setAction signal { handler } h).map ?_)
  rintro ⟨old, u⟩ ⟨old', v⟩ ⟨rfl, hSession⟩
  exact ⟨rfl, hSession⟩

/-- Only a wait changes which children have finished. -/
theorem wait (hWaited : ∀ finished, R (s.withFinished finished) (t.withFinished finished)) :
    RepliesRelated R s.wait t.wait := by
  refine hR.conclude h _ _ ?_
  have hFinished : t.host.finished = s.host.finished := by
    rw [(hR.looksLike h).host]
    rfl
  rw [hFinished]
  cases s.host.finished with
  | nil => exact .error _
  | cons child rest => exact .ok ⟨rfl, hWaited rest⟩

end QuietRelation

namespace CallRelation

variable {c : Conventions Cpu} {R : Session Cpu → Session Cpu → Prop} (hR : CallRelation c R)
  {s t : Session Cpu} (h : R s t)

include hR h

theorem read (descriptor buffer length : UInt16) :
    RepliesRelated R (s.read descriptor buffer length) (t.read descriptor buffer length) := by
  refine hR.conclude h _ _ ?_
  rw [(hR.looksLike h).descriptors]
  refine (ResultsRelated.refl _).bind fun handle _ hHandle => ?_
  subst hHandle
  refine ((hR.request h fun h j => h.served_read j handle _).mapError _).bind ?_
  rintro ⟨bytes, k⟩ ⟨bytes', k'⟩ ⟨rfl, hHost⟩
  exact .ok ⟨rfl, hR.store (fun m => .write m _ _) hHost⟩

theorem setBreak (address : UInt16) :
    RepliesRelated R (s.setBreak address) (t.setBreak address) := by
  refine hR.conclude h _ _ ?_
  have hLimit : t.breakLimit = s.breakLimit := by
    simp only [Session.breakLimit, (hR.looksLike h).sp]
  rw [(hR.looksLike h).memory, hLimit]
  split
  · exact .error _
  · exact .ok ⟨rfl, hR.moveBreak address h⟩

end CallRelation

/-- An invariant that the calls keep which leave the machine and the finished children
alone. -/
structure QuietInvariant (c : Conventions Cpu) (P : Session Cpu → Prop) : Prop where
  host {s} {k : Host} : P s → s.host.Serves (k.withJournal s.host.journal) → P (s.withHost k)
  descriptors {s} (d : Descriptors) : P s → P (s.withDescriptors d)
  umask {s} (umask : UInt16) : P s → P (s.mapProcess fun p => { p with umask })
  setAction {s t} {signal : UInt16} {action old : SignalAction} : P s →
    s.setSignalAction c signal action = .ok (old, t) → P t

/-- An invariant that everything keeps that does not touch a text of its own segment. -/
structure MachineInvariant (c : Conventions Cpu) (P : Session Cpu → Prop) : Prop
    extends QuietInvariant c P where
  finished {s} (finished : List FinishedChild) : P s → P (s.withFinished finished)
  machine {s} {f : Machine Cpu → Machine Cpu} : (∀ m, Stores m.memory (f m).memory) → P s →
    P (s.mapMachine f)
  moveBreak {s} (brk : UInt16) : P s → P (s.mapMemory fun m => { m with brk })

/-- A session and itself, if the invariant holds of it. -/
def Diagonal (P : Session Cpu → Prop) (s t : Session Cpu) : Prop :=
  t = s ∧ P s

namespace QuietInvariant

variable {c : Conventions Cpu} {P : Session Cpu → Prop} (hP : QuietInvariant c P)

include hP

theorem log {s : Session Cpu} (level : Level) (topic : Topic) (text : String) (h : P s) :
    P (s.log level topic text) :=
  hP.host h ⟨rfl, rfl, rfl, rfl, rfl, rfl, rfl, .refl s.host⟩

theorem trace {s : Session Cpu} (least : Trace) (level : Level) (topic : Topic) (text : String)
    (h : P s) : P (s.trace least level topic text) := by
  unfold Session.trace
  split
  · exact hP.log level topic text h
  · exact h

theorem relation : QuietRelation c (Diagonal P) where
  looksLike h := h.1 ▸ LooksLike.refl _
  log level topic text h := ⟨h.1 ▸ rfl, hP.log level topic text h.2⟩
  trace _ h := ⟨h.1 ▸ rfl, hP.trace _ _ _ _ h.2⟩
  serve {s t k} h hServes := by
    obtain ⟨rfl, h⟩ := h
    have hJournal : k.withJournal t.host.journal = k := by
      rw [← hServes.journal]
      rfl
    rw [hJournal]
    exact ⟨rfl, hP.host h (hJournal.symm ▸ hServes)⟩
  print bytes h := ⟨h.1 ▸ rfl, hP.host h.2 ⟨rfl, rfl, rfl, rfl, rfl, rfl, rfl, .refl _⟩⟩
  descriptors d h := ⟨h.1 ▸ rfl, hP.descriptors d h.2⟩
  umask umask h := ⟨h.1 ▸ rfl, hP.umask umask h.2⟩
  setAction {s t} signal action h := by
    obtain ⟨rfl, h⟩ := h
    cases hSet : t.setSignalAction c signal action with
    | error e => exact .error e
    | ok result => exact .ok ⟨rfl, rfl, hP.setAction h hSet⟩

end QuietInvariant

theorem MachineInvariant.machineRelation {c : Conventions Cpu} {P : Session Cpu → Prop}
    (hP : MachineInvariant c P) : MachineRelation c (Diagonal P) where
  toQuietRelation := hP.relation
  store {_ _ f} hStores h :=
    ⟨h.1 ▸ rfl, hP.machine (f := (·.mapMemory f)) (fun m => hStores m.memory) h.2⟩
  moveBreak brk h := ⟨h.1 ▸ rfl, hP.moveBreak brk h.2⟩
  finished children h := ⟨h.1 ▸ rfl, hP.finished children h.2⟩
  cpu h := h.1 ▸ rfl
  machine hStores h := ⟨h.1 ▸ rfl, hP.machine hStores h.2⟩

end VintageUnix
