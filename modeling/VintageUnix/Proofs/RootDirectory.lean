import VintageUnix.Proofs.Dispatch
import VintageUnix.Proofs.TraceIndependence

/-! What the root directory confines. A path of the program that starts with one slash is looked up
below the root, by every call that takes a path: the call does what it would do without a root if
it were given the path below the root. A second slash makes what follows absolute again, and then
the root is lost. -/
namespace VintageUnix

namespace Path

/-- The second path goes on from the first: it has the components of the first and then its
own, and starts at the same place. -/
def IsUnder (root path : String) : Prop :=
  components root <+: components path ∧ isAbsolute path = isAbsolute root

/-- A path starts with a slash, and a component follows. -/
def StartsWithOneSlash (path : String) : Prop :=
  isAbsolute path = true ∧ path.toList[1]? ≠ some '/'

theorem split_cons_slash (rest : List Char) : split ('/' :: rest) = [] :: split rest :=
  if_pos rfl

theorem split_ne_nil (text : List Char) : split text ≠ [] := by
  cases text with
  | nil => exact List.cons_ne_nil _ _
  | cons c rest =>
      rw [split]
      split
      · exact List.cons_ne_nil _ _
      · split <;> exact List.cons_ne_nil _ _

/-- A slash ends a component. -/
theorem split_append_slash (front rest : List Char) :
    split (front ++ '/' :: rest) = split front ++ split rest := by
  induction front with
  | nil => exact split_cons_slash rest
  | cons c front ih =>
      by_cases hSlash : c = '/'
      · subst hSlash
        rw [List.cons_append, split_cons_slash, split_cons_slash, ih, List.cons_append]
      · obtain ⟨first, others, hFront⟩ := List.exists_cons_of_ne_nil (split_ne_nil front)
        rw [List.cons_append, split, if_neg hSlash, ih, split, if_neg hSlash, hFront]
        rfl

theorem components_append_slash (front rest : String) :
    components (front ++ "/" ++ rest) = components front ++ components rest := by
  have hText : (front ++ "/" ++ rest).toList = front.toList ++ '/' :: rest.toList := by
    rw [String.toList_append, String.toList_append, List.append_assoc]
    rfl
  rw [components, hText, split_append_slash, List.filter_append, List.map_append]
  rfl

theorem components_append_of_endsInSlash {front : String} (h : endsInSlash front = true)
    (rest : String) : components (front ++ rest) = components front ++ components rest := by
  obtain ⟨start, hFront⟩ := List.getLast?_eq_some_iff.1 (of_decide_eq_true h)
  have hText : (front ++ rest).toList = start ++ '/' :: rest.toList := by
    rw [String.toList_append, hFront, List.append_assoc]
    rfl
  have hNone : (split []).filter (· ≠ []) = [] := rfl
  rw [components, hText, components, hFront, split_append_slash, split_append_slash,
    List.filter_append, List.filter_append, hNone, List.append_nil, List.map_append]
  rfl

theorem components_join (directory : String) {path : String} (h : isAbsolute path = false) :
    components (join directory path) = components directory ++ components path := by
  rw [join, h]
  by_cases hEmpty : directory = ""
  · subst hEmpty
    exact congrArg components (String.empty_append)
  · by_cases hSlash : endsInSlash directory = true
    · simpa [hEmpty, hSlash] using components_append_of_endsInSlash hSlash path
    · simpa [hEmpty, hSlash] using components_append_slash directory path

theorem isAbsolute_append {front : String} (h : front ≠ "") (rest : String) :
    isAbsolute (front ++ rest) = isAbsolute front := by
  obtain ⟨c, others, hFront⟩ := List.exists_cons_of_ne_nil fun hNil =>
    h (String.toList_eq_nil_iff.1 hNil)
  rw [isAbsolute, String.toList_append, isAbsolute, hFront]
  rfl

theorem isAbsolute_join (directory : String) {path : String} (h : isAbsolute path = false) :
    isAbsolute (join directory path) = isAbsolute directory := by
  rw [join, h]
  by_cases hEmpty : directory = ""
  · subst hEmpty
    exact (congrArg isAbsolute String.empty_append).trans h
  · by_cases hSlash : endsInSlash directory = true
    · simpa [hEmpty, hSlash] using isAbsolute_append hEmpty path
    · simpa [hEmpty, hSlash, String.append_assoc] using isAbsolute_append hEmpty ("/" ++ path)

/-- What follows the first slash is looked up from the root, if it is not absolute again. -/
theorem onHost_of_startsWithOneSlash (root : String) {path : String}
    (h : StartsWithOneSlash path) :
    ∃ rest, path = "/" ++ rest ∧ isAbsolute rest = false ∧
      onHost (some root) path = join root rest := by
  obtain ⟨hAbsolute, hSingle⟩ := h
  obtain ⟨rest, hText⟩ := List.head?_eq_some_iff.1 (of_decide_eq_true hAbsolute)
  refine ⟨String.ofList rest, ?_, ?_, ?_⟩
  · simp [← String.toList_inj, hText]
  · rw [isAbsolute, String.toList_ofList, decide_eq_false_iff_not, List.head?_eq_getElem?]
    rwa [hText] at hSingle
  · simp only [onHost, hText]

/-- A path that starts with one slash is found below the root. -/
theorem isUnder_onHost (root : String) {path : String} (h : StartsWithOneSlash path) :
    IsUnder root (onHost (some root) path) := by
  obtain ⟨rest, -, hRelative, hHost⟩ := onHost_of_startsWithOneSlash root h
  rw [hHost, IsUnder, components_join root hRelative]
  exact ⟨List.prefix_append _ _, isAbsolute_join root hRelative⟩

/-- With a second slash the path is taken as if there was no root, one slash less. -/
theorem onHost_of_twoSlashes (root rest : String) :
    onHost (some root) ("//" ++ rest) = "/" ++ rest := by
  have hText : ("//" ++ rest).toList = '/' :: ("/" ++ rest).toList := by simp
  have hAbsolute : isAbsolute ("/" ++ rest) = true := by simp [isAbsolute]
  simp only [onHost, hText, String.ofList_toList, join, hAbsolute, if_true]

end Path

/-- A call that takes a path of the program, or two of them. -/
inductive PathCall where
  | openFile (path : String) (flags mode : UInt16)
  | create (path : String) (mode : UInt16)
  | link (source destination : String)
  | unlink (path : String)
  | changeDirectory (path : String)
  | changeMode (path : String) (mode : UInt16)
  | access (path : String) (mode : UInt16)
  | status (path : String)
  | execute (path : String)
  deriving DecidableEq, Repr

namespace PathCall

def paths : PathCall → List String
  | openFile path _ _ | create path _ | unlink path | changeDirectory path | changeMode path _
  | access path _ | status path | execute path => [path]
  | link source destination => [source, destination]

/-- The same call on other paths. -/
def mapPaths (f : String → String) : PathCall → PathCall
  | openFile path flags mode => openFile (f path) flags mode
  | create path mode => create (f path) mode
  | link source destination => link (f source) (f destination)
  | unlink path => unlink (f path)
  | changeDirectory path => changeDirectory (f path)
  | changeMode path mode => changeMode (f path) mode
  | access path mode => access (f path) mode
  | status path => status (f path)
  | execute path => execute (f path)

/-- What such a call gives if it succeeds. -/
inductive Outcome where
  | number (value : UInt16)
  | status (st : FileStatus)
  /-- The program is another one now. -/
  | replaced

section Perform

variable {Cpu : Type} [Processor Cpu]

/-- The reply with its value as an outcome. -/
def outcome {α : Type} (f : α → Outcome) : Reply Cpu α → Reply Cpu Outcome :=
  Reply.andThen fun a s => (f a, s)

def perform (c : Conventions Cpu) (call : PathCall) (s : Session Cpu) : Reply Cpu Outcome :=
  match call with
  | openFile path flags mode => outcome .number (s.openFile path flags mode)
  | create path mode => outcome .number (s.create path mode)
  | link source destination => outcome .number (s.link source destination)
  | unlink path => outcome .number (s.unlink path)
  | changeDirectory path => outcome .number (s.changeDirectory path)
  | changeMode path mode => outcome .number (s.changeMode path mode)
  | access path mode => outcome .number (s.access path mode)
  | status path => outcome .status (s.status path)
  | execute path => outcome (fun _ => .replaced) (s.execute c path)

end Perform
end PathCall

section Calls

variable {Cpu : Type} [Processor Cpu]

def Process.withoutRoot (p : Process Cpu) : Process Cpu :=
  { p with settings := { p.settings with root := none } }

namespace Session

def withoutRoot (s : Session Cpu) : Session Cpu :=
  s.mapProcess (·.withoutRoot)

/-- The second session is the first one without its root, and with any journal. -/
def SameButRoot (s t : Session Cpu) : Prop :=
  ∃ journal, t = { process := s.process.withoutRoot, host := s.host.withJournal journal }

namespace SameButRoot

theorem of_logs {s t : Session Cpu} (h : Logs s t) : t.SameButRoot s.withoutRoot := by
  refine ⟨s.host.journal, ?_⟩
  rw [h.process, h.host]
  rfl

variable {s t : Session Cpu} (h : s.SameButRoot t)

include h

theorem hostPath (path : String) : t.process.hostPath path = path := by
  obtain ⟨-, rfl⟩ := h
  rfl

theorem log (level level' : Level) (topic topic' : Topic) (text text' : String) :
    (s.log level topic text).SameButRoot (t.log level' topic' text') := by
  obtain ⟨journal, rfl⟩ := h
  exact ⟨_, rfl⟩

theorem trace (least : Trace) (level : Level) (topic : Topic) (text text' : String) :
    (s.trace least level topic text).SameButRoot (t.trace least level topic text') := by
  obtain ⟨journal, rfl⟩ := h
  unfold Session.trace
  split <;> split <;> exact ⟨_, rfl⟩

theorem mapMachine (f : Machine Cpu → Machine Cpu) :
    (s.mapMachine f).SameButRoot (t.mapMachine f) := by
  obtain ⟨journal, rfl⟩ := h
  exact ⟨journal, rfl⟩

/-- What the log shows of the two calls may be different. -/
theorem conclude {α : Type} (call call' : String) (shown : α → String)
    {x y : Except Errno (α × Session Cpu)}
    (hResult : ResultsRelated (fun x y => y.1 = x.1 ∧ SameButRoot x.2 y.2) x y) :
    RepliesRelated SameButRoot (s.conclude call shown x) (t.conclude call' shown y) := by
  cases hResult with
  | ok hOk =>
      obtain ⟨hValue, hSession⟩ := hOk
      simp only [Session.conclude, hValue]
      exact ⟨rfl, hSession.trace _ _ _ _ _⟩
  | error e => exact ⟨rfl, h.trace _ _ _ _ _⟩

theorem command {op : Host → Except Errno Host}
    (hOp : ∀ (k : Host) journal,
      ResultsRelated (k.Served journal) (op k) (op (k.withJournal journal))) :
    ResultsRelated (fun x y => y.1 = x.1 ∧ SameButRoot x.2 y.2)
      (succeed ((op s.host).map s.withHost)) (succeed ((op t.host).map t.withHost)) := by
  obtain ⟨journal, rfl⟩ := h
  refine ((hOp s.host journal).map (S := SameButRoot) fun k k' hServed => ?_).map
    fun _ _ hSession => ⟨rfl, hSession⟩
  rw [hServed.journal]
  exact ⟨journal, rfl⟩

/-- A path of the first session means on the host what it is called there. -/
theorem openWith (path : String) (o : OpenOptions) :
    ResultsRelated (fun x y => y.1 = x.1 ∧ SameButRoot x.2 y.2) (s.openWith path o)
      (t.openWith (s.process.hostPath path) o) := by
  obtain ⟨journal, rfl⟩ := h
  refine (s.host.served_openFile journal (s.process.hostPath path) o).bind ?_
  rintro ⟨handle, k⟩ ⟨handle', k'⟩ ⟨rfl, hServed⟩
  refine .ok ⟨rfl, journal, ?_⟩
  change _ = Session.mk _ (k.withJournal journal)
  rw [← hServed.journal]
  rfl

theorem execute (c : Conventions Cpu) (path : String) :
    RepliesRelated SameButRoot (s.execute c path) (t.execute c (s.process.hostPath path)) := by
  obtain ⟨journal, rfl⟩ := h
  have hLoad : c.loadFile (s.host.withJournal journal)
      (s.process.withoutRoot.hostPath (s.process.hostPath path)) =
        c.loadFile s.host (s.process.hostPath path) := rfl
  simp only [Session.execute, hLoad]
  split
  next image _ =>
    refine ⟨rfl, journal, ?_⟩
    simp only [c.installActions_withJournal]
    rfl
  next => exact ⟨rfl, SameButRoot.log ⟨journal, rfl⟩ _ _ _ _ _ _⟩

end SameButRoot
end Session

open Session (SameButRoot)

/-- A call does on its paths what it does without a root on the paths of the host. -/
theorem PathCall.perform_mapPaths (c : Conventions Cpu) (call : PathCall) {s t : Session Cpu}
    (h : s.SameButRoot t) :
    RepliesRelated SameButRoot (call.perform c s)
      ((call.mapPaths s.process.hostPath).perform c t) := by
  have hOutcome {α : Type} (f : α → Outcome) {x y : Reply Cpu α}
      (hReply : RepliesRelated SameButRoot x y) :
      RepliesRelated SameButRoot (outcome f x) (outcome f y) :=
    hReply.andThen fun _ _ _ h => ⟨rfl, h⟩
  have hHost {op : Host → Except Errno Host} (call call' : String)
      (hOp : ∀ (k : Host) journal,
        ResultsRelated (k.Served journal) (op k) (op (k.withJournal journal))) :=
    hOutcome .number (h.conclude call call' shownWord (h.command hOp))
  cases call with
  | openFile path flags mode =>
      have hOptions : t.openOptions flags mode = s.openOptions flags mode := by
        obtain ⟨-, rfl⟩ := h
        rfl
      refine hOutcome .number (h.conclude _ _ _ ?_)
      rw [hOptions]
      exact h.openWith path _
  | create path mode =>
      have hMode : t.creationMode mode = s.creationMode mode := by
        obtain ⟨-, rfl⟩ := h
        rfl
      refine hOutcome .number (h.conclude _ _ _ ?_)
      rw [hMode]
      exact h.openWith path _
  | link source destination =>
      simp only [perform, mapPaths, Session.link, h.hostPath]
      exact hHost _ _ fun k j => k.served_link j _ _
  | unlink path =>
      simp only [perform, mapPaths, Session.unlink, h.hostPath]
      exact hHost _ _ fun k j => k.served_unlink j _
  | changeDirectory path =>
      simp only [perform, mapPaths, Session.changeDirectory, h.hostPath]
      exact hHost _ _ fun k j => k.served_changeDirectory j _
  | changeMode path mode =>
      simp only [perform, mapPaths, Session.changeMode, h.hostPath]
      exact hHost _ _ fun k j => k.served_setPermissions j _ mode
  | access path mode =>
      have hAccess (path : String) : t.host.access path mode = s.host.access path mode := by
        obtain ⟨-, rfl⟩ := h
        rfl
      refine hOutcome .number (h.conclude _ _ _ ?_)
      rw [h.hostPath, hAccess]
      exact ((ResultsRelated.refl _).map (S := SameButRoot) fun _ _ _ => h).map
        fun _ _ hSession => ⟨rfl, hSession⟩
  | status path =>
      have hStatus (path : String) : t.host.pathStatus path = s.host.pathStatus path := by
        obtain ⟨-, rfl⟩ := h
        rfl
      refine hOutcome .status (h.conclude _ _ _ ?_)
      rw [h.hostPath, hStatus]
      refine (ResultsRelated.refl _).map ?_
      rintro st _ rfl
      exact ⟨rfl, h⟩
  | execute path => exact hOutcome (fun _ => .replaced) (h.execute c path)

end Calls

namespace Minix

/-- The call on paths that an ordinary call is, if it is one. -/
def OrdinaryCall.pathCall? (c : OrdinaryCall) (block : UInt16) (s : Session I8086.Cpu) :
    Option PathCall :=
  let argument (offset : UInt16) := s.memory.word (block + offset)
  let path (offset : UInt16) := s.memory.stringAt (argument offset)
  match c with
  | .openFile => some <|
    if argument 6 &&& createBit ≠ 0 then .openFile (path 10) (argument 6) (argument 8)
    else .openFile (path 8) (argument 6) 0
  | .creat => some (.create (path 8) (argument 6))
  | .link => some (.link (path 10) (path 12))
  | .unlink => some (.unlink (path 8))
  | .chdir => some (.changeDirectory (path 8))
  | .chmod => some (.changeMode (path 8) (argument 6))
  | .access => some (.access (path 8) (argument 6))
  | .stat => some (.status (path 10))
  | _ => none

/-- The call on paths that a trap asks for, if it asks for one. -/
def pathCall? (trap : UInt16) (s : Session I8086.Cpu) : Option PathCall :=
  let block := s.cpu.get .bx
  if trap ≠ messageTrap then none
  else match Call.ofNumber? (s.memory.word (block + 2)) with
    | some (.ordinary c) => c.pathCall? block s
    | some .exec => some (.execute (s.memory.stringAt (s.memory.word (block + 10))))
    | _ => none

/-- What the outcome of such a call does to the machine. -/
def conveyOutcome (s : Session I8086.Cpu) (result : Except Errno PathCall.Outcome)
    (m : Machine I8086.Cpu) : Machine I8086.Cpu :=
  let block := s.cpu.get .bx
  let argument (offset : UInt16) := s.memory.word (block + offset)
  let report := ReplyConvention.message.report block
  match result with
  | .ok (.number v) => report (.ok v) m
  | .ok (.status st) => report (.ok 0) (m.mapMemory (storeStatus (argument 12) st))
  | .ok .replaced => placeFrame (s.memory.read (argument 12) (argument 6).toNat) m
  | .error e => report (.error e) m

variable {run : Runner I8086.Cpu} {s : Session I8086.Cpu} {call : PathCall}

theorem OrdinaryCall.perform_of_pathCall {c : OrdinaryCall}
    (hCall : c.pathCall? (s.cpu.get .bx) s = some call) :
    (c.perform (s.cpu.get .bx) s).2.mapMachine
        (ReplyConvention.message.report (s.cpu.get .bx) (c.perform (s.cpu.get .bx) s).1) =
      (call.perform conventions s).2.mapMachine
        (conveyOutcome s (call.perform conventions s).1) := by
  have hNumber (reply : Reply I8086.Cpu UInt16) :
      reply.2.mapMachine (ReplyConvention.message.report (s.cpu.get .bx) reply.1) =
        (PathCall.outcome .number reply).2.mapMachine
          (conveyOutcome s (PathCall.outcome .number reply).1) := by
    obtain ⟨result, u⟩ := reply
    cases result <;> rfl
  cases c with
  | openFile =>
      cases hCall
      simp only [perform]
      split <;> exact hNumber _
  | creat | link | unlink | chdir | chmod | access =>
      cases hCall
      exact hNumber _
  | stat =>
      cases hCall
      simp only [perform, PathCall.perform]
      generalize s.status _ = reply
      obtain ⟨result, u⟩ := reply
      cases result <;> rfl
  | _ => cases hCall

theorem executeFrame_eq (path : String) (frame size : UInt16) (s : Session I8086.Cpu) :
    ∃ t, Session.Logs s t ∧ executeFrame path frame size s =
      Reply.andThen (fun _ u => ((), u.mapMachine (placeFrame (s.memory.read frame size.toNat))))
        (t.execute conventions path) :=
  ⟨_, .trace _ _ _ _ s, rfl⟩

/-- A trap for a call on paths is answered by the call. -/
theorem answer_of_pathCall {trap : UInt16} (hCall : pathCall? trap s = some call) :
    ∃ t, Session.Logs s t ∧ system.answer run trap s =
      some ((call.perform conventions t).2.mapMachine
        (conveyOutcome s (call.perform conventions t).1), .ok ()) := by
  simp only [pathCall?] at hCall
  split at hCall
  next => cases hCall
  next hTrap =>
    obtain rfl : trap = messageTrap := Decidable.of_not_not hTrap
    split at hCall
    next c hOrdinary =>
      refine ⟨s, .refl s, ?_⟩
      rw [← OrdinaryCall.perform_of_pathCall hCall]
      refine answer_of_reply ?_
      simp only [perform, hOrdinary, Call.perform]
    next hExec =>
      cases hCall
      obtain ⟨t, hLogs, hFrame⟩ := executeFrame_eq (s.memory.stringAt (s.memory.word
        (s.cpu.get .bx + 10))) (s.memory.word (s.cpu.get .bx + 12))
        (s.memory.word (s.cpu.get .bx + 6)) s
      refine ⟨t, hLogs, ?_⟩
      change (perform run (s.cpu.get .bx) s).map _ = _
      simp only [perform, hExec, Call.perform, hFrame, PathCall.perform]
      generalize t.execute conventions _ = reply
      obtain ⟨result, u⟩ := reply
      cases result <;> rfl
    next => cases hCall

end Minix

namespace UnixV6

variable {Cpu : Type} [Platform Cpu]

/-- The call on paths that an ordinary call is, if it is one. -/
def OrdinaryCall.pathCall? (c : OrdinaryCall) (arguments : Arguments) (s : Session Cpu) :
    Option PathCall :=
  let argument (index : UInt16) := arguments.word s.memory index
  let path (index : UInt16) := s.memory.stringAt (argument index)
  match c with
  | .openFile => some (.openFile (path 0) (argument 1 &&& 3) 0)
  | .creat => some (.create (path 0) (argument 1))
  | .link => some (.link (path 0) (path 1))
  | .unlink => some (.unlink (path 0))
  | .chdir => some (.changeDirectory (path 0))
  | .chmod => some (.changeMode (path 0) (argument 1))
  | .stat => some (.status (path 0))
  | _ => none

/-- The call on paths that a trap asks for, directly or indirectly, if it asks for one. -/
def pathCall? (trap : UInt16) (s : Session Cpu) : Option PathCall :=
  let arguments := (request trap s).2
  match Call.ofNumber? (request trap s).1 with
  | some (.ordinary c) => c.pathCall? arguments s
  | some .exec => some (.execute (s.memory.stringAt (arguments.word s.memory 0)))
  | _ => none

/-- What the outcome of such a call does to the machine. -/
def conveyOutcome (trap : UInt16) (s : Session Cpu) (result : Except Errno PathCall.Outcome)
    (m : Machine Cpu) : Machine Cpu :=
  let second := (request trap s).2.word s.memory 1
  match result with
  | .ok (.number v) => m.mapCpu (resume (.ok v) (inlineBytes trap))
  | .ok (.status st) =>
    (m.mapMemory (storeStatus second st)).mapCpu (resume (.ok 0) (inlineBytes trap))
  | .ok .replaced =>
    (StackLayout.build (s.memory.stringVector second) none
      (m.mapCpu (StackPointer.setSp · 0))).mapCpu (resume (.ok 0) 0)
  | .error e => m.mapCpu (resume (.error e) (inlineBytes trap))

variable {run : Runner Cpu} {trap : UInt16} {s : Session Cpu} {call : PathCall}

theorem OrdinaryCall.perform_of_pathCall {c : OrdinaryCall}
    (hCall : c.pathCall? (request trap s).2 s = some call) :
    (c.perform (request trap s).2 s).2.mapCpu
        (resume (c.perform (request trap s).2 s).1 (inlineBytes trap)) =
      (call.perform conventions s).2.mapMachine
        (conveyOutcome trap s (call.perform conventions s).1) := by
  have hNumber (reply : Reply Cpu UInt16) :
      reply.2.mapCpu (resume reply.1 (inlineBytes trap)) =
        (PathCall.outcome .number reply).2.mapMachine
          (conveyOutcome trap s (PathCall.outcome .number reply).1) := by
    obtain ⟨result, u⟩ := reply
    cases result <;> rfl
  cases c with
  | openFile | creat | link | unlink | chdir | chmod =>
      cases hCall
      exact hNumber _
  | stat =>
      cases hCall
      simp only [perform, PathCall.perform]
      generalize s.status _ = reply
      obtain ⟨result, u⟩ := reply
      cases result <;> rfl
  | _ => cases hCall

theorem execute_eq (path : String) (vector : UInt16) (s : Session Cpu) :
    ∃ t, Session.Logs s t ∧ execute path vector s =
      Reply.andThen (fun _ u => ((), u.mapMachine fun m =>
        StackLayout.build (s.memory.stringVector vector) none (m.mapCpu (StackPointer.setSp · 0))))
        (t.execute conventions path) :=
  ⟨_, .trace _ _ _ _ s, rfl⟩

/-- A trap for a call on paths is answered by the call. -/
theorem answer_of_pathCall [LawfulProcessor Cpu] (hCall : pathCall? trap s = some call) :
    ∃ t, Session.Logs s t ∧ system.answer run trap s =
      some ((call.perform conventions t).2.mapMachine
        (conveyOutcome trap s (call.perform conventions t).1), .ok ()) := by
  simp only [pathCall?] at hCall
  split at hCall
  next c hOrdinary =>
    refine ⟨s, .refl s, ?_⟩
    rw [← OrdinaryCall.perform_of_pathCall hCall]
    exact answer_of_reply (perform_of_ordinary hOrdinary)
  next hExec =>
    cases hCall
    obtain ⟨t, hLogs, hExecuted⟩ := execute_eq (s.memory.stringAt
      ((request trap s).2.word s.memory 0)) ((request trap s).2.word s.memory 1) s
    have hPerform : perform run trap s = _ := perform_of_exec hExec
    refine ⟨t, hLogs, ?_⟩
    simp only [hExecuted] at hPerform
    simp only [PathCall.perform]
    generalize t.execute conventions _ = reply at hPerform ⊢
    obtain ⟨result, u⟩ := reply
    cases result with
    | ok _ => exact answer_of_reply hPerform
    | error e => exact answer_of_reply hPerform
  next => cases hCall

end UnixV6

namespace Personality

/-- The call on paths that a trap asks for, if it asks for one. -/
def pathCall? : (p : Personality) → (trap : UInt16) → Session p.Cpu → Option PathCall
  | .minix => Minix.pathCall?
  | .unixV6Pdp11 => @UnixV6.pathCall? Pdp11.Cpu _
  | .unixV6I8086 => @UnixV6.pathCall? I8086.Cpu _

/-- What the outcome of such a call does to the machine. It has nothing to do with the root. -/
def conveyOutcome : (p : Personality) → (trap : UInt16) → Session p.Cpu →
    Except Errno PathCall.Outcome → Machine p.Cpu → Machine p.Cpu
  | .minix => fun _ => Minix.conveyOutcome
  | .unixV6Pdp11 => @UnixV6.conveyOutcome Pdp11.Cpu _
  | .unixV6I8086 => @UnixV6.conveyOutcome I8086.Cpu _

theorem answer_of_pathCall (p : Personality) (run : Runner p.Cpu) {trap : UInt16}
    {s : Session p.Cpu} {call : PathCall} (hCall : p.pathCall? trap s = some call) :
    ∃ t, Session.Logs s t ∧ p.system.answer run trap s =
      some ((call.perform p.system.toConventions t).2.mapMachine
        (p.conveyOutcome trap s (call.perform p.system.toConventions t).1), .ok ()) := by
  cases p with
  | minix => exact Minix.answer_of_pathCall hCall
  | unixV6Pdp11 => exact @UnixV6.answer_of_pathCall Pdp11.Cpu _ run trap s call _ hCall
  | unixV6I8086 => exact @UnixV6.answer_of_pathCall I8086.Cpu _ run trap s call _ hCall

end Personality

open Session (SameButRoot)

/-- Below a root, every call that takes paths does what it does without a root on the paths of the
host, and these are below the root if the paths of the program start with one slash. -/
theorem rooted_calls_stay_under_root (p : Personality) (run : Runner p.Cpu) {trap : UInt16}
    {s : Session p.Cpu} {root : String} {call : PathCall}
    (hRoot : s.process.settings.root = some root) (hCall : p.pathCall? trap s = some call) :
    (∀ path ∈ call.paths, Path.StartsWithOneSlash path →
      Path.IsUnder root (s.process.hostPath path)) ∧
    ∃ t, p.system.answer run trap s = some (t, .ok ()) ∧
      let reply := (call.mapPaths s.process.hostPath).perform p.system.toConventions s.withoutRoot
      t.SameButRoot (reply.2.mapMachine (p.conveyOutcome trap s reply.1)) := by
  constructor
  · intro path _ hSlash
    rw [Process.hostPath, hRoot]
    exact Path.isUnder_onHost root hSlash
  · obtain ⟨t, hLogs, hAnswer⟩ := p.answer_of_pathCall run hCall
    obtain ⟨hResult, hSession⟩ :=
      call.perform_mapPaths p.system.toConventions (SameButRoot.of_logs hLogs)
    rw [hLogs.process] at hResult hSession
    refine ⟨_, hAnswer, ?_⟩
    simp only [hResult]
    exact hSession.mapMachine _

/-- A process that is about to unlink the path that its text has behind a pointer to it. There is
such a file below its root, and one beside it. -/
private abbrev unlinking (path : List UInt8) : Session Pdp11.Cpu :=
  UnixV6.conventions.start
    { memory := AddressSpace.shared.write 0 ([2, 0] ++ path), entry := 0, format := .raw }
    { root := some "/r" }
    { tree := { inodes := #[⟨0o755, .directory 0 [("r", 1), ("x", 2)]⟩,
        ⟨0o755, .directory 0 [("x", 3)]⟩, ⟨0o644, .file []⟩, ⟨0o644, .file []⟩] } }

theorem rooted_calls_stay_under_root_unlink :
    ∃ t, Personality.unixV6Pdp11.system.answer some 10 (unlinking [0x2f, 0x78, 0]) =
        some (t, .ok ()) ∧
      t.host.tree.entries? 0 = some (0, [("r", 1), ("x", 2)]) ∧
      t.host.tree.entries? 1 = some (0, []) := by
  have hCall : Personality.unixV6Pdp11.pathCall? 10 (unlinking [0x2f, 0x78, 0]) =
      some (.unlink "/x") := by
    decide +kernel
  obtain ⟨-, t, hAnswer, journal, hSame⟩ :=
    rooted_calls_stay_under_root .unixV6Pdp11 some rfl hCall
  have hTree : t.host.tree = _ := (congrArg (·.host.tree) hSame).symm
  refine ⟨t, hAnswer, ?_⟩
  rw [hTree]
  decide +kernel

/-- With a second slash in front, the file beside the root is unlinked. -/
theorem unlink_leaves_root :
    ¬ Path.IsUnder "/r" ((unlinking [0x2f, 0x2f, 0x78, 0]).process.hostPath "//x") ∧
    ((Personality.unixV6Pdp11.system.answer some 10 (unlinking [0x2f, 0x2f, 0x78, 0])).bind
      (·.1.host.tree.entries? 0)) = some (0, [("r", 1)]) ∧
    ((Personality.unixV6Pdp11.system.answer some 10 (unlinking [0x2f, 0x2f, 0x78, 0])).bind
      (·.1.host.tree.entries? 1)) = some (0, [("x", 3)]) := by
  refine ⟨?_, ?_, ?_⟩
  · have hHost : (unlinking [0x2f, 0x2f, 0x78, 0]).process.hostPath "//x" = "/x" :=
      Path.onHost_of_twoSlashes "/r" "x"
    rw [hHost]
    rintro ⟨hComponents, -⟩
    revert hComponents
    decide +kernel
  · decide +kernel
  · decide +kernel

end VintageUnix
