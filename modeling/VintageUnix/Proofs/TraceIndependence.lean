import VintageUnix.Proofs.AnswerRelation
import VintageUnix.Proofs.Operations
import VintageUnix.Proofs.ProcessorLaws

/-! What is traced changes nothing but the journal. Two sessions that differ in the trace level and
in the records that depend on it stay like that through every operation, and in every child and
handler inside one. -/
namespace VintageUnix

open AddressSpace (Stores)

/-- The entry is there whatever is traced: something that a program printed, a warning, or
the record of an exec that failed. -/
def JournalEntry.isUnconditional : JournalEntry → Bool
  | .output _ => true
  | .record r => r.level = .warn ||
    r.level = .debug && "exec ".toList.isPrefixOf r.text.toList

/-- The entries of a journal that do not depend on what is traced. -/
def unconditional (journal : Array JournalEntry) : List JournalEntry :=
  journal.toList.filter JournalEntry.isUnconditional

theorem unconditional_push (journal : Array JournalEntry) (entry : JournalEntry) :
    unconditional (journal.push entry) =
      unconditional journal ++ if entry.isUnconditional then [entry] else [] := by
  simp only [unconditional, Array.toList_push, List.filter_append, List.filter_cons,
    List.filter_nil]

/-- The records of calls are not among them. -/
theorem not_isUnconditional_of_bracketed {text : String} (hText : Bracketed text) :
    (JournalEntry.record { level := .debug, topic := .calls, text }).isUnconditional = false := by
  obtain ⟨rest, rfl⟩ := hText
  simp only [JournalEntry.isUnconditional, String.toList_append]
  rfl

section Engine

variable {Cpu : Type} [Processor Cpu]

/-- The process with another trace level. -/
def Process.withTrace (level : Trace) (p : Process Cpu) : Process Cpu :=
  { p with settings := { p.settings with trace := level } }

namespace Session

/-- The session with another trace level. -/
def withTrace (level : Trace) (s : Session Cpu) : Session Cpu :=
  s.mapProcess (·.withTrace level)

/-- The second session is the first one at another trace level. Its journal has the same
entries among those that do not depend on the level. -/
def SameButTrace (level : Trace) (s t : Session Cpu) : Prop :=
  ∃ journal, t = { process := s.process.withTrace level, host := s.host.withJournal journal } ∧
    unconditional journal = unconditional s.host.journal

namespace SameButTrace

variable {level : Trace}

theorem withTrace (level : Trace) (s : Session Cpu) : s.SameButTrace level (s.withTrace level) :=
  ⟨s.host.journal, rfl, rfl⟩

variable {s t : Session Cpu} (h : s.SameButTrace level t)

include h

/-- The same is done to both processes and to both hosts, and it has nothing to do with the
trace level or the journal. -/
theorem map {f : Process Cpu → Process Cpu} {g : Host → Host}
    (hProcess : ∀ p, f (p.withTrace level) = (f p).withTrace level)
    (hHost : ∀ k journal, g (k.withJournal journal) = (g k).withJournal journal) :
    (Session.mk (f s.process) (g s.host)).SameButTrace level
      (Session.mk (f t.process) (g t.host)) := by
  obtain ⟨journal, rfl, hSame⟩ := h
  have hKept := congrArg Host.journal (hHost s.host s.host.journal)
  refine ⟨journal, ?_, hSame.trans (congrArg unconditional hKept.symm)⟩
  simp only [hProcess, hHost]

theorem withHost {u v : Session Cpu} (hOther : u.SameButTrace level v) :
    (s.withHost u.host).SameButTrace level (t.withHost v.host) := by
  obtain ⟨-, rfl, -⟩ := h
  obtain ⟨journal, rfl, hSame⟩ := hOther
  exact ⟨journal, rfl, hSame⟩

theorem push (entry : JournalEntry) :
    (s.mapHost fun k => k.withJournal (k.journal.push entry)).SameButTrace level
      (t.mapHost fun k => k.withJournal (k.journal.push entry)) := by
  obtain ⟨journal, rfl, hSame⟩ := h
  refine ⟨journal.push entry, rfl, ?_⟩
  change _ = unconditional (s.host.journal.push entry)
  rw [unconditional_push, unconditional_push, hSame]

/-- Each of the sessions may or may not log a record that depends on what is traced. -/
theorem trace (least : Trace) (severity : Level) (topic : Topic) (text : String)
    (hTraced : (JournalEntry.record { level := severity, topic, text }).isUnconditional = false) :
    (s.trace least severity topic text).SameButTrace level
      (t.trace least severity topic text) := by
  have hDropped (journal : Array JournalEntry) :
      unconditional (journal.push (.record { level := severity, topic, text })) =
        unconditional journal := by
    rw [unconditional_push, hTraced]
    exact List.append_nil _
  obtain ⟨journal, rfl, hSame⟩ := h
  unfold Session.trace
  split <;> split
  · exact ⟨_, rfl, (hDropped _).trans (hSame.trans (hDropped _).symm)⟩
  · exact ⟨_, rfl, hSame.trans (hDropped _).symm⟩
  · exact ⟨_, rfl, (hDropped _).trans hSame⟩
  · exact ⟨_, rfl, hSame⟩

theorem mapMachine (f : Machine Cpu → Machine Cpu) :
    (s.mapMachine f).SameButTrace level (t.mapMachine f) :=
  h.map (f := fun p => { p with machine := f p.machine }) (g := id) (fun _ => rfl) (fun _ _ => rfl)

theorem cpu : t.cpu = s.cpu := by
  obtain ⟨-, rfl, -⟩ := h
  rfl

theorem signals : t.process.signals = s.process.signals := by
  obtain ⟨-, rfl, -⟩ := h
  rfl

theorem fetch : t.process.fetch.1 = s.process.fetch.1 ∧
    SameButTrace level { s with process := s.process.fetch.2 }
      { t with process := t.process.fetch.2 } := by
  obtain ⟨journal, rfl, hSame⟩ := h
  exact ⟨rfl, journal, rfl, hSame⟩

end SameButTrace
end Session

open Session (SameButTrace)

variable {level : Trace}

/-- What an instruction does and whether it may be executed does not depend on the settings
or on the host. -/
theorem Session.SameButTrace.advance {s t : Session Cpu} (h : s.SameButTrace level t) :
    Together (SameButTrace level) (System.advance s) (System.advance t) := by
  obtain ⟨hFetched, hSession⟩ := h.fetch
  have hCpu : t.cpu = s.cpu := h.cpu
  have hTraced :=
    (hSession.trace .registers .trace .registers (Processor.renderState s.cpu) rfl).trace
      .instructions .trace .execution
      (Numeral.hexWord (Processor.ip s.cpu) ++ ": " ++ Processor.render s.process.fetch.1) rfl
  simp only [System.advance, hFetched, hCpu]
  generalize Session.trace _ _ _ _ (Session.trace _ _ _ _ ⟨s.process.fetch.2, _⟩) = u
    at hTraced ⊢
  generalize Session.trace _ _ _ _ (Session.trace _ _ _ _ ⟨t.process.fetch.2, _⟩) = v
    at hTraced ⊢
  have hMachine : v.process.machine = u.process.machine := by
    obtain ⟨-, rfl, -⟩ := hTraced
    rfl
  have hExecuted (m : Machine Cpu) := hTraced.mapMachine fun _ => m
  simp only [hMachine]
  split
  · exact ⟨rfl, hTraced.push _⟩
  · split
    · exact ⟨rfl, hExecuted _⟩
    · exact ⟨rfl, (hExecuted _).push _⟩

theorem Conventions.installActions_withJournal (c : Conventions Cpu) (table : SignalTable)
    (h : Host) (journal : Array JournalEntry) :
    c.installActions table (h.withJournal journal) =
      (c.installActions table h).withJournal journal := by
  unfold installActions
  generalize c.signals = guests
  induction guests generalizing h with
  | nil => rfl
  | cons guest rest ih =>
      rw [List.foldl_cons, List.foldl_cons, ← ih]
      congr 1
      unfold installAction
      split <;> rfl

theorem sameButTrace_answerRelation (c : Conventions Cpu) (level : Trace) :
    AnswerRelation c (SameButTrace level) (SameButTrace level) where
  looksLike h := by
    obtain ⟨journal, rfl, -⟩ := h
    exact ⟨rfl, rfl, rfl, rfl, rfl, rfl, rfl, rfl⟩
  log severity topic text h := h.push (.record { level := severity, topic, text })
  trace hText h := h.trace _ _ _ _ (not_isUnconditional_of_bracketed hText)
  serve {s _ k} h hServes := by
    obtain ⟨journal, rfl, hSame⟩ := h
    exact ⟨journal, rfl, hSame.trans (congrArg unconditional hServes.journal.symm)⟩
  print bytes h := h.push (.output bytes)
  descriptors d h :=
    h.map (f := fun p => { p with descriptors := d }) (g := id) (fun _ => rfl) (fun _ _ => rfl)
  umask umask h :=
    h.map (f := fun p => { p with umask }) (g := id) (fun _ => rfl) (fun _ _ => rfl)
  setAction {s t} signal action h := by
    obtain ⟨journal, rfl, hSame⟩ := h
    have hTable : (s.process.withTrace level).signals = s.process.signals := rfl
    unfold Session.setSignalAction
    rw [hTable]
    split
    · exact .ok ⟨rfl, journal, rfl, hSame⟩
    · exact .error _
  store _ h := h.mapMachine _
  moveBreak _ h := h.mapMachine _
  finished children h :=
    h.map (f := id) (g := fun k => { k with finished := children }) (fun _ => rfl) (fun _ _ => rfl)
  cpu h := h.cpu
  machine _ h := h.mapMachine _
  setState state h :=
    h.map (f := fun p => { p with state }) (g := id) (fun _ => rfl) (fun _ _ => rfl)
  child {s t prepare} _ h := by
    obtain ⟨journal, rfl, hSame⟩ := h
    exact ⟨journal, rfl, hSame⟩
  rejoin {s t u v} pid h hEnded := by
    have hReturned := h.withHost hEnded
    obtain ⟨_, rfl, -⟩ := h
    obtain ⟨_, rfl, -⟩ := hEnded
    let child : FinishedChild := { pid, code := (u.process.state.exitCode?).getD (-1) }
    exact hReturned.map (f := id)
      (g := fun k => c.installActions s.process.signals (k.addFinished child)) (fun _ => rfl)
      (fun k => c.installActions_withJournal _ (k.addFinished child))
  weaken h := h
  execute {s t} path h := by
    have hLoad : c.loadFile t.host (t.process.hostPath path) =
        c.loadFile s.host (s.process.hostPath path) := by
      obtain ⟨-, rfl, -⟩ := h
      rfl
    simp only [Session.execute, hLoad, h.signals]
    split
    next image _ =>
      let signals := s.process.signals.resetCaught c.disposition
      exact ⟨rfl, h.map (f := fun p => { p.install image with signals })
        (g := c.installActions signals) (fun _ => rfl) (c.installActions_withJournal signals)⟩
    next => exact ⟨rfl, h.push _⟩
  machineAfter _ h := h.mapMachine _

end Engine

open Session (SameButTrace)

theorem sameButTrace_engineRelation (p : Personality) (level : Trace) :
    EngineRelation p.system p.system (SameButTrace level) where
  state h := by
    obtain ⟨-, rfl, -⟩ := h
    rfl
  cpu h := h.cpu
  disposition _ h := by rw [h.signals]
  pending {s t} h := by
    obtain ⟨journal, rfl, hSame⟩ := h
    change Option.Rel _ _ ((s.host.signals.takeFirst p.system.signals).map _)
    unfold Conventions.takePending
    cases s.host.signals.takeFirst p.system.signals with
    | none => exact .none
    | some taken => exact .some ⟨rfl, journal, rfl, hSame⟩
  enter _ h := h.mapMachine _
  registers _ h := h.mapMachine _
  setState state h := (sameButTrace_answerRelation p.system.toConventions level).setState state h
  ready {s t} h := by
    rw [h.signals]
    exact h.map (f := id) (fun _ => rfl)
      (p.system.installActions_withJournal s.process.signals)
  advance h := h.advance
  answer hRun trap _ _ h :=
    p.answer_related (sameButTrace_answerRelation p.system.toConventions level) hRun trap h

theorem Operation.sameButTrace_perform (p : Personality) {level : Trace} {s t : Session p.Cpu}
    (h : s.SameButTrace level t) (bound : Nat) (op : Operation) :
    Option.Rel (Together (SameButTrace level)) (op.perform p.system bound s)
      (op.perform p.system bound t) :=
  (sameButTrace_engineRelation p level).perform (fun h => h)
    (fun path _ _ h => (sameButTrace_answerRelation p.system.toConventions level).execute path h)
    (fun number _ _ h => h.map (f := id)
      (g := fun k => { k with signals := k.signals.raise number }) (fun _ => rfl)
      (fun _ _ => rfl)) h bound op

/-- Any sequence of operations gives the same responses at every trace level, and leaves the
same process and the same host but for the journal. The warnings, the records of execs
that failed and what was printed are the same in both journals, and in the same order. -/
theorem trace_changes_no_run (p : Personality) (level : Trace) (s : Session p.Cpu)
    (ops : List (Nat × Operation)) :
    Option.Rel (Together (SameButTrace level))
      (Operation.performAll (Operation.perform p.system) ops s)
      (Operation.performAll (Operation.perform p.system) ops (s.withTrace level)) ∧
    (∀ topic text,
      (JournalEntry.record { level := .warn, topic, text }).isUnconditional = true) ∧
    ∀ path, ∀ e : LoadError, (JournalEntry.record
      { level := .debug, topic := .calls,
        text := "exec " ++ path ++ ": " ++ e.message }).isUnconditional = true := by
  refine ⟨?_, fun _ _ => rfl, fun path e => ?_⟩
  · exact Operation.performAll_related (fun bound op _ _ h => op.sameButTrace_perform p h bound)
      ops (.withTrace level s)
  · simp only [JournalEntry.isUnconditional, String.toList_append, List.append_assoc]
    rfl

end VintageUnix
