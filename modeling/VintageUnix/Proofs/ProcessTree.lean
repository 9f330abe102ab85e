import Mathlib.Logic.Relation
import VintageUnix.Proofs.EnginePreorder
import VintageUnix.Proofs.WaitCalls

/-! The processes that come from one by forking, step by step. One of them runs at a time: a
parent is suspended in its fork until its child has ended. What they go through as parents and
children is kept beside the sessions, in the order in which it happens. -/
namespace VintageUnix

/-- What can happen to a child that has finished: it is recorded, and a wait reports it.
A wait may also be refused. -/
inductive ChildEvent where
  | ended (child : FinishedChild)
  | reported (child : FinishedChild)
  | refused (e : Errno)
  deriving DecidableEq, Repr

/-- What a process has gone through as a parent, in order. A child comes with what it has
gone through itself. -/
inductive Life where
  | start
  | reaped (before : Life) (child : FinishedChild)
  | refused (before : Life) (e : Errno)
  | forked (before : Life) (child : FinishedChild) (life : Life)

/-- What has happened in the life of a process and of its children. -/
def Life.events : Life → List ChildEvent
  | start => []
  | reaped before child => before.events ++ [.reported child]
  | refused before e => before.events ++ [.refused e]
  | forked before child life => before.events ++ life.events ++ [.ended child]

/-- A parent in a fork, as it was at the trap. -/
structure Suspended (p : Personality) where
  trap : UInt16
  life : Life
  session : Session p.Cpu

/-- The run of the child of a parent has come back with a session. -/
def Suspended.Returned {p : Personality} (parent : Suspended p) (ended : Session p.Cpu) : Prop :=
  ∃ bound, p.system.run bound (p.forkedChild parent.trap parent.session) = some ended

/-- The child of a parent has ended, or its run has come back, which it also does when its cycles
are used up. -/
def Suspended.Ended {p : Personality} (parent : Suspended p) (ended : Session p.Cpu) : Prop :=
  ended.isRunning = false ∨ parent.Returned ended

/-- The process that runs, and the parents that wait for it to end, the nearest first. -/
structure ProcessTree (p : Personality) where
  suspended : List (Suspended p)
  life : Life
  session : Session p.Cpu

/-- What a process does besides forking and waiting. The fields are the primitive actions
of the engine, and what can be asked of it from outside. Signals may arrive and
handlers may be entered and left at any time. -/
inductive Personality.Acts (p : Personality) : Session p.Cpu → Session p.Cpu → Prop
  | ready (s) : p.Acts s (s.mapHost (p.system.installActions s.process.signals))
  | pending {s signal host} (hPending : p.system.takePending s.host = some (signal, host)) :
    p.Acts s (s.withHost host)
  | handler (handler : UInt16) (s) : p.Acts s (System.enterHandler handler s)
  | registers (cpu : p.Cpu) (s) : p.Acts s (s.mapCpu fun _ => cpu)
  | instruction (s) : p.Acts s (System.advance s).1
  | state (state : RunState) (s) : p.Acts s (s.setState state)
  | answer {run : Runner p.Cpu} {trap s t} {result : Except Fault Unit} (hForks : ¬ p.Forks trap s)
    (hWaits : ¬ p.Waits trap s) (hAnswer : p.system.answer run trap s = some (t, result)) :
    p.Acts s t
  | execute (path : String) (s) : p.Acts s (s.execute p.system.toConventions path).2
  | raise (number : Int) (s) :
    p.Acts s (s.mapHost fun h => { h with signals := h.signals.raise number })

/-- Only a call may do more to the host than log something and change what it does on
signals. -/
theorem Personality.host_of_acts {p : Personality} {s t : Session p.Cpu} (h : p.Acts s t) :
    s.host.SameButSignals t.host ∨
      ∃ (run : Runner p.Cpu) (trap : UInt16) (result : Except Fault Unit),
        ¬ p.Forks trap s ∧ ¬ p.Waits trap s ∧ p.system.answer run trap s = some (t, result) := by
  cases h with
  | ready s => exact .inl (p.system.sameButSignals_installActions _ _)
  | pending hPending =>
      obtain ⟨taken, -, hTaken⟩ := Option.map_eq_some_iff.1 hPending
      cases hTaken
      exact .inl rfl
  | handler handler s => exact .inl (.refl _)
  | registers cpu s => exact .inl (.refl _)
  | instruction s =>
      rw [(System.advances_advance s).host]
      exact .inl rfl
  | state state s => exact .inl (.refl _)
  | answer hForks hWaits hAnswer => exact .inr ⟨_, _, _, hForks, hWaits, hAnswer⟩
  | execute path s => exact .inl (s.sameButSignals_execute _ path)
  | raise number s => exact .inl rfl

/-- Only forks and waits touch the finished children. -/
theorem Personality.finished_of_acts {p : Personality} {s t : Session p.Cpu} (h : p.Acts s t) :
    t.host.finished = s.host.finished := by
  rcases host_of_acts h with hSame | ⟨run, trap, result, hForks, hWaits, hAnswer⟩
  · exact hSame.finished
  · exact p.finished_answer hAnswer hForks hWaits

namespace ProcessTree

variable {p : Personality}

/-- A process without parents or children. -/
def root (s : Session p.Cpu) : ProcessTree p :=
  { suspended := [], life := .start, session := s }

/-- What has happened to the children of the parents that are suspended. -/
def eventsBefore : List (Suspended p) → List ChildEvent
  | [] => []
  | parent :: outer => eventsBefore outer ++ parent.life.events

/-- What has happened to children so far, in order. -/
def events (f : ProcessTree p) : List ChildEvent :=
  eventsBefore f.suspended ++ f.life.events

/-- The children that are recorded and that no wait has reported. -/
def records (f : ProcessTree p) : List FinishedChild :=
  f.session.host.finished

/-- How the child of a suspended parent is recorded. -/
def childRecord (parent : Suspended p) (ended : Session p.Cpu) : FinishedChild :=
  ended.record (p.forkedChild parent.trap parent.session).process.pid

/-- One step of the tree. A child runs until it may end, and then its parent's fork is answered
with the session in which the child is. -/
inductive StepUntil (MayEnd : Suspended p → Session p.Cpu → Prop) :
    ProcessTree p → ProcessTree p → Prop
  | act {suspended life s t} (hActs : p.Acts s t) :
    StepUntil MayEnd { suspended, life, session := s } { suspended, life, session := t }
  | reap {suspended life s t child} {run : Runner p.Cpu} {trap : UInt16} (hWaits : p.Waits trap s)
    (hAnswer : p.system.answer run trap s = some (t, .ok ())) (hWaited : s.waited = .ok child) :
    StepUntil MayEnd { suspended, life, session := s }
      { suspended, life := .reaped life child, session := t }
  | refuse {suspended life s t e} {run : Runner p.Cpu} {trap : UInt16} (hWaits : p.Waits trap s)
    (hAnswer : p.system.answer run trap s = some (t, .ok ())) (hWaited : s.waited = .error e) :
    StepUntil MayEnd { suspended, life, session := s }
      { suspended, life := .refused life e, session := t }
  | fork {suspended life s} {trap : UInt16} (hForks : p.Forks trap s) :
    StepUntil MayEnd { suspended, life, session := s }
      { suspended := { trap, life, session := s } :: suspended
        life := .start
        session := p.forkedChild trap s }
  | join {parent : Suspended p} {suspended life ended t}
    (hForks : p.Forks parent.trap parent.session) (hEnded : MayEnd parent ended)
    (hAnswer : p.system.answer (fun _ => some ended) parent.trap parent.session =
      some (t, .ok ())) :
    StepUntil MayEnd { suspended := parent :: suspended, life, session := ended }
      { suspended, life := .forked parent.life (childRecord parent ended) life, session := t }

/-- A step of a tree in which children are run to their end. -/
abbrev Step : ProcessTree p → ProcessTree p → Prop :=
  StepUntil Suspended.Ended

/-- Any number of steps. -/
abbrev Runs : ProcessTree p → ProcessTree p → Prop :=
  Relation.ReflTransGen Step

/-- Any number of steps, where each child that ends is one whose run has come back. -/
abbrev ReturningRuns : ProcessTree p → ProcessTree p → Prop :=
  Relation.ReflTransGen (StepUntil Suspended.Returned)

theorem StepUntil.step {f g : ProcessTree p} (h : StepUntil Suspended.Returned f g) : Step f g := by
  cases h with
  | act hActs => exact .act hActs
  | reap hWaits hAnswer hWaited => exact .reap hWaits hAnswer hWaited
  | refuse hWaits hAnswer hWaited => exact .refuse hWaits hAnswer hWaited
  | fork hForks => exact .fork hForks
  | join hForks hReturned hAnswer => exact .join hForks (.inr hReturned) hAnswer

theorem ReturningRuns.runs {f g : ProcessTree p} (h : ReturningRuns f g) : Runs f g :=
  Relation.ReflTransGen.mono (fun _ _ hStep => hStep.step) _ _ h

/-- What a child goes through from its start to its end is a part of what its parent does. -/
theorem StepUntil.join_child {MayEnd : Suspended p → Session p.Cpu → Prop}
    {suspended : List (Suspended p)} {parent : Suspended p} {life : Life}
    {ended t : Session p.Cpu} (hForks : p.Forks parent.trap parent.session)
    (hChild : Relation.ReflTransGen (StepUntil MayEnd)
      { suspended := parent :: suspended
        life := .start
        session := p.forkedChild parent.trap parent.session }
      { suspended := parent :: suspended, life, session := ended })
    (hEnded : MayEnd parent ended)
    (hAnswer : p.system.answer (fun _ => some ended) parent.trap parent.session =
      some (t, .ok ())) :
    Relation.ReflTransGen (StepUntil MayEnd)
      { suspended, life := parent.life, session := parent.session }
      { suspended, life := .forked parent.life (childRecord parent ended) life, session := t } :=
  (Relation.ReflTransGen.head (.fork hForks) hChild).tail (.join hForks hEnded hAnswer)

end ProcessTree

theorem Minix.exists_answer_of_fork {trap : UInt16} {s : Session I8086.Cpu}
    (hForks : Forks trap s) (ended : Session I8086.Cpu) :
    ∃ t, answer (fun _ => some ended) trap s = some (t, .ok ()) := by
  obtain ⟨rfl, hCall⟩ := hForks
  have hPerform : ∃ result u, perform (fun _ => some ended) (s.cpu.get .bx) s =
      some (.reply result u) := by
    simp only [perform, hCall, Call.perform]
    exact ⟨_, _, rfl⟩
  obtain ⟨result, u, hReply⟩ := hPerform
  exact ⟨_, answer_of_reply hReply⟩

theorem UnixV6.exists_answer_of_fork {Cpu : Type} [Platform Cpu] [LawfulProcessor Cpu]
    {trap : UInt16} {s : Session Cpu} (hForks : Forks trap s) (ended : Session Cpu) :
    ∃ t, answer (fun _ => some ended) trap s = some (t, .ok ()) :=
  ⟨_, answer_of_reply (perform_of_fork hForks)⟩

namespace Personality

variable (p : Personality)

/-- A fork is answered when the child has ended, and of the child only the session in which
it ended matters. -/
theorem answer_of_fork {run : Runner p.Cpu} {trap : UInt16} {s t : Session p.Cpu}
    {result : Except Fault Unit} (hForks : p.Forks trap s)
    (h : p.system.answer run trap s = some (t, result)) :
    result = .ok () ∧ ∃ ended, run (p.forkedChild trap s) = some ended ∧
      p.system.answer (fun _ => some ended) trap s = some (t, .ok ()) := by
  obtain ⟨rfl, prepare, reply, u, hChild, hFork, -, -⟩ := p.fork_of_answer hForks h
  obtain ⟨ended, hEnded, -⟩ := Session.fork_eq_some hFork
  have hRun : run (p.forkedChild trap s) = some ended := hChild ▸ hEnded
  exact ⟨rfl, ended, hRun, (p.answer_congr fun _ => hRun).symm.trans h⟩

/-- Wherever a child ends, its parent's fork can be answered. -/
theorem exists_answer_of_fork {trap : UInt16} {s : Session p.Cpu} (hForks : p.Forks trap s)
    (ended : Session p.Cpu) :
    ∃ t, p.system.answer (fun _ => some ended) trap s = some (t, .ok ()) := by
  cases p with
  | minix => exact Minix.exists_answer_of_fork hForks ended
  | unixV6Pdp11 => exact UnixV6.exists_answer_of_fork hForks ended
  | unixV6I8086 => exact UnixV6.exists_answer_of_fork hForks ended

/-- Whatever parents are suspended, the tree can come from one session of the running
process to another one of the same process, while the runs of its children come back. -/
def Becomes (s t : Session p.Cpu) : Prop :=
  ∀ (suspended : List (Suspended p)) (life : Life), ∃ later, ProcessTree.ReturningRuns
    { suspended, life, session := s } { suspended, life := later, session := t }

variable {p}

theorem Acts.becomes {s t : Session p.Cpu} (h : p.Acts s t) : p.Becomes s t :=
  fun _ life => ⟨life, .single (.act h)⟩

theorem Becomes.trans {s t u : Session p.Cpu} (first : p.Becomes s t) (second : p.Becomes t u) :
    p.Becomes s u := by
  intro suspended life
  obtain ⟨later, hFirst⟩ := first suspended life
  obtain ⟨last, hSecond⟩ := second suspended later
  exact ⟨last, hFirst.trans hSecond⟩

/-- The run of a child is a part of the run of the tree. -/
theorem becomes_of_answer {bound : Nat} {trap : UInt16} {s t : Session p.Cpu}
    {result : Except Fault Unit} (hRun : ∀ {s t}, p.system.run bound s = some t → p.Becomes s t)
    (h : p.system.answer (p.system.run bound) trap s = some (t, result)) : p.Becomes s t := by
  by_cases hForks : p.Forks trap s
  · obtain ⟨rfl, ended, hChild, hAnswer⟩ := p.answer_of_fork hForks h
    intro suspended life
    let parent : Suspended p := { trap, life, session := s }
    have hReturned : parent.Returned ended := ⟨bound, hChild⟩
    obtain ⟨childLife, hReturns⟩ := hRun hChild (parent :: suspended) .start
    exact ⟨_, @ProcessTree.StepUntil.join_child p _ suspended parent childLife ended t hForks hReturns
      hReturned hAnswer⟩
  · by_cases hWaits : p.Waits trap s
    · intro suspended life
      have hAnswered : ∃ u, p.system.answer (p.system.run bound) trap s = some (u, .ok ()) :=
        (p.answer_of_wait hWaits).imp fun _ hAnswer => hAnswer.1
      obtain ⟨u, hAnswered⟩ := hAnswered
      cases hAnswered.symm.trans h
      cases hWaited : s.waited with
      | ok child => exact ⟨_, .single (.reap hWaits h hWaited)⟩
      | error e => exact ⟨_, .single (.refuse hWaits h hWaited)⟩
    · exact (Acts.answer hForks hWaits h).becomes

theorem becomes_preorder : EnginePreorder p.system p.Becomes where
  refl _ _ life := ⟨life, .refl⟩
  trans := .trans
  ready s := (Acts.ready s).becomes
  pending hPending := (Acts.pending hPending).becomes
  enter handler s := (Acts.handler handler s).becomes
  restored {s t} h := h.trans (Acts.registers s.cpu t).becomes
  advance s := (Acts.instruction s).becomes
  finish s := (Acts.state _ s).becomes
  fail _ s := (Acts.state _ s).becomes
  answer hRun h := becomes_of_answer hRun h

/-- Everything that the engine does is a run of the tree, with the children that it runs on
the way and theirs. -/
theorem becomes_of_performAll {ops : List (Nat × Operation)} {s t : Session p.Cpu}
    {responses : List Response}
    (h : Operation.performAll (Operation.perform p.system) ops s = some (t, responses)) :
    p.Becomes s t :=
  becomes_preorder.performAll (fun path s => (Acts.execute path s).becomes)
    (fun number s => (Acts.raise number s).becomes) h

end Personality
end VintageUnix
