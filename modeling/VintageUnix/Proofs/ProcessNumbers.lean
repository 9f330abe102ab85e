import VintageUnix.Proofs.FinishedChildren
import VintageUnix.Proofs.ForkResumption
import VintageUnix.Proofs.InnerSteps

/-! The numbers of processes. The host counts them with a word, and nothing but a fork moves the
count, so the number of a child says how many processes came before it, modulo the size of a word.
When the count comes to zero, a parent is told what tells a child apart. -/
namespace VintageUnix

section Calls

variable {Cpu : Type} [Processor Cpu]

/-- An invariant of sessions: the number of the last process. -/
theorem keepsLastPid (c : Conventions Cpu) (pid : UInt16) :
    MachineInvariant c fun s => s.host.lastPid = pid where
  host h hServes := hServes.lastPid.trans h
  descriptors _ h := h
  umask _ h := h
  setAction {s t signal action old} h hSet := by
    unfold Session.setSignalAction at hSet
    split at hSet <;> cases hSet
    exact h
  finished _ h := h
  machine _ h := h
  moveBreak _ h := h

/-- A parent finds the count where its child has left it. -/
theorem Session.lastPid_of_fork {c : Conventions Cpu} {prepare : Machine Cpu → Machine Cpu}
    {s u ended : Session Cpu} {result : Except Errno UInt16}
    (h : s.fork c (fun _ => some ended) prepare = some (result, u)) :
    u.host.lastPid = ended.host.lastPid := by
  obtain ⟨_, hRun, -, hLogs⟩ := fork_eq_some h
  cases hRun
  exact hLogs.sameButSignals.lastPid.trans (c.sameButSignals_installActions _ _).lastPid

end Calls

namespace Minix

theorem lastPid_answer {run : Runner I8086.Cpu} {trap : UInt16} {s t : Session I8086.Cpu}
    {result : Except Fault Unit} (h : answer run trap s = some (t, result))
    (hForks : ¬ Forks trap s) : t.host.lastPid = s.host.lastPid := by
  rcases host_of_unforked h hForks with hSame | ⟨rfl, c, hCall, hHost⟩
  · exact hSame.lastPid
  · rw [hHost]
    exact (c.perform_related (keepsLastPid conventions s.host.lastPid).machineRelation
      ⟨rfl, rfl⟩ _).session.2

end Minix

namespace UnixV6

variable {Cpu : Type} [Platform Cpu]

theorem lastPid_answer {run : Runner Cpu} {trap : UInt16} {s t : Session Cpu}
    {result : Except Fault Unit} (h : answer run trap s = some (t, result))
    (hForks : ¬ Forks trap s) : t.host.lastPid = s.host.lastPid := by
  rcases host_of_unforked h hForks with hSame | ⟨c, hCall, hHost⟩
  · exact hSame.lastPid
  · rw [hHost]
    exact (c.perform_related (keepsLastPid conventions s.host.lastPid).machineRelation
      ⟨rfl, rfl⟩ _).session.2

end UnixV6

namespace Personality

theorem lastPid_answer (p : Personality) {run : Runner p.Cpu} {trap : UInt16}
    {s t : Session p.Cpu} {result : Except Fault Unit}
    (h : p.system.answer run trap s = some (t, result)) (hForks : ¬ p.Forks trap s) :
    t.host.lastPid = s.host.lastPid := by
  cases p with
  | minix => exact Minix.lastPid_answer h hForks
  | unixV6Pdp11 => exact UnixV6.lastPid_answer h hForks
  | unixV6I8086 => exact UnixV6.lastPid_answer h hForks

theorem lastPid_of_fork (p : Personality) {trap : UInt16} {s t ended : Session p.Cpu}
    {result : Except Fault Unit} (hForks : p.Forks trap s)
    (h : p.system.answer (fun _ => some ended) trap s = some (t, result)) :
    t.host.lastPid = ended.host.lastPid := by
  obtain ⟨-, prepare, reply, u, -, hFork, rfl, -⟩ := p.fork_of_answer hForks h
  have hLastPid := Session.lastPid_of_fork hFork
  exact hLastPid

/-- A child has the number after the last one. -/
theorem lastPid_forkedChild (p : Personality) (trap : UInt16) (s : Session p.Cpu) :
    (p.forkedChild trap s).host.lastPid = s.host.lastPid + 1 := by
  cases p <;> rfl

theorem not_forks_of_waits (p : Personality) {trap : UInt16} {s : Session p.Cpu}
    (hWaits : p.Waits trap s) : ¬ p.Forks trap s := by
  intro hForks
  cases p with
  | minix => cases hForks.2.symm.trans hWaits.2
  | unixV6Pdp11 => cases Eq.trans (Eq.symm hForks) hWaits
  | unixV6I8086 => cases Eq.trans (Eq.symm hForks) hWaits

theorem lastPid_of_acts {p : Personality} {s t : Session p.Cpu} (h : p.Acts s t) :
    t.host.lastPid = s.host.lastPid := by
  rcases host_of_acts h with hSame | ⟨run, trap, result, hForks, -, hAnswer⟩
  · exact hSame.lastPid
  · exact p.lastPid_answer hAnswer hForks

end Personality

/-- The processes forked in a life, those that children have forked included. -/
def Life.forks : Life → Nat
  | start => 0
  | reaped before _ => before.forks
  | refused before _ => before.forks
  | forked before _ life => before.forks + life.forks + 1

namespace ProcessTree

variable {p : Personality}

/-- The processes that suspended parents have forked, counted as far as each has come. -/
def forksBefore : List (Suspended p) → Nat
  | [] => 0
  | parent :: outer => forksBefore outer + parent.life.forks + 1

/-- The processes forked in a tree so far, without the one at its root. -/
def forks (f : ProcessTree p) : Nat :=
  forksBefore f.suspended + f.life.forks

/-- The host counts the processes that are forked. -/
theorem lastPid_step {base : UInt16} {f g : ProcessTree p} (h : Step f g)
    (hCount : f.session.host.lastPid = base + UInt16.ofNat f.forks) :
    g.session.host.lastPid = base + UInt16.ofNat g.forks := by
  cases h with
  | act hActs => exact (Personality.lastPid_of_acts hActs).trans hCount
  | reap hWaits hAnswer =>
      exact (p.lastPid_answer hAnswer (p.not_forks_of_waits hWaits)).trans hCount
  | refuse hWaits hAnswer =>
      exact (p.lastPid_answer hAnswer (p.not_forks_of_waits hWaits)).trans hCount
  | @fork suspended life s trap hForks =>
      have hForked : (⟨⟨trap, life, s⟩ :: suspended, .start, p.forkedChild trap s⟩ :
          ProcessTree p).forks = forksBefore suspended + life.forks + 1 := rfl
      change s.host.lastPid = base + UInt16.ofNat (forksBefore suspended + life.forks) at hCount
      rw [hForked, p.lastPid_forkedChild, hCount, UInt16.ofNat_add _ 1, UInt16.add_assoc]
      rfl
  | @join parent suspended life ended t hForks hEnded hAnswer =>
      refine (p.lastPid_of_fork hForks hAnswer).trans (hCount.trans ?_)
      congr 2
      simp only [forks, forksBefore, Life.forks]
      omega

theorem lastPid_runs (base : UInt16) {f g : ProcessTree p} (h : Runs f g)
    (hCount : f.session.host.lastPid = base + UInt16.ofNat f.forks) :
    g.session.host.lastPid = base + UInt16.ofNat g.forks := by
  induction h with
  | refl => exact hCount
  | tail _ hStep ih => exact lastPid_step hStep ih

end ProcessTree

namespace Personality

variable {p : Personality} {s t u v : Session p.Cpu}

/-- Whatever parents are suspended, the tree can come from one session to another one, which
may be that of a child. -/
def LeadsTo (p : Personality) (s v : Session p.Cpu) : Prop :=
  ∀ (suspended : List (Suspended p)) (life : Life), ∃ f, ProcessTree.Runs
    { suspended, life, session := s } f ∧ f.session = v

theorem Becomes.leadsTo (h : p.Becomes s t) : p.LeadsTo s t := by
  intro suspended life
  obtain ⟨later, hReturning⟩ := h suspended life
  exact ⟨_, hReturning.runs, rfl⟩

theorem LeadsTo.trans (hFirst : p.LeadsTo s t) (hSecond : p.LeadsTo t v) : p.LeadsTo s v := by
  intro suspended life
  obtain ⟨f, hRuns, rfl⟩ := hFirst suspended life
  obtain ⟨g, hRest, hSession⟩ := hSecond f.suspended f.life
  exact ⟨g, hRuns.trans hRest, hSession⟩

theorem leadsTo_startedChild {trap : UInt16} (hForks : p.Forks trap s) :
    p.LeadsTo s (p.startedChild trap s) := fun _ _ =>
  ⟨_, (Relation.ReflTransGen.single (.fork hForks)).tail (.act (.ready _)), rfl⟩

theorem StepsDuring.leadsTo {bound : Nat} {op : Operation} (h : p.StepsDuring bound s v op) :
    p.LeadsTo s v :=
  becomes_preorder.stepsDuring Becomes.leadsTo LeadsTo.trans leadsTo_startedChild h

/-- The session in which a trap is taken after some operations on a process: by the process
itself, in one of its handlers, or by a child of any depth. -/
inductive TakesTrapAfter (p : Personality) (ops : List (Nat × Operation)) (s : Session p.Cpu)
    (trap : UInt16) : Session p.Cpu → Prop
  | asked {t responses}
    (hOps : Operation.performAll (Operation.perform p.system) ops s = some (t, responses)) :
    p.TakesTrapAfter ops s trap t
  | instruction {t responses bound op u inner v w}
    (hOps : Operation.performAll (Operation.perform p.system) ops s = some (t, responses))
    (hSteps : p.StepsDuring bound t u op) (hExecutes : p.system.ExecutesIn inner u v)
    (hTrap : System.advance v = (w, .ok (.trap trap))) : p.TakesTrapAfter ops s trap w

theorem TakesTrapAfter.leadsTo {ops : List (Nat × Operation)} {trap : UInt16}
    (h : p.TakesTrapAfter ops s trap t) : p.LeadsTo s t := by
  cases h with
  | asked hOps => exact (becomes_of_performAll hOps).leadsTo
  | instruction hOps hSteps hExecutes hTrap =>
      have hCame := becomes_preorder.trans (becomes_preorder.executesIn hExecutes)
        (becomes_preorder.advance _)
      rw [hTrap] at hCame
      have hStepped := (becomes_of_performAll hOps).leadsTo.trans (StepsDuring.leadsTo hSteps)
      exact hStepped.trans hCame.leadsTo

/-- How far ahead of its child a parent goes on. -/
def parentLead : (p : Personality) → (trap pid : UInt16) → UInt16
  | .minix => fun _ _ => 0
  | .unixV6Pdp11 => UnixV6.parentLead
  | .unixV6I8086 => UnixV6.parentLead

/-- The machine with which a process goes on when a fork gives it a value, some bytes behind
the trap and its words. -/
def machineAfterReply : (p : Personality) → (trap value ahead : UInt16) → Session p.Cpu →
    Machine p.Cpu
  | .minix => fun _ value _ (s : Session I8086.Cpu) =>
    { cpu := s.cpu.set .ax 0, memory := s.memory.setWord (s.cpu.get .bx + 2) value }
  | .unixV6Pdp11 => fun trap value ahead (s : Session Pdp11.Cpu) =>
    { cpu := ((s.cpu.set .pc (s.cpu.get .pc + UnixV6.inlineBytes trap + ahead)).set .r0
        value).putCode .carry false
      memory := s.memory }
  | .unixV6I8086 => fun trap value ahead (s : Session I8086.Cpu) =>
    { cpu := (({ s.cpu with ip := s.cpu.ip + UnixV6.inlineBytes trap + ahead } : I8086.Cpu).set .ax
        value).putFlag .carry false
      memory := s.memory }

/-- A fork gives zero to the child. It returns when the child has ended, whatever the child has
done, and gives the number after the last one to the parent. -/
theorem replies_of_fork (p : Personality) {run : Runner p.Cpu} {trap : UInt16}
    {s ended : Session p.Cpu} (hForks : p.Forks trap s)
    (hRun : run (p.forkedChild trap s) = some ended) :
    (p.forkedChild trap s).process.machine = p.machineAfterReply trap 0 0 s ∧
    ∃ t, p.system.answer run trap s = some (t, .ok ()) ∧
      t.process.machine = p.machineAfterReply trap (s.host.lastPid + 1)
        (p.parentLead trap (s.host.lastPid + 1)) s := by
  cases p with
  | minix =>
      obtain ⟨t, hEnded⟩ := Minix.exists_answer_of_fork hForks ended
      have hAnswer : Minix.answer run trap s = some (t, .ok ()) :=
        (Minix.answer_congr fun _ => hRun).trans hEnded
      obtain ⟨-, pid, u, hFork, rfl, rfl⟩ := Minix.answer_of_fork hForks hAnswer
      refine ⟨rfl, _, hAnswer, ?_⟩
      exact congrArg (fun q : Process I8086.Cpu => ReplyConvention.message.report
        (s.cpu.get .bx) (.ok s.host.newPid.1) q.machine) (Session.process_of_fork hFork)
  | unixV6Pdp11 =>
      obtain ⟨hChild, hParent⟩ := UnixV6.resumes_after_fork hForks hRun
      refine ⟨?_, hParent⟩
      simp only [machineAfterReply, UInt16.add_zero]
      exact hChild
  | unixV6I8086 =>
      obtain ⟨hChild, hParent⟩ := UnixV6.resumes_after_fork hForks hRun
      refine ⟨?_, hParent⟩
      simp only [machineAfterReply, UInt16.add_zero]
      exact hChild

end Personality

/-- Zero is what tells a child from its parent, but a parent may be replied it as well. Wherever
a process, a handler or a child of any depth comes to a fork, the reply in the parent is
the number that the host started from and the count of the processes forked before and of the
child, modulo the size of a word. The reply is zero exactly if that makes a multiple of 65536,
and on Unix V6 the parent then goes on where its child has gone on. -/
theorem fork_replies_count_of_processes (p : Personality) (s : Session p.Cpu) :
    (∀ ops trap t, p.TakesTrapAfter ops s trap t →
      ∃ f, ProcessTree.Runs (.root s) f ∧ f.session = t) ∧
    ∀ f, ProcessTree.Runs (.root s) f → ∀ trap, p.Forks trap f.session →
      ∀ (run : Runner p.Cpu) ended, run (p.forkedChild trap f.session) = some ended →
        let number := s.host.lastPid.toNat + f.forks + 1
        let pid := UInt16.ofNat number
        (p.forkedChild trap f.session).process.machine = p.machineAfterReply trap 0 0 f.session ∧
        (∃ t, p.system.answer run trap f.session = some (t, .ok ()) ∧
          t.process.machine =
            p.machineAfterReply trap pid (p.parentLead trap pid) f.session) ∧
        (pid = 0 ↔ 65536 ∣ number) := by
  refine ⟨fun ops trap t hTakes => hTakes.leadsTo [] .start, ?_⟩
  intro f hRuns trap hForks run ended hRun number pid
  have hCount : f.session.host.lastPid + 1 = pid := by
    have hLast := ProcessTree.lastPid_runs s.host.lastPid hRuns (UInt16.add_zero _).symm
    rw [hLast]
    simp only [pid, number, UInt16.ofNat_add, UInt16.ofNat_toNat]
    rfl
  obtain ⟨hChild, hParent⟩ := p.replies_of_fork hForks hRun
  rw [hCount] at hParent
  refine ⟨hChild, hParent, ?_⟩
  rw [← UInt16.toNat_inj, UInt16.toNat_ofNat']
  exact (Nat.dvd_iff_mod_eq_zero).symm

/-- The first process of a host, with nothing but zeros to execute. -/
private abbrev pdp11First : Session Personality.unixV6Pdp11.Cpu :=
  (UnixV6.conventions : Conventions Pdp11.Cpu).start
    { memory := .shared, entry := 0, format := .raw } {} {}

/-- Its first child is the second process, and ends at once. -/
theorem fork_replies_count_of_processes_first :
    ∃ ended t,
      Personality.unixV6Pdp11.system.run 1 (Personality.unixV6Pdp11.forkedChild 2 pdp11First) =
        some ended ∧
      (∃ f, ProcessTree.Runs (.root pdp11First) f ∧ f.session = pdp11First) ∧
      Personality.unixV6Pdp11.system.trap 1 2 pdp11First = some (t, .ok ()) ∧
      t.process.machine = Personality.unixV6Pdp11.machineAfterReply 2 2 2 pdp11First := by
  have hEnds : (Personality.unixV6Pdp11.system.run 1
      (Personality.unixV6Pdp11.forkedChild 2 pdp11First)).isSome = true := by
    decide +kernel
  obtain ⟨ended, hRun⟩ := Option.isSome_iff_exists.1 hEnds
  obtain ⟨hTakes, hReplies⟩ := fork_replies_count_of_processes .unixV6Pdp11 pdp11First
  obtain ⟨-, ⟨t, hAnswer, hMachine⟩, -⟩ :=
    hReplies (.root pdp11First) .refl 2 rfl (Personality.unixV6Pdp11.system.run 1) ended hRun
  exact ⟨ended, t, hRun, hTakes [] 2 pdp11First (.asked rfl), hAnswer, hMachine⟩

/-- A process may fork any number of children, one after the other. -/
theorem ProcessTree.exists_runs_forks (s : Session Personality.unixV6Pdp11.Cpu) (count : Nat) :
    ∃ f : ProcessTree .unixV6Pdp11, Runs (.root s) f ∧ f.suspended = [] ∧ f.forks = count := by
  induction count with
  | zero => exact ⟨_, .refl, rfl, rfl⟩
  | succ count ih =>
      obtain ⟨⟨_, life, u⟩, hRuns, rfl, hForks⟩ := ih
      let parent : Suspended .unixV6Pdp11 := { trap := 2, life, session := u }
      let child := Personality.unixV6Pdp11.forkedChild 2 u
      have hExits : Runs
          { suspended := [parent], life := .start, session := child }
          { suspended := [parent], life := .start, session := child.setState (.terminated 0) } :=
        .single (.act (.state _ _))
      obtain ⟨t, hJoined, -⟩ := @Runs.exists_join .unixV6Pdp11 [] parent _ _ rfl hExits rfl
      refine ⟨_, hRuns.trans hJoined, rfl, ?_⟩
      change 0 + (life.forks + 0 + 1) = count + 1
      change 0 + life.forks = count at hForks
      omega

/-- The fork after 65534 others replies zero in the parent as well, which goes on with the
word meant for the child. -/
theorem fork_replies_zero_to_parent :
    ∃ f : ProcessTree .unixV6Pdp11, ProcessTree.Runs (.root pdp11First) f ∧ f.forks = 65534 ∧
      ∀ (run : Runner Personality.unixV6Pdp11.Cpu) ended,
        run (Personality.unixV6Pdp11.forkedChild 2 f.session) = some ended →
        ∃ t, Personality.unixV6Pdp11.system.answer run 2 f.session = some (t, .ok ()) ∧
          t.process.machine =
            (Personality.unixV6Pdp11.forkedChild 2 f.session).process.machine := by
  obtain ⟨f, hRuns, -, hForks⟩ := ProcessTree.exists_runs_forks pdp11First 65534
  refine ⟨f, hRuns, hForks, fun run ended hRun => ?_⟩
  have hZero : f.session.host.lastPid + 1 = 0 := by
    rw [ProcessTree.lastPid_runs 1 hRuns rfl, hForks]
    rfl
  have hDirect : Personality.unixV6Pdp11.Forks 2 f.session := rfl
  obtain ⟨hChild, t, hAnswer, hMachine⟩ := Personality.unixV6Pdp11.replies_of_fork hDirect hRun
  refine ⟨t, hAnswer, ?_⟩
  rw [hMachine, hChild, hZero]
  rfl

end VintageUnix
