import Mathlib.Data.List.Perm.Subperm
import VintageUnix.Proofs.FinishedChildren

/-! Whose children a wait reports. All processes that come from one by forking share the records
of the host, so a process that waits too often, or ends without waiting for its children, makes
others report children that are not theirs. While nobody does so, a process and its descendants
leave the records of the others where they are. -/
namespace VintageUnix

namespace Life

/-- The children that have ended, the last first. -/
def children : Life → List FinishedChild
  | start => []
  | reaped before _ => before.children
  | refused before _ => before.children
  | forked before child _ => child :: before.children

/-- The children that waits have reported, the last first. -/
def reports : Life → List FinishedChild
  | start => []
  | reaped before child => child :: before.reports
  | refused before _ => before.reports
  | forked before _ _ => before.reports

/-- Each wait has reported a child of the process itself that it had not reported before. -/
def OwnWaits : Life → Prop
  | start => True
  | reaped before child => before.OwnWaits ∧ (child :: before.reports).Subperm before.children
  | refused before _ => before.OwnWaits
  | forked before _ _ => before.OwnWaits

/-- The process and its descendants have not had more children reported than they had, and
each descendant had all its children reported when it ended. -/
def Disciplined : Life → Prop
  | start => True
  | reaped before _ => before.Disciplined ∧ before.reports.length < before.children.length
  | refused before _ => before.Disciplined
  | forked before _ life =>
    before.Disciplined ∧ life.Disciplined ∧ life.reports.length = life.children.length

/-- The lives of the descendants that have ended. -/
def descendants : Life → List Life
  | start => []
  | reaped before _ => before.descendants
  | refused before _ => before.descendants
  | forked before _ life => life :: life.descendants ++ before.descendants

/-- A life that starts with some records of the host leaves others. -/
inductive Leaves : List FinishedChild → Life → List FinishedChild → Prop
  | start (records) : Leaves records start records
  | reaped {initial before child records} (hBefore : Leaves initial before (child :: records)) :
    Leaves initial (reaped before child) records
  | refused {initial before e} (hBefore : Leaves initial before []) :
    Leaves initial (refused before e) []
  | forked {initial before between child life records} (hBefore : Leaves initial before between)
    (hLife : Leaves between life records) :
    Leaves initial (forked before child life) (child :: records)

/-- A disciplined process puts records of its own children on top of those that it has found,
and takes only such records. -/
theorem Leaves.of_disciplined {initial records : List FinishedChild} {life : Life}
    (h : Leaves initial life records) (hDisciplined : life.Disciplined) :
    life.OwnWaits ∧ ∃ own, records = own ++ initial ∧ (own ++ life.reports).Perm life.children := by
  induction h with
  | start records => exact ⟨trivial, [], rfl, .refl _⟩
  | @reaped initial before child records hBefore ih =>
      obtain ⟨hBefore, hFewer⟩ := hDisciplined
      obtain ⟨hWaits, own, hRecords, hOwn⟩ := ih hBefore
      have hLength := hOwn.length_eq
      rw [List.length_append] at hLength
      cases own with
      | nil =>
          rw [List.length_nil] at hLength
          omega
      | cons first own =>
          obtain ⟨rfl, rfl⟩ := List.cons.inj hRecords
          have hTaken : (own ++ child :: before.reports).Perm before.children :=
            List.perm_middle.trans hOwn
          refine ⟨⟨hWaits, ?_⟩, own, rfl, hTaken⟩
          exact (List.sublist_append_right own _).subperm.trans hTaken.subperm
  | refused hBefore ih => exact ih hDisciplined
  | @forked initial before between child life records hBefore hLife ihBefore ihLife =>
      obtain ⟨hFirst, hChild, hAll⟩ := hDisciplined
      obtain ⟨hWaits, own, rfl, hOwn⟩ := ihBefore hFirst
      obtain ⟨-, left, rfl, hLeft⟩ := ihLife hChild
      have hLength := hLeft.length_eq
      rw [List.length_append, hAll, Nat.add_eq_right] at hLength
      obtain rfl := List.eq_nil_of_length_eq_zero hLength
      exact ⟨hWaits, child :: own, rfl, hOwn.cons child⟩

/-- Descendants start and end with records of the host like the process itself. -/
theorem Leaves.descendants {initial records : List FinishedChild} {life : Life}
    (h : Leaves initial life records) :
    ∀ l ∈ life.descendants, ∃ first last, Leaves first l last := by
  induction h with
  | start records => exact fun _ hl => nomatch hl
  | reaped hBefore ih => exact ih
  | refused hBefore ih => exact ih
  | forked hBefore hLife ihBefore ihLife =>
      intro l hl
      rcases List.mem_cons.1 hl with rfl | hl
      · exact ⟨_, _, hLife⟩
      · exact (List.mem_append.1 hl).elim (ihLife l) (ihBefore l)

end Life

namespace ProcessTree

variable {p : Personality}

/-- The records that the running process has found when it started. -/
def inherited (initial : List FinishedChild) : List (Suspended p) → List FinishedChild
  | [] => initial
  | parent :: _ => parent.session.host.finished

/-- The lives of all processes, those that have ended among them. -/
def lives (f : ProcessTree p) : List Life :=
  f.life :: f.life.descendants ++
    f.suspended.flatMap fun parent => parent.life :: parent.life.descendants

/-- The lives of suspended parents lead to the records that their children have found. -/
def SuspendedLeave (initial : List FinishedChild) : List (Suspended p) → Prop
  | [] => True
  | parent :: outer =>
    Life.Leaves (inherited initial outer) parent.life parent.session.host.finished ∧
      SuspendedLeave initial outer

/-- Every life leads to the records of the host that it ends with. -/
structure LivesLeave (initial : List FinishedChild) (f : ProcessTree p) : Prop where
  running : Life.Leaves (inherited initial f.suspended) f.life f.records
  suspended : SuspendedLeave initial f.suspended

theorem LivesLeave.step {initial : List FinishedChild} {f g : ProcessTree p}
    (h : LivesLeave initial f) (hStep : Step f g) : LivesLeave initial g := by
  obtain ⟨hRunning, hSuspended⟩ := h
  cases hStep with
  | act hActs =>
      refine ⟨?_, hSuspended⟩
      simp only [records, Personality.finished_of_acts hActs]
      exact hRunning
  | reap hWaits hAnswer hWaited =>
      simp only [records, finished_of_reaped hWaits hAnswer hWaited] at hRunning
      exact ⟨.reaped hRunning, hSuspended⟩
  | refuse hWaits hAnswer hWaited =>
      obtain ⟨rfl, hBefore, hAfter⟩ := finished_of_refused hWaits hAnswer hWaited
      simp only [records, hBefore] at hRunning
      refine ⟨?_, hSuspended⟩
      simp only [records, hAfter]
      exact .refused hRunning
  | fork hForks =>
      refine ⟨?_, hRunning, hSuspended⟩
      simp only [records, p.finished_forkedChild]
      exact .start _
  | join hForks hEnded hAnswer =>
      obtain ⟨hParent, hOuter⟩ := hSuspended
      refine ⟨?_, hOuter⟩
      simp only [records, p.finished_of_fork hForks hAnswer]
      exact .forked hParent hRunning

theorem Runs.livesLeave {s : Session p.Cpu} {f : ProcessTree p} (h : Runs (root s) f) :
    LivesLeave s.host.finished f := by
  induction h with
  | refl => exact ⟨.start _, trivial⟩
  | tail _ hStep ih => exact ih.step hStep

theorem SuspendedLeave.leaves {initial : List FinishedChild} {suspended : List (Suspended p)}
    (h : SuspendedLeave initial suspended) :
    ∀ parent ∈ suspended, ∃ first last, Life.Leaves first parent.life last := by
  induction suspended with
  | nil => exact fun _ hParent => nomatch hParent
  | cons nearest outer ih =>
      intro parent hParent
      rcases List.mem_cons.1 hParent with rfl | hParent
      · exact ⟨_, _, h.1⟩
      · exact ih h.2 parent hParent

theorem LivesLeave.leaves {initial : List FinishedChild} {f : ProcessTree p}
    (h : LivesLeave initial f) : ∀ l ∈ f.lives, ∃ first last, Life.Leaves first l last := by
  intro l hl
  rcases List.mem_append.1 hl with hRunning | hSuspended
  · rcases List.mem_cons.1 hRunning with rfl | hl
    · exact ⟨_, _, h.running⟩
    · exact h.running.descendants l hl
  · obtain ⟨parent, hParent, hl⟩ := List.mem_flatMap.1 hSuspended
    obtain ⟨first, last, hLeaves⟩ := h.suspended.leaves parent hParent
    rcases List.mem_cons.1 hl with rfl | hl
    · exact ⟨first, last, hLeaves⟩
    · exact hLeaves.descendants l hl

end ProcessTree

/-- The number that a fork returns is the one that the child is recorded under. -/
theorem Personality.machine_of_fork (p : Personality) {parent : Suspended p}
    {ended t : Session p.Cpu} {result : Except Fault Unit}
    (hForks : p.Forks parent.trap parent.session)
    (h : p.system.answer (fun _ => some ended) parent.trap parent.session = some (t, result)) :
    t.process.machine = p.machineAfterFork parent.trap
      (ProcessTree.childRecord parent ended).pid parent.session := by
  obtain ⟨-, prepare, reply, u, hChild, hFork, rfl, hReply⟩ := p.fork_of_answer hForks h
  have hMachine : reply u.process.machine = reply parent.session.process.machine := by
    rw [Session.process_of_fork hFork]
  have hNumber : (ProcessTree.childRecord parent ended).pid = parent.session.host.newPid.1 := by
    unfold ProcessTree.childRecord
    rw [hChild]
    rfl
  rw [hNumber]
  exact hMachine.trans hReply

/-- The reply to a wait, whatever its life has been: the first of the records that are left, which
it takes away, or a refusal if none is left. -/
theorem ProcessTree.reply_to_wait (f : ProcessTree p) {run : Runner p.Cpu} {trap : UInt16}
    (hWaits : p.Waits trap f.session) :
    ∃ t, p.system.answer run trap f.session = some (t, .ok ()) ∧
      (∀ child rest, f.records = child :: rest →
        t.process.machine = p.machineAfterWait trap (.ok child) f.session.process.machine ∧
        t.host.finished = rest ∧
        Step f { f with life := .reaped f.life child, session := t }) ∧
      (f.records = [] →
        t.process.machine =
          p.machineAfterWait trap (.error .invalidArgument) f.session.process.machine ∧
        Step f { f with life := .refused f.life .invalidArgument, session := t }) := by
  obtain ⟨t, hAnswer, hMachine, ⟨child, hWaited, hTaken, hStep⟩ | ⟨hWaited, hNone, hStep⟩⟩ :=
    @f.exists_step_of_waits p run trap hWaits
  · refine ⟨t, hAnswer, ?_, fun hNone => ?_⟩
    · intro first rest hRecords
      obtain ⟨rfl, rfl⟩ := List.cons.inj (hRecords.symm.trans hTaken)
      exact ⟨hWaited ▸ hMachine, rfl, hStep⟩
    · cases hNone.symm.trans hTaken
  · refine ⟨t, hAnswer, fun first rest hRecords => ?_, fun _ => ⟨hWaited ▸ hMachine, hStep⟩⟩
    cases hNone.symm.trans hRecords

/-- A process that with its descendants keeps to its own children is told only of these by
its waits, and of each of them once, whatever the other processes do. The records that it has
found when it started stay where they are. A wait replies with the number and the status of the
record that it takes, and a fork with the number that the child is recorded under. -/
theorem disciplined_waits_report_own_children (p : Personality) (s : Session p.Cpu)
    (f : ProcessTree p) (h : ProcessTree.Runs (.root s) f) :
    (∀ life ∈ f.lives, life.Disciplined → life.OwnWaits) ∧
    (f.life.Disciplined → ∃ own,
      f.records = own ++ ProcessTree.inherited s.host.finished f.suspended ∧
      (own ++ f.life.reports).Perm f.life.children) ∧
    (∀ (run : Runner p.Cpu) (trap : UInt16), p.Waits trap f.session →
      ∃ t, p.system.answer run trap f.session = some (t, .ok ()) ∧
        (∀ child rest, f.records = child :: rest →
          t.process.machine = p.machineAfterWait trap (.ok child) f.session.process.machine ∧
          t.host.finished = rest ∧
          ProcessTree.Step f { f with life := .reaped f.life child, session := t }) ∧
        (f.records = [] →
          t.process.machine =
            p.machineAfterWait trap (.error .invalidArgument) f.session.process.machine ∧
          ProcessTree.Step f
            { f with life := .refused f.life .invalidArgument, session := t })) ∧
    ∀ (parent : Suspended p) (ended t : Session p.Cpu) (result : Except Fault Unit),
      p.Forks parent.trap parent.session →
      p.system.answer (fun _ => some ended) parent.trap parent.session = some (t, result) →
      t.process.machine = p.machineAfterFork parent.trap
        (ProcessTree.childRecord parent ended).pid parent.session := by
  refine ⟨?_, ?_, ?_, ?_⟩
  · intro life hLife hDisciplined
    obtain ⟨first, last, hLeaves⟩ := h.livesLeave.leaves life hLife
    exact (hLeaves.of_disciplined hDisciplined).1
  · intro hDisciplined
    exact (h.livesLeave.running.of_disciplined hDisciplined).2
  · intro run trap hWaits
    exact f.reply_to_wait hWaits
  · intro parent ended t result hForks hAnswer
    exact p.machine_of_fork hForks hAnswer

/-- A process that forks, while its child forks as well and then exits with the number of
the grandchild. The process waits twice and exits with the number that it got last. -/
private abbrev pdp11Orphans : Session Personality.unixV6Pdp11.Cpu :=
  (UnixV6.conventions : Conventions Pdp11.Cpu).start
    { memory := AddressSpace.shared.write 0
        [0x02, 0x89, 0x03, 0x01, 0x07, 0x89, 0x07, 0x89, 0x01, 0x89, 0x02, 0x89, 0x01, 0x89,
          0x01, 0x89]
      entry := 0
      format := .raw } {} {}

/-- A fork whose child exits at once. -/
private theorem exists_exit (suspended : List (Suspended .unixV6Pdp11)) (life : Life)
    (s : Session Personality.unixV6Pdp11.Cpu) (code : Int) :
    ∃ t, ProcessTree.Runs { suspended, life, session := s }
        { suspended
          life := .forked life
            ⟨(Personality.unixV6Pdp11.forkedChild 2 s).process.pid, code⟩ .start
          session := t } ∧
      t.host.finished = ⟨(Personality.unixV6Pdp11.forkedChild 2 s).process.pid, code⟩ ::
        s.host.finished := by
  let parent : Suspended .unixV6Pdp11 := { trap := 2, life, session := s }
  let child := Personality.unixV6Pdp11.forkedChild 2 s
  have hExits : ProcessTree.Runs
      { suspended := parent :: suspended, life := .start, session := child }
      { suspended := parent :: suspended
        life := .start
        session := child.setState (.terminated code) } :=
    .single (.act (.state _ _))
  exact @ProcessTree.Runs.exists_join .unixV6Pdp11 suspended parent _ _ rfl hExits rfl

/-- A child waits for the grandchild before it ends, and its parent waits for it and is told its
number and its status. -/
theorem disciplined_waits_report_own_children_grandchild :
    ∃ f : ProcessTree .unixV6Pdp11, ProcessTree.Runs (.root pdp11Orphans) f ∧
      f.life.children = [⟨2, 3⟩] ∧ f.life.reports = [⟨2, 3⟩] ∧ f.life.OwnWaits ∧
      (∃ own, f.records = own ++ [] ∧ (own ++ f.life.reports).Perm f.life.children) ∧
      (∃ (before : ProcessTree .unixV6Pdp11) (t : Session Personality.unixV6Pdp11.Cpu),
        ProcessTree.Runs (.root pdp11Orphans) before ∧
        Personality.unixV6Pdp11.system.answer (fun _ => none) 7 before.session = some (t, .ok ()) ∧
        t.process.machine = Personality.unixV6Pdp11.machineAfterWait 7 (.ok ⟨2, 3⟩)
          before.session.process.machine) ∧
      ∃ ended t, Personality.unixV6Pdp11.system.answer (fun _ => some ended) 2 pdp11Orphans =
          some (t, .ok ()) ∧
        t.process.machine = Personality.unixV6Pdp11.machineAfterFork 2 2 pdp11Orphans := by
  let parent : Suspended .unixV6Pdp11 := { trap := 2, life := .start, session := pdp11Orphans }
  let child := Personality.unixV6Pdp11.forkedChild 2 pdp11Orphans
  obtain ⟨c, hForked, hGrandchild⟩ := exists_exit [parent] .start child 0
  obtain ⟨d, hWaited, -⟩ :=
    @ProcessTree.exists_reap .unixV6Pdp11 [parent] _ c _ _ 7 rfl hGrandchild
  have hChild := (hForked.tail hWaited).tail (.act (.state (.terminated 3) d))
  obtain ⟨t, hJoined, hRecords⟩ :=
    @ProcessTree.Runs.exists_join .unixV6Pdp11 [] parent _ _ rfl hChild rfl
  obtain ⟨u, hWait, -⟩ := @ProcessTree.exists_reap .unixV6Pdp11 [] _ t _ _ 7 rfl hRecords
  let life : Life :=
    .reaped (.forked .start ⟨2, 3⟩ (.reaped (.forked .start ⟨3, 0⟩ .start) ⟨3, 0⟩)) ⟨2, 3⟩
  have hRuns : ProcessTree.Runs (.root pdp11Orphans) { suspended := [], life, session := u } :=
    hJoined.tail hWait
  have hDisciplined : life.Disciplined :=
    ⟨⟨trivial, ⟨⟨trivial, trivial, rfl⟩, Nat.one_pos⟩, rfl⟩, Nat.one_pos⟩
  obtain ⟨hOwn, hRecorded, -, hNumber⟩ :=
    disciplined_waits_report_own_children .unixV6Pdp11 pdp11Orphans _ hRuns
  obtain ⟨-, -, hReplies, -⟩ :=
    disciplined_waits_report_own_children .unixV6Pdp11 pdp11Orphans _ hJoined
  obtain ⟨w, hWaitAnswer, hReply, -⟩ := hReplies (fun _ => none) 7 rfl
  obtain ⟨v, hAnswer⟩ := @Personality.exists_answer_of_fork .unixV6Pdp11 2 pdp11Orphans rfl child
  exact ⟨_, hRuns, rfl, rfl, hOwn life List.mem_cons_self hDisciplined, hRecorded hDisciplined,
    ⟨_, w, hJoined, hWaitAnswer, (hReply _ _ hRecords).1⟩,
    child, v, hAnswer, hNumber parent child v _ rfl hAnswer⟩

/-- A process can be told of the child of its child. The program exits with the number of the
grandchild, which is not the number of any child of its own. -/
theorem wait_reports_grandchild :
    (Personality.unixV6Pdp11.system.run 20 pdp11Orphans).map (·.process.state) =
      some (.terminated 3) ∧
    ∃ f : ProcessTree .unixV6Pdp11, ProcessTree.Runs (.root pdp11Orphans) f ∧
      f.life.children = [⟨2, 3⟩] ∧ f.life.reports = [⟨3, 0⟩, ⟨2, 3⟩] ∧ ¬ f.life.OwnWaits := by
  constructor
  · decide +kernel
  · let parent : Suspended .unixV6Pdp11 := { trap := 2, life := .start, session := pdp11Orphans }
    let child := Personality.unixV6Pdp11.forkedChild 2 pdp11Orphans
    obtain ⟨c, hForked, hGrandchild⟩ := exists_exit [parent] .start child 0
    have hChild := hForked.tail (.act (.state (.terminated 3) c))
    obtain ⟨t, hJoined, hRecords⟩ :=
      @ProcessTree.Runs.exists_join .unixV6Pdp11 [] parent _ _ rfl hChild rfl
    obtain ⟨u, hFirst, hLeft⟩ := @ProcessTree.exists_reap .unixV6Pdp11 [] _ t _ _ 7 rfl hRecords
    obtain ⟨v, hSecond, -⟩ :=
      @ProcessTree.exists_reap .unixV6Pdp11 [] _ u _ _ 7 rfl (hLeft.trans hGrandchild)
    refine ⟨_, (hJoined.tail hFirst).tail hSecond, rfl, rfl, fun hOwn => ?_⟩
    exact Nat.not_succ_le_self 1 hOwn.2.length_le

end VintageUnix
