import VintageUnix.Proofs.AnswerRelation
import VintageUnix.Proofs.Dispatch
import VintageUnix.Proofs.EndedProcesses
import VintageUnix.Proofs.EnginePreorder

/-! A run in slices. Taking some cycles and then some more is taking all of them at once: a slice
that used up its cycles leaves a process that is still running, and after any other slice there
is nothing left to do. -/
namespace VintageUnix

section Common

variable {Cpu : Type} [Processor Cpu]

/-- The process is in the state that it was in, or it has exited. -/
def Session.StaysOrExits (s t : Session Cpu) : Prop :=
  t.process.state = s.process.state ∨ ∃ code, t.process.state = .terminated code

theorem Session.StaysOrExits.of_process {s t : Session Cpu} (h : t.process = s.process) :
    s.StaysOrExits t :=
  .inl (congrArg Process.state h)

theorem Session.StaysOrExits.trans {s t u : Session Cpu} (first : s.StaysOrExits t)
    (second : t.StaysOrExits u) : s.StaysOrExits u := by
  rcases second with hStays | hExits
  · rcases first with hStayed | ⟨code, hExited⟩
    · exact .inl (hStays.trans hStayed)
    · exact .inr ⟨code, hStays.trans hExited⟩
  · exact .inr hExits

theorem Session.StaysOrExits.exit (code : Int) (s : Session Cpu) : s.StaysOrExits (s.exit code) :=
  .inr ⟨code, rfl⟩

/-- A program is replaced in the process that runs it. -/
theorem Session.state_execute (c : Conventions Cpu) (path : String) (s : Session Cpu) :
    (s.execute c path).2.process.state = s.process.state := by
  unfold execute
  split <;> rfl

theorem Reply.state_andThen {α β : Type} {f : α → Session Cpu → β × Session Cpu}
    (hKeeps : ∀ a s, (f a s).2.process.state = s.process.state) (reply : Reply Cpu α) :
    (reply.andThen f).2.process.state = reply.2.process.state := by
  obtain ⟨result, s⟩ := reply
  cases result with
  | ok a => exact hKeeps a s
  | error e => rfl

/-- An invariant of sessions: the state that the process is in. -/
theorem keepsState (c : Conventions Cpu) (state : RunState) :
    MachineInvariant c fun s : Session Cpu => s.process.state = state where
  host h _ := h
  descriptors _ h := h
  umask _ h := h
  setAction {s t signal action old} h hSet := by
    unfold Session.setSignalAction at hSet
    split at hSet <;> cases hSet
    exact h
  finished _ h := h
  machine _ h := h
  moveBreak _ h := h

end Common

open Session (Logs)

theorem Minix.state_of_executeFrame {path : String} {frame size : UInt16}
    {s t : Session I8086.Cpu} {result : Except Errno Unit}
    (h : executeFrame path frame size s = (result, t)) : t.process.state = s.process.state := by
  have hPlaced := congrArg (·.2.process.state) h
  refine hPlaced.symm.trans ((Reply.state_andThen (fun _ _ => rfl) _).trans ?_)
  exact (Session.state_execute _ _ _).trans (congrArg Process.state (Logs.trace ..).process)

theorem UnixV6.state_of_execute {Cpu : Type} [Platform Cpu] {path : String} {vector : UInt16}
    {s t : Session Cpu} {result : Except Errno Unit}
    (h : execute path vector s = (result, t)) : t.process.state = s.process.state := by
  have hLaidOut := congrArg (·.2.process.state) h
  refine hLaidOut.symm.trans ((Reply.state_andThen (fun _ _ => rfl) _).trans ?_)
  exact (Session.state_execute _ _ _).trans (congrArg Process.state (Logs.trace ..).process)

theorem Minix.staysOrExits_of_answer {run : Runner I8086.Cpu} {trap : UInt16}
    {s t : Session I8086.Cpu} {result : Except Fault Unit}
    (h : answer run trap s = some (t, result)) : s.StaysOrExits t := by
  simp only [answer] at h
  split at h
  next =>
    cases h
    exact .of_process rfl
  next =>
    obtain ⟨completion, hPerform, hEnd⟩ := Option.map_eq_some_iff.1 h
    have hPerformed : s.StaysOrExits completion.session := by
      cases performs hPerform with
      | fault f hLogs => exact .of_process hLogs.process
      | exit code => exact .exit code s
      | fork hCall hFork => exact .of_process (Session.process_of_fork hFork)
      | exec hCall hExecuted => exact .inl (state_of_executeFrame hExecuted)
      | failedExec e hLogs => exact .of_process hLogs.process
      | ordinary c hCall =>
          exact .inl (c.perform_related (keepsState conventions _).machineRelation ⟨rfl, rfl⟩
            _).session.2
    cases completion <;> cases hEnd <;> exact hPerformed

theorem UnixV6.staysOrExits_of_answer {Cpu : Type} [Platform Cpu] {run : Runner Cpu}
    {trap : UInt16} {s t : Session Cpu} {result : Except Fault Unit}
    (h : answer run trap s = some (t, result)) : s.StaysOrExits t := by
  obtain ⟨completion, hPerform, hEnd⟩ := Option.map_eq_some_iff.1 h
  have hPerformed : s.StaysOrExits completion.session := by
    cases performs hPerform with
    | fault f hLogs => exact .of_process hLogs.process
    | exit code => exact .exit code s
    | fork skip skipped hCall hFork => exact .of_process (Session.process_of_fork hFork)
    | exec skip hCall hExecuted => exact .inl (state_of_execute hExecuted)
    | failed e skip hLogs => exact .of_process hLogs.process
    | ordinary c skip hCall =>
        exact .inl (c.perform_related (keepsState conventions _).machineRelation ⟨rfl, rfl⟩
          _).session.2
  cases completion <;> cases hEnd <;> exact hPerformed

namespace Personality

variable (p : Personality) {s t : Session p.Cpu} {result : Except Fault Unit}

theorem staysOrExits_of_answer {run : Runner p.Cpu} {trap : UInt16}
    (h : p.system.answer run trap s = some (t, result)) : s.StaysOrExits t := by
  cases p with
  | minix => exact Minix.staysOrExits_of_answer h
  | unixV6Pdp11 => exact UnixV6.staysOrExits_of_answer h
  | unixV6I8086 => exact UnixV6.staysOrExits_of_answer h

/-- A step does not make a process fail, whatever the handlers and children inside it come
to. What makes it fail is that the fault of a step ends a run of cycles. -/
theorem staysOrExits_of_step {bound : Nat} (h : p.system.step bound s = some (t, result)) :
    s.StaysOrExits t := by
  have hSteps : StepPreorder p.system Session.StaysOrExits := {
    refl s := .of_process rfl
    trans := .trans
    pending _ := .of_process rfl
    enter _ _ := .inl rfl
    restored h := h.trans (.inl rfl)
    advance s := by
      refine .inl ?_
      rw [(System.advances_advance s).process]
    finish s := .inr ⟨0, rfl⟩ }
  exact hSteps.step p.staysOrExits_of_answer h

end Personality

/-- What two slices come to together. The second one counts only if the first one used up
its cycles. -/
def CycleReport.followedBy (first second : CycleReport) : CycleReport where
  cycles := first.cycles + second.cycles
  stop := if first.stop = .outOfCycles then second.stop else first.stop

namespace System

variable {Cpu : Type} [Processor Cpu] {step : Stepper Cpu}

theorem cycleLoop_add (first second done : Nat) (s : Session Cpu) :
    cycleLoop step (first + second) done s = (cycleLoop step first done s).bind fun (t, report) =>
      if report.stop = .outOfCycles then cycleLoop step second report.cycles t
      else some (t, report) := by
  induction first generalizing done s with
  | zero => simp only [Nat.zero_add, cycleLoop, Option.bind_some, if_true]
  | succ first ih =>
      rw [Nat.succ_add]
      cases hStep : step s with
      | none => simp only [cycleLoop, hStep, Option.bind_none]
      | some next =>
          obtain ⟨t, result⟩ := next
          cases result with
          | error fault => simp [cycleLoop, hStep]
          | ok _ =>
              simp only [cycleLoop, hStep]
              split
              · simp
              · exact ih _ t

/-- Cycles that were taken before only add to the count. -/
theorem cycleLoop_followedBy {first : CycleReport} (hStop : first.stop = .outOfCycles)
    (count done : Nat) (s : Session Cpu) :
    cycleLoop step count (first.cycles + done) s =
      (cycleLoop step count done s).map (Prod.map id first.followedBy) := by
  induction count generalizing done s with
  | zero => simp [cycleLoop, CycleReport.followedBy, hStop]
  | succ count ih =>
      cases hStep : step s with
      | none => simp [cycleLoop, hStep]
      | some next =>
          obtain ⟨t, result⟩ := next
          cases result with
          | error fault => simp [cycleLoop, hStep, CycleReport.followedBy, hStop]
          | ok _ =>
              simp only [cycleLoop, hStep]
              split
              · simp [CycleReport.followedBy, hStop, Nat.add_assoc]
              · exact ih (done + 1) t

/-- A slice has used up its cycles just if the process is still running. -/
theorem isRunning_of_cycleLoop
    (hStep : ∀ {s t} {result : Except Fault Unit}, step s = some (t, result) → s.StaysOrExits t)
    {count done : Nat} {s t : Session Cpu} {report : CycleReport} (hRunning : s.isRunning)
    (h : cycleLoop step count done s = some (t, report)) :
    t.isRunning = decide (report.stop = .outOfCycles) := by
  induction count generalizing done s with
  | zero =>
      cases h
      simpa using hRunning
  | succ count ih =>
      simp only [cycleLoop] at h
      split at h
      next => cases h
      next u fault _ =>
        cases h
        rfl
      next u hFirst =>
        split at h
        next code hExited =>
          cases h
          simp [Session.isRunning, Process.isRunning, hExited]
        next hUnended =>
          refine ih ?_ h
          rcases hStep hFirst with hStays | ⟨code, hExited⟩
          · simpa [Session.isRunning, Process.isRunning, hStays] using hRunning
          · exact absurd hExited (hUnended code)

theorem cyclesWith_add
    (hStep : ∀ {s t} {result : Except Fault Unit}, step s = some (t, result) → s.StaysOrExits t)
    (first second : Nat) (s : Session Cpu) :
    cyclesWith step (first + second) s = (cyclesWith step first s).bind fun (t, report) =>
      (cyclesWith step second t).map (Prod.map id report.followedBy) := by
  cases hRunning : s.isRunning with
  | false => simp [cyclesWith_of_ended hRunning, CycleReport.followedBy]
  | true =>
      simp only [cyclesWith, hRunning, if_true, cycleLoop_add]
      refine Option.bind_congr ?_
      rintro ⟨t, report⟩ hFirst
      have hAfter := isRunning_of_cycleLoop hStep hRunning hFirst
      by_cases hStop : report.stop = .outOfCycles
      · have hRest := @cycleLoop_followedBy _ _ step _ hStop second 0 t
        simpa [hStop, hAfter] using hRest
      · simp [hStop, hAfter, CycleReport.followedBy]

/-- After a slice that did not use up its cycles there is nothing left to do. -/
theorem cyclesWith_of_stopped
    (hStep : ∀ {s t} {result : Except Fault Unit}, step s = some (t, result) → s.StaysOrExits t)
    {first : Nat} {s t : Session Cpu} {report : CycleReport}
    (h : cyclesWith step first s = some (t, report)) (hStop : report.stop ≠ .outOfCycles)
    (second : Nat) :
    cyclesWith step second t = some (t, { cycles := 0, stop := .notRunning }) := by
  refine cyclesWith_of_ended ?_ second
  cases hRunning : s.isRunning with
  | false =>
      rw [cyclesWith_of_ended hRunning] at h
      cases h
      exact hRunning
  | true =>
      simp only [cyclesWith, hRunning, if_true] at h
      simpa [hStop] using isRunning_of_cycleLoop hStep hRunning h

end System

/-- Two slices are one run: they leave the same process and host, their cycles add up, and
the run stops as the last slice that did anything. -/
theorem executeCycles_add (p : Personality) (bound first second : Nat) (s : Session p.Cpu) :
    p.system.executeCycles bound (first + second) s =
      ((p.system.executeCycles bound first s).bind fun (t, report) =>
        (p.system.executeCycles bound second t).map (Prod.map id report.followedBy)) ∧
    ∀ t report, p.system.executeCycles bound first s = some (t, report) →
      report.stop ≠ .outOfCycles →
      p.system.executeCycles bound second t = some (t, { cycles := 0, stop := .notRunning }) := by
  refine ⟨System.cyclesWith_add p.staysOrExits_of_step first second s, ?_⟩
  intro t report hFirst hStop
  exact System.cyclesWith_of_stopped p.staysOrExits_of_step hFirst hStop second

/-- A program that does nothing once and then leaves. -/
private abbrev leaving : Session Personality.unixV6Pdp11.Cpu :=
  (UnixV6.conventions : Conventions Pdp11.Cpu).start
    { memory := AddressSpace.shared.write 0 [0xa0, 0x00, 0x01, 0x89], entry := 0, format := .raw }
    {} {}

/-- It leaves in its second cycle. The cycles that are left over change nothing. -/
theorem executeCycles_add_leaving :
    ∃ t, Personality.unixV6Pdp11.system.executeCycles 1 5 leaving =
        some (t, { cycles := 2, stop := .terminated 0 }) ∧
      Personality.unixV6Pdp11.system.executeCycles 1 3 t =
        some (t, { cycles := 0, stop := .notRunning }) ∧
      Personality.unixV6Pdp11.system.executeCycles 1 (5 + 3) leaving =
        some (t, { cycles := 2, stop := .terminated 0 }) := by
  have hLeaves : (Personality.unixV6Pdp11.system.executeCycles 1 5 leaving).map (·.2) =
      some { cycles := 2, stop := .terminated 0 } := by
    decide +kernel
  obtain ⟨⟨t, report⟩, hFirst, rfl⟩ := Option.map_eq_some_iff.1 hLeaves
  obtain ⟨hAdd, hNothing⟩ := executeCycles_add .unixV6Pdp11 1 5 3 leaving
  have hSecond := hNothing t _ hFirst (by decide)
  refine ⟨t, hFirst, hSecond, ?_⟩
  simp only [hAdd, hFirst, Option.bind_some, hSecond]
  rfl

end VintageUnix
