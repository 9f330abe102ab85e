import VintageUnix.Proofs.InnerSteps

/-! Which program a process runs. Its image is the one it was started on, until an exec replaces it
by that of a file. A property of the image and the machine holds of every session that comes up, if
it holds at the start and is kept by instructions, replies and the return from a handler. -/
namespace VintageUnix

open AddressSpace (Stores)
open Session (Logs)

section Common

variable {Cpu : Type} [Processor Cpu]

/-- The image of a process after it has tried to run the file at a path instead, if there is
one. -/
def Session.imageAfter (c : Conventions Cpu) (path? : Option String) (s : Session Cpu)
    (image : Image) : Image :=
  match path? with
  | some path => (c.loadFile s.host (s.process.hostPath path)).toOption.getD image
  | none => image

theorem Session.Logs.imageAfter {s t : Session Cpu} (h : Logs s t) (c : Conventions Cpu)
    (path? : Option String) (image : Image) :
    t.imageAfter c path? image = s.imageAfter c path? image := by
  cases path? with
  | some path => simp only [Session.imageAfter, h.loadFile]
  | none => rfl

/-- A property of an image and the machine that runs it, kept by everything that happens to
registers and memory. What `note` does to the registers is part of a reply as well. -/
structure ProgramInvariant (note : UInt16 → Cpu → Cpu) (P : Image → Machine Cpu → Prop) :
    Prop where
  fresh (image : Image) : P image image.machine
  /-- The registers may have been those of another program. -/
  restored {image other m n} : P image m → P other n → P other { n with cpu := m.cpu }
  stores {image m} {memory : AddressSpace} : P image m → Stores m.memory memory →
    P image { m with memory }
  moveBreak {image m} (brk : UInt16) : P image m → P image (m.mapMemory ({ · with brk }))
  setIp {image m} (v : UInt16) : P image m → P image (m.mapCpu (Processor.setIp · v))
  setSp {image m} (v : UInt16) : P image m → P image (m.mapCpu (StackPointer.setSp · v))
  setEntrySp {image m} (v : UInt16) : P image m → P image (m.mapCpu (Processor.setEntrySp · v))
  setAccumulator {image m} (v : UInt16) : P image m →
    P image (m.mapCpu (Processor.setAccumulator · v))
  setCarry {image m} (carry : Bool) : P image m → P image (m.mapCpu (Processor.setCarry · carry))
  note {image m} (status : UInt16) : P image m → P image (m.mapCpu (note status))
  execute {image m} (i : Processor.Instruction Cpu) : P image m →
    P image (Processor.execute i m).1

namespace ProgramInvariant

variable {note : UInt16 → Cpu → Cpu} {P : Image → Machine Cpu → Prop}
  (hP : ProgramInvariant note P) {image : Image}

include hP

theorem mapMemory {m : Machine Cpu} {f : AddressSpace → AddressSpace}
    (hStores : ∀ m, Stores m (f m)) (h : P image m) : P image (m.mapMemory f) :=
  hP.stores h (hStores m.memory)

theorem push {m : Machine Cpu} (value : UInt16) (h : P image m) : P image (m.push value) :=
  hP.stores (hP.setSp (StackPointer.sp m.cpu - 2) h) (.setWord _ _ _)

theorem report {m : Machine Cpu} (c : ReplyConvention) (block : UInt16)
    (result : Except Errno UInt16) (h : P image m) : P image (c.report block result m) := by
  cases c with
  | message =>
      cases result with
      | ok v => exact hP.stores (hP.setAccumulator 0 h) (.setWord _ _ _)
      | error e => exact hP.stores (hP.setAccumulator 0 h) (.setWord _ _ _)
  | carry =>
      cases result with
      | ok v => exact hP.setCarry false (hP.setAccumulator v h)
      | error e => exact hP.setCarry true (hP.setAccumulator e.word h)

theorem build {m : Machine Cpu} (arguments : List String) (environment : Option (List String))
    (h : P image m) : P image (StackLayout.build arguments environment m) :=
  hP.stores (hP.setEntrySp _ (hP.setSp _ h)) (StackLayout.stores_build arguments environment m)

/-- The common calls keep the property, since they reach the machine by stores and by moving the
break only. -/
theorem callRelation (c : Conventions Cpu) :
    CallRelation c (Diagonal fun s => P image s.process.machine) where
  toQuietRelation := by
    apply QuietInvariant.relation
    exact {
      host := fun h _ => h
      descriptors := fun _ h => h
      umask := fun _ h => h
      setAction := by
        intro s t signal action old h hSet
        unfold Session.setSignalAction at hSet
        split at hSet <;> cases hSet
        exact h }
  store hStores h := ⟨h.1 ▸ rfl, hP.mapMemory hStores h.2⟩
  moveBreak brk h := ⟨h.1 ▸ rfl, hP.moveBreak brk h.2⟩

theorem exec {s : Session Cpu} (c : Conventions Cpu) (path : String)
    (h : P image s.process.machine) :
    P (s.imageAfter c (some path) image) (s.execute c path).2.process.machine := by
  simp only [Session.imageAfter, Session.execute]
  cases c.loadFile s.host (s.process.hostPath path) with
  | ok loaded => exact hP.fresh loaded
  | error e => exact h

theorem enterHandler {s : Session Cpu} (handler : UInt16) (h : P image s.process.machine) :
    P image (System.enterHandler handler s).process.machine :=
  hP.setIp handler (hP.push _ h)

/-- Before an instruction is executed the instruction pointer moves behind it. -/
theorem advance {s : Session Cpu} (h : P image s.process.machine) :
    P image (System.advance s).1.process.machine := by
  have hLogged (least : Trace) (level : Level) (topic : Topic) (text : String) (s : Session Cpu) :
      (s.trace least level topic text).process = s.process :=
    (Logs.trace least level topic text s).process
  simp only [System.advance]
  split
  · simp only [Session.log, Session.mapHost, hLogged]
    exact h
  · split
    all_goals
      apply hP.execute
      apply hP.setIp
      rw [hLogged, hLogged]
      exact h

end ProgramInvariant
end Common

namespace Minix

/-- The path of the file that a trap asks to run instead, if it is an exec. -/
def execPath? (trap : UInt16) (s : Session I8086.Cpu) : Option String :=
  let block := s.cpu.get .bx
  if trap = messageTrap ∧ Call.ofNumber? (s.memory.word (block + 2)) = some .exec then
    some (s.memory.stringAt (s.memory.word (block + 10)))
  else none

variable {note : UInt16 → I8086.Cpu → I8086.Cpu} {P : Image → Machine I8086.Cpu → Prop}
  (hP : ProgramInvariant note P) {image : Image} {s : Session I8086.Cpu}

include hP

theorem executeFrame_kept (path : String) (frame size : UInt16)
    (h : P image s.process.machine) :
    P (s.imageAfter conventions (some path) image)
      (executeFrame path frame size s).2.process.machine := by
  simp only [executeFrame]
  generalize "<exec(" ++ shownPath path ++ ") argc=" ++ shownWord _ ++ ">" = text
  have hLogs := Logs.trace .calls .debug .calls text s
  have hExec := hP.exec conventions path (hLogs.process.symm ▸ h)
  rw [hLogs.imageAfter] at hExec
  generalize Session.execute conventions path _ = reply at hExec ⊢
  obtain ⟨result, t⟩ := reply
  cases result with
  | ok _ =>
      let m := t.process.machine
      have hStores := stores_placeFrame (s.memory.read frame size.toNat) m
      exact hP.stores (hP.setEntrySp _ (hP.setSp _ hExec)) hStores
  | error e => exact hExec

theorem perform_kept {run : Runner I8086.Cpu} {completion : Completion}
    (hPerform : perform run (s.cpu.get .bx) s = some completion)
    (hNot : Call.ofNumber? (s.memory.word (s.cpu.get .bx + 2)) ≠ some .exec)
    (h : P image s.process.machine) : P image completion.session.process.machine := by
  cases performs hPerform with
  | fault f hLogs => exact hLogs.process.symm ▸ h
  | exit code => exact (s.machine_exit code).symm ▸ h
  | fork hCall hFork => exact (Session.process_of_fork hFork).symm ▸ h
  | exec hCall => exact absurd hCall hNot
  | failedExec e hLogs => exact hLogs.process.symm ▸ h
  | ordinary c hCall =>
      have hRelated := c.perform_agrees (hP.callRelation conventions) ⟨rfl, h⟩
        (fun _ _ => ⟨rfl, h⟩) (s.cpu.get .bx)
      exact hRelated.session.2

theorem answer_kept {run : Runner I8086.Cpu} {trap : UInt16} {t : Session I8086.Cpu}
    {result : Except Fault Unit} (hAnswer : answer run trap s = some (t, result))
    (h : P image s.process.machine) :
    P (s.imageAfter conventions (execPath? trap s) image) t.process.machine := by
  simp only [answer] at hAnswer
  split at hAnswer
  next hOther =>
    cases hAnswer
    rw [execPath?, if_neg fun hExec => hOther hExec.1]
    exact h
  next hTrap =>
    obtain rfl : trap = messageTrap := Decidable.of_not_not hTrap
    obtain ⟨completion, hPerform, hEnd⟩ := Option.map_eq_some_iff.1 hAnswer
    have hDone : P (s.imageAfter conventions (execPath? messageTrap s) image)
        completion.session.process.machine := by
      by_cases hCall : Call.ofNumber? (s.memory.word (s.cpu.get .bx + 2)) = some .exec
      · have hExec := executeFrame_kept hP (s.memory.stringAt (s.memory.word (s.cpu.get .bx + 10)))
          (s.memory.word (s.cpu.get .bx + 12)) (s.memory.word (s.cpu.get .bx + 6)) h
        simp only [perform, hCall, Call.perform] at hPerform
        rw [execPath?, if_pos ⟨rfl, hCall⟩]
        split at hPerform
        next hFrame =>
          cases hPerform
          rwa [hFrame] at hExec
        next hFrame =>
          cases hPerform
          rwa [hFrame] at hExec
      · rw [execPath?, if_neg fun hExec => hCall hExec.2]
        exact perform_kept hP hPerform hCall h
    cases completion with
    | reply result u =>
        cases hEnd
        exact hP.report _ _ _ hDone
    | final u =>
        cases hEnd
        exact hDone
    | fault f u =>
        cases hEnd
        exact hDone

end Minix

namespace UnixV6

variable {Cpu : Type} [Platform Cpu]

/-- The path of the file that a trap asks to run instead, if it is an exec. -/
def execPath? (trap : UInt16) (s : Session Cpu) : Option String :=
  let requested := request trap s
  if Call.ofNumber? requested.1 = some .exec then
    some (s.memory.stringAt (requested.2.word s.memory 0))
  else none

variable {P : Image → Machine Cpu → Prop}
  (hP : ProgramInvariant (Platform.setWaitStatus : UInt16 → Cpu → Cpu) P)
  {image : Image} {s : Session Cpu}

include hP

theorem execute_kept (path : String) (vector : UInt16) (h : P image s.process.machine) :
    P (s.imageAfter conventions (some path) image) (execute path vector s).2.process.machine := by
  simp only [execute]
  generalize "<exec(" ++ shownPath path ++ ", [" ++ Quoted.quoteAll _ ++ "])>" = text
  have hLogs := Logs.trace .calls .debug .calls text s
  have hExec := hP.exec conventions path (hLogs.process.symm ▸ h)
  rw [hLogs.imageAfter] at hExec
  generalize Session.execute (conventions : Conventions Cpu) path _ = reply at hExec ⊢
  obtain ⟨result, t⟩ := reply
  cases result with
  | ok _ => exact hP.build _ none (hP.setSp 0 hExec)
  | error e => exact hExec

theorem perform_kept {run : Runner Cpu} {trap : UInt16} {completion : Completion Cpu}
    (hPerform : perform run trap s = some completion)
    (hNot : Call.ofNumber? (request trap s).1 ≠ some .exec) (h : P image s.process.machine) :
    P image completion.session.process.machine := by
  cases performs hPerform with
  | fault f hLogs => exact hLogs.process.symm ▸ h
  | exit code => exact (s.machine_exit code).symm ▸ h
  | fork skip skipped hCall hFork => exact (Session.process_of_fork hFork).symm ▸ h
  | exec skip hCall => exact absurd hCall hNot
  | failed e skip hLogs => exact hLogs.process.symm ▸ h
  | ordinary c skip hCall =>
      let arguments := (request trap s).2
      have hRelation : CallRelation conventions (Diagonal fun s => P image s.process.machine) :=
        hP.callRelation _
      have hRelated : RepliesRelated (Diagonal fun s => P image s.process.machine)
          (c.perform arguments s) (c.perform arguments s) := by
        apply c.perform_agrees hRelation ⟨rfl, h⟩ rfl
        · exact fun _ _ => ⟨rfl, h⟩
        · exact fun _ status _ _ h => ⟨h.1 ▸ rfl, hP.note status h.2⟩
        · exact fun _ _ => rfl
      exact hRelated.session.2

theorem answer_kept {run : Runner Cpu} {trap : UInt16} {t : Session Cpu}
    {result : Except Fault Unit} (hAnswer : answer run trap s = some (t, result))
    (h : P image s.process.machine) :
    P (s.imageAfter conventions (execPath? trap s) image) t.process.machine := by
  obtain ⟨completion, hPerform, hEnd⟩ := Option.map_eq_some_iff.1 hAnswer
  have hDone : P (s.imageAfter conventions (execPath? trap s) image)
      completion.session.process.machine := by
    by_cases hCall : Call.ofNumber? (request trap s).1 = some .exec
    · have hExec := execute_kept hP (s.memory.stringAt ((request trap s).2.word s.memory 0))
        ((request trap s).2.word s.memory 1) h
      simp only [perform_of_exec hCall, Option.some.injEq] at hPerform
      rw [execPath?, if_pos hCall]
      split at hPerform
      next hExecuted =>
        cases hPerform
        rwa [hExecuted] at hExec
      next hExecuted =>
        cases hPerform
        rwa [hExecuted] at hExec
    · rw [execPath?, if_neg hCall]
      exact perform_kept hP hPerform hCall h
  cases completion with
  | reply result skip u =>
      cases hEnd
      exact hP.setIp _ (hP.report .carry 0 result hDone)
  | final u =>
      cases hEnd
      exact hDone
  | fault f u =>
      cases hEnd
      exact hDone

end UnixV6

namespace Personality

/-- What a reply to a wait does to registers besides the result, on systems where it does. -/
def noteStatus : (p : Personality) → UInt16 → p.Cpu → p.Cpu
  | .minix => fun _ c => c
  | .unixV6Pdp11 => (UnixV6.Platform.setWaitStatus : UInt16 → Pdp11.Cpu → Pdp11.Cpu)
  | .unixV6I8086 => (UnixV6.Platform.setWaitStatus : UInt16 → I8086.Cpu → I8086.Cpu)

/-- The path of the file that a trap asks to run instead, if it is an exec. -/
def execPath? : (p : Personality) → UInt16 → Session p.Cpu → Option String
  | .minix => Minix.execPath?
  | .unixV6Pdp11 => (UnixV6.execPath? : UInt16 → Session Pdp11.Cpu → Option String)
  | .unixV6I8086 => (UnixV6.execPath? : UInt16 → Session I8086.Cpu → Option String)

/-- The sessions that come up while a process runs, with the image that its program is from: those
between the actions of the engine, in a handler, and in a forked child. What a child comes to does
not matter to its parent, and a handler may give back the registers of any session. -/
inductive RunsFrom (p : Personality) : Image → Session p.Cpu → Prop
  | start (image : Image) (settings : Settings) (host : Host) :
    RunsFrom p image (p.system.start image settings host)
  | startFile (image : Image) (settings : Settings) (host : Host)
    (arguments environment : List String) : RunsFrom p image
      ((p.system.start image settings host).mapMachine (p.system.layOut arguments environment))
  | ready {image s} (h : RunsFrom p image s) :
    RunsFrom p image (s.mapHost (p.system.installActions s.process.signals))
  | raise {image s} (h : RunsFrom p image s) (number : Int) :
    RunsFrom p image (s.mapHost fun h => { h with signals := h.signals.raise number })
  | pending {image s signal host} (h : RunsFrom p image s)
    (hPending : p.system.takePending s.host = some (signal, host)) :
    RunsFrom p image (s.withHost host)
  | handler {image s} (h : RunsFrom p image s) (handler : UInt16) :
    RunsFrom p image (System.enterHandler handler s)
  | restored {image other s t} (hSaved : RunsFrom p image s) (h : RunsFrom p other t) :
    RunsFrom p other (t.mapCpu fun _ => s.cpu)
  | instruction {image s} (h : RunsFrom p image s) : RunsFrom p image (System.advance s).1
  | state {image s} (h : RunsFrom p image s) (state : RunState) :
    RunsFrom p image (s.setState state)
  | answer {image s t run trap result} (h : RunsFrom p image s)
    (hAnswer : p.system.answer run trap s = some (t, result)) :
    RunsFrom p (s.imageAfter p.system.toConventions (p.execPath? trap s) image) t
  | execute {image s} (h : RunsFrom p image s) (path : String) :
    RunsFrom p (s.imageAfter p.system.toConventions (some path) image)
      (s.execute p.system.toConventions path).2
  | child {image s} (h : RunsFrom p image s) (trap : UInt16) :
    RunsFrom p image (p.forkedChild trap s)

variable {p : Personality}

/-- Whatever comes after a session comes up in a process that runs some image. -/
theorem RunsFrom.enginePreorder : EnginePreorder p.system fun s t =>
    ∀ image, p.RunsFrom image s → ∃ later, p.RunsFrom later t where
  refl _ image h := ⟨image, h⟩
  trans first second image h := by
    obtain ⟨later, hLater⟩ := first image h
    exact second later hLater
  pending hPending image h := ⟨image, h.pending hPending⟩
  enter handler _ image h := ⟨image, h.handler handler⟩
  restored hHandled image h := by
    obtain ⟨later, hLater⟩ := hHandled image h
    exact ⟨later, .restored h hLater⟩
  advance _ image h := ⟨image, h.instruction⟩
  finish _ image h := ⟨image, h.state _⟩
  ready _ image h := ⟨image, h.ready⟩
  fail fault _ image h := ⟨image, h.state _⟩
  answer _ hAnswer image h := ⟨_, h.answer hAnswer⟩

/-- Whatever is asked of the engine leaves a process that runs an image. -/
theorem RunsFrom.performAll {image : Image} {ops : List (Nat × Operation)} {s t : Session p.Cpu}
    {responses : List Response} (h : p.RunsFrom image s)
    (hOps : Operation.performAll (Operation.perform p.system) ops s = some (t, responses)) :
    ∃ later, p.RunsFrom later t :=
  enginePreorder.performAll (fun path _ _ h => ⟨_, h.execute path⟩)
    (fun number _ image h => ⟨image, h.raise number⟩) hOps image h

/-- Every step inside an operation is taken in such a process: by the process itself, by one of its
handlers, or by a child of any depth. -/
theorem RunsFrom.stepsDuring {image : Image} {bound : Nat} {op : Operation} {s v : Session p.Cpu}
    (h : p.RunsFrom image s) (hSteps : p.StepsDuring bound s v op) :
    ∃ later, p.RunsFrom later v :=
  enginePreorder.stepsDuring id enginePreorder.trans (fun _ image h => ⟨image, (h.child _).ready⟩)
    hSteps image h

variable {P : Image → Machine p.Cpu → Prop}

theorem answer_kept (hP : ProgramInvariant p.noteStatus P) {image : Image} {run : Runner p.Cpu}
    {trap : UInt16} {s t : Session p.Cpu} {result : Except Fault Unit}
    (hAnswer : p.system.answer run trap s = some (t, result)) (h : P image s.process.machine) :
    P (s.imageAfter p.system.toConventions (p.execPath? trap s) image) t.process.machine := by
  cases p with
  | minix => exact Minix.answer_kept hP hAnswer h
  | unixV6Pdp11 => exact @UnixV6.answer_kept Pdp11.Cpu _ P hP image s run trap t result hAnswer h
  | unixV6I8086 => exact @UnixV6.answer_kept I8086.Cpu _ P hP image s run trap t result hAnswer h

theorem layOut_kept (hP : ProgramInvariant p.noteStatus P) {image : Image} {m : Machine p.Cpu}
    (arguments environment : List String) (h : P image m) :
    P image (p.system.layOut arguments environment m) := by
  cases p with
  | minix => exact hP.build arguments (some environment) h
  | unixV6Pdp11 => exact hP.build arguments none h
  | unixV6I8086 => exact hP.build arguments none h

theorem forkedChild_kept (hP : ProgramInvariant p.noteStatus P) {image : Image}
    {s : Session p.Cpu} (trap : UInt16) (h : P image s.process.machine) :
    P image (p.forkedChild trap s).process.machine := by
  cases p with
  | minix => exact hP.report .message _ (.ok 0) h
  | unixV6Pdp11 => exact hP.report .carry 0 (.ok 0) (hP.setIp _ h)
  | unixV6I8086 => exact hP.report .carry 0 (.ok 0) (hP.setIp _ h)

end Personality

/-- What is kept by every action holds of the machine of every session that comes up, for the image
that its program is from. -/
theorem ProgramInvariant.runsFrom {p : Personality} {P : Image → Machine p.Cpu → Prop}
    (hP : ProgramInvariant p.noteStatus P) {image : Image} {s : Session p.Cpu}
    (h : p.RunsFrom image s) : P image s.process.machine := by
  induction h with
  | start image => exact hP.fresh image
  | startFile image settings host arguments environment =>
      exact Personality.layOut_kept hP arguments environment (hP.fresh image)
  | ready _ ih => exact ih
  | raise _ number ih => exact ih
  | pending _ hPending ih => exact ih
  | handler _ handler ih => exact hP.enterHandler handler ih
  | restored _ _ ihSaved ih => exact hP.restored ihSaved ih
  | instruction _ ih => exact hP.advance ih
  | state _ state ih => exact ih
  | answer _ hAnswer ih => exact Personality.answer_kept hP hAnswer ih
  | execute _ path ih => exact hP.exec _ path ih
  | child _ trap ih => exact Personality.forkedChild_kept hP trap ih

end VintageUnix
