import VintageUnix.Proofs.InnerSteps
import VintageUnix.Proofs.IndirectCalls

/-! What becomes of registers while a signal is delivered. A handler runs until the process is where
the signal has interrupted it, with the stack as it was there, and only that is looked at. -/
namespace VintageUnix

open VintageUnix.System (handlerLoop enterHandler)

section Engine

variable {Cpu : Type} [Processor Cpu]

/-- So many steps of a handler that was entered from a place in the program. None of them is
taken after the handler has come to its end. -/
inductive System.Handles (step : System.Stepper Cpu) (ip sp : UInt16) :
    (count : Nat) → Session Cpu → Session Cpu → Prop
  | refl (s) : Handles step ip sp 0 s s
  | head {s t u count} (hInside : handlerLoop.ended ip sp s = false)
    (hStep : step s = some (t, .ok ())) (hRest : Handles step ip sp count t u) :
    Handles step ip sp (count + 1) s u

namespace System.Handles

variable {step : System.Stepper Cpu} {ip sp : UInt16} {count : Nat} {s t u : Session Cpu}

theorem trans {more : Nat} (first : Handles step ip sp count s t)
    (second : Handles step ip sp more t u) : Handles step ip sp (count + more) s u := by
  induction first with
  | refl s => rwa [Nat.zero_add]
  | @head s t _ count hInside hStep _ ih =>
      rw [Nat.add_right_comm]
      exact .head hInside hStep (ih second)

theorem single (hInside : handlerLoop.ended ip sp s = false) (hStep : step s = some (t, .ok ())) :
    Handles step ip sp 1 s t :=
  .head hInside hStep (.refl t)

/-- The steps of a handler are those of the process. -/
theorem follows (h : Handles step ip sp count s t) : System.Follows step s t := by
  induction h with
  | refl s => exact .refl
  | head hInside hStep _ ih => exact .head hStep ih

/-- The loop goes on from where the steps have come. -/
theorem handlerLoop_add (h : Handles step ip sp count s t) (limit : Nat) :
    handlerLoop step ip sp (count + limit) s = handlerLoop step ip sp limit t := by
  induction h with
  | refl s => rw [Nat.zero_add]
  | @head s t _ count hInside hStep _ ih =>
      rw [Nat.add_right_comm, handlerLoop, hInside, hStep]
      exact ih

theorem handlerLoop_of_ended (hEnded : handlerLoop.ended ip sp s = true) (limit : Nat) :
    handlerLoop step ip sp limit s = some (s, .ok ()) := by
  cases limit <;> simp only [handlerLoop, hEnded, if_true]

/-- A loop that gives a result has taken all the steps that there are. -/
theorem exists_limit {limit : Nat} {x : Session Cpu × Except Fault Unit}
    (h : Handles step ip sp count s t) (hLoop : handlerLoop step ip sp limit s = some x) :
    ∃ rest, handlerLoop step ip sp rest t = some x := by
  induction h generalizing limit with
  | refl s => exact ⟨limit, hLoop⟩
  | head hInside hStep _ ih =>
      cases limit with
      | zero =>
          simp only [handlerLoop, hInside] at hLoop
          cases hLoop
      | succ limit =>
          simp only [handlerLoop, hInside, hStep] at hLoop
          exact ih hLoop

end System.Handles

/-- How a handler ends: the process is over, it is back where it was interrupted, or a step
faults. -/
inductive System.EndsHandler (step : System.Stepper Cpu) (ip sp : UInt16) (s : Session Cpu) :
    Session Cpu → Except Fault Unit → Prop
  | stopped {count t} (hSteps : Handles step ip sp count s t) (hOver : t.isRunning = false) :
    EndsHandler step ip sp s t (.ok ())
  | returned {count t} (hSteps : Handles step ip sp count s t) (hRunning : t.isRunning = true)
    (hIp : Processor.ip t.cpu = ip) (hSp : StackPointer.sp t.cpu = sp) :
    EndsHandler step ip sp s t (.ok ())
  | faulted {count t u fault} (hSteps : Handles step ip sp count s t)
    (hFault : step t = some (u, .error fault)) : EndsHandler step ip sp s u (.error fault)

theorem System.EndsHandler.head {step : System.Stepper Cpu} {ip sp : UInt16} {s t u : Session Cpu}
    {result : Except Fault Unit} (hInside : handlerLoop.ended ip sp s = false)
    (hStep : step s = some (t, .ok ())) (h : EndsHandler step ip sp t u result) :
    EndsHandler step ip sp s u result := by
  cases h with
  | stopped hSteps hOver => exact .stopped (.head hInside hStep hSteps) hOver
  | returned hSteps hRunning hIp hSp =>
      exact .returned (.head hInside hStep hSteps) hRunning hIp hSp
  | faulted hSteps hFault => exact .faulted (.head hInside hStep hSteps) hFault

theorem System.EndsHandler.of_ended {step : System.Stepper Cpu} {ip sp : UInt16} {s : Session Cpu}
    (hEnded : handlerLoop.ended ip sp s = true) : EndsHandler step ip sp s s (.ok ()) := by
  unfold handlerLoop.ended at hEnded
  cases hRunning : s.isRunning with
  | false => exact .stopped (.refl s) hRunning
  | true =>
      simp only [hRunning, Bool.not_true, Bool.false_or, Bool.and_eq_true,
        decide_eq_true_eq] at hEnded
      exact .returned (.refl s) hRunning hEnded.1 hEnded.2

theorem System.endsHandler_of_handlerLoop {step : System.Stepper Cpu} {ip sp : UInt16}
    {limit : Nat} {s t : Session Cpu} {result : Except Fault Unit}
    (h : handlerLoop step ip sp limit s = some (t, result)) :
    EndsHandler step ip sp s t result := by
  induction limit generalizing s with
  | zero =>
      simp only [handlerLoop] at h
      split at h <;> cases h
      next hEnded => exact .of_ended hEnded
  | succ limit ih =>
      simp only [handlerLoop] at h
      split at h
      next hEnded =>
        cases h
        exact .of_ended hEnded
      next hInside =>
        have hInside := Bool.eq_false_iff.2 hInside
        split at h
        next u hStep => exact (ih h).head hInside hStep
        next hOther =>
          cases result with
          | ok _ => exact absurd h (hOther t)
          | error fault => exact .faulted (.refl s) h

/-- A delivery goes on from where the steps of the handler have come. It puts the registers
back if the process is back where it was interrupted, and in no other case. -/
theorem System.deliver_of_handles {sys : System Cpu} {bound count : Nat} {signal handler : UInt16}
    {s u t : Session Cpu} {result : Except Fault Unit}
    (hHandler : sys.disposition (s.process.signals.get signal).handler = .catch handler)
    (hHandles : Handles (sys.step bound) (Processor.ip s.cpu) (StackPointer.sp s.cpu) count
      (enterHandler handler s) u)
    (hDeliver : sys.deliver bound signal s = some (t, result)) :
    ∃ v, EndsHandler (sys.step bound) (Processor.ip s.cpu) (StackPointer.sp s.cpu) u v result ∧
      t = if result.isOk && v.isRunning then v.mapCpu fun _ => s.cpu else v := by
  simp only [deliver, deliverWith, hHandler] at hDeliver
  split at hDeliver
  next v hLoop =>
    cases hDeliver
    obtain ⟨rest, hRest⟩ := hHandles.exists_limit hLoop
    exact ⟨v, endsHandler_of_handlerLoop hRest, rfl⟩
  next hOther =>
    obtain ⟨rest, hRest⟩ := hHandles.exists_limit hDeliver
    cases result with
    | ok _ => exact absurd hDeliver (hOther t)
    | error fault => exact ⟨t, endsHandler_of_handlerLoop hRest, rfl⟩

/-- A delivery succeeds if the steps of the handler come to its end. -/
theorem System.deliver_of_ended {sys : System Cpu} {bound count : Nat} {signal handler : UInt16}
    {s u : Session Cpu}
    (hHandler : sys.disposition (s.process.signals.get signal).handler = .catch handler)
    (hHandles : Handles (sys.step bound) (Processor.ip s.cpu) (StackPointer.sp s.cpu) count
      (enterHandler handler s) u)
    (hEnded : handlerLoop.ended (Processor.ip s.cpu) (StackPointer.sp s.cpu) u = true)
    (hBound : count ≤ bound) :
    sys.deliver bound signal s =
      some (if u.isRunning then u.mapCpu fun _ => s.cpu else u, .ok ()) := by
  have hLoop : handlerLoop (sys.step bound) (Processor.ip s.cpu) (StackPointer.sp s.cpu) bound
      (enterHandler handler s) = some (u, .ok ()) := by
    have hRest := hHandles.handlerLoop_add (bound - count)
    rw [Nat.add_sub_cancel' hBound] at hRest
    exact hRest.trans (Handles.handlerLoop_of_ended hEnded _)
  simp only [deliver, deliverWith, hHandler, hLoop]

/-- A step answers the trap that its instruction takes. -/
theorem System.step_of_trap {sys : System Cpu} {bound : Nat} {trap : UInt16} {s t u : Session Cpu}
    (hExecutes : sys.ExecutesIn bound s t) (hTrap : System.advance t = (u, .ok (.trap trap))) :
    sys.step (bound + 1) s = sys.answer (sys.run bound) trap u := by
  have hNext : sys.executeNext (sys.run bound) t = sys.answer (sys.run bound) trap u := by
    simp only [executeNext, hTrap]
  change sys.stepWith (sys.run bound) (sys.deliver bound) s = _
  cases hExecutes with
  | undisturbed hPending => simpa only [stepWith, hPending] using hNext
  | handled hPending hHandled hRunning =>
      simp only [stepWith, hPending]
      have hDelivered := hHandled
      unfold Session.withHost at hDelivered
      simp only [hDelivered, hRunning, if_true]
      exact hNext

/-- The registers with which a program starts on its stack. All others are zero. -/
def Image.entryCpu (i : Image) (sp : UInt16) : Cpu :=
  Processor.setEntrySp (StackPointer.setSp (Processor.setIp Processor.reset i.entry) sp) sp

theorem Session.execute_of_load {c : Conventions Cpu} {path : String} {s : Session Cpu}
    {image : Image} (hLoad : c.loadFile s.host (s.process.hostPath path) = .ok image) :
    ∃ t, s.execute c path = (.ok (), t) ∧ t.process.machine = image.machine := by
  simp only [execute, hLoad]
  exact ⟨_, rfl, rfl⟩

theorem StackLayout.exists_sp_build (arguments : List String)
    (environment : Option (List String)) (m : Machine Cpu) :
    ∃ sp, (build arguments environment m).cpu =
      Processor.setEntrySp (StackPointer.setSp m.cpu sp) sp :=
  ⟨_, rfl⟩

end Engine

namespace Minix

/-- The frame is read before the program goes, and placed in the memory of the new one. -/
theorem executeFrame_of_load {path : String} (frame size : UInt16) {s : Session I8086.Cpu}
    {image : Image} (hLoad : conventions.loadFile s.host (s.process.hostPath path) = .ok image) :
    ∃ t, executeFrame path frame size s = (.ok (), t) ∧
      t.process.machine = placeFrame (s.memory.read frame size.toNat) image.machine := by
  let bytes := s.memory.read frame size.toNat
  let count := Word.ofBytes (bytes[0]?.getD 0) (bytes[1]?.getD 0)
  let text := "<exec(" ++ shownPath path ++ ") argc=" ++ shownWord count ++ ">"
  obtain ⟨t, hExecute, hMachine⟩ := Session.execute_of_load
    (((Session.Logs.trace .calls .debug .calls text s).loadFile conventions path).trans hLoad)
  let place (_ : Unit) (s : Session I8086.Cpu) := ((), s.mapMachine (placeFrame bytes))
  refine ⟨_, congrArg (Reply.andThen place) hExecute, ?_⟩
  change placeFrame bytes t.process.machine = _
  rw [hMachine]

/-- An exec that succeeds has no reply. -/
theorem answer_of_executeFrame {run : Runner I8086.Cpu} {s t : Session I8086.Cpu}
    (hCall : Call.ofNumber? (s.memory.word (s.cpu.get .bx + 2)) = some .exec)
    (hFrame : executeFrame (s.memory.stringAt (s.memory.word (s.cpu.get .bx + 10)))
      (s.memory.word (s.cpu.get .bx + 12)) (s.memory.word (s.cpu.get .bx + 6)) s = (.ok (), t)) :
    answer run messageTrap s = some (t, .ok ()) := by
  simp only [answer, ne_eq, not_true_eq_false, if_false, perform, hCall, Call.perform, hFrame]
  rfl

/-- A new program starts with nothing but its instruction pointer and its stack set. -/
theorem answer_of_replaces {run : Runner I8086.Cpu} {trap : UInt16} {s : Session I8086.Cpu}
    (hReplaces : Replaces trap s) :
    ∃ t path image sp, answer run trap s = some (t, .ok ()) ∧
      conventions.loadFile s.host path = .ok image ∧ t.cpu = image.entryCpu sp := by
  obtain ⟨rfl, hCall, image, hLoad⟩ := hReplaces
  obtain ⟨t, hFrame, hMachine⟩ := executeFrame_of_load
    (s.memory.word (s.cpu.get .bx + 12)) (s.memory.word (s.cpu.get .bx + 6)) hLoad
  exact ⟨t, _, image, _, answer_of_executeFrame hCall hFrame, hLoad,
    congrArg Machine.cpu hMachine⟩

end Minix

namespace UnixV6

variable {Cpu : Type} [Platform Cpu]

theorem execute_of_load {path : String} (vector : UInt16) {s : Session Cpu} {image : Image}
    (hLoad : (conventions : Conventions Cpu).loadFile s.host (s.process.hostPath path) =
      .ok image) :
    ∃ t, execute path vector s = (.ok (), t) ∧
      t.process.machine = StackLayout.build (s.memory.stringVector vector) none
        (image.machine.mapCpu (StackPointer.setSp · 0)) := by
  let arguments := s.memory.stringVector vector
  let text := "<exec(" ++ shownPath path ++ ", [" ++ Quoted.quoteAll arguments ++ "])>"
  obtain ⟨t, hExecute, hMachine⟩ := Session.execute_of_load
    (((Session.Logs.trace .calls .debug .calls text s).loadFile conventions path).trans hLoad)
  let start (m : Machine Cpu) : Machine Cpu :=
    StackLayout.build arguments none (m.mapCpu (StackPointer.setSp · 0))
  let place (_ : Unit) (s : Session Cpu) := ((), s.mapMachine start)
  refine ⟨_, congrArg (Reply.andThen place) hExecute, ?_⟩
  change start t.process.machine = _
  rw [hMachine]

/-- The strings are read before the program goes, and laid out in the memory of the new one. -/
theorem answer_of_exec [LawfulProcessor Cpu] {run : Runner Cpu} {trap : UInt16} {s : Session Cpu}
    {image : Image} (hCall : Call.ofNumber? (request trap s).1 = some .exec)
    (hLoad : (conventions : Conventions Cpu).loadFile s.host (s.process.hostPath
      (s.memory.stringAt ((request trap s).2.word s.memory 0))) = .ok image) :
    ∃ t, answer run trap s = some (t, .ok ()) ∧
      t.process.machine = (StackLayout.build
        (s.memory.stringVector ((request trap s).2.word s.memory 1)) none
        (image.machine.mapCpu (StackPointer.setSp · 0))).mapCpu (resume (.ok 0) 0) := by
  obtain ⟨t, hExecuted, hMachine⟩ :=
    execute_of_load ((request trap s).2.word s.memory 1) hLoad
  have hReply : perform run trap s = _ := perform_of_exec hCall
  rw [hExecuted] at hReply
  exact ⟨_, answer_of_reply hReply, congrArg (Machine.mapCpu (resume (.ok 0) 0)) hMachine⟩

/-- The stack pointer is zero before the stack of a new program is laid out. -/
theorem answer_of_replaces [LawfulProcessor Cpu] {run : Runner Cpu} {trap : UInt16}
    {s : Session Cpu} (hReplaces : Replaces trap s) :
    ∃ t path image sp, answer run trap s = some (t, .ok ()) ∧
      (conventions : Conventions Cpu).loadFile s.host path = .ok image ∧
      t.cpu = resume (.ok 0) 0 (Processor.setEntrySp (StackPointer.setSp
        (StackPointer.setSp (Processor.setIp Processor.reset image.entry) 0) sp) sp) := by
  obtain ⟨hCall, image, hLoad⟩ := hReplaces
  obtain ⟨t, hAnswer, hMachine⟩ := @answer_of_exec Cpu _ _ run _ _ _ hCall hLoad
  obtain ⟨sp, hCpu⟩ := StackLayout.exists_sp_build
    (s.memory.stringVector ((request trap s).2.word s.memory 1)) none
    ((image.machine : Machine Cpu).mapCpu (StackPointer.setSp · 0))
  refine ⟨t, _, image, sp, hAnswer, hLoad, ?_⟩
  exact (congrArg Machine.cpu hMachine).trans (congrArg (resume (.ok 0) 0) hCpu)

end UnixV6

namespace Personality

/-- An exec of a file that can be loaded gives the process the registers of a new program. Its
reply of zero without a carry changes none of them. -/
theorem answer_of_replaces (p : Personality) (run : Runner p.Cpu) {trap : UInt16}
    {s : Session p.Cpu} (hReplaces : p.Replaces trap s) :
    ∃ t path image sp, p.system.answer run trap s = some (t, .ok ()) ∧
      p.system.loadFile s.host path = .ok image ∧ t.cpu = image.entryCpu sp := by
  cases p with
  | minix => exact Minix.answer_of_replaces hReplaces
  | unixV6Pdp11 =>
      obtain ⟨t, path, image, sp, hAnswer, hLoad, hCpu⟩ := UnixV6.answer_of_replaces hReplaces
      refine ⟨t, path, image, sp, hAnswer, hLoad, hCpu.trans ?_⟩
      have hStatus : ({} : Pdp11.Status).put .carry false = {} := by decide
      simp only [UnixV6.resume, UInt16.add_zero]
      exact congrArg (fun status => ({ (({} : Pdp11.Cpu).set .pc image.entry).set .sp sp with
        status, entrySp := sp } : Pdp11.Cpu)) hStatus
  | unixV6I8086 =>
      obtain ⟨t, path, image, sp, hAnswer, hLoad, hCpu⟩ := UnixV6.answer_of_replaces hReplaces
      refine ⟨t, path, image, sp, hAnswer, hLoad, hCpu.trans ?_⟩
      have hFlags : ({} : I8086.Flags).put .carry false = {} := by decide
      simp only [UnixV6.resume, UInt16.add_zero]
      exact congrArg (fun flags => ({ ({} : I8086.Cpu).set .sp sp with
        ip := image.entry, flags, entrySp := sp } : I8086.Cpu)) hFlags

end Personality

/-- When the handler of a signal replaces the program, the new one starts with its own registers
and goes on with them for as long as it is not where the old one was interrupted, with
the stack pointer as it was. There the delivery takes it for the return of the handler and
puts the registers of the old program back: they are what every delivery leaves that returns
with the process running. -/
theorem handler_exec_keeps_registers_until_return (p : Personality) {bound count : Nat}
    {signal handler trap : UInt16} {s t u v w : Session p.Cpu} {result : Except Fault Unit}
    (hHandler : p.system.disposition (s.process.signals.get signal).handler = .catch handler)
    (hHandles : System.Handles (p.system.step (bound + 1)) (Processor.ip s.cpu)
      (StackPointer.sp s.cpu) count (enterHandler handler s) u)
    (hInside : handlerLoop.ended (Processor.ip s.cpu) (StackPointer.sp s.cpu) u = false)
    (hExecutes : p.system.ExecutesIn bound u v)
    (hTrap : System.advance v = (w, .ok (.trap trap))) (hReplaces : p.Replaces trap w)
    (hDeliver : p.system.deliver (bound + 1) signal s = some (t, result)) :
    ∃ x path image sp, p.system.step (bound + 1) u = some (x, .ok ()) ∧
      p.system.loadFile w.host path = .ok image ∧ x.cpu = image.entryCpu sp ∧
      ∃ y steps, System.Handles (p.system.step (bound + 1)) (Processor.ip s.cpu)
          (StackPointer.sp s.cpu) steps x y ∧
        ((result = .ok () ∧ y.isRunning = true ∧ Processor.ip y.cpu = Processor.ip s.cpu ∧
            StackPointer.sp y.cpu = StackPointer.sp s.cpu ∧ t = y.mapCpu fun _ => s.cpu) ∨
          (result = .ok () ∧ y.isRunning = false ∧ t = y) ∨
          ∃ fault, result = .error fault ∧
            p.system.step (bound + 1) y = some (t, .error fault)) := by
  obtain ⟨x, path, image, sp, hAnswer, hLoad, hCpu⟩ :=
    p.answer_of_replaces (p.system.run bound) hReplaces
  have hStep : p.system.step (bound + 1) u = some (x, .ok ()) :=
    (System.step_of_trap hExecutes hTrap).trans hAnswer
  refine ⟨x, path, image, sp, hStep, hLoad, hCpu, ?_⟩
  obtain ⟨y, hEnds, hLeft⟩ :=
    System.deliver_of_handles hHandler (hHandles.trans (.single hInside hStep)) hDeliver
  cases hEnds with
  | stopped hSteps hOver =>
      rw [hOver, Bool.and_false] at hLeft
      exact ⟨y, _, hSteps, .inr (.inl ⟨rfl, hOver, hLeft⟩)⟩
  | returned hSteps hRunning hIp hSp =>
      rw [hRunning] at hLeft
      exact ⟨y, _, hSteps, .inl ⟨rfl, hRunning, hIp, hSp, hLeft⟩⟩
  | @faulted _ last _ fault hSteps hFault =>
      obtain rfl : t = y := hLeft
      exact ⟨last, _, hSteps, .inr (.inr ⟨fault, rfl, hFault⟩)⟩

/-- A program that counts in a register and then stays where it is. Its handler executes the
file `a`. -/
private abbrev countingProgram : List UInt8 :=
  [0x85, 0x0a, 0xff, 0x01, 0x0b, 0x89, 0x0a, 0x00, 0x0c, 0x00, 0x61, 0x00, 0x00, 0x00]

/-- The program in that file, interrupted with another count and with a byte behind its
strings that the file does not have. -/
private abbrev pdp11Interrupted : Session Personality.unixV6Pdp11.Cpu :=
  let started := (UnixV6.conventions : Conventions Pdp11.Cpu).start
    { memory := AddressSpace.shared.write 0 (countingProgram ++ [1]), entry := 2, format := .raw }
    {} { tree := { inodes := #[⟨0o755, .directory 0 [("a", 1)]⟩, ⟨0o644, .file countingProgram⟩] } }
  (started.mapCpu fun c => (c.set .sp 0xfffe).set .r5 77).setHandler UnixV6.conventions 2 4 |>.2

/-- The handler at its exec. -/
private abbrev pdp11Executing : Session Pdp11.Cpu :=
  (System.advance (enterHandler 4 pdp11Interrupted)).1

theorem ok_of_toOption {ε α : Type} {x : Except ε α} {a : α} (h : x.toOption = some a) :
    x = .ok a := by
  cases x <;> cases h
  rfl

private theorem replaces_pdp11Executing : UnixV6.Replaces 11 pdp11Executing := by
  have hLoads : ((UnixV6.conventions : Conventions Pdp11.Cpu).loadFile pdp11Executing.host
      (pdp11Executing.process.hostPath (pdp11Executing.memory.stringAt
        ((UnixV6.request 11 pdp11Executing).2.word pdp11Executing.memory 0)))).toOption.isSome =
      true := by
    decide +kernel
  obtain ⟨image, hImage⟩ := Option.isSome_iff_exists.1 hLoads
  exact ⟨rfl, image, ok_of_toOption hImage⟩

/-- The program is replaced by itself, and after one step its registers are put back. -/
theorem handler_exec_keeps_registers_until_return_loop :
    ∃ x t, Personality.unixV6Pdp11.system.step 3 (enterHandler 4 pdp11Interrupted) =
        some (x, .ok ()) ∧
      (∃ image : Image, ∃ sp, x.cpu = image.entryCpu sp) ∧
      Personality.unixV6Pdp11.system.deliver 3 2 pdp11Interrupted = some (t, .ok ()) ∧
      t.cpu = pdp11Interrupted.cpu := by
  have hDelivers : (Personality.unixV6Pdp11.system.deliver 3 2 pdp11Interrupted).map
      (fun y => (y.2.toOption, y.1.isRunning)) = some (some (), true) := by
    decide +kernel
  have hTrap : (System.advance (enterHandler 4 pdp11Interrupted)).2 = .ok (.trap 11) :=
    ok_of_toOption (by decide +kernel)
  have hInside : handlerLoop.ended (Processor.ip pdp11Interrupted.cpu)
      (StackPointer.sp pdp11Interrupted.cpu) (enterHandler 4 pdp11Interrupted) = false := by
    decide +kernel
  have hHandler : Personality.unixV6Pdp11.system.disposition
      (pdp11Interrupted.process.signals.get 2).handler = .catch 4 := by
    decide +kernel
  obtain ⟨⟨t, result⟩, hDeliver, hEnd⟩ := Option.map_eq_some_iff.1 hDelivers
  obtain ⟨x, -, image, sp, hStep, -, hEntry, y, -, -, hEnds⟩ :=
    handler_exec_keeps_registers_until_return .unixV6Pdp11 hHandler (.refl _) hInside
      (.undisturbed rfl) (Prod.ext rfl hTrap) replaces_pdp11Executing hDeliver
  refine ⟨x, t, hStep, ⟨image, sp, hEntry⟩, ?_⟩
  rcases hEnds with ⟨rfl, -, -, -, rfl⟩ | ⟨rfl, hOver, rfl⟩ | ⟨fault, rfl, -⟩
  · exact ⟨hDeliver, rfl⟩
  · rw [hOver] at hEnd
    cases hEnd
  · cases hEnd

/-- The count in the new program is the old one, although it starts from zero and the old
program is gone. -/
theorem handler_exec_puts_old_registers_back :
    (Personality.unixV6Pdp11.system.step 3 (enterHandler 4 pdp11Interrupted)).map
        (fun x => (x.1.memory.byte 14, Pdp11.Cpu.get x.1.cpu .r5)) = some (0, 0) ∧
      (Personality.unixV6Pdp11.system.deliver 3 2 pdp11Interrupted).map
        (fun x => (x.1.memory.byte 14, x.1.isRunning, Pdp11.Cpu.get x.1.cpu .r5)) =
      some (0, true, 77) := by
  decide +kernel

end VintageUnix
