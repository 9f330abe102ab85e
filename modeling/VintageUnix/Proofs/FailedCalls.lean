import VintageUnix.Proofs.Outcomes

/-! Calls that fail have no effect besides the log, so that a program whose call fails finds
everything as it was at the trap, except the places where the system puts the error number. -/
namespace VintageUnix

variable {Cpu : Type} [Processor Cpu]

namespace Session

/-- If a call fails, then with nothing but the log changed. -/
def FailsCleanly {α : Type} (s : Session Cpu) (reply : Reply Cpu α) : Prop :=
  ∀ e, reply.1 = .error e → Logs s reply.2

theorem failsCleanly_conclude {α : Type} (s : Session Cpu) (call : String) (shown : α → String)
    (result : Except Errno (α × Session Cpu)) :
    FailsCleanly s (s.conclude call shown result) := by
  intro e hFailed
  cases result with
  | ok value => cases hFailed
  | error e => exact Logs.trace _ _ _ _ s

/-- What is done after a success does not matter to a failure. -/
theorem FailsCleanly.andThen {α β : Type} {s : Session Cpu} {reply : Reply Cpu α}
    (h : FailsCleanly s reply) (f : α → Session Cpu → β × Session Cpu) :
    FailsCleanly s (reply.andThen f) := by
  intro e hFailed
  obtain ⟨result, t⟩ := reply
  cases result with
  | ok a => cases hFailed
  | error e => exact h e rfl

theorem failsCleanly_execute (c : Conventions Cpu) (path : String) (s : Session Cpu) :
    FailsCleanly s (s.execute c path) := by
  intro e hFailed
  unfold execute at hFailed ⊢
  split at hFailed
  · cases hFailed
  · exact Logs.log _ _ _ s

/-- A program that cannot be loaded is logged twice, as a call and as a failure. -/
theorem FailsCleanly.of_logs {α : Type} {s t : Session Cpu} {reply : Reply Cpu α}
    (hLogs : Logs s t) (h : FailsCleanly t reply) : FailsCleanly s reply :=
  fun e hFailed => hLogs.trans (h e hFailed)

end Session

open Session (Logs FailsCleanly failsCleanly_conclude failsCleanly_execute)

namespace Minix

theorem failsCleanly_replaceAction (signal action oldAction : UInt16)
    (s : Session I8086.Cpu) : FailsCleanly s (replaceAction signal action oldAction s) := by
  intro e hFailed
  simp only [replaceAction] at hFailed ⊢
  generalize changeAction signal action s = changed at hFailed ⊢
  cases changed with
  | ok t => cases hFailed
  | error e => exact Logs.trace _ _ _ _ s

theorem OrdinaryCall.failsCleanly_perform (c : OrdinaryCall) (block : UInt16)
    (s : Session I8086.Cpu) : FailsCleanly s (c.perform block s) := by
  cases c with
  | openFile =>
      simp only [perform]
      split <;> exact failsCleanly_conclude _ _ _ _
  | wait => exact (failsCleanly_conclude _ _ _ _).andThen _
  | time => exact (failsCleanly_conclude _ _ _ _).andThen _
  | brk => exact (failsCleanly_conclude _ _ _ _).andThen _
  | stat => exact (failsCleanly_conclude _ _ _ _).andThen _
  | fstat => exact (failsCleanly_conclude _ _ _ _).andThen _
  | lseek =>
      simp only [perform]
      split
      · exact fun _ _ => .refl s
      · exact (failsCleanly_conclude _ _ _ _).andThen _
  | sigaction => exact failsCleanly_replaceAction _ _ _ s
  | _ => exact failsCleanly_conclude _ _ _ _

theorem failsCleanly_executeFrame (path : String) (frame size : UInt16)
    (s : Session I8086.Cpu) : FailsCleanly s (executeFrame path frame size s) :=
  .of_logs (.trace _ _ _ _ s) ((failsCleanly_execute _ _ _).andThen _)

/-- Every way to an error reply leaves the session alone. A fork has none. -/
theorem logs_of_perform_error {run : Runner I8086.Cpu} {block : UInt16}
    {s u : Session I8086.Cpu} {e : Errno}
    (hFailed : perform run block s = some (.reply (.error e) u)) : Logs s u := by
  unfold perform at hFailed
  simp only at hFailed
  split at hFailed
  next call _ =>
    cases call with
    | exit => cases hFailed
    | fork =>
        obtain ⟨⟨result, t⟩, hFork, hReply⟩ := Option.map_eq_some_iff.1 hFailed
        obtain ⟨ended, -, hEnded⟩ := Option.map_eq_some_iff.1 hFork
        cases hEnded
        cases hReply
    | exec =>
        simp only [Call.perform] at hFailed
        split at hFailed
        next t hExec => cases hFailed
        next e' t hExec =>
          cases hFailed
          have hClean := failsCleanly_executeFrame _ _ _ s e (congrArg Prod.fst hExec)
          rwa [hExec] at hClean
    | ordinary c =>
        simp only [Call.perform, Option.some.injEq, Completion.reply.injEq] at hFailed
        obtain ⟨hResult, rfl⟩ := hFailed
        exact c.failsCleanly_perform block s e hResult
  next =>
    split at hFailed <;> cases hFailed

end Minix

namespace UnixV6

variable {Cpu : Type} [Platform Cpu]

theorem OrdinaryCall.failsCleanly_perform (c : OrdinaryCall) (arguments : Arguments)
    (s : Session Cpu) : FailsCleanly s (c.perform arguments s) := by
  cases c with
  | wait => exact (failsCleanly_conclude _ _ _ _).andThen _
  | stat => exact (failsCleanly_conclude _ _ _ _).andThen _
  | seek =>
      simp only [perform]
      split
      · exact fun _ _ => .refl s
      · exact (failsCleanly_conclude _ _ _ _).andThen _
  | _ => exact failsCleanly_conclude _ _ _ _

theorem failsCleanly_execute (path : String) (vector : UInt16) (s : Session Cpu) :
    FailsCleanly s (execute path vector s) :=
  .of_logs (.trace _ _ _ _ s) ((Session.failsCleanly_execute _ _ _).andThen _)

/-- Every way to an error reply leaves the session alone, and goes on behind the
words that belong to the call. -/
theorem logs_of_performDirect_error {run : Runner Cpu} {number skipped skip : UInt16}
    {arguments : Arguments} {s u : Session Cpu} {e : Errno}
    (hFailed : performDirect run number arguments skipped s = some (.reply (.error e) skip u)) :
    Logs s u ∧ skip = inlineBytes number := by
  simp only [performDirect] at hFailed
  split at hFailed
  next => split at hFailed <;> cases hFailed
  next =>
    cases hFailed
    exact ⟨.refl s, rfl⟩
  next => cases hFailed
  next =>
    obtain ⟨⟨result, t⟩, hFork, hReply⟩ := Option.map_eq_some_iff.1 hFailed
    obtain ⟨ended, -, hEnded⟩ := Option.map_eq_some_iff.1 hFork
    cases hEnded
    cases hReply
  next =>
    split at hFailed
    next t hExec => cases hFailed
    next e' t hExec =>
      cases hFailed
      have hClean := failsCleanly_execute _ _ s e (congrArg Prod.fst hExec)
      exact ⟨by rwa [hExec] at hClean, rfl⟩
  next c _ =>
    simp only [Option.some.injEq, Completion.reply.injEq] at hFailed
    obtain ⟨hResult, hSkip, rfl⟩ := hFailed
    exact ⟨c.failsCleanly_perform arguments s e hResult, hSkip.symm⟩

theorem indirectSkip_error (number : UInt16) (e : Errno) :
    indirectSkip number (.error e) = inlineBytes 0 := by
  unfold indirectSkip
  split
  next h => cases h
  next => rfl

/-- An indirect call that fails skips the words of the trap, not those of the call
that it stands for. -/
theorem logs_of_perform_error {run : Runner Cpu} {trap skip : UInt16} {s u : Session Cpu}
    {e : Errno} (hFailed : perform run trap s = some (.reply (.error e) skip u)) :
    Logs s u ∧ skip = inlineBytes trap := by
  simp only [perform] at hFailed
  split at hFailed
  next hIndirect =>
    obtain ⟨completion, hInner, hReply⟩ := Option.map_eq_some_iff.1 hFailed
    cases completion with
    | reply result innerSkip t =>
        simp only [Completion.reply.injEq] at hReply
        obtain ⟨rfl, rfl, rfl⟩ := hReply
        obtain ⟨hLogs, -⟩ := logs_of_performDirect_error hInner
        refine ⟨hLogs, ?_⟩
        rw [hIndirect, indirectSkip_error]
    | final t => cases hReply
    | fault f t => cases hReply
  next => exact logs_of_performDirect_error hFailed

end UnixV6

/-- The second session has the given registers and memory, and otherwise comes from
the first by logging only. -/
structure Session.ReturnsTo (s : Session Cpu) (cpu : Cpu) (memory : AddressSpace)
    (t : Session Cpu) : Prop where
  process : t.process = { s.process with machine := { cpu, memory } }
  host : t.host = { s.host with journal := t.host.journal }

/-- A session that has only been logged, with another machine. -/
theorem Session.Logs.returnsTo {s u : Session Cpu} (h : Logs s u)
    (f : Machine Cpu → Machine Cpu) :
    s.ReturnsTo (f s.process.machine).cpu (f s.process.machine).memory (u.mapMachine f) := by
  refine ⟨?_, h.host⟩
  change { u.process with machine := f u.process.machine } = _
  rw [h.process]

/-- Every call that gives an error number to the program, on every system and also
through an indirect call, changes only the places where the error number goes. On Minix
these are the word at `bx + 2` and `ax`; on Unix V6 the accumulator, the carry and
the instruction pointer. Descriptors, streams, files, signals, finished children and the
decoded instructions are all as they were. -/
theorem failed_call_changes_only_reply :
    (∀ (run : Runner I8086.Cpu) (s u : Session I8086.Cpu) (e : Errno),
      Minix.perform run (s.cpu.get .bx) s = some (.reply (.error e) u) →
      ∃ t, Minix.system.answer run Minix.messageTrap s = some (t, .ok ()) ∧
        s.ReturnsTo (s.cpu.set .ax 0)
          (s.memory.setWord (s.cpu.get .bx + 2) (0 - e.word)) t) ∧
    (∀ (run : Runner Pdp11.Cpu) (trap skip : UInt16) (s u : Session Pdp11.Cpu) (e : Errno),
      UnixV6.perform run trap s = some (.reply (.error e) skip u) →
      ∃ t, UnixV6.system.answer run trap s = some (t, .ok ()) ∧
        s.ReturnsTo (((s.cpu.set .r0 e.word).putCode .carry true).set .pc
          (s.cpu.get .pc + UnixV6.inlineBytes trap)) s.memory t) ∧
    (∀ (run : Runner I8086.Cpu) (trap skip : UInt16) (s u : Session I8086.Cpu) (e : Errno),
      UnixV6.perform run trap s = some (.reply (.error e) skip u) →
      ∃ t, UnixV6.system.answer run trap s = some (t, .ok ()) ∧
        s.ReturnsTo { (s.cpu.set .ax e.word).putFlag .carry true with
          ip := s.cpu.ip + UnixV6.inlineBytes trap } s.memory t) := by
  refine ⟨?_, ?_, ?_⟩
  · intro run s u e hFailed
    have hLogs := Minix.logs_of_perform_error hFailed
    exact ⟨_, Minix.answer_of_reply hFailed,
      hLogs.returnsTo (ReplyConvention.message.report (s.cpu.get .bx) (.error e))⟩
  · intro run trap skip s u e hFailed
    obtain ⟨hLogs, rfl⟩ := UnixV6.logs_of_perform_error hFailed
    exact ⟨_, UnixV6.answer_of_reply hFailed,
      hLogs.returnsTo (·.mapCpu (UnixV6.resume (.error e) (UnixV6.inlineBytes trap)))⟩
  · intro run trap skip s u e hFailed
    obtain ⟨hLogs, rfl⟩ := UnixV6.logs_of_perform_error hFailed
    exact ⟨_, UnixV6.answer_of_reply hFailed,
      hLogs.returnsTo (·.mapCpu (UnixV6.resume (.error e) (UnixV6.inlineBytes trap)))⟩

/-- An image of zeros with the word 54 at address 2. -/
private abbrev ioctlImage : Image where
  memory := AddressSpace.shared.setWord 2 54
  entry := 0
  format := .raw

/-- An image of zeros. -/
private abbrev zeroImage : Image where
  memory := .shared
  entry := 0
  format := .raw

private theorem perform_ioctlImage (run : Runner I8086.Cpu) :
    Minix.perform run 0 (Minix.conventions.start ioctlImage {} {}) =
      some (.reply (.error .invalidArgument) (Minix.conventions.start ioctlImage {} {})) := by
  have hMemory : (Minix.conventions.start ioctlImage {} {}).memory =
      AddressSpace.shared.setWord (0 + 2) 54 := rfl
  unfold Minix.perform
  simp only [hMemory, AddressSpace.word_setWord]
  rfl

private theorem perform_zeroImage {Cpu : Type} [UnixV6.Platform Cpu] (run : Runner Cpu) :
    UnixV6.perform run 0 (UnixV6.conventions.start zeroImage {} {}) =
      some (.reply (.error .invalidArgument) 2 (UnixV6.conventions.start zeroImage {} {})) := by
  have hText (a : UInt16) : AddressSpace.shared.textWord a = 0 := by
    simp [AddressSpace.textWord, AddressSpace.text, AddressSpace.shared, Segment.get_zero,
      Word.ofBytes]
  have hByte (a : UInt16) : AddressSpace.shared.byte a = 0 := Segment.get_zero a
  have hMemory : (UnixV6.conventions.start zeroImage {} {} : Session Cpu).memory = .shared := rfl
  simp only [UnixV6.perform, UnixV6.Arguments.word, hMemory, hText, hByte, if_true]
  rfl

/-- On Minix an ioctl, and on Unix V6 an indirect call of an indirect call. -/
theorem failed_call_changes_only_reply_ioctl_indir :
    (∃ t, Minix.system.answer (fun _ => none) Minix.messageTrap
        (Minix.conventions.start ioctlImage {} {}) = some (t, .ok ()) ∧
      (Minix.conventions.start ioctlImage {} {}).ReturnsTo {}
        (ioctlImage.memory.setWord 2 (0 - Errno.invalidArgument.word)) t) ∧
    (∃ t, UnixV6.system.answer (fun _ => none) 0
        (UnixV6.conventions.start zeroImage {} {}) = some (t, .ok ()) ∧
      (UnixV6.conventions.start zeroImage {} {}).ReturnsTo
        (((({} : Pdp11.Cpu).set .r0 22).putCode .carry true).set .pc 2) .shared t) ∧
    (∃ t, UnixV6.system.answer (fun _ => none) 0
        (UnixV6.conventions.start zeroImage {} {}) = some (t, .ok ()) ∧
      (UnixV6.conventions.start zeroImage {} {}).ReturnsTo
        { ((({} : I8086.Cpu).set .ax 22).putFlag .carry true) with ip := 2 } .shared t) := by
  refine ⟨?_, ?_, ?_⟩
  · exact failed_call_changes_only_reply.1 _ _ _ _ (perform_ioctlImage _)
  · exact failed_call_changes_only_reply.2.1 _ _ _ _ _ _ (perform_zeroImage _)
  · exact failed_call_changes_only_reply.2.2 _ _ _ _ _ _ (perform_zeroImage _)

end VintageUnix
