import VintageUnix.Proofs.ProcessorLaws

/-! What an instruction and what a call can come to: how a result becomes a reply, what is logged on
the way, and where the two systems put the reply. -/
namespace VintageUnix

open AddressSpace (Stores)

variable {Cpu : Type} [Processor Cpu]

namespace Session

/-- Between the two sessions something was logged, and nothing else happened. -/
structure Logs (s t : Session Cpu) : Prop where
  process : t.process = s.process
  host : t.host = { s.host with journal := t.host.journal }

namespace Logs

theorem refl (s : Session Cpu) : Logs s s :=
  ⟨rfl, rfl⟩

theorem trans {s t u : Session Cpu} (first : Logs s t) (second : Logs t u) : Logs s u := by
  refine ⟨second.process.trans first.process, ?_⟩
  rw [second.host, first.host]

theorem log (level : Level) (topic : Topic) (text : String) (s : Session Cpu) :
    Logs s (s.log level topic text) :=
  ⟨rfl, rfl⟩

theorem trace (least : Trace) (level : Level) (topic : Topic) (text : String)
    (s : Session Cpu) : Logs s (s.trace least level topic text) := by
  unfold Session.trace
  split
  · exact log level topic text s
  · exact refl s

end Logs

/-- The second session comes from the first by an instruction, as far as anything but the
processor can tell. -/
structure Advances (s t : Session Cpu) : Prop where
  stores : Stores s.memory t.memory
  process : t.process =
    { s.process with machine := t.process.machine, cache := t.process.cache }
  host : t.host = { s.host with journal := t.host.journal }

theorem Advances.refl (s : Session Cpu) : Advances s s :=
  ⟨.refl _, rfl, rfl⟩

theorem Advances.trans {s t u : Session Cpu} (first : Advances s t) (second : Advances t u) :
    Advances s u := by
  refine ⟨first.stores.trans second.stores, ?_, ?_⟩
  · rw [second.process, first.process]
  · rw [second.host, first.host]

theorem Advances.logs {s t u : Session Cpu} (h : Advances s t) (hLogs : Logs t u) :
    Advances s u := by
  refine ⟨?_, ?_, ?_⟩
  · simpa only [memory, hLogs.process] using h.stores
  · rw [hLogs.process]
    exact h.process
  · rw [hLogs.host, h.host]

theorem Advances.mapMachine {s t : Session Cpu} (h : Advances s t)
    {f : Machine Cpu → Machine Cpu} (hStores : Stores t.memory (f t.process.machine).memory) :
    Advances s (t.mapMachine f) := by
  refine ⟨h.stores.trans hStores, ?_, h.host⟩
  simp only [Session.mapMachine, mapProcess]
  rw [h.process]

end Session

/-- Whatever an instruction comes to, it leaves the text, the descriptors, the signals and
the host alone. A trap is not answered yet. -/
theorem System.advances_advance [LawfulProcessor Cpu] (s : Session Cpu) :
    s.Advances (advance s).1 := by
  have hFetched : s.Advances { s with process := s.process.fetch.2 } := ⟨.refl _, rfl, rfl⟩
  have hTraced (registers instruction : String) :=
    (hFetched.logs (.trace .registers .trace .registers registers _)).logs
      (.trace .instructions .trace .execution instruction _)
  have hExecuted (registers instruction : String) (c : Cpu) :=
    (hTraced registers instruction).mapMachine
      (f := fun m => (Processor.execute s.process.fetch.1 (m.mapCpu fun _ => c)).1)
      (LawfulProcessor.stores_execute _ _)
  simp only [advance]
  split
  · exact (hTraced _ _).logs (.log _ _ _ _)
  · split
    · exact hExecuted _ _ _
    · exact (hExecuted _ _ _).logs (.log _ _ _ _)

theorem Session.conclude_ok {α : Type} {s u : Session Cpu} {call : String}
    {shown : α → String} {result : Except Errno (α × Session Cpu)} {value : α}
    (h : s.conclude call shown result = (.ok value, u)) :
    ∃ t, result = .ok (value, t) ∧ Session.Logs t u := by
  cases result with
  | error e => cases h
  | ok a =>
      cases h
      exact ⟨a.2, rfl, .trace _ _ _ _ _⟩

/-- A sequence that succeeds has succeeded in its first part. -/
theorem Except.of_bind_eq_ok {ε α β : Type} {first : Except ε α} {next : α → Except ε β}
    {final : β} (hBind : (first >>= next) = .ok final) :
    ∃ value, first = .ok value ∧ next value = .ok final := by
  cases first with
  | ok value => exact ⟨value, rfl, hBind⟩
  | error e => cases hBind

theorem Except.of_map_eq_ok {ε α β : Type} {result : Except ε α} {f : α → β} {final : β}
    (hMap : result.map f = .ok final) : ∃ value, result = .ok value ∧ f value = final := by
  cases result with
  | ok value => exact ⟨value, rfl, Except.ok.inj hMap⟩
  | error e => cases hMap

theorem Reply.andThen_ok {α β : Type} {f : α → Session Cpu → β × Session Cpu}
    {reply : Reply Cpu α} {b : β} {u : Session Cpu} (h : reply.andThen f = (.ok b, u)) :
    ∃ a t, reply = (.ok a, t) ∧ f a t = (b, u) := by
  obtain ⟨result, t⟩ := reply
  cases result with
  | error e => cases h
  | ok a =>
      cases h
      exact ⟨a, t, rfl, rfl⟩

theorem Session.Logs.loadFile {s t : Session Cpu} (h : Logs s t) (c : Conventions Cpu)
    (path : String) :
    c.loadFile t.host (t.process.hostPath path) = c.loadFile s.host (s.process.hostPath path) := by
  rw [h.host, h.process]
  rfl

theorem Session.machine_exit (code : Int) (s : Session Cpu) :
    (s.exit code).process.machine = s.process.machine := by
  have hLogs := Logs.trace .calls .debug .calls ("<exit(" ++ toString code ++ ")>") s
  unfold exit setState mapProcess
  rw [hLogs.process]

/-- A program is replaced only by one that can be loaded. -/
theorem Session.execute_ok {c : Conventions Cpu} {path : String} {s : Session Cpu}
    (h : (s.execute c path).1 = .ok ()) :
    ∃ image, c.loadFile s.host (s.process.hostPath path) = .ok image := by
  unfold execute at h
  split at h
  next image hLoad => exact ⟨image, hLoad⟩
  next => cases h

/-- A fork that returns has run the child to its end. The parent is the same process
as before. -/
theorem Session.fork_eq_some {c : Conventions Cpu} {run : Runner Cpu}
    {prepare : Machine Cpu → Machine Cpu} {s u : Session Cpu} {result : Except Errno UInt16}
    (h : s.fork c run prepare = some (result, u)) :
    ∃ ended, run (s.child prepare) = some ended ∧ result = .ok (s.child prepare).process.pid ∧
      Logs (s.rejoin c (s.child prepare).process.pid ended) u := by
  obtain ⟨ended, hRun, hEnded⟩ := Option.map_eq_some_iff.1 h
  cases hEnded
  exact ⟨ended, hRun, rfl, .trace _ _ _ _ _⟩

theorem Session.process_of_fork {c : Conventions Cpu} {run : Runner Cpu}
    {prepare : Machine Cpu → Machine Cpu} {s u : Session Cpu} {result : Except Errno UInt16}
    (h : s.fork c run prepare = some (result, u)) : u.process = s.process := by
  obtain ⟨ended, -, -, hLogs⟩ := fork_eq_some h
  exact hLogs.process

namespace Minix

/-- A reply goes into the message block and clears the accumulator. -/
theorem answer_of_reply {run : Runner I8086.Cpu} {s u : Session I8086.Cpu}
    {result : Except Errno UInt16}
    (hReply : perform run (s.cpu.get .bx) s = some (.reply result u)) :
    system.answer run messageTrap s =
      some (u.mapMachine (ReplyConvention.message.report (s.cpu.get .bx) result), .ok ()) := by
  change answer run messageTrap s = _
  simp only [answer, ne_eq, not_true_eq_false, if_false, hReply, Option.map_some]

end Minix

namespace UnixV6

variable {Cpu : Type} [Platform Cpu]

/-- The registers with which a program goes on after a reply. -/
def resume (result : Except Errno UInt16) (skip : UInt16) (c : Cpu) : Cpu :=
  let reported := match result with
    | .ok v => Processor.setCarry (Processor.setAccumulator c v) false
    | .error e => Processor.setCarry (Processor.setAccumulator c e.word) true
  Processor.setIp reported (Processor.ip c + skip)

/-- A reply goes into the accumulator and the carry, and nowhere else. -/
theorem answer_of_reply [LawfulProcessor Cpu] {run : Runner Cpu} {trap skip : UInt16}
    {s u : Session Cpu} {result : Except Errno UInt16}
    (hReply : perform run trap s = some (.reply result skip u)) :
    system.answer run trap s = some (u.mapCpu (resume result skip), .ok ()) := by
  change answer run trap s = _
  cases result with
  | ok v =>
      simp only [answer, hReply, Option.map_some, ReplyConvention.report, Session.mapCpu,
        Session.mapMachine, Session.mapProcess, Machine.mapCpu, resume,
        LawfulProcessor.ip_setAccumulator, LawfulProcessor.ip_setCarry]
  | error e =>
      simp only [answer, hReply, Option.map_some, ReplyConvention.report, Session.mapCpu,
        Session.mapMachine, Session.mapProcess, Machine.mapCpu, resume,
        LawfulProcessor.ip_setAccumulator, LawfulProcessor.ip_setCarry]

theorem Call.ofNumber?_eq_fork {number : UInt16} (h : ofNumber? number = some .fork) :
    number = 2 := by
  unfold ofNumber? at h
  split at h <;> cases h
  rfl

/-- The call that a trap asks for, and where its arguments are. -/
def request (trap : UInt16) (s : Session Cpu) : UInt16 × Arguments :=
  let direct : Arguments := { address := Processor.ip s.cpu, inText := true }
  if trap = 0 then
    let address := direct.word s.memory 0
    ((s.memory.byte address).toUInt16, { address := address + 2, inText := false })
  else (trap, direct)

/-- A reply to a trap is the reply to the call that it asks for, but for the skip. -/
theorem performDirect_of_perform {run : Runner Cpu} {trap skip : UInt16} {s u : Session Cpu}
    {result : Except Errno UInt16} (h : perform run trap s = some (.reply result skip u)) :
    ∃ skipped innerSkip, performDirect run (request trap s).1 (request trap s).2 skipped s =
      some (.reply result innerSkip u) := by
  simp only [perform] at h
  split at h
  next hIndirect =>
    obtain ⟨completion, hInner, hReply⟩ := Option.map_eq_some_iff.1 h
    cases completion with
    | reply result innerSkip t =>
        cases hReply
        simp only [request, if_pos hIndirect]
        exact ⟨_, _, hInner⟩
    | final t => cases hReply
    | fault f t => cases hReply
  next hDirect =>
    simp only [request, if_neg hDirect]
    exact ⟨_, _, h⟩

end UnixV6
end VintageUnix
