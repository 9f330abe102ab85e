import VintageUnix.Proofs.EngineRelation
import VintageUnix.Proofs.SystemStores
import VintageUnix.System.Selection

/-! Relations that the answers of a system keep. Besides the common calls an answer may run a child,
end the process or replace its program. A new program is where related sessions may drift apart,
so the relation after an answer can be weaker than the one before. -/
namespace VintageUnix

open AddressSpace (Stores)

variable {Cpu : Type} [Processor Cpu]

/-- A relation before an answer, and one after it. The runners of the two children are
related by the first. -/
structure AnswerRelation (c : Conventions Cpu) (R S : Session Cpu → Session Cpu → Prop) : Prop
    extends MachineRelation c R where
  setState {s t} (state : RunState) : R s t → R (s.setState state) (t.setState state)
  child {s t} {prepare : Machine Cpu → Machine Cpu} :
    (∀ m, Stores m.memory (prepare m).memory) → R s t → R (s.child prepare) (t.child prepare)
  rejoin {s t u v} (pid : UInt16) : R s t → R u v → R (s.rejoin c pid u) (t.rejoin c pid v)
  weaken {s t} : R s t → S s t
  execute {s t} (path : String) : R s t →
    RepliesRelated S (s.execute c path) (t.execute c path)
  machineAfter {s t} {f : Machine Cpu → Machine Cpu} : (∀ m, Stores m.memory (f m).memory) →
    S s t → S (s.mapMachine f) (t.mapMachine f)

namespace AnswerRelation

variable {c : Conventions Cpu} {R S : Session Cpu → Session Cpu → Prop}
  (hA : AnswerRelation c R S) {s t : Session Cpu}

include hA

/-- A fork gives both parents the same number, and related sessions if the children
ended in related ones. -/
theorem fork {run run' : Runner Cpu} (hRun : ∀ s t, R s t → Option.Rel R (run s) (run' t))
    {prepare : Machine Cpu → Machine Cpu} (hStores : ∀ m, Stores m.memory (prepare m).memory)
    (h : R s t) :
    Option.Rel (RepliesRelated R) (s.fork c run prepare) (t.fork c run' prepare) := by
  have hChild := hA.child hStores h
  have hPid := (hA.looksLike hChild).pid
  simp only [Session.fork, hPid]
  exact Option.Rel.map (hRun _ _ hChild) fun u v hEnded =>
    hA.conclude h _ _ (.ok ⟨rfl, hA.rejoin _ h hEnded⟩)

end AnswerRelation

namespace Minix

section Calls

variable {R : Session I8086.Cpu → Session I8086.Cpu → Prop}
  (hR : CallRelation conventions R) {s t : Session I8086.Cpu} (h : R s t)

include hR h

theorem changeAction_related (signal action : UInt16) :
    ResultsRelated R (changeAction signal action s) (changeAction signal action t) := by
  simp only [changeAction, hR.memory h]
  split
  · exact (hR.setAction signal _ h).map fun _ _ hSession => hSession.2
  · split
    · exact .ok h
    · exact .error _

theorem replaceAction_related (signal action oldAction : UInt16) :
    RepliesRelated R (replaceAction signal action oldAction s)
      (replaceAction signal action oldAction t) := by
  have hChanged := changeAction_related hR h signal action
  simp only [replaceAction, (hR.looksLike h).signals]
  generalize changeAction signal action s = x at hChanged
  generalize changeAction signal action t = y at hChanged
  cases hChanged with
  | error e => exact ⟨rfl, hR.trace (bracketed_reply _ _) h⟩
  | ok hSession =>
      refine ⟨rfl, hR.trace (bracketed_reply _ _) ?_⟩
      split
      · exact hSession
      · refine hR.store (fun m => ?_) hSession
        exact ((Stores.setWord _ _ _).trans (.setWord _ _ _)).trans (.setWord _ _ _)

/-- Only a wait changes which children have finished. -/
theorem OrdinaryCall.perform_agrees (c : OrdinaryCall)
    (hWaited : c = .wait → ∀ finished, R (s.withFinished finished) (t.withFinished finished))
    (block : UInt16) : RepliesRelated R (c.perform block s) (c.perform block t) := by
  have hStored {α : Type} {x y : Reply I8086.Cpu α} {store : α → AddressSpace → AddressSpace}
      {result : α → UInt16} (hReply : RepliesRelated R x y)
      (hStores : ∀ a m, Stores m (store a m)) :
      RepliesRelated R (thenStore store result x) (thenStore store result y) :=
    hReply.andThen fun a s t h => ⟨rfl, hR.store (hStores a) h⟩
  cases c with
  | read =>
      simp only [perform, hR.memory h]
      exact hR.read h _ _ _
  | write =>
      simp only [perform, hR.memory h]
      exact hR.write h _ _ _
  | openFile =>
      simp only [perform, hR.memory h]
      split <;> exact hR.openFile h _ _ _
  | close =>
      simp only [perform, hR.memory h]
      exact hR.close h _
  | wait => exact hStored (hR.wait h (hWaited rfl)) fun _ _ => .setWord _ _ _
  | creat =>
      simp only [perform, hR.memory h]
      exact hR.create h _ _
  | link =>
      simp only [perform, hR.memory h]
      exact hR.link h _ _
  | unlink =>
      simp only [perform, hR.memory h]
      exact hR.unlink h _
  | chdir =>
      simp only [perform, hR.memory h]
      exact hR.changeDirectory h _
  | time => exact hStored (hR.time h) fun _ _ => .setLong _ _ _
  | chmod =>
      simp only [perform, hR.memory h]
      exact hR.changeMode h _ _
  | brk =>
      simp only [perform, hR.memory h]
      exact hStored (hR.setBreak h _) fun _ _ => .setWord _ _ _
  | stat =>
      simp only [perform, hR.memory h]
      exact hStored (hR.status h _) fun st m => storesWithin_storeStatus m _ st |>.stores
  | lseek =>
      simp only [perform, hR.memory h]
      split
      · exact ⟨rfl, h⟩
      · exact hStored (hR.seek h _ _) fun _ _ => .setLong _ _ _
  | getpid => exact hR.processNumber h
  | getuid => exact hR.userNumber h
  | getgid => exact hR.groupNumber h
  | fstat =>
      simp only [perform, hR.memory h]
      exact hStored (hR.descriptorStatus h _) fun st m =>
        storesWithin_storeStatus m _ st |>.stores
  | access =>
      simp only [perform, hR.memory h]
      exact hR.access h _ _
  | signal =>
      simp only [perform, hR.memory h]
      exact hR.setHandler h _ _
  | ioctl =>
      simp only [perform, hR.memory h]
      exact hR.deviceControl h _ _ _
  | umask =>
      simp only [perform, hR.memory h]
      exact hR.setMask h _
  | sigaction =>
      simp only [perform, hR.memory h]
      exact replaceAction_related hR h _ _ _

end Calls

theorem OrdinaryCall.perform_related {R : Session I8086.Cpu → Session I8086.Cpu → Prop}
    (hR : MachineRelation conventions R) {s t : Session I8086.Cpu} (h : R s t) (c : OrdinaryCall)
    (block : UInt16) : RepliesRelated R (c.perform block s) (c.perform block t) :=
  c.perform_agrees hR.toCallRelation h (fun _ children => hR.finished children h) block

/-- The same completion of related sessions. -/
inductive CompletionsRelated (S : Session I8086.Cpu → Session I8086.Cpu → Prop) :
    Completion → Completion → Prop
  | reply {s t} (result : Except Errno UInt16) (h : S s t) :
    CompletionsRelated S (.reply result s) (.reply result t)
  | final {s t} (h : S s t) : CompletionsRelated S (.final s) (.final t)
  | fault {s t} (f : Fault) (h : S s t) : CompletionsRelated S (.fault f s) (.fault f t)

variable {R S : Session I8086.Cpu → Session I8086.Cpu → Prop}
  (hA : AnswerRelation conventions R S) {s t : Session I8086.Cpu}

include hA

theorem executeFrame_related (path : String) (frame size : UInt16)
    (h : R s t) :
    RepliesRelated S (executeFrame path frame size s) (executeFrame path frame size t) := by
  simp only [executeFrame, hA.memory h]
  exact (hA.execute path (hA.trace (bracketed_exec path _ _ _) h)).andThen
    fun _ _ _ h => ⟨rfl, hA.machineAfter (stores_placeFrame _) h⟩

variable {run run' : Runner I8086.Cpu} (hRun : ∀ s t, R s t → Option.Rel R (run s) (run' t))

include hRun

theorem Call.perform_related (call : Call) (block : UInt16) (h : R s t) :
    Option.Rel (CompletionsRelated S) (call.perform run block s) (call.perform run' block t) := by
  cases call with
  | exit =>
      simp only [perform, hA.memory h]
      exact .some (.final (hA.weaken (hA.setState _ (hA.trace (bracketed_exit _) h))))
  | fork =>
      have hFork : Option.Rel (RepliesRelated R) (s.fork conventions run (prepareChild block))
          (t.fork conventions run' (prepareChild block)) :=
        hA.fork hRun (ReplyConvention.stores_report .message block (.ok 0)) h
      refine Option.Rel.map hFork fun x y hReply => ?_
      obtain ⟨result, u⟩ := x
      obtain ⟨result', v⟩ := y
      obtain ⟨rfl, hParents⟩ := hReply
      exact .reply _ (hA.weaken hParents)
  | exec =>
      simp only [perform, hA.memory h]
      have hExec := executeFrame_related hA (s.memory.stringAt (s.memory.word (block + 10)))
        (s.memory.word (block + 12)) (s.memory.word (block + 6)) h
      generalize executeFrame _ _ _ s = x at hExec
      generalize executeFrame _ _ _ t = y at hExec
      obtain ⟨result, u⟩ := x
      obtain ⟨result', v⟩ := y
      obtain ⟨hResult, hSession⟩ := hExec
      obtain rfl : result' = result := hResult
      cases result' with
      | ok _ => exact .some (.final hSession)
      | error e => exact .some (.reply _ hSession)
  | ordinary c =>
      obtain ⟨hResult, hSession⟩ := c.perform_related hA.toMachineRelation h block
      simp only [perform, hResult]
      exact .some (.reply _ (hA.weaken hSession))

theorem perform_related (block : UInt16) (h : R s t) :
    Option.Rel (CompletionsRelated S) (perform run block s) (perform run' block t) := by
  simp only [perform, hA.memory h]
  split
  next call _ => exact call.perform_related hA hRun block h
  next =>
    split
    · exact .some (.fault _ (hA.weaken (hA.log _ _ _ h)))
    · exact .some (.fault _ (hA.weaken (hA.log _ _ _ h)))

theorem answer_related (trap : UInt16) (h : R s t) :
    Option.Rel (Together S) (answer run trap s) (answer run' trap t) := by
  simp only [answer]
  split
  · exact .some ⟨rfl, hA.weaken h⟩
  · rw [hA.cpu h]
    refine Option.Rel.map (perform_related hA hRun (s.cpu.get .bx) h) fun x y hCompletion => ?_
    cases hCompletion with
    | reply result h =>
        exact ⟨rfl, hA.machineAfter (ReplyConvention.stores_report .message _ result) h⟩
    | final h => exact ⟨rfl, h⟩
    | fault f h => exact ⟨rfl, h⟩

end Minix

namespace UnixV6

/-- How many of its arguments a call takes from behind the trap. -/
def OrdinaryCall.argumentCount : OrdinaryCall → Nat
  | close | wait | getpid | dup => 0
  | unlink | chdir | brk => 1
  | read | write | openFile | creat | link | chmod | stat | seek | signal => 2

variable {Cpu : Type} [Platform Cpu]

section Calls

variable {R : Session Cpu → Session Cpu → Prop} {s t : Session Cpu}

/-- A call looks at the session, at the accumulator, and at its arguments, wherever they
are. -/
theorem OrdinaryCall.perform_agrees (hR : CallRelation conventions R) (h : R s t)
    (hFirst : Processor.accumulator t.cpu = Processor.accumulator s.cpu)
    (c : OrdinaryCall)
    (hWaited : c = .wait → ∀ finished, R (s.withFinished finished) (t.withFinished finished))
    (hStatus : c = .wait → ∀ (status : UInt16) {s t}, R s t →
      R (s.mapCpu (Platform.setWaitStatus status)) (t.mapCpu (Platform.setWaitStatus status)))
    {arguments others : Arguments}
    (hWords : ∀ i : Nat, i < c.argumentCount →
      others.word s.memory (UInt16.ofNat i) = arguments.word s.memory (UInt16.ofNat i)) :
    RepliesRelated R (c.perform arguments s) (c.perform others t) := by
  have hMemory := hR.memory h
  have word₀ (hTaken : 0 < c.argumentCount) : others.word s.memory 0 = arguments.word s.memory 0 :=
    hWords 0 hTaken
  have word₁ (hTaken : 1 < c.argumentCount) : others.word s.memory 1 = arguments.word s.memory 1 :=
    hWords 1 hTaken
  cases c with
  | read =>
      simp only [perform, hMemory, hFirst, word₀ (by decide), word₁ (by decide)]
      exact hR.read h _ _ _
  | write =>
      simp only [perform, hMemory, hFirst, word₀ (by decide), word₁ (by decide)]
      exact hR.write h _ _ _
  | openFile =>
      simp only [perform, hMemory, word₀ (by decide), word₁ (by decide)]
      exact hR.openFile h _ _ _
  | close =>
      simp only [perform, hFirst]
      exact hR.close h _
  | wait =>
      simp only [perform]
      exact (hR.wait h (hWaited rfl)).andThen fun child _ _ h => ⟨rfl, hStatus rfl child.status h⟩
  | creat =>
      simp only [perform, hMemory, word₀ (by decide), word₁ (by decide)]
      exact hR.create h _ _
  | link =>
      simp only [perform, hMemory, word₀ (by decide), word₁ (by decide)]
      exact hR.link h _ _
  | unlink =>
      simp only [perform, hMemory, word₀ (by decide)]
      exact hR.unlink h _
  | chdir =>
      simp only [perform, hMemory, word₀ (by decide)]
      exact hR.changeDirectory h _
  | chmod =>
      simp only [perform, hMemory, word₀ (by decide), word₁ (by decide)]
      exact hR.changeMode h _ _
  | brk =>
      simp only [perform, hMemory, word₀ (by decide)]
      exact hR.setBreak h _
  | stat =>
      simp only [perform, hMemory, word₀ (by decide), word₁ (by decide)]
      exact (hR.status h _).andThen fun st _ _ h =>
        ⟨rfl, hR.store (fun m => storesWithin_storeStatus m _ st |>.stores) h⟩
  | seek =>
      simp only [perform, hMemory, hFirst, word₀ (by decide), word₁ (by decide)]
      split
      · exact ⟨rfl, h⟩
      · exact (hR.seek h _ _).andThen fun _ _ _ h => ⟨rfl, h⟩
  | getpid => exact hR.processNumber h
  | dup =>
      simp only [perform, hFirst]
      exact hR.duplicate h _
  | signal =>
      simp only [perform, hMemory, word₀ (by decide), word₁ (by decide)]
      exact hR.setHandler h _ _

theorem OrdinaryCall.perform_related (hR : MachineRelation conventions R) (h : R s t)
    (c : OrdinaryCall) (arguments : Arguments) :
    RepliesRelated R (c.perform arguments s) (c.perform arguments t) := by
  refine c.perform_agrees hR.toCallRelation h (congrArg Processor.accumulator (hR.cpu h))
    (fun _ children => hR.finished children h) (fun _ status {s t} h => ?_) fun _ _ => rfl
  exact hR.machine (f := (·.mapCpu (Platform.setWaitStatus status))) (fun _ => .refl _) h

end Calls

/-- The same completion of related sessions. -/
inductive CompletionsRelated (S : Session Cpu → Session Cpu → Prop) :
    Completion Cpu → Completion Cpu → Prop
  | reply {s t} (result : Except Errno UInt16) (skip : UInt16) (h : S s t) :
    CompletionsRelated S (.reply result skip s) (.reply result skip t)
  | final {s t} (h : S s t) : CompletionsRelated S (.final s) (.final t)
  | fault {s t} (f : Fault) (h : S s t) : CompletionsRelated S (.fault f s) (.fault f t)

variable {R S : Session Cpu → Session Cpu → Prop} (hA : AnswerRelation conventions R S)
  {s t : Session Cpu}

include hA

theorem execute_related (path : String) (vector : UInt16) (h : R s t) :
    RepliesRelated S (execute path vector s) (execute path vector t) := by
  simp only [execute, hA.memory h]
  refine (hA.execute path (hA.trace (bracketed_exec path _ _ _) h)).andThen fun _ _ _ h => ⟨rfl, ?_⟩
  let start (m : Machine Cpu) : Machine Cpu :=
    StackLayout.build (s.memory.stringVector vector) none (m.mapCpu (StackPointer.setSp · 0))
  exact hA.machineAfter (f := start) (fun m => StackLayout.stores_build _ none (m.mapCpu _)) h

variable {run run' : Runner Cpu} (hRun : ∀ s t, R s t → Option.Rel R (run s) (run' t))

include hRun

theorem performDirect_related (number : UInt16) (arguments : Arguments) (skipped : UInt16)
    (h : R s t) :
    Option.Rel (CompletionsRelated S) (performDirect run number arguments skipped s)
      (performDirect run' number arguments skipped t) := by
  simp only [performDirect, hA.memory h, congrArg Processor.accumulator (hA.cpu h)]
  split
  next =>
    split
    · exact .some (.fault _ (hA.weaken (hA.log _ _ _ h)))
    · exact .some (.fault _ (hA.weaken (hA.log _ _ _ h)))
  next => exact .some (.reply _ _ (hA.weaken h))
  next => exact .some (.final (hA.weaken (hA.setState _ (hA.trace (bracketed_exit _) h))))
  next =>
    have hFork : Option.Rel (RepliesRelated R) (s.fork conventions run (prepareChild skipped))
        (t.fork conventions run' (prepareChild skipped)) :=
      hA.fork hRun (fun _ => .refl _) h
    refine Option.Rel.map hFork fun x y hReply => ?_
    obtain ⟨result, u⟩ := x
    obtain ⟨result', v⟩ := y
    obtain ⟨rfl, hParents⟩ := hReply
    exact .reply _ _ (hA.weaken hParents)
  next =>
    have hExec := execute_related hA (s.memory.stringAt (arguments.word s.memory 0))
      (arguments.word s.memory 1) h
    generalize execute _ _ s = x at hExec
    generalize execute _ _ t = y at hExec
    obtain ⟨result, u⟩ := x
    obtain ⟨result', v⟩ := y
    obtain ⟨hResult, hSession⟩ := hExec
    obtain rfl : result' = result := hResult
    cases result' with
    | ok _ => exact .some (.reply _ _ hSession)
    | error e => exact .some (.reply _ _ hSession)
  next c _ =>
    obtain ⟨hResult, hSession⟩ := c.perform_related hA.toMachineRelation h arguments
    simp only [hResult]
    exact .some (.reply _ _ (hA.weaken hSession))

theorem perform_related (number : UInt16) (h : R s t) :
    Option.Rel (CompletionsRelated S) (perform run number s) (perform run' number t) := by
  simp only [perform, hA.memory h, hA.cpu h]
  split
  · have hInner := performDirect_related hA hRun
      (s.memory.byte (Arguments.word ⟨Processor.ip s.cpu, true⟩ s.memory 0)).toUInt16
      ⟨Arguments.word ⟨Processor.ip s.cpu, true⟩ s.memory 0 + 2, false⟩ (inlineBytes 0) h
    refine Option.Rel.map hInner fun x y hCompletion => ?_
    cases hCompletion with
    | reply result skip h => exact .reply _ _ h
    | final h => exact .final h
    | fault f h => exact .fault f h
  · exact performDirect_related hA hRun number _ 0 h

theorem answer_related (trap : UInt16) (h : R s t) :
    Option.Rel (Together S) (answer run trap s) (answer run' trap t) := by
  simp only [answer]
  refine Option.Rel.map (perform_related hA hRun trap h) fun x y hCompletion => ?_
  cases hCompletion with
  | reply result skip h =>
      refine ⟨rfl, hA.machineAfter (fun _ => .refl _) ?_⟩
      exact hA.machineAfter (ReplyConvention.stores_report .carry 0 result) h
  | final h => exact ⟨rfl, h⟩
  | fault f h => exact ⟨rfl, h⟩

end UnixV6

/-- Answers to the same trap are the same, and leave related sessions if the children
that they run do. -/
theorem Personality.answer_related (p : Personality)
    {R S : Session p.Cpu → Session p.Cpu → Prop}
    (hA : AnswerRelation p.system.toConventions R S) {run run' : Runner p.Cpu}
    (hRun : ∀ s t, R s t → Option.Rel R (run s) (run' t)) (trap : UInt16) {s t : Session p.Cpu}
    (h : R s t) :
    Option.Rel (Together S) (p.system.answer run trap s) (p.system.answer run' trap t) := by
  cases p with
  | minix => exact Minix.answer_related hA hRun trap h
  | unixV6Pdp11 => exact @UnixV6.answer_related Pdp11.Cpu _ R S hA s t run run' hRun trap h
  | unixV6I8086 => exact @UnixV6.answer_related I8086.Cpu _ R S hA s t run run' hRun trap h

end VintageUnix
