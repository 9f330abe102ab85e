import VintageUnix.Proofs.Outcomes
import VintageUnix.Proofs.CallRelation
import VintageUnix.Proofs.SystemStores

/-! What a call that succeeds changes in the caller. Every call has its regions of data memory, and
besides its reply it changes no other byte, no text of its own segment and hardly a register. -/
namespace VintageUnix

open AddressSpace (AgreesOutside StoresWithin)

/-- Memory has changed in the regions only, and not in a text of its own segment. -/
structure AddressSpace.ChangesOnly (regions : List Region) (m n : AddressSpace) : Prop
    extends SameText m n where
  agrees : AgreesOutside regions m n

open AddressSpace (ChangesOnly)

namespace AddressSpace.ChangesOnly

variable {regions : List Region} {l m n : AddressSpace}

theorem of_storesWithin (h : StoresWithin regions m n) : ChangesOnly regions m n :=
  ⟨h.stores.sameText, h.agrees⟩

theorem refl (regions : List Region) (m : AddressSpace) : ChangesOnly regions m m :=
  of_storesWithin (.refl _ m)

theorem trans (first : ChangesOnly regions l m) (second : ChangesOnly regions m n) :
    ChangesOnly regions l n :=
  ⟨first.toSameText.trans second.toSameText, first.agrees.trans second.agrees⟩

theorem mono {wider : List Region} (h : ChangesOnly regions m n)
    (hSubset : ∀ r ∈ regions, r ∈ wider) : ChangesOnly wider m n :=
  ⟨h.toSameText, h.agrees.mono hSubset⟩

theorem moveBreak (m : AddressSpace) (brk : UInt16) : ChangesOnly [] m { m with brk } :=
  ⟨⟨rfl, fun _ => rfl⟩, fun _ _ => rfl⟩

end AddressSpace.ChangesOnly

section Common

variable {Cpu : Type} [Processor Cpu]

/-- Calls that store nothing leave the machine alone, whatever they come to. -/
theorem keepsMachine (c : Conventions Cpu) (machine : Machine Cpu) :
    QuietInvariant c fun s => s.process.machine = machine where
  host h _ := h
  descriptors _ h := h
  umask _ h := h
  setAction {s t signal action old} h hSet := by
    unfold Session.setSignalAction at hSet
    split at hSet
    · cases hSet
      exact h
    · cases hSet

/-- A session and itself, on the machine of the first session. -/
theorem quietRelation_machine (c : Conventions Cpu) (s : Session Cpu) :
    QuietRelation c (Diagonal fun t => t.process.machine = s.process.machine) :=
  (keepsMachine c s.process.machine).relation

/-- A read stores as many bytes as it tells, and none of them lies beyond the top
of memory. -/
theorem Session.read_ok {s u : Session Cpu} {descriptor buffer length v : UInt16}
    (h : s.read descriptor buffer length = (.ok v, u)) :
    ∃ bytes, v.toNat = bytes.length ∧ bytes.length ≤ clampLength buffer length ∧
      u.process.machine = s.process.machine.mapMemory (·.write buffer bytes) := by
  obtain ⟨t, hResult, hLogs⟩ := conclude_ok h
  obtain ⟨handle, -, hResult⟩ := Except.of_bind_eq_ok hResult
  obtain ⟨⟨bytes, host⟩, hRead, hResult⟩ := Except.of_bind_eq_ok hResult
  cases hResult
  have hLength : bytes.length ≤ clampLength buffer length := by
    cases hHost : s.host.read handle (clampLength buffer length) with
    | error e =>
        rw [hHost] at hRead
        cases hRead
    | ok result =>
        rw [hHost] at hRead
        cases hRead
        exact s.host.length_le_of_read hHost
  refine ⟨bytes, ?_, hLength, ?_⟩
  · refine UInt16.toNat_ofNat_of_lt' ?_
    have hCount := length.toNat_lt
    unfold clampLength at hLength
    change bytes.length < 65536
    omega
  · rw [hLogs.process]
    rfl

/-- A read that gave `count` bytes gave no more than were asked for, and stored none
of them beyond the top of memory. -/
def Session.ReadFits (buffer length count : UInt16) : Prop :=
  count.toNat ≤ length.toNat ∧ buffer.toNat + count.toNat ≤ segmentSize

theorem Session.readFits_of_read {s u : Session Cpu} {descriptor buffer length v : UInt16}
    (h : s.read descriptor buffer length = (.ok v, u)) : ReadFits buffer length v := by
  obtain ⟨bytes, hCount, hLength, -⟩ := read_ok h
  have hBuffer := Segment.toNat_lt_segmentSize buffer
  unfold clampLength at hLength
  unfold ReadFits
  omega

/-- The break is data of the process and takes no memory. -/
theorem Session.setBreak_ok {s u : Session Cpu} {address v : UInt16}
    (h : s.setBreak address = (.ok v, u)) :
    u.process.machine = s.process.machine.mapMemory ({ · with brk := address }) := by
  obtain ⟨t, hResult, hLogs⟩ := conclude_ok h
  split at hResult
  · cases hResult
  · cases hResult
    rw [hLogs.process]
    rfl

/-- The registers are the same, and memory has changed in the regions only. -/
structure Session.StoresIn (regions : List Region) (s t : Session Cpu) : Prop where
  cpu : t.cpu = s.cpu
  memory : ChangesOnly regions s.memory t.memory

theorem Session.StoresIn.of_mapMemory {regions : List Region} {s t : Session Cpu}
    {f : AddressSpace → AddressSpace}
    (hMachine : t.process.machine = s.process.machine.mapMemory f)
    (hChanges : ChangesOnly regions s.memory (f s.memory)) : s.StoresIn regions t := by
  have hCpu : t.cpu = s.cpu := by
    unfold Session.cpu
    rw [hMachine]
    rfl
  refine ⟨hCpu, ?_⟩
  have hMemory : t.memory = f s.memory := congrArg Machine.memory hMachine
  rwa [hMemory]

theorem Session.StoresIn.mapMemory {regions : List Region} {s : Session Cpu}
    {f : AddressSpace → AddressSpace} (hChanges : ChangesOnly regions s.memory (f s.memory)) :
    s.StoresIn regions (s.mapMemory f) :=
  of_mapMemory (f := f) rfl hChanges

theorem Session.StoresIn.trans {regions : List Region} {s t u : Session Cpu}
    (first : s.StoresIn regions t) (second : t.StoresIn regions u) : s.StoresIn regions u :=
  ⟨second.cpu.trans first.cpu, first.memory.trans second.memory⟩

theorem Session.StoresIn.logs {regions : List Region} {s t u : Session Cpu}
    (h : s.StoresIn regions t) (hLogs : Logs t u) : s.StoresIn regions u := by
  refine h.trans (.of_mapMemory (f := id) ?_ (.refl _ _))
  rw [hLogs.process]
  rfl

/-- A quiet call stores nowhere. -/
theorem Session.StoresIn.of_quiet {regions : List Region} {s u : Session Cpu} {α : Type}
    {reply : Reply Cpu α} {result : Except Errno α} (hReply : reply = (result, u))
    (hQuiet : RepliesRelated (Diagonal fun t => t.process.machine = s.process.machine)
      reply reply) : s.StoresIn regions u := by
  have hMachine : u.process.machine = s.process.machine := by
    rw [hReply] at hQuiet
    exact hQuiet.session.2
  exact of_mapMemory (f := id) hMachine (.refl _ _)

/-- A quiet call whose value is stored. -/
theorem Session.StoresIn.of_andThen {regions : List Region} {s u : Session Cpu} {α : Type}
    {reply : Reply Cpu α} {store : α → AddressSpace → AddressSpace} {result : α → UInt16}
    {v : UInt16}
    (hReply : reply.andThen (fun a s => (result a, s.mapMemory (store a))) = (.ok v, u))
    (hQuiet : RepliesRelated (Diagonal fun t => t.process.machine = s.process.machine)
      reply reply)
    (hStore : ∀ a, StoresWithin regions s.memory (store a s.memory)) : s.StoresIn regions u := by
  obtain ⟨a, t, hValue, hStored⟩ := Reply.andThen_ok hReply
  obtain ⟨-, rfl⟩ := Prod.mk.inj hStored
  have hMachine : t.process.machine = s.process.machine := by
    rw [hValue] at hQuiet
    exact hQuiet.session.2
  refine of_mapMemory (f := store a) ?_ (.of_storesWithin (hStore a))
  exact congrArg (·.mapMemory (store a)) hMachine

end Common

namespace Minix

/-- The memory of the caller that a call changes besides the reply, when it succeeds
with the given result. -/
def OrdinaryCall.footprint (c : OrdinaryCall) (block : UInt16) (m : AddressSpace)
    (result : UInt16) : List Region :=
  match c with
  | .read => [⟨m.word (block + 10), result.toNat⟩]
  | .wait => [⟨block + 4, 2⟩]
  | .time | .lseek => [⟨block + 10, 4⟩]
  | .brk => [⟨block + 18, 2⟩]
  | .stat => [⟨m.word (block + 12), 30⟩]
  | .fstat => [⟨m.word (block + 10), 30⟩]
  | .sigaction => if m.word (block + 12) = 0 then [] else [⟨m.word (block + 12), 6⟩]
  | _ => []

theorem machine_of_changeAction {signal action : UInt16} {s t : Session I8086.Cpu}
    (h : changeAction signal action s = .ok t) : t.process.machine = s.process.machine := by
  simp only [changeAction] at h
  split at h
  · obtain ⟨⟨old, t'⟩, hSet, rfl⟩ := Except.of_map_eq_ok h
    exact (keepsMachine conventions s.process.machine).setAction rfl hSet
  · split at h <;> cases h
    rfl

theorem storesIn_replaceAction {signal action oldAction v : UInt16}
    {s u : Session I8086.Cpu} (h : replaceAction signal action oldAction s = (.ok v, u)) :
    s.StoresIn (if oldAction = 0 then [] else [⟨oldAction, 6⟩]) u := by
  simp only [replaceAction] at h
  split at h
  next => cases h
  next t hChanged =>
    have hMachine := machine_of_changeAction hChanged
    obtain ⟨-, rfl⟩ := Prod.mk.inj h
    refine .logs ?_ (.trace _ _ _ _ _)
    by_cases hNull : oldAction = 0
    · simp only [if_pos hNull]
      exact .of_mapMemory (f := id) hMachine (.refl _ _)
    · simp only [if_neg hNull]
      refine .trans (.of_mapMemory (f := id) hMachine (.refl _ _)) (.mapMemory ?_)
      exact .of_storesWithin <| (((StoresWithin.setWord _ _ _).front (by decide)).thenWord
        (by decide)).thenWord (by decide)

theorem OrdinaryCall.storesIn_perform {c : OrdinaryCall} {block v : UInt16}
    {s u : Session I8086.Cpu} (h : c.perform block s = (.ok v, u)) :
    s.StoresIn (c.footprint block s.memory v) u := by
  have hQuiet := quietRelation_machine conventions s
  have hSelf : Diagonal (fun t => t.process.machine = s.process.machine) s s := ⟨rfl, rfl⟩
  cases c with
  | read =>
      obtain ⟨bytes, hLength, -, hMachine⟩ := Session.read_ok h
      refine .of_mapMemory hMachine ?_
      simp only [footprint, hLength]
      exact .of_storesWithin (.write _ _ bytes)
  | write => exact .of_quiet h (hQuiet.write hSelf _ _ _)
  | openFile =>
      simp only [perform] at h
      split at h <;> exact .of_quiet h (hQuiet.openFile hSelf _ _ _)
  | close => exact .of_quiet h (hQuiet.close hSelf _)
  | wait => exact .of_andThen h (hQuiet.wait hSelf fun _ => ⟨rfl, rfl⟩) fun _ => .setWord _ _ _
  | creat => exact .of_quiet h (hQuiet.create hSelf _ _)
  | link => exact .of_quiet h (hQuiet.link hSelf _ _)
  | unlink => exact .of_quiet h (hQuiet.unlink hSelf _)
  | chdir => exact .of_quiet h (hQuiet.changeDirectory hSelf _)
  | time =>
      change thenStore _ _ s.time = _ at h
      exact .of_andThen h (hQuiet.time hSelf) fun _ => .setLong _ _ _
  | chmod => exact .of_quiet h (hQuiet.changeMode hSelf _ _)
  | brk =>
      change thenStore _ _ (s.setBreak _) = _ at h
      obtain ⟨a, t, hBreak, hStored⟩ := Reply.andThen_ok h
      obtain ⟨-, rfl⟩ := Prod.mk.inj hStored
      have hMachine := Session.setBreak_ok hBreak
      have hMoved : s.StoresIn (footprint .brk block s.memory v) t :=
        .of_mapMemory hMachine ((ChangesOnly.moveBreak _ _).mono fun r hr => by cases hr)
      exact hMoved.trans (.mapMemory (.of_storesWithin (.setWord _ _ _)))
  | stat =>
      change thenStore _ _ (s.status _) = _ at h
      exact .of_andThen h (hQuiet.status hSelf _) fun st => storesWithin_storeStatus _ _ st
  | lseek =>
      simp only [perform] at h
      split at h
      · cases h
      · exact .of_andThen h (hQuiet.seek hSelf _ _) fun _ => .setLong _ _ _
  | getpid => exact .of_quiet h (hQuiet.processNumber hSelf)
  | getuid => exact .of_quiet h (hQuiet.userNumber hSelf)
  | getgid => exact .of_quiet h (hQuiet.groupNumber hSelf)
  | fstat =>
      change thenStore _ _ (s.descriptorStatus _) = _ at h
      exact .of_andThen h (hQuiet.descriptorStatus hSelf _) fun st =>
        storesWithin_storeStatus _ _ st
  | access => exact .of_quiet h (hQuiet.access hSelf _ _)
  | signal => exact .of_quiet h (hQuiet.setHandler hSelf _ _)
  | ioctl => exact .of_quiet h (hQuiet.deviceControl hSelf _ _ _)
  | umask => exact .of_quiet h (hQuiet.setMask hSelf _)
  | sigaction => exact storesIn_replaceAction h

/-- The memory of the caller that the requested call changes besides the reply. -/
def footprint (block : UInt16) (m : AddressSpace) (result : UInt16) : List Region :=
  match Call.ofNumber? (m.word (block + 2)) with
  | some (.ordinary c) => c.footprint block m result
  | _ => []

theorem storesIn_of_perform_ok {run : Runner I8086.Cpu} {block v : UInt16}
    {s u : Session I8086.Cpu} (h : perform run block s = some (.reply (.ok v) u)) :
    s.StoresIn (footprint block s.memory v) u := by
  unfold perform at h
  simp only at h
  split at h
  next call hCall =>
    simp only [footprint, hCall]
    cases call with
    | exit => cases h
    | fork =>
        obtain ⟨⟨result, t⟩, hFork, hReply⟩ := Option.map_eq_some_iff.1 h
        cases hReply
        have hMachine := congrArg Process.machine (Session.process_of_fork hFork)
        exact .of_mapMemory (f := id) hMachine (.refl _ _)
    | exec =>
        simp only [Call.perform] at h
        split at h <;> cases h
    | ordinary c =>
        simp only [Call.perform, Option.some.injEq, Completion.reply.injEq] at h
        exact OrdinaryCall.storesIn_perform (Prod.ext h.1 h.2)
  next => split at h <;> cases h

theorem readFits_of_perform_ok {run : Runner I8086.Cpu} {block v : UInt16}
    {s u : Session I8086.Cpu} (h : perform run block s = some (.reply (.ok v) u))
    (hRead : Call.ofNumber? (s.memory.word (block + 2)) = some (.ordinary .read)) :
    Session.ReadFits (s.memory.word (block + 10)) (s.memory.word (block + 6)) v := by
  simp only [perform, hRead, Call.perform, Option.some.injEq, Completion.reply.injEq] at h
  exact Session.readFits_of_read (Prod.ext h.1 h.2)

end Minix

namespace UnixV6

variable {Cpu : Type} [Platform Cpu]

/-- The memory of the caller that a call changes, when it succeeds with the given
result. The result itself goes into registers. -/
def OrdinaryCall.footprint (c : OrdinaryCall) (arguments : Arguments) (m : AddressSpace)
    (result : UInt16) : List Region :=
  match c with
  | .read => [⟨arguments.word m 0, result.toNat⟩]
  | .stat => [⟨arguments.word m 1, 36⟩]
  | _ => []

/-- Only wait changes a register before the reply. -/
theorem OrdinaryCall.machine_of_wait {arguments : Arguments} {v : UInt16} {s u : Session Cpu}
    (h : OrdinaryCall.perform .wait arguments s = (.ok v, u)) :
    ∃ status, u.process.machine = s.process.machine.mapCpu (Platform.setWaitStatus status) := by
  simp only [perform] at h
  obtain ⟨child, t, hWait, hStatus⟩ := Reply.andThen_ok h
  obtain ⟨-, rfl⟩ := Prod.mk.inj hStatus
  have hQuiet := (quietRelation_machine (conventions : Conventions Cpu) s).wait ⟨rfl, rfl⟩
    fun _ => ⟨rfl, rfl⟩
  rw [hWait] at hQuiet
  have hMachine : t.process.machine = s.process.machine := hQuiet.session.2
  exact ⟨child.status, congrArg (·.mapCpu (Platform.setWaitStatus child.status)) hMachine⟩

theorem OrdinaryCall.storesIn_perform {c : OrdinaryCall} {arguments : Arguments} {v : UInt16}
    {s u : Session Cpu} (h : c.perform arguments s = (.ok v, u)) (hNotWait : c ≠ .wait) :
    s.StoresIn (c.footprint arguments s.memory v) u := by
  have hQuiet := quietRelation_machine conventions s
  have hSelf : Diagonal (fun t => t.process.machine = s.process.machine) s s := ⟨rfl, rfl⟩
  cases c with
  | read =>
      obtain ⟨bytes, hLength, -, hMachine⟩ := Session.read_ok h
      refine .of_mapMemory hMachine ?_
      simp only [footprint, hLength]
      exact .of_storesWithin (.write _ _ bytes)
  | write => exact .of_quiet h (hQuiet.write hSelf _ _ _)
  | openFile => exact .of_quiet h (hQuiet.openFile hSelf _ _ _)
  | close => exact .of_quiet h (hQuiet.close hSelf _)
  | wait => exact absurd rfl hNotWait
  | creat => exact .of_quiet h (hQuiet.create hSelf _ _)
  | link => exact .of_quiet h (hQuiet.link hSelf _ _)
  | unlink => exact .of_quiet h (hQuiet.unlink hSelf _)
  | chdir => exact .of_quiet h (hQuiet.changeDirectory hSelf _)
  | chmod => exact .of_quiet h (hQuiet.changeMode hSelf _ _)
  | brk =>
      refine .of_mapMemory (Session.setBreak_ok h) ?_
      exact (ChangesOnly.moveBreak _ _).mono fun r hr => by cases hr
  | stat =>
      simp only [perform] at h
      exact .of_andThen h (hQuiet.status hSelf _) fun st => storesWithin_storeStatus _ _ st
  | seek =>
      simp only [perform] at h
      split at h
      · cases h
      · obtain ⟨offset, t, hSeek, hValue⟩ := Reply.andThen_ok h
        obtain ⟨-, rfl⟩ := Prod.mk.inj hValue
        exact .of_quiet hSeek (hQuiet.seek hSelf _ _)
  | getpid => exact .of_quiet h (hQuiet.processNumber hSelf)
  | dup => exact .of_quiet h (hQuiet.duplicate hSelf _)
  | signal => exact .of_quiet h (hQuiet.setHandler hSelf _ _)

/-- The memory of the caller that a call by number changes. -/
def footprint (number : UInt16) (arguments : Arguments) (m : AddressSpace) (result : UInt16) :
    List Region :=
  match Call.ofNumber? number with
  | some (.ordinary c) => c.footprint arguments m result
  | _ => []

/-- The registers of the caller before the reply. A wait has its status in one of them
by then. -/
def afterWait (number status : UInt16) (c : Cpu) : Cpu :=
  if Call.ofNumber? number = some (.ordinary .wait) then Platform.setWaitStatus status c else c

theorem changes_of_performDirect_ok {run : Runner Cpu} {number skipped skip v : UInt16}
    {arguments : Arguments} {s u : Session Cpu}
    (h : performDirect run number arguments skipped s = some (.reply (.ok v) skip u))
    (hNotExec : Call.ofNumber? number ≠ some .exec) :
    ChangesOnly (footprint number arguments s.memory v) s.memory u.memory ∧
      ∃ status, u.cpu = afterWait number status s.cpu := by
  simp only [performDirect] at h
  split at h
  next => split at h <;> cases h
  next => cases h
  next => cases h
  next hCall =>
    obtain ⟨⟨result, t⟩, hFork, hReply⟩ := Option.map_eq_some_iff.1 h
    cases hReply
    have hProcess := Session.process_of_fork hFork
    simp only [footprint, afterWait, hCall, Session.memory, Session.cpu, hProcess]
    exact ⟨.refl _ _, 0, rfl⟩
  next hCall => exact absurd hCall hNotExec
  next c hCall =>
    simp only [Option.some.injEq, Completion.reply.injEq] at h
    have hPerform : c.perform arguments s = (.ok v, u) := Prod.ext h.1 h.2.2
    simp only [footprint, afterWait, hCall]
    by_cases hWait : c = .wait
    · subst hWait
      obtain ⟨status, hMachine⟩ := OrdinaryCall.machine_of_wait hPerform
      simp only [Session.memory, Session.cpu, hMachine, if_true]
      exact ⟨.refl _ _, status, rfl⟩
    · have hStores := OrdinaryCall.storesIn_perform hPerform hWait
      refine ⟨hStores.memory, 0, ?_⟩
      rw [hStores.cpu, if_neg (by simpa using hWait)]

theorem readFits_of_performDirect_ok {run : Runner Cpu} {number skipped skip v : UInt16}
    {arguments : Arguments} {s u : Session Cpu}
    (h : performDirect run number arguments skipped s = some (.reply (.ok v) skip u))
    (hRead : Call.ofNumber? number = some (.ordinary .read)) :
    Session.ReadFits (arguments.word s.memory 0) (arguments.word s.memory 1) v := by
  simp only [performDirect, hRead, Option.some.injEq, Completion.reply.injEq] at h
  exact Session.readFits_of_read (Prod.ext h.1 h.2.2)

/-- What a call other than exec leaves when it succeeds, on any processor. -/
theorem answer_of_ok [LawfulProcessor Cpu] {run : Runner Cpu} {trap skip v number : UInt16}
    {arguments : Arguments} {s u : Session Cpu} (hRequest : request trap s = (number, arguments))
    (hOk : perform run trap s = some (.reply (.ok v) skip u))
    (hNotExec : Call.ofNumber? number ≠ some .exec) :
    ∃ t status, system.answer run trap s = some (t, .ok ()) ∧
      t.cpu = resume (.ok v) skip (afterWait number status s.cpu) ∧
      s.memory.ChangesOnly (footprint number arguments s.memory v) t.memory ∧
      (Call.ofNumber? number = some (.ordinary .read) →
        Session.ReadFits (arguments.word s.memory 0) (arguments.word s.memory 1) v) := by
  obtain ⟨skipped, innerSkip, hDirect⟩ := performDirect_of_perform hOk
  rw [hRequest] at hDirect
  obtain ⟨hMemory, status, hCpu⟩ := changes_of_performDirect_ok hDirect hNotExec
  refine ⟨_, status, answer_of_reply hOk, ?_, hMemory, readFits_of_performDirect_ok hDirect⟩
  exact congrArg (resume (.ok v) skip) hCpu

/-- The instruction pointer is not where a wait puts its status. -/
theorem pc_afterWait (number status : UInt16) (c : Pdp11.Cpu) :
    (afterWait number status c).get .pc = c.get .pc := by
  unfold afterWait
  split
  · exact c.get_set .r1 .pc status
  · rfl

theorem ip_afterWait (number status : UInt16) (c : I8086.Cpu) :
    (afterWait number status c).ip = c.ip := by
  unfold afterWait
  split <;> rfl

end UnixV6

/-- Every call but exit and exec that succeeds changes only the registers and the data
bytes that belong to it. On Minix these are `ax` and the reply word besides the regions
of the call; on Unix V6 the accumulator, the carry, the instruction pointer and after
a wait one more register. Regions wrap, but what a read stores stays below the top. -/
theorem successful_call_changes_only_footprint :
    (∀ (run : Runner I8086.Cpu) (s u : Session I8086.Cpu) (v : UInt16),
      Minix.perform run (s.cpu.get .bx) s = some (.reply (.ok v) u) →
      ∃ t, Minix.system.answer run Minix.messageTrap s = some (t, .ok ()) ∧
        t.cpu = s.cpu.set .ax 0 ∧
        s.memory.ChangesOnly
          (⟨s.cpu.get .bx + 2, 2⟩ :: Minix.footprint (s.cpu.get .bx) s.memory v) t.memory ∧
        (Minix.Call.ofNumber? (s.memory.word (s.cpu.get .bx + 2)) = some (.ordinary .read) →
          Session.ReadFits (s.memory.word (s.cpu.get .bx + 10))
            (s.memory.word (s.cpu.get .bx + 6)) v)) ∧
    (∀ (run : Runner Pdp11.Cpu) (trap skip number : UInt16) (arguments : UnixV6.Arguments)
        (s u : Session Pdp11.Cpu) (v : UInt16),
      UnixV6.request trap s = (number, arguments) →
      UnixV6.perform run trap s = some (.reply (.ok v) skip u) →
      UnixV6.Call.ofNumber? number ≠ some .exec →
      ∃ t status, UnixV6.system.answer run trap s = some (t, .ok ()) ∧
        t.cpu = (((if UnixV6.Call.ofNumber? number = some (.ordinary .wait)
            then s.cpu.set .r1 status else s.cpu).set .r0 v).putCode .carry false).set .pc
              (s.cpu.get .pc + skip) ∧
        s.memory.ChangesOnly (UnixV6.footprint number arguments s.memory v) t.memory ∧
        (UnixV6.Call.ofNumber? number = some (.ordinary .read) →
          Session.ReadFits (arguments.word s.memory 0) (arguments.word s.memory 1) v)) ∧
    (∀ (run : Runner I8086.Cpu) (trap skip number : UInt16) (arguments : UnixV6.Arguments)
        (s u : Session I8086.Cpu) (v : UInt16),
      UnixV6.request trap s = (number, arguments) →
      UnixV6.perform run trap s = some (.reply (.ok v) skip u) →
      UnixV6.Call.ofNumber? number ≠ some .exec →
      ∃ t status, UnixV6.system.answer run trap s = some (t, .ok ()) ∧
        t.cpu = { ((if UnixV6.Call.ofNumber? number = some (.ordinary .wait)
            then s.cpu.set .dx (status ||| 14) else s.cpu).set .ax v).putFlag .carry false with
              ip := s.cpu.ip + skip } ∧
        s.memory.ChangesOnly (UnixV6.footprint number arguments s.memory v) t.memory ∧
        (UnixV6.Call.ofNumber? number = some (.ordinary .read) →
          Session.ReadFits (arguments.word s.memory 0) (arguments.word s.memory 1) v)) := by
  refine ⟨?_, ?_, ?_⟩
  · intro run s u v hOk
    have hStores := Minix.storesIn_of_perform_ok hOk
    refine ⟨_, Minix.answer_of_reply hOk, ?_, ?_, Minix.readFits_of_perform_ok hOk⟩
    · exact congrArg (·.set .ax 0) hStores.cpu
    · have hReply : ChangesOnly [⟨s.cpu.get .bx + 2, 2⟩] u.memory
          (u.memory.setWord (s.cpu.get .bx + 2) v) := .of_storesWithin (.setWord _ _ _)
      exact (hStores.memory.mono fun r hr => List.mem_cons_of_mem _ hr).trans
        (hReply.mono fun r hr => by simp_all)
  · intro run trap skip number arguments s u v hRequest hOk hNotExec
    obtain ⟨t, status, hAnswer, hCpu, hRest⟩ := UnixV6.answer_of_ok hRequest hOk hNotExec
    refine ⟨t, status, hAnswer, ?_, hRest⟩
    rw [hCpu, ← UnixV6.pc_afterWait number status s.cpu]
    rfl
  · intro run trap skip number arguments s u v hRequest hOk hNotExec
    obtain ⟨t, status, hAnswer, hCpu, hRest⟩ := UnixV6.answer_of_ok hRequest hOk hNotExec
    refine ⟨t, status, hAnswer, ?_, hRest⟩
    rw [hCpu, ← UnixV6.ip_afterWait number status s.cpu]
    rfl

/-- An image of zeros with the number of a call in the message block at address zero. -/
private abbrev timeImage : Image where
  memory := AddressSpace.shared.setWord 2 13
  entry := 0
  format := .raw

/-- A process on an image of zeros, and a host on which a child has finished. -/
private abbrev parent (Cpu : Type) [UnixV6.Platform Cpu] : Session Cpu :=
  UnixV6.conventions.start { memory := .shared, entry := 0, format := .raw } {}
    { finished := [{ pid := 5, code := 3 }] }

private theorem perform_timeImage (run : Runner I8086.Cpu) :
    ∃ u, Minix.perform run 0 (Minix.conventions.start timeImage {} {}) =
      some (.reply (.ok 0) u) := by
  have hMemory : (Minix.conventions.start timeImage {} {}).memory =
      AddressSpace.shared.setWord (0 + 2) 13 := rfl
  unfold Minix.perform
  simp only [hMemory, AddressSpace.word_setWord]
  exact ⟨_, rfl⟩

/-- On Minix the time, stored behind the reply, and on Unix V6 a wait, whose status goes
into a register. -/
theorem successful_call_changes_only_footprint_time_wait :
    (∃ t, Minix.system.answer (fun _ => none) Minix.messageTrap
        (Minix.conventions.start timeImage {} {}) = some (t, .ok ()) ∧
      t.cpu = {} ∧ timeImage.memory.ChangesOnly (⟨2, 2⟩ ::
        Minix.footprint 0 timeImage.memory 0) t.memory) ∧
    (∃ t status, UnixV6.system.answer (fun _ => none) 7 (parent Pdp11.Cpu) = some (t, .ok ()) ∧
      t.cpu = ((((({} : Pdp11.Cpu).set .pc 0).set .r1 status).set .r0 5).putCode .carry false).set
        .pc 0 ∧ AddressSpace.shared.ChangesOnly [] t.memory) ∧
    (∃ t status, UnixV6.system.answer (fun _ => none) 7 (parent I8086.Cpu) = some (t, .ok ()) ∧
      t.cpu = (((({} : I8086.Cpu)).set .dx (status ||| 14)).set .ax 5).putFlag .carry false ∧
      AddressSpace.shared.ChangesOnly [] t.memory) := by
  refine ⟨?_, ?_, ?_⟩
  · obtain ⟨u, hTime⟩ := perform_timeImage fun _ => none
    obtain ⟨t, hAnswer, hCpu, hMemory, -⟩ :=
      successful_call_changes_only_footprint.1 _ (Minix.conventions.start timeImage {} {}) u 0
        hTime
    exact ⟨t, hAnswer, hCpu, hMemory⟩
  · obtain ⟨t, status, hAnswer, hCpu, hMemory, -⟩ :=
      successful_call_changes_only_footprint.2.1 (fun _ => none) 7 0 7
        { address := 0, inText := true } (parent Pdp11.Cpu) _ 5 rfl rfl (by decide)
    exact ⟨t, status, hAnswer, hCpu, hMemory⟩
  · obtain ⟨t, status, hAnswer, hCpu, hMemory, -⟩ :=
      successful_call_changes_only_footprint.2.2 (fun _ => none) 7 0 7
        { address := 0, inText := true } (parent I8086.Cpu) _ 5 rfl rfl (by decide)
    exact ⟨t, status, hAnswer, hCpu, hMemory⟩

end VintageUnix
