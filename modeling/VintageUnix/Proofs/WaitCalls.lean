import VintageUnix.Proofs.Dispatch
import VintageUnix.Proofs.ForkIsolation

/-! Waiting for children. The host keeps one list of the children that have finished, and a wait
takes the first of them and tells the program its number and its status. No other call but a fork
touches the list. -/
namespace VintageUnix

section Calls

variable {Cpu : Type} [Processor Cpu]

/-- The status of a child is its exit code modulo 256 above the number 14. -/
theorem FinishedChild.toNat_status (child : FinishedChild) :
    (child.status.toNat : Int) = child.code % 256 * 256 + 14 := by
  have hWord : ((UInt16.ofInt child.code).toNat : Int) = child.code % 65536 := by
    change ((UInt16.ofNat (child.code % 2 ^ 16).toNat).toNat : Int) = _
    rw [UInt16.toNat_ofNat']
    omega
  have hHigh : (UInt16.ofInt child.code <<< 8).toNat =
      (UInt16.ofInt child.code).toNat % 256 * 2 ^ 8 := by
    rw [UInt16.toNat_shiftLeft]
    change (UInt16.ofInt child.code).toNat <<< 8 % 2 ^ 16 = _
    rw [Nat.shiftLeft_eq]
    omega
  have hStatus : child.status.toNat = (UInt16.ofInt child.code).toNat % 256 * 256 + 14 := by
    rw [status, UInt16.toNat_or, hHigh, ← Nat.shiftLeft_eq]
    exact (Nat.shiftLeft_add_eq_or_of_lt (by decide : 14 < 2 ^ 8) _).symm
  omega

/-- Storing the status a second time adds nothing to it. -/
theorem FinishedChild.status_or (child : FinishedChild) : child.status ||| 14 = child.status := by
  unfold status
  rw [UInt16.or_assoc, UInt16.or_self]

/-- The second host differs from the first in what it does on signals and in what it has logged
at most. -/
def Host.SameButSignals (h k : Host) : Prop :=
  k = { h with signals := k.signals, journal := k.journal }

namespace Host.SameButSignals

variable {h k l : Host}

theorem refl (h : Host) : h.SameButSignals h :=
  rfl

theorem trans (first : h.SameButSignals k) (second : k.SameButSignals l) : h.SameButSignals l := by
  unfold SameButSignals at first second ⊢
  rw [second, first]

theorem finished (same : h.SameButSignals k) : k.finished = h.finished := by
  unfold SameButSignals at same
  rw [same]

theorem lastPid (same : h.SameButSignals k) : k.lastPid = h.lastPid := by
  unfold SameButSignals at same
  rw [same]

end Host.SameButSignals

theorem Conventions.sameButSignals_installActions (c : Conventions Cpu) (t : SignalTable)
    (h : Host) : h.SameButSignals (c.installActions t h) := by
  obtain ⟨signals, hInstalled⟩ := c.installActions_eq t h
  rw [hInstalled]
  rfl

theorem Session.Logs.sameButSignals {s t : Session Cpu} (h : Logs s t) :
    s.host.SameButSignals t.host := by
  rw [h.host]
  rfl

theorem Session.sameButSignals_execute (c : Conventions Cpu) (path : String) (s : Session Cpu) :
    s.host.SameButSignals (s.execute c path).2.host := by
  unfold execute
  split
  · exact c.sameButSignals_installActions _ _
  · exact (Logs.log _ _ _ s).sameButSignals

theorem Session.sameButSignals_exit (code : Int) (s : Session Cpu) :
    s.host.SameButSignals (s.exit code).host :=
  (Logs.trace .calls .debug .calls ("<exit(" ++ toString code ++ ")>") s).sameButSignals

theorem Session.Logs.finished {s t : Session Cpu} (h : Logs s t) :
    t.host.finished = s.host.finished :=
  h.sameButSignals.finished

/-- Calls other than wait leave the finished children alone. -/
theorem keepsFinished (c : Conventions Cpu) (children : List FinishedChild) :
    CallRelation c (Diagonal fun s => s.host.finished = children) where
  toQuietRelation := QuietInvariant.relation {
    host := fun h hServes => hServes.finished.trans h
    descriptors := fun _ h => h
    umask := fun _ h => h
    setAction := fun {s t signal action old} h hSet => by
      unfold Session.setSignalAction at hSet
      split at hSet <;> cases hSet
      exact h }
  store _ h := ⟨h.1 ▸ rfl, h.2⟩
  moveBreak _ h := ⟨h.1 ▸ rfl, h.2⟩

/-- How a child that has ended is recorded. A fault counts as -1. -/
def Session.record (ended : Session Cpu) (pid : UInt16) : FinishedChild where
  pid
  code := (ended.process.state.exitCode?).getD (-1)

/-- The child of a fork is recorded after all that finished while it ran. -/
theorem Session.finished_of_fork {c : Conventions Cpu} {prepare : Machine Cpu → Machine Cpu}
    {s u ended : Session Cpu} {result : Except Errno UInt16}
    (h : s.fork c (fun _ => some ended) prepare = some (result, u)) :
    u.host.finished = ended.record (s.child prepare).process.pid :: ended.host.finished := by
  obtain ⟨_, hRun, -, hLogs⟩ := fork_eq_some h
  cases hRun
  exact hLogs.finished.trans (c.sameButSignals_installActions _ _).finished

/-- What a wait gives: the child that finished last. -/
def Session.waited (s : Session Cpu) : Except Errno FinishedChild :=
  match s.host.finished with
  | child :: _ => .ok child
  | [] => .error .invalidArgument

theorem Session.wait_eq (s : Session Cpu) : ∃ t, s.wait = (s.waited, t) ∧
    Logs (s.withFinished s.host.finished.tail) t := by
  unfold wait waited
  cases hFinished : s.host.finished with
  | nil =>
      refine ⟨_, rfl, ?_⟩
      have hSame : s.withFinished [] = s := by
        unfold withFinished mapHost
        rw [← hFinished]
      rw [List.tail_nil, hSame]
      exact .trace _ _ _ _ s
  | cons child rest => exact ⟨_, rfl, .trace _ _ _ _ _⟩

theorem Reply.host_andThen {α β : Type} {f : α → Session Cpu → β × Session Cpu}
    (hHost : ∀ a s, (f a s).2.host = s.host) (reply : Reply Cpu α) :
    (reply.andThen f).2.host = reply.2.host := by
  obtain ⟨result, s⟩ := reply
  cases result with
  | ok a => exact hHost a s
  | error e => rfl

end Calls

namespace Minix

/-- The trap is a message that asks to wait for a child. -/
def Waits (trap : UInt16) (s : Session I8086.Cpu) : Prop :=
  trap = messageTrap ∧
    Call.ofNumber? (s.memory.word (s.cpu.get .bx + 2)) = some (.ordinary .wait)

theorem sameButSignals_executeFrame (path : String) (frame size : UInt16)
    (s : Session I8086.Cpu) :
    s.host.SameButSignals (executeFrame path frame size s).2.host := by
  unfold executeFrame
  rw [Reply.host_andThen (fun _ _ => rfl)]
  exact (Session.Logs.trace _ _ _ _ s).sameButSignals.trans (Session.sameButSignals_execute _ _ _)

/-- What a trap that is no fork leaves of the host is what an ordinary call leaves of it, but for
signals and the journal. -/
theorem host_of_unforked {run : Runner I8086.Cpu} {trap : UInt16} {s t : Session I8086.Cpu}
    {result : Except Fault Unit} (h : answer run trap s = some (t, result))
    (hForks : ¬ Forks trap s) :
    s.host.SameButSignals t.host ∨ trap = messageTrap ∧ ∃ c : OrdinaryCall,
      Call.ofNumber? (s.memory.word (s.cpu.get .bx + 2)) = some (.ordinary c) ∧
        t.host = (c.perform (s.cpu.get .bx) s).2.host := by
  rcases host_of_answer h with rfl | ⟨rfl, completion, hPerform, hHost⟩
  · exact .inl (.refl _)
  · rw [hHost]
    cases performs hPerform with
    | fault f hLogs => exact .inl hLogs.sameButSignals
    | exit code => exact .inl (s.sameButSignals_exit code)
    | fork hCall hFork => exact absurd ⟨rfl, hCall⟩ hForks
    | exec hCall hExecuted =>
        have hSame := sameButSignals_executeFrame
          (s.memory.stringAt (s.memory.word (s.cpu.get .bx + 10)))
          (s.memory.word (s.cpu.get .bx + 12)) (s.memory.word (s.cpu.get .bx + 6)) s
        rw [hExecuted] at hSame
        exact .inl hSame
    | failedExec e hLogs => exact .inl hLogs.sameButSignals
    | ordinary c hCall => exact .inr ⟨rfl, c, hCall, rfl⟩

theorem finished_answer {run : Runner I8086.Cpu} {trap : UInt16} {s t : Session I8086.Cpu}
    {result : Except Fault Unit} (h : answer run trap s = some (t, result))
    (hForks : ¬ Forks trap s) (hWaits : ¬ Waits trap s) :
    t.host.finished = s.host.finished := by
  rcases host_of_unforked h hForks with hSame | ⟨rfl, c, hCall, hHost⟩
  · exact hSame.finished
  · rw [hHost]
    have hOther : c ≠ .wait := by
      rintro rfl
      exact hWaits ⟨rfl, hCall⟩
    have hSelf : Diagonal (fun t => t.host.finished = s.host.finished) s s := ⟨rfl, rfl⟩
    exact (c.perform_agrees (keepsFinished conventions s.host.finished) hSelf
      (fun hWait => absurd hWait hOther) (s.cpu.get .bx)).session.2

/-- What a wait leaves: the number of the child in the place of the call number, and its
status behind it. -/
def machineAfterWait (reply : Except Errno FinishedChild) (m : Machine I8086.Cpu) :
    Machine I8086.Cpu :=
  let block := m.cpu.get .bx
  match reply with
  | .ok child =>
    { cpu := m.cpu.set .ax 0
      memory := (m.memory.setWord (block + 4) child.status).setWord (block + 2) child.pid }
  | .error e =>
    { cpu := m.cpu.set .ax 0, memory := m.memory.setWord (block + 2) (0 - e.word) }

theorem answer_of_wait {run : Runner I8086.Cpu} {trap : UInt16} {s : Session I8086.Cpu}
    (hWaits : Waits trap s) :
    ∃ t, answer run trap s = some (t, .ok ()) ∧ t.host.finished = s.host.finished.tail ∧
      t.process.machine = machineAfterWait s.waited s.process.machine := by
  obtain ⟨rfl, hCall⟩ := hWaits
  obtain ⟨t, hWait, hLogs⟩ := s.wait_eq
  have hMachine : t.process.machine = s.process.machine := congrArg Process.machine hLogs.process
  have hPerform : perform run (s.cpu.get .bx) s =
      some (.reply (OrdinaryCall.perform .wait (s.cpu.get .bx) s).1
        (OrdinaryCall.perform .wait (s.cpu.get .bx) s).2) := by
    simp only [perform, hCall, Call.perform]
  refine ⟨_, answer_of_reply hPerform, ?_⟩
  cases hWaited : s.waited with
  | ok child =>
      have hReply : OrdinaryCall.perform .wait (s.cpu.get .bx) s = (.ok child.pid,
          t.mapMemory fun m => m.setWord (s.cpu.get .bx + 4) child.status) := by
        simp only [OrdinaryCall.perform, thenStore, hWait, hWaited]
        rfl
      simp only [hReply]
      exact ⟨hLogs.finished, congrArg (fun m : Machine I8086.Cpu =>
        ReplyConvention.message.report (s.cpu.get .bx) (.ok child.pid)
          (m.mapMemory (·.setWord (s.cpu.get .bx + 4) child.status))) hMachine⟩
  | error e =>
      have hReply : OrdinaryCall.perform .wait (s.cpu.get .bx) s = (.error e, t) := by
        simp only [OrdinaryCall.perform, thenStore, hWait, hWaited]
        rfl
      simp only [hReply]
      exact ⟨hLogs.finished, congrArg (fun m : Machine I8086.Cpu =>
        ReplyConvention.message.report (s.cpu.get .bx) (.error e) m) hMachine⟩

end Minix

namespace UnixV6

variable {Cpu : Type} [Platform Cpu]

/-- The trap asks for a wait, directly or not. -/
def Waits (trap : UInt16) (s : Session Cpu) : Prop :=
  Call.ofNumber? (request trap s).1 = some (.ordinary .wait)

theorem sameButSignals_execute (path : String) (vector : UInt16) (s : Session Cpu) :
    s.host.SameButSignals (execute path vector s).2.host := by
  unfold execute
  rw [Reply.host_andThen (fun _ _ => rfl)]
  exact (Session.Logs.trace _ _ _ _ s).sameButSignals.trans (Session.sameButSignals_execute _ _ _)

/-- What a trap that is no fork leaves of the host is what an ordinary call leaves of it, but for
signals and the journal. -/
theorem host_of_unforked {run : Runner Cpu} {trap : UInt16} {s t : Session Cpu}
    {result : Except Fault Unit} (h : answer run trap s = some (t, result))
    (hForks : ¬ Forks trap s) :
    s.host.SameButSignals t.host ∨ ∃ c : OrdinaryCall,
      Call.ofNumber? (request trap s).1 = some (.ordinary c) ∧
        t.host = (c.perform (request trap s).2 s).2.host := by
  obtain ⟨completion, hPerform, hHost⟩ := host_of_answer h
  rw [hHost]
  cases performs hPerform with
  | fault f hLogs => exact .inl hLogs.sameButSignals
  | exit code => exact .inl (s.sameButSignals_exit code)
  | fork skip skipped hCall hFork => exact absurd hCall hForks
  | exec skip hCall hExecuted =>
      have hSame := sameButSignals_execute
        (s.memory.stringAt ((request trap s).2.word s.memory 0))
        ((request trap s).2.word s.memory 1) s
      rw [hExecuted] at hSame
      exact .inl hSame
  | failed e skip hLogs => exact .inl hLogs.sameButSignals
  | ordinary c skip hCall => exact .inr ⟨c, hCall, rfl⟩

theorem finished_answer {run : Runner Cpu} {trap : UInt16} {s t : Session Cpu}
    {result : Except Fault Unit} (h : answer run trap s = some (t, result))
    (hForks : ¬ Forks trap s) (hWaits : ¬ Waits trap s) :
    t.host.finished = s.host.finished := by
  rcases host_of_unforked h hForks with hSame | ⟨c, hCall, hHost⟩
  · exact hSame.finished
  · rw [hHost]
    have hOther : c ≠ .wait := by
      rintro rfl
      exact hWaits hCall
    have hSelf : Diagonal (fun t => t.host.finished = s.host.finished) s s := ⟨rfl, rfl⟩
    have hKeeps : RepliesRelated (Diagonal fun t => t.host.finished = s.host.finished)
        (c.perform (request trap s).2 s) (c.perform (request trap s).2 s) :=
      c.perform_agrees (keepsFinished conventions s.host.finished) hSelf rfl
        (fun hWait => absurd hWait hOther) (fun hWait => absurd hWait hOther) fun _ _ => rfl
    exact hKeeps.session.2

/-- What a wait leaves: the number of the child in the accumulator, and its status in the
register that the platform has for it. -/
def cpuAfterWait (trap : UInt16) (reply : Except Errno FinishedChild) (c : Cpu) : Cpu :=
  match reply with
  | .ok child => resume (.ok child.pid) (inlineBytes trap) (Platform.setWaitStatus child.status c)
  | .error e => resume (.error e) (inlineBytes trap) c

theorem answer_of_wait [LawfulProcessor Cpu] {run : Runner Cpu} {trap : UInt16} {s : Session Cpu}
    (hWaits : Waits trap s) :
    ∃ t, answer run trap s = some (t, .ok ()) ∧ t.host.finished = s.host.finished.tail ∧
      t.process.machine = s.process.machine.mapCpu (cpuAfterWait trap s.waited) := by
  obtain ⟨t, hWait, hLogs⟩ := s.wait_eq
  have hMachine : t.process.machine = s.process.machine := congrArg Process.machine hLogs.process
  refine ⟨_, answer_of_reply (perform_of_ordinary hWaits), ?_⟩
  cases hWaited : s.waited with
  | ok child =>
      have hReply : OrdinaryCall.perform .wait (request trap s).2 s = (.ok child.pid,
          t.mapCpu (Platform.setWaitStatus child.status)) := by
        simp only [OrdinaryCall.perform, hWait, hWaited]
        rfl
      simp only [hReply]
      exact ⟨hLogs.finished, congrArg (fun m : Machine Cpu =>
        (m.mapCpu (Platform.setWaitStatus child.status)).mapCpu
          (resume (.ok child.pid) (inlineBytes trap))) hMachine⟩
  | error e =>
      have hReply : OrdinaryCall.perform .wait (request trap s).2 s = (.error e, t) := by
        simp only [OrdinaryCall.perform, hWait, hWaited]
        rfl
      simp only [hReply]
      exact ⟨hLogs.finished, congrArg (fun m : Machine Cpu =>
        m.mapCpu (resume (.error e) (inlineBytes trap))) hMachine⟩

end UnixV6

namespace Personality

/-- The trap is a wait. -/
def Waits : (p : Personality) → (trap : UInt16) → Session p.Cpu → Prop
  | .minix => Minix.Waits
  | .unixV6Pdp11 => (UnixV6.Waits : UInt16 → Session Pdp11.Cpu → Prop)
  | .unixV6I8086 => (UnixV6.Waits : UInt16 → Session I8086.Cpu → Prop)

/-- The machine when a wait returns. On Minix the words at `bx + 2` and `bx + 4` and `ax` have
changed; on Unix V6 the accumulator, the carry, the instruction pointer and `r1`
or `dx`. -/
def machineAfterWait : (p : Personality) → (trap : UInt16) → Except Errno FinishedChild →
    Machine p.Cpu → Machine p.Cpu
  | .minix => fun _ => Minix.machineAfterWait
  | .unixV6Pdp11 => fun trap reply (m : Machine Pdp11.Cpu) =>
    let after := m.cpu.get .pc + UnixV6.inlineBytes trap
    match reply with
    | .ok child => m.mapCpu fun c =>
      (((c.set .r1 child.status).set .r0 child.pid).putCode .carry false).set .pc after
    | .error e => m.mapCpu fun c => ((c.set .r0 e.word).putCode .carry true).set .pc after
  | .unixV6I8086 => fun trap reply (m : Machine I8086.Cpu) =>
    let after := m.cpu.ip + UnixV6.inlineBytes trap
    match reply with
    | .ok child => m.mapCpu fun c =>
      { ((c.set .dx child.status).set .ax child.pid).putFlag .carry false with ip := after }
    | .error e => m.mapCpu fun c => { (c.set .ax e.word).putFlag .carry true with ip := after }

theorem machineAfterWait_unixV6Pdp11 (trap : UInt16) (reply : Except Errno FinishedChild)
    (m : Machine Pdp11.Cpu) :
    m.mapCpu (UnixV6.cpuAfterWait trap reply) = machineAfterWait .unixV6Pdp11 trap reply m := by
  cases reply with
  | ok child =>
      have hPc : (m.cpu.set .r1 child.status).get .pc = m.cpu.get .pc :=
        m.cpu.get_set .r1 .pc child.status
      simp only [machineAfterWait, ← hPc]
      rfl
  | error e => rfl

/-- The platform puts the low byte of the status into the register once more. -/
theorem machineAfterWait_unixV6I8086 (trap : UInt16) (reply : Except Errno FinishedChild)
    (m : Machine I8086.Cpu) :
    m.mapCpu (UnixV6.cpuAfterWait trap reply) = machineAfterWait .unixV6I8086 trap reply m := by
  cases reply with
  | ok child =>
      exact congrArg (fun status => m.mapCpu fun c : I8086.Cpu =>
        { ((c.set .dx status).set .ax child.pid).putFlag .carry false with
          ip := m.cpu.ip + UnixV6.inlineBytes trap }) child.status_or
  | error e => rfl

theorem finished_answer (p : Personality) {run : Runner p.Cpu} {trap : UInt16}
    {s t : Session p.Cpu} {result : Except Fault Unit}
    (h : p.system.answer run trap s = some (t, result)) (hForks : ¬ p.Forks trap s)
    (hWaits : ¬ p.Waits trap s) : t.host.finished = s.host.finished := by
  cases p with
  | minix => exact Minix.finished_answer h hForks hWaits
  | unixV6Pdp11 => exact UnixV6.finished_answer h hForks hWaits
  | unixV6I8086 => exact UnixV6.finished_answer h hForks hWaits

theorem finished_of_fork (p : Personality) {trap : UInt16} {s t ended : Session p.Cpu}
    {result : Except Fault Unit} (hForks : p.Forks trap s)
    (h : p.system.answer (fun _ => some ended) trap s = some (t, result)) :
    t.host.finished = ended.record (p.forkedChild trap s).process.pid :: ended.host.finished := by
  obtain ⟨-, prepare, reply, u, hChild, hFork, rfl, -⟩ := p.fork_of_answer hForks h
  have hFinished := Session.finished_of_fork hFork
  rw [hChild]
  exact hFinished

theorem finished_forkedChild (p : Personality) (trap : UInt16) (s : Session p.Cpu) :
    (p.forkedChild trap s).host.finished = s.host.finished := by
  cases p <;> rfl

theorem answer_of_wait (p : Personality) {run : Runner p.Cpu} {trap : UInt16} {s : Session p.Cpu}
    (hWaits : p.Waits trap s) :
    ∃ t, p.system.answer run trap s = some (t, .ok ()) ∧
      t.host.finished = s.host.finished.tail ∧
      t.process.machine = p.machineAfterWait trap s.waited s.process.machine := by
  cases p with
  | minix => exact Minix.answer_of_wait hWaits
  | unixV6Pdp11 =>
      obtain ⟨t, hAnswer, hFinished, hMachine⟩ := UnixV6.answer_of_wait hWaits
      exact ⟨t, hAnswer, hFinished, hMachine.trans (machineAfterWait_unixV6Pdp11 trap _ _)⟩
  | unixV6I8086 =>
      obtain ⟨t, hAnswer, hFinished, hMachine⟩ := UnixV6.answer_of_wait hWaits
      exact ⟨t, hAnswer, hFinished, hMachine.trans (machineAfterWait_unixV6I8086 trap _ _)⟩

end Personality
end VintageUnix
