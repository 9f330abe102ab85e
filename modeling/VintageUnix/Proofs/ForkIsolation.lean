import VintageUnix.Proofs.RunInvariants

/-! What a fork leaves of its parent. The child is an arbitrary program that is run to its end on
the host of the parent. Everything that the parent had is as before when the call returns, except
that it goes on in the directory in which the child ended. -/
namespace VintageUnix

open Session (Logs)

/-- Programs and the host give the same number to a signal. -/
theorem HostSignal.toNat_of_ofGuest? {guest : UInt16} {signal : HostSignal}
    (h : ofGuest? guest = some signal) : guest.toNat = signal.val ∧ signal.val < 12 := by
  unfold ofGuest? at h
  split at h <;> cases h <;> decide

theorem HostSignal.ofGuest?_inj {guest guest' : UInt16} {signal : HostSignal}
    (h : ofGuest? guest = some signal) (h' : ofGuest? guest' = some signal) : guest' = guest := by
  rw [← UInt16.toNat_inj, (toNat_of_ofGuest? h').1, (toNat_of_ofGuest? h).1]

theorem SignalState.action_install (s : SignalState) (signal other : HostSignal)
    (action : HostAction) :
    (s.install signal action).action other = if signal = other then action else s.action other := by
  simp only [SignalState.action, install, Fin.getElem_fin, Vector.getElem_set, Fin.ext_iff]

theorem SignalTable.get_set? {t u : SignalTable} {signal : UInt16} {action old : SignalAction}
    (h : t.set? signal action = some (old, u)) (other : UInt16) :
    u.get other = if signal = other then action else t.get other := by
  obtain ⟨found, hFound, hSet⟩ := Option.map_eq_some_iff.1 h
  cases hSet
  have hBound := (List.getElem?_eq_some_iff.1 hFound).1
  simp only [get, List.getElem?_set, UInt16.toNat_inj]
  split <;> rfl

variable {Cpu : Type} [Processor Cpu]

theorem Conventions.action_installAction (c : Conventions Cpu) (t : SignalTable) {guest : UInt16}
    {signal : HostSignal} (hMapped : HostSignal.ofGuest? guest = some signal) (h : Host)
    (other : UInt16) :
    (c.installAction t h other).signals.action signal =
      if other = guest then (c.disposition (t.get guest).handler).action
      else h.signals.action signal := by
  by_cases hGuest : other = guest
  · subst hGuest
    simp only [installAction, hMapped, Host.install, SignalState.action_install, if_true]
  · rw [if_neg hGuest]
    unfold installAction
    split
    next number hOther =>
      have hNumber : number ≠ signal := fun hSame =>
        hGuest (HostSignal.ofGuest?_inj hMapped (hSame ▸ hOther))
      simp only [Host.install, SignalState.action_install, if_neg hNumber]
    next => rfl

/-- Of the signals that are gone through, each is acted on as the table says. -/
theorem Conventions.action_foldl_installAction (c : Conventions Cpu) (t : SignalTable)
    {guest : UInt16} {signal : HostSignal} (hMapped : HostSignal.ofGuest? guest = some signal)
    (guests : List UInt16) (h : Host) :
    (guests.foldl (c.installAction t) h).signals.action signal =
      if guest ∈ guests then (c.disposition (t.get guest).handler).action
      else h.signals.action signal := by
  induction guests generalizing h with
  | nil => rfl
  | cons first rest ih =>
      rw [List.foldl_cons, ih, c.action_installAction t hMapped]
      simp only [List.mem_cons, eq_comm]
      split
      next hRest => rw [if_pos (.inr hRest)]
      next hRest =>
        simp only [hRest, or_false]

theorem Conventions.action_installActions (c : Conventions Cpu) (hCount : 12 ≤ c.signalCount)
    (t : SignalTable) {guest : UInt16} {signal : HostSignal}
    (hMapped : HostSignal.ofGuest? guest = some signal) (h : Host) :
    (c.installActions t h).signals.action signal =
      (c.disposition (t.get guest).handler).action := by
  have hKnown : guest ∈ c.signals := by
    obtain ⟨hNumber, hBound⟩ := HostSignal.toNat_of_ofGuest? hMapped
    refine List.mem_map.2 ⟨guest.toNat, List.mem_range.2 (by omega), UInt16.ofNat_toNat⟩
  rw [installActions, c.action_foldl_installAction t hMapped, if_pos hKnown]

/-- The second host differs only in what processes share: files, the contents and positions
of streams, finished children, process numbers, pending signals, and the actions of the
signals that programs know. Where relative paths start is left open. -/
structure Host.Keeps (h k : Host) : Prop where
  clock : k.clock = h.clock
  user : k.user = h.user
  group : k.group = h.group
  streams : h.KeepsStreams k
  action {signal : HostSignal} : (∀ guest, HostSignal.ofGuest? guest ≠ some signal) →
    k.signals.action signal = h.signals.action signal

namespace Host.Keeps

theorem refl (h : Host) : h.Keeps h :=
  ⟨rfl, rfl, rfl, .refl h, fun _ => rfl⟩

/-- Calls and log records change only what is shared. -/
theorem of_serves {h k l : Host} (first : h.Keeps k)
    (second : k.Serves (l.withJournal k.journal)) : h.Keeps l where
  clock := second.clock.trans first.clock
  user := second.user.trans first.user
  group := second.group.trans first.group
  streams := first.streams.trans second.streams
  action hUnknown :=
    (congrArg (SignalState.action · _) second.signals).trans (first.action hUnknown)

theorem install {h k : Host} (hKeeps : h.Keeps k) {guest : UInt16} {signal : HostSignal}
    (hMapped : HostSignal.ofGuest? guest = some signal) (action : HostAction) :
    h.Keeps (k.install signal action) where
  clock := hKeeps.clock
  user := hKeeps.user
  group := hKeeps.group
  streams := hKeeps.streams
  action {other} hUnknown := by
    have hOther : signal ≠ other := fun hSame => hUnknown guest (hSame ▸ hMapped)
    simp only [Host.install, SignalState.action_install, if_neg hOther]
    exact hKeeps.action hUnknown

theorem installActions {h k : Host} (hKeeps : h.Keeps k) (c : Conventions Cpu)
    (t : SignalTable) : h.Keeps (c.installActions t k) := by
  unfold Conventions.installActions
  generalize c.signals = guests
  induction guests generalizing k with
  | nil => exact hKeeps
  | cons guest rest ih =>
      refine ih ?_
      unfold Conventions.installAction
      split
      next signal hMapped => exact hKeeps.install hMapped _
      next => exact hKeeps

end Host.Keeps

theorem keepsHost (c : Conventions Cpu) (h : Host) :
    RunInvariant c fun s => h.Keeps s.host where
  host hKeeps hServes := hKeeps.of_serves hServes
  process hKeeps _ := hKeeps
  finished _ hKeeps := ⟨hKeeps.clock, hKeeps.user, hKeeps.group, hKeeps.streams, hKeeps.action⟩
  number hKeeps := ⟨hKeeps.clock, hKeeps.user, hKeeps.group, hKeeps.streams, hKeeps.action⟩
  arrive _ hKeeps := ⟨hKeeps.clock, hKeeps.user, hKeeps.group, hKeeps.streams, hKeeps.action⟩
  setAction hKeeps hSet := by
    unfold Session.setSignalAction at hSet
    split at hSet <;> cases hSet
    next hMapped _ => exact hKeeps.install hMapped _
  switch q hKeeps := hKeeps.installActions c q.signals

/-- The host acts on every signal that programs know as the process has asked for. -/
def Session.Synchronised (c : Conventions Cpu) (s : Session Cpu) : Prop :=
  ∀ (guest : UInt16) (signal : HostSignal), HostSignal.ofGuest? guest = some signal →
    s.host.signals.action signal = (c.disposition (s.process.signals.get guest).handler).action

theorem synchronised (c : Conventions Cpu) (hCount : 12 ≤ c.signalCount) :
    RunInvariant c (Session.Synchronised c) where
  host h hServes guest signal hMapped := by
    have hSignals := congrArg (SignalState.action · signal) hServes.signals
    exact hSignals.trans (h guest signal hMapped)
  process h hSignals guest signal hMapped := hSignals ▸ h guest signal hMapped
  finished _ h := h
  number h := h
  arrive _ h := h
  setAction {s t signal action old} h hSet guest number hMapped := by
    unfold Session.setSignalAction at hSet
    split at hSet <;> cases hSet
    next installed table hSignal hTable =>
      simp only [Host.install, SignalState.action_install, SignalTable.get_set? hTable]
      by_cases hSame : signal = guest
      · subst hSame
        obtain rfl : installed = number := Option.some.inj (hSignal.symm.trans hMapped)
        simp only [if_true]
      · have hOther : installed ≠ number := fun hNumber =>
          hSame (HostSignal.ofGuest?_inj hMapped (hNumber ▸ hSignal))
        rw [if_neg hSame, if_neg hOther]
        exact h guest number hMapped
  switch q _ guest signal hMapped := c.action_installActions hCount q.signals hMapped _

theorem SignalTable.get_ofCount (count : Nat) (signal : UInt16) :
    (SignalTable.ofCount count).get signal = {} := by
  simp only [get, ofCount, List.getElem?_replicate]
  split <;> rfl

/-- A new process has asked for nothing, so a host that acts by default acts for it. -/
theorem Session.synchronised_start (c : Conventions Cpu) (hDefault : c.disposition 0 = .default)
    (image : Image) (settings : Settings) {h : Host}
    (hHost : ∀ signal, h.signals.action signal = .default) :
    (c.start image settings h).Synchronised c := by
  intro guest signal _
  change h.signals.action signal =
    (c.disposition ((SignalTable.ofCount c.signalCount).get guest).handler).action
  rw [hHost signal, SignalTable.get_ofCount, hDefault]
  rfl

/-- What the parent finds when its fork returns. A parent that arises where the host acts
on signals as it has asked for has the same actions installed as at the trap. -/
structure Session.ReturnsFromFork (sys : System Cpu) (s : Session Cpu) (machine : Machine Cpu)
    (t : Session Cpu) : Prop where
  process : t.process = { s.process with machine }
  host : s.host.Keeps t.host
  actions : Arises sys (Session.Synchronised sys.toConventions) s →
    t.host.signals.actions = s.host.signals.actions

theorem Conventions.directory_installActions (c : Conventions Cpu) (t : SignalTable) (h : Host) :
    (c.installActions t h).directory = h.directory := by
  obtain ⟨signals, hInstalled⟩ := c.installActions_eq t h
  rw [hInstalled]

theorem Personality.signalCount_ge (p : Personality) :
    12 ≤ p.system.toConventions.signalCount := by
  cases p <;> decide

/-- The child is a run like any other, so what runs leave alone is left alone by it. -/
theorem Session.returnsFromFork (p : Personality) {bound : Nat}
    {prepare : Machine p.Cpu → Machine p.Cpu} {s u : Session p.Cpu}
    {result : Except Errno UInt16}
    (h : s.fork p.system.toConventions (p.system.run bound) prepare = some (result, u))
    (f : Machine p.Cpu → Machine p.Cpu) :
    ∃ ended, p.system.run bound (s.child prepare) = some ended ∧
      s.ReturnsFromFork p.system (f s.process.machine) (u.mapMachine f) ∧
      (u.mapMachine f).host.directory = ended.host.directory := by
  obtain ⟨ended, hRun, -, hLogs⟩ := fork_eq_some h
  have hChild : s.host.Keeps (s.child prepare).host :=
    (keepsHost p.system.toConventions s.host).number (.refl s.host)
  have hEnded : s.host.Keeps ended.host := (keepsHost _ s.host).run hChild hRun
  have hRecorded (child : FinishedChild) : s.host.Keeps (ended.host.addFinished child) :=
    ⟨hEnded.clock, hEnded.user, hEnded.group, hEnded.streams, hEnded.action⟩
  have hRejoined (pid : UInt16) : s.host.Keeps (s.rejoin p.system.toConventions pid ended).host :=
    (hRecorded _).installActions _ _
  have hHost : s.host.Keeps u.host := by
    rw [hLogs.host]
    exact (hRejoined _).of_serves ⟨rfl, rfl, rfl, rfl, rfl, rfl, rfl, .refl _⟩
  refine ⟨ended, hRun, ⟨?_, hHost, fun hParent => ?_⟩, ?_⟩
  · change { u.process with machine := f u.process.machine } = _
    rw [hLogs.process]
    rfl
  · have hStart : s.Synchronised p.system.toConventions :=
      (synchronised _ p.signalCount_ge).arises (fun _ h => h) hParent
    refine Vector.ext fun i hi => ?_
    change u.host.signals.action ⟨i, hi⟩ = s.host.signals.action ⟨i, hi⟩
    by_cases hKnown : ∃ guest, HostSignal.ofGuest? guest = some ⟨i, hi⟩
    · obtain ⟨guest, hMapped⟩ := hKnown
      rw [hStart guest _ hMapped, hLogs.host]
      exact p.system.action_installActions p.signalCount_ge _ hMapped _
    · exact hHost.action fun guest hMapped => hKnown ⟨guest, hMapped⟩
  · change u.host.directory = _
    rw [hLogs.host]
    exact p.system.directory_installActions _ _

/-- A fork runs nothing but the child. -/
theorem Session.fork_congr {c : Conventions Cpu} {run run' : Runner Cpu}
    {prepare : Machine Cpu → Machine Cpu} {s : Session Cpu}
    (h : run (s.child prepare) = run' (s.child prepare)) :
    s.fork c run prepare = s.fork c run' prepare := by
  simp only [fork, h]

namespace Minix

def Forks (trap : UInt16) (s : Session I8086.Cpu) : Prop :=
  trap = messageTrap ∧ Call.ofNumber? (s.memory.word (s.cpu.get .bx + 2)) = some .fork

def forkedChild (s : Session I8086.Cpu) : Session I8086.Cpu :=
  s.child (prepareChild (s.cpu.get .bx))

theorem answer_congr {run run' : Runner I8086.Cpu} {trap : UInt16} {s : Session I8086.Cpu}
    (h : Forks trap s → run (forkedChild s) = run' (forkedChild s)) :
    answer run trap s = answer run' trap s := by
  unfold answer
  split
  next => rfl
  next hTrap =>
    have hPerform : perform run (s.cpu.get .bx) s = perform run' (s.cpu.get .bx) s := by
      unfold perform
      simp only
      split
      next call hCall =>
        cases call with
        | fork =>
            have hChild := h ⟨Decidable.of_not_not hTrap, hCall⟩
            exact congrArg (Option.map _) (Session.fork_congr hChild)
        | _ => rfl
      next => rfl
    exact congrArg (Option.map _) hPerform

theorem answer_of_fork {run : Runner I8086.Cpu} {s t : Session I8086.Cpu}
    {trap : UInt16} {result : Except Fault Unit} (hForks : Forks trap s)
    (h : answer run trap s = some (t, result)) :
    result = .ok () ∧ ∃ pid u,
      s.fork conventions run (prepareChild (s.cpu.get .bx)) = some (.ok pid, u) ∧
      pid = s.host.newPid.1 ∧
      t = u.mapMachine (ReplyConvention.message.report (s.cpu.get .bx) (.ok pid)) := by
  obtain ⟨rfl, hCall⟩ := hForks
  obtain ⟨completion, hPerform, hEnd⟩ := Option.map_eq_some_iff.1 h
  simp only [perform, hCall, Call.perform] at hPerform
  obtain ⟨⟨reply, u⟩, hFork, rfl⟩ := Option.map_eq_some_iff.1 hPerform
  obtain ⟨ended, -, rfl, -⟩ := Session.fork_eq_some hFork
  cases hEnd
  exact ⟨rfl, _, u, hFork, rfl, rfl⟩

end Minix

namespace UnixV6

/-- Where the child goes on: an indirect call has one word behind the trap. -/
def childSkip (trap : UInt16) : UInt16 :=
  if trap = 0 then inlineBytes 0 else 0

/-- Where the parent goes on. -/
def forkSkip (trap pid : UInt16) : UInt16 :=
  if trap = 0 then inlineBytes 0 else parentSkip (.ok pid)

variable {Cpu : Type} [Platform Cpu]

/-- A fork may also be asked for indirectly. -/
def Forks (trap : UInt16) (s : Session Cpu) : Prop :=
  Call.ofNumber? (request trap s).1 = some .fork

def forkedChild (trap : UInt16) (s : Session Cpu) : Session Cpu :=
  s.child (prepareChild (childSkip trap))

theorem indirectSkip_fork {number : UInt16} (hCall : Call.ofNumber? number = some .fork)
    (result : Except Errno UInt16) : indirectSkip number result = inlineBytes 0 := by
  unfold indirectSkip
  rw [hCall]

theorem perform_of_fork {run : Runner Cpu} {trap : UInt16} {s : Session Cpu}
    (hForks : Forks trap s) :
    perform run trap s =
      (s.fork conventions run (prepareChild (childSkip trap))).map fun x =>
        .reply x.1 (if trap = 0 then inlineBytes 0 else parentSkip x.1) x.2 := by
  by_cases hIndirect : trap = 0
  · simp only [Forks, request, if_pos hIndirect] at hForks
    simp only [perform, performDirect, if_pos hIndirect, childSkip, hForks, Option.map_map]
    congr 1
    funext x
    simp only [Function.comp, indirectSkip_fork hForks]
  · simp only [Forks, request, if_neg hIndirect] at hForks
    simp only [perform, performDirect, if_neg hIndirect, childSkip, hForks]

theorem performDirect_of_not_fork {run run' : Runner Cpu} {number : UInt16}
    (h : Call.ofNumber? number ≠ some .fork) (arguments : Arguments) (skipped : UInt16)
    (s : Session Cpu) :
    performDirect run number arguments skipped s = performDirect run' number arguments skipped s := by
  unfold performDirect
  simp only
  split
  case h_4 hCall => exact absurd hCall h
  all_goals rfl

theorem answer_congr {run run' : Runner Cpu} {trap : UInt16} {s : Session Cpu}
    (h : Forks trap s → run (forkedChild trap s) = run' (forkedChild trap s)) :
    answer run trap s = answer run' trap s := by
  have hPerform : perform run trap s = perform run' trap s := by
    by_cases hForks : Forks trap s
    · rw [perform_of_fork hForks, perform_of_fork hForks, Session.fork_congr (h hForks)]
    · by_cases hIndirect : trap = 0
      · simp only [Forks, request, if_pos hIndirect] at hForks
        simp only [perform, if_pos hIndirect]
        exact congrArg (Option.map _) (performDirect_of_not_fork hForks _ _ _)
      · simp only [Forks, request, if_neg hIndirect] at hForks
        simp only [perform, if_neg hIndirect]
        exact performDirect_of_not_fork hForks _ _ _
  exact congrArg (Option.map _) hPerform

theorem answer_of_fork [LawfulProcessor Cpu] {run : Runner Cpu} {trap : UInt16}
    {s t : Session Cpu} {result : Except Fault Unit} (hForks : Forks trap s)
    (h : answer run trap s = some (t, result)) :
    result = .ok () ∧ ∃ pid u,
      s.fork conventions run (prepareChild (childSkip trap)) = some (.ok pid, u) ∧
      pid = s.host.newPid.1 ∧ t = u.mapCpu (resume (.ok pid) (forkSkip trap pid)) := by
  obtain ⟨completion, hPerform, -⟩ := Option.map_eq_some_iff.1 h
  obtain ⟨⟨reply, u⟩, hFork, rfl⟩ :=
    Option.map_eq_some_iff.1 ((perform_of_fork hForks).symm.trans hPerform)
  obtain ⟨ended, -, rfl, -⟩ := Session.fork_eq_some hFork
  have hAnswer := h.symm.trans (answer_of_reply hPerform)
  cases hAnswer
  exact ⟨rfl, _, u, hFork, rfl, rfl⟩

end UnixV6

namespace Personality

/-- The trap is a fork. -/
def Forks : (p : Personality) → (trap : UInt16) → Session p.Cpu → Prop
  | .minix => Minix.Forks
  | .unixV6Pdp11 => (UnixV6.Forks : UInt16 → Session Pdp11.Cpu → Prop)
  | .unixV6I8086 => (UnixV6.Forks : UInt16 → Session I8086.Cpu → Prop)

/-- The child at the start of its run. -/
def forkedChild : (p : Personality) → (trap : UInt16) → Session p.Cpu → Session p.Cpu
  | .minix => fun _ => Minix.forkedChild
  | .unixV6Pdp11 => (UnixV6.forkedChild : UInt16 → Session Pdp11.Cpu → Session Pdp11.Cpu)
  | .unixV6I8086 => (UnixV6.forkedChild : UInt16 → Session I8086.Cpu → Session I8086.Cpu)

/-- The parent's machine when the fork returns the number of the child. On Minix the word
at `bx + 2` and `ax` have changed; on Unix V6 the accumulator, the carry and the
instruction pointer. -/
def machineAfterFork : (p : Personality) → (trap pid : UInt16) → Session p.Cpu → Machine p.Cpu
  | .minix => fun _ pid (s : Session I8086.Cpu) =>
    { cpu := s.cpu.set .ax 0
      memory := s.memory.setWord (s.cpu.get .bx + 2) pid }
  | .unixV6Pdp11 => fun trap pid (s : Session Pdp11.Cpu) =>
    { cpu := ((s.cpu.set .r0 pid).putCode .carry false).set .pc
        (s.cpu.get .pc + UnixV6.forkSkip trap pid)
      memory := s.memory }
  | .unixV6I8086 => fun trap pid (s : Session I8086.Cpu) =>
    { cpu := { (s.cpu.set .ax pid).putFlag .carry false with
        ip := s.cpu.ip + UnixV6.forkSkip trap pid }
      memory := s.memory }

/-- An answer runs nothing but the child of a fork. -/
theorem answer_congr (p : Personality) {run run' : Runner p.Cpu} {trap : UInt16} {s : Session p.Cpu}
    (h : p.Forks trap s → run (p.forkedChild trap s) = run' (p.forkedChild trap s)) :
    p.system.answer run trap s = p.system.answer run' trap s := by
  cases p with
  | minix => exact Minix.answer_congr h
  | unixV6Pdp11 => exact UnixV6.answer_congr h
  | unixV6I8086 => exact UnixV6.answer_congr h

/-- What answers a fork: the child has run to its end, and the parent gets the reply. -/
theorem fork_of_answer (p : Personality) {run : Runner p.Cpu} {trap : UInt16}
    {s t : Session p.Cpu} {result : Except Fault Unit} (hForks : p.Forks trap s)
    (h : p.system.answer run trap s = some (t, result)) :
    result = .ok () ∧ ∃ prepare reply u,
      p.forkedChild trap s = s.child prepare ∧
      s.fork p.system.toConventions run prepare = some (.ok s.host.newPid.1, u) ∧
      t = u.mapMachine reply ∧
      reply s.process.machine = p.machineAfterFork trap s.host.newPid.1 s := by
  cases p with
  | minix =>
      obtain ⟨rfl, pid, u, hFork, rfl, rfl⟩ := Minix.answer_of_fork hForks h
      exact ⟨rfl, _, _, u, rfl, hFork, rfl, rfl⟩
  | unixV6Pdp11 =>
      obtain ⟨rfl, pid, u, hFork, rfl, rfl⟩ := UnixV6.answer_of_fork hForks h
      let goOn : Pdp11.Cpu → Pdp11.Cpu :=
        UnixV6.resume (.ok s.host.newPid.1) (UnixV6.forkSkip trap s.host.newPid.1)
      exact ⟨rfl, _, Machine.mapCpu goOn, u, rfl, hFork, rfl, rfl⟩
  | unixV6I8086 =>
      obtain ⟨rfl, pid, u, hFork, rfl, rfl⟩ := UnixV6.answer_of_fork hForks h
      let goOn : I8086.Cpu → I8086.Cpu :=
        UnixV6.resume (.ok s.host.newPid.1) (UnixV6.forkSkip trap s.host.newPid.1)
      exact ⟨rfl, _, Machine.mapCpu goOn, u, rfl, hFork, rfl, rfl⟩

end Personality

/-- Whatever program the child runs, and however it ends, a fork that returns leaves the
parent as it was but for the reply and where it goes on: registers, memory, descriptors,
signals, mask, symbols and the decoded instructions are as at the trap, and so are the
files behind its descriptors and the actions of the host. The directory of the host, where
relative paths start, is not put back after the child: it is as at the trap exactly if
the run of the child ended in it. -/
theorem fork_isolates_parent_but_for_directory (p : Personality) {bound : Nat} {trap : UInt16}
    {s t : Session p.Cpu} {result : Except Fault Unit} (hForks : p.Forks trap s)
    (hTrap : p.system.trap bound trap s = some (t, result)) :
    result = .ok () ∧ ∃ ended, p.system.run bound (p.forkedChild trap s) = some ended ∧
      s.ReturnsFromFork p.system (p.machineAfterFork trap s.host.newPid.1 s) t ∧
      (t.host.directory = s.host.directory ↔ ended.host.directory = s.host.directory) := by
  have hReturned : result = .ok () ∧ ∃ ended,
      p.system.run bound (p.forkedChild trap s) = some ended ∧
      s.ReturnsFromFork p.system (p.machineAfterFork trap s.host.newPid.1 s) t ∧
      t.host.directory = ended.host.directory := by
    cases p with
    | minix =>
        obtain ⟨rfl, pid, u, hFork, rfl, rfl⟩ := Minix.answer_of_fork hForks hTrap
        exact ⟨rfl, Session.returnsFromFork .minix hFork
          (ReplyConvention.message.report (I8086.Cpu.get s.cpu .bx) (.ok s.host.newPid.1))⟩
    | unixV6Pdp11 =>
        obtain ⟨rfl, pid, u, hFork, rfl, rfl⟩ := UnixV6.answer_of_fork hForks hTrap
        let goOn : Pdp11.Cpu → Pdp11.Cpu :=
          UnixV6.resume (.ok s.host.newPid.1) (UnixV6.forkSkip trap s.host.newPid.1)
        exact ⟨rfl, Session.returnsFromFork .unixV6Pdp11 hFork (Machine.mapCpu goOn)⟩
    | unixV6I8086 =>
        obtain ⟨rfl, pid, u, hFork, rfl, rfl⟩ := UnixV6.answer_of_fork hForks hTrap
        let goOn : I8086.Cpu → I8086.Cpu :=
          UnixV6.resume (.ok s.host.newPid.1) (UnixV6.forkSkip trap s.host.newPid.1)
        exact ⟨rfl, Session.returnsFromFork .unixV6I8086 hFork (Machine.mapCpu goOn)⟩
  obtain ⟨hResult, ended, hRun, hReturns, hDirectory⟩ := hReturned
  exact ⟨hResult, ended, hRun, hReturns, by rw [hDirectory]⟩

/-- A host with one directory below the root, which it is in. -/
private abbrev nestedHost : Host where
  tree := { inodes := #[⟨0o755, .directory 0 [("d", 1)]⟩, ⟨0o755, .directory 0 []⟩] }
  directory := 1

/-- A process whose child changes to the root directory and then runs into a halt. -/
private abbrev wanderer {Cpu : Type} [Processor Cpu] (c : Conventions Cpu) (entry : UInt16)
    (bytes : List UInt8) : Session Cpu :=
  c.start { memory := AddressSpace.shared.write 0 bytes, entry, format := .raw } {} nestedHost

private abbrev minixWanderer : Session I8086.Cpu :=
  wanderer Minix.conventions 0x10
    [0, 0, 2, 0, 0, 0, 0, 0, 0x0e, 0, 0, 0, 0, 0, 0x2f, 0, 0xc7, 0x06, 0x02, 0x00, 0x0c, 0x00,
      0xcd, 0x20, 0xf4]

private abbrev pdp11Wanderer : Session Pdp11.Cpu :=
  wanderer UnixV6.conventions 0 [0x0c, 0x89, 0x06, 0x00, 0x00, 0x00, 0x2f]

private abbrev i8086Wanderer : Session I8086.Cpu :=
  wanderer UnixV6.conventions 0 [0xcd, 0x0c, 0x06, 0x00, 0xf4, 0x00, 0x2f]

private theorem synchronised_pdp11Wanderer :
    pdp11Wanderer.Synchronised (UnixV6.conventions : Conventions Pdp11.Cpu) :=
  Session.synchronised_start _ rfl _ _ fun signal => by
    simp [SignalState.action, Vector.getElem_replicate]

/-- On the PDP-11 the parent goes on in the directory that its child has changed to. -/
theorem fork_isolates_parent_but_for_directory_chdir :
    ∃ t ended, UnixV6.system.trap 1 2 pdp11Wanderer = some (t, .ok ()) ∧
      UnixV6.system.run 1 (UnixV6.forkedChild 2 pdp11Wanderer) = some ended ∧
      pdp11Wanderer.ReturnsFromFork UnixV6.system
        { cpu := ((pdp11Wanderer.cpu.set .r0 2).putCode .carry false).set .pc 2
          memory := pdp11Wanderer.memory } t ∧
      t.host.signals.actions = pdp11Wanderer.host.signals.actions ∧
      t.host.directory ≠ pdp11Wanderer.host.directory := by
  have hMoved : (UnixV6.system.run 1 (UnixV6.forkedChild 2 pdp11Wanderer)).map
      (·.host.directory) = some FileTree.root := by decide +kernel
  have hReturns : (UnixV6.system.trap 1 2 pdp11Wanderer).isSome = true := by decide +kernel
  obtain ⟨⟨t, result⟩, hTrap⟩ := Option.isSome_iff_exists.1 hReturns
  have hForks : UnixV6.Forks 2 pdp11Wanderer := rfl
  obtain ⟨rfl, ended, hRun, hParent, hDirectory⟩ :=
    fork_isolates_parent_but_for_directory .unixV6Pdp11 hForks hTrap
  refine ⟨t, ended, hTrap, hRun, hParent, hParent.actions (.start synchronised_pdp11Wanderer), ?_⟩
  obtain ⟨_, hEnded, hRoot⟩ := Option.map_eq_some_iff.1 hMoved
  obtain rfl := Option.some.inj (hRun.symm.trans hEnded)
  rw [ne_eq, hDirectory, hRoot]
  decide

/-- A parent in the directory `d` whose child changes to the root is in the root when the
fork returns, on every system. -/
theorem fork_moves_parent_chdir :
    (minixWanderer.host.directory = 1 ∧
      (Minix.system.trap 1 Minix.messageTrap minixWanderer).map (·.1.host.directory) = some 0) ∧
    (pdp11Wanderer.host.directory = 1 ∧
      (UnixV6.system.trap 1 2 pdp11Wanderer).map (·.1.host.directory) = some 0) ∧
    (i8086Wanderer.host.directory = 1 ∧
      (UnixV6.system.trap 1 2 i8086Wanderer).map (·.1.host.directory) = some 0) := by
  decide +kernel

end VintageUnix
