import VintageUnix.Proofs.InnerSteps

/-! For whom the host acts on signals. Every process has a signal table of its own, but all of them
share one host. Before each step of any of them the host acts as the table asks of the process
that takes the step, since it is told so wherever the table or the process changes. -/
namespace VintageUnix

/-- The host acts on the signals that programs know as the table of the process asks, and on all
others as it did first. -/
structure Personality.HostActsFor (p : Personality) (first : Host) (u : Session p.Cpu) : Prop where
  known {guest : UInt16} {signal : HostSignal} : HostSignal.ofGuest? guest = some signal →
    u.host.signals.action signal =
      (p.system.disposition (u.process.signals.get guest).handler).action
  unknown {signal : HostSignal} : (∀ guest, HostSignal.ofGuest? guest ≠ some signal) →
    u.host.signals.action signal = first.signals.action signal

theorem Arises.hostActsFor {p : Personality} {s u : Session p.Cpu}
    (hStart : s.Synchronised p.system.toConventions) (h : Arises p.system (· = s) u) :
    p.HostActsFor s.host u where
  known hMapped := by
    have hSynchronised : u.Synchronised p.system.toConventions := by
      refine (synchronised _ p.signalCount_ge).arises ?_ h
      rintro _ rfl
      exact hStart
    exact hSynchronised _ _ hMapped
  unknown hUnknown := by
    have hKeeps : s.host.Keeps u.host := by
      refine (keepsHost _ s.host).arises ?_ h
      rintro _ rfl
      exact .refl _
    exact hKeeps.action hUnknown

/-- Start with a process that has asked for nothing, on a host that acts by default on the
signals that programs know. Whatever is done with it, before each step of whichever process
takes it (the process itself, one of its handlers, a child of any depth) the host acts on
these signals as the table of that process asks, and it never touches the others. So it makes
no difference what a step would do where the host acts otherwise: no step begins there. -/
theorem host_acts_for_stepping_process (p : Personality) {s : Session p.Cpu}
    [DecidablePred (p.HostActsFor s.host)]
    (hTable : ∀ guest, s.process.signals.get guest = {})
    (hDefault : ∀ guest signal, HostSignal.ofGuest? guest = some signal →
      s.host.signals.action signal = .default)
    (ops : List (Nat × Operation)) :
    (∀ (t : Session p.Cpu) (responses : List Response),
      Operation.performAll (Operation.perform p.system) ops s = some (t, responses) →
      ∀ (bound : Nat) (op : Operation) (u : Session p.Cpu), p.StepsDuring bound t u op →
        p.HostActsFor s.host u) ∧
    ∀ elsewhere : System.Stepper p.Cpu,
      Operation.performAll (Operation.performWith p.system
          (p.system.stepWhere (p.HostActsFor s.host) elsewhere)) ops s =
        Operation.performAll (Operation.perform p.system) ops s := by
  have hStarts : Arises p.system (· = s) s := .start rfl
  have hZero : p.system.disposition 0 = .default := by cases p <;> rfl
  have hStart : s.Synchronised p.system.toConventions := by
    intro guest signal hMapped
    rw [hDefault guest signal hMapped, hTable guest, hZero]
    rfl
  constructor
  · intro t responses hOps bound op u hSteps
    exact ((hStarts.performAll hOps).stepsDuring hSteps).hostActsFor hStart
  · intro elsewhere
    exact hStarts.performAll_stepWhere (fun u h => h.hostActsFor hStart) elsewhere ops

/-- A process that asks to catch its interrupts and forks. The child ignores them with its
first instruction. -/
private abbrev pdp11Catches : Session Personality.unixV6Pdp11.Cpu :=
  (UnixV6.conventions : Conventions Pdp11.Cpu).start
    { memory := AddressSpace.shared.write 0 [0x02, 0, 0x10, 0, 0x30, 0x89, 0x02, 0, 0x01, 0]
      entry := 0
      format := .raw } {} {}

/-- The process when it forks. -/
private abbrev pdp11Caught : Option (Session Personality.unixV6Pdp11.Cpu) :=
  (Personality.unixV6Pdp11.system.trap 1 48 pdp11Catches).map (·.1)

/-- The interrupt is caught while the parent runs, and ignored before the second step of
its child. Were there no answer to a step where the host acts otherwise, the fork would be answered
all the same. -/
theorem host_acts_for_stepping_process_child :
    ∃ t responses u,
      Operation.performAll (Operation.perform Personality.unixV6Pdp11.system) [(1, .trap 48)]
        pdp11Catches = some (t, responses) ∧
      Personality.unixV6Pdp11.StepsDuring 1 t u (.trap 2) ∧
      t.host.signals.action .interrupt = .catch ∧
      (u.process.signals.get 2).handler = 1 ∧
      u.host.signals.action .interrupt =
        (Personality.unixV6Pdp11.system.disposition (u.process.signals.get 2).handler).action ∧
      u.host.signals.action 3 = pdp11Catches.host.signals.action 3 ∧
      ∃ v others, Operation.performAll (Operation.performWith Personality.unixV6Pdp11.system
          (@System.stepWhere _ _ Personality.unixV6Pdp11.system
            (Personality.unixV6Pdp11.HostActsFor pdp11Catches.host)
            (fun _ => Classical.propDecidable _) fun _ => none))
        [(1, .trap 48), (1, .trap 2)] pdp11Catches = some (v, others) := by
  have hCaught : (pdp11Caught.map fun t => t.host.signals.action .interrupt) = some .catch := by
    decide +kernel
  have hChild : (pdp11Caught.bind fun t =>
      (Personality.unixV6Pdp11.system.step 1 (Personality.unixV6Pdp11.startedChild 2 t)).map
        fun x => (x.2.toOption, (x.1.process.signals.get 2).handler)) = some (some (), 1) := by
    decide +kernel
  have hForks : (pdp11Caught.map fun t => (@UnixV6.request Pdp11.Cpu _ 2 t).1) = some 2 := by
    decide +kernel
  have hForked : (Operation.performAll (Operation.perform Personality.unixV6Pdp11.system)
      [(1, .trap 48), (1, .trap 2)] pdp11Catches).isSome = true := by
    decide +kernel
  obtain ⟨⟨t, result⟩, hTrap, hAction⟩ := by
    simpa only [pdp11Caught, Option.map_map, Option.map_eq_some_iff] using hCaught
  simp only [pdp11Caught, hTrap, Option.map_some, Option.bind_some] at hChild hForks
  obtain ⟨⟨u, reaction⟩, hStep, hHandler⟩ := Option.map_eq_some_iff.1 hChild
  cases reaction with
  | error fault => cases hHandler
  | ok _ =>
      have hIgnores : (u.process.signals.get 2).handler = 1 := (Prod.mk.inj hHandler).2
      have hOps : Operation.performAll (Operation.perform Personality.unixV6Pdp11.system)
          [(1, .trap 48)] pdp11Catches = some (t, [.reaction result]) := by
        simp only [Operation.performAll, Operation.perform, hTrap]
        rfl
      have hSteps : Personality.unixV6Pdp11.StepsDuring 1 t u (.trap 2) :=
        ⟨congrArg UnixV6.Call.ofNumber? (Option.some.inj hForks), u, .single hStep, .own⟩
      have hAll := @host_acts_for_stepping_process .unixV6Pdp11 pdp11Catches
        (fun _ => Classical.propDecidable _) (SignalTable.get_ofCount _)
        fun _ _ _ => Vector.getElem_replicate _
      have hActs := (hAll [(1, .trap 48)]).1 t _ hOps 1 (.trap 2) u hSteps
      have hUnknown : ∀ guest, HostSignal.ofGuest? guest ≠ some 3 := by
        intro guest
        unfold HostSignal.ofGuest?
        split <;> decide
      obtain ⟨⟨v, others⟩, hBoth⟩ := Option.isSome_iff_exists.1 hForked
      exact ⟨t, _, u, hOps, hSteps, hAction, hIgnores, hActs.known rfl, hActs.unknown hUnknown,
        v, others, ((hAll _).2 fun _ => none).trans hBoth⟩

end VintageUnix
