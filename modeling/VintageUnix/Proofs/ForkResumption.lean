import VintageUnix.Proofs.ForkIsolation

/-! Where the two processes of a Unix V6 fork go on. The child starts behind the trap and its words.
The parent is meant to find there the one word that it skips, which is how a program tells the two
apart, but it does so only if the fork is direct and the number of the child is not zero. -/
namespace VintageUnix.UnixV6

variable {Cpu : Type} [Platform Cpu]

/-- The registers with which a process goes on at an address when a call gives it a value. -/
def returnAt (ip value : UInt16) (c : Cpu) : Cpu :=
  Processor.setCarry (Processor.setAccumulator (Processor.setIp c ip) value) false

/-- How far ahead of its child a parent goes on. -/
def parentLead (trap pid : UInt16) : UInt16 :=
  if trap = 0 ∨ pid = 0 then 0 else 2

theorem parentSkip_ok (pid : UInt16) : parentSkip (.ok pid) = if pid = 0 then 0 else 2 := by
  unfold parentSkip
  split
  next h =>
    obtain rfl := Except.ok.inj h
    rfl
  next h => rw [if_neg fun hZero => h (congrArg Except.ok hZero)]

/-- An indirect call puts its own skip in the place of that of the fork. -/
theorem forkSkip_eq (trap pid : UInt16) :
    forkSkip trap pid = childSkip trap + parentLead trap pid := by
  unfold forkSkip childSkip parentLead
  by_cases hIndirect : trap = 0
  · simp only [hIndirect, true_or, if_true, UInt16.add_zero]
  · simp only [hIndirect, false_or, if_false, UInt16.zero_add, parentSkip_ok]

/-- The child skips the words behind the trap, of which a direct fork has none. -/
theorem childSkip_of_forks {trap : UInt16} {s : Session Cpu} (hForks : Forks trap s) :
    childSkip trap = inlineBytes trap := by
  unfold childSkip
  split
  next hIndirect => rw [hIndirect]
  next hDirect =>
    simp only [Forks, request, if_neg hDirect] at hForks
    rw [Call.ofNumber?_eq_fork hForks]
    rfl

variable [LawfulPlatform Cpu]

theorem resume_eq_returnAt (pid skip : UInt16) (c : Cpu) :
    resume (.ok pid) skip c = returnAt (Processor.ip c + skip) pid c := by
  simp only [resume, returnAt, LawfulPlatform.setAccumulator_setIp, LawfulPlatform.setCarry_setIp]

/-- A fork whose child comes to an end returns, whatever the child does. -/
theorem resumes_after_fork {run : Runner Cpu} {trap : UInt16} {s ended : Session Cpu}
    (hForks : Forks trap s) (hRun : run (forkedChild trap s) = some ended) :
    (forkedChild trap s).process.machine =
      s.process.machine.mapCpu (returnAt (Processor.ip s.cpu + inlineBytes trap) 0) ∧
    ∃ t, answer run trap s = some (t, .ok ()) ∧
      t.process.machine = s.process.machine.mapCpu
        (returnAt (Processor.ip s.cpu + inlineBytes trap + parentLead trap s.host.newPid.1)
          s.host.newPid.1) := by
  refine ⟨?_, ?_⟩
  · rw [← childSkip_of_forks hForks]
    rfl
  · obtain ⟨⟨result, u⟩, hFork⟩ :
        ∃ reply, s.fork conventions run (prepareChild (childSkip trap)) = some reply :=
      ⟨_, Option.map_eq_some_iff.2 ⟨ended, hRun, rfl⟩⟩
    obtain ⟨_, _, rfl, -⟩ := Session.fork_eq_some hFork
    have hReply := (perform_of_fork hForks).trans (congrArg _ hFork)
    refine ⟨_, answer_of_reply hReply, ?_⟩
    have hIp : Processor.ip s.cpu + inlineBytes trap + parentLead trap s.host.newPid.1 =
        Processor.ip s.cpu + forkSkip trap s.host.newPid.1 := by
      rw [forkSkip_eq, childSkip_of_forks hForks, UInt16.add_assoc]
    change u.process.machine.mapCpu
      (resume (.ok s.host.newPid.1) (forkSkip trap s.host.newPid.1)) = _
    rw [hIp, Session.process_of_fork hFork]
    exact congrArg (fun cpu => s.process.machine.mapCpu fun _ => cpu) (resume_eq_returnAt _ _ _)

end VintageUnix.UnixV6

namespace VintageUnix

/-- Whenever the child of a fork on Unix V6 comes to an end, the fork returns in both
processes: in the child with zero behind the trap and its words, in the parent with the
number of the child. The parent goes on one word further than the child, as a program
expects it to, only if the fork is direct and the child's number is not zero. After an
indirect fork both go on at the same word. -/
theorem fork_resumes_parent_behind_child (bound : Nat) (trap : UInt16) :
    (∀ s ended : Session Pdp11.Cpu, UnixV6.Forks trap s →
      UnixV6.system.run bound (UnixV6.forkedChild trap s) = some ended →
      let start := s.cpu.get .pc + UnixV6.inlineBytes trap
      let pid := (UnixV6.forkedChild trap s).process.pid
      (UnixV6.forkedChild trap s).process.machine =
        { cpu := ((s.cpu.set .pc start).set .r0 0).putCode .carry false, memory := s.memory } ∧
      ∃ t, UnixV6.system.trap bound trap s = some (t, .ok ()) ∧
        t.process.machine =
          { cpu := ((s.cpu.set .pc (start + if trap = 0 ∨ pid = 0 then 0 else 2)).set .r0
              pid).putCode .carry false
            memory := s.memory }) ∧
    (∀ s ended : Session I8086.Cpu, UnixV6.Forks trap s →
      UnixV6.system.run bound (UnixV6.forkedChild trap s) = some ended →
      let start := s.cpu.ip + UnixV6.inlineBytes trap
      let pid := (UnixV6.forkedChild trap s).process.pid
      (UnixV6.forkedChild trap s).process.machine =
        { cpu := (({ s.cpu with ip := start } : I8086.Cpu).set .ax 0).putFlag .carry false
          memory := s.memory } ∧
      ∃ t, UnixV6.system.trap bound trap s = some (t, .ok ()) ∧
        t.process.machine =
          { cpu := (({ s.cpu with ip := start + if trap = 0 ∨ pid = 0 then 0 else 2 } :
              I8086.Cpu).set .ax pid).putFlag .carry false
            memory := s.memory }) :=
  ⟨fun _ _ hForks hRun => UnixV6.resumes_after_fork hForks hRun,
    fun _ _ hForks hRun => UnixV6.resumes_after_fork hForks hRun⟩

/-- A process with a halt at the address 2, and the number of a fork for an indirect call
at 0. -/
private abbrev halting {Cpu : Type} [UnixV6.Platform Cpu] (halt : UInt8) : Session Cpu :=
  UnixV6.conventions.start
    { memory := AddressSpace.shared.write 0 [4, 0, halt, 0, 2], entry := 0, format := .raw } {} {}

private abbrev pdp11Halting : Session Pdp11.Cpu := halting 0

private abbrev i8086Halting : Session I8086.Cpu := halting 0xf4

/-- An indirect fork on the PDP-11 and on the 8086, as the child halts at once. -/
theorem fork_resumes_parent_behind_child_indirect :
    (∃ t, UnixV6.system.trap 1 0 pdp11Halting = some (t, .ok ()) ∧
      t.process.machine =
        { cpu := ((pdp11Halting.cpu.set .pc 2).set .r0 2).putCode .carry false
          memory := pdp11Halting.memory }) ∧
    (∃ t, UnixV6.system.trap 1 0 i8086Halting = some (t, .ok ()) ∧
      t.process.machine =
        { cpu := (({ i8086Halting.cpu with ip := 2 } : I8086.Cpu).set .ax 2).putFlag .carry false
          memory := i8086Halting.memory }) := by
  have hPdp11 : (UnixV6.system.run 1 (UnixV6.forkedChild 0 pdp11Halting)).isSome = true := by
    decide +kernel
  have hI8086 : (UnixV6.system.run 1 (UnixV6.forkedChild 0 i8086Halting)).isSome = true := by
    decide +kernel
  have hPdp11Forks : UnixV6.Forks 0 pdp11Halting := by
    unfold UnixV6.Forks
    decide +kernel
  have hI8086Forks : UnixV6.Forks 0 i8086Halting := by
    unfold UnixV6.Forks
    decide +kernel
  constructor
  · obtain ⟨ended, hRun⟩ := Option.isSome_iff_exists.1 hPdp11
    exact ((fork_resumes_parent_behind_child 1 0).1 pdp11Halting ended hPdp11Forks hRun).2
  · obtain ⟨ended, hRun⟩ := Option.isSome_iff_exists.1 hI8086
    exact ((fork_resumes_parent_behind_child 1 0).2 i8086Halting ended hI8086Forks hRun).2

/-- After an indirect fork the parent executes the word that its child has started with. -/
theorem indirect_fork_resumes_parent_at_child :
    ((UnixV6.forkedChild 0 pdp11Halting).cpu.get .pc = 2 ∧
      (UnixV6.system.trap 1 0 pdp11Halting).map (·.1.cpu.get .pc) = some 2) ∧
    ((UnixV6.forkedChild 0 i8086Halting).cpu.ip = 2 ∧
      (UnixV6.system.trap 1 0 i8086Halting).map (·.1.cpu.ip) = some 2) := by
  decide +kernel

end VintageUnix
