import VintageUnix.Proofs.TextFrame

/-! An indirect call on Unix V6 does what the call does that it stands for. Two processes that are
the same but for their instruction pointers, and that find the same arguments, one in its text and
one in its data, get the same answer. Only where they go on differs, by the words that are
skipped. -/
namespace VintageUnix

section Places

variable {Cpu : Type} [Processor Cpu]

/-- The session with its instruction pointer at the given place. -/
def Session.withIp (s : Session Cpu) (ip : UInt16) : Session Cpu :=
  s.mapCpu (Processor.setIp · ip)

theorem Session.trace_withIp (s : Session Cpu) (ip : UInt16) (least : Trace) (level : Level)
    (topic : Topic) (text : String) :
    (s.withIp ip).trace least level topic text = (s.trace least level topic text).withIp ip := by
  have hSettings : (s.withIp ip).process.settings = s.process.settings := rfl
  unfold trace
  rw [hSettings]
  split <;> rfl

/-- A change of the registers that can be made before the instruction pointer is set. -/
theorem Session.mapCpu_withIp {u : Session Cpu} {f g : Cpu → Cpu} {ip ip' : UInt16}
    (h : f (Processor.setIp u.cpu ip) = Processor.setIp (g u.cpu) ip') :
    (u.withIp ip).mapCpu f = (u.mapCpu g).withIp ip' :=
  congrArg (fun cpu => u.mapCpu fun _ => cpu) h

/-- The same session at two places. -/
def SameAtPlaces (ip ip' : UInt16) (s t : Session Cpu) : Prop :=
  ∃ u : Session Cpu, s = u.withIp ip ∧ t = u.withIp ip'

end Places

namespace UnixV6

variable {Cpu : Type} [Platform Cpu]

section Calls

variable [LawfulPlatform Cpu] (c : Conventions Cpu) (ip ip' : UInt16)

/-- No call looks at the instruction pointer. -/
theorem sameAtPlaces_callRelation : CallRelation c (SameAtPlaces ip ip') where
  looksLike h := by
    obtain ⟨u, rfl, rfl⟩ := h
    refine ⟨rfl, ?_, rfl, rfl, rfl, rfl, rfl, rfl⟩
    exact (LawfulPlatform.sp_setIp u.cpu ip').trans (LawfulPlatform.sp_setIp u.cpu ip).symm
  log level topic text h := by
    obtain ⟨u, rfl, rfl⟩ := h
    exact ⟨u.log level topic text, rfl, rfl⟩
  trace _ h := by
    obtain ⟨u, rfl, rfl⟩ := h
    exact ⟨u.trace _ _ _ _, u.trace_withIp .., u.trace_withIp ..⟩
  serve {s t k} h hServes := by
    obtain ⟨u, rfl, rfl⟩ := h
    have hJournal : k.withJournal (u.withIp ip').host.journal = k := by
      change k.withJournal (u.withIp ip).host.journal = k
      rw [← hServes.journal]
      rfl
    rw [hJournal]
    exact ⟨u.withHost k, rfl, rfl⟩
  print bytes h := by
    obtain ⟨u, rfl, rfl⟩ := h
    exact ⟨u.mapHost fun h => h.withJournal (h.journal.push (.output bytes)), rfl, rfl⟩
  descriptors d h := by
    obtain ⟨u, rfl, rfl⟩ := h
    exact ⟨u.withDescriptors d, rfl, rfl⟩
  umask umask h := by
    obtain ⟨u, rfl, rfl⟩ := h
    exact ⟨u.mapProcess fun p => { p with umask }, rfl, rfl⟩
  setAction signal action h := by
    obtain ⟨u, rfl, rfl⟩ := h
    have hTable (ip : UInt16) : (u.withIp ip).process.signals = u.process.signals := rfl
    unfold Session.setSignalAction
    simp only [hTable]
    split
    next number old table _ _ =>
      let installed : Session Cpu :=
        { process := { u.process with signals := table }
          host := u.host.install number (c.disposition action.handler).action }
      exact .ok ⟨rfl, installed, rfl, rfl⟩
    next => exact .error _
  store {_ _ f} _ h := by
    obtain ⟨u, rfl, rfl⟩ := h
    exact ⟨u.mapMemory f, rfl, rfl⟩
  moveBreak brk h := by
    obtain ⟨u, rfl, rfl⟩ := h
    exact ⟨u.mapMemory fun m => { m with brk }, rfl, rfl⟩

end Calls

/-- How many words belong to a call. -/
def inlineWords (number : UInt16) : Nat :=
  (callTable[number.toNat]?.map TableEntry.inlineWords).getD 0

/-- How many of its arguments a call takes from behind the trap. -/
def Call.argumentCount : Call → Nat
  | indir | exit | fork => 0
  | exec => 2
  | ordinary c => c.argumentCount

/-- A call takes no words that do not belong to it. -/
theorem Call.argumentCount_le {number : UInt16} {call : Call} (h : ofNumber? number = some call) :
    call.argumentCount ≤ inlineWords number := by
  unfold ofNumber? at h
  split at h <;> cases h <;> decide

/-- The call gives its caller a result, unless it replaces the program. -/
def Replies (number : UInt16) : Prop :=
  ∃ call, Call.ofNumber? number = some call ∧ call ≠ .exit

/-- A new program starts at its own entry point, wherever the call stood. -/
theorem execute_withIp (path : String) (vector : UInt16) (u : Session Cpu) (ip : UInt16) :
    execute path vector (u.withIp ip) = match execute path vector u with
      | (.ok (), t) => (.ok (), t)
      | (.error e, t) => (.error e, t.withIp ip) := by
  have hMemory : (u.withIp ip).memory = u.memory := rfl
  have hHost (t : Session Cpu) : (t.withIp ip).host = t.host := rfl
  have hPath (t : Session Cpu) : (t.withIp ip).process.hostPath path = t.process.hostPath path :=
    rfl
  simp only [execute, Session.execute, Session.trace_withIp, hMemory, hHost, hPath]
  generalize Session.trace _ _ _ _ u = logged
  cases (conventions : Conventions Cpu).loadFile logged.host (logged.process.hostPath path) with
  | ok image => rfl
  | error cause => rfl

theorem execute_ok_iff {path : String} {vector : UInt16} {s : Session Cpu} :
    (execute path vector s).1 = .ok () ↔
      ∃ image, (conventions : Conventions Cpu).loadFile s.host (s.process.hostPath path) =
        .ok image := by
  refine ⟨loads_of_execute, fun ⟨image, hLoad⟩ => ?_⟩
  have hLogged (least level topic text) := (Session.Logs.trace least level topic text s).loadFile
    conventions path
  simp only [execute, Session.execute, hLogged, hLoad]
  rfl

/-- The call is an exec of a file that can be loaded. -/
def LoadsProgram (number : UInt16) (arguments : Arguments) (s : Session Cpu) : Prop :=
  Call.ofNumber? number = some .exec ∧
    ∃ image, (conventions : Conventions Cpu).loadFile s.host
      (s.process.hostPath (s.memory.stringAt (arguments.word s.memory 0))) = .ok image

/-- The same call comes to the same at two places. -/
inductive CallsAgree (number ip ip' : UInt16) (loads : Prop) :
    Completion Cpu → Completion Cpu → Prop
  | reply (result : Except Errno UInt16) (t : Session Cpu) (hReplies : Replies number)
    (hKeeps : ¬ loads) (hSkip : indirectSkip number result = inlineBytes 0) :
    CallsAgree number ip ip' loads (.reply result (inlineBytes number) (t.withIp ip))
      (.reply result (inlineBytes number) (t.withIp ip'))
  | replaced (t : Session Cpu) (hLoads : loads) (hSkip : indirectSkip number (.ok 0) = 0) :
    CallsAgree number ip ip' loads (.reply (.ok 0) 0 t) (.reply (.ok 0) 0 t)
  | final (t : Session Cpu) (hEnds : ¬ Replies number) :
    CallsAgree number ip ip' loads (.final (t.withIp ip)) (.final (t.withIp ip'))
  | fault (f : Fault) (t : Session Cpu) (hEnds : ¬ Replies number) :
    CallsAgree number ip ip' loads (.fault f (t.withIp ip)) (.fault f (t.withIp ip'))

section Agreement

variable (run run' : Runner Cpu) {number : UInt16} {arguments others : Arguments}
  (skipped skipped' : UInt16) (s : Session Cpu) (ip ip' : UInt16)

/-- The call is answered at both places, and alike. -/
def AnsweredAlike (number : UInt16) (arguments others : Arguments) : Prop :=
  ∃ x y, performDirect run number arguments skipped (s.withIp ip) = some x ∧
    performDirect run' number others skipped' (s.withIp ip') = some y ∧
    CallsAgree number ip ip' (LoadsProgram number arguments s) x y

theorem answeredAlike_none (hCall : Call.ofNumber? number = none) :
    AnsweredAlike run run' skipped skipped' s ip ip' number arguments others := by
  have hEnds : ¬ Replies number := by
    rintro ⟨call, hOther, -⟩
    cases hCall.symm.trans hOther
  cases hName : callName? number with
  | none =>
      simp only [AnsweredAlike, performDirect, hCall, hName]
      exact ⟨_, _, rfl, rfl, .fault .unknownCall (s.unknownCall number).1 hEnds⟩
  | some name =>
      simp only [AnsweredAlike, performDirect, hCall, hName]
      exact ⟨_, _, rfl, rfl, .fault .unimplementedCall (s.notImplemented name).1 hEnds⟩

theorem answeredAlike_exec (hCall : Call.ofNumber? number = some .exec)
    (hPath : others.word s.memory 0 = arguments.word s.memory 0)
    (hVector : others.word s.memory 1 = arguments.word s.memory 1) :
    AnsweredAlike run run' skipped skipped' s ip ip' number arguments others := by
  have hMemory (ip : UInt16) : (s.withIp ip).memory = s.memory := rfl
  have hReplies : Replies number := ⟨.exec, hCall, nofun⟩
  simp only [AnsweredAlike, performDirect, hCall, hMemory, hPath, hVector, execute_withIp]
  rcases hExecuted : execute (s.memory.stringAt (arguments.word s.memory 0))
    (arguments.word s.memory 1) s with ⟨result, t⟩
  cases result with
  | ok _ =>
      have hLoads : LoadsProgram number arguments s :=
        ⟨hCall, execute_ok_iff.1 (congrArg Prod.fst hExecuted)⟩
      have hSkip : indirectSkip number (.ok 0) = 0 := by simp only [indirectSkip, hCall]
      exact ⟨_, _, rfl, rfl, .replaced t hLoads hSkip⟩
  | error e =>
      have hKeeps : ¬ LoadsProgram number arguments s := by
        intro hLoads
        have hFailed := congrArg Prod.fst hExecuted
        rw [execute_ok_iff.2 hLoads.2] at hFailed
        cases hFailed
      exact ⟨_, _, rfl, rfl, .reply _ t hReplies hKeeps (indirectSkip_error ..)⟩

variable [LawfulPlatform Cpu]

theorem answeredAlike_ordinary {c : OrdinaryCall}
    (hCall : Call.ofNumber? number = some (.ordinary c))
    (hWords : ∀ i : Nat, i < c.argumentCount →
      others.word s.memory (UInt16.ofNat i) = arguments.word s.memory (UInt16.ofNat i)) :
    AnsweredAlike run run' skipped skipped' s ip ip' number arguments others := by
  have hReplies : Replies number := ⟨.ordinary c, hCall, nofun⟩
  have hKeeps : ¬ LoadsProgram number arguments s := by
    intro hLoads
    cases hCall.symm.trans hLoads.1
  have hSkip (result : Except Errno UInt16) : indirectSkip number result = inlineBytes 0 := by
    simp only [indirectSkip, hCall]
  have hFirst :
      Processor.accumulator (s.withIp ip').cpu = Processor.accumulator (s.withIp ip).cpu :=
    (LawfulPlatform.accumulator_setIp s.cpu ip').trans
      (LawfulPlatform.accumulator_setIp s.cpu ip).symm
  have hStatus (status : UInt16) {x y : Session Cpu} (h : SameAtPlaces ip ip' x y) :
      SameAtPlaces ip ip' (x.mapCpu (Platform.setWaitStatus status))
        (y.mapCpu (Platform.setWaitStatus status)) := by
    obtain ⟨u, rfl, rfl⟩ := h
    exact ⟨u.mapCpu (Platform.setWaitStatus status),
      Session.mapCpu_withIp (LawfulPlatform.setWaitStatus_setIp u.cpu ip status),
      Session.mapCpu_withIp (LawfulPlatform.setWaitStatus_setIp u.cpu ip' status)⟩
  have hRelated := sameAtPlaces_callRelation (conventions : Conventions Cpu) ip ip'
  obtain ⟨hResult, t, hDirect, hIndirect⟩ :=
    c.perform_agrees hRelated ⟨s, rfl, rfl⟩ hFirst (fun _ finished =>
      ⟨s.withFinished finished, rfl, rfl⟩) (fun _ => hStatus) hWords
  simp only [AnsweredAlike, performDirect, hCall, hResult, hDirect, hIndirect]
  exact ⟨_, _, rfl, rfl, .reply _ t hReplies hKeeps (hSkip _)⟩

theorem answeredAlike (hFork : Call.ofNumber? number ≠ some .fork)
    (hWords : ∀ i : Nat, i < inlineWords number →
      others.word s.memory (UInt16.ofNat i) = arguments.word s.memory (UInt16.ofNat i)) :
    AnsweredAlike run run' skipped skipped' s ip ip' number arguments others := by
  cases hCall : Call.ofNumber? number with
  | none => exact answeredAlike_none _ _ _ _ s ip ip' hCall
  | some call =>
      have hTaken (i : Nat) (hIndex : i < call.argumentCount) :
          others.word s.memory (UInt16.ofNat i) = arguments.word s.memory (UInt16.ofNat i) :=
        hWords i (Nat.lt_of_lt_of_le hIndex (Call.argumentCount_le hCall))
      cases call with
      | indir =>
          have hKeeps : ¬ LoadsProgram number arguments s := by
            intro hLoads
            cases hCall.symm.trans hLoads.1
          have hReplies : Replies number := ⟨.indir, hCall, nofun⟩
          simp only [AnsweredAlike, performDirect, hCall]
          exact ⟨_, _, rfl, rfl, .reply _ s hReplies hKeeps (indirectSkip_error ..)⟩
      | exit =>
          have hEnds : ¬ Replies number := by
            rintro ⟨call, hOther, hExit⟩
            exact hExit (Option.some.inj (hOther.symm.trans hCall))
          have hAccumulator (ip : UInt16) :
              Processor.accumulator (s.withIp ip).cpu = Processor.accumulator s.cpu :=
            LawfulPlatform.accumulator_setIp s.cpu ip
          simp only [AnsweredAlike, performDirect, hCall, hAccumulator, Session.exit,
            Session.trace_withIp]
          exact ⟨_, _, rfl, rfl, .final (s.exit (Processor.accumulator s.cpu).toInt16.toInt) hEnds⟩
      | fork => exact absurd hCall hFork
      | exec =>
          exact answeredAlike_exec _ _ _ _ s ip ip' hCall (hTaken 0 (by decide))
            (hTaken 1 (by decide))
      | ordinary c => exact answeredAlike_ordinary _ _ _ _ s ip ip' hCall hTaken

end Agreement

section Calls

variable [LawfulPlatform Cpu]

/-- A reply moves the instruction pointer by the skip from wherever it is. -/
theorem mapCpu_resume_withIp (result : Except Errno UInt16) (skip ip : UInt16) (u : Session Cpu) :
    (u.withIp ip).mapCpu (resume result skip) =
      (u.mapCpu (resume result 0)).withIp (ip + skip) := by
  refine Session.mapCpu_withIp ?_
  cases result with
  | ok v =>
      simp only [resume, LawfulPlatform.setAccumulator_setIp, LawfulPlatform.setCarry_setIp,
        LawfulPlatform.ip_setIp, LawfulPlatform.setIp_setIp]
  | error e =>
      simp only [resume, LawfulPlatform.setAccumulator_setIp, LawfulPlatform.setCarry_setIp,
        LawfulPlatform.ip_setIp, LawfulPlatform.setIp_setIp]

/-- What an indirect call makes of the completion of the call that it stands for. -/
def Completion.afterIndirect (number : UInt16) : Completion Cpu → Completion Cpu
  | reply result _ s => .reply result (indirectSkip number result) s
  | other => other

theorem perform_direct_withIp (run : Runner Cpu) {number : UInt16} (hNumber : number ≠ 0)
    (s : Session Cpu) (ip : UInt16) :
    perform run number (s.withIp ip) =
      performDirect run number { address := ip, inText := true } 0 (s.withIp ip) := by
  have hIp : Processor.ip (s.withIp ip).cpu = ip := LawfulPlatform.ip_setIp s.cpu ip
  simp only [perform, if_neg hNumber, hIp]

theorem perform_indirect_withIp (run : Runner Cpu) {number address ip : UInt16} {s : Session Cpu}
    (hAddress : s.memory.textWord ip = address)
    (hByte : (s.memory.byte address).toUInt16 = number) :
    perform run 0 (s.withIp ip) =
      (performDirect run number { address := address + 2, inText := false } (inlineBytes 0)
        (s.withIp ip)).map (.afterIndirect number) := by
  have hIp : Processor.ip (s.withIp ip).cpu = ip := LawfulPlatform.ip_setIp s.cpu ip
  have hMemory : (s.withIp ip).memory = s.memory := rfl
  have hFound : ({ address := ip, inText := true } : Arguments).word s.memory 0 = address := by
    simp only [Arguments.word, if_true]
    exact (congrArg s.memory.textWord (UInt16.add_zero ip)).trans hAddress
  simp only [perform, if_true, hIp, hMemory, hFound, hByte]
  rfl

theorem replaces_withIp_iff {number ip : UInt16} {s : Session Cpu} (hNumber : number ≠ 0) :
    Replaces number (s.withIp ip) ↔ LoadsProgram number { address := ip, inText := true } s := by
  have hIp : Processor.ip (s.withIp ip).cpu = ip := LawfulPlatform.ip_setIp s.cpu ip
  simp only [Replaces, request, if_neg hNumber, hIp]
  exact Iff.rfl

/-- Nothing is skipped at the entry point of a new program. -/
theorem mapCpu_resume_zero (t : Session Cpu) :
    t.mapCpu (resume (.ok 0) 0) = (t.mapCpu (resume (.ok 0) 0)).withIp (Processor.ip t.cpu) := by
  have hCpu : (resume (.ok 0) 0 t.cpu : Cpu) =
      Processor.setIp (resume (.ok 0) 0 t.cpu) (Processor.ip t.cpu) := by
    simp only [resume, UInt16.add_zero]
    exact (LawfulPlatform.setIp_setIp _ _ _).symm
  exact congrArg (fun cpu => t.mapCpu fun _ => cpu) hCpu

/-- Every call but a fork does the same, and faults alike, whether its number and its
arguments are at the trap or in the data. After a reply each process goes on behind the words
that belong to its own trap, and a new program starts at its entry point. -/
theorem indirect_call_agrees_with_direct (run run' : Runner Cpu) (s : Session Cpu)
    {number directIp indirectIp address : UInt16} (hNumber : number ≠ 0) (hFork : number ≠ 2)
    (hByte : (s.memory.byte address).toUInt16 = number)
    (hAddress : s.memory.textWord indirectIp = address)
    (hWords : ∀ i : Nat, i < inlineWords number →
      s.memory.word (address + 2 + 2 * UInt16.ofNat i) =
        s.memory.textWord (directIp + 2 * UInt16.ofNat i)) :
    ∃ (t : Session Cpu) (result : Except Fault Unit) (directEnd indirectEnd : UInt16),
      system.answer run number (s.withIp directIp) = some (t.withIp directEnd, result) ∧
      system.answer run' 0 (s.withIp indirectIp) = some (t.withIp indirectEnd, result) ∧
      (Replies number → result = .ok ()) ∧
      (Replies number → ¬ Replaces number (s.withIp directIp) →
        directEnd = directIp + inlineBytes number ∧ indirectEnd = indirectIp + 2) ∧
      (Replaces number (s.withIp directIp) → directEnd = indirectEnd) ∧
      (¬ Replies number → directEnd = directIp ∧ indirectEnd = indirectIp) := by
  have hKnown : Call.ofNumber? number ≠ some .fork := fun hCall =>
    hFork (Call.ofNumber?_eq_fork hCall)
  have hAlike : AnsweredAlike run run' 0 (inlineBytes 0) s directIp indirectIp number
      { address := directIp, inText := true } { address := address + 2, inText := false } :=
    answeredAlike run run' 0 (inlineBytes 0) s directIp indirectIp hKnown hWords
  obtain ⟨x, y, hDirect, hIndirect, hAgree⟩ := hAlike
  rw [← perform_direct_withIp run hNumber] at hDirect
  have hIndirectly : perform run' 0 (s.withIp indirectIp) = some (y.afterIndirect number) := by
    rw [perform_indirect_withIp run' hAddress hByte, hIndirect]
    rfl
  rw [replaces_withIp_iff hNumber]
  cases hAgree with
  | reply result t hReplies hKeeps hSkip =>
      refine ⟨t.mapCpu (resume result 0), .ok (), directIp + inlineBytes number, indirectIp + 2,
        ?_, ?_, fun _ => rfl, fun _ _ => ⟨rfl, rfl⟩, fun hLoads => absurd hLoads hKeeps,
        fun hEnds => absurd hReplies hEnds⟩
      · rw [answer_of_reply hDirect, mapCpu_resume_withIp]
      · rw [answer_of_reply hIndirectly, mapCpu_resume_withIp, hSkip]
        rfl
  | replaced t hLoads hSkip =>
      have hReplies : Replies number := ⟨.exec, hLoads.1, nofun⟩
      refine ⟨t.mapCpu (resume (.ok 0) 0), .ok (), Processor.ip t.cpu, Processor.ip t.cpu,
        ?_, ?_, fun _ => rfl, fun _ hKeeps => absurd hLoads hKeeps, fun _ => rfl,
        fun hEnds => absurd hReplies hEnds⟩
      · rw [answer_of_reply hDirect, ← mapCpu_resume_zero]
      · rw [answer_of_reply hIndirectly, hSkip, ← mapCpu_resume_zero]
  | final t hEnds =>
      refine ⟨t, .ok (), directIp, indirectIp, ?_, ?_, fun hReplies => absurd hReplies hEnds,
        fun hReplies => absurd hReplies hEnds, fun hLoads => absurd ⟨.exec, hLoads.1, nofun⟩ hEnds,
        fun _ => ⟨rfl, rfl⟩⟩
      · change answer run number _ = _
        simp only [answer, hDirect, Option.map_some]
      · change answer run' 0 _ = _
        simp only [answer, hIndirectly, Option.map_some, Completion.afterIndirect]
  | fault f t hEnds =>
      refine ⟨t, .error f, directIp, indirectIp, ?_, ?_, fun hReplies => absurd hReplies hEnds,
        fun hReplies => absurd hReplies hEnds, fun hLoads => absurd ⟨.exec, hLoads.1, nofun⟩ hEnds,
        fun _ => ⟨rfl, rfl⟩⟩
      · change answer run number _ = _
        simp only [answer, hDirect, Option.map_some]
      · change answer run' 0 _ = _
        simp only [answer, hIndirectly, Option.map_some, Completion.afterIndirect]

end Calls

/-- The address of a signal call in the data, and the call, with 2 and 1 for arguments. -/
private abbrev signalImage : Image where
  memory := AddressSpace.shared.write 0 [4, 0, 0, 0, 48, 0, 2, 0, 1, 0]
  entry := 0
  format := .raw

/-- The interrupt is ignored from then on, whether the call is direct or not. -/
theorem indirect_call_agrees_with_direct_signal :
    (∃ (t : Session Pdp11.Cpu), let s := conventions.start signalImage {} {}
      system.answer (fun _ => none) 48 (s.withIp 6) = some (t.withIp 10, .ok ()) ∧
      system.answer (fun _ => none) 0 (s.withIp 0) = some (t.withIp 2, .ok ())) ∧
    (∃ (t : Session I8086.Cpu), let s := conventions.start signalImage {} {}
      system.answer (fun _ => none) 48 (s.withIp 6) = some (t.withIp 10, .ok ()) ∧
      system.answer (fun _ => none) 0 (s.withIp 0) = some (t.withIp 2, .ok ())) := by
  have hByte : (signalImage.memory.byte 4).toUInt16 = 48 := by decide +kernel
  have hAddress : signalImage.memory.textWord 0 = 4 := by decide +kernel
  have hWords (i : Nat) (_ : i < inlineWords 48) :
      signalImage.memory.word (4 + 2 + 2 * UInt16.ofNat i) =
        signalImage.memory.textWord (6 + 2 * UInt16.ofNat i) := rfl
  have hReplies : Replies 48 := ⟨.ordinary .signal, rfl, nofun⟩
  constructor
  · obtain ⟨t, result, directEnd, indirectEnd, hDirect, hIndirect, hOk, hEnds, -⟩ :=
      indirect_call_agrees_with_direct (fun _ => none) (fun _ => none)
        (conventions.start signalImage {} {} : Session Pdp11.Cpu) (by decide) (by decide) hByte
        hAddress hWords
    obtain ⟨rfl, rfl⟩ := hEnds hReplies fun hReplaces => nomatch hReplaces.1
    obtain rfl := hOk hReplies
    exact ⟨t, hDirect, hIndirect⟩
  · obtain ⟨t, result, directEnd, indirectEnd, hDirect, hIndirect, hOk, hEnds, -⟩ :=
      indirect_call_agrees_with_direct (fun _ => none) (fun _ => none)
        (conventions.start signalImage {} {} : Session I8086.Cpu) (by decide) (by decide) hByte
        hAddress hWords
    obtain ⟨rfl, rfl⟩ := hEnds hReplies fun hReplaces => nomatch hReplaces.1
    obtain rfl := hOk hReplies
    exact ⟨t, hDirect, hIndirect⟩

end UnixV6
end VintageUnix
