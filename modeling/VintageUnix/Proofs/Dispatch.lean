import VintageUnix.Proofs.FailedCalls

/-! What carrying out a call comes to on the two systems, call by call. Whatever else is said about
calls is said of these cases. -/
namespace VintageUnix

open Session (Logs)

namespace Minix

/-- What a completion can be. A fault and a failed exec leave nothing but log records. -/
inductive Performs (run : Runner I8086.Cpu) (block : UInt16) (s : Session I8086.Cpu) :
    Completion → Prop
  | fault (f : Fault) {t : Session I8086.Cpu} (hLogs : Logs s t) : Performs run block s (.fault f t)
  | exit (code : Int) : Performs run block s (.final (s.exit code))
  | fork {result : Except Errno UInt16} {t : Session I8086.Cpu}
    (hCall : Call.ofNumber? (s.memory.word (block + 2)) = some .fork)
    (hFork : s.fork conventions run (prepareChild block) = some (result, t)) :
    Performs run block s (.reply result t)
  | exec {t : Session I8086.Cpu} (hCall : Call.ofNumber? (s.memory.word (block + 2)) = some .exec)
    (hExecuted : executeFrame (s.memory.stringAt (s.memory.word (block + 10)))
      (s.memory.word (block + 12)) (s.memory.word (block + 6)) s = (.ok (), t)) :
    Performs run block s (.final t)
  | failedExec (e : Errno) {t : Session I8086.Cpu} (hLogs : Logs s t) :
    Performs run block s (.reply (.error e) t)
  | ordinary (c : OrdinaryCall)
    (hCall : Call.ofNumber? (s.memory.word (block + 2)) = some (.ordinary c)) :
    Performs run block s (.reply (c.perform block s).1 (c.perform block s).2)

/-- The session that a completion leaves before the reply. -/
def Completion.session : Completion → Session I8086.Cpu
  | reply _ s => s
  | final s => s
  | fault _ s => s

/-- The reply itself is no matter of the host. -/
theorem host_of_answer {run : Runner I8086.Cpu} {trap : UInt16} {s t : Session I8086.Cpu}
    {result : Except Fault Unit} (h : answer run trap s = some (t, result)) :
    t = s ∨ trap = messageTrap ∧ ∃ completion, perform run (s.cpu.get .bx) s = some completion ∧
      t.host = completion.session.host := by
  simp only [answer] at h
  split at h
  next =>
    cases h
    exact .inl rfl
  next hTrap =>
    obtain ⟨completion, hPerform, hEnd⟩ := Option.map_eq_some_iff.1 h
    refine .inr ⟨Decidable.of_not_not hTrap, completion, hPerform, ?_⟩
    cases completion <;> cases hEnd <;> rfl

theorem performs {run : Runner I8086.Cpu} {block : UInt16} {s : Session I8086.Cpu}
    {completion : Completion} (h : perform run block s = some completion) :
    Performs run block s completion := by
  unfold perform at h
  simp only at h
  split at h
  next call hCall =>
    cases call with
    | exit =>
        cases h
        exact .exit _
    | fork =>
        obtain ⟨⟨result, t⟩, hFork, rfl⟩ := Option.map_eq_some_iff.1 h
        exact .fork hCall hFork
    | exec =>
        simp only [Call.perform] at h
        split at h
        next t hExecuted =>
          cases h
          exact .exec hCall hExecuted
        next e t hExecuted =>
          cases h
          have hLogs := failsCleanly_executeFrame _ _ _ s e (congrArg Prod.fst hExecuted)
          rw [hExecuted] at hLogs
          exact .failedExec e hLogs
    | ordinary c =>
        cases h
        exact .ordinary c hCall
  next =>
    split at h
    · cases h
      exact .fault _ (.log _ _ _ s)
    · cases h
      exact .fault _ (.log _ _ _ s)

end Minix

namespace UnixV6

variable {Cpu : Type} [Platform Cpu]

/-- What a completion can be. A fault, a failed exec and an indirect call of an indirect
call leave nothing but log records. -/
inductive Performs (run : Runner Cpu) (trap : UInt16) (s : Session Cpu) : Completion Cpu → Prop
  | fault (f : Fault) {t : Session Cpu} (hLogs : Logs s t) : Performs run trap s (.fault f t)
  | exit (code : Int) : Performs run trap s (.final (s.exit code))
  | fork (skip skipped : UInt16) {result : Except Errno UInt16} {t : Session Cpu}
    (hCall : Call.ofNumber? (request trap s).1 = some .fork)
    (hFork : s.fork conventions run (prepareChild skipped) = some (result, t)) :
    Performs run trap s (.reply result skip t)
  | exec (skip : UInt16) {t : Session Cpu}
    (hCall : Call.ofNumber? (request trap s).1 = some .exec)
    (hExecuted : execute (s.memory.stringAt ((request trap s).2.word s.memory 0))
      ((request trap s).2.word s.memory 1) s = (.ok (), t)) :
    Performs run trap s (.reply (.ok 0) skip t)
  | failed (e : Errno) (skip : UInt16) {t : Session Cpu} (hLogs : Logs s t) :
    Performs run trap s (.reply (.error e) skip t)
  | ordinary (c : OrdinaryCall) (skip : UInt16)
    (hCall : Call.ofNumber? (request trap s).1 = some (.ordinary c)) :
    Performs run trap s
      (.reply (c.perform (request trap s).2 s).1 skip (c.perform (request trap s).2 s).2)

/-- The session that a completion leaves before the reply. -/
def Completion.session : Completion Cpu → Session Cpu
  | reply _ _ s => s
  | final s => s
  | fault _ s => s

/-- The reply itself is no matter of the host. -/
theorem host_of_answer {run : Runner Cpu} {trap : UInt16} {s t : Session Cpu}
    {result : Except Fault Unit} (h : answer run trap s = some (t, result)) :
    ∃ completion, perform run trap s = some completion ∧ t.host = completion.session.host := by
  obtain ⟨completion, hPerform, hEnd⟩ := Option.map_eq_some_iff.1 h
  refine ⟨completion, hPerform, ?_⟩
  cases completion <;> cases hEnd <;> rfl

/-- An ordinary call gives a reply, and is gone on from behind the words of the trap. -/
theorem perform_of_ordinary {run : Runner Cpu} {trap : UInt16} {s : Session Cpu}
    {c : OrdinaryCall} (hCall : Call.ofNumber? (request trap s).1 = some (.ordinary c)) :
    perform run trap s = some (.reply (c.perform (request trap s).2 s).1 (inlineBytes trap)
      (c.perform (request trap s).2 s).2) := by
  by_cases hIndirect : trap = 0
  · subst hIndirect
    simp only [request, if_true] at hCall ⊢
    simp only [perform, performDirect, if_true, hCall, Option.map_some, indirectSkip]
  · simp only [request, if_neg hIndirect] at hCall ⊢
    simp only [perform, performDirect, if_neg hIndirect, hCall]

/-- A new program is not told where its caller would have gone on. -/
theorem perform_of_exec {run : Runner Cpu} {trap : UInt16} {s : Session Cpu}
    (hCall : Call.ofNumber? (request trap s).1 = some .exec) :
    perform run trap s = some
      (match execute (s.memory.stringAt ((request trap s).2.word s.memory 0))
          ((request trap s).2.word s.memory 1) s with
        | (.ok (), t) => .reply (.ok 0) 0 t
        | (.error e, t) => .reply (.error e) (inlineBytes trap) t) := by
  by_cases hIndirect : trap = 0
  · subst hIndirect
    simp only [request, if_true] at hCall ⊢
    simp only [perform, performDirect, if_true, hCall]
    generalize execute _ _ s = reply
    obtain ⟨result, t⟩ := reply
    cases result <;> simp only [Option.map_some, indirectSkip, hCall]
  · simp only [request, if_neg hIndirect] at hCall ⊢
    simp only [perform, performDirect, if_neg hIndirect, hCall]
    generalize execute _ _ s = reply
    obtain ⟨result, t⟩ := reply
    cases result <;> rfl

theorem performs_of_direct {run : Runner Cpu} {trap skipped : UInt16} {s : Session Cpu}
    {completion : Completion Cpu}
    (h : performDirect run (request trap s).1 (request trap s).2 skipped s = some completion) :
    Performs run trap s completion := by
  simp only [performDirect] at h
  split at h
  next =>
    split at h
    · cases h
      exact .fault _ (.log _ _ _ s)
    · cases h
      exact .fault _ (.log _ _ _ s)
  next =>
    cases h
    exact .failed _ _ (.refl s)
  next =>
    cases h
    exact .exit _
  next hCall =>
    obtain ⟨⟨result, t⟩, hFork, rfl⟩ := Option.map_eq_some_iff.1 h
    exact .fork _ _ hCall hFork
  next hCall =>
    split at h
    next t hExecuted =>
      cases h
      exact .exec _ hCall hExecuted
    next e t hExecuted =>
      cases h
      have hLogs := failsCleanly_execute _ _ s e (congrArg Prod.fst hExecuted)
      rw [hExecuted] at hLogs
      exact .failed e _ hLogs
  next c hCall =>
    cases h
    exact .ordinary c _ hCall

theorem performs {run : Runner Cpu} {trap : UInt16} {s : Session Cpu}
    {completion : Completion Cpu} (h : perform run trap s = some completion) :
    Performs run trap s completion := by
  simp only [perform] at h
  split at h
  next hIndirect =>
    obtain ⟨inner, hInner, rfl⟩ := Option.map_eq_some_iff.1 h
    have hRequested : performDirect run (request trap s).1 (request trap s).2 (inlineBytes 0) s =
        some inner := by
      rw [request, if_pos hIndirect]
      exact hInner
    cases performs_of_direct hRequested with
    | fault f hLogs => exact .fault f hLogs
    | exit code => exact .exit code
    | fork skip skipped hCall hFork => exact .fork _ _ hCall hFork
    | exec skip hCall hExecuted => exact .exec _ hCall hExecuted
    | failed e skip hLogs => exact .failed e _ hLogs
    | ordinary c skip hCall => exact .ordinary c _ hCall
  next hDirect =>
    have hRequested : performDirect run (request trap s).1 (request trap s).2 0 s =
        some completion := by
      rw [request, if_neg hDirect]
      exact h
    exact performs_of_direct hRequested

end UnixV6
end VintageUnix
