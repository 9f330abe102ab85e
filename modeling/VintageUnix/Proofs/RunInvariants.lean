import VintageUnix.Proofs.AnswerRelation
import VintageUnix.Proofs.Operations
import VintageUnix.Proofs.Outcomes

/-! Invariants of the host that hold through every run. They may speak of the signal table of the
process as well, which the host acts on, but of nothing else in it. -/
namespace VintageUnix

variable {Cpu : Type} [Processor Cpu]

theorem SignalState.takeFirst_eq_some {s t : SignalState} {guests : List UInt16}
    {signal : UInt16} (h : s.takeFirst guests = some (signal, t)) :
    ∃ pending, t = { s with pending } := by
  induction guests with
  | nil => cases h
  | cons guest rest ih =>
      simp only [takeFirst] at h
      split at h
      · split at h
        · cases h
          exact ⟨_, rfl⟩
        · exact ih h
      · exact ih h

/-- Acting on signals as a table says changes nothing but the signals of the host. -/
theorem Conventions.installActions_eq (c : Conventions Cpu) (t : SignalTable) (h : Host) :
    ∃ signals, c.installActions t h = { h with signals } := by
  unfold installActions
  generalize c.signals = guests
  induction guests generalizing h with
  | nil => exact ⟨h.signals, rfl⟩
  | cons guest rest ih =>
      rw [List.foldl_cons]
      obtain ⟨signals, hRest⟩ := ih (c.installAction t h guest)
      refine ⟨signals, hRest.trans ?_⟩
      unfold installAction
      split <;> rfl

/-- An invariant that everything keeps which happens to a host and to the signals of the
processes on it. A host may also come to act for another process. -/
structure RunInvariant (c : Conventions Cpu) (P : Session Cpu → Prop) : Prop where
  host {s} {k : Host} : P s → s.host.Serves (k.withJournal s.host.journal) → P (s.withHost k)
  process {s} {q : Process Cpu} : P s → q.signals = s.process.signals →
    P { s with process := q }
  finished {s} (finished : List FinishedChild) : P s → P (s.withFinished finished)
  number {s} : P s → P (s.withHost s.host.newPid.2)
  arrive {s} (pending : BitVec 64) : P s →
    P (s.mapHost fun h => { h with signals := { h.signals with pending } })
  setAction {s t} {signal : UInt16} {action old : SignalAction} : P s →
    s.setSignalAction c signal action = .ok (old, t) → P t
  switch {s} (q : Process Cpu) : P s →
    P { process := q, host := c.installActions q.signals s.host }

namespace RunInvariant

variable {c : Conventions Cpu} {P : Session Cpu → Prop} (hP : RunInvariant c P)

include hP

theorem machineInvariant : MachineInvariant c P where
  host := hP.host
  descriptors _ h := hP.process h rfl
  umask _ h := hP.process h rfl
  setAction := hP.setAction
  finished := hP.finished
  machine _ h := hP.process h rfl
  moveBreak _ h := hP.process h rfl

theorem answerRelation : AnswerRelation c (Diagonal P) (Diagonal P) where
  toMachineRelation := hP.machineInvariant.machineRelation
  setState _ h := ⟨h.1 ▸ rfl, hP.process h.2 rfl⟩
  child _ h := ⟨h.1 ▸ rfl, hP.process (hP.number h.2) rfl⟩
  rejoin {s t u v} pid h hEnded := by
    refine ⟨h.1 ▸ hEnded.1 ▸ rfl, hP.switch s.process (s := u.withFinished _) ?_⟩
    exact hP.finished _ hEnded.2
  weaken h := h
  execute {s t} path h := by
    obtain ⟨rfl, h⟩ := h
    refine ⟨rfl, rfl, ?_⟩
    unfold Session.execute
    split
    · exact hP.switch _ h
    · exact hP.machineInvariant.log _ _ _ h
  machineAfter _ h := ⟨h.1 ▸ rfl, hP.process h.2 rfl⟩

end RunInvariant

theorem RunInvariant.engineRelation {p : Personality} {P : Session p.Cpu → Prop}
    (hP : RunInvariant p.system.toConventions P) :
    EngineRelation p.system p.system (Diagonal P) where
  state h := h.1 ▸ rfl
  cpu h := h.1 ▸ rfl
  disposition _ h := h.1 ▸ rfl
  pending {s t} h := by
    obtain ⟨rfl, h⟩ := h
    cases hTaken : p.system.takePending t.host with
    | none => exact .none
    | some taken =>
        obtain ⟨⟨signal, signals⟩, hFirst, rfl⟩ := Option.map_eq_some_iff.1 hTaken
        obtain ⟨pending, rfl⟩ := SignalState.takeFirst_eq_some hFirst
        exact .some ⟨rfl, rfl, hP.arrive pending h⟩
  enter _ h := ⟨h.1 ▸ rfl, hP.process h.2 rfl⟩
  registers _ h := ⟨h.1 ▸ rfl, hP.process h.2 rfl⟩
  setState _ h := ⟨h.1 ▸ rfl, hP.process h.2 rfl⟩
  ready h := ⟨h.1 ▸ rfl, hP.switch _ h.2⟩
  advance {s t} h := by
    obtain ⟨rfl, h⟩ := h
    have hAdvances := System.advances_advance t
    generalize System.advance t = x at hAdvances
    obtain ⟨u, outcome⟩ := x
    refine ⟨rfl, rfl, ?_⟩
    have hSignals : u.process.signals = t.process.signals := by
      rw [hAdvances.process]
    have hHost : P (t.withHost u.host) := by
      rw [hAdvances.host]
      exact hP.host h ⟨rfl, rfl, rfl, rfl, rfl, rfl, rfl, .refl t.host⟩
    exact hP.process (s := t.withHost u.host) hHost hSignals
  answer hRun trap _ _ h := p.answer_related hP.answerRelation hRun trap h

namespace RunInvariant

variable {p : Personality} {P : Session p.Cpu → Prop}
  (hP : RunInvariant p.system.toConventions P)

include hP

/-- What holds of a process and its host holds of them after a run. -/
theorem run {bound : Nat} {s t : Session p.Cpu} (h : P s)
    (hRun : p.system.run bound s = some t) : P t := by
  have hEnd := hP.engineRelation.run bound ⟨rfl, h⟩
  rw [hRun] at hEnd
  cases hEnd with
  | some hEnd => exact hEnd.2

theorem perform {bound : Nat} {op : Operation} {s t : Session p.Cpu} {response : Response}
    (h : P s) (hPerform : op.perform p.system bound s = some (t, response)) : P t := by
  have hRaise (number : Int) {s t : Session p.Cpu} (h : Diagonal P s t) : Diagonal P
      (s.mapHost fun h => { h with signals := h.signals.raise number })
      (t.mapHost fun h => { h with signals := h.signals.raise number }) := by
    refine ⟨h.1 ▸ rfl, ?_⟩
    unfold SignalState.raise
    split
    · exact hP.arrive _ h.2
    · exact h.2
  have hEnd := hP.engineRelation.perform (fun h => h)
    (fun path _ _ h => hP.answerRelation.execute path h) (fun number _ _ h => hRaise number h)
    ⟨rfl, h⟩ bound op
  rw [hPerform] at hEnd
  cases hEnd with
  | some hEnd => exact hEnd.2.2

theorem arises {start : Session p.Cpu → Prop} (hStart : ∀ s, start s → P s) {s : Session p.Cpu}
    (h : Arises p.system start s) : P s := by
  obtain ⟨t, -, h⟩ := h.exists_related hP.engineRelation
    (fun {s t u response bound op} hSession hPerform => ⟨u, rfl, hP.perform hSession.2 hPerform⟩)
    hP.answerRelation.child (fun s h => ⟨s, rfl, hStart s h⟩)
  exact h

end RunInvariant
end VintageUnix
