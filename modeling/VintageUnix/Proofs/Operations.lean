import VintageUnix.Proofs.EngineRelation

/-! What can be asked of the engine from outside, and which sessions come up while it is done. A
property that every primitive action keeps holds of all of them. -/
namespace VintageUnix

open AddressSpace (Stores)

variable {Cpu : Type} [Processor Cpu]

/-- What can be asked of the engine. -/
inductive Operation where
  | step
  /-- At most so many steps. -/
  | cycles (count : Nat)
  | run
  | deliver (signal : UInt16)
  /-- Answer a trap, taken at the current instruction pointer. -/
  | trap (number : UInt16)
  /-- Replace the program by the one in a file. -/
  | execute (path : String)
  /-- A signal arrives at the host. -/
  | raise (number : Int)
  deriving DecidableEq, Repr

/-- What the engine responds. The exit code of a run is in the state of the process. -/
inductive Response where
  | reaction (result : Except Fault Unit)
  | report (report : CycleReport)
  | reply (result : Except Errno Unit)
  | done

namespace Operation

/-- Do what is asked. There is no response if the bound is too small. -/
def perform (sys : System Cpu) (bound : Nat) (s : Session Cpu) :
    Operation → Option (Session Cpu × Response)
  | step => (sys.step bound s).map (Prod.map id .reaction)
  | cycles count => (sys.executeCycles bound count s).map (Prod.map id .report)
  | run => (sys.run bound s).map (·, .done)
  | deliver signal => (sys.deliver bound signal s).map (Prod.map id .reaction)
  | trap number => (sys.trap bound number s).map (Prod.map id .reaction)
  | execute path =>
    let (result, t) := s.execute sys.toConventions path
    some (t, .reply result)
  | raise number =>
    some (s.mapHost fun h => { h with signals := h.signals.raise number }, .done)

/-- Do one thing after the other, each with a bound of its own. -/
def performAll (perform : Nat → Session Cpu → Operation → Option (Session Cpu × Response)) :
    List (Nat × Operation) → Session Cpu → Option (Session Cpu × List Response)
  | [], s => some (s, [])
  | (bound, op) :: rest, s =>
    (perform bound s op).bind fun (t, response) =>
      (performAll perform rest t).map fun (u, responses) => (u, response :: responses)

end Operation

theorem Together.mono {R S : Session Cpu → Session Cpu → Prop}
    (hWeaken : ∀ {s t}, R s t → S s t) {α β : Type} (f : α → β)
    {x y : Option (Session Cpu × α)} (h : Option.Rel (Together R) x y) :
    Option.Rel (Together S) (x.map (Prod.map id f)) (y.map (Prod.map id f)) :=
  Option.Rel.map h fun _ _ h => ⟨congrArg f h.1, hWeaken h.2⟩

/-- An operation keeps what the engine keeps, if the replacement of a program from outside
and the arrival of a signal do. -/
theorem EngineRelation.perform {a b : System Cpu} {R S : Session Cpu → Session Cpu → Prop}
    (hE : EngineRelation a b R) (hWeaken : ∀ {s t}, R s t → S s t)
    (hExecute : ∀ path {s t}, R s t →
      RepliesRelated S (s.execute a.toConventions path) (t.execute b.toConventions path))
    (hRaise : ∀ number {s t}, R s t →
      R (s.mapHost fun h => { h with signals := h.signals.raise number })
        (t.mapHost fun h => { h with signals := h.signals.raise number }))
    {s t : Session Cpu} (h : R s t) (bound : Nat) (op : Operation) :
    Option.Rel (Together S) (op.perform a bound s) (op.perform b bound t) := by
  cases op with
  | step => exact (hE.step bound h |> Together.mono hWeaken Response.reaction)
  | cycles count => exact (hE.executeCycles bound count h |> Together.mono hWeaken Response.report)
  | run => exact Option.Rel.map (hE.run bound h) fun _ _ hEnd => ⟨rfl, hWeaken hEnd⟩
  | deliver signal => exact (hE.deliver bound signal h |> Together.mono hWeaken Response.reaction)
  | trap number => exact (hE.trap bound number h |> Together.mono hWeaken Response.reaction)
  | execute path =>
      obtain ⟨hResult, hSession⟩ := hExecute path h
      exact .some ⟨congrArg Response.reply hResult, hSession⟩
  | raise number => exact .some ⟨rfl, hWeaken (hRaise number h)⟩

/-- A relation that every single operation keeps is kept by a sequence of them. -/
theorem Operation.performAll_related {R : Session Cpu → Session Cpu → Prop}
    {perform perform' : Nat → Session Cpu → Operation → Option (Session Cpu × Response)}
    (hPerform : ∀ bound op {s t}, R s t →
      Option.Rel (Together R) (perform bound s op) (perform' bound t op))
    (ops : List (Nat × Operation)) {s t : Session Cpu} (h : R s t) :
    Option.Rel (Together R) (performAll perform ops s) (performAll perform' ops t) := by
  induction ops generalizing s t with
  | nil => exact .some ⟨rfl, h⟩
  | cons first rest ih =>
      obtain ⟨bound, op⟩ := first
      rcases Together.cases (hPerform bound op h) with ⟨hs, ht⟩ | ⟨u, v, response, hNext, hs, ht⟩
      · simp only [performAll, hs, ht]
        exact .none
      · simp only [performAll, hs, ht, Option.bind_some]
        exact Option.Rel.map (ih hNext) fun x y hEnd => ⟨congrArg (response :: ·) hEnd.1, hEnd.2⟩

/-- The sessions that come up while operations are done one after the other on a process
from a given start. They are those between the operations and those inside one: between
its primitive actions, in a handler, and in a forked child. Children that no
program forks and registers that no handler restores are allowed as well. -/
inductive Arises (sys : System Cpu) (start : Session Cpu → Prop) : Session Cpu → Prop
  | start {s} (h : start s) : Arises sys start s
  | operation {s t response} (h : Arises sys start s) (bound : Nat) (op : Operation)
    (hPerform : op.perform sys bound s = some (t, response)) : Arises sys start t
  | ready {s} (h : Arises sys start s) :
    Arises sys start (s.mapHost (sys.installActions s.process.signals))
  | pending {s signal host} (h : Arises sys start s)
    (hPending : sys.takePending s.host = some (signal, host)) : Arises sys start (s.withHost host)
  | handler {s} (h : Arises sys start s) (handler : UInt16) :
    Arises sys start (System.enterHandler handler s)
  | registers {s} (h : Arises sys start s) (cpu : Cpu) : Arises sys start (s.mapCpu fun _ => cpu)
  | instruction {s} (h : Arises sys start s) : Arises sys start (System.advance s).1
  | state {s} (h : Arises sys start s) (state : RunState) : Arises sys start (s.setState state)
  | child {s} {prepare : Machine Cpu → Machine Cpu}
    (hStores : ∀ m, Stores m.memory (prepare m).memory) (h : Arises sys start s) :
    Arises sys start (s.child prepare)

/-- Every session that arises has a partner, if the primitive actions of the engine,
the operations and the start of a child keep the relation. -/
theorem Arises.exists_related {a b : System Cpu} {R : Session Cpu → Session Cpu → Prop}
    (hE : EngineRelation a b R)
    (hOperation : ∀ {s t u response} {bound : Nat} {op : Operation}, R s t →
      op.perform a bound s = some (u, response) → ∃ v, R u v)
    (hChild : ∀ {s t} {prepare : Machine Cpu → Machine Cpu},
      (∀ m, Stores m.memory (prepare m).memory) → R s t → R (s.child prepare) (t.child prepare))
    {start : Session Cpu → Prop} (hStart : ∀ s, start s → ∃ t, R s t) {s : Session Cpu}
    (h : Arises a start s) : ∃ t, R s t := by
  induction h with
  | start h => exact hStart _ h
  | operation _ bound op hPerform ih =>
      obtain ⟨t, ih⟩ := ih
      exact hOperation ih hPerform
  | ready _ ih =>
      obtain ⟨t, ih⟩ := ih
      exact ⟨_, hE.ready ih⟩
  | pending _ hPending ih =>
      obtain ⟨t, ih⟩ := ih
      have hTaken := hE.pending ih
      rw [hPending] at hTaken
      generalize b.takePending t.host = y at hTaken
      cases hTaken with
      | some hTaken => exact ⟨_, hTaken.2⟩
  | handler _ handler ih =>
      obtain ⟨t, ih⟩ := ih
      exact ⟨_, hE.enter handler ih⟩
  | registers _ cpu ih =>
      obtain ⟨t, ih⟩ := ih
      exact ⟨_, hE.registers cpu ih⟩
  | instruction _ ih =>
      obtain ⟨t, ih⟩ := ih
      exact ⟨_, (hE.advance ih).2⟩
  | state _ state ih =>
      obtain ⟨t, ih⟩ := ih
      exact ⟨_, hE.setState state ih⟩
  | child hStores _ ih =>
      obtain ⟨t, ih⟩ := ih
      exact ⟨_, hChild hStores ih⟩

end VintageUnix
