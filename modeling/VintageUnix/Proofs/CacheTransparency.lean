import VintageUnix.Proofs.TextFrame

/-! Keeping decoded instructions changes nothing but the speed. What is kept is always what decoding
would give again, since a text of its own segment only changes with the whole program. So a
process without its cache does the same, operation by operation. -/
namespace VintageUnix

open AddressSpace (Stores SameText)

section Engine

variable {Cpu : Type} [Processor Cpu]

namespace DecodeCache

/-- Every kept instruction is the one at its address in the text. A text that data
can overwrite has none kept. -/
structure Reflects (c : DecodeCache (Processor.Instruction Cpu)) (m : AddressSpace) : Prop where
  enabled : c.enabled = m.isSplit
  entry {address : UInt16} {i : Processor.Instruction Cpu} :
    c.entries[address]? = some i → m.isSplit = true ∧ i = Processor.fetch m.text.get address

namespace Reflects

theorem empty (m : AddressSpace) :
    Reflects (DecodeCache.empty m.isSplit : DecodeCache (Processor.Instruction Cpu)) m where
  enabled := rfl
  entry h := by simp [DecodeCache.empty] at h

variable {c : DecodeCache (Processor.Instruction Cpu)} {m n : AddressSpace} (h : c.Reflects m)

include h

theorem of_stores (hStores : Stores m n) : c.Reflects n where
  enabled := h.enabled.trans hStores.sameText.isSplit.symm
  entry hEntry := by
    obtain ⟨hSplit, hDecoded⟩ := h.entry hEntry
    refine ⟨hStores.sameText.isSplit.trans hSplit, ?_⟩
    rw [hStores.sameText.text hSplit]
    exact hDecoded

/-- Looking up an instruction gives the one in the text, and what is kept then still
reflects the text. -/
theorem fetch (address : UInt16) :
    (c.fetch address fun _ => Processor.fetch m.text.get address).1 =
      Processor.fetch m.text.get address ∧
    (c.fetch address fun _ => Processor.fetch m.text.get address).2.Reflects m := by
  unfold DecodeCache.fetch
  split
  next hEnabled =>
    split
    next i hKept => exact ⟨(h.entry hKept).2, h⟩
    next hMissing =>
      refine ⟨rfl, h.enabled, fun {other i} hEntry => ?_⟩
      rw [Std.HashMap.getElem?_insert] at hEntry
      split at hEntry
      next hSame =>
        obtain rfl : address = other := eq_of_beq hSame
        cases hEntry
        exact ⟨h.enabled ▸ hEnabled, rfl⟩
      next => exact h.entry hEntry
  next => exact ⟨rfl, h⟩

end Reflects
end DecodeCache

namespace Session

/-- What the process keeps of decoded instructions reflects its text. -/
def CacheSound (s : Session Cpu) : Prop :=
  s.process.cache.Reflects s.memory

/-- The session of a process that keeps no decoded instructions. -/
def withoutCache (s : Session Cpu) : Session Cpu :=
  s.mapProcess fun p => { p with cache := .empty false }

theorem CacheSound.mapMachine {s : Session Cpu} (h : s.CacheSound)
    {f : Machine Cpu → Machine Cpu} (hStores : Stores s.memory (f s.process.machine).memory) :
    (s.mapMachine f).CacheSound :=
  h.of_stores hStores

/-- A sound session, and the same one without its cache. -/
def Uncached (s t : Session Cpu) : Prop :=
  s.CacheSound ∧ t = s.withoutCache

/-- A sound session, and one that is the same but for what it keeps. -/
def SameButCache (s t : Session Cpu) : Prop :=
  s.CacheSound ∧ t.withoutCache = s.withoutCache

namespace Uncached

variable {s t : Session Cpu} (h : s.Uncached t)

include h

theorem trace (least : Trace) (level : Level) (topic : Topic) (text : String) :
    (s.trace least level topic text).Uncached (t.trace least level topic text) := by
  obtain ⟨hSound, rfl⟩ := h
  unfold Session.trace
  by_cases hTraced : s.process.settings.trace.includes least = true
  · have hTraced' : s.withoutCache.process.settings.trace.includes least = true := hTraced
    rw [if_pos hTraced, if_pos hTraced']
    exact ⟨hSound, rfl⟩
  · have hTraced' : ¬ s.withoutCache.process.settings.trace.includes least = true := hTraced
    rw [if_neg hTraced, if_neg hTraced']
    exact ⟨hSound, rfl⟩

theorem mapMachine {f : Machine Cpu → Machine Cpu}
    (hStores : Stores s.memory (f s.process.machine).memory) :
    (s.mapMachine f).Uncached (t.mapMachine f) := by
  obtain ⟨hSound, rfl⟩ := h
  exact ⟨hSound.mapMachine hStores, rfl⟩

/-- The same instruction is fetched, from the cache or from the text. -/
theorem fetch : t.process.fetch.1 = s.process.fetch.1 ∧
    Uncached { s with process := s.process.fetch.2 } { t with process := t.process.fetch.2 } := by
  obtain ⟨hSound, rfl⟩ := h
  obtain ⟨hFetched, hKept⟩ := hSound.fetch (Processor.ip s.cpu)
  exact ⟨hFetched.symm, hKept, rfl⟩

end Uncached
end Session

open Session (CacheSound Uncached SameButCache)

/-- The guard and the outcome of an instruction depend on the machine only, which is the
same in both sessions. -/
theorem Session.Uncached.advance [LawfulProcessor Cpu] {s t : Session Cpu} (h : s.Uncached t) :
    Together Uncached (System.advance s) (System.advance t) := by
  obtain ⟨hFetched, hSession⟩ := h.fetch
  have hCpu : t.cpu = s.cpu := h.2 ▸ rfl
  have hTraced :=
    (hSession.trace .registers .trace .registers (Processor.renderState s.cpu)).trace
      .instructions .trace .execution
      (Numeral.hexWord (Processor.ip s.cpu) ++ ": " ++ Processor.render s.process.fetch.1)
  simp only [System.advance, hFetched, hCpu]
  generalize Session.trace _ _ _ _ (Session.trace _ _ _ _ ⟨s.process.fetch.2, _⟩) = u
    at hTraced ⊢
  generalize Session.trace _ _ _ _ (Session.trace _ _ _ _ ⟨t.process.fetch.2, _⟩) = v
    at hTraced ⊢
  obtain ⟨hSound, rfl⟩ := hTraced
  have hMachine : u.withoutCache.process.machine = u.process.machine := rfl
  simp only [hMachine]
  split
  · exact ⟨rfl, hSound, rfl⟩
  · have hExecuted (c : Cpu) := hSound.mapMachine
      (f := fun m => (Processor.execute s.process.fetch.1 (m.mapCpu fun _ => c)).1)
      (LawfulProcessor.stores_execute _ _)
    split
    · exact ⟨rfl, hExecuted _, rfl⟩
    · exact ⟨rfl, hExecuted _, rfl⟩

/-- The system on processes that keep no decoded instructions. A new program would start
to keep them, so they are dropped after every answer. -/
def System.cacheless (sys : System Cpu) : System Cpu where
  toConventions := sys.toConventions
  answer run trap s := (sys.answer run trap s).map (Prod.map Session.withoutCache id)

theorem uncached_answerRelation (c : Conventions Cpu) :
    AnswerRelation c Uncached SameButCache where
  looksLike h := by
    obtain ⟨-, rfl⟩ := h
    exact ⟨rfl, rfl, rfl, rfl, rfl, rfl, rfl, rfl⟩
  log level topic text h := ⟨h.1, h.2 ▸ rfl⟩
  trace _ h := h.trace _ _ _ _
  serve {s _ k} h hServes := by
    obtain ⟨hSound, rfl⟩ := h
    have hJournal : k.withJournal s.host.journal = k := by
      rw [← hServes.journal]
      rfl
    exact ⟨hSound, congrArg (Session.withHost _) hJournal⟩
  print bytes h := ⟨h.1, h.2 ▸ rfl⟩
  descriptors d h := ⟨h.1, h.2 ▸ rfl⟩
  umask umask h := ⟨h.1, h.2 ▸ rfl⟩
  setAction {s t} signal action h := by
    obtain ⟨hSound, rfl⟩ := h
    have hTable : s.withoutCache.process.signals = s.process.signals := rfl
    unfold Session.setSignalAction
    rw [hTable]
    split
    · exact .ok ⟨rfl, hSound, rfl⟩
    · exact .error _
  store hStores h := h.mapMachine (f := (·.mapMemory _)) (hStores _)
  moveBreak brk h := ⟨⟨h.1.enabled, h.1.entry⟩, h.2 ▸ rfl⟩
  finished _ h := ⟨h.1, h.2 ▸ rfl⟩
  cpu h := h.2 ▸ rfl
  machine hStores h := h.mapMachine (hStores _)
  setState state h := ⟨h.1, h.2 ▸ rfl⟩
  child hStores h := ⟨h.1.of_stores (hStores _), h.2 ▸ rfl⟩
  rejoin pid h hEnded := ⟨h.1, by rw [h.2, hEnded.2]; rfl⟩
  weaken h := ⟨h.1, by rw [h.2]; rfl⟩
  execute {s t} path h := by
    obtain ⟨hSound, rfl⟩ := h
    have hLoad : c.loadFile s.withoutCache.host (s.withoutCache.process.hostPath path) =
        c.loadFile s.host (s.process.hostPath path) := rfl
    unfold Session.execute
    rw [hLoad]
    split
    · exact ⟨rfl, .empty _, rfl⟩
    · exact ⟨rfl, hSound, rfl⟩
  machineAfter hStores h :=
    ⟨h.1.mapMachine (hStores _), congrArg (Session.mapMachine _) h.2⟩

end Engine

open Session (Uncached SameButCache)

theorem uncached_engineRelation (p : Personality) :
    EngineRelation p.system p.system.cacheless Uncached where
  state h := h.2 ▸ rfl
  cpu h := h.2 ▸ rfl
  disposition signal h := h.2 ▸ rfl
  pending {s t} h := by
    obtain ⟨hSound, rfl⟩ := h
    change Option.Rel _ (p.system.takePending s.host) (p.system.takePending s.host)
    cases p.system.takePending s.host with
    | none => exact .none
    | some taken => exact .some ⟨rfl, hSound, rfl⟩
  enter handler h := h.mapMachine (Machine.stores_push _ _)
  registers cpu h := h.mapMachine (.refl _)
  setState state h := ⟨h.1, h.2 ▸ rfl⟩
  ready h := ⟨h.1, h.2 ▸ rfl⟩
  advance h := h.advance
  answer {run run'} hRun trap {s t} h := by
    have hAnswer := p.answer_related (uncached_answerRelation p.system.toConventions) hRun trap h
    change Option.Rel _ _ ((p.system.answer run' trap t).map _)
    generalize p.system.answer run trap s = x at hAnswer
    generalize p.system.answer run' trap t = y at hAnswer
    cases hAnswer with
    | none => exact .none
    | some hAnswer => exact .some ⟨hAnswer.1, hAnswer.2.1, hAnswer.2.2⟩

/-- Do what is asked of a process that keeps no decoded instructions. -/
def Operation.performUncached {Cpu : Type} [Processor Cpu] (sys : System Cpu) (bound : Nat)
    (s : Session Cpu) (op : Operation) : Option (Session Cpu × Response) :=
  (op.perform sys.cacheless bound s).map (Prod.map Session.withoutCache id)

theorem Operation.sameButCache_perform (p : Personality) {s t : Session p.Cpu}
    (h : s.Uncached t) (bound : Nat) (op : Operation) :
    Option.Rel (Together SameButCache) (op.perform p.system bound s)
      (op.perform p.system.cacheless bound t) :=
  (uncached_engineRelation p).perform (uncached_answerRelation p.system.toConventions).weaken
    (fun path _ _ h => (uncached_answerRelation p.system.toConventions).execute path h)
    (fun _ _ _ h => ⟨h.1, h.2 ▸ rfl⟩) h bound op

/-- An operation does the same without the cache, and keeps the cache sound. -/
theorem Operation.performUncached_eq (p : Personality) {s : Session p.Cpu} (h : s.CacheSound)
    (bound : Nat) (op : Operation) :
    op.performUncached p.system bound s.withoutCache =
      (op.perform p.system bound s).map (Prod.map Session.withoutCache id) ∧
    ∀ t response, op.perform p.system bound s = some (t, response) → t.CacheSound := by
  have hSame := sameButCache_perform p ⟨h, rfl⟩ bound op
  simp only [performUncached]
  generalize op.perform p.system bound s = x at hSame
  generalize op.perform p.system.cacheless bound s.withoutCache = y at hSame
  cases hSame with
  | none => exact ⟨rfl, fun _ _ hNone => by cases hNone⟩
  | @some x y hSame =>
      obtain ⟨hResponse, hSound, hSession⟩ := hSame
      refine ⟨?_, fun t response hSome => ?_⟩
      · exact congrArg some (Prod.ext hSession hResponse)
      · cases hSome
        exact hSound

theorem Operation.performAll_uncached (p : Personality) (ops : List (Nat × Operation))
    {s : Session p.Cpu} (h : s.CacheSound) :
    performAll (performUncached p.system) ops s.withoutCache =
      (performAll (perform p.system) ops s).map (Prod.map Session.withoutCache id) := by
  induction ops generalizing s with
  | nil => rfl
  | cons first rest ih =>
      obtain ⟨bound, op⟩ := first
      obtain ⟨hSame, hSound⟩ := performUncached_eq p h bound op
      simp only [performAll, hSame]
      cases hFirst : op.perform p.system bound s with
      | none => rfl
      | some result =>
          obtain ⟨t, response⟩ := result
          have hRest := ih (hSound t response hFirst)
          simp only [Option.map_some, Option.bind_some, Prod.map, id, hRest, Option.map_map]
          rfl

theorem Arises.cacheSound (p : Personality) {start : Session p.Cpu → Prop}
    (hStart : ∀ s, start s → s.CacheSound) {s : Session p.Cpu}
    (h : Arises p.system start s) : s.CacheSound := by
  obtain ⟨t, hSound, -⟩ := h.exists_related (uncached_engineRelation p)
    (fun {s t u response bound op} hSession hPerform =>
      ⟨u.withoutCache,
        (Operation.performUncached_eq p hSession.1 bound op).2 u response hPerform, rfl⟩)
    (uncached_answerRelation p.system.toConventions).child
    (fun s hs => ⟨s.withoutCache, hStart s hs, rfl⟩)
  exact hSound

/-- Take any process that starts with the empty cache of a newly loaded program. In every
session that comes up while operations are done on it, in its handlers and in its
children, a kept instruction is the one that decoding the text again would give. A text
of its own segment is changed by an operation only if the process executes a new program,
by a trap it takes or from outside. And any sequence of operations gives the same
responses and leaves the same process and host as without a cache. -/
theorem cache_changes_no_run (p : Personality) (s : Session p.Cpu)
    (hStart : s.process.cache = .empty s.memory.isSplit) :
    (∀ t, Arises p.system (· = s) t → ∀ address i, t.process.cache.entries[address]? = some i →
      i = Processor.fetch t.memory.text.get address) ∧
    (∀ (bound : Nat) (op : Operation) (t u : Session p.Cpu) (response : Response),
      op.perform p.system bound t = some (u, response) → t.memory.isSplit = true →
      (u.memory.isSplit = true ∧ u.memory.text = t.memory.text) ∨
      (∃ trap v, op.TakesTrap p.system bound t trap v ∧ p.Replaces trap v) ∨
      ∃ path, op = .execute path ∧ response = .reply (.ok ())) ∧
    ∀ ops, Operation.performAll (Operation.performUncached p.system) ops s.withoutCache =
      (Operation.performAll (Operation.perform p.system) ops s).map
        (Prod.map Session.withoutCache id) := by
  have hSound : s.CacheSound := by
    change s.process.cache.Reflects s.memory
    rw [hStart]
    exact .empty s.memory
  refine ⟨?_, ?_, fun ops => Operation.performAll_uncached p ops hSound⟩
  · intro t hArises address i hKept
    have hKeptSound : t.CacheSound := hArises.cacheSound p fun u hStart => by
      obtain rfl : u = s := hStart
      exact hSound
    exact (hKeptSound.entry hKept).2
  · intro bound op t u response hPerform hSplit
    rcases op.sameText_perform p.sameText_answer hPerform with hSame | hReplaced
    · exact .inl ⟨hSame.isSplit.trans hSplit, hSame.text hSplit⟩
    · exact .inr hReplaced

/-- A split image of a loop that adds the numbers from ten down, and then returns. -/
private abbrev loopImage : Image where
  memory := AddressSpace.split.mapText
    (·.write 0 [0xb9, 0x0a, 0x00, 0x31, 0xc0, 0x01, 0xc8, 0xe2, 0xfc, 0xc3])
  entry := 0
  format := .minixSeparate

/-- The loop on Minix. -/
theorem cache_changes_no_run_minix_loop :
    (Minix.conventions.start loopImage {} {}).process.cache.enabled = true ∧
    ∀ ops, Operation.performAll (Operation.performUncached Minix.system) ops
        (Minix.conventions.start loopImage {} {}).withoutCache =
      (Operation.performAll (Operation.perform Minix.system) ops
        (Minix.conventions.start loopImage {} {})).map (Prod.map Session.withoutCache id) :=
  ⟨rfl, (cache_changes_no_run .minix (Minix.conventions.start loopImage {} {}) rfl).2.2⟩

end VintageUnix
