import Mathlib.Data.List.Induction
import VintageUnix.Proofs.ProcessTree

/-! Conservation of finished children. A ledger numbers the records of children in the order in
which the children ended, and accepts only what the one list of a host allows: a wait reports
the last record that no wait has reported, and is refused when there is none. Every run of a
process tree is accepted, whoever forks and whoever waits. -/
namespace VintageUnix

/-- The records of finished children, numbered as they were made. A record is either
outstanding or has been reported once. -/
structure Ledger where
  recorded : List FinishedChild
  /-- The numbers of the records that no wait has reported, the last first. -/
  outstanding : List Nat
  /-- The numbers of the others, in the order of the waits. -/
  reported : List Nat
  numbers : (reported ++ outstanding).Perm (List.range recorded.length)
  order : outstanding.Pairwise (· > ·)

namespace Ledger

/-- The ledger of records that were made before anything is followed. -/
def start (records : List FinishedChild) : Ledger where
  recorded := records.reverse
  outstanding := (List.range records.length).reverse
  reported := []
  numbers := by
    rw [List.nil_append, List.length_reverse]
    exact List.reverse_perm _
  order := List.pairwise_reverse.2 List.pairwise_lt_range

theorem lt_of_outstanding (l : Ledger) {n : Nat} (h : n ∈ l.outstanding) :
    n < l.recorded.length :=
  List.mem_range.1 (l.numbers.mem_iff.1 (List.mem_append_right _ h))

theorem lt_of_reported (l : Ledger) {n : Nat} (h : n ∈ l.reported) : n < l.recorded.length :=
  List.mem_range.1 (l.numbers.mem_iff.1 (List.mem_append_left _ h))

theorem mem_outstanding_iff (l : Ledger) {n : Nat} :
    n ∈ l.outstanding ↔ n < l.recorded.length ∧ n ∉ l.reported := by
  have hNodup : (l.reported ++ l.outstanding).Nodup := l.numbers.nodup_iff.2 List.nodup_range
  constructor
  · intro h
    refine ⟨l.lt_of_outstanding h, fun hReported => ?_⟩
    exact (List.nodup_append.1 hNodup).2.2 n hReported n h rfl
  · rintro ⟨hLt, hUnreported⟩
    have hNumber : n ∈ l.reported ++ l.outstanding := l.numbers.mem_iff.2 (List.mem_range.2 hLt)
    exact (List.mem_append.1 hNumber).resolve_left hUnreported

/-- No record has been reported twice. -/
theorem nodup_reported (l : Ledger) : l.reported.Nodup :=
  (List.nodup_append.1 (l.numbers.nodup_iff.2 List.nodup_range)).1

/-- The last record that no wait has reported. -/
structure Latest (l : Ledger) (last : Nat) : Prop where
  lt : last < l.recorded.length
  unreported : last ∉ l.reported
  le {n} : n < l.recorded.length → n ∉ l.reported → n ≤ last

theorem latest_of_outstanding {l : Ledger} {last : Nat} {rest : List Nat}
    (h : l.outstanding = last :: rest) : l.Latest last := by
  have hMember : last ∈ l.outstanding := h ▸ List.mem_cons_self
  obtain ⟨hLt, hUnreported⟩ := l.mem_outstanding_iff.1 hMember
  refine ⟨hLt, hUnreported, ?_⟩
  intro n hn hOther
  have hOutstanding := l.mem_outstanding_iff.2 ⟨hn, hOther⟩
  rw [h, List.mem_cons] at hOutstanding
  rcases hOutstanding with rfl | hRest
  · exact Nat.le_refl _
  · have hOrder : (last :: rest).Pairwise (· > ·) := h ▸ l.order
    exact Nat.le_of_lt ((List.pairwise_cons.1 hOrder).1 n hRest)

/-- A child has ended. -/
def record (l : Ledger) (child : FinishedChild) : Ledger where
  recorded := l.recorded ++ [child]
  outstanding := l.recorded.length :: l.outstanding
  reported := l.reported
  numbers := by
    rw [List.length_append, List.length_singleton, List.range_succ]
    exact List.perm_middle.trans ((l.numbers.cons _).trans (List.perm_append_singleton _ _).symm)
  order := List.pairwise_cons.2 ⟨fun _ h => l.lt_of_outstanding h, l.order⟩

/-- A wait has reported the last record that was outstanding. -/
def report (l : Ledger) {last : Nat} {rest : List Nat} (h : l.outstanding = last :: rest) :
    Ledger where
  recorded := l.recorded
  outstanding := rest
  reported := l.reported ++ [last]
  numbers := by
    rw [List.append_assoc, List.singleton_append, ← h]
    exact l.numbers
  order := (List.pairwise_cons.1 (h ▸ l.order)).2

/-- What the ledger is after an event, if it accepts the event. -/
def settle (l : Ledger) : ChildEvent → Option Ledger
  | .ended child => some (l.record child)
  | .reported child =>
    match h : l.outstanding with
    | last :: _ => if l.recorded[last]? = some child then some (l.report h) else none
    | [] => none
  | .refused e => if l.outstanding = [] ∧ e = .invalidArgument then some l else none

/-- What the ledger is after events, if it accepts them one after the other. -/
def replay (l : Ledger) (events : List ChildEvent) : Option Ledger :=
  events.foldlM settle l

theorem replay_append (l : Ledger) (first second : List ChildEvent) :
    l.replay (first ++ second) = (l.replay first).bind (·.replay second) :=
  List.foldlM_append

theorem exists_of_replay_append_cons {l k : Ledger} {before after : List ChildEvent}
    {e : ChildEvent} (h : l.replay (before ++ e :: after) = some k) :
    ∃ m, l.replay before = some m ∧ ∃ next, m.settle e = some next := by
  rw [replay_append] at h
  obtain ⟨m, hBefore, hAfter⟩ := Option.bind_eq_some_iff.1 h
  obtain ⟨next, hNext, -⟩ := Option.bind_eq_some_iff.1 hAfter
  exact ⟨m, hBefore, next, hNext⟩

theorem replay_singleton (l : Ledger) (e : ChildEvent) : l.replay [e] = l.settle e := by
  change (l.settle e >>= fun k => some k) = _
  cases l.settle e <;> rfl

/-- A report is accepted of the last outstanding record only. -/
theorem settle_reported {l : Ledger} {child : FinishedChild} {last : Nat} {rest : List Nat}
    (hLast : l.outstanding = last :: rest) (hChild : l.recorded[last]? = some child) :
    l.settle (.reported child) = some (l.report hLast) := by
  simp only [settle]
  split
  next other rest' hOther =>
    obtain ⟨rfl, rfl⟩ := List.cons.inj (hOther.symm.trans hLast)
    rw [if_pos hChild]
  next hNone => cases hNone.symm.trans hLast

theorem exists_of_settle_reported {l k : Ledger} {child : FinishedChild}
    (h : l.settle (.reported child) = some k) :
    ∃ last rest, ∃ hLast : l.outstanding = last :: rest,
      l.recorded[last]? = some child ∧ k = l.report hLast := by
  simp only [settle] at h
  split at h
  next last rest hLast =>
    split at h <;> cases h
    next hChild => exact ⟨last, rest, hLast, hChild, rfl⟩
  next => cases h

/-- A refusal is accepted only when nothing is outstanding. -/
theorem of_settle_refused {l k : Ledger} {e : Errno} (h : l.settle (.refused e) = some k) :
    l.outstanding = [] ∧ e = .invalidArgument ∧ k = l := by
  simp only [settle] at h
  split at h <;> cases h
  next hNone => exact ⟨hNone.1, hNone.2, rfl⟩

/-- The outstanding records are those of a list. -/
def Holds (l : Ledger) (records : List FinishedChild) : Prop :=
  l.outstanding.map (l.recorded[·]?) = records.map some

theorem map_getElem?_range {α : Type} (xs : List α) :
    (List.range xs.length).map (xs[·]?) = xs.map some := by
  refine List.ext_getElem (by simp only [List.length_map, List.length_range]) fun i hi _ => ?_
  simp only [List.getElem_map, List.getElem_range]
  rw [List.length_map, List.length_range] at hi
  exact List.getElem?_eq_getElem hi

/-- Records keep their numbers when others are made. -/
theorem map_getElem?_append {α : Type} {numbers : List Nat} {xs : List α}
    (hLt : ∀ n ∈ numbers, n < xs.length) (ys : List α) :
    numbers.map ((xs ++ ys)[·]?) = numbers.map (xs[·]?) :=
  List.map_congr_left fun n hn => List.getElem?_append_left (hLt n hn)

theorem holds_start (records : List FinishedChild) : (start records).Holds records := by
  have hRange := map_getElem?_range records.reverse
  rw [List.length_reverse] at hRange
  simp only [Holds, start, List.map_reverse, hRange, List.reverse_reverse]

theorem Holds.record {l : Ledger} {records : List FinishedChild} (h : l.Holds records)
    (child : FinishedChild) : (l.record child).Holds (child :: records) := by
  have hOthers := map_getElem?_append (fun _ hn => l.lt_of_outstanding hn) [child]
  simp only [Holds, Ledger.record, List.map_cons, List.getElem?_concat_length, hOthers]
  exact congrArg _ h

theorem Holds.report {l : Ledger} {child : FinishedChild} {records : List FinishedChild}
    (h : l.Holds (child :: records)) :
    ∃ k, l.settle (.reported child) = some k ∧ k.Holds records := by
  obtain ⟨last, rest, hLast, hChild, hRest⟩ := List.map_eq_cons_iff.1 h
  exact ⟨_, settle_reported hLast hChild, hRest⟩

theorem Holds.refuse {l : Ledger} (h : l.Holds []) :
    l.settle (.refused .invalidArgument) = some l :=
  if_pos ⟨List.map_eq_nil_iff.1 h, rfl⟩

end Ledger

/-- The child that an event records. -/
def ChildEvent.ended? : ChildEvent → Option FinishedChild
  | ended child => some child
  | _ => none

/-- The child that an event reports. -/
def ChildEvent.reported? : ChildEvent → Option FinishedChild
  | reported child => some child
  | _ => none

namespace Ledger

/-- The ledger has the records and the reports of a history, in order. -/
structure Accounts (l : Ledger) (initial : List FinishedChild) (events : List ChildEvent) :
    Prop where
  recorded : l.recorded = initial.reverse ++ events.filterMap ChildEvent.ended?
  reported : l.reported.map (l.recorded[·]?) = (events.filterMap ChildEvent.reported?).map some

theorem filterMap_concat_of_none {β : Type} {f : ChildEvent → Option β} {e : ChildEvent}
    (h : f e = none) (events : List ChildEvent) :
    (events ++ [e]).filterMap f = events.filterMap f := by
  rw [List.filterMap_append, List.filterMap_cons_none h, List.filterMap_nil, List.append_nil]

theorem Accounts.settle {l k : Ledger} {initial : List FinishedChild} {events : List ChildEvent}
    (h : l.Accounts initial events) {e : ChildEvent} (hSettle : l.settle e = some k) :
    k.Accounts initial (events ++ [e]) := by
  cases e with
  | ended child =>
      cases hSettle
      refine ⟨?_, ?_⟩
      · rw [List.filterMap_append, ← List.append_assoc, ← h.recorded]
        rfl
      · rw [filterMap_concat_of_none rfl, ← h.reported]
        exact map_getElem?_append (fun _ hn => l.lt_of_reported hn) [child]
  | reported child =>
      obtain ⟨last, rest, hLast, hChild, rfl⟩ := exists_of_settle_reported hSettle
      refine ⟨?_, ?_⟩
      · rw [filterMap_concat_of_none rfl]
        exact h.recorded
      · simp only [report, List.map_append, List.filterMap_append, h.reported, List.map_cons,
          List.map_nil, hChild]
        rfl
  | refused e =>
      obtain ⟨-, -, rfl⟩ := of_settle_refused hSettle
      refine ⟨?_, ?_⟩
      · rw [filterMap_concat_of_none rfl]
        exact h.recorded
      · rw [filterMap_concat_of_none rfl]
        exact h.reported

/-- The ledger of a whole history has its records and reports. -/
theorem accounts_of_replay {l : Ledger} {initial : List FinishedChild} {events : List ChildEvent}
    (h : (start initial).replay events = some l) : l.Accounts initial events := by
  induction events using List.reverseRecOn generalizing l with
  | nil =>
      cases h
      exact ⟨(List.append_nil _).symm, rfl⟩
  | append_singleton events e ih =>
      rw [replay_append] at h
      obtain ⟨k, hBefore, hLast⟩ := Option.bind_eq_some_iff.1 h
      exact (ih hBefore).settle ((k.replay_singleton e).symm.trans hLast)

/-- Together the reported and the outstanding records are all that were made. -/
theorem Accounts.conserves {l : Ledger} {initial records : List FinishedChild}
    {events : List ChildEvent} (hAccounts : l.Accounts initial events) (hHolds : l.Holds records) :
    (events.filterMap ChildEvent.reported? ++ records).Perm
      (initial ++ events.filterMap ChildEvent.ended?) := by
  have hRecords : ((events.filterMap ChildEvent.reported? ++ records).map some).Perm
      (l.recorded.map some) := by
    rw [List.map_append, ← hAccounts.reported, ← hHolds, ← List.map_append,
      ← map_getElem?_range]
    exact l.numbers.map _
  have hPlain := hRecords.filterMap id
  simp only [List.filterMap_map, Function.id_comp, List.filterMap_some] at hPlain
  rw [hAccounts.recorded] at hPlain
  exact hPlain.trans ((List.reverse_perm _).append_right _)

end Ledger

namespace ProcessTree

variable {p : Personality}

theorem finished_of_reaped {run : Runner p.Cpu} {trap : UInt16} {s t : Session p.Cpu}
    {child : FinishedChild} (hWaits : p.Waits trap s)
    (hAnswer : p.system.answer run trap s = some (t, .ok ())) (hWaited : s.waited = .ok child) :
    s.host.finished = child :: t.host.finished := by
  obtain ⟨u, hAnswered, hTail, -⟩ := p.answer_of_wait hWaits
  cases hAnswered.symm.trans hAnswer
  rw [hTail]
  unfold Session.waited at hWaited
  split at hWaited
  next hFinished =>
    cases hWaited
    rw [hFinished, List.tail_cons]
  next => cases hWaited

theorem finished_of_refused {run : Runner p.Cpu} {trap : UInt16} {s t : Session p.Cpu}
    {e : Errno} (hWaits : p.Waits trap s)
    (hAnswer : p.system.answer run trap s = some (t, .ok ())) (hWaited : s.waited = .error e) :
    e = .invalidArgument ∧ s.host.finished = [] ∧ t.host.finished = [] := by
  obtain ⟨u, hAnswered, hTail, -⟩ := p.answer_of_wait hWaits
  cases hAnswered.symm.trans hAnswer
  rw [hTail]
  unfold Session.waited at hWaited
  split at hWaited
  next => cases hWaited
  next hFinished =>
    cases hWaited
    exact ⟨rfl, hFinished, by rw [hFinished, List.tail_nil]⟩

/-- What one step adds to the events is accepted, and the ledger goes on holding the records
of the host. -/
theorem Step.settles {f g : ProcessTree p} (h : Step f g) :
    ∃ es, g.events = f.events ++ es ∧
      ∀ l : Ledger, l.Holds f.records → ∃ k, l.replay es = some k ∧ k.Holds g.records := by
  cases h with
  | act hActs =>
      refine ⟨[], (List.append_nil _).symm, fun l hHolds => ⟨l, rfl, ?_⟩⟩
      simp only [records, Personality.finished_of_acts hActs]
      exact hHolds
  | @reap suspended life s t child run trap hWaits hAnswer hWaited =>
      refine ⟨[.reported child], (List.append_assoc _ _ _).symm, fun l hHolds => ?_⟩
      simp only [records, finished_of_reaped hWaits hAnswer hWaited] at hHolds
      rw [Ledger.replay_singleton]
      exact hHolds.report
  | @refuse suspended life s t e run trap hWaits hAnswer hWaited =>
      refine ⟨[.refused e], (List.append_assoc _ _ _).symm, fun l hHolds => ?_⟩
      obtain ⟨rfl, hBefore, hAfter⟩ := finished_of_refused hWaits hAnswer hWaited
      simp only [records, hBefore, hAfter, Ledger.replay_singleton] at hHolds ⊢
      exact ⟨l, hHolds.refuse, hHolds⟩
  | fork hForks =>
      refine ⟨[], ?_, fun l hHolds => ⟨l, rfl, ?_⟩⟩
      · simp only [events, eventsBefore, Life.events]
      · simp only [records, p.finished_forkedChild]
        exact hHolds
  | @join parent suspended life ended t hForks hEnded hAnswer =>
      refine ⟨[.ended (childRecord parent ended)], ?_, fun l hHolds => ?_⟩
      · simp only [events, eventsBefore, Life.events, List.append_assoc]
      · simp only [records, p.finished_of_fork hForks hAnswer, Ledger.replay_singleton]
        exact ⟨_, rfl, hHolds.record _⟩

theorem Runs.settles {f g : ProcessTree p} (h : Runs f g) :
    ∃ es, g.events = f.events ++ es ∧
      ∀ l : Ledger, l.Holds f.records → ∃ k, l.replay es = some k ∧ k.Holds g.records := by
  induction h with
  | refl => exact ⟨[], (List.append_nil _).symm, fun l hHolds => ⟨l, rfl, hHolds⟩⟩
  | tail _ hStep ih =>
      obtain ⟨first, hFirst, ih⟩ := ih
      obtain ⟨last, hLast, hSettles⟩ := hStep.settles
      refine ⟨first ++ last, by rw [hLast, hFirst, List.append_assoc], fun l hHolds => ?_⟩
      obtain ⟨k, hReplay, hBetween⟩ := ih l hHolds
      rw [Ledger.replay_append, hReplay]
      exact hSettles k hBetween

/-- What the history of a tree comes to when the host had records to begin with. -/
structure Conserves (initial : List FinishedChild) (f : ProcessTree p) : Prop where
  /-- The children that waits have reported and those that are left are all that were
  recorded. -/
  records : (f.events.filterMap ChildEvent.reported? ++ f.records).Perm
    (initial ++ f.events.filterMap ChildEvent.ended?)
  /-- The reports belong to different records. -/
  once : ∃ l, (Ledger.start initial).replay f.events = some l ∧ l.Accounts initial f.events ∧
    l.reported.Nodup
  latest {before child after} : f.events = before ++ .reported child :: after →
    ∃ l last, (Ledger.start initial).replay before = some l ∧ l.Accounts initial before ∧
      l.Latest last ∧ l.recorded[last]? = some child
  refused {before e after} : f.events = before ++ .refused e :: after →
    e = .invalidArgument ∧ ∃ l, (Ledger.start initial).replay before = some l ∧
      l.Accounts initial before ∧ ∀ n < l.recorded.length, n ∈ l.reported

theorem conserves_of_replay {initial : List FinishedChild} {f : ProcessTree p} {l : Ledger}
    (hReplay : (Ledger.start initial).replay f.events = some l) (hHolds : l.Holds f.records) :
    Conserves initial f where
  records := (Ledger.accounts_of_replay hReplay).conserves hHolds
  once := ⟨l, hReplay, Ledger.accounts_of_replay hReplay, l.nodup_reported⟩
  latest := by
    intro before child after hEvents
    rw [hEvents] at hReplay
    obtain ⟨k, hBefore, u, hSettle⟩ := Ledger.exists_of_replay_append_cons hReplay
    obtain ⟨last, rest, hLast, hChild, -⟩ := Ledger.exists_of_settle_reported hSettle
    exact ⟨k, last, hBefore, Ledger.accounts_of_replay hBefore,
      Ledger.latest_of_outstanding hLast, hChild⟩
  refused := by
    intro before e after hEvents
    rw [hEvents] at hReplay
    obtain ⟨k, hBefore, u, hSettle⟩ := Ledger.exists_of_replay_append_cons hReplay
    obtain ⟨hNone, rfl, -⟩ := Ledger.of_settle_refused hSettle
    refine ⟨rfl, k, hBefore, Ledger.accounts_of_replay hBefore, ?_⟩
    intro n hn
    by_contra hOther
    have hOutstanding := k.mem_outstanding_iff.2 ⟨hn, hOther⟩
    rw [hNone] at hOutstanding
    cases hOutstanding

theorem Runs.conserves {s : Session p.Cpu} {f : ProcessTree p} (h : Runs (root s) f) :
    Conserves s.host.finished f := by
  obtain ⟨es, hEvents, hSettles⟩ := h.settles
  obtain ⟨l, hReplay, hHolds⟩ := hSettles _ (Ledger.holds_start s.host.finished)
  have hAll : f.events = es := hEvents
  exact conserves_of_replay (hAll ▸ hReplay) hHolds

/-- At any point a wait takes the first of the records, or is refused if there are none. -/
theorem exists_step_of_waits (f : ProcessTree p) {run : Runner p.Cpu} {trap : UInt16}
    (hWaits : p.Waits trap f.session) :
    ∃ t, p.system.answer run trap f.session = some (t, .ok ()) ∧
      t.process.machine = p.machineAfterWait trap f.session.waited f.session.process.machine ∧
      ((∃ child, f.session.waited = .ok child ∧ f.records = child :: t.host.finished ∧
          Step f { f with life := .reaped f.life child, session := t }) ∨
        (f.session.waited = .error .invalidArgument ∧ f.records = [] ∧
          Step f { f with life := .refused f.life .invalidArgument, session := t })) := by
  obtain ⟨t, hAnswer, -, hMachine⟩ := @p.answer_of_wait run trap f.session hWaits
  refine ⟨t, hAnswer, hMachine, ?_⟩
  cases hWaited : f.session.waited with
  | ok child =>
      exact .inl ⟨child, rfl, finished_of_reaped hWaits hAnswer hWaited,
        .reap hWaits hAnswer hWaited⟩
  | error e =>
      obtain ⟨rfl, hNone, -⟩ := finished_of_refused hWaits hAnswer hWaited
      exact .inr ⟨rfl, hNone, .refuse hWaits hAnswer hWaited⟩

/-- A wait that finds records takes the first of them. -/
theorem exists_reap {suspended : List (Suspended p)} {life : Life} {s : Session p.Cpu}
    {child : FinishedChild} {rest : List FinishedChild} (trap : UInt16) (hWaits : p.Waits trap s)
    (hRecords : s.host.finished = child :: rest) :
    ∃ t, Step { suspended, life, session := s }
        { suspended, life := .reaped life child, session := t } ∧ t.host.finished = rest := by
  let f : ProcessTree p := { suspended, life, session := s }
  obtain ⟨t, -, -, ⟨first, -, hFirst, hStep⟩ | ⟨-, hNone, -⟩⟩ :=
    @exists_step_of_waits p f (fun _ => none) trap hWaits
  · obtain ⟨rfl, rfl⟩ := List.cons.inj (hRecords.symm.trans hFirst)
    exact ⟨t, hStep, rfl⟩
  · cases hRecords.symm.trans hNone

/-- A child that comes to its end is recorded above all that was recorded before. -/
theorem Runs.exists_join {suspended : List (Suspended p)} {parent : Suspended p} {life : Life}
    {ended : Session p.Cpu} (hForks : p.Forks parent.trap parent.session)
    (hChild : Runs
      { suspended := parent :: suspended
        life := .start
        session := p.forkedChild parent.trap parent.session }
      { suspended := parent :: suspended, life, session := ended })
    (hEnded : ended.isRunning = false) :
    ∃ t, Runs { suspended, life := parent.life, session := parent.session }
        { suspended, life := .forked parent.life (childRecord parent ended) life, session := t } ∧
      t.host.finished = childRecord parent ended :: ended.host.finished := by
  obtain ⟨t, hAnswer⟩ := p.exists_answer_of_fork hForks ended
  exact ⟨t, StepUntil.join_child hForks hChild (.inl hEnded) hAnswer,
    p.finished_of_fork hForks hAnswer⟩

theorem code_childRecord_of_terminated (parent : Suspended p) {ended : Session p.Cpu} {code : Int}
    (h : ended.process.state = .terminated code) : (childRecord parent ended).code = code := by
  simp only [childRecord, Session.record, h]
  rfl

theorem code_childRecord_of_failed (parent : Suspended p) {ended : Session p.Cpu} {fault : Fault}
    (h : ended.process.state = .failed fault) : (childRecord parent ended).code = -1 := by
  simp only [childRecord, Session.record, h]
  rfl

end ProcessTree

/-- Whatever the processes that come from one by forking do, the children that waits have reported
and those that are left are the ones that finished. Each is reported at most once, a wait
reports the one that finished last among those that are left, and it is refused exactly
when there is none. What the engine does is such a course of things, in which a child is taken
to have finished only when its run has come back. -/
theorem finished_children_are_conserved (p : Personality) (s : Session p.Cpu) :
    (∀ (ops : List (Nat × Operation)) (t : Session p.Cpu) (responses : List Response),
      Operation.performAll (Operation.perform p.system) ops s = some (t, responses) →
      ∃ life, ProcessTree.Runs (.root s) { suspended := [], life, session := t } ∧
        ProcessTree.ReturningRuns (.root s) { suspended := [], life, session := t }) ∧
    (∀ f : ProcessTree p, ProcessTree.Runs (.root s) f →
      f.Conserves s.host.finished ∧
      ∀ (run : Runner p.Cpu) (trap : UInt16), p.Waits trap f.session →
        ∃ t, p.system.answer run trap f.session = some (t, .ok ()) ∧
          t.process.machine =
            p.machineAfterWait trap f.session.waited f.session.process.machine ∧
          ((∃ child, f.session.waited = .ok child ∧ f.records = child :: t.host.finished ∧
              ProcessTree.Step f { f with life := .reaped f.life child, session := t }) ∨
            (f.session.waited = .error .invalidArgument ∧ f.records = [] ∧
              ProcessTree.Step f
                { f with life := .refused f.life .invalidArgument, session := t }))) ∧
    (∀ child : FinishedChild, (child.status.toNat : Int) = child.code % 256 * 256 + 14 ∧
      child.status ||| 14 = child.status) ∧
    ∀ (parent : Suspended p) (ended : Session p.Cpu),
      (∀ code, ended.process.state = .terminated code →
        (ProcessTree.childRecord parent ended).code = code) ∧
      ∀ fault, ended.process.state = .failed fault →
        (ProcessTree.childRecord parent ended).code = -1 :=
  ⟨fun _ _ _ hPerform => (Personality.becomes_of_performAll hPerform [] .start).imp
      fun _ hReturning => ⟨hReturning.runs, hReturning⟩,
    fun f hRuns => ⟨hRuns.conserves, fun _ _ hWaits => f.exists_step_of_waits hWaits⟩,
    fun child => ⟨child.toNat_status, child.status_or⟩,
    fun parent _ => ⟨fun _ hState => ProcessTree.code_childRecord_of_terminated parent hState,
      fun _ hState => ProcessTree.code_childRecord_of_failed parent hState⟩⟩

/-- A process with nothing but halts in its memory. -/
private abbrev pdp11Halts : Session Personality.unixV6Pdp11.Cpu :=
  (UnixV6.conventions : Conventions Pdp11.Cpu).start
    { memory := AddressSpace.shared.write 0 [0, 0, 0, 0], entry := 0, format := .raw } {} {}

/-- A child fails, its parent waits for it, and there is nothing to wait for after that. -/
theorem finished_children_are_conserved_failed_child :
    (∃ t responses life, Operation.performAll (Operation.perform Personality.unixV6Pdp11.system)
        [(1, .trap 2), (1, .trap 7)] pdp11Halts = some (t, responses) ∧
      ProcessTree.Runs (.root pdp11Halts) { suspended := [], life, session := t }) ∧
    ∃ f : ProcessTree .unixV6Pdp11, ProcessTree.Runs (.root pdp11Halts) f ∧
      f.events = [.ended ⟨2, -1⟩, .reported ⟨2, -1⟩, .refused .invalidArgument] ∧
      f.Conserves [] := by
  obtain ⟨hEngine, hTree, -, hCode⟩ := finished_children_are_conserved .unixV6Pdp11 pdp11Halts
  constructor
  · have hPerforms : (Operation.performAll (Operation.perform Personality.unixV6Pdp11.system)
        [(1, .trap 2), (1, .trap 7)] pdp11Halts).isSome = true := by decide +kernel
    obtain ⟨⟨t, responses⟩, hPerform⟩ := Option.isSome_iff_exists.1 hPerforms
    obtain ⟨life, hRuns, -⟩ := hEngine _ t responses hPerform
    exact ⟨t, responses, life, hPerform, hRuns⟩
  · let parent : Suspended .unixV6Pdp11 := { trap := 2, life := .start, session := pdp11Halts }
    let failed := (Personality.unixV6Pdp11.forkedChild 2 pdp11Halts).setState
      (.failed .undefinedInstruction)
    have hFailed : ProcessTree.Runs
        { suspended := [parent]
          life := .start
          session := Personality.unixV6Pdp11.forkedChild 2 pdp11Halts }
        { suspended := [parent], life := .start, session := failed } :=
      .single (.act (.state _ _))
    have hRecord : ProcessTree.childRecord parent failed = ⟨2, -1⟩ :=
      congrArg (FinishedChild.mk 2) ((hCode parent failed).2 .undefinedInstruction rfl)
    obtain ⟨t, hJoined, hRecords⟩ :=
      @ProcessTree.Runs.exists_join .unixV6Pdp11 [] parent _ _ rfl hFailed rfl
    rw [hRecord] at hJoined hRecords
    obtain ⟨u, hReap, hNone⟩ :=
      @ProcessTree.exists_reap .unixV6Pdp11 [] _ t _ _ 7 rfl hRecords
    have hReaped := hJoined.tail hReap
    obtain ⟨v, -, -, ⟨child, -, hChild, -⟩ | ⟨-, -, hRefuse⟩⟩ :=
      (hTree _ hReaped).2 (fun _ => none) 7 rfl
    · cases hNone.symm.trans hChild
    · have hRuns := hReaped.tail hRefuse
      exact ⟨_, hRuns, rfl, (hTree _ hRuns).1⟩

end VintageUnix
