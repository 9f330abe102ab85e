import VintageUnix.Proofs.Outcomes

/-! Which descriptor is opened. It is the lowest one that is closed, and all others stay as they
are. Slots are numbered beyond the last descriptor: what is opened when every descriptor is in
use gets the number of another one, and cannot be reached. -/
namespace VintageUnix

namespace Descriptors

variable {d e : Descriptors}

/-- A search that ends early ends at a free slot. -/
theorem freeFrom_not_mem {handles : Std.TreeMap Nat Handle} {count start : Nat}
    (hEarly : freeFrom handles count start < start + count) :
    freeFrom handles count start ∉ handles := by
  induction count generalizing start with
  | zero => exact absurd hEarly (Nat.lt_irrefl _)
  | succ count ih =>
      rw [freeFrom] at hEarly ⊢
      split at hEarly
      next hOpen =>
        rw [if_pos hOpen]
        exact ih (by omega)
      next hFree =>
        rw [if_neg hFree]
        exact hFree

/-- The slots that are searched end where the table ends, and there is none behind it. -/
theorem firstFree_not_mem (d : Descriptors) : d.firstFree ∉ d.handles := by
  intro hOpen
  have hBelow := d.lt_size _ hOpen
  refine freeFrom_not_mem ?_ hOpen
  rw [firstFree] at hBelow
  omega

theorem firstFree_eq {slot : Nat} (hFree : slot ∉ d.handles)
    (hBelow : ∀ other < slot, other ∈ d.handles) : d.firstFree = slot := by
  rcases Nat.lt_trichotomy d.firstFree slot with hLess | hEq | hGreater
  · exact absurd (hBelow _ hLess) d.firstFree_not_mem
  · exact hEq
  · exact absurd (mem_of_lt_firstFree hGreater) hFree

theorem get?_eq_none_iff {descriptor : UInt16} :
    d.get? descriptor = none ↔ descriptor.toNat ∉ d.handles := by
  rw [get?, Std.TreeMap.mem_iff_isSome_getElem?, Option.not_isSome_iff_eq_none]

theorem get_eq_error_iff {descriptor : UInt16} :
    d.get descriptor = .error .badDescriptor ↔ d.get? descriptor = none := by
  rw [get]
  cases d.get? descriptor <;> simp

theorem get_eq_ok_iff {descriptor : UInt16} {handle : Handle} :
    d.get descriptor = .ok handle ↔ d.get? descriptor = some handle := by
  rw [get]
  cases d.get? descriptor <;> simp

theorem get_congr {descriptor : UInt16} (h : e.get? descriptor = d.get? descriptor) :
    e.get descriptor = d.get descriptor := by
  rw [get, h, get]

theorem get?_insert (d : Descriptors) (handle : Handle) (descriptor : UInt16) :
    (d.insert handle).2.get? descriptor =
      if d.firstFree = descriptor.toNat then some handle else d.get? descriptor := by
  simp only [insert, get?, Std.TreeMap.getElem?_insert, Nat.compare_eq_eq]

theorem get?_insert_of_open {descriptor : UInt16} {handle : Handle}
    (hOpen : d.get? descriptor = some handle) (inserted : Handle) :
    (d.insert inserted).2.get? descriptor = some handle := by
  have hSlot : d.firstFree ≠ descriptor.toNat := by
    intro hSame
    have hClosed := get?_eq_none_iff.2 (hSame ▸ d.firstFree_not_mem)
    rw [hOpen] at hClosed
    cases hClosed
  rw [get?_insert, if_neg hSlot, hOpen]

theorem get?_install (d : Descriptors) (target : UInt16) (handle : Handle)
    (descriptor : UInt16) :
    (d.install target handle).get? descriptor =
      if target = descriptor then some handle else d.get? descriptor := by
  simp only [install, get?, Std.TreeMap.getElem?_insert, Nat.compare_eq_eq, UInt16.toNat_inj]

theorem get?_close {target : UInt16} (hClose : d.close target = .ok e) (descriptor : UInt16) :
    e.get? descriptor = if target = descriptor then none else d.get? descriptor := by
  rw [close] at hClose
  split at hClose <;> cases hClose
  simp only [get?, Std.TreeMap.getElem?_erase, Nat.compare_eq_eq, UInt16.toNat_inj]

theorem close_eq_error_iff {descriptor : UInt16} :
    d.close descriptor = .error .badDescriptor ↔ d.get? descriptor = none := by
  rw [close, get?_eq_none_iff]
  split <;> simp_all

theorem exists_close {descriptor : UInt16} {handle : Handle}
    (hOpen : d.get? descriptor = some handle) : ∃ e, d.close descriptor = .ok e := by
  have hMem : descriptor.toNat ∈ d.handles := by
    rw [Std.TreeMap.mem_iff_isSome_getElem?]
    exact Option.isSome_of_eq_some hOpen
  rw [close, if_pos hMem]
  exact ⟨_, rfl⟩

/-- What opening a descriptor for a handle comes to: the number it is given, and the table
afterwards. -/
inductive Opening (d : Descriptors) (handle : Handle) : UInt16 × Descriptors → Prop
  /-- The lowest closed descriptor, and no other, refers to the handle from then on. -/
  | lowest {descriptor : UInt16} {e : Descriptors}
    (closed : d.get descriptor = .error .badDescriptor)
    (below : ∀ other < descriptor, ∃ used, d.get other = .ok used)
    (opened : e.get descriptor = .ok handle)
    (kept : ∀ other, other ≠ descriptor → e.get other = d.get other) :
    Opening d handle (descriptor, e)
  /-- All descriptors are in use. The number of the slot is cut to one of theirs, and none of
  them comes to refer to the handle. -/
  | full {e : Descriptors} (used : ∀ other, ∃ used, d.get other = .ok used)
    (kept : ∀ other, e.get other = d.get other) : Opening d handle (.ofNat d.firstFree, e)

theorem get_of_lt_firstFree {descriptor : UInt16} (h : descriptor.toNat < d.firstFree) :
    ∃ handle, d.get descriptor = .ok handle := by
  have hOpen : d.get? descriptor ≠ none := fun hNone =>
    get?_eq_none_iff.1 hNone (mem_of_lt_firstFree h)
  obtain ⟨handle, hHandle⟩ := Option.ne_none_iff_exists'.1 hOpen
  exact ⟨handle, get_eq_ok_iff.2 hHandle⟩

theorem opening_insert (d : Descriptors) (handle : Handle) :
    d.Opening handle (d.insert handle) := by
  change d.Opening handle ((d.insert handle).1, (d.insert handle).2)
  by_cases hLeft : d.firstFree < UInt16.size
  · have hNumber : (d.insert handle).1.toNat = d.firstFree := UInt16.toNat_ofNat_of_lt' hLeft
    apply Opening.lowest
    case closed =>
      rw [get_eq_error_iff, get?_eq_none_iff, hNumber]
      exact d.firstFree_not_mem
    case below =>
      intro other hOther
      refine get_of_lt_firstFree ?_
      rwa [← hNumber, ← UInt16.lt_iff_toNat_lt]
    case opened => rw [get_eq_ok_iff, get?_insert, if_pos hNumber.symm]
    case kept =>
      intro other hOther
      have hSlot : d.firstFree ≠ other.toNat := fun hSame =>
        hOther (UInt16.toNat_inj.1 (hSame.symm.trans hNumber.symm))
      refine get_congr ?_
      rw [get?_insert, if_neg hSlot]
  · have hBeyond (other : UInt16) : other.toNat < d.firstFree :=
      Nat.lt_of_lt_of_le other.toNat_lt (Nat.not_lt.1 hLeft)
    apply Opening.full
    case used => exact fun other => get_of_lt_firstFree (hBeyond other)
    case kept =>
      intro other
      refine get_congr ?_
      rw [get?_insert, if_neg (Nat.ne_of_gt (hBeyond other))]

theorem opening_duplicate {descriptor : UInt16} {handle : Handle}
    (hOpen : d.get descriptor = .ok handle) :
    ∃ result, d.duplicate descriptor = .ok result ∧ d.Opening handle result := by
  rw [duplicate, hOpen]
  exact ⟨_, rfl, d.opening_insert handle⟩

end Descriptors

namespace Session

variable {Cpu : Type} [Processor Cpu]

/-- What the calls for descriptors come to: those that open one whenever the host opens the file
or the descriptor to duplicate is open, and the refusals of the others. -/
structure ServesDescriptors (s : Session Cpu) : Prop where
  openFile : ∀ (path : String) (flags mode : UInt16) (handle : Handle) (host : Host),
    s.host.openFile (s.process.hostPath path) (s.openOptions flags mode) = .ok (handle, host) →
    ∃ descriptor t, s.openFile path flags mode = (.ok descriptor, t) ∧
      s.process.descriptors.Opening handle (descriptor, t.process.descriptors)
  create : ∀ (path : String) (mode : UInt16) (handle : Handle) (host : Host),
    s.host.openFile (s.process.hostPath path)
      { writable := true, create := true, truncate := true, permissions := s.creationMode mode } =
      .ok (handle, host) →
    ∃ descriptor t, s.create path mode = (.ok descriptor, t) ∧
      s.process.descriptors.Opening handle (descriptor, t.process.descriptors)
  duplicate : ∀ (descriptor : UInt16) (handle : Handle),
    s.process.descriptors.get descriptor = .ok handle →
    ∃ copy t, s.duplicate descriptor = (.ok copy, t) ∧
      s.process.descriptors.Opening handle (copy, t.process.descriptors)
  refuse : ∀ descriptor : UInt16,
    s.process.descriptors.get descriptor = .error .badDescriptor →
    (∃ t, s.duplicate descriptor = (.error .badDescriptor, t) ∧ Logs s t) ∧
    ∃ t, s.close descriptor = (.error .badDescriptor, t) ∧ Logs s t

/-- A call that succeeds keeps what it has done, and the log has one more record. -/
theorem exists_conclude {α : Type} (s t : Session Cpu) (call : String) (shown : α → String)
    (value : α) : ∃ u, s.conclude call shown (.ok (value, t)) = (.ok value, u) ∧ Logs t u :=
  ⟨_, rfl, .trace _ _ _ _ t⟩

theorem opening_openWith {s : Session Cpu} {path : String} {o : OpenOptions} {handle : Handle}
    {host : Host} (hOpen : s.host.openFile (s.process.hostPath path) o = .ok (handle, host)) :
    ∃ descriptor t, s.openWith path o = .ok (descriptor, t) ∧
      s.process.descriptors.Opening handle (descriptor, t.process.descriptors) := by
  rw [openWith, hOpen]
  exact ⟨_, _, rfl, s.process.descriptors.opening_insert handle⟩

theorem servesDescriptors (s : Session Cpu) : s.ServesDescriptors where
  openFile path flags mode handle host hOpen := by
    obtain ⟨descriptor, t, hWith, hOpening⟩ := opening_openWith hOpen
    obtain ⟨u, hCall, hLogs⟩ := exists_conclude s t (shownCall "open"
      [shownPath path, shownWord flags, Numeral.octalMode mode]) shownWord descriptor
    rw [Session.openFile, hWith]
    exact ⟨descriptor, u, hCall, hLogs.process ▸ hOpening⟩
  create path mode handle host hOpen := by
    obtain ⟨descriptor, t, hWith, hOpening⟩ := opening_openWith hOpen
    obtain ⟨u, hCall, hLogs⟩ := exists_conclude s t (shownCall "creat"
      [shownPath path, Numeral.octalMode mode]) shownWord descriptor
    rw [Session.create, hWith]
    exact ⟨descriptor, u, hCall, hLogs.process ▸ hOpening⟩
  duplicate descriptor handle hOpen := by
    obtain ⟨⟨copy, d⟩, hDuplicate, hOpening⟩ := Descriptors.opening_duplicate hOpen
    obtain ⟨u, hCall, hLogs⟩ := exists_conclude s (s.withDescriptors d)
      (shownCall "dup" [shownWord descriptor]) shownWord copy
    rw [Session.duplicate, hDuplicate]
    exact ⟨copy, u, hCall, hLogs.process ▸ hOpening⟩
  refuse descriptor hClosed := by
    constructor
    · rw [Session.duplicate, Descriptors.duplicate, hClosed]
      exact ⟨_, rfl, .trace _ _ _ _ s⟩
    · rw [Descriptors.get_eq_error_iff, ← Descriptors.close_eq_error_iff] at hClosed
      rw [Session.close, hClosed]
      exact ⟨_, rfl, .trace _ _ _ _ s⟩

end Session

/-- Whatever a table has seen, inserting a handle opens the lowest descriptor that was closed, and
so do duplicating an open descriptor and the calls for both; every other descriptor answers as
before. Closing makes one descriptor refuse and leaves the others, and it fails exactly if the
descriptor was closed. Nothing limits how much is opened, but if every descriptor is in use the
number given is that of one of them, and what was opened is out of reach. -/
theorem lowest_closed_descriptor_is_opened (d : Descriptors) :
    (∀ handle, d.Opening handle (d.insert handle)) ∧
    (∀ descriptor handle, d.get descriptor = .ok handle →
      ∃ result, d.duplicate descriptor = .ok result ∧ d.Opening handle result) ∧
    (∀ descriptor handle, d.get descriptor = .ok handle →
      ∃ e, d.close descriptor = .ok e ∧ e.get descriptor = .error .badDescriptor ∧
        ∀ other, other ≠ descriptor → e.get other = d.get other) ∧
    (∀ descriptor, d.get descriptor = .error .badDescriptor ↔
      d.close descriptor = .error .badDescriptor) ∧
    ∀ (Cpu : Type) [Processor Cpu] (s : Session Cpu), s.process.descriptors = d →
      s.ServesDescriptors := by
  refine ⟨d.opening_insert, fun _ _ => Descriptors.opening_duplicate, ?_, ?_,
    fun _ _ s _ => s.servesDescriptors⟩
  · intro descriptor handle hOpen
    obtain ⟨e, hClose⟩ := Descriptors.exists_close (Descriptors.get_eq_ok_iff.1 hOpen)
    refine ⟨e, hClose, ?_, fun other hOther => Descriptors.get_congr ?_⟩
    · rw [Descriptors.get_eq_error_iff, Descriptors.get?_close hClose, if_pos rfl]
    · rw [Descriptors.get?_close hClose, if_neg (Ne.symm hOther)]
  · intro descriptor
    rw [Descriptors.get_eq_error_iff, Descriptors.close_eq_error_iff]

namespace Descriptors

/-- The open slots are the first ones. -/
def Dense (d : Descriptors) (count : Nat) : Prop :=
  ∀ slot, slot ∈ d.handles ↔ slot < count

theorem Dense.firstFree {d : Descriptors} {count : Nat} (h : d.Dense count) :
    d.firstFree = count :=
  firstFree_eq (fun hOpen => Nat.lt_irrefl _ ((h count).1 hOpen)) fun other => (h other).2

theorem Dense.insert {d : Descriptors} {count : Nat} (h : d.Dense count) (handle : Handle) :
    (d.insert handle).2.Dense (count + 1) := by
  intro slot
  simp only [Descriptors.insert, Std.TreeMap.mem_insert, Nat.compare_eq_eq, h.firstFree, h slot]
  omega

theorem dense_standard : standard.Dense 3 := by
  have hEmpty : empty.Dense 0 := by simp [Dense, empty]
  exact ((hEmpty.insert _).insert _).insert _

/-- The table after duplicating standard output so many times. -/
def afterDuplicates : Nat → Descriptors
  | 0 => standard
  | count + 1 => ((afterDuplicates count).insert (.standard .output)).2

theorem dense_afterDuplicates (count : Nat) : (afterDuplicates count).Dense (count + 3) := by
  induction count with
  | zero => exact dense_standard
  | succ count ih => exact (Nat.add_right_comm count 3 1) ▸ ih.insert _

/-- The standard streams stay where they are. -/
theorem get?_afterDuplicates (count : Nat) {descriptor : UInt16} (h : descriptor.toNat < 3) :
    (afterDuplicates count).get? descriptor = standard.get? descriptor := by
  induction count with
  | zero => rfl
  | succ count ih =>
      have hFree := (dense_afterDuplicates count).firstFree
      rw [afterDuplicates, get?_insert, if_neg (by omega), ih]

end Descriptors

/-- When standard output has been duplicated until all descriptors are in use, it is duplicated once
more, and the number given is that of standard input. -/
theorem duplicate_of_full_table_names_input :
    ∃ d e : Descriptors, d = .afterDuplicates 65533 ∧ d.duplicate 1 = .ok (0, e) ∧
      d.get 1 = .ok (.standard .output) ∧ e.get 0 = .ok (.standard .input) := by
  have hOutput : (Descriptors.afterDuplicates 65533).get 1 = .ok (.standard .output) := by
    rw [Descriptors.get_eq_ok_iff, Descriptors.get?_afterDuplicates _ (by decide)]
    decide +kernel
  have hFree := (Descriptors.dense_afterDuplicates 65533).firstFree
  refine ⟨_, ((Descriptors.afterDuplicates 65533).insert (.standard .output)).2, rfl, ?_,
    hOutput, ?_⟩
  · rw [Descriptors.duplicate, hOutput]
    refine congrArg Except.ok (Prod.ext ?_ rfl)
    change UInt16.ofNat (Descriptors.afterDuplicates 65533).firstFree = 0
    rw [hFree]
    rfl
  · change (Descriptors.afterDuplicates 65534).get 0 = _
    rw [Descriptors.get_eq_ok_iff, Descriptors.get?_afterDuplicates _ (by decide)]
    decide +kernel

end VintageUnix
