import Mathlib.Logic.Function.Iterate
import VintageUnix.Proofs.AdditiveInstructions

/-! String instructions behind a repeat modifier. The instruction is a loop that works on one
element in each pass, takes one off `cx`, and tests `cx` and the zero flag only afterwards. What
the passes do to the registers is the same for moves, stores and comparisons: `cx` counts down
and the index registers walk along their arrays, in the direction of the direction flag and
around the ends of memory. -/
namespace VintageUnix.I8086

/-- The address of the `k`-th element of an array that starts at `start`. With the direction flag
set, the elements lie below one another. -/
def elementAddress (f : Flags) (w : Width) (start : UInt16) (k : Nat) : UInt16 :=
  let distance := UInt16.ofNat (k * w.size.toNat)
  if f.get .direction then start - distance else start + distance

/-- How far an address is into an array, as the elements are passed. -/
def distanceInto (f : Flags) (w : Width) (start address : UInt16) : Nat :=
  (if f.get .direction then start + (w.size - 1) - address else address - start).toNat

section Elements

variable (f : Flags) (w : Width) (start : UInt16)

@[simp] theorem elementAddress_zero : elementAddress f w start 0 = start := by
  simp [elementAddress]

theorem elementAddress_succ (k : Nat) :
    elementAddress f w start (k + 1) = elementAddress f w start k + stride f w := by
  have hDistance : UInt16.ofNat ((k + 1) * w.size.toNat) =
      UInt16.ofNat (k * w.size.toNat) + w.size := by
    rw [Nat.add_mul, Nat.one_mul, UInt16.ofNat_add, UInt16.ofNat_toNat]
  simp only [elementAddress, stride, hDistance]
  split <;> grind

/-- A byte is part of one element at most, up to an array that fills the memory. -/
theorem mem_element_iff {k : Nat} (hFits : (k + 1) * w.size.toNat ≤ segmentSize)
    (address : UInt16) :
    address ∈ (⟨elementAddress f w start k, w.size.toNat⟩ : Region) ↔
      distanceInto f w start address / w.size.toNat = k := by
  have hStart := start.toNat_lt
  have hAddress := address.toNat_lt
  cases hDirection : f.get .direction <;> cases w <;>
    simp only [segmentSize, Width.size, UInt16.reduceToNat] at hFits <;>
    simp only [Region.mem_def, elementAddress, distanceInto, hDirection, Width.size,
      UInt16.toNat_sub, UInt16.toNat_add, UInt16.toNat_ofNat', UInt16.reduceToNat, if_true,
      Bool.false_eq_true, if_false] <;>
    omega

end Elements

/-- The address of the `k`-th element of the array that an index register points at. -/
def elementAt (m : State) (w : Width) (r : Register) (k : Nat) : UInt16 :=
  elementAddress m.cpu.flags w (m.cpu.get r) k

/-- The bytes of that element. -/
def elementRegion (m : State) (w : Width) (r : Register) (k : Nat) : Region :=
  ⟨elementAt m w r k, w.size.toNat⟩

/-- The value of that element. -/
def elementValue (m : State) (w : Width) (r : Register) (k : Nat) : BitVec w.bits :=
  load m w (.memory (elementAt m w r k))

theorem disjoint_elementRegion (m : State) {w : Width} (r : Register) {count j k : Nat}
    (hFits : count * w.size.toNat ≤ segmentSize) (hj : j < count) (hk : k < count)
    (hDistinct : j ≠ k) : (elementRegion m w r j).Disjoint (elementRegion m w r k) := by
  intro address hFirst hSecond
  have hInside (i : Nat) (hi : i < count) : (i + 1) * w.size.toNat ≤ segmentSize :=
    Nat.le_trans (Nat.mul_le_mul_right _ hi) hFits
  rw [elementRegion, elementAt, mem_element_iff _ _ _ (hInside j hj)] at hFirst
  rw [elementRegion, elementAt, mem_element_iff _ _ _ (hInside k hk)] at hSecond
  exact hDistinct (hFirst.symm.trans hSecond)

/-- A value in memory is the same if its bytes are. -/
theorem load_congr {w : Width} {a : UInt16} {m n : State}
    (h : ∀ address ∈ (⟨a, w.size.toNat⟩ : Region), n.memory.byte address = m.memory.byte address) :
    load n w (.memory a) = load m w (.memory a) := by
  cases w with
  | byte => exact congrArg UInt8.toBitVec (h a (by simp [Region.mem_def, Width.size]))
  | word => exact congrArg UInt16.toBitVec (AddressSpace.word_eq_of_bytes h)

namespace Block

/-- Whether the elements that an instruction takes are where `si` points. The others take the
accumulator for each of them. -/
def hasSource : Block → Bool
  | .movs | .cmps | .lods => true
  | .stos | .scas => false

/-- Whether what is taken is stored where `di` points. -/
def stores : Block → Bool
  | .movs | .stos => true
  | _ => false

/-- Whether what is taken is compared with what is where `di` points. -/
def compares : Block → Bool
  | .cmps | .scas => true
  | _ => false

/-- The value that an instruction takes for the `k`-th element. -/
def taken (op : Block) (m : State) (w : Width) (k : Nat) : BitVec w.bits :=
  if op.hasSource then elementValue m w .si k else m.cpu.lowAccumulator w

end Block

/-- One pass of a repeated instruction: one element, and one less to go. -/
def pass (op : Block) (w : Width) (m : State) : State :=
  (blockStep op w m).mapCpu fun c => c.set .cx (c.get .cx - 1)

section Registers

variable (w : Width) (m : State)

@[simp] theorem cpu_store_memory (a : UInt16) (v : BitVec w.bits) :
    (store w (.memory a) v m).cpu = m.cpu := by
  cases w <;> rfl

@[simp] theorem get_compare {w : Width} (x y : BitVec w.bits) (r : Register) :
    (compare x y m).cpu.get r = m.cpu.get r :=
  rfl

/-- A comparison leaves the direction as it is. -/
@[simp] theorem stride_compare (x y : BitVec w.bits) :
    stride (compare x y m).cpu.flags w = stride m.cpu.flags w := by
  simp [stride, compare, setFlags, Machine.mapCpu, Arithmetic.compute, difference, Flags.describe,
    Flags.get_put]

@[simp] theorem get_advance (r s : Register) :
    (advance w r m).cpu.get s =
      if r = s then m.cpu.get r + stride m.cpu.flags w else m.cpu.get s :=
  Cpu.get_set _ _ _ _

@[simp] theorem flags_advance (r : Register) : (advance w r m).cpu.flags = m.cpu.flags :=
  rfl

theorem get_cx_pass (op : Block) :
    (pass op w m).cpu.get .cx = (blockStep op w m).cpu.get .cx - 1 :=
  Cpu.get_set _ _ _ _

/-- What a pass over a store or a comparison does to the registers. -/
theorem get_pass {op : Block} (hOp : op ≠ .lods) (r : Register) :
    (pass op w m).cpu.get r = match r with
      | .cx => m.cpu.get .cx - 1
      | .di => m.cpu.get .di + stride m.cpu.flags w
      | .si => if op.hasSource then m.cpu.get .si + stride m.cpu.flags w else m.cpu.get .si
      | r => m.cpu.get r := by
  have hCounter : (pass op w m).cpu.get r =
      if .cx = r then (blockStep op w m).cpu.get .cx - 1 else (blockStep op w m).cpu.get r :=
    Cpu.get_set _ _ _ _
  rw [hCounter]
  cases op with
  | lods => exact absurd rfl hOp
  | movs | stos | cmps | scas => cases r <;> simp [blockStep, Block.hasSource]

theorem ip_pass (op : Block) : (pass op w m).cpu.ip = m.cpu.ip := by
  cases op <;> cases w <;> rfl

theorem entrySp_pass (op : Block) : (pass op w m).cpu.entrySp = m.cpu.entrySp := by
  cases op <;> cases w <;> rfl

theorem flags_pass_of_stores {op : Block} (hOp : op.stores = true) :
    (pass op w m).cpu.flags = m.cpu.flags := by
  cases op with
  | movs | stos =>
      show (store w _ _ m).cpu.flags = m.cpu.flags
      rw [cpu_store_memory]
  | cmps | lods | scas => cases hOp

theorem flags_pass_of_compares {op : Block} (hOp : op.compares = true) :
    (pass op w m).cpu.flags =
      (Arithmetic.cmp.compute m.cpu.flags (op.taken m w 0) (elementValue m w .di 0)).2 := by
  cases op with
  | cmps | scas => simp [Block.taken, Block.hasSource, elementValue, elementAt]; rfl
  | movs | stos | lods => cases hOp

theorem memory_pass_of_stores {op : Block} (hOp : op.stores = true) :
    (pass op w m).memory =
      (store w (.memory (elementAt m w .di 0)) (op.taken m w 0) m).memory := by
  cases op with
  | movs | stos => simp [Block.taken, Block.hasSource, elementValue, elementAt]; rfl
  | cmps | lods | scas => cases hOp

theorem memory_pass_of_compares {op : Block} (hOp : op.compares = true) :
    (pass op w m).memory = m.memory := by
  cases op with
  | cmps | scas => rfl
  | movs | stos | lods => cases hOp

end Registers

theorem Flags.SameBut.trans {changed : List Flag} {f g h : Flags} (first : SameBut changed f g)
    (second : SameBut changed g h) : SameBut changed f h :=
  fun i hi hOther => (second i hi hOther).trans (first i hi hOther)

theorem Flags.SameBut.get {changed : List Flag} {f g : Flags} (h : SameBut changed f g)
    {flag : Flag} (hOther : ∀ other ∈ changed, other.index ≠ flag.index) :
    g.get flag = f.get flag :=
  h flag.index (by cases flag <;> decide) hOther

/-- What `k` passes over stores or comparisons leave of the registers. The flags that a
comparison does not set are as they were. -/
structure MovedOn (op : Block) (w : Width) (k : Nat) (m n : State) : Prop where
  counter : n.cpu.get .cx = m.cpu.get .cx - .ofNat k
  destination : n.cpu.get .di = elementAt m w .di k
  source : n.cpu.get .si = if op.hasSource then elementAt m w .si k else m.cpu.get .si
  others : ∀ r, r ≠ .cx → r ≠ .di → r ≠ .si → n.cpu.get r = m.cpu.get r
  flags : Flags.SameBut Flag.ofResult m.cpu.flags n.cpu.flags
  ip : n.cpu.ip = m.cpu.ip
  entrySp : n.cpu.entrySp = m.cpu.entrySp

namespace MovedOn

variable {op : Block} {w : Width} {k : Nat} {m n : State}

theorem refl (op : Block) (w : Width) (m : State) : MovedOn op w 0 m m := by
  constructor <;> simp [elementAt, Flags.SameBut.refl]

theorem direction (h : MovedOn op w k m n) :
    n.cpu.flags.get .direction = m.cpu.flags.get .direction :=
  h.flags.get (by decide)

/-- The next element from here is the one after the `k` that have been passed. -/
theorem destination_zero (h : MovedOn op w k m n) : elementAt n w .di 0 = elementAt m w .di k := by
  rw [elementAt, elementAddress_zero, h.destination]

theorem source_zero (h : MovedOn op w k m n) (hSource : op.hasSource = true) :
    elementAt n w .si 0 = elementAt m w .si k := by
  rw [elementAt, elementAddress_zero, h.source, if_pos hSource]

theorem taken_zero (h : MovedOn op w k m n)
    (hLoad : op.hasSource = true →
      load n w (.memory (elementAt m w .si k)) = elementValue m w .si k) :
    op.taken n w 0 = op.taken m w k := by
  have hAccumulator : n.cpu.get .ax = m.cpu.get .ax :=
    h.others .ax (by decide) (by decide) (by decide)
  cases hSource : op.hasSource with
  | true =>
      rw [Block.taken, Block.taken, if_pos hSource, if_pos hSource, elementValue,
        h.source_zero hSource, hLoad hSource]
  | false =>
      rw [Block.taken, Block.taken, hSource, if_neg Bool.false_ne_true, if_neg Bool.false_ne_true]
      cases w <;> simp [Cpu.lowAccumulator, Cpu.getHalf, Half.al, hAccumulator]

theorem pass (hOp : op.stores = true ∨ op.compares = true) (h : MovedOn op w k m n) :
    MovedOn op w (k + 1) m (pass op w n) := by
  have hNotLoad : op ≠ .lods := by
    rintro rfl
    rcases hOp with hStores | hCompares
    · cases hStores
    · cases hCompares
  have hStride : stride n.cpu.flags w = stride m.cpu.flags w := by
    rw [stride, stride, h.direction]
  constructor
  case counter =>
    rw [get_pass w n hNotLoad, h.counter, UInt16.ofNat_add]
    show m.cpu.get .cx - .ofNat k - 1 = m.cpu.get .cx - (.ofNat k + 1)
    grind
  case destination =>
    rw [get_pass w n hNotLoad, h.destination, hStride]
    exact (elementAddress_succ ..).symm
  case source =>
    rw [get_pass w n hNotLoad, h.source, hStride]
    by_cases hSource : op.hasSource = true
    · rw [if_pos hSource, if_pos hSource, if_pos hSource]
      exact (elementAddress_succ ..).symm
    · rw [if_neg hSource, if_neg hSource, if_neg hSource]
  case others =>
    intro r hCounter hDestination hSource
    rw [get_pass w n hNotLoad, ← h.others r hCounter hDestination hSource]
    cases r <;> trivial
  case flags =>
    refine h.flags.trans ?_
    rcases hOp with hStores | hCompares
    · rw [flags_pass_of_stores w n hStores]
      exact .refl _ _
    · rw [flags_pass_of_compares w n hCompares]
      exact (reports_difference _ _ _ false w.bits_pos).others
  case ip => rw [ip_pass, h.ip]
  case entrySp => rw [entrySp_pass, h.entrySp]

/-- After any number of passes. -/
theorem iterate (hOp : op.stores = true ∨ op.compares = true) (w : Width) (k : Nat) (m : State) :
    MovedOn op w k m ((I8086.pass op w)^[k] m) := by
  induction k with
  | zero => exact .refl op w m
  | succ k ih =>
      rw [Function.iterate_succ_apply']
      exact ih.pass hOp

theorem toNat_counter (h : MovedOn op w k m n) (hk : k ≤ (m.cpu.get .cx).toNat) :
    (n.cpu.get .cx).toNat = (m.cpu.get .cx).toNat - k := by
  have hRange := (m.cpu.get .cx).toNat_lt
  rw [h.counter, UInt16.toNat_sub, UInt16.toNat_ofNat']
  omega

/-- The counter is used up behind as many passes as it counts, and not before. -/
theorem counter_eq_zero_iff (h : MovedOn op w k m n) (hk : k ≤ (m.cpu.get .cx).toNat) :
    n.cpu.get .cx = 0 ↔ k = (m.cpu.get .cx).toNat := by
  rw [← UInt16.toNat_inj, h.toNat_counter hk, UInt16.toNat_zero]
  omega

end MovedOn

/-- Whether the loop is left behind a pass. -/
def LoopEnds (op : Block) (modifier : Modifier) (m : State) : Prop :=
  m.cpu.get .cx = 0 ∨ repeatEnds op modifier m.cpu.flags = true

/-- The loop is left behind its `k`-th pass, and not before. -/
structure EndsAfter (op : Block) (w : Width) (modifier : Modifier) (k : Nat) (m : State) :
    Prop where
  pos : 0 < k
  goesOn : ∀ j, 0 < j → j < k → ¬ LoopEnds op modifier ((pass op w)^[j] m)
  ends : LoopEnds op modifier ((pass op w)^[k] m)

section Loop

variable {op : Block} {w : Width} {modifier : Modifier} {m : State}

theorem EndsAfter.one (h : LoopEnds op modifier (pass op w m)) : EndsAfter op w modifier 1 m where
  pos := Nat.one_pos
  goesOn j hj hLess := absurd hj (by omega)
  ends := h

theorem EndsAfter.succ {k : Nat} (hFirst : ¬ LoopEnds op modifier (pass op w m))
    (h : EndsAfter op w modifier k (pass op w m)) : EndsAfter op w modifier (k + 1) m where
  pos := k.succ_pos
  goesOn j hj hLess := by
    obtain ⟨j, rfl⟩ := Nat.exists_eq_add_one_of_ne_zero (Nat.ne_of_gt hj)
    rw [Function.iterate_succ_apply]
    rcases Nat.eq_zero_or_pos j with rfl | hPositive
    · exact hFirst
    · exact h.goesOn j hPositive (Nat.lt_of_succ_lt_succ hLess)
  ends := by
    rw [Function.iterate_succ_apply]
    exact h.ends

theorem toNat_cx_pass (hOp : op.stores = true ∨ op.compares = true) (w : Width) {count : Nat}
    (hCount : (m.cpu.get .cx).toNat = count + 1) :
    ((pass op w m).cpu.get .cx).toNat = count := by
  have hCounter := (MovedOn.iterate hOp w 1 m).toNat_counter (hCount ▸ Nat.le_add_left 1 count)
  rw [hCount] at hCounter
  exact hCounter

theorem blockRepeat_succ (hOp : op.stores = true ∨ op.compares = true) (w : Width)
    (modifier : Modifier) {count : Nat} (hCount : (m.cpu.get .cx).toNat = count + 1) :
    blockRepeat op w modifier (count + 1) m =
      if repeatEnds op modifier (pass op w m).cpu.flags then pass op w m
      else blockRepeat op w modifier count (pass op w m) := by
  have hCounter : UInt16.ofNat count = (blockStep op w m).cpu.get .cx - 1 := by
    rw [← get_cx_pass, ← toNat_cx_pass hOp w hCount, UInt16.ofNat_toNat]
  have hPass : (blockStep op w m).mapCpu (·.set .cx (.ofNat count)) = pass op w m := by
    rw [hCounter]
    rfl
  rw [blockRepeat, hPass]

/-- With `cx` as its count, the recursion goes through the passes up to the one behind which the
loop is left. -/
theorem exists_endsAfter (hOp : op.stores = true ∨ op.compares = true) (w : Width)
    (modifier : Modifier) {count : Nat} (hCount : (m.cpu.get .cx).toNat = count + 1) :
    ∃ k, EndsAfter op w modifier k m ∧
      blockRepeat op w modifier (count + 1) m = (pass op w)^[k] m := by
  induction count generalizing m with
  | zero =>
      have hCounter : (pass op w m).cpu.get .cx = 0 :=
        UInt16.toNat_inj.1 (toNat_cx_pass hOp w hCount)
      refine ⟨1, .one (.inl hCounter), ?_⟩
      rw [blockRepeat_succ hOp w modifier hCount]
      exact ite_self _
  | succ count ih =>
      have hNext := toNat_cx_pass hOp w hCount
      rw [blockRepeat_succ hOp w modifier hCount]
      split
      case isTrue hEnds => exact ⟨1, .one (.inr hEnds), rfl⟩
      case isFalse hGoesOn =>
        obtain ⟨k, hEnds, hResult⟩ := ih hNext
        refine ⟨k + 1, .succ ?_ hEnds, hResult⟩
        rintro (hCounter | hFound)
        · rw [hCounter] at hNext
          cases hNext
        · exact hGoesOn hFound

/-- The loop makes no more passes than `cx` counts. -/
theorem EndsAfter.le (hOp : op.stores = true ∨ op.compares = true) {k : Nat}
    (h : EndsAfter op w modifier k m) (hCount : 0 < (m.cpu.get .cx).toNat) :
    k ≤ (m.cpu.get .cx).toNat := by
  by_contra hMore
  have hMoved := MovedOn.iterate hOp w (m.cpu.get .cx).toNat m
  exact h.goesOn _ hCount (Nat.lt_of_not_le hMore)
    (.inl ((hMoved.counter_eq_zero_iff (Nat.le_refl _)).2 rfl))

/-- Executing a store or a comparison behind a repeat modifier. With nothing to count the state is
the same, and otherwise the loop ends. -/
theorem exists_execute_repeated (hOp : op.stores = true ∨ op.compares = true) {i : Instruction}
    (hOperation : i.operation = .block op w) (hModifier : i.modifier = some modifier)
    (hRepeat : modifier.isRepeat = true) (m : State) :
    ∃ k, execute i m = ((pass op w)^[k] m).proceed ∧ ((m.cpu.get .cx).toNat = 0 → k = 0) ∧
      (0 < (m.cpu.get .cx).toNat → EndsAfter op w modifier k m) := by
  have hExecute : execute i m = (blockRepeat op w modifier (m.cpu.get .cx).toNat m).proceed := by
    simp only [execute, hOperation, hModifier, block, hRepeat, if_true]
  rw [hExecute]
  rcases Nat.eq_zero_or_eq_succ_pred (m.cpu.get .cx).toNat with hCount | hCount
  · rw [hCount]
    exact ⟨0, rfl, fun _ => rfl, fun hPositive => absurd hPositive (Nat.lt_irrefl 0)⟩
  · obtain ⟨k, hEnds, hResult⟩ := exists_endsAfter hOp w modifier hCount
    rw [hCount]
    exact ⟨k, congrArg _ hResult, fun hZero => absurd hZero (Nat.succ_ne_zero _), fun _ => hEnds⟩

end Loop

end VintageUnix.I8086
