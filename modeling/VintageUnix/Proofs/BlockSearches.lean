import Mathlib.Order.Bounds.Basic
import VintageUnix.Proofs.RepeatedBlocks

/-! Repeated comparisons are searches. Behind `repe` they look for the first pair that differs and
behind `repne` for the first that is equal. The flags are those of the last pair compared, so
the zero flag tells how the search went even if the last element of all ended it. -/
namespace VintageUnix.I8086

/-- The flags `g` tell about the comparison of `x` with `y` what there is to tell, and the others
are as in `f`. -/
def Flags.ReportsComparison {n : Nat} (x y : BitVec n) (f g : Flags) : Prop :=
  Reports n (x.toNat - y.toNat) (x.toInt - y.toInt)
    ((x.toNat % 16 : Nat) - (y.toNat % 16 : Nat)) false f g

namespace Flags

variable {n : Nat} {x y : BitVec n} {e f g : Flags}

theorem reportsComparison_cmp (hn : 0 < n) (f : Flags) (x y : BitVec n) :
    ReportsComparison x y f (Arithmetic.cmp.compute f x y).2 := by
  have h := reports_difference f x y false hn
  simp only [Bool.toNat_false, Int.natCast_zero, Int.sub_zero] at h
  exact h

/-- A comparison overwrites what an earlier one has left. -/
theorem ReportsComparison.of_sameBut (h : ReportsComparison x y f g)
    (hSame : SameBut Flag.ofResult e f) : ReportsComparison x y e g :=
  { h with others := hSame.trans h.others }

theorem ReportsComparison.zero_eq (h : ReportsComparison x y f g) :
    g.get .zero = decide (x = y) := by
  rw [h.zero, decide_eq_decide, residue_sub_eq_zero_iff]

end Flags

/-- Whether a pair ends a search: `repne` looks for equal values, `repe` for different ones. -/
def Modifier.Seeks (modifier : Modifier) {n : Nat} (x y : BitVec n) : Prop :=
  if modifier = .repne then x = y else x ≠ y

instance (modifier : Modifier) {n : Nat} (x y : BitVec n) : Decidable (modifier.Seeks x y) :=
  inferInstanceAs (Decidable (ite ..))

theorem repeatEnds_iff_seeks {op : Block} (hOp : op.compares = true) {modifier : Modifier}
    (hRepeat : modifier.isRepeat = true) {n : Nat} {x y : BitVec n} {f g : Flags}
    (h : Flags.ReportsComparison x y f g) :
    repeatEnds op modifier g = true ↔ modifier.Seeks x y := by
  cases modifier with
  | segment | lock => cases hRepeat
  | repne =>
    cases op with
    | cmps | scas => simp [repeatEnds, Modifier.Seeks, h.zero_eq]
    | movs | stos | lods => cases hOp
  | rep =>
    cases op with
    | cmps | scas => simp [repeatEnds, Modifier.Seeks, h.zero_eq]
    | movs | stos | lods => cases hOp

/-- `k` comparisons have been made. They leave the memory alone, and the flags are those of the
last one. -/
structure Compared (op : Block) (w : Width) (k : Nat) (m n : State) : Prop where
  memory : n.memory = m.memory
  flags : 0 < k → Flags.ReportsComparison (op.taken m w (k - 1)) (elementValue m w .di (k - 1))
    m.cpu.flags n.cpu.flags

namespace Compared

variable {op : Block} {w : Width} {k : Nat} {m n : State}

theorem refl (op : Block) (w : Width) (m : State) : Compared op w 0 m m :=
  ⟨rfl, nofun⟩

theorem load_eq (h : Compared op w k m n) (a : UInt16) :
    load n w (.memory a) = load m w (.memory a) :=
  load_congr fun _ _ => by rw [h.memory]

theorem pass (hOp : op.compares = true) (hMoved : MovedOn op w k m n) (h : Compared op w k m n) :
    Compared op w (k + 1) m (pass op w n) where
  memory := (memory_pass_of_compares w n hOp).trans h.memory
  flags _ := by
    have hTaken : op.taken n w 0 = op.taken m w k := hMoved.taken_zero fun _ => h.load_eq _
    have hOther : elementValue n w .di 0 = elementValue m w .di k := by
      rw [elementValue, hMoved.destination_zero, h.load_eq]
      rfl
    rw [flags_pass_of_compares w n hOp, hTaken, hOther]
    exact (Flags.reportsComparison_cmp w.bits_pos _ _ _).of_sameBut hMoved.flags

/-- After any number of passes. -/
theorem iterate (hOp : op.compares = true) (w : Width) (k : Nat) (m : State) :
    Compared op w k m ((I8086.pass op w)^[k] m) := by
  induction k with
  | zero => exact .refl op w m
  | succ k ih =>
      rw [Function.iterate_succ_apply']
      exact ih.pass hOp (.iterate (.inr hOp) w k m)

end Compared

/-- How many of `count` pairs are compared: up to and with the first one that ends the search, or
all of them if none does. -/
def ComparesUpTo (ends : Nat → Prop) (count k : Nat) : Prop :=
  (∃ i, IsLeast {i | i < count ∧ ends i} i ∧ k = i + 1) ∨ (∀ i < count, ¬ ends i) ∧ k = count

section Search

variable {op : Block} {w : Width} {modifier : Modifier} {k : Nat} {m : State}

/-- The loop of a search is left behind a pair that ends it, or behind the last pair. -/
theorem loopEnds_iff (hOp : op.compares = true) (hRepeat : modifier.isRepeat = true) {i : Nat}
    (hi : i < (m.cpu.get .cx).toNat) :
    LoopEnds op modifier ((pass op w)^[i + 1] m) ↔ i + 1 = (m.cpu.get .cx).toNat ∨
      modifier.Seeks (op.taken m w i) (elementValue m w .di i) := by
  have hMoved := MovedOn.iterate (.inr hOp) w (i + 1) m
  have hFlags := (Compared.iterate hOp w (i + 1) m).flags i.succ_pos
  rw [LoopEnds, hMoved.counter_eq_zero_iff hi, repeatEnds_iff_seeks hOp hRepeat hFlags]
  rfl

theorem comparesUpTo_of_endsAfter (hOp : op.compares = true)
    (hRepeat : modifier.isRepeat = true) (hCount : 0 < (m.cpu.get .cx).toNat)
    (h : EndsAfter op w modifier k m) :
    ComparesUpTo (fun i => modifier.Seeks (op.taken m w i) (elementValue m w .di i))
      (m.cpu.get .cx).toNat k := by
  obtain ⟨last, rfl⟩ := Nat.exists_eq_add_one_of_ne_zero (Nat.ne_of_gt h.pos)
  have hLast : last < (m.cpu.get .cx).toNat := h.le (.inr hOp) hCount
  have hBefore (i : Nat) (hi : i < last) :
      ¬ modifier.Seeks (op.taken m w i) (elementValue m w .di i) := fun hSeeks =>
    h.goesOn (i + 1) i.succ_pos (Nat.succ_lt_succ hi)
      ((loopEnds_iff hOp hRepeat (Nat.lt_trans hi hLast)).2 (.inr hSeeks))
  by_cases hSeeks : modifier.Seeks (op.taken m w last) (elementValue m w .di last)
  · refine .inl ⟨last, ⟨⟨hLast, hSeeks⟩, fun i hi => ?_⟩, rfl⟩
    exact Nat.le_of_not_lt fun hLess => hBefore i hLess hi.2
  · have hAll := ((loopEnds_iff hOp hRepeat hLast).1 h.ends).resolve_right hSeeks
    refine .inr ⟨fun i hi => ?_, hAll⟩
    rcases Nat.lt_succ_iff_lt_or_eq.1 (hAll ▸ hi) with hLess | rfl
    · exact hBefore i hLess
    · exact hSeeks

/-- The last pair compared is one that ends the search exactly if there is such a pair. -/
theorem ComparesUpTo.ends_last_iff {ends : Nat → Prop} {count : Nat} (hCount : 0 < count)
    (h : ComparesUpTo ends count k) : ends (k - 1) ↔ ∃ i < count, ends i := by
  rcases h with ⟨i, hLeast, rfl⟩ | ⟨hNone, rfl⟩
  · exact ⟨fun _ => ⟨i, hLeast.1⟩, fun _ => hLeast.1.2⟩
  · exact ⟨fun hEnds => ⟨_, Nat.sub_lt hCount Nat.one_pos, hEnds⟩,
      fun ⟨i, hi, hEnds⟩ => absurd hEnds (hNone i hi)⟩

/-- The zero flag is the one that the modifier looks for exactly if the last pair ended the
search. -/
theorem zero_eq_iff_seeks (hRepeat : modifier.isRepeat = true) {n : Nat} {x y : BitVec n}
    {f g : Flags} (h : Flags.ReportsComparison x y f g) :
    g.get .zero = decide (modifier = .repne) ↔ modifier.Seeks x y := by
  cases modifier with
  | segment | lock => cases hRepeat
  | repne => simp [Modifier.Seeks, h.zero_eq]
  | rep => simp [Modifier.Seeks, h.zero_eq]

end Search

/-- Repeated comparisons on the 8086 stop at the first pair that they look for. In every state, for
either width and direction, `repe` compares the element at `si` or the accumulator with the
element at `di` until the two differ, and `repne` until they are equal, but at most as many
pairs as `cx` counts. Then `cx` is what is left to count, the index registers are behind the
last pair, and the flags are those of comparing it, so that the zero flag tells whether the
search came to a pair it looks for. Nothing else changes. With nothing to count the state is the
same, flags included. -/
theorem repeated_comparisons_stop_at_first_witness {i : Instruction} {op : Block} {w : Width}
    {modifier : Modifier} (hOperation : i.operation = .block op w) (hOp : op.compares = true)
    (hModifier : i.modifier = some modifier) (hRepeat : modifier.isRepeat = true) (m : State) :
    let count := (m.cpu.get .cx).toNat
    let ends := fun i => modifier.Seeks (op.taken m w i) (elementValue m w .di i)
    (count = 0 → execute i m = m.proceed) ∧
    (0 < count → ∃ k n, execute i m = n.proceed ∧ ComparesUpTo ends count k ∧
      (n.cpu.get .cx).toNat = count - k ∧ MovedOn op w k m n ∧ n.memory = m.memory ∧
      Flags.ReportsComparison (op.taken m w (k - 1)) (elementValue m w .di (k - 1))
        m.cpu.flags n.cpu.flags ∧
      (n.cpu.flags.get .zero = decide (modifier = .repne) ↔ ∃ i < count, ends i)) := by
  intro count ends
  obtain ⟨k, hExecute, hNone, hLoop⟩ :=
    exists_execute_repeated (.inr hOp) hOperation hModifier hRepeat m
  constructor
  · intro hZero
    rw [hExecute, hNone hZero]
    rfl
  · intro hPositive
    have hEnds := hLoop hPositive
    have hMoved := MovedOn.iterate (.inr hOp) w k m
    have hCompared := Compared.iterate hOp w k m
    have hUpTo := comparesUpTo_of_endsAfter hOp hRepeat hPositive hEnds
    refine ⟨k, _, hExecute, hUpTo, ?_, hMoved, hCompared.memory, hCompared.flags hEnds.pos, ?_⟩
    · exact hMoved.toNat_counter (hEnds.le (.inr hOp) hPositive)
    · rw [zero_eq_iff_seeks hRepeat (hCompared.flags hEnds.pos)]
      exact hUpTo.ends_last_iff hPositive

/-- A search for a word that is equal to `ax`. -/
private abbrev seekBytes : Array UInt8 :=
  #[0xf2, 0xaf]

/-- Two words to search downwards. The second one goes around the top of memory and is the one
looked for. -/
private abbrev seekState : State where
  cpu := (((({ flags := ({} : Flags).put .direction true } : Cpu).set .ax 0x1234).set .cx 2).set
    .di 1)
  memory := (AddressSpace.shared.setWord 1 0x5678).setWord 0xffff 0x1234

/-- The word is found at the very end, and the zero flag says so although `cx` is zero. -/
theorem repeated_comparisons_stop_at_first_witness_last :
    let i := decodeFolded (.ofBytes ⟨seekBytes⟩) 0
    i.operation = .block .scas .word ∧ i.modifier = some .repne ∧
    ∃ n : State, execute i seekState = n.proceed ∧ n.memory = seekState.memory ∧
      (n.cpu.get .cx).toNat = 0 ∧ n.cpu.get .di = 0xfffd ∧ n.cpu.flags.get .zero = true := by
  intro i
  have hOperation : i.operation = .block .scas .word := by decide +kernel
  have hModifier : i.modifier = some .repne := by decide +kernel
  refine ⟨hOperation, hModifier, ?_⟩
  have hCount : (seekState.cpu.get .cx).toNat = 2 := by decide +kernel
  obtain ⟨-, hSearch⟩ :=
    repeated_comparisons_stop_at_first_witness hOperation rfl hModifier rfl seekState
  rw [hCount] at hSearch
  obtain ⟨k, n, hExecute, hUpTo, hCounter, hMoved, hMemory, -, hZero⟩ := hSearch (by decide)
  have hFirst : ¬ Modifier.repne.Seeks (Block.scas.taken seekState .word 0)
      (elementValue seekState .word .di 0) := by
    decide +kernel
  have hFound : elementValue seekState .word .di 1 = 0x1234#16 := by
    have hAddress : elementAt seekState .word .di 1 = 0xffff := by decide +kernel
    have hWord : seekState.memory.word 0xffff = 0x1234 :=
      (AddressSpace.shared.setWord 1 0x5678).word_setWord 0xffff 0x1234
    rw [elementValue, hAddress]
    exact congrArg UInt16.toBitVec hWord
  have hSecond : Modifier.repne.Seeks (Block.scas.taken seekState .word 1)
      (elementValue seekState .word .di 1) := by
    rw [hFound]
    decide +kernel
  have hAll : k = 2 := by
    rcases hUpTo with ⟨j, hLeast, rfl⟩ | ⟨-, rfl⟩
    · have hNotFirst : j ≠ 0 := by
        rintro rfl
        exact hFirst hLeast.1.2
      have hLess := hLeast.1.1
      omega
    · rfl
  subst hAll
  refine ⟨n, hExecute, hMemory, hCounter, hMoved.destination.trans (by decide +kernel), ?_⟩
  exact hZero.2 ⟨1, by decide, hSecond⟩

end VintageUnix.I8086
