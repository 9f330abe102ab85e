import VintageUnix.Proofs.RepeatedBlocks

/-! Repeated moves and stores are block operations. A store fills an array with the accumulator
and a move copies one array to another, element by element, whatever the direction and wherever
the arrays wrap. A move is a copy only if no element is stored where one is still to be read,
and either is faithful only if the array does not come round to itself. -/
namespace VintageUnix.I8086

open AddressSpace (StoresWithin)

theorem storesWithin_store_memory {w : Width} (a : UInt16) (v : BitVec w.bits) (m : State) :
    StoresWithin [⟨a, w.size.toNat⟩] m.memory (store w (.memory a) v m).memory := by
  cases w with
  | byte => exact .setByte _ a _
  | word => exact .setWord _ a _

/-- No byte of the first `count` elements at `si` is one of the first `count` at `di`. -/
def SourceApart (m : State) (w : Width) (count : Nat) : Prop :=
  ∀ j < count, ∀ k < count, (elementRegion m w .si j).Disjoint (elementRegion m w .di k)

/-- `count` elements have been stored. Only their bytes have changed, and each of them is what was
taken for it, unless there are more than fit into memory or they overlap with what is taken. -/
structure Filled (op : Block) (w : Width) (count : Nat) (m n : State) : Prop where
  flags : n.cpu.flags = m.cpu.flags
  elsewhere : StoresWithin ((List.range count).map (elementRegion m w .di)) m.memory n.memory
  values : count * w.size.toNat ≤ segmentSize → (op.hasSource = true → SourceApart m w count) →
    ∀ k < count, load n w (.memory (elementAt m w .di k)) = op.taken m w k

theorem SourceApart.mono {m : State} {w : Width} {count more : Nat} (h : SourceApart m w more)
    (hLe : count ≤ more) : SourceApart m w count :=
  fun j hj k hk => h j (Nat.lt_of_lt_of_le hj hLe) k (Nat.lt_of_lt_of_le hk hLe)

namespace Filled

variable {op : Block} {w : Width} {count : Nat} {m n : State}

theorem refl (op : Block) (w : Width) (m : State) : Filled op w 0 m m where
  flags := rfl
  elsewhere := .refl _ _
  values _ _ k hk := absurd hk (Nat.not_lt_zero k)

/-- What is still to be read is as it was. -/
theorem load_source (h : Filled op w count m n) (hApart : SourceApart m w (count + 1)) :
    load n w (.memory (elementAt m w .si count)) = elementValue m w .si count := by
  refine load_congr fun address hAddress => h.elsewhere.agrees address fun r hr => ?_
  obtain ⟨k, hk, rfl⟩ := List.mem_map.1 hr
  exact hApart count count.lt_succ_self k (Nat.lt_succ_of_lt (List.mem_range.1 hk)) address hAddress

theorem pass (hOp : op.stores = true) (hMoved : MovedOn op w count m n)
    (h : Filled op w count m n) : Filled op w (count + 1) m (pass op w n) := by
  have hMemory := memory_pass_of_stores w n hOp
  rw [hMoved.destination_zero] at hMemory
  have hStored : StoresWithin [elementRegion m w .di count] n.memory (I8086.pass op w n).memory :=
    hMemory ▸ storesWithin_store_memory _ _ n
  constructor
  case flags => rw [flags_pass_of_stores w n hOp, h.flags]
  case elsewhere =>
    rw [List.range_succ, List.map_append]
    exact (h.elsewhere.mono fun _ => List.mem_append_left _).trans
      (hStored.mono fun _ => List.mem_append_right _)
  case values =>
    intro hFits hApart k hk
    have hRoom : count * w.size.toNat ≤ segmentSize :=
      Nat.le_trans (Nat.mul_le_mul_right _ count.le_succ) hFits
    rcases Nat.lt_succ_iff_lt_or_eq.1 hk with hBefore | rfl
    · -- the element stored last is not one of those before it
      rw [← h.values hRoom (fun hSource => (hApart hSource).mono count.le_succ) k hBefore]
      refine load_congr fun address hAddress => hStored.agrees address fun r hr => ?_
      obtain rfl := List.mem_singleton.1 hr
      exact disjoint_elementRegion m .di hFits hk count.lt_succ_self (Nat.ne_of_lt hBefore) address
        hAddress
    · rw [← hMoved.taken_zero fun hSource => h.load_source (hApart hSource)]
      have hPlace : (Location.memory (elementAt m w .di k)).Holds w := trivial
      refine (load_congr fun address _ => ?_).trans (load_store hPlace _ n)
      rw [hMemory]

/-- After any number of passes. -/
theorem iterate (hOp : op.stores = true) (w : Width) (count : Nat) (m : State) :
    Filled op w count m ((I8086.pass op w)^[count] m) := by
  induction count with
  | zero => exact .refl op w m
  | succ count ih =>
      rw [Function.iterate_succ_apply']
      exact ih.pass hOp (.iterate (.inl hOp) w count m)

end Filled

/-- A move or a store never leaves its loop early. -/
theorem eq_of_endsAfter {op : Block} (hOp : op.stores = true) {w : Width} {modifier : Modifier}
    {k : Nat} {m : State} (h : EndsAfter op w modifier k m) (hCount : 0 < (m.cpu.get .cx).toNat) :
    k = (m.cpu.get .cx).toNat := by
  have hMoved := MovedOn.iterate (.inl hOp) w k m
  rcases h.ends with hCounter | hFound
  · exact (hMoved.counter_eq_zero_iff (h.le (.inl hOp) hCount)).1 hCounter
  · cases op with
    | movs | stos => cases hFound
    | cmps | lods | scas => cases hOp

/-- Repeated moves and stores on the 8086 are block operations. In every state, for either width,
direction and repeat modifier, the instruction goes through its loop as often as `cx` counts and
then ends, and not at all if `cx` is zero. What is stored are as many elements from `di` on in
the direction of the direction flag, each the accumulator or the element at the same place from
`si` on. It is exactly that if the elements fit into memory and none is stored over one that is
read. No other byte changes, `cx` ends at zero, the index registers behind their last element,
and everything else is as it was. -/
theorem repeated_transfers_are_block_operations {i : Instruction} {op : Block} {w : Width}
    {modifier : Modifier} (hOperation : i.operation = .block op w) (hOp : op.stores = true)
    (hModifier : i.modifier = some modifier) (hRepeat : modifier.isRepeat = true) (m : State) :
    let count := (m.cpu.get .cx).toNat
    ∃ n, execute i m = n.proceed ∧ n = (pass op w)^[count] m ∧ (count = 0 → n = m) ∧
      (0 < count → EndsAfter op w modifier count m) ∧
      n.cpu.get .cx = 0 ∧ MovedOn op w count m n ∧ Filled op w count m n := by
  intro count
  have hMoved := MovedOn.iterate (.inl hOp) w count m
  obtain ⟨k, hExecute, hNone, hLoop⟩ :=
    exists_execute_repeated (.inl hOp) hOperation hModifier hRepeat m
  have hPasses : k = count := by
    rcases Nat.eq_zero_or_pos count with hZero | hPositive
    · rw [hNone hZero, hZero]
    · exact eq_of_endsAfter hOp (hLoop hPositive) hPositive
  subst hPasses
  refine ⟨_, hExecute, rfl, fun hZero => ?_, hLoop, ?_, hMoved, .iterate hOp w _ m⟩
  · rw [hZero]
    rfl
  · exact (hMoved.counter_eq_zero_iff (Nat.le_refl _)).2 rfl

/-- A repeated move of words. -/
private abbrev backwardBytes : Array UInt8 :=
  #[0xf3, 0xa5]

/-- Two words to move downwards. The second of them goes around the top of memory. -/
private abbrev backwardState : State where
  cpu := ((({ flags := ({} : Flags).put .direction true } : Cpu).set .cx 2).set .si 0x102).set .di 1
  memory := (AddressSpace.shared.setWord 0x102 0x5678).setWord 0x100 0x1234

private theorem sourceApart_backwardState : SourceApart backwardState .word 2 := by
  intro j hj k hk address hSource
  have hApart : ∀ j < 2, ∀ k < 2,
      elementAt backwardState .word .si j ∉ elementRegion backwardState .word .di k ∧
        elementAt backwardState .word .si j + 1 ∉ elementRegion backwardState .word .di k := by
    decide +kernel
  rcases Region.mem_two.1 hSource with rfl | rfl
  · exact (hApart j hj k hk).1
  · exact (hApart j hj k hk).2

/-- The second word arrives half at the top of memory and half at the bottom. -/
theorem repeated_transfers_are_block_operations_backward :
    let i := decodeFolded (.ofBytes ⟨backwardBytes⟩) 0
    i.operation = .block .movs .word ∧ i.modifier = some .rep ∧
    ∃ n : State, execute i backwardState = n.proceed ∧
      n.memory.word 1 = 0x5678 ∧ n.memory.word 0xffff = 0x1234 ∧ n.memory.byte 3 = 0 ∧
      n.cpu.get .cx = 0 ∧ n.cpu.get .si = 0xfe ∧ n.cpu.get .di = 0xfffd := by
  intro i
  have hOperation : i.operation = .block .movs .word := by decide +kernel
  have hModifier : i.modifier = some .rep := by decide +kernel
  refine ⟨hOperation, hModifier, ?_⟩
  obtain ⟨n, hExecute, -, -, -, hCounter, hMoved, hFilled⟩ :=
    repeated_transfers_are_block_operations hOperation rfl hModifier rfl backwardState
  have hCount : (backwardState.cpu.get .cx).toNat = 2 := by decide +kernel
  rw [hCount] at hMoved hFilled
  have hValues := hFilled.values (by decide) fun _ => sourceApart_backwardState
  refine ⟨n, hExecute, ?_, ?_, ?_, hCounter, ?_, ?_⟩
  · exact UInt16.toBitVec_inj.1 ((hValues 0 (by decide)).trans (by decide +kernel))
  · exact UInt16.toBitVec_inj.1 ((hValues 1 (by decide)).trans (by decide +kernel))
  · refine (hFilled.elsewhere.agrees 3 ?_).trans (by decide +kernel)
    decide +kernel
  · exact hMoved.source.trans (by decide +kernel)
  · exact hMoved.destination.trans (by decide +kernel)

end VintageUnix.I8086
