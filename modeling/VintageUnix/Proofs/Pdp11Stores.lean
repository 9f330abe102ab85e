import VintageUnix.Pdp11.Execution
import VintageUnix.Proofs.MemoryFrame

/-! Instructions of the PDP-11 change memory by stores only. -/
namespace VintageUnix.Pdp11

open AddressSpace (Stores)

variable (m : State)

theorem memory_resolve (o : Operand) (w : Width) : (resolve o w m).2.memory = m.memory := by
  cases o <;> rfl

theorem stores_store (w : Width) (location : Location) (v : BitVec w.bits) :
    Stores m.memory (store w location v m).memory := by
  cases location with
  | register r => cases w <;> exact .refl _
  | memory a =>
      cases w with
      | byte => exact .setByte _ _ _
      | word => exact .setWord _ _ _
  | constant v => exact .refl _

theorem stores_storeMoved (w : Width) (location : Location) (v : BitVec w.bits) :
    Stores m.memory (storeMoved w location v m).memory := by
  cases location with
  | register r =>
      cases w with
      | byte => exact .refl _
      | word => exact stores_store m .word _ v
  | memory a => cases w <;> exact stores_store m _ _ v
  | constant c => cases w <;> exact stores_store m _ _ v

/-- A store after an operand was resolved and the codes were set. -/
theorem stores_store_resolved (o : Operand) (w : Width) (status : Status)
    (location : Location) (v : BitVec w.bits) :
    Stores m.memory (store w location v (setStatus status (resolve o w m).2)).memory := by
  have h := stores_store (setStatus status (resolve o w m).2) w location v
  exact (Stores.of_eq (memory_resolve m o w)).trans h

theorem stores_double (op : Double) (w : Width) (s d : Operand) :
    Stores m.memory (double op w s d m).memory := by
  have hSource : Stores m.memory (resolve s w m).2.memory := .of_eq (memory_resolve m s w)
  refine hSource.trans ?_
  simp only [double]
  split
  · exact (Stores.of_eq (memory_resolve _ d w)).trans (stores_storeMoved _ w _ _)
  · split
    · exact stores_store_resolved _ d w _ _ _
    · exact .of_eq (memory_resolve _ d w)

theorem stores_single (op : Single) (w : Width) (d : Operand) :
    Stores m.memory (single op w d m).memory := by
  simp only [single]
  split
  · exact stores_store_resolved m d w _ _ _
  · exact .of_eq (memory_resolve m d w)

theorem memory_mul (r : Register) (source : UInt16) : (mul r source m).memory = m.memory := by
  simp only [mul]
  split <;> rfl

theorem memory_div (r : Register) (source : UInt16) : (div r source m).1.memory = m.memory := by
  simp only [div]
  split <;> rfl

theorem memory_extended (op : Extended) (source : Operand) (r : Register) :
    (extended op source r m).1.memory = m.memory := by
  have hSource := memory_resolve m source .word
  cases op with
  | mul => exact (memory_mul _ r _).trans hSource
  | div => exact (memory_div _ r _).trans hSource
  | ash => exact hSource
  | ashc => exact hSource

theorem stores_swab (d : Operand) : Stores m.memory (swab d m).memory :=
  (Stores.of_eq (memory_resolve m d .word)).trans (stores_store _ .word _ _)

theorem stores_sxt (d : Operand) : Stores m.memory (sxt d m).memory :=
  (Stores.of_eq (memory_resolve m d .word)).trans (stores_store _ .word _ _)

theorem stores_xor (r : Register) (d : Operand) : Stores m.memory (xor r d m).memory :=
  (Stores.of_eq (memory_resolve m d .word)).trans (stores_store _ .word _ _)

/-- What is done with an address of an operand only stores if it does so everywhere. -/
theorem stores_withAddress (o : Operand) (next : UInt16 → State → Outcome Cpu)
    (hNext : ∀ address m, Stores m.memory (next address m).1.memory) :
    Stores m.memory (withAddress o m next).1.memory := by
  have hResolved : Stores m.memory (resolve o .word m).2.memory := .of_eq (memory_resolve m o .word)
  refine hResolved.trans ?_
  unfold withAddress
  generalize resolve o .word m = found
  obtain ⟨location, n⟩ := found
  cases location with
  | memory a => exact hNext a n
  | register r => exact .refl _
  | constant v => exact .refl _

theorem stores_execute (i : Instruction) : Stores m.memory (execute i m).1.memory := by
  unfold execute
  cases i.operation with
  | double op w s d => exact stores_double m op w s d
  | single op w d => exact stores_single m op w d
  | extended op s r => exact .of_eq (memory_extended m op s r)
  | swab d => exact stores_swab m d
  | sxt d => exact stores_sxt m d
  | xor r d => exact stores_xor m r d
  | sob r t =>
      simp only [Machine.proceed]
      split <;> exact .refl _
  | branch condition t =>
      simp only [Machine.proceed]
      split <;> exact .refl _
  | jmp o => exact stores_withAddress m o _ fun _ _ => .refl _
  | jsr link o => exact stores_withAddress m o _ fun _ m => m.stores_push _
  | rts link =>
      simp only
      split <;> exact .refl _
  | mark count => exact .refl _
  | clear mask => exact .refl _
  | set mask => exact .refl _
  | sys number => exact .refl _
  | float => exact .refl _
  | emt n => exact .refl _
  | privileged n => exact .refl _
  | transfer => exact .refl _
  | undefined => exact .refl _

end VintageUnix.Pdp11
