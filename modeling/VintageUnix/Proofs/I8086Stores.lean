import VintageUnix.I8086.Execution
import VintageUnix.Proofs.MemoryFrame

/-! Instructions of the 8086 change memory by stores only. -/
namespace VintageUnix.I8086

open AddressSpace (Stores)

variable (m : State)

theorem stores_store (w : Width) (location : Location) (v : BitVec w.bits) :
    Stores m.memory (store w location v m).memory := by
  cases location with
  | half h => exact .refl _
  | register r => exact .refl _
  | memory a =>
      cases w with
      | byte => exact .setByte _ _ _
      | word => exact .setWord _ _ _
  | constant v => exact .refl _

theorem stores_put {w : Width} (location : Location) (result : BitVec w.bits × Flags) :
    Stores m.memory (put location result m).memory :=
  stores_store (setFlags result.2 m) w location result.1

theorem stores_blockStep (op : Block) (w : Width) :
    Stores m.memory (blockStep op w m).memory := by
  cases op with
  | movs => exact stores_store m w _ _
  | cmps => exact .refl _
  | stos => exact stores_store m w _ _
  | lods => exact .refl _
  | scas => exact .refl _

theorem stores_blockRepeat (op : Block) (w : Width) (modifier : Modifier) (count : Nat) :
    Stores m.memory (blockRepeat op w modifier count m).memory := by
  induction count generalizing m with
  | zero => exact .refl _
  | succ count ih =>
      simp only [blockRepeat]
      split
      · exact stores_blockStep m op w
      · exact (stores_blockStep m op w).trans (ih _)

theorem stores_block (op : Block) (w : Width) (modifier : Option Modifier) :
    Stores m.memory (block op w modifier m).memory := by
  cases modifier with
  | none => exact stores_blockStep m op w
  | some r =>
      simp only [block]
      split
      · exact stores_blockRepeat m op w r _
      · exact stores_blockStep m op w

theorem stores_copyFrames (count : Nat) : Stores m.memory (copyFrames count m).memory := by
  induction count generalizing m with
  | zero => exact .refl _
  | succ count ih =>
      simp only [copyFrames]
      refine Stores.trans ?_ (ih _)
      exact .setWord _ _ _

theorem stores_enter (size : UInt16) (level : UInt8) :
    Stores m.memory (enter size level m).memory := by
  have hSaved := m.stores_push (m.cpu.get .bp)
  refine hSaved.trans ?_
  simp only [enter, Machine.mapCpu]
  split
  · exact .refl _
  · exact (stores_copyFrames _ _).trans (Machine.stores_push _ _)

/-- An attempt stores only if what follows it does. -/
theorem stores_attempt {α : Type} (value : Except Fault α) (next : α → Outcome Cpu)
    (hNext : ∀ a, Stores m.memory (next a).1.memory) :
    Stores m.memory (m.attempt value next).1.memory := by
  cases value with
  | ok a => exact hNext a
  | error fault => exact .refl _

theorem stores_withBoth (a b : Operand) (next : Location → Location → Outcome Cpu)
    (hNext : ∀ x y, Stores m.memory (next x y).1.memory) :
    Stores m.memory (withBoth m a b next).1.memory :=
  stores_attempt m _ _ fun x => stores_attempt m _ _ fun y => hNext x y

theorem stores_unary (op : Unary) (w : Width) (location : Location) :
    Stores m.memory (unary op w location m).1.memory := by
  cases op with
  | inc => exact stores_put m location _
  | dec => exact stores_put m location _
  | neg => exact stores_put m location _
  | not => exact stores_store m w location _
  | mul => exact .refl _
  | imul => exact .refl _
  | div => exact stores_attempt m _ _ fun _ => .refl _
  | idiv => exact stores_attempt m _ _ fun _ => .refl _

theorem stores_execute (i : Instruction) : Stores m.memory (execute i m).1.memory := by
  unfold execute
  cases i.operation with
  | arithmetic op w a b =>
      refine stores_withBoth m a b _ fun x y => ?_
      simp only [Machine.proceed]
      split
      · exact stores_put m x _
      · exact .refl _
  | unary op w a => exact stores_attempt m _ _ fun x => stores_unary m op w x
  | rotate op w a b => exact stores_withBoth m a b _ fun x _ => stores_put m x _
  | shift op w a b => exact stores_withBoth m a b _ fun x _ => stores_put m x _
  | block op w => exact stores_block m op w i.modifier
  | test w a b => exact stores_withBoth m a b _ fun _ _ => .refl _
  | xchg w a b =>
      refine stores_withBoth m a b _ fun x y => ?_
      exact (stores_store m w x _).trans (stores_store _ w y _)
  | mov w a b => exact stores_withBoth m a b _ fun x _ => stores_store m w x _
  | lea r a =>
      refine stores_attempt m _ _ fun x => ?_
      cases x <;> exact .refl _
  | push a =>
      refine stores_attempt m _ _ fun x => ?_
      split <;> exact m.stores_push _
  | pop a => exact stores_attempt m _ _ fun x => stores_store m.pop.2 .word x _
  | pushf => exact m.stores_push _
  | enter size level => exact stores_enter m size level
  | jumpIf condition t =>
      simp only [Machine.proceed]
      split <;> exact .refl _
  | jump a => exact stores_attempt m _ _ fun _ => .refl _
  | call a => exact stores_attempt m _ _ fun _ => m.stores_push _
  | ret extra =>
      cases extra with
      | none =>
          simp only
          split <;> exact .refl _
      | some extra => exact .refl _
  | loop kind t =>
      simp only [Machine.proceed]
      generalize (_ && _) = again
      cases again <;> exact .refl _
  | jcxz t =>
      simp only [Machine.proceed]
      split <;> exact .refl _
  | _ => exact .refl _

end VintageUnix.I8086
