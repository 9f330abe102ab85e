import VintageUnix.Proofs.ProcessorLaws

/-! The instructions of both processors that change flags at most, and their plain returns. -/
namespace VintageUnix

section Laws

variable {Cpu : Type} [Processor Cpu]

/-- A processor whose instruction pointer, stack pointer and entry stack pointer are set
independently of each other. -/
class LawfulPointers (Cpu : Type) [Processor Cpu] : Prop where
  ip_setIp (c : Cpu) (v : UInt16) : Processor.ip (Processor.setIp c v) = v
  sp_setIp (c : Cpu) (v : UInt16) : StackPointer.sp (Processor.setIp c v) = StackPointer.sp c
  entrySp_setIp (c : Cpu) (v : UInt16) :
    Processor.entrySp (Processor.setIp c v) = Processor.entrySp c
  sp_setSp (c : Cpu) (v : UInt16) : StackPointer.sp (StackPointer.setSp c v) = v
  entrySp_setSp (c : Cpu) (v : UInt16) :
    Processor.entrySp (StackPointer.setSp c v) = Processor.entrySp c

/-- The instruction changes flags at most. -/
def Processor.OnlyFlags (i : Processor.Instruction Cpu) : Prop :=
  ∀ m : Machine Cpu, ∃ c, Processor.execute i m = ({ m with cpu := c } : Machine Cpu).proceed ∧
    Processor.ip c = Processor.ip m.cpu ∧ StackPointer.sp c = StackPointer.sp m.cpu ∧
    Processor.entrySp c = Processor.entrySp m.cpu

/-- The instruction takes the place to go on at from the stack. At the entry stack pointer it
ends the program. -/
structure Processor.PlainReturn (i : Processor.Instruction Cpu) : Prop where
  finishes {m : Machine Cpu} : StackPointer.sp m.cpu = Processor.entrySp m.cpu →
    Processor.execute i m = (m, .ok .finished)
  returns {m : Machine Cpu} : StackPointer.sp m.cpu ≠ Processor.entrySp m.cpu →
    ∃ c, Processor.execute i m = ({ m with cpu := c } : Machine Cpu).proceed ∧
      Processor.ip c = m.memory.word (StackPointer.sp m.cpu) ∧
      StackPointer.sp c = StackPointer.sp m.cpu + 2

end Laws

instance : LawfulPointers Pdp11.Cpu where
  ip_setIp c v := c.get_set .pc .pc v
  sp_setIp c v := c.get_set .pc .sp v
  entrySp_setIp _ _ := rfl
  sp_setSp c v := c.get_set .sp .sp v
  entrySp_setSp _ _ := rfl

instance : LawfulPointers I8086.Cpu where
  ip_setIp _ _ := rfl
  sp_setIp _ _ := rfl
  entrySp_setIp _ _ := rfl
  sp_setSp c v := c.get_set .sp .sp v
  entrySp_setSp _ _ := rfl

instance (p : Personality) : LawfulPointers p.Cpu := by
  cases p with
  | minix => exact inferInstanceAs (LawfulPointers I8086.Cpu)
  | unixV6Pdp11 => exact inferInstanceAs (LawfulPointers Pdp11.Cpu)
  | unixV6I8086 => exact inferInstanceAs (LawfulPointers I8086.Cpu)

namespace I8086

/-- The opcodes of `nop`, `clc`, `stc`, `cmc`, `cld`, `std`, `cli` and `sti`. -/
def flagOpcodes : List UInt8 :=
  [0x90, 0xf8, 0xf9, 0xf5, 0xfc, 0xfd, 0xfa, 0xfb]

/-- The opcode of a return without a count. -/
def returnOpcode : UInt8 := 0xc3

/-- An instruction of one byte that is no modifier is executed as it is listed. -/
theorem decodeFolded_of_complete {code : Code} {start : UInt16} {op : Operation}
    (hForm : Form.ofOpcode (code start) = .complete 1 op) (hPlain : ∀ m, op ≠ .modifier m) :
    decodeFolded code start = { operation := op, length := 1 } := by
  have hDecode : decode code (start + 0) = { operation := op, length := 1 } := by
    rw [UInt16.add_zero, decode, hForm]
    rfl
  simp only [decodeFolded, maxModifiers, fold, hDecode]
  cases op with
  | modifier m => exact absurd rfl (hPlain m)
  | _ => rfl

theorem onlyFlags_of_mem {op : Operation}
    (hOp : op ∈ [.nop, .clc, .stc, .cmc, .cld, .std, .cli, .sti]) :
    @Processor.OnlyFlags Cpu _ ({ operation := op, length := 1 } : Instruction) := by
  intro m
  simp only [List.mem_cons, List.not_mem_nil, or_false] at hOp
  rcases hOp with rfl | rfl | rfl | rfl | rfl | rfl | rfl | rfl <;>
    exact ⟨_, rfl, rfl, rfl, rfl⟩

theorem onlyFlags_decodeFolded {code : Code} {start : UInt16} (hCode : code start ∈ flagOpcodes) :
    @Processor.OnlyFlags Cpu _ (decodeFolded code start) ∧ (decodeFolded code start).length = 1 := by
  have hForm : ∃ op ∈ [.nop, .clc, .stc, .cmc, .cld, .std, .cli, .sti],
      Form.ofOpcode (code start) = .complete 1 op := by
    generalize code start = opcode at hCode
    simp only [flagOpcodes, List.mem_cons, List.not_mem_nil, or_false] at hCode
    rcases hCode with rfl | rfl | rfl | rfl | rfl | rfl | rfl | rfl <;>
      exact ⟨_, by decide, rfl⟩
  obtain ⟨op, hOp, hForm⟩ := hForm
  rw [decodeFolded_of_complete hForm]
  · exact ⟨onlyFlags_of_mem hOp, rfl⟩
  · rintro m rfl
    simp at hOp

theorem plainReturn_decodeFolded {code : Code} {start : UInt16}
    (hCode : code start = returnOpcode) :
    @Processor.PlainReturn Cpu _ (decodeFolded code start) ∧
      (decodeFolded code start).length = 1 := by
  have hForm : Form.ofOpcode (code start) = .complete 1 (.ret none) := by
    rw [hCode]
    rfl
  rw [decodeFolded_of_complete hForm fun m => nofun]
  refine ⟨⟨fun {m} hEntry => ?_, fun {m} hBelow => ?_⟩, rfl⟩
  · exact if_pos hEntry
  · refine ⟨_, if_neg hBelow, rfl, ?_⟩
    let popped := m.cpu.set .sp (m.cpu.get .sp + 2)
    show (popped.set .sp (popped.get .sp + 0)).get .sp = m.cpu.get .sp + 2
    rw [Cpu.get_set, if_pos rfl, UInt16.add_zero, Cpu.get_set, if_pos rfl]

end I8086

namespace Pdp11

/-- The words that clear or set condition codes. -/
def ChangesCodes (w : UInt16) : Prop :=
  0o240 ≤ w ∧ w < 0o300

/-- The word of a return through the program counter. -/
def returnWord : UInt16 := 0o207

theorem ofWord_of_changesCodes {w : UInt16} (h : ChangesCodes w) :
    Form.ofWord w = .complete (if w < 0o260 then .clear (w &&& 0xf) else .set (w &&& 0xf)) := by
  obtain ⟨hLeast, hBelow⟩ := h
  rw [UInt16.le_iff_toNat_le] at hLeast
  rw [UInt16.lt_iff_toNat_lt] at hBelow
  change 160 ≤ w.toNat at hLeast
  change w.toNat < 192 at hBelow
  have hTop : (w >>> 12) &&& 7 = 0 := by
    have hShift : w >>> 12 = 0 := by
      rw [← UInt16.toNat_inj, UInt16.toNat_shiftRight]
      show w.toNat >>> 12 = 0
      rw [Nat.shiftRight_eq_div_pow]
      omega
    rw [hShift]
    rfl
  have hNot (bound : UInt16) (hBound : bound.toNat ≤ 160) : ¬ w < bound := by
    rw [UInt16.lt_iff_toNat_lt]
    omega
  have hControl : w < 0o400 := by
    rw [UInt16.lt_iff_toNat_lt]
    exact Nat.lt_trans hBelow (by decide)
  have hSet : w < 0o300 := UInt16.lt_iff_toNat_lt.2 hBelow
  simp only [Form.ofWord, hTop, hControl, if_true, Form.controlGroup, hNot 0o100 (by decide),
    hNot 0o200 (by decide), hNot 0o210 (by decide), hNot 0o240 (by decide), hSet, if_false]
  split <;> rfl

theorem onlyFlags_decode {code : VintageUnix.Code} {start : UInt16}
    (hCode : ChangesCodes (code.word start)) :
    @Processor.OnlyFlags Cpu _ (decode code start) ∧ (decode code start).length = 2 := by
  rw [decode, ofWord_of_changesCodes hCode]
  by_cases hClear : code.word start < 0o260
  · rw [if_pos hClear]
    exact ⟨fun m => ⟨_, rfl, rfl, rfl, rfl⟩, rfl⟩
  · rw [if_neg hClear]
    exact ⟨fun m => ⟨_, rfl, rfl, rfl, rfl⟩, rfl⟩

theorem plainReturn_decode {code : VintageUnix.Code} {start : UInt16}
    (hCode : code.word start = returnWord) :
    @Processor.PlainReturn Cpu _ (decode code start) ∧ (decode code start).length = 2 := by
  have hDecode : decode code start = { operation := .rts .pc, length := 2 } := by
    rw [decode, hCode]
    rfl
  rw [hDecode]
  refine ⟨⟨fun {m} hEntry => ?_, fun {m} hBelow => ?_⟩, rfl⟩
  · exact if_pos ⟨rfl, hEntry⟩
  · refine ⟨_, if_neg fun h => hBelow h.2, ?_, ?_⟩
    · let jumped := m.cpu.set .pc (m.cpu.get .pc)
      let saved := m.memory.word (jumped.get .sp)
      show ((jumped.set .sp (jumped.get .sp + 2)).set .pc saved).get .pc =
        m.memory.word (m.cpu.get .sp)
      rw [Cpu.get_set, if_pos rfl]
      exact congrArg m.memory.word (m.cpu.get_set .pc .sp _)
    · let jumped := m.cpu.set .pc (m.cpu.get .pc)
      let saved := m.memory.word (jumped.get .sp)
      show ((jumped.set .sp (jumped.get .sp + 2)).set .pc saved).get .sp = m.cpu.get .sp + 2
      rw [Cpu.get_set, if_neg (by decide), Cpu.get_set, if_pos rfl]
      exact congrArg (· + 2) (m.cpu.get_set .pc .sp _)

end Pdp11
end VintageUnix
