import Mathlib.Data.Nat.Find
import Mathlib.Order.WellFounded
import VintageUnix.Process.Listing
import VintageUnix.Proofs.InstructionBytes
import VintageUnix.System.Selection

/-! What a listing shows of the text. The instructions follow each other without a gap, so their
bytes make up the text as far as the last one reaches, and an address is that of one instruction
at most. -/
namespace VintageUnix

/-- A processor on which every instruction has a byte of its own. -/
class ClaimsBytes (Cpu : Type) [Processor Cpu] : Prop where
  one_le_length (c : Code) (start : UInt16) :
    1 ≤ (Processor.length (Processor.decode c start : Processor.Instruction Cpu)).toNat

instance : ClaimsBytes I8086.Cpu where
  one_le_length c start := (I8086.toNat_length_decode c start).1

instance : ClaimsBytes Pdp11.Cpu where
  one_le_length c start := by
    show 1 ≤ (Pdp11.decode c start).length.toNat
    rcases Pdp11.length_decode c start with h | h | h <;> rw [h] <;> decide

instance (p : Personality) : ClaimsBytes p.Cpu := by
  cases p with
  | minix => exact inferInstanceAs (ClaimsBytes I8086.Cpu)
  | unixV6Pdp11 => exact inferInstanceAs (ClaimsBytes Pdp11.Cpu)
  | unixV6I8086 => exact inferInstanceAs (ClaimsBytes I8086.Cpu)

namespace Listing

section Instructions

variable (Cpu : Type) [Processor Cpu] (text : Segment)

/-- The instruction at an address. -/
def instructionAt (address : Nat) : Processor.Instruction Cpu :=
  Processor.decode text.get (.ofNat address)

/-- The length of the instruction at an address. -/
def lengthAt (address : Nat) : Nat :=
  (Processor.length (instructionAt Cpu text address)).toNat

/-- The address of the instruction with a number: the first is at zero, and every other one
behind the one before it. -/
def addressOf : Nat → Nat
  | 0 => 0
  | i + 1 => addressOf i + lengthAt Cpu text (addressOf i)

/-- The symbols that are labels of an address, in the order of the table. -/
def symbolsAt (symbols : List Symbol) (address : Nat) : List Symbol :=
  symbols.filter fun s => s.isText && s.address.toNat = address

/-- The instruction with a number as it is listed. -/
def listed (symbols : List Symbol) (i : Nat) :
    ListedInstruction (Processor.Instruction Cpu) where
  address := addressOf Cpu text i
  instruction := instructionAt Cpu text (addressOf Cpu text i)
  bytes := text.read (.ofNat (addressOf Cpu text i))
    (min (addressOf Cpu text (i + 1)) segmentSize - addressOf Cpu text i)
  labels := (symbolsAt symbols (addressOf Cpu text i)).map Symbol.name

variable [ClaimsBytes Cpu]

theorem one_le_lengthAt (address : Nat) : 1 ≤ lengthAt Cpu text address :=
  ClaimsBytes.one_le_length text.get (.ofNat address)

theorem strictMono_addressOf : StrictMono (addressOf Cpu text) :=
  strictMono_nat_of_lt_succ fun _ => Nat.lt_add_of_pos_right (one_le_lengthAt Cpu text _)

theorem exists_stop_le (stop : Nat) : ∃ i, stop ≤ addressOf Cpu text i :=
  ⟨stop, (strictMono_addressOf Cpu text).le_apply⟩

/-- The number of instructions that start below an address. -/
def countBelow (stop : Nat) : Nat :=
  Nat.find (exists_stop_le Cpu text stop)

theorem lt_countBelow_iff {stop i : Nat} :
    i < countBelow Cpu text stop ↔ addressOf Cpu text i < stop := by
  have hFound : stop ≤ addressOf Cpu text (countBelow Cpu text stop) :=
    Nat.find_spec (exists_stop_le Cpu text stop)
  constructor
  · intro hBelow
    exact Nat.lt_of_not_le (Nat.find_min (exists_stop_le Cpu text stop) hBelow)
  · intro hBelow
    apply Nat.lt_of_not_le
    intro hBehind
    have hLe := (strictMono_addressOf Cpu text).monotone hBehind
    omega

theorem countBelow_le (stop : Nat) : countBelow Cpu text stop ≤ stop :=
  Nat.find_min' _ (strictMono_addressOf Cpu text).le_apply

/-- No instruction has to be taken for longer than it is. -/
theorem instructions_of_lt (symbols : List Symbol) {stop address : Nat} (hBelow : address < stop)
    (hStop : stop ≤ segmentSize) :
    instructions Cpu text symbols stop address =
      { address
        instruction := instructionAt Cpu text address
        bytes := text.read (.ofNat address)
          (min (address + lengthAt Cpu text address) segmentSize - address)
        labels := (symbolsAt symbols address).map Symbol.name } ::
      instructions Cpu text symbols stop (address + lengthAt Cpu text address) := by
  have hLength : max (lengthAt Cpu text address) 1 = lengthAt Cpu text address :=
    max_eq_left (one_le_lengthAt Cpu text address)
  have hBytes : min (lengthAt Cpu text address) (segmentSize - address) =
      min (address + lengthAt Cpu text address) segmentSize - address := by
    omega
  rw [instructions, if_pos hBelow, ← hBytes]
  simp only [lengthAt, instructionAt] at hLength ⊢
  rw [hLength]
  rfl

/-- From any instruction on, the listing goes through the numbers that are left. -/
theorem instructions_addressOf (symbols : List Symbol) {stop : Nat} (hStop : stop ≤ segmentSize)
    {first rest : Nat} (hCount : first + rest = countBelow Cpu text stop) :
    instructions Cpu text symbols stop (addressOf Cpu text first) =
      (List.range' first rest).map (listed Cpu text symbols) := by
  induction rest generalizing first with
  | zero =>
      have hEnd : ¬ addressOf Cpu text first < stop := by
        rw [← lt_countBelow_iff]
        omega
      rw [instructions, if_neg hEnd]
      rfl
  | succ rest ih =>
      have hBelow : addressOf Cpu text first < stop := by
        rw [← lt_countBelow_iff]
        omega
      rw [instructions_of_lt Cpu text symbols hBelow hStop, List.range'_succ, List.map_cons,
        ← ih (by omega)]
      rfl

theorem instructions_zero (symbols : List Symbol) {stop : Nat} (hStop : stop ≤ segmentSize) :
    instructions Cpu text symbols stop 0 =
      (List.range (countBelow Cpu text stop)).map (listed Cpu text symbols) := by
  rw [List.range_eq_range']
  exact instructions_addressOf Cpu text symbols hStop (Nat.zero_add _)

/-- The bytes of the instructions so far, one after the other, are the text up to where the last
one ends. -/
theorem flatMap_bytes (symbols : List Symbol) {stop count : Nat} (hStop : stop ≤ segmentSize)
    (hCount : count ≤ countBelow Cpu text stop) :
    (List.range count).flatMap (fun i => (listed Cpu text symbols i).bytes) =
      text.read 0 (min (addressOf Cpu text count) segmentSize) := by
  induction count with
  | zero => rfl
  | succ count ih =>
      have hStart : addressOf Cpu text count < stop :=
        (lt_countBelow_iff Cpu text).1 (Nat.lt_of_succ_le hCount)
      have hNext : addressOf Cpu text count < addressOf Cpu text (count + 1) :=
        strictMono_addressOf Cpu text count.lt_succ_self
      have hSplit : min (addressOf Cpu text (count + 1)) segmentSize = addressOf Cpu text count +
          (min (addressOf Cpu text (count + 1)) segmentSize - addressOf Cpu text count) := by
        omega
      rw [List.range_succ, List.flatMap_append, ih (Nat.le_of_succ_le hCount), hSplit,
        Segment.read_add, min_eq_left (by omega), UInt16.zero_add]
      simp [listed]

end Instructions

/-- The digits on a line: what stands between the column of the address and the next blank. -/
def hexColumn (line : String) : String :=
  String.ofList ((line.toList.drop 6).takeWhile (· ≠ ' '))

section Lines

open Numeral (padded hexByte hexBytes)

theorem flatten_lines (bytes : List UInt8) : (lines bytes).flatten = bytes := by
  induction bytes using lines.induct with
  | case1 bytes hShort => rw [lines, if_pos hShort, List.flatten_singleton]
  | case2 bytes hLong ih =>
      rw [lines, if_neg hLong, List.flatten_cons, ih, List.take_append_drop]

theorem blank_not_mem_hexBytes (bytes : List UInt8) : ' ' ∉ (hexBytes bytes).toList := by
  induction bytes with
  | nil => exact List.not_mem_nil
  | cons b rest ih =>
      intro hBlank
      rw [Numeral.toList_hexBytes_cons] at hBlank
      rcases List.mem_append.1 hBlank with hDigit | hRest
      · obtain ⟨high, hHigh, low, hLow, hShown, -⟩ := Numeral.exists_digits_hexByte b
        have hBlankNone : ' ' ∉ Numeral.hexDigits := by decide
        rw [hShown, List.mem_cons, List.mem_singleton] at hDigit
        rcases hDigit with rfl | rfl
        · exact hBlankNone hHigh
        · exact hBlankNone hLow
      · exact ih hRest

/-- An address in the segment takes four columns. -/
theorem length_padded_address {address : Nat} (hAddress : address < segmentSize) :
    (padded 16 4 address).toList.length = 4 := by
  have hDigits : (Nat.toDigits 16 address).length ≤ 4 :=
    (Nat.length_toDigits_le_iff (by decide) (by decide)).2 hAddress
  simp only [padded, String.toList_ofList, List.length_append, List.length_replicate]
  omega

/-- Behind six columns come the digits, up to a blank or the end of the line. -/
theorem hexColumn_eq {front back : String} (bytes : List UInt8) (hFront : front.toList.length = 6)
    (hBack : back.toList.takeWhile (· ≠ ' ') = []) :
    hexColumn (front ++ hexBytes bytes ++ back) = hexBytes bytes := by
  have hDigits : ∀ c ∈ (hexBytes bytes).toList, decide (c ≠ ' ') = true := by
    intro c hMem
    rw [decide_eq_true_eq]
    rintro rfl
    exact blank_not_mem_hexBytes bytes hMem
  simp only [hexColumn, String.toList_append, List.append_assoc]
  rw [List.drop_left' hFront, List.takeWhile_append_of_pos hDigits, hBack, List.append_nil,
    String.ofList_toList]

theorem hexColumn_continued (bytes : List UInt8) :
    hexColumn ("      " ++ hexBytes bytes) = hexBytes bytes := by
  rw [← String.append_empty (s := "      " ++ hexBytes bytes)]
  exact hexColumn_eq bytes (by decide) rfl

variable {Cpu : Type} [Processor Cpu]

/-- The rows show an instruction with its address, and its bytes on as many lines as they take. -/
def Shows (rows : List String) (address : Nat) (instruction : Processor.Instruction Cpu)
    (bytes : List UInt8) : Prop :=
  (∃ (column : String) (more : List String), rows = (padded 16 4 address ++ ": " ++ column ++ " " ++
    Processor.render instruction) :: more.map ("      " ++ ·)) ∧
  String.join (rows.map hexColumn) = hexBytes bytes

theorem hexBytes_append (first second : List UInt8) :
    hexBytes (first ++ second) = hexBytes first ++ hexBytes second := by
  rw [hexBytes, List.map_append, String.join_append, hexBytes, hexBytes]

theorem join_hexBytes (rows : List (List UInt8)) :
    String.join (rows.map hexBytes) = hexBytes rows.flatten := by
  induction rows with
  | nil => rfl
  | cons first rest ih =>
      rw [List.map_cons, String.join_cons, ih, List.flatten_cons, hexBytes_append]

theorem exists_lines_eq_cons (bytes : List UInt8) : ∃ first rest, lines bytes = first :: rest := by
  rw [lines]
  split
  · exact ⟨_, _, rfl⟩
  · exact ⟨_, _, rfl⟩

/-- The digits on many rows are those of all the bytes. -/
theorem join_hexColumn_flatMap {rows : Nat → List String} {bytes : Nat → List UInt8} {is : List Nat}
    (h : ∀ i ∈ is, String.join ((rows i).map hexColumn) = hexBytes (bytes i)) :
    String.join ((is.flatMap rows).map hexColumn) = hexBytes (is.flatMap bytes) := by
  induction is with
  | nil => rfl
  | cons i rest ih =>
      have hRest := ih fun j hMem => h j (List.mem_cons_of_mem i hMem)
      rw [List.flatMap_cons, List.map_append, String.join_append, h i List.mem_cons_self, hRest,
        ← hexBytes_append, List.flatMap_cons]

/-- The rows of an instruction without its labels. -/
def rows (i : ListedInstruction (Processor.Instruction Cpu)) : List String :=
  render { i with labels := [] }

theorem render_eq (i : ListedInstruction (Processor.Instruction Cpu)) :
    render i = i.labels.map (· ++ ":") ++ rows i := by
  obtain ⟨first, rest, hLines⟩ := exists_lines_eq_cons i.bytes
  simp [rows, render, hLines]

theorem takeWhile_blanks (count : Nat) (text : String) :
    (String.ofList (List.replicate count ' ') ++ " " ++ text).toList.takeWhile (· ≠ ' ') = [] := by
  cases count <;> simp [List.replicate_succ]

theorem hexColumn_first {address : Nat} (hAddress : address < segmentSize) (bytes : List UInt8)
    (text : String) :
    hexColumn (padded 16 4 address ++ ": " ++ padRight bytesColumn (hexBytes bytes) ++ " " ++
      text) = hexBytes bytes := by
  let blanks := String.ofList (List.replicate (bytesColumn - (hexBytes bytes).length) ' ')
  have hFront : (padded 16 4 address ++ ": ").toList.length = 6 := by
    rw [String.toList_append, List.length_append, length_padded_address hAddress]
    rfl
  have hLine : padded 16 4 address ++ ": " ++ padRight bytesColumn (hexBytes bytes) ++ " " ++ text =
      padded 16 4 address ++ ": " ++ hexBytes bytes ++ (blanks ++ " " ++ text) := by
    simp only [padRight, blanks, String.append_assoc]
  rw [hLine]
  exact hexColumn_eq bytes hFront (takeWhile_blanks _ text)

theorem shows_rows (i : ListedInstruction (Processor.Instruction Cpu))
    (hAddress : i.address < segmentSize) :
    Shows (rows i) i.address i.instruction i.bytes := by
  obtain ⟨first, rest, hLines⟩ := exists_lines_eq_cons i.bytes
  have hRows : rows i = (padded 16 4 i.address ++ ": " ++ padRight bytesColumn (hexBytes first) ++
      " " ++ Processor.render i.instruction) :: (rest.map hexBytes).map ("      " ++ ·) := by
    simp [rows, render, hLines, String.append_assoc]
  have hRest : ((rest.map hexBytes).map ("      " ++ ·)).map hexColumn = rest.map hexBytes := by
    simp [hexColumn_continued]
  refine ⟨⟨_, _, hRows⟩, ?_⟩
  rw [hRows, List.map_cons, hexColumn_first hAddress, hRest, String.join_cons, join_hexBytes,
    ← hexBytes_append, ← List.flatten_cons, ← hLines, flatten_lines]

end Lines

section Labels

variable (symbols : List Symbol)

/-- The labels of an address as they are printed. -/
def labelsAt (address : Nat) : List String :=
  (symbolsAt symbols address).map (·.name ++ ":")

/-- Two conditions that exclude each other select what their disjunction selects. -/
theorem filter_append_filter_perm {α : Type} {p q : α → Bool} (l : List α)
    (hApart : ∀ a, p a = true → q a = false) :
    (l.filter p ++ l.filter q).Perm (l.filter fun a => p a || q a) := by
  have hFirst : (fun a => p a && (p a || q a)) = p := by
    funext a
    cases p a <;> simp
  have hSecond : (fun a => !p a && (p a || q a)) = q := by
    funext a
    cases hp : p a with
    | true => simp [hApart a hp]
    | false => simp
  have hBoth := List.filter_append_perm p (l.filter fun a => p a || q a)
  rwa [List.filter_filter, List.filter_filter, hFirst, hSecond] at hBoth

/-- Every symbol at one of different addresses is a label of one of them. -/
theorem flatMap_symbolsAt_perm {address : Nat → Nat} (hDistinct : Function.Injective address)
    (count : Nat) :
    ((List.range count).flatMap fun i => symbolsAt symbols (address i)).Perm
      (symbols.filter fun s =>
        s.isText && (List.range count).any (s.address.toNat = address ·)) := by
  induction count with
  | zero => simp
  | succ count ih =>
      have hApart (s : Symbol)
          (hEarlier : (s.isText && (List.range count).any (s.address.toNat = address ·)) = true) :
          (s.isText && decide (s.address.toNat = address count)) = false := by
        simp only [Bool.and_eq_true, List.any_eq_true, List.mem_range,
          decide_eq_true_eq] at hEarlier
        obtain ⟨-, i, hBelow, hAt⟩ := hEarlier
        have hOther : address i ≠ address count := fun hSame => hBelow.ne (hDistinct hSame)
        simp [hAt, hOther]
      have hMore : (fun s : Symbol => s.isText &&
            (List.range (count + 1)).any (s.address.toNat = address ·)) = fun s =>
          (s.isText && (List.range count).any (s.address.toNat = address ·)) ||
            (s.isText && decide (s.address.toNat = address count)) := by
        funext s
        rw [List.range_succ, List.any_append, Bool.and_or_distrib_left]
        simp
      rw [hMore, List.range_succ, List.flatMap_append, List.flatMap_singleton]
      exact (ih.append_right _).trans (filter_append_filter_perm symbols hApart)

end Labels

/-- A listing covers the text of a program once. It shows as many instructions as start below the
size of the text, each on rows of its own: the first at zero, every other one behind the one
before it. The digits on the rows are those of the bytes from zero to the end of the last
instruction, as far as there is memory, and of no other bytes (`Numeral.hexBytes_inj`). In front of the rows of an instruction are the labels of
its address in the order of the table, so each symbol of the text at one of the addresses is
printed once and no other symbol is. A last line counts the undefined instructions if there are
any. -/
theorem listing_covers_text_once (p : Personality) (m : AddressSpace) (symbols : List Symbol) :
    ∃ (count : Nat) (rows : Nat → List String),
      let address := addressOf p.Cpu m.text
      let undefined := (List.range count).countP fun i =>
        Processor.isUndefined (instructionAt p.Cpu m.text (address i))
      (∀ i, i < count ↔ address i < m.textSize.toNat) ∧ count ≤ m.textSize.toNat ∧
      ofMemory p.Cpu m symbols =
        ((List.range count).flatMap fun i => labelsAt symbols (address i) ++ rows i) ++
          (if undefined = 0 then [] else ["undefined: " ++ toString undefined]) ∧
      (∀ i < count, Shows (rows i) (address i) (instructionAt p.Cpu m.text (address i))
        (m.text.read (.ofNat (address i)) (min (address (i + 1)) segmentSize - address i))) ∧
      String.join (((List.range count).flatMap rows).map hexColumn) =
        Numeral.hexBytes (m.text.read 0 (min (address count) segmentSize)) ∧
      ((List.range count).flatMap fun i => labelsAt symbols (address i)).Perm
        ((symbols.filter fun s =>
          s.isText && (List.range count).any (s.address.toNat = address ·)).map
            (·.name ++ ":")) := by
  have hStop : m.textSize.toNat ≤ segmentSize := m.textSize.toNat_lt.le
  have hBelow {i : Nat} (hi : i < countBelow p.Cpu m.text m.textSize.toNat) :
      addressOf p.Cpu m.text i < segmentSize :=
    Nat.lt_of_lt_of_le ((lt_countBelow_iff p.Cpu m.text).1 hi) hStop
  have hShows {i : Nat} (hi : i < countBelow p.Cpu m.text m.textSize.toNat) :=
    shows_rows (listed p.Cpu m.text symbols i) (hBelow hi)
  refine ⟨countBelow p.Cpu m.text m.textSize.toNat, fun i => rows (listed p.Cpu m.text symbols i),
    fun i => lt_countBelow_iff p.Cpu m.text, countBelow_le p.Cpu m.text _, ?_,
    fun i hi => hShows hi, ?_, ?_⟩
  · rw [ofMemory, instructions_zero p.Cpu m.text symbols hStop, List.countP_map, List.flatMap_map]
    simp only [render_eq, Function.comp_def]
    simp [listed, labelsAt, Function.comp_def]
  · rw [← flatMap_bytes p.Cpu m.text symbols hStop (Nat.le_refl _)]
    apply join_hexColumn_flatMap
    intro i hMem
    exact (hShows (List.mem_range.1 hMem)).2
  · have hPerm := flatMap_symbolsAt_perm symbols (strictMono_addressOf p.Cpu m.text).injective
      (countBelow p.Cpu m.text m.textSize.toNat)
    have hPrinted := hPerm.map (·.name ++ ":")
    rwa [List.map_flatMap] at hPrinted

end Listing
end VintageUnix
