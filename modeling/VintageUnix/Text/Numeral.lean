/-! Numbers as they appear in listings and logs: digits in a base, padded with zeros. -/
namespace VintageUnix.Numeral

/-- The digits of `n` in `base`, with zeros in front up to `width` columns. A
longer number keeps all of its digits. -/
def padded (base width n : Nat) : String :=
  let digits := Nat.toDigits base n
  String.ofList (List.replicate (width - digits.length) '0' ++ digits)

/-- Hexadecimal without leading zeros. -/
def hex (n : Nat) : String :=
  padded 16 1 n

/-- A byte as two hexadecimal digits. -/
def hexByte (b : UInt8) : String :=
  padded 16 2 b.toNat

/-- A word as four hexadecimal digits. -/
def hexWord (w : UInt16) : String :=
  padded 16 4 w.toNat

/-- A word as an address in the log, `0x` and four digits. -/
def hexAddress (w : UInt16) : String :=
  "0x" ++ hexWord w

/-- Octal without leading zeros. -/
def octal (n : Nat) : String :=
  padded 8 1 n

/-- A mode or mask in the log, `0o` and octal digits. -/
def octalMode (w : UInt16) : String :=
  "0o" ++ octal w.toNat

/-- Bytes as one run of hexadecimal digits. -/
def hexBytes (bytes : List UInt8) : String :=
  String.join (bytes.map hexByte)

/-- The hexadecimal digits, each at the place of its value. -/
def hexDigits : List Char :=
  "0123456789abcdef".toList

theorem digitChar_mem_hexDigits : ∀ n < 16, Nat.digitChar n ∈ hexDigits := by
  decide

theorem idxOf_digitChar : ∀ n < 16, hexDigits.idxOf (Nat.digitChar n) = n := by
  decide

theorem toList_hexByte (b : UInt8) :
    (hexByte b).toList = [Nat.digitChar (b.toNat / 16), Nat.digitChar (b.toNat % 16)] := by
  have hByte : b.toNat < 256 := b.toNat_lt
  rw [hexByte, padded, String.toList_ofList, Nat.toDigits_eq_if (by decide)]
  split
  next hSmall =>
    rw [Nat.div_eq_of_lt hSmall, Nat.mod_eq_of_lt hSmall]
    rfl
  next hLarge =>
    rw [Nat.toDigits_of_lt_base (by omega)]
    rfl

/-- A byte is shown as two hexadecimal digits, which give it back. -/
theorem exists_digits_hexByte (b : UInt8) : ∃ high ∈ hexDigits, ∃ low ∈ hexDigits,
    (hexByte b).toList = [high, low] ∧
      16 * hexDigits.idxOf high + hexDigits.idxOf low = b.toNat := by
  have hHigh : b.toNat / 16 < 16 := Nat.div_lt_of_lt_mul b.toNat_lt
  have hLow : b.toNat % 16 < 16 := Nat.mod_lt _ (by decide)
  refine ⟨_, digitChar_mem_hexDigits _ hHigh, _, digitChar_mem_hexDigits _ hLow,
    toList_hexByte b, ?_⟩
  rw [idxOf_digitChar _ hHigh, idxOf_digitChar _ hLow]
  exact Nat.div_add_mod _ _

theorem hexByte_inj {a b : UInt8} : hexByte a = hexByte b ↔ a = b := by
  constructor
  · intro h
    obtain ⟨high, -, low, -, hShown, hValue⟩ := exists_digits_hexByte a
    obtain ⟨_, -, _, -, hShown', hValue'⟩ := exists_digits_hexByte b
    rw [h, hShown'] at hShown
    cases hShown
    exact UInt8.toNat_inj.1 (hValue.symm.trans hValue')
  · exact congrArg hexByte

theorem toList_hexBytes_cons (b : UInt8) (rest : List UInt8) :
    (hexBytes (b :: rest)).toList = (hexByte b).toList ++ (hexBytes rest).toList := by
  rw [hexBytes, List.map_cons, String.join_cons, String.toList_append, hexBytes]

/-- The digits of bytes tell which bytes they are. -/
theorem hexBytes_inj {first second : List UInt8} :
    hexBytes first = hexBytes second ↔ first = second := by
  constructor
  · intro h
    induction first generalizing second with
    | nil =>
        cases second with
        | nil => rfl
        | cons b rest =>
            have hDigits := congrArg String.toList h
            rw [toList_hexBytes_cons, toList_hexByte] at hDigits
            cases hDigits
    | cons a first ih =>
        have hDigits := congrArg String.toList h
        cases second with
        | nil =>
            rw [toList_hexBytes_cons, toList_hexByte] at hDigits
            cases hDigits
        | cons b second =>
            rw [toList_hexBytes_cons, toList_hexBytes_cons] at hDigits
            have hLength : (hexByte a).toList.length = (hexByte b).toList.length := by
              rw [toList_hexByte, toList_hexByte]
              rfl
            obtain ⟨hFirst, hRest⟩ := List.append_inj hDigits hLength
            rw [hexByte_inj.1 (String.toList_inj.1 hFirst), ih (String.toList_inj.1 hRest)]
  · exact congrArg hexBytes

end VintageUnix.Numeral
