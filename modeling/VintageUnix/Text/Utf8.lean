/-! Text from bytes that need not be valid UTF-8. Every longest run of bytes that starts a
character but does not finish it becomes one replacement character. -/
namespace VintageUnix.Utf8

/-- The character that stands for undecodable bytes. -/
def replacement : Char :=
  '\ufffd'

def isContinuation (b : UInt8) : Bool :=
  0x80 ≤ b && b ≤ 0xbf

/-- Whether `second` may follow `first` in a character of three or four bytes.
The narrower ranges leave out overlong forms, surrogates and values that are
too large. -/
def admits (first second : UInt8) : Bool :=
  if first == 0xe0 then 0xa0 ≤ second && second ≤ 0xbf
  else if first == 0xed then 0x80 ≤ second && second ≤ 0x9f
  else if 0xe1 ≤ first && first ≤ 0xef then isContinuation second
  else if first == 0xf0 then 0x90 ≤ second && second ≤ 0xbf
  else if 0xf1 ≤ first && first ≤ 0xf3 then isContinuation second
  else if first == 0xf4 then 0x80 ≤ second && second ≤ 0x8f
  else false

/-- How many bytes one replacement character covers, for bytes that do not
start with a whole character. -/
def brokenLength : List UInt8 → Nat
  | first :: second :: rest =>
    if admits first second then
      if 0xf0 ≤ first && rest.head?.any isContinuation then 3 else 2
    else 1
  | _ => 1

/-- The first character of a nonempty list of bytes, and how many bytes it
takes. -/
def next (bytes : List UInt8) : Char × Nat :=
  match (bytes.take 4).toByteArray.utf8DecodeChar? 0 with
  | some c => (c, c.utf8Size)
  | none => (replacement, brokenLength bytes)

/-- The characters of `bytes`. -/
def decodeChars : List UInt8 → List Char
  | [] => []
  | b :: rest =>
    let first := next (b :: rest)
    first.1 :: decodeChars (rest.drop (first.2 - 1))
termination_by bytes => bytes.length
decreasing_by simp only [List.length_drop, List.length_cons]; omega

/-- The text of `bytes`, with replacement characters where they are not valid. -/
def decode (bytes : List UInt8) : String :=
  String.ofList (decodeChars bytes)

/-- The bytes of a text. -/
def encode (text : String) : List UInt8 :=
  text.toList.flatMap String.utf8EncodeChar

end VintageUnix.Utf8
