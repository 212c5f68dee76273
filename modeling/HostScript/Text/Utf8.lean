/-!
# Text as bytes

Texts are `String`s, but sizes, source positions and excerpts are counted in UTF-8 bytes.
This module goes both ways: `utf8` lists the bytes of a text, `decode` reads bytes that may have
been cut in the middle of a character, and `fit` keeps the whole characters within a byte budget.
-/

namespace HostScript.Text

/-- The UTF-8 bytes of a text. -/
def utf8 (s : String) : List UInt8 := s.toByteArray.data.toList

/-! ## Decoding -/

/-- What stands for bytes that encode no character. -/
def replacement : Char := Char.ofNat 0xFFFD

/-- A byte that continues a character started earlier. -/
def isContinuation (b : UInt8) : Bool := 0x80 ≤ b && b ≤ 0xBF

/-- Whether `b` may follow the lead byte of a three or four byte character. The ranges leave out
overlong forms, surrogates and everything above U+10FFFF. -/
def isSecond (lead b : UInt8) : Bool :=
  if lead == 0xE0 then 0xA0 ≤ b && b ≤ 0xBF
  else if lead == 0xED then 0x80 ≤ b && b ≤ 0x9F
  else if lead == 0xF0 then 0x90 ≤ b && b ≤ 0xBF
  else if lead == 0xF4 then 0x80 ≤ b && b ≤ 0x8F
  else isContinuation b

/-- The payload bits of a byte, below the marker that takes the upper ones. -/
def payload (b : UInt8) (size : Nat) : Nat := b.toNat % size

/-- The character at the front of `lead :: rest` and the number of bytes of `rest` it takes.
A sequence that breaks off is replaced as a whole, up to the byte that breaks it. -/
def leading (lead : UInt8) (rest : List UInt8) : Char × Nat :=
  if lead < 0x80 then (Char.ofNat lead.toNat, 0)
  else if lead < 0xC2 || 0xF4 < lead then (replacement, 0)
  else if lead < 0xE0 then
    match rest with
    | b :: _ =>
      if isContinuation b then (Char.ofNat (payload lead 32 * 64 + payload b 64), 1)
      else (replacement, 0)
    | [] => (replacement, 0)
  else if lead < 0xF0 then
    match rest with
    | b :: c :: _ =>
      if !isSecond lead b then (replacement, 0)
      else if !isContinuation c then (replacement, 1)
      else (Char.ofNat (payload lead 16 * 4096 + payload b 64 * 64 + payload c 64), 2)
    | [b] => (replacement, if isSecond lead b then 1 else 0)
    | [] => (replacement, 0)
  else
    match rest with
    | b :: c :: d :: _ =>
      if !isSecond lead b then (replacement, 0)
      else if !isContinuation c then (replacement, 1)
      else if !isContinuation d then (replacement, 2)
      else
        (Char.ofNat (payload lead 8 * 262144 + payload b 64 * 4096 + payload c 64 * 64 + payload d 64), 3)
    | [b, c] => (replacement, if !isSecond lead b then 0 else if isContinuation c then 2 else 1)
    | [b] => (replacement, if isSecond lead b then 1 else 0)
    | [] => (replacement, 0)

/-- Decodes after `skip` bytes that belong to the character just read. -/
def decodeFrom : Nat → List UInt8 → List Char
  | _, [] => []
  | skip + 1, _ :: rest => decodeFrom skip rest
  | 0, lead :: rest =>
    let (c, used) := leading lead rest
    c :: decodeFrom used rest

/-- The text of a run of bytes; what is no UTF-8 becomes the replacement character. -/
def decode (bytes : List UInt8) : String := String.ofList (decodeFrom 0 bytes)

/-! ## Sizes -/

/-- The longest run of whole characters that takes at most `limit` bytes. -/
def fitChars (limit : Nat) : List Char → List Char
  | [] => []
  | c :: cs => if c.utf8Size ≤ limit then c :: fitChars (limit - c.utf8Size) cs else []

/-- A text cut to at most `limit` bytes, never inside a character. -/
def fit (limit : Nat) (s : String) : String :=
  if s.utf8ByteSize ≤ limit then s else String.ofList (fitChars limit s.toList)

/-- The first byte of a character, shown as the character of that code. -/
def leadByte (c : Char) : Char :=
  match String.utf8EncodeChar c with
  | b :: _ => Char.ofNat b.toNat
  | [] => c

/-- How many bytes of the text ahead an error shows. -/
def excerptSize : Nat := 20

/-- The text ahead, as an error shows it. -/
def excerpt (rest : List UInt8) : String := decode (rest.take excerptSize)

/-- The same for a text scanned by character: twenty characters hold at least twenty bytes. -/
def excerptOfChars (rest : List Char) : String :=
  excerpt ((rest.take excerptSize).flatMap String.utf8EncodeChar)

end HostScript.Text
