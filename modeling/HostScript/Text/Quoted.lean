import HostScript.Text.Hex
import HostScript.Text.Unprintable
/-!
# Quoted text in messages

Messages show the text they complain about in double quotes, so that what cannot be seen shows: line
ends and tabs by a letter, everything else without a visible form by its code.
-/

namespace HostScript.Text

/-- One character between quotes. -/
def quotedChar (c : Char) : List Char :=
  match c with
  | '"' => ['\\', '"']
  | '\\' => ['\\', '\\']
  | '\n' => ['\\', 'n']
  | '\r' => ['\\', 'r']
  | '\t' => ['\\', 't']
  | '\x00' => ['\\', '0']
  | c => if isUnprintable c then "\\u\x7b".toList ++ Nat.toDigits 16 c.toNat ++ ['\x7d'] else [c]

def quoted (s : String) : String := String.ofList ('"' :: s.toList.flatMap quotedChar ++ ['"'])

end HostScript.Text
