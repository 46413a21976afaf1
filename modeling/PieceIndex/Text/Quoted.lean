import PieceIndex.Text.Printable

/-!
A text between double quotes. The quote and the backslash are written after a backslash, NUL, tab,
line feed and carriage return by a letter, and other characters that are not shown by their code
point.
-/
namespace PieceIndex
namespace Quoted

def hex (n : Nat) : List Char := Nat.toDigits 16 n

def escape (char : Char) : List Char :=
  if char = '\x00' then ['\\', '0']
  else if char = '\t' then ['\\', 't']
  else if char = '\n' then ['\\', 'n']
  else if char = '\r' then ['\\', 'r']
  else if char = '"' ∨ char = '\\' then ['\\', char]
  else if Printable.isShown char then [char]
  else ['\\', 'u', '\x7b'] ++ hex char.toNat ++ ['\x7d']

def encode (text : String) : String :=
  String.ofList ('"' :: (text.toList.flatMap escape ++ ['"']))

end Quoted
end PieceIndex
