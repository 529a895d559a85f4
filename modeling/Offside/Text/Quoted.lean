import Offside.Text.CodePoint
import Offside.Text.Printable

/-!
The quoted form in which diagnostics show a piece of text. Single quotes enclose it unless it
holds one and no double quote; what does not print is shown by its code point.
-/

namespace Offside.Text

def hexDigit (n : Nat) : Char :=
  if n < 10 then Char.ofNat (0x30 + n) else Char.ofNat (0x57 + n)

def hexDigits : Nat → Nat → List Char
  | 0, _ => []
  | width + 1, n => hexDigits width (n / 16) ++ [hexDigit (n % 16)]

def escapedChar (quote c : Char) : List Char :=
  if c = quote ∨ c = '\\' then ['\\', c]
  else if c = '\t' then ['\\', 't']
  else if c = '\n' then ['\\', 'n']
  else if c = '\r' then ['\\', 'r']
  else if isPrintable c then [c]
  else if codePoint c < 0x100 then '\\' :: 'x' :: hexDigits 2 (codePoint c)
  else if codePoint c < 0x10000 then '\\' :: 'u' :: hexDigits 4 (codePoint c)
  else '\\' :: 'U' :: hexDigits 8 (codePoint c)

def enclosingQuote (cs : List Char) : Char :=
  if cs.contains '\'' && !cs.contains '"' then '"' else '\''

def quotedChars (cs : List Char) : List Char :=
  let quote := enclosingQuote cs
  quote :: cs.flatMap (escapedChar quote) ++ [quote]

def quoted (s : String) : String := String.ofList (quotedChars s.toList)

end Offside.Text
