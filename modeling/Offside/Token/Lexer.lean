import Offside.Token
import Offside.Text.Digit

/-!
From source text to tokens. Block structure is recovered from leading blanks: a stack of widths
is compared with the width of every logical line, and the changes become INDENT and DEDENT
tokens. Line breaks inside brackets do not end a logical line. The first malformed piece of text
ends the reading with a `LexError`.
-/

namespace Offside

inductive LexFault where
  | unknownCharacter (c : Char)
  | unterminatedString
  | inconsistentDedent (width : Nat)
  deriving DecidableEq, Repr

structure LexError where
  fault : LexFault
  pos : Position
  deriving DecidableEq, Repr

def LexFault.kind : LexFault → String
  | .unknownCharacter _ => "UnknownCharacter"
  | .unterminatedString => "UnterminatedString"
  | .inconsistentDedent _ => "InconsistentDedent"

def LexFault.message : LexFault → String
  | .unknownCharacter c => "unexpected character " ++ Text.quoted (String.singleton c)
  | .unterminatedString => "unterminated string literal"
  | .inconsistentDedent width =>
    "unindent to width " ++ toString width ++ " does not match any outer indentation level"

def LexError.text (e : LexError) : String :=
  e.pos.text ++ ": " ++ e.fault.kind ++ ": " ++ e.fault.message

namespace Lexer

def tabWidth : Nat := 4

def isIndentation (c : Char) : Bool := c == ' ' || c == '\t'

def width (cs : List Char) : Nat :=
  cs.foldr (fun c n => (if c = '\t' then tabWidth else 1) + n) 0

def isSpace (c : Char) : Bool := c == ' ' || c == '\t' || c == '\r' || c == '\x0c'

/-- Where the reading stands. `indents` holds the open widths, innermost first, above the
implicit outermost width 0; `depth` counts the open brackets; `tokens` is the output, last
token first. -/
structure Scan where
  rest : List Char
  pos : Position
  indents : List Nat
  depth : Nat
  lineStart : Bool
  tokens : List Token
  deriving DecidableEq, Repr

def Scan.start (cs : List Char) : Scan := ⟨cs, .start, [], 0, true, []⟩

/-- Passes over the text `taken`, which leaves `rest`. -/
def Scan.passOver (s : Scan) (taken rest : List Char) : Scan :=
  { s with rest := rest, pos := s.pos.after taken }

def Scan.take (s : Scan) (kind : TokenKind) (taken rest : List Char) : Scan :=
  { s.passOver taken rest with tokens := ⟨kind, String.ofList taken, s.pos⟩ :: s.tokens }

def Scan.mark (s : Scan) (kind : TokenKind) : Scan :=
  { s with tokens := ⟨kind, "", s.pos⟩ :: s.tokens }

/-- Closes every level wider than `width`, one DEDENT each. -/
def Scan.closeTo (width : Nat) : List Nat → Scan → Scan
  | [], s => { s with indents := [] }
  | w :: outer, s =>
    if width < w then Scan.closeTo width outer (s.mark .dedent)
    else { s with indents := w :: outer }

/-- Compares the width of a logical line with the open levels. -/
def Scan.indentTo (s : Scan) (width : Nat) : Except LexError Scan :=
  let top := s.indents.headD 0
  if top < width then .ok ({ s with indents := width :: s.indents }.mark .indent)
  else
    let closed := Scan.closeTo width s.indents s
    if closed.indents.headD 0 = width then .ok closed
    else .error ⟨.inconsistentDedent width, s.pos⟩

def isLineEnd (c : Char) : Bool := c == '\n'

def Scan.skipComment (s : Scan) : Scan :=
  s.passOver (s.rest.takeWhile (!isLineEnd ·)) (s.rest.dropWhile (!isLineEnd ·))

/-- A line that holds nothing, or only a comment, leaves no trace. -/
def Scan.skipLine (s : Scan) : Scan :=
  let s := s.skipComment
  match s.rest with
  | [] => s
  | c :: rest => s.passOver [c] rest

def Scan.stepLineStart (s : Scan) : Except LexError Scan :=
  let lead := s.rest.takeWhile isIndentation
  let s := s.passOver lead (s.rest.dropWhile isIndentation)
  match s.rest with
  | [] => .ok s
  | c :: _ =>
    if c = '\r' ∨ c = '\n' ∨ c = '#' then .ok s.skipLine
    else { s with lineStart := false }.indentTo (width lead)

/-- Splits a string body after its closing quote; none if the line or the text ends first. -/
def splitString (quote : Char) : List Char → Option (List Char × List Char)
  | [] => none
  | '\\' :: c :: rest =>
    if c = '\n' then none
    else (splitString quote rest).map fun (body, after) => ('\\' :: c :: body, after)
  | c :: rest =>
    if c = '\n' ∨ c = '\\' then none
    else if c = quote then some ([c], rest)
    else (splitString quote rest).map fun (body, after) => (c :: body, after)

/-- Splits a number: digits, then perhaps a point and more digits. -/
def splitNumber (cs : List Char) : TokenKind × List Char × List Char :=
  let whole := cs.takeWhile Text.isDigit
  match cs.dropWhile Text.isDigit with
  | '.' :: d :: rest =>
    if Text.isDigit d then
      (.float, whole ++ '.' :: d :: rest.takeWhile Text.isDigit, rest.dropWhile Text.isDigit)
    else (.integer, whole, '.' :: d :: rest)
  | rest => (.integer, whole, rest)

def wordKind (word : List Char) : TokenKind :=
  if keywords.contains (String.ofList word) then .keyword else .identifier

/-- The bracket depth after a delimiter; a closing bracket without a partner counts for nothing. -/
def depthAfter (depth : Nat) (c : Char) : Nat :=
  if openBrackets.contains c then depth + 1
  else if closeBrackets.contains c then depth - 1
  else depth

/-- Reads one token, or passes over blanks, inside a line that starts with `c`. -/
def Scan.stepInLine (s : Scan) (c : Char) (rest : List Char) : Except LexError Scan :=
  if c = '\n' then
    if s.depth = 0 then .ok { s.take .newline [c] rest with lineStart := true }
    else .ok (s.passOver [c] rest)
  else if isSpace c then .ok (s.passOver [c] rest)
  else if c = '#' then .ok s.skipComment
  else if Text.isLetter c ∨ c = '_' then
    let word := c :: rest.takeWhile Text.isWordChar
    .ok (s.take (wordKind word) word (rest.dropWhile Text.isWordChar))
  else if Text.isDigit c then
    let (kind, number, after) := splitNumber (c :: rest)
    .ok (s.take kind number after)
  else if c = '"' ∨ c = '\'' then
    match splitString c rest with
    | some (body, after) => .ok (s.take .string (c :: body) after)
    | none => .error ⟨.unterminatedString, s.pos⟩
  else match operators.find? (·.isPrefixOf (c :: rest)) with
    | some op => .ok (s.take .operator op ((c :: rest).drop op.length))
    | none =>
      if delimiters.contains c then
        .ok { s.take .delimiter [c] rest with depth := depthAfter s.depth c }
      else .error ⟨.unknownCharacter c, s.pos⟩

/-- One step of the reading; nothing happens at the end of the text. -/
def Scan.step (s : Scan) : Except LexError Scan :=
  if s.lineStart then s.stepLineStart
  else match s.rest with
    | [] => .ok s
    | c :: rest => s.stepInLine c rest

def Scan.run : Nat → Scan → Except LexError Scan
  | 0, s => .ok s
  | fuel + 1, s =>
    if s.rest.isEmpty then .ok s
    else match s.step with
      | .ok s' => Scan.run fuel s'
      | .error e => .error e

/-- Ends an open line, closes every level and marks the end. An open bracket leaves its line
open. -/
def Scan.finish (s : Scan) : List Token :=
  let needsNewline : Bool := match s.tokens with
    | [] => false
    | last :: _ => s.depth == 0 && last.kind != .newline
  let s := if needsNewline then s.mark .newline else s
  let s := s.indents.foldl (fun s _ => s.mark .dedent) s
  (s.mark .stop).tokens.reverse

end Lexer

/-- Reads a source text. A step takes a character or settles a line's indentation, which bounds
their number. -/
def tokenize (source : String) : Except LexError (List Token) :=
  let cs := source.toList
  match (Lexer.Scan.start cs).run (2 * cs.length + 1) with
  | .ok s => .ok s.finish
  | .error e => .error e

/-- The character an escape stands for; an unknown one stands for itself. -/
def escapedValue (c : Char) : Char :=
  if c = 'n' then '\n' else if c = 't' then '\t' else if c = 'r' then '\r'
  else if c = '0' then '\x00' else c

/-- Resolves the escapes of a string body. A backslash at the very end stays. -/
def unescape : List Char → List Char
  | [] => []
  | '\\' :: c :: rest => escapedValue c :: unescape rest
  | c :: rest => c :: unescape rest

/-- The text denoted by a quoted lexeme. -/
def stringValue (lexeme : String) : String :=
  String.ofList (unescape (lexeme.toList.drop 1).dropLast)

end Offside
