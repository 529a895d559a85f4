import Offside.Reference.Grammar

/-!
How a text is cut into tokens for the reference grammar. There is no fixed vocabulary: a token is
looked for among the terminals that are legal where the parser stands. Of those that match, the one
with the highest priority is taken, then the one that can be longest, then the longer text. A text
of the grammar that a legal name could be is read as a name first, and is a keyword where that is
legal too. Line ends are legal everywhere. Outside of brackets one is followed by the changes of
indentation that its blanks bring about, and inside it is passed over.
-/

namespace Offside.Reference

/-- What is legal behind these terminals. -/
abbrev Legality := List Terminal → Terminal → Bool

def isSpace (c : Char) : Bool := c == ' ' || c == '\t' || c == '\x0c' || c == '\r'

def isIndentation (c : Char) : Bool := c == ' ' || c == '\t'

/-! ### Line ends -/

/-- The line end at the start of a text: line breaks, each with the blanks after it, and comments.
`inComment` and `inBlanks` say what stands before the text. -/
def lineEndText (inComment inBlanks : Bool) : List Char → List Char
  | [] => []
  | '\r' :: '\n' :: rest => '\r' :: '\n' :: lineEndText false true rest
  | c :: rest =>
    if c = '\n' then c :: lineEndText false true rest
    else if inComment || c == '#' then c :: lineEndText true false rest
    else if inBlanks && isIndentation c then c :: lineEndText false true rest
    else []

/-- The width of the blanks after the last line break. -/
def lastWidth (taken : List Char) : Nat :=
  Lexer.width (taken.reverse.takeWhile (· != '\n'))

def startsLineEnd : List Char → Bool
  | '\r' :: '\n' :: _ => true
  | c :: _ => c == '\n' || c == '#'
  | [] => false

/-- The open widths that are not greater than `width`. -/
def openWidths (width : Nat) (indents : List Nat) : List Nat :=
  indents.dropWhile (width < ·)

/-! ### Tokens within a line -/

/-- A letter or an underscore, or whatever else is part of a word and no digit, and then the rest of
the word. -/
def nameText? : List Char → Option (List Char)
  | c :: rest =>
    if Text.isWordChar c && !Text.isDecimal c then some (c :: rest.takeWhile Text.isWordChar)
    else none
  | [] => none

def integerText? (cs : List Char) : Option (List Char) :=
  let digits := cs.takeWhile Text.isDecimal
  if digits.isEmpty then none else some digits

/-- Digits, a point and more digits. -/
def floatText? (cs : List Char) : Option (List Char) := do
  let whole ← integerText? cs
  match cs.drop whole.length with
  | '.' :: rest =>
    let places ← integerText? rest
    return whole ++ '.' :: places
  | _ => none

def stringText? : List Char → Option (List Char)
  | c :: rest =>
    if c = '"' ∨ c = '\'' then (Lexer.splitString c rest).map fun (body, _) => c :: body else none
  | [] => none

/-- The words that the grammar spells out, none before a longer one. -/
def spelledWords : List String :=
  ["continue", "return", "lambda", "break", "while", "false", "pass", "elif", "else", "true",
   "none", "for", "def", "del", "and", "not", "if", "in", "or"]

/-- The marks of the grammar with their terminals, none before a longer one. -/
def spelledMarks : List (Terminal × String) :=
  Terminal.augmentedTexts.map (.augmented, ·) ++ Terminal.comparisonTexts.map (.comparison, ·) ++
    [(.plus, "+"), (.minus, "-"), (.star, "*"), (.slash, "/"), (.percent, "%"),
     (.operator "=", "=")] ++
    delimiters.map fun d => (.delimiter (String.singleton d), String.singleton d)

/-- The first of these texts that is legal and begins what is left. -/
def spelled? (legal : Terminal → Bool) (texts : List (Terminal × String)) (cs : List Char) :
    Option (Terminal × String) :=
  texts.find? fun (c, text) => legal c && text.toList.isPrefixOf cs

def Terminal.markKind : Terminal → TokenKind
  | .delimiter _ => .delimiter
  | _ => .operator

/-- The kind and the text of the token at the start of a text. -/
def scanWord? (legal : Terminal → Bool) (cs : List Char) : Option (TokenKind × List Char) :=
  let among (c : Terminal) (kind : TokenKind) (text? : List Char → Option (List Char)) :=
    if legal c then (text? cs).map (kind, ·) else none
  let name := (if legal .name then nameText? cs else none).map fun word =>
    let text := String.ofList word
    (if spelledWords.contains text && legal (.keyword text) then .keyword else .identifier, word)
  let keyword := if legal .name then none else
    (spelled? legal (spelledWords.map fun w => (.keyword w, w)) cs).map fun w =>
      (TokenKind.keyword, w.2.toList)
  let mark := (spelled? legal spelledMarks cs).map fun m => (m.1.markKind, m.2.toList)
  among .float .float floatText? <|> name <|> among .integer .integer integerText? <|>
    among .string .string stringText? <|> keyword <|> mark

/-! ### The whole text -/

/-- What is left of a text; `indents` are the open widths above 0, innermost first. -/
structure Scanner where
  rest : List Char
  pos : Position
  indents : List Nat
  brackets : Nat
  deriving Repr

namespace Scanner

def start (cs : List Char) : Scanner := ⟨cs, .start, [], 0⟩

def skip (s : Scanner) (taken : List Char) : Scanner :=
  { s with rest := s.rest.drop taken.length, pos := s.pos.after taken }

/-- Behind a token within a line, which may be a bracket. -/
def pass (s : Scanner) (kind : TokenKind) (taken : List Char) : Scanner :=
  let brackets :=
    match kind, taken with
    | .delimiter, [c] => Lexer.depthAfter s.brackets c
    | _, _ => s.brackets
  { s.skip taken with brackets }

/-- The tokens of a line end: a NEWLINE and the changes of indentation behind it. There are none if
the next line stands at no open level. -/
def lineEnd? (s : Scanner) (taken : List Char) : Option (List Token × Scanner) :=
  let width := lastWidth taken
  let newline : Token := ⟨.newline, String.ofList taken, s.pos⟩
  let outer := openWidths width s.indents
  if s.indents.headD 0 < width then
    some ([newline, ⟨.indent, "", s.pos⟩], { s.skip taken with indents := width :: s.indents })
  else if outer.headD 0 = width then
    some (newline :: List.replicate (s.indents.length - outer.length) ⟨.dedent, "", s.pos⟩,
      { s.skip taken with indents := outer })
  else none

/-- The tokens that are read and all that are left, if the text can be cut into any. -/
def tokens (legal : Legality) : Nat → Scanner → List Token → Option (List Token)
  | 0, _, _ => none
  | fuel + 1, s, read =>
    match s.rest with
    | [] => some (read ++ s.indents.map fun _ => ⟨.dedent, "", s.pos⟩)
    | c :: _ =>
      if startsLineEnd s.rest then
        let taken := lineEndText false false s.rest
        if s.brackets = 0 then do
          let (new, s) ← s.lineEnd? taken
          tokens legal fuel s (read ++ new)
        else tokens legal fuel (s.skip taken) read
      else if isSpace c then tokens legal fuel (s.skip (s.rest.takeWhile isSpace)) read
      else do
        let (kind, taken) ← scanWord? (legal (read.map Token.terminal)) s.rest
        tokens legal fuel (s.pass kind taken) (read ++ [⟨kind, String.ofList taken, s.pos⟩])

end Scanner

/-- The tokens of a text. Every step takes a character. -/
def scan (legal : Legality) (text : String) : Option (List Token) :=
  (Scanner.start text.toList).tokens legal (text.toList.length + 1) []

end Offside.Reference
