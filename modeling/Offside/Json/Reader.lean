import Offside.Json

/-!
Reading JSON text. The text is passed from left to right with the position of the next
character; the first defect is reported with its position. Besides standard JSON the words
`NaN`, `Infinity` and `-Infinity` are read as numbers.
-/

namespace Offside

inductive JsonFault where
  | value
  | propertyName
  | colon
  | comma
  | unterminatedString
  | controlCharacter
  | escape
  | unicodeEscape
  | extraData
  | byteOrderMark
  /-- An integer with more digits than the reader takes. -/
  | longInteger (digits : Nat)
  deriving DecidableEq, Repr

def JsonFault.message : JsonFault → String
  | .value => "Expecting value"
  | .propertyName => "Expecting property name enclosed in double quotes"
  | .colon => "Expecting ':' delimiter"
  | .comma => "Expecting ',' delimiter"
  | .unterminatedString => "Unterminated string starting at"
  | .controlCharacter => "Invalid control character at"
  | .escape => "Invalid \\escape"
  | .unicodeEscape => "Invalid \\uXXXX escape"
  | .extraData => "Extra data"
  | .byteOrderMark => "Unexpected UTF-8 BOM (decode using utf-8-sig)"
  | .longInteger digits =>
    "Exceeds the limit (4300 digits) for integer string conversion: value has " ++
      toString digits ++ " digits; use sys.set_int_max_str_digits() to increase the limit"

/-- A defect at an offset, with the line and column of that offset. -/
structure JsonError where
  fault : JsonFault
  offset : Nat
  line : Nat
  column : Nat
  deriving DecidableEq, Repr

def JsonError.text (e : JsonError) : String :=
  e.fault.message ++ ": line " ++ toString e.line ++ " column " ++ toString e.column ++
    " (char " ++ toString e.offset ++ ")"

namespace Json

/-- The rest of a text and the offset at which it starts. -/
structure Cursor where
  rest : List Char
  offset : Nat
  deriving DecidableEq, Repr

abbrev Reading (α : Type) := Except (JsonFault × Nat) (α × Cursor)

def Cursor.drop (c : Cursor) (n : Nat) : Cursor := ⟨c.rest.drop n, c.offset + n⟩

def isJsonBlank (c : Char) : Bool := c == ' ' || c == '\t' || c == '\n' || c == '\r'

def Cursor.skipBlanks (c : Cursor) : Cursor :=
  c.drop (c.rest.takeWhile isJsonBlank).length

def Cursor.word? (c : Cursor) (word : String) : Option Cursor :=
  if word.toList.isPrefixOf c.rest then some (c.drop word.length) else none

def hexValue? (c : Char) : Option Nat :=
  if c.isDigit then some (c.toNat - 0x30)
  else if 'a' ≤ c ∧ c ≤ 'f' then some (c.toNat - 0x57)
  else if 'A' ≤ c ∧ c ≤ 'F' then some (c.toNat - 0x37)
  else none

def hexNumber? (cs : List Char) : Option Nat :=
  cs.foldl (fun acc c => do return (← acc) * 16 + (← hexValue? c)) (some 0)

def simpleEscape? (c : Char) : Option Char :=
  if c = '"' ∨ c = '\\' ∨ c = '/' then some c
  else if c = 'b' then some '\x08'
  else if c = 'f' then some '\x0c'
  else if c = 'n' then some '\n'
  else if c = 'r' then some '\r'
  else if c = 't' then some '\t'
  else none

/-- Joins the halves of a surrogate pair. -/
def joinSurrogates (high low : Nat) : Nat := 0x10000 + (high - 0xD800) * 0x400 + (low - 0xDC00)

/-- Reads what follows `\u`, at the cursor: four digits, of which one more character has to follow,
and a second escape if the two form a surrogate pair. `offset` is that of the `u`. -/
def readUnicodeEscape (c : Cursor) : Reading Char :=
  if (c.rest.drop 4).isEmpty then .error (.unicodeEscape, c.offset - 1)
  else match hexNumber? (c.rest.take 4) with
    | none => .error (.unicodeEscape, c.offset - 1)
    | some high =>
      let after := c.drop 4
      if 0xD800 ≤ high ∧ high < 0xDC00 ∧ !(after.rest.drop 6).isEmpty
          ∧ ['\\', 'u'].isPrefixOf after.rest then
        match hexNumber? ((after.rest.drop 2).take 4) with
        | none => .error (.unicodeEscape, after.offset + 1)
        | some low =>
          if 0xDC00 ≤ low ∧ low < 0xE000 then
            .ok (Char.ofNat (joinSurrogates high low), after.drop 6)
          else .ok (Text.ofCodePoint high, after)
      else .ok (Text.ofCodePoint high, after)

/-- Reads a string whose opening quote stands at `start`; `read` holds its characters so far, last
one first. -/
def readString (start : Nat) : Nat → List Char → Cursor → Reading String
  | 0, _, _ => .error (.unterminatedString, start)
  | fuel + 1, read, c =>
    match c.rest with
    | [] => .error (.unterminatedString, start)
    | x :: rest =>
      if x = '"' then .ok (String.ofList read.reverse, c.drop 1)
      else if x = '\\' then
        match rest with
        | [] => .error (.unterminatedString, start)
        | e :: _ =>
          if e = 'u' then
            match readUnicodeEscape (c.drop 2) with
            | .ok (y, after) => readString start fuel (y :: read) after
            | .error err => .error err
          else match simpleEscape? e with
            | some y => readString start fuel (y :: read) (c.drop 2)
            | none => .error (.escape, c.offset)
      else if x.toNat < 0x20 then .error (.controlCharacter, c.offset)
      else readString start fuel (x :: read) (c.drop 1)

/-- The fraction at the start of a text: a point and at least one digit. -/
def fractionText : List Char → List Char
  | '.' :: rest =>
    let ds := rest.takeWhile Char.isDigit
    if ds.isEmpty then [] else '.' :: ds
  | _ => []

/-- The exponent at the start of a text: its mark, an optional sign, at least one digit. -/
def exponentText : List Char → List Char
  | e :: rest =>
    if e = 'e' ∨ e = 'E' then
      let (sign, more) := match rest with
        | '+' :: more => (['+'], more)
        | '-' :: more => (['-'], more)
        | more => ([], more)
      let ds := more.takeWhile Char.isDigit
      if ds.isEmpty then [] else e :: sign ++ ds
    else []
  | [] => []

/-- Reads a number; one with a fraction or an exponent is a float. An integer may have `limit`
digits, if there is a limit. -/
def readNumber (limit : Option Nat) (c : Cursor) : Reading Json :=
  let (sign, body) := match c.rest with
    | '-' :: rest => (['-'], rest)
    | rest => ([], rest)
  let whole := match body with
    | '0' :: _ => ['0']
    | body => body.takeWhile Char.isDigit
  if whole.isEmpty then .error (.value, c.offset)
  else
    let fraction := fractionText (body.drop whole.length)
    let exponent := exponentText (body.drop (whole.length + fraction.length))
    let text := sign ++ whole ++ fraction ++ exponent
    let after := c.drop text.length
    if fraction.isEmpty && exponent.isEmpty then
      if limit.any (· < whole.length) then .error (.longInteger whole.length, c.offset)
      else .ok (.integer ((Number.readInteger? text).getD 0), after)
    else .ok (.float ((Number.readFloat? text).getD 0), after)

def constants : List (String × Json) :=
  [("null", .null), ("true", .boolean true), ("false", .boolean false),
   ("NaN", .float Number.notANumber), ("Infinity", .float (Number.infinity false)),
   ("-Infinity", .float (Number.infinity true))]

def readConstant? (c : Cursor) : List (String × Json) → Option (Json × Cursor)
  | [] => none
  | (word, value) :: more =>
    match c.word? word with
    | some after => some (value, after)
    | none => readConstant? c more

mutual
def readValue (limit : Option Nat) : Nat → Cursor → Reading Json
  | 0, c => .error (.value, c.offset)
  | fuel + 1, c =>
    match c.rest with
    | [] => .error (.value, c.offset)
    | x :: _ =>
      if x = '"' then
        match readString c.offset fuel [] (c.drop 1) with
        | .ok (s, after) => .ok (.string s, after)
        | .error e => .error e
      else if x = '[' then
        let inside := (c.drop 1).skipBlanks
        match inside.rest with
        | ']' :: _ => .ok (.array [], inside.drop 1)
        | _ => readItems limit fuel [] inside
      else if x = '\x7b' then
        let inside := (c.drop 1).skipBlanks
        match inside.rest with
        | '\x7d' :: _ => .ok (.object [], inside.drop 1)
        | _ => readFields limit fuel [] inside
      else match readConstant? c constants with
        | some found => .ok found
        | none => readNumber limit c
/-- Reads the items of an array up to its closing bracket; `read` holds those before, last one
first. -/
def readItems (limit : Option Nat) : Nat → List Json → Cursor → Reading Json
  | 0, _, c => .error (.value, c.offset)
  | fuel + 1, read, c =>
    match readValue limit fuel c with
    | .error e => .error e
    | .ok (item, after) =>
      let after := after.skipBlanks
      match after.rest with
      | ']' :: _ => .ok (.array (item :: read).reverse, after.drop 1)
      | ',' :: _ => readItems limit fuel (item :: read) (after.drop 1).skipBlanks
      | _ => .error (.comma, after.offset)
/-- Reads the fields of an object up to its closing brace. A repeated key overwrites. -/
def readFields (limit : Option Nat) : Nat → List (String × Json) → Cursor → Reading Json
  | 0, _, c => .error (.value, c.offset)
  | fuel + 1, read, c =>
    match c.rest with
    | '"' :: _ =>
      match readString c.offset fuel [] (c.drop 1) with
      | .error e => .error e
      | .ok (key, after) =>
        let after := after.skipBlanks
        match after.rest with
        | ':' :: _ =>
          match readValue limit fuel (after.drop 1).skipBlanks with
          | .error e => .error e
          | .ok (value, after) =>
            let after := after.skipBlanks
            let read := setField read key value
            match after.rest with
            | '\x7d' :: _ => .ok (.object read, after.drop 1)
            | ',' :: _ => readFields limit fuel read (after.drop 1).skipBlanks
            | _ => .error (.comma, after.offset)
        | _ => .error (.colon, after.offset)
    | _ => .error (.propertyName, c.offset)
end

def locate (cs : List Char) (fault : JsonFault) (offset : Nat) : JsonError :=
  let before := cs.take offset
  { fault, offset
    line := before.count '\n' + 1
    column := (before.reverse.takeWhile (· != '\n')).length + 1 }

/-- Reads a text that holds one value and blanks around it; integers may be limited in length. -/
def parse (text : String) (limit : Option Nat := none) : Except JsonError Json :=
  let cs := text.toList
  match cs with
  | '\ufeff' :: _ => .error (locate cs .byteOrderMark 0)
  | _ =>
    match readValue limit (2 * cs.length + 2) (Cursor.skipBlanks ⟨cs, 0⟩) with
    | .error (fault, offset) => .error (locate cs fault offset)
    | .ok (value, after) =>
      let after := after.skipBlanks
      if after.rest.isEmpty then .ok value else .error (locate cs .extraData after.offset)

end Json

end Offside
