import Offside.Text.Digit
import Offside.Text.Quoted

/-!
The words of a command line. Flags stand anywhere among the arguments; those of one letter may
share a word, a long one may be cut short as far as it stays clear, and the word -- ends the flags.
-/

namespace Offside.Command

inductive Flag where
  | help
  | verbose
  | version
  | interactive
  | tokens
  | code
  | emitTree
  | tree
  | check
  deriving DecidableEq, Repr

/-- A word that could be several flags, a flag used wrongly, words that nothing takes, or nothing
to do. -/
inductive Misuse where
  | ambiguous (word : String) (readings : List String)
  | textMissing (f : Flag)
  | textUnwanted (f : Flag) (text : String)
  | rivals (f rival : Flag)
  | unrecognized (words : List String)
  | nothingToDo
  deriving DecidableEq, Repr

structure Request where
  verbosity : Nat
  interactive : Bool
  tokens : Bool
  code : Option String
  emitTree : Option String
  tree : Option String
  check : Option String
  program : Option String
  deriving DecidableEq, Repr

def Request.empty : Request := ⟨0, false, false, none, none, none, none, none⟩

namespace Flag

def all : List Flag :=
  [help, verbose, version, interactive, tokens, code, emitTree, tree, check]

def spellings : Flag → List String
  | help => ["-h", "--help"]
  | verbose => ["-v"]
  | version => ["--version"]
  | interactive => ["-i"]
  | tokens => ["--tokens"]
  | code => ["-c"]
  | emitTree => ["--emit-ast"]
  | tree => ["--ast"]
  | check => ["--check"]

def name (f : Flag) : String := "/".intercalate f.spellings

def spelled : List (String × Flag) := all.flatMap fun f => f.spellings.map (·, f)

def ofSpelling? (s : String) : Option Flag := (spelled.find? (·.1 == s)).map (·.2)

def takesText : Flag → Bool
  | code | emitTree | tree | check => true
  | _ => false

/-- The flags that cannot stand together with this one. -/
def rivals (f : Flag) : List Flag :=
  if f.takesText then [code, emitTree, tree, check].filter (· ≠ f) else []

/-- What the flag asks for; only those with a text use `text`. -/
def ask (f : Flag) (text : String) (r : Request) : Request :=
  match f with
  | help | version => r
  | verbose => { r with verbosity := r.verbosity + 1 }
  | interactive => { r with interactive := true }
  | tokens => { r with tokens := true }
  | code => { r with code := some text }
  | emitTree => { r with emitTree := some text }
  | tree => { r with tree := some text }
  | check => { r with check := some text }

end Flag

def Misuse.message : Misuse → String
  | ambiguous word readings =>
    "ambiguous option: " ++ word ++ " could match " ++ ", ".intercalate readings
  | textMissing f => "argument " ++ f.name ++ ": expected one argument"
  | textUnwanted f text =>
    "argument " ++ f.name ++ ": ignored explicit argument " ++ Text.quoted text
  | rivals f rival => "argument " ++ f.name ++ ": not allowed with argument " ++ rival.name
  | unrecognized words => "unrecognized arguments: " ++ " ".intercalate words
  | nothingToDo => "missing program file; or use -c, -i, --emit-ast, --ast or --check"

/-- A word by its form. A flag may have a text attached to it. -/
inductive Word where
  | plain (s : String)
  | divider
  | flag (f : Flag) (spelling : String) (attached : Option String)
  | unknown (s : String)
  deriving DecidableEq, Repr

namespace Word

/-- The parts before and after the first equals sign. -/
def splitAtEquals (s : List Char) : List Char × Option String :=
  let lead := s.takeWhile (· != '=')
  match s.drop lead.length with
  | [] => (lead, none)
  | _ :: text => (lead, some (String.ofList text))

/-- The spellings that a word may stand for, each with the text attached to it. -/
def readings : List Char → List (String × Flag × Option String)
  | '-' :: '-' :: rest =>
    let (lead, text) := splitAtEquals ('-' :: '-' :: rest)
    (Flag.spelled.filter fun e => lead.isPrefixOf e.1.toList).map fun e => (e.1, e.2, text)
  | '-' :: c :: rest =>
    (Flag.spelled.filter fun e => e.1.toList == ['-', c]).map fun e =>
      (e.1, e.2, some (String.ofList rest))
  | _ => []

/-- A minus sign and digits, with at most one point that has digits after it. -/
def isNegativeNumeral (s : List Char) : Bool :=
  match s with
  | '-' :: digits =>
    let digits := if digits.getLast? = some '\n' then digits.dropLast else digits
    let whole := digits.takeWhile Text.isDecimal
    match digits.drop whole.length with
    | [] => !whole.isEmpty
    | '.' :: fraction => !fraction.isEmpty && fraction.all Text.isDecimal
    | _ => false
  | _ => false

/-- The form of a word that is not the divider. A word with a blank in it, and a negative number,
are no unknown flags. -/
def ofText (s : String) : Except Misuse Word :=
  let cs := s.toList
  if cs.head? ≠ some '-' then .ok (.plain s)
  else match Flag.ofSpelling? s with
    | some f => .ok (.flag f s none)
    | none =>
      if cs.length = 1 then .ok (.plain s)
      else
        let (lead, text) := splitAtEquals cs
        match text, Flag.ofSpelling? (String.ofList lead) with
        | some text, some f => .ok (.flag f (String.ofList lead) (some text))
        | _, _ =>
          match readings cs with
          | [(spelling, f, text)] => .ok (.flag f spelling text)
          | [] =>
            if isNegativeNumeral cs || cs.contains ' ' then .ok (.plain s)
            else .ok (.unknown s)
          | several => .error (.ambiguous s (several.map (·.1)))

/-- The forms of the words; after the divider all are plain. -/
def ofTexts : List String → Except Misuse (List Word)
  | [] => .ok []
  | s :: rest =>
    if s = "--" then .ok (.divider :: rest.map .plain)
    else do
      let word ← ofText s
      return word :: (← ofTexts rest)

end Word

/-- Why the reading of a command line ends early: a flag asks for a text about the program, or a
misuse. -/
inductive Interruption where
  | help
  | version
  | misuse (m : Misuse)
  deriving DecidableEq, Repr

/-- The flags written in a word, all but the last without a text, and the text attached to the
last one. The letters after a flag that takes no text are flags themselves. -/
def cluster (f : Flag) (attached : List Char) : Except Misuse (List Flag × Flag × Option String) :=
  if f.takesText then .ok ([], f, some (String.ofList attached))
  else match attached with
    | [] => .error (.textUnwanted f "")
    | c :: rest =>
      match Flag.ofSpelling? (String.ofList ['-', c]) with
      | none => .error (.textUnwanted f (String.ofList (c :: rest)))
      | some g =>
        if rest.isEmpty then .ok ([f], g, none)
        else match cluster g rest with
          | .ok (flags, last, text) => .ok (f :: flags, last, text)
          | .error m => .error m

/-- The flags of a word. Only flags of one letter share a word. -/
def flagsOf (f : Flag) (spelling : String) :
    Option String → Except Misuse (List Flag × Flag × Option String)
  | none => .ok ([], f, none)
  | some text =>
    if f.takesText || spelling.length = 2 then cluster f text.toList
    else .error (.textUnwanted f text)

/-- A command line in part: what it has asked for, whether the place of the program file is taken,
the flags that have rivals, and the words that nothing takes. -/
structure Reading where
  request : Request
  taken : Bool
  seen : List Flag
  surplus : List String

namespace Reading

def empty : Reading := ⟨.empty, false, [], []⟩

/-- Acts on a flag; a text that is the divider counts as empty. -/
def act (r : Reading) (f : Flag) (text : String) : Except Interruption Reading :=
  match f.rivals.find? r.seen.contains with
  | some rival => .error (.misuse (.rivals f rival))
  | none =>
    match f with
    | .help => .error .help
    | .version => .error .version
    | f =>
      .ok { r with
        request := f.ask (if text = "--" then "" else text) r.request
        seen := f :: r.seen }

def actAll (r : Reading) : List Flag → Except Interruption Reading
  | [] => .ok r
  | f :: fs =>
    match r.act f "" with
    | .ok r => r.actAll fs
    | .error i => .error i

def take (r : Reading) (program : Option String) : Reading :=
  { r with request := { r.request with program }, taken := true }

def leave (r : Reading) (s : String) : Reading := { r with surplus := r.surplus ++ [s] }

/-- Reads the words from left to right. The program file is the first plain word that no flag
takes, and a divider beside it goes with it. -/
def read : List Word → Reading → Except Interruption Reading
  | [], r => .ok r
  | .unknown s :: words, r => read words (r.leave s)
  | .plain s :: .divider :: words, r =>
    if r.taken then read words ((r.leave s).leave "--") else read words (r.take (some s))
  | .plain s :: words, r =>
    if r.taken then read words (r.leave s) else read words (r.take (some s))
  | .divider :: .plain s :: words, r =>
    if r.taken then read words ((r.leave "--").leave s) else read words (r.take (some s))
  | .divider :: words, r =>
    if r.taken then read words (r.leave "--") else read words (r.take none)
  | .flag f spelling attached :: words, r =>
    match flagsOf f spelling attached with
    | .error m => .error (.misuse m)
    | .ok (flags, last, text) =>
      if last.takesText then
        match text, words with
        | some text, words => do read words (← (← r.actAll flags).act last text)
        | none, .plain text :: words => do read words (← (← r.actAll flags).act last text)
        | none, _ => .error (.misuse (.textMissing last))
      else do read words (← (← r.actAll flags).act last "")

end Reading

def Request.ofTexts (args : List String) : Except Interruption Request :=
  match Word.ofTexts args with
  | .error m => .error (.misuse m)
  | .ok words =>
    match Reading.read words .empty with
    | .error i => .error i
    | .ok r =>
      if r.surplus.isEmpty then .ok r.request else .error (.misuse (.unrecognized r.surplus))

end Offside.Command
