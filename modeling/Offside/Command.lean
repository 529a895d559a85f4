import Offside.Command.Arguments
import Offside.Command.Entry
import Offside.Interpreter
import Offside.Reference

/-!
The command. It runs a program from a file, from its arguments or from a document, shows the tokens
or writes the tree of one, checks one against the reference grammar, or holds an interactive
session. Whatever it reads and writes is part of the world. The parser that is generated from the
grammar is handed to it.
-/

namespace Offside

namespace Command

inductive Ending where
  /-- What is wrong has been reported. -/
  | failed
  | misused (m : Misuse)
  | faulted (f : Fault)
  /-- More steps than any run takes were not enough. -/
  | starved
  deriving Repr

def versionText : String := "ZPy 0.1.0"

def usageText : String :=
  "usage: zpy [-h] [-v] [--version] [-i] [--tokens]\n" ++
  "           [-c CODE | --emit-ast ZPY_FILE | --ast AST_JSON_FILE | --check ZPY_FILE]\n" ++
  "           [program]\n"

def helpText : String :=
  usageText ++ "\n" ++
  "ZPy language interpreter\n" ++ "\n" ++
  "positional arguments:\n" ++
  "  program              ZPy program file (.zpy) to execute\n" ++ "\n" ++
  "options:\n" ++
  "  -h, --help           show this help message and exit\n" ++
  "  -v                   increase debug verbosity (can be repeated)\n" ++
  "  --version            show program's version number and exit\n" ++
  "  -i                   start an interactive session\n" ++
  "  --tokens             print tokens instead of running\n" ++
  "  -c CODE              program passed in as a string\n" ++
  "  --emit-ast ZPY_FILE  emit AST JSON for the given .zpy file\n" ++
  "  --ast AST_JSON_FILE  execute AST from a JSON file\n" ++
  "  --check ZPY_FILE     cross-check the parser against the reference grammar\n"

def Misuse.report (m : Misuse) : String := "zpy: error: " ++ m.message

abbrev Job := EStateM Ending World

abbrev Session := EStateM Ending State

/-- A text that names something: an empty one is as good as none. -/
def named? (text : Option String) : Option String := text.filter (!·.isEmpty)

def tidyPath (path : String) : String := String.ofList (Path.tidy path.toList)

namespace Job

def print (line : String) : Job Unit := modify (·.print (line ++ "\n"))

def printError (line : String) : Job Unit := modify (·.printError (line ++ "\n"))

def fault {α : Type} (f : Fault) : Job α := throw (.faulted f)

def need {α : Type} : Option α → Job α
  | some a => pure a
  | none => throw .failed

/-- The text of a file. A path that leads nowhere is reported. -/
def readFile (path : String) : Job String := do
  let disk := (← get).disk
  match disk.resolve path with
  | .error .noEntry | .error .notADirectory | .error .nullCharacter =>
    printError ("Error: file " ++ path ++ " not found")
    throw .failed
  | .error e => fault (.system e (some path))
  | .ok _ =>
    match disk.read path with
    | .error e => fault (.system e (some path))
    | .ok bytes =>
      match Text.readText bytes with
      | .ok text => return text
      | .error e => fault (.encoding e)

def writeFile (path text : String) : Job Unit := do
  match (← get).disk.write path text.toUTF8 with
  | .ok disk => modify fun w => { w with disk }
  | .error e => fault (.system e (some path))

/-- The program that a source denotes; what is wrong with it is reported. -/
def parse (source : String) : Job (Option Node) := do
  match parseProgram source with
  | .ok program => return some program
  | .error (.fault f) => fault f
  | .error (.lex e) =>
    printError ("Lex error: " ++ e.text)
    return none
  | .error (.parse errors) =>
    errors.forM fun e => printError ("Parse error: " ++ e.text)
    return none

def tokenLine (t : Token) : String :=
  t.pos.text ++ "\t" ++ t.kind.name ++ "\t" ++ Text.quoted t.lexeme

def showTokens (source : String) : Job Unit := do
  match tokenize source with
  | .ok tokens => tokens.forM fun t => print (tokenLine t)
  | .error e =>
    printError ("Lex error: " ++ e.text)
    throw .failed

def emitTree (path : String) : Job Unit := do
  let program ← need (← parse (← readFile path))
  let target := path ++ ".ast.json"
  writeFile target (program.toJson.render (some 2))
  print target

/-- Compares the trees that both front ends find in a source. -/
def check (lark : Reference.Lark) (source : String) : Job Unit := do
  let program ← need (← parse source)
  match Reference.parse lark source with
  | .error (.fault f) => fault f
  | .error (.errors es) =>
    es.forM fun e => printError ("Parse error (grammar): " ++ e.text)
    throw .failed
  | .ok tree =>
    if !tree.same program then
      printError "Error: parser and reference grammar disagree"
      throw .failed
    match program with
    | .program _ body => print ("OK: " ++ toString body.length ++ " statements")
    | _ => return

/-- Integers with more digits than this are not read. -/
def longestInteger : Nat := 4300

def readTree (path : String) : Job Node := do
  match Json.parse (← readFile path) (some longestInteger) with
  | .error e =>
    match e.fault with
    | .longInteger digits => fault (.longInteger digits)
    | _ => fault (.json e)
  | .ok j =>
    match Node.ofJson j with
    | .ok tree => return tree
    | .error e => fault (.document e)

end Job

namespace Session

def doing {α : Type} (job : Job α) : Session α := fun s =>
  match job s.world with
  | .ok a world => .ok a { s with world }
  | .error e world => .error e { s with world }

/-- Runs something; an error of the language is reported. -/
def attempt {α : Type} (act : Run α) : Session (Option α) := fun s =>
  match act s with
  | .ok a s => .ok (some a) s
  | .error (.error e) s =>
    (do doing (Job.printError ("Runtime error: " ++ e.text)); return none : Session _) s
  | .error (.fault f) s => .error (.faulted f) s
  | .error .starved s => .error .starved s

def runProgram (settings : Settings) (program : Node) : Session (Option Unit) :=
  attempt (Interpreter.run settings Interpreter.plenty program Interpreter.ownScope)

/-- Runs a source, and answers whether it ran without an error. -/
def runSource (settings : Settings) (source : String) : Session Bool := do
  match ← doing (Job.parse source) with
  | none => return false
  | some program => return (← runProgram settings program).isSome

/-- Shows the value of an expression unless it is none. -/
def showValue (settings : Settings) (expr : Node) : Session Unit := do
  let value ← attempt (Evaluator.evaluate settings Interpreter.plenty expr Interpreter.ownScope)
  match value with
  | none | some .none => return
  | some v => doing (Job.print ((← get).world.heap.display v))

/-- Answers an entry: an expression alone is shown, anything else is run. -/
def answer (settings : Settings) (source : String) : Session Unit := do
  if source.toList.all Text.isBlank then return
  match ← doing (Job.parse source) with
  | none => return
  | some (.program _ [.exprStmt _ expr]) => showValue settings expr
  | some program => do let _ ← runProgram settings program

/-- Answers one entry after another until the input ends. -/
def answerAll (settings : Settings) : Nat → Session Unit
  | 0 => return
  | fuel + 1 => do
    let entry ← modifyGet fun s =>
      let (entry, world) := readEntry s.world
      (entry, { s with world })
    match entry with
    | none => doing (Job.print "")
    | some source => do
      answer settings source
      answerAll settings fuel

/-- An interactive session. Every entry takes a line of the input at least. -/
def interact (settings : Settings) : Session Unit := do
  doing (Job.print (versionText ++ " interactive mode. Press Ctrl-D to exit."))
  answerAll settings ((← get).world.input.length + 2)

/-- Runs a source, or shows its tokens. In an interactive session errors do not matter. -/
def start (settings : Settings) (request : Request) (source : String) : Session Unit := do
  if request.tokens then doing (Job.showTokens source)
  else if !(← runSource settings source) && !request.interactive then throw .failed

def serve (settings : Settings) (request : Request) : Session Unit := do
  if let some path := named? request.tree then
    let tree ← doing (Job.readTree (tidyPath path))
    if (← runProgram settings tree).isNone then throw .failed
  else
    let source ← match request.code, named? request.program with
      | some code, _ => pure (some code)
      | none, some path => some <$> doing (Job.readFile (tidyPath path))
      | none, none =>
        if request.interactive then pure none else throw (.misused .nothingToDo)
    if let some source := source then
      start settings request source
      if request.interactive && !request.tokens then interact settings
    else interact settings

end Session

def fulfil (lark : Reference.Lark) (request : Request) : Job Unit := do
  if let some path := named? request.emitTree then
    Job.emitTree (tidyPath path)
  else if let some path := named? request.check then
    Job.check lark (← Job.readFile (tidyPath path))
  else
    let settings : Settings := ⟨Library.standard, Interpreter.defaultDepth, request.verbosity⟩
    match Interpreter.start settings (← get) with
    | .error f => Job.fault f
    | .ok s =>
      match Session.serve settings request s with
      | .ok _ s => set s.world
      | .error e s => do
        set s.world
        throw e

def run (lark : Reference.Lark) (args : List String) : Job Unit := do
  match Request.ofTexts args with
  | .ok request => fulfil lark request
  | .error .help => modify (·.print helpText)
  | .error .version => Job.print versionText
  | .error (.misuse m) => throw (.misused m)

end Command

end Offside
