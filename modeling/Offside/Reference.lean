import Offside.Parser
import Offside.Reference.Scanner
import Offside.Reference.Transformer

/-!
The reference grammar as a second front end. The parser that is generated from the grammar is a
parameter: it is the lark package's, and only what it documents is known of it. Where both front
ends accept a text they should give the same tree.
-/

namespace Offside.Reference

/-- The generated parser: a text to a tree of the grammar. -/
abbrev Lark := String → Except LarkError Tree

/-- What is documented of the generated parser, for one text. It is an LALR(1) parser with a
contextual lexer, so that a terminal is legal wherever a text of the grammar can go on with it,
whatever else the tables allow there; it accepts the texts whose tokens the grammar covers, and
gives a tree of them. -/
structure Documented (lark : Lark) (legal : Legality) (text : String) : Prop where
  viable : ∀ {read rest : List Token} {next : Token} {tree : Tree},
    Sentence (read ++ next :: rest) tree → legal (read.map Token.terminal) next.terminal = true
  sound : ∀ {tree : Tree}, lark text = .ok tree →
    ∃ ts, scan legal text = some ts ∧ Sentence ts tree
  complete : ∀ {ts : List Token} {tree : Tree}, scan legal text = some ts → Sentence ts tree →
    ∃ tree', lark text = .ok tree'

inductive Refused where
  | errors (es : List GrammarError)
  | fault (f : Fault)
  deriving Repr

/-- Where the lexer finds the fault behind an uneven dedent. -/
def dedentPosition (source : String) : Position :=
  match tokenize source with
  | .error e => e.pos
  | .ok _ => ⟨0, 0⟩

/-- A place that is not known is 0:0. -/
def knownPosition (p : Position) : Position :=
  ⟨if p.line = -1 then 0 else p.line, if p.column = -1 then 0 else p.column⟩

def LarkError.report (source : String) : LarkError → GrammarError
  | .dedent message => ⟨.unevenDedent message, dedentPosition source⟩
  | .token terminal text expected pos =>
    ⟨.unexpectedToken terminal text expected, knownPosition pos⟩
  | .character c pos => ⟨.unexpectedCharacter c, pos⟩
  | .input pos => ⟨.unexpectedEnd, pos⟩

/-- The program of a tree, unless a statement of it is misplaced. -/
def programOf : Item → Except Refused Node
  | .node (.program p body) =>
    match misplacedInAll false false body with
    | [] => .ok (.program p body)
    | es => .error (.errors es)
  | _ => .error (.fault .misshapen)

/-- The program that a text denotes, with a line break added to the text. -/
def parse (lark : Lark) (source : String) : Except Refused Node :=
  match lark (source ++ "\n") with
  | .error e => .error (.errors [e.report source])
  | .ok tree =>
    match transform tree with
    | .error (.error e) => .error (.errors [e])
    | .error (.fault f) => .error (.fault f)
    | .ok item => programOf item

end Offside.Reference
