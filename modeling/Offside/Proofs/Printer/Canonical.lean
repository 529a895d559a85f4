import Offside.Proofs.Lexer.Layout
import Offside.Value

/-!
The canonical text of a program: one statement a line, every operand in parentheses and Strings as
values show them.
-/

namespace Offside

namespace Printer

open Lexer

def keyword (lexeme : String) : Piece := .word ⟨.keyword, lexeme⟩

def operator (lexeme : String) : Piece := .word ⟨.operator, lexeme⟩

def delimiter (lexeme : String) : Piece := .word ⟨.delimiter, lexeme⟩

/-- The text of what is a text in every program that was parsed. -/
def textOf : Json → String
  | .string s => s
  | _ => ""

def name (x : Json) : Piece := .word ⟨.identifier, textOf x⟩

def literal : Json → Piece
  | .integer n => .word ⟨.integer, Number.numeral n⟩
  | .string s => .word ⟨.string, Value.quotedString s⟩
  | .boolean b => keyword (if b then "true" else "false")
  | _ => keyword "none"

/-- An operator of one word or, for `not in`, of two. -/
def operation (op : String) : List Piece :=
  if op = "not in" then [keyword "not", .blank, keyword "in"]
  else if op ∈ ["or", "and", "in", "not"] then [keyword op]
  else [operator op]

def bracketed (opening closing : String) (ps : List Piece) : List Piece :=
  delimiter opening :: (ps ++ [delimiter closing])

def parens (ps : List Piece) : List Piece := bracketed "(" ")" ps

def separated : List (List Piece) → List Piece
  | [] => []
  | [ps] => ps
  | ps :: qs :: rest => ps ++ delimiter "," :: .blank :: separated (qs :: rest)

def entry (key value : List Piece) : List Piece := key ++ delimiter ":" :: .blank :: value

mutual
/-- The pieces of an expression. -/
def pieces : Node → List Piece
  | .literal _ v _ => [literal v]
  | .identifier _ x => [name x]
  | .unaryOp _ op a => operation (textOf op) ++ parens (pieces a)
  | .binaryOp _ op a b =>
    parens (pieces a) ++ .blank :: (operation (textOf op) ++ .blank :: parens (pieces b))
  | .call _ f as => parens (pieces f) ++ bracketed "(" ")" (separated (piecesAll as))
  | .index _ t i => parens (pieces t) ++ bracketed "[" "]" (pieces i)
  | .member _ t x => parens (pieces t) ++ [delimiter ".", name x]
  | .listLiteral _ es => bracketed "[" "]" (separated (piecesAll es))
  | .mapLiteral _ es => bracketed "\x7b" "\x7d" (separated (piecesPairs es))
  | .lambda _ ps b =>
    keyword "lambda" :: .blank :: (separated (ps.map fun x => [name x]) ++
      delimiter ":" :: .blank :: pieces b)
  | _ => []
def piecesAll : List Node → List (List Piece)
  | [] => []
  | e :: es => pieces e :: piecesAll es
def piecesPairs : List (Node × Node) → List (List Piece)
  | [] => []
  | (k, e) :: es => entry (pieces k) (pieces e) :: piecesPairs es
end

def header (lexeme : String) (e : Node) : List Piece :=
  keyword lexeme :: .blank :: (pieces e ++ [delimiter ":"])

def assigned (op : String) (target value : List Piece) : List Piece :=
  target ++ .blank :: operator op :: .blank :: value

mutual
/-- The layout of a statement; every branch of an `if` has a block of its own. -/
def layout : Node → List Layout
  | .exprStmt _ e => [.line (pieces e)]
  | .assign _ t v => [.line (assigned "=" (pieces t) (pieces v))]
  | .augAssign _ t op v => [.line (assigned (textOf op ++ "=") (pieces t) (pieces v))]
  | .ifStmt _ bs e => branches "if" bs ++ elseBranch e
  | .whileStmt _ c b => [.block (header "while" c) (layoutAll b)]
  | .forStmt _ x i b =>
    [.block (keyword "for" :: .blank :: name x :: .blank :: header "in" i) (layoutAll b)]
  | .functionDef _ x ps b =>
    [.block (keyword "def" :: .blank :: name x ::
      (bracketed "(" ")" (separated (ps.map fun x => [name x])) ++ [delimiter ":"])) (layoutAll b)]
  | .returnStmt _ .hole => [.line [keyword "return"]]
  | .returnStmt _ v => [.line (keyword "return" :: .blank :: pieces v)]
  | .breakStmt _ => [.line [keyword "break"]]
  | .continueStmt _ => [.line [keyword "continue"]]
  | .passStmt _ => [.line [keyword "pass"]]
  | .delete _ t => [.line (keyword "del" :: .blank :: pieces t)]
  | _ => []
def layoutAll : List Node → List Layout
  | [] => []
  | s :: ss => layout s ++ layoutAll ss
def branches (lexeme : String) : List (Node × List Node) → List Layout
  | [] => []
  | (c, b) :: bs => .block (header lexeme c) (layoutAll b) :: branches "elif" bs
def elseBranch : Option (List Node) → List Layout
  | none => []
  | some b => [.block [keyword "else", delimiter ":"] (layoutAll b)]
end

/-- The text of a program, indented by `width` for every block. -/
def source (width : Nat) : Node → String
  | .program _ b => Layout.source width (layoutAll b)
  | _ => ""

end Printer

/-! ### Well formed programs -/

/-- A name that is spelled as one and is no keyword. -/
def IsName (x : String) : Prop :=
  ∃ c cs, x.toList = c :: cs ∧ (Text.isLetter c = true ∨ c = '_') ∧
    (∀ d ∈ cs, Text.isWordChar d = true) ∧ x ∉ keywords

def comparisons : List String := ["==", "!=", "<=", ">=", "<", ">"]

def binaryOperators : List String :=
  ["or", "and", "in", "not in"] ++ comparisons ++ ["+", "-"] ++ ["*", "/", "%"]

namespace Node

/-- The expressions of the language, but for numbers with a point. -/
inductive Expression : Node → Prop where
  | integer {p : Place} {n : Nat} : Expression (.literal p (.integer n) "Integer")
  | string {p : Place} {s : String} : Expression (.literal p (.string s) "String")
  | boolean {p : Place} {b : Bool} : Expression (.literal p (.boolean b) "Boolean")
  | null {p : Place} : Expression (.literal p .null "None")
  | identifier {p : Place} {x : String} : IsName x → Expression (.identifier p x)
  | unaryOp {p : Place} {op : String} {a : Node} : op ∈ ["-", "not"] → Expression a →
      Expression (.unaryOp p op a)
  | binaryOp {p : Place} {op : String} {a b : Node} : op ∈ binaryOperators → Expression a →
      Expression b → Expression (.binaryOp p op a b)
  | call {p : Place} {f : Node} {as : List Node} : Expression f → (∀ a ∈ as, Expression a) →
      Expression (.call p f as)
  | index {p : Place} {t i : Node} : Expression t → Expression i → Expression (.index p t i)
  | member {p : Place} {t : Node} {x : String} : Expression t → IsName x →
      Expression (.member p t x)
  | listLiteral {p : Place} {es : List Node} : (∀ e ∈ es, Expression e) →
      Expression (.listLiteral p es)
  | mapLiteral {p : Place} {es : List (Node × Node)} : (∀ e ∈ es, Expression e.1) →
      (∀ e ∈ es, Expression e.2) → Expression (.mapLiteral p es)
  | lambda {p : Place} {xs : List String} {b : Node} : (∀ x ∈ xs, IsName x) → xs.Nodup →
      Expression b → Expression (.lambda p (xs.map Json.string) b)

/-- The statements of the language, where its loops and functions allow them. -/
inductive Statement : Parser.Context → Node → Prop where
  | exprStmt {context : Parser.Context} {p : Place} {e : Node} : Expression e →
      Statement context (.exprStmt p e)
  | assign {context : Parser.Context} {p : Place} {t v : Node} : Expression t →
      Parser.isAssignable t = true → Expression v → Statement context (.assign p t v)
  | augAssign {context : Parser.Context} {p : Place} {op : String} {t v : Node} : Expression t →
      Parser.isAssignable t = true → op ∈ ["+", "-", "*", "/", "%"] → Expression v →
      Statement context (.augAssign p t op v)
  | ifStmt {context : Parser.Context} {p : Place} {bs : List (Node × List Node)}
      {e : Option (List Node)} : bs ≠ [] → (∀ b ∈ bs, Expression b.1) → (∀ b ∈ bs, b.2 ≠ []) →
      (∀ b ∈ bs, ∀ s ∈ b.2, Statement context s) → (∀ b ∈ e, b ≠ []) →
      (∀ b ∈ e, ∀ s ∈ b, Statement context s) → Statement context (.ifStmt p bs e)
  | whileStmt {context : Parser.Context} {p : Place} {c : Node} {b : List Node} : Expression c →
      b ≠ [] → (∀ s ∈ b, Statement { context with inLoop := true } s) →
      Statement context (.whileStmt p c b)
  | forStmt {context : Parser.Context} {p : Place} {x : String} {i : Node} {b : List Node} :
      IsName x → Expression i → b ≠ [] → (∀ s ∈ b, Statement { context with inLoop := true } s) →
      Statement context (.forStmt p x i b)
  | functionDef {context : Parser.Context} {p : Place} {x : String} {xs : List String}
      {b : List Node} : IsName x → (∀ x ∈ xs, IsName x) → xs.Nodup → b ≠ [] →
      (∀ s ∈ b, Statement ⟨false, true⟩ s) →
      Statement context (.functionDef p x (xs.map Json.string) b)
  | returnNone {context : Parser.Context} {p : Place} : context.inFunction = true →
      Statement context (.returnStmt p .hole)
  | returnStmt {context : Parser.Context} {p : Place} {v : Node} : context.inFunction = true →
      Expression v → Statement context (.returnStmt p v)
  | breakStmt {context : Parser.Context} {p : Place} : context.inLoop = true →
      Statement context (.breakStmt p)
  | continueStmt {context : Parser.Context} {p : Place} : context.inLoop = true →
      Statement context (.continueStmt p)
  | passStmt {context : Parser.Context} {p : Place} : Statement context (.passStmt p)
  | delete {context : Parser.Context} {p q : Place} {t i : Node} : Expression (.index q t i) →
      Statement context (.delete p (.index q t i))

/-- A program of well formed statements. -/
def WellFormed (n : Node) : Prop :=
  ∃ p b, n = .program p b ∧ ∀ s ∈ b, Statement ⟨false, false⟩ s

end Node

end Offside
