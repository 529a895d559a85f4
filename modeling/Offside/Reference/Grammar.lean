import Offside.Token.Lexer

/-!
The reference grammar of the language, as data: rules over the classes of tokens, with the shape of
the trees that they give. Of what a rule covers, its tree keeps the tokens of a class with a name
and the trees of the rules below. A rule that is marked as inline gives way to its only part.
-/

namespace Offside

namespace Reference

/-- The classes of tokens. The words and marks that the grammar spells out have no name. -/
inductive Terminal where
  | keyword (text : String)
  | delimiter (text : String)
  | operator (text : String)
  | augmented
  | comparison
  | plus
  | minus
  | star
  | slash
  | percent
  | name
  | integer
  | float
  | string
  | newline
  | indent
  | dedent
  | stop
  deriving DecidableEq, Repr

namespace Terminal

def augmentedTexts : List String := ["+=", "-=", "*=", "/=", "%="]

def comparisonTexts : List String := ["==", "!=", "<=", ">=", "<", ">"]

def ofOperator (text : String) : Terminal :=
  if text ∈ augmentedTexts then .augmented
  else if text ∈ comparisonTexts then .comparison
  else if text = "+" then .plus
  else if text = "-" then .minus
  else if text = "*" then .star
  else if text = "/" then .slash
  else if text = "%" then .percent
  else .operator text

/-- Whether trees keep the tokens of the class: not those without a name, and not the layout. -/
def isKept : Terminal → Bool
  | keyword _ | delimiter _ | operator _ | newline | indent | dedent | stop => false
  | _ => true

end Terminal

/-- Names of rules and of alternatives. -/
inductive Label where
  | fileInput
  | stmt
  | simpleStmt
  | exprStmt
  | assignStmt
  | augAssignStmt
  | returnStmt
  | breakStmt
  | continueStmt
  | passStmt
  | delStmt
  | compoundStmt
  | ifStmt
  | elifClause
  | elseClause
  | whileStmt
  | forStmt
  | funcdef
  | params
  | suite
  | test
  | lambdef
  | orTest
  | andTest
  | notTest
  | comparison
  | arith
  | term
  | factor
  | suffixed
  | arguments
  | atom
  | pair
  | orOp
  | andOp
  | notOp
  | binop
  | inOp
  | notInOp
  | neg
  | call
  | index
  | attribute
  | var
  | integer
  | floatLit
  | string
  | constTrue
  | constFalse
  | constNone
  | listLit
  | mapLit
  deriving DecidableEq, Repr

/-- What a rule covers: tokens and other rules, one after another, one of several, perhaps, or any
number of times. -/
inductive Expansion where
  | token (t : Terminal)
  | rule (name : Label)
  | empty
  | both (a b : Expansion)
  | either (a b : Expansion)
  | many (a : Expansion)
  deriving Repr

namespace Expansion

def all : List Expansion → Expansion
  | [] => empty
  | [a] => a
  | a :: as => both a (all as)

def any : Expansion → List Expansion → Expansion
  | a, [] => a
  | a, b :: bs => either a (any b bs)

def optional (a : Expansion) : Expansion := either a empty

def oneOrMore (a : Expansion) : Expansion := both a (many a)

def keyword (text : String) : Expansion := token (.keyword text)

def mark (text : String) : Expansion := token (.delimiter text)

/-- One or more between commas. -/
def listed (a : Expansion) : Expansion := both a (many (both (mark ",") a))

end Expansion

/-- One of the alternatives of a rule. One with a label of its own is not inlined. -/
structure Alternative where
  body : Expansion
  label : Option Label := none
  deriving Repr

/-- A rule: whether it is marked as inline, and its alternatives. -/
structure Production where
  inline : Bool
  alternatives : List Alternative
  deriving Repr

namespace Production

open Expansion

def plain (body : Expansion) : Production := ⟨false, [{ body }]⟩

/-- One layer of binary operators: the next layer, or an operation on operands of both. -/
def layer (this next : Label) (operations : List (Expansion × Label)) : Production :=
  ⟨true, { body := rule next } :: operations.map fun (operator, label) =>
    ⟨all [rule this, operator, rule next], some label⟩⟩

end Production

open Expansion Production in
/-- The rules of the grammar. Those for expressions begin with the loosest. -/
def grammar : Label → Production
  | .fileInput => plain (many (either (token .newline) (rule .stmt)))
  | .stmt => ⟨true, [⟨rule .simpleStmt, none⟩, ⟨rule .compoundStmt, none⟩]⟩
  | .simpleStmt => ⟨true, [⟨both
      (any (rule .exprStmt) [rule .assignStmt, rule .augAssignStmt, rule .returnStmt,
        rule .breakStmt, rule .continueStmt, rule .passStmt, rule .delStmt])
      (token .newline), none⟩]⟩
  | .exprStmt => plain (rule .test)
  | .assignStmt => plain (all [rule .test, token (.operator "="), rule .test])
  | .augAssignStmt => plain (all [rule .test, token .augmented, rule .test])
  | .returnStmt => plain (both (keyword "return") (optional (rule .test)))
  | .breakStmt => plain (keyword "break")
  | .continueStmt => plain (keyword "continue")
  | .passStmt => plain (keyword "pass")
  | .delStmt => plain (both (keyword "del") (rule .test))
  | .compoundStmt => ⟨true,
      [⟨rule .ifStmt, none⟩, ⟨rule .whileStmt, none⟩, ⟨rule .forStmt, none⟩, ⟨rule .funcdef, none⟩]⟩
  | .ifStmt => plain (all [keyword "if", rule .test, rule .suite, many (rule .elifClause),
      optional (rule .elseClause)])
  | .elifClause => plain (all [keyword "elif", rule .test, rule .suite])
  | .elseClause => plain (both (keyword "else") (rule .suite))
  | .whileStmt => plain (all [keyword "while", rule .test, rule .suite])
  | .forStmt => plain (all [keyword "for", token .name, keyword "in", rule .test, rule .suite])
  | .funcdef => plain (all [keyword "def", token .name, mark "(", optional (rule .params), mark ")",
      rule .suite])
  | .params => plain (listed (token .name))
  | .suite => plain (all [mark ":", token .newline, token .indent, oneOrMore (rule .stmt),
      token .dedent])
  | .test => ⟨true, [⟨rule .orTest, none⟩, ⟨rule .lambdef, none⟩]⟩
  | .lambdef => plain (all [keyword "lambda", optional (rule .params), mark ":", rule .test])
  | .orTest => layer .orTest .andTest [(keyword "or", .orOp)]
  | .andTest => layer .andTest .notTest [(keyword "and", .andOp)]
  | .notTest => ⟨true, [⟨rule .comparison, none⟩,
      ⟨both (keyword "not") (rule .notTest), some .notOp⟩]⟩
  | .comparison => layer .comparison .arith [(token .comparison, .binop), (keyword "in", .inOp),
      (both (keyword "not") (keyword "in"), .notInOp)]
  | .arith => layer .arith .term [(token .plus, .binop), (token .minus, .binop)]
  | .term => layer .term .factor [(token .star, .binop), (token .slash, .binop),
      (token .percent, .binop)]
  | .factor => ⟨true, [⟨rule .suffixed, none⟩, ⟨both (token .minus) (rule .factor), some .neg⟩]⟩
  | .suffixed => ⟨true, [⟨rule .atom, none⟩,
      ⟨all [rule .suffixed, mark "(", optional (rule .arguments), mark ")"], some .call⟩,
      ⟨all [rule .suffixed, mark "[", rule .test, mark "]"], some .index⟩,
      ⟨all [rule .suffixed, mark ".", token .name], some .attribute⟩]⟩
  | .arguments => plain (both (listed (rule .test)) (optional (mark ",")))
  | .atom => ⟨true, [⟨token .name, some .var⟩, ⟨token .integer, some .integer⟩,
      ⟨token .float, some .floatLit⟩, ⟨token .string, some .string⟩,
      ⟨keyword "true", some .constTrue⟩, ⟨keyword "false", some .constFalse⟩,
      ⟨keyword "none", some .constNone⟩, ⟨all [mark "(", rule .test, mark ")"], none⟩,
      ⟨all [mark "[", optional (both (listed (rule .test)) (optional (mark ","))), mark "]"],
        some .listLit⟩,
      ⟨all [mark "\x7b", optional (both (listed (rule .pair)) (optional (mark ","))), mark "\x7d"],
        some .mapLit⟩]⟩
  | .pair => plain (all [rule .test, mark ":", rule .test])
  | _ => ⟨false, []⟩

end Reference

/-- The class of a token. -/
def Token.terminal (t : Token) : Reference.Terminal :=
  match t.kind with
  | .keyword => .keyword t.lexeme
  | .delimiter => .delimiter t.lexeme
  | .operator => .ofOperator t.lexeme
  | .identifier => .name
  | .integer => .integer
  | .float => .float
  | .string => .string
  | .newline => .newline
  | .indent => .indent
  | .dedent => .dedent
  | .stop => .stop

namespace Reference

/-- A tree of the grammar. A branch stands where what it covers begins. -/
inductive Tree where
  | token (t : Token)
  | branch (label : Label) (pos : Position) (children : List Tree)
  deriving Repr

/-- The tree of what an alternative covers. -/
def Alternative.tree (name : Label) (a : Alternative) (covered : List Token)
    (children : List Tree) : Tree :=
  let whole := Tree.branch (a.label.getD name) ((covered.head?.map (·.pos)).getD ⟨0, 0⟩) children
  match a.label, children with
  | none, [child] => if (grammar name).inline then child else whole
  | _, _ => whole

/-- These tokens are covered in full, with these trees for the parts that trees keep. -/
inductive Covers : Expansion → List Token → List Tree → Prop where
  | token {c : Terminal} {t : Token} : t.terminal = c →
      Covers (.token c) [t] (if c.isKept then [.token t] else [])
  | rule {name : Label} {a : Alternative} {ts : List Token} {children : List Tree} :
      a ∈ (grammar name).alternatives → Covers a.body ts children →
      Covers (.rule name) ts [a.tree name ts children]
  | empty : Covers .empty [] []
  | both {a b : Expansion} {ts us : List Token} {xs ys : List Tree} : Covers a ts xs →
      Covers b us ys → Covers (.both a b) (ts ++ us) (xs ++ ys)
  | left {a b : Expansion} {ts : List Token} {xs : List Tree} : Covers a ts xs →
      Covers (.either a b) ts xs
  | right {a b : Expansion} {ts : List Token} {xs : List Tree} : Covers b ts xs →
      Covers (.either a b) ts xs
  | done {a : Expansion} : Covers (.many a) [] []
  | more {a : Expansion} {ts us : List Token} {xs ys : List Tree} : Covers a ts xs →
      Covers (.many a) us ys → Covers (.many a) (ts ++ us) (xs ++ ys)

/-- A text of the grammar, in tokens, and its tree. -/
def Sentence (ts : List Token) (tree : Tree) : Prop := Covers (.rule .fileInput) ts [tree]

end Reference

end Offside
