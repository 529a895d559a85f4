import Offside.Reference.Error
import Offside.Reference.Grammar

/-!
From trees of the reference grammar to trees of the language, bottom up: each branch is built from
what its parts have become. Then what a text of the grammar must still not do: leave loops and
functions that are not there.
-/

namespace Offside.Reference

/-- What a tree becomes. -/
inductive Item where
  | token (t : Token)
  | node (n : Node)
  | names (xs : List String)
  | nodes (ns : List Node)
  | branch (condition : Node) (body : List Node)
  | otherwise (body : List Node)
  | entry (key value : Node)
  deriving Inhabited

abbrev Making := Except Problem

namespace Making

def invalid {α : Type} (f : ParseFault) (pos : Position) : Making α :=
  throw (.error ⟨.ofStatement f, pos⟩)

def misshapen {α : Type} : Making α := throw (.fault .misshapen)

end Making

open Making

namespace Item

def node? : Item → Making Node
  | node n => return n
  | _ => misshapen

def entry? : Item → Making (Node × Node)
  | entry key value => return (key, value)
  | _ => misshapen

def token? : Item → Making Token
  | token t => return t
  | _ => misshapen

end Item

def isAssignable : Node → Bool
  | .identifier .. | .index .. => true
  | _ => false

/-- The names of a list of parameters. Each stands for one argument. -/
def distinctNames (seen : List String) : List Token → Making (List String)
  | [] => return seen
  | t :: rest =>
    if seen.contains t.lexeme then invalid (.duplicateParameter t.lexeme) t.pos
    else distinctNames (seen ++ [t.lexeme]) rest

def integerLiteral (pos : Position) (t : Token) : Making Node :=
  match Number.readInteger? t.lexeme.toList with
  | some n => return .literal pos (.integer n) "Integer"
  | none => throw (.fault (.unreadable "integer" t.lexeme))

def floatLiteral (pos : Position) (t : Token) : Making Node :=
  match Number.readFloat? t.lexeme.toList with
  | some x => return .literal pos (.float x) "Float"
  | none => misshapen

/-- Adds the clauses behind the first branch of a conditional to it. -/
def joinClauses (pos : Position) (branches : List (Node × List Node))
    (elseBody : Option (List Node)) : List Item → Making Node
  | [] => return .ifStmt pos branches elseBody
  | .branch condition body :: rest =>
    joinClauses pos (branches ++ [(condition, body)]) elseBody rest
  | .otherwise body :: rest => joinClauses pos branches (some body) rest
  | _ => misshapen

def assignment (pos : Position) (target value : Node) (operator : Option String) : Making Node :=
  if isAssignable target then
    match operator with
    | none => return .assign pos target value
    | some op => return .augAssign pos target (op.take 1).toString value
  else invalid .notAssignable target.position

def deletion (pos : Position) (target : Node) : Making Node :=
  match target with
  | .index .. => return .delete pos target
  | _ => invalid .deleteNeedsIndex target.position

/-- The statement of a rule, by its parts. -/
def statementOf (pos : Position) : Label → List Item → Making Node
  | .exprStmt, [.node e] => return .exprStmt pos e
  | .assignStmt, [.node target, .node value] => assignment pos target value none
  | .augAssignStmt, [.node target, .token op, .node value] =>
    assignment pos target value (some op.lexeme)
  | .returnStmt, [] => return .returnStmt pos .hole
  | .returnStmt, [.node value] => return .returnStmt pos value
  | .breakStmt, [] => return .breakStmt pos
  | .continueStmt, [] => return .continueStmt pos
  | .passStmt, [] => return .passStmt pos
  | .delStmt, [.node target] => deletion pos target
  | .ifStmt, .node condition :: .nodes body :: clauses =>
    joinClauses pos [(condition, body)] none clauses
  | .whileStmt, [.node condition, .nodes body] => return .whileStmt pos condition body
  | .forStmt, [.token name, .node iterable, .nodes body] =>
    return .forStmt pos name.lexeme iterable body
  | .funcdef, [.token name, .nodes body] => return .functionDef pos name.lexeme [] body
  | .funcdef, [.token name, .names params, .nodes body] =>
    return .functionDef pos name.lexeme (params.map Json.string) body
  | _, _ => misshapen

/-- The expression of a rule, by its parts. -/
def expressionOf (pos : Position) : Label → List Item → Making Node
  | .lambdef, [.node body] => return .lambda pos [] body
  | .lambdef, [.names params, .node body] => return .lambda pos (params.map Json.string) body
  | .orOp, [.node a, .node b] => return .binaryOp pos "or" a b
  | .andOp, [.node a, .node b] => return .binaryOp pos "and" a b
  | .notOp, [.node a] => return .unaryOp pos "not" a
  | .binop, [.node a, .token op, .node b] => return .binaryOp op.pos op.lexeme a b
  | .inOp, [.node a, .node b] => return .binaryOp pos "in" a b
  | .notInOp, [.node a, .node b] => return .binaryOp pos "not in" a b
  | .neg, [.token _, .node a] => return .unaryOp pos "-" a
  | .call, [.node f] => return .call pos f []
  | .call, [.node f, .nodes args] => return .call pos f args
  | .index, [.node a, .node i] => return .index pos a i
  | .attribute, [.node a, .token name] => return .member pos a name.lexeme
  | .var, [.token t] => return .identifier pos t.lexeme
  | .integer, [.token t] => integerLiteral pos t
  | .floatLit, [.token t] => floatLiteral pos t
  | .string, [.token t] => return .literal pos (.string (stringValue t.lexeme)) "String"
  | .constTrue, [] => return .literal pos (.boolean true) "Boolean"
  | .constFalse, [] => return .literal pos (.boolean false) "Boolean"
  | .constNone, [] => return .literal pos .null "None"
  | .listLit, items => return .listLiteral pos (← items.mapM Item.node?)
  | .mapLit, items => return .mapLiteral pos (← items.mapM Item.entry?)
  | _, _ => misshapen

/-- What a branch becomes, by what its parts have become. -/
def build (pos : Position) (label : Label) (items : List Item) : Making Item :=
  match label with
  | .fileInput => return .node (.program Position.start (← items.mapM Item.node?))
  | .suite | .arguments => return .nodes (← items.mapM Item.node?)
  | .params => return .names (← distinctNames [] (← items.mapM Item.token?))
  | .elifClause =>
    match items with
    | [.node condition, .nodes body] => return .branch condition body
    | _ => misshapen
  | .elseClause =>
    match items with
    | [.nodes body] => return .otherwise body
    | _ => misshapen
  | .pair =>
    match items with
    | [.node key, .node value] => return .entry key value
    | _ => misshapen
  | .exprStmt | .assignStmt | .augAssignStmt | .returnStmt | .breakStmt | .continueStmt | .passStmt
  | .delStmt | .ifStmt | .whileStmt | .forStmt | .funcdef => .node <$> statementOf pos label items
  | _ => .node <$> expressionOf pos label items

mutual
def transform : Tree → Making Item
  | .token t => return .token t
  | .branch label pos children => do build pos label (← transformAll children)
def transformAll : List Tree → Making (List Item)
  | [] => return []
  | tree :: trees => do return (← transform tree) :: (← transformAll trees)
end

def misplaced (f : ParseFault) (p : Place) : GrammarError := ⟨.ofStatement f, p.position⟩

mutual
/-- `break` and `continue` outside loops and `return` outside functions. -/
def misplacedIn (inLoop inFunction : Bool) : Node → List GrammarError
  | .breakStmt p => if inLoop then [] else [misplaced (.outsideLoop "break") p]
  | .continueStmt p => if inLoop then [] else [misplaced (.outsideLoop "continue") p]
  | .returnStmt p _ => if inFunction then [] else [misplaced .outsideFunction p]
  | .ifStmt _ branches elseBody =>
    misplacedInBranches inLoop inFunction branches ++ misplacedInElse inLoop inFunction elseBody
  | .whileStmt _ _ body | .forStmt _ _ _ body => misplacedInAll true inFunction body
  | .functionDef _ _ _ body => misplacedInAll false true body
  | _ => []
def misplacedInAll (inLoop inFunction : Bool) : List Node → List GrammarError
  | [] => []
  | n :: ns => misplacedIn inLoop inFunction n ++ misplacedInAll inLoop inFunction ns
def misplacedInBranches (inLoop inFunction : Bool) :
    List (Node × List Node) → List GrammarError
  | [] => []
  | (_, body) :: rest =>
    misplacedInAll inLoop inFunction body ++ misplacedInBranches inLoop inFunction rest
def misplacedInElse (inLoop inFunction : Bool) : Option (List Node) → List GrammarError
  | none => []
  | some body => misplacedInAll inLoop inFunction body
end

end Offside.Reference
