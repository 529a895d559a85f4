import Offside.Position
import Offside.Json

/-!
Program trees. One type holds expressions and statements, since a tree read from a document may
put any node anywhere; the parsers build only sensible ones. `hole` stands where a document has
no node. For the same reason names, operators, kinds of literals and places are data of any sort;
those that the parsers give are texts and positions.
-/

namespace Offside

structure Place where
  line : Json
  column : Json
  deriving Inhabited

namespace Place

def ofPosition (p : Position) : Place := ⟨.integer p.line, .integer p.column⟩

instance : Coe Position Place := ⟨ofPosition⟩

def unknown : Place := ⟨.null, .null⟩

/-- A place without a line is as good as none. -/
def isKnown (p : Place) : Bool :=
  match p.line with
  | .null => false
  | _ => true

def position (p : Place) : Position :=
  match p.line, p.column with
  | .integer line, .integer column => ⟨line, column⟩
  | _, _ => .start

theorem position_ofPosition (p : Position) : (ofPosition p).position = p := rfl

def text (p : Place) : String := p.line.plain ++ ":" ++ p.column.plain

end Place

inductive Node where
  | hole
  | literal (pos : Place) (value kind : Json)
  | identifier (pos : Place) (name : Json)
  | unaryOp (pos : Place) (op : Json) (operand : Node)
  | binaryOp (pos : Place) (op : Json) (left right : Node)
  | call (pos : Place) (func : Node) (args : List Node)
  | index (pos : Place) (target index : Node)
  | member (pos : Place) (target : Node) (name : Json)
  | listLiteral (pos : Place) (elements : List Node)
  | mapLiteral (pos : Place) (entries : List (Node × Node))
  | lambda (pos : Place) (params : List Json) (body : Node)
  | exprStmt (pos : Place) (expr : Node)
  | assign (pos : Place) (target value : Node)
  | augAssign (pos : Place) (target : Node) (op : Json) (value : Node)
  | ifStmt (pos : Place) (branches : List (Node × List Node)) (elseBody : Option (List Node))
  | whileStmt (pos : Place) (condition : Node) (body : List Node)
  | forStmt (pos : Place) (name : Json) (iterable : Node) (body : List Node)
  | functionDef (pos : Place) (name : Json) (params : List Json) (body : List Node)
  | returnStmt (pos : Place) (value : Node)
  | breakStmt (pos : Place)
  | continueStmt (pos : Place)
  | passStmt (pos : Place)
  | delete (pos : Place) (target : Node)
  | program (pos : Place) (body : List Node)
  deriving Inhabited

namespace Node

def kindName : Node → String
  | hole => "NoneType"
  | literal .. => "Literal"
  | identifier .. => "Identifier"
  | unaryOp .. => "UnaryOp"
  | binaryOp .. => "BinaryOp"
  | call .. => "Call"
  | index .. => "Index"
  | member .. => "Attribute"
  | listLiteral .. => "ListLiteral"
  | mapLiteral .. => "MapLiteral"
  | lambda .. => "Lambda"
  | exprStmt .. => "ExprStmt"
  | assign .. => "Assign"
  | augAssign .. => "AugAssign"
  | ifStmt .. => "If"
  | whileStmt .. => "While"
  | forStmt .. => "For"
  | functionDef .. => "FunctionDef"
  | returnStmt .. => "Return"
  | breakStmt .. => "Break"
  | continueStmt .. => "Continue"
  | passStmt .. => "Pass"
  | delete .. => "Delete"
  | program .. => "Program"

/-- Where a node stands; a hole stands nowhere. -/
def pos? : Node → Option Place
  | hole => none
  | literal p .. | identifier p .. | unaryOp p .. | binaryOp p .. | call p .. | index p ..
  | member p .. | listLiteral p .. | mapLiteral p .. | lambda p .. | exprStmt p ..
  | assign p .. | augAssign p .. | ifStmt p .. | whileStmt p .. | forStmt p ..
  | functionDef p .. | returnStmt p .. | breakStmt p .. | continueStmt p .. | passStmt p ..
  | delete p .. | program p .. => some p

def pos (n : Node) : Place := n.pos?.getD .unknown

def position (n : Node) : Position := n.pos.position

mutual
/-- Equality of trees up to positions. -/
def same : Node → Node → Bool
  | hole, hole => true
  | literal _ v k, literal _ v' k' => v.same v' && k.same k'
  | identifier _ x, identifier _ x' => x.same x'
  | unaryOp _ o a, unaryOp _ o' a' => o.same o' && a.same a'
  | binaryOp _ o a b, binaryOp _ o' a' b' => o.same o' && a.same a' && b.same b'
  | call _ f as, call _ f' as' => f.same f' && sameList as as'
  | index _ t i, index _ t' i' => t.same t' && i.same i'
  | member _ t x, member _ t' x' => t.same t' && x.same x'
  | listLiteral _ es, listLiteral _ es' => sameList es es'
  | mapLiteral _ es, mapLiteral _ es' => samePairs es es'
  | lambda _ ps b, lambda _ ps' b' => Json.sameItems ps ps' && b.same b'
  | exprStmt _ e, exprStmt _ e' => e.same e'
  | assign _ t v, assign _ t' v' => t.same t' && v.same v'
  | augAssign _ t o v, augAssign _ t' o' v' => t.same t' && o.same o' && v.same v'
  | ifStmt _ bs e, ifStmt _ bs' e' => sameBranches bs bs' && sameBody e e'
  | whileStmt _ c b, whileStmt _ c' b' => c.same c' && sameList b b'
  | forStmt _ x i b, forStmt _ x' i' b' => x.same x' && i.same i' && sameList b b'
  | functionDef _ x ps b, functionDef _ x' ps' b' =>
    x.same x' && Json.sameItems ps ps' && sameList b b'
  | returnStmt _ v, returnStmt _ v' => v.same v'
  | breakStmt _, breakStmt _ => true
  | continueStmt _, continueStmt _ => true
  | passStmt _, passStmt _ => true
  | delete _ t, delete _ t' => t.same t'
  | program _ b, program _ b' => sameList b b'
  | _, _ => false
def sameList : List Node → List Node → Bool
  | [], [] => true
  | a :: as, b :: bs => a.same b && sameList as bs
  | _, _ => false
def samePairs : List (Node × Node) → List (Node × Node) → Bool
  | [], [] => true
  | (a, b) :: as, (a', b') :: bs => a.same a' && b.same b' && samePairs as bs
  | _, _ => false
def sameBranches : List (Node × List Node) → List (Node × List Node) → Bool
  | [], [] => true
  | (a, b) :: as, (a', b') :: bs => a.same a' && sameList b b' && sameBranches as bs
  | _, _ => false
def sameBody : Option (List Node) → Option (List Node) → Bool
  | none, none => true
  | some a, some b => sameList a b
  | _, _ => false
end

end Node

end Offside
