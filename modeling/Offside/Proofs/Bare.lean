import Offside.Node

/-!
Trees without their places. Two trees are equal up to positions when they are the same bare tree.
-/

namespace Offside.Node

mutual
/-- The tree with every place forgotten. -/
def bare : Node → Node
  | hole => hole
  | literal _ v k => literal .unknown v k
  | identifier _ x => identifier .unknown x
  | unaryOp _ o a => unaryOp .unknown o a.bare
  | binaryOp _ o a b => binaryOp .unknown o a.bare b.bare
  | call _ f as => call .unknown f.bare (bareList as)
  | index _ t i => index .unknown t.bare i.bare
  | member _ t x => member .unknown t.bare x
  | listLiteral _ es => listLiteral .unknown (bareList es)
  | mapLiteral _ es => mapLiteral .unknown (barePairs es)
  | lambda _ ps b => lambda .unknown ps b.bare
  | exprStmt _ e => exprStmt .unknown e.bare
  | assign _ t v => assign .unknown t.bare v.bare
  | augAssign _ t o v => augAssign .unknown t.bare o v.bare
  | ifStmt _ bs e => ifStmt .unknown (bareBranches bs) (bareBody e)
  | whileStmt _ c b => whileStmt .unknown c.bare (bareList b)
  | forStmt _ x i b => forStmt .unknown x i.bare (bareList b)
  | functionDef _ x ps b => functionDef .unknown x ps (bareList b)
  | returnStmt _ v => returnStmt .unknown v.bare
  | breakStmt _ => breakStmt .unknown
  | continueStmt _ => continueStmt .unknown
  | passStmt _ => passStmt .unknown
  | delete _ t => delete .unknown t.bare
  | program _ b => program .unknown (bareList b)
def bareList : List Node → List Node
  | [] => []
  | a :: as => a.bare :: bareList as
def barePairs : List (Node × Node) → List (Node × Node)
  | [] => []
  | (a, b) :: es => (a.bare, b.bare) :: barePairs es
def bareBranches : List (Node × List Node) → List (Node × List Node)
  | [] => []
  | (a, b) :: bs => (a.bare, bareList b) :: bareBranches bs
def bareBody : Option (List Node) → Option (List Node)
  | none => none
  | some b => some (bareList b)
end

end Offside.Node
