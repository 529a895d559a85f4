import Offside.Node
import Offside.Json.Reader

/-!
Program trees as JSON documents. Every node is an object tagged with its kind under `__node__`
and carrying its position, so that a tree survives the way out and back. Reading reports the
first thing it misses, field by field in the order of the constructor's arguments.
-/

namespace Offside

/-- Why a document is not that of a tree, or a tree has no document. -/
inductive DocumentError where
  | notANode
  | unknownKind (text : String)
  | missingField (name : String)
  | notIterable (kind : String)
  | notUnpackable (kind : String)
  | tooFewParts (got : Nat)
  | tooManyParts
  | invalidInteger (text : String)
  /-- A literal of kind Integer that is no number cannot be written. -/
  | noMagnitude (type : String)
  /-- A literal of kind Integer that is infinite cannot be written. -/
  | infiniteInteger
  deriving DecidableEq, Repr

namespace Json

/-- The parts of a datum that can be gone through: items, keys or characters. -/
def parts? : Json → Option (List Json)
  | .array items => some items
  | .object fields => some (fields.map fun f => .string f.1)
  | .string s => some (s.toList.map fun c => .string (String.singleton c))
  | _ => none

end Json

def DocumentError.message : DocumentError → String
  | .notANode => "Invalid AST object"
  | .unknownKind text => "Unknown AST node type: " ++ text
  | .missingField name => Text.quoted name
  | .notIterable kind => "'" ++ kind ++ "' object is not iterable"
  | .notUnpackable kind => "cannot unpack non-iterable " ++ kind ++ " object"
  | .tooFewParts got =>
    "not enough values to unpack (expected 2, got " ++ toString got ++ ")"
  | .tooManyParts => "too many values to unpack (expected 2)"
  | .invalidInteger text => "invalid Integer literal " ++ Text.quoted text
  | .noMagnitude type => "bad operand type for abs(): '" ++ type ++ "'"
  | .infiniteInteger => "int too large to convert to float"

namespace Node

/-- Integers from here on are written as text. -/
def longInteger : Nat := 10 ^ 1000

def tagged (n : Node) (fields : List (String × Json)) : Json :=
  .object (("__node__", .string n.kindName) :: ("line", n.pos.line) ::
    ("column", n.pos.column) :: fields)

def literalDatum (kind value : Json) : Json :=
  match value with
  | .integer n =>
    if kind.isText "Integer" && longInteger ≤ n.natAbs then .string (Number.numeral n) else value
  | _ => value

mutual
def toJson : Node → Json
  | hole => .null
  | literal p v k =>
    tagged (literal p v k) [("value", literalDatum k v), ("literal_type", k)]
  | identifier p x => tagged (identifier p x) [("name", x)]
  | unaryOp p o a => tagged (unaryOp p o a) [("op", o), ("operand", a.toJson)]
  | binaryOp p o a b =>
    tagged (binaryOp p o a b) [("op", o), ("left", a.toJson), ("right", b.toJson)]
  | call p f as => tagged (call p f as) [("func", f.toJson), ("args", .array (listToJson as))]
  | index p t i => tagged (index p t i) [("target", t.toJson), ("index", i.toJson)]
  | member p t x => tagged (member p t x) [("target", t.toJson), ("name", x)]
  | listLiteral p es => tagged (listLiteral p es) [("elements", .array (listToJson es))]
  | mapLiteral p es => tagged (mapLiteral p es) [("entries", .array (pairsToJson es))]
  | lambda p ps b => tagged (lambda p ps b) [("params", .array ps), ("body", b.toJson)]
  | exprStmt p e => tagged (exprStmt p e) [("expr", e.toJson)]
  | assign p t v => tagged (assign p t v) [("target", t.toJson), ("value", v.toJson)]
  | augAssign p t o v =>
    tagged (augAssign p t o v) [("target", t.toJson), ("op", o), ("value", v.toJson)]
  | ifStmt p bs e =>
    tagged (ifStmt p bs e)
      [("branches", .array (branchesToJson bs)), ("else_body", bodyToJson e)]
  | whileStmt p c b =>
    tagged (whileStmt p c b) [("condition", c.toJson), ("body", .array (listToJson b))]
  | forStmt p x i b =>
    tagged (forStmt p x i b)
      [("name", x), ("iterable", i.toJson), ("body", .array (listToJson b))]
  | functionDef p x ps b =>
    tagged (functionDef p x ps b)
      [("name", x), ("params", .array ps), ("body", .array (listToJson b))]
  | returnStmt p v => tagged (returnStmt p v) [("value", v.toJson)]
  | breakStmt p => tagged (breakStmt p) []
  | continueStmt p => tagged (continueStmt p) []
  | passStmt p => tagged (passStmt p) []
  | delete p t => tagged (delete p t) [("target", t.toJson)]
  | program p b => tagged (program p b) [("body", .array (listToJson b))]
def listToJson : List Node → List Json
  | [] => []
  | n :: ns => n.toJson :: listToJson ns
def pairsToJson : List (Node × Node) → List Json
  | [] => []
  | (a, b) :: ps => .array [a.toJson, b.toJson] :: pairsToJson ps
def branchesToJson : List (Node × List Node) → List Json
  | [] => []
  | (c, b) :: bs => .array [c.toJson, .array (listToJson b)] :: branchesToJson bs
def bodyToJson : Option (List Node) → Json
  | none => .null
  | some b => .array (listToJson b)
end

mutual
/-- The literals of a tree from left to right, each with its kind. -/
def literals : Node → List (Json × Json)
  | literal _ v k => [(k, v)]
  | unaryOp _ _ a => a.literals
  | binaryOp _ _ a b => a.literals ++ b.literals
  | call _ f as => f.literals ++ listLiterals as
  | index _ t i => t.literals ++ i.literals
  | member _ t _ => t.literals
  | listLiteral _ es => listLiterals es
  | mapLiteral _ es => pairLiterals es
  | lambda _ _ b => b.literals
  | exprStmt _ e => e.literals
  | assign _ t v => t.literals ++ v.literals
  | augAssign _ t _ v => t.literals ++ v.literals
  | ifStmt _ bs e => branchLiterals bs ++ bodyLiterals e
  | whileStmt _ c b => c.literals ++ listLiterals b
  | forStmt _ _ i b => i.literals ++ listLiterals b
  | functionDef _ _ _ b => listLiterals b
  | returnStmt _ v => v.literals
  | delete _ t => t.literals
  | program _ b => listLiterals b
  | hole | identifier .. | breakStmt _ | continueStmt _ | passStmt _ => []
def listLiterals : List Node → List (Json × Json)
  | [] => []
  | n :: ns => n.literals ++ listLiterals ns
def pairLiterals : List (Node × Node) → List (Json × Json)
  | [] => []
  | (a, b) :: ps => a.literals ++ b.literals ++ pairLiterals ps
def branchLiterals : List (Node × List Node) → List (Json × Json)
  | [] => []
  | (c, b) :: bs => c.literals ++ listLiterals b ++ branchLiterals bs
def bodyLiterals : Option (List Node) → List (Json × Json)
  | none => []
  | some b => listLiterals b
end

/-- What keeps a literal of the given kind and value from being written. -/
def literalDefect? (kind value : Json) : Option DocumentError :=
  if kind.isText "Integer" then
    match value with
    | .float x => if Number.isInfinite x then some .infiniteInteger else none
    | .integer _ | .boolean _ => none
    | value => some (.noMagnitude value.typeName)
  else none

/-- The document of a tree, if every literal can be written. -/
def toDocument (n : Node) : Except DocumentError Json :=
  match n.literals.findSome? fun (kind, value) => literalDefect? kind value with
  | some e => .error e
  | none => .ok n.toJson

abbrev Reading (α : Type) := Except DocumentError α

def need (j : Json) (name : String) : Reading Json :=
  match j.field? name with
  | some v => .ok v
  | none => .error (.missingField name)

def partsOf (j : Json) : Reading (List Json) :=
  match j.parts? with
  | some parts => .ok parts
  | none => .error (.notIterable j.typeName)

def needParts (j : Json) (name : String) : Reading (List Json) := do
  partsOf (← need j name)

def pairOf (j : Json) : Reading (Json × Json) :=
  match j.parts? with
  | none => .error (.notUnpackable j.typeName)
  | some [a, b] => .ok (a, b)
  | some parts =>
    if parts.length < 2 then .error (.tooFewParts parts.length) else .error .tooManyParts

/-- A coordinate is zero unless the document gives one. -/
def coordinate (j : Json) (name : String) : Json := (j.field? name).getD (.integer 0)

def literalValue (kind value : Json) : Reading Json :=
  match value with
  | .string s =>
    if kind.isText "Integer" then
      match Number.readInteger? s.toList with
      | some n => .ok (.integer n)
      | none => .error (.invalidInteger s)
    else .ok value
  | _ => .ok value

def readTree : Nat → Json → Reading Node
  | _, .null => .ok hole
  | 0, _ => .error .notANode
  | fuel + 1, j => do
    let kind ← match j.field? "__node__" with
      | some kind => .ok kind
      | none => .error .notANode
    let child (name : String) : Reading Node := do readTree fuel (← need j name)
    let children (name : String) : Reading (List Node) := do
      (← needParts j name).mapM (readTree fuel)
    let p : Place := ⟨coordinate j "line", coordinate j "column"⟩
    match kind with
    | .string "Program" => return program p (← children "body")
    | .string "ExprStmt" => return exprStmt p (← child "expr")
    | .string "Assign" => return assign p (← child "target") (← child "value")
    | .string "AugAssign" =>
      return augAssign p (← child "target") (← need j "op") (← child "value")
    | .string "If" =>
      let branches ← (← needParts j "branches").mapM fun b => do
        let (condition, body) ← pairOf b
        return (← readTree fuel condition, ← (← partsOf body).mapM (readTree fuel))
      let elseBody ← match j.field? "else_body" with
        | none | some .null => pure none
        | some body => some <$> (do (← partsOf body).mapM (readTree fuel))
      return ifStmt p branches elseBody
    | .string "While" => return whileStmt p (← child "condition") (← children "body")
    | .string "For" =>
      return forStmt p (← need j "name") (← child "iterable") (← children "body")
    | .string "FunctionDef" =>
      return functionDef p (← need j "name") (← needParts j "params") (← children "body")
    | .string "Return" =>
      return returnStmt p (← readTree fuel ((j.field? "value").getD .null))
    | .string "Break" => return breakStmt p
    | .string "Continue" => return continueStmt p
    | .string "Pass" => return passStmt p
    | .string "Delete" => return delete p (← child "target")
    | .string "Literal" =>
      let value ← need j "value"
      let kind ← need j "literal_type"
      return literal p (← literalValue kind value) kind
    | .string "Identifier" => return identifier p (← need j "name")
    | .string "UnaryOp" => return unaryOp p (← need j "op") (← child "operand")
    | .string "BinaryOp" =>
      return binaryOp p (← need j "op") (← child "left") (← child "right")
    | .string "Call" => return call p (← child "func") (← children "args")
    | .string "Index" => return index p (← child "target") (← child "index")
    | .string "Attribute" => return member p (← child "target") (← need j "name")
    | .string "ListLiteral" => return listLiteral p (← children "elements")
    | .string "MapLiteral" =>
      let entries ← (← needParts j "entries").mapM fun e => do
        let (key, value) ← pairOf e
        return (← readTree fuel key, ← readTree fuel value)
      return mapLiteral p entries
    | .string "Lambda" => return lambda p (← needParts j "params") (← child "body")
    | kind => .error (.unknownKind kind.plain)

/-- Reads a tree; a level of the tree takes a level of the document. -/
def ofJson (j : Json) : Reading Node := readTree (j.depth + 1) j

end Node

end Offside
