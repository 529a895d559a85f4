import Offside.Parser
import Offside.Proofs.Bare

/-!
The grammar of expressions, one layer for each level of binding, as derivations over tokens.
A derivation yields the tree of what it derives, without places.
-/

namespace Offside

open Number

def IsDigits (cs : List Char) : Prop := cs ≠ [] ∧ ∀ c ∈ cs, c.isDigit = true

/-- The form of the tokens that the lexer emits, for numbers without digits beyond ASCII. -/
def Token.Shaped (t : Token) : Prop :=
  match t.kind with
  | .keyword => t.lexeme ∈ keywords
  | .identifier => t.lexeme ∉ keywords
  | .operator => t.lexeme.toList ∈ operators
  | .integer => IsDigits t.lexeme.toList
  | .float => ∃ ds fs, t.lexeme.toList = ds ++ '.' :: fs ∧ IsDigits ds ∧ IsDigits fs
  | _ => True

namespace Grammar

/-- The layers of expressions, loosest first. -/
inductive Symbol where
  | test
  | lambdef
  | orTest
  | andTest
  | notTest
  | comparison
  | arith
  | term
  | factor
  | suffixed
  | atom
  deriving DecidableEq, Repr

inductive Symbol.Includes : Symbol → Symbol → Prop where
  | lambdef : Includes .test .lambdef
  | orTest : Includes .test .orTest
  | andTest : Includes .orTest .andTest
  | notTest : Includes .andTest .notTest
  | comparison : Includes .notTest .comparison
  | arith : Includes .comparison .arith
  | term : Includes .arith .term
  | factor : Includes .term .factor
  | suffixed : Includes .factor .suffixed
  | atom : Includes .suffixed .atom

/-- The binary operators of a layer, and the layer of their right operands. -/
inductive Operator : Symbol → List Token → String → Symbol → Prop where
  | or {t : Token} : t.is .keyword "or" → Operator .orTest [t] "or" .andTest
  | and {t : Token} : t.is .keyword "and" → Operator .andTest [t] "and" .notTest
  | compare {t : Token} : t.kind = .operator → t.lexeme ∈ ["==", "!=", "<=", ">=", "<", ">"] →
      Operator .comparison [t] t.lexeme .arith
  | within {t : Token} : t.is .keyword "in" → Operator .comparison [t] "in" .arith
  | without {t u : Token} : t.is .keyword "not" → u.is .keyword "in" →
      Operator .comparison [t, u] "not in" .arith
  | sum {t : Token} : t.kind = .operator → t.lexeme ∈ ["+", "-"] →
      Operator .arith [t] t.lexeme .term
  | product {t : Token} : t.kind = .operator → t.lexeme ∈ ["*", "/", "%"] →
      Operator .term [t] t.lexeme .factor

inductive Leaf : Token → Node → Prop where
  | name {t : Token} : t.kind = .identifier → Leaf t (.identifier .unknown t.lexeme)
  | integer {t : Token} : t.kind = .integer → IsDigits t.lexeme.toList →
      Leaf t (.literal .unknown (.integer (ofDigits t.lexeme.toList)) "Integer")
  | float {t : Token} {ds fs : List Char} : t.kind = .float →
      t.lexeme.toList = ds ++ '.' :: fs → IsDigits ds → IsDigits fs →
      Leaf t (.literal .unknown (.float (Written.value false ⟨ds ++ fs, fs.length, 0⟩)) "Float")
  | string {t : Token} : t.kind = .string →
      Leaf t (.literal .unknown (.string (stringValue t.lexeme)) "String")
  | constTrue {t : Token} : t.is .keyword "true" →
      Leaf t (.literal .unknown (.boolean true) "Boolean")
  | constFalse {t : Token} : t.is .keyword "false" →
      Leaf t (.literal .unknown (.boolean false) "Boolean")
  | constNone {t : Token} : t.is .keyword "none" → Leaf t (.literal .unknown .null "None")

/-- Names between commas, perhaps with a comma after the last. -/
inductive Names : List Token → List String → Prop where
  | nil : Names [] []
  | last {t : Token} : t.kind = .identifier → Names [t] [t.lexeme]
  | cons {t comma : Token} {u : List Token} {xs : List String} : t.kind = .identifier →
      comma.is .delimiter "," → Names u xs → Names (t :: comma :: u) (t.lexeme :: xs)

/-- What is derived: an expression of some layer, or the items between two brackets. -/
inductive Phrase where
  | expr (s : Symbol) (e : Node)
  | items (es : List Node)
  | pairs (ps : List (Node × Node))

/-- What is derived, by what single tokens can be read as. -/
inductive Derives (reads : Token → Node → Prop) : Phrase → List Token → Prop where
  | unit {s s' : Symbol} {e : Node} {u : List Token} : s.Includes s' →
      Derives reads (.expr s' e) u → Derives reads (.expr s e) u
  | lambda {t colon : Token} {u v : List Token} {xs : List String} {e : Node} :
      t.is .keyword "lambda" → Names u xs → xs.Nodup → colon.is .delimiter ":" →
      Derives reads (.expr .test e) v →
      Derives reads (.expr .lambdef (.lambda .unknown (xs.map Json.string) e))
        (t :: u ++ colon :: v)
  | binary {s s' : Symbol} {op : String} {u v w : List Token} {a b : Node} :
      Derives reads (.expr s a) u → Operator s w op s' → Derives reads (.expr s' b) v →
      Derives reads (.expr s (.binaryOp .unknown op a b)) (u ++ w ++ v)
  | negation {t : Token} {u : List Token} {e : Node} : t.is .keyword "not" →
      Derives reads (.expr .notTest e) u →
      Derives reads (.expr .notTest (.unaryOp .unknown "not" e)) (t :: u)
  | minus {t : Token} {u : List Token} {e : Node} : t.is .operator "-" →
      Derives reads (.expr .factor e) u →
      Derives reads (.expr .factor (.unaryOp .unknown "-" e)) (t :: u)
  | call {opening closing : Token} {u v : List Token} {f : Node} {es : List Node} :
      Derives reads (.expr .suffixed f) u → opening.is .delimiter "(" →
      Derives reads (.items es) v → closing.is .delimiter ")" →
      Derives reads (.expr .suffixed (.call .unknown f es)) (u ++ opening :: v ++ [closing])
  | index {opening closing : Token} {u v : List Token} {a i : Node} :
      Derives reads (.expr .suffixed a) u → opening.is .delimiter "[" →
      Derives reads (.expr .test i) v → closing.is .delimiter "]" →
      Derives reads (.expr .suffixed (.index .unknown a i)) (u ++ opening :: v ++ [closing])
  | member {dot name : Token} {u : List Token} {a : Node} :
      Derives reads (.expr .suffixed a) u → dot.is .delimiter "." → name.kind = .identifier →
      Derives reads (.expr .suffixed (.member .unknown a name.lexeme)) (u ++ [dot, name])
  | leaf {t : Token} {e : Node} : reads t e → Derives reads (.expr .atom e) [t]
  | parens {opening closing : Token} {u : List Token} {e : Node} : opening.is .delimiter "(" →
      Derives reads (.expr .test e) u → closing.is .delimiter ")" →
      Derives reads (.expr .atom e) (opening :: u ++ [closing])
  | list {opening closing : Token} {u : List Token} {es : List Node} :
      opening.is .delimiter "[" → Derives reads (.items es) u → closing.is .delimiter "]" →
      Derives reads (.expr .atom (.listLiteral .unknown es)) (opening :: u ++ [closing])
  | map {opening closing : Token} {u : List Token} {ps : List (Node × Node)} :
      opening.is .delimiter "\x7b" → Derives reads (.pairs ps) u → closing.is .delimiter "\x7d" →
      Derives reads (.expr .atom (.mapLiteral .unknown ps)) (opening :: u ++ [closing])
  | noItems : Derives reads (.items []) []
  | lastItem {u : List Token} {e : Node} : Derives reads (.expr .test e) u →
      Derives reads (.items [e]) u
  | item {comma : Token} {u v : List Token} {e : Node} {es : List Node} :
      Derives reads (.expr .test e) u → comma.is .delimiter "," → Derives reads (.items es) v →
      Derives reads (.items (e :: es)) (u ++ comma :: v)
  | noPairs : Derives reads (.pairs []) []
  | lastPair {colon : Token} {u v : List Token} {k e : Node} : Derives reads (.expr .test k) u →
      colon.is .delimiter ":" → Derives reads (.expr .test e) v →
      Derives reads (.pairs [(k, e)]) (u ++ colon :: v)
  | pair {colon comma : Token} {u v w : List Token} {k e : Node} {ps : List (Node × Node)} :
      Derives reads (.expr .test k) u → colon.is .delimiter ":" → Derives reads (.expr .test e) v →
      comma.is .delimiter "," → Derives reads (.pairs ps) w →
      Derives reads (.pairs ((k, e) :: ps)) (u ++ colon :: v ++ comma :: w)

end Grammar

end Offside
