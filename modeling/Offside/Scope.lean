import Offside.Value

/-!
Scopes: a forest of name tables. A lookup goes from a scope to its ancestors; an assignment
changes the nearest table that binds the name, or else the scope itself. A scope's parent is
older than the scope, so every chain ends. Names are texts, but a tree read from a document may
have other data for names.
-/

namespace Offside

structure Scope where
  parent : Option Nat
  bindings : List (Json × Value)
  deriving Inhabited

namespace Scope

def get? (s : Scope) (name : Json) : Option Value :=
  (s.bindings.find? (·.1.same name)).map (·.2)

def binds (s : Scope) (name : Json) : Bool := s.bindings.any (·.1.same name)

def replaceIn (name : Json) (value : Value) : List (Json × Value) → List (Json × Value)
  | [] => []
  | b :: rest => if b.1.same name then (b.1, value) :: rest else b :: replaceIn name value rest

/-- Binds a name; one already bound keeps its place. -/
def define (s : Scope) (name : Json) (value : Value) : Scope :=
  if s.binds name then { s with bindings := replaceIn name value s.bindings }
  else { s with bindings := s.bindings ++ [(name, value)] }

def names (s : Scope) : List Json := s.bindings.map (·.1)

/-- A scope with its names in order and a mark for a parent. -/
def display (s : Scope) : String :=
  let names := (s.names.map Json.plain).mergeSort fun a b => !decide (b < a)
  "<Environment [" ++ ", ".intercalate names ++ "]" ++
    (if s.parent.isSome then " +parent" else "") ++ ">"

end Scope

structure Scopes where
  table : Array Scope
  deriving Inhabited

namespace Scopes

/-- A single scope, number 0, without names. -/
def root : Scopes := ⟨#[⟨none, []⟩]⟩

def scope (scopes : Scopes) (s : Nat) : Scope := scopes.table[s]?.getD ⟨none, []⟩

def child (scopes : Scopes) (s : Nat) : Nat × Scopes :=
  (scopes.table.size, ⟨scopes.table.push ⟨some s, []⟩⟩)

def define (scopes : Scopes) (s : Nat) (name : Json) (value : Value) : Scopes :=
  ⟨scopes.table.modify s (·.define name value)⟩

/-- The nearest scope that binds a name, among the first `fuel` ones of the chain of `s`. -/
def ownerWithin (scopes : Scopes) (name : Json) : Nat → Nat → Option Nat
  | 0, _ => none
  | fuel + 1, s =>
    if (scopes.scope s).binds name then some s
    else match (scopes.scope s).parent with
      | some parent => scopes.ownerWithin name fuel parent
      | none => none

/-- The nearest scope that binds a name, from `s` outward. -/
def owner? (scopes : Scopes) (s : Nat) (name : Json) : Option Nat :=
  scopes.ownerWithin name (s + 1) s

def get? (scopes : Scopes) (s : Nat) (name : Json) : Option Value :=
  (scopes.owner? s name).bind fun owner => (scopes.scope owner).get? name

def contains (scopes : Scopes) (s : Nat) (name : Json) : Bool := (scopes.owner? s name).isSome

def assign (scopes : Scopes) (s : Nat) (name : Json) (value : Value) : Scopes :=
  scopes.define ((scopes.owner? s name).getD s) name value

/-- The outermost scope around `s`, among the first `fuel` ones of its chain. -/
def outermostWithin (scopes : Scopes) : Nat → Nat → Nat
  | 0, s => s
  | fuel + 1, s =>
    match (scopes.scope s).parent with
    | some parent => scopes.outermostWithin fuel parent
    | none => s

def outermost (scopes : Scopes) (s : Nat) : Nat := scopes.outermostWithin (s + 1) s

end Scopes

end Offside
