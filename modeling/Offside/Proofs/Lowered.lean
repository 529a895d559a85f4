import Offside.Parser
import Offside.Proofs.Bare
import Offside.Proofs.Numeral

/-!
Places further down. A text that comes after another stands some lines lower, and so does all that
is made of it: its tokens, the errors in it, and the trees that are read from it.
-/

namespace Offside

/-- The position so many lines further down. -/
def Position.lower (k : Nat) (p : Position) : Position := { p with line := p.line + k }

def Place.lower (k : Nat) (p : Place) : Place :=
  match p.line with
  | .integer line => ⟨.integer (line + k), p.column⟩
  | _ => p

/-- A move of places that the surrogates of a text that begins with a place do not show. -/
structure Relocation where
  move : Place → Place
  discreet : ∀ p rest, Text.SameSurrogates (p.text ++ rest) ((move p).text ++ rest)

instance : CoeFun Relocation fun _ => Place → Place := ⟨Relocation.move⟩

def Relocation.none : Relocation := ⟨id, fun _ _ => rfl⟩

def Relocation.lower (k : Nat) : Relocation where
  move := Place.lower k
  discreet p rest := by
    obtain ⟨line, column⟩ := p
    cases line with
    | integer line =>
      unfold Place.text
      rw [String.append_assoc, String.append_assoc, String.append_assoc, String.append_assoc]
      exact Text.sameSurrogates_append (Number.numeral_encodable line)
        (Number.numeral_encodable (line + k)) _
    | _ => rfl

def Token.lower (k : Nat) (t : Token) : Token := { t with pos := t.pos.lower k }

def LexError.lower (k : Nat) (e : LexError) : LexError := { e with pos := e.pos.lower k }

def ParseFault.lower (k : Nat) : ParseFault → ParseFault
  | .expected what found => .expected what (found.lower k)
  | fault => fault

def ParseError.lower (k : Nat) (e : ParseError) : ParseError := ⟨e.fault.lower k, e.pos.lower k⟩

def ReadError.lower (k : Nat) : ReadError → ReadError
  | .lex e => .lex (e.lower k)
  | .parse errors => .parse (errors.map (ParseError.lower k))
  | .fault f => .fault f

namespace Node

mutual
/-- The tree with every place moved by `f`. -/
def moved (f : Place → Place) : Node → Node
  | hole => hole
  | literal p v k => literal (f p) v k
  | identifier p x => identifier (f p) x
  | unaryOp p o a => unaryOp (f p) o (a.moved f)
  | binaryOp p o a b => binaryOp (f p) o (a.moved f) (b.moved f)
  | call p g as => call (f p) (g.moved f) (movedList f as)
  | index p t i => index (f p) (t.moved f) (i.moved f)
  | member p t x => member (f p) (t.moved f) x
  | listLiteral p es => listLiteral (f p) (movedList f es)
  | mapLiteral p es => mapLiteral (f p) (movedPairs f es)
  | lambda p ps b => lambda (f p) ps (b.moved f)
  | exprStmt p e => exprStmt (f p) (e.moved f)
  | assign p t v => assign (f p) (t.moved f) (v.moved f)
  | augAssign p t o v => augAssign (f p) (t.moved f) o (v.moved f)
  | ifStmt p bs e => ifStmt (f p) (movedBranches f bs) (movedBody f e)
  | whileStmt p c b => whileStmt (f p) (c.moved f) (movedList f b)
  | forStmt p x i b => forStmt (f p) x (i.moved f) (movedList f b)
  | functionDef p x ps b => functionDef (f p) x ps (movedList f b)
  | returnStmt p v => returnStmt (f p) (v.moved f)
  | breakStmt p => breakStmt (f p)
  | continueStmt p => continueStmt (f p)
  | passStmt p => passStmt (f p)
  | delete p t => delete (f p) (t.moved f)
  | program p b => program (f p) (movedList f b)
def movedList (f : Place → Place) : List Node → List Node
  | [] => []
  | a :: as => a.moved f :: movedList f as
def movedPairs (f : Place → Place) : List (Node × Node) → List (Node × Node)
  | [] => []
  | (a, b) :: es => (a.moved f, b.moved f) :: movedPairs f es
def movedBranches (f : Place → Place) : List (Node × List Node) → List (Node × List Node)
  | [] => []
  | (a, b) :: bs => (a.moved f, movedList f b) :: movedBranches f bs
def movedBody (f : Place → Place) : Option (List Node) → Option (List Node)
  | none => none
  | some b => some (movedList f b)
end

def lower (k : Nat) (n : Node) : Node := n.moved (Place.lower k)

end Node

/-! ### Positions and tokens -/

variable {k : Nat}

theorem Position.next_lower (p : Position) (c : Char) :
    (p.lower k).next c = (p.next c).lower k := by
  unfold Position.next
  split
  · simp [Position.lower, Int.add_right_comm]
  · rfl

theorem Position.after_lower (p : Position) (cs : List Char) :
    (p.lower k).after cs = (p.after cs).lower k := by
  induction cs generalizing p with
  | nil => rfl
  | cons c cs ih =>
    change ((p.lower k).next c).after cs = ((p.next c).after cs).lower k
    rw [Position.next_lower, ih]

@[simp] theorem Position.lower_zero (p : Position) : p.lower 0 = p := by
  simp [Position.lower]

@[simp] theorem Token.lower_zero (t : Token) : t.lower 0 = t := by
  simp [Token.lower]

@[simp] theorem Token.lower_kind (t : Token) : (t.lower k).kind = t.kind := rfl

@[simp] theorem Token.lower_lexeme (t : Token) : (t.lower k).lexeme = t.lexeme := rfl

@[simp] theorem Token.lower_is (t : Token) (kind : TokenKind) (lexeme : String) :
    (t.lower k).is kind lexeme = t.is kind lexeme := rfl

@[simp] theorem LexError.lower_zero (e : LexError) : e.lower 0 = e := by
  simp [LexError.lower]

/-! ### Trees -/

namespace Node

variable {f : Place → Place}

theorem movedList_eq (f : Place → Place) (ns : List Node) :
    movedList f ns = ns.map (moved f) := by
  induction ns with
  | nil => rfl
  | cons n ns ih => rw [movedList, List.map_cons, ih]

theorem movedList_snoc (f : Place → Place) (ns : List Node) (n : Node) :
    movedList f (ns ++ [n]) = movedList f ns ++ [n.moved f] := by
  simp [movedList_eq]

theorem movedPairs_eq (f : Place → Place) (es : List (Node × Node)) :
    movedPairs f es = es.map fun e => (e.1.moved f, e.2.moved f) := by
  induction es with
  | nil => rfl
  | cons e es ih => rw [movedPairs, List.map_cons, ih]

theorem movedPairs_snoc (f : Place → Place) (es : List (Node × Node)) (a b : Node) :
    movedPairs f (es ++ [(a, b)]) = movedPairs f es ++ [(a.moved f, b.moved f)] := by
  simp [movedPairs_eq]

theorem movedBranches_eq (f : Place → Place) (bs : List (Node × List Node)) :
    movedBranches f bs = bs.map fun b => (b.1.moved f, b.2.map (moved f)) := by
  induction bs with
  | nil => rfl
  | cons b bs ih => rw [movedBranches, List.map_cons, ih, movedList_eq]

theorem movedBranches_snoc (f : Place → Place) (bs : List (Node × List Node)) (a : Node)
    (b : List Node) :
    movedBranches f (bs ++ [(a, b)]) = movedBranches f bs ++ [(a.moved f, movedList f b)] := by
  simp [movedBranches_eq, movedList_eq]

theorem pos?_moved (n : Node) : (n.moved f).pos? = n.pos?.map f := by
  cases n <;> rfl

theorem kindName_moved (n : Node) : (n.moved f).kindName = n.kindName := by
  cases n <;> rfl

theorem pos_lower (n : Node) : (n.lower k).pos = n.pos.lower k := by
  rw [pos, lower, pos?_moved, pos]
  cases n.pos? with
  | none => rfl
  | some p => rfl

mutual
theorem moved_id (n : Node) : n.moved id = n := by
  cases n <;> simp only [moved, id_eq, moved_id, movedList_id, movedPairs_id, movedBranches_id,
    movedBody_id]
theorem movedList_id (ns : List Node) : movedList id ns = ns := by
  cases ns with
  | nil => rfl
  | cons n ns => rw [movedList, moved_id n, movedList_id ns]
theorem movedPairs_id (es : List (Node × Node)) : movedPairs id es = es := by
  cases es with
  | nil => rfl
  | cons e es => rw [movedPairs, moved_id e.1, moved_id e.2, movedPairs_id es]
theorem movedBranches_id (bs : List (Node × List Node)) : movedBranches id bs = bs := by
  cases bs with
  | nil => rfl
  | cons b bs => rw [movedBranches, moved_id b.1, movedList_id b.2, movedBranches_id bs]
theorem movedBody_id (b : Option (List Node)) : movedBody id b = b := by
  cases b with
  | none => rfl
  | some b => rw [movedBody, movedList_id b]
end

end Node

end Offside
