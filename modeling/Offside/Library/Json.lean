import Offside.Builtin
import Offside.Json.Reader

/-!
Values as JSON text and back. Lists are arrays and Mappings with String keys are objects; a value
that contains itself, or holds a function, has no JSON text.
-/

namespace Offside.Library

open Offside.Action

namespace JsonText

/-- The field an entry of a Mapping stands for, from the datum of its value. -/
def field (part : Value → ExceptT Failure Walk Json) (e : Value × Value) :
    ExceptT Failure Walk (String × Json) :=
  match e.1 with
  | .string key => do return (key, ← part e.2)
  | key => throw (.keyNotString key.kind)

/-- The datum a value stands for, with at most `fuel` containers around it. -/
def datumThrough (h : Heap) : Nat → Value → ExceptT Failure Walk Json
  | _, .none => return .null
  | _, .boolean b => return .boolean b
  | _, .integer n => return .integer n
  | _, .float x => return .float x
  | _, .nan _ => return .float Number.notANumber
  | _, .string s => return .string s
  | fuel + 1, .list id => do
    if (← get).lists.contains id then throw .selfReference
    else
      let items ← ExceptT.mk
        (Walk.insideList id ((h.list id).toList.mapM (datumThrough h fuel)).run)
      return .array items
  | fuel + 1, .mapping id => do
    if (← get).mappings.contains id then throw .selfReference
    else
      let fields ← ExceptT.mk
        (Walk.insideMapping id ((h.mapping id).entries.mapM (field (datumThrough h fuel))).run)
      return .object fields
  | _, v => throw (.notSerializable v.kind)

/-- The datum a value stands for. A walk is in every container at most once. -/
def datum (h : Heap) (v : Value) : Except Failure Json :=
  ((datumThrough h (h.size + 1) v).run.run ⟨[], []⟩).1

mutual
def value : Json → Action Value
  | .null => return .none
  | .boolean b => return .boolean b
  | .integer n => return .integer n
  | .float x => return .ofDocument x
  | .string s => return .string s
  | .array parts => do newList (← values parts)
  | .object fields => do newMapping (.ofEntries (← entries fields))
def values : List Json → Action (List Value)
  | [] => return []
  | j :: rest => do
    let v ← value j
    return v :: (← values rest)
def entries : List (String × Json) → Action (List (Value × Value))
  | [] => return []
  | (key, j) :: rest => do
    let v ← value j
    return (.string key, v) :: (← entries rest)
end

def parse : List Value → Action Value
  | [v] => do
    match Json.parse (← string "json_parse" "argument" v) with
    | .ok j => value j
    | .error e => fail (.badJson e)
  | _ => fault .missingArgument

/-- Integers with more digits than this are not written. -/
def longestInteger : Nat := 4300

/-- No memory holds this many blanks. -/
def tooManyBlanks : Int := 2 ^ 36

/-- The blanks by which a level of nesting is indented; a negative number means none. -/
def indentation (n : Int) : Action Nat := do
  if n < -(2 ^ 63) ∨ 2 ^ 63 ≤ n then fault .integerBeyondLength
  if tooManyBlanks ≤ n then fault .outOfMemory
  return n.toNat

def stringify : List Value → Action Value
  | v :: rest => do
    let indent ← match rest with
      | [] => pure none
      | n :: _ => do pure (some (← integer "json_stringify" "indent" n))
    match datum (← heap) v with
    | .error f => fail f
    | .ok (.string s) => return .string (Json.quote s)
    | .ok j =>
      let indent ← indent.mapM indentation
      if j.hasLongInteger longestInteger then fail .longInteger
      return .string (j.render indent)
  | [] => fault .missingArgument

/-! ### The containers around a value as an argument -/

section Steady

variable {α β : Type} {path path' : Enclosing}

theorem run_bind_of {walk : ExceptT Failure Walk α} {r : Except Failure α}
    {f : α → ExceptT Failure Walk β} {g : α → Except Failure β}
    (hw : walk.run.run path = (r, path)) (hf : ∀ a, r = .ok a → (f a).run.run path = (g a, path)) :
    (walk >>= f).run.run path = (r >>= g, path) := by
  show (walk.run >>= ExceptT.bindCont f).run path = (r >>= g, path)
  rw [Walk.run_bind_of hw]
  cases r with
  | ok a => exact hf a rfl
  | error e => rfl

theorem mapM_steady {f : α → ExceptT Failure Walk β} {g : α → Except Failure β} {items : List α}
    (hf : ∀ a ∈ items, (f a).run.run path = (g a, path)) :
    (items.mapM f).run.run path = (items.mapM g, path) := by
  induction items with
  | nil => rfl
  | cons a rest ih =>
    have hrest := ih fun b hb => hf b (List.mem_cons_of_mem a hb)
    rw [List.mapM_cons, List.mapM_cons]
    exact run_bind_of (hf a List.mem_cons_self) fun b _ => run_bind_of hrest fun bs _ => rfl

end Steady

/-- What `datumThrough` gives inside the containers of `path`. -/
def datumWithin (h : Heap) : Nat → Enclosing → Value → Except Failure Json
  | _, _, .none => .ok .null
  | _, _, .boolean b => .ok (.boolean b)
  | _, _, .integer n => .ok (.integer n)
  | _, _, .float x => .ok (.float x)
  | _, _, .nan _ => .ok (.float Number.notANumber)
  | _, _, .string s => .ok (.string s)
  | fuel + 1, path, .list id => do
    if path.lists.contains id then throw .selfReference
    let path := { path with lists := id :: path.lists }
    return .array (← (h.list id).toList.mapM (datumWithin h fuel path))
  | fuel + 1, path, .mapping id => do
    if path.mappings.contains id then throw .selfReference
    let path := { path with mappings := id :: path.mappings }
    return .object (← (h.mapping id).entries.mapM fun e => do
      match e.1 with
      | .string key => return (key, ← datumWithin h fuel path e.2)
      | key => throw (.keyNotString key.kind))
  | _, _, v => .error (.notSerializable v.kind)

theorem field_steady {part : Value → ExceptT Failure Walk Json} {path : Enclosing}
    {e : Value × Value} {r : Except Failure Json} (hpart : (part e.2).run.run path = (r, path)) :
    (field part e).run.run path = ((match e.1 with
      | .string key => do return (key, ← r)
      | key => throw (.keyNotString key.kind) : Except Failure (String × Json)), path) := by
  unfold field
  split
  · exact run_bind_of hpart fun _ _ => rfl
  · rfl

/-- The walk leaves the containers it is in as it found them, also where it fails. -/
theorem datumThrough_eq (h : Heap) (fuel : Nat) (path : Enclosing) (v : Value) :
    (datumThrough h fuel v).run.run path = (datumWithin h fuel path v, path) := by
  induction fuel generalizing path v with
  | zero => cases v <;> rfl
  | succ fuel ih =>
    have hget : (get : ExceptT Failure Walk Enclosing).run.run path = (.ok path, path) := rfl
    cases v with
    | list id =>
      refine run_bind_of (g := fun _ => datumWithin h (fuel + 1) path (.list id)) hget ?_
      rintro _ ⟨⟩
      rw [datumWithin]
      by_cases hp : path.lists.contains id = true
      · rw [if_pos hp, if_pos hp]
        rfl
      · have hitems := mapM_steady fun v (_ : v ∈ (h.list id).toList) =>
          ih { path with lists := id :: path.lists } v
        rw [if_neg hp, if_neg hp]
        exact run_bind_of (Walk.insideList_steady hitems) fun _ _ => rfl
    | mapping id =>
      refine run_bind_of (g := fun _ => datumWithin h (fuel + 1) path (.mapping id)) hget ?_
      rintro _ ⟨⟩
      rw [datumWithin]
      by_cases hp : path.mappings.contains id = true
      · rw [if_pos hp, if_pos hp]
        rfl
      · have hfields := mapM_steady fun e (_ : e ∈ (h.mapping id).entries) =>
          field_steady (ih { path with mappings := id :: path.mappings } e.2)
        rw [if_neg hp, if_neg hp]
        exact run_bind_of (Walk.insideMapping_steady hfields) fun _ _ => rfl
    | _ => rfl

theorem datum_eq (h : Heap) (v : Value) : datum h v = datumWithin h (h.size + 1) ⟨[], []⟩ v :=
  congrArg Prod.fst (datumThrough_eq h _ _ v)

end JsonText

def json : List Builtin := [
  ⟨"json_parse", some 1, none, JsonText.parse⟩,
  ⟨"json_stringify", some 1, some 2, JsonText.stringify⟩]

end Offside.Library
