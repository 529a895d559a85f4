import Offside.Library.Core
import Offside.Text.Case

/-!
Methods of Strings, Lists and Mappings. Each takes its receiver as the first argument. A host may
call a method on a receiver of another kind; the run then ends where the method first asks for
what the receiver does not have. A Mapping has a function where a List has its items.
-/

namespace Offside.Library

open Offside.Action

/-- Meets a receiver that lacks a part the method needs. -/
def lacks {α : Type} (v : Value) (part : String) : Action α :=
  fault (.missingPart v.typeName part)

def receiverText (part : String) : Value → Action (List Char)
  | .string s => pure s.toList
  | v => lacks v part

/-- The List whose items are to be changed by the operation `part`. -/
def receiverList (part : String) : Value → Action Nat
  | .list id => pure id
  | .mapping _ => fault (.missingPart "function" part)
  | v => lacks v "items"

def receiverItems : Value → Action Nat
  | .list id => pure id
  | .mapping _ => fault (.notIterable "method")
  | v => lacks v "items"

def receiverMapping (part : String) : Value → Action Nat
  | .mapping id => pure id
  | v => lacks v part

def textValue (cs : List Char) : Value := .string (String.ofList cs)

namespace TextMethod

/-- A method that turns its receiver into another text. -/
def mapped (name : String) (f : List Char → List Char) : Builtin :=
  ⟨"str." ++ name, some 1, none, fun
    | [v] => do return textValue (f (← receiverText name v))
    | _ => fault .missingArgument⟩

def split : List Value → Action Value
  | [v] => do newList ((Text.words (← receiverText "split" v)).map textValue)
  | [v, separator] => do
    let separator ← string "split" "separator" separator
    if separator.isEmpty then fail .emptySeparator
    newList ((Text.splitOn separator.toList (← receiverText "split" v)).map textValue)
  | _ => fault .missingArgument

def piece : Value → Action (List Char)
  | .string s => pure s.toList
  | v => fail (.notAString "join" v.kind)

def join : List Value → Action Value
  | [v, pieces] => do
    let id ← list "join" "argument" pieces
    let separator ← receiverText "join" v
    return textValue (Text.joinWith separator (← (← items id).mapM piece))
  | _ => fault .missingArgument

def searching (name : String) (f : List Char → List Char → Value) : Builtin :=
  ⟨"str." ++ name, some 2, none, fun
    | [v, argument] => do
      let text ← receiverText name v
      return f (← string name "argument" argument).toList text
    | _ => fault .missingArgument⟩

def position (part text : List Char) : Value :=
  match Text.find? part text with
  | some i => .integer i
  | none => .integer (-1)

def contains : List Value → Action Value
  | [v, argument] => do
    let part ← string "contains" "argument" argument
    match v with
    | .string text => return .boolean (Text.contains part.toList text.toList)
    | v => fault (.notSearchable v.typeName)
  | _ => fault .missingArgument

def replace : List Value → Action Value
  | [v, old, new] => do
    let old ← string "replace" "argument" old
    let new ← string "replace" "argument" new
    return textValue (Text.replace old.toList new.toList (← receiverText "replace" v))
  | _ => fault .missingArgument

end TextMethod

def textMethods : List Builtin := [
  TextMethod.mapped "upper" Text.upper,
  TextMethod.mapped "lower" Text.lower,
  TextMethod.mapped "strip" Text.trim,
  TextMethod.mapped "lstrip" Text.trimLeft,
  TextMethod.mapped "rstrip" Text.trimRight,
  ⟨"str.split", some 1, some 2, TextMethod.split⟩,
  ⟨"str.join", some 2, none, TextMethod.join⟩,
  TextMethod.searching "find" TextMethod.position,
  ⟨"str.replace", some 3, none, TextMethod.replace⟩,
  TextMethod.searching "startswith" fun part text => .boolean (part.isPrefixOf text),
  TextMethod.searching "endswith" fun part text => .boolean (part.isSuffixOf text),
  TextMethod.searching "count" fun part text => .integer (Text.count part text),
  ⟨"str.contains", some 2, none, TextMethod.contains⟩]

namespace ListMethod

def append : List Value → Action Value
  | [target, v] => do
    let id ← receiverList "append" target
    modifyHeap (·.modifyList id (·.push v))
    return .none
  | _ => fault .missingArgument

def pop : List Value → Action Value
  | target :: rest => do popItem (← receiverList "pop" target) rest.head?
  | _ => fault .missingArgument

def insert : List Value → Action Value
  | [target, index, v] => do
    let id ← receiverList "insert" target
    insertItem id (← integer "insert" "index" index) v
  | _ => fault .missingArgument

def needed (id : Nat) (v : Value) : Action Nat := do
  let h ← heap
  match h.position? (h.list id).toList v with
  | some i => return i
  | none => fail (.notInList (h.display v))

def remove : List Value → Action Value
  | [target, v] => do
    let id ← receiverItems target
    let i ← needed id v
    modifyHeap (·.modifyList id (·.eraseIdxIfInBounds i))
    return .none
  | _ => fault .missingArgument

def reverse : List Value → Action Value
  | [target] => do
    let id ← receiverList "reverse" target
    modifyHeap (·.modifyList id (·.reverse))
    return .none
  | _ => fault .missingArgument

def clear : List Value → Action Value
  | [target] => do
    let id ← receiverList "clear" target
    modifyHeap (·.modifyList id fun _ => #[])
    return .none
  | _ => fault .missingArgument

def index : List Value → Action Value
  | [target, v] => do return .integer (← needed (← receiverItems target) v)
  | _ => fault .missingArgument

def count : List Value → Action Value
  | [target, v] => do
    let id ← receiverItems target
    let h ← heap
    return .integer ((h.list id).toList.countP fun item => h.equal item v)
  | _ => fault .missingArgument

def copy : List Value → Action Value
  | [target] => do newList (← items (← receiverItems target))
  | _ => fault .missingArgument

def extend : List Value → Action Value
  | [target, other] => do
    let source ← list "extend" "argument" other
    let id ← receiverList "extend" target
    let added ← items source
    modifyHeap (·.modifyList id (· ++ added.toArray))
    return .none
  | _ => fault .missingArgument

/-- Sorts a List in place; if two items cannot be ordered, the items stay as they stand by then. -/
def sort : List Value → Action Value
  | [target] => do
    let id ← receiverList "sort" target
    match arrange "sort" (← items id) with
    | .ok arranged =>
      modifyHeap (·.modifyList id fun _ => arranged.toArray)
      return .none
    | .error stop =>
      modifyHeap (·.modifyList id fun _ => stop.items.toArray)
      throw stop.cause
  | _ => fault .missingArgument

end ListMethod

def listMethods : List Builtin := [
  ⟨"list.append", some 2, none, ListMethod.append⟩,
  ⟨"list.pop", some 1, some 2, ListMethod.pop⟩,
  ⟨"list.insert", some 3, none, ListMethod.insert⟩,
  ⟨"list.remove", some 2, none, ListMethod.remove⟩,
  ⟨"list.reverse", some 1, none, ListMethod.reverse⟩,
  ⟨"list.clear", some 1, none, ListMethod.clear⟩,
  ⟨"list.index", some 2, none, ListMethod.index⟩,
  ⟨"list.count", some 2, none, ListMethod.count⟩,
  ⟨"list.copy", some 1, none, ListMethod.copy⟩,
  ⟨"list.extend", some 2, none, ListMethod.extend⟩,
  ⟨"list.sort", some 1, none, ListMethod.sort⟩]

namespace MapMethod

def get : List Value → Action Value
  | target :: key :: rest => do
    ofOperation (Operation.checkKey key)
    let id ← receiverMapping "get" target
    return ((← mapping id).get? key).getD (rest.headD .none)
  | _ => fault .missingArgument

def keys : List Value → Action Value
  | [target] => do newList (← mapping (← receiverMapping "keys" target)).keys
  | _ => fault .missingArgument

def values : List Value → Action Value
  | [target] => do newList (← mapping (← receiverMapping "values" target)).values
  | _ => fault .missingArgument

def entries : List Value → Action Value
  | [.list _] => fault (.notCallable "list")
  | [target] => do
    let m ← mapping (← receiverMapping "items" target)
    newList (← m.entries.mapM fun (key, value) => newList [key, value])
  | _ => fault .missingArgument

def clear : List Value → Action Value
  | [target] => do
    let id ← receiverMapping "clear" target
    modifyHeap (·.modifyMapping id fun _ => .empty)
    return .none
  | _ => fault .missingArgument

def update : List Value → Action Value
  | [target, other] => do
    let added ← mapping (← map "update" "argument" other)
    if !added.entries.isEmpty then
      let id ← receiverMapping "set" target
      modifyHeap (·.modifyMapping id (·.setAll added.entries))
    return .none
  | _ => fault .missingArgument

/-- Takes out a key; one that is not there gives the default, if there is one. -/
def pop : List Value → Action Value
  | target :: key :: rest => do
    ofOperation (Operation.checkKey key)
    let id ← receiverMapping "contains" target
    match (← mapping id).get? key, rest with
    | some v, _ =>
      modifyHeap (·.modifyMapping id (·.erase key))
      return v
    | none, fallback :: _ => return fallback
    | none, [] => fail (.keyMissing key.atomText)
  | _ => fault .missingArgument

end MapMethod

def mapMethods : List Builtin := [
  ⟨"map.get", some 2, some 3, MapMethod.get⟩,
  ⟨"map.keys", some 1, none, MapMethod.keys⟩,
  ⟨"map.values", some 1, none, MapMethod.values⟩,
  ⟨"map.items", some 1, none, MapMethod.entries⟩,
  ⟨"map.clear", some 1, none, MapMethod.clear⟩,
  ⟨"map.update", some 2, none, MapMethod.update⟩,
  ⟨"map.pop", some 2, some 3, MapMethod.pop⟩]

def methods : List Builtin := textMethods ++ listMethods ++ mapMethods

end Offside.Library
