import Offside.Builtin
import Offside.Csv

/-!
Tables as text. With a header row a table is a List of Mappings from column names to fields;
without one it is a List of Lists.
-/

namespace Offside.Library

open Offside.Action

namespace Table

def delimiter (builtin : String) : List Value → Action Char
  | [] => return ','
  | v :: _ => do
    match (← string builtin "delimiter" v).toList with
    | [c] => return c
    | _ => fail (.delimiterLength builtin)

def hasHeader : List Value → Action Bool
  | [] => return true
  | v :: _ => boolean "csv_parse" "has_header" v

/-- A Mapping from the columns of the header to the fields of a row; missing fields are empty. -/
def record (header row : List String) : Mapping :=
  .ofEntries (header.zipIdx.map fun (column, i) => (.string column, .string (row[i]?.getD "")))

def parse : List Value → Action Value
  | v :: rest => do
    let text ← string "csv_parse" "argument" v
    let delimiter ← delimiter "csv_parse" rest
    let header ← hasHeader (rest.drop 1)
    match Csv.parse delimiter text with
    | .error .lineBreak => fail .csvLineBreak
    | .error .fieldTooLong => fail .csvFieldTooLong
    | .ok rows =>
      if header then
        let columns := rows.headD []
        newList (← (rows.drop 1).mapM fun row => newMapping (record columns row))
      else newList (← rows.mapM fun row => newList (row.map .string))
  | [] => fault .missingArgument

/-- The fields of a Mapping in the order of the header; missing ones are empty. -/
def fieldsOf (h : Heap) (header : List Value) : Value → Except Failure (List String)
  | .mapping id =>
    .ok (header.map fun column => h.text (((h.mapping id).get? column).getD (.string "")))
  | v => .error (.rowNotMapping v.kind)

def itemsOf (h : Heap) : Value → Except Failure (List String)
  | .list id => .ok ((h.list id).toList.map h.text)
  | v => .error (.rowNotContainer v.kind)

/-- The rows of a table; the keys of a Mapping that comes first are the header. -/
def rows (h : Heap) (data : List Value) : Except Failure (List (List String)) :=
  match data with
  | .mapping id :: _ => do
    let header := (h.mapping id).keys
    return header.map h.text :: (← data.mapM (fieldsOf h header))
  | _ => data.mapM (itemsOf h)

def quoting : Action Csv.Quoting := modifyGet fun w => (w.quoting, w)

def stringify : List Value → Action Value
  | v :: rest => do
    let id ← list "csv_stringify" "argument" v
    let delimiter ← delimiter "csv_stringify" rest
    match rows (← heap) (← items id) with
    | .ok rows => return .string (Csv.write (← quoting) delimiter rows)
    | .error f => fail f
  | [] => fault .missingArgument

end Table

def csv : List Builtin := [
  ⟨"csv_parse", some 1, some 3, Table.parse⟩,
  ⟨"csv_stringify", some 1, some 2, Table.stringify⟩]

end Offside.Library
