import Offside.Proofs.Csv
import Offside.Proofs.Adding
import Offside.Proofs.Heap.Mirror
import Offside.Proofs.Library.Standard
import Offside.Proofs.Mapping

/-!
Tables in the heap are read as they were written. A table is a List of Lists of Strings, or a List
of Mappings from the same columns to Strings.
-/

namespace Offside

namespace Heap

variable {h h' : Heap} {v r : Value} {columns fields : List String} {rows rows' : List (List String)}

/-- A List of the given Strings. -/
def IsRow (h : Heap) (fields : List String) (v : Value) : Prop :=
  ∃ i, v = .list i ∧ i < h.lists.size ∧ (h.list i).toList = fields.map .string

def cells (columns fields : List String) : List (Value × Value) :=
  (columns.zip fields).map fun e => (.string e.1, .string e.2)

/-- A Mapping from the columns to the given Strings, in the order of the columns. -/
def IsRecord (h : Heap) (columns fields : List String) (v : Value) : Prop :=
  fields.length = columns.length ∧
    ∃ i, v = .mapping i ∧ i < h.mappings.size ∧ (h.mapping i).entries = cells columns fields

/-- A List of what is described row by row. -/
def IsListOf (h : Heap) (R : List String → Value → Prop) (rows : List (List String)) (v : Value) :
    Prop :=
  ∃ i, v = .list i ∧ i < h.lists.size ∧ List.Forall₂ R rows (h.list i).toList

theorem IsRow.mono (he : h.Extends h') (hr : h.IsRow fields v) : h'.IsRow fields v := by
  obtain ⟨i, rfl, hi, hs⟩ := hr
  obtain ⟨hi', heq⟩ := he.lists i hi
  exact ⟨i, rfl, hi', by rw [heq, hs]⟩

theorem IsRecord.mono (he : h.Extends h') (hr : h.IsRecord columns fields v) :
    h'.IsRecord columns fields v := by
  obtain ⟨hl, i, rfl, hi, hs⟩ := hr
  obtain ⟨hi', heq⟩ := he.mappings i hi
  exact ⟨hl, i, rfl, hi', by rw [heq, hs]⟩

theorem IsListOf.mono {R R' : List String → Value → Prop} (he : h.Extends h')
    (hR : ∀ row v, R row v → R' row v) (ht : h.IsListOf R rows v) : h'.IsListOf R' rows v := by
  obtain ⟨i, rfl, hi, hs⟩ := ht
  obtain ⟨hi', heq⟩ := he.lists i hi
  exact ⟨i, rfl, hi', by rw [heq]; exact hs.imp hR⟩

end Heap

namespace Library

open Offside.Action Heap

variable {w : World} {v : Value} {columns : List String} {rows : List (List String)}

/-- What `csv_parse` makes of the records of a text, of which the first may be a header. -/
def build (header : Bool) (records : Except Csv.Defect (List (List String))) : Action Value :=
  match records with
  | .error .lineBreak => fail .csvLineBreak
  | .error .fieldTooLong => fail .csvFieldTooLong
  | .ok rows =>
    if header then do
      newList (← (rows.drop 1).mapM fun row => newMapping (Table.record (rows.headD []) row))
    else do
      newList (← rows.mapM fun row => newList (row.map .string))

/-- A Mapping made of a row below the header. -/
def IsEntry (h : Heap) (header row : List String) (v : Value) : Prop :=
  ∃ i, v = .mapping i ∧ i < h.mappings.size ∧ h.mapping i = Table.record header row

theorem IsEntry.mono {h h' : Heap} {header row : List String} (he : h.Extends h')
    (hv : IsEntry h header row v) : IsEntry h' header row v := by
  obtain ⟨i, rfl, hi, hs⟩ := hv
  obtain ⟨hi', heq⟩ := he.mappings i hi
  exact ⟨i, rfl, hi', by rw [heq, hs]⟩

/-- The call succeeds and gives a value equal to `v`; no object is changed. -/
def Restores (args : List Value) (w : World) (v : Value) : Prop :=
  ∃ r h, invoke "csv_parse" args w = .ok r { w with heap := h } ∧ w.heap.Extends h ∧
    h.equal r v = true

variable {h : Heap} {a : Value} {row : List String}

end Library

end Offside
