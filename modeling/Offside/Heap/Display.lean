import Offside.Heap

/-!
The text of values. Inside a container Strings are quoted; a container reached again inside
itself shows as an ellipsis in its brackets.
-/

namespace Offside

/-- The containers around a place. -/
structure Enclosing where
  lists : List Nat
  mappings : List Nat

/-- A walk over values that remembers the containers it is in. -/
abbrev Walk (α : Type) := StateM Enclosing α

namespace Walk

variable {α β : Type}

/-- A walk inside a List, which is left however the walk ends. -/
def insideList (id : Nat) (walk : Walk α) : Walk α := do
  modify fun seen => { seen with lists := id :: seen.lists }
  let result ← walk
  modify fun seen => { seen with lists := seen.lists.erase id }
  return result

/-- A walk inside a Mapping, which is left however the walk ends. -/
def insideMapping (id : Nat) (walk : Walk α) : Walk α := do
  modify fun seen => { seen with mappings := id :: seen.mappings }
  let result ← walk
  modify fun seen => { seen with mappings := seen.mappings.erase id }
  return result

end Walk

namespace Heap

/-- The text of an entry from the texts of its parts, the key's before the value's. -/
def displayEntry (part : Value → Walk String) (e : Value × Value) : Walk String := do
  let key ← part e.1
  let value ← part e.2
  return key ++ ": " ++ value

/-- The source-like text of a value with at most `fuel` containers above the ellipses. -/
def displayThrough (h : Heap) : Nat → Value → Walk String
  | fuel + 1, .list id => do
    if (← get).lists.contains id then return (Value.list id).atomText
    let items ← Walk.insideList id ((h.list id).toList.mapM (h.displayThrough fuel))
    return "[" ++ ", ".intercalate items ++ "]"
  | fuel + 1, .mapping id => do
    if (← get).mappings.contains id then return (Value.mapping id).atomText
    let entries ← Walk.insideMapping id
      ((h.mapping id).entries.mapM (displayEntry (h.displayThrough fuel)))
    return "\x7b" ++ ", ".intercalate entries ++ "\x7d"
  | _, v => return v.atomText

/-- The source-like text of a value. A walk is in every container at most once. -/
def display (h : Heap) (v : Value) : String :=
  ((h.displayThrough (h.size + 1) v).run ⟨[], []⟩).1

/-- The text that printing shows: that of a String is its own. -/
def text (h : Heap) : Value → String
  | .string s => s
  | v => h.display v

end Heap

/-! ### The containers around a value as an argument -/

namespace Walk

variable {α β : Type} {walk : Walk α} {path path' : Enclosing} {a : α} {id : Nat}

theorem run_bind_of {f : α → Walk β} (hw : walk.run path = (a, path')) :
    (walk >>= f).run path = (f a).run path' := by
  show (f (walk.run path).1).run (walk.run path).2 = (f a).run path'
  rw [hw]

theorem insideList_steady
    (hw : walk.run { path with lists := id :: path.lists } =
      (a, { path with lists := id :: path.lists })) :
    (insideList id walk).run path = (a, path) := by
  show ((walk.run { path with lists := id :: path.lists }).1,
    { (walk.run { path with lists := id :: path.lists }).2 with lists :=
      (walk.run { path with lists := id :: path.lists }).2.lists.erase id }) = (a, path)
  rw [hw, List.erase_cons_head]

theorem insideMapping_steady
    (hw : walk.run { path with mappings := id :: path.mappings } =
      (a, { path with mappings := id :: path.mappings })) :
    (insideMapping id walk).run path = (a, path) := by
  show ((walk.run { path with mappings := id :: path.mappings }).1,
    { (walk.run { path with mappings := id :: path.mappings }).2 with mappings :=
      (walk.run { path with mappings := id :: path.mappings }).2.mappings.erase id }) = (a, path)
  rw [hw, List.erase_cons_head]

theorem mapM_steady {f : α → Walk β} {g : α → β} {items : List α}
    (hf : ∀ a ∈ items, (f a).run path = (g a, path)) :
    (items.mapM f).run path = (items.map g, path) := by
  induction items with
  | nil => rfl
  | cons a rest ih =>
    have hrest := ih fun b hb => hf b (List.mem_cons_of_mem a hb)
    rw [List.mapM_cons, run_bind_of (hf a List.mem_cons_self), run_bind_of hrest]
    rfl

end Walk

namespace Heap

/-- What `displayThrough` writes inside the containers of `path`. -/
def displayWithin (h : Heap) : Nat → Enclosing → Value → String
  | fuel + 1, path, .list id =>
    if path.lists.contains id then (Value.list id).atomText
    else
      let path := { path with lists := id :: path.lists }
      "[" ++ ", ".intercalate ((h.list id).toList.map (h.displayWithin fuel path)) ++ "]"
  | fuel + 1, path, .mapping id =>
    if path.mappings.contains id then (Value.mapping id).atomText
    else
      let path := { path with mappings := id :: path.mappings }
      let entry := fun (e : Value × Value) =>
        h.displayWithin fuel path e.1 ++ ": " ++ h.displayWithin fuel path e.2
      "\x7b" ++ ", ".intercalate ((h.mapping id).entries.map entry) ++ "\x7d"
  | _, _, v => v.atomText

theorem displayEntry_steady {part : Value → Walk String} {path : Enclosing} {e : Value × Value}
    {key value : String} (hkey : (part e.1).run path = (key, path))
    (hvalue : (part e.2).run path = (value, path)) :
    (displayEntry part e).run path = (key ++ ": " ++ value, path) :=
  (Walk.run_bind_of hkey).trans (Walk.run_bind_of hvalue)

/-- The walk leaves the containers it is in as it found them, so every item sees the same. -/
theorem displayThrough_eq (h : Heap) (fuel : Nat) (path : Enclosing) (v : Value) :
    (h.displayThrough fuel v).run path = (h.displayWithin fuel path v, path) := by
  induction fuel generalizing path v with
  | zero => cases v <;> rfl
  | succ fuel ih =>
    have hget : (get : Walk Enclosing).run path = (path, path) := rfl
    cases v with
    | list id =>
      rw [displayThrough, displayWithin, Walk.run_bind_of hget]
      by_cases hp : path.lists.contains id = true
      · rw [if_pos hp, if_pos hp]
        rfl
      · have hitems := Walk.mapM_steady fun v (_ : v ∈ (h.list id).toList) =>
          ih { path with lists := id :: path.lists } v
        have hlist := Walk.insideList_steady hitems
        rw [if_neg hp, if_neg hp, Walk.run_bind_of hlist]
        rfl
    | mapping id =>
      rw [displayThrough, displayWithin, Walk.run_bind_of hget]
      by_cases hp : path.mappings.contains id = true
      · rw [if_pos hp, if_pos hp]
        rfl
      · have inner := ih { path with mappings := id :: path.mappings }
        have hentries := Walk.mapM_steady fun e (_ : e ∈ (h.mapping id).entries) =>
          displayEntry_steady (inner e.1) (inner e.2)
        have hmapping := Walk.insideMapping_steady hentries
        rw [if_neg hp, if_neg hp, Walk.run_bind_of hmapping]
        rfl
    | _ => rfl

theorem display_eq (h : Heap) (v : Value) :
    h.display v = h.displayWithin (h.size + 1) ⟨[], []⟩ v :=
  congrArg Prod.fst (displayThrough_eq h _ _ v)

end Heap

end Offside
