import Offside.Library
import Offside.Proofs.Adding

/-!
What the builtins of the library may touch. Fourteen of them change an object, their names are
listed; those for files, directories and the system have to do with the disk and the environment,
their names begin accordingly. All others only add objects, and are off the disk.
-/

namespace Offside.Library

open Offside.Action

variable {α : Type} {edits outside : Prop}

/-- The builtins that change what their first argument refers to. -/
def editors : List String :=
  ["append", "pop", "insert", "list.append", "list.pop", "list.insert", "list.remove",
   "list.reverse", "list.clear", "list.extend", "list.sort", "map.clear", "map.update", "map.pop"]

/-- Builtins for files, directories and the system have names that begin so. -/
def isDiskName (name : String) : Bool :=
  ["file_", "dir_", "os_"].any fun start => start.toList.isPrefixOf name.toList

/-- The function of a builtin touches no more than that. -/
def IsConfined (edits outside : Prop) (b : Builtin) : Prop :=
  ∀ args, Confined edits outside (b.run args)

/-! ### Core functions -/

theorem output_confined (text : String) :
    Confined edits outside (modify (·.print text) : Action PUnit) :=
  .stream (fun _ => rfl) fun _ _ => rfl

theorem readLine_heap (w : World) : w.readLine.2.heap = w.heap := by
  unfold World.readLine
  split <;> rfl

theorem readLine_withDisk (w : World) (d : Disk) :
    (w.withDisk d).readLine = (w.readLine.1, w.readLine.2.withDisk d) := by
  unfold World.readLine World.withDisk
  split <;> rfl

theorem print_confined (args : List Value) : Confined edits outside (print args) :=
  .bind .heap fun _ => .bind (output_confined _) fun _ => .pure _

theorem input_confined (args : List Value) : Confined edits outside (input args) := by
  have hread (prompt : String) : Confined edits outside (do
      modify (·.print prompt)
      return Value.string ((← modifyGet fun w => w.readLine).getD "")) :=
    .bind (output_confined prompt) fun _ =>
      .bind (.stream readLine_heap readLine_withDisk) fun _ => .pure _
  unfold input
  cases args with
  | nil => exact .bind (.pure "") hread
  | cons v _ => exact .bind (string_confined _ _ v) hread

theorem length_confined (args : List Value) : Confined edits outside (length args) := by
  unfold length
  grind

theorem toText_confined (args : List Value) : Confined edits outside (toText args) := by
  unfold toText
  grind

theorem toInteger_confined (args : List Value) : Confined edits outside (toInteger args) := by
  unfold toInteger
  grind

theorem toFloatValue_confined (args : List Value) : Confined edits outside (toFloatValue args) := by
  unfold toFloatValue
  grind

theorem toBoolean_confined (args : List Value) : Confined edits outside (toBoolean args) := by
  unfold toBoolean
  grind

theorem typeName_confined (args : List Value) : Confined edits outside (typeName args) := by
  unfold typeName
  grind

@[grind .]
theorem progression_confined (start stop step : Int) :
    Confined edits outside (progression start stop step) := by
  unfold progression
  grind

theorem range_confined (args : List Value) : Confined edits outside (range args) := by
  unfold range
  grind

theorem toList_confined (args : List Value) : Confined edits outside (toList args) := by
  unfold toList
  grind

theorem append_confined (h : edits) (args : List Value) : Confined edits outside (append args) := by
  unfold append
  grind

theorem keys_confined (args : List Value) : Confined edits outside (keys args) := by
  unfold keys
  grind

theorem values_confined (args : List Value) : Confined edits outside (values args) := by
  unfold values
  grind

theorem absolute_confined (args : List Value) : Confined edits outside (absolute args) := by
  unfold absolute
  grind

@[grind .]
theorem liftRefusal_confined (r : Except Refusal α) : Confined edits outside (liftRefusal r) := by
  unfold liftRefusal
  grind

@[grind .]
theorem candidates_confined (builtin : String) (args : List Value) :
    Confined edits outside (candidates builtin args) := by
  unfold candidates
  grind

theorem minimum_confined (args : List Value) : Confined edits outside (minimum args) := by
  unfold minimum
  grind

theorem maximum_confined (args : List Value) : Confined edits outside (maximum args) := by
  unfold maximum
  grind

@[grind .]
theorem plus_confined (a b : Value) : Confined edits outside (plus a b) := by
  unfold plus
  grind

theorem sum_confined (args : List Value) : Confined edits outside (sum args) := by
  unfold sum
  grind

@[grind .]
theorem popItem_confined (h : edits) (id : Nat) (index : Option Value) :
    Confined edits outside (popItem id index) := by
  unfold popItem
  grind

theorem pop_confined (h : edits) (args : List Value) : Confined edits outside (pop args) := by
  unfold pop
  grind

@[grind .]
theorem insertItem_confined (h : edits) (id : Nat) (index : Int) (v : Value) :
    Confined edits outside (insertItem id index v) := by
  unfold insertItem
  grind

theorem insert_confined (h : edits) (args : List Value) :
    Confined edits outside (Library.insert args) := by
  unfold Library.insert
  grind

theorem sorted_confined (args : List Value) : Confined edits outside (sorted args) := by
  unfold sorted
  grind

theorem reversed_confined (args : List Value) : Confined edits outside (reversed args) := by
  unfold reversed
  grind

theorem enumerate_confined (args : List Value) : Confined edits outside (enumerate args) := by
  unfold enumerate
  grind

theorem zip_confined (args : List Value) : Confined edits outside (Library.zip args) := by
  unfold Library.zip
  split
  · refine .bind (list_confined _ _ _) fun left => ?_
    refine .bind (list_confined _ _ _) fun right => ?_
    grind
  · exact fault_confined _

theorem character_confined (args : List Value) : Confined edits outside (character args) := by
  unfold character
  grind

theorem codePoint_confined (args : List Value) : Confined edits outside (codePoint args) := by
  unfold codePoint
  grind

theorem hexadecimal_confined (args : List Value) : Confined edits outside (hexadecimal args) := by
  unfold hexadecimal
  grind

theorem round_confined (args : List Value) : Confined edits outside (Library.round args) := by
  unfold Library.round
  grind

theorem core_confined : ∀ b ∈ core, IsConfined (b.name ∈ editors) outside b := by
  simp only [core, List.forall_mem_cons]
  exact ⟨print_confined, length_confined, input_confined, toText_confined, toInteger_confined,
    toFloatValue_confined, toBoolean_confined, typeName_confined, range_confined, toList_confined,
    append_confined (by decide), keys_confined, values_confined, absolute_confined,
    minimum_confined, maximum_confined, sum_confined, pop_confined (by decide),
    insert_confined (by decide), sorted_confined, reversed_confined, enumerate_confined,
    zip_confined, character_confined, codePoint_confined, hexadecimal_confined, round_confined,
    nofun⟩

/-! ### Methods -/

@[grind .]
theorem lacks_confined (v : Value) (part : String) :
    Confined edits outside (lacks v part : Action α) :=
  fault_confined _

@[grind .]
theorem receiverText_confined (part : String) (v : Value) :
    Confined edits outside (receiverText part v) := by
  unfold receiverText
  grind

@[grind .]
theorem receiverList_confined (part : String) (v : Value) :
    Confined edits outside (receiverList part v) := by
  unfold receiverList
  grind

@[grind .]
theorem receiverItems_confined (v : Value) : Confined edits outside (receiverItems v) := by
  unfold receiverItems
  grind

@[grind .]
theorem receiverMapping_confined (part : String) (v : Value) :
    Confined edits outside (receiverMapping part v) := by
  unfold receiverMapping
  grind

theorem mapped_confined (name : String) (f : List Char → List Char) :
    IsConfined edits outside (TextMethod.mapped name f) := by
  intro args
  unfold TextMethod.mapped
  grind

theorem split_confined (args : List Value) : Confined edits outside (TextMethod.split args) := by
  unfold TextMethod.split
  grind

@[grind .]
theorem piece_confined (v : Value) : Confined edits outside (TextMethod.piece v) := by
  unfold TextMethod.piece
  grind

theorem join_confined (args : List Value) : Confined edits outside (TextMethod.join args) := by
  unfold TextMethod.join
  split
  · refine .bind (list_confined _ _ _) fun id => ?_
    refine .bind (receiverText_confined _ _) fun separator => ?_
    grind
  · exact fault_confined _

theorem searching_confined (name : String) (f : List Char → List Char → Value) :
    IsConfined edits outside (TextMethod.searching name f) := by
  intro args
  unfold TextMethod.searching
  grind

theorem contains_confined (args : List Value) :
    Confined edits outside (TextMethod.contains args) := by
  unfold TextMethod.contains
  grind

theorem replace_confined (args : List Value) :
    Confined edits outside (TextMethod.replace args) := by
  unfold TextMethod.replace
  grind

theorem textMethods_confined : ∀ b ∈ textMethods, IsConfined edits outside b := by
  simp only [textMethods, List.forall_mem_cons]
  exact ⟨mapped_confined _ _, mapped_confined _ _, mapped_confined _ _, mapped_confined _ _,
    mapped_confined _ _, split_confined, join_confined, searching_confined _ _, replace_confined,
    searching_confined _ _, searching_confined _ _, searching_confined _ _, contains_confined,
    nofun⟩

namespace ListMethod

@[grind .]
theorem needed_confined (id : Nat) (v : Value) :
    Confined edits outside (ListMethod.needed id v) := by
  unfold ListMethod.needed
  grind

theorem append_confined (h : edits) (args : List Value) :
    Confined edits outside (ListMethod.append args) := by
  unfold ListMethod.append
  grind

theorem pop_confined (h : edits) (args : List Value) :
    Confined edits outside (ListMethod.pop args) := by
  unfold ListMethod.pop
  grind

theorem insert_confined (h : edits) (args : List Value) :
    Confined edits outside (ListMethod.insert args) := by
  unfold ListMethod.insert
  grind

theorem remove_confined (h : edits) (args : List Value) :
    Confined edits outside (ListMethod.remove args) := by
  unfold ListMethod.remove
  grind

theorem reverse_confined (h : edits) (args : List Value) :
    Confined edits outside (ListMethod.reverse args) := by
  unfold ListMethod.reverse
  grind

theorem clear_confined (h : edits) (args : List Value) :
    Confined edits outside (ListMethod.clear args) := by
  unfold ListMethod.clear
  grind

theorem index_confined (args : List Value) : Confined edits outside (ListMethod.index args) := by
  unfold ListMethod.index
  grind

theorem count_confined (args : List Value) : Confined edits outside (ListMethod.count args) := by
  unfold ListMethod.count
  grind

theorem copy_confined (args : List Value) : Confined edits outside (ListMethod.copy args) := by
  unfold ListMethod.copy
  grind

theorem extend_confined (h : edits) (args : List Value) :
    Confined edits outside (ListMethod.extend args) := by
  unfold ListMethod.extend
  grind

theorem sort_confined (h : edits) (args : List Value) :
    Confined edits outside (ListMethod.sort args) := by
  unfold ListMethod.sort
  grind

end ListMethod

theorem listMethods_confined : ∀ b ∈ listMethods, IsConfined (b.name ∈ editors) outside b := by
  simp only [listMethods, List.forall_mem_cons]
  exact ⟨ListMethod.append_confined (by decide), ListMethod.pop_confined (by decide),
    ListMethod.insert_confined (by decide), ListMethod.remove_confined (by decide),
    ListMethod.reverse_confined (by decide), ListMethod.clear_confined (by decide),
    ListMethod.index_confined, ListMethod.count_confined, ListMethod.copy_confined,
    ListMethod.extend_confined (by decide), ListMethod.sort_confined (by decide), nofun⟩

namespace MapMethod

theorem get_confined (args : List Value) : Confined edits outside (MapMethod.get args) := by
  unfold MapMethod.get
  grind

theorem keys_confined (args : List Value) : Confined edits outside (MapMethod.keys args) := by
  unfold MapMethod.keys
  grind

theorem values_confined (args : List Value) : Confined edits outside (MapMethod.values args) := by
  unfold MapMethod.values
  grind

theorem entries_confined (args : List Value) : Confined edits outside (MapMethod.entries args) := by
  unfold MapMethod.entries
  grind

theorem clear_confined (h : edits) (args : List Value) :
    Confined edits outside (MapMethod.clear args) := by
  unfold MapMethod.clear
  grind

theorem update_confined (h : edits) (args : List Value) :
    Confined edits outside (MapMethod.update args) := by
  unfold MapMethod.update
  grind

theorem pop_confined (h : edits) (args : List Value) :
    Confined edits outside (MapMethod.pop args) := by
  unfold MapMethod.pop
  split
  · refine .bind (ofOperation_confined _) fun _ => ?_
    refine .bind (receiverMapping_confined _ _) fun id => ?_
    grind
  · exact fault_confined _

end MapMethod

theorem mapMethods_confined : ∀ b ∈ mapMethods, IsConfined (b.name ∈ editors) outside b := by
  simp only [mapMethods, List.forall_mem_cons]
  exact ⟨MapMethod.get_confined, MapMethod.keys_confined, MapMethod.values_confined,
    MapMethod.entries_confined, MapMethod.clear_confined (by decide),
    MapMethod.update_confined (by decide), MapMethod.pop_confined (by decide), nofun⟩

/-! ### Arithmetic, JSON and tables -/

namespace Arithmetic

@[grind .]
theorem argument_confined (v : Value) : Confined edits outside (argument v) := by
  unfold argument
  grind

@[grind .]
theorem arguments_confined (name : String) (args : List Value) :
    Confined edits outside (arguments name args) := by
  unfold arguments
  grind

@[grind .]
theorem checked_confined (outgrows : Bool) (x y : Float) :
    Confined edits outside (checked outgrows x y) := by
  unfold checked
  grind

theorem function_confined (name : String) (outgrows : Bool) (f : Float → Float) :
    IsConfined edits outside (function name outgrows f) := by
  intro args
  unfold function
  grind

theorem rounding_confined (name : String) (f : Float → Option Int) :
    IsConfined edits outside (rounding name f) := by
  intro args
  unfold rounding
  grind

theorem binaryFunction_confined {name : String} {f : Float → Float → Action Value}
    (hf : ∀ x y, Confined edits outside (f x y)) :
    IsConfined edits outside (binaryFunction name f) := by
  intro args
  unfold binaryFunction
  grind

theorem constant_confined (name : String) (v : Value) :
    IsConfined edits outside (constant name v) :=
  fun _ => .pure _

theorem remainder_confined (x y : Float) : Confined edits outside (remainder x y) := by
  unfold remainder
  grind

theorem power_confined (x y : Float) : Confined edits outside (power x y) := by
  unfold power
  grind

end Arithmetic

theorem arithmetic_confined : ∀ b ∈ arithmetic, IsConfined edits outside b := by
  simp only [arithmetic, List.forall_mem_cons, Arithmetic.function_confined,
    Arithmetic.rounding_confined, Arithmetic.constant_confined, true_and]
  exact ⟨Arithmetic.binaryFunction_confined Arithmetic.remainder_confined,
    Arithmetic.binaryFunction_confined fun _ _ => .pure _,
    Arithmetic.binaryFunction_confined Arithmetic.power_confined, nofun⟩

namespace JsonText

mutual
theorem value_confined : (j : Json) → Confined edits outside (value j)
  | .null | .boolean _ | .integer _ | .float _ | .string _ => by
    unfold value
    exact .pure _
  | .array parts => by
    unfold value
    exact .bind (values_confined parts) .newList
  | .object fields => by
    unfold value
    exact .bind (entries_confined fields) fun _ => .newMapping _
theorem values_confined : (js : List Json) → Confined edits outside (values js)
  | [] => by
    unfold values
    exact .pure _
  | j :: rest => by
    unfold values
    exact .bind (value_confined j) fun v =>
      .bind (values_confined rest) fun vs => .pure _
theorem entries_confined : (fields : List (String × Json)) → Confined edits outside (entries fields)
  | [] => by
    unfold entries
    exact .pure _
  | (key, j) :: rest => by
    unfold entries
    exact .bind (value_confined j) fun v =>
      .bind (entries_confined rest) fun vs => .pure _
end

theorem parse_confined (args : List Value) : Confined edits outside (parse args) := by
  unfold parse
  grind [value_confined]

@[grind .]
theorem indentation_confined (n : Int) : Confined edits outside (indentation n) := by
  unfold indentation
  grind

theorem stringify_confined (args : List Value) : Confined edits outside (stringify args) := by
  have hindented (indent : Option Int) : Confined edits outside (indent.mapM indentation) := by
    cases indent with
    | none => exact .pure none
    | some n => exact .bind (indentation_confined n) fun _ => .pure _
  have hwritten (indent : Option Int) (j : Json) : Confined edits outside (do
      let indent ← indent.mapM indentation
      if j.hasLongInteger longestInteger then fail .longInteger
      return Value.string (j.render indent)) := by
    refine .bind (hindented indent) fun _ => ?_
    grind
  unfold stringify
  rcases args with _ | ⟨v, _ | ⟨n, rest⟩⟩
  · exact fault_confined _
  · refine .bind (.pure none) fun indent => .bind .heap fun h => ?_
    split
    · exact fail_confined _
    · exact .pure _
    · exact hwritten _ _
  · refine .bind (integer_confined _ _ n) fun indent => ?_
    refine .bind (.pure _) fun indent => .bind .heap fun h => ?_
    split
    · exact fail_confined _
    · exact .pure _
    · exact hwritten _ _

end JsonText

theorem json_confined : ∀ b ∈ json, IsConfined edits outside b := by
  simp only [json, List.forall_mem_cons]
  exact ⟨JsonText.parse_confined, JsonText.stringify_confined, nofun⟩

namespace Table

@[grind .]
theorem delimiter_confined (builtin : String) (args : List Value) :
    Confined edits outside (delimiter builtin args) := by
  unfold delimiter
  grind

@[grind .]
theorem hasHeader_confined (args : List Value) : Confined edits outside (hasHeader args) := by
  unfold hasHeader
  grind

theorem parse_confined (args : List Value) : Confined edits outside (parse args) := by
  unfold parse
  cases args with
  | nil => exact fault_confined _
  | cons v rest =>
    refine .bind (string_confined _ _ v) fun text => ?_
    refine .bind (delimiter_confined _ rest) fun delimiter => ?_
    refine .bind (hasHeader_confined _) fun header => ?_
    split
    · exact fail_confined _
    · exact fail_confined _
    · grind

theorem quoting_confined : Confined edits outside quoting := .stream (fun _ => rfl) fun _ _ => rfl

theorem stringify_confined (args : List Value) : Confined edits outside (stringify args) := by
  unfold stringify
  cases args with
  | nil => exact fault_confined _
  | cons v rest =>
    refine .bind (list_confined _ _ v) fun id => ?_
    refine .bind (delimiter_confined _ rest) fun delimiter => ?_
    refine .bind .heap fun h => .bind (items_confined id) fun data => ?_
    split
    · exact .bind quoting_confined fun _ => .pure _
    · exact fail_confined _

end Table

theorem csv_confined : ∀ b ∈ csv, IsConfined edits outside b := by
  simp only [csv, List.forall_mem_cons]
  exact ⟨Table.parse_confined, Table.stringify_confined, nofun⟩

/-! ### Files, directories and the system -/

@[grind .]
theorem disk_confined : Confined edits True disk := .bind (.get trivial) fun _ => .pure _

@[grind .]
theorem ofDisk_confined (deed : Deed) (path : String) (r : Disk.Result α) :
    Confined edits True (ofDisk deed path r) := by
  unfold ofDisk
  grind

/-- A change of the world beside the heap, after which something is done. -/
theorem confined_changing {f : World → World} {x : Action α} (hf : ∀ w, (f w).heap = w.heap)
    (hx : Confined edits True x) : Confined edits True (modify f >>= fun _ => x) :=
  .bind (.modify trivial hf) fun _ => hx

@[grind .]
theorem changeDisk_confined (deed : Deed) (path : String) (change : Disk → Disk.Result Disk) :
    Confined edits True (changeDisk deed path change) := by
  refine .bind disk_confined fun d => .bind (ofDisk_confined _ _ _) fun changed => ?_
  exact confined_changing (fun _ => rfl) (.pure _)

@[grind .]
theorem changeText_confined (path text : String) (put : Disk → ByteArray → Disk.Result Disk) :
    Confined edits True (changeText path text put) := by
  unfold changeText
  split
  · exact changeDisk_confined _ _ _
  · exact .bind (.bind (changeDisk_confined _ _ _) fun _ => .pure _) fun _ => fault_confined _

@[grind .]
theorem path_confined (builtin : String) (v : Value) :
    Confined edits True (path builtin v) := string_confined _ _ v

namespace File

theorem read_confined (args : List Value) : Confined edits True (read args) := by
  unfold read
  split
  · refine .bind (path_confined _ _) fun path => .bind disk_confined fun d => ?_
    split
    · exact fail_confined _
    · exact .bind (ofDisk_confined _ _ _) fun bytes => by grind
  · exact fault_confined _

theorem write_confined (args : List Value) : Confined edits True (write args) := by
  unfold write
  grind

theorem append_confined (args : List Value) : Confined edits True (append args) := by
  unfold append
  grind

theorem delete_confined (args : List Value) : Confined edits True (delete args) := by
  unfold delete
  split
  · refine .bind (path_confined _ _) fun path => .bind disk_confined fun d => ?_
    split
    · exact .pure _
    · refine .bind (ofDisk_confined _ _ _) fun changed => ?_
      exact confined_changing (fun _ => rfl) (.pure _)
  · exact fault_confined _

theorem isThere_confined (args : List Value) : Confined edits True (isThere args) := by
  unfold isThere
  grind

theorem rename_confined (args : List Value) : Confined edits True (rename args) := by
  unfold rename
  grind

theorem copy_confined (args : List Value) : Confined edits True (copy args) := by
  unfold copy
  grind

theorem list_confined (args : List Value) : Confined edits True (list args) := by
  unfold list
  grind

theorem createDirectory_confined (args : List Value) :
    Confined edits True (createDirectory args) := by
  unfold createDirectory
  split
  · refine .bind (path_confined _ _) fun path => .bind disk_confined fun d => ?_
    refine confined_changing (fun _ => rfl) ?_
    split
    · exact .pure _
    · exact ofDisk_confined _ _ _
  · exact fault_confined _

theorem isDirectory_confined (args : List Value) : Confined edits True (isDirectory args) := by
  unfold isDirectory
  grind

end File

theorem files_confined : ∀ b ∈ files, IsConfined edits True b := by
  simp only [files, List.forall_mem_cons]
  exact ⟨File.read_confined, File.write_confined, File.append_confined, File.delete_confined,
    File.isThere_confined, File.rename_confined, File.copy_confined, File.list_confined,
    File.createDirectory_confined, File.isDirectory_confined, nofun⟩

namespace System

@[grind .]
theorem workingPath_confined : Confined edits True workingPath := by
  unfold workingPath
  grind

theorem currentDirectory_confined (args : List Value) :
    Confined edits True (currentDirectory args) := by
  unfold currentDirectory
  grind

theorem changeDirectory_confined (args : List Value) :
    Confined edits True (changeDirectory args) := by
  unfold changeDirectory
  grind

theorem getVariable_confined (args : List Value) : Confined edits True (getVariable args) := by
  unfold getVariable
  grind

theorem setVariable_confined (args : List Value) : Confined edits True (setVariable args) := by
  unfold setVariable
  split
  · refine .bind (string_confined _ _ _) fun name => .bind (string_confined _ _ _) fun value => ?_
    refine confined_check (fault_confined _) (confined_check (fault_confined _) ?_)
    refine confined_check (fault_confined _) ?_
    exact confined_changing (fun _ => rfl) (.pure _)
  · exact fault_confined _

theorem unsetVariable_confined (args : List Value) : Confined edits True (unsetVariable args) := by
  unfold unsetVariable
  split
  · refine .bind (string_confined _ _ _) fun name => .bind (.get trivial) fun w => ?_
    exact confined_changing (fun _ => rfl) (.pure _)
  · exact fault_confined _

theorem environment_confined (args : List Value) : Confined edits True (environment args) :=
  .bind (.get trivial) fun _ => .newMapping _

theorem remove_confined (args : List Value) : Confined edits True (remove args) := by
  unfold remove
  grind

theorem makeDirectory_confined (args : List Value) : Confined edits True (makeDirectory args) := by
  unfold makeDirectory
  grind

theorem removeDirectory_confined (args : List Value) :
    Confined edits True (removeDirectory args) := by
  unfold removeDirectory
  grind

theorem joinPath_confined (args : List Value) : Confined edits True (joinPath args) := by
  unfold joinPath
  grind

theorem asking_confined (name : String) (ask : Disk → String → Bool) :
    IsConfined edits True (asking name ask) := by
  intro args
  unfold asking
  grind

theorem onText_confined (name : String) (f : List Char → List Char) :
    IsConfined edits True (onText name f) := by
  intro args
  unfold onText
  grind

theorem splitExtension_confined (args : List Value) :
    Confined edits True (splitExtension args) := by
  unfold splitExtension
  grind

theorem absolutePath_confined (args : List Value) : Confined edits True (absolutePath args) := by
  unfold absolutePath
  grind

end System

theorem system_confined : ∀ b ∈ system, IsConfined edits True b := by
  simp only [system, List.forall_mem_cons, System.asking_confined, System.onText_confined, true_and]
  exact ⟨System.currentDirectory_confined, System.changeDirectory_confined,
    System.getVariable_confined, System.setVariable_confined, System.unsetVariable_confined,
    System.environment_confined, System.remove_confined, System.makeDirectory_confined,
    System.removeDirectory_confined, System.joinPath_confined, System.splitExtension_confined,
    System.absolutePath_confined, nofun⟩

/-! ### The whole library -/

theorem disk_names : ∀ b ∈ files ++ system, isDiskName b.name = true := by
  decide

/-- The names of the builtins tell what they may touch. -/
theorem library_confined {b : Builtin} (hb : b ∈ builtins) :
    IsConfined (b.name ∈ editors) (isDiskName b.name = true) b := by
  have hdisk (hmem : b ∈ files ++ system) (h : IsConfined (b.name ∈ editors) True b) :
      IsConfined (b.name ∈ editors) (isDiskName b.name = true) b :=
    fun args => (h args).mono id fun _ => disk_names b hmem
  simp only [builtins, methods, List.mem_append] at hb
  rcases hb with (((((hb | (hb | hb) | hb) | hb) | hb) | hb) | hb) | hb
  · exact core_confined b hb
  · exact textMethods_confined b hb
  · exact listMethods_confined b hb
  · exact mapMethods_confined b hb
  · exact hdisk (List.mem_append_left _ hb) (files_confined b hb)
  · exact hdisk (List.mem_append_right _ hb) (system_confined b hb)
  · exact arithmetic_confined b hb
  · exact json_confined b hb
  · exact csv_confined b hb

/-- The function of a builtin is off the disk. -/
def IsOffDisk (b : Builtin) : Prop := ∀ args, OffDisk (b.run args)

theorem call_offDisk {b : Builtin} (h : IsOffDisk b) (args : List Value) :
    OffDisk (b.call args) := by
  unfold Builtin.call
  cases b.arity? with
  | none => exact h args
  | some range => exact offDisk_ite (h args) (offDisk_throw _)

/-- A builtin of the library whose name does not tell so has nothing to do with the disk. -/
theorem library_offDisk {b : Builtin} (hb : b ∈ builtins) (hname : isDiskName b.name = false) :
    IsOffDisk b := fun args =>
  ((library_confined hb args).mono (fun _ => trivial) (by simp [hname])).offDisk

/-- The function of a builtin changes no object. -/
def IsAdding (b : Builtin) : Prop := ∀ args, Adds (b.run args)

theorem call_adds {b : Builtin} (h : IsAdding b) (args : List Value) : Adds (b.call args) := by
  unfold Builtin.call
  cases b.arity? with
  | none => exact h args
  | some range => exact adds_ite (h args) (adds_throw _)

/-- A builtin that is not in the list changes no object. -/
theorem library_adds {b : Builtin} (hb : b ∈ builtins) (hname : b.name ∉ editors) : IsAdding b :=
  fun args => ((library_confined hb args).mono hname fun _ => trivial).adds

end Offside.Library
