import Offside.Proofs.Library.Reporting

/-!
What every builtin of the library leaves behind, those of the disk included: from a heap of values
of the language such a heap, whatever is refused, and for a result such a value. A builtin off the
disk does more, it reports what it refuses; the disk can refuse for reasons of its own.
-/

namespace Offside

namespace Action

variable {α β : Type} {P : α → Prop} {Q : β → Prop}

/-- A result satisfies `P`, and the heap holds values of the language. -/
def Retained (P : α → Prop) : EStateM.Result Refusal World α → Prop
  | .ok a w => P a ∧ w.heap.Proper
  | .error _ w => w.heap.Proper

/-- An action that ends so wherever the heap holds values of the language. -/
structure Retains (P : α → Prop) (x : Action α) : Prop where
  retained : ∀ w, w.heap.Proper → Retained P (x w)

theorem Reports.retains {x : Action α} (h : Reports P x) : Retains P x := by
  constructor
  intro w hw
  have hr := h.reported w hw
  cases hx : x w with
  | ok a w' =>
    rw [hx] at hr
    exact hr
  | error r w' =>
    rw [hx] at hr
    exact hr.2

theorem retains_pure {a : α} (h : P a) : Retains P (pure a : Action α) := ⟨fun _ hw => ⟨h, hw⟩⟩

@[grind .]
theorem retains_throw (r : Refusal) : Retains P (throw r : Action α) := ⟨fun _ hw => hw⟩

@[grind .]
theorem retains_fail (f : Failure) : Retains P (fail f : Action α) := retains_throw _

@[grind .]
theorem retains_fault (f : Fault) : Retains P (fault f : Action α) := retains_throw _

theorem retains_bind {x : Action β} {f : β → Action α} (hx : Retains Q x)
    (hf : ∀ b, Q b → Retains P (f b)) : Retains P (x >>= f) := by
  constructor
  intro w hw
  have h := hx.retained w hw
  rw [bind_apply]
  cases hr : x w with
  | ok b w' =>
    rw [hr] at h
    exact (hf b h.1).retained w' h.2
  | error r w' =>
    rw [hr] at h
    exact h

/-- What the disk answers is no value, so nothing has to be known of it. -/
@[grind .]
theorem retains_then {x : Action β} {f : β → Action α} (hx : Retains (fun _ => True) x)
    (hf : ∀ b, Retains P (f b)) : Retains P (x >>= f) :=
  retains_bind hx fun b _ => hf b

/-- A check that an action begins with. -/
theorem retains_check {p : Prop} [Decidable p] {x : Action Unit} {f : Unit → Action α}
    (hx : Retains (fun _ => True) x) (hf : Retains P (f ())) :
    Retains P (if p then x >>= f else f ()) := by
  by_cases hp : p
  · rw [if_pos hp]
    exact retains_then hx fun _ => hf
  · rwa [if_neg hp]

/-- A change of the world that leaves the heap alone. -/
theorem retains_changing {f : World → World} {x : Action α} (hf : ∀ w, (f w).heap = w.heap)
    (hx : Retains P x) : Retains P (modify f >>= fun _ => x) :=
  retains_then (reports_modify hf).retains fun _ => hx

@[grind .]
theorem retains_get : Retains (fun _ => True) (get : Action World) := ⟨fun _ hw => ⟨trivial, hw⟩⟩

@[grind .]
theorem retains_string (builtin what : String) (v : Value) :
    Retains (fun _ => True) (string builtin what v) :=
  (string_reports builtin what v).retains

@[grind .]
theorem retains_none : Retains Value.Proper (pure .none : Action Value) := retains_pure trivial

@[grind .]
theorem retains_boolean (b : Bool) : Retains Value.Proper (pure (.boolean b) : Action Value) :=
  retains_pure trivial

@[grind .]
theorem retains_text (s : String) : Retains Value.Proper (pure (.string s) : Action Value) :=
  retains_pure trivial

end Action

namespace Library

open Offside.Action

variable {α : Type}

@[grind .]
theorem disk_retains : Retains (fun _ => True) disk :=
  retains_bind retains_get fun _ _ => retains_pure trivial

@[grind .]
theorem ofDisk_retains (deed : Deed) (path : String) (r : Disk.Result α) :
    Retains (fun _ => True) (ofDisk deed path r) := by
  unfold ofDisk
  split
  · exact retains_pure trivial
  · exact retains_fault _
  · exact retains_fail _

@[grind .]
theorem changeDisk_retains (deed : Deed) (path : String) (change : Disk → Disk.Result Disk) :
    Retains Value.Proper (changeDisk deed path change) := by
  refine retains_then disk_retains fun d => retains_then (ofDisk_retains _ _ _) fun changed => ?_
  exact retains_changing (fun _ => rfl) retains_none

@[grind .]
theorem changeText_retains (path text : String) (put : Disk → ByteArray → Disk.Result Disk) :
    Retains Value.Proper (changeText path text put) := by
  unfold changeText
  split
  · exact changeDisk_retains _ _ _
  · refine retains_then ?_ fun _ => retains_fault _
    exact retains_bind (changeDisk_retains _ _ _) fun _ _ => retains_pure trivial

@[grind .]
theorem path_retains (builtin : String) (v : Value) : Retains (fun _ => True) (path builtin v) :=
  retains_string _ _ v

/-! ### Files and directories -/

namespace File

theorem read_retains (args : List Value) : Retains Value.Proper (read args) := by
  unfold read
  split
  · next v =>
    refine retains_then (path_retains _ v) fun path => retains_then disk_retains fun d => ?_
    split
    · exact retains_fail _
    · refine retains_then (ofDisk_retains _ _ _) fun bytes => ?_
      split
      · exact retains_text _
      · exact retains_fail _
  · exact retains_fault _

theorem write_retains (args : List Value) : Retains Value.Proper (write args) := by
  unfold write
  grind

theorem append_retains (args : List Value) : Retains Value.Proper (append args) := by
  unfold append
  grind

theorem delete_retains (args : List Value) : Retains Value.Proper (delete args) := by
  unfold delete
  split
  · next v =>
    refine retains_then (path_retains _ v) fun path => retains_then disk_retains fun d => ?_
    split
    · exact retains_boolean false
    · refine retains_then (ofDisk_retains _ _ _) fun changed => ?_
      exact retains_changing (fun _ => rfl) (retains_boolean true)
  · exact retains_fault _

theorem isThere_retains (args : List Value) : Retains Value.Proper (isThere args) := by
  unfold isThere
  grind

theorem rename_retains (args : List Value) : Retains Value.Proper (rename args) := by
  unfold rename
  grind

theorem copy_retains (args : List Value) : Retains Value.Proper (copy args) := by
  unfold copy
  grind

theorem list_retains (args : List Value) : Retains Value.Proper (list args) := by
  have hnames (names : List String) :
      Retains Value.Proper (newList (names.map Value.string)) := by
    refine (newList_reports fun v hv => ?_).retains
    obtain ⟨name, -, rfl⟩ := List.mem_map.mp hv
    trivial
  unfold list
  grind

theorem createDirectory_retains (args : List Value) :
    Retains Value.Proper (createDirectory args) := by
  have hrefused (path : String) (e : SystemError) :
      Retains Value.Proper (ofDisk .creating path (.error e) : Action Value) := by
    unfold ofDisk
    grind
  unfold createDirectory
  split
  · next v =>
    refine retains_then (path_retains _ v) fun path => retains_then disk_retains fun d => ?_
    refine retains_changing (fun _ => rfl) ?_
    split
    · exact retains_none
    · exact hrefused _ _
  · exact retains_fault _

theorem isDirectory_retains (args : List Value) : Retains Value.Proper (isDirectory args) := by
  unfold isDirectory
  grind

end File

/-- The function of a builtin leaves values of the language behind. -/
def IsRetaining (b : Builtin) : Prop :=
  ∀ args, Fitting b.name args → b.Takes args.length → Retains Value.Proper (b.run args)

theorem call_retains {b : Builtin} (h : IsRetaining b) {args : List Value}
    (hargs : Fitting b.name args) : Retains Value.Proper (b.call args) := by
  unfold Builtin.call
  split
  · next harity => exact h args hargs (Builtin.takes_any harity)
  · next range harity =>
    split
    · next hhas => exact h args hargs (Builtin.takes_of_has harity hhas)
    · exact retains_fail _

theorem files_retain : ∀ b ∈ files, IsRetaining b := by
  simp only [files, List.forall_mem_cons]
  exact ⟨fun args _ _ => File.read_retains args, fun args _ _ => File.write_retains args,
    fun args _ _ => File.append_retains args, fun args _ _ => File.delete_retains args,
    fun args _ _ => File.isThere_retains args, fun args _ _ => File.rename_retains args,
    fun args _ _ => File.copy_retains args, fun args _ _ => File.list_retains args,
    fun args _ _ => File.createDirectory_retains args, fun args _ _ => File.isDirectory_retains args,
    List.forall_mem_nil _⟩

/-! ### The system -/

namespace System

@[grind .]
theorem workingPath_retains : Retains (fun _ => True) workingPath := by
  unfold workingPath
  refine retains_then disk_retains fun d => ?_
  split
  · exact retains_pure trivial
  · exact retains_fault _

theorem currentDirectory_retains (args : List Value) :
    Retains Value.Proper (currentDirectory args) := by
  unfold currentDirectory
  grind

theorem changeDirectory_retains (args : List Value) :
    Retains Value.Proper (changeDirectory args) := by
  unfold changeDirectory
  grind

/-- The default is an argument. -/
theorem getVariable_retains {args : List Value} (h : ∀ v ∈ args, v.Proper) :
    Retains Value.Proper (getVariable args) := by
  unfold getVariable
  split
  · next v rest =>
    have hdefault : (rest.headD .none).Proper := by
      cases rest with
      | nil => trivial
      | cons w rest => exact h w (.tail _ (.head _))
    refine retains_then (retains_string _ _ v) fun name => retains_then retains_get fun w => ?_
    split
    · exact retains_text _
    · exact retains_pure hdefault
  · exact retains_fault _

theorem setVariable_retains (args : List Value) : Retains Value.Proper (setVariable args) := by
  unfold setVariable
  split
  · next name value =>
    refine retains_then (retains_string _ _ name) fun name => ?_
    refine retains_then (retains_string _ _ value) fun value => ?_
    refine retains_check (retains_fault _) (retains_check (retains_fault _) ?_)
    refine retains_check (retains_fault _) ?_
    exact retains_changing (fun _ => rfl) retains_none
  · exact retains_fault _

theorem unsetVariable_retains (args : List Value) : Retains Value.Proper (unsetVariable args) := by
  unfold unsetVariable
  split
  · next name =>
    refine retains_then (retains_string _ _ name) fun name => retains_then retains_get fun w => ?_
    exact retains_changing (fun _ => rfl) (retains_boolean _)
  · exact retains_fault _

theorem environment_retains (args : List Value) : Retains Value.Proper (environment args) := by
  refine retains_then retains_get fun w => (newMapping_reports ?_).retains
  exact Mapping.ofEntries_proper (List.forall_mem_map.mpr fun _ _ => ⟨trivial, trivial⟩)

theorem remove_retains (args : List Value) : Retains Value.Proper (remove args) := by
  unfold remove
  grind

theorem makeDirectory_retains (args : List Value) : Retains Value.Proper (makeDirectory args) := by
  unfold makeDirectory
  grind

theorem removeDirectory_retains (args : List Value) :
    Retains Value.Proper (removeDirectory args) := by
  unfold removeDirectory
  grind

theorem joinPath_retains (args : List Value) : Retains Value.Proper (joinPath args) := by
  have hparts : Retains (fun _ => True) (args.mapM (string "os_path_join" "part")) := by
    exact (reports_imp (reports_mapM fun v _ => string_reports "os_path_join" "part" v)
      fun _ _ => trivial).retains
  unfold joinPath
  grind

theorem asking_retains (name : String) (ask : Disk → String → Bool) :
    IsRetaining (asking name ask) := by
  intro args _ _
  unfold asking
  grind

theorem onText_retains (name : String) (f : List Char → List Char) :
    IsRetaining (onText name f) := by
  intro args _ _
  unfold onText
  grind

theorem splitExtension_retains (args : List Value) :
    Retains Value.Proper (splitExtension args) := by
  have hparts (root extension : List Char) : Retains Value.Proper
      (newList [.string (String.ofList root), .string (String.ofList extension)]) :=
    (newList_reports (by simp [Value.Proper])).retains
  unfold splitExtension
  grind

theorem absolutePath_retains (args : List Value) : Retains Value.Proper (absolutePath args) := by
  unfold absolutePath
  grind

end System

theorem system_retains : ∀ b ∈ system, IsRetaining b := by
  simp only [system, List.forall_mem_cons]
  exact ⟨fun args _ _ => System.currentDirectory_retains args,
    fun args _ _ => System.changeDirectory_retains args,
    fun args h _ => System.getVariable_retains h.values,
    fun args _ _ => System.setVariable_retains args, fun args _ _ => System.unsetVariable_retains args,
    fun args _ _ => System.environment_retains args, fun args _ _ => System.remove_retains args,
    fun args _ _ => System.makeDirectory_retains args,
    fun args _ _ => System.removeDirectory_retains args, fun args _ _ => System.joinPath_retains args,
    System.asking_retains _ _, System.asking_retains _ _, System.asking_retains _ _,
    System.onText_retains _ _, System.onText_retains _ _,
    fun args _ _ => System.splitExtension_retains args,
    fun args _ _ => System.absolutePath_retains args, System.onText_retains _ _, List.forall_mem_nil _⟩

/-! ### The whole library -/

theorem library_retains {b : Builtin} (hb : b ∈ builtins) : IsRetaining b := by
  have hreporting (h : IsReporting b) : IsRetaining b :=
    fun args hargs hn => (h args hargs hn).retains
  simp only [builtins, methods, List.mem_append] at hb
  rcases hb with (((((hb | (hb | hb) | hb) | hb) | hb) | hb) | hb) | hb
  · exact hreporting (core_reports b hb)
  · exact hreporting (textMethods_reports b hb)
  · exact hreporting (listMethods_reports b hb)
  · exact hreporting (mapMethods_reports b hb)
  · exact files_retain b hb
  · exact system_retains b hb
  · exact hreporting (arithmetic_reports b hb)
  · exact hreporting (json_reports b hb)
  · exact hreporting (csv_reports b hb)

end Library

end Offside
