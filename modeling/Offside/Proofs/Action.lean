import Mathlib.Tactic
import Offside.Builtin

/-!
What actions of builtins may touch. An action that has nothing to do with the disk does the same on
every disk and leaves it as it is. Of what actions are made is an inductive predicate, so that a
builtin is gone through once, by `grind` and the lemmas of this module, for all that follows from
its parts.
-/

namespace Offside

variable {α β : Type}

def World.withDisk (w : World) (d : Disk) : World := { w with disk := d }

@[simp] theorem World.withDisk_disk (w : World) (d : Disk) : (w.withDisk d).disk = d := rfl

@[simp] theorem World.withDisk_heap (w : World) (d : Disk) : (w.withDisk d).heap = w.heap := rfl

@[simp] theorem World.withDisk_withDisk (w : World) (d d' : Disk) :
    (w.withDisk d).withDisk d' = w.withDisk d' := rfl

namespace Action

/-- The same result with another disk. -/
def onDisk (d : Disk) : EStateM.Result Refusal World α → EStateM.Result Refusal World α
  | .ok a w => .ok a (w.withDisk d)
  | .error r w => .error r (w.withDisk d)

/-- An action that neither looks at the disk nor changes it. -/
structure OffDisk (x : Action α) : Prop where
  same : ∀ w d, x (w.withDisk d) = onDisk d (x w)

/-- The world that a result leaves. -/
def worldAfter : EStateM.Result Refusal World α → World
  | .ok _ w => w
  | .error _ w => w

theorem OffDisk.keeps {x : Action α} (h : OffDisk x) (w : World) :
    (worldAfter (x w)).disk = w.disk := by
  have hsame : x w = onDisk w.disk (x w) := h.same w w.disk
  rw [hsame]
  cases x w <;> rfl

theorem offDisk_pure (a : α) : OffDisk (pure a) := ⟨fun _ _ => rfl⟩

theorem offDisk_throw (r : Refusal) : OffDisk (throw r : Action α) := ⟨fun _ _ => rfl⟩

theorem bind_apply (x : Action β) (f : β → Action α) (w : World) :
    (x >>= f) w = match x w with
      | .ok b w' => f b w'
      | .error r w' => .error r w' := by
  change EStateM.bind x f w = _
  unfold EStateM.bind
  cases x w <;> rfl

theorem offDisk_bind {x : Action β} {f : β → Action α} (hx : OffDisk x)
    (hf : ∀ b, OffDisk (f b)) : OffDisk (x >>= f) := by
  constructor
  intro w d
  rw [bind_apply, bind_apply, hx.same]
  cases x w with
  | ok b w' => exact (hf b).same w' d
  | error r w' => rfl

theorem offDisk_ite {p : Prop} [Decidable p] {x y : Action α} (hx : OffDisk x) (hy : OffDisk y) :
    OffDisk (if p then x else y) := by
  by_cases hp : p
  · rwa [if_pos hp]
  · rwa [if_neg hp]

theorem offDisk_modifyGet {f : World → α × World}
    (hf : ∀ w d, f (w.withDisk d) = ((f w).1, (f w).2.withDisk d)) :
    OffDisk (modifyGet f : Action α) := by
  constructor
  intro w d
  change EStateM.modifyGet f (w.withDisk d) = onDisk d (EStateM.modifyGet f w)
  unfold EStateM.modifyGet
  rw [hf]
  rfl

/-! ### What builtins are made of -/

/-- The actions of builtins, by what they are made of. An object that is there is changed only where
`edits` holds, and the disk and the environment are touched only where `outside` holds. -/
inductive Confined (edits outside : Prop) : {α : Type} → Action α → Prop
  | pure {α : Type} (a : α) : Confined edits outside (Pure.pure a)
  | throw {α : Type} (r : Refusal) : Confined edits outside (throw r : Action α)
  | bind {α β : Type} {x : Action β} {f : β → Action α} (hx : Confined edits outside x)
      (hf : ∀ b, Confined edits outside (f b)) : Confined edits outside (x >>= f)
  | heap : Confined edits outside heap
  | newList (items : List Value) : Confined edits outside (newList items)
  | newMapping (m : Mapping) : Confined edits outside (newMapping m)
  | modifyHeap (h : edits) (f : Heap → Heap) : Confined edits outside (modifyHeap f)
  | stream {α : Type} {f : World → α × World} (hheap : ∀ w, (f w).2.heap = w.heap)
      (hdisk : ∀ w d, f (w.withDisk d) = ((f w).1, (f w).2.withDisk d)) :
      Confined edits outside (modifyGet f : Action α)
  | get (h : outside) : Confined edits outside (get : Action World)
  | modify (h : outside) {f : World → World} (hheap : ∀ w, (f w).heap = w.heap) :
      Confined edits outside (modify f : Action PUnit)

variable {edits outside edits' outside' : Prop}

theorem Confined.mono {x : Action α} (h : Confined edits outside x) (hedits : edits → edits')
    (houtside : outside → outside') : Confined edits' outside' x := by
  induction h with
  | pure a => exact .pure a
  | throw r => exact .throw r
  | bind _ _ ihx ihf => exact .bind ihx ihf
  | heap => exact .heap
  | newList items => exact .newList items
  | newMapping m => exact .newMapping m
  | modifyHeap h f => exact .modifyHeap (hedits h) f
  | stream hheap hdisk => exact .stream hheap hdisk
  | get h => exact .get (houtside h)
  | modify h hheap => exact .modify (houtside h) hheap

/-- An action that touches nothing outside does the same on every disk. -/
theorem Confined.offDisk {x : Action α} (h : Confined True False x) : OffDisk x := by
  induction h with
  | pure a => exact offDisk_pure a
  | throw r => exact offDisk_throw r
  | bind _ _ ihx ihf => exact offDisk_bind ihx ihf
  | heap => exact ⟨fun _ _ => rfl⟩
  | newList items => exact ⟨fun _ _ => rfl⟩
  | newMapping m => exact ⟨fun _ _ => rfl⟩
  | modifyHeap _ f => exact ⟨fun _ _ => rfl⟩
  | stream _ hdisk => exact offDisk_modifyGet hdisk
  | get h => exact h.elim
  | modify h => exact h.elim

attribute [grind .] Confined.pure Confined.throw Confined.bind Confined.heap Confined.newList
  Confined.newMapping Confined.modifyHeap Confined.get

@[grind .]
theorem fail_confined (f : Failure) : Confined edits outside (fail f : Action α) := .throw _

@[grind .]
theorem fault_confined (f : Fault) : Confined edits outside (fault f : Action α) := .throw _

theorem confined_ite {p : Prop} [Decidable p] {x y : Action α} (hx : Confined edits outside x)
    (hy : Confined edits outside y) : Confined edits outside (if p then x else y) := by
  by_cases hp : p
  · rwa [if_pos hp]
  · rwa [if_neg hp]

/-- A check that an action begins with. -/
theorem confined_check {p : Prop} [Decidable p] {x : Action PUnit} {f : PUnit → Action α}
    (hx : Confined edits outside x) (hf : Confined edits outside (f ⟨⟩)) :
    Confined edits outside (if p then x >>= f else f ⟨⟩) :=
  confined_ite (.bind hx fun _ => hf) hf

@[grind .]
theorem confined_mapM {f : α → Action β} (hf : ∀ a, Confined edits outside (f a)) (as : List α) :
    Confined edits outside (as.mapM f) := by
  induction as with
  | nil => exact .pure _
  | cons a as ih =>
    rw [List.mapM_cons]
    exact .bind (hf a) fun b => .bind ih fun bs => .pure _

@[grind .]
theorem confined_foldlM {f : β → α → Action β} (hf : ∀ b a, Confined edits outside (f b a)) (b : β)
    (as : List α) : Confined edits outside (as.foldlM f b) := by
  induction as generalizing b with
  | nil => exact .pure _
  | cons a as ih =>
    rw [List.foldlM_cons]
    exact .bind (hf b a) fun b => ih b

@[grind .]
theorem ofOperation_confined (r : Except Trouble α) : Confined edits outside (ofOperation r) := by
  unfold ofOperation
  grind

@[grind .]
theorem items_confined (id : Nat) : Confined edits outside (items id) := by
  unfold items
  grind

@[grind .]
theorem mapping_confined (id : Nat) : Confined edits outside (mapping id) := by
  unfold mapping
  grind

@[grind .]
theorem wrongKind_confined (builtin what wanted : String) (v : Value) :
    Confined edits outside (wrongKind builtin what wanted v : Action α) := fail_confined _

@[grind .]
theorem integer_confined (builtin what : String) (v : Value) :
    Confined edits outside (integer builtin what v) := by
  unfold integer
  grind

@[grind .]
theorem boolean_confined (builtin what : String) (v : Value) :
    Confined edits outside (boolean builtin what v) := by
  unfold boolean
  grind

@[grind .]
theorem string_confined (builtin what : String) (v : Value) :
    Confined edits outside (string builtin what v) := by
  unfold string
  grind

@[grind .]
theorem list_confined (builtin what : String) (v : Value) :
    Confined edits outside (list builtin what v) := by
  unfold list
  grind

@[grind .]
theorem map_confined (builtin what : String) (v : Value) :
    Confined edits outside (map builtin what v) := by
  unfold map
  grind

@[grind .]
theorem number_confined (builtin what : String) (v : Value) :
    Confined edits outside (number builtin what v) := by
  unfold number
  grind

@[grind .]
theorem toFloat_confined (v : Value) : Confined edits outside (toFloat v) := by
  unfold toFloat
  grind

@[grind .]
theorem checkIndex_confined (n : Int) : Confined edits outside (checkIndex n) := by
  unfold checkIndex
  grind

end Action

end Offside
