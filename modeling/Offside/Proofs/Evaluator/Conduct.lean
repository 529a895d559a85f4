import Offside.Proofs.Evaluator.Frame

/-!
How scripts behave, of whatever tree. A script begins tasks on nodes of its own tree or of a
function, calls within the limit, and otherwise does nothing but what keeps the frame. So does every
run, and an error that no task of it raised is at one of its own spots.
-/

namespace Offside

namespace Node

/-- Expressions whose values the rule of a node checks itself. -/
def checked : Node → List Node
  | binaryOp _ _ left right => [left, right]
  | mapLiteral _ entries => entries.map (·.1)
  | _ => []

theorem target_part {n m : Node} (h : m ∈ n.target?) : m ∈ n.parts := by
  cases n <;> simp_all [target?, parts]

theorem index_part {n m : Node} (h : m ∈ n.indexOf?) : m ∈ n.parts := by
  cases n <;> simp_all [indexOf?, parts]

theorem checked_part {n m : Node} (h : m ∈ n.checked) : m ∈ n.parts := by
  cases n with
  | mapLiteral p es =>
    obtain ⟨e, he, rfl⟩ := List.mem_map.mp h
    exact List.mem_flatMap.mpr ⟨e, he, by simp⟩
  | _ => simp_all [checked, parts]

end Node

namespace Evaluator

open Run

/-- Where the rule of a task may place an error of its own. -/
def Task.spots : Task → Set Place
  | evaluate node _ => { p | ∃ n ∈ node :: node.checked, n.pos = p }
  | test _ condition _ => {condition.pos}
  | work (.execute node _) => {node.pos}
  | _ => ∅

/-- A task on nodes that a frame allows, in a scope that may get new names. -/
def Task.Within (F : Frame) : Task → Prop
  | evaluate node _ => node.All F.node
  | part _ _ node _ => ∀ n ∈ node, n.All F.node
  | test _ condition _ => condition.All F.node
  | call .. => True
  | work (.execute node s) => F.low ≤ s ∧ node.All F.node
  | work (.branches _ bs elseBody s) =>
    F.low ≤ s ∧ (∀ b ∈ bs, b.1.All F.node ∧ F.Allows b.2) ∧ ∀ b ∈ elseBody, F.Allows b
  | work (.rounds _ condition body _ s) => F.low ≤ s ∧ condition.All F.node ∧ F.Allows body

/-- A script at depth `d` that stays within a frame, with errors of its own at the spots. -/
inductive Framed (set : Settings) (F : Frame) (spots : Set Place) :
    Nat → {α : Type} → Script α → Prop where
  | done {d : Nat} {α : Type} {a : α} : Framed set F spots d (.done a)
  | act {d : Nat} {α β : Type} {Q : β → Prop} {x : Run β} {next : β → Script α} :
      Keeps F spots d Q x → (∀ b, Q b → Framed set F spots d (next b)) →
      Framed set F spots d (.act x next)
  | task {d : Nat} {α : Type} {t : Task} {next : t.Result → Script α} : t.Within F →
      (∀ b, Framed set F spots d (next b)) → Framed set F spots d (.task t next)
  | located {d : Nat} {α β : Type} {p : Place} {inner : Script β} {next : β → Script α} :
      p ∈ spots → Framed set F spots d inner → (∀ b, Framed set F spots d (next b)) →
      Framed set F spots d (.located p inner next)
  | deeper {d : Nat} {α β : Type} {inner : Script β} {next : β → Script α} : d < set.maxDepth →
      Framed set F spots (d + 1) inner → (∀ b, Framed set F spots d (next b)) →
      Framed set F spots d (.deeper inner next)

section

variable {set : Settings} {F : Frame} {spots : Set Place} {d : Nat} {α β γ : Type} {s : Nat}

theorem framed_pure (a : α) : Framed set F spots d (pure a : Script α) := .done

theorem framed_bind {p : Script β} {f : β → Script α} (hp : Framed set F spots d p)
    (hf : ∀ b, Framed set F spots d (f b)) : Framed set F spots d (p >>= f) := by
  change Framed set F spots d (p.andThen f)
  induction hp with
  | done => exact hf _
  | act hx _ ih => exact .act hx fun b hb => ih b hb hf
  | task ht _ ih => exact .task ht fun b => ih b hf
  | located hp hi _ _ ih => exact .located hp hi fun b => ih b hf
  | deeper hd hi _ _ ih => exact .deeper hd hi fun b => ih b hf

/-- An action whose result tells something about what follows. -/
theorem framed_after {Q : β → Prop} {x : Run β} {f : β → Script α} (hx : Keeps F spots d Q x)
    (hf : ∀ b, Q b → Framed set F spots d (f b)) :
    Framed set F spots d (Script.doing x >>= f) :=
  .act hx hf

theorem framed_doing {Q : α → Prop} {x : Run α} (h : Keeps F spots d Q x) :
    Framed set F spots d (Script.doing x) :=
  .act h fun _ _ => .done

theorem framed_onHeap {x : Run α} (h : OnHeap x) : Framed set F spots d (Script.doing x) :=
  framed_doing (keeps_onHeap h)

theorem framed_task {t : Task} (h : t.Within F) : Framed set F spots d (.task t .done) :=
  .task h fun _ => .done

theorem framed_value {node : Node} (h : node.All F.node) :
    Framed set F spots d (Script.value node s) :=
  framed_task (t := .evaluate node s) h

theorem framed_part {owner : Node} {name : String} {node : Option Node}
    (h : ∀ n ∈ node, n.All F.node) : Framed set F spots d (Script.part owner name node s) :=
  framed_task (t := .part owner name node s) h

theorem framed_perform {w : Work} (h : (Task.work w).Within F) :
    Framed set F spots d (Script.perform w) :=
  framed_task h

theorem framed_each {f : β → Script γ} {bs : List β} (h : ∀ b ∈ bs, Framed set F spots d (f b)) :
    Framed set F spots d (Script.each f bs) := by
  induction bs with
  | nil => exact framed_pure _
  | cons b bs ih =>
    refine framed_bind (h b List.mem_cons_self) fun c => ?_
    exact framed_bind (ih fun b' hb' => h b' (List.mem_cons_of_mem b hb')) fun cs => framed_pure _

/-! ### Expressions -/

theorem binaryScript_framed {op : Json} {left right : Node} (hl : left.All F.node)
    (hr : right.All F.node) (hlp : left.pos ∈ spots) (hrp : right.pos ∈ spots) :
    Framed set F spots d (binaryScript op left right s) := by
  unfold binaryScript
  split
  · refine framed_bind (framed_value hl) fun v => ?_
    refine framed_bind (framed_doing (booleanAt_keeps hlp _ _)) fun a => ?_
    split
    · exact framed_pure _
    · refine framed_bind (framed_value hr) fun v => ?_
      exact framed_bind (framed_doing (booleanAt_keeps hrp _ _)) fun b => framed_pure _
  · refine framed_bind (framed_value hl) fun a => framed_bind (framed_value hr) fun b => ?_
    exact framed_onHeap (applyBinary_onHeap op a b)

theorem entryScript_framed {e : Node × Node} (hk : e.1.All F.node) (hv : e.2.All F.node)
    (hp : e.1.pos ∈ spots) : Framed set F spots d (entryScript s e) := by
  refine framed_bind (framed_value hk) fun k => ?_
  refine framed_bind (framed_doing (keeps_located hp (keeps_onHeap (onHeap_ofOperation _))))
    fun _ => ?_
  exact framed_bind (framed_value hv) fun v => framed_pure _

theorem valueScript_framed {node : Node} (h : node.All F.node)
    (hspots : ∀ p ∈ (Task.evaluate node s).spots, p ∈ spots) :
    Framed set F spots d (valueScript set node s) := by
  cases node with
  | literal => exact framed_pure _
  | identifier => exact framed_onHeap (lookUp_onHeap _ _)
  | unaryOp p op a =>
    refine framed_bind (framed_value (h.part (by simp [Node.parts]))) fun v => ?_
    exact framed_onHeap (applyUnary_onHeap op v)
  | binaryOp p op a b =>
    refine binaryScript_framed (h.part (by simp [Node.parts])) (h.part (by simp [Node.parts]))
      (hspots _ ?_) (hspots _ ?_)
    · simp [Task.spots, Node.checked]
    · simp [Task.spots, Node.checked]
  | call p f as =>
    refine framed_bind (framed_value (h.part (by simp [Node.parts]))) fun f => ?_
    refine framed_bind (framed_each fun a ha => framed_value (h.part ?_)) fun args => ?_
    · simp [Node.parts, ha]
    · exact framed_task (t := .call f args) trivial
  | index p t i =>
    refine framed_bind (framed_value (h.part (by simp [Node.parts]))) fun t => ?_
    refine framed_bind (framed_value (h.part (by simp [Node.parts]))) fun i => ?_
    exact framed_onHeap (readItem_onHeap t i)
  | member p t name =>
    refine framed_bind (framed_value (h.part (by simp [Node.parts]))) fun t => ?_
    exact framed_onHeap (bindMethod_onHeap set t name)
  | listLiteral p es =>
    refine framed_bind (framed_each fun e he => framed_value (h.part ?_)) fun vs => ?_
    · simpa [Node.parts] using he
    · exact framed_onHeap (newList_onHeap vs)
  | mapLiteral p es =>
    refine framed_bind (framed_each fun e he => entryScript_framed (h.part ?_) (h.part ?_)
      (hspots _ ?_)) fun pairs => ?_
    · exact List.mem_flatMap.mpr ⟨e, he, by simp⟩
    · exact List.mem_flatMap.mpr ⟨e, he, by simp⟩
    · exact ⟨e.1, List.mem_cons_of_mem _ (List.mem_map_of_mem he), rfl⟩
    · exact framed_onHeap (newMapping_onHeap _)
  | lambda p ps b =>
    have hb : b.All F.node := h.part (by simp [Node.parts])
    refine framed_after (place_keeps b) fun q hq => framed_doing (newFunction_keeps _ ?_)
    have hbody : (Node.returnStmt q b).All F.node := by
      refine Node.all_of_parts (F.lambda hq hb.here) fun m hm => ?_
      exact List.mem_singleton.mp hm ▸ hb
    exact List.forall_mem_singleton.mpr hbody
  | _ => exact framed_onHeap (onHeap_refuse _)

/-! ### Statements -/

theorem block_framed {ns : List Node} (hs : F.low ≤ s) (h : F.Allows ns) :
    Framed set F spots d (Script.block s ns) := by
  induction ns with
  | nil => exact framed_pure _
  | cons n ns ih =>
    obtain ⟨hn, hns⟩ := List.forall_mem_cons.mp h
    refine framed_bind (framed_perform (w := .execute n s) ⟨hs, hn⟩) fun completion => ?_
    cases completion with
    | normal => exact ih hns
    | _ => exact framed_pure _

theorem visits_framed {node : Node} {name : Json} {body : List Node} (hs : F.low ≤ s)
    (h : F.Allows body) (items : List Value) :
    Framed set F spots d (visits set node name body s items) := by
  induction items with
  | nil => exact framed_pure _
  | cons item rest ih =>
    refine framed_bind (framed_doing (visit_keeps _ _ _ hs _)) fun _ => ?_
    refine framed_bind (block_framed hs h) fun completion => ?_
    cases completion with
    | normal | continued => exact ih
    | _ => exact framed_pure _

theorem assignScript_framed {target : Node} (hs : F.low ≤ s) (h : target.All F.node) (v : Value) :
    Framed set F spots d (assignScript set target v s) := by
  cases target with
  | identifier p name =>
    exact framed_bind (framed_doing (assignName_keeps _ hs _ _)) fun _ => framed_pure _
  | index p c k =>
    refine framed_bind (framed_value (h.part (by simp [Node.parts]))) fun c => ?_
    refine framed_bind (framed_value (h.part (by simp [Node.parts]))) fun k => ?_
    exact framed_bind (framed_onHeap (writeItem_onHeap _ _ _)) fun _ => framed_pure _
  | _ => exact framed_bind (framed_onHeap (onHeap_refuse _)) fun _ => framed_pure _

theorem parts_framed {target : Node} (h : target.All F.node) {f : Value → Value → Script α}
    (hf : ∀ container key, Framed set F spots d (f container key)) :
    Framed set F spots d (do
      let container ← Script.part target "target" target.target? s
      let key ← Script.part target "index" target.indexOf? s
      f container key) := by
  refine framed_bind (framed_part fun n hn => h.part (Node.target_part hn)) fun container => ?_
  refine framed_bind (framed_part fun n hn => h.part (Node.index_part hn)) fun key => ?_
  exact hf container key

theorem augmentScript_framed {target node : Node} {op : Json} (hs : F.low ≤ s)
    (ht : target.All F.node) (hn : node.All F.node) :
    Framed set F spots d (augmentScript set target op node s) := by
  cases target with
  | identifier p name =>
    refine framed_bind (framed_value ht) fun current => framed_bind (framed_value hn) fun v => ?_
    refine framed_bind (framed_onHeap (applyBinary_onHeap _ _ _)) fun v => ?_
    exact framed_bind (framed_doing (assignName_keeps _ hs _ _)) fun _ => framed_pure _
  | _ =>
    refine parts_framed ht fun container key => ?_
    refine framed_bind (framed_onHeap (readItem_onHeap _ _)) fun current => ?_
    refine framed_bind (framed_value hn) fun v => ?_
    refine framed_bind (framed_onHeap (applyBinary_onHeap _ _ _)) fun v => ?_
    exact framed_bind (framed_onHeap (writeItem_onHeap _ _ _)) fun _ => framed_pure _

theorem returnScript_framed {node : Node} (h : node.All F.node) :
    Framed set F spots d (returnScript node s) := by
  cases node with
  | hole => exact framed_pure _
  | _ => exact framed_bind (framed_value h) fun v => framed_pure _

theorem statementScript_framed {node : Node} (hs : F.low ≤ s) (h : node.All F.node) :
    Framed set F spots d (statementScript set node s) := by
  cases node with
  | exprStmt p e =>
    exact framed_bind (framed_value (h.part (by simp [Node.parts]))) fun _ => framed_pure _
  | assign p t v =>
    refine framed_bind (framed_value (h.part (by simp [Node.parts]))) fun v => ?_
    exact assignScript_framed hs (h.part (by simp [Node.parts])) v
  | augAssign p t op v =>
    exact augmentScript_framed hs (h.part (by simp [Node.parts])) (h.part (by simp [Node.parts]))
  | ifStmt p bs e =>
    refine framed_perform (w := .branches _ _ _ _)
      ⟨hs, fun b hb => ⟨h.part ?_, fun n hn => h.part ?_⟩, fun b hb n hn => h.part ?_⟩
    · exact List.mem_append_left _ (List.mem_flatMap.mpr ⟨b, hb, List.mem_cons_self⟩)
    · exact List.mem_append_left _ (List.mem_flatMap.mpr ⟨b, hb, List.mem_cons_of_mem _ hn⟩)
    · obtain rfl := Option.mem_def.mp hb
      exact List.mem_append_right _ hn
  | whileStmt p c b =>
    refine framed_perform (w := .rounds _ _ _ _ _) ⟨hs, h.part ?_, fun n hn => h.part ?_⟩
    · exact List.mem_cons_self
    · exact List.mem_cons_of_mem _ hn
  | forStmt p name i b =>
    refine framed_bind (framed_value (h.part List.mem_cons_self)) fun v => ?_
    refine framed_bind (framed_onHeap (itemsOf_onHeap v)) fun items => ?_
    exact visits_framed hs (fun n hn => h.part (List.mem_cons_of_mem _ hn)) items
  | functionDef p name ps b =>
    refine framed_bind (framed_doing (newFunction_keeps _ fun n hn => h.part hn)) fun f => ?_
    refine framed_bind (framed_doing (define_keeps hs _ _)) fun _ => ?_
    exact framed_bind (framed_doing (traceFunction_keeps _ _ _)) fun _ => framed_pure _
  | returnStmt p v => exact returnScript_framed (h.part (by simp [Node.parts]))
  | breakStmt => exact framed_pure _
  | continueStmt => exact framed_pure _
  | passStmt => exact framed_pure _
  | delete p t =>
    refine parts_framed (h.part (by simp [Node.parts])) fun container key => ?_
    exact framed_bind (framed_onHeap (deleteItem_onHeap _ _)) fun _ => framed_pure _
  | _ => exact framed_onHeap (onHeap_refuse _)

theorem branchScript_framed {node : Node} {bs : List (Node × List Node)}
    {elseBody : Option (List Node)} (h : (Task.work (.branches node bs elseBody s)).Within F) :
    Framed set F spots d (branchScript set node bs elseBody s) := by
  obtain ⟨hs, hbs, he⟩ := h
  rcases bs with _ | ⟨⟨condition, body⟩, rest⟩
  · cases elseBody with
    | none => exact framed_pure _
    | some body =>
      exact framed_bind (framed_doing (traceAt_keeps _ _ _)) fun _ => block_framed hs (he body rfl)
  · obtain ⟨⟨hc, hbody⟩, hrest⟩ := List.forall_mem_cons.mp hbs
    refine framed_bind (framed_task (t := .test _ condition s) hc) fun taken => ?_
    refine framed_bind (framed_doing (traceAt_keeps _ _ _)) fun _ => ?_
    by_cases htaken : taken = true
    · rw [if_pos htaken]
      exact block_framed hs hbody
    · rw [if_neg htaken]
      exact framed_perform (w := .branches node rest elseBody s) ⟨hs, hrest, he⟩

theorem roundScript_framed {node condition : Node} {body : List Node} {round : Nat}
    (h : (Task.work (.rounds node condition body round s)).Within F) :
    Framed set F spots d (roundScript set node condition body round s) := by
  obtain ⟨hs, hc, hb⟩ := h
  have hagain : Framed set F spots d (Script.perform (.rounds node condition body (round + 1) s)) :=
    framed_perform ⟨hs, hc, hb⟩
  refine framed_bind (framed_task (t := .test _ condition s) hc) fun holds => ?_
  cases holds with
  | false => exact framed_pure _
  | true =>
    refine framed_bind (framed_doing (traceAt_keeps _ _ _)) fun _ => ?_
    refine framed_bind (block_framed hs hb) fun completion => ?_
    cases completion with
    | normal | continued => exact hagain
    | _ => exact framed_pure _

theorem callScript_framed (f : Value) (args : List Value) :
    Framed set F spots d (callScript set f args) := by
  cases f with
  | function id name =>
    refine framed_after (closureOf_keeps id) fun closure hclosure => ?_
    refine framed_bind (framed_onHeap (checkArity_onHeap _ _ _)) fun _ => ?_
    refine framed_after (checkDepth_keeps _ _) fun _ hd => ?_
    refine framed_after (enter_keeps _ _ _ _) fun inner hinner => ?_
    refine framed_bind ?_ fun _ => framed_pure _
    exact .deeper hd (block_framed hinner hclosure) fun _ => .done
  | native name => exact framed_doing (callBuiltin_keeps _ _ _)
  | bound name receiver => exact framed_doing (callBuiltin_keeps _ _ _)
  | _ => exact framed_onHeap (onHeap_refuse _)

/-- The script of a task that stays within a frame stays within it. -/
theorem script_framed {t : Task} (h : t.Within F) : Framed set F t.spots d (t.script set) := by
  cases t with
  | evaluate node s =>
    refine framed_after (place_keeps node) fun p hp => ?_
    refine .located ?_ (valueScript_framed h fun _ hp => hp) fun _ => .done
    simp [Task.spots, Node.pos_of_pos? hp]
  | part owner name node s =>
    cases node with
    | none => exact framed_onHeap (onHeap_fault _)
    | some node => exact framed_value (h node rfl)
  | test kind condition s =>
    have hspot : condition.pos ∈ (Task.test kind condition s).spots := rfl
    exact framed_bind (framed_value h) fun v => framed_doing (booleanAt_keeps hspot _ _)
  | call f args => exact callScript_framed f args
  | work w =>
    cases w with
    | execute node s =>
      refine framed_after (place_keeps node) fun p hp => .located ?_ ?_ fun _ => .done
      · simp [Task.spots, Node.pos_of_pos? hp]
      · exact framed_bind (framed_doing (traceAt_keeps _ _ _)) fun _ =>
          statementScript_framed h.1 h.2
    | branches node bs elseBody s => exact branchScript_framed h
    | rounds node condition body round s => exact roundScript_framed h

/-! ### Runs within a frame -/

/-- The places of the nodes that a frame allows. -/
def Frame.places (F : Frame) : Set Place := { p | ∃ n, F.node n ∧ n.pos = p }

theorem spots_places {t : Task} (h : t.Within F) : t.spots ⊆ F.places := by
  intro p hp
  cases t with
  | evaluate node s =>
    obtain ⟨n, hn, rfl⟩ := hp
    rcases List.mem_cons.mp hn with rfl | hn
    · exact ⟨_, Node.All.here h, rfl⟩
    · exact ⟨n, (Node.All.part h (Node.checked_part hn)).here, rfl⟩
  | test kind condition s => exact ⟨condition, Node.All.here h, hp.symm⟩
  | work w =>
    cases w with
    | execute node s => exact ⟨node, h.2.here, hp.symm⟩
    | _ => cases hp
  | _ => cases hp

/-- What tasks keep a script keeps. -/
theorem play_preserved {places : Set Place} {R : (t : Task) → Run t.Result} {p : Script α}
    (hR : ∀ {t d}, t.Within F → Keeps F places d Always (R t)) (hspots : spots ⊆ places)
    (hp : Framed set F spots d p) : Keeps F places d Always (p.play R) := by
  induction hp with
  | done => exact keeps_pure trivial
  | act hx _ ih =>
    refine keeps_bind (fun st hst => ?_) fun b hb => ih b hb
    exact preserved_mono (hx st hst) hspots fun _ => id
  | task ht _ ih => exact keeps_bind (hR ht) fun b _ => ih b
  | located hp _ _ ihinner ih =>
    exact keeps_bind (keeps_located (hspots hp) ihinner) fun b _ => ih b
  | deeper _ _ _ ihinner ih =>
    exact keeps_bind (fun st hst => preserved_deeper ihinner hst) fun b _ => ih b

/-- A task on nodes of a frame keeps it, and places its error at one of them. -/
theorem run_preserved (fuel : Nat) {t : Task} (h : t.Within F) :
    Keeps F F.places d Always (t.run set fuel) := by
  induction fuel generalizing d t with
  | zero =>
    rw [run_zero]
    exact keeps_stop id
  | succ fuel ih =>
    rw [run_succ]
    exact play_preserved ih (spots_places h) (script_framed h)

theorem script_preserved (fuel : Nat) {p : Script α} (hspots : spots ⊆ F.places)
    (hp : Framed set F spots d p) : Keeps F F.places d Always (p.play (Task.run set fuel)) :=
  play_preserved (run_preserved fuel) hspots hp

variable {fuel : Nat} {st st' now : State} {t : Task} {p : Script α} {place : Place} {b : β}

theorem task_kept (ht : t.Within F) (hst : F.Kept d st) {b : t.Result}
    (h : t.run set fuel st = .ok b st') : F.Kept d st' :=
  (preserved_ok (run_preserved fuel ht st hst) h).2

theorem located_kept {inner : Script β} (hspots : spots ⊆ F.places) (hplace : place ∈ spots)
    (hinner : Framed set F spots d inner) (hst : F.Kept d st)
    (h : Run.located place (inner.play (Task.run set fuel)) st = .ok b st') : F.Kept d st' := by
  have hkeeps := keeps_located (hspots hplace) (script_preserved fuel hspots hinner)
  exact (preserved_ok (hkeeps st hst) h).2

theorem deeper_kept {inner : Script β} (hspots : spots ⊆ F.places)
    (hinner : Framed set F spots (d + 1) inner) (hst : F.Kept d st)
    (h : Run.deeper (inner.play (Task.run set fuel)) st = .ok b st') : F.Kept d st' := by
  have hkeeps := preserved_deeper (script_preserved fuel hspots hinner) hst
  exact (preserved_ok hkeeps h).2

/-! ### Every moment -/

/-- What a script begins is within the frame, as deep as the calls around it. -/
theorem begins_within (hspots : spots ⊆ F.places) (hp : Framed set F spots d p)
    (hst : F.Kept d st) (h : p.Begins set fuel t now st) :
    t.Within F ∧ ∃ e, F.Kept e now := by
  induction hp generalizing st with
  | done => cases h
  | act hx _ ih =>
    obtain ⟨b, st', hok, h⟩ := h
    obtain ⟨hb, hst'⟩ := preserved_ok (hx st hst) hok
    exact ih b hb hst' h
  | task ht _ ih =>
    rcases h with ⟨rfl, rfl⟩ | ⟨b, st', hok, h⟩
    · exact ⟨ht, _, hst⟩
    · exact ih b (task_kept ht hst hok) h
  | located hp hi _ ihinner ih =>
    rcases h with h | ⟨b, st', hok, h⟩
    · exact ihinner hst h
    · exact ih b (located_kept hspots hp hi hst hok) h
  | deeper _ hi _ ihinner ih =>
    rcases h with h | ⟨b, st', hok, h⟩
    · exact ihinner hst.deeper h
    · exact ih b (deeper_kept hspots hi hst hok) h

/-- So is everything that it reaches. -/
theorem reaches_within {into : Task → Prop} {m : Moment} (hspots : spots ⊆ F.places)
    (hp : Framed set F spots d p) (hst : F.Kept d st) (h : Reaches set into fuel p st m) :
    m.task.Within F ∧ ∃ e, F.Kept e m.state := by
  induction h generalizing d spots with
  | begun hb => exact begins_within hspots hp hst hb
  | inside _ hb _ ih =>
    obtain ⟨ht, e, hnow⟩ := begins_within hspots hp hst hb
    exact ih (spots_places ht) (script_framed ht) hnow

end

end Evaluator

end Offside

/-!
Names stay in the scopes of their calls. Whatever a call does, and however it ends, the scopes from
before it bind the same names in the same order; a name that is new is in a scope that is new.
-/

namespace Offside

/-- Between these scopes nothing changed but values, and names in scopes that are new. -/
structure Scopes.NamesKept (before after : Scopes) : Prop where
  size : before.table.size ≤ after.table.size
  parent : ∀ i < before.table.size, (after.scope i).parent = (before.scope i).parent
  names : ∀ i < before.table.size, (after.scope i).names = (before.scope i).names
  fresh : ∀ i, ∀ x ∈ (after.scope i).names, x ∉ (before.scope i).names →
    before.table.size ≤ i ∧ i < after.table.size

theorem Scopes.namesKept_of_extends {before after : Scopes}
    (h : before.Extends before.table.size after) : before.NamesKept after where
  size := h.size
  parent := h.parent
  names := h.closed
  fresh := by
    intro i x hx hnew
    constructor
    · by_contra hi
      rw [h.closed i (not_le.mp hi)] at hx
      exact hnew hx
    · by_contra hi
      rw [Scopes.scope, Array.getElem?_eq_none (not_lt.mp hi)] at hx
      cases hx

namespace Evaluator

/-- A call leaks no name, whether it returns or fails. -/
theorem call_keeps_names (set : Settings) (fuel id : Nat) (name : String) (args : List Value)
    (st : State) :
    st.scopes.NamesKept (stateAfter (callValue set fuel (.function id name) args st)).scopes := by
  have hwithin : (Task.call (.function id name) args).Within
      (Frame.around st.scopes st.scopes.table.size (Nat.le_refl _)) := trivial
  have hkeeps : Keeps _ _ st.depth Always (callValue set fuel (.function id name) args) :=
    run_preserved fuel hwithin
  have hkept := preserved_kept (hkeeps st (Frame.around_kept st _))
  exact Scopes.namesKept_of_extends hkept.scopes

end Evaluator

end Offside
