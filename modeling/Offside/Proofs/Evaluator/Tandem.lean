import Offside.Proofs.Evaluator.Shifted

/-!
Runs in tandem. The scripts of a task and of the same task elsewhere take the same steps, so that
from states that differ in nothing but places they come to the same outcome but for its place. If a
trace is written, that is so as long as no task of the first run calls a builtin that has to do with
the disk.
-/

namespace Offside

namespace Evaluator

open Run

def Work.moved (f : Place → Place) : Work → Work
  | execute node s => execute (node.moved f) s
  | branches node bs elseBody s =>
    branches (node.moved f) (Node.movedBranches f bs) (Node.movedBody f elseBody) s
  | rounds node condition body round s =>
    rounds (node.moved f) (condition.moved f) (Node.movedList f body) round s

/-- The task with every place moved by `f`. -/
def Task.moved (f : Place → Place) : Task → Task
  | evaluate node s => evaluate (node.moved f) s
  | part owner name node s => part (owner.moved f) name (node.map (Node.moved f)) s
  | test kind condition s => test kind (condition.moved f) s
  | call g args => call g args
  | work w => work (w.moved f)

/-- The results of a task here and elsewhere are equal. -/
def Task.Same (f : Place → Place) : (t : Task) → t.Result → (t.moved f).Result → Prop
  | evaluate .. | part .. | test .. | call .. | work _ => Eq

/-- A builtin that the task calls has nothing to do with the disk. -/
def Task.SparesDisk (registry : Registry) : Task → Prop
  | call (.native name) _ | call (.bound name _) _ =>
    ∀ b, registry.find? name = some b → Library.IsOffDisk b
  | _ => True

/-- Two scripts that do the same tasks, of which each may be elsewhere, with actions in tandem in
between. -/
inductive Paired (set : Settings) :
    {α α' : Type} → (α → α' → Prop) → Script α → Script α' → Prop where
  | done {α α' : Type} {S : α → α' → Prop} {a : α} {a' : α'} : S a a' →
      Paired set S (.done a) (.done a')
  | act {α α' β β' : Type} {S : α → α' → Prop} {Q : β → β' → Prop} {x : Run β} {x' : Run β'}
      {next : β → Script α} {next' : β' → Script α'} : InTandem set Q x x' →
      (∀ b b', Q b b' → Paired set S (next b) (next' b')) →
      Paired set S (.act x next) (.act x' next')
  | task {α α' : Type} {S : α → α' → Prop} (t : Task) (f : Relocation)
      {next : t.Result → Script α} {next' : (t.moved f).Result → Script α'} :
      (∀ b b', t.Same f b b' → Paired set S (next b) (next' b')) →
      Paired set S (.task t next) (.task (t.moved f) next')
  | located {α α' β β' : Type} {S : α → α' → Prop} {Q : β → β' → Prop} {p p' : Place}
      {inner : Script β} {inner' : Script β'} {next : β → Script α} {next' : β' → Script α'} :
      Paired set Q inner inner' → (∀ b b', Q b b' → Paired set S (next b) (next' b')) →
      Paired set S (.located p inner next) (.located p' inner' next')
  | deeper {α α' β β' : Type} {S : α → α' → Prop} {Q : β → β' → Prop}
      {inner : Script β} {inner' : Script β'} {next : β → Script α} {next' : β' → Script α'} :
      Paired set Q inner inner' → (∀ b b', Q b b' → Paired set S (next b) (next' b')) →
      Paired set S (.deeper inner next) (.deeper inner' next')

variable {set : Settings} {f : Relocation} {α α' β β' γ : Type} {S : α → α' → Prop}
  {Q : β → β' → Prop} {s : Nat}

theorem paired_pure {a : α} {a' : α'} (h : S a a') :
    Paired set S (pure a : Script α) (pure a' : Script α') := .done h

theorem paired_bind {p : Script β} {p' : Script β'} {g : β → Script α} {g' : β' → Script α'}
    (hp : Paired set Q p p') (hg : ∀ b b', Q b b' → Paired set S (g b) (g' b')) :
    Paired set S (p >>= g) (p' >>= g') := by
  change Paired set S (p.andThen g) (p'.andThen g')
  induction hp with
  | done h => exact hg _ _ h
  | act hx _ ih => exact .act hx fun b b' hb => ih b b' hb hg
  | task t f _ ih => exact .task t f fun b b' hb => ih b b' hb hg
  | located hi _ _ ih => exact .located hi fun b b' hb => ih b b' hb hg
  | deeper hi _ _ ih => exact .deeper hi fun b b' hb => ih b b' hb hg

theorem paired_then {p p' : Script β} {g : β → Script α} {g' : β → Script α'}
    (hp : Paired set Eq p p') (hg : ∀ b, Paired set S (g b) (g' b)) :
    Paired set S (p >>= g) (p' >>= g') := by
  apply paired_bind hp
  rintro b _ rfl
  exact hg b

theorem paired_doing {x : Run α} {x' : Run α'} (h : InTandem set S x x') :
    Paired set S (Script.doing x) (Script.doing x') :=
  .act h fun _ _ => .done

theorem paired_onHeap {x : Run α} (h : OnHeap x) :
    Paired set Eq (Script.doing x) (Script.doing x) :=
  paired_doing (inTandem_onHeap h)

theorem paired_value (f : Relocation) (node : Node) (s : Nat) :
    Paired set Eq (Script.value node s) (Script.value (node.moved f) s) :=
  .task (.evaluate node s) f fun _ _ => .done

theorem paired_part (f : Relocation) (owner : Node) (name : String) (node : Option Node)
    (s : Nat) : Paired set Eq (Script.part owner name node s)
      (Script.part (owner.moved f) name (node.map (Node.moved f)) s) :=
  .task (.part owner name node s) f fun _ _ => .done

theorem paired_test (f : Relocation) (kind : Test) (condition : Node) (s : Nat) :
    Paired set Eq (Script.test kind condition s) (Script.test kind (condition.moved f) s) :=
  .task (.test kind condition s) f fun _ _ => .done

theorem paired_call (g : Value) (args : List Value) :
    Paired set Eq (Script.call g args) (Script.call g args) :=
  .task (.call g args) .none fun _ _ => .done

theorem paired_perform (f : Relocation) (w : Work) :
    Paired set Eq (Script.perform w) (Script.perform (w.moved f)) :=
  .task (.work w) f fun _ _ => .done

theorem paired_each {move : β → β} {g : β → Script γ}
    (hg : ∀ b, Paired set Eq (g b) (g (move b))) (bs : List β) :
    Paired set Eq (Script.each g bs) (Script.each g (bs.map move)) := by
  induction bs with
  | nil => exact paired_pure rfl
  | cons b bs ih =>
    exact paired_then (hg b) fun c => paired_then ih fun cs => paired_pure rfl

/-! ### Expressions -/

theorem ofOperation_paired (p p' : Place) (r : Except Trouble α) :
    Paired set Eq (Script.doing (Run.located p (ofOperation r)))
      (Script.doing (Run.located p' (ofOperation r))) :=
  paired_doing (inTandem_located p p' (inTandem_onHeap (onHeap_ofOperation r)))

theorem binaryScript_paired (f : Relocation) (op : Json) (left right : Node) (s : Nat) :
    Paired set Eq (binaryScript op left right s)
      (binaryScript op (left.moved f) (right.moved f) s) := by
  unfold binaryScript
  split
  · apply paired_then (paired_value f left s)
    intro v
    apply paired_then (ofOperation_paired _ _ _)
    intro a
    split
    · exact paired_pure rfl
    · apply paired_then (paired_value f right s)
      intro v
      exact paired_then (ofOperation_paired _ _ _) fun b => paired_pure rfl
  · apply paired_then (paired_value f left s)
    intro a
    apply paired_then (paired_value f right s)
    intro b
    exact paired_onHeap (applyBinary_onHeap op a b)

theorem entryScript_paired (f : Relocation) (s : Nat) (e : Node × Node) :
    Paired set Eq (entryScript s e) (entryScript s (e.1.moved f, e.2.moved f)) := by
  apply paired_then (paired_value f e.1 s)
  intro k
  apply paired_then (ofOperation_paired _ _ _)
  intro _
  exact paired_then (paired_value f e.2 s) fun v => paired_pure rfl

theorem valueScript_paired (f : Relocation) (node : Node) (s : Nat) :
    Paired set Eq (valueScript set node s) (valueScript set (node.moved f) s) := by
  cases node with
  | literal => exact paired_pure rfl
  | identifier => exact paired_onHeap (lookUp_onHeap _ _)
  | unaryOp p op a =>
    exact paired_then (paired_value f a s) fun v => paired_onHeap (applyUnary_onHeap op v)
  | binaryOp p op a b => exact binaryScript_paired f op a b s
  | call p g as =>
    change Paired set Eq _ (do
      let g ← Script.value (g.moved f) s
      Script.call g (← Script.each (Script.value · s) (Node.movedList f as)))
    rw [Node.movedList_eq]
    apply paired_then (paired_value f g s)
    intro g
    exact paired_then (paired_each (fun a => paired_value f a s) as) fun args => paired_call g args
  | index p t i =>
    apply paired_then (paired_value f t s)
    intro t
    exact paired_then (paired_value f i s) fun i => paired_onHeap (readItem_onHeap t i)
  | member p t name =>
    exact paired_then (paired_value f t s) fun t => paired_onHeap (bindMethod_onHeap set t name)
  | listLiteral p es =>
    change Paired set Eq _ (do
      Script.doing (newList (← Script.each (Script.value · s) (Node.movedList f es))))
    rw [Node.movedList_eq]
    apply paired_then (paired_each (fun e => paired_value f e s) es)
    intro vs
    exact paired_onHeap (newList_onHeap vs)
  | mapLiteral p es =>
    change Paired set Eq _ (do
      Script.doing (newMapping (.ofEntries (← Script.each (entryScript s)
        (Node.movedPairs f es)))))
    rw [Node.movedPairs_eq]
    apply paired_then (paired_each (entryScript_paired f s) es)
    intro pairs
    exact paired_onHeap (newMapping_onHeap _)
  | lambda p ps b =>
    apply paired_bind (paired_doing (place_inTandem f b))
    rintro q _ rfl
    have hclosure : Closure.Shifted ⟨ps, [.returnStmt q b], s⟩
        ⟨ps, [.returnStmt (f q) (b.moved f)], s⟩ := ⟨f, rfl⟩
    exact paired_doing (newFunction_inTandem _ hclosure)
  | _ => exact paired_onHeap (onHeap_refuse _)

/-! ### Statements -/

theorem block_paired (f : Relocation) (s : Nat) (ns : List Node) :
    Paired set Eq (Script.block s ns) (Script.block s (Node.movedList f ns)) := by
  induction ns with
  | nil => exact paired_pure rfl
  | cons n ns ih =>
    apply paired_then (paired_perform f (.execute n s))
    intro completion
    cases completion with
    | normal => exact ih
    | _ => exact paired_pure rfl

theorem visits_paired (f : Relocation) (node : Node) (name : Json) (body : List Node) (s : Nat)
    (items : List Value) :
    Paired set Eq (visits set node name body s items)
      (visits set (node.moved f) name (Node.movedList f body) s items) := by
  induction items with
  | nil => exact paired_pure rfl
  | cons item rest ih =>
    apply paired_then (paired_doing (visit_inTandem f node name s item))
    intro _
    apply paired_then (block_paired f s body)
    intro completion
    cases completion with
    | normal | continued => exact ih
    | _ => exact paired_pure rfl

theorem assignScript_paired (f : Relocation) (target : Node) (v : Value) (s : Nat) :
    Paired set Eq (assignScript set target v s) (assignScript set (target.moved f) v s) := by
  cases target with
  | identifier p name =>
    exact paired_then (paired_doing (assignName_inTandem _ _ _)) fun _ => paired_pure rfl
  | index p c k =>
    apply paired_then (paired_value f c s)
    intro c
    apply paired_then (paired_value f k s)
    intro k
    exact paired_then (paired_onHeap (writeItem_onHeap _ _ _)) fun _ => paired_pure rfl
  | _ => exact paired_then (paired_onHeap (onHeap_refuse _)) fun _ => paired_pure rfl

theorem target?_moved (f : Relocation) (n : Node) :
    (n.moved f).target? = n.target?.map (Node.moved f) := by
  cases n <;> rfl

theorem indexOf?_moved (f : Relocation) (n : Node) :
    (n.moved f).indexOf? = n.indexOf?.map (Node.moved f) := by
  cases n <;> rfl

theorem partsScript_paired {g g' : Value → Value → Script Completion} (f : Relocation)
    (target : Node) (s : Nat) (hg : ∀ c k, Paired set Eq (g c k) (g' c k)) :
    Paired set Eq
      (Script.part target "target" target.target? s >>= fun c =>
        Script.part target "index" target.indexOf? s >>= g c)
      (Script.part (target.moved f) "target" (target.moved f).target? s >>= fun c =>
        Script.part (target.moved f) "index" (target.moved f).indexOf? s >>= g' c) := by
  rw [target?_moved, indexOf?_moved]
  apply paired_then (paired_part f target _ _ s)
  intro c
  exact paired_then (paired_part f target _ _ s) (hg c)

theorem augmentScript_paired (f : Relocation) (target : Node) (op : Json) (node : Node)
    (s : Nat) : Paired set Eq (augmentScript set target op node s)
      (augmentScript set (target.moved f) op (node.moved f) s) := by
  have hitem (c k : Value) : Paired set Eq
      (do
        let current ← Script.doing (readItem c k)
        let v ← Script.value node s
        Script.doing (writeItem c k (← Script.doing (applyBinary op current v)))
        return .normal : Script Completion)
      (do
        let current ← Script.doing (readItem c k)
        let v ← Script.value (node.moved f) s
        Script.doing (writeItem c k (← Script.doing (applyBinary op current v)))
        return .normal : Script Completion) := by
    apply paired_then (paired_onHeap (readItem_onHeap _ _))
    intro current
    apply paired_then (paired_value f node s)
    intro v
    apply paired_then (paired_onHeap (applyBinary_onHeap _ _ _))
    intro v
    exact paired_then (paired_onHeap (writeItem_onHeap _ _ _)) fun _ => paired_pure rfl
  cases target with
  | identifier p name =>
    apply paired_then (paired_value f (.identifier p name) s)
    intro current
    apply paired_then (paired_value f node s)
    intro v
    apply paired_then (paired_onHeap (applyBinary_onHeap _ _ _))
    intro v
    exact paired_then (paired_doing (assignName_inTandem _ _ _)) fun _ => paired_pure rfl
  | _ => exact partsScript_paired f _ s hitem

theorem statementScript_paired (f : Relocation) (node : Node) (s : Nat) :
    Paired set Eq (statementScript set node s) (statementScript set (node.moved f) s) := by
  cases node with
  | exprStmt p e => exact paired_then (paired_value f e s) fun _ => paired_pure rfl
  | assign p t v => exact paired_then (paired_value f v s) fun v => assignScript_paired f t v s
  | augAssign p t op v => exact augmentScript_paired f t op v s
  | ifStmt p bs e => exact paired_perform f (.branches (.ifStmt p bs e) bs e s)
  | whileStmt p c b => exact paired_perform f (.rounds (.whileStmt p c b) c b 1 s)
  | forStmt p name i b =>
    apply paired_then (paired_value f i s)
    intro v
    apply paired_then (paired_onHeap (itemsOf_onHeap v))
    intro items
    exact visits_paired f (.forStmt p name i b) name b s items
  | functionDef p name ps b =>
    have hclosure : Closure.Shifted ⟨ps, b, s⟩ ⟨ps, Node.movedList f b, s⟩ := ⟨f, rfl⟩
    apply paired_then (paired_doing (newFunction_inTandem _ hclosure))
    intro g
    apply paired_then (paired_doing (define_inTandem _ _ _))
    intro _
    exact paired_then (paired_doing (traceFunction_inTandem name ps)) fun _ => paired_pure rfl
  | returnStmt p v =>
    change Paired set Eq (returnScript v s) (returnScript (v.moved f) s)
    cases v with
    | hole => exact paired_pure rfl
    | _ => exact paired_then (paired_value f _ s) fun v => paired_pure rfl
  | breakStmt => exact paired_pure rfl
  | continueStmt => exact paired_pure rfl
  | passStmt => exact paired_pure rfl
  | delete p t =>
    apply partsScript_paired f t s
    intro c k
    exact paired_then (paired_onHeap (deleteItem_onHeap _ _)) fun _ => paired_pure rfl
  | _ => exact paired_onHeap (onHeap_refuse _)

theorem branchScript_paired (f : Relocation) (node : Node) (bs : List (Node × List Node))
    (elseBody : Option (List Node)) (s : Nat) :
    Paired set Eq (branchScript set node bs elseBody s)
      (branchScript set (node.moved f) (Node.movedBranches f bs) (Node.movedBody f elseBody) s) := by
  rcases bs with _ | ⟨⟨condition, body⟩, rest⟩
  · cases elseBody with
    | none => exact paired_pure rfl
    | some body =>
      refine paired_then (paired_doing ?_) fun _ => block_paired f s body
      exact traceLine_inTandem (by decide) f node (fun _ => "else branch") (fun _ => rfl) fun _ => rfl
  · apply paired_then (paired_test f _ condition s)
    intro taken
    have hline (n : Node) (h : Heap) : placeText n ++ "branch -> " ++ h.display (.boolean taken) =
        placeText n ++ ("branch -> " ++ h.display (.boolean taken)) := String.append_assoc
    apply paired_then (paired_doing
      (traceLine_inTandem (by decide) f condition _ (hline _) (hline (condition.moved f))))
    intro _
    split
    · exact block_paired f s body
    · exact paired_perform f (.branches node rest elseBody s)

theorem roundScript_paired (f : Relocation) (node condition : Node) (body : List Node)
    (round s : Nat) : Paired set Eq (roundScript set node condition body round s)
      (roundScript set (node.moved f) (condition.moved f) (Node.movedList f body) round s) := by
  apply paired_then (paired_test f _ condition s)
  intro holds
  cases holds with
  | false => exact paired_pure rfl
  | true =>
    have hline (n : Node) (_ : Heap) : placeText n ++ "while iteration " ++ toString round =
        placeText n ++ ("while iteration " ++ toString round) := String.append_assoc
    apply paired_then (paired_doing
      (traceLine_inTandem (by decide) f node _ (hline _) (hline (node.moved f))))
    intro _
    apply paired_then (block_paired f s body)
    intro completion
    cases completion with
    | normal | continued => exact paired_perform f (.rounds node condition body (round + 1) s)
    | _ => exact paired_pure rfl

theorem callScript_paired {g : Value} {args : List Value}
    (h : 0 < set.traceLevel → (Task.call g args).SparesDisk set.registry) :
    Paired set Eq (callScript set g args) (callScript set g args) := by
  cases g with
  | function id name =>
    apply paired_bind (paired_doing (closureOf_inTandem id))
    rintro closure _ ⟨f, rfl⟩
    apply paired_then (paired_onHeap (checkArity_onHeap _ _ _))
    intro _
    apply paired_then (paired_onHeap (checkDepth_onHeap _ _))
    intro _
    apply paired_then (paired_doing (enter_inTandem _ _ ⟨f, rfl⟩))
    intro inner
    refine paired_then ?_ fun _ => paired_pure rfl
    exact .deeper (block_paired f inner closure.body) fun _ _ => .done
  | native name => exact paired_doing (callBuiltin_inTandem h _)
  | bound name receiver => exact paired_doing (callBuiltin_inTandem h _)
  | _ => exact paired_onHeap (onHeap_refuse _)

/-- A task does the same elsewhere. -/
theorem script_paired {t : Task} (f : Relocation)
    (h : 0 < set.traceLevel → t.SparesDisk set.registry) :
    Paired set (t.Same f) (t.script set) ((t.moved f).script set) := by
  cases t with
  | evaluate node s =>
    apply paired_bind (paired_doing (place_inTandem f node))
    rintro p _ rfl
    exact .located (valueScript_paired f node s) fun _ _ => .done
  | part owner name node s =>
    cases node with
    | none =>
      change Paired set Eq _
        (Script.doing (fault (.missingPart (owner.moved f).kindName name) : Run Value))
      rw [Node.kindName_moved]
      exact paired_onHeap (onHeap_fault _)
    | some node => exact paired_value f node s
  | test kind condition s =>
    apply paired_then (paired_value f condition s)
    intro v
    exact ofOperation_paired _ _ _
  | call g args => exact callScript_paired h
  | work w =>
    cases w with
    | execute node s =>
      apply paired_bind (paired_doing (place_inTandem f node))
      rintro p _ rfl
      refine .located ?_ fun _ _ => .done
      have hline : placeText (node.moved f) ++ (node.moved f).kindName =
          placeText (node.moved f) ++ node.kindName := by
        rw [Node.kindName_moved]
      apply paired_then (paired_doing (traceLine_inTandem (by decide) f node
        (fun _ => node.kindName) (fun _ => rfl) fun _ => hline))
      intro _
      exact statementScript_paired f node s
    | branches node bs elseBody s => exact branchScript_paired f _ _ _ _
    | rounds node condition body round s => exact roundScript_paired f _ _ _ _ _

/-! ### Runs -/

variable {fuel : Nat} {st st' : State}

/-- Scripts in tandem come to the same outcome but for places if the tasks that the first one
begins do. -/
theorem play_matches {p : Script α} {p' : Script α'} (hp : Paired set S p p')
    (hst : Shifted set st st')
    (h : ∀ t (f : Relocation) now now', p.Begins set fuel t now st → Shifted set now now' →
      Matches set (t.Same f) (t.run set fuel now) ((t.moved f).run set fuel now')) :
    Matches set S (p.play (Task.run set fuel) st) (p'.play (Task.run set fuel) st') := by
  induction hp generalizing st st' with
  | done hs => exact .ok hs hst
  | act hx _ ih =>
    refine matches_bind (hx hst) fun b b' now now' hok hb hnow => ih b b' hb hnow ?_
    exact fun t f _ _ hbegun => h t f _ _ ⟨b, now, hok, hbegun⟩
  | task t f _ ih =>
    refine matches_bind (h t f st st' (.inl ⟨rfl, rfl⟩) hst) fun b b' now now' hok hb hnow =>
      ih b b' hb hnow ?_
    exact fun t f _ _ hbegun => h t f _ _ (.inr ⟨b, now, hok, hbegun⟩)
  | located _ _ ihinner ih =>
    have hinner := ihinner hst fun t f _ _ hbegun => h t f _ _ (.inl hbegun)
    refine matches_bind (matches_located hinner) fun b b' now now' hok hb hnow =>
      ih b b' hb hnow ?_
    exact fun t f _ _ hbegun => h t f _ _ (.inr ⟨b, now, hok, hbegun⟩)
  | deeper _ _ ihinner ih =>
    have hinner := ihinner hst.deeper fun t f _ _ hbegun => h t f _ _ (.inl hbegun)
    refine matches_bind (matches_deeper hinner) fun b b' now now' hok hb hnow => ih b b' hb hnow ?_
    exact fun t f _ _ hbegun => h t f _ _ (.inr ⟨b, now, hok, hbegun⟩)

/-- A task that reaches no builtin for the disk, if there is a trace, has the same outcome but for
its place when it is elsewhere. -/
theorem run_matches {t : Task} (f : Relocation) (hst : Shifted set st st')
    (ht : 0 < set.traceLevel → t.SparesDisk set.registry)
    (h : 0 < set.traceLevel → ∀ n m, fuel = n + 1 → Reaches set (fun _ => True) n
      (t.script set) st m → m.task.SparesDisk set.registry) :
    Matches set (t.Same f) (t.run set fuel st) ((t.moved f).run set fuel st') := by
  induction fuel generalizing t f st st' with
  | zero =>
    rw [run_zero, run_zero]
    exact .error rfl hst
  | succ fuel ih =>
    rw [run_succ, run_succ]
    apply play_matches (script_paired f ht) hst
    intro t' f' now now' hbegun hnow
    apply ih f' hnow
    · intro hlevel
      exact h hlevel fuel _ rfl (.begun hbegun)
    · rintro hlevel n m rfl hm
      exact h hlevel _ m rfl (.inside trivial hbegun hm)

/-- So has a script that begins nothing but such tasks. -/
theorem script_matches {p : Script α} {p' : Script α'} (hp : Paired set S p p')
    (hst : Shifted set st st')
    (h : 0 < set.traceLevel → ∀ m, Reaches set (fun _ => True) fuel p st m →
      m.task.SparesDisk set.registry) :
    Matches set S (p.play (Task.run set fuel) st) (p'.play (Task.run set fuel) st') := by
  apply play_matches hp hst
  intro t f now now' hbegun hnow
  apply run_matches f hnow
  · intro hlevel
    exact h hlevel _ (.begun hbegun)
  · rintro hlevel n m rfl hm
    exact h hlevel m (.inside trivial hbegun hm)

end Evaluator

end Offside
