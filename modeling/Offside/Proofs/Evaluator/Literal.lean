import Offside.Evaluator
import Offside.Proofs.Bare
import Offside.Proofs.Heap.Mirror
import Offside.Proofs.Mapping

/-!
Evaluation of literals. The literal of a List or a Mapping makes a new object of what its parts
evaluate to; nothing but the heap changes, and no older object does.
-/

namespace Offside

namespace Evaluator

open Run Heap

def withHeap (st : State) (h : Heap) : State := { st with world := { st.world with heap := h } }

variable {set : Settings} {s : Nat} {st : State} {h h' : Heap} {v w : Value} {e : Node}
  {es : List Node} {vs : List Value} {p : Place}

/-- An expression has a value with every sufficient fuel and leaves the given heap. -/
def Evaluates (set : Settings) (s : Nat) (e : Node) (st : State) (v : Value) (h : Heap) : Prop :=
  ∃ n, ∀ fuel, n ≤ fuel → evaluate set fuel e s st = .ok v (withHeap st h)

def EvaluatesAll (set : Settings) (s : Nat) (es : List Node) (st : State) (vs : List Value)
    (h : Heap) : Prop :=
  ∃ n, ∀ fuel, n ≤ fuel →
    (es.mapM fun e => evaluate set fuel e s) st = .ok vs (withHeap st h)

def evaluateEntry (set : Settings) (fuel s : Nat) (e : Node × Node) : Run (Value × Value) := do
  let k ← evaluate set fuel e.1 s
  located e.1.pos (ofOperation (Operation.checkKey k))
  return (k, ← evaluate set fuel e.2 s)

def EvaluatesEntries (set : Settings) (s : Nat) (es : List (Node × Node)) (st : State)
    (ps : List (Value × Value)) (h : Heap) : Prop :=
  ∃ n, ∀ fuel, n ≤ fuel → (es.mapM (evaluateEntry set fuel s)) st = .ok ps (withHeap st h)

theorem run_bind {α β : Type} {x : Run α} {f : α → Run β} {st st' : State} {a : α}
    (h : x st = .ok a st') : (x >>= f) st = f a st' := by
  simp only [bind, EStateM.bind, h]

theorem located_of_ok {α : Type} {act : Run α} {st st' : State} {a : α} (p : Place)
    (h : act st = .ok a st') : located p act st = .ok a st' := by
  rw [located, h]

/-- An expression has the value that its own rule gives with one step less. -/
theorem evaluates_step {n : Nat} (act : Nat → Run Value) (hp : e.pos? = some p)
    (heq : ∀ fuel, evaluate set (fuel + 1) e s = place e >>= fun p => located p (act fuel))
    (hact : ∀ fuel, n ≤ fuel → act fuel st = .ok v (withHeap st h)) :
    Evaluates set s e st v h := by
  refine ⟨n + 1, ?_⟩
  intro fuel hf
  obtain ⟨k, rfl⟩ : ∃ k, fuel = k + 1 := ⟨fuel - 1, by omega⟩
  have hplace : place e st = .ok p st := by
    rw [place, hp]
    rfl
  rw [heq, run_bind hplace]
  exact located_of_ok p (hact k (by omega))

theorem evaluates_literal (p : Place) (v kind : Json) :
    Evaluates set s (.literal p v kind) st
      (if kind.isText "None" then .none else .ofJson v) st.world.heap :=
  evaluates_step (n := 0) (fun _ => pure (if kind.isText "None" then .none else .ofJson v)) rfl
    (fun fuel => by rw [evaluate]) fun _ _ => rfl

theorem evaluates_minus {n : Int} (he : Evaluates set s e st (.integer n) h) :
    Evaluates set s (.unaryOp p "-" e) st (.integer (-n)) h := by
  obtain ⟨m, hm⟩ := he
  exact evaluates_step (fun fuel => evaluate set fuel e s >>= applyUnary "-") rfl
    (fun fuel => by rw [evaluate]) fun fuel hf => run_bind (hm fuel hf)

theorem evaluatesAll_nil : EvaluatesAll set s [] st [] st.world.heap := ⟨0, fun _ _ => rfl⟩

theorem evaluatesAll_cons (he : Evaluates set s e st v h)
    (hes : EvaluatesAll set s es (withHeap st h) vs h') :
    EvaluatesAll set s (e :: es) st (v :: vs) h' := by
  obtain ⟨m, hm⟩ := he
  obtain ⟨n, hn⟩ := hes
  refine ⟨max m n, ?_⟩
  intro fuel hf
  rw [List.mapM_cons, run_bind (hm fuel (by omega)), run_bind (hn fuel (by omega))]
  rfl

theorem evaluates_list (hes : EvaluatesAll set s es st vs h) :
    Evaluates set s (.listLiteral p es) st (h.newList vs.toArray).1 (h.newList vs.toArray).2 := by
  obtain ⟨n, hn⟩ := hes
  exact evaluates_step (fun fuel => (es.mapM fun e => evaluate set fuel e s) >>= newList) rfl
    (fun fuel => by rw [evaluate]) fun fuel hf => run_bind (hn fuel hf)

theorem scalar_checked (hv : v.IsScalar) : Operation.checkKey v = .ok () := by
  cases v <;> first | exact hv.elim | rfl

theorem evaluatesEntries_nil : EvaluatesEntries set s [] st [] st.world.heap := ⟨0, fun _ _ => rfl⟩

theorem evaluatesEntries_cons {k e : Node} {es : List (Node × Node)} {ps : List (Value × Value)}
    {h'' : Heap} (hv : v.IsScalar) (hk : Evaluates set s k st v h)
    (he : Evaluates set s e (withHeap st h) w h')
    (hes : EvaluatesEntries set s es (withHeap st h') ps h'') :
    EvaluatesEntries set s ((k, e) :: es) st ((v, w) :: ps) h'' := by
  obtain ⟨l, hl⟩ := hk
  obtain ⟨m, hm⟩ := he
  obtain ⟨n, hn⟩ := hes
  refine ⟨max l (max m n), ?_⟩
  intro fuel hf
  have hentry : evaluateEntry set fuel s (k, e) st = .ok (v, w) (withHeap st h') := by
    rw [evaluateEntry, run_bind (hl fuel (by omega)), scalar_checked hv]
    exact (run_bind (hm fuel (by omega))).trans rfl
  rw [List.mapM_cons, run_bind hentry, run_bind (hn fuel (by omega))]
  rfl

theorem evaluates_mapping {es : List (Node × Node)} {ps : List (Value × Value)}
    (hes : EvaluatesEntries set s es st ps h) (hd : Mapping.Distinct ⟨ps⟩) :
    Evaluates set s (.mapLiteral p es) st (h.newMapping ⟨ps⟩).1 (h.newMapping ⟨ps⟩).2 := by
  obtain ⟨n, hn⟩ := hes
  refine evaluates_step (n := n) (fun fuel => es.mapM (evaluateEntry set fuel s) >>= fun ps =>
    newMapping (.ofEntries ps)) rfl (fun fuel => by rw [evaluate]; rfl) ?_
  intro fuel hf
  rw [run_bind (hn fuel hf), Mapping.ofEntries_distinct hd]
  rfl

/-! ### Copies -/

/-- An expression, wherever its parts stand, makes a copy of a value in every later heap. -/
def Copies (set : Settings) (s : Nat) (h : Heap) (v : Value) (e : Node) : Prop :=
  ∀ e', e'.bare = e → ∀ st, h.Extends st.world.heap → ∃ w h', st.world.heap.Extends h' ∧
    h'.Mirrors w v ∧ Evaluates set s e' st w h'

theorem copies_scalar (hv : v.IsScalar)
    (he : ∀ e', e'.bare = e → ∀ st, Evaluates set s e' st v st.world.heap) :
    Copies set s h v e :=
  fun e' hb st _ => ⟨v, _, .refl _, .scalar hv, he e' hb st⟩

theorem copies_literal {j kind : Json}
    (hj : (if kind.isText "None" then Value.none else .ofJson j) = v) (hv : v.IsScalar) :
    Copies set s h v (.literal .unknown j kind) := by
  apply copies_scalar hv
  intro e' hb st
  cases e' <;> simp only [Node.bare, reduceCtorEq, Node.literal.injEq, true_and] at hb
  obtain ⟨rfl, rfl⟩ := hb
  rw [← hj]
  exact evaluates_literal _ _ _

theorem copies_negative (n : Int) :
    Copies set s h (.integer (-n))
      (.unaryOp .unknown "-" (.literal .unknown (.integer n) "Integer")) := by
  refine copies_scalar trivial ?_
  intro e' hb st
  cases e' <;> simp only [Node.bare, reduceCtorEq, Node.unaryOp.injEq, true_and] at hb
  obtain ⟨rfl, ha⟩ := hb
  rename_i a
  cases a <;> simp only [Node.bare, reduceCtorEq, Node.literal.injEq, true_and] at ha
  obtain ⟨rfl, rfl⟩ := ha
  exact evaluates_minus (evaluates_literal _ _ _)

theorem mirrors_scalar (hm : h.Mirrors w v) (hv : v.IsScalar) : w = v := by
  cases hm <;> first | rfl | exact hv.elim

theorem copies_all (hc : List.Forall₂ (Copies set s h) vs es) {es' : List Node}
    (hb : Node.bareList es' = es) (st : State) (he : h.Extends st.world.heap) :
    ∃ ws h', st.world.heap.Extends h' ∧ List.Forall₂ h'.Mirrors ws vs ∧
      EvaluatesAll set s es' st ws h' := by
  induction hc generalizing es' st with
  | nil =>
    cases es' with
    | nil => exact ⟨[], _, .refl _, .nil, evaluatesAll_nil⟩
    | cons => simp [Node.bareList] at hb
  | @cons v e vs es hv _ ih =>
    cases es' with
    | nil => simp [Node.bareList] at hb
    | cons e' es' =>
      obtain ⟨hb, hbs⟩ := List.cons.inj hb
      obtain ⟨w, h₁, he₁, hm, hw⟩ := hv e' hb st he
      obtain ⟨ws, h₂, he₂, hms, hws⟩ := ih hbs (withHeap st h₁) (he.trans he₁)
      exact ⟨w :: ws, h₂, he₁.trans he₂, .cons (hm.mono he₂) hms, evaluatesAll_cons hw hws⟩

theorem copies_list {i : Nat} (hi : i < h.lists.size)
    (hc : List.Forall₂ (Copies set s h) (h.list i).toList es) :
    Copies set s h (.list i) (.listLiteral .unknown es) := by
  intro e' hb st he
  cases e' <;> simp only [Node.bare, reduceCtorEq, Node.listLiteral.injEq, true_and] at hb
  obtain ⟨ws, h', he', hms, hws⟩ := copies_all hc hb st he
  obtain ⟨hgrow, hid, hsize, hitems⟩ := h'.newList_spec ws.toArray
  refine ⟨_, _, he'.trans hgrow, ?_, evaluates_list hws⟩
  obtain ⟨hi', hlist⟩ := ((he.trans he').trans hgrow).lists i hi
  rw [hid]
  apply mirrors_list hsize hi'
  rw [hitems, hlist]
  exact hms.imp fun _ _ hm => hm.mono hgrow

def CopiesEntry (set : Settings) (s : Nat) (h : Heap) (e : Value × Value) (n : Node × Node) :
    Prop :=
  e.1.IsScalar ∧ Copies set s h e.1 n.1 ∧ Copies set s h e.2 n.2

theorem copies_entries {ps : List (Value × Value)} {ns : List (Node × Node)}
    (hc : List.Forall₂ (CopiesEntry set s h) ps ns) {ns' : List (Node × Node)}
    (hb : Node.barePairs ns' = ns) (st : State) (he : h.Extends st.world.heap) :
    ∃ qs h', st.world.heap.Extends h' ∧ List.Forall₂ h'.MirrorsEntry qs ps ∧
      EvaluatesEntries set s ns' st qs h' := by
  induction hc generalizing ns' st with
  | nil =>
    cases ns' with
    | nil => exact ⟨[], _, .refl _, .nil, evaluatesEntries_nil⟩
    | cons => simp [Node.barePairs] at hb
  | @cons p n ps ns hp _ ih =>
    cases ns' with
    | nil => simp [Node.barePairs] at hb
    | cons n' ns' =>
      obtain ⟨hn, hns⟩ := List.cons.inj hb
      subst hn
      obtain ⟨hs, hk, hv⟩ := hp
      obtain ⟨k, h₁, he₁, hmk, hwk⟩ := hk n'.1 rfl st he
      obtain rfl := mirrors_scalar hmk hs
      obtain ⟨w, h₂, he₂, hm, hw⟩ := hv n'.2 rfl (withHeap st h₁) (he.trans he₁)
      obtain ⟨qs, h₃, he₃, hms, hqs⟩ := ih hns (withHeap st h₂) ((he.trans he₁).trans he₂)
      exact ⟨(p.1, w) :: qs, h₃, (he₁.trans he₂).trans he₃, .cons ⟨rfl, hm.mono he₃⟩ hms,
        evaluatesEntries_cons hs hwk hw hqs⟩

theorem copies_mapping {i : Nat} {ns : List (Node × Node)} (hi : i < h.mappings.size)
    (hd : (h.mapping i).Distinct)
    (hc : List.Forall₂ (CopiesEntry set s h) (h.mapping i).entries ns) :
    Copies set s h (.mapping i) (.mapLiteral .unknown ns) := by
  intro e' hb st he
  cases e' <;> simp only [Node.bare, reduceCtorEq, Node.mapLiteral.injEq, true_and] at hb
  obtain ⟨qs, h', he', hms, hqs⟩ := copies_entries hc hb st he
  have hdistinct : Mapping.Distinct ⟨qs⟩ := Mapping.distinct_of_keys (mirrorsEntry_keys hms) hd
  obtain ⟨hgrow, hid, hsize, hentries⟩ := h'.newMapping_spec ⟨qs⟩
  refine ⟨_, _, he'.trans hgrow, ?_, evaluates_mapping hqs hdistinct⟩
  obtain ⟨hi', hmapping⟩ := ((he.trans he').trans hgrow).mappings i hi
  rw [hid]
  apply mirrors_mapping hsize hi'
  rw [hentries, hmapping]
  exact hms.imp fun _ _ hm => ⟨hm.1, hm.2.mono hgrow⟩

end Evaluator

end Offside
