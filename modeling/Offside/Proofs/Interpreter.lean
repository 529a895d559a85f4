import Offside.Interpreter
import Offside.Proofs.Evaluator.Literal
import Offside.Proofs.Scope

/-!
Runs of one assignment in a fresh interpreter. Tracing changes neither the heap nor the scopes, and
the interpreter's own scope binds what is assigned in it.
-/

namespace Offside

variable {v : Value}

open Evaluator Heap

variable {set : Settings} {st : State} {h : Heap}

/-- A trace is not wanted, or its file is open. -/
def Traceable (set : Settings) (st : State) : Prop := set.traceLevel = 0 ∨ st.trace.isSome = true

structure SameBut (st st' : State) : Prop where
  heap : st'.world.heap = st.world.heap
  scopes : st'.scopes = st.scopes
  closures : st'.closures = st.closures

theorem openTrace_open {t : Trace} (h : st.trace = some t) : openTrace st = .ok t st := by
  refine (run_bind (show (get : Run State) st = .ok st st from rfl)).trans ?_
  rw [h]
  rfl

theorem writeTrace_ok {t : Trace} (h : st.trace = some t) {line : String}
    (hline : Text.IsEncodable line) :
    ∃ st', writeTrace line st = .ok () st' ∧ SameBut st st' ∧ st'.trace.isSome = true := by
  have hencoded : Text.encodeUtf8 (line ++ "\n") = .ok (line ++ "\n").toUTF8 :=
    Text.encodeUtf8_ok (Text.isEncodable_append.mpr ⟨hline, by decide⟩)
  have hwrite : writeTrace line st = appendTrace t (line ++ "\n").toUTF8 st := by
    refine (run_bind (openTrace_open h)).trans ?_
    rw [hencoded]
  exact ⟨_, hwrite, ⟨rfl, rfl, rfl⟩, rfl⟩

theorem writeTrace_refused {t : Trace} (h : st.trace = some t) {line : String}
    (hline : ¬ Text.IsEncodable line) :
    ∃ e, writeTrace line st = .error (.fault (.surrogates e)) st := by
  have hnot : ¬ Text.IsEncodable (line ++ "\n") := fun h => hline (Text.isEncodable_append.mp h).1
  obtain ⟨e, he⟩ := Text.encodeUtf8_error hnot
  refine ⟨e, (run_bind (openTrace_open h)).trans ?_⟩
  rw [he]
  rfl

theorem traceAt_ok (ht : Traceable set st) {n : Nat} (hn : 0 < n) (line : Heap → String)
    (hline : n ≤ set.traceLevel → Text.IsEncodable (line st.world.heap)) :
    ∃ st', traceAt set n line st = .ok () st' ∧ SameBut st st' ∧ Traceable set st' := by
  unfold traceAt
  by_cases hlevel : n ≤ set.traceLevel
  · rcases ht with h₀ | ht
    · omega
    · obtain ⟨t, htrace⟩ := Option.isSome_iff_exists.mp ht
      obtain ⟨st', hwrite, hsame, hopen⟩ := writeTrace_ok htrace (hline hlevel)
      rw [if_pos hlevel]
      exact ⟨st', hwrite, hsame, .inr hopen⟩
  · rw [if_neg hlevel]
    exact ⟨st, rfl, ⟨rfl, rfl, rfl⟩, ht⟩

/-- A trace is not written where a line has a surrogate. -/
theorem traceAt_refused (ht : Traceable set st) {n : Nat} (hn : 0 < n) (line : Heap → String)
    (hlevel : n ≤ set.traceLevel) (hline : ¬ Text.IsEncodable (line st.world.heap)) :
    ∃ e, traceAt set n line st = .error (.fault (.surrogates e)) st := by
  unfold traceAt
  rw [if_pos hlevel]
  rcases ht with h₀ | ht
  · omega
  · obtain ⟨t, htrace⟩ := Option.isSome_iff_exists.mp ht
    exact writeTrace_refused htrace hline

namespace Interpreter

theorem newScopes_size (registry : Registry) : (newScopes registry).table.size = 1 := by
  have hall : ∀ (names : List String) (root : Nat) (scopes : Scopes),
      (names.foldl (fun scopes (name : String) =>
        if (scopes.scope root).binds name then scopes
        else scopes.define root name (.native name)) scopes).table.size = scopes.table.size := by
    intro names root
    induction names with
    | nil => exact fun _ => rfl
    | cons x names ih =>
      intro scopes
      rw [List.foldl_cons, ih]
      split_ifs
      · rfl
      · exact Scopes.define_size _ _ _ _
  exact hall _ _ _

/-- A new interpreter has its builtins in scope, and no functions. -/
theorem start_fresh {w : World} (h : start set w = .ok st) :
    st.scopes = newScopes set.registry ∧ st.closures = #[] := by
  unfold start at h
  dsimp only at h
  split_ifs at h
  · cases h
    exact ⟨rfl, rfl⟩
  · split at h
    · cases h
      exact ⟨rfl, rfl⟩
    · cases h

theorem start_spec {w : World} (hst : start set w = .ok st) :
    st.world.heap = w.heap ∧ Traceable set st ∧ st.scopes.table.size = 1 := by
  have hsize : st.scopes.table.size = 1 := (start_fresh hst).1 ▸ newScopes_size _
  unfold start at hst
  dsimp only at hst
  split_ifs at hst with hlevel
  · obtain rfl := Except.ok.inj hst
    exact ⟨rfl, .inl hlevel, hsize⟩
  · unfold startTrace at hst
    split at hst
    · next trace w' hw =>
      split at hw
      · next file disk _ =>
        obtain ⟨rfl, rfl⟩ := Prod.mk.inj (Except.ok.inj hw)
        obtain rfl := Except.ok.inj hst
        exact ⟨rfl, .inr rfl, hsize⟩
      · cases hw
    · cases hst

/-- An interpreter without builtins that has run nothing yet. -/
def bare : State := ⟨default, .root, #[], 0, none⟩

/-- The state in which a run in the scope `s` begins. -/
def opened (set : Settings) (s : Nat) (st : State) : State :=
  if s = ownScope then st else { st with scopes := installBuiltins set.registry s st.scopes }

theorem run_apply (set : Settings) (fuel : Nat) (program : Node) (s : Nat) (st : State) :
    run set fuel program s st =
      if mostFrames < framesFor set.maxDepth then
        .error (.fault .depthBeyondWord) (opened set s st)
      else closing (execute set fuel program s) (opened set s st) := by
  unfold run opened
  by_cases hs : s = ownScope
  · rw [if_neg (not_not_intro hs), if_pos hs]
    split <;> rfl
  · rw [if_pos hs, if_neg hs]
    split <;> rfl

/-- A copy of a value that a name is bound to. -/
structure BoundCopy (st st' : State) (x : String) (v : Value) : Prop where
  grown : st.world.heap.Extends st'.world.heap
  copied : ∃ w, st'.scopes.get? ownScope x = some w ∧ st'.world.heap.Mirrors w v

variable {x : String} {p q : Place} {e : Node}

/-- The trace can hold what it says of an assignment of a copy of `v` at `p`. -/
structure Tellable (set : Settings) (h : Heap) (p : Place) (x : String) (v : Value) : Prop where
  place : 4 ≤ set.traceLevel → Text.IsEncodable p.text
  value : 2 ≤ set.traceLevel → ∀ w h', h.Extends h' → h'.Mirrors w v →
    Text.IsEncodable ("assign " ++ x ++ " = " ++ h'.display w)

theorem execute_assignment (ht : Traceable set st) (hs : 0 < st.scopes.table.size)
    (htell : Tellable set st.world.heap p x v) (hc : Copies set ownScope st.world.heap v e.bare) :
    ∃ st', BoundCopy st st' x v ∧ ∃ n, ∀ fuel, n ≤ fuel →
      Evaluator.execute set fuel (.assign p (.identifier q x) e) ownScope st = .ok .normal st' := by
  have hstart (h : 4 ≤ set.traceLevel) :
      Text.IsEncodable (placeText (.assign p (.identifier q x) e) ++ "Assign") :=
    Text.isEncodable_append.mpr ⟨Text.isEncodable_append.mpr ⟨htell.place h, by decide⟩, by decide⟩
  obtain ⟨st₁, htrace₁, hsame₁, ht₁⟩ := traceAt_ok ht (show 0 < 4 by decide)
    (fun _ => placeText (.assign p (.identifier q x) e) ++ "Assign") hstart
  obtain ⟨w, h, hgrow, hm, n, hn⟩ := hc e rfl st₁ (hsame₁.heap ▸ .refl _)
  let st₂ : State := { withHeap st₁ h with scopes := st₁.scopes.assign ownScope x w }
  have hassign : Run.assign ownScope x w (withHeap st₁ h) = .ok () st₂ := rfl
  obtain ⟨st₃, htrace₃, hsame₃, -⟩ := traceAt_ok (show Traceable set st₂ from ht₁)
    (show 0 < 2 by decide) (fun h => "assign " ++ x ++ " = " ++ h.display w)
    fun hlevel => htell.value hlevel w h (hsame₁.heap ▸ hgrow) hm
  have hname : assignName set ownScope x w (withHeap st₁ h) = .ok () st₃ :=
    (run_bind hassign).trans htrace₃
  refine ⟨st₃, ⟨?_, w, ?_, ?_⟩, n + 1, ?_⟩
  · rw [hsame₃.heap, ← hsame₁.heap]
    exact hgrow
  · rw [hsame₃.scopes]
    refine Scopes.get_assign_zero ?_ (by simp [Json.same, Json.sameAtom, Json.countable])
    rw [hsame₁.scopes]
    exact hs
  · rw [hsame₃.heap]
    exact hm
  · intro fuel hf
    obtain ⟨k, rfl⟩ : ∃ k, fuel = k + 1 := ⟨fuel - 1, by omega⟩
    rw [Evaluator.execute]
    refine (run_bind rfl).trans (located_of_ok p ?_)
    refine (run_bind htrace₁).trans ((run_bind (hn k (by omega))).trans ?_)
    exact (run_bind hname).trans rfl

/-- A program of one assignment runs in the interpreter's own scope. -/
theorem run_assignment {r : Place} (hf : framesFor set.maxDepth ≤ mostFrames)
    (ht : Traceable set st) (hs : 0 < st.scopes.table.size)
    (htell : Tellable set st.world.heap p x v) (hc : Copies set ownScope st.world.heap v e.bare) :
    ∃ st', BoundCopy st st' x v ∧ ∃ n, ∀ fuel, n ≤ fuel →
      run set fuel (.program r [.assign p (.identifier q x) e]) ownScope st = .ok () st' := by
  obtain ⟨st', hb, n, hn⟩ := execute_assignment (x := x) (p := p) (q := q) ht hs htell hc
  refine ⟨closeTrace st', ⟨hb.grown, hb.copied⟩, n, ?_⟩
  intro fuel hfuel
  have hblock : execute set fuel (.program r [.assign p (.identifier q x) e]) ownScope st =
      .ok () st' :=
    run_bind ((run_bind (hn fuel hfuel)).trans rfl)
  have hclosing : closing (execute set fuel (.program r [.assign p (.identifier q x) e]) ownScope)
      st = .ok () (closeTrace st') := by
    rw [closing, hblock]
  unfold run
  rw [if_neg (by decide), if_neg (by omega)]
  exact hclosing

end Interpreter

end Offside
