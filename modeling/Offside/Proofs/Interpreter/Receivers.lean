import Mathlib
import Offside.Proofs.Evaluator.Regular
import Offside.Proofs.Interpreter.Reporting

/-!
Receivers of methods. A run comes by a method only in binding it to a value of its kind, and it
keeps the method whole, wherever it is stored and however it is passed on. So a builtin that is a
method is entered with a receiver of its kind and as many arguments as it takes, and never asks its
receiver for a part that is not there.
-/

namespace Offside

/-- How the names of the methods of a kind begin. -/
def methodOwners : List (String × Kind) :=
  [("str.", .string), ("list.", .list), ("map.", .mapping)]

/-- The kind of receiver of a method of this name. -/
def receiverKind? (name : String) : Option Kind :=
  (methodOwners.find? fun owner => owner.1.toList.isPrefixOf name.toList).map (·.2)

/-- As a method the value has a receiver of the kind of its name. -/
def Value.Attached (v : Value) : Prop :=
  ∀ name kind, receiverKind? name = some kind →
    v ≠ .native name ∧ ∀ receiver, v = .bound name receiver → receiver.kind = kind

/-- The values in Lists, in Mappings and in scopes. -/
inductive State.Holds (st : State) : Value → Prop where
  | item {xs : Array Value} {v : Value} : xs ∈ st.world.heap.lists → v ∈ xs → Holds st v
  | key {m : Mapping} {e : Value × Value} :
      m ∈ st.world.heap.mappings → e ∈ m.entries → Holds st e.1
  | value {m : Mapping} {e : Value × Value} :
      m ∈ st.world.heap.mappings → e ∈ m.entries → Holds st e.2
  | binding {s : Scope} {b : Json × Value} :
      s ∈ st.scopes.table → b ∈ s.bindings → Holds st b.2

variable {name : String} {kind : Kind} {v : Value} {st : State}

theorem owner_of_kind (h : receiverKind? name = some kind) :
    ∃ owner, (owner, kind) ∈ methodOwners ∧ owner.toList <+: name.toList := by
  obtain ⟨⟨owner, kind'⟩, hfind, rfl⟩ := Option.map_eq_some_iff.mp h
  refine ⟨owner, List.mem_of_find?_eq_some hfind, ?_⟩
  have hbegins : owner.toList.isPrefixOf name.toList = true :=
    List.find?_some (p := fun o : String × Kind => o.1.toList.isPrefixOf name.toList) hfind
  exact List.isPrefixOf_iff_prefix.mp hbegins

theorem dot_of_kind (h : receiverKind? name = some kind) : '.' ∈ name.toList := by
  obtain ⟨owner, howner, hbegins⟩ := owner_of_kind h
  have hdot : ∀ o ∈ methodOwners, '.' ∈ o.1.toList := by decide
  exact hbegins.subset (hdot _ howner)

theorem kind_of_serves (h : v.Serves name) (hkind : receiverKind? name = some kind) :
    v.kind = kind := by
  obtain ⟨owner, howner, rest, hname⟩ := owner_of_kind hkind
  simp only [methodOwners, List.mem_cons, Prod.mk.injEq, List.not_mem_nil, or_false] at howner
  rcases howner with ⟨rfl, rfl⟩ | ⟨rfl, rfl⟩ | ⟨rfl, rfl⟩
  · obtain ⟨s, rfl⟩ := Value.text_of_serves hname.symm h
    rfl
  · obtain ⟨id, rfl⟩ := Value.list_of_serves hname.symm h
    rfl
  · obtain ⟨id, rfl⟩ := Value.mapping_of_serves hname.symm h
    rfl

theorem attached_of_proper (h : v.Proper) : v.Attached := by
  intro name kind hkind
  constructor
  · rintro rfl
    exact h (dot_of_kind hkind)
  · rintro receiver rfl
    exact kind_of_serves h hkind

theorem State.InLanguage.holds (h : st.InLanguage) (hv : st.Holds v) : v.Proper := by
  cases hv with
  | item hxs hv => exact h.heap.lists _ hxs v hv
  | key hm he => exact (h.heap.mappings _ hm _ he).1
  | value hm he => exact (h.heap.mappings _ hm _ he).2
  | binding hs hb => exact h.scopes _ hs _ hb

theorem State.InLanguage.attached (h : st.InLanguage) : ∀ v, st.Holds v → v.Attached :=
  fun _ hv => attached_of_proper (h.holds hv)

namespace Library

/-- All methods of the library take a number of arguments that is told, and none is of the disk. -/
theorem method_builtins : ∀ b ∈ builtins, (receiverKind? b.name).isSome = true →
    b.arity?.isSome = true ∧ isDiskName b.name = false := by
  decide +kernel

end Library

namespace Interpreter

open Evaluator

variable {set : Settings} {args : List Value}

/-- The builtin of a method gets a receiver of the kind first. It is entered with as many arguments
as it takes and no others, and then it reports all that it refuses. -/
structure EntersServed (set : Settings) (name : String) (kind : Kind) (args : List Value) :
    Prop where
  receiver : ∃ v rest, args = v :: rest ∧ v.kind = kind
  entered : ∀ b, set.registry.find? name = some b → ∃ range, b.arity? = some range ∧
    ∀ w, w.heap.Proper →
      if range.has args.length then
        b.call args w = b.run args w ∧ ∀ r w', b.run args w = .error r w' → r.Reported
      else b.call args w = .error (.failure (.arity range args.length)) w

theorem fitting_served (hlibrary : ∀ b ∈ set.registry.builtins, b ∈ Library.builtins)
    (h : Library.Fitting name args) (hkind : receiverKind? name = some kind) :
    EntersServed set name kind args := by
  obtain ⟨v, rest, rfl, hv⟩ := h.receiver (dot_of_kind hkind)
  refine ⟨⟨v, rest, rfl, kind_of_serves hv hkind⟩, fun b hb => ?_⟩
  have hmem : b ∈ Library.builtins := hlibrary b (List.mem_of_find?_eq_some hb)
  obtain rfl : b.name = name := by simpa using List.find?_some hb
  obtain ⟨harity, hdisk⟩ := Library.method_builtins b hmem (by rw [hkind]; rfl)
  obtain ⟨range, hrange⟩ := Option.isSome_iff_exists.mp harity
  refine ⟨range, hrange, fun w hw => ?_⟩
  unfold Builtin.call
  rw [hrange]
  by_cases hhas : range.has (v :: rest).length = true
  · have htakes : b.Takes (v :: rest).length := Builtin.takes_of_has hrange hhas
    have hreports := (Library.library_reports hmem hdisk (v :: rest) h htakes).reported w hw
    rw [if_pos hhas]
    dsimp only
    rw [if_pos hhas]
    refine ⟨rfl, fun r w' hr => ?_⟩
    rw [hr] at hreports
    exact hreports.1
  · rw [if_neg hhas]
    dsimp only
    rw [if_neg hhas]
    rfl

/-! ### Runs -/

theorem start_inLanguage {w : World} (hw : w.heap.Proper) (h : start set w = .ok st) :
    st.InLanguage := by
  have hproper : st.Proper set True := start_proper hw h
  refine ⟨hproper.heap, hproper.scopes, ?_⟩
  rw [(start_fresh h).2]
  exact fun c hc => absurd hc (Array.not_mem_empty c)

theorem opened_inLanguage (h : st.InLanguage) (s : Nat) : (opened set s st).InLanguage := by
  unfold opened
  split
  · exact h
  · exact ⟨h.heap, installBuiltins_proper _ _ h.scopes, h.functions⟩

/-- The literals of an accepted program are of values of the language. -/
theorem accepted_regular {source : String} {p : Place} {body : List Node}
    (h : parseProgram source = .ok (.program p body)) : ∀ n ∈ body, n.All Node.IsRegular := by
  intro n hn m hm
  have hplain := (accepted_plain (R := True) h (fun _ _ _ => trivial) n hn).all m hm
  cases m with
  | literal => exact literal_proper hplain.textual
  | _ => trivial

theorem run_inLanguage (hlibrary : ∀ b ∈ set.registry.builtins, b ∈ Library.builtins) (p : Place)
    {body : List Node} (hbody : ∀ n ∈ body, n.All Node.IsRegular) (fuel s : Nat)
    (h : st.InLanguage) : (stateAfter (run set fuel (.program p body) s st)).InLanguage := by
  have hopened : (opened set s st).InLanguage := opened_inLanguage h s
  have hblock := (script_retains hlibrary fuel (block_regular (s := s) hbody)).retained _ hopened
  rw [Script.play_block] at hblock
  have hexecute : Retained Always (execute set fuel (.program p body) s (opened set s st)) :=
    retained_bind hblock fun _ _ _ hst => ⟨trivial, hst⟩
  have hafter := retained_after hexecute
  rw [run_apply]
  split
  · exact hopened
  · unfold closing
    cases hr : execute set fuel (.program p body) s (opened set s st) with
    | ok a st' =>
      rw [hr] at hafter
      exact ⟨hafter.heap, hafter.scopes, hafter.functions⟩
    | error e st' =>
      rw [hr] at hafter
      exact ⟨hafter.heap, hafter.scopes, hafter.functions⟩

/-- A run of an accepted program begins in a new interpreter, or in one that holds values of the
language: then every method that is ever held has a receiver of its kind, whether in a List, in a
Mapping, in a scope or in a call, and its builtin is entered with that receiver. -/
theorem methods_served {source : String} {program : Node}
    (h : parseProgram source = .ok program)
    (hlibrary : ∀ b ∈ set.registry.builtins, b ∈ Library.builtins)
    (hst : (∃ w, w.heap.Proper ∧ start set w = .ok st) ∨ st.InLanguage) (fuel s : Nat) :
    ∃ body, program = .program Position.start body ∧
      (∀ v, (stateAfter (run set fuel program s st)).Holds v → v.Attached) ∧
      ∀ m, Reached set fuel body s st m →
        (∀ v, m.state.Holds v → v.Attached) ∧
        (∀ v, (stateAfter (m.task.run set m.fuel m.state)).Holds v → v.Attached) ∧
        (∀ f args, m.task = .call f args → ∀ v ∈ f :: args, v.Attached) ∧
        ∀ name args, m.task.Enters name args → ∀ kind, receiverKind? name = some kind →
          EntersServed set name kind args := by
  have hst : st.InLanguage := by
    rcases hst with ⟨w, hw, hstart⟩ | hst
    · exact start_inLanguage hw hstart
    · exact hst
  obtain ⟨body, rfl, -⟩ := Parser.source_executable h
  have hbody := accepted_regular h
  refine ⟨body, rfl, (run_inLanguage hlibrary _ hbody fuel s hst).attached, fun m hm => ?_⟩
  obtain ⟨htask, hnow⟩ :=
    reaches_inLanguage hlibrary (block_regular hbody) (opened_inLanguage hst s) hm
  have hafter := retained_after ((run_retains hlibrary m.fuel htask).retained _ hnow)
  refine ⟨hnow.attached, hafter.attached, ?_, ?_⟩
  · intro f args hcall v hv
    rw [hcall] at htask
    rcases List.mem_cons.mp hv with rfl | hv
    · exact attached_of_proper htask.1
    · exact attached_of_proper (htask.2 v hv)
  · intro name args henters kind hkind
    exact fitting_served hlibrary (enters_fitting htask henters) hkind

/-- The builtins of the library, and no trace. -/
def untraced : Settings := ⟨Library.standard, defaultDepth, 0⟩

/-- A method in a Mapping, taken out again by a function and called. -/
def storedMethod : String :=
  "m = \x7b\"up\": \"a\".upper\x7d\ndef f():\n    return m[\"up\"]()\nprint(f())\n"

/-- The value is the method of this name. -/
def isMethod (name : String) : Value → Bool
  | .bound method _ => method == name
  | _ => false

/-- Some Mapping has the method for a value. -/
def storesMethod (name : String) (st : State) : Bool :=
  st.world.heap.mappings.toList.any fun m => m.entries.any fun e => isMethod name e.2

theorem holds_of_stored (h : storesMethod name st = true) :
    ∃ receiver, st.Holds (.bound name receiver) := by
  obtain ⟨m, hm, he⟩ := List.any_eq_true.mp h
  obtain ⟨e, he, hmethod⟩ := List.any_eq_true.mp he
  have hheld : st.Holds e.2 := .value (Array.mem_def.mpr hm) he
  unfold isMethod at hmethod
  split at hmethod
  · next method receiver hv =>
    obtain rfl := beq_iff_eq.mp hmethod
    exact ⟨receiver, hv ▸ hheld⟩
  · cases hmethod

theorem stored_method_served :
    ∃ program st receiver, parseProgram storedMethod = .ok program ∧
      (∀ b ∈ untraced.registry.builtins, b ∈ Library.builtins) ∧
      (default : World).heap.Proper ∧ start untraced default = .ok st ∧
      (stateAfter (run untraced 30 program ownScope st)).world.output = "A\n" ∧
      (stateAfter (run untraced 30 program ownScope st)).Holds (.bound "str.upper" receiver) ∧
      receiver.kind = .string := by
  obtain ⟨program, st, hparse, hstart, houtput, hstored⟩ :
      ∃ program st, parseProgram storedMethod = .ok program ∧
        start untraced default = .ok st ∧
        (stateAfter (run untraced 30 program ownScope st)).world.output = "A\n" ∧
        storesMethod "str.upper" (stateAfter (run untraced 30 program ownScope st)) = true :=
    ⟨_, _, by cbv, rfl, by decide +kernel⟩
  obtain ⟨receiver, hheld⟩ := holds_of_stored hstored
  have hlibrary : ∀ b ∈ untraced.registry.builtins, b ∈ Library.builtins :=
    Library.standard_builtins
  have hheap : (default : World).heap.Proper := Heap.empty_proper
  obtain ⟨body, -, hafter, -⟩ :=
    methods_served hparse hlibrary (.inl ⟨default, hheap, hstart⟩) 30 ownScope
  obtain ⟨-, hkind⟩ := hafter _ hheld "str.upper" .string (by decide)
  exact ⟨program, st, receiver, hparse, hlibrary, hheap, hstart, houtput, hheld,
    hkind receiver rfl⟩

end Interpreter

end Offside
