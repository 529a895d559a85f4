import Offside.Library
import Offside.Proofs.Heap.Display
import Offside.Proofs.Interpreter
import Offside.Proofs.Parser.Placing
import Offside.Proofs.Printer.RoundTrip

/-!
Values as they are shown. The text of finite data is an expression that makes a copy of them, so an
assignment of the text binds a name to an equal value.
-/

namespace Offside.Printer

open Grammar Lexer Heap Evaluator Offside.Parser

variable {h : Heap} {v : Value} {ps qs : List Piece} {e : Node} {pss : List (List Piece)}
  {es : List Node}

theorem renders_negative (n : Nat) :
    Renders .test [operator "-", literal (.integer n)]
      (.unaryOp .unknown "-" (.literal .unknown (.integer n) "Integer")) := by
  have hn := renders_numeral n
  obtain ⟨d, ds, hnumeral⟩ := List.exists_cons_of_ne_nil (Number.natNumeral_digits n).1
  have hdigit : d.isDigit = true :=
    (Number.natNumeral_digits n).2 d (by rw [hnumeral]; exact List.mem_cons_self)
  refine ⟨⟨fun rest hr => ⟨lexable_operator (by decide), ?_, hn.tidy.spaced rest hr⟩,
    ?_⟩, ⟨_, _, rfl⟩, ?_⟩
  · have hspell : spell [literal (.integer n)] = d :: ds := by
      rw [← hnumeral]
      simp [spell, literal, Piece.text, Number.numeral_eq, Number.numeralChars]
    rw [hspell]
    intro c hc
    cases hc
    exact Number.digit_forall (P := fun d => d ≠ '=') hdigit (by decide)
  · intro depth
    exact hn.tidy.balanced depth
  · intro u hu
    obtain ⟨t, w, rfl, ht, hw⟩ := spells_cons hu
    exact goal_of_layer (m := 1) (n := 7) (by decide) (by decide) (by decide)
      (.minus (word_is ht) (.unit .suffixed (.unit .atom (hn.means w hw))))

/-! ### Texts -/

theorem spell_bracketed (o c : Char) (ps : List Piece) :
    spell (bracketed (String.ofList [o]) (String.ofList [c]) ps) = o :: (spell ps ++ [c]) := by
  simp [spell, bracketed, delimiter, Piece.text]

theorem spell_separated {texts : List String} (ht : pss.map spell = texts.map String.toList) :
    spell (separated pss) = (", ".intercalate texts).toList := by
  induction pss generalizing texts with
  | nil =>
    obtain rfl : texts = [] := by simpa using ht.symm
    rfl
  | cons ps pss ih =>
    obtain ⟨t, texts, rfl⟩ : ∃ t ts, texts = t :: ts := by
      cases texts with
      | nil => simp at ht
      | cons t ts => exact ⟨t, ts, rfl⟩
    obtain ⟨hp, hps⟩ := List.cons.inj ht
    cases pss with
    | nil =>
      obtain rfl : texts = [] := by simpa using hps.symm
      simpa [separated, String.intercalate_singleton] using hp
    | cons qs pss =>
      obtain ⟨t', texts, rfl⟩ : ∃ t' ts, texts = t' :: ts := by
        cases texts with
        | nil => simp at hps
        | cons t' ts => exact ⟨t', ts, rfl⟩
      have hcomma : spell [delimiter ",", .blank] = (", ").toList := by
        simp [spell, delimiter, Piece.text]
      have hsplit : separated (ps :: qs :: pss) =
          ps ++ ([delimiter ",", .blank] ++ separated (qs :: pss)) := rfl
      rw [hsplit, spell_append, spell_append, ih hps, hp, hcomma, String.intercalate_cons_cons]
      simp

theorem spell_entry (ks vs : List Piece) :
    spell (entry ks vs) = spell ks ++ (": ".toList ++ spell vs) := by
  have hcolon : spell [delimiter ":", .blank] = (": ").toList := by
    simp [spell, delimiter, Piece.text]
  have hsplit : entry ks vs = ks ++ ([delimiter ":", .blank] ++ vs) := rfl
  rw [hsplit, spell_append, spell_append, hcolon]

/-! ### Data -/

/-- A value is shown as pieces of an expression that copies it. -/
structure Written (h : Heap) (v : Value) (ps : List Piece) (e : Node) : Prop where
  shown : spell ps = (h.display v).toList
  renders : Renders .test ps e
  copied : ∀ set s, Copies set s h v e

theorem written_atom {ps : List Piece} (hv : v.IsScalar) (hs : spell ps = v.atomText.toList)
    (hr : Renders .test ps e) (hc : ∀ set s, Copies set s h v e) : Written h v ps e :=
  ⟨by rw [hs, display_scalar hv], hr, hc⟩

theorem test_of_atom (h : Renders .atom ps e) : Renders .test ps e :=
  test_of_suffixed (suffixed_of_atom h)

theorem integer_written (n : Int) : ∃ ps e, Written h (.integer n) ps e := by
  cases n with
  | ofNat n =>
    refine ⟨_, _, written_atom trivial ?_ (test_of_atom (renders_numeral n))
      fun _ _ => copies_literal rfl trivial⟩
    simp [spell, literal, Piece.text, Value.atomText]
  | negSucc n =>
    refine ⟨_, _, written_atom trivial ?_ (renders_negative (n + 1))
      fun _ _ => copies_negative _⟩
    simp [spell, literal, operator, Piece.text, Value.atomText, Number.numeral_eq,
      Number.numeralChars]
    rfl

theorem scalar_written (hv : v.IsScalar) : ∃ ps e, Written h v ps e := by
  cases v with
  | integer n => exact integer_written n
  | boolean b =>
    refine ⟨_, _, written_atom trivial ?_ (test_of_atom (renders_boolean b))
      fun _ _ => copies_literal rfl trivial⟩
    simp [spell, literal, keyword, Piece.text, Value.atomText]
  | string s =>
    refine ⟨_, _, written_atom trivial ?_ (test_of_atom (renders_string s))
      fun _ _ => copies_literal rfl trivial⟩
    simp [spell, literal, Piece.text, Value.atomText]
  | none =>
    refine ⟨_, _, written_atom trivial ?_ (test_of_atom renders_null)
      fun _ _ => copies_literal rfl trivial⟩
    simp [spell, literal, keyword, Piece.text, Value.atomText]
  | _ => exact hv.elim

structure WrittenAll (h : Heap) (vs : List Value) (pss : List (List Piece)) (es : List Node) :
    Prop where
  shown : pss.map spell = (vs.map h.display).map String.toList
  renders : RendersAll pss es
  copied : ∀ set s, List.Forall₂ (Copies set s h) vs es

theorem all_written {vs : List Value} (hv : ∀ v ∈ vs, ∃ ps e, Written h v ps e) :
    ∃ pss es, WrittenAll h vs pss es := by
  induction vs with
  | nil => exact ⟨[], [], rfl, .nil, fun _ _ => .nil⟩
  | cons v vs ih =>
    obtain ⟨ps, e, hp⟩ := hv v List.mem_cons_self
    obtain ⟨pss, es, hps⟩ := ih fun w hw => hv w (List.mem_cons_of_mem v hw)
    refine ⟨ps :: pss, e :: es, ?_, .cons hp.renders hps.renders,
      fun set s => .cons (hp.copied set s) (hps.copied set s)⟩
    rw [List.map_cons, List.map_cons, List.map_cons, hp.shown, hps.shown]

structure WrittenEntries (h : Heap) (es : List (Value × Value)) (pss : List (List Piece))
    (ns : List (Node × Node)) : Prop where
  shown : pss.map spell =
    (es.map fun e => h.display e.1 ++ ": " ++ h.display e.2).map String.toList
  renders : RendersEntries pss ns
  copied : ∀ set s, List.Forall₂ (CopiesEntry set s h) es ns

theorem entries_written {es : List (Value × Value)} (hk : ∀ e ∈ es, e.1.IsScalar)
    (hv : ∀ e ∈ es, ∃ ps n, Written h e.2 ps n) : ∃ pss ns, WrittenEntries h es pss ns := by
  induction es with
  | nil => exact ⟨[], [], rfl, .nil, fun _ _ => .nil⟩
  | cons e es ih =>
    obtain ⟨ks, k, hkey⟩ := scalar_written (h := h) (hk e List.mem_cons_self)
    obtain ⟨ps, n, hvalue⟩ := hv e List.mem_cons_self
    obtain ⟨pss, ns, hrest⟩ := ih (fun f hf => hk f (List.mem_cons_of_mem e hf))
      fun f hf => hv f (List.mem_cons_of_mem e hf)
    refine ⟨entry ks ps :: pss, (k, n) :: ns, ?_,
      .cons ⟨ks, ps, rfl, hkey.renders, hvalue.renders⟩ hrest.renders,
      fun set s => .cons ⟨hk e List.mem_cons_self, hkey.copied set s, hvalue.copied set s⟩
        (hrest.copied set s)⟩
    rw [List.map_cons, List.map_cons, List.map_cons, spell_entry, hkey.shown, hvalue.shown,
      hrest.shown]
    simp

/-- Finite data are shown as expressions that copy them. -/
theorem plain_written (hv : h.Plain v) : ∃ ps e, Written h v ps e := by
  induction hv with
  | scalar hs => exact scalar_written hs
  | @list i hi hp ih =>
    obtain ⟨pss, es, hall⟩ := all_written ih
    refine ⟨_, _, ?_, test_of_atom (renders_list hall.renders),
      fun set s => copies_list hi (hall.copied set s)⟩
    rw [display_list hi hp]
    refine (spell_bracketed '[' ']' _).trans ?_
    rw [spell_separated hall.shown]
    simp
  | @mapping i hi hd hk hp ih =>
    obtain ⟨pss, ns, hall⟩ := entries_written hk ih
    refine ⟨_, _, ?_, test_of_atom (renders_map hall.renders),
      fun set s => copies_mapping hi hd (hall.copied set s)⟩
    rw [display_mapping hi hd hk hp]
    refine (spell_bracketed '{' '}' _).trans ?_
    rw [spell_separated hall.shown]
    simp

/-! ### Reading back -/

/-- A program that assigns an expression to a name, wherever its parts stand. -/
def Assigns (x : String) (e : Node) (ss : List Node) : Prop :=
  ∃ p q e', ss = [.assign p (.identifier q x) e'] ∧ e'.bare = e

theorem assignment_reads {x : String} {u : List Token} {c c' : Cursor} (hx : IsName x)
    (he : Renders .test ps e)
    (hu : Spells u (Layout.wordsAll [.line (assigned "=" [name x] ps)])) (hc : Takes c u c')
    (hclose : Closes true c') :
    ∃ ss, Assigns x e ss ∧ Yields (fun fuel => statements fuel ⟨false, false⟩ true) c ss c' := by
  have hname := test_of_atom (renders_name hx)
  obtain ⟨t', e', o, ht', he', ho, hy⟩ := assigned_read (by decide) hname rfl he hu hc
  obtain ⟨t, rest, rfl, hb⟩ := line_begins (fun _ => assigned_begins hname) hu
  refine ⟨_, ?_, statements_cons (by rw [hc.next_eq]; exact hb) hy (statements_end hclose)⟩
  cases t' <;> simp only [Node.bare, reduceCtorEq, Node.identifier.injEq, true_and] at ht'
  rw [assignment, ho, ht']
  exact ⟨_, _, e', rfl, he'⟩

/-- A line that assigns an expression to a name is a program of that assignment. -/
theorem assignment_line_read {x : String} (hx : IsName x) (he : Renders .test ps e) :
    ∃ ss, parseProgram (x ++ " = " ++ String.ofList (spell ps) ++ "\n") =
      .ok (.program Position.start ss) ∧ Assigns x e ss := by
  have hclean :=
    clean_assigned (show "=" ∈ assignments by decide) (test_of_atom (renders_name hx)) he
  have htext : x ++ " = " ++ String.ofList (spell ps) ++ "\n" =
      Layout.source 1 [.line (assigned "=" [name x] ps)] := by
    simp [Layout.source, Layout.linesAll, Layout.lines, Line.text, assigned, name, textOf,
      operator, spell, Piece.text, ← String.toList_inj]
  rw [htext]
  exact source_read (by decide) (fun l hl => by rw [List.mem_singleton.mp hl]; exact .line hclean)
    fun _ _ _ hu hc hclose => assignment_reads hx he hu hc hclose

theorem position_encodable (p : Position) : Text.IsEncodable (Place.ofPosition p).text := by
  have hline := Number.numeral_encodable p.line
  have hcolumn := Number.numeral_encodable p.column
  exact Text.isEncodable_append.mpr ⟨Text.isEncodable_append.mpr ⟨hline, by decide⟩, hcolumn⟩

/-- A statement of an accepted program stands at a place that a trace can hold. -/
theorem accepted_place_encodable {source : String} {p : Place} {body : List Node}
    (h : parseProgram source = .ok (.program p body)) :
    ∀ n ∈ body, Text.IsEncodable n.pos.text := by
  unfold parseProgram at h
  cases hts : tokenize source with
  | error e =>
    rw [hts] at h
    cases h
  | ok ts =>
    rw [hts] at h
    intro n hn
    obtain ⟨t, -, hpos⟩ := (program_stands h n hn).pos
    rw [← hpos]
    exact position_encodable t.pos

/-- Finite data that are shown, assigned to a name and run in a fresh interpreter come back equal,
with the keys of every Mapping in their order; a trace of the assignment has to be able to hold
their text. -/
theorem shown_value_reads_back {set : Settings} {w : World} {st : State} {v : Value}
    (hv : w.heap.Plain v) (hst : Interpreter.start set w = .ok st)
    (hf : Interpreter.framesFor set.maxDepth ≤ Interpreter.mostFrames)
    (htrace : 2 ≤ set.traceLevel → Text.IsEncodable (w.heap.display v)) :
    ∃ program st', parseProgram ("r = " ++ w.heap.display v ++ "\n") = .ok program ∧
      (∃ n, ∀ fuel, n ≤ fuel →
        Interpreter.run set fuel program Interpreter.ownScope st = .ok () st') ∧
      w.heap.Extends st'.world.heap ∧
      ∃ v', st'.scopes.get? Interpreter.ownScope "r" = some v' ∧ st'.world.heap.Mirrors v' v ∧
        st'.world.heap.equal v' v = true := by
  obtain ⟨hheap, ht, hsize⟩ := Interpreter.start_spec hst
  obtain ⟨ps, e, hshown, hrenders, hcopied⟩ := plain_written hv
  have hname : IsName "r" := ⟨'r', [], rfl, .inl (by decide +kernel), by simp, by decide⟩
  obtain ⟨_, hparse, p, q, e', rfl, rfl⟩ := assignment_line_read hname hrenders
  have hprogram : parseProgram ("r = " ++ w.heap.display v ++ "\n") =
      .ok (.program Position.start [.assign p (.identifier q "r") e']) := by
    rw [← hparse, hshown, String.ofList_toList]
    rfl
  have htell : Interpreter.Tellable set st.world.heap p "r" v := by
    constructor
    · intro _
      have hplace := accepted_place_encodable hprogram (.assign p (.identifier q "r") e')
        (List.mem_singleton.mpr rfl)
      exact hplace
    · intro hlevel u h hgrown hm
      rw [hheap] at hgrown
      rw [(display_mirrors hm (hv.mono hgrown)).2, display_extends hgrown hv]
      exact Text.isEncodable_append.mpr ⟨by decide, htrace hlevel⟩
  obtain ⟨st', ⟨hgrown, v', hget, hm⟩, hrun⟩ := Interpreter.run_assignment (x := "r") (p := p)
    (q := q) (r := Position.start) hf ht (by omega) htell (hheap ▸ hcopied set Interpreter.ownScope)
  rw [hheap] at hgrown
  exact ⟨_, st', hprogram, hrun, hgrown, v', hget, hm, equal_of_mirrors hm (hv.mono hgrown)⟩

/-- A List that holds a Mapping with a negative key, and another List twice. -/
def sharedData : World :=
  { (default : World) with
    heap := {
      lists := #[#[.integer (-5), .string "\"\\\n", .mapping 0, .list 1], #[.none]]
      mappings := #[⟨[(.integer (-1), .list 1), (.string "k", .boolean true)]⟩] } }

def standardSettings : Settings := ⟨Library.standard, Interpreter.defaultDepth, 0⟩

/-- It is shown as `[-5, "\"\\\n", {-1: [none], "k": true}, [none]]`, which makes four objects. -/
theorem shared_data_reads_back :
    ∃ st, sharedData.heap.Plain (.list 0) ∧
      Interpreter.start standardSettings sharedData = .ok st ∧
      Interpreter.framesFor standardSettings.maxDepth ≤ Interpreter.mostFrames ∧
      ∃ program st', parseProgram ("r = " ++ sharedData.heap.display (.list 0) ++ "\n") =
          .ok program ∧
        (∃ n, ∀ fuel, n ≤ fuel →
          Interpreter.run standardSettings fuel program Interpreter.ownScope st = .ok () st') ∧
        sharedData.heap.Extends st'.world.heap ∧
        ∃ v', st'.scopes.get? Interpreter.ownScope "r" = some v' ∧
          st'.world.heap.Mirrors v' (.list 0) ∧ st'.world.heap.equal v' (.list 0) = true := by
  have hinner : sharedData.heap.Plain (.list 1) :=
    .list (by decide) (List.forall_mem_singleton.mpr (.scalar trivial))
  have hmapping : sharedData.heap.Plain (.mapping 0) := by
    refine .mapping (by decide) ?_ ?_ ?_
    · exact List.pairwise_pair.mpr rfl
    · exact List.forall_mem_cons.mpr ⟨trivial, List.forall_mem_singleton.mpr trivial⟩
    · exact List.forall_mem_cons.mpr ⟨hinner, List.forall_mem_singleton.mpr (.scalar trivial)⟩
  have hv : sharedData.heap.Plain (.list 0) := by
    refine .list (by decide) (List.forall_mem_cons.mpr ⟨.scalar trivial, ?_⟩)
    refine List.forall_mem_cons.mpr ⟨.scalar trivial, List.forall_mem_cons.mpr ⟨hmapping, ?_⟩⟩
    exact List.forall_mem_singleton.mpr hinner
  exact ⟨_, hv, rfl, by decide, shown_value_reads_back hv rfl (by decide) (by decide)⟩

end Offside.Printer
