import Offside.Command
import Offside.Proofs.Reference.Agreement

/-!
The check of a source. What is read from a file has no carriage return, so that where both front
ends accept it they find the same tree: the check never ends with their disagreement.
-/

namespace Offside

theorem Text.plainLines_plain (cs : List Char) : '\r' ∉ Text.plainLines cs := by
  fun_induction Text.plainLines cs with
  | case1 => exact List.not_mem_nil
  | case2 rest ih => exact fun h => ih (List.mem_of_ne_of_mem (by decide) h)
  | case3 c rest hc ih =>
    refine fun h => ih (List.mem_of_ne_of_mem ?_ h)
    split
    · decide
    · next hne => exact fun heq => hne heq.symm

theorem Text.readText_plain {bytes : ByteArray} {text : String}
    (h : Text.readText bytes = .ok text) : '\r' ∉ text.toList := by
  unfold Text.readText at h
  cases hdecode : Text.decodeUtf8 bytes with
  | error e =>
    rw [hdecode] at h
    cases h
  | ok s =>
    rw [hdecode] at h
    cases h
    rw [String.toList_ofList]
    exact Text.plainLines_plain _

namespace Command.Job

open Reference (Lark Legality Documented Covers Sentence transform programOf)

variable {α β : Type} {lark : Lark} {legal : Legality} {source : String} {program tree : Node}

theorem bind_apply (x : Job α) (f : α → Job β) (w : World) :
    (x >>= f) w = match x w with
      | .ok a w' => f a w'
      | .error e w' => .error e w' := by
  change EStateM.bind x f w = _
  unfold EStateM.bind
  cases x w <;> rfl

theorem get_bind (f : World → Job β) (w : World) : (get >>= f) w = f w w := rfl

/-- What is read from a file has no carriage return. -/
theorem readFile_plain {path text : String} {w w' : World} (h : readFile path w = .ok text w') :
    '\r' ∉ text.toList := by
  rw [readFile, get_bind] at h
  cases hresolve : w.disk.resolve path with
  | error e =>
    rw [hresolve] at h
    cases e <;> cases h
  | ok _ =>
    rw [hresolve] at h
    dsimp only at h
    cases hread : w.disk.read path with
    | error e =>
      rw [hread] at h
      cases h
    | ok bytes =>
      rw [hread] at h
      dsimp only at h
      cases htext : Text.readText bytes with
      | error e =>
        rw [htext] at h
        cases h
      | ok text =>
        rw [htext] at h
        cases h
        exact Text.readText_plain htext

/-- The check without the comparison of the trees. -/
def uncompared (lark : Lark) (source : String) : Job Unit := do
  let program ← need (← parse source)
  match Reference.parse lark source with
  | .error (.fault f) => fault f
  | .error (.errors es) =>
    es.forM fun e => printError ("Parse error (grammar): " ++ e.text)
    throw .failed
  | .ok _ =>
    match program with
    | .program _ body => print ("OK: " ++ toString body.length ++ " statements")
    | _ => return

/-- A program that is answered is the one that the source denotes. -/
theorem parse_program {w w' : World}
    (h : parse source w = .ok (some program) w') : parseProgram source = .ok program := by
  unfold parse at h
  cases hp : parseProgram source with
  | ok p =>
    rw [hp] at h
    cases h
    rfl
  | error e =>
    rw [hp] at h
    cases e with
    | fault f => cases h
    | lex e => cases h
    | parse es =>
      dsimp only at h
      rw [bind_apply] at h
      split at h
      · cases h
      · cases h

/-- Trees that both front ends give of a source without carriage returns are found equal. -/
theorem trees_same (hdoc : Documented lark legal (source ++ "\n")) (hr : '\r' ∉ source.toList)
    (hp : parseProgram source = .ok program) (ht : Reference.parse lark source = .ok tree) :
    tree.bare = program.bare ∧ tree.same program = true := by
  obtain ⟨hbare, hself⟩ := Reference.trees_agree hdoc (Reference.source_undropped hr) hp ht
  refine ⟨hbare, Node.same_of_bare hbare ?_⟩
  rw [hbare]
  exact hself

/-- The trees of a source without carriage returns are never found to differ. -/
theorem check_uncompared (hdoc : Documented lark legal (source ++ "\n"))
    (hr : '\r' ∉ source.toList) (w : World) : check lark source w = uncompared lark source w := by
  rw [check, uncompared, bind_apply, bind_apply]
  cases hp : parse source w with
  | error e w' => rfl
  | ok found w' =>
    cases found with
    | none => rfl
    | some program =>
      dsimp only [need]
      rw [pure_bind, pure_bind]
      cases ht : Reference.parse lark source with
      | error refused => cases refused <;> rfl
      | ok tree =>
        simp only [(trees_same hdoc hr (parse_program hp) ht).2]
        rfl

/-- A check that nothing stops reports the statements of the program. -/
theorem check_accepted (hdoc : Documented lark legal (source ++ "\n")) (hr : '\r' ∉ source.toList)
    (hp : parseProgram source = .ok program) (ht : Reference.parse lark source = .ok tree) :
    ∃ body, program = .program Position.start body ∧ ∀ w, check lark source w =
      .ok () (w.print ("OK: " ++ toString body.length ++ " statements" ++ "\n")) := by
  obtain ⟨-, body, -, -, rfl, -, -⟩ := Parser.accepted_statements hp
  refine ⟨body, rfl, fun w => ?_⟩
  have hparse : parse source w = .ok (some (.program Position.start body)) w := by
    rw [parse, hp]
    rfl
  rw [check_uncompared hdoc hr, uncompared, bind_apply, hparse]
  dsimp only [need]
  rw [pure_bind, ht]
  rfl

/-- The front ends never disagree: where both accept a source without carriage returns, the trees
are the same but for the positions in them, and the check of the source succeeds. Without the
comparison of the trees no check of such a source would end in another way. What is read from a file
is such a source. -/
theorem front_ends_agree (hdoc : Documented lark legal (source ++ "\n")) :
    ('\r' ∉ source.toList →
      (∀ program tree, parseProgram source = .ok program →
        Reference.parse lark source = .ok tree → tree.bare = program.bare ∧
          tree.same program = true ∧ ∃ body, program = .program Position.start body ∧ ∀ w,
            check lark source w =
              .ok () (w.print ("OK: " ++ toString body.length ++ " statements" ++ "\n"))) ∧
      ∀ w, check lark source w = uncompared lark source w) ∧
    ∀ path w w', readFile path w = .ok source w' → '\r' ∉ source.toList ∧
      (readFile path >>= check lark) w = uncompared lark source w' := by
  refine ⟨fun hr => ⟨fun program tree hp ht => ?_, check_uncompared hdoc hr⟩, fun path w w' h => ?_⟩
  · obtain ⟨hbare, hsame⟩ := trees_same hdoc hr hp ht
    exact ⟨hbare, hsame, check_accepted hdoc hr hp ht⟩
  · have hr := readFile_plain h
    refine ⟨hr, ?_⟩
    rw [bind_apply, h]
    exact check_uncompared hdoc hr w'

/-- A comment stands deeper than the statement after it, with which the block begins. -/
def commentedBlock : String := "if x:\n    # y\n  z = 1 not in[a]\n"

/-- What the grammar gives of it. -/
def commentedTree : Reference.Tree :=
  .branch .fileInput ⟨1, 1⟩ [.branch .ifStmt ⟨1, 1⟩
    [.branch .var ⟨1, 4⟩ [.token ⟨.identifier, "x", ⟨1, 4⟩⟩],
     .branch .suite ⟨1, 5⟩ [.branch .assignStmt ⟨3, 3⟩
      [.branch .var ⟨3, 3⟩ [.token ⟨.identifier, "z", ⟨3, 3⟩⟩],
       .branch .notInOp ⟨3, 7⟩
        [.branch .integer ⟨3, 7⟩ [.token ⟨.integer, "1", ⟨3, 7⟩⟩],
         .branch .listLit ⟨3, 15⟩ [.branch .var ⟨3, 16⟩ [.token ⟨.identifier, "a", ⟨3, 16⟩⟩]]]]]]]

open Reference in
theorem commentedTree_covers : ∃ ts, scan (fun _ _ => true) (commentedBlock ++ "\n") = some ts ∧
    Sentence ts commentedTree := by
  have hx := covers_variable (t := ⟨.identifier, "x", ⟨1, 4⟩⟩) rfl
  have hz := covers_variable (t := ⟨.identifier, "z", ⟨3, 3⟩⟩) rfl
  have ha := covers_variable (t := ⟨.identifier, "a", ⟨3, 16⟩⟩) rfl
  have hinteger : Covers (.rule .atom) _ [_] :=
    .choose 1 rfl (.token (t := ⟨.integer, "1", ⟨3, 7⟩⟩) rfl) rfl
  have hleft : Covers (.rule .comparison) _ [_] := .choose 0 rfl (covers_arith hinteger) rfl
  have hlist : Covers (.rule .atom) _ [_] := .choose 8 rfl
    (.both (.token (t := ⟨.delimiter, "[", ⟨3, 15⟩⟩) rfl)
      (.both (.left (.both (.both ha .done) (.right .empty)))
        (.token (t := ⟨.delimiter, "]", ⟨3, 17⟩⟩) rfl))) rfl
  have hwithin : Covers (.rule .comparison) _ [_] := .choose 3 rfl
    (.both hleft (.both
      (.both (.token (t := ⟨.keyword, "not", ⟨3, 9⟩⟩) rfl)
        (.token (t := ⟨.keyword, "in", ⟨3, 13⟩⟩) rfl)) (covers_arith hlist))) rfl
  have hassign : Covers (.rule .assignStmt) _ [_] := .choose 0 rfl
    (.both hz (.both (.token (t := ⟨.operator, "=", ⟨3, 5⟩⟩) rfl) (covers_test hwithin))) rfl
  have hline : Covers (.rule .simpleStmt) _ [_] := .choose 0 rfl
    (.both (.right (.left hassign)) (.token (t := ⟨.newline, "\n\n", ⟨3, 18⟩⟩) rfl)) rfl
  have hfirst : Covers (.rule .stmt) _ [_] := .choose 0 rfl hline rfl
  have hsuite : Covers (.rule .suite) _ [_] := .choose 0 rfl
    (.both (.token (t := ⟨.delimiter, ":", ⟨1, 5⟩⟩) rfl)
      (.both (.token (t := ⟨.newline, "\n    # y\n  ", ⟨1, 6⟩⟩) rfl)
        (.both (.token (t := ⟨.indent, "", ⟨1, 6⟩⟩) rfl)
          (.both (.both hfirst .done) (.token (t := ⟨.dedent, "", ⟨3, 18⟩⟩) rfl))))) rfl
  have hif : Covers (.rule .ifStmt) _ [_] := .choose 0 rfl
    (.both (.token (t := ⟨.keyword, "if", ⟨1, 1⟩⟩) rfl)
      (.both hx (.both hsuite (.both .done (.right .empty))))) rfl
  have hcompound : Covers (.rule .compoundStmt) _ [_] := .choose 0 rfl hif rfl
  have hstmt : Covers (.rule .stmt) _ [_] := .choose 1 rfl hcompound rfl
  have htext : Covers (.rule .fileInput) _ [commentedTree] :=
    .choose 0 rfl (hstmt.right.more .done) rfl
  exact ⟨_, by rw [scan, String.toList_append]; cbv, htext⟩

/-- Only the positions differ: in the tree of the grammar the operator stands where its left operand
does. -/
theorem commentedBlock_agrees : ∃ (lark : Lark) (legal : Legality),
    Documented lark legal (commentedBlock ++ "\n") ∧ '\r' ∉ commentedBlock.toList ∧
    ∃ program tree, parseProgram commentedBlock = .ok program ∧
      Reference.parse lark commentedBlock = .ok tree ∧ program ≠ tree ∧ tree.bare = program.bare ∧
      tree.same program = true := by
  let lark : Lark := fun text =>
    if text = commentedBlock ++ "\n" then .ok commentedTree else .error (.input .start)
  have hlark : lark (commentedBlock ++ "\n") = .ok commentedTree := if_pos rfl
  have hdoc : Documented lark (fun _ _ => true) (commentedBlock ++ "\n") :=
    Reference.documented_of_sentence hlark commentedTree_covers
  have hr : '\r' ∉ commentedBlock.toList := by decide +kernel
  obtain ⟨program, item, tree, hp, hitem, htree, hne⟩ : ∃ program item tree,
      parseProgram commentedBlock = .ok program ∧ transform commentedTree = .ok item ∧
        programOf item = .ok tree ∧ program ≠ tree := ⟨_, _, _, by cbv, by cbv, by cbv, by simp⟩
  have ht := (Reference.parse_tree hlark hitem).trans htree
  obtain ⟨hbare, hsame, -⟩ := ((front_ends_agree hdoc).1 hr).1 program tree hp ht
  exact ⟨lark, _, hdoc, hr, program, tree, hp, ht, hne, hbare, hsame⟩

end Command.Job

end Offside
