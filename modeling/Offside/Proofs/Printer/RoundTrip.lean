import Offside.Proofs.Parser.Reading
import Offside.Proofs.Parser.StatementFuel
import Offside.Proofs.Printer.Statement

/-!
The front end inverts the printer. The layout of a well formed program is clean, so the lexer gives
its words back; every statement is read from its words; and the fuel of the parser is enough.
-/

namespace Offside.Printer

open Grammar Lexer Offside.Parser

variable {u : List Token} {e s : Node} {context : Context}

/-! ### The layout is clean -/

theorem tidy_keyword {lexeme : String} (h : lexeme ∈ keywords) : Tidy [keyword lexeme] :=
  tidy_word (lexable_keyword h) (by simp)

theorem clean_keyword {lexeme : String} (h : lexeme ∈ keywords) : Clean [keyword lexeme] :=
  clean_line (tidy_keyword h) ⟨_, _, rfl⟩

theorem clean_phrase (lexeme : String) (h : lexeme ∈ keywords) (he : e.Expression) :
    Clean (keyword lexeme :: .blank :: pieces e) :=
  clean_line (tidy_cons (tidy_keyword h) (tidy_blank (expression_renders he).tidy)
    (edged_blank _)) ⟨_, _, rfl⟩

theorem tidy_header {lexeme : String} (h : lexeme ∈ keywords) (he : e.Expression) :
    Tidy (header lexeme e) :=
  tidy_cons (tidy_keyword h) (tidy_blank
    (tidy_append (expression_renders he).tidy (tidy_colon tidy_nil) (edged_colon _)))
    (edged_blank _)

theorem clean_header {lexeme : String} (h : lexeme ∈ keywords) (he : e.Expression) :
    Clean (header lexeme e) :=
  clean_line (tidy_header h he) ⟨_, _, rfl⟩

theorem clean_assigned {ps qs : List Piece} {t v : Node} {op : String} (hop : op ∈ assignments)
    (ht : Renders .test ps t) (hv : Renders .test qs v) : Clean (assigned op ps qs) := by
  have hall : ∀ op ∈ assignments, op.toList ∈ operators := by decide
  obtain ⟨w, ws, hstart⟩ := ht.starts
  refine clean_line ?_ ⟨w, ws ++ _, by rw [assigned, hstart]; rfl⟩
  refine tidy_append ht.tidy (tidy_blank ?_) (edged_blank _)
  exact tidy_append (tidy_operator (hall op hop)) (tidy_blank hv.tidy) (edged_blank _)

theorem clean_for {x : String} (hx : IsName x) (he : e.Expression) :
    Clean (keyword "for" :: .blank :: name x :: .blank :: header "in" e) := by
  refine clean_line (tidy_cons (tidy_keyword (by decide)) (tidy_blank ?_) (edged_blank _))
    ⟨_, _, rfl⟩
  exact tidy_cons (tidy_word (lexable_name hx) (by simp))
    (tidy_blank (tidy_header (by decide) he)) (edged_blank _)

theorem clean_def {x : String} {xs : List String} (hx : IsName x) (hxs : ∀ x ∈ xs, IsName x) :
    Clean (keyword "def" :: .blank :: name x ::
      (bracketed "(" ")" (separated (xs.map fun x => [name (.string x)])) ++ [delimiter ":"])) := by
  refine clean_line (tidy_cons (tidy_keyword (by decide)) (tidy_blank ?_) (edged_blank _))
    ⟨_, _, rfl⟩
  exact tidy_cons (tidy_word (lexable_name hx) (by simp))
    (tidy_append (tidy_parens (tidy_names hxs)) (tidy_colon tidy_nil) (edged_colon _))
    (fun _ => edge_cons (c := '(') (by decide))

/-- Clean layouts, at least one. -/
structure CleanLayout (ls : List Layout) : Prop where
  good : ∀ l ∈ ls, l.Good
  exist : ls ≠ []

theorem cleanLayout_line {ps : List Piece} (h : Clean ps) : CleanLayout [.line ps] :=
  ⟨fun l hl => by rw [List.mem_singleton.mp hl]; exact .line h, by simp⟩

theorem good_all {ss : List Node} (h : ∀ s ∈ ss, CleanLayout (layout s)) :
    ∀ l ∈ layoutAll ss, l.Good := by
  induction ss with
  | nil => simp [layoutAll]
  | cons s ss ih =>
    intro l hl
    rcases List.mem_append.mp hl with hl | hl
    · exact (h s List.mem_cons_self).good l hl
    · exact ih (fun a ha => h a (List.mem_cons_of_mem s ha)) l hl

theorem good_block {hs : List Piece} {ss : List Node} (hh : Clean hs) (hne : ss ≠ [])
    (h : ∀ s ∈ ss, CleanLayout (layout s)) : (Layout.block hs (layoutAll ss)).Good := by
  refine .block hh ?_ (good_all h)
  obtain ⟨s, rest, rfl⟩ := List.exists_cons_of_ne_nil hne
  rw [layoutAll]
  exact List.append_ne_nil_of_left_ne_nil (h s List.mem_cons_self).exist _

theorem cleanLayout_block {hs : List Piece} {ss : List Node} (hh : Clean hs) (hne : ss ≠ [])
    (h : ∀ s ∈ ss, CleanLayout (layout s)) : CleanLayout [.block hs (layoutAll ss)] :=
  ⟨fun l hl => by rw [List.mem_singleton.mp hl]; exact good_block hh hne h, by simp⟩

theorem good_branches {bs : List (Node × List Node)} {lexeme : String} (hl : lexeme ∈ keywords)
    (he : ∀ b ∈ bs, b.1.Expression) (hne : ∀ b ∈ bs, b.2 ≠ [])
    (h : ∀ b ∈ bs, ∀ s ∈ b.2, CleanLayout (layout s)) : ∀ l ∈ branches lexeme bs, l.Good := by
  induction bs generalizing lexeme with
  | nil => simp [branches]
  | cons b bs ih =>
    refine List.forall_mem_cons.mpr ⟨?_, ih (by decide) ?_ ?_ ?_⟩
    · exact good_block (clean_header hl (he b List.mem_cons_self)) (hne b List.mem_cons_self)
        (h b List.mem_cons_self)
    · intro a ha
      exact he a (List.mem_cons_of_mem b ha)
    · intro a ha
      exact hne a (List.mem_cons_of_mem b ha)
    · intro a ha
      exact h a (List.mem_cons_of_mem b ha)

theorem good_else {e : Option (List Node)} (hne : ∀ b ∈ e, b ≠ [])
    (h : ∀ b ∈ e, ∀ s ∈ b, CleanLayout (layout s)) : ∀ l ∈ elseBranch e, l.Good := by
  cases e with
  | none => simp [elseBranch]
  | some b =>
    have hclean : Clean [keyword "else", delimiter ":"] :=
      clean_line (tidy_cons (tidy_keyword (by decide))
        (tidy_colon tidy_nil) (edged_colon _)) ⟨_, _, rfl⟩
    exact (cleanLayout_block hclean (hne b rfl) (h b rfl)).good

theorem statement_clean (h : s.Statement context) : CleanLayout (layout s) := by
  induction h with
  | exprStmt he => exact cleanLayout_line (clean_line (expression_renders he).tidy
      (expression_renders he).starts)
  | assign ht _ hv =>
    exact cleanLayout_line (clean_assigned (by decide) (expression_renders ht)
      (expression_renders hv))
  | augAssign ht _ hop hv =>
    have hall : ∀ op ∈ ["+", "-", "*", "/", "%"], op ++ "=" ∈ assignments := by decide
    exact cleanLayout_line (clean_assigned (hall _ hop) (expression_renders ht)
      (expression_renders hv))
  | @ifStmt _ _ bs _ hne he hbs _ hels _ ih ihels =>
    refine ⟨List.forall_mem_append.mpr ⟨good_branches (by decide) he hbs ih,
      good_else hels ihels⟩, ?_⟩
    obtain ⟨b, rest, rfl⟩ := List.exists_cons_of_ne_nil hne
    simp [layout, branches]
  | whileStmt he hne _ ih => exact cleanLayout_block (clean_header (by decide) he) hne ih
  | forStmt hx he hne _ ih => exact cleanLayout_block (clean_for hx he) hne ih
  | functionDef hx hxs _ hne _ ih =>
    have h := cleanLayout_block (clean_def hx hxs) hne ih
    rw [layout, List.map_map]
    exact h
  | returnNone => exact cleanLayout_line (clean_keyword (by decide))
  | returnStmt _ he =>
    have hline := cleanLayout_line (clean_phrase "return" (by decide) he)
    cases he <;> exact hline
  | breakStmt | continueStmt | passStmt => exact cleanLayout_line (clean_keyword (by decide))
  | delete he => exact cleanLayout_line (clean_phrase "del" (by decide) he)

/-! ### Every statement is read -/

theorem line_begins {ps : List Piece}
    (h : ∀ v, Spells v (wordsOf ps) → ∃ t rest, v = t :: rest ∧ Begins t)
    (hu : Spells u (Layout.wordsAll [.line ps])) : ∃ t rest, u = t :: rest ∧ Begins t := by
  obtain ⟨v, newline, rfl, hv, -⟩ := spells_line hu
  obtain ⟨t, rest, rfl, hb⟩ := h v hv
  exact ⟨t, rest ++ [newline], rfl, hb⟩

theorem block_begins {hs : List Piece} {body ls : List Layout}
    (h : ∀ v, Spells v (wordsOf hs) → ∃ t rest, v = t :: rest ∧ Begins t)
    (hu : Spells u (Layout.wordsAll (.block hs body :: ls))) :
    ∃ t rest, u = t :: rest ∧ Begins t := by
  obtain ⟨v, w, x, rfl, hv, -, -⟩ := spells_block hu
  obtain ⟨t, rest, rfl, hb⟩ := h v hv
  exact ⟨t, rest ++ (w ++ x), rfl, hb⟩

theorem expression_begins (he : e.Expression) (hu : Spells u (wordsOf (pieces e))) :
    ∃ t rest, u = t :: rest ∧ Begins t := by
  obtain ⟨t, rest, rfl, ho⟩ := expression_opens he hu
  exact ⟨t, rest, rfl, opens_begins ho⟩

theorem word_begins {lexeme : String} {ps : List Piece} (hl : lexeme ∉ ["elif", "else"])
    (hu : Spells u (wordsOf (keyword lexeme :: ps))) : ∃ t rest, u = t :: rest ∧ Begins t := by
  obtain ⟨t, rest, rfl, ht, -⟩ := spells_cons hu
  exact ⟨t, rest, rfl, keyword_begins (word_is ht) hl⟩

theorem assigned_begins {ps qs : List Piece} {t : Node} {op : String} (ht : Renders .test ps t)
    (hu : Spells u (wordsOf (assigned op ps qs))) : ∃ t rest, u = t :: rest ∧ Begins t := by
  rw [assigned, wordsOf_append] at hu
  obtain ⟨y, z, rfl, hy, -⟩ := spells_append hu
  obtain ⟨t, rest, rfl, ho⟩ := rendered_opens ht hy
  exact ⟨t, rest ++ z, rfl, opens_begins ho⟩

theorem statement_begins (h : s.Statement context) (hu : Spells u (Layout.wordsAll (layout s))) :
    ∃ t rest, u = t :: rest ∧ Begins t := by
  cases h with
  | exprStmt he => exact line_begins (fun _ => expression_begins he) hu
  | assign ht | augAssign ht =>
    exact line_begins (fun _ => assigned_begins (expression_renders ht)) hu
  | ifStmt hne =>
    obtain ⟨b, bs, rfl⟩ := List.exists_cons_of_ne_nil hne
    exact block_begins (fun _ => word_begins (by decide)) hu
  | whileStmt | forStmt | functionDef => exact block_begins (fun _ => word_begins (by decide)) hu
  | returnNone | breakStmt | continueStmt | passStmt | delete =>
    exact line_begins (fun _ => word_begins (by decide)) hu
  | returnStmt _ he => cases he <;> exact line_begins (fun _ => word_begins (by decide)) hu

theorem readableBlock_of {ss : List Node} (hs : ∀ s ∈ ss, s.Statement context)
    (hread : ∀ s ∈ ss, ReadsAs context s) : ReadableBlock context ss :=
  ⟨hread, fun s h _ => statement_begins (hs s h)⟩

theorem statement_reads (h : s.Statement context) : ReadsAs context s := by
  induction h with
  | exprStmt he => exact exprStmt_read he
  | assign ht ha hv => exact assign_read ht ha hv
  | augAssign ht ha hop hv => exact augAssign_read ht ha hop hv
  | ifStmt hne he _ hbs _ hels ih ihels =>
    exact ifStmt_read hne he (fun b hb => readableBlock_of (hbs b hb) (ih b hb))
      fun b hb => readableBlock_of (hels b hb) (ihels b hb)
  | whileStmt he _ hss ih => exact whileStmt_read he (readableBlock_of hss ih)
  | forStmt _ he _ hss ih => exact forStmt_read he (readableBlock_of hss ih)
  | functionDef _ hxs hd _ hss ih => exact functionDef_read hxs hd (readableBlock_of hss ih)
  | returnNone hin => exact returnNone_read hin
  | returnStmt hin he => exact returnStmt_read hin he
  | breakStmt hin => exact breakStmt_read hin
  | continueStmt hin => exact continueStmt_read hin
  | passStmt => exact passStmt_read
  | delete he => exact delete_read he

/-! ### Programs -/

theorem ofTokens_spells {ts : List Token} {ws : List Word}
    (h : ts.map Token.word = ws ++ [⟨.stop, ""⟩]) :
    ∃ u t, t.kind = .stop ∧ Spells u ws ∧ Takes (Cursor.ofTokens ts) u ⟨[], t, []⟩ := by
  obtain ⟨u, v, rfl, hu, hv⟩ := spells_append h
  obtain ⟨t, v, rfl, ht, hv⟩ := spells_cons hv
  obtain rfl := spells_nil hv
  have hk : t.kind = .stop := word_kind ht
  refine ⟨u, t, hk, hu, ?_⟩
  have hcursor : Cursor.ofTokens (u ++ [t]) = ⟨u, t, []⟩ := by simp [Cursor.ofTokens, hk]
  rw [hcursor]
  exact ⟨by simp, rfl, rfl⟩

/-- The rules for statements read a whole text with the fuel that the parser has. -/
theorem parse_of_statements {ts : List Token} {ss : List Node} {c : Cursor}
    (h : Yields (fun fuel => statements fuel ⟨false, false⟩ true) (Cursor.ofTokens ts) ss c)
    (he : c.errors = []) : Parser.parse ts = .ok (.program Position.start ss) := by
  obtain ⟨n, hn⟩ := h
  obtain ⟨hs, tail, htail, -⟩ := ofTokens_split ts
  have hlen : (Cursor.ofTokens ts).rest.length ≤ ts.length := by
    have := congrArg List.length htail
    rw [List.length_append] at this
    omega
  have hfed := (statements_sufficient (fuelFor ts)).statements ⟨false, false⟩ true _ hs
    (by rw [fuelFor]; omega)
  have hread := outcome_eq (fun fuel => statements fuel ⟨false, false⟩ true)
    (fun fuel => (statements_monotone fuel).statements _ _) hfed
    (hn (max n (fuelFor ts)) (Nat.le_max_left _ _)) (Nat.le_max_right _ _)
  have hempty : c.errors.isEmpty = true := by rw [he]; rfl
  rw [Parser.parse_eq, hread]
  exact if_pos hempty

/-- A text of clean lines is the program that the rules for statements read from its words. -/
theorem source_read {width : Nat} (hw : 0 < width) {ls : List Layout} (hls : ∀ l ∈ ls, l.Good)
    {P : List Node → Prop}
    (hread : ∀ u c c', Spells u (Layout.wordsAll ls) → Takes c u c' → Closes true c' →
      ∃ ss, P ss ∧ Yields (fun fuel => statements fuel ⟨false, false⟩ true) c ss c') :
    ∃ ss, parseProgram (Layout.source width ls) = .ok (.program Position.start ss) ∧ P ss := by
  obtain ⟨ts, hts, hwords⟩ := Layout.tokenize_source hw hls
  obtain ⟨u, t, hk, hu, hc⟩ := ofTokens_spells hwords
  obtain ⟨ss, hss, hy⟩ := hread u _ _ hu hc (.inl (by simpa [Cursor.next] using hk))
  refine ⟨ss, ?_, hss⟩
  rw [parseProgram, hts]
  exact parse_of_statements hy rfl

/-- Every well formed program is read from its printed text, whatever the width of its blocks. -/
theorem printed_program_read {width : Nat} (hw : 0 < width) {n : Node} (h : n.WellFormed) :
    ∃ n', parseProgram (source width n) = .ok n' ∧ n'.bare = n.bare := by
  obtain ⟨p, ss, rfl, hss⟩ := h
  obtain ⟨ss', hparse, hbare⟩ := source_read hw (good_all fun s hs => statement_clean (hss s hs))
    fun u c c' hu hc hclose =>
      statements_read (fun s hs => statement_reads (hss s hs))
        (fun s hs _ => statement_begins (hss s hs)) hu hc hclose
  exact ⟨_, hparse, by rw [Node.bare, Node.bare, hbare]⟩

def nestedBranches : Node :=
  .ifStmt .unknown
    [(.identifier .unknown "x", [.augAssign .unknown (.identifier .unknown "x") "+"
        (.literal .unknown (.integer (1 : Nat)) "Integer")]),
     (.unaryOp .unknown "-" (.identifier .unknown "y"), [.breakStmt .unknown])]
    (some [.returnStmt .unknown (.literal .unknown (.string "a\"\n") "String")])

/-- A function whose blocks all end at once, and a statement after it. -/
def nestedProgram : Node :=
  .program .unknown
    [.functionDef .unknown "f" (["x", "y"].map Json.string)
      [.whileStmt .unknown (.binaryOp .unknown "not in" (.identifier .unknown "x")
          (.listLiteral .unknown [.identifier .unknown "y", .literal .unknown .null "None"]))
        [nestedBranches]],
     .exprStmt .unknown (.call .unknown (.identifier .unknown "f") [])]

/-- Its text has three DEDENTs before the first word of the last line. -/
theorem nested_program_read : 0 < 2 ∧ nestedProgram.WellFormed ∧
    ∃ n', parseProgram (source 2 nestedProgram) = .ok n' ∧ n'.bare = nestedProgram.bare := by
  have hf : IsName "f" := ⟨'f', [], rfl, .inl (by decide +kernel), by simp, by decide⟩
  have hx : IsName "x" := ⟨'x', [], rfl, .inl (by decide +kernel), by simp, by decide⟩
  have hy : IsName "y" := ⟨'y', [], rfl, .inl (by decide +kernel), by simp, by decide⟩
  have hbranches : nestedBranches.Statement ⟨true, true⟩ := by
    refine .ifStmt (by simp) ?_ (by simp) ?_ (by simp) ?_
    · simpa using ⟨.identifier hx, .unaryOp (by simp) (.identifier hy)⟩
    · simpa using ⟨.augAssign (.identifier hx) rfl (by simp) .integer, .breakStmt rfl⟩
    · simpa using Node.Statement.returnStmt rfl .string
  have hlist : Node.Expression
      (.listLiteral .unknown [.identifier .unknown "y", .literal .unknown .null "None"]) :=
    .listLiteral (by simpa using ⟨.identifier hy, .null⟩)
  have hprogram : nestedProgram.WellFormed := by
    refine ⟨_, _, rfl, List.forall_mem_cons.mpr ⟨?_, List.forall_mem_singleton.mpr ?_⟩⟩
    · refine .functionDef hf (by simpa using ⟨hx, hy⟩) (by decide) (by simp)
        (List.forall_mem_singleton.mpr ?_)
      exact .whileStmt (.binaryOp (by decide) (.identifier hx) hlist) (by simp)
        (List.forall_mem_singleton.mpr hbranches)
    · exact .exprStmt (.call (.identifier hf) (by simp))
  exact ⟨by decide, hprogram, printed_program_read (by decide) hprogram⟩

end Offside.Printer
