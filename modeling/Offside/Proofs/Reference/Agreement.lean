import Offside.Proofs.Parser.Executable
import Offside.Proofs.Reference.Reach
import Offside.Proofs.Reference.Source
import Offside.Proofs.Same

/-!
The two front ends agree. Of a source that the parser accepts, in which the lexer drops nothing
behind a carriage return, the scanner of the grammar finds the same tokens for as long as the
grammar goes along with them. So the grammar gives the same tree apart from places, or it meets a
flaw and refuses the source: then a list of parameters ends in a comma, or a block has a line of
white space that begins with a form feed.
-/

namespace Offside.Reference

open Grammar Lexer
open Offside.Parser (hasTrailingComma Readable)

variable {lark : Lark} {legal : Legality} {source text : String} {program tree : Node}
  {ts us before all front back : List Token} {ss ns : List Node} {r : Scanner} {n : Node} {x : Tree}
  {inLoop inFunction : Bool}

/-! ### Trees that are found equal -/

theorem readable_same {t : Token} (h : Readable t n) : n.same n = true := by
  obtain ⟨e, rfl, he⟩ := h
  unfold Parser.atom? at he
  split at he
  · split at he
    · cases he
      simp [Node.bare, Node.same]
    · cases he
  · split at he
    · cases he
      simp [Node.bare, Node.same]
    · cases he
  · cases he
    simp [Node.bare, Node.same]
  · cases he
    simp [Node.bare, Node.same]
  · split_ifs at he <;> cases he <;> simp [Node.bare, Node.same]
  · cases he

/-- What is derived is equal to itself. -/
def Selfsame : Phrase → Prop
  | .expr _ e => e.same e = true
  | .items es => Node.sameList es es = true
  | .pairs ps => Node.samePairs ps ps = true

theorem derives_same {p : Phrase} (h : Derives Readable p ts) : Selfsame p := by
  induction h with
  | unit _ _ ih | parens _ _ _ ih => exact ih
  | leaf hl => exact readable_same hl
  | lambda _ _ _ _ _ ih | negation _ _ ih | minus _ _ ih | member _ _ _ ih | lastItem _ ih
  | list _ _ _ ih | map _ _ _ ih =>
    simp only [Selfsame, Node.same, Node.sameList, Json.same_string, Json.sameItems_strings]
      at ih ⊢
    simp only [ih, Bool.and_self]
  | binary _ _ _ ih ih' | call _ _ _ _ ih ih' | index _ _ _ _ ih ih' | item _ _ _ ih ih'
  | lastPair _ _ _ ih ih' =>
    simp only [Selfsame, Node.same, Node.sameList, Node.samePairs, Json.same_string] at ih ih' ⊢
    simp only [ih, ih', Bool.and_self]
  | noItems | noPairs => simp only [Selfsame, Node.sameList, Node.samePairs]
  | pair _ _ _ _ _ ihk ihe ihs =>
    simp only [Selfsame, Node.samePairs] at ihk ihe ihs ⊢
    simp only [ihk, ihe, ihs, Bool.and_self]

/-- So is what is built. -/
def SelfsameClause : Clause → Prop
  | .statement s => s.same s = true
  | .branches bs e => Node.sameBranches bs bs = true ∧ Node.sameBody e e = true
  | .block ss | .statements ss => Node.sameList ss ss = true

theorem builds_same {c : Clause} (h : Builds c ts) : SelfsameClause c := by
  have hexpr {e : Node} {u : List Token} (h : Derives Readable (.expr .test e) u) :
      e.same e = true := derives_same h
  have hhole : Node.hole.same .hole = true := by simp only [Node.same]
  induction h with
  | exprStmt hd | returnsValue _ hd | delete _ hd =>
    have hd := hexpr hd
    simp only [SelfsameClause, Node.same] at hd ⊢
    exact hd
  | assign ha _ _ hv | augAssign ha _ _ _ hv =>
    simp only [SelfsameClause, Node.same, Json.same_string, hexpr ha, hexpr hv, Bool.and_self]
  | returns => simp only [SelfsameClause, Node.same]
  | breaks | continues | passes => simp only [SelfsameClause, Node.same]
  | conditional _ hd _ _ ihv ihw =>
    simp only [SelfsameClause] at ihv ihw
    simp only [SelfsameClause, Node.same, Node.sameBranches, hexpr hd, ihv, ihw, Bool.and_self]
  | whileLoop _ hd _ ihv | forLoop _ _ _ hd _ ihv =>
    simp only [SelfsameClause] at ihv
    simp only [SelfsameClause, Node.same, Json.same_string, hexpr hd, ihv, Bool.and_self]
  | function _ _ _ _ _ _ _ ihv =>
    simp only [SelfsameClause] at ihv
    simp only [SelfsameClause, Node.same, Json.same_string, Json.sameItems_strings, ihv,
      Bool.and_self]
  | noBranch => simp only [SelfsameClause, Node.sameBranches, Node.sameBody, and_self]
  | otherwise _ _ ihu =>
    simp only [SelfsameClause] at ihu
    simp only [SelfsameClause, Node.sameBranches, Node.sameBody, ihu, and_self]
  | branch _ hd _ _ ihv ihw =>
    simp only [SelfsameClause] at ihv ihw
    simp only [SelfsameClause, Node.sameBranches, hexpr hd, ihv, ihw, Bool.and_self, and_self]
  | block _ _ _ _ _ ihu | blank _ _ ihu => exact ihu
  | done => simp only [SelfsameClause, Node.sameList]
  | next _ _ ihs ihss =>
    simp only [SelfsameClause] at ihs ihss
    simp only [SelfsameClause, Node.sameList, ihs, ihss, Bool.and_self]

/-! ### Nothing is misplaced -/

mutual

/-- Whether a statement is misplaced does not depend on places. -/
theorem misplacedIn_bare (inLoop inFunction : Bool) (n : Node) :
    misplacedIn inLoop inFunction n.bare = [] ↔ misplacedIn inLoop inFunction n = [] := by
  cases n with
  | breakStmt | continueStmt => cases inLoop <;> simp [Node.bare, misplacedIn]
  | returnStmt => cases inFunction <;> simp [Node.bare, misplacedIn]
  | ifStmt p bs e =>
    simp only [Node.bare, misplacedIn, List.append_eq_nil_iff]
    exact and_congr (misplacedInBranches_bare inLoop inFunction bs)
      (misplacedInElse_bare inLoop inFunction e)
  | whileStmt p c b | forStmt p x i b => exact misplacedInAll_bare true inFunction b
  | functionDef p x ps b => exact misplacedInAll_bare false true b
  | _ => exact Iff.rfl
termination_by structural n

theorem misplacedInAll_bare (inLoop inFunction : Bool) (ns : List Node) :
    misplacedInAll inLoop inFunction (Node.bareList ns) = [] ↔
      misplacedInAll inLoop inFunction ns = [] := by
  match ns with
  | [] => exact Iff.rfl
  | n :: ns =>
    simp only [Node.bareList, misplacedInAll, List.append_eq_nil_iff]
    exact and_congr (misplacedIn_bare inLoop inFunction n)
      (misplacedInAll_bare inLoop inFunction ns)
termination_by structural ns

theorem misplacedInBranches_bare (inLoop inFunction : Bool) (bs : List (Node × List Node)) :
    misplacedInBranches inLoop inFunction (Node.bareBranches bs) = [] ↔
      misplacedInBranches inLoop inFunction bs = [] := by
  match bs with
  | [] => exact Iff.rfl
  | (c, b) :: bs =>
    simp only [Node.bareBranches, misplacedInBranches, List.append_eq_nil_iff]
    exact and_congr (misplacedInAll_bare inLoop inFunction b)
      (misplacedInBranches_bare inLoop inFunction bs)
termination_by structural bs

theorem misplacedInElse_bare (inLoop inFunction : Bool) (e : Option (List Node)) :
    misplacedInElse inLoop inFunction (Node.bareBody e) = [] ↔
      misplacedInElse inLoop inFunction e = [] := by
  match e with
  | none => exact Iff.rfl
  | some b => exact misplacedInAll_bare inLoop inFunction b
termination_by structural e

end

/-! ### What a text of the grammar tells of the scanner -/

/-- An item of the grammar for a whole text: the end of a line, or a statement. -/
abbrev lines : Expansion := .many (.either (.token .newline) (.rule .stmt))

theorem sentence_of_covered (h : Covered lines ts) : ∃ tree, Sentence ts tree := by
  obtain ⟨xs, hxs⟩ := h
  exact ⟨_, .rule (List.mem_singleton_self _) hxs⟩

/-- The end of a line may come first. -/
theorem covered_opening (h : before = [] ∨ ∃ line, before = [line] ∧ line.kind = .newline)
    (hts : Covered lines ts) : Covered lines (before ++ ts) := by
  rcases h with rfl | ⟨line, rfl, hline⟩
  · exact hts
  · exact (Covered.token ((terminal_kind (by simp)).mpr hline)).left.more hts

theorem builds_opening (h : before = [] ∨ ∃ line, before = [line] ∧ line.kind = .newline)
    (hts : Builds (.statements ss) ts) : Builds (.statements ss) (before ++ ts) := by
  rcases h with rfl | ⟨line, rfl, hline⟩
  · exact hts
  · exact .blank hline hts

theorem Guided.mono {k k' : TokenKind → Prop} (hk : ∀ kind, k' kind → k kind) {ws : List Word}
    {read : List Terminal} (h : Guided legal k read ws) : Guided legal k' read ws := by
  induction ws generalizing read with
  | nil => trivial
  | cons w ws ih => exact ⟨fun hw => h.1 (hk w.kind hw), ih h.2⟩

/-- In a text of the grammar each terminal is legal behind those before it. -/
theorem guided_of_viable (hdoc : Documented lark legal text)
    (hs : Sentence (before ++ (front ++ back)) x)
    (hl : ∀ t ∈ front, ∀ f, Parser.atom? t ≠ some (.error f)) :
    Guided legal TokenKind.OfLine (before.map Token.terminal) (front.map Token.plain) := by
  induction front generalizing before with
  | nil => trivial
  | cons t front ih =>
    obtain ⟨ht, hfront⟩ := List.forall_mem_cons.mp hl
    refine ⟨fun _ => ⟨Token.plain_legible ht, ?_⟩, ?_⟩
    · rw [Token.plain_terminal]
      exact hdoc.viable hs
    · rw [Token.plain_terminal]
      have hs' : Sentence ((before ++ [t]) ++ (front ++ back)) x := by simpa using hs
      simpa using ih hs' hfront

/-! ### Accepted sources -/

/-- A source that the parser accepts, with its tokens and those of its text with the end of a line
behind it, of which its statements are built. The scanner of the grammar finds these tokens, perhaps
with the end of a line before them, for as long as they are legal. -/
structure Scanned (source : String) (ss : List Node) (ts us before : List Token) : Prop where
  tokens : tokenize source = .ok ts
  ended : ∃ stop, tokenize (source ++ "\n") = .ok (us ++ [stop])
  built : Builds (.statements (Node.bareList ss)) us
  placed : misplacedInAll false false ss = []
  comma : hasTrailingComma us = hasTrailingComma ts
  opening : before = [] ∨ ∃ line, before = [line] ∧ line.kind = .newline
  begins : ∀ {legal all front back}, us = front ++ back →
    Guided legal (fun k => k.OfLine ∧ k ≠ .delimiter) (before.map Token.terminal)
      (front.map Token.plain) → scan legal (source ++ "\n") = some all →
    ∃ more, all.map Token.plain = before.map Token.plain ++ front.map Token.plain ++ more
  reads : ∀ {legal}, Guided legal TokenKind.OfLine (before.map Token.terminal)
    (us.map Token.plain) →
    ∃ all, scan legal (source ++ "\n") = some all ∧ ReadAlike (before ++ us) all

theorem source_scanned (h : parseProgram source = .ok program)
    (hin : Undropped (source.toList ++ ['\n'])) :
    ∃ ss ts us before, program = .program Position.start ss ∧ Scanned source ss ts us before := by
  obtain ⟨ss, ts, us, stop, rfl, hts, hus, -, hbuilds, hcomma⟩ := source_built h
  obtain ⟨ss', hprogram, hexecutable⟩ := Parser.source_executable h
  obtain ⟨-, rfl⟩ := Node.program.inj hprogram
  have hm : AtMargin (source.toList ++ ['\n']) := by simp [AtMargin]
  have hscan (legal : Legality) : scan legal (source ++ "\n") =
      (Scanner.start (source.toList ++ ['\n'])).tokens legal
        ((source.toList ++ ['\n']).length + 1) [] := by
    rw [scan, String.toList_append]
    rfl
  obtain ⟨before, new, r, vs, fuel, hbegin⟩ :=
    exists_beginning hm (by simp) hin (source_awaits hus) (builds_first hbuilds)
  refine ⟨ss, ts, us, before, rfl, hts, ⟨stop, hus⟩, hbuilds, Node.misplacedInAll_nil fun s hs =>
    Node.executable_placed (hexecutable s hs), hcomma, hbegin.opening, ?_, ?_⟩
  · rintro legal all front back rfl hguided hall
    rw [hscan] at hall
    rw [List.map_append] at hbegin
    exact hbegin.begins hm hin hguided hall
  · intro legal hguided
    obtain ⟨all, hall, hplain⟩ := hbegin.reads hm hin hguided
    refine ⟨all, (hscan legal).trans hall, ?_⟩
    rw [ReadAlike, List.map_append]
    exact hplain

/-- Where the grammar covers the tokens of an accepted source it gives the same tree. -/
theorem Scanned.read (h : Scanned source ss ts us before)
    (hdoc : Documented lark legal (source ++ "\n")) (hc : Covered lines us) :
    ∃ ns, parse lark source = .ok (.program Position.start ns) ∧
      Node.bareList ns = Node.bareList ss := by
  have hsensible := builds_sensible h.built
  have hcovered := covered_opening h.opening hc
  obtain ⟨x, hx⟩ := sentence_of_covered hcovered
  have hsplit : before ++ us = before ++ (us ++ []) := by rw [List.append_nil]
  obtain ⟨all, hall, halike⟩ := h.reads (guided_of_viable hdoc (hsplit ▸ hx)
    hsensible.legible)
  -- whatever tree is given is one of these tokens
  obtain ⟨xs, hxs⟩ := hcovered
  obtain ⟨y, hy⟩ := sentence_of_covered (hxs.alike halike.terminals)
  obtain ⟨tree, htree⟩ := hdoc.complete hall hy
  obtain ⟨all', hall', hsentence⟩ := hdoc.sound htree
  obtain rfl := Option.some.inj (hall.symm.trans hall')
  have hbuilds := builds_alike (builds_opening h.opening h.built) halike
  obtain ⟨ns, htransform, hbare⟩ := sentence_means hsentence (builds_sensible hbuilds) hbuilds
  have hplaced : misplacedInAll false false ns = [] := by
    rw [← misplacedInAll_bare, hbare, misplacedInAll_bare]
    exact h.placed
  refine ⟨ns, ?_, hbare⟩
  rw [parse, htree]
  simp only [htransform, programOf, hplaced]

/-- Where tokens of an accepted source that the grammar goes along with end in a flaw, it refuses
the source. -/
theorem Scanned.refused {mark : Token} {more : List Token} (h : Scanned source ss ts us before)
    (hdoc : Documented lark legal (source ++ "\n")) (hus : us = front ++ mark :: back)
    (hmore : Covered lines (front ++ more)) (hflawed : Flawed (front ++ [mark]))
    (hmark : mark.kind = .delimiter ∨ ¬ mark.kind.OfLine) (tree : Node) :
    parse lark source ≠ .ok tree := by
  intro hparse
  obtain ⟨y, hy⟩ : ∃ y, lark (source ++ "\n") = .ok y := by
    cases hlark : lark (source ++ "\n") with
    | error e =>
      rw [parse, hlark] at hparse
      cases hparse
    | ok y => exact ⟨y, rfl⟩
  obtain ⟨all, hall, hsentence⟩ := hdoc.sound hy
  obtain ⟨x, hx⟩ := sentence_of_covered (covered_opening h.opening hmore)
  have hlegible : ∀ t ∈ front, ∀ f, Parser.atom? t ≠ some (.error f) := fun t ht =>
    (builds_sensible h.built).legible t (hus ▸ List.mem_append_left _ ht)
  have hguided := (guided_of_viable hdoc hx hlegible).mono
    (fun k (hk : k.OfLine ∧ k ≠ .delimiter) => hk.1)
  have hsplit : us = (front ++ [mark]) ++ back := by simp [hus]
  have hboth : Guided legal (fun k => k.OfLine ∧ k ≠ .delimiter) (before.map Token.terminal)
      ((front ++ [mark]).map Token.plain) := by
    rw [List.map_append, guided_append]
    refine ⟨hguided, fun hk => ?_, trivial⟩
    rw [Token.plain_kind] at hk
    exact absurd hk.1 (hmark.resolve_left hk.2)
  obtain ⟨rest, hrest⟩ := h.begins hsplit hboth hall
  rw [← List.map_append] at hrest
  obtain ⟨read, later, rfl, hread, -⟩ := List.map_eq_append_iff.mp hrest
  have hbad : Flawed read := (hflawed.behind before).alike hread
  exact sentence_unflawed hsentence (hbad.append later)

/-- Of an accepted source the grammar gives the same tree, or it meets a flaw and refuses it. -/
theorem Scanned.outcome (h : Scanned source ss ts us before)
    (hdoc : Documented lark legal (source ++ "\n")) :
    (∃ ns, parse lark source = .ok (.program Position.start ns) ∧
      Node.bareList ns = Node.bareList ss) ∨
    Flawed us ∧ ∀ tree, parse lark source ≠ .ok tree := by
  have hreach : Reach (Covered lines) us := (builds_reach h.built).1
  rcases hreach with hc | ⟨front, mark, back, more, hus, hmore, hflawed, hmark⟩
  · exact .inl (h.read hdoc hc)
  · refine .inr ⟨?_, h.refused hdoc hus hmore hflawed hmark⟩
    have hsplit : us = (front ++ [mark]) ++ back := by simp [hus]
    rw [hsplit]
    exact hflawed.append back

/-- The grammar refuses an accepted source that has a flaw. -/
theorem Scanned.refuses (h : Scanned source ss ts us before)
    (hdoc : Documented lark legal (source ++ "\n")) (hflawed : Flawed us) (tree : Node) :
    parse lark source ≠ .ok tree := by
  have hreach : Reach (Covered lines) us := (builds_reach h.built).1
  rcases hreach with hc | ⟨front, mark, back, more, hus, hmore, hend, hmark⟩
  · obtain ⟨x, hx⟩ := sentence_of_covered (covered_opening h.opening hc)
    exact absurd (hflawed.behind before) (sentence_unflawed hx)
  · exact h.refused hdoc hus hmore hend hmark tree

/-- A flaw of an accepted source is a comma behind the last parameter, or a line in a block that
begins with a form feed behind its indentation. -/
theorem Scanned.flaws (h : Scanned source ss ts us before) (hflawed : Flawed us) :
    hasTrailingComma ts = true ∨ ∃ lead p, lead ≠ [] ∧ FeedLine source.toList ts lead p := by
  rcases hflawed with hcomma | huneven
  · exact .inl (h.comma.symm.trans hcomma)
  · right
    by_contra hnone
    simp only [not_exists, not_and] at hnone
    obtain ⟨stop, hus⟩ := h.ended
    have hlaid := source_laidOut hus fun lead p hne hline =>
      hnone lead p hne (feedLine_ended h.tokens hus hline)
    rw [kinds, List.map_append] at hlaid
    exact huneven 0 hlaid.front

/-! ### Both front ends -/

/-- Where both front ends accept a source, they give the same tree, which is equal to itself. -/
theorem trees_agree (hdoc : Documented lark legal (source ++ "\n"))
    (hin : Undropped (source.toList ++ ['\n'])) (hp : parseProgram source = .ok program)
    (ht : parse lark source = .ok tree) :
    tree.bare = program.bare ∧ program.bare.same program.bare = true := by
  obtain ⟨ss, ts, us, before, rfl, hscanned⟩ := source_scanned hp hin
  rcases hscanned.outcome hdoc with ⟨ns, hparse, hbare⟩ | ⟨-, hrefused⟩
  · cases ht.symm.trans hparse
    refine ⟨?_, ?_⟩
    · simp only [Node.bare, hbare]
    · have hsame : Node.sameList (Node.bareList ss) (Node.bareList ss) = true :=
        builds_same hscanned.built
      simp only [Node.bare, Node.same, hsame]
  · exact absurd ht (hrefused tree)

/-- The grammar refuses a comma behind the last parameter. -/
theorem trailingComma_refuses (hdoc : Documented lark legal (source ++ "\n"))
    (hin : Undropped (source.toList ++ ['\n'])) (h : parseProgram source = .ok program)
    (hts : tokenize source = .ok ts) (hcomma : hasTrailingComma ts = true) :
    parse lark source ≠ .ok tree := by
  obtain ⟨ss, ts', us, before, -, hscanned⟩ := source_scanned h hin
  obtain rfl := Except.ok.inj (hts.symm.trans hscanned.tokens)
  exact hscanned.refuses hdoc (.inl (hscanned.comma.trans hcomma)) tree

/-! ### Texts of the grammar -/

/-- A parser that gives a tree of a text is as documented for it, where nothing is illegal. -/
theorem documented_of_sentence (hlark : lark text = .ok x)
    (h : ∃ ts, scan (fun _ _ => true) text = some ts ∧ Sentence ts x) :
    Documented lark (fun _ _ => true) text where
  viable _ := rfl
  sound {y} hy := by
    obtain rfl := Except.ok.inj (hlark.symm.trans hy)
    exact h
  complete _ _ := ⟨x, hlark⟩

theorem parse_tree {item : Item} (hlark : lark (source ++ "\n") = .ok x)
    (hx : transform x = .ok item) : parse lark source = programOf item := by
  simp only [parse, hlark, hx]

/-- Nothing that is impossible is documented: there is such a parser for every text. -/
theorem exists_documented (text : String) : ∃ lark legal, Documented lark legal text := by
  by_cases h : ∃ x ts, scan (fun _ _ => true) text = some ts ∧ Sentence ts x
  · obtain ⟨x, hx⟩ := h
    exact ⟨fun _ => .ok x, _, documented_of_sentence rfl hx⟩
  · refine ⟨fun _ => .error (.input .start), fun _ _ => true, ?_⟩
    constructor
    · exact fun _ => rfl
    · intro x hx
      cases hx
    · intro ts x hts hx
      exact absurd ⟨x, ts, hts, hx⟩ h

/-- The rule covers what an alternative of it covers. -/
theorem Covers.choose {name : Label} {a : Alternative} {xs : List Tree} (n : Nat)
    (ha : (grammar name).alternatives[n]? = some a) (h : Covers a.body ts xs)
    (hx : a.tree name ts xs = x) : Covers (.rule name) ts [x] := by
  subst hx
  exact .rule (List.mem_of_getElem? ha) h

theorem covers_arith (h : Covers (.rule .atom) ts [x]) : Covers (.rule .arith) ts [x] := by
  have hsuffixed : Covers (.rule .suffixed) ts [x] := .choose 0 rfl h rfl
  have hfactor : Covers (.rule .factor) ts [x] := .choose 0 rfl hsuffixed rfl
  have hterm : Covers (.rule .term) ts [x] := .choose 0 rfl hfactor rfl
  exact .choose 0 rfl hterm rfl

theorem covers_test (h : Covers (.rule .comparison) ts [x]) : Covers (.rule .test) ts [x] := by
  have hnot : Covers (.rule .notTest) ts [x] := .choose 0 rfl h rfl
  have hand : Covers (.rule .andTest) ts [x] := .choose 0 rfl hnot rfl
  have hor : Covers (.rule .orTest) ts [x] := .choose 0 rfl hand rfl
  exact .choose 0 rfl hor rfl

theorem covers_variable {t : Token} (h : t.terminal = .name) :
    Covers (.rule .test) [t] [.branch .var t.pos [.token t]] := by
  have hatom : Covers (.rule .atom) [t] [.branch .var t.pos [.token t]] :=
    .choose 0 rfl (.token h) rfl
  have hcomparison : Covers (.rule .comparison) [t] [.branch .var t.pos [.token t]] :=
    .choose 0 rfl (covers_arith hatom) rfl
  exact covers_test hcomparison

/-! ### What both accept -/

/-- What the parser accepts the grammar accepts, and the trees are the same apart from places,
unless parameters end in a comma, a block has a line of white space that begins with a form feed, or
text is dropped behind a carriage return. -/
theorem accepted_by_both (hdoc : Documented lark legal (source ++ "\n"))
    (h : parseProgram source = .ok program) :
    ∃ ts, tokenize source = .ok ts ∧
      ((∃ tree, parse lark source = .ok tree ∧ tree.bare = program.bare) ∨
        hasTrailingComma ts = true ∨
        (∃ lead p, lead ≠ [] ∧ FeedLine source.toList ts lead p) ∨
        ∃ i, Dropped source.toList ts i) := by
  obtain ⟨ss, ts, us, stop, -, hts, hus, -⟩ := source_built h
  refine ⟨ts, hts, ?_⟩
  by_cases hdropped : ∃ i, Dropped source.toList ts i
  · exact .inr (.inr (.inr hdropped))
  have hin := source_keeps hts hus (not_exists.mp hdropped)
  obtain ⟨ss, ts', us, before, rfl, hscanned⟩ := source_scanned h hin
  obtain rfl := Except.ok.inj (hts.symm.trans hscanned.tokens)
  rcases hscanned.outcome hdoc with ⟨ns, hparse, hbare⟩ | ⟨hflawed, -⟩
  · exact .inl ⟨_, hparse, by simp only [Node.bare, hbare]⟩
  · rcases hscanned.flaws hflawed with hcomma | hfeed
    · exact .inr (.inl hcomma)
    · exact .inr (.inr (.inl hfeed))

/-- A comment in the first line, and no end of the last one. -/
def sharedSource : String := "# a\ndef f(a, b):\n  return a"

/-- Its tree. -/
def sharedTree : Tree :=
  .branch .fileInput ⟨1, 1⟩ [.branch .funcdef ⟨2, 1⟩
    [.token ⟨.identifier, "f", ⟨2, 5⟩⟩,
     .branch .params ⟨2, 7⟩
      [.token ⟨.identifier, "a", ⟨2, 7⟩⟩, .token ⟨.identifier, "b", ⟨2, 10⟩⟩],
     .branch .suite ⟨2, 12⟩ [.branch .returnStmt ⟨3, 3⟩
      [.branch .var ⟨3, 10⟩ [.token ⟨.identifier, "a", ⟨3, 10⟩⟩]]]]]

theorem sharedTree_covers : ∃ ts, scan (fun _ _ => true) (sharedSource ++ "\n") = some ts ∧
    Sentence ts sharedTree := by
  have hparams : Covers (.rule .params) _ [_] := .choose 0 rfl
    (.both (.token (t := ⟨.identifier, "a", ⟨2, 7⟩⟩) rfl)
      (.more (.both (.token (t := ⟨.delimiter, ",", ⟨2, 8⟩⟩) rfl)
        (.token (t := ⟨.identifier, "b", ⟨2, 10⟩⟩) rfl)) .done)) rfl
  have hvalue := covers_variable (t := ⟨.identifier, "a", ⟨3, 10⟩⟩) rfl
  have hreturn : Covers (.rule .returnStmt) _ [_] := .choose 0 rfl
    (.both (.token (t := ⟨.keyword, "return", ⟨3, 3⟩⟩) rfl) hvalue.left) rfl
  have hline : Covers (.rule .simpleStmt) _ [_] := .choose 0 rfl
    (.both (.right (.right (.right (.left hreturn))))
      (.token (t := ⟨.newline, "\n", ⟨3, 11⟩⟩) rfl)) rfl
  have hfirst : Covers (.rule .stmt) _ [_] := .choose 0 rfl hline rfl
  have hsuite : Covers (.rule .suite) _ [_] := .choose 0 rfl
    (.both (.token (t := ⟨.delimiter, ":", ⟨2, 12⟩⟩) rfl)
      (.both (.token (t := ⟨.newline, "\n  ", ⟨2, 13⟩⟩) rfl)
        (.both (.token (t := ⟨.indent, "", ⟨2, 13⟩⟩) rfl)
          (.both (.both hfirst .done) (.token (t := ⟨.dedent, "", ⟨3, 11⟩⟩) rfl))))) rfl
  have hfunction : Covers (.rule .funcdef) _ [_] := .choose 0 rfl
    (.both (.token (t := ⟨.keyword, "def", ⟨2, 1⟩⟩) rfl)
      (.both (.token (t := ⟨.identifier, "f", ⟨2, 5⟩⟩) rfl)
        (.both (.token (t := ⟨.delimiter, "(", ⟨2, 6⟩⟩) rfl)
          (.both hparams.left
            (.both (.token (t := ⟨.delimiter, ")", ⟨2, 11⟩⟩) rfl) hsuite))))) rfl
  have hcompound : Covers (.rule .compoundStmt) _ [_] := .choose 3 rfl hfunction rfl
  have hstmt : Covers (.rule .stmt) _ [_] := .choose 1 rfl hcompound rfl
  have hcomment := Covers.token (t := ⟨.newline, "# a\n", ⟨1, 1⟩⟩) (c := .newline) rfl
  have htext : Covers (.rule .fileInput) _ [sharedTree] :=
    .choose 0 rfl (hcomment.left.more (hstmt.right.more .done)) rfl
  exact ⟨_, by rw [scan, String.toList_append]; cbv, htext⟩

theorem sharedSource_read : ∃ (lark : Lark) (legal : Legality) (program tree : Node),
    Documented lark legal (sharedSource ++ "\n") ∧ parseProgram sharedSource = .ok program ∧
      parse lark sharedSource = .ok tree ∧ tree.bare = program.bare := by
  let lark : Lark := fun text =>
    if text = sharedSource ++ "\n" then .ok sharedTree else .error (.input .start)
  have hdoc : Documented lark (fun _ _ => true) (sharedSource ++ "\n") :=
    documented_of_sentence (if_pos rfl) sharedTree_covers
  obtain ⟨program, hp⟩ : ∃ program, parseProgram sharedSource = .ok program := ⟨_, by cbv⟩
  obtain ⟨ts, hts, haccepted⟩ := accepted_by_both hdoc hp
  rcases haccepted with ⟨tree, ht, hbare⟩ | hcomma | ⟨lead, p, -, hline⟩ | ⟨i, hdropped⟩
  · exact ⟨lark, _, program, tree, hdoc, hp, ht, hbare⟩
  · have hneat : (tokenize sharedSource).map hasTrailingComma = .ok false := by cbv
    rw [hts] at hneat
    cases hcomma.symm.trans (Except.ok.inj hneat)
  · obtain ⟨lines, feed, more, htext, -, -, ⟨blanks, comment, rfl, -⟩, -⟩ := hline
    have hmem : '\x0c' ∈ sharedSource.toList := by simp [htext]
    exact absurd hmem (by decide)
  · obtain ⟨lines, lead, body, more, htext, -⟩ := hdropped
    have hmem : '\r' ∈ sharedSource.toList := by simp [htext]
    exact absurd hmem (by decide)

/-- A comma behind the only parameter. -/
def trailingComma : String := "def f(a,):\n    pass\n"

/-- The parser accepts it, and the grammar refuses it, whatever parser is generated. -/
theorem trailingComma_refused :
    (∃ lark legal, Documented lark legal (trailingComma ++ "\n")) ∧
      (∃ program, parseProgram trailingComma = .ok program) ∧
      ∀ lark legal, Documented lark legal (trailingComma ++ "\n") →
        ∀ tree, parse lark trailingComma ≠ .ok tree := by
  obtain ⟨program, hp⟩ : ∃ program, parseProgram trailingComma = .ok program := ⟨_, by cbv⟩
  refine ⟨exists_documented _, ⟨program, hp⟩, ?_⟩
  intro lark legal hdoc tree
  obtain ⟨ts, hts, hcomma⟩ : ∃ ts, tokenize trailingComma = .ok ts ∧ hasTrailingComma ts = true :=
    ⟨_, by cbv, by cbv⟩
  exact trailingComma_refuses hdoc (source_undropped (by decide)) hp hts hcomma

end Offside.Reference
