import Offside.Proofs.Parser.Locality
import Offside.Proofs.Parser.Recovery
import Offside.Proofs.Printer.Statement

/-!
Errors line by line. Lines that open no block are judged one by one: the errors of a list of them
are those that each line has alone, at most one for a line, and the list is accepted when each line
is. The same holds of lines in the body of a loop or a function and after it, where the body's lines
are judged in the context of the block.
-/

namespace Offside.Parser

open Grammar

variable {α : Type} {context : Context} {ts : List Token}

/-! ### Lists in a context -/

/-- The program that a list denotes in some context, or every error found in it. -/
def parseIn (context : Context) (ts : List Token) : Except ReadError Node :=
  verdict (statements (fuelFor ts) context true (Cursor.ofTokens ts))

theorem parse_outside (ts : List Token) : parse ts = parseIn ⟨false, false⟩ ts := parse_eq ts

/-- A list is read to its end, with statements and errors. -/
def HasReading (context : Context) (ts : List Token) (ss : List Node) (es : List ParseError) :
    Prop :=
  ∃ c, statements (fuelFor ts) context true (Cursor.ofTokens ts) = .ok ss c ∧ c.errors = es

theorem reads_of_yields {ss : List Node} {c : Cursor}
    (h : Yields (fun fuel => statements fuel context true) (Cursor.ofTokens ts) ss c) :
    HasReading context ts ss c.errors := by
  obtain ⟨n, hn⟩ := h
  obtain ⟨hs, tail, htail, -⟩ := ofTokens_split ts
  have hlen : (Cursor.ofTokens ts).rest.length ≤ ts.length := by
    conv_rhs => rw [htail, List.length_append]
    exact Nat.le_add_right _ _
  have hfed := (statements_sufficient (fuelFor ts)).statements context true _ hs
    (by rw [fuelFor]; omega)
  exact ⟨c, outcome_eq (fun fuel => statements fuel context true)
    (fun fuel => (statements_monotone fuel).statements _ _) hfed
    (hn (max n (fuelFor ts)) (Nat.le_max_left _ _)) (Nat.le_max_right _ _), rfl⟩

theorem recordedIn_of_reads {ss : List Node} {es : List ParseError}
    (h : HasReading context ts ss es) : recordedIn context ts = es := by
  obtain ⟨c, hs, rfl⟩ := h
  rw [recordedIn, hs]

theorem parseIn_of_reads {ss : List Node} {es : List ParseError} (h : HasReading context ts ss es) :
    parseIn context ts =
      if es.isEmpty then .ok (.program Position.start ss) else .error (.parse es) := by
  obtain ⟨c, hs, rfl⟩ := h
  rw [parseIn, hs, verdict]

theorem parseIn_ok_iff {ss : List Node} {es : List ParseError} {n : Node}
    (h : HasReading context ts ss es) :
    parseIn context ts = .ok n ↔ es = [] ∧ n = .program Position.start ss := by
  rw [parseIn_of_reads h]
  cases es with
  | nil =>
    constructor
    · rintro ⟨⟩
      exact ⟨rfl, rfl⟩
    · rintro ⟨-, rfl⟩
      rfl
  | cons e es =>
    constructor
    · rintro ⟨⟩
    · rintro ⟨⟨⟩, -⟩

/-! ### One line -/

/-- A line of tokens as the lexer emits them, with digits of ASCII only, that ends in no colon. -/
structure SourceLine where
  tokens : List Token
  ending : LineEnd
  nonempty : tokens ≠ []
  shaped : ∀ t ∈ tokens, t.Shaped
  free : Freestanding tokens

def SourceLine.all (l : SourceLine) : List Token := l.tokens ++ [l.ending.token]

def errorOf : Except ParseError Node → List ParseError
  | .ok _ => []
  | .error e => [e]

/-- What follows a line does not hang off it. -/
def Beyond.Apart (k : Beyond) : Prop := ∀ t ∈ k.more.head?, t.kind ≠ .indent

/-- The line is read as a statement, or passed over for an error, wherever it stands. -/
def Judges (context : Context) (l : SourceLine) (r : Except ParseError Node) : Prop :=
  ∀ k : Beyond, k.Apart → Yields (fun fuel => recovering (statement fuel context))
    (k.before l.ending l.tokens) r.toOption ⟨k.more, k.stop, k.errors ++ errorOf r⟩

theorem atom_shaped {t : Token} (h : t.Shaped) {f : Fault} : atom? t ≠ some (.error f) := by
  intro ha
  unfold atom? at ha
  split at ha
  · next hk =>
    rw [Token.Shaped, hk] at h
    rw [Number.readInteger_digits h] at ha
    cases ha
  · next hk =>
    rw [Token.Shaped, hk] at h
    obtain ⟨ds, fs, hcs, hd, hf⟩ := h
    rw [hcs, Number.readFloat_point hd hf] at ha
    cases ha
  · cases ha
  · cases ha
  · split_ifs at ha <;> cases ha
  · cases ha

theorem dropStatement_line {nl : LineEnd} {k : Beyond} (hk : k.Apart) {l : List Token}
    (hl : ∀ t ∈ l, t.kind.OfLine) : dropStatement (l ++ nl.token :: k.more) = k.more := by
  have hline (l : List Token) (hl : ∀ t ∈ l, t.kind.OfLine) :
      dropLine (l ++ nl.token :: k.more) = k.more := by
    induction l with
    | nil =>
      unfold dropLine
      simp only [List.nil_append, nl.newline]
      cases hm : k.more with
      | nil => rfl
      | cons u rest =>
        have hu : ¬ u.kind = .indent := hk u (by rw [hm]; rfl)
        exact if_neg hu
    | cons t l ih =>
      obtain ⟨ht, hl⟩ := List.forall_mem_cons.mp hl
      rw [List.cons_append]
      unfold dropLine
      split
      · next h => rw [h] at ht; exact ht.elim
      · next h => rw [h] at ht; exact ht.elim
      · next h => rw [h] at ht; exact ht.elim
      · exact ih hl
  cases l with
  | nil =>
    rw [List.nil_append, dropStatement, if_neg (by rw [nl.newline]; decide)]
    exact hline [] (List.forall_mem_nil _)
  | cons t l =>
    have ht : ¬ t.kind = .indent := by
      intro h
      have := (List.forall_mem_cons.mp hl).1
      rw [h] at this
      exact this
    rw [List.cons_append, dropStatement, if_neg ht]
    exact hline (t :: l) hl

/-- A line is judged the same wherever it stands. -/
theorem line_judged (context : Context) (l : SourceLine) : ∃ r, Judges context l r := by
  have hmono {m n : Nat} (hmn : m ≤ n) (c : Cursor) :
      Refines (statement m context c) (statement n context c) :=
    refines_le (fun fuel => (statements_monotone fuel).statement context) hmn c
  -- alone, the line is neither at fault nor lacks fuel
  let alone : Beyond := ⟨[], ⟨.stop, "", .start⟩, []⟩
  let ts := l.all ++ [alone.stop]
  have hcursor : Cursor.ofTokens ts = alone.before l.ending l.tokens := ofTokens_concat rfl
  have hc : (alone.before l.ending l.tokens).Sound ts none :=
    hcursor ▸ ofTokens_sound (by simp [ts]) nofun
  let enough := 4 * (alone.before l.ending l.tokens).rest.length + 4
  have hfed := (statements_sufficient enough).statement context _ hc.kind (Nat.le_refl _)
  have hans := (rules_answer ts enough).statement none context _ hc
  rcases statement_concluded enough context l.nonempty l.free with ⟨s, hs⟩ | ⟨e, l', hl, he⟩
  · refine ⟨.ok s, fun k _ => ⟨enough, fun fuel hf => ?_⟩⟩
    have hstatement : statement fuel context (k.before l.ending l.tokens) = .ok s k.after := by
      rcases hmono hf (k.before l.ending l.tokens) with h | ⟨c, h⟩
      · rw [← h]
        exact hs k
      · cases (hs k).symm.trans h
    change recovering (statement fuel context) (k.before l.ending l.tokens) = _
    rw [recovering_apply, hstatement]
    simp [Except.toOption, Beyond.after, errorOf]
  · rw [show statement enough context _ = _ from he alone] at hfed hans
    obtain ⟨p, rfl⟩ : ∃ p, e = .problem p := by
      cases hans.1 with
      | problem _ _ => exact ⟨_, rfl⟩
      | @fault t f ht ha =>
        refine absurd ha (atom_shaped ?_)
        rcases List.mem_append.mp ht with ht | ht
        · rcases List.mem_append.mp ht with ht | ht
          · exact l.shaped t ht
          · rw [List.mem_singleton.mp ht, Token.Shaped, l.ending.newline]
            trivial
        · rw [List.mem_singleton.mp ht]
          trivial
      | starved => exact absurd rfl hfed.1
    refine ⟨.error p, fun k hk => ⟨enough, fun fuel hf => ?_⟩⟩
    have hstatement : statement fuel context (k.before l.ending l.tokens) =
        .error (.problem p) (k.before l.ending l') := by
      rcases hmono hf (k.before l.ending l.tokens) with h | ⟨c, h⟩
      · rw [← h]
        exact he k
      · cases (he k).symm.trans h
    change recovering (statement fuel context) (k.before l.ending l.tokens) = _
    rw [recovering_apply, hstatement]
    have hdrop : dropStatement (l' ++ l.ending.token :: k.more) = k.more :=
      dropStatement_line hk fun t ht => l.free.ofLine t (hl.subset ht)
    simp [Except.toOption, Cursor.recovered, Cursor.recording, Beyond.before, hdrop, errorOf]

/-! ### Lines and blocks -/

/-- One turn of a list of statements. -/
theorem statements_turn {topLevel : Bool} {c c₁ c' : Cursor} {o : Option Node} {ss : List Node}
    (hn : c.next.kind.OfLine) (ho : Yields (fun fuel => recovering (statement fuel context)) c o c₁)
    (hss : Yields (fun fuel => statements fuel context topLevel) c₁ ss c') :
    Yields (fun fuel => statements fuel context topLevel) c (o.toList ++ ss) c' := by
  have hne (kind : TokenKind) (hk : ¬ kind.OfLine) : c.next.kind ≠ kind := fun h => hk (h ▸ hn)
  refine yields_step (fun fuel => recovering (statement fuel context) >>= fun s =>
      s.elim (statements fuel context topLevel) fun s =>
        statements fuel context topLevel >>= fun rest => pure (s :: rest)) ?_ (yields_bind ho ?_)
  · intro fuel
    rw [statements_succ, Cursor.afterNewlines_stays (hne .newline id), statementsFrom,
      if_neg (hne .stop id), if_neg (hne .dedent id)]
    refine congrFun (bind_congr fun s => ?_) c
    cases s <;> rfl
  · cases o with
    | none => exact hss
    | some s => exact yields_bind hss (yields_pure _ _)

/-- The tokens of some lines. -/
def layLines (ls : List SourceLine) : List Token := ls.flatMap SourceLine.all

/-- No line starts with an indentation, and neither does what ends statements. -/
theorem lines_apart {topLevel : Bool} {tail : List Token} {stop : Token} {es : List ParseError}
    (htail : Printer.Closes topLevel ⟨tail, stop, es⟩) (ls : List SourceLine) :
    Beyond.Apart ⟨layLines ls ++ tail, stop, es⟩ := by
  intro t ht hk
  cases ls with
  | nil =>
    cases tail with
    | nil => cases ht
    | cons u tail =>
      obtain rfl : u = t := Option.some.inj ht
      rcases htail with h | ⟨h, -⟩ <;> exact nomatch hk.symm.trans h
  | cons l ls =>
    obtain ⟨u, rest, hu⟩ := List.exists_cons_of_ne_nil l.nonempty
    have hline : u.kind.OfLine := l.free.ofLine u (by simp [hu])
    have hut : u = t := by simpa [layLines, SourceLine.all, hu] using ht
    rw [hut, hk] at hline
    exact hline

/-- Lines are read one by one, up to where statements end. -/
theorem lines_yield {judge : SourceLine → Except ParseError Node}
    (hj : ∀ l, Judges context l (judge l)) {topLevel : Bool} {tail : List Token} {stop : Token}
    (htail : ∀ es, Printer.Closes topLevel ⟨tail, stop, es⟩) (ls : List SourceLine)
    (es : List ParseError) :
    Yields (fun fuel => statements fuel context topLevel) ⟨layLines ls ++ tail, stop, es⟩
      (ls.flatMap fun l => (judge l).toOption.toList)
      ⟨tail, stop, es ++ ls.flatMap fun l => errorOf (judge l)⟩ := by
  induction ls generalizing es with
  | nil =>
    rw [List.flatMap_nil, List.flatMap_nil, List.append_nil]
    exact Printer.statements_end (htail es)
  | cons l ls ih =>
    obtain ⟨t, rest, ht⟩ := List.exists_cons_of_ne_nil l.nonempty
    have hline : t.kind.OfLine := l.free.ofLine t (by simp [ht])
    let k : Beyond := ⟨layLines ls ++ tail, stop, es⟩
    have hcursor : (⟨layLines (l :: ls) ++ tail, stop, es⟩ : Cursor) =
        k.before l.ending l.tokens := by
      simp [layLines, SourceLine.all, Beyond.before, k]
    have hrest := ih (es ++ errorOf (judge l))
    rw [List.append_assoc] at hrest
    rw [hcursor]
    refine statements_turn ?_ (hj l k (lines_apart (htail es) ls)) hrest
    rw [Beyond.next_before, ht]
    exact hline

/-! ### Blocks -/

/-- A correct header of a loop or a function up to its colon, the contexts around the statement and
in its body, and the statement with a body, without places. -/
inductive Header : Context → List Token → Context → (List Node → Node) → Prop where
  | loop {outer : Context} {t : Token} {u : List Token} {e : Node} : t.is .keyword "while" →
      Derives Leaf (.expr .test e) u →
      Header outer (t :: u) { outer with inLoop := true } (.whileStmt .unknown e)
  | function {outer : Context} {t name opening closing : Token} {u : List Token}
      {xs : List String} : t.is .keyword "def" → name.kind = .identifier →
      opening.is .delimiter "(" → Names u xs → xs.Nodup → closing.is .delimiter ")" →
      Header outer (t :: name :: opening :: (u ++ [closing])) ⟨false, true⟩
        (.functionDef .unknown name.lexeme (xs.map Json.string))

def bodyOf : Node → Option (List Node)
  | .whileStmt _ _ body | .functionDef _ _ _ body => some body
  | _ => none

theorem header_opens {outer inner : Context} {u : List Token} {shape : List Node → Node}
    (h : Header outer u inner shape) : ∃ t rest, u = t :: rest ∧ t.kind = .keyword := by
  cases h with
  | loop hk _ => exact ⟨_, _, rfl, (is_iff.mp hk).1⟩
  | function hk _ _ _ _ _ => exact ⟨_, _, rfl, (is_iff.mp hk).1⟩

/-- A correct header reads its body as a block, whichever way the block ends. -/
theorem header_yields {outer inner : Context} {u : List Token} {shape : List Node → Node}
    (h : Header outer u inner shape) {c c₁ c' : Cursor} (ht : Takes c u c₁)
    (hcolon : c₁.next.is .delimiter ":" = true) {ss : List Node}
    (hblock : ∀ title, Yields (fun fuel => block fuel inner title) c₁ ss c') :
    ∃ s, s.bare = shape (Node.bareList ss) ∧ bodyOf s = some ss ∧
      Yields (fun fuel => statement fuel outer) c s c' := by
  cases h with
  | loop hk he =>
    have he' := derives_mono he fun _ _ _ => leaf_readable
    obtain ⟨e', rfl, hy⟩ := expression_complete he' ht.skip_one (follow_delimiter hcolon (by decide))
    refine ⟨.whileStmt c.next.pos e' ss, rfl, rfl, ?_⟩
    have hnext : c.next.is .keyword "while" = true := by rw [ht.next_eq, hk]
    exact Printer.yields_word (fun fuel => whileTail fuel outer c.next.pos) hnext (fun _ => rfl)
      (yields_bind hy (yields_bind (hblock _) (yields_pure _ _)))
  | @function t name opening closing u xs hk hn ho hxs hd hcl =>
    have hparts : Takes (((c.skip 1).skip 1).skip 1) (u ++ [closing]) c₁ :=
      ht.skip_one.skip_one.skip_one
    obtain ⟨c₂, hu, hend⟩ := hparts.split
    have hclose : c₂.next.is .delimiter ")" = true := by rw [hend.next_eq, hcl]
    have hparams : Yields (fun fuel => parameters ")" "a parameter name" fuel []) _ ([] ++ xs) c₂ :=
      names_complete hxs (by decide) hu hclose hd
    have hnext : c.next.is .keyword "def" = true := by rw [ht.next_eq, hk]
    refine ⟨.functionDef c.next.pos name.lexeme (xs.map Json.string) ss, rfl, rfl, ?_⟩
    refine Printer.yields_word (fun fuel => defTail fuel c.next.pos) hnext (fun _ => rfl) ?_
    refine Printer.signature_yields ?_ ?_ ?_ hparams hclose ?_
    · rw [ht.skip_one.next_eq, hn]
    · rw [ht.skip_one.next_eq]
    · rw [ht.skip_one.skip_one.next_eq, ho]
    · have hskip : c₂.skip 1 = c₁ := hend.skip_length
      rw [hskip]
      exact hblock _

/-- A correct header with the layout of the block that hangs off it. -/
structure Block (outer : Context) where
  header : List Token
  inner : Context
  shape : List Node → Node
  correct : Header outer header inner shape
  colon : Token
  isColon : colon.is .delimiter ":"
  ending : LineEnd
  indent : Token
  isIndent : indent.kind = .indent
  dedent : Token
  isDedent : dedent.kind = .dedent

def Block.around {outer : Context} (b : Block outer) (body : List Token) : List Token :=
  b.header ++ b.colon :: b.ending.token :: b.indent :: (body ++ [b.dedent])

/-- A block with lines for its body is read as one statement, whatever follows it. -/
theorem block_reads {outer : Context} (b : Block outer)
    {judge : SourceLine → Except ParseError Node} (hj : ∀ l, Judges b.inner l (judge l))
    (body : List SourceLine) (more : List Token) (stop : Token) (es : List ParseError) :
    let read := body.flatMap fun l => (judge l).toOption.toList
    ∃ s, s.bare = b.shape (Node.bareList read) ∧ bodyOf s = some read ∧
      Yields (fun fuel => statement fuel outer) ⟨b.around (layLines body) ++ more, stop, es⟩ s
        ⟨more, stop, es ++ body.flatMap fun l => errorOf (judge l)⟩ := by
  intro read
  let inside := layLines body ++ b.dedent :: more
  let atColon : Cursor := ⟨b.colon :: b.ending.token :: b.indent :: inside, stop, es⟩
  have hheader : Takes ⟨b.around (layLines body) ++ more, stop, es⟩ b.header atColon :=
    ⟨by simp [Block.around, atColon, inside], rfl, rfl⟩
  have hcloses (es : List ParseError) : Printer.Closes false ⟨b.dedent :: more, stop, es⟩ :=
    .inr ⟨b.isDedent, rfl⟩
  have hbody := lines_yield hj hcloses body es
  refine header_yields b.correct hheader b.isColon fun title => ?_
  exact Printer.block_yields (c := atColon) title b.isColon b.ending.newline b.isIndent hbody
    b.isDedent

/-! ### Lists of lines -/

/-- A line as a list of its own. -/
def SourceLine.alone (stop : Token) (l : SourceLine) : List Token := l.all ++ [stop]

theorem lines_reading {judge : SourceLine → Except ParseError Node}
    (hj : ∀ l, Judges context l (judge l)) {stop : Token} (hstop : stop.kind = .stop)
    (ls : List SourceLine) :
    HasReading context (layLines ls ++ [stop]) (ls.flatMap fun l => (judge l).toOption.toList)
      (ls.flatMap fun l => errorOf (judge l)) := by
  have hcloses (es : List ParseError) : Printer.Closes true ⟨[], stop, es⟩ := .inl hstop
  have hy := lines_yield hj hcloses ls []
  rw [List.append_nil, ← ofTokens_concat hstop] at hy
  exact reads_of_yields hy

theorem alone_reading {judge : SourceLine → Except ParseError Node}
    (hj : ∀ l, Judges context l (judge l)) {stop : Token} (hstop : stop.kind = .stop)
    (l : SourceLine) :
    HasReading context (l.alone stop) (judge l).toOption.toList (errorOf (judge l)) := by
  simpa [layLines, SourceLine.alone] using lines_reading hj hstop [l]

theorem block_reading {outer : Context} (b : Block outer)
    {judge : Context → SourceLine → Except ParseError Node}
    (hj : ∀ context l, Judges context l (judge context l)) {stop : Token}
    (hstop : stop.kind = .stop) (body after : List SourceLine) :
    let read := body.flatMap fun l => (judge b.inner l).toOption.toList
    ∃ s, s.bare = b.shape (Node.bareList read) ∧ bodyOf s = some read ∧
      HasReading outer (b.around (layLines body) ++ layLines after ++ [stop])
        (s :: after.flatMap fun l => (judge outer l).toOption.toList)
        ((body.flatMap fun l => errorOf (judge b.inner l)) ++
          after.flatMap fun l => errorOf (judge outer l)) := by
  intro read
  obtain ⟨s, hbare, hbody, hs⟩ := block_reads b (hj b.inner) body (layLines after) stop []
  refine ⟨s, hbare, hbody, ?_⟩
  have hcloses (es : List ParseError) : Printer.Closes true ⟨[], stop, es⟩ := .inl hstop
  have hafter := lines_yield (hj outer) hcloses after
    (body.flatMap fun l => errorOf (judge b.inner l))
  rw [List.append_nil] at hafter
  obtain ⟨t, rest, hheader, ht⟩ := header_opens b.correct
  have hy := statements_turn (by simp [Cursor.next, Block.around, hheader, ht, TokenKind.OfLine])
    (Printer.yields_recovering hs) hafter
  rw [← ofTokens_concat hstop] at hy
  exact reads_of_yields hy

/-- A list is judged line by line, each line in its context: the errors are those that the lines
have alone, at most one for each, and the list is accepted when each line is. -/
structure LineByLine (ts : List Token) (stop : Token) (ls : List (Context × SourceLine))
    (whole : (Context × SourceLine → List Node) → List Node → Prop) : Prop where
  errors : recorded ts = ls.flatMap fun l => recordedIn l.1 (l.2.alone stop)
  single : ∀ l ∈ ls, (recordedIn l.1 (l.2.alone stop)).length ≤ 1
  refused : recorded ts ≠ [] → parse ts = .error (.parse (recorded ts))
  accepted : (∃ n, parse ts = .ok n) ↔ ∀ l ∈ ls, ∃ n, parseIn l.1 (l.2.alone stop) = .ok n
  statements : ∀ read : Context × SourceLine → List Node,
    (∀ l ∈ ls, parseIn l.1 (l.2.alone stop) = .ok (.program Position.start (read l))) →
    ∃ ss, parse ts = .ok (.program Position.start ss) ∧ whole read ss

theorem lineByLine_of_reading {judge : Context → SourceLine → Except ParseError Node}
    (hj : ∀ context l, Judges context l (judge context l)) {stop : Token}
    (hstop : stop.kind = .stop) {ls : List (Context × SourceLine)} {ss : List Node}
    {whole : (Context × SourceLine → List Node) → List Node → Prop}
    (hts : HasReading ⟨false, false⟩ ts ss (ls.flatMap fun l => errorOf (judge l.1 l.2)))
    (hwhole : ∀ read, (∀ l ∈ ls, read l = (judge l.1 l.2).toOption.toList) → whole read ss) :
    LineByLine ts stop ls whole := by
  have halone (l : Context × SourceLine) := alone_reading (hj l.1) hstop l.2
  have hrecorded : recorded ts = ls.flatMap fun l => errorOf (judge l.1 l.2) :=
    recordedIn_of_reads hts
  have hrecordedIn (l : Context × SourceLine) :
      recordedIn l.1 (l.2.alone stop) = errorOf (judge l.1 l.2) := recordedIn_of_reads (halone l)
  refine ⟨?_, ?_, ?_, ?_, ?_⟩
  · simp only [hrecorded, hrecordedIn]
  · intro l _
    rw [hrecordedIn]
    cases judge l.1 l.2 <;> simp [errorOf]
  · intro h
    rw [hrecorded] at h ⊢
    rw [parse_outside, parseIn_of_reads hts, if_neg (by simpa using h)]
  · simp only [parse_outside, parseIn_ok_iff hts, parseIn_ok_iff (halone _), exists_and_left,
      exists_eq, and_true, List.flatMap_eq_nil_iff]
  · intro read hread
    have hparts : ∀ l ∈ ls, errorOf (judge l.1 l.2) = [] ∧
        Node.program Position.start (read l) = .program Position.start _ :=
      fun l hl => (parseIn_ok_iff (halone l)).mp (hread l hl)
    refine ⟨ss, (parse_outside ts).trans ((parseIn_ok_iff hts).mpr ⟨?_, rfl⟩), hwhole read
      fun l hl => ?_⟩
    · exact List.flatMap_eq_nil_iff.mpr fun l hl => (hparts l hl).1
    · exact (Node.program.inj (hparts l hl).2).2

/-- Lines that open no block are judged one by one, also in the body of a loop or a function, where
they are in the context of the block, and after it. -/
theorem lines_judged_apart (stop : Token) (hstop : stop.kind = .stop) :
    (∀ ls : List SourceLine,
      LineByLine (layLines ls ++ [stop]) stop (ls.map (⟨false, false⟩, ·)) fun read ss =>
        ss = ls.flatMap fun l => read (⟨false, false⟩, l)) ∧
    ∀ (b : Block ⟨false, false⟩) (body after : List SourceLine),
      LineByLine (b.around (layLines body) ++ layLines after ++ [stop]) stop
        (body.map (b.inner, ·) ++ after.map (⟨false, false⟩, ·)) fun read ss =>
          ∃ s, s.bare = b.shape (Node.bareList (body.flatMap fun l => read (b.inner, l))) ∧
            bodyOf s = some (body.flatMap fun l => read (b.inner, l)) ∧
            ss = s :: after.flatMap fun l => read (⟨false, false⟩, l) := by
  choose judge hj using line_judged
  constructor
  · intro ls
    refine lineByLine_of_reading hj hstop
      (by simpa only [List.flatMap_map] using lines_reading (hj _) hstop ls) fun read hread => ?_
    exact List.flatMap_congr fun l hl => (hread _ (List.mem_map_of_mem hl)).symm
  · intro b body after
    obtain ⟨s, hbare, hbody, hs⟩ := block_reading b hj hstop body after
    refine lineByLine_of_reading hj hstop
      (by simpa only [List.flatMap_append, List.flatMap_map] using hs) fun read hread => ?_
    have hinner : (body.flatMap fun l => read (b.inner, l)) =
        body.flatMap fun l => (judge b.inner l).toOption.toList :=
      List.flatMap_congr fun l hl =>
        hread (b.inner, l) (List.mem_append_left _ (List.mem_map_of_mem hl))
    have houter : (after.flatMap fun l => read (⟨false, false⟩, l)) =
        after.flatMap fun l => (judge ⟨false, false⟩ l).toOption.toList :=
      List.flatMap_congr fun l hl =>
        hread (⟨false, false⟩, l) (List.mem_append_right _ (List.mem_map_of_mem hl))
    rw [hinner, houter]
    exact ⟨s, hbare, hbody, rfl⟩

/-- A line that is one keyword. -/
def SourceLine.word (lexeme : String) (line : Nat) (h : lexeme ∈ keywords) : SourceLine where
  tokens := [⟨.keyword, lexeme, ⟨line, 1⟩⟩]
  ending := ⟨⟨.newline, "\n", ⟨line, lexeme.length + 1⟩⟩, rfl⟩
  nonempty := List.cons_ne_nil _ _
  shaped := by simpa [Token.Shaped] using h
  free := ⟨by simp [TokenKind.OfLine], by simp [Token.is]⟩

/-- The block of `while true:` on the first line. -/
def forever : Block ⟨false, false⟩ where
  header := [⟨.keyword, "while", ⟨1, 1⟩⟩, ⟨.keyword, "true", ⟨1, 7⟩⟩]
  inner := ⟨true, false⟩
  shape := .whileStmt .unknown (.literal .unknown (.boolean true) "Boolean")
  correct := .loop rfl <| .unit .orTest <| .unit .andTest <| .unit .notTest <| .unit .comparison <|
    .unit .arith <| .unit .term <| .unit .factor <| .unit .suffixed <| .unit .atom <|
    .leaf (.constTrue rfl)
  colon := ⟨.delimiter, ":", ⟨1, 11⟩⟩
  isColon := rfl
  ending := ⟨⟨.newline, "\n", ⟨1, 12⟩⟩, rfl⟩
  indent := ⟨.indent, "", ⟨2, 1⟩⟩
  isIndent := rfl
  dedent := ⟨.dedent, "", ⟨4, 1⟩⟩
  isDedent := rfl

theorem loop_lines_judged_apart :
    let stop : Token := ⟨.stop, "", ⟨5, 1⟩⟩
    let body := [SourceLine.word "return" 2 (by decide), SourceLine.word "break" 3 (by decide)]
    let after := [SourceLine.word "break" 4 (by decide)]
    stop.kind = .stop ∧ recorded (forever.around (layLines body) ++ layLines after ++ [stop]) =
      [⟨.outsideFunction, ⟨2, 1⟩⟩, ⟨.outsideLoop "break", ⟨4, 1⟩⟩] := by
  intro stop body after
  exact ⟨rfl, ((lines_judged_apart stop rfl).2 forever body after).errors.trans rfl⟩

end Offside.Parser
