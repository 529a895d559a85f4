import Offside.Proofs.Parser.Clause
import Offside.Proofs.Reference.Cover

/-!
What trees of the grammar mean. A tree for an expression becomes an expression that is derived from
the tokens that it covers; a tree for a statement becomes the statement that is built from as many
tokens, if one is. What is covered is meant: here for expressions.
-/

namespace Offside.Reference

open Grammar
open Offside.Parser (Readable is_iff)

/-! ### Meanings -/

/-- Each literal has a value, and each `lambda` is followed by distinct names and a colon. -/
structure Sensible (ts : List Token) : Prop where
  legible : ∀ t ∈ ts, ∀ f, Parser.atom? t ≠ some (.error f)
  lambdas : ∀ (front back : List Token) (t : Token), ts = front ++ t :: back →
    t.is .keyword "lambda" = true → ∃ us xs colon vs, back = us ++ colon :: vs ∧ Names us xs ∧
      xs.Nodup ∧ colon.is .delimiter ":" = true

def Expresses (s : Symbol) (ts : List Token) (x : Tree) : Prop :=
  ∃ n, transform x = .ok (.node n) ∧ Derives Readable (.expr s n.bare) ts

/-- The names of parameters. They become what they are unless one stands twice. -/
def Introduces (ts : List Token) (x : Tree) : Prop :=
  ∃ xs, Names ts xs ∧ (xs.Nodup → transform x = .ok (.names xs))

def Supplies (ts : List Token) (x : Tree) : Prop :=
  ∃ ns, transform x = .ok (.nodes ns) ∧ Derives Readable (.items (Node.bareList ns)) ts

/-- A key and a value, apart from the rest of a mapping. -/
def Keyed (p : Node × Node) (ts : List Token) : Prop :=
  ∃ us colon vs, ts = us ++ colon :: vs ∧ colon.is .delimiter ":" = true ∧
    Derives Readable (.expr .test p.1.bare) us ∧ Derives Readable (.expr .test p.2.bare) vs

def Heads (ts : List Token) : Prop := ∃ t rest, ts = t :: rest ∧ Parser.Begins t

/-- No branch of a conditional goes on here. -/
def NoClause (ts : List Token) : Prop :=
  ∀ t ∈ ts.head?, t.is .keyword "elif" = false ∧ t.is .keyword "else" = false

/-- A tree becomes the statement that is built from these tokens and those behind. -/
def States (ts back : List Token) (x : Tree) : Prop :=
  Heads ts ∧ ∀ {s : Node} {us r r' : List Token}, Builds (.statement s) us →
    ts ++ back ++ r = us ++ r' → NoClause r → NoClause r' →
    us = ts ++ back ∧ ∃ n, transform x = .ok (.node n) ∧ n.bare = s

/-- What trees mean, by the rule that they are of. -/
def Means : Label → List Token → Tree → Prop
  | .test, ts, x => Expresses .test ts x
  | .lambdef, ts, x => Expresses .lambdef ts x
  | .orTest, ts, x => Expresses .orTest ts x
  | .andTest, ts, x => Expresses .andTest ts x
  | .notTest, ts, x => Expresses .notTest ts x
  | .comparison, ts, x => Expresses .comparison ts x
  | .arith, ts, x => Expresses .arith ts x
  | .term, ts, x => Expresses .term ts x
  | .factor, ts, x => Expresses .factor ts x
  | .suffixed, ts, x => Expresses .suffixed ts x
  | .atom, ts, x => Expresses .atom ts x
  | .params, ts, x => Introduces ts x
  | .arguments, ts, x => Supplies ts x
  | .pair, ts, x => ∃ p, transform x = .ok (.entry p.1 p.2) ∧ Keyed p ts
  | .stmt, ts, x | .simpleStmt, ts, x | .compoundStmt, ts, x | .ifStmt, ts, x
  | .whileStmt, ts, x | .forStmt, ts, x | .funcdef, ts, x => States ts [] x
  | .exprStmt, ts, x | .assignStmt, ts, x | .augAssignStmt, ts, x | .returnStmt, ts, x
  | .breakStmt, ts, x | .continueStmt, ts, x | .passStmt, ts, x | .delStmt, ts, x =>
    ∀ {line : Token}, line.kind = .newline → States ts [line] x
  | .suite, ts, x => (∃ colon rest, ts = colon :: rest ∧ colon.is .delimiter ":" = true) ∧
    ∀ {ss us r r'}, Builds (.block ss) us → ts ++ r = us ++ r' →
      us = ts ∧ ∃ ns, transform x = .ok (.nodes ns) ∧ Node.bareList ns = ss
  | .elifClause, ts, x => ∀ {bs e us r r'}, Builds (.branches bs e) us → ts ++ r = us ++ r' →
    NoClause r' → ∃ n ns bs' vs, transform x = .ok (.branch n ns) ∧
      bs = (n.bare, Node.bareList ns) :: bs' ∧ us = ts ++ vs ∧ Builds (.branches bs' e) vs
  | .elseClause, ts, x => ∀ {bs e us r r'}, Builds (.branches bs e) us → ts ++ r = us ++ r' →
    NoClause r' → us = ts ∧ ∃ ns, transform x = .ok (.otherwise ns) ∧ bs = [] ∧
      e = some (Node.bareList ns)
  | .fileInput, ts, x => ∀ {ss}, Builds (.statements ss) ts →
    ∃ ns, transform x = .ok (.node (.program Position.start ns)) ∧ Node.bareList ns = ss
  | _, _, _ => True

/-! ### Items between commas -/

section

variable {α : Type} {P : Label → List Token → Tree → Prop} {item : Expansion} {f : α → Item}
  {D : α → List Token → Prop} {R : List α → List Token → Prop} {ts : List Token} {xs : List Tree}

theorem fits_listed
    (hitem : ∀ {us ys}, Fits P item us ys → ∃ a, D a us ∧ transformAll ys = .ok [f a])
    (hlast : ∀ {a us}, D a us → R [a] us)
    (hmore : ∀ {a us comma as vs}, D a us → comma.is .delimiter "," = true → R as vs →
      R (a :: as) (us ++ comma :: vs)) (h : Fits P (.listed item) ts xs) :
    ∃ as, transformAll xs = .ok (as.map f) ∧ R as ts ∧
      (R [] [] → ∀ comma, comma.is .delimiter "," = true → R as (ts ++ [comma])) := by
  obtain ⟨us, _, ys, _, hfirst, ⟨parts, hparts, rfl, rfl⟩, rfl, rfl⟩ := h
  induction parts generalizing us ys with
  | nil =>
    obtain ⟨a, ha, hys⟩ := hitem hfirst
    refine ⟨[a], by simpa using hys, by simpa using hlast ha, fun hnil comma hcomma => ?_⟩
    simpa using hmore ha hcomma hnil
  | cons p parts ih =>
    obtain ⟨hp, hparts⟩ := List.forall_mem_cons.mp hparts
    obtain ⟨_, vs, _, zs, ⟨comma, hcomma, rfl, rfl⟩, hnext, hts, hxs⟩ := hp
    rw [terminal_delimiter] at hcomma
    obtain ⟨a, ha, hys⟩ := hitem hfirst
    obtain ⟨as, has, hR, hclosed⟩ := ih vs zs hnext hparts
    have hxs : p.2 = zs := hxs
    refine ⟨a :: as, ?_, ?_, fun hnil comma' hcomma' => ?_⟩
    · rw [List.flatMap_cons, hxs]
      exact transformAll_append hys has
    · rw [List.flatMap_cons, hts]
      simpa using hmore ha hcomma hR
    · rw [List.flatMap_cons, hts]
      simpa using hmore ha hcomma (hclosed hnil comma' hcomma')

/-- With a comma after the last item, perhaps. -/
theorem fits_closed
    (hitem : ∀ {us ys}, Fits P item us ys → ∃ a, D a us ∧ transformAll ys = .ok [f a])
    (hnil : R [] []) (hlast : ∀ {a us}, D a us → R [a] us)
    (hmore : ∀ {a us comma as vs}, D a us → comma.is .delimiter "," = true → R as vs →
      R (a :: as) (us ++ comma :: vs))
    (h : Fits P (.both (.listed item) (.optional (.mark ","))) ts xs) :
    ∃ as, transformAll xs = .ok (as.map f) ∧ R as ts := by
  obtain ⟨us, vs, ys, zs, hlisted, hclosing, rfl, rfl⟩ := h
  obtain ⟨as, has, hR, hclosed⟩ := fits_listed hitem hlast hmore hlisted
  refine ⟨as, ?_⟩
  rcases hclosing with ⟨comma, hcomma, rfl, rfl⟩ | ⟨rfl, rfl⟩
  · exact ⟨(congrArg transformAll (List.append_nil ys)).trans has,
      hclosed hnil comma (terminal_delimiter.mp hcomma)⟩
  · rw [List.append_nil, List.append_nil]
    exact ⟨has, hR⟩

end

section

variable {ts whole : List Token} {xs : List Tree} {a : Alternative}

theorem fits_items (h : Fits Means (.both (.listed (.rule .test)) (.optional (.mark ","))) ts xs) :
    ∃ ns : List Node, transformAll xs = .ok (ns.map Item.node) ∧
      Derives Readable (.items (Node.bareList ns)) ts := by
  refine fits_closed (D := fun n us => Derives Readable (.expr .test n.bare) us)
    (R := fun ns us => Derives Readable (.items (Node.bareList ns)) us)
    ?_ .noItems .lastItem .item h
  rintro us ys ⟨x, ⟨n, hx, hn⟩, rfl⟩
  exact ⟨n, hn, transformAll_cons hx rfl⟩

theorem fits_entries
    (h : Fits Means (.both (.listed (.rule .pair)) (.optional (.mark ","))) ts xs) :
    ∃ ps : List (Node × Node), transformAll xs = .ok (ps.map fun p => Item.entry p.1 p.2) ∧
      Derives Readable (.pairs (Node.barePairs ps)) ts := by
  refine fits_closed (D := Keyed)
    (R := fun ps us => Derives Readable (.pairs (Node.barePairs ps)) us)
    ?_ .noPairs ?_ ?_ h
  · rintro us ys ⟨x, ⟨p, hx, hp⟩, rfl⟩
    exact ⟨p, hp, transformAll_cons hx rfl⟩
  · rintro p _ ⟨us, colon, vs, rfl, hcolon, hkey, hvalue⟩
    exact .lastPair hkey hcolon hvalue
  · rintro p _ comma ps ws ⟨us, colon, vs, rfl, hcolon, hkey, hvalue⟩ hcomma hps
    simpa [Node.barePairs] using Derives.pair hkey hcolon hvalue hcomma hps

theorem fits_names {P : Label → List Token → Tree → Prop}
    (h : Fits P (.listed (.token .name)) ts xs) :
    ∃ names : List Token, transformAll xs = .ok (names.map Item.token) ∧
      Names ts (names.map (·.lexeme)) := by
  have hitem {us : List Token} {ys : List Tree} (hfits : Fits P (.token .name) us ys) :
      ∃ t : Token, (us = [t] ∧ t.kind = .identifier) ∧ transformAll ys = .ok [.token t] := by
    obtain ⟨t, ht, rfl, rfl⟩ := hfits
    exact ⟨t, ⟨rfl, (terminal_kind (by simp)).mp ht⟩, rfl⟩
  have hlast {t : Token} {us : List Token} (ht : us = [t] ∧ t.kind = .identifier) :
      Names us [t.lexeme] := by
    obtain ⟨rfl, ht⟩ := ht
    exact .last ht
  have hmore {t comma : Token} {us vs names : List Token} (ht : us = [t] ∧ t.kind = .identifier)
      (hcomma : comma.is .delimiter "," = true) (hnames : Names vs (names.map (·.lexeme))) :
      Names (us ++ comma :: vs) ((t :: names).map (·.lexeme)) := by
    obtain ⟨rfl, ht⟩ := ht
    exact .cons ht hcomma hnames
  obtain ⟨names, hxs, hnames, -⟩ :=
    fits_listed (R := fun names us => Names us (names.map (·.lexeme))) hitem hlast hmore h
  exact ⟨names, hxs, hnames⟩

theorem distinctNames_nodup (seen : List String) (names : List Token)
    (h : (seen ++ names.map (·.lexeme)).Nodup) :
    distinctNames seen names = .ok (seen ++ names.map (·.lexeme)) := by
  induction names generalizing seen with
  | nil => simp [distinctNames, pure, Except.pure]
  | cons t names ih =>
    have hnew : ¬ seen.contains t.lexeme = true := by
      intro hmem
      have hdisjoint := List.nodup_append.mp h
      exact hdisjoint.2.2 t.lexeme (by simpa using hmem) t.lexeme (by simp) rfl
    rw [distinctNames, if_neg hnew, ih]
    · simp
    · simpa using h

theorem mapM_token (names : List Token) : (names.map Item.token).mapM Item.token? = .ok names := by
  induction names with
  | nil => rfl
  | cons t names ih =>
    rw [List.map_cons, List.mapM_cons, ih]
    rfl

/-- Other rules, and alternatives with a label, become what is built of their parts. -/
theorem transform_tree {name : Label} {items : List Item} (P : Making Item → Prop)
    (h : a.label.isSome = true ∨ (grammar name).inline = false) (hxs : transformAll xs = .ok items)
    (hbuild : ∀ pos, P (build pos (a.label.getD name) items)) :
    P (transform (a.tree name ts xs)) := by
  have hbranch (pos : Position) : P (transform (.branch (a.label.getD name) pos xs)) := by
    rw [transform_branch hxs]
    exact hbuild pos
  unfold Alternative.tree
  split
  · next hlabel =>
    rw [if_neg (by simpa [hlabel] using h)]
    exact hbranch _
  · exact hbranch _

theorem params_means (ha : a ∈ (grammar .params).alternatives) (h : Fits Means a.body ts xs) :
    Introduces ts (a.tree .params ts xs) := by
  obtain rfl := List.mem_singleton.mp ha
  obtain ⟨names, hxs, hnames⟩ := fits_names h
  refine ⟨_, hnames, fun hnodup => ?_⟩
  refine transform_tree (· = .ok _) (.inr rfl) hxs fun pos => ?_
  have hdistinct := distinctNames_nodup [] names (by simpa using hnodup)
  rw [List.nil_append] at hdistinct
  rw [Option.getD_none, build, mapM_token]
  change (distinctNames [] names >>= fun names => pure (Item.names names)) = _
  rw [hdistinct]
  rfl

/-! ### Steps -/

/-- An inlined rule gives way to its only part. -/
theorem tree_inline {name : Label} {body : Expansion} {x : Tree}
    (h : (grammar name).inline = true) : Alternative.tree name ⟨body, none⟩ ts [x] = x := by
  simp [Alternative.tree, h]

theorem expresses_branch {name : Label} {items : List Item} {s : Symbol}
    (hbranch : a.label.isSome = true ∨ (grammar name).inline = false)
    (hxs : transformAll xs = .ok items)
    (hbuild : ∀ pos, ∃ n, build pos (a.label.getD name) items = .ok (.node n) ∧
      Derives Readable (.expr s n.bare) ts) : Expresses s ts (a.tree name ts xs) := by
  exact transform_tree
    (fun made => ∃ n, made = .ok (.node n) ∧ Derives Readable (.expr s n.bare) ts)
    hbranch hxs hbuild

theorem expresses_unit {s s' : Symbol} {name next : Label} (hs : s.Includes s')
    (hname : (grammar name).inline = true)
    (hnext : ∀ {us x}, Means next us x → Expresses s' us x)
    (h : Fits Means (.rule next) ts xs) :
    Expresses s ts (Alternative.tree name ⟨.rule next, none⟩ ts xs) := by
  obtain ⟨x, hx, rfl⟩ := h
  obtain ⟨n, hn, hd⟩ := hnext hx
  rw [tree_inline hname]
  exact ⟨n, hn, .unit hs hd⟩

/-- An operator of a layer, and what is built with it. -/
def Operates (s s' : Symbol) (operation : Expansion × Label) : Prop :=
  ∀ ws ys, Fits Means operation.1 ws ys → ∃ op items, Operator s ws op s' ∧
    transformAll ys = .ok items ∧ ∀ pos a b, ∃ p,
      build pos operation.2 (.node a :: (items ++ [.node b])) = .ok (.node (.binaryOp p op a b))

theorem mark_spelled {t : Token} {c : Terminal} (text : String) (h : (c, text) ∈
    [(.plus, "+"), (.minus, "-"), (.star, "*"), (.slash, "/"), (.percent, "%"),
      (.operator "=", "=")]) (ht : t.terminal = c) : t.kind = .operator ∧ t.lexeme = text :=
  is_iff.mp ((terminal_mark h).mp ht)

theorem mark_operates {s s' : Symbol} {c : Terminal} (hc : c.isKept = true)
    (hop : ∀ {t : Token}, t.terminal = c → Operator s [t] t.lexeme s') :
    Operates s s' (.token c, .binop) := by
  rintro _ _ ⟨t, ht, rfl, rfl⟩
  rw [if_pos hc]
  exact ⟨t.lexeme, [.token t], hop ht, rfl, fun pos a b => ⟨t.pos, rfl⟩⟩

theorem word_operates {s s' : Symbol} {word : String} {label : Label}
    (hop : ∀ {t : Token}, t.is .keyword word = true → Operator s [t] word s')
    (hbuild : ∀ pos a b,
      build pos label [.node a, .node b] = .ok (.node (.binaryOp pos word a b))) :
    Operates s s' (.keyword word, label) := by
  rintro _ _ ⟨t, ht, rfl, rfl⟩
  exact ⟨word, [], hop (terminal_keyword.mp ht), rfl, fun pos a b => ⟨pos, hbuild pos a b⟩⟩

theorem layer_expresses {s s' : Symbol} {this next : Label} {operations : List (Expansion × Label)}
    (hs : s.Includes s') (hthis : (grammar this).inline = true)
    (hmeans : ∀ {us x}, Means this us x → Expresses s us x)
    (hnext : ∀ {us x}, Means next us x → Expresses s' us x)
    (hoperations : ∀ o ∈ operations, Operates s s' o)
    (ha : a ∈ (Production.layer this next operations).alternatives)
    (h : Fits Means a.body ts xs) : Expresses s ts (a.tree this ts xs) := by
  rcases List.mem_cons.mp ha with rfl | ha
  · exact expresses_unit hs hthis hnext h
  obtain ⟨⟨operator, label⟩, ho, rfl⟩ := List.mem_map.mp ha
  obtain ⟨us, _, _, _, ⟨x, hx, rfl⟩, ⟨ws, vs, ys, _, hw, ⟨z, hz, rfl⟩, rfl, rfl⟩, rfl, rfl⟩ := h
  obtain ⟨m, hm, hdm⟩ := hmeans hx
  obtain ⟨n, hn, hdn⟩ := hnext hz
  obtain ⟨op, items, hop, hys, hbuild⟩ := hoperations _ ho _ _ hw
  have hitems : transformAll (x :: (ys ++ [z])) = .ok (.node m :: (items ++ [.node n])) :=
    transformAll_cons hm (transformAll_append hys (transformAll_cons hn rfl))
  refine expresses_branch (.inl rfl) hitems fun pos => ?_
  obtain ⟨p, hp⟩ := hbuild pos m n
  refine ⟨_, hp, ?_⟩
  simpa [Node.bare] using Derives.binary hdm hop hdn

theorem test_means (ha : a ∈ (grammar .test).alternatives) (h : Fits Means a.body ts xs) :
    Expresses .test ts (a.tree .test ts xs) := by
  simp only [grammar, List.mem_cons, List.not_mem_nil, or_false] at ha
  rcases ha with rfl | rfl
  · exact expresses_unit .orTest rfl id h
  · exact expresses_unit .lambdef rfl id h

theorem orTest_means (ha : a ∈ (grammar .orTest).alternatives) (h : Fits Means a.body ts xs) :
    Expresses .orTest ts (a.tree .orTest ts xs) :=
  layer_expresses .andTest rfl id id
    (List.forall_mem_singleton.mpr (word_operates .or fun _ _ _ => rfl)) ha h

theorem andTest_means (ha : a ∈ (grammar .andTest).alternatives) (h : Fits Means a.body ts xs) :
    Expresses .andTest ts (a.tree .andTest ts xs) :=
  layer_expresses .notTest rfl id id
    (List.forall_mem_singleton.mpr (word_operates .and fun _ _ _ => rfl)) ha h

theorem notTest_means (ha : a ∈ (grammar .notTest).alternatives) (h : Fits Means a.body ts xs) :
    Expresses .notTest ts (a.tree .notTest ts xs) := by
  simp only [grammar, List.mem_cons, List.not_mem_nil, or_false] at ha
  rcases ha with rfl | rfl
  · exact expresses_unit .comparison rfl id h
  · obtain ⟨_, us, _, _, ⟨t, ht, rfl, rfl⟩, ⟨x, ⟨n, hn, hd⟩, rfl⟩, rfl, rfl⟩ := h
    exact expresses_branch (.inl rfl) (transformAll_cons hn rfl) fun pos =>
      ⟨_, rfl, .negation (terminal_keyword.mp ht) hd⟩

theorem comparison_means (ha : a ∈ (grammar .comparison).alternatives)
    (h : Fits Means a.body ts xs) : Expresses .comparison ts (a.tree .comparison ts xs) := by
  refine layer_expresses .arith rfl id id ?_ ha h
  simp only [List.forall_mem_cons, List.not_mem_nil, false_implies, implies_true, and_true]
  refine ⟨mark_operates rfl fun ht => ?_, word_operates .within fun _ _ _ => rfl, ?_⟩
  · obtain ⟨hk, hl⟩ := terminal_comparison.mp ht
    exact .compare hk hl
  · rintro _ _ ⟨_, _, _, _, ⟨t, ht, rfl, rfl⟩, ⟨u, hu, rfl, rfl⟩, rfl, rfl⟩
    exact ⟨_, [], .without (terminal_keyword.mp ht) (terminal_keyword.mp hu), rfl,
      fun pos a b => ⟨pos, rfl⟩⟩

theorem arith_means (ha : a ∈ (grammar .arith).alternatives) (h : Fits Means a.body ts xs) :
    Expresses .arith ts (a.tree .arith ts xs) := by
  refine layer_expresses .term rfl id id ?_ ha h
  simp only [List.forall_mem_cons, List.not_mem_nil, false_implies, implies_true, and_true]
  refine ⟨mark_operates rfl fun ht => ?_, mark_operates rfl fun ht => ?_⟩
  · obtain ⟨hk, hl⟩ := mark_spelled "+" (by simp) ht
    exact .sum hk (by simp [hl])
  · obtain ⟨hk, hl⟩ := mark_spelled "-" (by simp) ht
    exact .sum hk (by simp [hl])

theorem term_means (ha : a ∈ (grammar .term).alternatives) (h : Fits Means a.body ts xs) :
    Expresses .term ts (a.tree .term ts xs) := by
  refine layer_expresses .factor rfl id id ?_ ha h
  simp only [List.forall_mem_cons, List.not_mem_nil, false_implies, implies_true, and_true]
  refine ⟨mark_operates rfl fun ht => ?_, mark_operates rfl fun ht => ?_,
    mark_operates rfl fun ht => ?_⟩
  · obtain ⟨hk, hl⟩ := mark_spelled "*" (by simp) ht
    exact .product hk (by simp [hl])
  · obtain ⟨hk, hl⟩ := mark_spelled "/" (by simp) ht
    exact .product hk (by simp [hl])
  · obtain ⟨hk, hl⟩ := mark_spelled "%" (by simp) ht
    exact .product hk (by simp [hl])

theorem factor_means (ha : a ∈ (grammar .factor).alternatives) (h : Fits Means a.body ts xs) :
    Expresses .factor ts (a.tree .factor ts xs) := by
  simp only [grammar, List.mem_cons, List.not_mem_nil, or_false] at ha
  rcases ha with rfl | rfl
  · exact expresses_unit .suffixed rfl id h
  · obtain ⟨_, us, _, _, ⟨t, ht, rfl, rfl⟩, ⟨x, ⟨n, hn, hd⟩, rfl⟩, rfl, rfl⟩ := h
    exact expresses_branch (.inl rfl) (transformAll_cons rfl (transformAll_cons hn rfl)) fun pos =>
      ⟨_, rfl, .minus ((terminal_mark (by simp)).mp ht) hd⟩

theorem suffixed_means (ha : a ∈ (grammar .suffixed).alternatives) (h : Fits Means a.body ts xs) :
    Expresses .suffixed ts (a.tree .suffixed ts xs) := by
  simp only [grammar, List.mem_cons, List.not_mem_nil, or_false] at ha
  rcases ha with rfl | rfl | rfl | rfl
  · exact expresses_unit .atom rfl id h
  · obtain ⟨us, _, _, _, ⟨x, ⟨f, hf, hdf⟩, rfl⟩, ⟨_, _, _, _, ⟨t, ht, rfl, rfl⟩,
      ⟨vs, _, ys, _, harguments, ⟨u, hu, rfl, rfl⟩, rfl, rfl⟩, rfl, rfl⟩, rfl, rfl⟩ := h
    have hopen := terminal_delimiter.mp ht
    have hclose := terminal_delimiter.mp hu
    rcases harguments with ⟨y, ⟨ns, hns, hdn⟩, rfl⟩ | ⟨rfl, rfl⟩
    · refine expresses_branch (.inl rfl)
        (transformAll_cons hf (transformAll_cons hns rfl)) fun pos =>
        ⟨_, rfl, ?_⟩
      simpa [Node.bare] using Derives.call hdf hopen hdn hclose
    · refine expresses_branch (.inl rfl) (transformAll_cons hf rfl) fun pos => ⟨_, rfl, ?_⟩
      simpa [Node.bare, Node.bareList] using Derives.call hdf hopen .noItems hclose
  · obtain ⟨us, _, _, _, ⟨x, ⟨m, hm, hdm⟩, rfl⟩, ⟨_, _, _, _, ⟨t, ht, rfl, rfl⟩,
      ⟨vs, _, _, _, ⟨y, ⟨i, hi, hdi⟩, rfl⟩, ⟨u, hu, rfl, rfl⟩, rfl, rfl⟩, rfl, rfl⟩, rfl, rfl⟩ := h
    refine expresses_branch (.inl rfl) (transformAll_cons hm (transformAll_cons hi rfl)) fun pos =>
      ⟨_, rfl, ?_⟩
    simpa [Node.bare] using
      Derives.index hdm (terminal_delimiter.mp ht) hdi (terminal_delimiter.mp hu)
  · obtain ⟨us, _, _, _, ⟨x, ⟨m, hm, hdm⟩, rfl⟩, ⟨_, _, _, _, ⟨t, ht, rfl, rfl⟩,
      ⟨u, hu, rfl, rfl⟩, rfl, rfl⟩, rfl, rfl⟩ := h
    exact expresses_branch (.inl rfl) (transformAll_cons hm (transformAll_cons rfl rfl)) fun pos =>
      ⟨_, rfl, .member hdm (terminal_delimiter.mp ht) ((terminal_kind (by simp)).mp hu)⟩

theorem arguments_means (ha : a ∈ (grammar .arguments).alternatives)
    (h : Fits Means a.body ts xs) : Supplies ts (a.tree .arguments ts xs) := by
  obtain rfl := List.mem_singleton.mp ha
  obtain ⟨ns, hxs, hns⟩ := fits_items h
  refine ⟨ns, transform_tree (· = .ok _) (.inr rfl) hxs fun pos => ?_, hns⟩
  rw [Option.getD_none, build, mapM_node]
  rfl

theorem pair_means (ha : a ∈ (grammar .pair).alternatives) (h : Fits Means a.body ts xs) :
    Means .pair ts (a.tree .pair ts xs) := by
  obtain rfl := List.mem_singleton.mp ha
  obtain ⟨us, _, _, _, ⟨x, ⟨m, hm, hdm⟩, rfl⟩, ⟨_, vs, _, _, ⟨t, ht, rfl, rfl⟩,
    ⟨y, ⟨n, hn, hdn⟩, rfl⟩, rfl, rfl⟩, rfl, rfl⟩ := h
  refine ⟨(m, n), ?_, us, t, vs, rfl, terminal_delimiter.mp ht, hdm, hdn⟩
  exact transform_tree (· = .ok _) (.inr rfl) (transformAll_cons hm (transformAll_cons hn rfl))
    fun pos => rfl

/-- The names before a closing mark are determined. -/
theorem names_unique {us vs r r' : List Token} {names names' : List String} {close : String}
    {t t' : Token} (hu : Names us names) (hv : Names vs names')
    (ht : t.is .delimiter close = true) (ht' : t'.is .delimiter close = true) (hclose : close ≠ ",")
    (h : us ++ t :: r = vs ++ t' :: r') : us = vs ∧ names = names' ∧ t :: r = t' :: r' := by
  obtain ⟨hk, hl⟩ := is_iff.mp ht
  obtain ⟨hk', hl'⟩ := is_iff.mp ht'
  induction hu generalizing vs names' with
  | nil =>
    cases hv with
    | nil => exact ⟨rfl, rfl, h⟩
    | last hname | cons hname =>
      obtain ⟨rfl, -⟩ := List.cons.inj h
      exact nomatch hk.symm.trans hname
  | last hname =>
    cases hv with
    | nil =>
      obtain ⟨rfl, -⟩ := List.cons.inj h
      exact nomatch hk'.symm.trans hname
    | last =>
      obtain ⟨rfl, hrest⟩ := List.cons.inj h
      exact ⟨rfl, rfl, hrest⟩
    | cons _ hcomma =>
      obtain ⟨-, hrest⟩ := List.cons.inj h
      obtain ⟨rfl, -⟩ := List.cons.inj hrest
      exact absurd (hl.symm.trans (is_iff.mp hcomma).2) hclose
  | cons hname hcomma _ ih =>
    cases hv with
    | nil =>
      obtain ⟨rfl, -⟩ := List.cons.inj h
      exact nomatch hk'.symm.trans hname
    | last =>
      obtain ⟨-, hrest⟩ := List.cons.inj h
      obtain ⟨rfl, -⟩ := List.cons.inj hrest
      exact absurd (hl'.symm.trans (is_iff.mp hcomma).2) hclose
    | cons _ _ hmore =>
      obtain ⟨rfl, htail⟩ := List.cons.inj h
      obtain ⟨rfl, hrest⟩ := List.cons.inj htail
      obtain ⟨rfl, rfl, hend⟩ := ih hmore hrest
      exact ⟨rfl, rfl, hend⟩

theorem lambdef_means (hsensible : Sensible whole) (hts : ts <:+: whole)
    (ha : a ∈ (grammar .lambdef).alternatives) (h : Fits Means a.body ts xs) :
    Expresses .lambdef ts (a.tree .lambdef ts xs) := by
  obtain rfl := List.mem_singleton.mp ha
  obtain ⟨_, _, _, _, ⟨t, ht, rfl, rfl⟩, ⟨us, _, ys, _, hparams,
    ⟨_, vs, _, _, ⟨colon, hcolon, rfl, rfl⟩, ⟨y, ⟨n, hn, hd⟩, rfl⟩, rfl, rfl⟩, rfl, rfl⟩,
    rfl, rfl⟩ := h
  rw [terminal_keyword] at ht
  rw [terminal_delimiter] at hcolon
  have hnodup {names : List String} (hnames : Names us names) : names.Nodup := by
    obtain ⟨front, back, rfl⟩ := hts
    obtain ⟨us', names', colon', vs', hback, hnames', hnodup, hcolon'⟩ :=
      hsensible.lambdas front (us ++ colon :: (vs ++ back)) t (by simp) ht
    obtain ⟨-, rfl, -⟩ := names_unique hnames hnames' hcolon hcolon' (by decide) hback
    exact hnodup
  rcases hparams with ⟨x, ⟨names, hnames, hx⟩, rfl⟩ | ⟨rfl, rfl⟩
  · have hlambda := Derives.lambda ht hnames (hnodup hnames) hcolon hd
    exact expresses_branch (.inr rfl) (transformAll_cons (hx (hnodup hnames))
      (transformAll_cons hn rfl)) fun pos => ⟨_, rfl, hlambda⟩
  · have hlambda := Derives.lambda ht .nil List.nodup_nil hcolon hd
    exact expresses_branch (.inr rfl) (transformAll_cons hn rfl) fun pos => ⟨_, rfl, hlambda⟩

/-- A leaf becomes what its token is read as. -/
theorem leaf_expresses {name : Label} {t : Token} (hlabel : a.label.isSome = true)
    {items : List Item} (hxs : transformAll xs = .ok items)
    (hbuild : ∀ pos, ∃ n e, build pos (a.label.getD name) items = .ok (.node n) ∧
      Parser.atom? t = some (.ok e) ∧ e.bare = n.bare) :
    Expresses .atom [t] (a.tree name [t] xs) := by
  refine expresses_branch (.inl hlabel) hxs fun pos => ?_
  obtain ⟨n, e, hn, he, hbare⟩ := hbuild pos
  exact ⟨n, hn, .leaf ⟨e, hbare, he⟩⟩

theorem integer_leaf {t : Token} (hk : t.kind = .integer)
    (hl : Parser.atom? t ≠ some (.error (.invalidInteger t.lexeme))) (pos : Position) :
    ∃ n e, build pos .integer [.token t] = .ok (.node n) ∧ Parser.atom? t = some (.ok e) ∧
      e.bare = n.bare := by
  cases hread : Number.readInteger? t.lexeme.toList with
  | none => simp [Parser.atom?, hk, hread] at hl
  | some n =>
    refine ⟨.literal pos (.integer n) "Integer", .literal t.pos (.integer n) "Integer", ?_, ?_, rfl⟩
    · simp [build, expressionOf, integerLiteral, hread, pure, Except.pure, Functor.map, Except.map]
    · simp [Parser.atom?, hk, hread]

theorem float_leaf {t : Token} (hk : t.kind = .float)
    (hl : Parser.atom? t ≠ some (.error (.invalidFloat t.lexeme))) (pos : Position) :
    ∃ n e, build pos .floatLit [.token t] = .ok (.node n) ∧ Parser.atom? t = some (.ok e) ∧
      e.bare = n.bare := by
  cases hread : Number.readFloat? t.lexeme.toList with
  | none => simp [Parser.atom?, hk, hread] at hl
  | some x =>
    refine ⟨.literal pos (.float x) "Float", .literal t.pos (.float x) "Float", ?_, ?_, rfl⟩
    · simp [build, expressionOf, floatLiteral, hread, pure, Except.pure, Functor.map, Except.map]
    · simp [Parser.atom?, hk, hread]

/-- Items in brackets, if there are any. -/
theorem listLit_expresses (hlabel : a.label = some .listLit)
    (h : Fits Means (.all [.mark "[", .optional (.both (.listed (.rule .test))
      (.optional (.mark ","))), .mark "]"]) ts xs) :
    Expresses .atom ts (a.tree .atom ts xs) := by
  obtain ⟨_, _, _, _, ⟨t, ht, rfl, rfl⟩, ⟨us, _, ys, _, hitems, ⟨u, hu, rfl, rfl⟩, rfl, rfl⟩,
    rfl, rfl⟩ := h
  obtain ⟨ns, hys, hns⟩ : ∃ ns : List Node, transformAll ys = .ok (ns.map Item.node) ∧
      Derives Readable (.items (Node.bareList ns)) us := by
    rcases hitems with hitems | ⟨rfl, rfl⟩
    · exact fits_items hitems
    · exact ⟨[], rfl, .noItems⟩
  have hxs : transformAll (ys ++ []) = .ok (ns.map Item.node) := by rwa [List.append_nil]
  refine expresses_branch (.inl (by rw [hlabel]; rfl)) hxs fun pos =>
    ⟨.listLiteral pos ns, ?_, .list (terminal_delimiter.mp ht) hns (terminal_delimiter.mp hu)⟩
  simp only [hlabel, Option.getD_some, build, expressionOf, mapM_node]
  rfl

/-- Pairs in braces, if there are any. -/
theorem mapLit_expresses (hlabel : a.label = some .mapLit)
    (h : Fits Means (.all [.mark "\x7b", .optional (.both (.listed (.rule .pair))
      (.optional (.mark ","))), .mark "\x7d"]) ts xs) :
    Expresses .atom ts (a.tree .atom ts xs) := by
  obtain ⟨_, _, _, _, ⟨t, ht, rfl, rfl⟩, ⟨us, _, ys, _, hentries, ⟨u, hu, rfl, rfl⟩, rfl, rfl⟩,
    rfl, rfl⟩ := h
  obtain ⟨ps, hys, hps⟩ : ∃ ps : List (Node × Node),
      transformAll ys = .ok (ps.map fun p => Item.entry p.1 p.2) ∧
      Derives Readable (.pairs (Node.barePairs ps)) us := by
    rcases hentries with hentries | ⟨rfl, rfl⟩
    · exact fits_entries hentries
    · exact ⟨[], rfl, .noPairs⟩
  have hxs : transformAll (ys ++ []) = .ok (ps.map fun p => Item.entry p.1 p.2) := by
    rwa [List.append_nil]
  refine expresses_branch (.inl (by rw [hlabel]; rfl)) hxs fun pos =>
    ⟨.mapLiteral pos ps, ?_, .map (terminal_delimiter.mp ht) hps (terminal_delimiter.mp hu)⟩
  simp only [hlabel, Option.getD_some, build, expressionOf, mapM_entry]
  rfl

theorem atom_means (hsensible : Sensible whole) (hts : ts <:+: whole)
    (ha : a ∈ (grammar .atom).alternatives) (h : Fits Means a.body ts xs) :
    Expresses .atom ts (a.tree .atom ts xs) := by
  simp only [grammar, List.mem_cons, List.not_mem_nil, or_false] at ha
  rcases ha with rfl | rfl | rfl | rfl | rfl | rfl | rfl | rfl | rfl | rfl
  · obtain ⟨t, ht, rfl, rfl⟩ := h
    have hk : t.kind = .identifier := (terminal_kind (by simp)).mp ht
    exact leaf_expresses rfl (transformAll_cons rfl rfl) fun pos =>
      ⟨_, .identifier t.pos t.lexeme, rfl, by simp [Parser.atom?, hk], rfl⟩
  · obtain ⟨t, ht, rfl, rfl⟩ := h
    have hlegible := hsensible.legible t (hts.subset (List.mem_singleton_self t))
    exact leaf_expresses rfl (transformAll_cons rfl rfl)
      (integer_leaf ((terminal_kind (by simp)).mp ht) (hlegible _))
  · obtain ⟨t, ht, rfl, rfl⟩ := h
    have hlegible := hsensible.legible t (hts.subset (List.mem_singleton_self t))
    exact leaf_expresses rfl (transformAll_cons rfl rfl)
      (float_leaf ((terminal_kind (by simp)).mp ht) (hlegible _))
  · obtain ⟨t, ht, rfl, rfl⟩ := h
    have hk : t.kind = .string := (terminal_kind (by simp)).mp ht
    exact leaf_expresses rfl (transformAll_cons rfl rfl) fun pos =>
      ⟨_, .literal t.pos (.string (stringValue t.lexeme)) "String", rfl,
        by simp [Parser.atom?, hk], rfl⟩
  · obtain ⟨t, ht, rfl, rfl⟩ := h
    obtain ⟨hk, hl⟩ := is_iff.mp (terminal_keyword.mp ht)
    exact leaf_expresses rfl rfl fun pos =>
      ⟨_, .literal t.pos (.boolean true) "Boolean", rfl, by simp [Parser.atom?, hk, hl], rfl⟩
  · obtain ⟨t, ht, rfl, rfl⟩ := h
    obtain ⟨hk, hl⟩ := is_iff.mp (terminal_keyword.mp ht)
    exact leaf_expresses rfl rfl fun pos =>
      ⟨_, .literal t.pos (.boolean false) "Boolean", rfl, by simp [Parser.atom?, hk, hl], rfl⟩
  · obtain ⟨t, ht, rfl, rfl⟩ := h
    obtain ⟨hk, hl⟩ := is_iff.mp (terminal_keyword.mp ht)
    exact leaf_expresses rfl rfl fun pos =>
      ⟨_, .literal t.pos .null "None", rfl, by simp [Parser.atom?, hk, hl], rfl⟩
  · obtain ⟨_, _, _, _, ⟨t, ht, rfl, rfl⟩, ⟨us, _, _, _, ⟨x, ⟨n, hn, hd⟩, rfl⟩, ⟨u, hu, rfl, rfl⟩,
      rfl, rfl⟩, rfl, rfl⟩ := h
    exact ⟨n, hn, .parens (terminal_delimiter.mp ht) hd (terminal_delimiter.mp hu)⟩
  · exact listLit_expresses rfl h
  · exact mapLit_expresses rfl h

end

end Offside.Reference
