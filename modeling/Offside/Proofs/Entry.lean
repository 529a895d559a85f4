import Offside.Command.Entry
import Offside.Proofs.Lexer.Coverage

/-!
Brackets of an interactive entry. The lexer counts the brackets that are tokens, and one that closes
nothing counts for nothing; an entry is held to be whole by all the brackets of its text. The two
counts differ by the closing brackets without a partner, and by the brackets that are no tokens of
their own: those of strings, of comments and of text that is dropped.
-/

namespace Offside

open Command Lexer

instance (p : Position) (text : List Char) (n : Nat) : Decidable (p.Denotes text n) :=
  decidable_of_iff _ Position.denotes_iff.symm

namespace Token

instance (t : Token) (text : List Char) (n : Nat) : Decidable (t.Sliced text n) :=
  decidable_of_iff
    (t.pos.Denotes text n ∧ (text.drop n).take t.lexeme.toList.length = t.lexeme.toList)
    ⟨fun h => ⟨h.1, h.2⟩, fun h => ⟨h.1, h.2⟩⟩

instance (t : Token) (text : List Char) (i : Nat) : Decidable (t.Covers text i) :=
  decidable_of_iff (∃ n, n ≤ i ∧ t.Sliced text n ∧ i < n + t.lexeme.toList.length)
    (exists_congr fun _ => and_left_comm)

/-- Brackets stand in strings, or each is a delimiter of its own. -/
def BracketsApart (t : Token) : Prop :=
  ∀ c ∈ t.lexeme.toList, IsBracket c →
    t.kind = .string ∨ t.kind = .delimiter ∧ t.lexeme.toList = [c]

def Closes (t : Token) : Prop :=
  t.kind = .delimiter ∧ ∃ c ∈ closeBrackets, t.lexeme.toList = [c]

instance (t : Token) : Decidable t.Closes :=
  -- looks among the brackets, not among all characters
  @instDecidableAnd _ _ _ (List.decidableBEx _ _)

/-- Brackets opened less brackets closed by a token. -/
def depth (t : Token) : Int :=
  if t.kind = .delimiter then bracketDepth t.lexeme.toList else 0

end Token

namespace Command

theorem bracketDepth_append (cs ds : List Char) :
    bracketDepth (cs ++ ds) = bracketDepth cs + bracketDepth ds := by
  simp only [bracketDepth, List.countP_append, Int.natCast_add]
  omega

theorem bracketDepth_plain {cs : List Char} (h : ∀ c ∈ cs, ¬ IsBracket c) :
    bracketDepth cs = 0 := by
  have hnone : ∀ brackets ⊆ openBrackets ++ closeBrackets,
      cs.countP (brackets.contains ·) = 0 := by
    intro brackets hsub
    refine List.countP_eq_zero.mpr fun c hc hin => h c hc (hsub ?_)
    simpa using hin
  rw [bracketDepth, hnone _ (List.subset_append_left _ _), hnone _ (List.subset_append_right _ _)]
  rfl

end Command

namespace Lexer

variable {text before taken cs : List Char} {ts us : List Token} {t : Token} {i n : Nat}

/-! ### Brackets of tokens -/

def delimiterDepth (ts : List Token) : Int := (ts.map Token.depth).sum

/-- The closing brackets without a partner, where some brackets are open already. -/
def unpairedFrom (depth : Nat) : List Token → Nat
  | [] => 0
  | t :: ts =>
    (if t.Closes ∧ depth = 0 then 1 else 0) + unpairedFrom (wordDepth depth t.word) ts

def unpaired (ts : List Token) : Nat := unpairedFrom 0 ts

theorem delimiterDepth_append (ts us : List Token) :
    delimiterDepth (ts ++ us) = delimiterDepth ts + delimiterDepth us := by
  simp [delimiterDepth]

theorem delimiterDepth_reverse (ts : List Token) :
    delimiterDepth ts.reverse = delimiterDepth ts := by
  simp [delimiterDepth, List.sum_reverse]

theorem delimiterDepth_none (h : ∀ t ∈ ts, t.kind ≠ .delimiter) : delimiterDepth ts = 0 := by
  refine List.sum_eq_zero fun d hd => ?_
  obtain ⟨t, ht, rfl⟩ := List.mem_map.mp hd
  exact if_neg (h t ht)

/-- A delimiter changes the depth by its brackets, but for one that closes nothing. -/
theorem depthAfter_eq (depth : Nat) (c : Char) : (depthAfter depth c : Int) =
    depth + bracketDepth [c] + (if c ∈ closeBrackets ∧ depth = 0 then 1 else 0 : Nat) := by
  have hopens : ∀ c ∈ openBrackets, bracketDepth [c] = 1 ∧ c ∉ closeBrackets :=
    List.all_iff_forall_prop.mp (by decide)
  have hcloses : ∀ c ∈ closeBrackets, bracketDepth [c] = -1 :=
    List.all_iff_forall_prop.mp (by decide)
  unfold depthAfter
  simp only [List.contains_iff_mem]
  by_cases hopen : c ∈ openBrackets
  · obtain ⟨hdepth, hclose⟩ := hopens c hopen
    rw [if_pos hopen, hdepth, if_neg fun h => hclose h.1]
    rfl
  · rw [if_neg hopen]
    by_cases hclose : c ∈ closeBrackets
    · rw [if_pos hclose, hcloses c hclose]
      by_cases hzero : depth = 0
      · rw [if_pos ⟨hclose, hzero⟩, hzero]
        rfl
      · rw [if_neg fun h => hzero h.2]
        omega
    · have hplain : ∀ d ∈ [c], ¬ IsBracket d :=
        List.forall_mem_singleton.mpr fun h => (List.mem_append.mp h).elim hopen hclose
      rw [if_neg hclose, bracketDepth_plain hplain, if_neg fun h => hclose h.1]
      simp

theorem closes_iff {c : Char} (hk : t.kind = .delimiter) (hlexeme : t.lexeme.toList = [c]) :
    t.Closes ↔ c ∈ closeBrackets := by
  simp [Token.Closes, hk, hlexeme]

theorem wordDepth_eq (ht : t.BracketsApart) (depth : Nat) : (wordDepth depth t.word : Int) =
    depth + t.depth + (if t.Closes ∧ depth = 0 then 1 else 0 : Nat) := by
  by_cases hk : t.kind = .delimiter
  · by_cases hone : ∃ c, t.lexeme.toList = [c]
    · obtain ⟨c, hlexeme⟩ := hone
      have hword : wordDepth depth t.word = depthAfter depth c := by
        simp [wordDepth, Token.word, hk, hlexeme]
      rw [hword, depthAfter_eq, Token.depth, if_pos hk, hlexeme]
      simp only [closes_iff hk hlexeme]
    · have hplain : ∀ c ∈ t.lexeme.toList, ¬ IsBracket c := fun c hc hbracket =>
        hone ⟨c, ((ht c hc hbracket).resolve_left (by simp [hk])).2⟩
      have hword : wordDepth depth t.word = depth := by
        unfold wordDepth
        split
        · next c _ hlexeme => exact absurd ⟨c, hlexeme⟩ hone
        · rfl
      rw [hword, Token.depth, if_pos hk, bracketDepth_plain hplain,
        if_neg fun h => hone (h.1.2.imp fun _ hc => hc.2)]
      simp
  · rw [wordDepth_of_kind hk, Token.depth, if_neg hk, if_neg fun h => hk h.1.1]
    simp

theorem foldl_depth (h : ∀ t ∈ ts, t.BracketsApart) (depth : Nat) :
    (((ts.map Token.word).foldl wordDepth depth : Nat) : Int) =
      depth + delimiterDepth ts + unpairedFrom depth ts := by
  induction ts generalizing depth with
  | nil => simp [delimiterDepth, unpairedFrom]
  | cons t ts ih =>
    obtain ⟨ht, hts⟩ := List.forall_mem_cons.mp h
    have hstep := wordDepth_eq ht depth
    rw [List.map_cons, List.foldl_cons, ih hts, unpairedFrom, hstep]
    simp only [delimiterDepth, List.map_cons, List.sum_cons]
    push_cast
    ring

/-- What is open is what the tokens open and do not close, counted from the last time that nothing
was. -/
theorem bracketsOpen_eq (h : ∀ t ∈ ts, t.BracketsApart) :
    (bracketsOpen ts : Int) = delimiterDepth ts + unpaired ts := by
  rw [bracketsOpen, foldl_depth h, unpaired, Int.natCast_zero, Int.zero_add]

theorem bracketsOpen_append (h : ∀ t ∈ us, t.kind ≠ .delimiter) :
    bracketsOpen (ts ++ us) = bracketsOpen ts := by
  induction us using List.reverseRecOn with
  | nil => rw [List.append_nil]
  | append_singleton us t ih =>
    obtain ⟨hus, ht⟩ := List.forall_mem_append.mp h
    have hk : t.kind ≠ .delimiter := ht t List.mem_cons_self
    rw [← List.append_assoc, bracketsOpen_concat, ih hus, wordDepth_of_kind hk]

/-! ### Text in no delimiter -/

/-- In no delimiter of a list. -/
def Inert (text : List Char) (ts : List Token) (i : Nat) : Prop :=
  ∀ t ∈ ts, t.kind = .delimiter → ¬ t.Covers text i

instance (text : List Char) (ts : List Token) (i : Nat) : Decidable (Inert text ts i) :=
  inferInstanceAs (Decidable (∀ t ∈ ts, _))

/-- The characters in no delimiter, of a part of the text. -/
def inertFrom (text : List Char) (ts : List Token) (n : Nat) (part : List Char) : List Char :=
  ((part.zipIdx n).filter fun x => Inert text ts x.2).map (·.1)

def inert (text : List Char) (ts : List Token) : List Char := inertFrom text ts 0 text

theorem inert_append :
    Inert text (ts ++ us) i ↔ Inert text ts i ∧ Inert text us i := List.forall_mem_append

theorem inert_none (h : ∀ t ∈ ts, t.kind ≠ .delimiter) : Inert text ts i :=
  fun t ht hk => absurd hk (h t ht)

theorem inertFrom_append (cs ds : List Char) :
    inertFrom text ts n (cs ++ ds) =
      inertFrom text ts n cs ++ inertFrom text ts (n + cs.length) ds := by
  simp [inertFrom, List.zipIdx_append]

theorem inertFrom_congr
    (h : ∀ i, n ≤ i → i < n + cs.length → (Inert text ts i ↔ Inert text us i)) :
    inertFrom text ts n cs = inertFrom text us n cs := by
  unfold inertFrom
  congr 1
  refine List.filter_congr fun x hx => ?_
  have := List.mem_zipIdx hx
  exact decide_eq_decide.mpr (h x.2 this.1 this.2.1)

theorem inertFrom_all (h : ∀ i, n ≤ i → i < n + cs.length → Inert text ts i) :
    inertFrom text ts n cs = cs := by
  have hall : (cs.zipIdx n).filter (fun x => Inert text ts x.2) = cs.zipIdx n := by
    refine List.filter_eq_self.mpr fun x hx => ?_
    have := List.mem_zipIdx hx
    exact decide_eq_true (h x.2 this.1 this.2.1)
  rw [inertFrom, hall]
  exact List.zipIdx_map_fst n cs

theorem inertFrom_nil (h : ∀ i, n ≤ i → i < n + cs.length → ¬ Inert text ts i) :
    inertFrom text ts n cs = [] := by
  have hnone : (cs.zipIdx n).filter (fun x => Inert text ts x.2) = [] := by
    refine List.filter_eq_nil_iff.mpr fun x hx => ?_
    have := List.mem_zipIdx hx
    simpa using h x.2 this.1 this.2.1
  rw [inertFrom, hnone, List.map_nil]

/-! ### Brackets of a reading -/

/-- The tokens of a turn are no delimiters, or there is one, which is all that the turn takes. -/
def Delimits (text taken : List Char) (n : Nat) (new : List Token) : Prop :=
  (∀ t ∈ new, t.kind ≠ .delimiter) ∨
    ∃ t, new = [t] ∧ t.kind = .delimiter ∧ t.lexeme.toList = taken ∧ t.Sliced text n

/-- What a turn takes is in its delimiter, or in none. -/
theorem Delimits.depth_eq (h : Delimits text taken n ts) :
    bracketDepth taken =
      delimiterDepth ts + bracketDepth (inertFrom text ts n taken) := by
  rcases h with hnone | ⟨t, rfl, hk, hlexeme, hsliced⟩
  · rw [delimiterDepth_none hnone, inertFrom_all fun i _ _ => inert_none hnone, Int.zero_add]
  · have hcovered : ∀ i, n ≤ i → i < n + taken.length → ¬ Inert text [t] i := by
      intro i hi hi' hinert
      exact hinert t List.mem_cons_self hk ⟨_, hsliced, hi, by rwa [hlexeme]⟩
    rw [inertFrom_nil hcovered]
    simp [delimiterDepth, Token.depth, hk, hlexeme, bracketDepth]

namespace Scan

variable {a b s : Scan} {new : List Token}

theorem Takes.delimits (ht : Takes text before taken a b) (hnew : b.tokens = new ++ a.tokens) :
    Delimits text taken before.length new := by
  have hsame (us : List Token) (h : b.tokens = us ++ a.tokens) : new = us :=
    List.append_cancel_right (hnew.symm.trans h)
  have hturn := ht.turn
  cases hturn with
  | void _ _ _ | space _ _ _ | comment _ _ _ _ =>
    rw [hsame [] rfl]
    exact .inl (List.forall_mem_nil _)
  | deeper _ _ =>
    rw [hsame [_] rfl]
    exact .inl (List.forall_mem_singleton.mpr (by simp))
  | @back _ _ _ inner _ _ _ _ _ =>
    rw [hsame (List.replicate inner.length _) rfl]
    refine .inl fun t ht => ?_
    rw [List.eq_of_mem_replicate ht]
    simp
  | newline _ _ _ =>
    rw [hsame [_] rfl]
    exact .inl (List.forall_mem_singleton.mpr (by simp))
  | @word kind cs rest _ hrest _ =>
    obtain rfl : taken = cs := List.append_cancel_right (ht.rest.symm.trans hrest)
    rw [hsame [⟨kind, String.ofList taken, a.pos⟩] rfl]
    by_cases hk : kind = .delimiter
    · exact .inr ⟨_, rfl, hk, String.toList_ofList, ht.here.sliced hrest kind⟩
    · exact .inl (List.forall_mem_singleton.mpr hk)

/-- The text so far has the brackets of the delimiters so far and those that are in none. -/
def Balanced (text before : List Char) (s : Scan) : Prop :=
  bracketDepth before =
    delimiterDepth s.tokens + bracketDepth (inertFrom text s.tokens 0 before)

theorem turn_balanced (h : Balanced text before a) (ht : Takes text before taken a b) :
    Balanced text (before ++ taken) b := by
  obtain ⟨new, hnew, hfrom⟩ := turn_adds ht.here ht.turn
  have htaken := (ht.delimits hnew).depth_eq
  have hbefore : inertFrom text b.tokens 0 before = inertFrom text a.tokens 0 before := by
    refine inertFrom_congr fun i _ hi => ?_
    rw [hnew, inert_append]
    exact and_iff_right fun t ht _ => hfrom.not_covers (by simpa using hi) t ht
  have hlater : inertFrom text b.tokens before.length taken =
      inertFrom text new before.length taken := by
    refine inertFrom_congr fun i hi _ => ?_
    rw [hnew, inert_append]
    exact and_iff_left fun t hmem _ => ht.here.tiled.not_covers hi t hmem
  unfold Balanced at h ⊢
  rw [bracketDepth_append, inertFrom_append, Nat.zero_add, hbefore, hlater, bracketDepth_append, h,
    htaken, hnew, delimiterDepth_append]
  ring

theorem reads_balanced (h : Reads (start text) s) :
    ∃ before, s.Placed text before ∧ Balanced text before s := by
  induction h with
  | refl => exact ⟨[], start_placed text, rfl⟩
  | @tail a b hreads hnext ih =>
    obtain ⟨before, hplaced, hbalanced⟩ := ih
    obtain ⟨taken, hrest, hplaced'⟩ := turn_placed hplaced hnext.turn
    exact ⟨before ++ taken, hplaced',
      turn_balanced hbalanced ⟨hnext.turn, hplaced, hplaced', hrest⟩⟩

/-- The end adds marks only. -/
theorem finish_marks (s : Scan) : ∃ marks, s.finish = s.tokens.reverse ++ marks ∧
    ∀ t ∈ marks, t.kind ≠ .delimiter ∧ t.lexeme = "" := by
  obtain ⟨ends, hends, hfinish⟩ := finish_eq s
  refine ⟨ends ++ List.replicate s.indents.length ⟨.dedent, "", s.pos⟩ ++ [⟨.stop, "", s.pos⟩],
    by rw [hfinish]; simp, ?_⟩
  have hmark (kind : TokenKind) (hk : kind ≠ .delimiter) :
      ∀ t ∈ [(⟨kind, "", s.pos⟩ : Token)], t.kind ≠ .delimiter ∧ t.lexeme = "" :=
    List.forall_mem_singleton.mpr ⟨hk, rfl⟩
  refine List.forall_mem_append.mpr ⟨List.forall_mem_append.mpr ⟨?_, fun t ht => ?_⟩,
    hmark .stop (by decide)⟩
  · rcases hends with rfl | rfl
    · exact List.forall_mem_nil _
    · exact hmark .newline (by decide)
  · rw [List.eq_of_mem_replicate ht]
    exact hmark .dedent (by decide) _ List.mem_cons_self

/-! ### Brackets that are no tokens -/

theorem turn_bracketsApart (hs : ∀ t ∈ a.tokens, t.BracketsApart) (h : Turn a b) :
    ∀ t ∈ b.tokens, t.BracketsApart := by
  have hmark (kind : TokenKind) (p : Position) : (⟨kind, "", p⟩ : Token).BracketsApart := nofun
  cases h with
  | void | space | comment => exact hs
  | deeper => exact List.forall_mem_cons.mpr ⟨hmark _ _, hs⟩
  | back =>
    refine List.forall_mem_append.mpr ⟨fun t ht => ?_, hs⟩
    rw [List.eq_of_mem_replicate ht]
    exact hmark _ _
  | newline =>
    refine List.forall_mem_cons.mpr ⟨fun c hc hbracket => ?_, hs⟩
    rw [String.toList_ofList, List.mem_singleton] at hc
    exact absurd hc (bracket_symbolic hbracket).newline
  | word hl hrest hword =>
    refine List.forall_mem_cons.mpr ⟨fun c hc hbracket => ?_, hs⟩
    rw [String.toList_ofList] at hc ⊢
    exact hword.brackets c hc hbracket

end Scan

open Scan

theorem tokenize_bracketsApart {source : String} (h : tokenize source = .ok ts) :
    ∀ t ∈ ts, t.BracketsApart := by
  obtain ⟨s, hreads, -, rfl⟩ := tokenize_ok_iff.mp h
  have hs : ∀ t ∈ s.tokens, t.BracketsApart :=
    reads_keeps (I := fun s => ∀ t ∈ s.tokens, t.BracketsApart) (List.forall_mem_nil _) hreads
      fun _ _ => turn_bracketsApart
  obtain ⟨marks, hfinish, hmarks⟩ := s.finish_marks
  rw [hfinish]
  refine List.forall_mem_append.mpr ⟨fun t ht => hs t (List.mem_reverse.mp ht), fun t ht c hc => ?_⟩
  rw [(hmarks t ht).2] at hc
  cases hc

/-- The lexer ends a source with what its tokens leave open. -/
theorem tokenize_depth {source : String} (h : tokenize source = .ok ts) :
    ∃ s, Reads (start source.toList) s ∧ s.rest = [] ∧ s.finish = ts ∧
      s.depth = bracketsOpen ts := by
  obtain ⟨s, hreads, hend, rfl⟩ := tokenize_ok_iff.mp h
  obtain ⟨marks, hfinish, hmarks⟩ := s.finish_marks
  refine ⟨s, hreads, hend, rfl, ?_⟩
  rw [(reads_stacked hreads).depth, hfinish, bracketsOpen_append fun t ht => (hmarks t ht).1]

/-- All brackets of a source are those of its delimiters and those in none. -/
theorem tokenize_balanced {source : String} (h : tokenize source = .ok ts) :
    bracketDepth source.toList = delimiterDepth ts + bracketDepth (inert source.toList ts) := by
  obtain ⟨s, hreads, hend, rfl⟩ := tokenize_ok_iff.mp h
  obtain ⟨marks, hfinish, hmarks⟩ := s.finish_marks
  obtain ⟨before, hplaced, hbalanced⟩ := reads_balanced hreads
  have hwhole : before = source.toList := by
    rw [hplaced.whole, hend, List.append_nil]
  subst hwhole
  have hnone : ∀ t ∈ marks, t.kind ≠ .delimiter := fun t ht => (hmarks t ht).1
  have hinert : inert source.toList s.finish = inertFrom source.toList s.tokens 0 source.toList := by
    refine inertFrom_congr fun i _ _ => ?_
    rw [hfinish, inert_append, and_iff_left (inert_none hnone)]
    exact forall_congr' fun t => imp_congr_left List.mem_reverse
  rw [hinert, hfinish, delimiterDepth_append, delimiterDepth_reverse, delimiterDepth_none hnone,
    Int.add_zero]
  exact hbalanced

def InString (text : List Char) (ts : List Token) (i : Nat) : Prop :=
  ∃ t ∈ ts, t.kind = .string ∧ t.Covers text i

theorem covers_mem {c : Char} (h : t.Covers text i) (hc : text[i]? = some c) :
    c ∈ t.lexeme.toList := by
  obtain ⟨n, hsliced, hn, hi⟩ := h
  obtain ⟨k, rfl⟩ := Nat.exists_eq_add_of_le hn
  have hk : t.lexeme.toList[k]? = some c := by
    rw [← hsliced.slice, List.getElem?_take_of_lt (by omega), List.getElem?_drop, hc]
  exact List.mem_of_getElem? hk

/-- A bracket in no delimiter stands in a string or a comment, or is dropped. -/
theorem inert_bracket {source : String} (h : tokenize source = .ok ts) {c : Char}
    (hc : source.toList[i]? = some c) (hbracket : IsBracket c) (hinert : Inert source.toList ts i) :
    InString source.toList ts i ∨ InComment source.toList ts i ∨ Dropped source.toList ts i := by
  have hplain : Plain c := ⟨(bracket_symbolic hbracket).space, (bracket_symbolic hbracket).newline⟩
  rcases tokenize_keeps h hc hplain with hin | ⟨⟨t, hmem, hcovers⟩, -⟩ | ⟨-, hdropped⟩
  · exact .inr (.inl hin)
  · rcases tokenize_bracketsApart h t hmem c (covers_mem hcovers hc) hbracket with hk | ⟨hk, -⟩
    · exact .inl ⟨t, hmem, hk, hcovers⟩
    · exact absurd hcovers (hinert t hmem hk)
  · exact .inr (.inr hdropped)

end Lexer

namespace Command

open Lexer.Scan

variable {lines : List String} {ts : List Token}

/-- The text of an entry. -/
def joined (lines : List String) : String := "\n".intercalate lines

theorem bracketDepth_joined (lines : List String) :
    bracketDepth (joined lines).toList = bracketDepth (lines.flatMap String.toList) := by
  have hbreak : bracketDepth "\n".toList = 0 := by decide
  rw [joined, String.toList_intercalate, List.flatMap_def]
  induction lines.map String.toList with
  | nil => rfl
  | cons l ls ih =>
    cases ls with
    | nil => simp [List.intercalate]
    | cons m ls =>
      rw [List.intercalate_cons_cons, List.flatten_cons, bracketDepth_append, bracketDepth_append,
        bracketDepth_append, hbreak, ih, Int.add_zero]

/-- Behind a blank line an entry is whole if it closes as many brackets as it opens. -/
theorem isComplete_blank (lines : List String) :
    isComplete (lines ++ [""]) = true ↔ bracketDepth (joined lines).toList ≤ 0 := by
  rw [bracketDepth_joined]
  have hblank : opensBlock "" = false ∧ isBlankLine "" = true := by decide
  simp [isComplete, hblank]

/-- When the lexer and the prompt agree that an entry is whole. The lexer ends a text that it reads
with the brackets open that its tokens leave open; behind a blank line the entry is whole if these
and the brackets in strings, comments and dropped text are no more than the closing brackets without
a partner. So they agree where closing brackets have partners and other brackets are balanced. -/
theorem entry_complete_iff (h : tokenize (joined lines) = .ok ts) :
    (∃ s, Reads (start (joined lines).toList) s ∧ s.rest = [] ∧ s.finish = ts ∧
        s.depth = bracketsOpen ts) ∧
      (isComplete (lines ++ [""]) = true ↔
        bracketsOpen ts + bracketDepth (inert (joined lines).toList ts) ≤ unpaired ts) ∧
      (∀ i c, (joined lines).toList[i]? = some c → IsBracket c →
        Inert (joined lines).toList ts i →
          InString (joined lines).toList ts i ∨ InComment (joined lines).toList ts i ∨
            Dropped (joined lines).toList ts i) ∧
      (unpaired ts = 0 → bracketDepth (inert (joined lines).toList ts) = 0 →
        (isComplete (lines ++ [""]) = true ↔ bracketsOpen ts = 0)) := by
  have hopen := bracketsOpen_eq (tokenize_bracketsApart h)
  have hiff : isComplete (lines ++ [""]) = true ↔
      bracketsOpen ts + bracketDepth (inert (joined lines).toList ts) ≤ unpaired ts := by
    rw [isComplete_blank, tokenize_balanced h]
    omega
  refine ⟨tokenize_depth h, hiff, fun i c hc hbracket hinert => inert_bracket h hc hbracket hinert,
    fun hunpaired hbalanced => ?_⟩
  rw [hiff, hunpaired, hbalanced]
  omega

/-- Brackets in a comment that are balanced there do no harm. -/
theorem comment_complete : ∃ ts, tokenize (joined ["f(1) # (x)"]) = .ok ts ∧
    (isComplete (["f(1) # (x)"] ++ [""]) = true ↔ bracketsOpen ts = 0) := by
  have hts : tokenize (joined ["f(1) # (x)"]) =
      .ok [⟨.identifier, "f", ⟨1, 1⟩⟩, ⟨.delimiter, "(", ⟨1, 2⟩⟩, ⟨.integer, "1", ⟨1, 3⟩⟩,
        ⟨.delimiter, ")", ⟨1, 4⟩⟩, ⟨.newline, "", ⟨1, 11⟩⟩, ⟨.stop, "", ⟨1, 11⟩⟩] := by rfl
  exact ⟨_, hts, (entry_complete_iff hts).2.2.2 (by decide) (by decide)⟩

/-- No bracket is open behind a string that holds one, but no blank line ends the entry; and one
does end an entry where a bracket is open behind one that closes nothing. -/
theorem counts_disagree :
    (∃ ts s, tokenize (joined ["x = \"(\""]) = .ok ts ∧
      Reads (start (joined ["x = \"(\""]).toList) s ∧ s.rest = [] ∧ s.finish = ts ∧
        s.depth = 0 ∧ isComplete (["x = \"(\""] ++ [""]) = false) ∧
      ∃ ts s, tokenize (joined [")("]) = .ok ts ∧ Reads (start (joined [")("]).toList) s ∧
        s.rest = [] ∧ s.finish = ts ∧ s.depth = 1 ∧ isComplete ([")("] ++ [""]) = true := by
  have hquoted : tokenize (joined ["x = \"(\""]) =
      .ok [⟨.identifier, "x", ⟨1, 1⟩⟩, ⟨.operator, "=", ⟨1, 3⟩⟩, ⟨.string, "\"(\"", ⟨1, 5⟩⟩,
        ⟨.newline, "", ⟨1, 8⟩⟩, ⟨.stop, "", ⟨1, 8⟩⟩] := by rfl
  have hunpaired : tokenize (joined [")("]) =
      .ok [⟨.delimiter, ")", ⟨1, 1⟩⟩, ⟨.delimiter, "(", ⟨1, 2⟩⟩, ⟨.stop, "", ⟨1, 3⟩⟩] := by rfl
  obtain ⟨s, hreads, hend, hfinish, hdepth⟩ := tokenize_depth hquoted
  obtain ⟨s', hreads', hend', hfinish', hdepth'⟩ := tokenize_depth hunpaired
  exact ⟨⟨_, s, hquoted, hreads, hend, hfinish, hdepth, by decide⟩,
    _, s', hunpaired, hreads', hend', hfinish', hdepth', by decide⟩

end Command

end Offside
