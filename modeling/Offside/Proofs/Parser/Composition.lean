import Offside.Proofs.Lexer.Seam
import Offside.Proofs.Parser.Appending
import Offside.Proofs.Parser.Lines
import Offside.Proofs.Parser.Lowering

/-!
Programs one after another. A program that is accepted, with every line ended, is no part of what is
read after it: the text that follows gives the statements or the errors that it gives alone, some
lines further down.
-/

namespace Offside

/-- A program with some statements in front of its own, which stand so many lines further down. -/
def Node.following (body : List Node) (k : Nat) : Node → Node
  | program p ss => program p (body ++ ss.map (Node.lower k))
  | n => n

/-- What reading gives when some statements stand in front. -/
def following (body : List Node) (k : Nat) : Except ReadError Node → Except ReadError Node
  | .ok program => .ok (program.following body k)
  | .error e => .error (e.lower k)

namespace Parser

variable {ts us vs : List Token} {stop : Token} {k : Nat} {body : List Node}

theorem verdict_prepended (ss : List Node) (k : Nat) (r : Outcome (List Node)) :
    verdict (prepended ss (lowered (Node.movedList (Place.lower k)) k r)) =
      following ss k (verdict r) := by
  cases r with
  | ok rest c =>
    unfold lowered prepended verdict
    dsimp only [Cursor.lower]
    rw [List.isEmpty_map]
    split
    · rw [Node.movedList_eq]
      rfl
    · rfl
  | error e c =>
    cases e with
    | problem e => simp [lowered, prepended, verdict, following, Halt.lower, Cursor.lower,
        ReadError.lower]
    | fault f => rfl
    | starved => rfl

theorem verdict_ok {r : Outcome (List Node)} (h : verdict r = .ok (.program Position.start body)) :
    ∃ c, r = .ok body c ∧ c.errors = [] := by
  unfold verdict at h
  split at h
  · next ss c =>
    split at h
    · next hempty =>
      cases h
      exact ⟨c, rfl, List.isEmpty_iff.mp hempty⟩
    · cases h
  all_goals cases h

/-- Ends of lines in front of a list are passed over. -/
theorem statements_newlines {gap : List Token} (hgap : ∀ t ∈ gap, t.kind = .newline) (n : Nat)
    (context : Context) (ts : List Token) : statements (n + 1) context true ⟨gap ++ ts, stop, []⟩ =
      statements (n + 1) context true ⟨ts, stop, []⟩ := by
  rw [statements_succ, statements_succ, Cursor.afterNewlines, Cursor.afterNewlines]
  dsimp only
  rw [List.dropWhile_append_of_pos fun t ht => by simp [hgap t ht]]

theorem grown_dedents (more : List Token) (n : Nat) (p q : Position) :
    Grown more (List.replicate n ⟨.dedent, "", p⟩) (List.replicate n ⟨.dedent, "", q⟩ ++ more) := by
  induction n with
  | zero => exact .nil
  | succ n ih => exact .dedent rfl rfl ih

theorem lower_ofTokens {u : List Token} (h : stop.kind = .stop) (k : Nat) :
    (Cursor.ofTokens (u ++ [stop])).lower k = ⟨u.map (Token.lower k), stop.lower k, []⟩ := by
  rw [ofTokens_concat h]
  rfl

theorem opens_noBranch {t : Token} (h : Lexer.Opens t) : NoBranch t := by
  intro w hw
  by_cases hk : t.kind = .keyword
  · have hne : t.lexeme ≠ w := fun heq => h hk (heq ▸ hw)
    simp [Token.is, hne]
  · simp [Token.is, hk]

/-- The statements of an accepted program, read in front of other tokens. -/
theorem accepted_append {u : List Token} {last : Token} (hlast : last.kind = .stop)
    (hu : ∀ t ∈ u, t.kind ≠ .stop)
    (h : parse (u ++ [last]) = .ok (.program Position.start body)) (hs : stop.kind = .stop)
    {more : List Token} (hmore : NoBranch (more.headD stop)) :
    ¬ Loose u ∧ ∀ {u'}, Grown more u u' → ∀ {n}, 4 * u'.length + 5 ≤ n →
      statements n ⟨false, false⟩ true ⟨u', stop, []⟩ =
        prepended body (statements n ⟨false, false⟩ true ⟨more, stop, []⟩) := by
  rw [parse_eq, ofTokens_concat hlast] at h
  obtain ⟨c, hbody, herrors⟩ := verdict_ok h
  obtain ⟨-, hloose, hwider⟩ := statements_append hmore hs ⟨false, false⟩ hlast hu hbody herrors
  refine ⟨hloose, fun {u'} hgrown n hn => ?_⟩
  have hwide : Wider more stop ⟨u, last, []⟩ ⟨u', stop, []⟩ := ⟨hgrown, hlast, rfl, rfl⟩
  exact hwider hwide hn

/-- A program that is accepted leaves no line open. -/
theorem not_ajar (h : parse ts = .ok (.program Position.start body)) (hlaid : LaidOut ts) :
    ¬ Lexer.Ajar ts := by
  rintro ⟨front, t, n, p, hline, rfl⟩
  obtain ⟨u, last, hsplit, hlast, hu⟩ := hlaid.ended
  rw [← List.cons_append, ← List.append_assoc] at hsplit h
  obtain ⟨rfl, hlast'⟩ := List.append_inj' hsplit rfl
  obtain rfl := List.singleton_inj.mp hlast'
  have hmore : NoBranch (([] : List Token).headD ⟨.stop, "", p⟩) := opens_noBranch nofun
  refine (accepted_append rfl hu h rfl hmore).1 ⟨front, t, _, rfl, hline, fun d hd => ?_⟩
  rw [List.eq_of_mem_replicate hd]

/-- An accepted program is read in front of what comes after it. -/
theorem parse_joined (h : parse ts = .ok (.program Position.start body)) (hlaid : LaidOut ts)
    (hlaid' : LaidOut us) (hjoined : Lexer.Joined k ts us vs)
    (hopens : ∀ t ∈ us.head?, Lexer.Opens t) : parse vs = following body k (parse us) := by
  obtain ⟨front, n, p, q, gap, rfl, rfl, hgap⟩ := hjoined
  obtain ⟨rest, stop, rfl, hstop, -⟩ := hlaid'.ended
  obtain ⟨u, last, hsplit, hlast, hu⟩ := hlaid.ended
  rw [← List.append_assoc] at hsplit h
  obtain ⟨rfl, hlast'⟩ := List.append_inj' hsplit rfl
  obtain rfl := List.singleton_inj.mp hlast'
  have hs : (stop.lower k).kind = .stop := hstop
  have hmore : NoBranch ((gap ++ rest.map (Token.lower k)).headD (stop.lower k)) := by
    cases gap with
    | nil =>
      cases rest with
      | nil => exact opens_noBranch fun hk => by cases hs.symm.trans hk
      | cons t rest => exact opens_noBranch (hopens t rfl)
    | cons t gap => exact opens_noBranch fun hk => by cases (hgap t List.mem_cons_self).symm.trans hk
  have hvs : front ++ (List.replicate n ⟨.dedent, "", q⟩ ++ (gap ++ (rest ++ [stop]).map
      (Token.lower k))) = (front ++ (List.replicate n ⟨.dedent, "", q⟩ ++
        (gap ++ rest.map (Token.lower k)))) ++ [stop.lower k] := by simp
  have hgrown : Grown (gap ++ rest.map (Token.lower k)) (front ++ List.replicate n ⟨.dedent, "", p⟩)
      (front ++ (List.replicate n ⟨.dedent, "", q⟩ ++ (gap ++ rest.map (Token.lower k)))) :=
    (grown_dedents _ n p q).append front
  have hlen := hgrown.length_le
  rw [hvs, parse_eq, ofTokens_concat hs]
  generalize front ++ (List.replicate n ⟨.dedent, "", q⟩ ++ (gap ++ rest.map (Token.lower k))) = u'
    at hgrown hlen
  have hlist : statements (fuelFor (u' ++ [stop.lower k])) ⟨false, false⟩ true
      ⟨gap ++ rest.map (Token.lower k), stop.lower k, []⟩ =
        lowered (Node.movedList (Place.lower k)) k
          (statements (fuelFor (rest ++ [stop])) ⟨false, false⟩ true
            (Cursor.ofTokens (rest ++ [stop]))) := by
    have hle : fuelFor (rest ++ [stop]) ≤ fuelFor (u' ++ [stop.lower k]) := by
      simp only [fuelFor, List.length_append, List.length_map, List.length_singleton] at hlen ⊢
      omega
    have henough : 4 * (rest.map (Token.lower k)).length + 5 ≤ fuelFor (rest ++ [stop]) := by
      simp only [fuelFor, List.length_append, List.length_map, List.length_singleton]
      omega
    rw [← (rules_lower_statements k _).statements, lower_ofTokens hstop,
      statements_enough (c := ⟨_, stop.lower k, []⟩) hs henough hle]
    exact statements_newlines hgap _ _ _
  rw [(accepted_append hlast hu h hs hmore).2 hgrown (by simp [fuelFor]; omega), hlist,
    verdict_prepended, ← parse_eq]

end Parser

open Lexer

/-- A text that is accepted and ends its last line is read in front of another, as long as that
begins a statement on the outermost level. -/
theorem parseProgram_append {first second : String} {body : List Node}
    (hm : AtMargin first.toList) (hafresh : StartsAfresh second.toList)
    (h : parseProgram first = .ok (.program Position.start body)) :
    parseProgram (first ++ second) =
      following body (first.toList.count '\n') (parseProgram second) := by
  unfold parseProgram at h ⊢
  split at h
  · next ts hts =>
    have hlaid := tokenize_laidOut hts
    obtain ⟨s, hreads, hend, hl, rfl⟩ :=
      (tokenize_ends hm hts).resolve_left (Parser.not_ajar h hlaid)
    rcases tokenize_after hm hafresh hreads hend hl with
      ⟨us, vs, hus, hvs, hjoined, hopens⟩ | ⟨e, he, he'⟩
    · rw [hus, hvs]
      exact Parser.parse_joined h hlaid (tokenize_laidOut hus) hjoined hopens
    · rw [he, he']
      rfl
  · cases h

end Offside
