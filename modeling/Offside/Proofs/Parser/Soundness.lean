import Mathlib.Data.List.Nodup
import Offside.Proofs.Parser.Level

/-!
What the parser reads as an expression is one. The climbing loop keeps an expression on its left
that belongs to the layer of whatever operator comes next, so each operator it takes extends the
left recursion of its own layer.
-/

namespace Offside.Parser

open Grammar

/-- An expression that may stand at the left of the climbing loop: what is wanted if the loop
ends, and of the layer of the next operator if it goes on. -/
def Left (level : Nat) (e : Node) (u : List Token) (c : Cursor) : Prop :=
  Derives Readable (.expr (goal level) e.bare) u ∧
    ∀ l, nextLevel? c = some l → level ≤ l → Derives Readable (.expr (layer l) e.bare) u

/-- What reading with an allowance establishes when it succeeds. -/
structure Sound (fuel : Nat) : Prop where
  expression : ∀ {level c e c'}, Ready c → 1 ≤ level → level ≤ 7 →
    expression fuel level c = .ok e c' →
    ∃ u, Takes c u c' ∧ Derives Readable (.expr (goal level) e.bare) u ∧ Below level c'
  climb : ∀ {level left v c e c'}, Ready c → 1 ≤ level → level ≤ 7 → Left level left v c →
    climb fuel level left c = .ok e c' →
    ∃ u, Takes c u c' ∧ Derives Readable (.expr (goal level) e.bare) (v ++ u) ∧ Below level c'
  operand : ∀ {level c e c'}, Ready c → 1 ≤ level → level ≤ 7 →
    operand fuel level c = .ok e c' → ∃ u, Takes c u c' ∧ Left level e u c'
  postfixes : ∀ {node v c e c'}, Ready c → Derives Readable (.expr .suffixed node.bare) v →
    postfixes fuel node c = .ok e c' →
    ∃ u, Takes c u c' ∧ Derives Readable (.expr .suffixed e.bare) (v ++ u)
  sequence : ∀ {close what items c es c'}, Ready c → sequence fuel close what items c = .ok es c' →
    ∃ u t ds, Takes c (u ++ [t]) c' ∧ t.is .delimiter close ∧ es = items ++ ds ∧
      Derives Readable (.items (Node.bareList ds)) u
  entries : ∀ {read c ps c'}, Ready c → entries fuel read c = .ok ps c' →
    ∃ u t ds, Takes c (u ++ [t]) c' ∧ t.is .delimiter "\x7d" ∧ ps = read ++ ds ∧
      Derives Readable (.pairs (Node.barePairs ds)) u
  primary : ∀ {c e c'}, Ready c → primary fuel c = .ok e c' →
    ∃ u, Takes c u c' ∧ Derives Readable (.expr .atom e.bare) u

variable {fuel level : Nat} {c c' : Cursor} {e : Node}

theorem sound_zero : Sound 0 := by
  constructor <;> intros <;> next h => cases h

theorem expression_sound_step (ih : Sound fuel) (hc : Ready c) (h₁ : 1 ≤ level) (h₇ : level ≤ 7)
    (h : expression (fuel + 1) level c = .ok e c') :
    ∃ u, Takes c u c' ∧ Derives Readable (.expr (goal level) e.bare) u ∧ Below level c' := by
  rw [expression_succ] at h
  obtain ⟨left, c₁, ho, hr⟩ := bind_ok_iff.mp h
  obtain ⟨v, htv, hl⟩ := ih.operand hc h₁ h₇ ho
  obtain ⟨u, htu, hd, hb⟩ := ih.climb (htv.ready hc) h₁ h₇ hl hr
  exact ⟨v ++ u, htv.trans htu, hd, hb⟩

theorem climb_sound_step (ih : Sound fuel) (hc : Ready c) (h₁ : 1 ≤ level) (h₇ : level ≤ 7)
    {left : Node} {v : List Token} (hl : Left level left v c)
    (h : climb (fuel + 1) level left c = .ok e c') :
    ∃ u, Takes c u c' ∧ Derives Readable (.expr (goal level) e.bare) (v ++ u) ∧ Below level c' := by
  have stay {e c'} (h : (.ok left c : EStateM.Result Halt Cursor Node) = .ok e c')
      (hb : Below level c) :
      ∃ u, Takes c u c' ∧ Derives Readable (.expr (goal level) e.bare) (v ++ u) ∧
        Below level c' := by
    cases h
    exact ⟨[], Takes.refl c, by rw [List.append_nil]; exact hl.1, hb⟩
  rw [climb_succ] at h
  cases ho : binaryOperator? c.next c.second with
  | none =>
    rw [ho] at h
    exact stay h (by simp [Below, nextLevel?, ho])
  | some o =>
    obtain ⟨op, l, width⟩ := o
    have hn : nextLevel? c = some l := by simp [nextLevel?, ho]
    rw [ho] at h
    dsimp only at h
    split_ifs at h with hlt
    · exact stay h fun l' hl' => by
        rw [hn] at hl'
        cases hl'
        exact hlt
    · obtain ⟨right, c₁, hr, hm⟩ := bind_ok_iff.mp h
      obtain ⟨hl₁, hl₇, w, htw, hop⟩ := operator_sound hc ho
      obtain ⟨r, htr, hdr, hbr⟩ := ih.expression (htw.ready hc) (by omega) (by omega) hr
      have hbin := Derives.binary (hl.2 l hn (by omega)) hop hdr
      have htc := (htw.trans htr).ready hc
      -- the right operand leaves no operator tighter than the one taken
      have hleft : Left level (.binaryOp c.next.pos op left right) (v ++ w ++ r) c₁ := by
        refine ⟨goal_of_layer h₁ (by omega) (by omega) hbin, ?_⟩
        intro l' hl' _
        have h' := hbr l' hl'
        exact layer_antitone (nextLevel_bounds hl').1 (by omega) (by omega) hbin
      obtain ⟨u, htu, hd, hb⟩ := ih.climb htc h₁ h₇ hleft hm
      refine ⟨w ++ r ++ u, (htw.trans htr).trans htu, ?_, hb⟩
      simpa only [List.append_assoc] using hd

theorem nodup_snoc {xs : List String} {x : String} (h : xs.Nodup) (hx : ¬ xs.contains x = true) :
    (xs ++ [x]).Nodup := by
  apply List.Nodup.append h (List.nodup_singleton x)
  simpa using hx

theorem parameters_sound {close what : String} {ps names : List String} (hc : Ready c)
    (h : parameters close what fuel ps c = .ok names c') :
    ∃ u xs, Takes c u c' ∧ Names u xs ∧ names = ps ++ xs ∧ (ps.Nodup → names.Nodup) := by
  induction fuel generalizing ps c with
  | zero => cases h
  | succ fuel ih =>
    rw [parameters_succ] at h
    split_ifs at h with hclose hk hp hcomma
    · cases h
      exact ⟨[], [], Takes.refl _, .nil, (List.append_nil _).symm, id⟩
    · have ht := takes_next hc.stop (by simp [hk])
      have hu := takes_is (c := c.skip 1) hc.stop (by simp) hcomma
      have hb := ht.trans hu
      rw [Cursor.skip_skip] at hb
      obtain ⟨u, xs, hu, hn, rfl, hd⟩ := ih (hb.ready hc) h
      exact ⟨_, c.next.lexeme :: xs, hb.trans hu, .cons hk hcomma hn, by simp,
        fun hps => hd (nodup_snoc hps hp)⟩
    · cases h
      exact ⟨_, [c.next.lexeme], takes_next hc.stop (by simp [hk]), .last hk, rfl,
        fun hps => nodup_snoc hps hp⟩
    · cases h

theorem lambda_sound (ih : Sound fuel) (hc : Ready c) (hk : c.next.is .keyword "lambda" = true)
    (h : (parameters ":" "a parameter name or ':'" fuel [] >>= fun params => do
      discard (expect .delimiter ":" "':' after lambda parameters")
      let body ← expression fuel loosest
      pure (.lambda c.next.pos (params.map Json.string) body)) (c.skip 1) = .ok e c') :
    ∃ u, Takes c u c' ∧ Derives Readable (.expr .lambdef e.bare) u ∧ Below loosest c' := by
  have ht := takes_is hc.stop (by simp) hk
  obtain ⟨names, c₁, hp, h⟩ := bind_ok_iff.mp h
  obtain ⟨u, xs, hu, hn, rfl, hd⟩ := parameters_sound (ht.ready hc) hp
  rw [expect_bind] at h
  split_ifs at h with hcolon
  · have hu' := ht.trans hu
    have hcl := takes_is (hu'.ready hc).stop (by simp) hcolon
    obtain ⟨body, hb, rfl⟩ := map_ok_iff.mp h
    obtain ⟨v, hv, hdv, hbelow⟩ :=
      ih.expression ((hu'.trans hcl).ready hc) (Nat.le_refl _) (by decide) hb
    refine ⟨_, (hu'.trans hcl).trans hv, ?_, hbelow⟩
    simpa [Node.bare] using Derives.lambda hk hn (hd List.nodup_nil) hcolon hdv
  · cases h

theorem operand_sound_step (ih : Sound fuel) (hc : Ready c) (h₁ : 1 ≤ level) (h₇ : level ≤ 7)
    (h : operand (fuel + 1) level c = .ok e c') : ∃ u, Takes c u c' ∧ Left level e u c' := by
  rw [operand_succ] at h
  split_ifs at h with hn hlt hm hl hlt
  · have ht := takes_is hc.stop (by simp) hn
    obtain ⟨a, ha, rfl⟩ := map_ok_iff.mp h
    obtain ⟨u, hu, hd, hb⟩ := ih.expression (ht.ready hc) (by decide) (by decide) ha
    have hneg := Derives.negation hn hd
    have hlevel : level ≤ 3 := by simpa [notLevel] using hlt
    refine ⟨_, ht.trans hu, goal_of_layer (n := 3) h₁ hlevel (by omega) hneg, ?_⟩
    intro l hl _
    have h₃ := hb l hl
    exact layer_antitone (n := 3) (nextLevel_bounds hl).1
      (Nat.le_of_lt h₃) (by omega) hneg
  · have ht := takes_is hc.stop (by simp) hm
    obtain ⟨a, ha, rfl⟩ := map_ok_iff.mp h
    obtain ⟨u, hu, hd, hb⟩ := ih.expression (ht.ready hc) (by decide) (by decide) ha
    have hneg := Derives.minus hm hd
    refine ⟨_, ht.trans hu, goal_of_layer (n := 7) h₁ h₇ (by omega) hneg, ?_⟩
    intro l hl _
    have hl' := nextLevel_bounds hl
    exact layer_antitone (n := 7) hl'.1 (by omega) (by omega) hneg
  · obtain ⟨u, hu, hd, hb⟩ := lambda_sound ih hc hl h
    have hlevel : level = 1 := by
      have : level ≤ 1 := by simpa [loosest] using hlt
      omega
    subst hlevel
    refine ⟨u, hu, .unit .lambdef hd, ?_⟩
    intro l hl _
    -- after a lambda no operator can come next, since its body would have taken it
    have h₀ : l < 1 := hb l hl
    have := (nextLevel_bounds hl).1
    omega
  · obtain ⟨node, c₁, hp, hx⟩ := bind_ok_iff.mp h
    obtain ⟨v, hv, hdv⟩ := ih.primary hc hp
    obtain ⟨u, hu, hd⟩ := ih.postfixes (hv.ready hc) (.unit .atom hdv) hx
    have hf := Derives.unit .suffixed hd
    have ht := hv.trans hu
    refine ⟨_, ht, goal_of_layer (n := 7) h₁ h₇ (by omega) hf, ?_⟩
    intro l hl _
    have hl' := nextLevel_bounds hl
    exact layer_antitone (n := 7) hl'.1 (by omega) (by omega) hf

theorem postfixes_sound_step (ih : Sound fuel) (hc : Ready c) {node : Node} {v : List Token}
    (hv : Derives Readable (.expr .suffixed node.bare) v)
    (h : postfixes (fuel + 1) node c = .ok e c') :
    ∃ u, Takes c u c' ∧ Derives Readable (.expr .suffixed e.bare) (v ++ u) := by
  rw [postfixes_succ] at h
  split_ifs at h with hp hb hd
  · have ht := takes_is hc.stop (by simp) hp
    obtain ⟨args, c₁, hs, h⟩ := bind_ok_iff.mp h
    obtain ⟨w, t, ds, hw, htc, rfl, hds⟩ := ih.sequence (ht.ready hc) hs
    have hcall := Derives.call hv hp hds htc
    obtain ⟨u, hu, hd⟩ := ih.postfixes ((ht.trans hw).ready hc) (by simpa [Node.bare] using hcall) h
    exact ⟨_, (ht.trans hw).trans hu, by simpa using hd⟩
  · have ht := takes_is hc.stop (by simp) hb
    obtain ⟨i, c₁, hi, h⟩ := bind_ok_iff.mp h
    obtain ⟨w, hw, hdw, _⟩ := ih.expression (ht.ready hc) (Nat.le_refl _) (by decide) hi
    rw [expect_bind] at h
    split_ifs at h with hcl
    · have htw := ht.trans hw
      have hcl' := takes_is (htw.ready hc).stop (by simp) hcl
      have hindex := Derives.index hv hb hdw hcl
      have htc := htw.trans hcl'
      obtain ⟨u, hu, hd⟩ := ih.postfixes (htc.ready hc) (by simpa [Node.bare] using hindex) h
      exact ⟨_, htc.trans hu, by simpa using hd⟩
    · cases h
  · have ht := takes_is hc.stop (by simp) hd
    rw [expectKind_bind] at h
    split_ifs at h with hk
    · have hn := takes_next (c := c.skip 1) hc.stop (by simp [hk])
      have hmember := Derives.member hv hd hk
      have htn := ht.trans hn
      obtain ⟨u, hu, hd⟩ := ih.postfixes (htn.ready hc) (by simpa [Node.bare] using hmember) h
      exact ⟨_, htn.trans hu, by simpa using hd⟩
    · cases h
  · cases h
    exact ⟨[], Takes.refl c, by rw [List.append_nil]; exact hv⟩

theorem sequence_sound_step (ih : Sound fuel) (hc : Ready c) {close what : String}
    {items es : List Node} (h : sequence (fuel + 1) close what items c = .ok es c') :
    ∃ u t ds, Takes c (u ++ [t]) c' ∧ t.is .delimiter close ∧ es = items ++ ds ∧
      Derives Readable (.items (Node.bareList ds)) u := by
  rw [sequence_succ] at h
  split_ifs at h with hclose
  · cases h
    exact ⟨[], c.next, [], takes_is hc.stop (by simp) hclose, hclose, (List.append_nil _).symm,
      .noItems⟩
  · obtain ⟨item, c₁, hi, h⟩ := bind_ok_iff.mp h
    obtain ⟨u, hu, hd, _⟩ := ih.expression hc (Nat.le_refl _) (by decide) hi
    have hc₁ := hu.ready hc
    rw [afterItem_apply] at h
    split_ifs at h with hcomma hclose
    · have ht := hu.trans (takes_is hc₁.stop (by simp) hcomma)
      obtain ⟨v, t, ds, hv, htc, rfl, hds⟩ := ih.sequence (ht.ready hc) h
      refine ⟨u ++ c₁.next :: v, t, item :: ds, by simpa using ht.trans hv, htc, by simp, ?_⟩
      exact .item hd hcomma hds
    · cases h
      exact ⟨u, c₁.next, [item], hu.trans (takes_is hc₁.stop (by simp) hclose), hclose, rfl,
        .lastItem hd⟩
    · cases h

theorem entries_sound_step (ih : Sound fuel) (hc : Ready c) {read ps : List (Node × Node)}
    (h : entries (fuel + 1) read c = .ok ps c') :
    ∃ u t ds, Takes c (u ++ [t]) c' ∧ t.is .delimiter "\x7d" ∧ ps = read ++ ds ∧
      Derives Readable (.pairs (Node.barePairs ds)) u := by
  rw [entries_succ] at h
  split_ifs at h with hclose
  · cases h
    exact ⟨[], c.next, [], takes_is hc.stop (by simp) hclose, hclose, (List.append_nil _).symm,
      .noPairs⟩
  · obtain ⟨key, c₁, hk, h⟩ := bind_ok_iff.mp h
    obtain ⟨u, hu, hdk, _⟩ := ih.expression hc (Nat.le_refl _) (by decide) hk
    rw [expect_bind] at h
    split_ifs at h with hcolon
    · have huc := hu.trans (takes_is (hu.ready hc).stop (by simp) hcolon)
      obtain ⟨value, c₂, hv, h⟩ := bind_ok_iff.mp h
      obtain ⟨v, hv, hdv, _⟩ := ih.expression (huc.ready hc) (Nat.le_refl _) (by decide) hv
      have huv := huc.trans hv
      have hc₂ := huv.ready hc
      rw [afterItem_apply] at h
      split_ifs at h with hcomma hclose
      · have ht := huv.trans (takes_is hc₂.stop (by simp) hcomma)
        obtain ⟨w, t, ds, hw, htc, rfl, hds⟩ := ih.entries (ht.ready hc) h
        refine ⟨u ++ c₁.next :: v ++ c₂.next :: w, t, (key, value) :: ds,
          by simpa using ht.trans hw, htc, by simp, ?_⟩
        exact .pair hdk hcolon hdv hcomma hds
      · cases h
        refine ⟨u ++ c₁.next :: v, c₂.next, [(key, value)], ?_, hclose, rfl,
          .lastPair hdk hcolon hdv⟩
        simpa using huv.trans (takes_is hc₂.stop (by simp) hclose)
      · cases h
    · cases h

theorem primary_sound_step (ih : Sound fuel) (hc : Ready c)
    (h : primary (fuel + 1) c = .ok e c') :
    ∃ u, Takes c u c' ∧ Derives Readable (.expr .atom e.bare) u := by
  rw [primary_succ] at h
  cases ha : atom? c.next with
  | some r =>
    rw [ha] at h
    cases r with
    | error f => cases h
    | ok node =>
      have hatom := ha
      cases h
      have hn : c.next.kind ≠ .stop := by
        intro hk
        simp [atom?, hk] at ha
      have ht := takes_next hc.stop hn
      exact ⟨_, ht, .leaf ⟨_, rfl, hatom⟩⟩
  | none =>
    rw [ha] at h
    dsimp only at h
    split_ifs at h with hp hb hm
    · have ht := takes_is hc.stop (by simp) hp
      obtain ⟨inner, c₁, hi, h⟩ := bind_ok_iff.mp h
      obtain ⟨u, hu, hd, _⟩ := ih.expression (ht.ready hc) (Nat.le_refl _) (by decide) hi
      rw [expect_bind] at h
      split_ifs at h with hcl
      · cases h
        have htu := ht.trans hu
        exact ⟨_, htu.trans (takes_is (htu.ready hc).stop (by simp) hcl), .parens hp hd hcl⟩
      · cases h
    · have ht := takes_is hc.stop (by simp) hb
      obtain ⟨es, hs, rfl⟩ := map_ok_iff.mp h
      obtain ⟨u, t, ds, hu, htc, rfl, hds⟩ := ih.sequence (ht.ready hc) hs
      exact ⟨_, ht.trans hu, .list hb hds htc⟩
    · have ht := takes_is hc.stop (by simp) hm
      obtain ⟨ps, hs, rfl⟩ := map_ok_iff.mp h
      obtain ⟨u, t, ds, hu, htc, rfl, hds⟩ := ih.entries (ht.ready hc) hs
      exact ⟨_, ht.trans hu, .map hm hds htc⟩
    · cases h

theorem reading_sound (fuel : Nat) : Sound fuel := by
  induction fuel with
  | zero => exact sound_zero
  | succ fuel ih =>
    exact ⟨fun hc h₁ h₇ => expression_sound_step ih hc h₁ h₇,
      fun hc h₁ h₇ hl => climb_sound_step ih hc h₁ h₇ hl,
      fun hc h₁ h₇ => operand_sound_step ih hc h₁ h₇,
      fun hc hv => postfixes_sound_step ih hc hv,
      fun hc => sequence_sound_step ih hc,
      fun hc => entries_sound_step ih hc,
      fun hc => primary_sound_step ih hc⟩

end Offside.Parser
