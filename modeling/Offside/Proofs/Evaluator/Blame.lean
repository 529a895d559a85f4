import Offside.Proofs.Evaluator.Conduct

/-!
Where an error gets its place. A script stops at the first task that fails, and an error with a
place goes out through every node and call around it as it is, so that the task which gave it the
place is the innermost one that fails with it, and the place is one of its own spots.
-/

namespace Offside.Evaluator

open Run

/-- Done in this state, an action fails with this error. -/
def Fails {α : Type} (x : Run α) (st : State) (e : RuntimeError) : Prop :=
  ∃ st', x st = .error (.error e) st'

/-- The task of a moment fails with this error. -/
def Moment.Fails (set : Settings) (m : Moment) (e : RuntimeError) : Prop :=
  Evaluator.Fails (m.task.run set m.fuel) m.state e

section

variable {α β : Type} {x : Run β} {f : β → Run α} {st : State} {e : RuntimeError} {p : Place}

theorem fails_unique {x : Run α} {e' : RuntimeError} (h : Fails x st e) (h' : Fails x st e') :
    e = e' := by
  obtain ⟨st₁, h⟩ := h
  obtain ⟨st₂, h'⟩ := h'
  rw [h] at h'
  cases h'
  rfl

theorem fails_bind : Fails (x >>= f) st e ↔
    Fails x st e ∨ ∃ b st', x st = .ok b st' ∧ Fails (f b) st' e := by
  unfold Fails
  rw [bind_apply]
  cases x st with
  | ok b st' =>
    dsimp only
    constructor
    · exact fun h => .inr ⟨b, st', rfl, h⟩
    · rintro (⟨_, ⟨⟩⟩ | ⟨_, _, ⟨⟩, h⟩)
      exact h
  | error e' st' =>
    dsimp only
    constructor
    · rintro ⟨_, ⟨⟩⟩
      exact .inl ⟨_, rfl⟩
    · rintro (⟨_, ⟨⟩⟩ | ⟨_, _, ⟨⟩, _⟩)
      exact ⟨_, rfl⟩

theorem not_fails_pure (a : α) : ¬ Fails (pure a) st e := by
  rintro ⟨_, ⟨⟩⟩

/-- A node gives its place to an error that has none. -/
theorem fails_located : Fails (Run.located p x) st e ↔ ∃ e', Fails x st e' ∧ e'.locate p = e := by
  unfold Fails Run.located
  cases x st with
  | ok b st' =>
    constructor
    · rintro ⟨_, ⟨⟩⟩
    · rintro ⟨_, ⟨_, ⟨⟩⟩, -⟩
  | error stop st' =>
    cases stop with
    | error e' =>
      dsimp only
      constructor
      · rintro ⟨st₁, h⟩
        injection h with h
        exact ⟨e', ⟨st', rfl⟩, Stop.error.inj h⟩
      · rintro ⟨e₁, ⟨st₁, h⟩, rfl⟩
        injection h with h
        rw [Stop.error.inj h]
        exact ⟨st', rfl⟩
    | _ =>
      constructor
      · rintro ⟨_, ⟨⟩⟩
      · rintro ⟨_, ⟨_, ⟨⟩⟩, -⟩

theorem fails_deeper :
    Fails (Run.deeper x) st e ↔ Fails x st.enterCall e := by
  unfold Fails Run.deeper
  cases x st.enterCall with
  | ok b st' => exact ⟨nofun, nofun⟩
  | error stop st' =>
    constructor
    · rintro ⟨_, ⟨⟩⟩
      exact ⟨st', rfl⟩
    · rintro ⟨_, ⟨⟩⟩
      exact ⟨_, rfl⟩

theorem locate_known (h : e.place.isKnown = true) : e.locate p = e := if_pos h

/-- An error comes out of a node with its own place or with that of the node. -/
theorem locate_cases (e : RuntimeError) (p : Place) :
    e.place.isKnown = true ∧ e.locate p = e ∨ (e.locate p).place = p := by
  by_cases h : e.place.isKnown = true
  · exact .inl ⟨h, locate_known h⟩
  · right
    rw [RuntimeError.locate, if_neg h]

end

variable {set : Settings} {F : Frame} {spots : Set Place} {d fuel s : Nat} {α : Type}
  {p : Script α} {t : Task} {st now : State} {m : Moment} {e : RuntimeError}

/-! ### A placed error goes all the way out -/

theorem begins_fails (hknown : e.place.isKnown = true) (h : p.Begins set fuel t now st)
    (ht : Fails (t.run set fuel) now e) : Fails (p.play (Task.run set fuel)) st e := by
  induction p generalizing st with
  | done a => cases h
  | act x next ih =>
    obtain ⟨b, st', hx, h⟩ := h
    exact fails_bind.mpr (.inr ⟨b, st', hx, ih b h⟩)
  | task t' next ih =>
    rcases h with ⟨rfl, rfl⟩ | ⟨b, st', hx, h⟩
    · exact fails_bind.mpr (.inl ht)
    · exact fails_bind.mpr (.inr ⟨b, st', hx, ih b h⟩)
  | located q inner next ihinner ih =>
    rcases h with h | ⟨b, st', hx, h⟩
    · exact fails_bind.mpr (.inl (fails_located.mpr ⟨e, ihinner h, locate_known hknown⟩))
    · exact fails_bind.mpr (.inr ⟨b, st', hx, ih b h⟩)
  | deeper inner next ihinner ih =>
    rcases h with h | ⟨b, st', hx, h⟩
    · exact fails_bind.mpr (.inl (fails_deeper.mpr (ihinner h)))
    · exact fails_bind.mpr (.inr ⟨b, st', hx, ih b h⟩)

theorem fails_succ : Fails (t.run set (fuel + 1)) st e ↔
    Fails ((t.script set).play (Task.run set fuel)) st e := by
  rw [run_succ]

theorem reaches_fails {into : Task → Prop} (hknown : e.place.isKnown = true)
    (h : Reaches set into fuel p st m) (hm : m.Fails set e) :
    Fails (p.play (Task.run set fuel)) st e := by
  induction h with
  | begun hb => exact begins_fails hknown hb hm
  | inside _ hb _ ih => exact begins_fails hknown hb (fails_succ.mpr (ih hm))

/-- How an error with a place comes out of a node, of a call and of a task around it: as it is. -/
structure GoesOut (set : Settings) (e : RuntimeError) : Prop where
  node : ∀ {α : Type} (x : Run α) (p : Place) (st : State), Fails x st e →
    Fails (Run.located p x) st e
  call : ∀ {α : Type} (x : Run α) (st : State), Fails x st.enterCall e →
    Fails (Run.deeper x) st e
  task : ∀ (m m' : Moment) (k : Nat), m.fuel = k + 1 →
    Reaches set (fun _ => True) k (m.task.script set) m.state m' → m'.Fails set e → m.Fails set e

theorem placed_goes_out (set : Settings) (hknown : e.place.isKnown = true) : GoesOut set e where
  node _ _ _ h := fails_located.mpr ⟨e, h, locate_known hknown⟩
  call _ _ h := fails_deeper.mpr h
  task := by
    rintro ⟨t, fuel, now⟩ m' k rfl hreaches hfails
    exact fails_succ.mpr (reaches_fails hknown hreaches hfails)

/-! ### A placed error got its place from the innermost task -/

/-- A script's placed error is at one of its spots, or a task that it began failed with it. -/
theorem script_fails (hspots : spots ⊆ F.places) (hp : Framed set F spots d p) (hst : F.Kept d st)
    (hknown : e.place.isKnown = true) (h : Fails (p.play (Task.run set fuel)) st e) :
    e.place ∈ spots ∨ ∃ t now, p.Begins set fuel t now st ∧ Fails (t.run set fuel) now e := by
  induction hp generalizing st e with
  | done => exact absurd h (not_fails_pure _)
  | act hx _ ih =>
    rcases fails_bind.mp h with ⟨st', h⟩ | ⟨b, st', hok, h⟩
    · exact .inl ((preserved_error (hx st hst) h).1 e rfl hknown)
    · obtain ⟨hb, hst'⟩ := preserved_ok (hx st hst) hok
      rcases ih b hb hst' hknown h with h | ⟨t, now, hbegins, h⟩
      · exact .inl h
      · exact .inr ⟨t, now, ⟨b, st', hok, hbegins⟩, h⟩
  | @task _ _ t next ht _ ih =>
    rcases fails_bind.mp h with h | ⟨b, st', hok, h⟩
    · exact .inr ⟨t, st, .inl ⟨rfl, rfl⟩, h⟩
    · rcases ih b (task_kept ht hst hok) hknown h with h | ⟨t', now, hbegins, h⟩
      · exact .inl h
      · exact .inr ⟨t', now, .inr ⟨b, st', hok, hbegins⟩, h⟩
  | located hplace hi _ ihinner ih =>
    rcases fails_bind.mp h with h | ⟨b, st', hok, h⟩
    · obtain ⟨e', hinner, rfl⟩ := fails_located.mp h
      rcases locate_cases e' _ with ⟨hknown', hsame⟩ | hsame
      · rw [hsame]
        rcases ihinner hst hknown' hinner with h | ⟨t, now, hbegins, h⟩
        · exact .inl h
        · exact .inr ⟨t, now, .inl hbegins, h⟩
      · rw [hsame]
        exact .inl hplace
    · rcases ih b (located_kept hspots hplace hi hst hok) hknown h with h | ⟨t, now, hbegins, h⟩
      · exact .inl h
      · exact .inr ⟨t, now, .inr ⟨b, st', hok, hbegins⟩, h⟩
  | deeper _ hi _ ihinner ih =>
    rcases fails_bind.mp h with h | ⟨b, st', hok, h⟩
    · rcases ihinner hst.deeper hknown (fails_deeper.mp h) with h | ⟨t, now, hbegins, h⟩
      · exact .inl h
      · exact .inr ⟨t, now, .inl hbegins, h⟩
    · rcases ih b (deeper_kept hspots hi hst hok) hknown h with h | ⟨t, now, hbegins, h⟩
      · exact .inl h
      · exact .inr ⟨t, now, .inr ⟨b, st', hok, hbegins⟩, h⟩

/-- The task of this moment gave an error its place: it fails with it, and nothing that it begins
fails with an error that has a place. -/
structure Innermost (set : Settings) (m : Moment) (e : RuntimeError) : Prop where
  fails : m.Fails set e
  first : ∀ k t now e', m.fuel = k + 1 → (m.task.script set).Begins set k t now m.state →
    e'.place.isKnown = true → ¬ Fails (t.run set k) now e'
  spot : e.place ∈ m.task.spots

theorem innermost_found (hknown : e.place.isKnown = true) (ht : t.Within F) (hnow : F.Kept d now)
    (h : Fails (t.run set fuel) now e) :
    ∃ m, Innermost set m e ∧ (m = ⟨t, fuel, now⟩ ∨
      ∃ k, fuel = k + 1 ∧ Reaches set (fun _ => True) k (t.script set) now m) := by
  induction fuel generalizing t now d with
  | zero =>
    rw [run_zero] at h
    obtain ⟨_, ⟨⟩⟩ := h
  | succ fuel ih =>
    by_cases hinside : ∃ t' now' e', (t.script set).Begins set fuel t' now' now ∧
        e'.place.isKnown = true ∧ Fails (t'.run set fuel) now' e'
    · obtain ⟨t', now', e', hbegins, hknown', hfails⟩ := hinside
      obtain rfl : e = e' :=
        fails_unique h (fails_succ.mpr (begins_fails hknown' hbegins hfails))
      obtain ⟨ht', d', hnow'⟩ :=
        begins_within (spots_places ht) (script_framed ht) hnow hbegins
      obtain ⟨m, hm, rfl | ⟨k, rfl, hreaches⟩⟩ := ih ht' hnow' hfails
      · exact ⟨_, hm, .inr ⟨fuel, rfl, .begun hbegins⟩⟩
      · exact ⟨m, hm, .inr ⟨k + 1, rfl, .inside trivial hbegins hreaches⟩⟩
    · refine ⟨⟨t, fuel + 1, now⟩, ⟨h, ?_, ?_⟩, .inl rfl⟩
      · rintro k t' now' e' hk hbegins hknown' hfails
        obtain rfl : fuel = k := Nat.succ.inj hk
        exact hinside ⟨t', now', e', hbegins, hknown', hfails⟩
      · rcases script_fails (spots_places ht) (script_framed ht) hnow hknown (fails_succ.mp h) with
          h | ⟨t', now', hbegins, hfails⟩
        · exact h
        · exact absurd ⟨t', now', e, hbegins, hknown, hfails⟩ hinside

/-! ### No error of a statement is without a place -/

theorem not_fails_place (node : Node) : ¬ Fails (place node) st e := by
  unfold place
  cases node.pos? <;> rintro ⟨_, ⟨⟩⟩

theorem place_ok {node : Node} {q : Place} {st' : State} (h : place node st = .ok q st') :
    node.pos = q := by
  unfold place at h
  cases hq : node.pos? with
  | none =>
    rw [hq] at h
    cases h
  | some q' =>
    rw [hq] at h
    cases h
    exact Node.pos_of_pos? hq

theorem statement_error_known {node : Node} (hnode : node.pos.isKnown = true)
    (h : Fails (execute set fuel node s) st e) : e.place.isKnown = true := by
  cases fuel with
  | zero =>
    rw [show execute set 0 node s = throw .starved from run_zero set (.work (.execute node s))] at h
    obtain ⟨_, ⟨⟩⟩ := h
  | succ fuel =>
    rw [execute_succ] at h
    change Fails ((Script.doing (place node) >>= fun p => Script.inNode p _).play _) st e at h
    rw [Script.play_bind, Script.play_doing] at h
    rcases fails_bind.mp h with h | ⟨p, st', hp, h⟩
    · exact absurd h (not_fails_place node)
    · have hpos : node.pos = p := place_ok hp
      rw [Script.play_inNode] at h
      obtain ⟨e', -, rfl⟩ := fails_located.mp h
      rcases locate_cases e' p with ⟨hknown, hsame⟩ | hsame
      · rw [hsame]
        exact hknown
      · rw [hsame, ← hpos]
        exact hnode

theorem block_error_known {ns : List Node} (hns : ∀ n ∈ ns, n.pos.isKnown = true)
    (h : Fails ((Script.block s ns).play (Task.run set fuel)) st e) : e.place.isKnown = true := by
  induction ns generalizing st with
  | nil => exact absurd h (not_fails_pure _)
  | cons n ns ih =>
    obtain ⟨hn, hns⟩ := List.forall_mem_cons.mp hns
    rw [Script.block, Script.play_bind, Script.play_perform] at h
    rcases fails_bind.mp h with h | ⟨completion, st', -, h⟩
    · exact statement_error_known hn h
    · cases completion with
      | normal => exact ih hns h
      | _ => exact absurd h (not_fails_pure _)

end Offside.Evaluator
