import Offside.Node.Document
import Offside.Proofs.Fallible
import Offside.Proofs.Printer.Literal
import Offside.Proofs.Tree

/-!
Documents of trees. A tree whose literals can be written has a document, and reading the document
gives the tree back with all its places. The parts of a tree have smaller documents, so the level
of the document bounds the reading; an integer too long for a number comes back from its numeral.
-/

namespace Offside

namespace Json

theorem depth_pos (j : Json) : 0 < j.depth := by
  cases j <;> simp [depth]

theorem item_depth {j : Json} {items : List Json} (h : j ∈ items) :
    j.depth < (array items).depth := by
  rw [depth]
  induction items with
  | nil => cases h
  | cons item items ih =>
    rw [itemsDepth]
    rcases List.mem_cons.mp h with rfl | h
    · omega
    · have := ih h
      omega

theorem field_depth {name : String} {j : Json} {fields : List (String × Json)}
    (h : (name, j) ∈ fields) : j.depth < (object fields).depth := by
  rw [depth]
  induction fields with
  | nil => cases h
  | cons field fields ih =>
    rw [fieldsDepth]
    rcases List.mem_cons.mp h with rfl | h
    · exact Nat.lt_succ_of_le (Nat.le_max_left ..)
    · have := ih h
      omega

end Json

namespace Node

variable {fuel : Nat} {n m : Node}

/-- Every literal of the tree can be written. -/
def IsWritable (n : Node) : Prop :=
  ∀ kind value, (kind, value) ∈ n.literals → literalDefect? kind value = none

/-! ### The documents and the literals of the parts -/

theorem listToJson_map (ns : List Node) : listToJson ns = ns.map toJson := by
  induction ns with
  | nil => rfl
  | cons n ns ih => rw [listToJson, ih, List.map_cons]

theorem pairsToJson_map (ps : List (Node × Node)) :
    pairsToJson ps = ps.map fun e => .array [e.1.toJson, e.2.toJson] := by
  induction ps with
  | nil => rfl
  | cons p ps ih => rw [pairsToJson, ih, List.map_cons]

theorem branchesToJson_map (bs : List (Node × List Node)) :
    branchesToJson bs = bs.map fun b => .array [b.1.toJson, .array (listToJson b.2)] := by
  induction bs with
  | nil => rfl
  | cons b bs ih => rw [branchesToJson, ih, List.map_cons]

theorem listLiterals_flatMap (ns : List Node) : listLiterals ns = ns.flatMap literals := by
  induction ns with
  | nil => rfl
  | cons n ns ih => rw [listLiterals, ih, List.flatMap_cons]

theorem pairLiterals_flatMap (ps : List (Node × Node)) :
    pairLiterals ps = (ps.flatMap fun e => [e.1, e.2]).flatMap literals := by
  induction ps with
  | nil => rfl
  | cons p ps ih => simp [pairLiterals, ih]

theorem branchLiterals_flatMap (bs : List (Node × List Node)) :
    branchLiterals bs = (bs.flatMap fun b => b.1 :: b.2).flatMap literals := by
  induction bs with
  | nil => rfl
  | cons b bs ih => simp [branchLiterals, listLiterals_flatMap, ih]

theorem part_literals (h : m ∈ n.parts) {l : Json × Json} (hl : l ∈ m.literals) :
    l ∈ n.literals := by
  have hlist {ns : List Node} (hm : m ∈ ns) : l ∈ listLiterals ns := by
    rw [listLiterals_flatMap]
    exact List.mem_flatMap.mpr ⟨m, hm, hl⟩
  cases n <;> simp only [parts, List.mem_cons, List.mem_append, List.not_mem_nil,
    or_false] at h <;> simp only [literals, List.mem_append]
  case unaryOp | member | lambda | exprStmt | returnStmt | delete => exact h ▸ hl
  case binaryOp | index | assign | augAssign =>
    rcases h with rfl | rfl
    · exact .inl hl
    · exact .inr hl
  case call | whileStmt | forStmt =>
    rcases h with rfl | h
    · exact .inl hl
    · exact .inr (hlist h)
  case listLiteral | functionDef | program => exact hlist h
  case mapLiteral =>
    rw [pairLiterals_flatMap]
    exact List.mem_flatMap.mpr ⟨m, h, hl⟩
  case ifStmt _ bs e =>
    rcases h with h | h
    · rw [branchLiterals_flatMap]
      exact .inl (List.mem_flatMap.mpr ⟨m, h, hl⟩)
    · cases e with
      | none => cases h
      | some body => exact .inr (hlist h)

theorem IsWritable.part (h : n.IsWritable) (hm : m ∈ n.parts) : m.IsWritable :=
  fun kind value hl => h kind value (part_literals hm hl)

/-- The document of a part stands in a field, in a list or in a list of a list. -/
theorem part_depth (h : m ∈ n.parts) : m.toJson.depth < n.toJson.depth := by
  have hfield {k : Node} {fields : List (String × Json)} {name : String} {j : Json}
      (hj : (name, j) ∈ fields) : j.depth < (tagged k fields).depth :=
    Json.field_depth (List.mem_cons_of_mem _ (List.mem_cons_of_mem _ (List.mem_cons_of_mem _ hj)))
  have hlist {ns : List Node} (hm : m ∈ ns) :
      m.toJson.depth < (Json.array (listToJson ns)).depth := by
    rw [listToJson_map]
    exact Json.item_depth (List.mem_map_of_mem hm)
  cases n <;> simp only [parts, List.mem_cons, List.mem_append, List.mem_flatMap,
    List.not_mem_nil, or_false] at h <;> simp only [toJson]
  case unaryOp => exact h ▸ hfield (.tail _ (.head _))
  case member | exprStmt | returnStmt | delete => exact h ▸ hfield (.head _)
  case lambda => exact h ▸ hfield (.tail _ (.head _))
  case binaryOp =>
    rcases h with rfl | rfl
    · exact hfield (.tail _ (.head _))
    · exact hfield (.tail _ (.tail _ (.head _)))
  case index | assign =>
    rcases h with rfl | rfl
    · exact hfield (.head _)
    · exact hfield (.tail _ (.head _))
  case augAssign =>
    rcases h with rfl | rfl
    · exact hfield (.head _)
    · exact hfield (.tail _ (.tail _ (.head _)))
  case call | whileStmt =>
    rcases h with rfl | h
    · exact hfield (.head _)
    · exact (hlist h).trans (hfield (.tail _ (.head _)))
  case forStmt =>
    rcases h with rfl | h
    · exact hfield (.tail _ (.head _))
    · exact (hlist h).trans (hfield (.tail _ (.tail _ (.head _))))
  case listLiteral | program => exact (hlist h).trans (hfield (.head _))
  case functionDef => exact (hlist h).trans (hfield (.tail _ (.tail _ (.head _))))
  case mapLiteral =>
    obtain ⟨e, he, hm⟩ := h
    have hentry : m.toJson.depth < (Json.array [e.1.toJson, e.2.toJson]).depth := by
      rcases hm with rfl | rfl
      · exact Json.item_depth (.head _)
      · exact Json.item_depth (.tail _ (.head _))
    have hentries := Json.item_depth (List.mem_map_of_mem (f := fun e : Node × Node =>
      Json.array [e.1.toJson, e.2.toJson]) he)
    rw [← pairsToJson_map] at hentries
    exact (hentry.trans hentries).trans (hfield (.head _))
  case ifStmt _ bs e =>
    rcases h with ⟨b, hb, hm⟩ | h
    · have hbranch : m.toJson.depth <
          (Json.array [b.1.toJson, .array (listToJson b.2)]).depth := by
        rcases hm with rfl | hm
        · exact Json.item_depth (.head _)
        · exact (hlist hm).trans (Json.item_depth (.tail _ (.head _)))
      have hbranches := Json.item_depth (List.mem_map_of_mem (f := fun b : Node × List Node =>
        Json.array [b.1.toJson, .array (listToJson b.2)]) hb)
      rw [← branchesToJson_map] at hbranches
      exact (hbranch.trans hbranches).trans (hfield (.head _))
    · cases e with
      | none => cases h
      | some body => exact (hlist h).trans (hfield (.tail _ (.head _)))

/-! ### Reading a document back -/

theorem literalValue_datum {kind value : Json} (h : literalDefect? kind value = none) :
    literalValue kind (literalDatum kind value) = .ok value := by
  cases value with
  | integer n =>
    dsimp only [literalDatum]
    by_cases hlong : (kind.isText "Integer" && longInteger ≤ n.natAbs) = true
    · have hkind : kind.isText "Integer" = true := (Bool.and_eq_true _ _ ▸ hlong).1
      rw [if_pos hlong]
      dsimp only [literalValue]
      rw [if_pos hkind, Number.readInteger_numeral]
    · rw [if_neg hlong]
      rfl
  | string s =>
    -- a text can only be a literal of another kind
    by_cases hkind : kind.isText "Integer" = true
    · dsimp only [literalDefect?] at h
      rw [if_pos hkind] at h
      cases h
    · dsimp only [literalDatum, literalValue]
      rw [if_neg hkind]
  | _ => rfl

theorem mapM_map_ok {α β ε : Type} {f : β → Except ε α} {g : α → β} {as : List α}
    (h : ∀ a ∈ as, f (g a) = .ok a) : (as.map g).mapM f = .ok as :=
  mapM_ok_iff.mpr (List.forall₂_map_left_iff.mpr (List.forall₂_same.mpr h))

theorem readTree_list {ns : List Node} (h : ∀ m ∈ ns, readTree fuel m.toJson = .ok m) :
    (listToJson ns).mapM (readTree fuel) = .ok ns := by
  rw [listToJson_map]
  exact mapM_map_ok h

/-! #### Nodes by their parts -/

section Parts

variable {a b : Node} {ns : List Node}

theorem readTree_one (build : Node → Node) (ha : readTree fuel a.toJson = .ok a) :
    (do return build (← readTree fuel a.toJson)) = .ok (build a) := by
  rw [ha]
  rfl

theorem readTree_two (build : Node → Node → Node) (ha : readTree fuel a.toJson = .ok a)
    (hb : readTree fuel b.toJson = .ok b) :
    (do return build (← readTree fuel a.toJson) (← readTree fuel b.toJson)) =
      .ok (build a b) := by
  rw [ha, hb]
  rfl

theorem readTree_body (build : List Node → Node)
    (hns : ∀ m ∈ ns, readTree fuel m.toJson = .ok m) :
    (do return build (← (listToJson ns).mapM (readTree fuel))) = .ok (build ns) := by
  rw [readTree_list hns]
  rfl

theorem readTree_headed (build : Node → List Node → Node)
    (hparts : ∀ m ∈ a :: ns, readTree fuel m.toJson = .ok m) :
    (do return build (← readTree fuel a.toJson) (← (listToJson ns).mapM (readTree fuel))) =
      .ok (build a ns) := by
  rw [hparts a List.mem_cons_self, readTree_list fun m hm => hparts m (List.mem_cons_of_mem a hm)]
  rfl

theorem readTree_entries {es : List (Node × Node)}
    (hparts : ∀ m ∈ es.flatMap fun e => [e.1, e.2], readTree fuel m.toJson = .ok m) :
    ((pairsToJson es).mapM fun e => do
      let entry ← pairOf e
      return (← readTree fuel entry.1, ← readTree fuel entry.2)) = .ok es := by
  rw [pairsToJson_map, mapM_map_ok]
  intro e he
  have hpart : ∀ m ∈ [e.1, e.2], readTree fuel m.toJson = .ok m :=
    fun m hm => hparts m (List.mem_flatMap.mpr ⟨e, he, hm⟩)
  change (do return (← readTree fuel e.1.toJson, ← readTree fuel e.2.toJson)) = _
  rw [hpart e.1 (.head _), hpart e.2 (.tail _ (.head _))]
  rfl

theorem readTree_branches {bs : List (Node × List Node)}
    (hparts : ∀ m ∈ bs.flatMap fun b => b.1 :: b.2, readTree fuel m.toJson = .ok m) :
    ((branchesToJson bs).mapM fun b => do
      let branch ← pairOf b
      return (← readTree fuel branch.1, ← (← partsOf branch.2).mapM (readTree fuel))) =
        .ok bs := by
  rw [branchesToJson_map, mapM_map_ok]
  intro b hb
  have hpart : ∀ m ∈ b.1 :: b.2, readTree fuel m.toJson = .ok m :=
    fun m hm => hparts m (List.mem_flatMap.mpr ⟨b, hb, hm⟩)
  change (do
    return (← readTree fuel b.1.toJson, ← (listToJson b.2).mapM (readTree fuel))) = _
  rw [hpart b.1 (.head _), readTree_list fun m hm => hpart m (.tail _ hm)]
  rfl

theorem readTree_literal {p : Place} {value kind : Json}
    (h : literalDefect? kind value = none) :
    (do return literal p (← literalValue kind (literalDatum kind value)) kind :
      Except DocumentError Node) = .ok (literal p value kind) := by
  rw [literalValue_datum h]
  rfl

theorem readTree_if {p : Place} {bs : List (Node × List Node)} {e : Option (List Node)}
    (hparts : ∀ m ∈ (ifStmt p bs e).parts, readTree fuel m.toJson = .ok m) :
    readTree (fuel + 1) (ifStmt p bs e).toJson = .ok (ifStmt p bs e) := by
  have hbranches := readTree_branches fun m hm => hparts m (List.mem_append_left _ hm)
  cases e with
  | none =>
    change (do
      let branches ← (branchesToJson bs).mapM fun b => do
        let branch ← pairOf b
        return (← readTree fuel branch.1, ← (← partsOf branch.2).mapM (readTree fuel))
      return ifStmt p branches none) = _
    rw [hbranches]
    rfl
  | some body =>
    have hbody : ∀ m ∈ body, readTree fuel m.toJson = .ok m :=
      fun m hm => hparts m (List.mem_append_right _ hm)
    change (do
      let branches ← (branchesToJson bs).mapM fun b => do
        let branch ← pairOf b
        return (← readTree fuel branch.1, ← (← partsOf branch.2).mapM (readTree fuel))
      let elseBody ← some <$> (listToJson body).mapM (readTree fuel)
      return ifStmt p branches elseBody) = _
    rw [hbranches, readTree_list hbody]
    rfl

theorem readTree_map {p : Place} {es : List (Node × Node)}
    (hparts : ∀ m ∈ (mapLiteral p es).parts, readTree fuel m.toJson = .ok m) :
    readTree (fuel + 1) (mapLiteral p es).toJson = .ok (mapLiteral p es) := by
  change (do
    let entries ← (pairsToJson es).mapM fun e => do
      let entry ← pairOf e
      return (← readTree fuel entry.1, ← readTree fuel entry.2)
    return mapLiteral p entries) = _
  rw [readTree_entries hparts]
  rfl

end Parts

/-- A node is read back where its parts are. -/
theorem readTree_node (h : n.IsWritable) (hparts : ∀ m ∈ n.parts, readTree fuel m.toJson = .ok m) :
    readTree (fuel + 1) n.toJson = .ok n := by
  cases n with
  | hole | identifier | breakStmt | continueStmt | passStmt => rfl
  | literal p v k => exact readTree_literal (h k v (.head _))
  | unaryOp p o a => exact readTree_one (unaryOp p o) (hparts a (.head _))
  | binaryOp p o a b =>
    exact readTree_two (binaryOp p o) (hparts a (.head _)) (hparts b (.tail _ (.head _)))
  | call p f as => exact readTree_headed (call p) hparts
  | index p t i => exact readTree_two (index p) (hparts t (.head _)) (hparts i (.tail _ (.head _)))
  | member p t x => exact readTree_one (member p · x) (hparts t (.head _))
  | listLiteral p es => exact readTree_body (listLiteral p) hparts
  | mapLiteral p es => exact readTree_map hparts
  | lambda p ps b => exact readTree_one (lambda p ps) (hparts b (.head _))
  | exprStmt p e => exact readTree_one (exprStmt p) (hparts e (.head _))
  | assign p t v =>
    exact readTree_two (assign p) (hparts t (.head _)) (hparts v (.tail _ (.head _)))
  | augAssign p t o v =>
    exact readTree_two (augAssign p · o) (hparts t (.head _)) (hparts v (.tail _ (.head _)))
  | ifStmt p bs e => exact readTree_if hparts
  | whileStmt p c b => exact readTree_headed (whileStmt p) hparts
  | forStmt p x i b => exact readTree_headed (forStmt p x) hparts
  | functionDef p x ps b => exact readTree_body (functionDef p x ps) hparts
  | returnStmt p v => exact readTree_one (returnStmt p) (hparts v (.head _))
  | delete p t => exact readTree_one (delete p) (hparts t (.head _))
  | program p b => exact readTree_body (program p) hparts

theorem readTree_toJson (h : n.IsWritable) (hd : n.toJson.depth ≤ fuel) :
    readTree fuel n.toJson = .ok n := by
  induction fuel generalizing n with
  | zero =>
    have := n.toJson.depth_pos
    omega
  | succ fuel ih =>
    apply readTree_node h
    intro m hm
    have := part_depth hm
    exact ih (h.part hm) (by omega)

/-! ### Documents -/

theorem toDocument_ok {doc : Json} : n.toDocument = .ok doc ↔ n.IsWritable ∧ doc = n.toJson := by
  rw [toDocument]
  split
  · next e he =>
    obtain ⟨l, hl, hdefect⟩ := List.exists_of_findSome?_eq_some he
    constructor
    · intro h
      cases h
    · intro h
      cases (h.1 l.1 l.2 hl).symm.trans hdefect
  · next hnone =>
    have hw : n.IsWritable :=
      fun kind value hl => List.findSome?_eq_none_iff.mp hnone (kind, value) hl
    constructor
    · intro h
      cases h
      exact ⟨hw, rfl⟩
    · rintro ⟨-, rfl⟩
      rfl

theorem writable_of_integers
    (h : ∀ kind value, (kind, value) ∈ n.literals → kind = .string "Integer" →
      ∃ i, value = .integer i) : n.IsWritable := by
  intro kind value hl
  unfold literalDefect?
  by_cases hkind : kind.isText "Integer" = true
  · have hinteger : kind = .string "Integer" := by
      cases kind <;> simp_all [Json.isText]
    obtain ⟨i, rfl⟩ := h kind value hl hinteger
    rw [if_pos hkind]
  · rw [if_neg hkind]

/-- The document of a tree is read back as that tree, and what is read from it is written as that
document again. Every tree has one in which the literals of kind Integer are integers. -/
theorem document_read_back (n : Node) :
    (∀ doc, n.toDocument = .ok doc →
      ofJson doc = .ok n ∧ ∀ m, ofJson doc = .ok m → m.toDocument = .ok doc) ∧
    ((∀ kind value, (kind, value) ∈ n.literals → kind = .string "Integer" →
      ∃ i, value = .integer i) → ∃ doc, n.toDocument = .ok doc) := by
  constructor
  · intro doc hdoc
    obtain ⟨hw, rfl⟩ := toDocument_ok.mp hdoc
    have hread : ofJson n.toJson = .ok n := readTree_toJson hw (by omega)
    refine ⟨hread, fun m hm => ?_⟩
    cases hread.symm.trans hm
    exact hdoc
  · intro h
    exact ⟨n.toJson, toDocument_ok.mpr ⟨writable_of_integers h, rfl⟩⟩

/-- A function that returns, under a condition without an alternative, an integer that is written
as text, and otherwise nothing. -/
def longReturn : Node :=
  .functionDef ⟨.integer 1, .integer 1⟩ "f" ["a"]
    [.ifStmt ⟨.integer 2, .integer 5⟩
      [(.identifier ⟨.integer 2, .integer 8⟩ "a",
        [.returnStmt ⟨.integer 3, .integer 9⟩
          (.literal ⟨.integer 3, .integer 16⟩ (.integer (-10 ^ 1000)) "Integer")])] none,
      .returnStmt ⟨.integer 4, .integer 5⟩ .hole]

theorem longReturn_read_back :
    (∀ kind value, (kind, value) ∈ longReturn.literals → kind = .string "Integer" →
      ∃ i, value = .integer i) ∧
    ∃ doc, longReturn.toDocument = .ok doc ∧ ofJson doc = .ok longReturn := by
  have hintegers : ∀ kind value, (kind, value) ∈ longReturn.literals →
      kind = .string "Integer" → ∃ i, value = .integer i := by
    intro kind value hl _
    obtain ⟨-, rfl⟩ := Prod.mk.inj (List.mem_singleton.mp hl)
    exact ⟨_, rfl⟩
  obtain ⟨hback, hwritten⟩ := document_read_back longReturn
  obtain ⟨doc, hdoc⟩ := hwritten hintegers
  exact ⟨hintegers, doc, hdoc, (hback doc hdoc).1⟩

end Node

end Offside
