import Offside.Proofs.Adding
import Offside.Proofs.Heap.Depiction
import Offside.Proofs.Library.Standard
import Offside.Proofs.Mapping

/-!
JSON text of values is read back. What is read are new objects that mirror those the text was made
from, item by item and key by key; where one List stood in several places there are now several.
-/

namespace Offside.Library

open Offside.Action JsonText

variable {h : Heap} {v : Value} {j : Json} {w w' : World}

namespace JsonText

theorem values_mapM (js : List Json) : values js = js.mapM value := by
  induction js with
  | nil => rfl
  | cons j js ih => rw [values, ih, List.mapM_cons]

theorem entries_mapM (fields : List (String × Json)) :
    entries fields = fields.mapM fun f => do
      let v ← value f.2
      return (.string f.1, v) := by
  induction fields with
  | nil => rfl
  | cons f fields ih =>
    rw [entries, ih, List.mapM_cons]
    simp only [bind_assoc, pure_bind]

/-- The items of the data and those that they are of. -/
theorem values_builds {items : List Value} {js : List Json} (hlen : items.length = js.length)
    (hp : ∀ p ∈ items.zip js, ∀ {w : World}, h.Extends w.heap →
      Builds (fun h' r => h'.Mirrors r p.1) (value p.2) w) (he : h.Extends w.heap) :
    Builds (fun h' rs => List.Forall₂ h'.Mirrors rs items) (values js) w := by
  have hjs : js = (items.zip js).map Prod.snd := (List.map_snd_zip hlen.ge).symm
  have hitems : items = (items.zip js).map Prod.fst := (List.map_fst_zip hlen.le).symm
  have hmono (h₁ h₂ : Heap) (p : Value × Json) (r : Value) (hext : h₁.Extends h₂)
      (hm : h₁.Mirrors r p.1) : h₂.Mirrors r p.1 := hm.mono hext
  rw [values_mapM, hjs, List.mapM_map]
  refine builds_imp (builds_mapM hmono fun p hmem h₁ he₁ => hp p hmem (he.trans he₁)) ?_
  intro rs h₁ _ hrs
  rw [hitems]
  exact List.forall₂_map_right_iff.mpr hrs.flip

theorem zip_keys {m : Mapping} {fields : List (String × Json)}
    (hkeys : m.keys = fields.map (.string ·.1)) :
    ∀ p ∈ m.entries.zip fields, p.1.1 = .string p.2.1 := by
  have hall : List.Forall₂ (fun e f => e.1 = Value.string f.1) m.entries fields := by
    refine List.forall₂_map_left_iff.mp (List.forall₂_map_right_iff.mp ?_)
    rw [List.forall₂_eq_eq_eq]
    exact hkeys
  exact fun p hp => (List.forall₂_iff_zip.mp hall).2 hp

/-- The fields of the data and the entries that they are of. -/
theorem entries_builds {m : Mapping} {fields : List (String × Json)}
    (hkeys : m.keys = fields.map (.string ·.1))
    (hp : ∀ p ∈ m.entries.zip fields, ∀ {w : World}, h.Extends w.heap →
      Builds (fun h' r => h'.Mirrors r p.1.2) (value p.2.2) w) (he : h.Extends w.heap) :
    Builds (fun h' es => List.Forall₂ h'.MirrorsEntry es m.entries) (entries fields) w := by
  have hlen := Heap.keys_length hkeys
  have hfields : fields = (m.entries.zip fields).map Prod.snd := (List.map_snd_zip hlen.ge).symm
  have hentries : m.entries = (m.entries.zip fields).map Prod.fst :=
    (List.map_fst_zip hlen.le).symm
  have hmono (h₁ h₂ : Heap) (p : (Value × Value) × String × Json) (e : Value × Value)
      (hext : h₁.Extends h₂) (hm : h₁.MirrorsEntry e p.1) : h₂.MirrorsEntry e p.1 :=
    ⟨hm.1, hm.2.mono hext⟩
  rw [entries_mapM, hfields, List.mapM_map]
  refine builds_imp (builds_mapM hmono fun p hmem h₁ he₁ => ?_) ?_
  · refine builds_bind (hp p hmem (he.trans he₁)) fun r h₂ _ hr => builds_pure ?_
    exact ⟨(zip_keys hkeys p hmem).symm, hr⟩
  · intro es h₁ _ hes
    rw [hentries]
    exact List.forall₂_map_right_iff.mpr hes.flip

end JsonText

/-- Data of a value build a mirror of it. -/
theorem value_builds (hd : h.Depicts v j) (he : h.Extends w.heap) :
    Builds (fun h' r => h'.Mirrors r v) (value j) w := by
  induction hd generalizing w with
  | null => exact builds_pure (.scalar trivial)
  | boolean | integer | string => exact builds_pure (.scalar trivial)
  | @list i js hi hlen _ ih =>
    rw [value]
    refine builds_bind (values_builds (Array.length_toList.trans hlen) ih he) fun rs h₁ he₁ hrs => ?_
    refine builds_imp (builds_newList rs) ?_
    rintro r h₂ he₂ ⟨k, rfl, hk, hitems⟩
    obtain ⟨hi₁, hv⟩ := (he.trans he₁).lists i hi
    obtain ⟨hi₂, hv₂⟩ := he₂.lists i hi₁
    refine Heap.mirrors_list hk hi₂ ?_
    rw [hitems, hv₂, hv]
    exact hrs.imp fun a b hab => hab.mono he₂
  | @mapping i fields hi hdistinct hkeys _ ih =>
    rw [value]
    refine builds_bind (entries_builds hkeys ih he) fun es h₁ he₁ hes => ?_
    have hsame : Mapping.keys ⟨es⟩ = (h.mapping i).keys := Heap.mirrorsEntry_keys hes
    rw [Mapping.ofEntries_distinct (Mapping.distinct_of_keys hsame hdistinct)]
    refine builds_imp (builds_newMapping ⟨es⟩) ?_
    rintro r h₂ he₂ ⟨k, rfl, hk, hm⟩
    obtain ⟨hi₁, hv⟩ := (he.trans he₁).mappings i hi
    obtain ⟨hi₂, hv₂⟩ := he₂.mappings i hi₁
    refine Heap.mirrors_mapping hk hi₂ ?_
    rw [hm, hv₂, hv]
    exact hes.imp fun a b hab => ⟨hab.1, hab.2.mono he₂⟩

theorem stringify_builtin :
    (⟨"json_stringify", some 1, some 2, stringify⟩ : Builtin) ∈ builtins := by
  simp only [builtins, json, List.mem_append, List.mem_cons, true_or, or_true]

namespace JsonText

theorem indent_ok {n? : Option Int} {indent : Option Nat} (h : n?.mapM indentation w = .ok indent w') :
    w' = w := by
  cases n? with
  | none =>
    cases h
    rfl
  | some n =>
    change (indentation n >>= fun k => pure (some k)) w = _ at h
    rw [bind_apply] at h
    cases hk : indentation n w with
    | error r w₁ =>
      rw [hk] at h
      cases h
    | ok k w₁ =>
      rw [hk] at h
      cases h
      unfold indentation at hk
      split_ifs at hk <;> cases hk
      rfl

/-- The text of a conversion's result, or its failure. -/
def written (n? : Option Int) : Except Failure Json → Action Value
  | .error f => fail f
  | .ok (.string s) => return .string (Json.quote s)
  | .ok j => do
    let indent ← n?.mapM indentation
    if j.hasLongInteger longestInteger then fail .longInteger
    return .string (j.render indent)

theorem stringify_written {rest : List Value} {u : Value}
    (hu : stringify (v :: rest) w = .ok u w') : ∃ n?, written n? (datum w.heap v) w = .ok u w' := by
  rcases rest with _ | ⟨n, rest⟩
  · exact ⟨none, hu⟩
  · cases n with
    | integer n => exact ⟨some n, hu⟩
    | _ => cases hu

theorem written_ok {n? : Option Int} {r : Except Failure Json} {u : Value}
    (h : written n? r w = .ok u w') : w' = w ∧ ∃ j indent, r = .ok j ∧ u = .string (j.render indent) := by
  unfold written at h
  split at h
  · cases h
  · next s =>
    cases h
    exact ⟨rfl, .string s, none, rfl, by rw [Json.render, Json.renderAt]⟩
  · next j _ =>
    rw [bind_apply] at h
    cases hindent : n?.mapM indentation w with
    | error r w₁ =>
      rw [hindent] at h
      cases h
    | ok indent w₁ =>
      obtain rfl := indent_ok hindent
      rw [hindent] at h
      dsimp only at h
      split_ifs at h
      · cases h
      · cases h
        exact ⟨rfl, j, indent, rfl, rfl⟩

theorem written_array {n? : Option Int} {indent : Option Nat} {items : List Json}
    (hindent : n?.mapM indentation w = .ok indent w)
    (hshort : (Json.array items).hasLongInteger longestInteger = false) :
    written n? (.ok (.array items)) w = .ok (.string ((Json.array items).render indent)) w := by
  simp only [written]
  rw [bind_apply, hindent, hshort]
  rfl

end JsonText

/-- A text is made of the data of the value, and what was there before stays as it was. -/
theorem invoke_json_stringify {rest : List Value} {u : Value}
    (hu : invoke "json_stringify" (v :: rest) w = .ok u w') :
    w' = w ∧ ∃ j indent, datum w.heap v = .ok j ∧ u = .string (j.render indent) := by
  have hcall := congrFun (invoke_builtin stringify_builtin (v :: rest)) w
  obtain ⟨n?, hn⟩ := stringify_written (call_ok (hcall.symm.trans hu))
  exact written_ok hn

theorem invoke_json_indented (v : Value) (n : Int) (w : World) :
    invoke "json_stringify" [v, .integer n] w = written (some n) (datum w.heap v) w := by
  exact congrFun (invoke_builtin stringify_builtin [v, .integer n]) w

theorem invoke_json_parse {text : String} (hj : Json.parse text = .ok j) :
    invoke "json_parse" [.string text] w = value j w := by
  have hb : (⟨"json_parse", some 1, none, parse⟩ : Builtin) ∈ builtins := by
    simp only [builtins, json, List.mem_append, List.mem_cons, true_or, or_true]
  have hcall : invoke "json_parse" [.string text] w = parse [.string text] w :=
    congrFun (invoke_builtin hb [.string text]) w
  rw [hcall, parse]
  simp only [Action.string, pure_bind, hj]

/-- A value has data where nothing within it holds itself, is a function or has a key that is no
String. Where a value has a text, the text is read, and what is read equals the value and mirrors
it, keys in their order. -/
theorem json_text_read_back (w : World) (v : Value) (hc : w.heap.Throughout w.heap.Carries v)
    (hfloat : w.heap.Throughout (fun u => u.kind ≠ .float) v) :
    ((∃ j, datum w.heap v = .ok j) ↔ w.heap.Throughout w.heap.Convertible v) ∧
    ∀ rest u w', invoke "json_stringify" (v :: rest) w = .ok u w' → w' = w ∧
      ∃ text r h, u = .string text ∧
        invoke "json_parse" [.string text] w = .ok r { w with heap := h } ∧ w.heap.Extends h ∧
        h.equal r v = true ∧ h.Mirrors r v := by
  refine ⟨Heap.datum_iff hc hfloat, fun rest u w' hu => ?_⟩
  obtain ⟨rfl, j, indent, hj, rfl⟩ := invoke_json_stringify hu
  have hd := Heap.depicts_of_datum hc hfloat (datum_eq w'.heap v ▸ hj)
  obtain ⟨r, h, hr, he, hm⟩ := value_builds hd (.refl _)
  refine ⟨rfl, _, r, h, rfl, ?_, he, ?_, hm⟩
  · rw [invoke_json_parse (Json.parse_render hd.plain_data indent), hr]
  · exact Heap.equal_of_mirrors hm (hd.plain.mono he)

/-- A List that holds one Mapping twice, and in it an empty List. -/
def sharing : World :=
  { (default : World) with
    heap := {
      lists := #[#[.mapping 0, .mapping 0, .integer (-12)], #[]]
      mappings := #[⟨[(.string "a\"", .list 1), (.string "b", .none)]⟩] } }

theorem sharing_throughout {P : Value → Prop} (hlist : P (.list 0)) (hmapping : P (.mapping 0))
    (hinteger : P (.integer (-12))) (hempty : P (.list 1)) (hnone : P .none) :
    sharing.heap.Throughout P (.list 0) := by
  refine Heap.throughout_of (Q := fun u => u = .list 0 ∨ u = .mapping 0 ∨ u = .integer (-12) ∨
    u = .list 1 ∨ u = .none) (.inl rfl) ?_ ?_
  · rintro u t (rfl | rfl | rfl | rfl | rfl) ht
    · change t ∈ [Value.mapping 0, .mapping 0, .integer (-12)] at ht
      simp only [List.mem_cons, List.not_mem_nil, or_false] at ht
      tauto
    · obtain ⟨e, he, rfl⟩ := ht
      change e ∈ [(Value.string "a\"", Value.list 1), (.string "b", .none)] at he
      simp only [List.mem_cons, List.not_mem_nil, or_false] at he
      rcases he with rfl | rfl <;> tauto
    · exact ht.elim
    · cases ht
    · exact ht.elim
  · rintro u (rfl | rfl | rfl | rfl | rfl) <;> assumption

/-- The data of that List. -/
def sharedData : Json :=
  .array [.object [("a\"", .array []), ("b", .null)], .object [("a\"", .array []), ("b", .null)],
    .integer (-12)]

theorem sharing_written :
    invoke "json_stringify" [.list 0, .integer 2] sharing =
      .ok (.string (sharedData.render (some 2))) sharing := by
  have hdata : datum sharing.heap (.list 0) = .ok sharedData := rfl
  have hshort : sharedData.hasLongInteger longestInteger = false := by decide +kernel
  rw [invoke_json_indented, hdata]
  exact written_array rfl hshort

theorem sharing_read_back :
    (∃ j, datum sharing.heap (.list 0) = .ok j) ∧
    ∃ text r h, invoke "json_stringify" [.list 0, .integer 2] sharing = .ok (.string text) sharing ∧
      invoke "json_parse" [.string text] sharing = .ok r { sharing with heap := h } ∧
      h.equal r (.list 0) = true ∧ h.Mirrors r (.list 0) := by
  have hdistinct : (sharing.heap.mapping 0).Distinct := by
    unfold Mapping.Distinct
    decide
  have hc : sharing.heap.Throughout sharing.heap.Carries (.list 0) :=
    sharing_throughout Nat.zero_lt_two ⟨Nat.one_pos, hdistinct⟩ trivial Nat.one_lt_two trivial
  have hfloat : sharing.heap.Throughout (fun u => u.kind ≠ .float) (.list 0) :=
    sharing_throughout nofun nofun nofun nofun nofun
  obtain ⟨-, hread⟩ := json_text_read_back sharing (.list 0) hc hfloat
  obtain ⟨-, text, r, h, htext, hparse, -, heq, hm⟩ := hread [.integer 2] _ _ sharing_written
  exact ⟨⟨_, rfl⟩, text, r, h, htext ▸ sharing_written, hparse, heq, hm⟩

end Offside.Library
