import Mathlib
import Offside.Proofs.Bare

/-!
Trees that the program finds equal. It compares them up to places, and numbers by value. So trees
are found equal that are the same apart from places, if what they hold is equal to itself: a Float
is, unless it is no number, and then it counts as equal.
-/

namespace Offside

namespace Number

open Float.Model

theorem unpacked_self {f : UnpackedFloat} (h : f ≠ .notANumber) : f.beq f = true := by
  unfold UnpackedFloat.beq
  cases f with
  | infinity s => cases s <;> decide
  | notANumber => exact absurd rfl h
  | zero s => cases s <;> decide
  | finite s m e hm => cases s <;> simp [UnpackedFloat.compare, Std.ReflCmp.compare_self]

theorem nan_of_unpack {x : Float} (h : x.toModel.unpack = .notANumber) : isNaN x = true := by
  obtain ⟨⟨bits, valid⟩⟩ := x
  unfold Float.Model.unpack UnpackedFloat.unpack at h
  dsimp only at h
  split_ifs at h with he hm
  have hfield : bits.toBitVec.toNat / 2 ^ 52 % 2 ^ 11 = 2047 := by
    have hexponent := congrArg BitVec.toNat he
    simpa [UnpackedFloat.unpackExponent, BitVec.extractLsb, BitVec.extractLsb',
      Nat.shiftRight_eq_div_pow] using hexponent
  have hfraction : bits.toBitVec.toNat % 2 ^ 52 ≠ 0 := by
    intro hzero
    refine hm (BitVec.eq_of_toNat_eq ?_)
    simpa [UnpackedFloat.unpackMantissa, BitVec.extractLsb, BitVec.extractLsb'] using hzero
  change (decode ⟨⟨bits, valid⟩⟩ == Double.nan) = true
  unfold decode
  change ((if bits.toBitVec.toNat / 2 ^ 52 % 2 ^ 11 = 2047 then
    if bits.toBitVec.toNat % 2 ^ 52 = 0 then _ else Double.nan else _) == Double.nan) = true
  rw [if_pos hfield, if_neg hfraction]
  rfl

/-- A Float is equal to itself or no number. -/
theorem float_self (x : Float) : (x == x || (isNaN x && isNaN x)) = true := by
  by_cases h : x.toModel.unpack = .notANumber
  · simp [nan_of_unpack h]
  · have hself : (x == x) = true := unpacked_self h
    simp [hself]

end Number

namespace Json

@[simp] theorem same_string (s : String) : (string s).same (string s) = true := by
  simp [same, sameAtom, countable]

@[simp] theorem same_integer (n : Int) : (integer n).same (integer n) = true := by
  simp [same, sameAtom, countable]

@[simp] theorem same_boolean (b : Bool) : (boolean b).same (boolean b) = true := by
  cases b <;> decide

@[simp] theorem same_float (x : Float) : (float x).same (float x) = true := by
  simp only [same, sameAtom, countable]
  exact Number.float_self x

@[simp] theorem same_null : null.same null = true := rfl

@[simp] theorem sameItems_strings (ps : List String) :
    sameItems (ps.map string) (ps.map string) = true := by
  induction ps with
  | nil => rfl
  | cons p ps ih => simp [sameItems, ih]

end Json

namespace Node

mutual

/-- Trees that are the same apart from places are found equal, if the bare tree is equal to itself.
-/
theorem same_of_bare {a b : Node} (h : a.bare = b.bare) (ha : a.bare.same a.bare = true) :
    a.same b = true := by
  cases a <;> cases b <;> simp only [bare, reduceCtorEq] at h <;>
    simp only [bare, same, Bool.and_eq_true, true_and, literal.injEq, identifier.injEq,
      unaryOp.injEq, binaryOp.injEq, call.injEq, index.injEq, member.injEq, listLiteral.injEq,
      mapLiteral.injEq, lambda.injEq, exprStmt.injEq, assign.injEq, augAssign.injEq, ifStmt.injEq,
      whileStmt.injEq, forStmt.injEq, functionDef.injEq, returnStmt.injEq, delete.injEq,
      program.injEq] at h ha ⊢
  case literal.literal =>
    obtain ⟨rfl, rfl⟩ := h
    exact ha
  case identifier.identifier =>
    obtain rfl := h
    exact ha
  case exprStmt.exprStmt | returnStmt.returnStmt | delete.delete => exact same_of_bare h ha
  case unaryOp.unaryOp | lambda.lambda =>
    obtain ⟨rfl, hbody⟩ := h
    exact ⟨ha.1, same_of_bare hbody ha.2⟩
  case member.member =>
    obtain ⟨htarget, rfl⟩ := h
    exact ⟨same_of_bare htarget ha.1, ha.2⟩
  case binaryOp.binaryOp =>
    obtain ⟨rfl, hleft, hright⟩ := h
    exact ⟨⟨ha.1.1, same_of_bare hleft ha.1.2⟩, same_of_bare hright ha.2⟩
  case index.index | assign.assign => exact ⟨same_of_bare h.1 ha.1, same_of_bare h.2 ha.2⟩
  case augAssign.augAssign =>
    obtain ⟨htarget, rfl, hvalue⟩ := h
    exact ⟨⟨same_of_bare htarget ha.1.1, ha.1.2⟩, same_of_bare hvalue ha.2⟩
  case call.call | whileStmt.whileStmt =>
    exact ⟨same_of_bare h.1 ha.1, sameList_of_bare h.2 ha.2⟩
  case forStmt.forStmt =>
    obtain ⟨rfl, hiterable, hbody⟩ := h
    exact ⟨⟨ha.1.1, same_of_bare hiterable ha.1.2⟩, sameList_of_bare hbody ha.2⟩
  case functionDef.functionDef =>
    obtain ⟨rfl, rfl, hbody⟩ := h
    exact ⟨ha.1, sameList_of_bare hbody ha.2⟩
  case listLiteral.listLiteral | program.program => exact sameList_of_bare h ha
  case mapLiteral.mapLiteral => exact samePairs_of_bare h ha
  case ifStmt.ifStmt => exact ⟨sameBranches_of_bare h.1 ha.1, sameBody_of_bare h.2 ha.2⟩
termination_by structural a

theorem sameList_of_bare {as bs : List Node} (h : bareList as = bareList bs)
    (ha : sameList (bareList as) (bareList as) = true) : sameList as bs = true := by
  match as, bs with
  | [], [] => simp only [sameList]
  | a :: as, b :: bs =>
    simp only [bareList, List.cons.injEq, sameList, Bool.and_eq_true] at h ha ⊢
    exact ⟨same_of_bare h.1 ha.1, sameList_of_bare h.2 ha.2⟩
termination_by structural as

theorem samePairs_of_bare {as bs : List (Node × Node)} (h : barePairs as = barePairs bs)
    (ha : samePairs (barePairs as) (barePairs as) = true) : samePairs as bs = true := by
  match as, bs with
  | [], [] => simp only [samePairs]
  | (a, c) :: as, (b, d) :: bs =>
    simp only [barePairs, List.cons.injEq, Prod.mk.injEq, samePairs, Bool.and_eq_true] at h ha ⊢
    exact ⟨⟨same_of_bare h.1.1 ha.1.1, same_of_bare h.1.2 ha.1.2⟩, samePairs_of_bare h.2 ha.2⟩
termination_by structural as

theorem sameBranches_of_bare {as bs : List (Node × List Node)}
    (h : bareBranches as = bareBranches bs)
    (ha : sameBranches (bareBranches as) (bareBranches as) = true) : sameBranches as bs = true := by
  match as, bs with
  | [], [] => simp only [sameBranches]
  | (a, c) :: as, (b, d) :: bs =>
    simp only [bareBranches, List.cons.injEq, Prod.mk.injEq, sameBranches, Bool.and_eq_true]
      at h ha ⊢
    exact ⟨⟨same_of_bare h.1.1 ha.1.1, sameList_of_bare h.1.2 ha.1.2⟩,
      sameBranches_of_bare h.2 ha.2⟩
termination_by structural as

theorem sameBody_of_bare {a b : Option (List Node)} (h : bareBody a = bareBody b)
    (ha : sameBody (bareBody a) (bareBody a) = true) : sameBody a b = true := by
  match a, b with
  | none, none => simp only [sameBody]
  | some a, some b =>
    simp only [bareBody, Option.some.injEq, sameBody] at h ha ⊢
    exact sameList_of_bare h ha
termination_by structural a

end

end Node

end Offside
