import Offside.Operation.Item
import Offside.Proofs.Tree

/-!
The errors of operations. An operation refuses operands, never the tree it stands in, as long as it
is given an operator of the language.
-/

namespace Offside

/-- Causes that lie in the tree that runs and not in what it computes. -/
def Cause.BlamesTree : Cause → Prop
  | unknownOperator _ | unknownUnaryOperator _ | badTarget | notAStatement _ | notAnExpression _ =>
    True
  | _ => False

namespace Operation

variable {α β : Type} {r : Result α}

/-- The tree is not to blame if the operation fails. -/
def Fair (r : Result α) : Prop := ∀ c, r = .error (.cause c) → ¬ c.BlamesTree

theorem fair_ok (a : α) : Fair (.ok a) := nofun

theorem fair_fault (f : Fault) : Fair (α := α) (.error (.fault f)) := nofun

theorem fair_refuse {c : Cause} (h : ¬ c.BlamesTree) : Fair (α := α) (refuse c) := by
  rintro _ ⟨⟩
  exact h

theorem fair_bind {f : α → Result β} (h : Fair r) (hf : ∀ a, Fair (f a)) : Fair (r >>= f) := by
  cases r with
  | ok a => exact hf a
  | error t =>
    rintro c ⟨⟩
    exact h c rfl

theorem fair_map {f : α → β} (h : Fair r) : Fair (r >>= fun a => .ok (f a)) :=
  fair_bind h fun _ => fair_ok _

theorem fair_ite {p : Prop} [Decidable p] {r' : Result α} (h : Fair r) (k : Fair r') :
    Fair (if p then r else r') := by
  split
  · exact h
  · exact k

theorem unsupported_fair (op : String) (a b : Value) : Fair (α := α) (unsupported op a b) :=
  fair_refuse id

/-! ### Operators -/

theorem boolean_fair (test : Test) (v : Value) : Fair (boolean test v) := by
  unfold boolean
  split
  · exact fair_ok _
  · exact fair_refuse id

theorem widen_fair (op : String) (n : Int) : Fair (widen op n) := by
  unfold widen
  split
  · exact fair_ok _
  · exact fair_refuse id

theorem numeric_fair {op : String} {exact' : Int → Int → Result Value}
    {rounded : Float → Float → Result Value} (he : ∀ m n, Fair (exact' m n))
    (hr : ∀ x y, Fair (rounded x y)) (a b : Value) : Fair (numeric op exact' rounded a b) := by
  unfold numeric
  split
  · exact he _ _
  · exact hr _ _
  · exact fair_bind (widen_fair _ _) fun _ => hr _ _
  · exact fair_bind (widen_fair _ _) fun _ => hr _ _
  · exact unsupported_fair _ _ _

theorem add_fair (a b : Value) : Fair (add a b) := by
  unfold add
  split
  · exact fair_ok _
  · exact numeric_fair (fun _ _ => fair_ok _) (fun _ _ => fair_ok _) _ _

theorem subtract_fair (a b : Value) : Fair (subtract a b) :=
  numeric_fair (fun _ _ => fair_ok _) (fun _ _ => fair_ok _) a b

theorem multiply_fair (a b : Value) : Fair (multiply a b) :=
  numeric_fair (fun _ _ => fair_ok _) (fun _ _ => fair_ok _) a b

theorem divide_fair (a b : Value) : Fair (divide a b) := by
  unfold divide
  refine fair_ite (fair_refuse id) (numeric_fair (fun m n => ?_) (fun _ _ => fair_ok _) a b)
  split
  · exact fair_ok _
  · exact fair_refuse id

theorem modulo_fair (a b : Value) : Fair (modulo a b) := by
  unfold modulo
  split
  · exact fair_ite (fair_refuse id) (fair_ok _)
  · refine fair_ite (fair_refuse id) ?_
    split
    · exact fair_ok _
    · exact fair_fault _
  · exact unsupported_fair _ _ _

theorem order_fair (op : String) (a b : Value) : Fair (order? op a b) := by
  unfold order?
  split
  all_goals first | exact fair_ok _ | exact unsupported_fair _ _ _

theorem ordered_fair (op : String) (a b : Value) : Fair (ordered op a b) :=
  fair_map (order_fair op a b)

theorem checkKey_fair (key : Value) : Fair (checkKey key) := by
  unfold checkKey
  exact fair_ite (fair_ok _) (fair_refuse id)

theorem contains_fair (h : Heap) (container item : Value) : Fair (contains h container item) := by
  unfold contains
  split
  · exact fair_ok _
  · exact fair_map (checkKey_fair _)
  · split
    · exact fair_ok _
    · exact fair_refuse id
  · exact fair_refuse id

/-- Operators on evaluated operands: all binary ones but `and` and `or`. -/
theorem binary_fair {op : String} (hop : op ∈ binaryOperators) (hand : op ≠ "and")
    (hor : op ≠ "or") (h : Heap) (a b : Value) : Fair (binary h op a b) := by
  unfold binary
  split
  · exact add_fair _ _
  · exact subtract_fair _ _
  · exact multiply_fair _ _
  · exact divide_fair _ _
  · exact modulo_fair _ _
  · exact fair_ok _
  · exact fair_ok _
  · exact fair_map (ordered_fair _ _ _)
  · exact fair_map (ordered_fair _ _ _)
  · exact fair_map (ordered_fair _ _ _)
  · exact fair_map (ordered_fair _ _ _)
  · exact fair_map (contains_fair _ _ _)
  · exact fair_map (contains_fair _ _ _)
  · simp [binaryOperators, comparisons] at hop
    simp_all

theorem unary_fair {op : String} (hop : op ∈ ["-", "not"]) (v : Value) : Fair (unary op v) := by
  unfold unary
  split
  · split
    · exact fair_ok _
    · exact fair_ok _
    · exact fair_refuse id
  · exact fair_map (boolean_fair _ _)
  · simp_all

/-! ### Items -/

theorem position_fair (sequence : String) (length : Nat) (index : Value) :
    Fair (position sequence length index) := by
  unfold position
  split
  · exact fair_ite (fair_ok _) (fair_refuse id)
  · exact fair_refuse id

theorem getItem_fair (h : Heap) (target index : Value) : Fair (getItem h target index) := by
  unfold getItem
  split
  · exact fair_map (position_fair _ _ _)
  · refine fair_bind (position_fair _ _ _) fun p => ?_
    exact fair_ok _
  · refine fair_bind (checkKey_fair _) fun _ => ?_
    split
    · exact fair_ok _
    · exact fair_refuse id
  · exact fair_refuse id

theorem itemSetting_fair (h : Heap) (target index v : Value) :
    Fair (itemSetting h target index v) := by
  unfold itemSetting
  split
  · exact fair_map (position_fair _ _ _)
  · exact fair_map (checkKey_fair _)
  · exact fair_refuse id

theorem itemDeletion_fair (h : Heap) (target index : Value) :
    Fair (itemDeletion h target index) := by
  unfold itemDeletion
  split
  · exact fair_map (position_fair _ _ _)
  · exact fair_bind (checkKey_fair _) fun _ => fair_ite (fair_ok _) (fair_refuse id)
  · exact fair_refuse id

theorem iterationItems_fair (h : Heap) (v : Value) : Fair (iterationItems h v) := by
  unfold iterationItems
  split
  all_goals first | exact fair_ok _ | exact fair_refuse id

end Operation

end Offside
