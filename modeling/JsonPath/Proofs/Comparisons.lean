import JsonPath.Proofs.Equality

set_option autoImplicit false

/-!
# Laws of the comparison operators

With its operands exchanged a comparison is the opposite one. Values that have an order are equal
if neither comes first. Of those that have none, only two arrays or two objects can be equal and
still not at most each other.
-/
namespace JsonPath

namespace Binary64

open Float.Model (UnpackedFloat)

theorem compare_swap (u v : UnpackedFloat) : v.compare u = (u.compare v).map Ordering.swap := by
  have hmagnitudes (e f : Int) (m n : Nat) :
      (compare f e).then (compare n m) = ((compare e f).then (compare m n)).swap := by
    rw [Ordering.swap_then, Int.compare_swap, Nat.compare_swap]
  cases u with
  | notANumber => cases v <;> rfl
  | infinity s =>
    cases v with
    | infinity t => cases s <;> cases t <;> rfl
    | _ => cases s <;> rfl
  | zero s =>
    cases v with
    | infinity t | finite t _ _ _ => cases t <;> rfl
    | _ => rfl
  | finite s m e _ =>
    cases v with
    | finite t n f _ =>
      cases s with
      | negative =>
        cases t with
        | negative => exact congrArg (fun o => some o.swap) (hmagnitudes e f m n)
        | positive => rfl
      | positive =>
        cases t with
        | negative => rfl
        | positive => exact congrArg some (hmagnitudes e f m n)
    | infinity t => cases t <;> rfl
    | _ => cases s <;> rfl

end Binary64

namespace Number

theorem compareFloats_model (x y : Float) :
    compareFloats x y = x.toModel.unpack.compare y.toModel.unpack := by
  have hlt (x y : Float) : x < y ↔ x.toModel.unpack.compare y.toModel.unpack = some .lt := by
    change decide (x.toModel < y.toModel) = true ↔ _
    rw [decide_eq_true_iff]
    exact beq_iff_eq
  have heq : (x == y) = true ↔ x.toModel.unpack.compare y.toModel.unpack = some .eq := by
    change (x.toModel.unpack.compare y.toModel.unpack == some .eq) = true ↔ _
    exact beq_iff_eq
  rw [compareFloats]
  simp only [hlt, heq, Binary64.compare_swap x.toModel.unpack]
  rcases x.toModel.unpack.compare y.toModel.unpack with _ | _ | _ | _ <;> rfl

theorem compareFloats_swap (x y : Float) :
    compareFloats y x = (compareFloats x y).map Ordering.swap := by
  rw [compareFloats_model, compareFloats_model]
  exact Binary64.compare_swap _ _

theorem compare_swap (x y : Number) : y.compare x = (x.compare y).map Ordering.swap := by
  cases x with
  | integer m =>
    cases y with
    | integer n => exact congrArg some (Int.compare_swap m n).symm
    | float y => exact compareFloats_swap _ y
  | float x => cases y <;> exact compareFloats_swap x _

end Number

namespace Json

theorem order_swap (v w : Json) : w.order v = (v.order w).map Ordering.swap := by
  cases v with
  | bool a =>
    cases w with
    | bool b => exact congrArg some Std.OrientedOrd.eq_swap
    | _ => rfl
  | number m =>
    cases w with
    | number n => exact m.compare_swap n
    | _ => rfl
  | string s =>
    cases w with
    | string t => exact congrArg some Std.OrientedOrd.eq_swap
    | _ => rfl
  | _ => cases w <;> rfl

theorem equal_symm (v : Json) (hv : v.Distinct) {w : Json} (hw : w.Distinct)
    (h : v.equal w = true) : w.equal v = true := by
  induction v using inductionOn generalizing w with
  | null =>
    cases w with
    | null => rfl
    | _ => cases h
  | bool a =>
    cases w with
    | bool b =>
      rw [equal, beq_iff_eq] at h ⊢
      exact h.symm
    | _ => cases h
  | number m =>
    cases w with
    | number n =>
      rw [equal, beq_iff_eq] at h ⊢
      rw [m.compare_swap, h]
      rfl
    | _ => cases h
  | string s =>
    cases w with
    | string t =>
      rw [equal, beq_iff_eq] at h ⊢
      exact h.symm
    | _ => cases h
  | array items ih =>
    cases w with
    | array others =>
      rw [equal, equalItems_iff] at h ⊢
      rw [List.forall₂_iff_get] at h ⊢
      refine ⟨h.1.symm, fun i hother hi => ?_⟩
      have hv' := List.get_mem items ⟨i, hi⟩
      have hw' := List.get_mem others ⟨i, hother⟩
      exact ih _ hv' (distinct_of_mem_items hv _ hv') (distinct_of_mem_items hw _ hw')
        (h.2 i hi hother)
    | _ => cases h
  | object ms ih =>
    cases w with
    | object others =>
      rw [equal, Bool.and_eq_true, beq_iff_eq, equalMembers_iff] at h ⊢
      -- the members of the left object are all that there are in the right one
      have hms : Rearranged (Namesakes fun v w => v.equal w = true) ms others :=
        rearranged_of_lookup hv.1 h.1 h.2
      refine ⟨h.1.symm, fun other hother => ?_⟩
      obtain ⟨m, hm, hequal⟩ := hms.flip.exists_mem hother
      cases hequal with
      | @mk name u w hequal =>
        exact ⟨u, lookup_of_mem hv.1 hm, ih _ hm (distinct_of_mem_members hv.2 _ hm)
          (distinct_of_mem_members hw.2 _ hother) hequal⟩
    | _ => cases h

theorem equal_comm {v w : Json} (hv : v.Distinct) (hw : w.Distinct) : v.equal w = w.equal v :=
  Bool.eq_iff_iff.mpr ⟨equal_symm v hv hw, equal_symm w hw hv⟩

end Json

def bothContainers : Option Json → Option Json → Bool
  | some (.array _), some (.array _) => true
  | some (.object _), some (.object _) => true
  | _, _ => false

theorem orderOperands_swap (v w : Option Json) :
    orderOperands w v = (orderOperands v w).map Ordering.swap := by
  cases v with
  | none => cases w <;> rfl
  | some v =>
    cases w with
    | none => rfl
    | some w => exact v.order_swap w

theorem bothEmpty_comm (v w : Option Json) : bothEmpty v w = bothEmpty w v := by
  rcases v with _ | _ | _ | _ | _ | _ | _ <;> rcases w with _ | _ | _ | _ | _ | _ | _ <;> rfl

theorem equalOperands_comm {v w : Option Json} (hv : ∀ u ∈ v, u.Distinct)
    (hw : ∀ u ∈ w, u.Distinct) : equalOperands v w = equalOperands w v := by
  cases v with
  | none => cases w <;> rfl
  | some v =>
    cases w with
    | none => rfl
    | some w => exact Json.equal_comm (hv v rfl) (hw w rfl)

theorem orderOperands_containers {v w : Option Json} (h : bothContainers v w = true) :
    orderOperands v w = none ∧ bothEmpty v w = false := by
  unfold bothContainers at h
  split at h
  · exact ⟨rfl, rfl⟩
  · exact ⟨rfl, rfl⟩
  · cases h

theorem beq_eq_compare {α : Type} [BEq α] [Ord α] [Std.LawfulBEqOrd α] (a b : α) :
    (a == b) = (some (compare a b) == some .eq) :=
  Bool.eq_iff_iff.mpr (Std.LawfulBEqOrd.compare_eq_iff_beq.symm.trans beq_iff_eq.symm)

/-- Containers apart, values are equal if neither comes first or if there is nothing to order. -/
theorem equalOperands_eq {v w : Option Json} (h : bothContainers v w = false) :
    equalOperands v w = (bothEmpty v w || orderOperands v w == some .eq) := by
  cases v with
  | none => cases w <;> rfl
  | some v =>
    cases w with
    | none => cases v <;> rfl
    | some w =>
      cases v with
      | null => cases w <;> rfl
      | bool a =>
        cases w with
        | bool b => exact beq_eq_compare a b
        | _ => rfl
      | number m => cases w <;> rfl
      | string s =>
        cases w with
        | string t => exact beq_eq_compare s t
        | _ => rfl
      | array items =>
        cases w with
        | array others => cases h
        | _ => rfl
      | object ms =>
        cases w with
        | object others => cases h
        | _ => rfl

theorem orderOperands_empty {v w : Option Json} (h : bothEmpty v w = true) :
    orderOperands v w = none := by
  unfold bothEmpty at h
  split at h
  · rfl
  · rfl
  · cases h

theorem equalOperands_of_order {v w : Option Json} {o : Ordering}
    (h : orderOperands v w = some o) : equalOperands v w = (o == .eq) := by
  have hcontainers : bothContainers v w = false := by
    refine Bool.eq_false_iff.mpr fun hboth => ?_
    rw [(orderOperands_containers hboth).1] at h
    cases h
  have hempty : bothEmpty v w = false := by
    refine Bool.eq_false_iff.mpr fun hboth => ?_
    rw [orderOperands_empty hboth] at h
    cases h
  rw [equalOperands_eq hcontainers, hempty, h]
  rfl

/-- The comparison operators agree with each other on any two values. At most one of `<`, `==` and
`>` holds, `!=` is the opposite of `==`, and operands that are exchanged exchange `<` with `>` and
`<=` with `>=`. Two arrays or two objects have no order; otherwise `<=` is `<` or `==`. -/
theorem BinaryOp.compare_agrees (v w : Option Json) (hv : ∀ u ∈ v, u.Distinct)
    (hw : ∀ u ∈ w, u.Distinct) :
    BinaryOp.notEqual.compare v w = !BinaryOp.equal.compare v w ∧
    BinaryOp.equal.compare v w = BinaryOp.equal.compare w v ∧
    BinaryOp.less.compare v w = BinaryOp.greater.compare w v ∧
    BinaryOp.lessOrEqual.compare v w = BinaryOp.greaterOrEqual.compare w v ∧
    ([BinaryOp.less, .equal, .greater].countP fun op => op.compare v w) ≤ 1 ∧
    (bothContainers v w = false → BinaryOp.lessOrEqual.compare v w =
      (BinaryOp.less.compare v w || BinaryOp.equal.compare v w)) ∧
    (bothContainers v w = true →
      ∀ op ∈ [BinaryOp.less, .lessOrEqual, .greater, .greaterOrEqual], op.compare v w = false) := by
  refine ⟨rfl, equalOperands_comm hv hw, ?_, ?_, ?_, fun h => ?_, fun h => ?_⟩
  · rw [BinaryOp.compare, BinaryOp.compare, orderOperands_swap v w]
    rcases orderOperands v w with _ | _ | _ | _ <;> rfl
  · rw [BinaryOp.compare, BinaryOp.compare, orderOperands_swap v w, bothEmpty_comm v w]
    rcases orderOperands v w with _ | _ | _ | _ <;> rfl
  · cases horder : orderOperands v w with
    | none => cases hequal : equalOperands v w <;> simp [BinaryOp.compare, horder, hequal]
    | some o => cases o <;> simp [BinaryOp.compare, horder, equalOperands_of_order horder]
  · rw [BinaryOp.compare, BinaryOp.compare, BinaryOp.compare, equalOperands_eq h]
    rcases orderOperands v w with _ | _ | _ | _ <;> cases bothEmpty v w <;> rfl
  · obtain ⟨horder, hempty⟩ := orderOperands_containers h
    simp [BinaryOp.compare, horder, hempty]

theorem BinaryOp.compare_agrees_mixed :
    let half := Json.array [.number (.float 0.5), .null]
    let v := Json.object [("a", .integer 1), ("b", half)]
    let w := Json.object [("b", half), ("a", .number (.float 1.0))]
    let x := Json.integer 9007199254740993
    let y := Json.number (.float 9007199254740992.0)
    (v.Distinct ∧ w.Distinct) ∧
      (BinaryOp.equal.compare (some v) (some w) = true ∧
        BinaryOp.equal.compare (some w) (some v) = true ∧
        BinaryOp.lessOrEqual.compare (some v) (some w) = false) ∧
      BinaryOp.lessOrEqual.compare (some x) (some y) = true ∧
        BinaryOp.greaterOrEqual.compare (some y) (some x) = true := by
  intro half v w x y
  have hv : v.Distinct := by simp [v, half, Json.integer, Json.Distinct, Json.DistinctMembers,
    Json.DistinctItems]
  have hw : w.Distinct := by simp [w, half, Json.Distinct, Json.DistinctMembers,
    Json.DistinctItems]
  have hequal : BinaryOp.equal.compare (some v) (some w) = true := by rfl
  have hnested := BinaryOp.compare_agrees (some v) (some w) (by simpa using hv) (by simpa using hw)
  have hnumbers := BinaryOp.compare_agrees (some x) (some y) (fun _ h => by cases h; trivial)
    (fun _ h => by cases h; trivial)
  refine ⟨⟨hv, hw⟩, ⟨hequal, hnested.2.1.symm.trans hequal, ?_⟩, ?_, ?_⟩
  · exact hnested.2.2.2.2.2.2 rfl _ (by simp)
  · rw [hnumbers.2.2.2.2.2.1 rfl]
    rfl
  · rw [← hnumbers.2.2.2.1, hnumbers.2.2.2.2.2.1 rfl]
    rfl

end JsonPath
