import JsonPath.Proofs.Comparisons
import JsonPath.Proofs.Parallel

set_option autoImplicit false

/-!
# Arrays as sets of values

`subset` and `contains` take an array for the set of its elements, where values that equality does
not tell apart count as one. The first compares what it looks for with the elements, the second the
elements with what it looks for.
-/
namespace JsonPath

namespace Json

/-- Neither an array nor an object. -/
def IsScalar : Json → Prop
  | .array _ | .object _ => False
  | _ => True

theorem IsScalar.distinct {v : Json} (h : v.IsScalar) : v.Distinct := by
  cases v with
  | array _ | object _ => exact h.elim
  | _ => trivial

/-- The other value may repeat names: equality with a scalar does not look at them. -/
theorem IsScalar.equal_comm {w : Json} (hw : w.IsScalar) (v : Json) : v.equal w = w.equal v := by
  cases v with
  | array _ | object _ =>
    cases w with
    | array _ | object _ => exact hw.elim
    | _ => rfl
  | _ => exact Json.equal_comm trivial hw.distinct

end Json

/-- What a function answers to two values. -/
def Function.answer (f : Function) (root current v w : Json) : Except EvalError ExprValue :=
  f.apply root current [.ofJson v, .ofJson w]

namespace BuiltIn

variable {as as' bs bs' cs : List Json}

theorem answer_subset (root current v w : Json) :
    subset.answer root current v w = .ok (.logical (isSubset (some v) (some w))) := rfl

theorem answer_contains (root current v w : Json) :
    contains.answer root current v w = .ok (.logical (holdsScalar (some v) (some w))) := rfl

theorem answer_subset_eq_true {root current v w : Json} :
    subset.answer root current v w = .ok (.logical true) ↔ isSubset (some v) (some w) = true := by
  rw [answer_subset, Except.ok.injEq, ExprValue.logical.injEq]

theorem isSubset_iff :
    isSubset (some (.array as)) (some (.array bs)) = true ↔
      ∀ v ∈ as, ∃ w ∈ bs, v.equal w = true := by
  rw [isSubset, List.all_eq_true]
  exact forall₂_congr fun v _ => List.any_eq_true

theorem isSubset_iff_reordered (ha : (Json.array as).Exact) (hb : (Json.array bs).Exact) :
    isSubset (some (.array as)) (some (.array bs)) = true ↔ ∀ v ∈ as, ∃ w ∈ bs, v.Reordered w := by
  rw [isSubset_iff]
  refine forall₂_congr fun v hv => exists_congr fun w => and_congr_right fun hw => ?_
  exact (ha.items v hv).equal_iff (hb.items w hw)

theorem isSubset_refl (ha : (Json.array as).Exact) :
    isSubset (some (.array as)) (some (.array as)) = true :=
  isSubset_iff.mpr fun v hv => ⟨v, hv, (ha.items v hv).equal_self v⟩

theorem isSubset_trans (hb : (Json.array bs).Exact) (hc : (Json.array cs).Exact)
    (hab : isSubset (some (.array as)) (some (.array bs)) = true)
    (hbc : isSubset (some (.array bs)) (some (.array cs)) = true) :
    isSubset (some (.array as)) (some (.array cs)) = true := by
  rw [isSubset_iff] at hab hbc ⊢
  intro v hv
  obtain ⟨w, hw, hvw⟩ := hab v hv
  obtain ⟨u, hu, hwu⟩ := hbc w hw
  refine ⟨u, hu, ?_⟩
  -- `w` and `u` are equal, so that `v` is equal to both or to neither
  rwa [← (hb.items w hw).equal_congr v (hc.items u hu) hwu]

theorem isSubset_congr (ha : ∀ v, v ∈ as ↔ v ∈ as') (hb : ∀ v, v ∈ bs ↔ v ∈ bs') :
    isSubset (some (.array as)) (some (.array bs)) =
      isSubset (some (.array as')) (some (.array bs')) := by
  rw [Bool.eq_iff_iff, isSubset_iff, isSubset_iff]
  simp only [ha, hb]

theorem isSubset_reordered {v v' w w' : Json} (hv : v.Distinct) (hw : w.Distinct)
    (h : v.Reordered v') (h' : w.Reordered w') :
    isSubset (some v) (some w) = isSubset (some v') (some w') :=
  isSubset_same (.some (.inr (h.alike hv))) (.some (.inr (h'.alike hw)))

theorem holdsScalar_eq_any {w : Json} (hw : w.IsScalar) :
    holdsScalar (some (.array as)) (some w) = as.any fun v => v.equal w := by
  cases w with
  | array _ | object _ => exact hw.elim
  | _ => rfl

theorem holdsScalar_eq_isSubset {w : Json} (hw : w.IsScalar) :
    holdsScalar (some (.array as)) (some w) = isSubset (some (.array [w])) (some (.array as)) := by
  rw [holdsScalar_eq_any hw, isSubset, List.all_cons, List.all_nil, Bool.and_true]
  exact congrArg as.any (funext hw.equal_comm)

/-- `subset` is a preorder on arrays without floats in which no object repeats a name: each element
has to have a reordering of it in the other array. Whatever the elements are, their order and how
often they occur do not matter, nor does the order of members at any depth while their names are
distinct. `contains` is the case of an array of one scalar. -/
theorem subset_preorder (root current : Json) :
    (∀ as bs : List Json, (Json.array as).Exact → (Json.array bs).Exact →
      ∃ b, subset.answer root current (.array as) (.array bs) = .ok (.logical b) ∧
        (b = true ↔ ∀ v ∈ as, ∃ w ∈ bs, v.Reordered w)) ∧
    (∀ as : List Json, (Json.array as).Exact →
      subset.answer root current (.array as) (.array as) = .ok (.logical true)) ∧
    (∀ as bs cs : List Json, (Json.array bs).Exact → (Json.array cs).Exact →
      subset.answer root current (.array as) (.array bs) = .ok (.logical true) →
      subset.answer root current (.array bs) (.array cs) = .ok (.logical true) →
      subset.answer root current (.array as) (.array cs) = .ok (.logical true)) ∧
    (∀ as as' bs bs' : List Json, (∀ v, v ∈ as ↔ v ∈ as') → (∀ v, v ∈ bs ↔ v ∈ bs') →
      subset.answer root current (.array as) (.array bs) =
        subset.answer root current (.array as') (.array bs')) ∧
    (∀ v v' w w' : Json, v.Distinct → w.Distinct → v.Reordered v' → w.Reordered w' →
      subset.answer root current v w = subset.answer root current v' w') ∧
    ∀ (as : List Json) (w : Json), w.IsScalar →
      contains.answer root current (.array as) w =
        subset.answer root current (.array [w]) (.array as) := by
  refine ⟨fun as bs ha hb => ⟨_, answer_subset .., isSubset_iff_reordered ha hb⟩,
    fun as ha => answer_subset_eq_true.mpr (isSubset_refl ha),
    fun as bs cs hb hc hab hbc => ?_, fun as as' bs bs' ha hb => ?_, fun v v' w w' hv hw h h' => ?_,
    fun as w hw => ?_⟩
  · rw [answer_subset_eq_true] at hab hbc ⊢
    exact isSubset_trans hb hc hab hbc
  · rw [answer_subset, answer_subset, isSubset_congr ha hb]
  · rw [answer_subset, answer_subset, isSubset_reordered hv hw h h']
  · rw [answer_subset, answer_contains, holdsScalar_eq_isSubset hw]

theorem subset_preorder_points :
    let point := Json.object [("x", .integer 1), ("y", .integer 2)]
    let turned := Json.object [("y", .integer 2), ("x", .integer 1)]
    let as := [point, .null]
    let bs := [.integer 3, .null, turned]
    let cs := [point, .string "z", .integer 3, .null]
    let answer (as bs : List Json) := subset.answer .null .null (.array as) (.array bs)
    ((Json.array as).Exact ∧ (Json.array bs).Exact ∧ (Json.array cs).Exact) ∧
    (∀ v ∈ as, ∃ w ∈ bs, v.Reordered w) ∧
    answer as as = .ok (.logical true) ∧
    (answer as bs = .ok (.logical true) ∧ answer bs cs = .ok (.logical true) ∧
      answer as cs = .ok (.logical true)) ∧
    (answer [.null, point, .null] bs = answer as bs ∧ answer [turned, .null] bs = answer as bs) ∧
    contains.answer .null .null (.array cs) (.integer 3) = .ok (.logical true) := by
  intro point turned as bs cs answer
  have hexact : ∀ items ∈ [as, bs, cs], (Json.array items).Exact := by
    intro items hitems
    simp only [List.mem_cons, List.not_mem_nil, or_false] at hitems
    rcases hitems with rfl | rfl | rfl
    all_goals
      constructor
      · simp [as, bs, cs, point, turned, Json.integer, Json.Integral, Json.IntegralItems,
          Json.IntegralMembers]
      · simp [as, bs, cs, point, turned, Json.integer, Json.Distinct, Json.DistinctItems,
          Json.DistinctMembers]
  have ha := hexact as (by simp)
  have hb := hexact bs (by simp)
  have hc := hexact cs (by simp)
  have hpoint : point.Reordered turned := by
    have hx : Json.Namesakes Json.Reordered ("x", .integer 1) ("x", .integer 1) := .mk (.number _)
    have hy : Json.Namesakes Json.Reordered ("y", .integer 2) ("y", .integer 2) := .mk (.number _)
    exact .object ((Rearranged.cons hx (.cons hy .nil)).perm (.swap _ _ _))
  have hset (v : Json) : v ∈ [.null, point, .null] ↔ v ∈ as := by
    simp only [as, List.mem_cons, List.not_mem_nil, or_false]
    tauto
  have hab : answer as bs = .ok (.logical true) := by rfl
  have hbc : answer bs cs = .ok (.logical true) := by rfl
  obtain ⟨hinclusion, hrefl, htrans, hcongr, hreordered, hcontains⟩ := subset_preorder .null .null
  obtain ⟨holds, hholds, hiff⟩ := hinclusion as bs ha hb
  obtain rfl : true = holds := by simpa [hholds, answer] using hab.symm
  have hitself : (Json.array bs).Reordered (.array bs) :=
    hb.reordered_of_equal _ hb (hb.equal_self _)
  have hturned : answer as bs = answer [turned, .null] bs :=
    hreordered _ _ _ _ ha.distinct hb.distinct (.array (.cons hpoint (.cons .null .nil))) hitself
  exact ⟨⟨ha, hb, hc⟩, hiff.mp rfl, hrefl as ha, ⟨hab, hbc, htrans as bs cs hb hc hab hbc⟩,
    ⟨hcongr _ _ _ _ hset fun _ => .rfl, hturned.symm⟩, hcontains cs (.integer 3) trivial⟩

end BuiltIn
end JsonPath
