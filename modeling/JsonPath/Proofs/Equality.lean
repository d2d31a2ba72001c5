import JsonPath.Proofs.Reordering

set_option autoImplicit false

/-!
# Equality of values

Values without floats are equal exactly if they are reorderings of each other, provided that no
object repeats a name. Equality only looks for the members of the left object in the right one; that
none is left over there follows from their number, since the names on the left are distinct.
-/
namespace JsonPath

theorem Number.compare_integers (m n : Int) :
    (Number.integer m).compare (.integer n) = some .eq ↔ m = n := by
  rw [Number.compare, Option.some_inj]
  exact Std.LawfulEqOrd.compare_eq_iff_eq

namespace Json

mutual
/-- All numbers in the tree are integers. -/
def Integral : Json → Prop
  | .number (.float _) => False
  | .array items => IntegralItems items
  | .object members => IntegralMembers members
  | _ => True

def IntegralItems : List Json → Prop
  | [] => True
  | v :: rest => v.Integral ∧ IntegralItems rest

def IntegralMembers : List (String × Json) → Prop
  | [] => True
  | (_, v) :: rest => v.Integral ∧ IntegralMembers rest
end

/-- A value of which equality tells everything but the order of members: its numbers are integers
and no object repeats a name. -/
structure Exact (v : Json) : Prop where
  integral : v.Integral
  distinct : v.Distinct

theorem integral_of_mem_items {items : List Json} (h : IntegralItems items) :
    ∀ v ∈ items, v.Integral := by
  induction items with
  | nil =>
    intro v hv
    cases hv
  | cons v rest ih => exact List.forall_mem_cons.mpr ⟨h.1, ih h.2⟩

theorem integral_of_mem_members {ms : List (String × Json)} (h : IntegralMembers ms) :
    ∀ m ∈ ms, m.2.Integral := by
  induction ms with
  | nil =>
    intro m hm
    cases hm
  | cons m rest ih => exact List.forall_mem_cons.mpr ⟨h.1, ih h.2⟩

theorem Exact.items {items : List Json} (h : Exact (.array items)) : ∀ v ∈ items, v.Exact :=
  fun v hv => ⟨integral_of_mem_items h.integral v hv, distinct_of_mem_items h.distinct v hv⟩

theorem Exact.members {ms : List (String × Json)} (h : Exact (.object ms)) :
    ∀ m ∈ ms, m.2.Exact :=
  fun m hm =>
    ⟨integral_of_mem_members h.integral m hm, distinct_of_mem_members h.distinct.2 m hm⟩

theorem equalItems_iff (items others : List Json) :
    equalItems items others = true ↔ List.Forall₂ (fun v w => v.equal w = true) items others := by
  induction items generalizing others with
  | nil => cases others <;> simp [equalItems]
  | cons v rest ih => cases others <;> simp [equalItems, ih]

theorem equalMembers_iff (ms others : List (String × Json)) :
    equalMembers ms others = true ↔
      ∀ m ∈ ms, ∃ w, others.lookup m.1 = some w ∧ m.2.equal w = true := by
  rw [equalMembers_eq_all, List.all_eq_true]
  refine forall₂_congr fun m _ => ?_
  cases others.lookup m.1 <;> simp [equalOperands]

theorem mem_of_lookup {ms : List (String × Json)} {name : String} {v : Json}
    (h : ms.lookup name = some v) : (name, v) ∈ ms := by
  obtain ⟨before, after, rfl, -⟩ := List.lookup_eq_some_iff.mp h
  simp

/-- The members found for distinct names are as many, so that there are no others. -/
theorem rearranged_of_lookup {R : Json → Json → Prop} {ms others : List (String × Json)}
    (distinct : (ms.map Prod.fst).Nodup) (hlength : ms.length = others.length)
    (h : ∀ m ∈ ms, ∃ w, others.lookup m.1 = some w ∧ R m.2 w) :
    Rearranged (Namesakes R) ms others := by
  let found := ms.map fun m => (m.1, (others.lookup m.1).getD .null)
  have hfound : Rearranged (Namesakes R) ms found := by
    refine .of_forall₂ (List.forall₂_map_right_iff.mpr (List.forall₂_same.mpr fun m hm => ?_))
    obtain ⟨w, hw, hvalue⟩ := h m hm
    rw [hw]
    exact .mk hvalue
  have hnames : found.map Prod.fst = ms.map Prod.fst := by simp [found]
  have hnodup : found.Nodup := .of_map Prod.fst (by rwa [hnames])
  have hsubset : found ⊆ others := by
    intro partner hpartner
    obtain ⟨m, hm, rfl⟩ := List.mem_map.mp hpartner
    obtain ⟨w, hw, -⟩ := h m hm
    rw [hw]
    exact mem_of_lookup hw
  have hperm : found.Perm others :=
    (List.subperm_of_subset hnodup hsubset).perm_of_length_le (by simp [found, hlength])
  exact hfound.perm hperm

theorem Exact.equal_self (v : Json) (h : v.Exact) : v.equal v = true := by
  induction v using inductionOn with
  | null => rfl
  | bool b => simp [equal]
  | number n =>
    cases n with
    | integer n => simp [equal, Number.compare_integers]
    | float x => exact h.integral.elim
  | string s => simp [equal]
  | array items ih =>
    rw [equal, equalItems_iff]
    exact List.forall₂_same.mpr fun v hv => ih v hv (h.items v hv)
  | object ms ih =>
    have hmembers : equalMembers ms ms = true :=
      (equalMembers_iff ms ms).mpr fun m hm =>
        ⟨m.2, lookup_of_mem h.distinct.1 hm, ih m hm (h.members m hm)⟩
    simp [equal, hmembers]

theorem Exact.reordered_of_equal (v : Json) (h : v.Exact) {w : Json} (hw : w.Exact)
    (hequal : v.equal w = true) : v.Reordered w := by
  induction v using inductionOn generalizing w with
  | null =>
    cases w with
    | null => exact .null
    | _ => cases hequal
  | bool b =>
    cases w with
    | bool c =>
      rw [equal, beq_iff_eq] at hequal
      rw [hequal]
      exact .bool c
    | _ => cases hequal
  | number m =>
    cases w with
    | number n =>
      cases m with
      | float x => exact h.integral.elim
      | integer m =>
        cases n with
        | float y => exact hw.integral.elim
        | integer n =>
          rw [equal, beq_iff_eq, Number.compare_integers] at hequal
          rw [hequal]
          exact .number _
    | _ => cases hequal
  | string s =>
    cases w with
    | string t =>
      rw [equal, beq_iff_eq] at hequal
      rw [hequal]
      exact .string t
    | _ => cases hequal
  | array items ih =>
    cases w with
    | array others =>
      rw [equal, equalItems_iff, List.forall₂_iff_get] at hequal
      refine .array (List.forall₂_iff_get.mpr ⟨hequal.1, fun i hi hother => ?_⟩)
      have hv := List.get_mem items ⟨i, hi⟩
      have hw' := List.get_mem others ⟨i, hother⟩
      exact ih _ hv (h.items _ hv) (hw.items _ hw') (hequal.2 i hi hother)
    | _ => cases hequal
  | object ms ih =>
    cases w with
    | object others =>
      rw [equal, Bool.and_eq_true, beq_iff_eq, equalMembers_iff] at hequal
      refine .object (rearranged_of_lookup h.distinct.1 hequal.1 fun m hm => ?_)
      obtain ⟨u, hu, hvalue⟩ := hequal.2 m hm
      exact ⟨u, hu, ih m hm (h.members m hm) (hw.members _ (mem_of_lookup hu)) hvalue⟩
    | _ => cases hequal

theorem Exact.equal_iff {v w : Json} (hv : v.Exact) (hw : w.Exact) :
    v.equal w = true ↔ v.Reordered w := by
  refine ⟨hv.reordered_of_equal v hw, fun h => ?_⟩
  have halike : Alike v w := ⟨h, hv.distinct, hw.distinct⟩
  rw [← halike.equal_right v]
  exact hv.equal_self v

theorem Exact.equal_congr (u : Json) {v w : Json} (hv : v.Exact) (hw : w.Exact)
    (h : v.equal w = true) : u.equal v = u.equal w :=
  Alike.equal_right u ⟨hv.reordered_of_equal v hw h, hv.distinct, hw.distinct⟩

end Json

/-- On values without floats in which no object repeats a name, equality is an equivalence: it
ignores the order of members and nothing else. Integers are equal only to themselves. -/
theorem Json.equal_equivalence :
    (∀ v : Json, v.Exact → v.equal v = true) ∧
      (∀ v w : Json, v.Exact → w.Exact → v.equal w = true → w.equal v = true) ∧
      (∀ u v w : Json, v.Exact → w.Exact → u.equal v = true → v.equal w = true →
        u.equal w = true) ∧
      (∀ v w : Json, v.Exact → w.Exact → (v.equal w = true ↔ v.Reordered w)) ∧
      ∀ m n : Int, (Json.integer m).equal (.integer n) = true ↔ m = n := by
  refine ⟨fun v hv => hv.equal_self v, fun v w hv hw h => ?_, fun u v w hv hw huv hvw => ?_,
    fun v w hv hw => hv.equal_iff hw, fun m n => ?_⟩
  · rw [hv.equal_congr w hw h]
    exact hw.equal_self w
  · rwa [← hv.equal_congr u hw hvw]
  · rw [Json.integer, Json.integer, Json.equal, beq_iff_eq, Number.compare_integers]

theorem Json.equal_equivalence_nested :
    let inner : List (String × Json) := [("c", .integer 2), ("d", .null)]
    let v := Json.object [("a", .integer 1), ("b", .array [.object inner])]
    let w := Json.object [("b", .array [.object inner.reverse]), ("a", .integer 1)]
    v.Exact ∧ w.Exact ∧ v.Reordered w ∧ v.equal v = true ∧ v.equal w = true ∧
      w.equal v = true := by
  intro inner v w
  obtain ⟨hself, hsymm, htrans, hreordered, -⟩ := Json.equal_equivalence
  have hv : v.Exact :=
    ⟨by simp [v, inner, Json.integer, Json.Integral, Json.IntegralItems, Json.IntegralMembers],
      by simp [v, inner, Json.integer, Json.Distinct, Json.DistinctItems, Json.DistinctMembers]⟩
  have hw : w.Exact :=
    ⟨by simp [w, inner, Json.integer, Json.Integral, Json.IntegralItems, Json.IntegralMembers],
      by simp [w, inner, Json.integer, Json.Distinct, Json.DistinctItems, Json.DistinctMembers]⟩
  have hequal : v.equal w = true := by rfl
  have hback := hsymm v w hv hw hequal
  exact ⟨hv, hw, (hreordered v w hv hw).mp hequal, htrans v w v hw hv hequal hback, hequal, hback⟩

end JsonPath
