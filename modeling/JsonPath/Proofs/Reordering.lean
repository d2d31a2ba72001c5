import JsonPath.Arithmetic
import JsonPath.Proofs.InPlace
import Mathlib.Data.Multiset.Bind

set_option autoImplicit false

/-!
# Values that differ in the order of members

Two values are reorderings of each other if objects in one have the members of objects in the other,
in any order and at any depth. While no object repeats a name, no operator tells them apart.
-/
namespace JsonPath

/-- The items of one list are related to the items of the other, in any order. -/
def Rearranged {α β : Type} (R : α → β → Prop) (as : List α) (bs : List β) : Prop :=
  Multiset.Rel R as bs

namespace Rearranged

variable {α β γ δ : Type} {R : α → β → Prop} {S : γ → δ → Prop}

theorem nil : Rearranged R [] [] := Multiset.Rel.zero

theorem cons {a : α} {b : β} {as : List α} {bs : List β} (h : R a b) (hs : Rearranged R as bs) :
    Rearranged R (a :: as) (b :: bs) := by
  rw [Rearranged, ← Multiset.cons_coe, ← Multiset.cons_coe]
  exact .cons h hs

theorem append {as as' : List α} {bs bs' : List β} (h : Rearranged R as bs)
    (h' : Rearranged R as' bs') : Rearranged R (as ++ as') (bs ++ bs') := by
  rw [Rearranged, ← Multiset.coe_add, ← Multiset.coe_add]
  exact Multiset.Rel.add h h'

theorem of_forall₂ {as : List α} {bs : List β} (h : List.Forall₂ R as bs) : Rearranged R as bs := by
  induction h with
  | nil => exact .nil
  | cons hfirst _ ih => exact .cons hfirst ih

theorem refl {R : α → α → Prop} (hR : ∀ a, R a a) (as : List α) : Rearranged R as as :=
  Multiset.rel_refl_of_refl_on fun a _ => hR a

theorem mono {S : α → β → Prop} {as : List α} {bs : List β} (h : Rearranged R as bs)
    (hRS : ∀ a ∈ as, ∀ b ∈ bs, R a b → S a b) : Rearranged S as bs :=
  Multiset.Rel.mono h hRS

theorem perm {as : List α} {bs cs : List β} (h : Rearranged R as bs) (hperm : bs.Perm cs) :
    Rearranged R as cs := by
  rwa [Rearranged, ← Multiset.coe_eq_coe.mpr hperm]

theorem flatMap {as : List α} {bs : List β} (h : Rearranged R as bs) {f : α → List γ}
    {g : β → List δ} (hfg : ∀ a b, R a b → Rearranged S (f a) (g b)) :
    Rearranged S (as.flatMap f) (bs.flatMap g) := by
  rw [Rearranged, ← Multiset.coe_bind, ← Multiset.coe_bind]
  exact Multiset.rel_bind hfg h

theorem map {as : List α} {bs : List β} (h : Rearranged R as bs) {f : α → γ} {g : β → δ}
    (hfg : ∀ a b, R a b → S (f a) (g b)) : Rearranged S (as.map f) (bs.map g) := by
  rw [Rearranged, ← Multiset.map_coe, ← Multiset.map_coe, Multiset.rel_map]
  exact h.mono fun a _ b _ => hfg a b

theorem flip {as : List α} {bs : List β} (h : Rearranged R as bs) :
    Rearranged (fun b a => R a b) bs as :=
  Multiset.rel_flip.mpr h

theorem exists_mem {as : List α} {bs : List β} (h : Rearranged R as bs) {a : α} (ha : a ∈ as) :
    ∃ b ∈ bs, R a b :=
  Multiset.exists_mem_of_rel_of_mem h ha

theorem all_eq {as : List α} {bs : List β} (h : Rearranged R as bs) {p : α → Bool} {q : β → Bool}
    (hpq : ∀ a ∈ as, ∀ b ∈ bs, R a b → p a = q b) : as.all p = bs.all q := by
  rw [Bool.eq_iff_iff, List.all_eq_true, List.all_eq_true]
  constructor
  · intro hall b hb
    obtain ⟨a, ha, hab⟩ := h.flip.exists_mem hb
    rw [← hpq a ha b hb hab]
    exact hall a ha
  · intro hall a ha
    obtain ⟨b, hb, hab⟩ := h.exists_mem ha
    rw [hpq a ha b hb hab]
    exact hall b hb

theorem length_eq {as : List α} {bs : List β} (h : Rearranged R as bs) : as.length = bs.length :=
  Multiset.card_eq_card_of_rel h

theorem isEmpty_eq {as : List α} {bs : List β} (h : Rearranged R as bs) :
    as.isEmpty = bs.isEmpty := by
  rw [Bool.eq_iff_iff, List.isEmpty_iff_length_eq_zero, List.isEmpty_iff_length_eq_zero,
    h.length_eq]

theorem head? {as : List α} {bs : List β} (h : Rearranged R as bs) (hlength : as.length ≤ 1) :
    Option.Rel R as.head? bs.head? := by
  have hlength' : bs.length ≤ 1 := h.length_eq ▸ hlength
  match as, bs, hlength, hlength' with
  | [], [], _, _ => exact .none
  | [a], [b], _, _ =>
    obtain ⟨c, hc, hab⟩ := h.exists_mem (List.mem_singleton_self a)
    rw [List.mem_singleton.mp hc] at hab
    exact .some hab
  | [], [_], _, _ => cases h.length_eq
  | [_], [], _, _ => cases h.length_eq

end Rearranged

theorem getElem?_of_forall₂ {α β : Type} {R : α → β → Prop} {as : List α} {bs : List β}
    (h : List.Forall₂ R as bs) (i : Nat) : Option.Rel R as[i]? bs[i]? := by
  induction h generalizing i with
  | nil => exact .none
  | cons hfirst _ ih =>
    cases i with
    | zero => exact .some hfirst
    | succ i => exact ih i

namespace Json

@[elab_as_elim]
theorem inductionOn {P : Json → Prop} (v : Json) (null : P .null) (bool : ∀ b, P (.bool b))
    (number : ∀ n, P (.number n)) (string : ∀ s, P (.string s))
    (array : ∀ items, (∀ w ∈ items, P w) → P (.array items))
    (object : ∀ ms, (∀ m ∈ ms, P m.2) → P (.object ms)) : P v :=
  @Json.rec P (fun items => ∀ w ∈ items, P w) (fun ms => ∀ m ∈ ms, P m.2) (fun m => P m.2)
    null bool number string array object
    (fun _ h => absurd h List.not_mem_nil)
    (fun _ _ hfirst hrest => List.forall_mem_cons.mpr ⟨hfirst, hrest⟩)
    (fun _ h => absurd h List.not_mem_nil)
    (fun _ _ hfirst hrest => List.forall_mem_cons.mpr ⟨hfirst, hrest⟩)
    (fun _ _ h => h) v

/-- Members of one name whose values are related. -/
inductive Namesakes (R : Json → Json → Prop) : String × Json → String × Json → Prop
  | mk {name : String} {v w : Json} (h : R v w) : Namesakes R (name, v) (name, w)

/-- The values differ in nothing but the order of the members of objects. -/
inductive Reordered : Json → Json → Prop
  | null : Reordered .null .null
  | bool (b : Bool) : Reordered (.bool b) (.bool b)
  | number (n : Number) : Reordered (.number n) (.number n)
  | string (s : String) : Reordered (.string s) (.string s)
  | array {items others : List Json} (h : List.Forall₂ Reordered items others) :
      Reordered (.array items) (.array others)
  | object {ms others : List (String × Json)} (h : Multiset.Rel (Namesakes Reordered) ms others) :
      Reordered (.object ms) (.object others)

/-- Reorderings of each other in which no object repeats a name. -/
structure Alike (v w : Json) : Prop where
  reordered : v.Reordered w
  left : v.Distinct
  right : w.Distinct

theorem names_perm {R : Json → Json → Prop} {ms others : List (String × Json)}
    (h : Rearranged (Namesakes R) ms others) : (ms.map Prod.fst).Perm (others.map Prod.fst) := by
  have hnames : Rearranged Eq (ms.map Prod.fst) (others.map Prod.fst) := by
    refine h.map ?_
    rintro _ _ ⟨-⟩
    rfl
  exact Multiset.coe_eq_coe.mp (Multiset.rel_eq.mp hnames)

theorem Reordered.distinct (v : Json) {w : Json} (h : v.Reordered w) (hv : v.Distinct) :
    w.Distinct := by
  induction v using inductionOn generalizing w with
  | array items ih =>
    cases h with
    | @array _ others h =>
      refine distinctItems_of_forall fun w hw => ?_
      obtain ⟨v, hmem, hvw⟩ := (Rearranged.of_forall₂ h).flip.exists_mem hw
      exact ih v hmem hvw (distinct_of_mem_items hv v hmem)
  | object ms ih =>
    cases h with
    | @object _ others h =>
      refine ⟨(names_perm h).nodup hv.1, distinctMembers_of_forall fun other hother => ?_⟩
      obtain ⟨m, hm, hvalue⟩ := (Rearranged.flip h).exists_mem hother
      cases hvalue with
      | mk hvalue => exact ih _ hm hvalue (distinct_of_mem_members hv.2 _ hm)
  | _ =>
    cases h
    exact hv

theorem Reordered.alike {v w : Json} (h : v.Reordered w) (hv : v.Distinct) : v.Alike w :=
  ⟨h, hv, h.distinct v hv⟩

theorem Alike.items {items others : List Json} (h : Alike (.array items) (.array others)) :
    List.Forall₂ Alike items others := by
  obtain ⟨hreordered, hleft, hright⟩ := h
  cases hreordered with
  | array h =>
    induction h with
    | nil => exact .nil
    | cons hfirst _ ih => exact .cons ⟨hfirst, hleft.1, hright.1⟩ (ih hleft.2 hright.2)

theorem Alike.members {ms others : List (String × Json)}
    (h : Alike (.object ms) (.object others)) :
    Rearranged (Namesakes Alike) ms others := by
  obtain ⟨hreordered, hleft, hright⟩ := h
  cases hreordered with
  | object h =>
    refine Rearranged.mono h ?_
    rintro _ hm _ hother ⟨hvalue⟩
    exact .mk ⟨hvalue, distinct_of_mem_members hleft.2 _ hm,
      distinct_of_mem_members hright.2 _ hother⟩

theorem lookup_of_rearranged {R : Json → Json → Prop} {ms others : List (String × Json)}
    (h : Rearranged (Namesakes R) ms others) (distinct : (others.map Prod.fst).Nodup)
    {name : String} {v : Json} (hv : ms.lookup name = some v) :
    ∃ w, others.lookup name = some w ∧ R v w := by
  obtain ⟨before, after, rfl, -⟩ := List.lookup_eq_some_iff.mp hv
  obtain ⟨other, hother, hrel⟩ := h.exists_mem (a := (name, v)) (by simp)
  cases hrel with
  | mk hvalue => exact ⟨_, lookup_of_mem distinct hother, hvalue⟩

theorem Alike.lookup {ms others : List (String × Json)} (h : Alike (.object ms) (.object others))
    (name : String) : Option.Rel Alike (ms.lookup name) (others.lookup name) := by
  cases hv : ms.lookup name with
  | some v =>
    obtain ⟨w, hw, hvalue⟩ := lookup_of_rearranged h.members h.right.1 hv
    rw [hw]
    exact .some hvalue
  | none =>
    cases hw : others.lookup name with
    | none => exact .none
    | some w =>
      have hflip : Rearranged (Namesakes (flip Alike)) others ms := by
        refine h.members.flip.mono ?_
        rintro _ _ _ _ ⟨hvalue⟩
        exact .mk hvalue
      obtain ⟨v, hsome, -⟩ := lookup_of_rearranged hflip h.left.1 hw
      rw [hv] at hsome
      cases hsome

theorem equalMembers_eq_all (ms others : List (String × Json)) :
    equalMembers ms others = ms.all fun m => equalOperands (some m.2) (others.lookup m.1) := by
  induction ms with
  | nil => rfl
  | cons m rest ih =>
    rw [equalMembers, ih, List.all_cons]
    cases others.lookup m.1 <;> rfl

theorem equalItems_left {items others : List Json}
    (h : List.Forall₂ (fun v w => ∀ u, v.equal u = w.equal u) items others) (us : List Json) :
    equalItems items us = equalItems others us := by
  induction h generalizing us with
  | nil => rfl
  | cons hfirst _ ih =>
    cases us with
    | nil => rfl
    | cons u us => rw [equalItems, equalItems, hfirst, ih]

theorem equalItems_right {R : Json → Json → Prop} {items others : List Json}
    (h : List.Forall₂ R items others) {us : List Json}
    (hus : ∀ u ∈ us, ∀ v w, R v w → u.equal v = u.equal w) :
    equalItems us items = equalItems us others := by
  induction h generalizing us with
  | nil => rfl
  | cons hfirst _ ih =>
    cases us with
    | nil => rfl
    | cons u us =>
      rw [List.forall_mem_cons] at hus
      rw [equalItems, equalItems, hus.1 _ _ hfirst, ih hus.2]

/-- On the left of a comparison the members are gone through, and each is looked for on its own. -/
theorem Reordered.equal_left (v : Json) {w : Json} (h : v.Reordered w) (u : Json) :
    v.equal u = w.equal u := by
  induction v using inductionOn generalizing w u with
  | array items ih =>
    cases h with
    | @array _ others h =>
      cases u with
      | array us =>
        have hboth := (List.forall₂_and_left items others).mpr ⟨ih, h⟩
        have hitems := hboth.imp fun v w hv u => hv.1 hv.2 u
        rw [Json.equal, Json.equal, equalItems_left hitems]
      | _ => rfl
  | object ms ih =>
    cases h with
    | @object _ others h =>
      cases u with
      | object us =>
        have hmembers : equalMembers ms us = equalMembers others us := by
          rw [equalMembers_eq_all, equalMembers_eq_all]
          refine Rearranged.all_eq h ?_
          rintro _ hm _ _ ⟨hvalue⟩
          dsimp only
          cases us.lookup _ with
          | none => rfl
          | some u => exact ih _ hm hvalue u
        rw [Json.equal, Json.equal, Rearranged.length_eq h, hmembers]
      | _ => rfl
  | _ =>
    cases h
    rfl

/-- On the right members are looked up by name, which tells nothing of their order only while names
are distinct. -/
theorem Alike.equal_right (u : Json) {v w : Json} (h : Alike v w) : u.equal v = u.equal w := by
  induction u using inductionOn generalizing v w with
  | array us ih =>
    cases h.reordered with
    | array _ =>
      rw [Json.equal, Json.equal]
      exact equalItems_right h.items fun u hu _ _ => ih u hu
    | _ => rfl
  | object us ih =>
    cases h.reordered with
    | @object ms others hms =>
      have hmembers : equalMembers us ms = equalMembers us others := by
        rw [equalMembers_eq_all, equalMembers_eq_all, Bool.eq_iff_iff, List.all_eq_true,
          List.all_eq_true]
        refine forall₂_congr fun m hm => ?_
        have hlookup := h.lookup m.1
        generalize ms.lookup m.1 = x at hlookup ⊢
        generalize others.lookup m.1 = y at hlookup ⊢
        cases hlookup with
        | none => rfl
        | some hvalue => rw [equalOperands, equalOperands, ih m hm hvalue]
      rw [Json.equal, Json.equal, Rearranged.length_eq hms, hmembers]
    | _ => rfl
  | _ =>
    cases h.reordered <;> rfl

/-- The very same value, or a reordering of it. -/
def Same (v w : Json) : Prop := v = w ∨ Alike v w

theorem Same.refl (v : Json) : Same v v := .inl rfl

theorem Same.equal {v v' w w' : Json} (h : Same v v') (h' : Same w w') :
    v.equal w = v'.equal w' := by
  have hleft : v.equal w = v'.equal w := by
    rcases h with rfl | h
    · rfl
    · exact h.reordered.equal_left v w
  have hright : v'.equal w = v'.equal w' := by
    rcases h' with rfl | h'
    · rfl
    · exact h'.equal_right v'
  rw [hleft, hright]

theorem Same.cases {v w : Json} (h : Same v w) :
    v = w ∨
      (∃ items others, v = .array items ∧ w = .array others ∧ List.Forall₂ Same items others) ∨
      ∃ ms others, v = .object ms ∧ w = .object others ∧ ms.length = others.length := by
  rcases h with rfl | h
  · exact .inl rfl
  cases h.reordered with
  | array _ => exact .inr (.inl ⟨_, _, rfl, rfl, h.items.imp fun _ _ => .inr⟩)
  | object hms => exact .inr (.inr ⟨_, _, rfl, rfl, Rearranged.length_eq hms⟩)
  | _ => exact .inl rfl

/-- What looks into neither arrays nor objects does not tell values apart that are the same. -/
theorem Same.eq_of_shallow {γ : Type} {f : Json → γ}
    (harray : ∀ items others, f (.array items) = f (.array others))
    (hobject : ∀ ms others, f (.object ms) = f (.object others)) {v w : Json} (h : Same v w) :
    f v = f w := by
  rcases h.cases with rfl | ⟨_, _, rfl, rfl, -⟩ | ⟨_, _, rfl, rfl, -⟩
  · rfl
  · exact harray _ _
  · exact hobject _ _

theorem Same.order {v v' w w' : Json} (h : Same v v') (h' : Same w w') :
    v.order w = v'.order w' := by
  have hleft : v.order w = v'.order w :=
    h.eq_of_shallow (f := fun v => v.order w) (fun _ _ => rfl) fun _ _ => rfl
  have hright : v'.order w = v'.order w' :=
    h'.eq_of_shallow (fun _ _ => by cases v' <;> rfl) fun _ _ => by cases v' <;> rfl
  rw [hleft, hright]

end Json

theorem eq_of_same {γ : Type} {f : Option Json → γ}
    (hf : ∀ v v' : Json, v.Same v' → f (some v) = f (some v')) {v v' : Option Json}
    (h : Option.Rel Json.Same v v') : f v = f v' := by
  cases h with
  | none => rfl
  | some h => exact hf _ _ h

theorem eq_of_shallow {γ : Type} {f : Option Json → γ}
    (harray : ∀ items others, f (some (.array items)) = f (some (.array others)))
    (hobject : ∀ ms others, f (some (.object ms)) = f (some (.object others)))
    {v v' : Option Json} (h : Option.Rel Json.Same v v') : f v = f v' :=
  eq_of_same (fun _ _ h => h.eq_of_shallow (f := fun v => f (some v)) harray hobject) h

theorem eq_of_same₂ {γ : Type} {f : Option Json → Option Json → γ}
    (hleft : ∀ (v v' : Json) (w : Option Json), v.Same v' → f (some v) w = f (some v') w)
    (hright : ∀ (v : Option Json) (w w' : Json), w.Same w' → f v (some w) = f v (some w'))
    {v v' w w' : Option Json} (h : Option.Rel Json.Same v v') (h' : Option.Rel Json.Same w w') :
    f v w = f v' w' :=
  (eq_of_same (f := fun v => f v w) (fun v v' => hleft v v' w) h).trans
    (eq_of_same (hright v') h')

theorem equalOperands_same {v v' w w' : Option Json} (h : Option.Rel Json.Same v v')
    (h' : Option.Rel Json.Same w w') : equalOperands v w = equalOperands v' w' := by
  refine eq_of_same₂ (fun v v' w h => ?_) (fun v w w' h => ?_) h h'
  · cases w with
    | none => rfl
    | some w => exact h.equal (.refl w)
  · cases v with
    | none => rfl
    | some v => exact (Json.Same.refl v).equal h

theorem orderOperands_same {v v' w w' : Option Json} (h : Option.Rel Json.Same v v')
    (h' : Option.Rel Json.Same w w') : orderOperands v w = orderOperands v' w' := by
  refine eq_of_same₂ (fun v v' w h => ?_) (fun v w w' h => ?_) h h'
  · cases w with
    | none => rfl
    | some w => exact h.order (.refl w)
  · cases v with
    | none => rfl
    | some v => exact (Json.Same.refl v).order h

theorem bothEmpty_same {v v' w w' : Option Json} (h : Option.Rel Json.Same v v')
    (h' : Option.Rel Json.Same w w') : bothEmpty v w = bothEmpty v' w' := by
  refine eq_of_same₂ (fun v v' w h => ?_) (fun v w w' h => ?_) h h'
  · exact h.eq_of_shallow (f := fun v => bothEmpty (some v) w) (fun _ _ => rfl) fun _ _ => rfl
  · refine h.eq_of_shallow (f := fun w => bothEmpty v (some w)) (fun _ _ => ?_) fun _ _ => ?_
    · rcases v with _ | _ | _ | _ | _ | _ | _ <;> rfl
    · rcases v with _ | _ | _ | _ | _ | _ | _ <;> rfl

theorem compare_same (op : BinaryOp) {v v' w w' : Option Json} (h : Option.Rel Json.Same v v')
    (h' : Option.Rel Json.Same w w') : op.compare v w = op.compare v' w' := by
  simp only [BinaryOp.compare, equalOperands_same h h', orderOperands_same h h',
    bothEmpty_same h h']

theorem calculate_mismatch (op : BinaryOp) {v w : Option Json}
    (hnumbers : ∀ m n, v = some (.number m) → w ≠ some (.number n))
    (hstrings : ∀ s t, v = some (.string s) → w ≠ some (.string t)) :
    op.calculate v w = .error (.typeMismatch (.operands op) op.operandTypes
      (.kinds (Json.kindName v) (Json.kindName w))) := by
  rw [BinaryOp.calculate]
  · exact fun m n hv => hnumbers m n hv
  · exact fun s t _ hv => hstrings s t hv

theorem calculate_same (op : BinaryOp) {v v' w w' : Option Json} (h : Option.Rel Json.Same v v')
    (h' : Option.Rel Json.Same w w') : op.calculate v w = op.calculate v' w' := by
  refine eq_of_same₂ (fun v v' w h => ?_) (fun v w w' h => ?_) h h'
  · refine h.eq_of_shallow (f := fun v => op.calculate (some v) w) (fun _ _ => ?_) fun _ _ => ?_
    · simp [calculate_mismatch, Json.kindName]
    · simp [calculate_mismatch, Json.kindName]
  · refine h.eq_of_shallow (f := fun w => op.calculate v (some w)) (fun _ _ => ?_) fun _ _ => ?_
    · simp [calculate_mismatch, Json.kindName]
    · simp [calculate_mismatch, Json.kindName]

theorem negated_same {v w : Option Json} (h : Option.Rel Json.Same v w) : negated v = negated w :=
  eq_of_shallow (fun _ _ => rfl) (fun _ _ => rfl) h

end JsonPath
