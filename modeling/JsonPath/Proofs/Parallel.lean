import JsonPath.BuiltIn
import JsonPath.Proofs.Collection
import JsonPath.Proofs.Reordering

set_option autoImplicit false

/-!
# Outcomes of two runs

Two runs are parallel if both fail or both succeed with related results. Here are the parts of
strict evaluation that deal with the values of expressions: coercions, and those built-in functions
that show nothing of the order of what they are given.
-/
namespace JsonPath

/-- Both outcomes are errors, or both are results and related. -/
inductive Parallel {α β : Type} (R : α → β → Prop) :
    Except EvalError α → Except EvalError β → Prop
  | ok {a : α} {b : β} (h : R a b) : Parallel R (.ok a) (.ok b)
  | error (e e' : EvalError) : Parallel R (.error e) (.error e')

namespace Parallel

variable {α β γ δ : Type} {R : α → β → Prop} {S : γ → δ → Prop}

theorem bind {x : Except EvalError α} {y : Except EvalError β} {f : α → Except EvalError γ}
    {g : β → Except EvalError δ} (h : Parallel R x y)
    (hfg : ∀ a b, R a b → Parallel S (f a) (g b)) : Parallel S (x >>= f) (y >>= g) := by
  cases h with
  | ok h => exact hfg _ _ h
  | error e e' => exact .error e e'

theorem map {x : Except EvalError α} {y : Except EvalError β} {f : α → γ} {g : β → δ}
    (h : Parallel R x y) (hfg : ∀ a b, R a b → S (f a) (g b)) :
    Parallel S (f <$> x) (g <$> y) := by
  cases h with
  | ok h => exact .ok (hfg _ _ h)
  | error e e' => exact .error e e'

theorem map_congr {x y : Except EvalError α} (h : Parallel Eq x y) (f : α → γ) :
    Parallel Eq (f <$> x) (f <$> y) :=
  h.map fun _ _ hab => congrArg f hab

theorem refl {R : α → α → Prop} (hR : ∀ a, R a a) (x : Except EvalError α) : Parallel R x x := by
  cases x with
  | ok a => exact .ok (hR a)
  | error e => exact .error e e

theorem of_eq {x y : Except EvalError α} (h : x = y) : Parallel Eq x y := by
  rw [h]
  exact .refl (fun _ => rfl) y

theorem and_left {x : Except EvalError α} {y : Except EvalError β} {P : α → Prop}
    (h : Parallel R x y) (hP : ∀ a, x = .ok a → P a) : Parallel (fun a b => R a b ∧ P a) x y := by
  cases h with
  | ok h => exact .ok ⟨h, hP _ rfl⟩
  | error e e' => exact .error e e'

theorem error_iff {x : Except EvalError α} {y : Except EvalError β} (h : Parallel R x y) :
    (∃ e, x = .error e) ↔ ∃ e, y = .error e := by
  cases h with
  | ok _ => simp
  | error e e' => simp

theorem of_ok {x : Except EvalError α} {y : Except EvalError β} {a : α} {b : β}
    (h : Parallel R x y) (hx : x = .ok a) (hy : y = .ok b) : R a b := by
  subst hx hy
  cases h with
  | ok h => exact h

theorem trans {T : α → γ → Prop} {S : β → γ → Prop} {x : Except EvalError α}
    {y : Except EvalError β} {z : Except EvalError γ} (h : Parallel R x y) (h' : Parallel S y z)
    (hRS : ∀ a b c, R a b → S b c → T a c) : Parallel T x z := by
  cases h with
  | ok h =>
    cases h' with
    | ok h' => exact .ok (hRS _ _ _ h h')
  | error e _ =>
    cases h' with
    | error _ e' => exact .error e e'

end Parallel

section
variable {α β γ δ : Type} {R : α → β → Prop} {S : γ → δ → Prop}

/-- The order of the items decides which error comes first, but not whether there is one. -/
theorem collect_perm (f : α → Except EvalError (List γ)) {as as' : List α} (h : as.Perm as') :
    Parallel List.Perm (collect f as) (collect f as') := by
  induction h with
  | nil => exact .ok (.refl _)
  | cons a _ ih =>
    rw [collect_cons, collect_cons]
    refine (Parallel.refl (R := Eq) (fun _ => rfl) (f a)).bind ?_
    rintro found _ rfl
    exact ih.bind fun more more' hmore => .ok (hmore.append_left found)
  | swap a b as =>
    simp only [collect_cons]
    cases f a with
    | error e => cases f b <;> exact .error _ _
    | ok xs =>
      cases f b with
      | error e => exact .error _ _
      | ok ys =>
        cases collect f as with
        | error e => exact .error _ _
        | ok more => exact .ok (List.perm_append_comm_assoc ys xs more)
  | trans _ _ ih ih' => exact ih.trans ih' fun _ _ _ => List.Perm.trans

theorem Parallel.collect {as : List α} {bs : List β} {f : α → Except EvalError (List γ)}
    {g : β → Except EvalError (List δ)} (h : Rearranged R as bs)
    (hfg : ∀ a b, R a b → Parallel (Rearranged S) (f a) (g b)) :
    Parallel (Rearranged S) (JsonPath.collect f as) (JsonPath.collect g bs) := by
  induction as generalizing bs with
  | nil =>
    have hnil : bs = [] := List.length_eq_zero_iff.mp h.length_eq.symm
    rw [hnil]
    exact .ok .nil
  | cons a as ih =>
    rw [Rearranged, ← Multiset.cons_coe, Multiset.rel_cons_left] at h
    obtain ⟨b, rest, hab, hrest, hbs⟩ := h
    obtain ⟨bs', rfl⟩ := Quot.exists_rep rest
    -- the partner of the first item may stand anywhere in the other list
    have hperm : (b :: bs').Perm bs := Multiset.coe_eq_coe.mp hbs.symm
    have hfirst : Parallel (Rearranged S) (JsonPath.collect f (a :: as))
        (JsonPath.collect g (b :: bs')) := by
      rw [collect_cons, collect_cons]
      exact (hfg a b hab).bind fun _ _ hxy => (ih hrest).bind fun _ _ hmore =>
        .ok (hxy.append hmore)
    exact hfirst.trans (collect_perm g hperm) fun _ _ _ => Rearranged.perm

end

namespace ExprValue

/-- Truth values that are equal, JSON values that are the same and nodes in any order. -/
inductive Alike : ExprValue → ExprValue → Prop
  | logical (b : Bool) : Alike (.logical b) (.logical b)
  | json {v w : Option Json} (h : Option.Rel Json.Same v w) : Alike (.json v) (.json w)
  | nodes {vs ws : List Json} (h : Rearranged Json.Same vs ws) : Alike (.nodes vs) (.nodes ws)

theorem Alike.refl (v : ExprValue) : Alike v v := by
  cases v with
  | logical b => exact .logical b
  | json v =>
    refine .json ?_
    cases v with
    | none => exact .none
    | some v => exact .some (.refl v)
  | nodes vs => exact .nodes (.refl .refl vs)

theorem Alike.type_eq {v w : ExprValue} (h : Alike v w) : v.type = w.type := by
  cases h <;> rfl

end ExprValue

namespace Coercion

theorem toTruth_alike (context : EvalError.Context) {v w : ExprValue} (h : v.Alike w) :
    toTruth .strict context v = toTruth .strict context w := by
  cases h with
  | logical b => rfl
  | nodes h => rw [toTruth, toTruth, h.isEmpty_eq]
  | json h =>
    exact eq_of_shallow (f := fun v => toTruth .strict context (.json v)) (fun _ _ => rfl)
      (fun _ _ => rfl) h

theorem operandTruth_alike (type : ExprType) (context : EvalError.Context) {v w : ExprValue}
    (h : v.Alike w) :
    operandTruth .strict type context v = operandTruth .strict type context w := by
  cases type with
  | json =>
    cases h with
    | logical b => rfl
    | nodes h => simp only [operandTruth, mismatch, ExprValue.description, h.length_eq]
    | json h =>
      exact eq_of_shallow (f := fun v => operandTruth .strict .json context (.json v))
        (fun _ _ => rfl) (fun _ _ => rfl) h
  | logical => exact toTruth_alike context h
  | nodes => exact toTruth_alike context h

theorem toJson_alike (context : EvalError.Context) {v w : ExprValue} (h : v.Alike w) :
    Parallel (Option.Rel Json.Same) (toJson .strict context v) (toJson .strict context w) := by
  cases h with
  | logical b => exact .ok (.some (.refl _))
  | json h => exact .ok h
  | @nodes vs ws h =>
    rw [toJson, toJson, ← h.length_eq]
    split
    · exact .error _ _
    · next hfew => exact .ok (h.head? (by simpa using hfew))

theorem ofNodes_alike (expected : ExprType) {singular : Bool} (query : Path) {vs ws : List Json}
    (h : Rearranged Json.Same vs ws) (hsingular : singular = true → vs.length ≤ 1) :
    Parallel ExprValue.Alike (ofNodes .strict expected singular query vs)
      (ofNodes .strict expected singular query ws) := by
  cases expected with
  | logical =>
    rw [ofNodes, ofNodes, h.isEmpty_eq]
    exact .ok (.logical _)
  | nodes => exact .ok (.nodes h)
  | json =>
    rw [ofNodes, ofNodes]
    split
    · exact .error _ _
    · next hone => exact .ok (.json (h.head? (hsingular (by simpa using hone))))

theorem toParam_alike (param : ExprType) (context : EvalError.Context) {v w : ExprValue}
    (h : v.Alike w) :
    Parallel ExprValue.Alike (toParam .strict param context v)
      (toParam .strict param context w) := by
  cases h with
  | logical b => exact .refl .refl _
  | json h =>
    cases param with
    | json => exact .ok (.json h)
    | _ => exact .error _ _
  | nodes h =>
    cases param with
    | json => exact .error _ _
    | logical =>
      rw [toParam, toParam, h.isEmpty_eq]
      exact .ok (.logical _)
    | nodes => exact .ok (.nodes h)

theorem ofResult_alike (expected : ExprType) (function : String) {v w : ExprValue}
    (h : v.Alike w) :
    Parallel ExprValue.Alike (ofResult .strict expected function v)
      (ofResult .strict expected function w) := by
  cases h with
  | logical b => exact .refl .refl _
  | json h => cases expected <;> exact .ok (.json h)
  | nodes h =>
    cases expected with
    | logical =>
      rw [ofResult, ofResult, h.isEmpty_eq]
      exact .ok (.logical _)
    | json => exact (toJson_alike _ (.nodes h)).map fun _ _ => .json
    | nodes => exact .ok (.nodes h)

end Coercion

/-- The function answers alike to arguments that are alike, whatever the document and the value
under test. -/
def Function.OrderBlind (f : Function) : Prop :=
  ∀ (root root' current current' : Json) (args args' : List ExprValue),
    List.Forall₂ ExprValue.Alike args args' →
      Parallel ExprValue.Alike (f.apply root current args) (f.apply root' current' args')

namespace BuiltIn

theorem jsonArg_alike {args args' : List ExprValue} (h : List.Forall₂ ExprValue.Alike args args')
    (i : Nat) : Option.Rel Json.Same (jsonArg args i) (jsonArg args' i) := by
  have harg := getElem?_of_forall₂ h i
  rw [jsonArg, jsonArg]
  generalize args[i]? = arg at harg ⊢
  generalize args'[i]? = arg' at harg ⊢
  cases harg with
  | none => exact .none
  | some h =>
    cases h with
    | json h => exact h
    | _ => exact .none

theorem nodesArg_alike {args args' : List ExprValue}
    (h : List.Forall₂ ExprValue.Alike args args') :
    Rearranged Json.Same (nodesArg args) (nodesArg args') := by
  cases h with
  | nil => exact .nil
  | cons hfirst _ =>
    cases hfirst with
    | nodes h => exact h
    | _ => exact .nil

theorem lengthOf_same {v w : Option Json} (h : Option.Rel Json.Same v w) :
    lengthOf v = lengthOf w := by
  cases h with
  | none => rfl
  | some h =>
    rcases h.cases with rfl | ⟨_, _, rfl, rfl, hitems⟩ | ⟨_, _, rfl, rfl, hlength⟩
    · rfl
    · rw [lengthOf, lengthOf, hitems.length_eq]
    · rw [lengthOf, lengthOf, hlength]

theorem onlyOne_alike {vs ws : List Json} (h : Rearranged Json.Same vs ws) :
    (onlyOne vs).Alike (onlyOne ws) := by
  have hlength := h.length_eq
  match vs, ws with
  | [], [] => exact .refl _
  | [v], [w] =>
    have hhead := h.head? (Nat.le_refl 1)
    exact .json hhead
  | _ :: _ :: _, _ :: _ :: _ => exact .refl _
  | [], _ :: _ | _ :: _, [] | [_], _ :: _ :: _ | _ :: _ :: _, [_] => simp at hlength

theorem testPattern_same (engine : IRegexp.Engine) (scope : IRegexp.Scope)
    {v v' w w' : Option Json} (h : Option.Rel Json.Same v v') (h' : Option.Rel Json.Same w w') :
    testPattern engine scope v w = testPattern engine scope v' w' := by
  refine eq_of_same₂ (fun v v' w h => ?_) (fun v w w' h => ?_) h h'
  · exact h.eq_of_shallow (f := fun v => testPattern engine scope (some v) w) (fun _ _ => rfl)
      fun _ _ => rfl
  · refine h.eq_of_shallow (f := fun w => testPattern engine scope v (some w)) (fun _ _ => ?_)
      fun _ _ => ?_
    · rcases v with _ | _ | _ | _ | _ | _ | _ <;> rfl
    · rcases v with _ | _ | _ | _ | _ | _ | _ <;> rfl

theorem any_same {items others : List Json} (h : List.Forall₂ Json.Same items others)
    {p q : Json → Bool} (hpq : ∀ v w, v.Same w → p v = q w) : items.any p = others.any q := by
  induction h with
  | nil => rfl
  | cons hfirst _ ih => rw [List.any_cons, List.any_cons, hpq _ _ hfirst, ih]

theorem isSubset_same {v v' w w' : Option Json} (h : Option.Rel Json.Same v v')
    (h' : Option.Rel Json.Same w w') : isSubset v w = isSubset v' w' := by
  refine eq_of_same₂ (fun v v' w h => ?_) (fun v w w' h => ?_) h h'
  · rcases h.cases with rfl | ⟨items, others, rfl, rfl, hitems⟩ | ⟨_, _, rfl, rfl, -⟩
    · rfl
    · rcases w with _ | w
      · rfl
      · cases w with
        | array us =>
          refine (Rearranged.of_forall₂ hitems).all_eq fun item _ other _ h => ?_
          exact congrArg us.any (funext fun u => h.equal (.refl u))
        | _ => rfl
    · rfl
  · rcases h.cases with rfl | ⟨items, others, rfl, rfl, hitems⟩ | ⟨_, _, rfl, rfl, -⟩
    · rfl
    · rcases v with _ | v
      · rfl
      · cases v with
        | array us =>
          refine congrArg us.all (funext fun u => ?_)
          exact any_same hitems fun _ _ h => (Json.Same.refl u).equal h
        | _ => rfl
    · rcases v with _ | _ | _ | _ | _ | _ | _ <;> rfl

theorem holdsScalar_same {v v' w w' : Option Json} (h : Option.Rel Json.Same v v')
    (h' : Option.Rel Json.Same w w') : holdsScalar v w = holdsScalar v' w' := by
  refine eq_of_same₂ (fun v v' w h => ?_) (fun v w w' h => ?_) h h'
  · rcases h.cases with rfl | ⟨items, others, rfl, rfl, hitems⟩ | ⟨_, _, rfl, rfl, -⟩
    · rfl
    · rcases w with _ | w
      · rfl
      · have hany := any_same hitems (p := fun item => item.equal w) (q := fun item => item.equal w)
          fun _ _ h => h.equal (.refl w)
        cases w with
        | array _ => rfl
        | object _ => rfl
        | _ => exact hany
    · rcases w with _ | _ | _ | _ | _ | _ | _ <;> rfl
  · refine h.eq_of_shallow (f := fun w => holdsScalar v (some w)) (fun _ _ => ?_) fun _ _ => ?_
    · rcases v with _ | _ | _ | _ | _ | _ | _ <;> rfl
    · rcases v with _ | _ | _ | _ | _ | _ | _ <;> rfl

def orderBlind : List String :=
  ["length", "count", "match", "search", "value", "subset", "contains"]

theorem builtIns_orderBlind (engine : IRegexp.Engine) {name : String} (h : name ∈ orderBlind) :
    ∃ f, (Environment.builtIns engine).findFunction name = some f ∧ f.OrderBlind := by
  simp only [orderBlind, List.mem_cons, List.not_mem_nil, or_false] at h
  rcases h with rfl | rfl | rfl | rfl | rfl | rfl | rfl
  · refine ⟨length, rfl, fun _ _ _ _ _ _ h => .ok ?_⟩
    rw [lengthOf_same (jsonArg_alike h 0)]
    exact .refl _
  · refine ⟨count, rfl, fun _ _ _ _ _ _ h => .ok ?_⟩
    rw [(nodesArg_alike h).length_eq]
    exact .refl _
  · refine ⟨matchWhole engine, rfl, fun _ _ _ _ _ _ h => .ok ?_⟩
    rw [testPattern_same engine .whole (jsonArg_alike h 0) (jsonArg_alike h 1)]
    exact .refl _
  · refine ⟨search engine, rfl, fun _ _ _ _ _ _ h => .ok ?_⟩
    rw [testPattern_same engine .part (jsonArg_alike h 0) (jsonArg_alike h 1)]
    exact .refl _
  · exact ⟨value, rfl, fun _ _ _ _ _ _ h => .ok (onlyOne_alike (nodesArg_alike h))⟩
  · refine ⟨subset, rfl, fun _ _ _ _ _ _ h => .ok ?_⟩
    rw [isSubset_same (jsonArg_alike h 0) (jsonArg_alike h 1)]
    exact .refl _
  · refine ⟨contains, rfl, fun _ _ _ _ _ _ h => .ok ?_⟩
    rw [holdsScalar_same (jsonArg_alike h 0) (jsonArg_alike h 1)]
    exact .refl _

end BuiltIn
end JsonPath
