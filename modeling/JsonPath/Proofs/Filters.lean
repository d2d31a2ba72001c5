import JsonPath.Proofs.BooleanLaws
import JsonPath.Proofs.Everything

set_option autoImplicit false

/-!
# Filters and the truth of their conditions

A filter asks its condition at every child and keeps those where it holds. It fails as soon as one
of the answers is an error, so a filter that succeeds has an answer for every child and is an
ordinary filter of the list of children. In strict mode a condition has an answer where it has a
truth as an operand, and its negation has the opposite one.
-/
namespace JsonPath

theorem collect_filter_eq_ok {α : Type} {test : α → Except EvalError Bool} {as bs : List α} :
    collect (fun a => test a >>= fun b => if b then pure [a] else pure []) as = .ok bs ↔
      ∃ keep : α → Bool, (∀ a ∈ as, test a = .ok (keep a)) ∧ bs = as.filter keep := by
  constructor
  · intro h
    -- the answers that there are, wherever they are
    let keep (a : α) : Bool := (test a).toOption.getD false
    refine ⟨keep, ?_⟩
    induction as generalizing bs with
    | nil =>
      cases h
      simp
    | cons a rest ih =>
      obtain ⟨found, more, hfound, hmore, rfl⟩ := collect_cons_eq_ok.mp h
      obtain ⟨b, hb, hfound⟩ := bind_eq_ok.mp hfound
      obtain ⟨hrest, rfl⟩ := ih hmore
      have hkeep : keep a = b := by simp [keep, hb, Except.toOption]
      rw [List.forall_mem_cons, List.filter_cons, hkeep]
      refine ⟨⟨hb, hrest⟩, ?_⟩
      cases b <;> cases hfound <;> rfl
  · rintro ⟨keep, h, rfl⟩
    induction as with
    | nil => rfl
    | cons a rest ih =>
      rw [List.forall_mem_cons] at h
      rw [collect_cons, h.1, ih h.2, List.filter_cons]
      cases keep a <;> rfl

/-- Whether a filter with this condition keeps a child with this value. -/
def Expr.holds (ctx : Context) (e : Expr) (v : Json) : Except EvalError Bool :=
  e.evaluate ctx v .logical >>= keeps ctx.mode e

theorem kept_eq (ctx : Context) (e : Expr) (child : Node) :
    kept ctx.mode e child (e.evaluate ctx child.value .logical) =
      e.holds ctx child.value >>= fun b => if b then pure [child] else pure [] :=
  (bind_assoc _ _ _).symm

/-- A filter that succeeds has an answer for every child, and keeps those where it is `true`. -/
theorem Selector.apply_filter_eq_ok {ctx : Context} {e : Expr} {n : Node} {ns : List Node} :
    (Selector.filter e).apply ctx n = .ok ns ↔
      ∃ keep : Node → Bool, (∀ child ∈ n.children, e.holds ctx child.value = .ok (keep child)) ∧
        ns = n.children.filter keep := by
  simp only [Selector.apply, kept_eq]
  exact collect_filter_eq_ok

section
variable {root : Json} {environment : Environment}

theorem Expr.holds_eq_ok {e : Expr} {v : Json} {b : Bool} (context : EvalError.Context) :
    e.holds ⟨root, environment, .strict⟩ v = .ok b ↔
      e.truth ⟨root, environment, .strict⟩ v .logical context = .ok b := by
  rw [Expr.holds, Expr.truth, bind_eq_ok, bind_eq_ok]
  refine exists_congr fun result => and_congr_right fun hresult => ?_
  cases result with
  | logical a => exact Iff.rfl
  | nodes vs =>
    -- no expression gives a list of nodes where truth is expected
    obtain ⟨own, -, htype⟩ := Expr.type_evaluate hresult
    cases own <;> cases htype
  | json value =>
    constructor
    · intro h
      cases h
    · intro h
      rcases value with _ | _ | _ | _ <;> cases h

theorem Expr.holds_not {e : Expr} {v : Json} {b : Bool} :
    (Expr.not e).holds ⟨root, environment, .strict⟩ v = .ok b ↔
      e.holds ⟨root, environment, .strict⟩ v = .ok !b := by
  rw [holds_eq_ok .notOperand, holds_eq_ok .notOperand, truth_not]
  cases e.truth ⟨root, environment, .strict⟩ v .logical .notOperand with
  | error e => simp
  | ok a => cases a <;> cases b <;> simp

theorem Selector.apply_filter_not_eq_ok {e : Expr} {n : Node} {ns : List Node} :
    (Selector.filter (.not e)).apply ⟨root, environment, .strict⟩ n = .ok ns ↔
      ∃ keep : Node → Bool,
        (∀ child ∈ n.children,
          e.holds ⟨root, environment, .strict⟩ child.value = .ok (keep child)) ∧
        ns = n.children.filter fun child => !keep child := by
  rw [Selector.apply_filter_eq_ok]
  simp only [Expr.holds_not]
  constructor
  · rintro ⟨keep, h, rfl⟩
    exact ⟨fun child => !keep child, h, by simp⟩
  · rintro ⟨keep, h, rfl⟩
    exact ⟨fun child => !keep child, by simpa using h, rfl⟩

end

theorem Node.location_mem_filter {n child : Node} (distinct : n.value.Distinct)
    (hchild : child ∈ n.children) (keep : Node → Bool) :
    child.location ∈ (n.children.filter keep).map Node.location ↔ keep child = true := by
  rw [List.mem_map]
  constructor
  · rintro ⟨other, hother, hlocation⟩
    rw [List.mem_filter] at hother
    have hself := List.inj_on_of_nodup_map (Node.children_nodup distinct) hother.1 hchild hlocation
    rw [← hself]
    exact hother.2
  · exact fun hkeep => ⟨child, List.mem_filter.mpr ⟨hchild, hkeep⟩, rfl⟩

/-- In strict mode a filter and its negation succeed together, and then share the children out
between them: each keeps the document order, and every child is selected by one of them. Places tell
children apart only if member names are distinct. -/
theorem Selector.apply_filter_not (root : Json) (environment : Environment) (e : Expr)
    (n : Node) :
    let ctx : Context := ⟨root, environment, .strict⟩
    ((∃ kept, (Selector.filter e).apply ctx n = .ok kept) ↔
      ∃ dropped, (Selector.filter (.not e)).apply ctx n = .ok dropped) ∧
    ∀ kept dropped, (Selector.filter e).apply ctx n = .ok kept →
      (Selector.filter (.not e)).apply ctx n = .ok dropped →
      kept.Sublist n.children ∧ dropped.Sublist n.children ∧
      kept.length + dropped.length = n.children.length ∧
      (n.value.Distinct → ∀ child ∈ n.children,
        (child.location ∈ kept.map Node.location ↔
          child.location ∉ dropped.map Node.location)) := by
  intro ctx
  have hkept := @Selector.apply_filter_eq_ok ctx e n
  have hdropped := @Selector.apply_filter_not_eq_ok root environment e n
  constructor
  · constructor
    · rintro ⟨kept, h⟩
      obtain ⟨keep, hkeep, -⟩ := hkept.mp h
      exact ⟨_, hdropped.mpr ⟨keep, hkeep, rfl⟩⟩
    · rintro ⟨dropped, h⟩
      obtain ⟨keep, hkeep, -⟩ := hdropped.mp h
      exact ⟨_, hkept.mpr ⟨keep, hkeep, rfl⟩⟩
  · intro kept dropped h h'
    obtain ⟨keep, hkeep, rfl⟩ := hkept.mp h
    obtain ⟨keep', hkeep', rfl⟩ := hdropped.mp h'
    have hsame : ∀ child ∈ n.children, keep' child = keep child := by
      intro child hchild
      have hok := (hkeep' child hchild).symm.trans (hkeep child hchild)
      exact Except.ok.inj hok
    have hfilter : n.children.filter (fun child => !keep' child) =
        n.children.filter fun child => !keep child :=
      List.filter_congr fun child hchild => by rw [hsame child hchild]
    rw [hfilter]
    refine ⟨List.filter_sublist, List.filter_sublist, ?_, ?_⟩
    · exact (List.length_eq_length_filter_add keep).symm
    · intro distinct child hchild
      rw [Node.location_mem_filter distinct hchild, Node.location_mem_filter distinct hchild]
      simp

theorem Selector.apply_filter_not_existence :
    let ctx : Context := ⟨.null, .standard, .strict⟩
    let e : Expr := .singular ⟨.current, [.children [.member "a"]]⟩
    let item : Json := .object [("a", .null)]
    let n : Node := ⟨.root, .array [item, .integer 1, item]⟩
    let kept : List Node := [⟨Location.root.index 0, item⟩, ⟨Location.root.index 2, item⟩]
    let dropped : List Node := [⟨Location.root.index 1, .integer 1⟩]
    n.value.Distinct ∧ (Selector.filter e).apply ctx n = .ok kept ∧
      (Selector.filter (.not e)).apply ctx n = .ok dropped ∧
      kept.length + dropped.length = n.children.length ∧
      (Location.root.index 1 ∈ kept.map Node.location ↔
        Location.root.index 1 ∉ dropped.map Node.location) := by
  intro ctx e item n kept dropped
  have distinct : n.value.Distinct := by
    simp [n, item, Json.Distinct, Json.DistinctItems, Json.DistinctMembers, Json.integer]
  have hkept : (Selector.filter e).apply ctx n = .ok kept := by with_unfolding_all rfl
  have hdropped : (Selector.filter (.not e)).apply ctx n = .ok dropped := by
    with_unfolding_all rfl
  obtain ⟨-, -, hlength, hplace⟩ :=
    (Selector.apply_filter_not .null .standard e n).2 kept dropped hkept hdropped
  have hmem : (⟨Location.root.index 1, .integer 1⟩ : Node) ∈ n.children := by
    simp [n, Node.children, Node.elements]
  exact ⟨distinct, hkept, hdropped, hlength, hplace distinct _ hmem⟩

end JsonPath
