import Mathlib.Data.List.Forall2
import JsonPath.Proofs.Collection

set_option autoImplicit false

/-!
# Composed segments

Each segment is applied to all the nodes selected so far before the next segment is looked at. Going
from one of these nodes through all the remaining segments, and then from the next one, selects the
same nodes in the same order. It fails on the same queries too, but may meet another error first.
-/
namespace JsonPath

variable {ctx : Context} {ss : List Segment}

theorem applySegments_append (ctx : Context) (a b : List Segment) (ns : List Node) :
    applySegments ctx (a ++ b) ns = applySegments ctx a ns >>= applySegments ctx b := by
  induction a generalizing ns with
  | nil => rfl
  | cons s rest ih =>
    rw [List.cons_append, applySegments, applySegments, bind_assoc]
    exact bind_congr ih

theorem applySegments_empty (ctx : Context) (ss : List Segment) :
    applySegments ctx ss [] = .ok [] := by
  induction ss with
  | nil => rfl
  | cons _ _ ih => exact ih

/-- The third outcome is one for two lists together whose own outcomes are the first and the second:
results are put together, and an error is an error of one of the two. -/
inductive Joint : Except EvalError (List Node) → Except EvalError (List Node) →
    Except EvalError (List Node) → Prop
  | ok (xs ys : List Node) : Joint (.ok xs) (.ok ys) (.ok (xs ++ ys))
  | left (e : EvalError) (y : Except EvalError (List Node)) : Joint (.error e) y (.error e)
  | right (x : Except EvalError (List Node)) (e : EvalError) : Joint x (.error e) (.error e)

theorem Joint.eq_ok_iff {x y z : Except EvalError (List Node)} (h : Joint x y z) {r : List Node} :
    z = .ok r ↔ ∃ xs ys, x = .ok xs ∧ y = .ok ys ∧ r = xs ++ ys := by
  cases h with
  | ok xs ys => simp [eq_comm]
  | left e y => simp
  | right x e => simp

theorem Joint.eq_error {x y z : Except EvalError (List Node)} (h : Joint x y z) {e : EvalError}
    (hz : z = .error e) : x = .error e ∨ y = .error e := by
  subst hz
  cases h with
  | left => exact .inl rfl
  | right => exact .inr rfl

/-- Segment by segment, the two lists stay together until one of them fails. -/
theorem applySegments_joint (ctx : Context) (ss : List Segment) (ns ms : List Node) :
    Joint (applySegments ctx ss ns) (applySegments ctx ss ms)
      (applySegments ctx ss (ns ++ ms)) := by
  induction ss generalizing ns ms with
  | nil => exact .ok ns ms
  | cons s rest ih =>
    simp only [applySegments, collect_append]
    cases collect (fun n => s.apply ctx n) ns with
    | error e => exact .left e _
    | ok found =>
      cases collect (fun n => s.apply ctx n) ms with
      | error e => exact .right _ e
      | ok more => exact ih found more

theorem applySegments_flatten {ns : List Node} {rs : List (List Node)}
    (h : List.Forall₂ (fun n found => applySegments ctx ss [n] = .ok found) ns rs) :
    applySegments ctx ss ns = .ok rs.flatten := by
  induction h with
  | nil => exact applySegments_empty ctx ss
  | cons hfirst _ ih =>
    exact (applySegments_joint ctx ss [_] _).eq_ok_iff.mpr ⟨_, _, hfirst, ih, rfl⟩

theorem exists_of_applySegments {ns r : List Node} (h : applySegments ctx ss ns = .ok r) {m : Node}
    (hm : m ∈ ns) : ∃ found, applySegments ctx ss [m] = .ok found := by
  obtain ⟨before, after, rfl⟩ := List.append_of_mem hm
  obtain ⟨_, _, -, hrest, -⟩ := (applySegments_joint ctx ss before (m :: after)).eq_ok_iff.mp h
  obtain ⟨found, _, hfound, -, -⟩ := (applySegments_joint ctx ss [m] after).eq_ok_iff.mp hrest
  exact ⟨found, hfound⟩

theorem applySegments_eq_error {ns : List Node} {e : EvalError}
    (h : applySegments ctx ss ns = .error e) :
    ∃ n ∈ ns, applySegments ctx ss [n] = .error e := by
  induction ns with
  | nil =>
    rw [applySegments_empty] at h
    cases h
  | cons n rest ih =>
    have hjoint := applySegments_joint ctx ss [n] rest
    rcases hjoint.eq_error h with hfirst | hrest
    · exact ⟨n, List.mem_cons_self, hfirst⟩
    · obtain ⟨m, hm, herror⟩ := ih hrest
      exact ⟨m, List.mem_cons_of_mem n hm, herror⟩

theorem Path.select_append_eq (ctx : Context) (start : Start) (a b : List Segment) (n : Node) :
    Path.select ctx ⟨start, a ++ b⟩ n = Path.select ctx ⟨start, a⟩ n >>= applySegments ctx b := by
  cases start with
  | root => exact applySegments_append ctx a b _
  | current => exact applySegments_append ctx a b _

/-- A path that fails still fails with more segments, in the same way. Otherwise its continuation
selects what the segments select from each of its nodes, one node after the other, and fails if they
fail from one of the nodes, with the error of such a node. -/
theorem Path.select_append (ctx : Context) (start : Start) (a b : List Segment) (n : Node) :
    (∀ e, Path.select ctx ⟨start, a⟩ n = .error e →
      Path.select ctx ⟨start, a ++ b⟩ n = .error e) ∧
    ∀ ns, Path.select ctx ⟨start, a⟩ n = .ok ns →
      (∀ rs, List.Forall₂ (fun m found => Path.select ctx ⟨.current, b⟩ m = .ok found) ns rs →
        Path.select ctx ⟨start, a ++ b⟩ n = .ok rs.flatten) ∧
      ((∃ m ∈ ns, ∃ e, Path.select ctx ⟨.current, b⟩ m = .error e) →
        ∃ m ∈ ns, ∃ e, Path.select ctx ⟨.current, b⟩ m = .error e ∧
          Path.select ctx ⟨start, a ++ b⟩ n = .error e) := by
  rw [Path.select_append_eq]
  constructor
  · intro e h
    rw [h]
    rfl
  intro ns h
  rw [h]
  constructor
  · intro rs hrs
    exact applySegments_flatten hrs
  · rintro ⟨m, hm, e, herror⟩
    change ∃ m ∈ ns, ∃ e, Path.select ctx ⟨.current, b⟩ m = .error e ∧
      applySegments ctx b ns = .error e
    cases hall : applySegments ctx b ns with
    | error first =>
      obtain ⟨m', hm', hfirst⟩ := applySegments_eq_error hall
      exact ⟨m', hm', first, hfirst, rfl⟩
    | ok r =>
      -- a result for all nodes would come with one for the node that fails
      obtain ⟨found, hfound⟩ := exists_of_applySegments hall hm
      have hcontra := herror.symm.trans hfound
      cases hcontra

theorem Path.select_append_first_error :
    let first := Json.array [.object [("a", .integer 1), ("b", .null)]]
    let second := Json.array [.object [("a", .integer 0)]]
    let n := Node.root (.array [first, second])
    let ns := n.children
    let ctx : Context := ⟨n.value, .empty, .strict⟩
    let a : List Segment := [.children [.wildcard]]
    let unknown : Segment := .children [.filter (.variable "x")]
    let b : List Segment := [.children [.filter (.binary .equal (.binary .divide (.integer 1)
      (.singular ⟨.current, [.children [.member "a"]]⟩)) (.integer 1))], unknown]
    Path.select ctx ⟨.root, unknown :: a⟩ n = .error (.unknownVariable "x") ∧
      Path.select ctx ⟨.root, a ++ [.children [.index 0]]⟩ n =
        .ok (ns.flatMap fun m => m.children) ∧
      Path.select ctx ⟨.current, b⟩ ⟨Location.root.index 0, first⟩ = .error (.unknownVariable "x") ∧
      Path.select ctx ⟨.root, a ++ b⟩ n = .error .divisionByZero ∧
      ∃ m ∈ ns, ∃ e, Path.select ctx ⟨.current, b⟩ m = .error e ∧
        Path.select ctx ⟨.root, a ++ b⟩ n = .error e := by
  intro first second n ns ctx a unknown b
  have hselected : Path.select ctx ⟨.root, a⟩ n = .ok ns := by rfl
  have hfirst : Path.select ctx ⟨.current, b⟩ ⟨Location.root.index 0, first⟩ =
      .error (.unknownVariable "x") := by rfl
  refine ⟨?_, ?_, hfirst, by rfl, ?_⟩
  · exact (Path.select_append ctx .root [unknown] a n).1 _ (by rfl)
  · have h := ((Path.select_append ctx .root a [.children [.index 0]] n).2 ns hselected).1
    exact h [_, _] (.cons (by rfl) (.cons (by rfl) .nil))
  · have h := ((Path.select_append ctx .root a b n).2 ns hselected).2
    exact h ⟨_, List.mem_cons_self, _, hfirst⟩

end JsonPath
