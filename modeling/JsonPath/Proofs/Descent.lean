import JsonPath.Proofs.Collection

set_option autoImplicit false

/-!
# Descendant segments

A descendant segment walks through everything below its node with a stack of nodes still to be
visited. It selects what the recursion would select that goes through the children one after the
other, in the same order and with the same first error, and it is done after as many turns as there
are values below and at the node.
-/
namespace JsonPath

namespace Node

theorem size_le_of_mem {n : Node} {ns : List Node} (h : n ∈ ns) : n.size ≤ sizes ns := by
  obtain ⟨before, after, rfl⟩ := List.append_of_mem h
  rw [sizes_append, sizes]
  omega

@[elab_as_elim]
theorem childInduction {P : Node → Prop} (h : ∀ n, (∀ child ∈ n.children, P child) → P n)
    (n : Node) : P n := by
  induction hsize : n.size using Nat.strongRecOn generalizing n with
  | ind size ih =>
    refine h n fun child hchild => ih child.size ?_ child rfl
    rw [← hsize]
    exact Nat.lt_of_le_of_lt (size_le_of_mem hchild) (sizes_children n)

theorem visit_append (stack rest : List Node) :
    visit (stack ++ rest) = visit stack ++ visit rest := by
  induction stack using visit.induct with
  | case1 => rw [visit, List.nil_append, List.nil_append]
  | case2 n stack ih =>
    rw [List.cons_append, visit, visit, ← List.append_assoc, ih, List.cons_append]

theorem visit_eq_flatMap (stack : List Node) : visit stack = stack.flatMap walk := by
  induction stack with
  | nil => rw [visit, List.flatMap_nil]
  | cons n rest ih =>
    rw [← List.singleton_append, visit_append, ih, List.flatMap_append, List.flatMap_singleton,
      walk]

theorem walk_eq (n : Node) : n.walk = n :: n.children.flatMap walk := by
  rw [walk, visit, List.append_nil, visit_eq_flatMap]

end Node

theorem Segment.apply_descendants_eq (ctx : Context) (ss : List Selector) (n : Node) :
    (Segment.descendants ss).apply ctx n = (do
      let own ← (Segment.children ss).apply ctx n
      let below ← collect (fun child => (Segment.descendants ss).apply ctx child) n.children
      pure (own ++ below)) := by
  simp only [Segment.apply]
  rw [Node.walk_eq, collect_cons, collect_flatMap]

/-- What a walk has in hand: the nodes that are still to be visited, the next one last, and what has
been selected so far. -/
structure Descent where
  stack : List Node
  selected : List Node

namespace Descent

variable (ctx : Context) (ss : List Selector)

/-- The node on top of the stack makes way for its children, the last one lowest, and the selectors
apply to it. An empty stack stays empty. -/
def turn (d : Descent) : Except EvalError Descent :=
  match d.stack.getLast? with
  | none => .ok d
  | some n => do
    let found ← applySelectors ctx ss n
    pure ⟨d.stack.dropLast ++ n.children.reverse, d.selected ++ found⟩

def turns : Nat → Descent → Except EvalError Descent
  | 0, d => .ok d
  | k + 1, d => do turns k (← d.turn ctx ss)

theorem turn_top (n : Node) (rest selected : List Node) :
    turn ctx ss ⟨(n :: rest).reverse, selected⟩ = (do
      let found ← applySelectors ctx ss n
      pure ⟨(n.children ++ rest).reverse, selected ++ found⟩) := by
  simp only [turn, List.reverse_cons, List.getLast?_concat, List.dropLast_concat,
    List.reverse_append]

/-- The stack holds, from the top down, what is left of the walk: one turn visits the next node, and
as many turns as there are values left visit them all. -/
theorem turns_stack (stack selected : List Node) :
    turns ctx ss (Node.sizes stack) ⟨stack.reverse, selected⟩ = (do
      let found ← collect (fun n => applySelectors ctx ss n) (Node.visit stack)
      pure ⟨[], selected ++ found⟩) := by
  induction stack using Node.visit.induct generalizing selected with
  | case1 =>
    rw [Node.visit]
    exact congrArg (fun out => Except.ok (Descent.mk [] out)) (List.append_nil selected).symm
  | case2 n rest ih =>
    -- the node makes way for its children, which leaves one value less to visit
    have hturns : Node.sizes (n :: rest) = Node.sizes (n.children ++ rest) + 1 := by
      rw [Node.sizes, Node.sizes_append, Node.size_eq]
      omega
    rw [hturns, turns, turn_top, Node.visit, collect_cons]
    simp only [bind_assoc, pure_bind, ih, List.append_assoc]

end Descent

/-- A descendant segment gives what its selectors give on the node and then, child after child, what
it gives itself on the children; its error is the first one in this order. The walk with a stack
gives the same and has emptied the stack after one turn for each value. -/
theorem Segment.apply_descendants (ctx : Context) (ss : List Selector) (n : Node) :
    (Segment.descendants ss).apply ctx n = (do
      let own ← (Segment.children ss).apply ctx n
      let below ← collect (fun child => (Segment.descendants ss).apply ctx child) n.children
      pure (own ++ below)) ∧
    (∀ e, (Segment.descendants ss).apply ctx n = .error e ↔
      (Segment.children ss).apply ctx n = .error e ∨
        (∃ own, (Segment.children ss).apply ctx n = .ok own) ∧
          ∃ before child after, n.children = before ++ child :: after ∧
            (∀ b ∈ before, ∃ found, (Segment.descendants ss).apply ctx b = .ok found) ∧
            (Segment.descendants ss).apply ctx child = .error e) ∧
    Descent.turns ctx ss n.size ⟨[n], []⟩ = (do
      let found ← (Segment.descendants ss).apply ctx n
      pure ⟨[], found⟩) := by
  refine ⟨Segment.apply_descendants_eq ctx ss n, fun e => ?_, ?_⟩
  · rw [← collect_eq_error_iff, Segment.apply_descendants_eq, bind_eq_error]
    constructor
    · rintro (hown | ⟨own, hown, hrest⟩)
      · exact .inl hown
      obtain hbelow | ⟨below, -, hnone⟩ := bind_eq_error.mp hrest
      · exact .inr ⟨⟨own, hown⟩, hbelow⟩
      · cases hnone
    · rintro (hown | ⟨⟨own, hown⟩, hbelow⟩)
      · exact .inl hown
      · exact .inr ⟨own, hown, bind_eq_error.mpr (.inl hbelow)⟩
  · have h := Descent.turns_stack ctx ss [n] []
    simpa only [Node.sizes, Nat.add_zero, List.reverse_singleton, List.nil_append, Segment.apply,
      Node.walk] using h

theorem Segment.apply_descendants_first_error :
    let check : Function := ⟨[], .logical, fun _ current _ =>
      match current with
      | .string s => .error (.functionFailed "check" s)
      | _ => .ok (.logical true)⟩
    let ctx : Context := ⟨.null, Environment.empty.withFunction "check" check, .strict⟩
    let ss : List Selector := [.filter (.call "check" [])]
    let flat := Json.array [.bool true]
    let deep := Json.array [.array [.string "x"]]
    let n := Node.root (.array [flat, deep, .array [.string "y"]])
    let e : EvalError := .functionFailed "check" "x"
    (Segment.descendants ss).apply ctx n = .error e ∧
      Descent.turns ctx ss n.size ⟨[n], []⟩ = .error e := by
  intro check ctx ss flat deep n e
  let child (i : Nat) (v : Json) : Node := ⟨Location.root.index i, v⟩
  have hflat : ∃ found, (Segment.descendants ss).apply ctx (child 0 flat) = .ok found :=
    ⟨[⟨(Location.root.index 0).index 0, .bool true⟩], by with_unfolding_all rfl⟩
  have hdeep : (Segment.descendants ss).apply ctx (child 1 deep) = .error e := by
    with_unfolding_all rfl
  have hown : ∃ own, (Segment.children ss).apply ctx n = .ok own := ⟨n.children, by rfl⟩
  have h := Segment.apply_descendants ctx ss n
  have herror : (Segment.descendants ss).apply ctx n = .error e :=
    (h.2.1 e).mpr (.inr ⟨hown, [child 0 flat], child 1 deep, [child 2 (.array [.string "y"])], rfl,
      by simpa using hflat, hdeep⟩)
  refine ⟨herror, ?_⟩
  rw [h.2.2, herror]
  rfl

end JsonPath
