import JsonPath.Location

set_option autoImplicit false

/-!
# Walks through a document

A node and everything below it, each node before its children and the children in document order.
The walk keeps the nodes that are still to be visited on a stack.
-/
namespace JsonPath.Node

def size (n : Node) : Nat := n.value.size

def sizes : List Node → Nat
  | [] => 0
  | n :: rest => n.size + sizes rest

theorem sizes_elements (l : Location) (i : Nat) (items : List Json) :
    sizes (elements l i items) = Json.sizeItems items := by
  induction items generalizing i with
  | nil => rfl
  | cons v rest ih => simp [elements, sizes, size, Json.sizeItems, ih]

theorem sizes_members (l : Location) (ms : List (String × Json)) :
    sizes (members l ms) = Json.sizeMembers ms := by
  induction ms with
  | nil => rfl
  | cons m rest ih =>
    obtain ⟨name, v⟩ := m
    simp only [members] at ih
    simp [members, sizes, size, Json.sizeMembers, ih]

theorem size_eq (n : Node) : n.size = sizes n.children + 1 := by
  obtain ⟨l, v⟩ := n
  cases v with
  | array items =>
    show Json.sizeItems items + 1 = sizes (elements l 0 items) + 1
    rw [sizes_elements]
  | object ms =>
    show Json.sizeMembers ms + 1 = sizes (members l ms) + 1
    rw [sizes_members]
  | _ => rfl

theorem sizes_children (n : Node) : sizes n.children < n.size := by
  rw [size_eq]
  exact Nat.lt_succ_self _

theorem sizes_append (a b : List Node) : sizes (a ++ b) = sizes a + sizes b := by
  induction a with
  | nil => simp [sizes]
  | cons n rest ih => simp [sizes, ih, Nat.add_assoc]

def visit : List Node → List Node
  | [] => []
  | n :: rest => n :: visit (n.children ++ rest)
termination_by stack => sizes stack
decreasing_by
  rw [sizes_append, sizes]
  have h := sizes_children n
  omega

def walk (n : Node) : List Node := visit [n]

end JsonPath.Node
