import JsonPath.Syntax

set_option autoImplicit false

/-!
# Expressions at every depth

What is asked of a query is often asked of each expression in it, down through the operands, the
arguments and the filters of nested queries.
-/
namespace JsonPath

section
variable (P : Expr → Prop)

mutual
def Segment.Everywhere : Segment → Prop
  | .children s => SelectorsEverywhere s
  | .descendants s => SelectorsEverywhere s

def SelectorsEverywhere : List Selector → Prop
  | [] => True
  | s :: rest => s.Everywhere ∧ SelectorsEverywhere rest

def Selector.Everywhere : Selector → Prop
  | .filter e => e.Everywhere
  | _ => True

def SegmentsEverywhere : List Segment → Prop
  | [] => True
  | s :: rest => s.Everywhere ∧ SegmentsEverywhere rest

def Path.Everywhere : Path → Prop
  | ⟨_, s⟩ => SegmentsEverywhere s

/-- `P` holds of the expression and of every expression inside it. -/
def Expr.Everywhere : Expr → Prop
  | .query p => P (.query p) ∧ p.Everywhere
  | .singular p => P (.singular p) ∧ p.Everywhere
  | .call f args => P (.call f args) ∧ ArgumentsEverywhere args
  | .not e => P (.not e) ∧ e.Everywhere
  | .negate e => P (.negate e) ∧ e.Everywhere
  | .binary op l r => P (.binary op l r) ∧ l.Everywhere ∧ r.Everywhere
  | e => P e

def ArgumentsEverywhere : List Expr → Prop
  | [] => True
  | e :: rest => e.Everywhere ∧ ArgumentsEverywhere rest
end

end

variable {P : Expr → Prop}

theorem Expr.Everywhere.self {e : Expr} (h : e.Everywhere P) : P e := by
  match e with
  | .query _ | .singular _ | .call _ _ | .not _ | .negate _ | .binary _ _ _ => exact h.1
  | .null | .bool _ | .integer _ | .float _ | .string _ | .variable _ => exact h

theorem argumentsEverywhere_iff {es : List Expr} :
    ArgumentsEverywhere P es ↔ ∀ e ∈ es, e.Everywhere P := by
  induction es with
  | nil => simp [ArgumentsEverywhere]
  | cons e rest ih => rw [ArgumentsEverywhere, ih, List.forall_mem_cons]

/-! A weaker property holds wherever a property does. -/

variable {Q : Expr → Prop}

mutual
theorem Segment.Everywhere.mono (h : ∀ e, P e → Q e) {s : Segment} (hs : s.Everywhere P) :
    s.Everywhere Q := by
  match s with
  | .children _ => exact SelectorsEverywhere.mono h hs
  | .descendants _ => exact SelectorsEverywhere.mono h hs

theorem SelectorsEverywhere.mono (h : ∀ e, P e → Q e) {ss : List Selector}
    (hss : SelectorsEverywhere P ss) : SelectorsEverywhere Q ss := by
  match ss with
  | [] => trivial
  | _ :: _ => exact ⟨Selector.Everywhere.mono h hss.1, SelectorsEverywhere.mono h hss.2⟩

theorem Selector.Everywhere.mono (h : ∀ e, P e → Q e) {s : Selector} (hs : s.Everywhere P) :
    s.Everywhere Q := by
  match s with
  | .filter _ => exact Expr.Everywhere.mono h hs
  | .wildcard | .member _ | .index _ | .slice _ _ _ => trivial

theorem SegmentsEverywhere.mono (h : ∀ e, P e → Q e) {ss : List Segment}
    (hss : SegmentsEverywhere P ss) : SegmentsEverywhere Q ss := by
  match ss with
  | [] => trivial
  | _ :: _ => exact ⟨Segment.Everywhere.mono h hss.1, SegmentsEverywhere.mono h hss.2⟩

theorem Path.Everywhere.mono (h : ∀ e, P e → Q e) {p : Path} (hp : p.Everywhere P) :
    p.Everywhere Q := by
  match p with
  | ⟨_, _⟩ => exact SegmentsEverywhere.mono h hp

theorem Expr.Everywhere.mono (h : ∀ e, P e → Q e) {e : Expr} (he : e.Everywhere P) :
    e.Everywhere Q := by
  match e with
  | .null | .bool _ | .integer _ | .float _ | .string _ | .variable _ => exact h _ he
  | .query _ => exact ⟨h _ he.1, Path.Everywhere.mono h he.2⟩
  | .singular _ => exact ⟨h _ he.1, Path.Everywhere.mono h he.2⟩
  | .call _ _ => exact ⟨h _ he.1, ArgumentsEverywhere.mono h he.2⟩
  | .not _ => exact ⟨h _ he.1, Expr.Everywhere.mono h he.2⟩
  | .negate _ => exact ⟨h _ he.1, Expr.Everywhere.mono h he.2⟩
  | .binary _ _ _ =>
    exact ⟨h _ he.1, Expr.Everywhere.mono h he.2.1, Expr.Everywhere.mono h he.2.2⟩

theorem ArgumentsEverywhere.mono (h : ∀ e, P e → Q e) {es : List Expr}
    (hes : ArgumentsEverywhere P es) : ArgumentsEverywhere Q es := by
  match es with
  | [] => trivial
  | _ :: _ => exact ⟨Expr.Everywhere.mono h hes.1, ArgumentsEverywhere.mono h hes.2⟩
end

/-! A property of all expressions holds everywhere. -/

mutual
theorem Segment.everywhere_of_forall (h : ∀ e, P e) (s : Segment) : s.Everywhere P := by
  match s with
  | .children ss => exact selectorsEverywhere_of_forall h ss
  | .descendants ss => exact selectorsEverywhere_of_forall h ss

theorem selectorsEverywhere_of_forall (h : ∀ e, P e) (ss : List Selector) :
    SelectorsEverywhere P ss := by
  match ss with
  | [] => trivial
  | s :: rest => exact ⟨Selector.everywhere_of_forall h s, selectorsEverywhere_of_forall h rest⟩

theorem Selector.everywhere_of_forall (h : ∀ e, P e) (s : Selector) : s.Everywhere P := by
  match s with
  | .filter e => exact Expr.everywhere_of_forall h e
  | .wildcard | .member _ | .index _ | .slice _ _ _ => trivial

theorem segmentsEverywhere_of_forall (h : ∀ e, P e) (ss : List Segment) :
    SegmentsEverywhere P ss := by
  match ss with
  | [] => trivial
  | s :: rest => exact ⟨Segment.everywhere_of_forall h s, segmentsEverywhere_of_forall h rest⟩

theorem Path.everywhere_of_forall (h : ∀ e, P e) (p : Path) : p.Everywhere P := by
  match p with
  | ⟨_, ss⟩ => exact segmentsEverywhere_of_forall h ss

theorem Expr.everywhere_of_forall (h : ∀ e, P e) (e : Expr) : e.Everywhere P := by
  match e with
  | .null | .bool _ | .integer _ | .float _ | .string _ | .variable _ => exact h _
  | .query p => exact ⟨h _, Path.everywhere_of_forall h p⟩
  | .singular p => exact ⟨h _, Path.everywhere_of_forall h p⟩
  | .call f args => exact ⟨h _, argumentsEverywhere_of_forall h args⟩
  | .not e => exact ⟨h _, Expr.everywhere_of_forall h e⟩
  | .negate e => exact ⟨h _, Expr.everywhere_of_forall h e⟩
  | .binary op l r => exact ⟨h _, Expr.everywhere_of_forall h l, Expr.everywhere_of_forall h r⟩

theorem argumentsEverywhere_of_forall (h : ∀ e, P e) (es : List Expr) :
    ArgumentsEverywhere P es := by
  match es with
  | [] => trivial
  | e :: rest => exact ⟨Expr.everywhere_of_forall h e, argumentsEverywhere_of_forall h rest⟩
end

end JsonPath
