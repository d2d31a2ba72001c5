import JsonPath.Standard
import JsonPath.Proofs.Agreement

set_option autoImplicit false

/-!
# The names that a query uses

A query looks up the names that stand in its filters, at every depth, and no others. Bindings that
an environment is extended with therefore make no difference unless the query uses one of their
names.
-/
namespace JsonPath

/-- A use of a name. Variables and functions may share names. -/
inductive Reference where
  | variable (name : String)
  | function (name : String)
  deriving DecidableEq

mutual
def Segment.references : Segment → List Reference
  | .children ss => selectorsReferences ss
  | .descendants ss => selectorsReferences ss

def selectorsReferences : List Selector → List Reference
  | [] => []
  | s :: rest => s.references ++ selectorsReferences rest

def Selector.references : Selector → List Reference
  | .filter e => e.references
  | _ => []

def segmentsReferences : List Segment → List Reference
  | [] => []
  | s :: rest => s.references ++ segmentsReferences rest

def Path.references : Path → List Reference
  | ⟨_, ss⟩ => segmentsReferences ss

/-- The names in the operands, the arguments and the filters of nested queries. -/
def Expr.references : Expr → List Reference
  | .variable name => [.variable name]
  | .query p => p.references
  | .singular p => p.references
  | .call f args => .function f :: argumentsReferences args
  | .not e => e.references
  | .negate e => e.references
  | .binary _ l r => l.references ++ r.references
  | _ => []

def argumentsReferences : List Expr → List Reference
  | [] => []
  | e :: rest => e.references ++ argumentsReferences rest
end

namespace Environment

/-- The environment has a binding for the name. -/
def binds (environment : Environment) : Reference → Bool
  | .variable name => (environment.findVariable name).isSome
  | .function name => (environment.findFunction name).isSome

/-- The environments bind the name alike, or both do not. -/
def SameAt (environment environment' : Environment) : Reference → Prop
  | .variable name => environment.findVariable name = environment'.findVariable name
  | .function name => environment.findFunction name = environment'.findFunction name

theorem extend_sameAt {environment other : Environment} {r : Reference}
    (h : other.binds r = false) : (environment.extend other).SameAt environment r := by
  match r with
  | .variable name =>
    have hnone : other.findVariable name = none := by simpa [binds] using h
    rw [SameAt, findVariable_extend, hnone, Option.none_or]
  | .function name =>
    have hnone : other.findFunction name = none := by simpa [binds] using h
    rw [SameAt, findFunction_extend, hnone, Option.none_or]

end Environment

theorem Environment.SameAt.callee {root : Json} {environment environment' : Environment}
    {name : String} (h : environment.SameAt environment' (.function name)) :
    Option.Rel (Function.Agree root root) (environment.findFunction name)
      (environment'.findFunction name) := by
  have hname : environment.findFunction name = environment'.findFunction name := h
  rw [hname]
  exact Function.Agree.of_same fun _ _ => ⟨rfl, rfl, fun _ _ _ => rfl⟩

section
variable {root : Json} {environment environment' : Environment}

mutual
theorem Segment.agreeAt_of_references (s : Segment)
    (h : ∀ r ∈ s.references, environment.SameAt environment' r) :
    s.Everywhere (AgreeAt root root environment environment') := by
  match s with
  | .children ss => exact selectorsAgreeAt_of_references ss h
  | .descendants ss => exact selectorsAgreeAt_of_references ss h

theorem selectorsAgreeAt_of_references (ss : List Selector)
    (h : ∀ r ∈ selectorsReferences ss, environment.SameAt environment' r) :
    SelectorsEverywhere (AgreeAt root root environment environment') ss := by
  match ss with
  | [] => trivial
  | s :: rest =>
    rw [selectorsReferences, List.forall_mem_append] at h
    exact ⟨Selector.agreeAt_of_references s h.1, selectorsAgreeAt_of_references rest h.2⟩

theorem Selector.agreeAt_of_references (s : Selector)
    (h : ∀ r ∈ s.references, environment.SameAt environment' r) :
    s.Everywhere (AgreeAt root root environment environment') := by
  match s with
  | .filter e => exact Expr.agreeAt_of_references e h
  | .wildcard | .member _ | .index _ | .slice _ _ _ => trivial

theorem segmentsAgreeAt_of_references (ss : List Segment)
    (h : ∀ r ∈ segmentsReferences ss, environment.SameAt environment' r) :
    SegmentsEverywhere (AgreeAt root root environment environment') ss := by
  match ss with
  | [] => trivial
  | s :: rest =>
    rw [segmentsReferences, List.forall_mem_append] at h
    exact ⟨Segment.agreeAt_of_references s h.1, segmentsAgreeAt_of_references rest h.2⟩

theorem Path.agreeAt_of_references (p : Path)
    (h : ∀ r ∈ p.references, environment.SameAt environment' r) :
    p.Everywhere (AgreeAt root root environment environment') := by
  match p with
  | ⟨_, ss⟩ => exact segmentsAgreeAt_of_references ss h

theorem Expr.agreeAt_of_references (e : Expr)
    (h : ∀ r ∈ e.references, environment.SameAt environment' r) :
    e.Everywhere (AgreeAt root root environment environment') := by
  match e with
  | .null | .bool _ | .integer _ | .float _ | .string _ => trivial
  | .variable name => exact h (.variable name) (by simp [Expr.references])
  | .query p => exact ⟨fun _ => rfl, Path.agreeAt_of_references p h⟩
  | .singular p => exact ⟨fun _ => rfl, Path.agreeAt_of_references p h⟩
  | .call f args =>
    rw [Expr.references, List.forall_mem_cons] at h
    exact ⟨Environment.SameAt.callee h.1, argumentsAgreeAt_of_references args h.2⟩
  | .not e => exact ⟨trivial, Expr.agreeAt_of_references e h⟩
  | .negate e => exact ⟨trivial, Expr.agreeAt_of_references e h⟩
  | .binary _ l r =>
    rw [Expr.references, List.forall_mem_append] at h
    exact ⟨trivial, Expr.agreeAt_of_references l h.1, Expr.agreeAt_of_references r h.2⟩

theorem argumentsAgreeAt_of_references (es : List Expr)
    (h : ∀ r ∈ argumentsReferences es, environment.SameAt environment' r) :
    ArgumentsEverywhere (AgreeAt root root environment environment') es := by
  match es with
  | [] => trivial
  | e :: rest =>
    rw [argumentsReferences, List.forall_mem_append] at h
    exact ⟨Expr.agreeAt_of_references e h.1, argumentsAgreeAt_of_references rest h.2⟩
end

end

theorem Path.evaluate_sameAt {environment environment' : Environment} {p : Path}
    (h : ∀ r ∈ p.references, environment.SameAt environment' r) (document : Json) (mode : Mode) :
    p.evaluate document environment mode = p.evaluate document environment' mode :=
  Path.select_agree p (Path.agreeAt_of_references p h) (fun _ => rfl) (Node.root document)

/-- Bindings of names that a query does not use change nothing, neither nodes nor errors. -/
theorem Path.evaluate_extend (environment other : Environment) (p : Path) (document : Json)
    (mode : Mode) (h : ∀ r ∈ p.references, other.binds r = false) :
    p.evaluate document (environment.extend other) mode = p.evaluate document environment mode :=
  Path.evaluate_sameAt (fun r hr => Environment.extend_sameAt (h r hr)) document mode

theorem Path.evaluate_extend_unused :
    let answer (v : Json) : Function := ⟨[], .json, fun _ _ _ => .ok (.ofJson v)⟩
    let environment := Environment.standard.withVariable "limit" (.integer 1)
    let other := Environment.empty
      |>.withVariable "count" (.integer 5)
      |>.withFunction "limit" (answer .null)
      |>.withFunction "length" (answer .null)
    let inner : Expr := .binary .greater
      (.call "count" [.query ⟨.current, [.children [.wildcard]]⟩]) (.variable "limit")
    let filtered (e : Expr) : Path := ⟨.root, [.children [.filter e]]⟩
    let p : Path := filtered (.query ⟨.current, [.children [.filter inner]]⟩)
    let q : Path := filtered (.call "lengths" [])
    let pair := Json.array [.integer 1, .integer 2]
    let document := Json.array [.array [pair], pair]
    p.references = [.function "count", .variable "limit"] ∧
      (∀ r ∈ p.references, other.binds r = false) ∧
      (∀ r ∈ q.references, other.binds r = false) ∧
      p.evaluate document environment .strict =
        .ok [⟨Location.root.index 0, .array [pair]⟩] ∧
      p.evaluate document (environment.extend other) .strict =
        .ok [⟨Location.root.index 0, .array [pair]⟩] ∧
      q.evaluate document (environment.extend other) .strict =
        .error (.unknownFunction "lengths") := by
  intro answer environment other inner filtered p q pair document
  have hp : ∀ r ∈ p.references, other.binds r = false := by decide
  have hq : ∀ r ∈ q.references, other.binds r = false := by decide
  have hnodes : p.evaluate document environment .strict =
      .ok [⟨Location.root.index 0, .array [pair]⟩] := by with_unfolding_all rfl
  have herror : q.evaluate document environment .strict =
      .error (.unknownFunction "lengths") := by with_unfolding_all rfl
  exact ⟨by rfl, hp, hq, hnodes,
    (Path.evaluate_extend environment other p document .strict hp).trans hnodes,
    (Path.evaluate_extend environment other q document .strict hq).trans herror⟩

end JsonPath
