import JsonPath.Standard
import JsonPath.Proofs.Composition
import JsonPath.Proofs.FilterFree

set_option autoImplicit false

/-!
# Locations as queries

Both texts of a location are read as one path, with a segment for each step, and the path selects
the node at the location and nothing else. A path does not choose between members of one name any
more than a location does: both take the first.
-/
namespace JsonPath
open Reader Spelling

namespace Step

def selector : Step → Selector
  | .member name => .member name
  | .index i => .index i

def segment (step : Step) : Segment := .children [step.selector]

theorem isSingular_segment (step : Step) : step.segment.isSingular = true := by
  cases step <;> rfl

/-- An index that every reader of indices takes. -/
def Exact : Step → Prop
  | .member _ => True
  | .index i => i ≤ maxExact

end Step

namespace Location

def path (l : Location) : Path := ⟨.root, l.steps.map Step.segment⟩

theorem isSingular_path (l : Location) : l.path.isSingular = true := by
  rw [Path.isSingular, path, List.all_map, List.all_eq_true]
  exact fun step _ => step.isSingular_segment

end Location

namespace Step

variable {mode : Mode} {condition : Expr → List Char → Prop}

theorem fits_of_exact {i : Nat} (h : i ≤ maxExact) : Word.fits i = true := by
  rw [maxExact] at h
  rw [Word.fits_iff, Word.least, Word.greatest]
  omega

theorem ofSegment_chars {step : Step} (h : step.Exact) :
    OfSegment mode condition step.segment step.chars := by
  cases step with
  | member name =>
    have hname : OfSelector mode condition (.member name) (Name.quotedChars name) :=
      .member (ofString_quotedChars mode name)
    exact .bracket (.list blanks_nil (.one hname) blanks_nil)
  | index i =>
    have hindex : OfSelector mode condition (.index i) (Nat.toDigits 10 i) :=
      .index (ofIndex_intChars (i := i) (fits_of_exact h) fun _ => h)
    exact .bracket (.list blanks_nil (.one hindex) blanks_nil)

theorem shorthand_of_isShorthand {name : List Char} (h : Name.isShorthand name = true) :
    Shorthand mode name := by
  cases name with
  | nil => cases h
  | cons c rest =>
    rw [Name.isShorthand, Bool.and_eq_true, List.all_eq_true] at h
    exact ⟨h.1, fun d hd => .inl (h.2 d hd)⟩

theorem ofSegment_dotChars {step : Step} (h : step.Exact) :
    OfSegment mode condition step.segment step.dotChars := by
  cases step with
  | member name =>
    rw [dotChars]
    split
    · next hname => exact .dot (.name (shorthand_of_isShorthand hname))
    · exact ofSegment_chars h
  | index i => exact ofSegment_chars h

theorem ofSegments_flatMap {text : Step → List Char} {steps : List Step}
    (h : ∀ step ∈ steps, OfSegment mode condition step.segment (text step)) :
    OfSegments mode condition (steps.map segment) (steps.flatMap text) := by
  induction steps with
  | nil => exact .nil
  | cons step rest ih =>
    rw [List.forall_mem_cons] at h
    rw [List.map_cons, List.flatMap_cons]
    exact .cons blanks_nil h.1 (ih h.2)

end Step

namespace Location

theorem parse_steps {mode : Mode} {l : Location} {text : Step → List Char}
    (h : ∀ step ∈ l.steps, OfSegment mode NoCondition step.segment (text step)) :
    Path.parse (String.ofList ('$' :: l.steps.flatMap text)) mode = .ok l.path := by
  have hpath := OfPath.root blanks_nil blanks_nil (Step.ofSegments_flatMap h) fun _ => ⟨rfl, rfl⟩
  rw [List.nil_append, List.append_nil] at hpath
  rw [Grammar.parse_eq_ok_iff, String.toList_ofList]
  exact ⟨[], Grammar.query_run (Path.readsItems_noCondition _) hpath⟩

end Location

theorem position?_natCast (i length : Nat) :
    position? i length = if i < length then some i else none := by
  rw [position?, if_pos (Int.natCast_nonneg i), Int.toNat_natCast]

namespace Node

def atStep (n : Node) (step : Step) : List Node :=
  ((step.follow n.value).map fun v => (⟨n.location.child step, v⟩ : Node)).toList

theorem memberNamed_eq (n : Node) (name : String) :
    n.memberNamed name = n.atStep (.member name) := by
  rw [memberNamed, atStep]
  cases n.value with
  | object ms =>
    dsimp only [Step.follow]
    cases ms.lookup name <;> rfl
  | _ => rfl

theorem indexed_eq (n : Node) (i : Nat) : n.indexed i = n.atStep (.index i) := by
  rw [indexed, atStep]
  cases n.value with
  | array items =>
    dsimp only [Step.follow]
    rw [position?_natCast]
    by_cases h : i < items.length
    · rw [if_pos h, List.getElem?_eq_getElem h]
      simp [elementAt, List.getElem?_eq_getElem h, Location.index]
    · rw [if_neg h, List.getElem?_eq_none (Nat.le_of_not_lt h)]
      rfl
  | _ => rfl

end Node

theorem Step.apply_segment (ctx : Context) (step : Step) (n : Node) :
    step.segment.apply ctx n = .ok (n.atStep step) := by
  cases step with
  | member name =>
    rw [← Node.memberNamed_eq, ← List.append_nil (n.memberNamed name)]
    rfl
  | index i =>
    rw [← Node.indexed_eq, ← List.append_nil (n.indexed i)]
    rfl

/-- What the steps lead to from a node, with the location that they give it. -/
theorem applySegments_steps (ctx : Context) (steps : List Step) (l : Location) (v : Json) :
    applySegments ctx (steps.map Step.segment) [⟨l, v⟩] =
      .ok ((steps.foldlM (fun value (step : Step) => step.follow value) v).map fun w =>
        (⟨steps.foldl Location.child l, w⟩ : Node)).toList := by
  induction steps generalizing l v with
  | nil => rfl
  | cons step rest ih =>
    rw [List.map_cons, applySegments]
    simp only [collect_singleton, Step.apply_segment, Node.atStep]
    cases hstep : step.follow v with
    | none =>
      rw [List.foldlM_cons, hstep]
      exact applySegments_empty ctx _
    | some w =>
      rw [List.foldlM_cons, hstep, List.foldl_cons]
      exact ih (l.child step) w

theorem Location.foldl_child (steps : List Step) (l : Location) :
    steps.foldl Location.child l = ofSteps (l.steps ++ steps) := by
  induction steps generalizing l with
  | nil => rw [List.foldl_nil, List.append_nil, ofSteps_steps]
  | cons step rest ih =>
    rw [List.foldl_cons, ih, steps_child, List.append_assoc, List.singleton_append]

/-- A text of a location, with or without dots, is a query for the node there. -/
theorem Location.parse_text_selects (l : Location)
    (h : ∀ i, Step.index i ∈ l.steps → i ≤ maxExact) :
    l.path.isSingular = true ∧
      (∀ mode, Path.parse l.text mode = .ok l.path ∧ Path.parse l.dotText mode = .ok l.path) ∧
      ∀ (document : Json) (environment : Environment) (mode : Mode),
        (∀ v, l.resolve document = some v →
          l.path.evaluate document environment mode = .ok [⟨l, v⟩]) ∧
        (l.resolve document = none → l.path.evaluate document environment mode = .ok []) := by
  have hexact : ∀ step ∈ l.steps, step.Exact := by
    intro step hstep
    cases step with
    | member name => trivial
    | index i => exact h i hstep
  have hevaluate (document : Json) (environment : Environment) (mode : Mode) :
      l.path.evaluate document environment mode =
        .ok ((l.resolve document).map fun v => (⟨l, v⟩ : Node)).toList := by
    have hsteps := applySegments_steps ⟨document, environment, mode⟩ l.steps .root document
    rwa [foldl_child, steps_root, List.nil_append, ofSteps_steps] at hsteps
  refine ⟨l.isSingular_path, fun mode => ⟨?_, ?_⟩, fun document environment mode => ⟨?_, ?_⟩⟩
  · exact parse_steps fun step hstep => Step.ofSegment_chars (hexact step hstep)
  · exact parse_steps fun step hstep => Step.ofSegment_dotChars (hexact step hstep)
  · intro v hv
    rw [hevaluate, hv]
    rfl
  · intro hnone
    rw [hevaluate, hnone]
    rfl

theorem Location.parse_text_selects_quoted :
    let l := (Location.root.member "it's").index 1
    Path.parse "$['it\\'s'][1]" .strict = .ok l.path ∧
      l.path.evaluate (.object [("it's", .array [.null, .integer 7])]) .standard .strict =
        .ok [⟨l, .integer 7⟩] := by
  intro l
  have hexact : ∀ i, Step.index i ∈ l.steps → i ≤ maxExact := by
    intro i hi
    have hone : i = 1 := by simpa [l, Location.steps, Location.member, Location.index,
      Location.child, Location.root] using hi
    rw [hone, maxExact]
    omega
  have h := Location.parse_text_selects l hexact
  have htext : l.text = "$['it\\'s'][1]" := by decide
  rw [← htext]
  exact ⟨(h.2.1 .strict).1, (h.2.2 _ .standard .strict).1 _ (by rfl)⟩

end JsonPath
