import JsonPath.Json
import JsonPath.Name

set_option autoImplicit false

/-!
# Locations

A `Location` is the singular path from the root of a document to one value. Its steps are kept with
the newest first, so that a child shares the list of its parent.
-/
namespace JsonPath

/-- One step from a container to a child: a member of an object or an element of an array. -/
inductive Step where
  | member (name : String)
  | index (i : Nat)
  deriving DecidableEq, Hashable

namespace Step

/-- The step in brackets, as normalized paths write it. -/
def chars : Step → List Char
  | .member name => '[' :: (Name.quotedChars name ++ [']'])
  | .index i => '[' :: (Nat.toDigits 10 i ++ [']'])

def text (step : Step) : String := String.ofList step.chars

/-- The step with a dot where the name allows it. -/
def dotChars : Step → List Char
  | .member name =>
    if Name.isShorthand name.toList then '.' :: name.toList else (Step.member name).chars
  | .index i => (Step.index i).chars

/-- A tilde and a slash are special in a JSON Pointer and written `~0` and `~1`. -/
def escapeToken (token : List Char) : List Char :=
  token.flatMap fun c => if c = '~' then ['~', '0'] else if c = '/' then ['~', '1'] else [c]

def pointerChars : Step → List Char
  | .member name => '/' :: escapeToken name.toList
  | .index i => '/' :: Nat.toDigits 10 i

def follow : Step → Json → Option Json
  | .member name, .object members => members.lookup name
  | .index i, .array items => items[i]?
  | _, _ => none

end Step

structure Location where
  /-- The steps, newest first. -/
  newestFirst : List Step
  deriving DecidableEq, Hashable

namespace Location

def root : Location := ⟨[]⟩

def isRoot (l : Location) : Bool := l.newestFirst.isEmpty

def child (l : Location) (step : Step) : Location := ⟨step :: l.newestFirst⟩

def member (l : Location) (name : String) : Location := l.child (.member name)

def index (l : Location) (i : Nat) : Location := l.child (.index i)

def parent? (l : Location) : Option Location := l.newestFirst.tail?.map Location.mk

def last? (l : Location) : Option Step := l.newestFirst.head?

def depth (l : Location) : Nat := l.newestFirst.length

def steps (l : Location) : List Step := l.newestFirst.reverse

def ofSteps (steps : List Step) : Location := ⟨steps.reverse⟩

theorem steps_root : root.steps = [] := rfl

theorem steps_child (l : Location) (step : Step) : (l.child step).steps = l.steps ++ [step] := by
  simp [steps, child]

theorem ofSteps_steps (l : Location) : ofSteps l.steps = l := by
  simp [steps, ofSteps]

/-- The value found by taking the steps from `document`. -/
def resolve (l : Location) (document : Json) : Option Json :=
  l.steps.foldlM (fun value step => step.follow value) document

/-- The characters of the normalized path, such as `$['store']['book'][0]`. -/
def chars (l : Location) : List Char := '$' :: l.steps.flatMap Step.chars

def text (l : Location) : String := String.ofList l.chars

/-- The path with dots where names allow them, such as `$.store.book[0]['first name']`. -/
def dotChars (l : Location) : List Char := '$' :: l.steps.flatMap Step.dotChars

def dotText (l : Location) : String := String.ofList l.dotChars

/-- The location as a JSON Pointer (RFC 6901). -/
def pointer (l : Location) : String := String.ofList (l.steps.flatMap Step.pointerChars)

def debugText (l : Location) : String := "Location(" ++ l.text ++ ")"

end Location

/-- A value of a document together with the place where it was found. -/
structure Node where
  location : Location
  value : Json

namespace Node

def root (document : Json) : Node := ⟨.root, document⟩

/-- The elements of an array from position `i` on. -/
def elements (l : Location) : Nat → List Json → List Node
  | _, [] => []
  | i, v :: rest => ⟨l.index i, v⟩ :: elements l (i + 1) rest

def members (l : Location) (ms : List (String × Json)) : List Node :=
  ms.map fun m => ⟨l.member m.1, m.2⟩

/-- The direct children in document order. -/
def children (n : Node) : List Node :=
  match n.value with
  | .array items => elements n.location 0 items
  | .object ms => members n.location ms
  | _ => []

end Node
end JsonPath
