import JsonPath.Pattern

set_option autoImplicit false

/-!
# Matching

A text of `n` characters has `n + 1` places between them. A pattern takes a set of places, where a
match may begin, to the set of places where it may end; a set of places is a list of `n + 1` truth
values.
-/
namespace JsonPath.Pattern

abbrev Places := List Bool

namespace Places

def union (a b : Places) : Places := List.zipWith (· || ·) a b

def advance (set : CharSet) (text : List Char) (here : Places) : Places :=
  false :: List.zipWith (fun marked c => marked && set c) here text

/-- The characters on either side of each place, the first of which follows `before`. -/
def neighbours (before : Option Char) : List Char → List (Option Char × Option Char)
  | [] => [(before, none)]
  | c :: rest => (before, some c) :: neighbours (some c) rest

def satisfying (a : Assertion) (text : List Char) (here : Places) : Places :=
  List.zipWith (fun marked sides => marked && a.holds sides.1 sides.2) here (neighbours none text)

/-- What is reached in exactly so many steps; ends when a step changes nothing. -/
def times (step : Places → Places) : Nat → Places → Places
  | 0, here => here
  | n + 1, here =>
    let there := step here
    if there = here then here else times step n there

def upTo (step : Places → Places) : Nat → Places → Places
  | 0, here => here
  | n + 1, here =>
    let more := union here (step here)
    if more = here then here else upTo step n more

end Places

/-- Where matches that begin at the given places end. After as many steps as there are places, a
repetition reaches nothing new. -/
def reach (text : List Char) : Pattern → Places → Places
  | .empty, here => here
  | .char set, here => here.advance set text
  | .assertion a, here => here.satisfying a text
  | .sequence p q, here => q.reach text (p.reach text here)
  | .either p q, here => (p.reach text here).union (q.reach text here)
  | .repeated p least most, here =>
    let steps := (most.map (· - least)).getD (text.length + 1)
    Places.upTo (p.reach text) steps (Places.times (p.reach text) least here)

def matchesIn (p : Pattern) (text : List Char) : Bool :=
  (p.reach text (List.replicate (text.length + 1) true)).any id

end JsonPath.Pattern
