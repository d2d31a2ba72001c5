import JsonPath.Evaluation
import JsonPath.Grammar
import JsonPath.Standard

set_option autoImplicit false

/-!
# Queries

A query is a path together with the mode that it was read in, which is also the mode of its
evaluation.
-/
namespace JsonPath

inductive QueryError where
  | invalid (e : SyntaxError)
  | failed (e : EvalError)
  deriving DecidableEq

namespace QueryError

def message : QueryError → String
  | .invalid e => "Invalid query: " ++ e.message
  | .failed e => "Query evaluation failed: " ++ e.message

end QueryError

structure Query where
  path : Path
  mode : Mode

namespace Query

def read (text : String) (mode : Mode) : Except QueryError Query :=
  match Path.parse text mode with
  | .ok p => .ok ⟨p, mode⟩
  | .error e => .error (.invalid e)

/-- Reads a query by the letter of the standard. -/
def parse (text : String) : Except QueryError Query := read text .strict

def parseLenient (text : String) : Except QueryError Query := read text .lenient

instance : BEq Query := ⟨fun a b => a.path == b.path && a.mode == b.mode⟩

def text (q : Query) : String := q.path.text

def append (q : Query) (segment : Segment) : Query := ⟨q.path.append segment, q.mode⟩

def nodesWith (q : Query) (document : Json) (environment : Environment) :
    Except QueryError (List Node) :=
  match q.path.evaluate document environment q.mode with
  | .ok ns => .ok ns
  | .error e => .error (.failed e)

def nodes (q : Query) (document : Json) : Except QueryError (List Node) :=
  q.nodesWith document .standard

def values (q : Query) (document : Json) : Except QueryError (List Json) := do
  pure ((← q.nodes document).map Node.value)

def locations (q : Query) (document : Json) : Except QueryError (List Location) := do
  pure ((← q.nodes document).map Node.location)

/-- The selected value, if there is exactly one. -/
def one (q : Query) (document : Json) : Except QueryError (Option Json) := do
  match ← q.values document with
  | [v] => pure (some v)
  | _ => pure none

end Query

def queryValues (text : String) (document : Json) : Except QueryError (List Json) := do
  (← Query.parse text).values document

def queryNodes (text : String) (document : Json) : Except QueryError (List Node) := do
  (← Query.parse text).nodes document

end JsonPath
