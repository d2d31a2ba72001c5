import JsonPath.Pattern.Escape

set_option autoImplicit false

/-!
# Bracketed classes

A class is a union of characters, ranges, named sets and classes in brackets of their own, and two
unions may be intersected or subtracted. The brackets that are open are kept on a stack. How deeply
brackets, operators and unions of several members nest is counted, because patterns have a limit.
-/
namespace JsonPath.Pattern
open Reader

/-- The classes named between colons. All of them lie in ASCII. -/
def asciiClass? (name : String) : Option CharSet :=
  match name with
  | "alnum" => some Char.isAlphanum
  | "alpha" => some Char.isAlpha
  | "ascii" => some (.ranges [0x0, 0x7f])
  | "blank" => some (.ranges [0x9, 0x9, 0x20, 0x20])
  | "cntrl" => some (.ranges [0x0, 0x1f, 0x7f, 0x7f])
  | "digit" => some Char.isDigit
  | "graph" => some (.range '!' '~')
  | "lower" => some Char.isLower
  | "print" => some (.range ' ' '~')
  | "punct" => some (.ranges [0x21, 0x2f, 0x3a, 0x40, 0x5b, 0x60, 0x7b, 0x7e])
  | "space" => some (.ranges [0x9, 0xd, 0x20, 0x20])
  | "upper" => some Char.isUpper
  | "word" => some .asciiWord
  | "xdigit" => some (.ranges [0x30, 0x39, 0x41, 0x46, 0x61, 0x66])
  | _ => none

/-- A class such as `[:alpha:]` or `[:^alpha:]` at the front: its set, whether it is negated, and
how many characters spell it. -/
def namedClass? (input : List Char) : Option (CharSet × Bool × Nat) :=
  match input with
  | '[' :: ':' :: rest =>
    let negated := rest.head? == some '^'
    let rest := if negated then rest.drop 1 else rest
    let name := rest.takeWhile (· != ':')
    match rest.dropWhile (· != ':') with
    | ':' :: ']' :: _ =>
      (asciiClass? (String.ofList name)).map fun s =>
        (s, negated, name.length + (if negated then 5 else 4))
    | _ => none
  | _ => none

inductive SetOperator where
  | intersection
  | difference
  | symmetricDifference

namespace SetOperator

def apply (op : SetOperator) (s t : CharSet) : CharSet :=
  match op with
  | .intersection => s.intersection t
  | .difference => s.difference t
  | .symmetricDifference => s.symmetricDifference t

def at? : List Char → Option SetOperator
  | '&' :: '&' :: _ => some .intersection
  | '-' :: '-' :: _ => some .difference
  | '~' :: '~' :: _ => some .symmetricDifference
  | _ => none

end SetOperator

/-- A set together with how deeply constructs nest in what spells it. -/
structure ClassTerm where
  set : CharSet
  depth : Nat

structure Members where
  set : CharSet
  count : Nat
  depth : Nat

namespace Members

def none : Members := ⟨.none, 0, 0⟩

def add (m : Members) (t : ClassTerm) : Members :=
  ⟨m.set.union t.set, m.count + 1, max m.depth t.depth⟩

def term (m : Members) : ClassTerm := ⟨m.set, if m.count ≤ 1 then m.depth else m.depth + 1⟩

end Members

/-- What is unfinished around the union that is being read. -/
inductive ClassFrame where
  /-- A bracket, with the union that it stands in. -/
  | bracket (outer : Members) (negated : Bool)
  /-- An operator with its left operand; operators associate to the left. -/
  | operator (op : SetOperator) (left : ClassTerm)

structure ClassState where
  union : Members
  frames : List ClassFrame
  /-- The class, once its last bracket is closed. -/
  result : Option ClassTerm

section
variable (flags : Flags)

/-- Without Unicode a class has no members beyond ASCII. -/
def literalMember (c : Char) : PatternReader Char :=
  if flags.unicode || c.toNat < 128 then pure c else invalid

def classItem : PatternReader Primitive := do
  let c ← nextChar
  if c = '\\' then escaped flags else pure (.literal c)

theorem strict_classItem : (classItem flags).Strict := strict_nextChar.bind_left _

def visible? (inComment : Bool) : List Char → Option Char
  | [] => none
  | c :: rest =>
    if Unicode.isWhite c then visible? inComment rest
    else if !inComment && c == '#' then visible? true rest
    else some c

/-- What is taken to follow a dash when it is decided whether it makes a range. -/
def afterDash (rest : List Char) : Option Char :=
  if flags.extended then (visible? false rest).or rest.head? else rest.head?

def rangeFollows (input : List Char) : Bool :=
  match input with
  | '-' :: rest => afterDash flags rest != some ']' && afterDash flags rest != some '-'
  | _ => false

def classRange : PatternReader CharSet := do
  let first ← classItem flags
  gaps flags
  if rangeFollows flags (← remaining) then do
    expectChar '-'
    gaps flags
    match first, ← classItem flags with
    | .literal low, .literal high => do
      let low ← literalMember flags low
      let high ← literalMember flags high
      if low ≤ high then pure (.range low high) else invalid
    | _, _ => invalid
  else
    match first with
    | .literal c => .single <$> literalMember flags c
    | .set s => pure s
    | .assertion _ => invalid

theorem strict_classRange : (classRange flags).Strict := (strict_classItem flags).bind_left _

/-- Dashes, or else a closing bracket, directly after the start of a class are literal. -/
def classStart : PatternReader Members := do
  let dashes ← many (fun input => input.head? == some '-') (spaced flags) (strict_spaced flags)
  if dashes.isEmpty then do
    if ← accept ']' then do
      gaps flags
      pure ⟨.single ']', 1, 0⟩
    else pure .none
  else pure ⟨.single '-', dashes.length, 0⟩

/-- Opens a bracket inside `outer`. -/
def openBracket (outer : Members) (frames : List ClassFrame) : PatternReader ClassState := do
  expectChar '['
  gaps flags
  let negated ← accept '^'
  if negated then gaps flags
  let start ← classStart flags
  pure ⟨start, .bracket outer negated :: frames, none⟩

/-- Applies an operator that waits for its right operand. -/
def reduce (right : ClassTerm) : List ClassFrame → ClassTerm × List ClassFrame
  | .operator op left :: frames =>
    (⟨op.apply (flags.fold left.set) (flags.fold right.set), max left.depth right.depth + 1⟩,
      frames)
  | frames => (right, frames)

def closeBracket (st : ClassState) : PatternReader ClassState :=
  match reduce flags st.union.term st.frames with
  | (t, .bracket outer negated :: frames) => do
    let s ← flags.negate negated (flags.fold t.set)
    let closed : ClassTerm := ⟨s, t.depth + 1⟩
    if frames.isEmpty then pure ⟨.none, [], some closed⟩ else pure ⟨outer.add closed, frames, none⟩
  | _ => invalid

def classStep (st : ClassState) : PatternReader ClassState := do
  gaps flags
  let input ← remaining
  match input.head?, namedClass? input, SetOperator.at? input with
  | some '[', some (s, negated, length), _ => do
    let _ ← nextChar
    skip (length - 1)
    let s ← flags.negate negated (flags.fold s)
    pure { st with union := st.union.add ⟨s, 0⟩ }
  | some '[', none, _ => openBracket flags st.union st.frames
  | some ']', _, _ => do
    let _ ← nextChar
    closeBracket flags st
  | _, _, some op => do
    let _ ← nextChar
    skip 1
    let (left, frames) := reduce flags st.union.term st.frames
    pure ⟨.none, .operator op left :: frames, none⟩
  | _, _, none => do
    let s ← classRange flags
    pure { st with union := st.union.add ⟨s, 0⟩ }

theorem strict_expectChar (c : Char) : (expectChar c).Strict := (strict_satisfy _ _).bind_left _

theorem strict_openBracket (outer : Members) (frames : List ClassFrame) :
    (openBracket flags outer frames).Strict :=
  (strict_expectChar '[').bind_left _

theorem strict_classStep (st : ClassState) : (classStep flags st).Strict := by
  refine Strict.bind_right _ fun _ => Strict.bind_right _ fun input => ?_
  split
  · exact strict_nextChar.bind_left _
  · exact strict_openBracket flags _ _
  · exact strict_nextChar.bind_left _
  · exact strict_nextChar.bind_left _
  · exact (strict_classRange flags).bind_left _

def bracketClass : PatternReader ClassTerm := do
  let st ← openBracket flags .none []
  let st ← loop (fun st _ => st.result.isNone) (classStep flags) (strict_classStep flags) st
  match st.result with
  | some t => pure t
  | none => invalid

theorem strict_bracketClass : (bracketClass flags).Strict :=
  (strict_openBracket flags _ _).bind_left _

end

end JsonPath.Pattern
