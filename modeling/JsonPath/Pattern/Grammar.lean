import JsonPath.Pattern.Class

set_option autoImplicit false

/-!
# The grammar of patterns

A pattern is read from left to right. The groups that are open are kept on a stack, each with the
alternatives read so far and with the flags to return to. How deeply constructs nest is counted:
groups, repetitions, alternatives, sequences and classes.
-/
namespace JsonPath.Pattern
open Reader

/-- A part of a pattern together with how deeply constructs nest in it. -/
structure Element where
  pattern : Pattern
  depth : Nat
  /-- Setting flags is an element that cannot be repeated. -/
  repeatable : Bool

namespace Element

def plain (p : Pattern) : Element := ⟨p, 0, true⟩

def flagSetting : Element := ⟨.empty, 0, false⟩

def around (e : Element) (p : Pattern) : Element := ⟨p, e.depth + 1, true⟩

/-- A construct made of several elements. An element alone needs no construct around it. -/
def joined (join : List Pattern → Pattern) : List Element → Element
  | [] => plain .empty
  | [e] => e
  | es => ⟨join (es.map pattern), es.foldl (fun d e => max d e.depth) 0 + 1, true⟩

end Element

/-- The alternatives of a group that is open and the elements of the current one, newest first. -/
structure Branches where
  finished : List Element
  elements : List Element

namespace Branches

def fresh : Branches := ⟨[], []⟩

def add (b : Branches) (e : Element) : Branches := { b with elements := e :: b.elements }

def current (b : Branches) : Element := .joined sequenceOf b.elements.reverse

def nextAlternative (b : Branches) : Branches := ⟨b.current :: b.finished, []⟩

def close (b : Branches) : Element := .joined eitherOf (b.current :: b.finished).reverse

end Branches

structure GroupState where
  flags : Flags
  branches : Branches
  /-- The groups around the current one, innermost first, with the flags outside. -/
  outer : List (Branches × Flags)
  names : List (List Char)

namespace GroupState

def initial : GroupState := ⟨.initial, .fresh, [], []⟩

def add (st : GroupState) (e : Element) : GroupState :=
  { st with branches := st.branches.add e }

def addSet (st : GroupState) (s : CharSet) : GroupState := st.add (.plain (.char s))

def addLiteral (st : GroupState) (c : Char) : GroupState := st.addSet (st.flags.fold (.single c))

def enter (st : GroupState) (flags : Flags) : GroupState :=
  { st with flags := flags, branches := .fresh, outer := (st.branches, st.flags) :: st.outer }

def leave (st : GroupState) : PatternReader GroupState :=
  match st.outer with
  | [] => invalid
  | (branches, flags) :: outer =>
    let inside := st.branches.close
    pure ⟨flags, branches.add (inside.around inside.pattern), outer, st.names⟩

def repeatLast (st : GroupState) (least : Nat) (most : Option Nat) : PatternReader GroupState :=
  match st.branches.elements with
  | e :: elements =>
    if e.repeatable then
      let repeated := e.around (.repeated e.pattern least most)
      pure { st with branches := ⟨st.branches.finished, repeated :: elements⟩ }
    else invalid
  | [] => invalid

end GroupState

def isFlag (c : Char) : Bool := "imsUuRx-".toList.contains c

/-- Every flag and the minus sign at most once, and a flag after the minus sign. -/
def flagsValid (items : List Char) : Bool :=
  items.all isFlag && decide items.Nodup && items.getLast? != some '-'

/-- The flags set by a list of letters; those after a minus sign are cleared. -/
def Flags.apply (flags : Flags) (value : Bool) : List Char → Flags
  | [] => flags
  | c :: rest =>
    match c with
    | '-' => flags.apply false rest
    | 'i' => { flags with insensitive := value }.apply value rest
    | 'm' => { flags with multiline := value }.apply value rest
    | 's' => { flags with dotAll := value }.apply value rest
    | 'R' => { flags with carriage := value }.apply value rest
    | 'u' => { flags with unicode := value }.apply value rest
    | 'x' => { flags with extended := value }.apply value rest
    | _ => flags.apply value rest

def nameStarts (c : Char) : Bool := c == '_' || Unicode.isNameLetter c

def nameContinues (c : Char) : Bool :=
  c == '_' || c == '.' || c == '[' || c == ']' || Unicode.isNameAlphanumeric c

def nameValid : List Char → Bool
  | [] => false
  | c :: rest => nameStarts c && rest.all nameContinues

def namedGroup (st : GroupState) : PatternReader GroupState := do
  let name ← takeWhile (· != '>')
  expectChar '>'
  if nameValid name && !st.names.contains name then
    pure { st.enter st.flags with names := name :: st.names }
  else invalid

/-- Flags for the rest of the group or, before a colon, for a group of their own. -/
def flagGroup (st : GroupState) : PatternReader GroupState := do
  let items ← takeWhile fun c => c != ':' && c != ')'
  let stop ← nextChar
  let flags := st.flags.apply true items
  if !flagsValid items then invalid
  else if stop = ':' then pure (st.enter flags)
  else if items.isEmpty then invalid
  else pure { st with flags := flags, branches := st.branches.add .flagSetting }

/-- What follows an opening parenthesis. There is no looking ahead or behind. -/
def openGroup (st : GroupState) : PatternReader GroupState := do
  gaps st.flags
  match ← remaining with
  | '?' :: '=' :: _ => invalid
  | '?' :: '!' :: _ => invalid
  | '?' :: '<' :: '=' :: _ => invalid
  | '?' :: '<' :: '!' :: _ => invalid
  | '?' :: 'P' :: '<' :: _ => do
    skip 3
    namedGroup st
  | '?' :: '<' :: _ => do
    skip 2
    namedGroup st
  | '?' :: _ => do
    skip 1
    flagGroup st
  | _ => pure (st.enter st.flags)

/-- A question mark after a repetition asks for the shortest match, which makes no difference. -/
def uncounted (st : GroupState) (least : Nat) (most : Option Nat) : PatternReader GroupState := do
  let _ ← accept '?'
  st.repeatLast least most

def count (flags : Flags) : PatternReader (Option Nat) := do
  let _ ← takeWhile Unicode.isWhite
  let digits ← many (fun input => input.head?.any Char.isDigit) (spaced flags)
    (strict_spaced flags)
  let _ ← many (fun input => input.head?.any Unicode.isWhite) (spaced flags)
    (strict_spaced flags)
  if digits.isEmpty then pure none
  else if Digit.value digits < 4294967296 then pure (some (Digit.value digits))
  else invalid

def counted (st : GroupState) : PatternReader GroupState := do
  gaps st.flags
  let least ← count st.flags
  let bounds ← do
    if ← accept ',' then do
      gaps st.flags
      if (← peek) == some '\x7d' then pure (least, none)
      else do
        match least, ← count st.flags with
        | some m, some n => if m ≤ n then pure (some m, some n) else invalid
        | _, _ => invalid
    else pure (least, least)
  expectChar '\x7d'
  gaps st.flags
  let _ ← accept '?'
  match bounds with
  | (some m, most) => st.repeatLast m most
  | (none, _) => invalid

def dot (flags : Flags) : PatternReader CharSet :=
  if !flags.unicode then invalid
  else if flags.dotAll then pure fun _ => true
  else if flags.carriage then pure fun c => c != '\r' && c != '\n'
  else pure fun c => c != '\n'

def lineStart (flags : Flags) : Assertion :=
  if flags.multiline then (if flags.carriage then .anyLineStart else .lineStart) else .start

def lineStop (flags : Flags) : Assertion :=
  if flags.multiline then (if flags.carriage then .anyLineStop else .lineStop) else .stop

def addEscaped (st : GroupState) : PatternReader GroupState := do
  match ← escaped st.flags with
  | .literal c => pure (st.addLiteral c)
  | .set s => pure (st.addSet s)
  | .assertion a => pure (st.add (.plain (.assertion a)))

def element (st : GroupState) (c : Char) : PatternReader GroupState :=
  match c with
  | '(' => openGroup st
  | ')' => st.leave
  | '|' => pure { st with branches := st.branches.nextAlternative }
  | '?' => uncounted st 0 (some 1)
  | '*' => uncounted st 0 none
  | '+' => uncounted st 1 none
  | '\x7b' => counted st
  | '\\' => addEscaped st
  | '.' => st.addSet <$> dot st.flags
  | '^' => pure (st.add (.plain (.assertion (lineStart st.flags))))
  | '$' => pure (st.add (.plain (.assertion (lineStop st.flags))))
  | c => pure (st.addLiteral c)

def addClass (st : GroupState) (t : ClassTerm) : GroupState :=
  st.add ⟨.char t.set, t.depth, true⟩

def readElement (st : GroupState) : PatternReader GroupState := do
  if (← peek) == some '[' then addClass st <$> bracketClass st.flags
  else do
    let c ← nextChar
    element st c

theorem strict_readElement (st : GroupState) : (readElement st).Strict := by
  refine Strict.bind_right _ fun c => ?_
  split
  · exact (strict_bracketClass _).map _
  · exact strict_nextChar.bind_left _

/-- An element and the gap after it. -/
def groupStep (st : GroupState) : PatternReader GroupState := do
  let st ← readElement st
  gaps st.flags
  pure st

theorem strict_groupStep (st : GroupState) : (groupStep st).Strict :=
  (strict_readElement st).bind_left _

/-- Reads one element after the other to the end of the text. -/
def elements (st : GroupState) : PatternReader GroupState :=
  loop (fun _ input => !input.isEmpty) groupStep strict_groupStep st

/-- What a text spells as a whole, if every group that is opened is closed. -/
def read? (text : List Char) : Option Element :=
  match (elements .initial).run text with
  | .ok (st, _) => if st.outer.isEmpty then some st.branches.close else none
  | .error _ => none

end JsonPath.Pattern
