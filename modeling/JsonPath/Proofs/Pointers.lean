import JsonPath.Location
import JsonPath.Proofs.Numeral

set_option autoImplicit false

/-!
# JSON Pointers of locations

A JSON Pointer (RFC 6901) does not tell the name of a member from the position of an element. The
value under which it stands does: read in the document of its location, the pointer leads to the
same value, and no other location there has the same pointer.
-/
namespace JsonPath
open Reader

namespace Pointer

/-- A character in place of every tilde that the given digit follows. -/
def replace (digit c : Char) : List Char → List Char
  | '~' :: d :: rest =>
    if d = digit then c :: replace digit c rest else '~' :: replace digit c (d :: rest)
  | d :: rest => d :: replace digit c rest
  | [] => []

/-- The slashes first, so that `~01` stands for a tilde and a one. -/
def decode (token : List Char) : List Char := replace '0' '~' (replace '1' '/' token)

/-- A decimal number without needless zeros in front. -/
def index? (token : List Char) : Option Nat :=
  if !token.isEmpty && token.all Char.isDigit && !hasLeadingZero token then some (Digit.value token)
  else none

def child? (token : List Char) : Json → Option Json
  | .object ms => ms.lookup (String.ofList token)
  | .array items => (index? token).bind fun i => items[i]?
  | _ => none

/-- What stands behind each slash. Nothing may stand before the first one. -/
def tokens? (text : List Char) : Option (List (List Char)) :=
  match text.splitOn '/' with
  | [] :: tokens => some (tokens.map decode)
  | _ => none

def evaluate? (pointer : String) (document : Json) : Option Json :=
  (tokens? pointer.toList).bind fun tokens =>
    tokens.foldlM (fun value token => child? token value) document

theorem replace_other (digit c : Char) {d : Char} (h : d ≠ '~') (rest : List Char) :
    replace digit c (d :: rest) = d :: replace digit c rest := by
  rw [replace]
  rintro _ _ rfl
  exact absurd rfl h

theorem replace_of_not_mem (digit c : Char) {t : List Char} (h : '~' ∉ t) :
    replace digit c t = t := by
  induction t with
  | nil => rfl
  | cons d rest ih =>
    rw [List.mem_cons, not_or] at h
    rw [replace_other _ _ (Ne.symm h.1), ih h.2]

def escapeTildes (t : List Char) : List Char :=
  t.flatMap fun c => if c = '~' then ['~', '0'] else [c]

theorem replace_slashes (t : List Char) :
    replace '1' '/' (Step.escapeToken t) = escapeTildes t := by
  induction t with
  | nil => rfl
  | cons c rest ih =>
    rw [Step.escapeToken, List.flatMap_cons, escapeTildes, List.flatMap_cons]
    by_cases htilde : c = '~'
    · rw [if_pos htilde, if_pos htilde]
      exact congrArg (fun t => '~' :: '0' :: t) ih
    by_cases hslash : c = '/'
    · rw [if_neg htilde, if_pos hslash, if_neg htilde, hslash]
      exact congrArg ('/' :: ·) ih
    · rw [if_neg htilde, if_neg hslash, if_neg htilde]
      exact (replace_other _ _ htilde _).trans (congrArg (c :: ·) ih)

theorem replace_tildes (t : List Char) : replace '0' '~' (escapeTildes t) = t := by
  induction t with
  | nil => rfl
  | cons c rest ih =>
    rw [escapeTildes, List.flatMap_cons]
    by_cases htilde : c = '~'
    · rw [if_pos htilde, htilde]
      exact congrArg ('~' :: ·) ih
    · rw [if_neg htilde]
      exact (replace_other _ _ htilde _).trans (congrArg (c :: ·) ih)

theorem decode_escapeToken (t : List Char) : decode (Step.escapeToken t) = t := by
  rw [decode, replace_slashes, replace_tildes]

theorem decode_of_not_mem {t : List Char} (h : '~' ∉ t) : decode t = t := by
  rw [decode, replace_of_not_mem _ _ h, replace_of_not_mem _ _ h]

end Pointer

namespace Step

/-- What stands behind the slash of a step. -/
def token : Step → List Char
  | .member name => escapeToken name.toList
  | .index i => Nat.toDigits 10 i

theorem pointerChars_eq (step : Step) : step.pointerChars = '/' :: step.token := by
  cases step <;> rfl

theorem slash_not_mem_token (step : Step) : '/' ∉ step.token := by
  cases step with
  | member name =>
    intro h
    obtain ⟨c, -, hc⟩ := List.mem_flatMap.mp h
    split_ifs at hc with htilde hslash
    · simp at hc
    · simp at hc
    · exact hslash (List.mem_singleton.mp hc).symm
  | index i => exact fun h => absurd (isDigit_toDigits h) (by decide)

theorem decode_token_index (i : Nat) : Pointer.decode (Step.index i).token = Nat.toDigits 10 i :=
  Pointer.decode_of_not_mem fun h => absurd (isDigit_toDigits h) (by decide)

theorem decode_token_member (name : String) :
    Pointer.decode (Step.member name).token = name.toList :=
  Pointer.decode_escapeToken _

end Step

namespace Pointer

theorem index?_toDigits (i : Nat) : index? (Nat.toDigits 10 i) = some i := by
  have hall : (Nat.toDigits 10 i).all Char.isDigit = true :=
    List.all_eq_true.mpr fun _ => isDigit_toDigits
  have hzero : hasLeadingZero (Nat.toDigits 10 i) = false := by
    rw [Bool.eq_false_iff]
    intro h
    obtain ⟨hhead, hne⟩ := (hasLeadingZero_iff _).mp h
    exact hne (canonical_toDigits (i := i) hhead).1
  rw [index?, hall, hzero, value_toDigits]
  simp [Nat.toDigits_ne_nil]

theorem splitOn_steps (steps : List Step) {t : List Char} (ht : '/' ∉ t) :
    (t ++ steps.flatMap Step.pointerChars).splitOn '/' = t :: steps.map Step.token := by
  induction steps generalizing t with
  | nil => rw [List.flatMap_nil, List.append_nil, List.splitOn_eq_singleton ht, List.map_nil]
  | cons step rest ih =>
    rw [List.flatMap_cons, step.pointerChars_eq, List.cons_append, List.splitOn_append_cons_self,
      List.splitOn_eq_singleton ht, ih step.slash_not_mem_token]
    rfl

theorem splitOn_pointer (l : Location) :
    l.pointer.toList.splitOn '/' = [] :: l.steps.map Step.token := by
  rw [Location.pointer, String.toList_ofList]
  exact splitOn_steps l.steps (t := []) List.not_mem_nil

theorem child?_token {step : Step} {v w : Json} (h : step.follow v = some w) :
    child? (decode step.token) v = some w := by
  match step, v with
  | .member name, .object ms =>
    rw [Step.decode_token_member, child?, String.ofList_toList]
    exact h
  | .index i, .array items =>
    rw [Step.decode_token_index, child?, index?_toDigits]
    exact h

theorem foldlM_tokens {steps : List Step} {v w : Json}
    (h : steps.foldlM (fun value (step : Step) => step.follow value) v = some w) :
    ((steps.map Step.token).map decode).foldlM (fun value token => child? token value) v =
      some w := by
  induction steps generalizing v with
  | nil => exact h
  | cons step rest ih =>
    rw [List.foldlM_cons] at h
    obtain ⟨u, hu, hrest⟩ := Option.bind_eq_some_iff.mp h
    rw [List.map_cons, List.map_cons, List.foldlM_cons, child?_token hu]
    exact ih hrest

end Pointer

/-- Under one value no two steps have the same token. -/
theorem Step.eq_of_token {step step' : Step} {v w w' : Json} (h : step.follow v = some w)
    (h' : step'.follow v = some w') (htoken : step.token = step'.token) : step = step' := by
  have hdecoded := congrArg Pointer.decode htoken
  match v, step, step' with
  | .object _, .member name, .member name' =>
    rw [decode_token_member, decode_token_member] at hdecoded
    rw [String.ext hdecoded]
  | .array _, .index i, .index i' =>
    rw [decode_token_index, decode_token_index] at hdecoded
    have hvalue := congrArg Digit.value hdecoded
    rw [value_toDigits, value_toDigits] at hvalue
    rw [hvalue]

theorem Step.eq_of_tokens {steps steps' : List Step} {v w w' : Json}
    (h : steps.foldlM (fun value (step : Step) => step.follow value) v = some w)
    (h' : steps'.foldlM (fun value (step : Step) => step.follow value) v = some w')
    (htokens : steps.map token = steps'.map token) : steps = steps' := by
  induction steps generalizing v steps' with
  | nil => exact (List.map_eq_nil_iff.mp htokens.symm).symm
  | cons step rest ih =>
    obtain ⟨step', rest', rfl, htoken, hrest⟩ := List.map_eq_cons_iff.mp htokens.symm
    rw [List.foldlM_cons] at h h'
    obtain ⟨u, hu, h⟩ := Option.bind_eq_some_iff.mp h
    obtain ⟨u', hu', h'⟩ := Option.bind_eq_some_iff.mp h'
    obtain rfl := Step.eq_of_token hu hu' htoken.symm
    rw [hu] at hu'
    cases hu'
    rw [ih h h' hrest.symm]

/-- In the document of a location its pointer leads, by the rules of the standard, to the value
there, and two locations of values with the same pointer are the same. -/
theorem Location.pointer_resolves (document : Json) :
    (∀ (l : Location) (v : Json), l.resolve document = some v →
      Pointer.evaluate? l.pointer document = some v) ∧
    ∀ (l l' : Location) (v v' : Json), l.resolve document = some v →
      l'.resolve document = some v' → l.pointer = l'.pointer → l = l' := by
  constructor
  · intro l v h
    rw [Pointer.evaluate?, Pointer.tokens?, Pointer.splitOn_pointer]
    exact Pointer.foldlM_tokens h
  · intro l l' v v' h h' hpointer
    have hsplit : [] :: l.steps.map Step.token = [] :: l'.steps.map Step.token := by
      rw [← Pointer.splitOn_pointer, ← Pointer.splitOn_pointer, hpointer]
    have hsteps := Step.eq_of_tokens h h' (List.tail_eq_of_cons_eq hsplit)
    rw [← l.ofSteps_steps, ← l'.ofSteps_steps, hsteps]

theorem Location.pointer_resolves_escaped :
    let l := ((Location.root.member "a/b").member "~1").index 10
    let items := List.replicate 10 Json.null ++ [.integer 7]
    let document := Json.object [("a/b", .object [("/", .null), ("~1", .array items)])]
    Pointer.evaluate? "/a~1b/~01/10" document = some (.integer 7) ∧
      ∀ (l' : Location) (v : Json), l'.resolve document = some v →
        l'.pointer = "/a~1b/~01/10" → l' = l := by
  intro l items document
  have hpointer : l.pointer = "/a~1b/~01/10" := by decide
  have hl : l.resolve document = some (.integer 7) := rfl
  have h := Location.pointer_resolves document
  refine ⟨hpointer ▸ h.1 l _ hl, fun l' v hl' hsame => ?_⟩
  exact h.2 l' l v _ hl' hl (hsame.trans hpointer.symm)

end JsonPath
