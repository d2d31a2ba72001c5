import JsonPath.Pattern.Grammar
import JsonPath.Proofs.Reading
import Mathlib.Logic.Relation

set_option autoImplicit false

/-!
# Reading a pattern element by element

A pattern is read in steps: one element with the gap behind it, as long as there is text. Some
readers only check what has been read. They take nothing, and what lies ahead is nothing to them.
-/
namespace JsonPath

namespace Reader

variable {ε α β σ : Type}

section Loop

variable {goesOn : σ → List Char → Bool} {step : σ → Reader ε σ} {strict : ∀ s, (step s).Strict}
  {s s' : σ} {input rest : List Char}

theorem loopRun_stop (h : goesOn s input = false) :
    loopRun goesOn step strict s input = .ok (s, input) := by
  rw [loopRun, if_neg (by simp [h])]

theorem loopRun_step (h : goesOn s input = true) (hstep : (step s).run input = .ok (s', rest)) :
    loopRun goesOn step strict s input = loopRun goesOn step strict s' rest := by
  rw [loopRun, if_pos h]
  split
  · next he =>
    rw [hstep] at he
    cases he
  · next hok =>
    rw [hstep] at hok
    cases hok
    rfl

theorem loopRun_error {e : ε} (h : goesOn s input = true) (he : (step s).run input = .error e) :
    loopRun goesOn step strict s input = .error e := by
  rw [loopRun, if_pos h]
  split
  · next he' =>
    rw [he] at he'
    cases he'
    rfl
  · next hok =>
    rw [he] at hok
    cases hok

theorem loopRun_last (h : loopRun goesOn step strict s input = .ok (s', rest)) :
    goesOn s input = false ∧ s' = s ∧ rest = input ∨ ∃ s₁ input₁, input₁ <:+ input ∧
      goesOn s₁ input₁ = true ∧ (step s₁).run input₁ = .ok (s', rest) := by
  fun_induction loopRun goesOn step strict s input with
  | case1 => cases h
  | case2 s input hgoes s₁ between hs ih =>
    rcases ih h with ⟨-, rfl, rfl⟩ | ⟨s₂, input₂, hsuffix, hgoes₂, hs₂⟩
    · exact .inr ⟨s, input, List.suffix_refl _, hgoes, hs⟩
    · exact .inr ⟨s₂, input₂, hsuffix.trans ((step s).rest_suffix hs), hgoes₂, hs₂⟩
  | case3 s input hstop =>
    cases h
    exact .inl ⟨by simpa using hstop, rfl, rfl⟩

theorem run_loop (goesOn : σ → List Char → Bool) (step : σ → Reader ε σ)
    (strict : ∀ s, (step s).Strict) (s : σ) (input : List Char) :
    (loop goesOn step strict s).run input = loopRun goesOn step strict s input := rfl

end Loop

/-- The reader takes nothing and answers the same whatever lies ahead. -/
def Idle (p : Reader ε α) : Prop :=
  ∃ answer : Except ε α, ∀ input, p.run input = answer.map fun a => (a, input)

theorem pure_idle (a : α) : Idle (pure a : Reader ε α) := ⟨.ok a, fun _ => rfl⟩

theorem fail_idle (e : ε) : Idle (fail e : Reader ε α) := ⟨.error e, fun _ => rfl⟩

theorem Idle.bind {p : Reader ε α} {f : α → Reader ε β} (hp : Idle p) (hf : ∀ a, Idle (f a)) :
    Idle (p >>= f) := by
  obtain ⟨answer, hanswer⟩ := hp
  cases answer with
  | error e => exact ⟨.error e, fun input => run_bind_error (hanswer input)⟩
  | ok a =>
    obtain ⟨answer', hanswer'⟩ := hf a
    exact ⟨answer', fun input => (run_bind_ok (hanswer input)).trans (hanswer' input)⟩

theorem Idle.map {p : Reader ε α} (hp : Idle p) (f : α → β) : Idle (f <$> p) :=
  hp.bind fun a => pure_idle (f a)

theorem Idle.ite {c : Prop} [Decidable c] {p q : Reader ε α} (hp : Idle p) (hq : Idle q) :
    Idle (if c then p else q) := by
  split
  · exact hp
  · exact hq

theorem Idle.rest_eq {p : Reader ε α} (hp : Idle p) {input rest : List Char} {a : α}
    (h : p.run input = .ok (a, rest)) : rest = input := by
  obtain ⟨answer, hanswer⟩ := hp
  rw [hanswer] at h
  cases answer with
  | error e => cases h
  | ok b =>
    cases h
    rfl

end Reader

namespace Pattern
open Reader

variable {α : Type}

theorem run_nextChar_eq_ok {c : Char} {input rest : List Char} :
    nextChar.run input = .ok (c, rest) ↔ input = c :: rest :=
  run_satisfy_eq_ok.trans (and_iff_left rfl)

theorem run_expectChar_eq_ok {c : Char} {u : Unit} {input rest : List Char} :
    (expectChar c).run input = .ok (u, rest) ↔ input = c :: rest := by
  simp [expectChar, run_bind_eq_ok, run_pure, run_satisfy_eq_ok]

theorem invalid_idle : Idle (invalid : PatternReader α) := fail_idle ()

theorem negate_idle (flags : Flags) (negated : Bool) (s : CharSet) :
    Idle (flags.negate negated s) :=
  .ite (.ite (pure_idle _) (fail_idle ())) (pure_idle _)

theorem charOfHex_idle (digits : List Char) : Idle (charOfHex digits) := by
  unfold charOfHex
  split
  · exact .ite (pure_idle _) invalid_idle
  · exact invalid_idle

theorem propertyValue_idle (name value : List Char) : Idle (propertyValue name value) := by
  unfold propertyValue
  refine .ite ?_ invalid_idle
  split
  · exact pure_idle _
  · exact invalid_idle

theorem propertyNamed_idle (flags : Flags) (negated : Bool) (name : List Char) :
    Idle (propertyNamed flags negated name) := by
  unfold propertyNamed
  split
  · exact (propertyValue_idle _ _).bind fun s => negate_idle flags _ _
  · split
    · exact (propertyValue_idle _ _).bind fun s => negate_idle flags _ _
    · split
      · exact (propertyValue_idle _ _).bind fun s => negate_idle flags _ _
      · split
        · exact negate_idle flags _ _
        · exact invalid_idle

theorem literalMember_idle (flags : Flags) (c : Char) : Idle (literalMember flags c) :=
  .ite (pure_idle c) invalid_idle

theorem closeBracket_idle (flags : Flags) (st : ClassState) : Idle (closeBracket flags st) := by
  unfold closeBracket
  split
  · exact (negate_idle flags _ _).bind fun s => .ite (pure_idle _) (pure_idle _)
  · exact invalid_idle

theorem leave_idle (st : GroupState) : Idle st.leave := by
  unfold GroupState.leave
  split
  · exact invalid_idle
  · exact pure_idle _

theorem repeatLast_idle (st : GroupState) (least : Nat) (most : Option Nat) :
    Idle (st.repeatLast least most) := by
  unfold GroupState.repeatLast
  split
  · exact .ite (pure_idle _) invalid_idle
  · exact invalid_idle

theorem dot_idle (flags : Flags) : Idle (dot flags) :=
  .ite invalid_idle (.ite (pure_idle _) (.ite (pure_idle _) (pure_idle _)))

theorem length_dropGaps_comment {rest : List Char} (h : rest ≠ []) :
    (dropGaps true rest).length < rest.length := by
  obtain ⟨c, tail, rfl⟩ := List.exists_cons_of_ne_nil h
  rw [dropGaps, if_pos rfl, List.length_cons]
  exact Nat.lt_succ_of_le (dropGaps_suffix _ tail).length_le

/-- What is left behind the gap that a text begins with, if gaps are allowed. -/
def gapped (flags : Flags) (input : List Char) : List Char :=
  if flags.extended then dropGaps false input else input

theorem run_gaps (flags : Flags) (input : List Char) :
    (gaps flags).run input = .ok ((), gapped flags input) := rfl

theorem gapped_of_no_gap {input : List Char} (h : dropGaps false input = input) (flags : Flags) :
    gapped flags input = input := by
  unfold gapped
  split
  · exact h
  · rfl

def boundaryNamed (flags : Flags) (name : List Char) : PatternReader Assertion :=
  if name = "start".toList then pure (.wordStart flags.word)
  else if name = "end".toList then pure (.wordStop flags.word)
  else if name = "start-half".toList then pure (.wordStartHalf flags.word)
  else if name = "end-half".toList then pure (.wordStopHalf flags.word)
  else invalid

def bracedBoundary (flags : Flags) : PatternReader Assertion := do
  expectChar '\x7b'
  gaps flags
  let name ← many (fun input => input.head?.any isBoundaryName) (spaced flags)
    (strict_spaced flags)
  expectChar '\x7d'
  boundaryNamed flags name

theorem boundary_eq (flags : Flags) : boundary flags = (do
    match ← remaining with
    | '\x7b' :: rest =>
      match gapped flags rest with
      | [] => invalid
      | c :: _ =>
        if isBoundaryName c then bracedBoundary flags else pure (.boundary flags.word)
    | _ => pure (.boundary flags.word)) := by
  rfl

theorem boundaryNamed_idle (flags : Flags) (name : List Char) : Idle (boundaryNamed flags name) :=
  .ite (pure_idle _) (.ite (pure_idle _) (.ite (pure_idle _) (.ite (pure_idle _) invalid_idle)))

theorem strict_escaped (flags : Flags) : (escaped flags).Strict := strict_nextChar.bind_left _

def rangeBetween (flags : Flags) (first last : Primitive) : PatternReader CharSet :=
  match first, last with
  | .literal low, .literal high => do
    let low ← literalMember flags low
    let high ← literalMember flags high
    if low ≤ high then pure (.range low high) else invalid
  | _, _ => invalid

def itemAlone (flags : Flags) (item : Primitive) : PatternReader CharSet :=
  match item with
  | .literal c => .single <$> literalMember flags c
  | .set s => pure s
  | .assertion _ => invalid

/-- What an item with the text behind it makes of the class. -/
def afterItem (flags : Flags) (first : Primitive) : PatternReader CharSet := do
  gaps flags
  if rangeFollows flags (← remaining) then do
    expectChar '-'
    gaps flags
    let last ← classItem flags
    rangeBetween flags first last
  else itemAlone flags first

theorem classRange_eq (flags : Flags) : classRange flags = classItem flags >>= afterItem flags := by
  rfl

theorem rangeBetween_idle (flags : Flags) (first last : Primitive) :
    Idle (rangeBetween flags first last) := by
  unfold rangeBetween
  split
  · exact (literalMember_idle flags _).bind fun low => (literalMember_idle flags _).bind fun high =>
      .ite (pure_idle _) invalid_idle
  · exact invalid_idle

theorem itemAlone_idle (flags : Flags) (item : Primitive) : Idle (itemAlone flags item) := by
  unfold itemAlone
  split
  · exact (literalMember_idle flags _).map _
  · exact pure_idle _
  · exact invalid_idle

theorem rangeBetween_assertion (flags : Flags) (first : Primitive) (a : Assertion)
    (input : List Char) : (rangeBetween flags first (.assertion a)).run input = .error () := by
  cases first <;> rfl

theorem afterItem_assertion (flags : Flags) (a : Assertion) {input rest : List Char} {s : CharSet} :
    (afterItem flags (.assertion a)).run input ≠ .ok (s, rest) := by
  intro h
  simp only [afterItem, run_bind_eq_ok, run_ite] at h
  obtain ⟨_, _, -, _, _, -, h⟩ := h
  split at h
  · simp only [run_bind_eq_ok] at h
    obtain ⟨_, _, -, _, _, -, _, _, -, h⟩ := h
    cases h
  · cases h

def setFlags (st : GroupState) (items : List Char) (stop : Char) : PatternReader GroupState :=
  let flags := st.flags.apply true items
  if !flagsValid items then invalid
  else if stop = ':' then pure (st.enter flags)
  else if items.isEmpty then invalid
  else pure { st with flags := flags, branches := st.branches.add .flagSetting }

theorem flagGroup_eq (st : GroupState) : flagGroup st = (do
    let items ← takeWhile fun c => c != ':' && c != ')'
    let stop ← nextChar
    setFlags st items stop) := by
  rfl

/-- What an opening parenthesis begins; up to three characters decide. -/
def groupBy (st : GroupState) (first second third : Option Char) : PatternReader GroupState :=
  if first = some '?' then
    if second = some '=' ∨ second = some '!' then invalid
    else if second = some '<' then
      if third = some '=' ∨ third = some '!' then invalid
      else do
        skip 2
        namedGroup st
    else if second = some 'P' ∧ third = some '<' then do
      skip 3
      namedGroup st
    else do
      skip 1
      flagGroup st
  else pure (st.enter st.flags)

theorem openGroup_eq (st : GroupState) : openGroup st = (do
    gaps st.flags
    let input ← remaining
    groupBy st input[0]? input[1]? input[2]?) := by
  unfold openGroup
  congr
  funext _
  congr
  funext input
  unfold groupBy
  split
  case h_6 rest _ _ => rcases rest with _ | ⟨c, rest⟩ <;> simp_all
  case h_7 rest _ _ _ _ _ _ => rcases rest with _ | ⟨b, _ | ⟨c, rest⟩⟩ <;> simp_all
  case h_8 => rcases input with _ | ⟨a, rest⟩ <;> simp_all
  all_goals simp

theorem setFlags_idle (st : GroupState) (items : List Char) (stop : Char) :
    Idle (setFlags st items stop) :=
  .ite invalid_idle (.ite (pure_idle _) (.ite invalid_idle (pure_idle _)))

theorem strict_namedGroup (st : GroupState) : (namedGroup st).Strict :=
  Strict.bind_right _ fun _ => (strict_expectChar '>').bind_left _

theorem strict_flagGroup (st : GroupState) : (flagGroup st).Strict :=
  Strict.bind_right _ fun _ => strict_nextChar.bind_left _

def closeCount (st : GroupState) (bounds : Option Nat × Option Nat) : PatternReader GroupState := do
  expectChar '\x7d'
  gaps st.flags
  let _ ← accept '?'
  match bounds with
  | (some m, most) => st.repeatLast m most
  | (none, _) => invalid

def closeBetween (st : GroupState) (least most : Option Nat) : PatternReader GroupState :=
  match least, most with
  | some m, some n => if m ≤ n then closeCount st (some m, some n) else invalid
  | _, _ => invalid

def upperBound (st : GroupState) (least : Option Nat) : PatternReader GroupState := do
  gaps st.flags
  if (← peek) == some '\x7d' then closeCount st (least, none)
  else do
    let most ← count st.flags
    closeBetween st least most

theorem counted_eq (st : GroupState) : counted st = (do
    gaps st.flags
    let least ← count st.flags
    if ← accept ',' then upperBound st least else closeCount st (least, least)) := by
  rfl

theorem strict_closeCount (st : GroupState) (bounds : Option Nat × Option Nat) :
    (closeCount st bounds).Strict :=
  (strict_expectChar _).bind_left _

theorem strict_closeBetween (st : GroupState) (least most : Option Nat) :
    (closeBetween st least most).Strict := by
  unfold closeBetween
  split
  · split
    · exact strict_closeCount st _
    · exact strict_fail ()
  · exact strict_fail ()

theorem strict_upperBound (st : GroupState) (least : Option Nat) :
    (upperBound st least).Strict := by
  refine Strict.bind_right _ fun _ => Strict.bind_right _ fun next => ?_
  split
  · exact strict_closeCount st _
  · exact Strict.bind_right _ fun most => strict_closeBetween st least most

/-- Reading goes on by one step, for which there has to be text. -/
def Reads (now next : GroupState × List Char) : Prop :=
  now.2 ≠ [] ∧ (groupStep now.1).run now.2 = .ok next

theorem not_reads_nil {st : GroupState} {next : GroupState × List Char} :
    ¬ Reads (st, []) next := fun h => h.1 rfl

theorem eq_of_reads_nil {st : GroupState} {last : GroupState × List Char}
    (h : Relation.ReflTransGen Reads (st, []) last) : last = (st, []) := by
  cases h using Relation.ReflTransGen.head_induction_on with
  | refl => rfl
  | head hstep _ => exact absurd hstep not_reads_nil

theorem reads_suffix {now next : GroupState × List Char}
    (h : Relation.ReflTransGen Reads now next) : next.2 <:+ now.2 := by
  induction h with
  | refl => exact List.suffix_refl _
  | tail _ hstep ih => exact ((groupStep _).rest_suffix hstep.2).trans ih

theorem elements_of_reads {now next : GroupState × List Char}
    (h : Relation.ReflTransGen Reads now next) :
    (elements now.1).run now.2 = (elements next.1).run next.2 := by
  induction h using Relation.ReflTransGen.head_induction_on with
  | refl => rfl
  | head hstep _ ih => exact (loopRun_step (by simpa using hstep.1) hstep.2).trans ih

theorem elements_nil (st : GroupState) : (elements st).run [] = .ok (st, []) := loopRun_stop rfl

theorem elements_eq_ok {st st' : GroupState} {text rest : List Char} :
    (elements st).run text = .ok (st', rest) ↔
      rest = [] ∧ Relation.ReflTransGen Reads (st, text) (st', []) := by
  constructor
  · intro h
    change loopRun _ _ _ _ _ = _ at h
    fun_induction loopRun (fun _ input => !input.isEmpty) groupStep strict_groupStep st text with
    | case1 => cases h
    | case2 st text hgoes st₁ between hstep ih =>
      obtain ⟨hrest, hreads⟩ := ih h
      exact ⟨hrest, .head ⟨by simpa using hgoes, hstep⟩ hreads⟩
    | case3 st text hstop =>
      cases h
      obtain rfl : rest = [] := by simpa using hstop
      exact ⟨rfl, .refl⟩
  · rintro ⟨rfl, hreads⟩
    exact (elements_of_reads hreads).trans (elements_nil st')

theorem read?_eq_some {text : List Char} {e : Element} :
    read? text = some e ↔ ∃ st, Relation.ReflTransGen Reads (.initial, text) (st, []) ∧
      st.outer = [] ∧ st.branches.close = e := by
  constructor
  · intro h
    unfold read? at h
    split at h
    · next st rest hrun =>
      split at h
      · next houter =>
        exact ⟨st, (elements_eq_ok.mp hrun).2, by simpa using houter, Option.some.inj h⟩
      · cases h
    · cases h
  · rintro ⟨st, hreads, houter, rfl⟩
    rw [read?, elements_eq_ok.mpr ⟨rfl, hreads⟩]
    simp [houter]

end Pattern
end JsonPath
