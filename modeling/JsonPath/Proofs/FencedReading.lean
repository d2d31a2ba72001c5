import JsonPath.Proofs.Fences
import Mathlib.Data.List.TakeWhile

set_option autoImplicit false

/-!
# Fences in the grammar

Every construct of a pattern is fenced, but for one. Whether the brace behind `\b` begins a name is
decided by the character behind it, and where the text ends there, the pattern is not valid, whereas
with a fence the brace is left for a repetition. That repetition fails in its turn, so only the
place of the failure differs.
-/
namespace JsonPath.Pattern
open Reader

variable {α : Type}

theorem spacedUntil_fenced (flags : Flags) (stop : Char) : Fenced (spacedUntil flags stop) := by
  intro input
  refine (FencedInside.many (spaced_fenced flags) (seenAhead_any (· != stop)) input).bind_strict
    (fun _ => (strict_expectChar stop).bind_left _) fun cs => ?_
  exact (expectChar_fenced stop).bind fun _ => .of_idle (pure_idle cs)

theorem spacedTimes_fenced (flags : Flags) (n : Nat) : Fenced (spacedTimes flags n) := by
  induction n with
  | zero => exact .of_idle (pure_idle [])
  | succ n ih =>
    exact (spaced_fenced flags).bind fun c => ih.bind fun cs => .of_idle (pure_idle (c :: cs))

theorem hexadecimal_fenced (flags : Flags) (count : Nat) : Fenced (hexadecimal flags count) := by
  refine (gaps_fenced flags).bind fun _ => ?_
  refine (accept_fenced (by decide) (by decide)).bind fun braces => ?_
  refine .ite ?_ ?_
  · exact (gaps_fenced flags).bind fun _ => (spacedUntil_fenced flags _).bind fun digits =>
      (gaps_fenced flags).bind fun _ => .of_idle (charOfHex_idle digits)
  · exact (spacedTimes_fenced flags count).bind fun digits => .of_idle (charOfHex_idle digits)

theorem property_fenced (flags : Flags) (negated : Bool) : Fenced (property flags negated) := by
  refine .ite ?_ (.of_idle invalid_idle)
  refine (gaps_fenced flags).bind fun _ => ?_
  refine (accept_fenced (by decide) (by decide)).bind fun braces => ?_
  refine .ite ?_ ?_
  · exact (gaps_fenced flags).bind fun _ => (spacedUntil_fenced flags _).bind fun name =>
      .of_idle (propertyNamed_idle flags negated name)
  · exact (spaced_fenced flags).bind fun c =>
      .ite (.of_idle invalid_idle) (.of_idle (propertyNamed_idle flags negated [c]))

theorem bracedBoundary_fenced (flags : Flags) : Fenced (bracedBoundary flags) := by
  refine (expectChar_fenced _).bind fun _ => (gaps_fenced flags).bind fun _ input => ?_
  refine (FencedInside.many (spaced_fenced flags) (seenAhead_any isBoundaryName) input).bind_strict
    (fun _ => (strict_expectChar _).bind_left _) fun name => ?_
  exact (expectChar_fenced _).bind fun _ => .of_idle (boundaryNamed_idle flags name)

/-- The text ends in a brace that might begin the name of a boundary. -/
def Hangs (flags : Flags) (input : List Char) : Prop :=
  ∃ gap, input = '\x7b' :: gap ∧ gapped flags gap = []

theorem run_boundary_brace (flags : Flags) (rest : List Char) :
    (boundary flags).run ('\x7b' :: rest) =
      (match gapped flags rest with
        | [] => invalid
        | c :: _ =>
          if isBoundaryName c then bracedBoundary flags
          else pure (.boundary flags.word)).run ('\x7b' :: rest) := by
  rw [boundary_eq]
  rfl

theorem run_boundary_other {flags : Flags} {input : List Char} (h : input.head? ≠ some '\x7b') :
    (boundary flags).run input = .ok (.boundary flags.word, input) := by
  rw [boundary_eq, run_bind_ok (run_remaining _)]
  split
  · simp at h
  · rfl

theorem boundary_fenced {flags : Flags} {input : List Char} (h : ¬ Hangs flags input) :
    FencedAt (boundary flags) input := by
  by_cases hbrace : input.head? = some '\x7b'
  · obtain ⟨rest, rfl⟩ := List.head?_eq_some_iff.mp hbrace
    obtain ⟨c, inside, hinside⟩ : ∃ c inside, gapped flags rest = c :: inside :=
      List.exists_cons_of_ne_nil fun hnil => h ⟨rest, rfl, hnil⟩
    have hchoice : Fenced
        (if isBoundaryName c then bracedBoundary flags else pure (.boundary flags.word)) :=
      .ite (bracedBoundary_fenced flags) (.of_idle (pure_idle _))
    refine (hchoice _).congr ?_ fun fence hfence => ?_
    · rw [run_boundary_brace, hinside]
    · have hsame := ((gapped_fence flags rest).resolve_right (by simp [hinside])) fence hfence
      rw [List.cons_append, run_boundary_brace, hsame, hinside]
      rfl
  · refine .of_ok (run_boundary_other hbrace) (.inl fun fence hfence => run_boundary_other ?_)
    cases input with
    | nil => exact hfence.head_ne (by decide) (by decide)
    | cons c rest => exact hbrace

theorem gapped_length {flags : Flags} {gap fence : List Char} (hgap : gapped flags gap = [])
    (hfence : Fence fence ∨ fence = []) : (gapped flags (gap ++ fence)).length ≤ fence.length := by
  rcases hfence with hfence | rfl
  · rcases gapped_fence flags gap with hsame | ⟨-, -, hcomment⟩
    · simp [hsame fence hfence, hgap]
    · rw [hcomment]
      exact Nat.le_of_lt (length_dropGaps_comment hfence.ne_nil)
  · simp [hgap]

theorem length_run_bracedBoundary {flags : Flags} {input rest : List Char} {a : Assertion}
    (h : (bracedBoundary flags).run ('\x7b' :: input) = .ok (a, rest)) :
    rest.length < (gapped flags input).length := by
  obtain ⟨_, between, hbrace, h⟩ := run_bind_eq_ok.mp h
  obtain rfl := (List.cons.inj (run_expectChar_eq_ok.mp hbrace)).2
  rw [run_bind_ok (run_gaps _ _)] at h
  exact Strict.bind_right _ (fun _ => (strict_expectChar _).bind_left _) h

/-- At the end of the text the brace is an error. A fence leaves it where it is, unless the brace
begins a name that goes on into the fence. -/
theorem Hangs.run_boundary {flags : Flags} {input fence rest : List Char} {a : Assertion}
    (h : Hangs flags input) (hfence : Fence fence ∨ fence = [])
    (hok : (boundary flags).run (input ++ fence) = .ok (a, rest)) :
    rest.length < fence.length ∨ ∃ gap, rest = '\x7b' :: gap ++ fence ∧ gapped flags gap = [] := by
  obtain ⟨gap, rfl, hgap⟩ := h
  rw [List.cons_append, run_boundary_brace] at hok
  split at hok
  · cases hok
  · split at hok
    · exact .inl (Nat.lt_of_lt_of_le (length_run_bracedBoundary hok) (gapped_length hgap hfence))
    · cases hok
      exact .inr ⟨gap, rfl, hgap⟩

theorem escaped_fenced {flags : Flags} {input : List Char}
    (h : ∀ rest, input = 'b' :: rest → ¬ Hangs flags rest) :
    FencedAt (escaped flags) input := by
  refine (nextChar_fenced input).bind fun c rest hc => ?_
  obtain rfl := run_nextChar_eq_ok.mp hc
  split
  case h_1 =>
    refine .remaining ?_ fun fence hfence => ?_
    · exact (hexadecimal_fenced flags 2 rest).bind fun c rest' _ =>
        .ite (.of_idle invalid_idle _) (.of_idle (pure_idle _) _)
    · cases rest with
      | nil => simp [hfence.head_ne (c := '\x7b') (by decide) (by decide)]
      | cons d tail => rfl
  case h_2 | h_3 => exact (hexadecimal_fenced flags _ rest).map _
  case h_4 | h_5 => exact (property_fenced flags _ rest).map _
  case h_7 | h_9 | h_11 => exact .of_idle ((negate_idle flags _ _).map _) rest
  case h_20 => exact (boundary_fenced (h rest rfl)).map _
  case h_24 => exact .of_idle (.ite (pure_idle _) invalid_idle) rest
  all_goals exact .of_idle (pure_idle _) rest

theorem Hangs.run_escaped {flags : Flags} {input fence rest : List Char} {a : Primitive}
    (h : Hangs flags input) (hfence : Fence fence ∨ fence = [])
    (hok : (escaped flags).run ('b' :: input ++ fence) = .ok (a, rest)) :
    (∃ b, a = .assertion b) ∧ (rest.length < fence.length ∨
      ∃ gap, rest = '\x7b' :: gap ++ fence ∧ gapped flags gap = []) := by
  obtain ⟨b, hb, rfl⟩ := run_map_eq_ok.mp
    (show (Primitive.assertion <$> boundary flags).run (input ++ fence) = .ok (a, rest) from hok)
  exact ⟨⟨b, rfl⟩, h.run_boundary hfence hb⟩

def HangsAt (flags : Flags) (input : List Char) : Prop :=
  ∃ rest, input = '\\' :: 'b' :: rest ∧ Hangs flags rest

theorem classItem_fenced {flags : Flags} {f : Primitive → PatternReader α}
    (hf : ∀ item, Fenced (f item))
    (refuses : ∀ a input s rest, (f (.assertion a)).run input ≠ .ok (s, rest)) :
    Fenced (classItem flags >>= f) := by
  intro input
  by_cases h : HangsAt flags input
  · obtain ⟨rest, rfl, hangs⟩ := h
    refine .of_error fun fence hfence => ?_
    cases hrun : (classItem flags >>= f).run ('\\' :: 'b' :: rest ++ fence) with
    | error e => rfl
    | ok r =>
      obtain ⟨item, between, hitem, hrest⟩ := run_bind_eq_ok.mp hrun
      obtain ⟨⟨a, rfl⟩, -⟩ := hangs.run_escaped hfence hitem
      exact absurd hrest (refuses a _ _ _)
  · have hitem : FencedAt (classItem flags) input := by
      refine (nextChar_fenced input).bind fun c rest hc => ?_
      obtain rfl := run_nextChar_eq_ok.mp hc
      split
      · next hslash =>
        refine escaped_fenced fun rest' hrest hangs => h ⟨rest', ?_, hangs⟩
        rw [hslash, hrest]
      · exact .of_idle (pure_idle _) rest
    exact hitem.bind fun item rest _ => hf item rest

theorem visible?_fence {fence : List Char} (hfence : Fence fence) (inComment : Bool)
    (input : List Char) :
    visible? inComment (input ++ fence) = (visible? inComment input).or fence.head? := by
  induction input generalizing inComment with
  | nil => obtain ⟨c, tail, rfl, rfl | rfl⟩ := hfence.exists_cons <;> cases inComment <;> rfl
  | cons c rest ih =>
    simp only [List.cons_append, visible?]
    split
    · exact ih _
    · split
      · exact ih _
      · rfl

theorem head_of_visible?_eq_none {input : List Char} (h : visible? false input = none) {c : Char}
    (hwhite : Unicode.isWhite c = false) (hcomment : c ≠ '#') : input.head? ≠ some c := by
  intro hhead
  obtain ⟨tail, rfl⟩ := List.head?_eq_some_iff.mp hhead
  simp [visible?, hwhite, hcomment] at h

/-- Where the fence is what follows a dash, it stands for the end of the text, which makes a range
as well. -/
theorem afterDash_fence {fence : List Char} (hfence : Fence fence) (flags : Flags)
    (input : List Char) :
    afterDash flags (input ++ fence) = afterDash flags input ∨
      afterDash flags (input ++ fence) = fence.head? ∧
        afterDash flags input ≠ some ']' ∧ afterDash flags input ≠ some '-' := by
  have hhead : fence.head?.isSome = true := by
    obtain ⟨c, tail, rfl, -⟩ := hfence.exists_cons
    rfl
  unfold afterDash
  split
  · rw [visible?_fence hfence]
    cases hvisible : visible? false input with
    | some c => exact .inl rfl
    | none =>
      refine .inr ⟨by simp [Option.or_of_isSome hhead], ?_, ?_⟩
      · exact head_of_visible?_eq_none hvisible (by decide) (by decide)
      · exact head_of_visible?_eq_none hvisible (by decide) (by decide)
  · cases input with
    | nil => exact .inr ⟨rfl, by simp, by simp⟩
    | cons c rest => exact .inl rfl

theorem rangeFollows_fence {fence : List Char} (hfence : Fence fence) (flags : Flags)
    (input : List Char) : rangeFollows flags (input ++ fence) = rangeFollows flags input := by
  by_cases hdash : input.head? = some '-'
  · obtain ⟨rest, rfl⟩ := List.head?_eq_some_iff.mp hdash
    simp only [List.cons_append, rangeFollows]
    rcases afterDash_fence hfence flags rest with hsame | ⟨hclose, hbracket, hdash'⟩
    · rw [hsame]
    · rw [hclose, bne_iff_ne.mpr hbracket, bne_iff_ne.mpr hdash',
        bne_iff_ne.mpr (hfence.head_ne (by decide) (by decide)),
        bne_iff_ne.mpr (hfence.head_ne (by decide) (by decide))]
  · have hfalse : ∀ other : List Char, other.head? ≠ some '-' →
        rangeFollows flags other = false := by
      intro other hother
      unfold rangeFollows
      split
      · simp at hother
      · rfl
    rw [hfalse input hdash, hfalse]
    cases input with
    | nil => exact hfence.head_ne (by decide) (by decide)
    | cons c rest => exact hdash

theorem classRange_fenced (flags : Flags) : Fenced (classRange flags) := by
  rw [classRange_eq]
  refine classItem_fenced (fun first => ?_) fun a input s rest => afterItem_assertion flags a
  refine (gaps_fenced flags).bind fun _ input => .remaining ?_ fun fence hfence => ?_
  · refine .ite ?_ (.of_idle (itemAlone_idle flags first) input)
    refine ((expectChar_fenced _).bind fun _ => (gaps_fenced flags).bind fun _ => ?_) input
    refine classItem_fenced (fun last => .of_idle (rangeBetween_idle flags first last)) ?_
    intro a input s rest h
    rw [rangeBetween_assertion] at h
    cases h
  · rw [rangeFollows_fence hfence]

theorem classStart_fenced (flags : Flags) : Fenced (classStart flags) := by
  refine Fenced.bind (.many (spaced_fenced flags) (seenAhead_beq '-') fun fence hfence => ?_)
    fun dashes => .ite ?_ (.of_idle (pure_idle _))
  · exact beq_eq_false_iff_ne.mpr (hfence.head_ne (by decide) (by decide))
  · refine (accept_fenced (by decide) (by decide)).bind fun literal => ?_
    refine .ite ?_ (.of_idle (pure_idle _))
    exact (gaps_fenced flags).bind fun _ => .of_idle (pure_idle _)

theorem openBracket_fenced (flags : Flags) (outer : Members) (frames : List ClassFrame) :
    Fenced (openBracket flags outer frames) := by
  refine (expectChar_fenced _).bind fun _ => (gaps_fenced flags).bind fun _ => ?_
  refine (accept_fenced (by decide) (by decide)).bind fun negated => ?_
  have hstart : Fenced (do
      let start ← classStart flags
      pure (ClassState.mk start (.bracket outer negated :: frames) none)) :=
    (classStart_fenced flags).bind fun start => .of_idle (pure_idle _)
  exact .ite ((gaps_fenced flags).bind fun _ => hstart) hstart

theorem setOperator_fence {fence : List Char} (hfence : Fence fence) (input : List Char) :
    SetOperator.at? (input ++ fence) = SetOperator.at? input := by
  obtain ⟨e, tail, rfl, rfl | rfl⟩ := hfence.exists_cons <;>
    rcases input with _ | ⟨c, _ | ⟨d, rest⟩⟩ <;> unfold SetOperator.at? <;> split <;> simp_all

def nameToColon? (input : List Char) : Option (List Char) :=
  match input.dropWhile (· != ':') with
  | ':' :: ']' :: _ => some (input.takeWhile (· != ':'))
  | _ => none

theorem namedClass?_colon (rest : List Char) :
    namedClass? ('[' :: ':' :: rest) =
      (nameToColon? (if rest.head? == some '^' then rest.drop 1 else rest)).bind fun name =>
        (asciiClass? (String.ofList name)).map fun s =>
          (s, rest.head? == some '^', name.length + if rest.head? == some '^' then 5 else 4) := by
  simp only [namedClass?, nameToColon?]
  split <;> simp_all

theorem namedClass?_other {input : List Char} (h : ¬ ['[', ':'] <+: input) :
    namedClass? input = none := by
  unfold namedClass?
  split
  · exact absurd ⟨_, rfl⟩ h
  · rfl

theorem asciiClass?_eq_none {name : List Char} {c : Char} (h : c ∈ name)
    (hc : c = ')' ∨ c = '\\') : asciiClass? (String.ofList name) = none := by
  unfold asciiClass?
  split
  case h_15 => rfl
  all_goals
    next hname =>
      have hmem : c ∈ (String.ofList name).toList := by simpa using h
      rw [hname] at hmem
      rcases hc with rfl | rfl <;> revert hmem <;> decide

theorem nameToColon?_fence {fence : List Char} (hfence : Fence fence) (input : List Char) :
    nameToColon? (input ++ fence) = nameToColon? input ∨ nameToColon? input = none ∧
      ∀ name, nameToColon? (input ++ fence) = some name →
        asciiClass? (String.ofList name) = none := by
  obtain ⟨c, tail, rfl, hc⟩ := hfence.exists_cons
  by_cases hdrop : input.dropWhile (· != ':') = []
  · refine .inr ⟨by rw [nameToColon?, hdrop], fun name hname => ?_⟩
    unfold nameToColon? at hname
    split at hname
    · cases hname
      have hcolon : (c != ':') = true := by rcases hc with rfl | rfl <;> rfl
      have hall : ∀ d ∈ input, (d != ':') = true := List.dropWhile_eq_nil_iff.mp hdrop
      refine asciiClass?_eq_none (c := c) ?_ hc
      simp [List.takeWhile_append_of_pos hall, hcolon]
    · cases hname
  · refine .inl ?_
    unfold nameToColon?
    rw [dropWhile_append_of_ne hdrop, takeWhile_append_of_ne hdrop]
    rcases hbehind : input.dropWhile (· != ':') with _ | ⟨d, _ | ⟨e, behind⟩⟩
    · exact absurd hbehind hdrop
    · rcases hc with rfl | rfl <;> split <;> simp_all
    · split <;> simp_all

theorem namedClass?_fence {fence : List Char} (hfence : Fence fence) (input : List Char) :
    namedClass? (input ++ fence) = namedClass? input := by
  by_cases h : ['[', ':'] <+: input
  · obtain ⟨rest, rfl⟩ := h
    have hcaret : ((rest ++ fence).head? == some '^') = (rest.head? == some '^') := by
      cases rest with
      | nil =>
        exact (beq_eq_false_iff_ne.mpr (hfence.head_ne (by decide) (by decide))).trans rfl
      | cons c rest => rfl
    have hname : (if rest.head? == some '^' then (rest ++ fence).drop 1 else rest ++ fence) =
        (if rest.head? == some '^' then rest.drop 1 else rest) ++ fence := by
      split
      · next hhead =>
        rw [List.drop_append_of_le_length]
        cases rest with
        | nil => simp at hhead
        | cons c rest => simp
      · rfl
    simp only [List.cons_append, List.nil_append, namedClass?_colon, hcaret, hname]
    rcases nameToColon?_fence hfence (if rest.head? == some '^' then rest.drop 1 else rest) with
      hsame | ⟨hnone, hunknown⟩
    · rw [hsame]
    · rw [hnone, Option.bind_none, Option.bind_eq_none_iff]
      exact fun name h => by rw [hunknown name h, Option.map_none]
  · rw [namedClass?_other h, namedClass?_other]
    intro hlong
    rcases input with _ | ⟨c, _ | ⟨d, rest⟩⟩
    · obtain ⟨e, tail, rfl, rfl | rfl⟩ := hfence.exists_cons <;> simp at hlong
    · obtain ⟨e, tail, rfl, rfl | rfl⟩ := hfence.exists_cons <;> simp at hlong
    · exact h (by simpa using hlong)

theorem nameToColon?_length {input name : List Char} (h : nameToColon? input = some name) :
    name.length + 2 ≤ input.length := by
  unfold nameToColon? at h
  split at h
  · next behind hdrop =>
    cases h
    have hsum := congrArg List.length
      (List.takeWhile_append_dropWhile (p := (· != ':')) (l := input))
    rw [hdrop, List.length_append, List.length_cons, List.length_cons] at hsum
    omega
  · cases h

theorem namedClass?_length {input : List Char} {s : CharSet} {negated : Bool} {length : Nat}
    (h : namedClass? input = some (s, negated, length)) : length ≤ input.length := by
  by_cases hopen : ['[', ':'] <+: input
  · obtain ⟨rest, rfl⟩ := hopen
    simp only [List.cons_append, List.nil_append, namedClass?_colon, Option.bind_eq_some_iff,
      Option.map_eq_some_iff, Prod.mk.injEq] at h
    obtain ⟨name, hname, set, -, -, -, rfl⟩ := h
    have hle := nameToColon?_length hname
    simp only [List.cons_append, List.nil_append, List.length_cons]
    split at hle
    · next hcaret =>
      rw [if_pos hcaret]
      rw [List.length_drop] at hle
      omega
    · next hcaret =>
      rw [if_neg hcaret]
      omega
  · rw [namedClass?_other hopen] at h
    cases h

theorem setOperator_length {input : List Char} {op : SetOperator}
    (h : SetOperator.at? input = some op) : 2 ≤ input.length := by
  unfold SetOperator.at? at h
  split at h
  · simp
  · simp
  · simp
  · cases h

theorem classStep_fenced (flags : Flags) (st : ClassState) : Fenced (classStep flags st) := by
  refine (gaps_fenced flags).bind fun _ input => .remaining ?_ fun fence hfence => ?_
  · split
    case h_1 s negated length _ hnamed =>
      refine (nextChar_fenced input).bind fun c rest hc => ?_
      obtain rfl := run_nextChar_eq_ok.mp hc
      have hlength := namedClass?_length hnamed
      rw [List.length_cons] at hlength
      refine (skip_fenced (by omega)).bind fun _ rest' _ => ?_
      refine FencedAt.bind (.of_idle (negate_idle flags negated _) rest') fun s' rest'' _ => ?_
      exact .of_idle (pure_idle _) rest''
    case h_2 => exact openBracket_fenced flags _ _ input
    case h_3 => exact (nextChar_fenced.bind fun _ => .of_idle (closeBracket_idle flags st)) input
    case h_4 op hoperator _ _ _ =>
      refine (nextChar_fenced input).bind fun c rest hc => ?_
      obtain rfl := run_nextChar_eq_ok.mp hc
      have hlength := setOperator_length hoperator
      rw [List.length_cons] at hlength
      exact (skip_fenced (by omega)).bind fun _ rest' _ => .of_idle (pure_idle _) rest'
    case h_5 => exact ((classRange_fenced flags).bind fun s => .of_idle (pure_idle _)) input
  · cases input with
    | nil => obtain ⟨c, tail, rfl, rfl | rfl⟩ := hfence.exists_cons <;> rfl
    | cons c rest => rw [namedClass?_fence hfence, setOperator_fence hfence]; rfl

theorem bracketClass_fenced (flags : Flags) : Fenced (bracketClass flags) := by
  refine (openBracket_fenced flags _ _).bind fun st => ?_
  refine Fenced.bind (.loop (classStep_fenced flags) st) fun st' => ?_
  split
  · exact .of_idle (pure_idle _)
  · exact .of_idle invalid_idle

theorem namedGroup_fenced (st : GroupState) : Fenced (namedGroup st) := by
  intro input
  refine (FencedInside.takeWhile _ input).bind_strict
    (fun _ => (strict_expectChar _).bind_left _) fun name => ?_
  exact (expectChar_fenced _).bind fun _ => .of_idle (.ite (pure_idle _) invalid_idle)

theorem flagGroup_fenced (st : GroupState) : Fenced (flagGroup st) := by
  rw [flagGroup_eq]
  intro input
  refine (FencedInside.takeWhile _ input).bind_strict (fun _ => strict_nextChar.bind_left _)
    fun items => ?_
  exact nextChar_fenced.bind fun stop => .of_idle (setFlags_idle st items stop)

theorem groupBy_fenced (st : GroupState) (input : List Char) :
    FencedAt (groupBy st input[0]? input[1]? input[2]?) input := by
  have hlength : ∀ {i : Nat} {c : Char}, input[i]? = some c → i + 1 ≤ input.length :=
    fun h => (List.getElem?_eq_some_iff.mp h).1
  unfold groupBy
  split
  · next hfirst =>
    refine .ite (.of_idle invalid_idle input) ?_
    split
    · next hsecond =>
      exact .ite (.of_idle invalid_idle input)
        ((skip_fenced (hlength hsecond)).bind fun _ rest _ => namedGroup_fenced st rest)
    · split
      · next hthird =>
        exact (skip_fenced (hlength hthird.2)).bind fun _ rest _ => namedGroup_fenced st rest
      · exact (skip_fenced (hlength hfirst)).bind fun _ rest _ => flagGroup_fenced st rest
  · exact .of_idle (pure_idle _) input

theorem openGroup_fenced (st : GroupState) : Fenced (openGroup st) := by
  rw [openGroup_eq]
  refine (gaps_fenced _).bind fun _ input => .remaining (groupBy_fenced st input) ?_
  intro fence hfence
  obtain ⟨d, tail, rfl, rfl | rfl⟩ := hfence.exists_cons <;>
    rcases input with _ | ⟨a, _ | ⟨b, _ | ⟨c, rest⟩⟩⟩ <;> simp [groupBy]

theorem uncounted_fenced (st : GroupState) (least : Nat) (most : Option Nat) :
    Fenced (uncounted st least most) :=
  (accept_fenced (by decide) (by decide)).bind fun _ => .of_idle (repeatLast_idle st least most)

theorem count_fenced (flags : Flags) : Fenced (count flags) := by
  have hwhite : Fenced (takeWhile Unicode.isWhite : PatternReader (List Char)) :=
    takeWhile_fenced (by decide) (by decide)
  refine hwhite.bind fun _ => ?_
  refine Fenced.bind (.many (spaced_fenced flags) (seenAhead_any Char.isDigit)
    fun fence hfence => hfence.head_any (by decide) (by decide)) fun digits => ?_
  refine Fenced.bind (.many (spaced_fenced flags) (seenAhead_any Unicode.isWhite)
    fun fence hfence => hfence.head_any (by decide) (by decide)) fun _ => ?_
  exact .ite (.of_idle (pure_idle _)) (.ite (.of_idle (pure_idle _)) (.of_idle invalid_idle))

theorem closeCount_fenced (st : GroupState) (bounds : Option Nat × Option Nat) :
    Fenced (closeCount st bounds) := by
  refine (expectChar_fenced _).bind fun _ => (gaps_fenced _).bind fun _ => ?_
  refine (accept_fenced (by decide) (by decide)).bind fun _ => .of_idle ?_
  split
  · exact repeatLast_idle st _ _
  · exact invalid_idle

theorem closeBetween_fenced (st : GroupState) (least most : Option Nat) :
    Fenced (closeBetween st least most) := by
  unfold closeBetween
  split
  · exact .ite (closeCount_fenced st _) (.of_idle invalid_idle)
  · exact .of_idle invalid_idle

theorem upperBound_fenced (st : GroupState) (least : Option Nat) :
    Fenced (upperBound st least) := by
  refine (gaps_fenced _).bind fun _ input => .peek ?_ fun fence hfence => ?_
  · refine .ite (closeCount_fenced st _ input) ?_
    exact ((count_fenced _).bind fun most => closeBetween_fenced st least most) input
  · cases input with
    | nil => obtain ⟨c, tail, rfl, rfl | rfl⟩ := hfence.exists_cons <;> rfl
    | cons c rest => rfl

theorem counted_fenced (st : GroupState) : Fenced (counted st) := by
  rw [counted_eq]
  refine (gaps_fenced _).bind fun _ => (count_fenced _).bind fun least => ?_
  refine (accept_fenced (by decide) (by decide)).bind fun comma => ?_
  exact .ite (upperBound_fenced st least) (closeCount_fenced st _)

theorem addEscaped_fenced {st : GroupState} {rest : List Char}
    (h : ¬ HangsAt st.flags ('\\' :: rest)) : FencedAt (addEscaped st) rest := by
  have hescaped : FencedAt (escaped st.flags) rest :=
    escaped_fenced fun rest' hrest hangs => h ⟨rest', by rw [hrest], hangs⟩
  refine hescaped.bind fun item rest' _ => ?_
  split <;> exact .of_idle (pure_idle _) rest'

theorem element_fenced {st : GroupState} {c : Char} {rest : List Char}
    (h : ¬ HangsAt st.flags (c :: rest)) : FencedAt (element st c) rest := by
  unfold element
  split
  case h_1 => exact openGroup_fenced st rest
  case h_2 => exact .of_idle (leave_idle st) rest
  case h_4 | h_5 | h_6 => exact uncounted_fenced st _ _ rest
  case h_7 => exact counted_fenced st rest
  case h_8 => exact addEscaped_fenced h
  case h_9 => exact .of_idle ((dot_idle _).map _) rest
  all_goals exact .of_idle (pure_idle _) rest

theorem readElement_fenced {st : GroupState} {input : List Char} (h : ¬ HangsAt st.flags input) :
    FencedAt (readElement st) input := by
  refine .peek (.ite ?_ ?_) fun fence hfence => ?_
  · exact (bracketClass_fenced _ input).map _
  · refine (nextChar_fenced input).bind fun c rest hc => ?_
    obtain rfl := run_nextChar_eq_ok.mp hc
    exact element_fenced h
  · cases input with
    | nil => obtain ⟨c, tail, rfl, rfl | rfl⟩ := hfence.exists_cons <;> rfl
    | cons c rest => rfl

theorem length_run_counted {st next : GroupState} {input rest : List Char}
    (h : (counted st).run input = .ok (next, rest)) :
    rest.length < (gapped st.flags input).length := by
  rw [counted_eq, run_bind_ok (run_gaps _ _)] at h
  refine Strict.bind_right _ (fun least => Strict.bind_right _ fun comma => ?_) h
  split
  · exact strict_upperBound st least
  · exact strict_closeCount st _

/-- At the end of the text the brace is an error at once. With a fence it is the next element, and
what is read then goes on into the fence. So no element begins where the fence begins. -/
theorem HangsAt.run_groupStep {st st' : GroupState} {input fence rest : List Char}
    (h : HangsAt st.flags input) (hfence : Fence fence ∨ fence = [])
    (hok : (groupStep st).run (input ++ fence) = .ok (st', rest)) :
    rest.length < fence.length ∨ fence.length < rest.length ∧ ∀ last behind,
      (groupStep st').run rest = .ok (last, behind) → behind.length < fence.length := by
  obtain ⟨tail, rfl, hangs⟩ := h
  obtain ⟨st₁, between, hread, hgap⟩ := run_bind_eq_ok.mp hok
  obtain ⟨item, between', hitem, hadd⟩ := run_bind_eq_ok.mp
    (show (addEscaped st).run ('b' :: tail ++ fence) = .ok (st₁, between) from hread)
  obtain ⟨⟨a, rfl⟩, hrest⟩ := hangs.run_escaped hfence hitem
  cases hadd
  rw [run_bind_ok (run_gaps _ _)] at hgap
  obtain ⟨rfl, rfl⟩ := Prod.mk.inj (Except.ok.inj hgap)
  rcases hrest with hrest | ⟨gap, rfl, hnil⟩
  · exact .inl (Nat.lt_of_le_of_lt ((gaps st.flags).rest_length_le (run_gaps _ _)) hrest)
  · rw [gapped_of_no_gap rfl]
    have hlonger : fence.length < ('\x7b' :: gap ++ fence).length := by
      simp only [List.length_append, List.length_cons]
      omega
    refine .inr ⟨hlonger, fun last behind hlast => ?_⟩
    obtain ⟨st₂, between, hcounted, hgap⟩ := run_bind_eq_ok.mp hlast
    have hlength := length_run_counted
      (show (counted (st.add (.plain (.assertion a)))).run (gap ++ fence) = .ok (st₂, between)
        from hcounted)
    have hle := Reader.rest_length_le _ hgap
    have hfit := gapped_length hnil hfence
    exact Nat.lt_of_le_of_lt hle (Nat.lt_of_lt_of_le hlength hfit)

theorem groupStep_fenced {st : GroupState} {input : List Char} (h : ¬ HangsAt st.flags input) :
    FencedAt (groupStep st) input :=
  (readElement_fenced h).bind fun st' rest _ =>
    (gaps_fenced _ rest).bind fun _ rest' _ => .of_idle (pure_idle st') rest'

end JsonPath.Pattern
