import JsonPath.Proofs.FilterFree
import JsonPath.Proofs.Locality

set_option autoImplicit false

/-!
# The grammar is read locally

Every reader of the grammar reads the same where the text behind what it reads is cut. The readers
of nested constructs are assumed to be local, and are so by induction on the levels.
-/
namespace JsonPath

namespace Reader
open Spelling

variable {mode : Mode}

theorem index_local (mode : Mode) : Local (index mode) := by
  refine .remaining fun input cut _ => (accept_local '-').bind fun negative =>
    digits_local.bind fun ds => ?_
  exact .ite (.of_fail _ _) (.ite (pure_local _) (.of_fail _ _))

theorem index_startsIndex {i : Int} {input rest : List Char}
    (h : (index mode).run input = .ok (i, rest)) : startsIndex input = true := by
  obtain ⟨⟨t, rfl, ht⟩, -⟩ := index_sound h
  obtain ⟨c, tail, rfl, hc⟩ := Grammar.ofIndex_head ht
  exact (Grammar.startsIndex_iff c _).mpr hc

theorem optionalIndex_local (mode : Mode) : Local (optionalIndex mode) := by
  have hindex := (index_local mode).map some
  refine Local.lookahead (grows_head (f := Option.any _) rfl) (hindex.sees ?_) hindex
    (pure_local none)
  intro input i rest h
  obtain ⟨_, hi, -⟩ := run_map_eq_ok.mp h
  exact index_startsIndex hi

theorem fractionFollows_iff (input : List Char) :
    fractionFollows input = true ↔ ∃ c tail, input = '.' :: c :: tail ∧ c.isDigit = true := by
  constructor
  · intro h
    unfold fractionFollows at h
    split at h
    · exact ⟨_, _, rfl, h⟩
    · cases h
  · rintro ⟨c, tail, rfl, hc⟩
    exact hc

theorem digits_taken {c : Char} {s tail t rest : List Char} (hc : c.isDigit = true)
    (hrest : (c :: tail).dropWhile Char.isDigit = rest) (h : t ++ rest = s ++ c :: tail) :
    ∃ more, t = s ++ c :: more := by
  have hsplit := List.takeWhile_append_dropWhile (p := Char.isDigit) (l := c :: tail)
  rw [hrest, List.takeWhile_cons_of_pos hc] at hsplit
  rw [← hsplit, ← List.append_assoc] at h
  exact ⟨tail.takeWhile Char.isDigit, List.append_cancel_right h⟩

theorem fraction_local : Local fraction := by
  have hform (input : List Char) : fraction.run input = (Reader.remaining >>= fun input =>
      if fractionFollows input then (skip 1 >>= fun _ => digits) else pure []).run input := by
    rw [fraction_run, run_bind_ok (run_remaining _), run_ite]
    rfl
  have hlocal : Local (Reader.remaining >>= fun input =>
      if fractionFollows input then (skip 1 >>= fun _ => digits) else pure []) := by
    refine Local.lookahead (grows_digit fractionFollows_iff) ?_
      ((skip_local 1).bind fun _ => digits_local)
      (pure_local [])
    intro t rest ds hfollows h
    obtain ⟨c, tail, hinput, hc⟩ := (fractionFollows_iff _).mp hfollows
    rw [hinput] at h
    have hrest : (c :: tail).dropWhile Char.isDigit = rest := (Prod.mk.inj (Except.ok.inj h)).2
    obtain ⟨more, rfl⟩ := digits_taken (s := ['.']) hc hrest hinput
    exact hc
  intro t rest cut ds h hcut
  rw [hform] at h ⊢
  exact hlocal h hcut

theorem exponentFollows_grows : Grows exponentFollows := by
  rintro short _ ⟨more, rfl⟩ h
  obtain ⟨mark, sign, c, tail, rfl, hmark, hsign, hc⟩ := (exponentFollows_iff short).mp h
  exact (exponentFollows_iff _).mpr ⟨mark, sign, c, tail ++ more, by simp, hmark, hsign, hc⟩

theorem exponent_local : Local exponent := by
  refine Local.lookahead exponentFollows_grows ?_ ((skip_local 1).bind fun _ =>
    (accept_local '-').bind fun _ => (accept_local '+').bind fun _ => digits_local.bind fun _ =>
      pure_local _) (pure_local none)
  intro t rest exp hfollows h
  have hrun : exponent.run (t ++ rest) = .ok (exp, rest) := by
    rw [exponent, run_bind_ok (run_remaining _), if_pos hfollows]
    exact h
  obtain ⟨mark, sign, c, tail, hinput, hmark, hsign, hc⟩ := (exponentFollows_iff _).mp hfollows
  rw [hinput, exponent_run tail hmark hsign hc] at hrun
  obtain ⟨more, rfl⟩ := digits_taken (s := mark :: sign) hc
    (Prod.mk.inj (Except.ok.inj hrun)).2 hinput
  exact (exponentFollows_iff _).mpr ⟨mark, sign, c, more, rfl, hmark, hsign, hc⟩

theorem number_local (mode : Mode) : Local (number mode) := by
  refine .remaining fun input short _ => (accept_local '-').bind fun negative =>
    digits_local.bind fun whole => .ite (.of_fail _ _) ?_
  refine fraction_local.bind fun frac => exponent_local.bind fun exp =>
    .remaining fun rest cut hcut => ?_
  have hfails {c : Prop} [Decidable c] (e e' : Failure) (q : QueryReader Expr) :
      LocalTo (if c then fail e else fail e') q := by
    split
    · exact .of_fail _ _
    · exact .of_fail _ _
  by_cases hmark : rest.head?.any isFloatMark = true
  · simp only [hmark, Bool.true_or, if_true]
    exact hfails _ _ _
  · have hmark' : ¬ cut.head?.any isFloatMark = true :=
      fun h => hmark (grows_head (f := Option.any isFloatMark) rfl hcut h)
    rw [Bool.not_eq_true] at hmark hmark'
    simp only [hmark, hmark']
    exact .ite (hfails _ _ _) (.ite (pure_local _) (.ite (pure_local _) (.of_fail _ _)))

theorem number_strict (mode : Mode) : (number mode).Strict :=
  (number_local mode).strict (by rintro e rest ⟨⟩)

theorem stringLiteral_from (mode : Mode) {quote : Char} (hq : quote = '\'' ∨ quote = '"') :
    LocalFrom quote (stringLiteral mode) (stringLiteral mode) := by
  intro input rest cut s h _
  obtain ⟨t, ht, hspelt⟩ := stringLiteral_sound hq h
  cases hspelt with
  | @quoted body quote' hq' hbody =>
    obtain ⟨rfl, rfl⟩ := List.cons.inj ht
    refine ⟨body ++ [quote], rfl, ?_⟩
    exact stringLiteral_run (.quoted quote hq' hbody) cut

end Reader

namespace Grammar
open Reader Spelling

variable {mode : Mode} {inner : Nested}

structure NestedLocal (inner : Nested) : Prop where
  expression : Local inner.expression
  unary : Local inner.unary
  arguments : Local inner.arguments
  argumentsStrict : inner.arguments.Strict

theorem colonFollows_grows : Grows colonFollows :=
  grows_behind_blanks (grows_head (f := (· == some ':')) rfl)

theorem colon_local : Local colon :=
  blanks_local.bind fun _ => (expect_local ':').bind fun _ => blanks_local

theorem colon_announced {α : Type} {f : Unit → QueryReader α} {input rest : List Char} {a : α}
    (h : (colon >>= f).run input = .ok (a, rest)) : colonFollows input = true := by
  obtain ⟨_, _, hcolon, -⟩ := run_bind_eq_ok.mp h
  obtain ⟨tail, htail, -⟩ := colon_eq_ok_iff.mp hcolon
  exact (colonFollows_iff input).mpr ⟨tail, htail⟩

theorem colonPart_local {f : Unit → QueryReader Selector} {q : QueryReader Selector}
    (hf : Local (f ())) (hq : Local q) :
    Local (remaining >>= fun input => if colonFollows input then colon >>= f else q) := by
  have hcolon : Local (colon >>= f) := colon_local.bind fun _ => hf
  exact Local.lookahead colonFollows_grows (hcolon.sees fun _ _ _ => colon_announced) hcolon hq

theorem indexOrSlice_local (mode : Mode) : Local (indexOrSlice mode) := by
  have hbound : Local (optionalIndex mode) := optionalIndex_local mode
  refine hbound.bind fun start => colonPart_local ?_ ?_
  · exact hbound.bind fun stop => colonPart_local (hbound.map _) (pure_local _)
  · cases start with
    | none => exact noSelector_local
    | some i => exact pure_local _

theorem indexOrSlice_strict (mode : Mode) : (indexOrSlice mode).Strict :=
  (indexOrSlice_local mode).strict (by rintro s rest ⟨⟩)

theorem selector_local (h : NestedLocal inner) :
    Local (selector mode inner) ∧ (selector mode inner).Strict := by
  refine LocalTo.peek (by rintro s rest ⟨⟩) fun c => ?_
  split
  · exact .skip (pure_local _)
  · exact .skip (blanks_local.bind fun _ => h.expression.map _)
  · next heq =>
    cases heq
    split
    · next hq => exact (stringLiteral_from mode (by simpa using hq)).map _
    split
    · exact (indexOrSlice_local mode).from_strict (indexOrSlice_strict mode) _
    · exact noSelector_from _ _
  · next heq => cases heq

theorem bracketed_local (h : NestedLocal inner) : Local (bracketed mode inner) := by
  refine .remaining fun input cut _ => (expect_local '[').bind fun _ => blanks_local.bind fun _ =>
    (LocalTo.peek (by rintro ss rest ⟨⟩) fun c => ?_).1
  split
  · exact .of_fail _ _ _
  · refine LocalTo.from_strict (p := _) ?_ ?_ _
    · exact (commaList_local (selector_local h).1).bind fun _ => blanks_local.bind fun _ =>
        (expect_local ']').bind fun _ => pure_local _
    · exact Strict.bind_right _ fun _ => Strict.bind_right _ fun _ =>
        (strict_expect ']').bind_left _

theorem shorthandName_from {c : Char} (hc : Name.isFirst c = true) :
    LocalFrom c (shorthandName mode) (shorthandName mode) :=
  (takeWhile_from (by simp [Name.isLater, hc])).bind fun _ => pure_local _

theorem dotted_local (h : NestedLocal inner) (descendant : Bool) :
    Local (dotted mode inner descendant) ∧ (dotted mode inner descendant).Strict := by
  refine LocalTo.peek (by rintro s rest ⟨⟩) fun c => ?_
  split
  · exact .skip (pure_local _)
  · next heq =>
    cases heq
    split
    · exact (bracketed_local h).from_strict (strict_bracketed mode inner) _
    split
    · next hfirst => exact (shorthandName_from hfirst).map _
    · exact noSelector_from _ _
  · next heq => cases heq

theorem segment_local (h : NestedLocal inner) : Local (segment mode inner) := by
  have hbracketed : Local (Segment.children <$> bracketed mode inner) := (bracketed_local h).map _
  refine blanks_local.bind fun _ => (LocalTo.peek (by rintro s rest ⟨⟩) fun c => ?_).1
  split
  · refine LocalTo.from_strict ?_ (Strict.bind_left (strict_expect '.') _) _
    refine (expect_local '.').bind fun _ => (accept_local '.').bind fun _ => ?_
    exact .ite ((dotted_local h true).1.map _) ((dotted_local h false).1.map _)
  · exact hbracketed.from_strict ((strict_bracketed mode inner).map _) _

theorem segment_announced {s : Segment} {input rest : List Char}
    (h : (segment mode inner).run input = .ok (s, rest)) : segmentFollows input = true := by
  obtain ⟨b, t, hb, rfl, ht⟩ := segment_sound (Path.recognises_some _) h
  exact segmentFollows_run hb ht rest

theorem segments_local (h : NestedLocal inner) : Local (segments mode inner) :=
  LocalTo.many (grows_behind_blanks (grows_head (f := Option.any _) rfl))
    ((segment_local h).sees fun _ _ _ => segment_announced) (segment_local h)

theorem embedded_local (h : NestedLocal inner) (start : Start) :
    Local (embedded mode inner start) :=
  (segments_local h).bind fun _ => pure_local _

theorem named_from (h : NestedLocal inner) {c : Char} (hc : Name.isFirst c = true) :
    LocalFrom c (named inner) (named inner) := by
  refine (takeWhile_from (by simp [Name.isLater, hc])).bind fun name => ?_
  have hcall (f : String) : Local (Expr.call f <$> inner.arguments) := h.arguments.map _
  refine Local.lookahead
    (grows_head (f := (· == some '(')) rfl) (sees_head (f := (· == some '(')) ?_) (hcall _)
    (pure_local _)
  exact h.argumentsStrict.map _

theorem primary_local (h : NestedLocal inner) :
    Local (primary mode inner) ∧ (primary mode inner).Strict := by
  refine LocalTo.peek (by rintro s rest ⟨⟩) fun c => ?_
  split
  · refine .skip (blanks_local.bind fun _ => h.expression.bind fun _ => ?_)
    exact blanks_local.bind fun _ => (expect_local ')').bind fun _ => pure_local _
  · exact .skip (embedded_local h .root)
  · exact .skip (embedded_local h .current)
  · next heq =>
    cases heq
    split
    · next hq => exact (stringLiteral_from mode (by simpa using hq)).map _
    split
    · exact (number_local mode).from_strict (number_strict mode) _
    split
    · next hfirst => exact named_from h hfirst
    · exact unexpected_from _ _
  · next heq => cases heq

theorem signedNumberFollows_iff (input : List Char) : signedNumberFollows input = true ↔
    ∃ c tail, input = '-' :: c :: tail ∧ c.isDigit = true := by
  constructor
  · intro h
    unfold signedNumberFollows at h
    split at h
    · exact ⟨_, _, rfl, h⟩
    · cases h
  · rintro ⟨c, tail, rfl, hc⟩
    exact hc

theorem signedNumberFollows_sees (mode : Mode) : Sees signedNumberFollows (number mode) := by
  intro t rest e hfollows h
  have hcut := number_local mode h List.nil_prefix
  rw [List.append_nil] at hcut
  obtain ⟨negative, d, tail, rfl, hd⟩ := number_head hcut
  obtain ⟨c, tail', hinput, -⟩ := (signedNumberFollows_iff _).mp hfollows
  cases negative with
  | true => exact hd
  | false =>
    obtain ⟨rfl, -⟩ := List.cons.inj hinput
    cases hd

theorem unary_local (h : NestedLocal inner) : Local (unary mode inner) := by
  have hoperand (f : Expr → Expr) : Local (do blanks; f <$> inner.unary : QueryReader Expr) :=
    blanks_local.bind fun _ => h.unary.map f
  have hnegated : LocalFrom '!' (do skip 1; blanks; Expr.not <$> inner.unary : QueryReader Expr)
      (do skip 1; blanks; Expr.not <$> inner.unary) :=
    .skip (hoperand .not)
  refine (LocalTo.of_heads (by rintro e rest ⟨⟩) fun c => ?_).1
  by_cases hnot : c = '!'
  · subst hnot
    exact hnegated.congr fun _ => rfl
  by_cases hminus : c = '-'
  · subst hminus
    have hsigned : Local (Reader.remaining >>= fun input =>
        if signedNumberFollows input then number mode
        else do skip 1; blanks; Expr.negate <$> inner.unary) :=
      Local.lookahead (grows_digit signedNumberFollows_iff) (signedNumberFollows_sees mode)
        (number_local mode) ((skip_local 1).bind fun _ => hoperand .negate)
    refine (hsigned.from_taking fun input e rest hrun => ?_).congr fun _ => rfl
    rw [run_bind_ok (run_remaining _), run_ite] at hrun
    split at hrun
    · exact Nat.le_of_lt_succ (number_strict mode hrun)
    · exact Reader.rest_length_le (do blanks; Expr.negate <$> inner.unary) hrun
  · have hprimary : Local (primary mode inner) ∧ (primary mode inner).Strict := primary_local h
    exact (hprimary.1.from_strict hprimary.2 c).congr (unary_primary hnot hminus)

/-- Text behind an operator can only make it another of its level. -/
theorem operator?_level (op : BinaryOp) (tail : List Char) :
    ∃ op', operator? (op.chars ++ tail) = some op' ∧ op'.level = op.level := by
  by_cases heq : tail.head? = some '='
  · obtain ⟨more, rfl⟩ := List.head?_eq_some_iff.mp heq
    cases op <;> exact ⟨_, rfl, rfl⟩
  · have hne : ∀ c ∈ tail.head?, c ≠ '=' := by
      rintro c hc rfl
      exact heq hc
    exact ⟨op, operator?_chars op hne, rfl⟩

theorem operator?_sound {op : BinaryOp} {input : List Char} (h : operator? input = some op) :
    ∃ tail, input = op.chars ++ tail := by
  unfold operator? at h
  split at h <;> cases h <;> exact ⟨_, rfl⟩

theorem operator?_cut {op : BinaryOp} {rest cut : List Char}
    (h : operator? (op.chars ++ rest) = some op) (hcut : cut <+: rest) :
    operator? (op.chars ++ cut) = some op := by
  cases cut with
  | nil => exact operator?_chars op (by rintro c ⟨⟩)
  | cons c cut =>
    obtain ⟨more, rfl⟩ := hcut
    by_cases hc : c = '='
    · subst hc
      cases op <;> first | rfl | cases h
    · exact operator?_chars op (by rintro d ⟨⟩; exact hc)

def operatorAhead (level : Nat) (input : List Char) : Bool :=
  (operator? input).any fun op => op.level == level

theorem operatorAhead_grows (level : Nat) : Grows (operatorAhead level) := by
  rintro short _ ⟨more, rfl⟩ h
  cases hop : operator? short with
  | none =>
    rw [operatorAhead, hop] at h
    cases h
  | some op =>
    obtain ⟨tail, rfl⟩ := operator?_sound hop
    obtain ⟨op', hop', hlevel⟩ := operator?_level op (tail ++ more)
    rw [operatorAhead, hop] at h
    rw [operatorAhead, List.append_assoc, hop']
    simpa [hlevel] using h

theorem operator_local : Local operator := by
  intro t rest cut op h hcut
  obtain ⟨hop, ht⟩ := operator_sound h
  obtain rfl : t = op.chars := List.append_cancel_right ht
  exact operator_run_of_operator? (operator?_cut hop hcut)

theorem operatorAhead_sees (level : Nat) : Sees (operatorAhead level) operator := by
  intro t rest op hahead h
  obtain ⟨hop, ht⟩ := operator_sound h
  obtain rfl : t = op.chars := List.append_cancel_right ht
  have halone := operator?_cut hop List.nil_prefix
  rw [operatorAhead, hop] at hahead
  rw [List.append_nil] at halone
  rw [operatorAhead, halone]
  exact hahead

theorem operatorFollows_grows (level : Nat) : Grows (operatorFollows level) :=
  grows_behind_blanks (operatorAhead_grows level)

theorem operatorFollows_sees (level : Nat) (operand : QueryReader Expr) (start : List Char)
    (first : Expr) : Sees (operatorFollows level) (operation mode operand start first) :=
  ((operatorAhead_sees level).bind (operatorAhead_grows level) _).behind_blanks

theorem requireSingular_local (start start' : List Char) (e : Expr) :
    LocalTo (requireSingular start e) (requireSingular start' e) := by
  cases e with
  | query p => exact .of_fail _ _
  | _ => exact pure_local ()

theorem operation_local {operand : QueryReader Expr} (h : Local operand) (start start' : List Char)
    (first : Expr) :
    LocalTo (operation mode operand start first) (operation mode operand start' first) := by
  refine blanks_local.bind fun _ => operator_local.bind fun op => blanks_local.bind fun _ =>
    .remaining fun right right' _ => LocalTo.bind h fun r => .ite ?_ (pure_local _)
  exact (requireSingular_local start start' first).bind fun _ =>
    (requireSingular_local right right' r).bind fun _ => pure_local _

theorem chain_local {operand : QueryReader Expr} (h : Local operand) (level : Nat) :
    Local (chain mode level operand) := by
  refine .remaining fun start start' _ => LocalTo.bind h fun first => ?_
  exact (LocalTo.many (operatorFollows_grows level) (operatorFollows_sees level operand start first)
    (operation_local h start start' first)).bind fun _ => pure_local _

theorem tier_local (h : NestedLocal inner) (height : Nat) : Local (tier mode inner height) := by
  induction height with
  | zero => exact unary_local h
  | succ height ih => exact chain_local ih _

theorem arguments_local (h : NestedLocal inner) : Local (arguments mode inner) := by
  refine (expect_local '(').bind fun _ => blanks_local.bind fun _ =>
    (LocalTo.peek (by rintro args rest ⟨⟩) fun c => ?_).1
  split
  · exact .skip (pure_local _)
  · refine LocalTo.from_strict ?_ ?_ _
    · exact (commaList_local (tier_local h 5)).bind fun _ => blanks_local.bind fun _ =>
        (expect_local ')').bind fun _ => pure_local _
    · exact Strict.bind_right _ fun _ => Strict.bind_right _ fun _ =>
        (strict_expect ')').bind_left _

theorem arguments_strict : (arguments mode inner).Strict :=
  (strict_expect '(').bind_left _

theorem tooDeep_local : NestedLocal .tooDeep where
  expression := .remaining fun _ _ _ => .of_fail _ _
  unary := .remaining fun _ _ _ => .of_fail _ _
  arguments := .remaining fun _ _ _ => .of_fail _ _
  argumentsStrict := Strict.bind_right _ fun _ => strict_fail _

theorem nested_local (mode : Mode) (levels : Nat) : NestedLocal (nested mode levels) := by
  induction levels with
  | zero => exact tooDeep_local
  | succ levels ih => exact ⟨tier_local ih 5, unary_local ih, arguments_local ih, arguments_strict⟩

end Grammar
end JsonPath
