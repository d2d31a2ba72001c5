import JsonPath.Proofs.Accepted
import JsonPath.Proofs.Everywhere
import JsonPath.Proofs.RoundTrip
import Mathlib.Logic.Function.Iterate

set_option autoImplicit false

/-!
# Canonical text at the nesting limit

Canonical text has parentheses around a numeral behind a prefix operator, where the text it was read
from may have none. The canonical text of an accepted query may for that reason nest one level
beyond the limit, and is then refused; otherwise it is read back.
-/
namespace JsonPath

namespace Reader

variable {α β : Type}

/-- The failure is that no nesting level was left. -/
def RunsOut (result : Except Failure α) : Prop :=
  ∃ tail, result = .error ⟨tail, .nestingTooDeep⟩

theorem RunsOut.bind {p : QueryReader α} {f : α → QueryReader β} {input : List Char}
    (h : RunsOut (p.run input)) : RunsOut ((p >>= f).run input) := by
  obtain ⟨tail, hrun⟩ := h
  exact ⟨tail, run_bind_error hrun⟩

theorem RunsOut.map {p : QueryReader α} (f : α → β) {input : List Char}
    (h : RunsOut (p.run input)) : RunsOut ((f <$> p).run input) :=
  RunsOut.bind h

section
variable {starts : List Char → Bool} {item : QueryReader α} {strict : item.Strict}
  {input between : List Char}

theorem RunsOut.many (hstarts : starts input = true) (h : RunsOut (item.run input)) :
    RunsOut (manyRun starts item strict input) := by
  obtain ⟨tail, hrun⟩ := h
  exact ⟨tail, manyRun_error hstarts hrun⟩

theorem RunsOut.many_cons (hstarts : starts input = true) {a : α}
    (ha : item.run input = .ok (a, between)) (h : RunsOut (manyRun starts item strict between)) :
    RunsOut (manyRun starts item strict input) := by
  obtain ⟨tail, hrun⟩ := h
  exact ⟨tail, by rw [manyRun_cons hstarts ha, hrun]; rfl⟩

end

/-- No level is left for what begins like the text, whatever follows it. -/
def TooDeep (p : QueryReader α) (t : List Char) : Prop :=
  ∀ rest, RunsOut (p.run ((t ++ rest).dropWhile isBlank))

theorem TooDeep.append {p : QueryReader α} {t : List Char} (h : TooDeep p t) (t' : List Char) :
    TooDeep p (t ++ t') := by
  intro rest
  rw [List.append_assoc]
  exact h (t' ++ rest)

theorem commaSeparated_cons (t : List Char) {ts : List (List Char)} (hts : ts ≠ []) :
    commaSeparated (t :: ts) = t ++ ',' :: ' ' :: commaSeparated ts := by
  cases ts with
  | nil => exact absurd rfl hts
  | cons _ _ => rfl

theorem commaList_first {item : QueryReader α} {t : List Char} (h : TooDeep item t)
    (ts : List (List Char)) : TooDeep (commaList item) (commaSeparated (t :: ts)) := by
  cases ts with
  | nil => exact fun rest => (h rest).bind
  | cons t' ts =>
    rw [commaSeparated_cons t (List.cons_ne_nil t' ts)]
    exact fun rest => (h.append _ rest).bind

theorem commaList_later {item : QueryReader α} {spelt : α → List Char → Prop}
    (hitem : ReadsItems item spelt) {a : α} {t : List Char} (ha : spelt a t)
    {ts : List (List Char)} (hts : ts ≠ []) (h : TooDeep (commaList item) (commaSeparated ts)) :
    TooDeep (commaList item) (commaSeparated (t :: ts)) := by
  intro rest
  have hends : EndsItem (',' :: ' ' :: (commaSeparated ts ++ rest)) := endsItem_comma blanks_nil _
  obtain ⟨between, hrun, hsame⟩ := hitem ha hends
  rw [dropWhile_nonblank (by decide)] at hsame
  rw [commaSeparated_cons t hts, List.append_assoc, List.cons_append, List.cons_append, commaList,
    run_bind_ok hrun]
  refine RunsOut.bind ?_
  rw [run_many, manyRun_comma hsame]
  exact h rest

end Reader

namespace Grammar
open Reader Spelling

variable {mode : Mode} {inner : Nested}

theorem unary_not_tooDeep {t : List Char} (h : TooDeep inner.unary t) :
    TooDeep (unary mode inner) ('!' :: t) := by
  intro rest
  rw [List.cons_append, dropWhile_nonblank (by decide), unary_not]
  exact (h rest).map _

theorem unary_negate_tooDeep {t : List Char} (h : TooDeep inner.unary t) {c : Char}
    {tail : List Char} (ht : t = c :: tail) (hc : c.isDigit = false) :
    TooDeep (unary mode inner) ('-' :: t) := by
  intro rest
  have hhead : ∀ d ∈ (t ++ rest).head?, d.isDigit = false := by
    rw [ht]
    rintro d ⟨⟩
    exact hc
  rw [List.cons_append, dropWhile_nonblank (by decide), unary_negate hhead]
  exact (h rest).map _

theorem unary_enclosed_tooDeep {t : List Char} (h : TooDeep inner.expression t) :
    TooDeep (unary mode inner) (enclosed t) := by
  intro rest
  rw [enclosed, List.cons_append, List.append_assoc, dropWhile_nonblank (by decide)]
  change RunsOut ((blanks >>= fun _ => inner.expression >>= fun e => blanks >>= fun _ =>
    expect ')' >>= fun _ => pure e).run (t ++ ([')'] ++ rest)))
  rw [run_bind_ok (run_blanks _)]
  exact (h _).bind

theorem unary_call_tooDeep {name : String} (hname : Name.isShorthand name.toList = true)
    {t : List Char} (h : TooDeep inner.arguments ('(' :: t)) :
    TooDeep (unary mode inner) (name.toList ++ '(' :: t) := by
  intro rest
  have hopens : Opens (name.toList ++ '(' :: t) := by
    obtain ⟨c, tail, hcons, hc, -⟩ := name_cons hname
    rw [hcons]
    exact opens_first hc _
  rw [hopens.dropWhile, List.append_assoc, List.cons_append, unary_call hname]
  have hargs := h rest
  rw [List.cons_append, dropWhile_nonblank (by decide)] at hargs
  exact hargs.map _

theorem unary_query_tooDeep (start : Start) {t : List Char}
    (h : ∀ rest, RunsOut ((segments mode inner).run (t ++ rest))) :
    TooDeep (unary mode inner) (start.char :: t) := by
  intro rest
  have hblank : isBlank start.char = false := by cases start <;> rfl
  rw [List.cons_append, dropWhile_nonblank hblank, unary_query]
  exact (h rest).bind

theorem tier_tooDeep {h h' : Nat} {t : List Char} (htier : TooDeep (tier mode inner h) t)
    (hle : h ≤ h') : TooDeep (tier mode inner h') t := by
  induction h', hle using Nat.le_induction with
  | base => exact htier
  | succ k _ ih =>
    intro rest
    rw [tier, chain, run_bind_ok (run_remaining _)]
    exact (ih rest).bind

theorem operation_tooDeep {operand : QueryReader Expr} {t : List Char} (h : TooDeep operand t)
    (op : BinaryOp) (start rest : List Char) (first : Expr) :
    RunsOut ((operation mode operand start first).run
      (' ' :: (op.chars ++ ' ' :: (t ++ rest)))) := by
  have hoperator : operator.run (op.chars ++ ' ' :: (t ++ rest)) = .ok (op, ' ' :: (t ++ rest)) :=
    operator_run op (by rintro c ⟨⟩; decide)
  have hblanks : (' ' :: (op.chars ++ ' ' :: (t ++ rest))).dropWhile isBlank =
      op.chars ++ ' ' :: (t ++ rest) :=
    operator_blanks blank_space op _
  rw [operation, run_bind_ok (run_blanks _), hblanks, run_bind_ok hoperator,
    run_bind_ok (run_blanks _), run_bind_ok (run_remaining _)]
  exact (h rest).bind

/-- Where the left operand is read and no level is left for the right one, the chain they are part
of cannot be read. -/
theorem right_tooDeep {h : Nat} {op : BinaryOp} {l : Expr} {t t' : List Char} (hopens : Opens t)
    (hl : JoinsAt mode inner h l t) (hr : TooDeep (tier mode inner h) t')
    (hlevel : op.level + h = 4) :
    TooDeep (tier mode inner (h + 1)) (t ++ ' ' :: (op.chars ++ ' ' :: t')) := by
  intro rest
  have htext : t ++ ' ' :: (op.chars ++ ' ' :: t') ++ rest =
      t ++ ' ' :: (op.chars ++ ' ' :: (t' ++ rest)) := by
    simp
  rw [htext, hopens.dropWhile]
  have hafter : ∀ c ∈ (' ' :: (t' ++ rest)).head?, c ≠ '=' := by
    rintro c ⟨⟩
    decide
  have hends : EndsOperand mode (' ' :: (op.chars ++ ' ' :: (t' ++ rest))) :=
    endsOperand_operator blank_space (by simp) _
  have hbelow : Below h (' ' :: (op.chars ++ ' ' :: (t' ++ rest))) :=
    below_blanks blank_space hafter hlevel
  have hfollows : operatorFollows (4 - h) (' ' :: (op.chars ++ ' ' :: (t' ++ rest))) = true :=
    operatorFollows_blanks blank_space hafter hlevel
  obtain ⟨first, between, later, hfirst, -, -, hmany⟩ := hl _ hends hbelow
  rw [tier, chain, run_bind_ok (run_remaining _), run_bind_ok hfirst]
  refine RunsOut.bind ?_
  obtain ⟨tail, herror⟩ := RunsOut.many hfollows (operation_tooDeep hr op _ rest first)
  exact ⟨tail, by rw [run_many, hmany, herror]; rfl⟩

theorem bracketed_tooDeep {t : List Char} (h : TooDeep (commaList (selector mode inner)) t)
    (rest : List Char) : RunsOut ((bracketed mode inner).run ('[' :: (t ++ [']']) ++ rest)) := by
  have hopen : ∀ input, (expect '[').run ('[' :: input) = .ok ((), input) :=
    fun _ => run_expect_eq_ok.mpr rfl
  have hlist := h ([']'] ++ rest)
  rw [← List.append_assoc] at hlist
  rw [List.cons_append, bracketed, run_bind_ok (run_remaining _), run_bind_ok (hopen _),
    run_bind_ok (run_blanks _), run_bind_ok (run_peek _)]
  split
  · next hclose =>
    -- a bracket that closes at once would be no selector
    obtain ⟨more, hmore⟩ := List.head?_eq_some_iff.mp hclose
    rw [hmore] at hlist
    obtain ⟨_, hselector⟩ := hlist
    cases hselector
  · exact hlist.bind

theorem arguments_tooDeep {t : List Char} (h : TooDeep (commaList (expression mode inner)) t) :
    TooDeep (arguments mode inner) (enclosed t) := by
  intro rest
  have hopen : ∀ input, (expect '(').run ('(' :: input) = .ok ((), input) :=
    fun _ => run_expect_eq_ok.mpr rfl
  have hlist := h ([')'] ++ rest)
  rw [← List.append_assoc] at hlist
  rw [enclosed, List.cons_append, dropWhile_nonblank (by decide), arguments,
    run_bind_ok (hopen _), run_bind_ok (run_blanks _), run_bind_ok (run_peek _)]
  split
  · next hclose =>
    obtain ⟨more, hmore⟩ := List.head?_eq_some_iff.mp hclose
    rw [hmore] at hlist
    obtain ⟨_, hexpression⟩ := hlist
    cases hexpression
  · exact hlist.bind

theorem segmentFollows_chars (s : Segment) (rest : List Char) :
    segmentFollows (s.chars ++ rest) = true := by
  cases s <;> rfl

theorem endsName_segmentChars {ss : List Segment} (hss : ss ≠ []) (rest : List Char) :
    EndsName mode (segmentChars ss ++ rest) := by
  match ss with
  | [] => exact absurd rfl hss
  | .children _ :: _ => exact endsName_of_head (.inr (.inr rfl)) _
  | .descendants _ :: _ => exact endsName_of_head (.inr (.inl rfl)) _

/-- With fewer levels than the canonical text nests no level is left at some point of it. -/
def NeedsLevels (mode : Mode) (e : Expr) : Prop :=
  ∀ levels, levels < e.nesting → ∀ h, 5 ≤ e.level + h →
    TooDeep (tier mode (nested mode levels) h) e.chars

theorem needsLevels_of_unary {e : Expr}
    (h : ∀ levels, levels < e.nesting → TooDeep (unary mode (nested mode levels)) e.chars) :
    NeedsLevels mode e :=
  fun levels hlevels height _ => tier_tooDeep (h := 0) (h levels hlevels) (Nat.zero_le height)

theorem NeedsLevels.expression {e : Expr} (h : NeedsLevels mode e) {levels : Nat}
    (hlevels : levels < e.nesting + 1) : TooDeep (nested mode levels).expression e.chars := by
  cases levels with
  | zero => exact fun _ => ⟨_, rfl⟩
  | succ m => exact h m (by omega) 5 (by omega)

theorem NeedsLevels.enclosed {e : Expr} (h : NeedsLevels mode e) {levels : Nat}
    (hlevels : levels < e.nesting + 1) (height : Nat) :
    TooDeep (tier mode (nested mode levels) height) (enclosed e.chars) :=
  tier_tooDeep (h := 0) (unary_enclosed_tooDeep (h.expression hlevels)) (Nat.zero_le height)

theorem NeedsLevels.operand {e : Expr} (h : NeedsLevels mode e) {levels : Nat}
    (hlevels : levels <
      (if e.isNumeral || e.isBinary then e.nesting + 1 else e.nesting) + 1) :
    TooDeep (nested mode levels).unary
      (if e.isNumeral || e.isBinary then JsonPath.enclosed e.chars else e.chars) := by
  cases levels with
  | zero => exact fun _ => ⟨_, rfl⟩
  | succ m =>
    split
    · next hparen =>
      rw [if_pos hparen] at hlevels
      exact h.enclosed (by omega) 0
    · next hplain =>
      rw [if_neg hplain] at hlevels
      have hlevel : e.level = 5 := by
        cases e with
        | binary op l r => simp [Expr.isBinary] at hplain
        | _ => rfl
      exact h m (by omega) 0 (by omega)

theorem NeedsLevels.atHeight {e : Expr} (h : NeedsLevels mode e) {levels height : Nat} {c : Prop}
    [Decidable c] (hc : ¬ c → 5 ≤ e.level + height)
    (hlevels : levels < if c then e.nesting + 1 else e.nesting) :
    TooDeep (tier mode (nested mode levels) height)
      (if c then JsonPath.enclosed e.chars else e.chars) := by
  split
  · next hparen =>
    rw [if_pos hparen] at hlevels
    exact h.enclosed hlevels height
  · next hplain =>
    rw [if_neg hplain] at hlevels
    exact h levels hlevels height (hc hplain)

theorem operand_cons {e : Expr} (hwf : e.WellFormed mode (ReadBack mode)) :
    ∃ c tail, (if e.isNumeral || e.isBinary then enclosed e.chars else e.chars) = c :: tail ∧
      c.isDigit = false := by
  have hhead := operand_head hwf
  split at hhead
  · next hparen => exact ⟨'(', e.chars ++ [')'], if_pos hparen, by decide⟩
  · next hplain =>
    have hbinary : e.isBinary = false := by simp_all
    obtain ⟨c, tail, hchars, -⟩ :=
      ofUnary_opens ((expr_spelt e hwf e.nesting (Nat.le_refl _)).1 hbinary)
    exact ⟨c, tail, (if_neg hplain).trans hchars, hhead c (by rw [hchars]; rfl)⟩

theorem binary_needsLevels {op : BinaryOp} {l r : Expr} (hspelt : Spelt mode l)
    (hl : NeedsLevels mode l) (hr : NeedsLevels mode r) : NeedsLevels mode (.binary op l r) := by
  intro levels hlevels h hh
  have hfour : op.level ≤ 4 := by cases op <;> decide
  have hheight : op.level + (4 - op.level) = 4 := by omega
  have hle : 4 - op.level + 1 ≤ h := by
    have hop : (Expr.binary op l r).level = op.level := rfl
    omega
  refine tier_tooDeep ?_ hle
  rw [Expr.nesting] at hlevels
  rw [Expr.chars]
  by_cases hleft : levels < if l.level < op.level then l.nesting + 1 else l.nesting
  -- without parentheses the left operand begins the chain that the operator belongs to
  · exact (hl.atHeight (fun _ => by omega) hleft).append _
  · have hright : levels < if r.level ≤ op.level then r.nesting + 1 else r.nesting := by
      omega
    have hread := hspelt.atLevel op.level (fun h => Nat.le_of_not_lt h) (Nat.le_of_not_lt hleft)
    obtain ⟨hopens, hjoins⟩ := ofExpr_joins (nested_reads mode levels) hread hheight
    exact right_tooDeep hopens hjoins (hr.atHeight (fun _ => by omega) hright) hheight

mutual
theorem segment_tooDeep {levels : Nat} (s : Segment) (hwf : s.WellFormed mode (ReadBack mode))
    (hlevels : levels < s.nesting) (rest : List Char) :
    RunsOut ((segment mode (nested mode levels)).run (s.chars ++ rest)) := by
  match s with
  | .children ss =>
    have hlist := bracketed_tooDeep (selectors_tooDeep ss hwf.2 hlevels) rest
    rw [Segment.chars, List.cons_append, segment_other (by decide) (by decide)]
    exact hlist.map _
  | .descendants ss =>
    have hlist := bracketed_tooDeep (selectors_tooDeep ss hwf.2 hlevels) rest
    rw [Segment.chars, List.cons_append, List.cons_append, segment_dots]
    exact RunsOut.map _ hlist

theorem selectors_tooDeep {levels : Nat} (ss : List Selector)
    (hwf : SelectorsWellFormed mode (ReadBack mode) ss) (hlevels : levels < selectorsNesting ss) :
    TooDeep (commaList (selector mode (nested mode levels)))
      (commaSeparated (selectorTexts ss)) := by
  match ss with
  | [] => cases hlevels
  | s :: rest =>
    rw [selectorsNesting] at hlevels
    rw [selectorTexts]
    by_cases hfirst : levels < s.nesting
    · exact commaList_first (selector_tooDeep s hwf.1 hfirst) _
    · have hrest : levels < selectorsNesting rest := by omega
      have hspelt := selector_spelt s hwf.1 (Nat.le_of_not_lt hfirst)
      have hsome : selectorTexts rest ≠ [] := by
        cases rest with
        | nil => cases hrest
        | cons _ _ => exact List.cons_ne_nil _ _
      exact commaList_later (selector_run (nested_reads mode levels).expression) hspelt hsome
        (selectors_tooDeep rest hwf.2 hrest)

theorem selector_tooDeep {levels : Nat} (s : Selector)
    (hwf : s.WellFormed mode (ReadBack mode)) (hlevels : levels < s.nesting) :
    TooDeep (selector mode (nested mode levels)) s.chars := by
  match s with
  | .wildcard | .member _ | .index _ | .slice _ _ _ => cases hlevels
  | .filter e =>
    intro rest
    have hcondition := (expr_needsLevels e hwf).expression hlevels rest
    exact RunsOut.map _ hcondition

theorem segments_tooDeep {levels : Nat} (ss : List Segment)
    (hwf : SegmentsWellFormed mode (ReadBack mode) ss) (hlevels : levels < segmentsNesting ss)
    (rest : List Char) :
    RunsOut ((segments mode (nested mode levels)).run (segmentChars ss ++ rest)) := by
  match ss with
  | [] => cases hlevels
  | s :: ss =>
    rw [segmentsNesting] at hlevels
    rw [segmentChars, List.append_assoc]
    have hfollows := segmentFollows_chars s (segmentChars ss ++ rest)
    by_cases hfirst : levels < s.nesting
    · exact RunsOut.many hfollows (segment_tooDeep s hwf.1 hfirst _)
    · have hspelt := segment_spelt s hwf.1 (Nat.le_of_not_lt hfirst)
      have hnil : ss ≠ [] := by
        rintro rfl
        exact hfirst (by simpa [segmentsNesting] using hlevels)
      have hrun := segment_run (nested_reads mode levels).expression blanks_nil hspelt
        (endsName_segmentChars hnil rest)
      exact RunsOut.many_cons hfollows hrun (segments_tooDeep ss hwf.2 (by omega) rest)

theorem expr_needsLevels (e : Expr) (hwf : e.WellFormed mode (ReadBack mode)) :
    NeedsLevels mode e := by
  match e with
  | .null | .bool _ | .integer _ | .float _ | .string _ | .variable _ =>
    intro levels hlevels
    cases hlevels
  | .query ⟨start, ss⟩ =>
    exact needsLevels_of_unary fun levels hlevels =>
      unary_query_tooDeep start (segments_tooDeep ss hwf.2 hlevels)
  | .singular ⟨start, ss⟩ =>
    exact needsLevels_of_unary fun levels hlevels =>
      unary_query_tooDeep start (segments_tooDeep ss hwf.2 hlevels)
  | .call f args =>
    refine needsLevels_of_unary fun levels hlevels => unary_call_tooDeep hwf.1 ?_
    rw [Expr.nesting] at hlevels
    cases levels with
    | zero => exact fun _ => ⟨_, rfl⟩
    | succ m => exact arguments_tooDeep (callArguments_tooDeep args hwf.2 (by omega))
  | .not e =>
    have he := expr_needsLevels e hwf
    exact needsLevels_of_unary fun levels hlevels => unary_not_tooDeep (he.operand hlevels)
  | .negate e =>
    have he := expr_needsLevels e hwf
    obtain ⟨c, tail, htext, hc⟩ := operand_cons (e := e) hwf
    exact needsLevels_of_unary fun levels hlevels =>
      unary_negate_tooDeep (he.operand hlevels) htext hc
  | .binary op l r =>
    exact binary_needsLevels (expr_spelt l hwf.1) (expr_needsLevels l hwf.1)
      (expr_needsLevels r hwf.2.1)

theorem callArguments_tooDeep {levels : Nat} (es : List Expr)
    (hwf : ArgumentsWellFormed mode (ReadBack mode) es) (hlevels : levels < argumentsNesting es) :
    TooDeep (commaList (expression mode (nested mode levels)))
      (commaSeparated (argumentTexts es)) := by
  match es with
  | [] => cases hlevels
  | e :: rest =>
    rw [argumentsNesting] at hlevels
    rw [argumentTexts]
    by_cases hfirst : levels < e.nesting
    · exact commaList_first (expr_needsLevels e hwf.1 levels hfirst 5 (by omega)) _
    · have hrest : levels < argumentsNesting rest := by omega
      have hspelt := (expr_spelt e hwf.1 levels (Nat.le_of_not_lt hfirst)).2.lower (Nat.zero_le _)
      have hsome : argumentTexts rest ≠ [] := by
        cases rest with
        | nil => cases hrest
        | cons _ _ => exact List.cons_ne_nil _ _
      exact commaList_later (expression_run (nested_reads mode levels)) hspelt hsome
        (callArguments_tooDeep rest hwf.2 hrest)
end

end Grammar

open Reader

/-- A well-formed query whose canonical text nests beyond the limit is refused for that. -/
theorem Path.parse_text_tooDeep {mode : Mode} {p : Path} (hroot : p.start = .root)
    (hwf : p.WellFormed mode (Spelling.ReadBack mode)) (hnesting : maxNesting < p.nesting) :
    ∃ position, Path.parse p.text mode = .error ⟨position, .nestingTooDeep⟩ := by
  obtain ⟨start, ss⟩ := p
  cases hroot
  have hsegments := Grammar.segments_tooDeep ss hwf hnesting []
  rw [List.append_nil] at hsegments
  have hquery : RunsOut ((Grammar.query mode).run ('$' :: segmentChars ss)) := by
    have hstart : (Grammar.lenientBlanks mode).run ([] ++ '$' :: segmentChars ss) =
        .ok ((), '$' :: segmentChars ss) :=
      Grammar.lenientBlanks_run blanks_nil (fun _ => rfl) (by rintro c ⟨⟩; decide)
    rw [List.nil_append] at hstart
    rw [Grammar.query, run_bind_ok hstart, run_bind_ok (run_accept_self '$' _), if_pos rfl]
    exact hsegments.bind
  obtain ⟨tail, hrun⟩ := hquery
  have htext : (Path.mk .root ss).text.toList = '$' :: segmentChars ss := String.toList_ofList
  rw [Path.parse, Reader.parse, htext, hrun]
  exact ⟨_, rfl⟩

section
variable {mode : Mode} {literal literal' : Float → Prop}

mutual
theorem Segment.wellFormed_of_everywhere (s : Segment) (hwf : s.WellFormed mode literal)
    (h : s.Everywhere fun e => ∀ x, e = .float x → literal' x) : s.WellFormed mode literal' := by
  match s with
  | .children ss => exact ⟨hwf.1, selectorsWellFormed_of_everywhere ss hwf.2 h⟩
  | .descendants ss => exact ⟨hwf.1, selectorsWellFormed_of_everywhere ss hwf.2 h⟩

theorem selectorsWellFormed_of_everywhere (ss : List Selector)
    (hwf : SelectorsWellFormed mode literal ss)
    (h : SelectorsEverywhere (fun e => ∀ x, e = .float x → literal' x) ss) :
    SelectorsWellFormed mode literal' ss := by
  match ss with
  | [] => trivial
  | s :: rest =>
    exact ⟨Selector.wellFormed_of_everywhere s hwf.1 h.1,
      selectorsWellFormed_of_everywhere rest hwf.2 h.2⟩

theorem Selector.wellFormed_of_everywhere (s : Selector) (hwf : s.WellFormed mode literal)
    (h : s.Everywhere fun e => ∀ x, e = .float x → literal' x) : s.WellFormed mode literal' := by
  match s with
  | .filter e => exact Expr.wellFormed_of_everywhere e hwf h
  | .wildcard | .member _ | .index _ | .slice _ _ _ => exact hwf

theorem segmentsWellFormed_of_everywhere (ss : List Segment)
    (hwf : SegmentsWellFormed mode literal ss)
    (h : SegmentsEverywhere (fun e => ∀ x, e = .float x → literal' x) ss) :
    SegmentsWellFormed mode literal' ss := by
  match ss with
  | [] => trivial
  | s :: rest =>
    exact ⟨Segment.wellFormed_of_everywhere s hwf.1 h.1,
      segmentsWellFormed_of_everywhere rest hwf.2 h.2⟩

theorem Path.wellFormed_of_everywhere (p : Path) (hwf : p.WellFormed mode literal)
    (h : p.Everywhere fun e => ∀ x, e = .float x → literal' x) : p.WellFormed mode literal' := by
  match p with
  | ⟨_, ss⟩ => exact segmentsWellFormed_of_everywhere ss hwf h

theorem Expr.wellFormed_of_everywhere (e : Expr) (hwf : e.WellFormed mode literal)
    (h : e.Everywhere fun e => ∀ x, e = .float x → literal' x) : e.WellFormed mode literal' := by
  match e with
  | .null | .bool _ | .integer _ | .string _ | .variable _ => exact hwf
  | .float x => exact h x rfl
  | .query p => exact ⟨hwf.1, Path.wellFormed_of_everywhere p hwf.2 h.2⟩
  | .singular p => exact ⟨hwf.1, Path.wellFormed_of_everywhere p hwf.2 h.2⟩
  | .call f args => exact ⟨hwf.1, argumentsWellFormed_of_everywhere args hwf.2 h.2⟩
  | .not e => exact Expr.wellFormed_of_everywhere e hwf h.2
  | .negate e => exact Expr.wellFormed_of_everywhere e hwf h.2
  | .binary op l r =>
    exact ⟨Expr.wellFormed_of_everywhere l hwf.1 h.2.1,
      Expr.wellFormed_of_everywhere r hwf.2.1 h.2.2, hwf.2.2⟩

theorem argumentsWellFormed_of_everywhere (es : List Expr)
    (hwf : ArgumentsWellFormed mode literal es)
    (h : ArgumentsEverywhere (fun e => ∀ x, e = .float x → literal' x) es) :
    ArgumentsWellFormed mode literal' es := by
  match es with
  | [] => trivial
  | e :: rest =>
    exact ⟨Expr.wellFormed_of_everywhere e hwf.1 h.1,
      argumentsWellFormed_of_everywhere rest hwf.2 h.2⟩
end

end

theorem argumentsNesting_le {es : List Expr} {n : Nat} (h : ∀ e ∈ es, e.nesting ≤ n) :
    argumentsNesting es ≤ n := by
  induction es with
  | nil => exact Nat.zero_le n
  | cons e rest ih =>
    rw [List.forall_mem_cons] at h
    exact Nat.max_le.mpr ⟨h.1, ih h.2⟩

theorem selectorsNesting_le {ss : List Selector} {n : Nat}
    (h : ∀ e ∈ ss.filterMap Selector.condition?, e.nesting < n) : selectorsNesting ss ≤ n := by
  induction ss with
  | nil => exact Nat.zero_le n
  | cons s rest ih =>
    cases s with
    | filter e =>
      rw [filterMap_condition, List.forall_mem_cons] at h
      exact Nat.max_le.mpr ⟨h.1, ih h.2⟩
    | _ => exact Nat.max_le.mpr ⟨Nat.zero_le n, ih h⟩

theorem segmentsNesting_le {ss : List Segment} {n : Nat}
    (h : ∀ e ∈ conditions ss, e.nesting < n) : segmentsNesting ss ≤ n := by
  induction ss with
  | nil => exact Nat.zero_le n
  | cons s rest ih =>
    rw [conditions, List.flatMap_cons, List.forall_mem_append] at h
    refine Nat.max_le.mpr ⟨?_, ih h.2⟩
    cases s with
    | children ss => exact selectorsNesting_le h.1
    | descendants ss => exact selectorsNesting_le h.1

/-- What is read with so many levels left nests in canonical text as often at most, and less often
if it has parentheses of its own there. -/
structure NestsWithin (levels height : Nat) (e : Expr) : Prop where
  pos : 0 < levels
  nesting : e.nesting ≤ levels
  enclosed : e.level + height < 5 → e.nesting < levels

namespace NestsWithin

theorem of_unary {levels height : Nat} {e : Expr} (hlevel : e.level = 5)
    (hnesting : e.nesting ≤ levels + 1) : NestsWithin (levels + 1) height e :=
  ⟨Nat.succ_pos levels, hnesting, fun h => by omega⟩

theorem operand {levels : Nat} {e : Expr} (h : NestsWithin levels 0 e) :
    (if e.isNumeral || e.isBinary then e.nesting + 1 else e.nesting) ≤ levels := by
  have hpos := h.pos
  have hnesting := h.nesting
  have henclosed := h.enclosed
  cases e with
  | integer n => exact hpos
  | float x => exact hpos
  | binary op l r =>
    have hlevel : op.level < 5 := by cases op <;> decide
    exact henclosed hlevel
  | _ => exact hnesting

theorem ofPath {levels : Nat} {start : Start} {ss : List Segment}
    (h : segmentsNesting ss ≤ levels + 1) :
    NestsWithin (levels + 1) 0 (Expr.ofPath ⟨start, ss⟩) := by
  rw [Expr.ofPath]
  split
  · exact of_unary rfl h
  · exact of_unary rfl h

theorem keyword (levels : Nat) (name : String) :
    NestsWithin (levels + 1) 0 (Grammar.keyword name) := by
  rw [Grammar.keyword]
  split_ifs <;> exact of_unary rfl (Nat.zero_le _)

end NestsWithin

theorem Grammar.nesting_invariant (mode : Mode) : Invariant mode NestsWithin where
  number levels := by
    intro input rest e hrun
    have hnumeral := Reader.number_isNumeral mode hrun
    cases e with
    | integer n => exact .of_unary rfl (Nat.zero_le _)
    | float x => exact .of_unary rfl (Nat.zero_le _)
    | _ => cases hnumeral
  string levels s := .of_unary rfl (Nat.zero_le _)
  keyword levels name _ := .keyword levels name
  query start ss t h := .ofPath (segmentsNesting_le fun e he =>
    Nat.lt_succ_of_le (h.conditions e he).nesting)
  call _ hargs := .of_unary rfl (Nat.succ_le_succ (argumentsNesting_le fun e he =>
    (hargs e he).nesting))
  not h := .of_unary rfl (Nat.succ_le_succ h.operand)
  negate h := .of_unary rfl (Nat.succ_le_succ h.operand)
  enclosed h := ⟨Nat.succ_pos _, Nat.le_succ_of_le h.nesting, fun _ => Nat.lt_succ_of_le h.nesting⟩
  lift h := ⟨h.pos, h.nesting, fun hlevel => h.enclosed (by omega)⟩
  join hl hr hlevel _ := by
    refine ⟨hl.pos, Nat.max_le.mpr ⟨?_, ?_⟩, fun h => ?_⟩
    · split
      · next hparen => exact hl.enclosed (by omega)
      · exact hl.nesting
    · split
      · next hparen => exact hr.enclosed (by omega)
      · exact hr.nesting
    · rw [Expr.level] at h
      omega

/-- An accepted query is read back from its canonical text unless that text nests beyond the limit.
It can do so by one level, and is then refused. -/
theorem Path.parse_text_of_accepted {text : String} {mode : Mode} {p : Path}
    (h : Path.parse text mode = .ok p)
    (hfloats : p.Everywhere fun e => ∀ x, e = .float x → Spelling.ReadBack mode x) :
    p.nesting ≤ maxNesting + 1 ∧
      (p.nesting ≤ maxNesting → Path.parse p.text mode = .ok p) ∧
      (p.nesting = maxNesting + 1 →
        ∃ position, Path.parse p.text mode = .error ⟨position, .nestingTooDeep⟩) := by
  obtain ⟨start, ss⟩ := p
  obtain ⟨hroot, _, haccepted⟩ := (Grammar.accepted_invariant mode).path h
  obtain ⟨-, _, hnests⟩ := (Grammar.nesting_invariant mode).path h
  have hwf := segmentsWellFormed_of_everywhere ss haccepted.accepted.1 hfloats
  have hnesting : segmentsNesting ss ≤ maxNesting + 1 :=
    segmentsNesting_le fun e he => Nat.lt_succ_of_le (hnests.conditions e he).nesting
  refine ⟨hnesting, fun hwithin => ?_, fun hbeyond => ?_⟩
  · refine Grammar.parse_eq_ok_iff.mpr ⟨[], ?_⟩
    rw [Path.text, String.toList_ofList]
    exact Grammar.query_run (Grammar.nested_reads mode maxNesting).expression
      (Spelling.path_spelt hroot hwf hwithin)
  · exact Path.parse_text_tooDeep hroot hwf (Nat.le_of_eq hbeyond.symm)

theorem Path.parse_text_of_accepted_operators :
    let p : Path := ⟨.root, [.children [.filter (.binary .and
      (.not (.binary .less (.singular ⟨.current, [.children [.member "a"]]⟩) (.float 1.5)))
      (.call "f" [.negate (.integer 2)]))]]⟩
    p.text = "$[?!(@['a'] < 1.5) && f(-(2))]" ∧ Path.parse p.text .strict = .ok p := by
  intro p
  have hread : Path.parse "$[?!(@.a<1.5) && f(- 2)]" .strict = .ok p := by with_unfolding_all rfl
  have hfloat : Spelling.ReadBack .strict 1.5 := ⟨by rfl, by rfl⟩
  have hfloats : p.Everywhere fun e => ∀ x, e = .float x → Spelling.ReadBack .strict x := by
    simp only [p, Path.Everywhere, SegmentsEverywhere, Segment.Everywhere, SelectorsEverywhere,
      Selector.Everywhere, Expr.Everywhere, ArgumentsEverywhere]
    simp [hfloat]
  exact ⟨by rfl, (Path.parse_text_of_accepted hread hfloats).2.1 (by decide)⟩

theorem Spelling.nots_spelt (mode : Mode) (n : Nat) :
    OfUnary mode (grammar mode n) (Expr.not^[n] (.integer 4)) (List.replicate n '!' ++ ['4']) := by
  induction n with
  | zero =>
    have hfits : Word.fits 4 = true := by decide
    have hchars : Decimal.intChars 4 = ['4'] := by decide
    rw [List.replicate_zero, List.nil_append, ← hchars]
    exact .number (Reader.number_intChars hfits)
  | succ n ih =>
    rw [Function.iterate_succ_apply', List.replicate_succ, List.cons_append]
    exact .not (b := []) blanks_nil ih

theorem Expr.nots_wellFormed (mode : Mode) (literal : Float → Prop) (n : Nat) :
    (Expr.not^[n] (.integer 4)).WellFormed mode literal := by
  induction n with
  | zero =>
    have hfits : Word.fits 4 = true := by decide
    exact hfits
  | succ n ih =>
    rw [Function.iterate_succ_apply']
    exact ih

theorem Expr.nots_nesting (n : Nat) : (Expr.not^[n + 1] (.integer 4)).nesting = n + 2 := by
  induction n with
  | zero => rfl
  | succ n ih =>
    have hplain : ((Expr.not^[n + 1] (.integer 4)).isNumeral ||
        (Expr.not^[n + 1] (.integer 4)).isBinary) = false := by
      rw [Function.iterate_succ_apply']
      rfl
    rw [Function.iterate_succ_apply', Expr.nesting, hplain, ih]
    rfl

/-- An accepted query whose canonical text is refused: the parentheses that it has around the
numeral are one level too many. -/
theorem Path.parse_text_nots :
    let text := String.ofList ('$' :: '[' :: '?' :: (List.replicate 127 '!' ++ ['4'] ++ [']']))
    let p : Path := ⟨.root, [.children [.filter (Expr.not^[127] (.integer 4))]]⟩
    Path.parse text .strict = .ok p ∧
      ∃ position, Path.parse p.text .strict = .error ⟨position, .nestingTooDeep⟩ := by
  intro text p
  have hspelt := Spelling.nots_spelt .strict 127
  have hwf := Expr.nots_wellFormed .strict (Spelling.ReadBack .strict) 127
  have hnesting : p.nesting = maxNesting + 1 := by
    change max (max ((Expr.not^[126 + 1] (.integer 4)).nesting + 1) 0) 0 = maxNesting + 1
    rw [Expr.nots_nesting]
    rfl
  refine ⟨Grammar.parse_filter (.unary hspelt), ?_⟩
  exact Path.parse_text_tooDeep rfl ⟨⟨by simp, hwf, trivial⟩, trivial⟩ (Nat.le_of_eq hnesting.symm)

end JsonPath
