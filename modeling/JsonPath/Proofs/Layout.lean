import JsonPath.Proofs.RoundTrip

set_option autoImplicit false

/-!
# Parentheses and blanks in conditions

The text of an expression may have parentheses around every operand and every argument, and blanks
wherever the grammar has a seam. Such a text spells the same expression as the canonical one,
whatever the blanks are, as long as the parentheses do not nest too deep.
-/
namespace JsonPath
open Spelling

/-- The kinds of places where blanks may stand. The parentheses of an argument list are not those of
an operand. -/
inductive Seam where
  | afterQuestion
  | afterOpening
  | beforeClosing
  | afterPrefix
  | beforeOperator
  | afterOperator
  | afterListOpening
  | beforeListClosing
  | beforeComma
  | afterComma
  deriving DecidableEq

/-- Blanks for all seams of a text. A construct is told by the turns that lead to it, each to the
first part of what is around it (`false`) or to the rest (`true`). -/
structure Layout where
  chars : List Bool → Seam → List Char
  blank : ∀ turns seam, Blanks (chars turns seam)

namespace Layout

def gap (layout : Layout) (seam : Seam) : List Char := layout.chars [] seam

def first (layout : Layout) : Layout :=
  ⟨fun turns => layout.chars (false :: turns), fun turns => layout.blank (false :: turns)⟩

def rest (layout : Layout) : Layout :=
  ⟨fun turns => layout.chars (true :: turns), fun turns => layout.blank (true :: turns)⟩

def enclosed (layout : Layout) (t : List Char) : List Char :=
  '(' :: (layout.gap .afterOpening ++ (t ++ (layout.gap .beforeClosing ++ [')'])))

def separated (layout : Layout) : List (List Char) → List Char
  | [] => []
  | [item] => item
  | item :: items =>
    item ++ (layout.gap .beforeComma ++ ',' :: (layout.gap .afterComma ++
      layout.rest.separated items))

theorem blanks_gap (layout : Layout) (seam : Seam) : Blanks (layout.gap seam) :=
  layout.blank [] seam

end Layout

mutual
def Segment.spread (layout : Layout) : Segment → List Char
  | .children ss => '[' :: (commaSeparated (selectorSpreads layout ss) ++ [']'])
  | .descendants ss => '.' :: '.' :: '[' :: (commaSeparated (selectorSpreads layout ss) ++ [']'])

def selectorSpreads (layout : Layout) : List Selector → List (List Char)
  | [] => []
  | s :: rest => s.spread layout.first :: selectorSpreads layout.rest rest

def Selector.spread (layout : Layout) : Selector → List Char
  | .filter e => '?' :: (layout.gap .afterQuestion ++ e.spread layout)
  | s => s.chars

def segmentsSpread (layout : Layout) : List Segment → List Char
  | [] => []
  | s :: rest => s.spread layout.first ++ segmentsSpread layout.rest rest

def Path.spread (layout : Layout) : Path → List Char
  | ⟨start, ss⟩ => start.char :: segmentsSpread layout ss

/-- The text of an expression with parentheses around all operands and arguments in it. -/
def Expr.spread (layout : Layout) : Expr → List Char
  | .query p => p.spread layout
  | .singular p => p.spread layout
  | .call f args =>
    f.toList ++ '(' :: (layout.gap .afterListOpening ++
      (layout.separated (argumentSpreads layout args) ++ (layout.gap .beforeListClosing ++ [')'])))
  | .not e => '!' :: (layout.gap .afterPrefix ++ layout.first.enclosed (e.spread layout.first))
  | .negate e => '-' :: (layout.gap .afterPrefix ++ layout.first.enclosed (e.spread layout.first))
  | .binary op l r =>
    layout.first.enclosed (l.spread layout.first) ++ (layout.gap .beforeOperator ++ (op.chars ++
      (layout.gap .afterOperator ++ layout.rest.enclosed (r.spread layout.rest))))
  | e => e.chars

def argumentSpreads (layout : Layout) : List Expr → List (List Char)
  | [] => []
  | e :: rest =>
    layout.first.enclosed (e.spread layout.first) :: argumentSpreads layout.rest rest
end

/-! Filters, calls, prefix operators and parentheses each count as one level of nesting in that
text. -/

mutual
def Segment.spreadNesting : Segment → Nat
  | .children ss => selectorsSpreadNesting ss
  | .descendants ss => selectorsSpreadNesting ss

def selectorsSpreadNesting : List Selector → Nat
  | [] => 0
  | s :: rest => max s.spreadNesting (selectorsSpreadNesting rest)

def Selector.spreadNesting : Selector → Nat
  | .filter e => e.spreadNesting + 1
  | _ => 0

def segmentsSpreadNesting : List Segment → Nat
  | [] => 0
  | s :: rest => max s.spreadNesting (segmentsSpreadNesting rest)

def Path.spreadNesting : Path → Nat
  | ⟨_, ss⟩ => segmentsSpreadNesting ss

def Expr.spreadNesting : Expr → Nat
  | .query p => p.spreadNesting
  | .singular p => p.spreadNesting
  | .call _ args => argumentsSpreadNesting args + 1
  | .not e => e.spreadNesting + 2
  | .negate e => e.spreadNesting + 2
  | .binary _ l r => max l.spreadNesting r.spreadNesting + 1
  | _ => 0

def argumentsSpreadNesting : List Expr → Nat
  | [] => 0
  | e :: rest => max (e.spreadNesting + 1) (argumentsSpreadNesting rest)
end

namespace Spelling
open Reader

theorem ofUnary_enclosed (layout : Layout) {levels : Nat} {e : Expr} {t : List Char}
    (h : OfExpr .strict (grammar .strict levels) 0 e t) :
    OfUnary .strict (grammar .strict (levels + 1)) e (layout.enclosed t) :=
  .enclosed (layout.blanks_gap .afterOpening) h (layout.blanks_gap .beforeClosing)

theorem head_enclosed (layout : Layout) {b : List Char} (hb : Blanks b) (t : List Char) :
    ∀ c ∈ (b ++ layout.enclosed t).head?, c.isDigit = false := by
  cases b with
  | nil =>
    rintro c ⟨⟩
    decide
  | cons c b =>
    rintro _ ⟨⟩
    rcases hb c List.mem_cons_self with rfl | rfl | rfl | rfl <;> decide

theorem ofList_separated {item : Expr → List Char → Prop} (layout : Layout) {es : List Expr}
    {ts : List (List Char)} (nonempty : es ≠ []) (h : List.Forall₂ item es ts) :
    OfList item es (layout.separated ts) := by
  induction h generalizing layout with
  | nil => exact absurd rfl nonempty
  | cons h hrest ih =>
    cases hrest with
    | nil => exact .one h
    | cons h' hrest =>
      exact .more h (layout.blanks_gap .beforeComma) (layout.blanks_gap .afterComma)
        (ih layout.rest (List.cons_ne_nil _ _))

mutual
theorem segment_spread {levels : Nat} (layout : Layout) (s : Segment)
    (hwf : s.WellFormed .strict (ReadBack .strict)) (hlevels : s.spreadNesting ≤ levels) :
    OfSegment .strict (grammar .strict levels).expression s (s.spread layout) := by
  match s with
  | .children ss =>
    have hlist := selectors_spread layout ss hwf.2 hlevels
    exact .bracket (bracketed_commaSeparated hwf.1 hlist)
  | .descendants ss =>
    have hlist := selectors_spread layout ss hwf.2 hlevels
    exact .dotsBracket (bracketed_commaSeparated hwf.1 hlist)

theorem selectors_spread {levels : Nat} (layout : Layout) (ss : List Selector)
    (hwf : SelectorsWellFormed .strict (ReadBack .strict) ss)
    (hlevels : selectorsSpreadNesting ss ≤ levels) :
    List.Forall₂ (OfSelector .strict (grammar .strict levels).expression) ss
      (selectorSpreads layout ss) := by
  match ss with
  | [] => exact .nil
  | s :: rest =>
    rw [selectorsSpreadNesting] at hlevels
    have hfirst := selector_spread layout.first s hwf.1
      (Nat.le_trans (Nat.le_max_left _ _) hlevels)
    have hrest := selectors_spread layout.rest rest hwf.2
      (Nat.le_trans (Nat.le_max_right _ _) hlevels)
    exact .cons hfirst hrest

theorem selector_spread {levels : Nat} (layout : Layout) (s : Selector)
    (hwf : s.WellFormed .strict (ReadBack .strict)) (hlevels : s.spreadNesting ≤ levels) :
    OfSelector .strict (grammar .strict levels).expression s (s.spread layout) := by
  match s with
  | .wildcard | .member _ | .index _ | .slice _ _ _ =>
    exact selector_spelt _ hwf (Nat.zero_le levels)
  | .filter e =>
    obtain ⟨m, rfl⟩ := Nat.exists_eq_add_of_le' hlevels
    have he := expr_spread layout e hwf (Nat.le_add_left _ m)
    exact .filter (layout.blanks_gap .afterQuestion) he

theorem segments_spread {levels : Nat} (layout : Layout) (ss : List Segment)
    (hwf : SegmentsWellFormed .strict (ReadBack .strict) ss)
    (hlevels : segmentsSpreadNesting ss ≤ levels) :
    OfSegments .strict (grammar .strict levels).expression ss (segmentsSpread layout ss) := by
  match ss with
  | [] => exact .nil
  | s :: rest =>
    rw [segmentsSpreadNesting] at hlevels
    have hfirst := segment_spread layout.first s hwf.1
      (Nat.le_trans (Nat.le_max_left _ _) hlevels)
    have hrest := segments_spread layout.rest rest hwf.2
      (Nat.le_trans (Nat.le_max_right _ _) hlevels)
    exact .cons blanks_nil hfirst hrest

theorem expr_spread {levels : Nat} (layout : Layout) (e : Expr)
    (hwf : e.WellFormed .strict (ReadBack .strict)) (hlevels : e.spreadNesting ≤ levels) :
    OfExpr .strict (grammar .strict levels) 0 e (e.spread layout) := by
  match e with
  | .null | .bool _ | .integer _ | .float _ | .string _ | .variable _ =>
    exact (expr_spelt _ hwf levels (Nat.zero_le levels)).2.lower (Nat.zero_le _)
  | .query ⟨_, ss⟩ =>
    exact .unary (ofUnary_path (ofPath_query hwf.1) (segments_spread layout ss hwf.2 hlevels))
  | .singular ⟨_, ss⟩ =>
    exact .unary (ofUnary_path (ofPath_singular hwf.1) (segments_spread layout ss hwf.2 hlevels))
  | .call f args =>
    rw [Expr.spreadNesting] at hlevels
    obtain ⟨m, rfl⟩ := Nat.exists_eq_add_of_le' hlevels
    have hargs := arguments_spread layout args hwf.2 (Nat.le_add_left _ m)
    have hopening := layout.blanks_gap .afterListOpening
    have hclosing := layout.blanks_gap .beforeListClosing
    refine .unary (.call hwf.1 (ofArguments hopening hclosing ?_ ?_))
    · rintro rfl
      rfl
    · exact fun hnil => ofList_separated layout hnil hargs
  | .not e =>
    rw [Expr.spreadNesting] at hlevels
    obtain ⟨m, rfl⟩ := Nat.exists_eq_add_of_le' hlevels
    have he := expr_spread layout.first e hwf (Nat.le_add_left _ m)
    exact .unary (.not (layout.blanks_gap .afterPrefix) (ofUnary_enclosed layout.first he))
  | .negate e =>
    rw [Expr.spreadNesting] at hlevels
    obtain ⟨m, rfl⟩ := Nat.exists_eq_add_of_le' hlevels
    have he := expr_spread layout.first e hwf (Nat.le_add_left _ m)
    have hgap := layout.blanks_gap .afterPrefix
    exact .unary (.negate hgap (ofUnary_enclosed layout.first he)
      (head_enclosed layout.first hgap _))
  | .binary op l r =>
    rw [Expr.spreadNesting] at hlevels
    obtain ⟨m, rfl⟩ := Nat.exists_eq_add_of_le' hlevels
    have hboth : max l.spreadNesting r.spreadNesting ≤
        m + max l.spreadNesting r.spreadNesting := Nat.le_add_left _ m
    have hl := expr_spread layout.first l hwf.1 (Nat.le_trans (Nat.le_max_left _ _) hboth)
    have hr := expr_spread layout.rest r hwf.2.1 (Nat.le_trans (Nat.le_max_right _ _) hboth)
    exact .binary (Nat.zero_le _) (.unary (ofUnary_enclosed layout.first hl))
      (layout.blanks_gap .beforeOperator) (layout.blanks_gap .afterOperator)
      (.unary (ofUnary_enclosed layout.rest hr)) hwf.2.2 nofun

theorem arguments_spread {levels : Nat} (layout : Layout) (es : List Expr)
    (hwf : ArgumentsWellFormed .strict (ReadBack .strict) es)
    (hlevels : argumentsSpreadNesting es ≤ levels) :
    List.Forall₂ (OfExpr .strict (grammar .strict levels) 0) es (argumentSpreads layout es) := by
  match es with
  | [] => exact .nil
  | e :: rest =>
    rw [argumentsSpreadNesting] at hlevels
    obtain ⟨m, rfl⟩ := Nat.exists_eq_add_of_le' (Nat.le_trans (Nat.le_max_left _ _) hlevels)
    have he := expr_spread layout.first e hwf.1 (Nat.le_add_left _ m)
    have hrest := arguments_spread layout.rest rest hwf.2
      (Nat.le_trans (Nat.le_max_right _ _) hlevels)
    exact .cons (.unary (ofUnary_enclosed layout.first he)) hrest
end

end Spelling

/-- A well-formed condition is read from its text with all parentheses, whatever blanks stand at the
seams. -/
theorem Path.parse_spread (layout : Layout) (e : Expr)
    (hwf : e.WellFormed .strict (ReadBack .strict))
    (hnesting : e.spreadNesting + 1 ≤ maxNesting) :
    Path.parse (String.ofList ('$' :: '[' :: '?' ::
        (layout.gap .afterQuestion ++ (e.spread layout ++ [']'])))) .strict =
      .ok ⟨.root, [.children [.filter e]]⟩ := by
  have hselector := selector_spread layout (.filter e) hwf hnesting
  have hparse := Grammar.parse_selector hselector
  rwa [Selector.spread, List.cons_append, List.append_assoc] at hparse

theorem Path.parse_spread_blanks :
    let layout : Layout :=
      ⟨fun turns _ => List.replicate (turns.length % 3) ' ', fun _ _ _ hc =>
        .inl (List.eq_of_mem_replicate hc)⟩
    let tagged : Path := ⟨.current, [.children [.filter (.not (.variable "x"))]]⟩
    let e : Expr := .binary .less (.negate (.call "f" [.query tagged, .null])) (.integer (-2))
    let text := String.ofList ('$' :: '[' :: '?' ::
      (layout.gap .afterQuestion ++ (e.spread layout ++ [']'])))
    text = "$[?( - (  f(  (@[?  !  (x)])  ,  ( null )  )  ) )<( -2 )]" ∧
      e.WellFormed .strict (ReadBack .strict) ∧ e.spreadNesting + 1 ≤ maxNesting ∧
      Path.parse text .strict = .ok ⟨.root, [.children [.filter e]]⟩ := by
  intro layout tagged e text
  have htext : text = "$[?( - (  f(  (@[?  !  (x)])  ,  ( null )  )  ) )<( -2 )]" := by
    decide +kernel +revert
  have hname : IsVariable "x" := ⟨by decide, by decide⟩
  have hfits : Word.fits (-2) = true := by decide
  have htagged : tagged.WellFormed .strict (ReadBack .strict) :=
    ⟨⟨by simp, hname, trivial⟩, trivial⟩
  have hwf : e.WellFormed .strict (ReadBack .strict) :=
    ⟨⟨by decide, ⟨by rfl, htagged⟩, trivial, trivial⟩, hfits, fun _ _ => ⟨by rfl, by rfl⟩⟩
  have hnesting : e.spreadNesting + 1 ≤ maxNesting := by decide
  exact ⟨htext, hwf, hnesting, Path.parse_spread layout e hwf hnesting⟩

end JsonPath
