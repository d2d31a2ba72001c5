import JsonPath.Proofs.Conditions

set_option autoImplicit false

/-!
# Reading the canonical text back

The canonical text of a well-formed tree is one of its spellings, with as many nesting levels as the
text has. A whole query is therefore read back from its text.
-/
namespace JsonPath.Spelling
open Reader

/-- A float whose text is read back as the float. -/
def ReadBack (mode : Mode) (x : Float) : Prop :=
  x.isFinite = true ∧ (number mode).run (Decimal.floatChars x) = .ok (.float x, [])

variable {mode : Mode}

theorem blank_space : Blanks [' '] := by
  intro c hc
  exact .inl (List.mem_singleton.mp hc)

theorem ofList_commaSeparated {α : Type} {item : α → List Char → Prop} {as : List α}
    {ts : List (List Char)} (nonempty : as ≠ []) (h : List.Forall₂ item as ts) :
    OfList item as (commaSeparated ts) := by
  induction h with
  | nil => exact absurd rfl nonempty
  | cons ha hrest ih =>
    cases hrest with
    | nil => exact .one ha
    | cons hb hrest => exact .more ha blanks_nil blank_space (ih (List.cons_ne_nil _ _))

theorem bracketed_commaSeparated {condition : Expr → List Char → Prop} {ss : List Selector}
    {ts : List (List Char)} (nonempty : ss ≠ [])
    (h : List.Forall₂ (OfSelector mode condition) ss ts) :
    Bracketed mode condition ss ('[' :: (commaSeparated ts ++ [']'])) :=
  .list blanks_nil (ofList_commaSeparated nonempty h) blanks_nil

theorem ofArguments {expression : Expr → List Char → Prop} {es : List Expr} {b t b' : List Char}
    (hb : Blanks b) (hb' : Blanks b') (hnone : es = [] → t = [])
    (hlist : es ≠ [] → OfList expression es t) :
    OfArguments expression es ('(' :: (b ++ (t ++ (b' ++ [')'])))) := by
  by_cases hnil : es = []
  · have hboth : Blanks (b ++ b') := List.forall_mem_append.mpr ⟨hb, hb'⟩
    have hsplit : b ++ ([] ++ (b' ++ [')'])) = b ++ b' ++ [')'] := by simp
    rw [hnone hnil, hnil, hsplit]
    exact .none hboth
  · exact .list hb (hlist hnil) hb'

theorem ofBound_boundChars {bound : Option Int} (h : BoundFits mode bound) :
    OfBound mode bound (boundChars bound) := by
  cases bound with
  | none => exact .absent
  | some i =>
    obtain ⟨fits, small⟩ := h i rfl
    exact .present (ofIndex_intChars fits small)

theorem ofSelector_slice {condition : Expr → List Char → Prop} {start stop step : Option Int}
    (hstart : BoundFits mode start) (hstop : BoundFits mode stop) (hstep : BoundFits mode step) :
    OfSelector mode condition (.slice start stop step) (sliceChars start stop step) := by
  have hbound := ofBound_boundChars hstep
  refine .slice (ofBound_boundChars hstart) blanks_nil blanks_nil (ofBound_boundChars hstop) ?_
  cases step with
  | none => exact .absent
  | some i => exact .colon blanks_nil blanks_nil hbound

theorem keyword_variable {name : String} (h : IsVariable name) :
    Grammar.keyword name = .variable name := by
  have hname := h.2
  simp only [List.mem_cons, List.not_mem_nil, or_false, not_or] at hname
  obtain ⟨htrue, hfalse, hnull⟩ := hname
  rw [Grammar.keyword, if_neg htrue, if_neg hfalse, if_neg hnull]

theorem ofPath_singular {p : Path} (h : p.isSingular = true) : Expr.ofPath p = .singular p := by
  rw [Expr.ofPath, if_pos h]

theorem ofPath_query {p : Path} (h : p.isSingular = false) : Expr.ofPath p = .query p := by
  rw [Expr.ofPath, if_neg (by simp [h])]

theorem ofUnary_path {inner : Inner} {start : Start} {ss : List Segment} {e : Expr} {t : List Char}
    (he : Expr.ofPath ⟨start, ss⟩ = e) (h : OfSegments mode inner.expression ss t) :
    OfUnary mode inner e (start.char :: t) := by
  rw [← he]
  exact .query h

theorem OfExpr.lower {inner : Inner} {high low : Nat} {e : Expr} {t : List Char}
    (h : OfExpr mode inner high e t) (hle : low ≤ high) : OfExpr mode inner low e t := by
  cases h with
  | unary h => exact .unary h
  | binary hlevel hl hb hb' hr comparable dash =>
    exact .binary (Nat.le_trans hle hlevel) hl hb hb' hr comparable dash

/-- The canonical text spells the expression: without parentheses an operand of any operator, if
its own operator is not weaker. -/
def Spelt (mode : Mode) (e : Expr) : Prop :=
  ∀ levels, e.nesting ≤ levels →
    (e.isBinary = false → OfUnary mode (grammar mode levels) e e.chars) ∧
      OfExpr mode (grammar mode levels) e.level e e.chars

theorem spelt_of_unary {e : Expr}
    (h : ∀ levels, e.nesting ≤ levels → OfUnary mode (grammar mode levels) e e.chars) :
    Spelt mode e :=
  fun levels hlevels => ⟨fun _ => h levels hlevels, .unary (h levels hlevels)⟩

theorem Spelt.expression {levels : Nat} {e : Expr} (h : Spelt mode e)
    (hlevels : e.nesting + 1 ≤ levels) : (grammar mode levels).expression e e.chars := by
  obtain ⟨m, rfl⟩ := Nat.exists_eq_add_of_le' hlevels
  exact (h (m + e.nesting) (by omega)).2.lower (Nat.zero_le _)

theorem Spelt.enclosed {levels : Nat} {e : Expr} (h : Spelt mode e)
    (hlevels : e.nesting + 1 ≤ levels) : OfUnary mode (grammar mode levels) e (enclosed e.chars) :=
  .enclosed blanks_nil (h.expression hlevels) blanks_nil

theorem Spelt.operand {levels : Nat} {e : Expr} (h : Spelt mode e)
    (hlevels : (if e.isNumeral || e.isBinary then e.nesting + 1 else e.nesting) + 1 ≤ levels) :
    (grammar mode levels).unary e
      (if e.isNumeral || e.isBinary then JsonPath.enclosed e.chars else e.chars) := by
  cases levels with
  | zero => omega
  | succ m =>
    change OfUnary mode (grammar mode m) e _
    -- the prefix operator has taken one level, and parentheses take another
    split at hlevels
    · next hparen =>
      rw [if_pos hparen]
      exact h.enclosed (by omega)
    · next hplain =>
      have hbinary : e.isBinary = false := by simp_all
      rw [if_neg hplain]
      exact (h m (by omega)).1 hbinary

theorem Spelt.atLevel {levels : Nat} {e : Expr} (h : Spelt mode e) (level : Nat) {c : Prop}
    [Decidable c] (hc : ¬ c → level ≤ e.level)
    (hlevels : (if c then e.nesting + 1 else e.nesting) ≤ levels) :
    OfExpr mode (grammar mode levels) level e
      (if c then JsonPath.enclosed e.chars else e.chars) := by
  split
  · next hparen =>
    rw [if_pos hparen] at hlevels
    exact .unary (h.enclosed hlevels)
  · next hplain =>
    rw [if_neg hplain] at hlevels
    exact (h levels hlevels).2.lower (hc hplain)

theorem name_head {name : String} (h : Name.isShorthand name.toList = true) (t : List Char) :
    ∀ c ∈ (name.toList ++ t).head?, c.isDigit = false := by
  obtain ⟨d, tail, hname, hd, -⟩ := Grammar.name_cons h
  rw [hname]
  rintro c ⟨⟩
  exact Grammar.isDigit_of_first hd

theorem chars_head {e : Expr} (hwf : e.WellFormed mode (ReadBack mode))
    (hnumeral : e.isNumeral = false) (hbinary : e.isBinary = false) :
    ∀ c ∈ e.chars.head?, c.isDigit = false := by
  match e with
  | .integer _ => cases hnumeral
  | .float _ => cases hnumeral
  | .binary _ _ _ => cases hbinary
  | .variable name =>
    have hhead := name_head hwf.1 []
    rwa [List.append_nil] at hhead
  | .call f args => exact name_head hwf.1 _
  | .bool b => cases b <;> rintro c ⟨⟩ <;> decide
  | .query ⟨start, ss⟩ => cases start <;> rintro c ⟨⟩ <;> decide
  | .singular ⟨start, ss⟩ => cases start <;> rintro c ⟨⟩ <;> decide
  | .null | .string _ | .not _ | .negate _ =>
    rintro c ⟨⟩
    decide

theorem operand_head {e : Expr} (hwf : e.WellFormed mode (ReadBack mode)) :
    ∀ c ∈ (if e.isNumeral || e.isBinary then enclosed e.chars else e.chars).head?,
      c.isDigit = false := by
  split
  · rintro c ⟨⟩
    decide
  · next hplain =>
    simp only [Bool.or_eq_true, not_or, Bool.not_eq_true] at hplain
    exact chars_head hwf hplain.1 hplain.2

theorem word_spelt (name : String) {e : Expr} (hname : Name.isShorthand name.toList = true)
    (he : Grammar.keyword name = e) (hchars : e.chars = name.toList) : Spelt mode e := by
  refine spelt_of_unary fun levels _ => ?_
  rw [hchars, ← he]
  exact .word hname

theorem call_spelt {f : String} {args : List Expr} (hname : Name.isShorthand f.toList = true)
    (hargs : ∀ levels, argumentsNesting args ≤ levels →
      List.Forall₂ (OfExpr mode (grammar mode levels) 0) args (argumentTexts args)) :
    Spelt mode (.call f args) := by
  refine spelt_of_unary fun levels hlevels => .call hname ?_
  rw [Expr.nesting] at hlevels
  obtain ⟨m, rfl⟩ := Nat.exists_eq_add_of_le' hlevels
  have hinner := hargs (m + argumentsNesting args) (Nat.le_add_left _ m)
  refine ofArguments blanks_nil blanks_nil ?_ fun hnil => ofList_commaSeparated hnil hinner
  rintro rfl
  rfl

theorem binary_spelt {op : BinaryOp} {l r : Expr} (hl : Spelt mode l) (hr : Spelt mode r)
    (comparable : Comparable mode op l r) : Spelt mode (.binary op l r) := by
  intro levels hlevels
  rw [Expr.nesting] at hlevels
  have hleft := hl.atLevel op.level (fun h => Nat.le_of_not_lt h)
    (Nat.le_trans (Nat.le_max_left _ _) hlevels)
  have hright := hr.atLevel (op.level + 1) (fun h => Nat.lt_of_not_le h)
    (Nat.le_trans (Nat.le_max_right _ _) hlevels)
  refine ⟨by rintro ⟨⟩, ?_⟩
  exact .binary (Nat.le_refl _) hleft blank_space blank_space hright comparable (by simp)

mutual
theorem segment_spelt {levels : Nat} (s : Segment)
    (hwf : s.WellFormed mode (ReadBack mode))
    (hlevels : s.nesting ≤ levels) :
    OfSegment mode (grammar mode levels).expression s s.chars := by
  match s with
  | .children ss =>
    exact .bracket (bracketed_commaSeparated hwf.1 (selectors_spelt ss hwf.2 hlevels))
  | .descendants ss =>
    exact .dotsBracket (bracketed_commaSeparated hwf.1 (selectors_spelt ss hwf.2 hlevels))

theorem selectors_spelt {levels : Nat} (ss : List Selector)
    (hwf : SelectorsWellFormed mode (ReadBack mode) ss)
    (hlevels : selectorsNesting ss ≤ levels) :
    List.Forall₂ (OfSelector mode (grammar mode levels).expression) ss (selectorTexts ss) := by
  match ss with
  | [] => exact .nil
  | s :: rest =>
    rw [selectorsNesting] at hlevels
    have hfirst := selector_spelt s hwf.1 (Nat.le_trans (Nat.le_max_left _ _) hlevels)
    have hrest := selectors_spelt rest hwf.2 (Nat.le_trans (Nat.le_max_right _ _) hlevels)
    exact .cons hfirst hrest

theorem selector_spelt {levels : Nat} (s : Selector)
    (hwf : s.WellFormed mode (ReadBack mode))
    (hlevels : s.nesting ≤ levels) :
    OfSelector mode (grammar mode levels).expression s s.chars := by
  match s with
  | .wildcard => exact .wildcard
  | .member name => exact .member (ofString_quotedChars mode name)
  | .index i => exact .index (ofIndex_intChars hwf.1 hwf.2)
  | .slice start stop step => exact ofSelector_slice hwf.1 hwf.2.1 hwf.2.2
  | .filter e => exact .filter blanks_nil ((expr_spelt e hwf).expression hlevels)

theorem segments_spelt {levels : Nat} (ss : List Segment)
    (hwf : SegmentsWellFormed mode (ReadBack mode) ss)
    (hlevels : segmentsNesting ss ≤ levels) :
    OfSegments mode (grammar mode levels).expression ss (segmentChars ss) := by
  match ss with
  | [] => exact .nil
  | s :: rest =>
    rw [segmentsNesting] at hlevels
    have hfirst := segment_spelt s hwf.1 (Nat.le_trans (Nat.le_max_left _ _) hlevels)
    have hrest := segments_spelt rest hwf.2 (Nat.le_trans (Nat.le_max_right _ _) hlevels)
    exact .cons blanks_nil hfirst hrest

theorem expr_spelt (e : Expr) (hwf : e.WellFormed mode (ReadBack mode)) : Spelt mode e := by
  match e with
  | .null => exact word_spelt "null" (by decide) rfl rfl
  | .bool true => exact word_spelt "true" (by decide) rfl rfl
  | .bool false => exact word_spelt "false" (by decide) rfl rfl
  | .integer n => exact spelt_of_unary fun _ _ => .number (number_intChars hwf)
  | .float x => exact spelt_of_unary fun _ _ => .number hwf.2
  | .string s => exact spelt_of_unary fun _ _ => .string (ofString_quotedChars mode s)
  | .variable name => exact word_spelt name hwf.1 (keyword_variable hwf) rfl
  | .query ⟨_, ss⟩ =>
    exact spelt_of_unary fun _ hlevels =>
      ofUnary_path (ofPath_query hwf.1) (segments_spelt ss hwf.2 hlevels)
  | .singular ⟨_, ss⟩ =>
    exact spelt_of_unary fun _ hlevels =>
      ofUnary_path (ofPath_singular hwf.1) (segments_spelt ss hwf.2 hlevels)
  | .call f args =>
    exact call_spelt hwf.1 fun levels hlevels => arguments_spelt args hwf.2 hlevels
  | .not e =>
    have he := expr_spelt e hwf
    exact spelt_of_unary fun levels hlevels => .not blanks_nil (he.operand hlevels)
  | .negate e =>
    have he := expr_spelt e hwf
    refine spelt_of_unary fun levels hlevels => .negate blanks_nil (he.operand hlevels) ?_
    exact operand_head hwf
  | .binary op l r => exact binary_spelt (expr_spelt l hwf.1) (expr_spelt r hwf.2.1) hwf.2.2

theorem arguments_spelt {levels : Nat} (es : List Expr)
    (hwf : ArgumentsWellFormed mode (ReadBack mode) es)
    (hlevels : argumentsNesting es ≤ levels) :
    List.Forall₂ (OfExpr mode (grammar mode levels) 0) es (argumentTexts es) := by
  match es with
  | [] => exact .nil
  | e :: rest =>
    rw [argumentsNesting] at hlevels
    have he := expr_spelt e hwf.1
    have hfirst := (he levels (Nat.le_trans (Nat.le_max_left _ _) hlevels)).2
    have hrest := arguments_spelt rest hwf.2 (Nat.le_trans (Nat.le_max_right _ _) hlevels)
    exact .cons (hfirst.lower (Nat.zero_le _)) hrest
end

theorem path_spelt {p : Path} (hroot : p.start = .root)
    (hwf : p.WellFormed mode (ReadBack mode)) {levels : Nat} (hlevels : p.nesting ≤ levels) :
    OfPath mode (grammar mode levels).expression p p.chars := by
  obtain ⟨start, ss⟩ := p
  cases hroot
  have h : OfPath mode (grammar mode levels).expression ⟨.root, ss⟩
      ([] ++ '$' :: (segmentChars ss ++ [])) :=
    .root blanks_nil blanks_nil (segments_spelt ss hwf hlevels) fun _ => ⟨rfl, rfl⟩
  rwa [List.append_nil] at h

end JsonPath.Spelling

namespace JsonPath
open Spelling

/-- A well-formed query is read back from its canonical text. -/
theorem Path.parse_text (mode : Mode) (p : Path) (hroot : p.start = .root)
    (hwf : p.WellFormed mode (ReadBack mode)) (hnesting : p.nesting ≤ maxNesting) :
    Path.parse p.text mode = .ok p := by
  refine Grammar.parse_eq_ok_iff.mpr ⟨[], ?_⟩
  rw [Path.text, String.toList_ofList]
  exact Grammar.query_run (Grammar.nested_reads mode maxNesting).expression
    (path_spelt hroot hwf hnesting)

theorem Path.parse_text_operators :
    let p : Path := ⟨.root, [.children [.slice (some 1) none (some (-1)), .member "a'b"],
      .descendants [.filter (.binary .and
        (.binary .lessOrEqual
          (.binary .multiply
            (.binary .subtract (.singular ⟨.current, [.children [.member "n"]]⟩) (.integer (-4)))
            (.negate (.integer 2)))
          (.float 1.5))
        (.not (.call "match" [.variable "x", .string "y"])))]]⟩
    p.text = "$[1::-1, 'a\\'b']..[?(@['n'] - -4) * -(2) <= 1.5 && !match(x, 'y')]" ∧
      Path.parse p.text .strict = .ok p := by
  intro p
  have hslice : BoundFits .strict (some 1) ∧ BoundFits .strict none ∧
      BoundFits .strict (some (-1)) :=
    ⟨by rintro i ⟨⟩; exact ⟨by decide, by decide⟩, by rintro i ⟨⟩,
      by rintro i ⟨⟩; exact ⟨by decide, by decide⟩⟩
  have hmember :
      (Path.mk .current [.children [.member "n"]]).WellFormed .strict (ReadBack .strict) :=
    ⟨⟨by simp, trivial, trivial⟩, trivial⟩
  have hfloat : ReadBack .strict 1.5 := ⟨by rfl, by rfl⟩
  have hname : IsVariable "x" := ⟨by decide, by decide⟩
  have hplain : ∀ op l r, l.isQuery = false → r.isQuery = false → Comparable .strict op l r :=
    fun _ _ _ hl hr _ _ => ⟨hl, hr⟩
  refine ⟨by rfl, Path.parse_text .strict p rfl ?_ (by decide)⟩
  refine ⟨⟨by simp, hslice, trivial, trivial⟩, ⟨by simp, ?_, trivial⟩, trivial⟩
  have hfour : Word.fits (-4) = true := by decide
  have htwo : Word.fits 2 = true := by decide
  refine ⟨⟨⟨⟨?_, hfour, hplain _ _ _ rfl rfl⟩, htwo, hplain _ _ _ rfl rfl⟩, hfloat,
    hplain _ _ _ rfl rfl⟩, ⟨by decide, hname, trivial, trivial⟩, hplain _ _ _ rfl rfl⟩
  exact ⟨by decide, hmember⟩

end JsonPath
