import JsonPath.Proofs.Everywhere
import JsonPath.Proofs.Invariant
import JsonPath.Proofs.RoundTrip

set_option autoImplicit false

/-!
# How high trees grow

Evaluation recurses into the operands, the arguments and the filters of nested queries, so the
height of an expression is the depth of that recursion. The nesting limit bounds it only together
with the length of operator chains: a chain associates to the left and is read in a loop, and each
operator of it makes the tree one higher without entering a nesting level.
-/
namespace JsonPath

mutual
def Segment.height : Segment → Nat
  | .children s => selectorsHeight s
  | .descendants s => selectorsHeight s

def selectorsHeight : List Selector → Nat
  | [] => 0
  | s :: rest => max s.height (selectorsHeight rest)

def Selector.height : Selector → Nat
  | .filter e => e.height
  | _ => 0

def segmentsHeight : List Segment → Nat
  | [] => 0
  | s :: rest => max s.height (segmentsHeight rest)

/-- The most expressions that stand inside each other in the filters of the path. -/
def Path.height : Path → Nat
  | ⟨_, s⟩ => segmentsHeight s

def Expr.height : Expr → Nat
  | .query p => p.height + 1
  | .singular p => p.height + 1
  | .call _ args => argumentsHeight args + 1
  | .not e => e.height + 1
  | .negate e => e.height + 1
  | .binary _ l r => max l.height r.height + 1
  | _ => 1

def argumentsHeight : List Expr → Nat
  | [] => 0
  | e :: rest => max e.height (argumentsHeight rest)
end

/-- The number of operators of one level along the left operands. -/
def Expr.spine : Expr → Nat
  | .binary op l _ => (if l.level = op.level then l.spine else 0) + 1
  | _ => 0

theorem argumentsHeight_le {es : List Expr} {n : Nat} (h : ∀ e ∈ es, e.height ≤ n) :
    argumentsHeight es ≤ n := by
  induction es with
  | nil => exact Nat.zero_le n
  | cons e rest ih =>
    rw [List.forall_mem_cons] at h
    exact Nat.max_le.mpr ⟨h.1, ih h.2⟩

theorem selectorsHeight_le {ss : List Selector} {n : Nat}
    (h : ∀ e ∈ ss.filterMap Selector.condition?, e.height ≤ n) : selectorsHeight ss ≤ n := by
  induction ss with
  | nil => exact Nat.zero_le n
  | cons s rest ih =>
    cases s with
    | filter e =>
      rw [filterMap_condition, List.forall_mem_cons] at h
      exact Nat.max_le.mpr ⟨h.1, ih h.2⟩
    | _ => exact Nat.max_le.mpr ⟨Nat.zero_le n, ih h⟩

theorem segmentsHeight_le {ss : List Segment} {n : Nat}
    (h : ∀ e ∈ conditions ss, e.height ≤ n) : segmentsHeight ss ≤ n := by
  induction ss with
  | nil => exact Nat.zero_le n
  | cons s rest ih =>
    rw [conditions, List.flatMap_cons, List.forall_mem_append] at h
    refine Nat.max_le.mpr ⟨?_, ih h.2⟩
    cases s with
    | children ss => exact selectorsHeight_le h.1
    | descendants ss => exact selectorsHeight_le h.1

theorem SelectorsEverywhere.condition {P : Expr → Prop} {ss : List Selector}
    (h : SelectorsEverywhere P ss) :
    ∀ e ∈ ss.filterMap Selector.condition?, e.Everywhere P := by
  induction ss with
  | nil => exact fun e he => absurd he List.not_mem_nil
  | cons s rest ih =>
    cases s with
    | filter e =>
      rw [filterMap_condition, List.forall_mem_cons]
      exact ⟨h.1, ih h.2⟩
    | _ => exact ih h.2

theorem SegmentsEverywhere.condition {P : Expr → Prop} {ss : List Segment}
    (h : SegmentsEverywhere P ss) : ∀ e ∈ conditions ss, e.Everywhere P := by
  induction ss with
  | nil => exact fun e he => absurd he List.not_mem_nil
  | cons s rest ih =>
    rw [conditions, List.flatMap_cons, List.forall_mem_append]
    refine ⟨?_, ih h.2⟩
    cases s with
    | children ss => exact h.1.condition
    | descendants ss => exact h.1.condition

/-- Every chain of operators has at most so many of them. -/
def Expr.Chained (c : Nat) (e : Expr) : Prop := e.Everywhere fun e => e.spine ≤ c

/-- By how much a tier may make trees higher: by a whole chain for each tier below it, and for the
operators of its own chain that are joined so far. -/
def chainRoom (c : Nat) : Nat → Expr → Nat
  | 0, _ => 0
  | h + 1, e => h * c + if e.level + h = 4 then e.spine else 0

theorem chainRoom_le {c : Nat} {e : Expr} (h : Nat) (hspine : e.spine ≤ c) :
    chainRoom c h e ≤ h * c := by
  cases h with
  | zero => exact Nat.zero_le _
  | succ h =>
    rw [chainRoom, Nat.succ_mul]
    split <;> omega

/-- What is read with so many levels left is no higher than chains at all five tiers make it on each
level. -/
def HeightWithin (c levels h : Nat) (e : Expr) : Prop :=
  e.Chained c → e.height + 5 * c ≤ levels * (5 * c + 1) + chainRoom c h e

namespace HeightWithin

variable {c levels h : Nat} {e : Expr}

theorem of_unary (hheight : e.Chained c → e.height ≤ levels * (5 * c + 1) + 1) :
    HeightWithin c (levels + 1) h e := by
  intro hchained
  have hle := hheight hchained
  have hmore : (levels + 1) * (5 * c + 1) = levels * (5 * c + 1) + (5 * c + 1) :=
    Nat.succ_mul _ _
  omega

theorem height_le (he : HeightWithin c levels 5 e) (hchained : e.Chained c) :
    e.height ≤ levels * (5 * c + 1) := by
  have hroom := chainRoom_le 5 hchained.self
  have hheight := he hchained
  omega

theorem operand (he : HeightWithin c levels 0 e) (hchained : e.Chained c) :
    e.height ≤ levels * (5 * c + 1) := by
  have hheight := he hchained
  rw [chainRoom] at hheight
  omega

theorem lift (he : HeightWithin c levels h e) : HeightWithin c levels (h + 1) e := by
  intro hchained
  have hroom := chainRoom_le h hchained.self
  have hheight := he hchained
  rw [chainRoom]
  omega

theorem join {op : BinaryOp} {l r : Expr} (hl : HeightWithin c levels (h + 1) l)
    (hr : HeightWithin c levels h r) (hlevel : op.level + h = 4) :
    HeightWithin c levels (h + 1) (.binary op l r) := by
  rintro ⟨hspine, hchainedl, hchainedr⟩
  have hroom := chainRoom_le h hchainedr.self
  have hleft := hl hchainedl
  have hright := hr hchainedr
  -- the left operand has the operator's level only if it is of the same chain or in parentheses
  have hsame : l.level + h = 4 ↔ l.level = op.level := by omega
  have hop : (Expr.binary op l r).level = op.level := rfl
  rw [chainRoom, if_congr hsame rfl rfl] at hleft
  rw [chainRoom, hop, if_pos hlevel, Expr.height, Expr.spine]
  omega

theorem ofPath {start : Start} {ss : List Segment}
    (hss : ∀ e ∈ conditions ss, HeightWithin c levels 5 e) :
    HeightWithin c (levels + 1) 0 (Expr.ofPath ⟨start, ss⟩) := by
  have hheight (hchained : SegmentsEverywhere (fun e => e.spine ≤ c) ss) :
      segmentsHeight ss + 1 ≤ levels * (5 * c + 1) + 1 :=
    Nat.succ_le_succ (segmentsHeight_le fun e he =>
      (hss e he).height_le (hchained.condition e he))
  rw [Expr.ofPath]
  split
  · exact of_unary fun hchained => hheight hchained.2
  · exact of_unary fun hchained => hheight hchained.2

theorem keyword (name : String) : HeightWithin c (levels + 1) 0 (Grammar.keyword name) := by
  rw [Grammar.keyword]
  split_ifs <;> exact of_unary fun _ => Nat.le_add_left 1 _

end HeightWithin

theorem Grammar.height_invariant (mode : Mode) (c : Nat) : Invariant mode (HeightWithin c) where
  number levels := by
    intro input rest e hrun
    have hnumeral := Reader.number_isNumeral mode hrun
    cases e with
    | integer n => exact .of_unary fun _ => Nat.le_add_left 1 _
    | float x => exact .of_unary fun _ => Nat.le_add_left 1 _
    | _ => cases hnumeral
  string levels s := .of_unary fun _ => Nat.le_add_left 1 _
  keyword levels name _ := .keyword name
  query start ss t h := .ofPath h.conditions
  call _ hargs := .of_unary fun hchained => Nat.succ_le_succ (argumentsHeight_le fun e he =>
    (hargs e he).height_le (argumentsEverywhere_iff.mp hchained.2 e he))
  not h := .of_unary fun hchained => Nat.succ_le_succ (h.operand hchained.2)
  negate h := .of_unary fun hchained => Nat.succ_le_succ (h.operand hchained.2)
  enclosed h := .of_unary fun hchained => Nat.le_succ_of_le (h.height_le hchained)
  lift h := h.lift
  join hl hr hlevel _ := hl.join hr hlevel

/-- The nesting limit bounds the height of an accepted query relative to the length of its operator
chains. -/
theorem Path.height_of_accepted {text : String} {mode : Mode} {p : Path}
    (h : Path.parse text mode = .ok p) {c : Nat} (hchains : p.Everywhere fun e => e.spine ≤ c) :
    p.height ≤ maxNesting * (5 * c + 1) := by
  obtain ⟨start, ss⟩ := p
  obtain ⟨-, t, hspelt⟩ := (Grammar.height_invariant mode c).path h
  exact segmentsHeight_le fun e he =>
    (hspelt.conditions e he).height_le (SegmentsEverywhere.condition hchains e he)

theorem Path.height_of_accepted_chains :
    let p : Path := ⟨.root, [.children [.filter (.binary .and
      (.binary .greater (.binary .add (.binary .add (.integer 1) (.integer 2)) (.integer 3))
        (.variable "x"))
      (.not (.singular ⟨.current, [.children [.member "a"]]⟩)))]]⟩
    Path.parse "$[?1+2+3 > x && !@.a]" .strict = .ok p ∧ p.height = 5 ∧ p.height ≤ 128 * 11 := by
  intro p
  have hread : Path.parse "$[?1+2+3 > x && !@.a]" .strict = .ok p := by with_unfolding_all rfl
  have hchains : p.Everywhere fun e => e.spine ≤ 2 := by
    simp [p, Path.Everywhere, SegmentsEverywhere, Segment.Everywhere, SelectorsEverywhere,
      Selector.Everywhere, Expr.Everywhere, Expr.spine, Expr.level, BinaryOp.level]
  exact ⟨hread, rfl, Path.height_of_accepted hread hchains⟩

def Expr.sum : Nat → Expr
  | 0 => .integer 1
  | n + 1 => .binary .add (Expr.sum n) (.integer 1)

def sumChars : Nat → List Char
  | 0 => ['1']
  | n + 1 => sumChars n ++ ['+', '1']

theorem Expr.sum_height (n : Nat) : (Expr.sum n).height = n + 1 := by
  induction n with
  | zero => rfl
  | succ n ih =>
    rw [Expr.sum, Expr.height, ih]
    exact congrArg (· + 1) (Nat.max_eq_left (Nat.le_add_left 1 n))

open Spelling in
theorem sumChars_spelt (mode : Mode) (inner : Inner) (n : Nat) :
    OfExpr mode inner 3 (Expr.sum n) (sumChars n) := by
  have hone {level : Nat} : OfExpr mode inner level (.integer 1) ['1'] := by
    have hfits : Word.fits 1 = true := by decide
    have hchars : Decimal.intChars 1 = ['1'] := by decide
    rw [← hchars]
    exact .unary (.number (Reader.number_intChars hfits))
  induction n with
  | zero => exact hone
  | succ n ih =>
    have hcomparable : Comparable mode .add (Expr.sum n) (.integer 1) := by rintro - ⟨⟩
    have hsum : OfExpr mode inner 3 (.binary .add (Expr.sum n) (.integer 1))
        (sumChars n ++ ([] ++ (BinaryOp.add.chars ++ ([] ++ ['1'])))) :=
      .binary (Nat.le_refl 3) ih Reader.blanks_nil Reader.blanks_nil hone hcomparable (by simp)
    exact hsum

/-- No bound on the height holds for all accepted queries, for a sum is as high as it is long. -/
theorem Path.height_unbounded :
    ¬ ∃ bound, ∀ text mode p, Path.parse text mode = .ok p → p.height ≤ bound := by
  rintro ⟨bound, hbound⟩
  have hspelt := sumChars_spelt .strict (Spelling.grammar .strict 127) bound
  have hcondition : (Spelling.grammar .strict maxNesting).expression (Expr.sum bound)
      (sumChars bound) :=
    hspelt.lower (Nat.zero_le 3)
  have hread := Grammar.parse_filter hcondition
  have hheight : (Expr.sum bound).height ≤ bound :=
    Nat.le_trans (Nat.le_trans (Nat.le_max_left _ 0) (Nat.le_max_left _ 0)) (hbound _ _ _ hread)
  rw [Expr.sum_height] at hheight
  omega

end JsonPath
