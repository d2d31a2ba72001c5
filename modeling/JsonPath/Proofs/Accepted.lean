import JsonPath.Proofs.Invariant
import JsonPath.Proofs.WellFormed

set_option autoImplicit false

/-!
# Trees that readers make

Whatever text is read as a query, its tree is well formed and does not nest too deep. Parentheses
leave no mark on a tree, so its depth counts filters, calls and prefix operators only.
-/
namespace JsonPath

mutual
def Segment.depth : Segment → Nat
  | .children s => selectorsDepth s
  | .descendants s => selectorsDepth s

def selectorsDepth : List Selector → Nat
  | [] => 0
  | s :: rest => max s.depth (selectorsDepth rest)

def Selector.depth : Selector → Nat
  | .filter e => e.depth + 1
  | _ => 0

def segmentsDepth : List Segment → Nat
  | [] => 0
  | s :: rest => max s.depth (segmentsDepth rest)

/-- The most filters, calls and prefix operators around one expression. -/
def Path.depth : Path → Nat
  | ⟨_, s⟩ => segmentsDepth s

def Expr.depth : Expr → Nat
  | .query p => p.depth
  | .singular p => p.depth
  | .call _ args => argumentsDepth args + 1
  | .not e => e.depth + 1
  | .negate e => e.depth + 1
  | .binary _ l r => max l.depth r.depth
  | _ => 0

def argumentsDepth : List Expr → Nat
  | [] => 0
  | e :: rest => max e.depth (argumentsDepth rest)
end

def FiniteLiteral (x : Float) : Prop := x.isFinite = true

/-- A well-formed expression that leaves one of so many nesting levels. -/
structure Accepted (mode : Mode) (levels : Nat) (e : Expr) : Prop where
  wellFormed : e.WellFormed mode FiniteLiteral
  depth : e.depth < levels

namespace Accepted

variable {mode : Mode} {levels : Nat}

theorem mono {e : Expr} {low high : Nat} (h : Accepted mode low e) (hle : low ≤ high) :
    Accepted mode high e :=
  ⟨h.wellFormed, Nat.lt_of_lt_of_le h.depth hle⟩

theorem arguments {args : List Expr} (h : ∀ e ∈ args, Accepted mode levels e)
    (hlevels : 0 < levels) :
    ArgumentsWellFormed mode FiniteLiteral args ∧ argumentsDepth args < levels := by
  induction args with
  | nil => exact ⟨trivial, hlevels⟩
  | cons e rest ih =>
    rw [List.forall_mem_cons] at h
    obtain ⟨hwf, hdepth⟩ := ih h.2
    exact ⟨⟨h.1.wellFormed, hwf⟩, Nat.max_lt.mpr ⟨h.1.depth, hdepth⟩⟩

theorem binary {op : BinaryOp} {l r : Expr} (hl : Accepted mode levels l)
    (hr : Accepted mode levels r) (comparable : Comparable mode op l r) :
    Accepted mode levels (.binary op l r) :=
  ⟨⟨hl.wellFormed, hr.wellFormed, comparable⟩, Nat.max_lt.mpr ⟨hl.depth, hr.depth⟩⟩

theorem ofPath {p : Path} (hwf : p.WellFormed mode FiniteLiteral) (hdepth : p.depth < levels) :
    Accepted mode levels (Expr.ofPath p) := by
  rw [Expr.ofPath]
  split
  · next hp => exact ⟨⟨hp, hwf⟩, hdepth⟩
  · next hp => exact ⟨⟨by simpa using hp, hwf⟩, hdepth⟩

theorem keyword {name : String} (hname : Name.isShorthand name.toList = true)
    (hlevels : 0 < levels) : Accepted mode levels (Grammar.keyword name) := by
  rw [Grammar.keyword]
  split_ifs with htrue hfalse hnull
  · exact ⟨trivial, hlevels⟩
  · exact ⟨trivial, hlevels⟩
  · exact ⟨trivial, hlevels⟩
  · exact ⟨⟨hname, by simp [htrue, hfalse, hnull]⟩, hlevels⟩

end Accepted

namespace Spelling

variable {mode : Mode} {levels : Nat}

theorem OfIndex.indexFits {i : Int} {t : List Char} (h : OfIndex mode i t) : IndexFits mode i := by
  cases h with
  | decimal _ _ _ fits _ small => exact ⟨fits, small⟩

theorem OfBound.boundFits {bound : Option Int} {t : List Char} (h : OfBound mode bound t) :
    BoundFits mode bound := by
  cases h with
  | absent =>
    intro i hi
    cases hi
  | present h =>
    rintro i ⟨⟩
    exact h.indexFits

theorem OfStep.boundFits {step : Option Int} {t : List Char} (h : OfStep mode step t) :
    BoundFits mode step := by
  cases h with
  | absent => exact (OfBound.absent : OfBound mode none []).boundFits
  | colon _ _ h => exact h.boundFits

theorem OfSelector.accepted {s : Selector} {t : List Char}
    (h : OfSelector mode (fun e _ => Accepted mode levels e) s t) :
    s.WellFormed mode FiniteLiteral ∧ s.depth ≤ levels := by
  cases h with
  | wildcard => exact ⟨trivial, Nat.zero_le _⟩
  | member _ => exact ⟨trivial, Nat.zero_le _⟩
  | index h => exact ⟨h.indexFits, Nat.zero_le _⟩
  | slice ht _ _ ht' ht'' =>
    exact ⟨⟨ht.boundFits, ht'.boundFits, ht''.boundFits⟩, Nat.zero_le _⟩
  | filter _ h => exact ⟨h.wellFormed, h.depth⟩

theorem selectors_accepted {ss : List Selector}
    (h : ∀ s ∈ ss, ∃ t, OfSelector mode (fun e _ => Accepted mode levels e) s t) :
    SelectorsWellFormed mode FiniteLiteral ss ∧ selectorsDepth ss ≤ levels := by
  induction ss with
  | nil => exact ⟨trivial, Nat.zero_le _⟩
  | cons s rest ih =>
    rw [List.forall_mem_cons] at h
    obtain ⟨⟨t, hs⟩, hrest⟩ := h
    obtain ⟨hwf, hdepth⟩ := hs.accepted
    exact ⟨⟨hwf, (ih hrest).1⟩, Nat.max_le.mpr ⟨hdepth, (ih hrest).2⟩⟩

theorem Bracketed.accepted {ss : List Selector} {t : List Char}
    (h : Bracketed mode (fun e _ => Accepted mode levels e) ss t) :
    (ss ≠ [] ∧ SelectorsWellFormed mode FiniteLiteral ss) ∧ selectorsDepth ss ≤ levels := by
  cases h with
  | list _ h _ =>
    obtain ⟨hwf, hdepth⟩ := selectors_accepted h.forall_mem
    refine ⟨⟨?_, hwf⟩, hdepth⟩
    cases h <;> simp

theorem Dotted.accepted {ss : List Selector} {t : List Char} (h : Dotted mode ss t) :
    (ss ≠ [] ∧ SelectorsWellFormed mode FiniteLiteral ss) ∧ selectorsDepth ss ≤ levels := by
  cases h <;> exact ⟨⟨by simp, trivial, trivial⟩, Nat.zero_le _⟩

theorem OfSegment.accepted {s : Segment} {t : List Char}
    (h : OfSegment mode (fun e _ => Accepted mode levels e) s t) :
    s.WellFormed mode FiniteLiteral ∧ s.depth ≤ levels := by
  cases h with
  | bracket h => exact h.accepted
  | dot h => exact h.accepted
  | dotsBracket h => exact h.accepted
  | dots h => exact h.accepted

theorem OfSegments.accepted {ss : List Segment} {t : List Char}
    (h : OfSegments mode (fun e _ => Accepted mode levels e) ss t) :
    SegmentsWellFormed mode FiniteLiteral ss ∧ segmentsDepth ss ≤ levels := by
  induction h with
  | nil => exact ⟨trivial, Nat.zero_le _⟩
  | cons _ h _ ih => exact ⟨⟨h.accepted.1, ih.1⟩, Nat.max_le.mpr ⟨h.accepted.2, ih.2⟩⟩

end Spelling

namespace Reader

theorem number_yields (mode : Mode) {levels : Nat} (hlevels : 0 < levels) :
    (number mode).Yields (Accepted mode levels) := by
  intro input rest e h
  simp only [number, run_bind_eq_ok, run_remaining] at h
  obtain ⟨_, _, ⟨⟩, negative, r1, -, whole, r2, -, h⟩ := h
  split at h
  · cases h
  simp only [run_bind_eq_ok, run_remaining] at h
  obtain ⟨frac, r3, -, exp, r4, -, _, _, ⟨⟩, h⟩ := h
  split at h
  · split at h <;> cases h
  split at h
  · next hinteger =>
    cases h
    exact ⟨(Bool.and_eq_true_iff.mp hinteger).2, hlevels⟩
  split at h
  · next hfinite =>
    cases h
    exact ⟨hfinite, hlevels⟩
  · cases h

end Reader

namespace Grammar
open Reader Spelling

theorem accepted_invariant (mode : Mode) :
    Invariant mode fun levels _ e => Accepted mode levels e where
  number levels := number_yields mode (Nat.succ_pos levels)
  string levels s := ⟨trivial, Nat.succ_pos levels⟩
  keyword levels _ hname := .keyword hname (Nat.succ_pos levels)
  query start ss t h := .ofPath h.accepted.1 (Nat.lt_succ_of_le h.accepted.2)
  call hname hargs := by
    obtain ⟨hwf, hdepth⟩ := Accepted.arguments hargs (Nat.succ_pos _)
    exact ⟨⟨hname, hwf⟩, Nat.succ_lt_succ hdepth⟩
  not h := ⟨h.wellFormed, Nat.succ_lt_succ h.depth⟩
  negate h := ⟨h.wellFormed, Nat.succ_lt_succ h.depth⟩
  enclosed h := h.mono (Nat.le_succ _)
  lift h := h
  join hl hr _ comparable := hl.binary hr comparable

theorem nested_yields (mode : Mode) (levels : Nat) :
    NestedYields (fun levels _ e => Accepted mode levels e) (nested mode levels) levels :=
  (accepted_invariant mode).nested levels

end Grammar

/-- What is read as a query is well formed and within the nesting limit. -/
theorem Path.parse_accepted {text : String} {mode : Mode} {p : Path}
    (h : Path.parse text mode = .ok p) :
    p.start = .root ∧ p.WellFormed mode FiniteLiteral ∧ p.depth ≤ maxNesting := by
  obtain ⟨rest, hrun⟩ := Grammar.parse_eq_ok_iff.mp h
  generalize text.toList = chars at hrun
  have hspelt := Grammar.query_sound
    (Grammar.nested_yields mode maxNesting).expression.recognises hrun
  cases hspelt with
  | root _ _ hsegments _ => exact ⟨rfl, hsegments.accepted⟩

theorem Path.parse_accepted_prefix :
    let p : Path := ⟨.root, [.children [.filter (.binary .and
      (.not (.binary .equal (.singular ⟨.current, [.children [.member "a"]]⟩) (.integer 1)))
      (.call "f" [.negate (.variable "x")]))]]⟩
    Path.parse "$[?!(@.a == 1) && f(-x)]" .strict = .ok p ∧ p.depth = 3 ∧
      p.WellFormed .strict FiniteLiteral := by
  intro p
  have hread : Path.parse "$[?!(@.a == 1) && f(-x)]" .strict = .ok p := by with_unfolding_all rfl
  exact ⟨hread, rfl, (Path.parse_accepted hread).2.1⟩

end JsonPath
