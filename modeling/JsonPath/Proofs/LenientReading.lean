import JsonPath.Proofs.Invariant
import Mathlib.Data.List.Chain

set_option autoImplicit false

/-!
# Lenient reading extends strict reading

Where strict mode reads a query, lenient mode reads the same one, unless a dash stands directly
behind a name: only there does a lenient reader take more of the text. Everywhere else it accepts
what the strict reader rejects, and on a text that both accept it stops at the same place.
-/
namespace JsonPath

/-- No dash stands directly behind a character of names. -/
def Undashed (input : List Char) : Prop :=
  input.IsChain fun c d => d = '-' → Name.isLater c = false

instance (input : List Char) : Decidable (Undashed input) :=
  inferInstanceAs (Decidable (input.IsChain _))

theorem Undashed.suffix {input rest : List Char} (h : Undashed input) (hrest : rest <:+ input) :
    Undashed rest :=
  List.IsChain.suffix h hrest

namespace Reader

variable {ε α β : Type}

/-- On a text without dashes behind names the second reader does what the first one does, wherever
the first succeeds. -/
def Refines (p q : Reader ε α) : Prop :=
  ∀ ⦃input rest : List Char⦄ ⦃a : α⦄, Undashed input → p.run input = .ok (a, rest) →
    q.run input = .ok (a, rest)

namespace Refines

theorem refl (p : Reader ε α) : p.Refines p := fun _ _ _ _ h => h

theorem of_fail (e : ε) (q : Reader ε α) : (fail e).Refines q := by
  rintro input rest a - ⟨⟩

theorem bind {p q : Reader ε α} {f g : α → Reader ε β} (h : p.Refines q)
    (hfg : ∀ a, (f a).Refines (g a)) : (p >>= f).Refines (q >>= g) := by
  intro input rest b hinput hrun
  obtain ⟨a, between, ha, hb⟩ := run_bind_eq_ok.mp hrun
  rw [run_bind_ok (h hinput ha)]
  exact hfg a (hinput.suffix (p.rest_suffix ha)) hb

theorem after (p : Reader ε α) {f g : α → Reader ε β} (hfg : ∀ a, (f a).Refines (g a)) :
    (p >>= f).Refines (p >>= g) :=
  (refl p).bind hfg

theorem map {p q : Reader ε α} (h : p.Refines q) (f : α → β) : (f <$> p).Refines (f <$> q) := by
  intro input rest b hinput hrun
  obtain ⟨a, ha, hb⟩ := run_map_eq_ok.mp hrun
  exact run_map_eq_ok.mpr ⟨a, h hinput ha, hb⟩

theorem ite {c : Prop} [Decidable c] {p p' q q' : Reader ε α} (hp : c → p.Refines p')
    (hq : ¬ c → q.Refines q') : (if c then p else q).Refines (if c then p' else q') := by
  split
  · next h => exact hp h
  · next h => exact hq h

theorem many {p q : Reader ε α} (h : p.Refines q) (starts : List Char → Bool) (hp : p.Strict)
    (hq : q.Strict) : (many starts p hp).Refines (many starts q hq) := by
  intro input rest items hinput hrun
  refine manyRun_induction (motive := fun input items => Undashed input →
    manyRun starts q hq input = .ok (items, rest)) ?_ ?_ hrun hinput
  · exact fun hstop _ => manyRun_stop hstop
  · intro input a between items hstarts ha ih hinput
    exact manyRun_step hstarts (h hinput ha) (ih (hinput.suffix (p.rest_suffix ha)))

theorem commaList {p q : QueryReader α} (h : p.Refines q) :
    (commaList p).Refines (commaList q) :=
  h.bind fun _ => bind (many (after _ fun _ => after _ fun _ => after _ fun _ => h) _ _ _)
    fun _ => refl _

end Refines

theorem index_refines : (index .strict).Refines (index .lenient) := by
  refine .after _ fun input => .after _ fun negative => .after _ fun ds => .ite (fun _ => .refl _) ?_
  intro _
  cases hallowed : indexAllowed .strict negative ds with
  | false => exact .of_fail _ _
  | true =>
    have hfits : indexAllowed .lenient negative ds = true := by
      simp only [indexAllowed, Bool.and_eq_true] at hallowed ⊢
      exact ⟨hallowed.1, rfl⟩
    rw [if_pos rfl, if_pos hfits]
    exact .refl _

theorem optionalIndex_refines : (optionalIndex .strict).Refines (optionalIndex .lenient) :=
  .after _ fun _ => .ite (fun _ => index_refines.map _) fun _ => .refl _

theorem number_refines : (number .strict).Refines (number .lenient) := by
  refine .after _ fun input => .after _ fun negative => .after _ fun whole =>
    .ite (fun _ => .refl _) fun _ => ?_
  refine .after _ fun frac => .after _ fun exp => .after _ fun rest => ?_
  dsimp only
  by_cases hmark : rest.head?.any isFloatMark = true
  · simp only [hmark, Bool.true_or]
    exact .refl _
  by_cases hzero : hasLeadingZero whole = true
  · simp only [hzero, decide_true, Bool.and_true, Bool.or_true, if_true]
    split <;> exact .of_fail _ _
  · simp only [hmark, hzero, Bool.and_false]
    exact .refl _

theorem shortEscape?_lenient {quote c d : Char} (h : shortEscape? .strict quote c = some d) :
    shortEscape? .lenient quote c = some d := by
  revert h
  simp only [shortEscape?]
  split <;> intro h
  all_goals try exact h
  split at h
  · next hquote =>
    have hsame : c = quote := by simpa using hquote
    simpa [hsame] using h
  · cases h

theorem escape_refines (quote : Char) : (escape .strict quote).Refines (escape .lenient quote) := by
  refine .after _ fun start => .after _ fun _ => .after _ fun input => ?_
  split
  · exact .refl _
  · exact .refl _
  · next c _ _ =>
    cases hshort : shortEscape? .strict quote c with
    | none => exact .of_fail _ _
    | some d =>
      rw [shortEscape?_lenient hshort]
      exact .refl _

theorem stringChar_refines (quote : Char) :
    (stringChar .strict quote).Refines (stringChar .lenient quote) := by
  refine .after _ fun c => ?_
  split
  · exact escape_refines quote
  · exact .refl _

theorem stringLiteral_refines : (stringLiteral .strict).Refines (stringLiteral .lenient) :=
  .after _ fun _ => .after _ fun quote =>
    .bind ((stringChar_refines quote).many _ _ _) fun _ => .refl _

end Reader

namespace Grammar
open Reader

/-- Behind a character of a name stands no dash, and so a name ends where it ends in strict mode. -/
theorem lenientName_eq {c : Char} {input : List Char} (hc : Name.isLater c = true)
    (h : Undashed (c :: input)) :
    (input.takeWhile fun d => Name.isLater d || d == '-') = input.takeWhile Name.isLater ∧
      (input.dropWhile fun d => Name.isLater d || d == '-') = input.dropWhile Name.isLater := by
  induction input generalizing c with
  | nil => exact ⟨rfl, rfl⟩
  | cons d input ih =>
    obtain ⟨hdash, hinput⟩ := List.isChain_cons_cons.mp h
    cases hd : Name.isLater d with
    | true =>
      obtain ⟨htake, hdrop⟩ := ih hd hinput
      simp [hd, htake, hdrop]
    | false =>
      have hne : d ≠ '-' := by
        intro heq
        rw [hdash heq] at hc
        cases hc
      simp [hd, hne]

theorem shorthandName_lenient {c : Char} {input : List Char} (hc : Name.isFirst c = true)
    (h : Undashed (c :: input)) :
    (shorthandName .lenient).run (c :: input) = (shorthandName .strict).run (c :: input) := by
  have hlater : Name.isLater c = true := by simp [Name.isLater, hc]
  obtain ⟨htake, hdrop⟩ := lenientName_eq hlater h
  rw [shorthandName_eq, shorthandName_eq]
  simp [hlater, htake, hdrop]

theorem indexOrSlice_refines : (indexOrSlice .strict).Refines (indexOrSlice .lenient) := by
  refine optionalIndex_refines.bind fun start => .after _ fun input => .ite (fun _ => ?_)
    fun _ => .refl _
  refine .after _ fun _ => optionalIndex_refines.bind fun stop => .after _ fun input =>
    .ite (fun _ => ?_) fun _ => .refl _
  exact .after _ fun _ => optionalIndex_refines.map _

structure NestedRefines (strict lenient : Nested) : Prop where
  expression : strict.expression.Refines lenient.expression
  unary : strict.unary.Refines lenient.unary
  arguments : strict.arguments.Refines lenient.arguments

section
variable {s l : Nested} (h : NestedRefines s l)
include h

theorem selector_refines : (selector .strict s).Refines (selector .lenient l) := by
  refine .after _ fun c => ?_
  split
  · exact .refl _
  · exact .after _ fun _ => .after _ fun _ => h.expression.map _
  · refine .ite (fun _ => stringLiteral_refines.map _) fun _ => ?_
    exact .ite (fun _ => indexOrSlice_refines) fun _ => .refl _
  · exact .refl _

theorem bracketed_refines : (bracketed .strict s).Refines (bracketed .lenient l) := by
  refine .after _ fun start => .after _ fun _ => .after _ fun _ => .after _ fun c => ?_
  split
  · exact .refl _
  · exact (selector_refines h).commaList.bind fun _ => .refl _

theorem dotted_refines (descendant : Bool) :
    (dotted .strict s descendant).Refines (dotted .lenient l descendant) := by
  intro input rest ss hinput hrun
  cases input with
  | nil => cases hrun
  | cons c input =>
    by_cases hfirst : Name.isFirst c = true
    · rw [dotted_name hfirst] at hrun ⊢
      obtain ⟨name, hname, hss⟩ := run_map_eq_ok.mp hrun
      rw [← shorthandName_lenient hfirst hinput] at hname
      exact run_map_eq_ok.mpr ⟨name, hname, hss⟩
    · have hplain : (dotted .strict s descendant).run (c :: input) = .ok (ss, rest) →
          (dotted .lenient l descendant).run (c :: input) = .ok (ss, rest) := by
        rw [dotted, dotted, run_bind_ok (run_peek _), run_bind_ok (run_peek _)]
        split
        · exact id
        · next heq =>
          cases heq
          rw [if_neg hfirst, if_neg hfirst]
          exact Refines.ite (fun _ => bracketed_refines h) (fun _ => .refl _) hinput
        · exact id
      exact hplain hrun

theorem segment_refines : (segment .strict s).Refines (segment .lenient l) := by
  refine .after _ fun _ => .after _ fun c => ?_
  split
  · refine .after _ fun _ => .after _ fun dots => ?_
    exact .ite (fun _ => (dotted_refines h true).map _) fun _ => (dotted_refines h false).map _
  · exact (bracketed_refines h).map _

theorem segments_refines : (segments .strict s).Refines (segments .lenient l) :=
  (segment_refines h).many _ _ _

theorem embedded_refines (start : Start) :
    (embedded .strict s start).Refines (embedded .lenient l start) :=
  (segments_refines h).bind fun _ => .refl _

theorem named_refines : (named s).Refines (named l) :=
  .after _ fun _ => .after _ fun _ => .ite (fun _ => h.arguments.map _) fun _ => .refl _

theorem primary_refines : (primary .strict s).Refines (primary .lenient l) := by
  refine .after _ fun c => ?_
  split
  · exact .after _ fun _ => .after _ fun _ => h.expression.bind fun _ => .refl _
  · exact .after _ fun _ => embedded_refines h .root
  · exact .after _ fun _ => embedded_refines h .current
  · refine .ite (fun _ => stringLiteral_refines.map _) fun _ => ?_
    refine .ite (fun _ => number_refines) fun _ => ?_
    exact .ite (fun _ => named_refines h) fun _ => .refl _
  · exact .refl _

theorem unary_refines : (unary .strict s).Refines (unary .lenient l) := by
  refine .after _ fun input => ?_
  split
  · exact .after _ fun _ => .after _ fun _ => h.unary.map _
  · refine .ite (fun _ => number_refines) fun _ => ?_
    exact .after _ fun _ => .after _ fun _ => h.unary.map _
  · exact primary_refines h

end

theorem requireSingular_refines {α : Type} (start : List Char) (e : Expr) {p q : QueryReader α}
    (h : p.Refines q) : (requireSingular start e >>= fun _ => p).Refines q := by
  intro input rest a hinput hrun
  obtain ⟨_, between, hsingular, hp⟩ := run_bind_eq_ok.mp hrun
  have hsame : between = input := by
    cases e with
    | query p => cases hsingular
    | _ =>
      cases hsingular
      rfl
  rw [hsame] at hp
  exact h hinput hp

theorem operation_refines {p q : QueryReader Expr} (h : p.Refines q) (start : List Char)
    (first : Expr) :
    (operation .strict p start first).Refines (operation .lenient q start first) := by
  refine .after _ fun _ => .after _ fun op => .after _ fun _ => .after _ fun rightStart =>
    h.bind fun right => ?_
  have hlenient : ¬ (Mode.lenient = .strict && op.isComparison) = true := by simp
  rw [if_neg hlenient]
  split
  · exact requireSingular_refines _ _ (requireSingular_refines _ _ (.refl _))
  · exact .refl _

theorem chain_refines {p q : QueryReader Expr} (h : p.Refines q) (level : Nat) :
    (chain .strict level p).Refines (chain .lenient level q) :=
  .after _ fun start => h.bind fun first =>
    .bind ((operation_refines h start first).many _ _ _) fun _ => .refl _

section
variable {s l : Nested} (h : NestedRefines s l)
include h

theorem tier_refines (height : Nat) : (tier .strict s height).Refines (tier .lenient l height) := by
  induction height with
  | zero => exact unary_refines h
  | succ height ih => exact chain_refines ih (4 - height)

theorem arguments_refines : (arguments .strict s).Refines (arguments .lenient l) := by
  refine .after _ fun _ => .after _ fun _ => .after _ fun c => ?_
  split
  · exact .refl _
  · exact (tier_refines h 5).commaList.bind fun _ => .refl _

end

theorem nested_refines (levels : Nat) :
    NestedRefines (nested .strict levels) (nested .lenient levels) := by
  induction levels with
  | zero => exact ⟨.refl _, .refl _, .refl _⟩
  | succ levels ih => exact ⟨tier_refines ih 5, unary_refines ih, arguments_refines ih⟩

theorem query_refines : (query .strict).Refines (query .lenient) := by
  intro input rest p hinput hrun
  have hstrict : (lenientBlanks .strict).run input = .ok ((), input) := rfl
  rw [query, run_bind_ok hstrict, run_bind_eq_ok] at hrun
  obtain ⟨dollar, between, haccept, hrun⟩ := hrun
  rcases run_accept_eq_ok.mp haccept with ⟨rfl, rfl⟩ | ⟨rfl, -, -⟩
  · rw [if_pos rfl, run_bind_eq_ok] at hrun
    obtain ⟨ss, last, hsegments, hrun⟩ := hrun
    have hstrict' : (lenientBlanks .strict).run last = .ok ((), last) := rfl
    rw [run_bind_ok hstrict', run_bind_ok (run_remaining _)] at hrun
    have hsegments' := segments_refines (nested_refines maxNesting)
      (hinput.suffix (List.suffix_cons _ _)) hsegments
    -- the root stands first and nothing last, so that no blanks are skipped at either end
    have hstart : (lenientBlanks .lenient).run ('$' :: between) = .ok ((), '$' :: between) := rfl
    rw [query, run_bind_ok hstart, run_bind_ok haccept, if_pos rfl, run_bind_ok hsegments']
    cases last with
    | nil => exact hrun
    | cons c last => cases hrun
  · cases hrun

end Grammar

/-- A text in which no dash stands directly behind a character of names is read in lenient mode as
in strict mode, if strict mode reads it. -/
theorem Path.parse_lenient_of_strict {text : String} {p : Path} (htext : Undashed text.toList)
    (h : Path.parse text .strict = .ok p) : Path.parse text .lenient = .ok p := by
  obtain ⟨rest, hrun⟩ := Grammar.parse_eq_ok_iff.mp h
  exact Grammar.parse_eq_ok_iff.mpr ⟨rest, Grammar.query_refines htext hrun⟩

theorem Path.parse_lenient_of_strict_dashes :
    let p : Path := ⟨.root, [.children [.member "a"], .children [.filter (.binary .lessOrEqual
      (.binary .subtract (.singular ⟨.current, [.children [.member "b"]]⟩) (.integer (-2)))
      (.variable "x"))], .descendants [.wildcard]]⟩
    Path.parse "$.a[?@['b'] - -2 <= x]..*" .lenient = .ok p := by
  intro p
  exact Path.parse_lenient_of_strict (by decide) (by with_unfolding_all rfl)

end JsonPath
