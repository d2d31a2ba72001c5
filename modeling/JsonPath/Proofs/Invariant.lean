import JsonPath.Proofs.Conditions

set_option autoImplicit false

/-!
# Invariants of the trees that readers make

A property holds of every expression that is read, if it holds of the literals and the constructs of
the grammar keep it. It may speak of the nesting levels that are left and of the reader's tier, for
an operand tells by its tier whether it stood in parentheses.
-/
namespace JsonPath

namespace Reader

variable {ε α β : Type}

/-- Every result of the reader has the property. -/
def Yields (p : Reader ε α) (P : α → Prop) : Prop :=
  ∀ ⦃input rest : List Char⦄ ⦃a : α⦄, p.run input = .ok (a, rest) → P a

theorem Yields.recognises {p : QueryReader α} {P : α → Prop} (h : p.Yields P) :
    Recognises p fun a _ => P a := by
  intro a input rest hrun
  obtain ⟨t, rfl⟩ := p.rest_suffix hrun
  exact ⟨t, rfl, h hrun⟩

theorem Yields.bind {p : Reader ε α} {f : α → Reader ε β} {P : α → Prop} {Q : β → Prop}
    (h : p.Yields P) (hf : ∀ a, P a → (f a).Yields Q) : (p >>= f).Yields Q := by
  intro input rest b hrun
  obtain ⟨a, between, ha, hb⟩ := run_bind_eq_ok.mp hrun
  exact hf a (h ha) hb

theorem Yields.after (p : Reader ε α) {f : α → Reader ε β} {Q : β → Prop}
    (hf : ∀ a, (f a).Yields Q) : (p >>= f).Yields Q :=
  Yields.bind (P := fun _ => True) (fun _ _ _ _ => trivial) fun a _ => hf a

theorem Yields.map {p : Reader ε α} {P : α → Prop} {f : α → β} {Q : β → Prop} (h : p.Yields P)
    (hf : ∀ a, P a → Q (f a)) : (f <$> p).Yields Q := by
  intro input rest b hrun
  obtain ⟨a, ha, rfl⟩ := run_map_eq_ok.mp hrun
  exact hf a (h ha)

theorem yields_pure {a : α} {P : α → Prop} (h : P a) : (pure a : Reader ε α).Yields P := by
  rintro input rest _ ⟨⟩
  exact h

theorem yields_fail (e : ε) (P : α → Prop) : (fail e : Reader ε α).Yields P := by
  rintro input rest a ⟨⟩

theorem number_isNumeral (mode : Mode) : (number mode).Yields fun e => e.isNumeral = true := by
  intro input rest e h
  simp only [number, run_bind_eq_ok, run_remaining] at h
  obtain ⟨_, _, ⟨⟩, negative, r, -, whole, r', -, h⟩ := h
  split at h
  · cases h
  simp only [run_bind_eq_ok, run_remaining] at h
  obtain ⟨frac, _, -, exp, _, -, _, _, ⟨⟩, h⟩ := h
  split at h
  · split at h <;> cases h
  split at h
  · cases h
    rfl
  split at h
  · cases h
    rfl
  · cases h

end Reader

namespace Spelling

theorem OfList.forall_mem {α : Type} {item : α → List Char → Prop} {as : List α} {t : List Char}
    (h : OfList item as t) : ∀ a ∈ as, ∃ t, item a t := by
  induction h with
  | one h =>
    rw [List.forall_mem_singleton]
    exact ⟨_, h⟩
  | more h _ _ _ ih =>
    rw [List.forall_mem_cons]
    exact ⟨⟨_, h⟩, ih⟩

end Spelling

def Selector.condition? : Selector → Option Expr
  | .filter e => some e
  | _ => none

theorem filterMap_condition (e : Expr) (rest : List Selector) :
    (Selector.filter e :: rest).filterMap Selector.condition? =
      e :: rest.filterMap Selector.condition? := rfl

def conditions (ss : List Segment) : List Expr :=
  ss.flatMap fun s => s.selectors.filterMap Selector.condition?

namespace Spelling

variable {mode : Mode} {Q : Expr → Prop}

theorem OfSelector.condition {s : Selector} {t : List Char}
    (h : OfSelector mode (fun e _ => Q e) s t) : ∀ e ∈ s.condition?, Q e := by
  cases h with
  | filter _ h =>
    rintro e ⟨⟩
    exact h
  | _ => rintro e ⟨⟩

theorem Bracketed.conditions {ss : List Selector} {t : List Char}
    (h : Bracketed mode (fun e _ => Q e) ss t) :
    ∀ e ∈ ss.filterMap Selector.condition?, Q e := by
  cases h with
  | list _ h _ =>
    intro e he
    obtain ⟨s, hs, hcondition⟩ := List.mem_filterMap.mp he
    obtain ⟨t, ht⟩ := h.forall_mem s hs
    exact ht.condition e hcondition

theorem Dotted.conditions {ss : List Selector} {t : List Char} (h : Dotted mode ss t) :
    ∀ e ∈ ss.filterMap Selector.condition?, Q e := by
  cases h <;> exact fun e he => absurd he List.not_mem_nil

theorem OfSegment.conditions {s : Segment} {t : List Char}
    (h : OfSegment mode (fun e _ => Q e) s t) :
    ∀ e ∈ s.selectors.filterMap Selector.condition?, Q e := by
  cases h with
  | bracket h => exact h.conditions
  | dot h => exact h.conditions
  | dotsBracket h => exact h.conditions
  | dots h => exact h.conditions

theorem OfSegments.conditions {ss : List Segment} {t : List Char}
    (h : OfSegments mode (fun e _ => Q e) ss t) : ∀ e ∈ conditions ss, Q e := by
  induction h with
  | nil => exact fun e he => absurd he List.not_mem_nil
  | cons _ h _ ih =>
    intro e he
    rw [JsonPath.conditions, List.flatMap_cons] at he
    rcases List.mem_append.mp he with he | he
    · exact h.conditions e he
    · exact ih e he

end Spelling

namespace Grammar
open Reader Spelling

/-- `P n h` is kept in everything that the reader `h` tiers above the operands makes with `n` levels
left, its own included. A construct that nests has one level more than its parts. -/
structure Invariant (mode : Mode) (P : Nat → Nat → Expr → Prop) : Prop where
  number (n : Nat) : (number mode).Yields (P (n + 1) 0)
  string (n : Nat) (s : String) : P (n + 1) 0 (.string s)
  keyword (n : Nat) {name : String} (hname : Name.isShorthand name.toList = true) :
    P (n + 1) 0 (keyword name)
  query {n : Nat} (start : Start) {ss : List Segment} {t : List Char}
    (h : OfSegments mode (fun e _ => P n 5 e) ss t) : P (n + 1) 0 (Expr.ofPath ⟨start, ss⟩)
  call {n : Nat} {f : String} {args : List Expr} (hname : Name.isShorthand f.toList = true)
    (hargs : ∀ e ∈ args, P (n + 1) 5 e) : P (n + 2) 0 (.call f args)
  not {n : Nat} {e : Expr} (h : P n 0 e) : P (n + 1) 0 (.not e)
  negate {n : Nat} {e : Expr} (h : P n 0 e) : P (n + 1) 0 (.negate e)
  enclosed {n : Nat} {e : Expr} (h : P n 5 e) : P (n + 1) 0 e
  lift {n h : Nat} {e : Expr} (he : P n h e) : P n (h + 1) e
  join {n h : Nat} {op : BinaryOp} {l r : Expr} (hl : P n (h + 1) l) (hr : P n h r)
    (hlevel : op.level + h = 4) (comparable : Comparable mode op l r) :
    P n (h + 1) (.binary op l r)

structure NestedYields (P : Nat → Nat → Expr → Prop) (inner : Nested) (n : Nat) : Prop where
  expression : inner.expression.Yields (P n 5)
  unary : inner.unary.Yields (P n 0)
  arguments : inner.arguments.Yields fun args => 0 < n ∧ ∀ e ∈ args, P n 5 e

section
variable {mode : Mode} {inner : Nested} {P : Nat → Nat → Expr → Prop} {n : Nat}

theorem isShorthand_takeWhile {c : Char} (hc : Name.isFirst c = true) (tail : List Char) :
    Name.isShorthand ((c :: tail).takeWhile Name.isLater) = true := by
  have hlater : Name.isLater c = true := by simp [Name.isLater, hc]
  rw [List.takeWhile_cons_of_pos hlater, Name.isShorthand, hc, Bool.true_and]
  exact List.all_takeWhile

theorem requireSingular_yields (start : List Char) (e : Expr) :
    (requireSingular start e).Yields fun _ => e.isQuery = false := by
  cases e with
  | query p => exact yields_fail _ _
  | _ => exact yields_pure rfl

theorem operator_level {level : Nat} {op : BinaryOp} {input rest : List Char}
    (hfollows : operatorFollows level input = true)
    (h : operator.run (input.dropWhile isBlank) = .ok (op, rest)) : op.level = level := by
  rw [operatorFollows, (operator_sound h).1] at hfollows
  simpa using hfollows

theorem operation_yields {operand : QueryReader Expr} {Q : Expr → Prop} (hoperand : operand.Yields Q)
    {level : Nat} {start input rest : List Char} {first r : Expr} {op : BinaryOp}
    (hfollows : operatorFollows level input = true)
    (h : (operation mode operand start first).run input = .ok ((op, r), rest)) :
    op.level = level ∧ Q r ∧ Comparable mode op first r := by
  rw [operation, run_bind_ok (run_blanks _)] at h
  obtain ⟨op', between, hop, h⟩ := run_bind_eq_ok.mp h
  have hlevel := operator_level hfollows hop
  have hyields : ((do
      blanks
      let rightStart ← remaining
      let right ← operand
      if mode = .strict && op'.isComparison then do
        requireSingular start first
        requireSingular rightStart right
        pure (op', right)
      else pure (op', right) : QueryReader (BinaryOp × Expr))).Yields fun later =>
        later.1 = op' ∧ Q later.2 ∧ Comparable mode later.1 first later.2 := by
    refine Yields.after _ fun _ => Yields.after _ fun rightStart => hoperand.bind fun right hr => ?_
    split
    · refine (requireSingular_yields start first).bind fun _ hfirst => ?_
      refine (requireSingular_yields rightStart right).bind fun _ hright => ?_
      exact yields_pure ⟨rfl, hr, fun _ _ => ⟨hfirst, hright⟩⟩
    · next hfree =>
      refine yields_pure ⟨rfl, hr, fun hm hcomparison => absurd ?_ hfree⟩
      rw [hm, hcomparison]
      rfl
  obtain ⟨rfl, hr, comparable⟩ := hyields h
  exact ⟨hlevel, hr, comparable⟩

end

namespace Invariant

variable {mode : Mode} {inner : Nested} {P : Nat → Nat → Expr → Prop} {n : Nat}

theorem embedded (hP : Invariant mode P) (hinner : NestedYields P inner n) (start : Start) :
    (embedded mode inner start).Yields (P (n + 1) 0) := by
  have hsegments : Recognises (segments mode inner) (OfSegments mode fun e _ => P n 5 e) :=
    segments_sound hinner.expression.recognises
  refine Yields.bind (P := fun ss => ∃ t, OfSegments mode (fun e _ => P n 5 e) ss t) ?_ ?_
  · intro input rest ss hrun
    obtain ⟨t, -, ht⟩ := hsegments hrun
    exact ⟨t, ht⟩
  · rintro ss ⟨t, ht⟩
    exact yields_pure (hP.query start ht)

theorem named (hP : Invariant mode P) (hinner : NestedYields P inner n) {c : Char}
    {tail rest : List Char} {e : Expr} (hc : Name.isFirst c = true)
    (hrun : (named inner).run (c :: tail) = .ok (e, rest)) : P (n + 1) 0 e := by
  have hname : Name.isShorthand (String.ofList ((c :: tail).takeWhile Name.isLater)).toList =
      true := by
    rw [String.toList_ofList]
    exact isShorthand_takeWhile hc tail
  rw [Grammar.named, run_bind_ok (run_takeWhile _ _), run_bind_ok (run_peek _), run_ite] at hrun
  split at hrun
  · obtain ⟨args, hargs, rfl⟩ := run_map_eq_ok.mp hrun
    obtain ⟨hpos, hall⟩ := hinner.arguments hargs
    obtain ⟨m, rfl⟩ := Nat.exists_eq_add_one_of_ne_zero (Nat.ne_of_gt hpos)
    exact hP.call hname hall
  · cases hrun
    exact hP.keyword n hname

theorem primary (hP : Invariant mode P) (hinner : NestedYields P inner n) :
    (primary mode inner).Yields (P (n + 1) 0) := by
  intro input rest e hrun
  rw [Grammar.primary, run_bind_ok (run_peek _)] at hrun
  split at hrun
  · refine Yields.after _ (fun _ => Yields.after _ fun _ =>
      hinner.expression.bind fun e he => ?_) hrun
    exact Yields.after _ fun _ => Yields.after _ fun _ => yields_pure (hP.enclosed he)
  · exact Yields.after _ (fun _ => hP.embedded hinner .root) hrun
  · exact Yields.after _ (fun _ => hP.embedded hinner .current) hrun
  · next hc =>
    rw [run_ite, run_ite, run_ite] at hrun
    split at hrun
    · obtain ⟨s, -, rfl⟩ := run_map_eq_ok.mp hrun
      exact hP.string n s
    split at hrun
    · exact hP.number n hrun
    split at hrun
    · next hfirst =>
      obtain ⟨tail, rfl⟩ := List.head?_eq_some_iff.mp hc
      exact hP.named hinner hfirst hrun
    · cases hrun
  · cases hrun

theorem unary (hP : Invariant mode P) (hinner : NestedYields P inner n) :
    (unary mode inner).Yields (P (n + 1) 0) := by
  refine Yields.after _ fun input => ?_
  split
  · exact Yields.after _ fun _ => Yields.after _ fun _ => hinner.unary.map fun _ => hP.not
  · split
    · exact hP.number n
    · exact Yields.after _ fun _ => Yields.after _ fun _ => hinner.unary.map fun _ => hP.negate
  · exact hP.primary hinner

/-- Operands joined to the left: only the first can be a query to the left of an operator. -/
theorem foldl (hP : Invariant mode P) {h : Nat} {first : Expr} (hfirst : P n (h + 1) first)
    {later : List (BinaryOp × Expr)}
    (hlater : ∀ r ∈ later, r.1.level + h = 4 ∧ P n h r.2 ∧ Comparable mode r.1 first r.2) :
    P n (h + 1) (later.foldl (fun left later => .binary later.1 left later.2) first) := by
  suffices hleft : ∀ left, P n (h + 1) left → (first.isQuery = false → left.isQuery = false) →
      P n (h + 1) (later.foldl (fun left later => .binary later.1 left later.2) left) from
    hleft first hfirst id
  induction later with
  | nil => exact fun left hleft _ => hleft
  | cons r rest ih =>
    intro left hleft hquery
    rw [List.forall_mem_cons] at hlater
    obtain ⟨⟨hlevel, hright, comparable⟩, hrest⟩ := hlater
    have hjoined : Comparable mode r.1 left r.2 := by
      intro hm hop
      obtain ⟨hl, hr⟩ := comparable hm hop
      exact ⟨hquery hl, hr⟩
    exact ih hrest _ (hP.join hleft hright hlevel hjoined) fun _ => rfl

theorem chain (hP : Invariant mode P) {h level : Nat} (hlevel : level + h = 4)
    {operand : QueryReader Expr} (hoperand : operand.Yields (P n h)) :
    (chain mode level operand).Yields (P n (h + 1)) := by
  intro input rest e hrun
  obtain ⟨first, between, later, hfirst, hlater, rfl⟩ := chain_eq_ok_iff.mp hrun
  refine hP.foldl (hP.lift (hoperand hfirst)) ?_
  refine manyRun_induction (motive := fun _ later => ∀ r ∈ later,
    r.1.level + h = 4 ∧ P n h r.2 ∧ Comparable mode r.1 first r.2) ?_ ?_ hlater
  · exact fun _ r hr => absurd hr List.not_mem_nil
  · rintro _ ⟨op, r⟩ _ _ hfollows hitem ih
    obtain ⟨hop, hr, comparable⟩ := operation_yields hoperand hfollows hitem
    have hsum : op.level + h = 4 := by omega
    exact List.forall_mem_cons.mpr ⟨⟨hsum, hr, comparable⟩, ih⟩

theorem tier (hP : Invariant mode P) (hinner : NestedYields P inner n) {h : Nat} (hh : h ≤ 5) :
    (tier mode inner h).Yields (P (n + 1) h) := by
  induction h with
  | zero => exact hP.unary hinner
  | succ h ih => exact hP.chain (by omega) (ih (by omega))

theorem arguments (hP : Invariant mode P) (hinner : NestedYields P inner n) :
    (arguments mode inner).Yields fun args => ∀ e ∈ args, P (n + 1) 5 e := by
  refine Yields.after _ fun _ => Yields.after _ fun _ => Yields.after _ fun c => ?_
  split
  · exact Yields.after _ fun _ => yields_pure fun e he => absurd he List.not_mem_nil
  · have hlist : (commaList (expression mode inner)).Yields fun args =>
        ∀ e ∈ args, P (n + 1) 5 e := by
      intro input rest args hrun e he
      obtain ⟨t, -, ht⟩ := commaList_sound (hP.tier hinner (Nat.le_refl 5)).recognises hrun
      obtain ⟨_, hspelt⟩ := ht.forall_mem e he
      exact hspelt
    exact hlist.bind fun args hargs => Yields.after _ fun _ => Yields.after _ fun _ =>
      yields_pure hargs

theorem nested (hP : Invariant mode P) (n : Nat) : NestedYields P (nested mode n) n := by
  induction n with
  | zero =>
    have hnone {α : Type} (Q : α → Prop) :
        (do failAt (← remaining) .nestingTooDeep : QueryReader α).Yields Q :=
      Yields.after _ fun _ => yields_fail _ _
    exact ⟨hnone _, hnone _, hnone _⟩
  | succ n ih =>
    refine ⟨hP.tier ih (Nat.le_refl 5), hP.unary ih, ?_⟩
    intro input rest args hrun
    exact ⟨Nat.succ_pos n, hP.arguments ih hrun⟩

theorem path (hP : Invariant mode P) {text : String} {p : Path}
    (h : Path.parse text mode = .ok p) :
    p.start = .root ∧ ∃ t, OfSegments mode (fun e _ => P maxNesting 5 e) p.segments t := by
  obtain ⟨rest, hrun⟩ := Grammar.parse_eq_ok_iff.mp h
  generalize text.toList = chars at hrun
  have hspelt := query_sound (hP.nested maxNesting).expression.recognises hrun
  cases hspelt with
  | root _ _ hsegments _ => exact ⟨rfl, _, hsegments⟩

end Invariant
end Grammar
end JsonPath
