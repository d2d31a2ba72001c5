import JsonPath.Proofs.Segments
import JsonPath.Proofs.Spelling.Condition
import Mathlib.Order.Basic

set_option autoImplicit false

/-!
# Binary operators

Operators of one level are read in a chain whose operands are read by the chain of the next level.
A tree of operators is found again from its spelling: what stands left of an operator of the level
is the beginning of the chain, and what stands right of it is a single operand.
-/
namespace JsonPath.Grammar
open Reader Spelling

variable {mode : Mode} {inner : Nested}

def delimiters : List Char :=
  [',', ']', ')', '|', '&', '=', '!', '<', '>', '+', '-', '*', '/']

/-- Behind optional blanks stands what may end an operand, an operator for instance. -/
structure EndsOperand (mode : Mode) (rest : List Char) : Prop where
  delimiter : ∃ c tail, rest.dropWhile isBlank = c :: tail ∧ c ∈ delimiters
  dash : mode = .lenient → rest.head? ≠ some '-'

theorem EndsOperand.head {rest : List Char} (h : EndsOperand mode rest) {c : Char}
    (hc : c ∈ rest.head?) : c ∈ [' ', '\t', '\n', '\r'] ++ delimiters := by
  obtain ⟨d, tail, hrest, hd⟩ := h.delimiter
  obtain ⟨more, rfl⟩ := List.head?_eq_some_iff.mp hc
  by_cases hblank : isBlank c = true
  · have hmem : c ∈ [' ', '\t', '\n', '\r'] := by simpa using (isBlank_iff c).mp hblank
    exact List.mem_append_left _ hmem
  · rw [dropWhile_nonblank (by simpa using hblank)] at hrest
    cases hrest
    exact List.mem_append_right _ hd

theorem delimiters_plain {c : Char} (hc : c ∈ [' ', '\t', '\n', '\r'] ++ delimiters) :
    c.isDigit = false ∧ isFloatMark c = false ∧ Name.isLater c = false ∧ c ≠ '(' := by
  have hall : ([' ', '\t', '\n', '\r'] ++ delimiters).all (fun c =>
      !c.isDigit && (!isFloatMark c && (!Name.isLater c && c != '('))) = true := by
    decide
  simpa using List.all_eq_true.mp hall c hc

theorem EndsOperand.number {rest : List Char} (h : EndsOperand mode rest) : EndsNumber rest := by
  intro c hc
  obtain ⟨hdigit, hmark, -⟩ := delimiters_plain (h.head hc)
  exact ⟨hdigit, hmark⟩

theorem EndsOperand.segments {rest : List Char} (h : EndsOperand mode rest) :
    EndsSegments mode rest where
  name c hc := by
    obtain ⟨-, -, hlater, -⟩ := delimiters_plain (h.head hc)
    rintro (hname | ⟨hm, rfl⟩)
    · rw [hlater] at hname
      cases hname
    · exact h.dash hm hc
  segment := by
    obtain ⟨c, tail, hrest, hc⟩ := h.delimiter
    have hall : delimiters.all (fun c => !(c == '.' || c == '[')) = true := by decide
    rw [segmentFollows, hrest]
    simpa using List.all_eq_true.mp hall c hc

theorem endsOperand_of_endsItem {rest : List Char} (h : EndsItem rest) : EndsOperand mode rest where
  delimiter := by
    obtain ⟨c, tail, hrest, hc⟩ := h
    refine ⟨c, tail, hrest, ?_⟩
    rcases hc with rfl | rfl | rfl <;> decide
  dash _ hdash := by
    obtain ⟨tail, rfl⟩ := List.head?_eq_some_iff.mp hdash
    obtain ⟨c, tail', hrest, hc⟩ := h
    rw [dropWhile_nonblank (by decide)] at hrest
    cases hrest
    revert hc
    decide

theorem operator?_chars (op : BinaryOp) {tail : List Char} (h : ∀ c ∈ tail.head?, c ≠ '=') :
    operator? (op.chars ++ tail) = some op := by
  cases tail with
  | nil => cases op <;> rfl
  | cons c tail =>
    have hc := h c rfl
    cases op <;> simp [BinaryOp.chars, operator?, hc]

theorem operator_sound {op : BinaryOp} {input rest : List Char}
    (h : operator.run input = .ok (op, rest)) :
    operator? input = some op ∧ input = op.chars ++ rest := by
  rw [operator, run_bind_ok (run_remaining _)] at h
  cases hop : operator? input with
  | none =>
    simp only [hop] at h
    obtain ⟨_, _, -, h⟩ := run_bind_eq_ok.mp h
    cases h
  | some op' =>
    simp only [hop] at h
    unfold operator? at hop
    split at hop <;> cases hop <;> cases h <;> exact ⟨rfl, rfl⟩

theorem operator?_endsItem {rest : List Char} (h : EndsItem rest) :
    operator? (rest.dropWhile isBlank) = none := by
  obtain ⟨c, tail, hrest, hc⟩ := h
  rw [hrest]
  rcases hc with rfl | rfl | rfl <;> rfl

theorem operator_run_of_operator? {op : BinaryOp} {tail : List Char}
    (h : operator? (op.chars ++ tail) = some op) :
    operator.run (op.chars ++ tail) = .ok (op, tail) := by
  rw [operator, run_bind_ok (run_remaining _), h]
  cases op <;> rfl

theorem operator_run (op : BinaryOp) {tail : List Char} (h : ∀ c ∈ tail.head?, c ≠ '=') :
    operator.run (op.chars ++ tail) = .ok (op, tail) :=
  operator_run_of_operator? (operator?_chars op h)

theorem chars_head (op : BinaryOp) :
    ∃ c tail, op.chars = c :: tail ∧ c ∈ delimiters ∧ isBlank c = false ∧
      (c = '-' → op = .subtract) := by
  cases op <;> exact ⟨_, _, rfl, by decide, by decide, by decide⟩

/-- The text can begin an operand: neither a blank stands first, nor the end of a call, nor what
would change the operator before it. -/
def Opens (t : List Char) : Prop :=
  ∃ c tail, t = c :: tail ∧ isBlank c = false ∧ c ≠ '=' ∧ c ≠ ')'

theorem Opens.dropWhile {t : List Char} (h : Opens t) (rest : List Char) :
    (t ++ rest).dropWhile isBlank = t ++ rest := by
  obtain ⟨c, tail, rfl, hblank, -⟩ := h
  exact dropWhile_nonblank hblank _

theorem Opens.after_blanks {b t : List Char} (ht : Opens t) (hb : Blanks b) (rest : List Char) :
    ∀ c ∈ (b ++ (t ++ rest)).head?, c ≠ '=' := by
  intro c hc
  cases b with
  | nil =>
    obtain ⟨d, tail, rfl, -, heq, -⟩ := ht
    cases hc
    exact heq
  | cons d b =>
    cases hc
    rcases hb c List.mem_cons_self with rfl | rfl | rfl | rfl <;> decide

theorem requireSingular_run {e : Expr} (he : e.isQuery = false) (start input : List Char) :
    (requireSingular start e).run input = .ok ((), input) := by
  cases e with
  | query p => cases he
  | _ => rfl

theorem operator_blanks {b : List Char} (hb : Blanks b) (op : BinaryOp) (tail : List Char) :
    (b ++ (op.chars ++ tail)).dropWhile isBlank = op.chars ++ tail := by
  obtain ⟨c, more, hchars, -, hblank, -⟩ := chars_head op
  rw [hchars]
  exact dropWhile_blanks_cons hb hblank _

theorem endsOperand_operator {b : List Char} (hb : Blanks b) {op : BinaryOp}
    (dash : mode = .lenient → op = .subtract → b ≠ []) (tail : List Char) :
    EndsOperand mode (b ++ (op.chars ++ tail)) := by
  obtain ⟨c, more, hchars, hc, -, hdash⟩ := chars_head op
  refine ⟨⟨c, more ++ tail, by rw [operator_blanks hb, hchars]; rfl, hc⟩, ?_⟩
  intro hm hhead
  cases b with
  | nil =>
    rw [hchars] at hhead
    exact dash hm (hdash (Option.some.inj hhead)) rfl
  | cons d b =>
    cases hhead
    have hd := hb '-' List.mem_cons_self
    revert hd
    decide

theorem operator?_blanks {b : List Char} (hb : Blanks b) (op : BinaryOp) {tail : List Char}
    (htail : ∀ c ∈ tail.head?, c ≠ '=') :
    operator? ((b ++ (op.chars ++ tail)).dropWhile isBlank) = some op := by
  rw [operator_blanks hb, operator?_chars op htail]

theorem operatorFollows_blanks {b : List Char} (hb : Blanks b) {op : BinaryOp} {tail : List Char}
    (htail : ∀ c ∈ tail.head?, c ≠ '=') {h : Nat} (hlevel : op.level + h = 4) :
    operatorFollows (4 - h) (b ++ (op.chars ++ tail)) = true := by
  have hsame : op.level = 4 - h := by omega
  rw [operatorFollows, operator?_blanks hb op htail]
  simpa using hsame

theorem operation_run {operand : QueryReader Expr} {first r : Expr} {op : BinaryOp}
    {b b' t' mid : List Char} (hb : Blanks b) (hb' : Blanks b') (ht' : Opens t')
    (hr : operand.run (t' ++ mid) = .ok (r, mid)) (comparable : Comparable mode op first r)
    (start : List Char) :
    (operation mode operand start first).run (b ++ (op.chars ++ (b' ++ (t' ++ mid)))) =
      .ok ((op, r), mid) := by
  rw [operation, run_bind_ok (run_blanks _), operator_blanks hb,
    run_bind_ok (operator_run op (ht'.after_blanks hb' mid)), run_bind_ok (run_blanks _),
    dropWhile_blanks hb', ht'.dropWhile, run_bind_ok (run_remaining _), run_bind_ok hr, run_ite]
  split
  · next hstrict =>
    obtain ⟨hm, hcomparison⟩ : mode = .strict ∧ op.isComparison = true := by simpa using hstrict
    obtain ⟨hfirst, hright⟩ := comparable hm hcomparison
    rw [run_bind_ok (requireSingular_run hfirst _ _), run_bind_ok (requireSingular_run hright _ _)]
    rfl
  · rfl

theorem chain_eq_ok_iff {level : Nat} {operand : QueryReader Expr} {input rest : List Char}
    {e : Expr} :
    (chain mode level operand).run input = .ok (e, rest) ↔
      ∃ first between later, operand.run input = .ok (first, between) ∧
        manyRun (operatorFollows level) (operation mode operand input first)
          (strict_operation mode operand input first) between = .ok (later, rest) ∧
        e = later.foldl (fun left later => .binary later.1 left later.2) first := by
  rw [chain, run_bind_ok (run_remaining _)]
  simp only [run_bind_eq_ok, run_many, run_pure, Except.ok.injEq, Prod.mk.injEq]
  constructor
  · rintro ⟨first, between, hfirst, later, _, hlater, rfl, rfl⟩
    exact ⟨first, between, later, hfirst, hlater, rfl⟩
  · rintro ⟨first, between, later, hfirst, hlater, rfl⟩
    exact ⟨first, between, hfirst, later, rest, hlater, rfl, rfl⟩

/-- The readers of the levels, counted from the operands of the strongest operators. -/
def tier (mode : Mode) (inner : Nested) : Nat → QueryReader Expr
  | 0 => unary mode inner
  | h + 1 => chain mode (4 - h) (tier mode inner h)

theorem expression_eq (mode : Mode) (inner : Nested) :
    expression mode inner = tier mode inner 5 := rfl

/-- No operator that the reader `h` tiers up would take stands behind the text. -/
def Below (h : Nat) (rest : List Char) : Prop :=
  ∀ op, operator? (rest.dropWhile isBlank) = some op → op.level + h < 5

theorem below_blanks {b : List Char} (hb : Blanks b) {op : BinaryOp} {tail : List Char}
    (htail : ∀ c ∈ tail.head?, c ≠ '=') {h : Nat} (hlevel : op.level + h = 4) :
    Below h (b ++ (op.chars ++ tail)) := by
  intro op' hop
  rw [operator?_blanks hb op htail] at hop
  cases hop
  omega

theorem operatorFollows_below {h : Nat} {rest : List Char} (hh : h < 5)
    (hbelow : Below (h + 1) rest) : operatorFollows (4 - h) rest = false := by
  rw [operatorFollows]
  cases hop : operator? (rest.dropWhile isBlank) with
  | none => rfl
  | some op =>
    have hlevel := hbelow op hop
    have hne : op.level ≠ 4 - h := by omega
    simpa using hne

/-- The reader `h` tiers up takes the text as the expression. -/
def ReadsAt (mode : Mode) (inner : Nested) (h : Nat) (e : Expr) (t : List Char) : Prop :=
  ∀ ⦃rest : List Char⦄, EndsOperand mode rest → Below h rest →
    (tier mode inner h).run (t ++ rest) = .ok (e, rest)

/-- The text is the beginning of a chain of the tier above `h`, which joins the operands so far to
the expression and goes on with whatever more of the chain follows. -/
def JoinsAt (mode : Mode) (inner : Nested) (h : Nat) (e : Expr) (t : List Char) : Prop :=
  ∀ (start : List Char) ⦃mid : List Char⦄, EndsOperand mode mid → Below h mid →
    ∃ first between later, (tier mode inner h).run (t ++ mid) = .ok (first, between) ∧
      later.foldl (fun left later => .binary later.1 left later.2) first = e ∧
      (later ≠ [] → mode = .strict → h = 2 → first.isQuery = false) ∧
      manyRun (operatorFollows (4 - h)) (operation mode (tier mode inner h) start first)
          (strict_operation _ _ _ _) between =
        (manyRun (operatorFollows (4 - h)) (operation mode (tier mode inner h) start first)
          (strict_operation _ _ _ _) mid).map fun more => (later ++ more.1, more.2)

theorem ReadsAt.joins {h : Nat} {e : Expr} {t : List Char} (hreads : ReadsAt mode inner h e t) :
    JoinsAt mode inner h e t := by
  intro start mid hmid hbelow
  refine ⟨e, mid, [], hreads hmid hbelow, rfl, fun hnil => absurd rfl hnil, ?_⟩
  exact (congrFun Except.map_id _).symm

theorem JoinsAt.reads {h : Nat} {e : Expr} {t : List Char} (hjoins : JoinsAt mode inner h e t)
    (hh : h < 5) : ReadsAt mode inner (h + 1) e t := by
  intro rest hrest hbelow
  have hweaker : Below h rest := fun op hop => by
    have hlevel := hbelow op hop
    omega
  obtain ⟨first, between, later, hfirst, hfold, -, hmany⟩ := hjoins (t ++ rest) hrest hweaker
  rw [manyRun_stop (operatorFollows_below hh hbelow), Except.map, List.append_nil] at hmany
  exact chain_eq_ok_iff.mpr ⟨first, between, later, hfirst, hmany, hfold.symm⟩

theorem ReadsAt.lift {h h' : Nat} {e : Expr} {t : List Char} (hreads : ReadsAt mode inner h e t)
    (hle : h ≤ h') (hh : h' ≤ 5) : ReadsAt mode inner h' e t := by
  induction h', hle using Nat.le_induction with
  | base => exact hreads
  | succ k hk ih => exact (ih (by omega)).joins.reads (by omega)

theorem isComparison_iff (op : BinaryOp) : op.isComparison = true ↔ op.level = 2 := by
  simp [BinaryOp.isComparison]

theorem JoinsAt.binary {h : Nat} {op : BinaryOp} {l r : Expr} {t t' b b' : List Char}
    (hl : JoinsAt mode inner h l t) (hr : ReadsAt mode inner h r t') (hlevel : op.level + h = 4)
    (hb : Blanks b) (hb' : Blanks b') (ht' : Opens t') (comparable : Comparable mode op l r)
    (dash : mode = .lenient → op = .subtract → b ≠ []) :
    JoinsAt mode inner h (.binary op l r) (t ++ (b ++ (op.chars ++ (b' ++ t')))) := by
  intro start mid hmid hbelow
  have hafter := ht'.after_blanks hb' mid
  have hends := endsOperand_operator hb dash (b' ++ (t' ++ mid))
  have hfollows := operatorFollows_blanks hb hafter hlevel
  obtain ⟨first, between, later, hfirst, hfold, hquery, hmany⟩ :=
    hl start hends (below_blanks hb hafter hlevel)
  -- the reader looks at the first operand of the chain, which is `l` only at its beginning
  have hcomparable : Comparable mode op first r := by
    intro hm hcomparison
    obtain ⟨hl, hr⟩ := comparable hm hcomparison
    refine ⟨?_, hr⟩
    cases later with
    | nil =>
      cases hfold
      exact hl
    | cons _ _ =>
      have htwo := (isComparison_iff op).mp hcomparison
      exact hquery (by simp) hm (by omega)
  have hstep := operation_run hb hb' ht' (hr hmid hbelow) hcomparable start
  refine ⟨first, between, later ++ [(op, r)], by simpa using hfirst, ?_, ?_, ?_⟩
  · rw [List.foldl_append, hfold]
    rfl
  · intro _ hm htwo
    exact (hcomparable hm ((isComparison_iff op).mpr (by omega))).1
  · rw [hmany, manyRun_cons hfollows hstep]
    cases manyRun (operatorFollows (4 - h)) (operation mode (tier mode inner h) start first)
      (strict_operation _ _ _ _) mid with
    | error e => rfl
    | ok more => simp [Except.map]

/-- Provided that every operand between operators is read, so is every tree of operators. Left of an
operator the derivation stays at its level and the chain grows; right of it the level rises. -/
theorem ofExpr_run {spelt : Inner}
    (hunary : ∀ e t, OfUnary mode spelt e t → Opens t ∧ ReadsAt mode inner 0 e t) {level : Nat}
    {e : Expr} {t : List Char} (h : OfExpr mode spelt level e t) :
    Opens t ∧ (∀ h, level + h = 5 → ReadsAt mode inner h e t) ∧
      ∀ h, level + h = 4 → JoinsAt mode inner h e t := by
  induction h with
  | unary h =>
    obtain ⟨hopens, hreads⟩ := hunary _ _ h
    exact ⟨hopens, fun h hh => hreads.lift (by omega) (by omega),
      fun h hh => (hreads.lift (by omega) (by omega)).joins⟩
  | @binary level op l r t t' b b' hlevel _ hb hb' _ comparable dash ihl ihr =>
    obtain ⟨hopens, -, hjoins⟩ := ihl
    obtain ⟨hopens', hreads', -⟩ := ihr
    have hfour : op.level ≤ 4 := by cases op <;> decide
    have hjoined := (hjoins (4 - op.level) (by omega)).binary
      (hreads' (4 - op.level) (by omega)) (by omega) hb hb' hopens' comparable dash
    have hreads := hjoined.reads (by omega)
    refine ⟨?_, fun h hh => hreads.lift (by omega) (by omega), fun h hh => ?_⟩
    · obtain ⟨c, tail, rfl, hc⟩ := hopens
      exact ⟨c, tail ++ (b ++ (op.chars ++ (b' ++ t'))), rfl, hc⟩
    · rcases Nat.eq_or_lt_of_le hlevel with heq | hlt
      · have hsame : h = 4 - op.level := by omega
        rw [hsame]
        exact hjoined
      · exact (hreads.lift (by omega) (by omega)).joins

theorem below_of_endsItem {h : Nat} {rest : List Char} (hrest : EndsItem rest) : Below h rest := by
  intro op hop
  rw [operator?_endsItem hrest] at hop
  cases hop

end JsonPath.Grammar
