import JsonPath.Proofs.Operators

set_option autoImplicit false

/-!
# Conditions

Every spelling of an expression is read as the expression, when no more nesting levels are used in
it than are left. The induction is on these levels.
-/
namespace JsonPath.Grammar
open Reader Spelling

variable {mode : Mode} {inner : Nested} {spelt : Inner}

structure NestedReads (mode : Mode) (inner : Nested) (spelt : Inner) : Prop where
  expression : ReadsItems inner.expression spelt.expression
  unary : ∀ ⦃e : Expr⦄ ⦃t rest : List Char⦄, spelt.unary e t → EndsOperand mode rest →
    inner.unary.run ((t ++ rest).dropWhile isBlank) = .ok (e, rest)
  arguments : ∀ ⦃args : List Expr⦄ ⦃t : List Char⦄, spelt.arguments args t →
    ∀ rest, inner.arguments.run (t ++ rest) = .ok (args, rest)
  opening : ∀ ⦃args : List Expr⦄ ⦃t : List Char⦄, spelt.arguments args t → ∃ tail, t = '(' :: tail

theorem first_ne {c d : Char} (hc : Name.isFirst c = true) (hd : Name.isFirst d = false) :
    c ≠ d := by
  rintro rfl
  rw [hc] at hd
  cases hd

theorem isDigit_of_first {c : Char} (hc : Name.isFirst c = true) : c.isDigit = false := by
  rw [Bool.eq_false_iff]
  intro hd
  -- digits lie below the letters, the underscore and what is not ASCII
  have hhigh : c.toNat ≤ 57 := (Char.isDigit_iff_toNat.mp hd).2
  simp only [Name.isFirst, Bool.or_eq_true, decide_eq_true_eq, beq_iff_eq] at hc
  rcases hc with (halpha | rfl) | hbeyond
  · have hcases : (c.isUpper || c.isLower) = true := halpha
    rcases Bool.or_eq_true_iff.mp hcases with hupper | hlower
    · have hrange : 'A'.val ≤ c.val ∧ c.val ≤ 'Z'.val := of_decide_eq_true hupper
      have hlow : 65 ≤ c.toNat := UInt32.le_iff_toNat_le.mp hrange.1
      omega
    · have hrange : (decide ('a'.val ≤ c.val) && decide (c.val ≤ 'z'.val)) = true := hlower
      have hlow : 97 ≤ c.toNat :=
        UInt32.le_iff_toNat_le.mp (of_decide_eq_true (Bool.and_eq_true_iff.mp hrange).1)
      omega
  · revert hd
    decide
  · have hlow : 128 ≤ c.toNat := UInt32.le_iff_toNat_le.mp hbeyond
    omega

theorem isBlank_of_first {c : Char} (hc : Name.isFirst c = true) : isBlank c = false := by
  rw [Bool.eq_false_iff]
  intro hblank
  rcases (isBlank_iff c).mp hblank with rfl | rfl | rfl | rfl <;> revert hc <;> decide

theorem isBlank_of_digit {c : Char} (hc : c.isDigit = true) : isBlank c = false :=
  isBlank_of_index (.inr hc)

theorem name_cons {name : String} (h : Name.isShorthand name.toList = true) :
    ∃ c tail, name.toList = c :: tail ∧ Name.isFirst c = true ∧
      ∀ d ∈ name.toList, Name.isLater d = true := by
  cases hname : name.toList with
  | nil =>
    rw [hname] at h
    cases h
  | cons c tail =>
    rw [hname] at h
    simp only [Name.isShorthand, Bool.and_eq_true, List.all_eq_true] at h
    refine ⟨c, tail, rfl, h.1, ?_⟩
    intro d hd
    rcases List.mem_cons.mp hd with rfl | hd
    · simp [Name.isLater, h.1]
    · exact h.2 d hd

theorem opens_first {c : Char} (hc : Name.isFirst c = true) (tail : List Char) :
    Opens (c :: tail) :=
  ⟨c, tail, rfl, isBlank_of_first hc, first_ne hc (by decide), first_ne hc (by decide)⟩

theorem ofUnary_opens {e : Expr} {t : List Char} (h : OfUnary mode spelt e t) : Opens t := by
  cases h with
  | enclosed _ _ _ => exact ⟨'(', _, rfl, by decide, by decide, by decide⟩
  | @query start _ _ _ => cases start <;> exact ⟨_, _, rfl, by decide, by decide, by decide⟩
  | string h =>
    cases h with
    | quoted quote hq _ =>
      rcases hq with rfl | rfl <;> exact ⟨_, _, rfl, by decide, by decide, by decide⟩
  | number h =>
    obtain ⟨negative, d, tail, rfl, hd⟩ := number_head h
    cases negative with
    | true => exact ⟨'-', d :: tail, rfl, by decide, by decide, by decide⟩
    | false =>
      exact ⟨d, tail, rfl, isBlank_of_digit hd, digit_ne hd (by decide), digit_ne hd (by decide)⟩
  | word h =>
    obtain ⟨c, tail, hname, hc, -⟩ := name_cons h
    rw [hname]
    exact opens_first hc tail
  | call h _ =>
    obtain ⟨c, tail, hname, hc, -⟩ := name_cons h
    rw [hname]
    exact opens_first hc _
  | not _ _ => exact ⟨'!', _, rfl, by decide, by decide, by decide⟩
  | negate _ _ _ => exact ⟨'-', _, rfl, by decide, by decide, by decide⟩

theorem unary_not (input : List Char) :
    (unary mode inner).run ('!' :: input) =
      (Expr.not <$> inner.unary).run (input.dropWhile isBlank) := rfl

theorem unary_negate {input : List Char} (h : ∀ c ∈ input.head?, c.isDigit = false) :
    (unary mode inner).run ('-' :: input) =
      (Expr.negate <$> inner.unary).run (input.dropWhile isBlank) := by
  have hsigned : ¬ signedNumberFollows ('-' :: input) = true := by
    cases input with
    | nil => decide
    | cons c tail => simpa [signedNumberFollows] using h c rfl
  change (if signedNumberFollows ('-' :: input) then number mode
    else do skip 1; blanks; Expr.negate <$> inner.unary).run ('-' :: input) = _
  rw [if_neg hsigned]
  rfl

theorem unary_signed {d : Char} (hd : d.isDigit = true) (input : List Char) :
    (unary mode inner).run ('-' :: d :: input) = (number mode).run ('-' :: d :: input) := by
  change (if signedNumberFollows ('-' :: d :: input) then number mode
    else do skip 1; blanks; Expr.negate <$> inner.unary).run ('-' :: d :: input) = _
  have hsigned : signedNumberFollows ('-' :: d :: input) = true := hd
  rw [if_pos hsigned]

theorem unary_primary {c : Char} (hnot : c ≠ '!') (hminus : c ≠ '-') (input : List Char) :
    (unary mode inner).run (c :: input) = (primary mode inner).run (c :: input) := by
  rw [unary, run_bind_ok (run_remaining _)]
  split
  · next h => exact absurd (Option.some.inj h) hnot
  · next h => exact absurd (Option.some.inj h) hminus
  · rfl

theorem unary_query (start : Start) (input : List Char) :
    (unary mode inner).run (start.char :: input) = (embedded mode inner start).run input := by
  cases start <;> rfl

theorem unary_quote {quote : Char} (hq : quote = '\'' ∨ quote = '"') (input : List Char) :
    (unary mode inner).run (quote :: input) =
      (Expr.string <$> stringLiteral mode).run (quote :: input) := by
  rcases hq with rfl | rfl <;> rfl

theorem primary_other {c : Char} (hopen : c ≠ '(') (hroot : c ≠ '$') (hcurrent : c ≠ '@')
    (hsingle : c ≠ '\'') (hdouble : c ≠ '"') (input : List Char) :
    (primary mode inner).run (c :: input) =
      (if c.isDigit then number mode
        else if Name.isFirst c then named inner else unexpected).run (c :: input) := by
  have hquote : ¬ (c = '\'' || c = '"') = true := by simp [hsingle, hdouble]
  rw [primary, run_bind_ok (run_peek _)]
  split
  · next h => exact absurd (Option.some.inj h) hopen
  · next h => exact absurd (Option.some.inj h) hroot
  · next h => exact absurd (Option.some.inj h) hcurrent
  · next h =>
    cases h
    rw [if_neg hquote]
  · next h => cases h

theorem unary_digit {d : Char} (hd : d.isDigit = true) (input : List Char) :
    (unary mode inner).run (d :: input) = (number mode).run (d :: input) := by
  rw [unary_primary (digit_ne hd (by decide)) (digit_ne hd (by decide)),
    primary_other (digit_ne hd (by decide)) (digit_ne hd (by decide)) (digit_ne hd (by decide))
      (digit_ne hd (by decide)) (digit_ne hd (by decide)), if_pos hd]

theorem unary_first {c : Char} (hc : Name.isFirst c = true) (input : List Char) :
    (unary mode inner).run (c :: input) = (named inner).run (c :: input) := by
  have hdigit : ¬ c.isDigit = true := by simp [isDigit_of_first hc]
  rw [unary_primary (first_ne hc (by decide)) (first_ne hc (by decide)),
    primary_other (first_ne hc (by decide)) (first_ne hc (by decide)) (first_ne hc (by decide))
      (first_ne hc (by decide)) (first_ne hc (by decide)), if_neg hdigit, if_pos hc]

theorem named_word {name : String} {rest : List Char}
    (hlater : ∀ d ∈ name.toList, Name.isLater d = true)
    (hrest : ∀ c ∈ rest.head?, Name.isLater c = false) (hcall : rest.head? ≠ some '(') :
    (named inner).run (name.toList ++ rest) = .ok (keyword name, rest) := by
  have hname : (takeWhile Name.isLater : QueryReader (List Char)).run (name.toList ++ rest) =
      .ok (name.toList, rest) := by
    rw [run_takeWhile, takeWhile_append_of_all hlater hrest, dropWhile_append_of_all hlater hrest]
  have hnot : ¬ (rest.head? == some '(') = true := by simpa using hcall
  rw [named, run_bind_ok hname, run_bind_ok (run_peek _), if_neg hnot, run_pure,
    String.ofList_toList]

theorem named_call {name : String} (hlater : ∀ d ∈ name.toList, Name.isLater d = true)
    (rest : List Char) :
    (named inner).run (name.toList ++ '(' :: rest) =
      (Expr.call name <$> inner.arguments).run ('(' :: rest) := by
  have hend : ∀ c ∈ ('(' :: rest).head?, Name.isLater c = false := by
    rintro c ⟨⟩
    decide
  have hname : (takeWhile Name.isLater : QueryReader (List Char)).run (name.toList ++ '(' :: rest) =
      .ok (name.toList, '(' :: rest) := by
    rw [run_takeWhile, takeWhile_append_of_all hlater hend, dropWhile_append_of_all hlater hend]
  have hcall : ((('(' :: rest).head? : Option Char) == some '(') = true := rfl
  rw [named, run_bind_ok hname, run_bind_ok (run_peek _), if_pos hcall, String.ofList_toList]

theorem unary_call {name : String} (h : Name.isShorthand name.toList = true) (rest : List Char) :
    (unary mode inner).run (name.toList ++ '(' :: rest) =
      (Expr.call name <$> inner.arguments).run ('(' :: rest) := by
  obtain ⟨c, tail, hname, hc, hlater⟩ := name_cons h
  rw [← named_call hlater, hname, List.cons_append, unary_first hc]

theorem expect_close {between b : List Char} (hb : Blanks b) (rest : List Char)
    (hsame : between.dropWhile isBlank = (b ++ ')' :: rest).dropWhile isBlank) :
    (expect ')').run (between.dropWhile isBlank) = .ok ((), rest) := by
  rw [hsame, dropWhile_blanks_cons hb (by decide)]
  exact run_expect_eq_ok.mpr rfl

theorem endsList_close {b : List Char} (hb : Blanks b) (rest : List Char) :
    EndsList (b ++ ')' :: rest) :=
  ⟨')', rest, dropWhile_blanks_cons hb (by decide) rest, .inr rfl⟩

section
variable (hinner : NestedReads mode inner spelt) {rest : List Char} (hrest : EndsOperand mode rest)

include hinner in
theorem enclosed_run {e : Expr} {b t b' : List Char} (hb : Blanks b) (h : spelt.expression e t)
    (hb' : Blanks b') :
    (unary mode inner).run ('(' :: (b ++ (t ++ (b' ++ [')']))) ++ rest) = .ok (e, rest) := by
  obtain ⟨between, hrun, hsame⟩ := hinner.expression h (endsList_close hb' rest).endsItem
  have hsplit : b ++ (t ++ (b' ++ [')'])) ++ rest = b ++ (t ++ (b' ++ ')' :: rest)) := by simp
  rw [List.cons_append, hsplit]
  change (blanks >>= fun _ => inner.expression >>= fun e => blanks >>= fun _ =>
    expect ')' >>= fun _ => pure e).run (b ++ (t ++ (b' ++ ')' :: rest))) = _
  rw [run_bind_ok (run_blanks _), dropWhile_blanks hb, run_bind_ok hrun,
    run_bind_ok (run_blanks _), run_bind_ok (expect_close hb' rest hsame), run_pure]

include hinner hrest in
theorem query_operand_run {start : Start} {ss : List Segment} {t : List Char}
    (h : OfSegments mode spelt.expression ss t) :
    (unary mode inner).run (start.char :: t ++ rest) = .ok (Expr.ofPath ⟨start, ss⟩, rest) := by
  rw [List.cons_append, unary_query, embedded,
    run_bind_ok (segments_run hinner.expression h hrest.segments), run_pure]

theorem string_operand_run {s : String} {t : List Char} (h : OfString mode s t) :
    (unary mode inner).run (t ++ rest) = .ok (.string s, rest) := by
  have hrun := stringLiteral_run h rest
  cases h with
  | @quoted t quote hq ht =>
    rw [List.cons_append] at hrun ⊢
    rw [unary_quote hq]
    exact run_map_eq_ok.mpr ⟨s, hrun, rfl⟩

include hrest in
theorem number_operand_run {e : Expr} {t : List Char} (h : (number mode).run t = .ok (e, [])) :
    (unary mode inner).run (t ++ rest) = .ok (e, rest) := by
  have hrun := number_append hrest.number h
  obtain ⟨negative, d, tail, rfl, hd⟩ := number_head h
  cases negative with
  | true =>
    change (unary mode inner).run ('-' :: d :: (tail ++ rest)) = _
    rw [unary_signed hd]
    exact hrun
  | false =>
    change (unary mode inner).run (d :: (tail ++ rest)) = _
    rw [unary_digit hd]
    exact hrun

include hrest in
theorem word_operand_run {name : String} (h : Name.isShorthand name.toList = true) :
    (unary mode inner).run (name.toList ++ rest) = .ok (keyword name, rest) := by
  obtain ⟨c, tail, hname, hc, hlater⟩ := name_cons h
  have hrun : (named inner).run (name.toList ++ rest) = .ok (keyword name, rest) :=
    named_word hlater (fun c hc => (delimiters_plain (hrest.head hc)).2.2.1)
      (fun hc => (delimiters_plain (hrest.head hc)).2.2.2 rfl)
  rw [hname, List.cons_append] at hrun ⊢
  rw [unary_first hc, hrun]

include hinner in
theorem call_operand_run {name : String} {args : List Expr} {t : List Char}
    (h : Name.isShorthand name.toList = true) (hargs : spelt.arguments args t) :
    (unary mode inner).run (name.toList ++ t ++ rest) = .ok (.call name args, rest) := by
  obtain ⟨more, rfl⟩ := hinner.opening hargs
  rw [List.append_assoc, List.cons_append, unary_call h]
  exact run_map_eq_ok.mpr ⟨args, hinner.arguments hargs rest, rfl⟩

include hinner hrest in
theorem negate_operand_run {e : Expr} {b t : List Char} (hb : Blanks b) (h : spelt.unary e t)
    (hdigit : ∀ c ∈ (b ++ t).head?, c.isDigit = false) :
    (unary mode inner).run ('-' :: (b ++ t) ++ rest) = .ok (.negate e, rest) := by
  -- if nothing were to follow the sign, the rest would come next, and no digit stands there
  have hhead : ∀ c ∈ (b ++ t ++ rest).head?, c.isDigit = false := by
    intro c hc
    cases hbt : b ++ t with
    | nil =>
      rw [hbt] at hc
      exact (delimiters_plain (hrest.head hc)).1
    | cons d tail =>
      rw [hbt] at hc
      cases hc
      exact hdigit c (by rw [hbt]; rfl)
  rw [List.cons_append, unary_negate hhead, List.append_assoc, dropWhile_blanks hb]
  exact run_map_eq_ok.mpr ⟨e, hinner.unary h hrest, rfl⟩

include hinner hrest in
theorem ofUnary_run {e : Expr} {t : List Char} (h : OfUnary mode spelt e t) :
    (unary mode inner).run (t ++ rest) = .ok (e, rest) := by
  cases h with
  | enclosed hb h hb' => exact enclosed_run hinner hb h hb'
  | query h => exact query_operand_run hinner hrest h
  | string h => exact string_operand_run h
  | number h => exact number_operand_run hrest h
  | word h => exact word_operand_run hrest h
  | call h hargs => exact call_operand_run hinner h hargs
  | @not e b t hb h =>
    rw [List.cons_append, List.append_assoc, unary_not, dropWhile_blanks hb]
    exact run_map_eq_ok.mpr ⟨e, hinner.unary h hrest, rfl⟩
  | negate hb h hdigit => exact negate_operand_run hinner hrest hb h hdigit

end

theorem ofUnary_reads (hinner : NestedReads mode inner spelt) {e : Expr} {t : List Char}
    (h : OfUnary mode spelt e t) : Opens t ∧ ReadsAt mode inner 0 e t :=
  ⟨ofUnary_opens h, fun _ hrest _ => ofUnary_run hinner hrest h⟩

theorem ofExpr_reads (hinner : NestedReads mode inner spelt) {e : Expr} {t : List Char}
    (h : OfExpr mode spelt 0 e t) : Opens t ∧ ReadsAt mode inner 5 e t := by
  obtain ⟨hopens, hreads, -⟩ := ofExpr_run (fun _ _ => ofUnary_reads hinner) h
  exact ⟨hopens, hreads 5 rfl⟩

theorem ofExpr_joins (hinner : NestedReads mode inner spelt) {level h : Nat} {e : Expr}
    {t : List Char} (he : OfExpr mode spelt level e t) (hlevel : level + h = 4) :
    Opens t ∧ JoinsAt mode inner h e t := by
  obtain ⟨hopens, -, hjoins⟩ := ofExpr_run (fun _ _ => ofUnary_reads hinner) he
  exact ⟨hopens, hjoins h hlevel⟩

theorem expression_run (hinner : NestedReads mode inner spelt) :
    ReadsItems (expression mode inner) (OfExpr mode spelt 0) := by
  intro e t rest h hrest
  obtain ⟨hopens, hreads⟩ := ofExpr_reads hinner h
  rw [expression_eq, hopens.dropWhile]
  exact ⟨rest, hreads (endsOperand_of_endsItem hrest) (below_of_endsItem hrest), rfl⟩

theorem ofList_opens {es : List Expr} {t : List Char} (h : OfList (OfExpr mode spelt 0) es t)
    (hopens : ∀ e t, OfExpr mode spelt 0 e t → Opens t) : Opens t := by
  cases h with
  | one h => exact hopens _ _ h
  | more h _ _ _ =>
    obtain ⟨c, tail, rfl, hc⟩ := hopens _ _ h
    exact ⟨c, _, rfl, hc⟩

theorem arguments_run (hinner : NestedReads mode inner spelt) {args : List Expr} {t : List Char}
    (h : OfArguments (OfExpr mode spelt 0) args t) (rest : List Char) :
    (arguments mode inner).run (t ++ rest) = .ok (args, rest) := by
  have hopen : ∀ input : List Char, (expect '(').run ('(' :: input) = .ok ((), input) :=
    fun _ => run_expect_eq_ok.mpr rfl
  cases h with
  | @none b hb =>
    have hsplit : '(' :: (b ++ [')']) ++ rest = '(' :: (b ++ ')' :: rest) := by simp
    rw [hsplit, arguments, run_bind_ok (hopen _), run_bind_ok (run_blanks _),
      dropWhile_blanks_cons hb (by decide)]
    rfl
  | @list args b t b' hb h hb' =>
    have hsplit : '(' :: (b ++ (t ++ (b' ++ [')']))) ++ rest =
        '(' :: (b ++ (t ++ (b' ++ ')' :: rest))) := by
      simp
    have hopens : Opens t := ofList_opens h fun e t h => (ofExpr_reads hinner h).1
    obtain ⟨between, hlist, hsame⟩ :=
      commaList_run (expression_run hinner) h (endsList_close hb' rest)
    rw [hopens.dropWhile] at hlist
    rw [hsplit, arguments, run_bind_ok (hopen _), run_bind_ok (run_blanks _), dropWhile_blanks hb,
      hopens.dropWhile, run_bind_ok (run_peek _)]
    split
    · next hparen =>
      obtain ⟨c, tail, rfl, -, -, hc⟩ := hopens
      exact absurd (Option.some.inj hparen) hc
    · rw [run_bind_ok hlist, run_bind_ok (run_blanks _),
        run_bind_ok (expect_close hb' rest hsame), run_pure]

theorem nested_reads (mode : Mode) (levels : Nat) :
    NestedReads mode (nested mode levels) (grammar mode levels) := by
  induction levels with
  | zero =>
    exact ⟨fun _ _ _ h => h.elim, fun _ _ _ h => h.elim, fun _ _ h => h.elim,
      fun _ _ h => h.elim⟩
  | succ levels ih =>
    refine ⟨expression_run ih, ?_, fun _ _ h rest => arguments_run ih h rest, ?_⟩
    · intro e t rest h hrest
      rw [(ofUnary_opens h).dropWhile]
      exact ofUnary_run ih hrest h
    · intro args t h
      cases h with
      | none _ => exact ⟨_, rfl⟩
      | list _ _ _ => exact ⟨_, rfl⟩

theorem parse_selector {s : Selector} {t : List Char}
    (h : OfSelector mode (grammar mode maxNesting).expression s t) :
    Path.parse (String.ofList ('$' :: '[' :: (t ++ [']']))) mode =
      .ok ⟨.root, [.children [s]]⟩ := by
  have hlist : Bracketed mode (grammar mode maxNesting).expression [s]
      ('[' :: ([] ++ (t ++ ([] ++ [']'])))) := .list blanks_nil (.one h) blanks_nil
  have hpath : OfPath mode (grammar mode maxNesting).expression ⟨.root, [.children [s]]⟩
      ([] ++ '$' :: ([] ++ ('[' :: ([] ++ (t ++ ([] ++ [']']))) ++ []) ++ [])) :=
    .root blanks_nil blanks_nil (.cons blanks_nil (.bracket hlist) .nil) fun _ => ⟨rfl, rfl⟩
  refine parse_eq_ok_iff.mpr ⟨[], ?_⟩
  rw [String.toList_ofList]
  exact query_run (nested_reads mode maxNesting).expression (by simpa using hpath)

theorem parse_filter {e : Expr} {t : List Char} (h : (grammar mode maxNesting).expression e t) :
    Path.parse (String.ofList ('$' :: '[' :: '?' :: (t ++ [']']))) mode =
      .ok ⟨.root, [.children [.filter e]]⟩ := by
  have hparse := parse_selector (.filter blanks_nil h)
  rwa [List.nil_append, List.cons_append] at hparse

end JsonPath.Grammar
