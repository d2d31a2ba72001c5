import JsonPath.Proofs.Invariant

set_option autoImplicit false

/-!
# Reading is local

What a reader has read does not depend on how far the text behind it goes: it reads the same where
that text is cut. A reader that looks ahead sees less there and nothing new, so what it asks of the
text ahead has to be of the kind that a longer text can only answer with yes.
-/
namespace JsonPath

namespace Reader

variable {ε α β : Type}

/-- Where the text behind what `p` reads is cut, `q` reads the same. There are two readers because
some remember, for their errors, the text that they began with. -/
def LocalTo (p q : Reader ε α) : Prop :=
  ∀ ⦃t rest cut : List Char⦄ ⦃a : α⦄, p.run (t ++ rest) = .ok (a, rest) → cut <+: rest →
    q.run (t ++ cut) = .ok (a, cut)

def Local (p : Reader ε α) : Prop := LocalTo p p

def LocalFrom (c : Char) (p q : Reader ε α) : Prop :=
  ∀ ⦃input rest cut : List Char⦄ ⦃a : α⦄, p.run (c :: input) = .ok (a, rest) → cut <+: rest →
    ∃ t, input = t ++ rest ∧ q.run (c :: (t ++ cut)) = .ok (a, cut)

/-- A longer text can only turn a no into a yes. -/
def Grows (test : List Char → Bool) : Prop :=
  ∀ ⦃short long : List Char⦄, short <+: long → test short = true → test long = true

def Sees (test : List Char → Bool) (p : Reader ε α) : Prop :=
  ∀ ⦃t rest : List Char⦄ ⦃a : α⦄, test (t ++ rest) = true → p.run (t ++ rest) = .ok (a, rest) →
    test t = true

theorem LocalTo.of_fail (e : ε) (q : Reader ε α) : LocalTo (fail e) q := by
  rintro t rest cut a ⟨⟩

theorem pure_local (a : α) : Local (pure a : Reader ε α) := by
  intro t rest cut b h _
  rw [run_pure, Except.ok.injEq, Prod.mk.injEq] at h
  obtain ⟨rfl, hrest⟩ := h
  obtain rfl : t = [] := by simpa using hrest
  rfl

theorem run_bind_split {p : Reader ε α} {f : α → Reader ε β} {t rest : List Char} {b : β}
    (h : (p >>= f).run (t ++ rest) = .ok (b, rest)) :
    ∃ t₁ t₂ a, t = t₁ ++ t₂ ∧ p.run (t₁ ++ (t₂ ++ rest)) = .ok (a, t₂ ++ rest) ∧
      (f a).run (t₂ ++ rest) = .ok (b, rest) := by
  obtain ⟨a, between, ha, hb⟩ := run_bind_eq_ok.mp h
  obtain ⟨t₂, rfl⟩ := (f a).rest_suffix hb
  obtain ⟨t₁, ht₁⟩ := p.rest_suffix ha
  obtain rfl : t₁ ++ t₂ = t := List.append_cancel_right (by rw [List.append_assoc, ht₁])
  rw [List.append_assoc] at ha
  exact ⟨t₁, t₂, a, rfl, ha, hb⟩

theorem LocalTo.bind {p q : Reader ε α} {f g : α → Reader ε β} (hp : LocalTo p q)
    (hf : ∀ a, LocalTo (f a) (g a)) : LocalTo (p >>= f) (q >>= g) := by
  intro t rest cut b h hcut
  obtain ⟨t₁, t₂, a, rfl, ha, hb⟩ := run_bind_split h
  rw [List.append_assoc, run_bind_ok (hp ha ((List.prefix_append_right_inj t₂).mpr hcut))]
  exact hf a hb hcut

theorem LocalTo.map {p q : Reader ε α} (h : LocalTo p q) (f : α → β) :
    LocalTo (f <$> p) (f <$> q) :=
  h.bind fun a => pure_local (f a)

theorem LocalTo.ite {c : Prop} [Decidable c] {p p' q q' : Reader ε α} (hp : LocalTo p p')
    (hq : LocalTo q q') : LocalTo (if c then p else q) (if c then p' else q') := by
  split
  · exact hp
  · exact hq

theorem LocalTo.remaining {f g : List Char → Reader ε α}
    (hf : ∀ input cut, cut <+: input → LocalTo (f input) (g cut)) :
    LocalTo (remaining >>= f) (remaining >>= g) := by
  intro t rest cut a h hcut
  rw [run_bind_ok (run_remaining _)] at h ⊢
  exact hf _ _ ((List.prefix_append_right_inj t).mpr hcut) h hcut

theorem Local.lookahead {test : List Char → Bool} {p q : Reader ε α} (grows : Grows test)
    (sees : Sees test p) (hp : Local p) (hq : Local q) :
    Local (Reader.remaining >>= fun input => if test input then p else q) := by
  intro t rest cut a h hcut
  rw [run_bind_ok (run_remaining _)] at h ⊢
  by_cases hyes : test (t ++ rest) = true
  · rw [if_pos hyes] at h
    rw [if_pos (grows (List.prefix_append t cut) (sees hyes h))]
    exact hp h hcut
  · have hno : ¬ test (t ++ cut) = true :=
      fun hcut' => hyes (grows ((List.prefix_append_right_inj t).mpr hcut) hcut')
    rw [if_neg hyes] at h
    rw [if_neg hno]
    exact hq h hcut

theorem LocalFrom.bind {c : Char} {p q : Reader ε α} {f g : α → Reader ε β}
    (hp : LocalFrom c p q) (hf : ∀ a, LocalTo (f a) (g a)) :
    LocalFrom c (p >>= f) (q >>= g) := by
  intro input rest cut b h hcut
  obtain ⟨a, between, ha, hb⟩ := run_bind_eq_ok.mp h
  obtain ⟨t₂, rfl⟩ := (f a).rest_suffix hb
  obtain ⟨t₁, rfl, hrun⟩ := hp ha ((List.prefix_append_right_inj t₂).mpr hcut)
  refine ⟨t₁ ++ t₂, by rw [List.append_assoc], ?_⟩
  rw [List.append_assoc, run_bind_ok hrun]
  exact hf a hb hcut

theorem LocalFrom.map {c : Char} {p q : Reader ε α} (h : LocalFrom c p q) (f : α → β) :
    LocalFrom c (f <$> p) (f <$> q) :=
  h.bind fun a => pure_local (f a)

theorem LocalFrom.of_fail (c : Char) (e : ε) (q : Reader ε α) : LocalFrom c (fail e) q := by
  rintro input rest cut a ⟨⟩

theorem LocalTo.from_taking {p q : Reader ε α} (h : LocalTo p q) {c : Char}
    (takes : ∀ input a rest, p.run (c :: input) = .ok (a, rest) → rest.length ≤ input.length) :
    LocalFrom c p q := by
  intro input rest cut a hrun hcut
  obtain ⟨t, ht⟩ := p.rest_suffix hrun
  cases t with
  | nil =>
    have hle := takes input a rest hrun
    have hlength := congrArg List.length ht
    simp only [List.nil_append, List.length_cons] at hlength
    omega
  | cons d t =>
    obtain ⟨rfl, rfl⟩ := List.cons.inj ht
    exact ⟨t, rfl, h (t := d :: t) hrun hcut⟩

theorem LocalTo.from_strict {p q : Reader ε α} (h : LocalTo p q) (strict : p.Strict) (c : Char) :
    LocalFrom c p q :=
  h.from_taking fun _ _ _ hrun => Nat.le_of_lt_succ (strict hrun)

theorem LocalFrom.skip {c : Char} {f g : Unit → Reader ε α} (hf : LocalTo (f ()) (g ())) :
    LocalFrom c (skip 1 >>= f) (skip 1 >>= g) := by
  intro input rest cut a h hcut
  obtain ⟨t, rfl⟩ := (f ()).rest_suffix (show (f ()).run input = _ from h)
  exact ⟨t, rfl, hf h hcut⟩

theorem LocalFrom.congr {c : Char} {p q : Reader ε α} (h : LocalFrom c q q)
    (hrun : ∀ input, p.run (c :: input) = q.run (c :: input)) : LocalFrom c p p := by
  intro input rest cut a ha hcut
  rw [hrun] at ha
  obtain ⟨t, ht, hq⟩ := h ha hcut
  exact ⟨t, ht, (hrun _).trans hq⟩

/-- It is enough to look at the inputs by their first character, if that is read. -/
theorem LocalTo.of_heads {p q : Reader ε α} (hnil : ∀ a rest, p.run [] ≠ .ok (a, rest))
    (h : ∀ c, LocalFrom c p q) : LocalTo p q ∧ p.Strict := by
  constructor
  · intro t rest cut a hrun hcut
    cases hinput : t ++ rest with
    | nil =>
      rw [hinput] at hrun
      exact absurd hrun (hnil a rest)
    | cons c input =>
      rw [hinput] at hrun
      obtain ⟨t', rfl, hq⟩ := h c hrun hcut
      obtain rfl : t = c :: t' := List.append_cancel_right hinput
      exact hq
  · intro input a rest hrun
    cases input with
    | nil => exact absurd hrun (hnil a rest)
    | cons c input =>
      obtain ⟨t, rfl, -⟩ := h c hrun (List.prefix_refl rest)
      rw [List.length_cons, List.length_append]
      omega

theorem LocalTo.peek {f g : Option Char → Reader ε α}
    (hnone : ∀ a rest, (f none).run [] ≠ .ok (a, rest))
    (hf : ∀ c, LocalFrom c (f (some c)) (g (some c))) :
    LocalTo (peek >>= f) (peek >>= g) ∧ (peek >>= f).Strict :=
  LocalTo.of_heads hnone hf

theorem LocalTo.strict {p q : Reader ε α} (h : LocalTo p q)
    (hnil : ∀ a rest, q.run [] ≠ .ok (a, rest)) : p.Strict := by
  intro input a rest hrun
  obtain ⟨t, rfl⟩ := p.rest_suffix hrun
  cases t with
  | nil => exact absurd (h hrun List.nil_prefix) (hnil a [])
  | cons c t =>
    rw [List.length_append, List.length_cons]
    omega

theorem LocalTo.sees {test : List Char → Bool} {p q : Reader ε α} (h : LocalTo p q)
    (announced : ∀ ⦃input a rest⦄, q.run input = .ok (a, rest) → test input = true) :
    Sees test p := by
  intro t rest a _ hrun
  have hcut := h hrun List.nil_prefix
  rw [List.append_nil] at hcut
  exact announced hcut

theorem Sees.bind {test : List Char → Bool} {p : Reader ε α} (grows : Grows test)
    (h : Sees test p) (f : α → Reader ε β) : Sees test (p >>= f) := by
  intro t rest b htest hrun
  obtain ⟨t₁, t₂, a, rfl, ha, -⟩ := run_bind_split hrun
  rw [List.append_assoc] at htest
  exact grows (List.prefix_append t₁ t₂) (h htest ha)

theorem LocalTo.many {starts : List Char → Bool} {p q : Reader ε α} {hp : p.Strict} {hq : q.Strict}
    (grows : Grows starts) (sees : Sees starts p) (h : LocalTo p q) :
    LocalTo (many starts p hp) (many starts q hq) := by
  intro t rest cut items hrun hcut
  rw [run_many] at hrun ⊢
  obtain ⟨t', ht', hmany⟩ : ∃ t', t ++ rest = t' ++ rest ∧
      manyRun starts q hq (t' ++ cut) = .ok (items, cut) := by
    refine manyRun_induction (motive := fun input items => ∃ t', input = t' ++ rest ∧
      manyRun starts q hq (t' ++ cut) = .ok (items, cut)) ?_ ?_ hrun
    · intro hstop
      refine ⟨[], rfl, manyRun_stop ?_⟩
      rw [Bool.eq_false_iff] at hstop ⊢
      exact fun hcut' => hstop (grows hcut hcut')
    · rintro input a _ items hstarts ha ⟨t₂, rfl, hitems⟩
      obtain ⟨t₁, rfl⟩ := p.rest_suffix ha
      have hbehind := (List.prefix_append_right_inj t₂).mpr hcut
      refine ⟨t₁ ++ t₂, by rw [List.append_assoc], ?_⟩
      rw [List.append_assoc]
      exact manyRun_step (grows (List.prefix_append t₁ _) (sees hstarts ha)) (h ha hbehind) hitems
  rw [List.append_cancel_right ht']
  exact hmany

theorem grows_head {f : Option Char → Bool} (hnone : f none = false) :
    Grows fun input => f input.head? := by
  rintro short _ ⟨more, rfl⟩ h
  cases short with
  | nil =>
    change f none = true at h
    rw [hnone] at h
    cases h
  | cons c short => exact h

theorem grows_behind_blanks {test : List Char → Bool} (h : Grows test) :
    Grows fun input => test (input.dropWhile isBlank) := by
  rintro short _ ⟨more, rfl⟩ hshort
  refine h ?_ hshort
  rw [List.dropWhile_append]
  split
  · next hnil =>
    rw [List.isEmpty_iff.mp hnil]
    exact List.nil_prefix
  · exact List.prefix_append _ _

theorem grows_digit {test : List Char → Bool} {mark : Char} (h : ∀ input, test input = true ↔
    ∃ c tail, input = mark :: c :: tail ∧ c.isDigit = true) : Grows test := by
  rintro short _ ⟨more, rfl⟩ hshort
  obtain ⟨c, tail, rfl, hc⟩ := (h short).mp hshort
  exact (h _).mpr ⟨c, tail ++ more, rfl, hc⟩

theorem sees_head {f : Option Char → Bool} {p : Reader ε α} (strict : p.Strict) :
    Sees (fun input => f input.head?) p := by
  intro t rest a htest hrun
  cases t with
  | nil => exact absurd (strict hrun) (Nat.lt_irrefl _)
  | cons c t => exact htest

theorem Sees.behind_blanks {test : List Char → Bool} {p : QueryReader α} (h : Sees test p) :
    Sees (fun input => test (input.dropWhile isBlank)) (blanks >>= fun _ => p) := by
  intro t rest a htest hrun
  rw [run_bind_ok (run_blanks _)] at hrun
  dsimp only at htest ⊢
  rw [List.dropWhile_append] at htest hrun
  split at hrun
  · next hnil =>
    -- only blanks are read before `p`, and it takes nothing
    rw [if_pos hnil] at htest
    have hsuffix := p.rest_suffix hrun
    have hrest : rest.dropWhile isBlank = rest :=
      (List.dropWhile_suffix isBlank).eq_of_length_le hsuffix.length_le
    rw [hrest] at htest hrun
    rw [List.isEmpty_iff.mp hnil]
    exact h (t := []) htest hrun
  · next hcons =>
    rw [if_neg hcons] at htest
    exact h htest hrun

theorem head_of_prefix {rest cut : List Char} (h : cut <+: rest) {P : Char → Prop}
    (hrest : ∀ c ∈ rest.head?, P c) : ∀ c ∈ cut.head?, P c := by
  obtain ⟨more, rfl⟩ := h
  cases cut with
  | nil => rintro c ⟨⟩
  | cons d cut => exact hrest

theorem takeWhile_local (test : Char → Bool) : Local (takeWhile test : Reader ε (List Char)) := by
  intro t rest cut a h hcut
  rw [run_takeWhile, Except.ok.injEq, Prod.mk.injEq] at h
  obtain ⟨rfl, hdrop⟩ := h
  have htake : (t ++ rest).takeWhile test = t := by
    have hsplit := List.takeWhile_append_dropWhile (p := test) (l := t ++ rest)
    rw [hdrop] at hsplit
    exact List.append_cancel_right hsplit
  have hall : ∀ c ∈ t, test c = true := fun c hc => takeWhile_all (htake.symm ▸ hc)
  have hend : ∀ c ∈ cut.head?, test c = false :=
    head_of_prefix hcut fun c hc => head_dropWhile (hdrop.symm ▸ hc)
  rw [run_takeWhile, takeWhile_append_of_all hall hend, dropWhile_append_of_all hall hend, htake]

theorem takeWhile_from {test : Char → Bool} {c : Char} (hc : test c = true) :
    LocalFrom c (takeWhile test : Reader ε (List Char)) (takeWhile test) := by
  refine (takeWhile_local test).from_taking fun input a rest h => ?_
  rw [run_takeWhile, List.dropWhile_cons_of_pos hc] at h
  rw [← (Prod.mk.inj (Except.ok.inj h)).2]
  exact (List.dropWhile_suffix test).length_le

theorem accept_local (c : Char) : Local (accept c : Reader ε Bool) := by
  intro t rest cut b h hcut
  rcases run_accept_eq_ok.mp h with ⟨rfl, ht⟩ | ⟨rfl, hother, ht⟩
  · obtain rfl : t = [c] := List.append_cancel_right ht
    exact run_accept_self c cut
  · obtain rfl : t = [] := by simpa using ht.symm
    refine run_accept_other fun hc => hother ?_
    obtain ⟨tail, rfl⟩ := List.head?_eq_some_iff.mp hc
    obtain ⟨more, rfl⟩ := hcut
    rfl

theorem satisfy_local (test : Char → Bool) (error : List Char → ε) :
    Local (satisfy test error) := by
  intro t rest cut c h _
  obtain ⟨ht, hc⟩ := run_satisfy_eq_ok.mp h
  obtain rfl : t = [c] := List.append_cancel_right ht
  exact run_satisfy_eq_ok.mpr ⟨rfl, hc⟩

theorem expect_local (c : Char) : Local (expect c) :=
  (satisfy_local _ _).bind fun _ => pure_local ()

theorem blanks_local : Local blanks :=
  (takeWhile_local _).bind fun _ => pure_local ()

theorem digits_local : Local digits := takeWhile_local _

theorem skip_local (n : Nat) : Local (skip n : Reader ε Unit) := by
  intro t rest cut u h hcut
  have hdrop : (t ++ rest).drop n = rest := (Prod.mk.inj (Except.ok.inj h)).2
  by_cases hrest : rest = []
  · subst hrest
    obtain rfl := List.prefix_nil.mp hcut
    exact h
  · have hpos := List.length_pos_iff.mpr hrest
    have hlength := congrArg List.length hdrop
    simp only [List.length_drop, List.length_append] at hlength
    rw [run_skip, List.drop_left' (by omega)]

theorem noSelector_local : Local (noSelector : QueryReader α) :=
  .remaining fun _ _ _ => .of_fail _ _

theorem noSelector_from (c : Char) (q : QueryReader α) : LocalFrom c noSelector q := by
  rintro input rest cut a ⟨⟩

theorem unexpected_from (c : Char) (q : QueryReader α) : LocalFrom c unexpected q := by
  rintro input rest cut a ⟨⟩

theorem commaList_local {item : QueryReader α} (h : Local item) : Local (commaList item) := by
  have hlater : Local (afterComma item) :=
    blanks_local.bind fun _ => (expect_local ',').bind fun _ => blanks_local.bind fun _ => h
  refine LocalTo.bind h fun first => ?_
  refine (LocalTo.many (grows_behind_blanks (grows_head (f := (· == some ',')) rfl))
    (hlater.sees fun input a rest hrun => ?_) hlater).bind fun _ => pure_local _
  obtain ⟨tail, htail, -⟩ := afterComma_eq_ok_iff.mp hrun
  rw [htail]
  rfl

end Reader
end JsonPath
