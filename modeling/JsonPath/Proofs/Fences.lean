import JsonPath.Proofs.PatternReading

set_option autoImplicit false

/-!
# Reading up to a fence

A closing parenthesis or a backslash behind a text changes nothing about how the text is read: no
construct reads on across it, unless it stands in a comment that nothing in the text ends. So what
begins with one of the two is a fence. A reader is fenced if it reads the same on both sides of the
comparison, that is, with a fence behind the text and with nothing there.
-/
namespace JsonPath.Pattern
open Reader

variable {α β σ : Type}

def Fence (fence : List Char) : Prop := fence.head? = some ')' ∨ fence.head? = some '\\'

theorem Fence.exists_cons {fence : List Char} (h : Fence fence) :
    ∃ c tail, fence = c :: tail ∧ (c = ')' ∨ c = '\\') := by
  rcases h with h | h
  · obtain ⟨tail, rfl⟩ := List.head?_eq_some_iff.mp h
    exact ⟨_, tail, rfl, .inl rfl⟩
  · obtain ⟨tail, rfl⟩ := List.head?_eq_some_iff.mp h
    exact ⟨_, tail, rfl, .inr rfl⟩

theorem Fence.head_ne {fence : List Char} (h : Fence fence) {c : Char} (hparen : c ≠ ')')
    (hslash : c ≠ '\\') : fence.head? ≠ some c := by
  obtain ⟨d, tail, rfl, hd⟩ := h.exists_cons
  rintro ⟨⟩
  exact hd.elim hparen hslash

theorem Fence.head_any {fence : List Char} (h : Fence fence) {test : Char → Bool}
    (hparen : test ')' = false) (hslash : test '\\' = false) : fence.head?.any test = false := by
  obtain ⟨c, tail, rfl, rfl | rfl⟩ := h.exists_cons
  · exact hparen
  · exact hslash

theorem Fence.ne_nil {fence : List Char} (h : Fence fence) : fence ≠ [] := by
  obtain ⟨c, tail, rfl, -⟩ := h.exists_cons
  exact List.cons_ne_nil c tail

/-- The text ends in a comment, behind a number sign. A fence is then a part of the comment, as a
whole if it has no line break, and its first character in any case. -/
structure Swallows (p : PatternReader α) (input : List Char) (a : α) : Prop where
  sign : '#' ∈ input
  line : ∀ ⦃fence : List Char⦄, Fence fence → '\n' ∉ fence → p.run (input ++ fence) = .ok (a, [])
  beyond : ∀ ⦃fence : List Char⦄ ⦃b : α⦄ ⦃rest : List Char⦄, Fence fence →
    p.run (input ++ fence) = .ok (b, rest) → rest.length < fence.length

/-- Both sides answer the same, or the text ends in a comment. -/
structure FencedAt (p : PatternReader α) (input : List Char) : Prop where
  ahead : ∀ ⦃a : α⦄ ⦃rest : List Char⦄, p.run input = .ok (a, rest) →
    (∀ fence, Fence fence → p.run (input ++ fence) = .ok (a, rest ++ fence)) ∨
      rest = [] ∧ Swallows p input a
  back : ∀ ⦃fence : List Char⦄ ⦃a : α⦄ ⦃rest : List Char⦄, Fence fence →
    p.run (input ++ fence) = .ok (a, rest ++ fence) → p.run input = .ok (a, rest)

def Fenced (p : PatternReader α) : Prop := ∀ input, FencedAt p input

/-- Both sides answer the same where some of the text is left, which is enough of a reader that
others follow. -/
structure FencedInside (p : PatternReader α) (input : List Char) : Prop where
  ahead : ∀ ⦃a : α⦄ ⦃rest : List Char⦄, p.run input = .ok (a, rest) → rest ≠ [] →
    ∀ fence, Fence fence → p.run (input ++ fence) = .ok (a, rest ++ fence)
  back : ∀ ⦃fence : List Char⦄ ⦃a : α⦄ ⦃rest : List Char⦄, Fence fence →
    p.run (input ++ fence) = .ok (a, rest ++ fence) → rest ≠ [] → p.run input = .ok (a, rest)

theorem Swallows.congr {p q : PatternReader α} {input : List Char} {a : α} (h : Swallows q input a)
    (hfence : ∀ fence, Fence fence → p.run (input ++ fence) = q.run (input ++ fence)) :
    Swallows p input a where
  sign := h.sign
  line fence hf hline := (hfence fence hf).trans (h.line hf hline)
  beyond fence _ _ hf hok := h.beyond hf ((hfence fence hf).symm.trans hok)

theorem Swallows.bind {p : PatternReader α} {f : α → PatternReader β} {input : List Char} {a : α}
    {b : β} (h : Swallows p input a) (hb : (f a).run [] = .ok (b, [])) :
    Swallows (p >>= f) input b where
  sign := h.sign
  line _ hf hline := (run_bind_ok (h.line hf hline)).trans hb
  beyond _ _ _ hf hok := by
    obtain ⟨a', between, ha, hb'⟩ := run_bind_eq_ok.mp hok
    exact Nat.lt_of_le_of_lt ((f a').rest_length_le hb') (h.beyond hf ha)

theorem Swallows.after {p : PatternReader α} {f : α → PatternReader β} {input rest : List Char}
    {a : α} {b : β} (ha : p.run input = .ok (a, rest))
    (hleft : ∀ fence, Fence fence → p.run (input ++ fence) = .ok (a, rest ++ fence))
    (h : Swallows (f a) rest b) : Swallows (p >>= f) input b where
  sign := (p.rest_suffix ha).subset h.sign
  line _ hf hline := (run_bind_ok (hleft _ hf)).trans (h.line hf hline)
  beyond _ _ _ hf hok := h.beyond hf ((run_bind_ok (hleft _ hf)).symm.trans hok)

theorem FencedAt.inside {p : PatternReader α} {input : List Char} (h : FencedAt p input) :
    FencedInside p input where
  ahead _ _ hrun hrest := (h.ahead hrun).resolve_right fun hnil => hrest hnil.1
  back _ _ _ hfence hrun _ := h.back hfence hrun

theorem FencedAt.congr {p q : PatternReader α} {input : List Char} (h : FencedAt q input)
    (hrun : p.run input = q.run input)
    (hfence : ∀ fence, Fence fence → p.run (input ++ fence) = q.run (input ++ fence)) :
    FencedAt p input where
  ahead a rest hok := by
    rw [hrun] at hok
    rcases h.ahead hok with hleft | ⟨hnil, hcomment⟩
    · exact .inl fun fence hf => (hfence fence hf).trans (hleft fence hf)
    · exact .inr ⟨hnil, hcomment.congr hfence⟩
  back fence a rest hf hok := by
    rw [hfence fence hf] at hok
    exact hrun.trans (h.back hf hok)

theorem FencedInside.congr {p q : PatternReader α} {input : List Char} (h : FencedInside q input)
    (hrun : p.run input = q.run input)
    (hfence : ∀ fence, Fence fence → p.run (input ++ fence) = q.run (input ++ fence)) :
    FencedInside p input where
  ahead _ _ hok hrest fence hf :=
    (hfence fence hf).trans (h.ahead (hrun.symm.trans hok) hrest fence hf)
  back fence _ _ hf hok hrest :=
    hrun.trans (h.back hf ((hfence fence hf).symm.trans hok) hrest)

theorem FencedAt.of_ok {p : PatternReader α} {input rest : List Char} {a : α}
    (h : p.run input = .ok (a, rest))
    (hfence : (∀ fence, Fence fence → p.run (input ++ fence) = .ok (a, rest ++ fence)) ∨
      rest = [] ∧ Swallows p input a) : FencedAt p input where
  ahead b rest' hok := by
    rw [h] at hok
    cases hok
    exact hfence
  back fence b rest' hf hok := by
    rcases hfence with hleft | ⟨-, hcomment⟩
    · rw [hleft fence hf] at hok
      obtain ⟨rfl, hrest⟩ := Prod.mk.inj (Except.ok.inj hok)
      rw [h, List.append_cancel_right hrest]
    · have hlength := hcomment.beyond hf hok
      rw [List.length_append] at hlength
      omega

theorem FencedAt.of_error {p : PatternReader α} {input : List Char}
    (h : ∀ fence, Fence fence ∨ fence = [] → p.run (input ++ fence) = .error ()) :
    FencedAt p input where
  ahead a rest hok := by
    have herror := h [] (.inr rfl)
    rw [List.append_nil, hok] at herror
    cases herror
  back fence a rest hf hok := by
    rw [h fence (.inl hf)] at hok
    cases hok

theorem FencedAt.of_idle {p : PatternReader α} (h : Idle p) (input : List Char) :
    FencedAt p input := by
  obtain ⟨answer, hanswer⟩ := h
  cases answer with
  | error e => exact .of_error fun fence _ => hanswer _
  | ok b => exact .of_ok (hanswer input) (.inl fun fence _ => hanswer _)

theorem FencedAt.nil {p : PatternReader α} (strict : p.Strict) : FencedAt p [] where
  ahead _ _ hrun := absurd (strict hrun) (Nat.not_lt_zero _)
  back fence a rest _ hrun := by
    have hlength := strict hrun
    simp only [List.nil_append, List.length_append] at hlength
    omega

theorem FencedInside.nil (p : PatternReader α) : FencedInside p [] where
  ahead a rest hrun hrest := absurd (List.suffix_nil.mp (p.rest_suffix hrun)) hrest
  back fence a rest _ hrun hrest := by
    have hlength := p.rest_length_le hrun
    have hpos := List.length_pos_iff.mpr hrest
    simp only [List.nil_append, List.length_append] at hlength
    omega

theorem FencedAt.bind {p : PatternReader α} {f : α → PatternReader β} {input : List Char}
    (hp : FencedAt p input)
    (hf : ∀ a rest, p.run input = .ok (a, rest) → FencedAt (f a) rest) :
    FencedAt (p >>= f) input where
  ahead b rest h := by
    obtain ⟨a, between, ha, hb⟩ := run_bind_eq_ok.mp h
    rcases hp.ahead ha with hleft | ⟨rfl, hcomment⟩
    · rcases (hf a between ha).ahead hb with hright | ⟨hnil, hcomment⟩
      · exact .inl fun fence hfence =>
          (run_bind_ok (hleft fence hfence)).trans (hright fence hfence)
      · exact .inr ⟨hnil, .after ha hleft hcomment⟩
    · obtain rfl := List.suffix_nil.mp ((f a).rest_suffix hb)
      exact .inr ⟨rfl, hcomment.bind hb⟩
  back fence b rest hfence h := by
    obtain ⟨a, between, ha, hb⟩ := run_bind_eq_ok.mp h
    obtain ⟨read, rfl⟩ := (f a).rest_suffix hb
    rw [← List.append_assoc] at ha hb
    have ha' := hp.back hfence ha
    exact (run_bind_ok ha').trans ((hf a _ ha').back hfence hb)

theorem Fenced.bind {p : PatternReader α} {f : α → PatternReader β} (hp : Fenced p)
    (hf : ∀ a, Fenced (f a)) : Fenced (p >>= f) :=
  fun input => (hp input).bind fun a rest _ => hf a rest

theorem FencedAt.map {p : PatternReader α} {input : List Char} (hp : FencedAt p input)
    (f : α → β) : FencedAt (f <$> p) input :=
  hp.bind fun a rest _ => .of_idle (pure_idle (f a)) rest

theorem FencedAt.ite {c : Prop} [Decidable c] {p q : PatternReader α} {input : List Char}
    (hp : FencedAt p input) (hq : FencedAt q input) : FencedAt (if c then p else q) input := by
  split
  · exact hp
  · exact hq

theorem Fenced.ite {c : Prop} [Decidable c] {p q : PatternReader α} (hp : Fenced p)
    (hq : Fenced q) : Fenced (if c then p else q) :=
  fun input => .ite (hp input) (hq input)

/-- Something is read in the end, so some of the text is left before it. -/
theorem FencedInside.bind_strict {p : PatternReader α} {f : α → PatternReader β}
    {input : List Char} (hp : FencedInside p input) (strict : ∀ a, (f a).Strict)
    (hf : ∀ a, Fenced (f a)) : FencedAt (p >>= f) input where
  ahead b rest h := by
    obtain ⟨a, between, ha, hb⟩ := run_bind_eq_ok.mp h
    have hne : between ≠ [] := by
      rintro rfl
      exact absurd (strict a hb) (Nat.not_lt_zero _)
    have hleft := hp.ahead ha hne
    rcases (hf a between).ahead hb with hright | ⟨hnil, hcomment⟩
    · exact .inl fun fence hfence =>
        (run_bind_ok (hleft fence hfence)).trans (hright fence hfence)
    · exact .inr ⟨hnil, .after ha hleft hcomment⟩
  back fence b rest hfence h := by
    obtain ⟨a, between, ha, hb⟩ := run_bind_eq_ok.mp h
    obtain ⟨read, rfl⟩ := (f a).rest_suffix hb
    have hlength := strict a hb
    rw [← List.append_assoc] at ha hb
    have hne : read ++ rest ≠ [] := by
      intro hnil
      obtain ⟨rfl, rfl⟩ := List.append_eq_nil_iff.mp hnil
      exact Nat.lt_irrefl _ hlength
    have ha' := hp.back hfence ha hne
    exact (run_bind_ok ha').trans ((hf a _).back hfence hb)

theorem FencedInside.bind {p : PatternReader α} {f : α → PatternReader β} {input : List Char}
    (hp : FencedAt p input)
    (hf : ∀ a rest, p.run input = .ok (a, rest) → FencedInside (f a) rest) :
    FencedInside (p >>= f) input where
  ahead b rest h hrest fence hfence := by
    obtain ⟨a, between, ha, hb⟩ := run_bind_eq_ok.mp h
    rcases hp.ahead ha with hleft | ⟨rfl, -⟩
    · exact (run_bind_ok (hleft fence hfence)).trans ((hf a _ ha).ahead hb hrest fence hfence)
    · exact absurd (List.suffix_nil.mp ((f a).rest_suffix hb)) hrest
  back fence b rest hfence h hrest := by
    obtain ⟨a, between, ha, hb⟩ := run_bind_eq_ok.mp h
    obtain ⟨read, rfl⟩ := (f a).rest_suffix hb
    rw [← List.append_assoc] at ha hb
    have ha' := hp.back hfence ha
    exact (run_bind_ok ha').trans ((hf a _ ha').back hfence hb hrest)

theorem FencedInside.map {p : PatternReader α} {input : List Char} (hp : FencedInside p input)
    (f : α → β) : FencedInside (f <$> p) input where
  ahead b rest h hrest fence hfence := by
    obtain ⟨a, ha, rfl⟩ := run_map_eq_ok.mp h
    exact run_map_eq_ok.mpr ⟨a, hp.ahead ha hrest fence hfence, rfl⟩
  back fence b rest hfence h hrest := by
    obtain ⟨a, ha, rfl⟩ := run_map_eq_ok.mp h
    exact run_map_eq_ok.mpr ⟨a, hp.back hfence ha hrest, rfl⟩

theorem FencedAt.remaining {f : List Char → PatternReader α} {input : List Char}
    (hf : FencedAt (f input) input)
    (same : ∀ fence, Fence fence → f (input ++ fence) = f input) :
    FencedAt (remaining >>= f) input :=
  hf.congr (run_bind_ok (run_remaining _)) fun fence hfence => by
    rw [run_bind_ok (run_remaining _), same fence hfence]

theorem FencedAt.peek {f : Option Char → PatternReader α} {input : List Char}
    (hf : FencedAt (f input.head?) input)
    (same : ∀ fence, Fence fence → f (input ++ fence).head? = f input.head?) :
    FencedAt (peek >>= f) input :=
  hf.congr (run_bind_ok (run_peek _)) fun fence hfence => by
    rw [run_bind_ok (run_peek _), same fence hfence]

theorem satisfy_fenced (test : Char → Bool) (error : List Char → Unit) :
    Fenced (satisfy test error) := by
  intro input
  cases input with
  | nil => exact .nil (strict_satisfy test error)
  | cons c rest =>
    have hrun : ∀ rest', (satisfy test error).run (c :: rest') =
        if test c then .ok (c, rest') else .error (error (c :: rest')) := fun _ => rfl
    by_cases hc : test c = true
    · have hok : ∀ rest', (satisfy test error).run (c :: rest') = .ok (c, rest') :=
        fun rest' => (hrun rest').trans (if_pos hc)
      exact .of_ok (hok rest) (.inl fun fence _ => hok _)
    · exact .of_error fun fence _ => (hrun _).trans (if_neg hc)

theorem nextChar_fenced : Fenced nextChar := satisfy_fenced _ _

theorem expectChar_fenced (c : Char) : Fenced (expectChar c) :=
  (satisfy_fenced _ _).bind fun _ => .of_idle (pure_idle ())

theorem accept_fenced {c : Char} (hparen : c ≠ ')') (hslash : c ≠ '\\') :
    Fenced (accept c : PatternReader Bool) := by
  intro input
  by_cases h : input.head? = some c
  · obtain ⟨tail, rfl⟩ := List.head?_eq_some_iff.mp h
    exact .of_ok (run_accept_self c tail) (.inl fun fence _ => run_accept_self c _)
  · refine .of_ok (run_accept_other h) (.inl fun fence hfence => run_accept_other ?_)
    cases input with
    | nil => exact hfence.head_ne hparen hslash
    | cons d tail => exact h

theorem skip_fenced {n : Nat} {input : List Char} (h : n ≤ input.length) :
    FencedAt (skip n : PatternReader Unit) input :=
  .of_ok (run_skip n input) (.inl fun fence _ => by rw [run_skip, List.drop_append_of_le_length h])

theorem takeWhile_fenced {test : Char → Bool} (hparen : test ')' = false)
    (hslash : test '\\' = false) : Fenced (takeWhile test : PatternReader (List Char)) := by
  intro input
  refine .of_ok (run_takeWhile test input) (.inl fun fence hfence => ?_)
  have hhead : ∀ c ∈ fence.head?, test c = false := by
    intro c hc
    have hany := hfence.head_any hparen hslash
    rwa [hc] at hany
  rw [run_takeWhile, takeWhile_append_of_head hhead, dropWhile_append_of_head hhead]

theorem FencedInside.takeWhile (test : Char → Bool) (input : List Char) :
    FencedInside (takeWhile test : PatternReader (List Char)) input := by
  have hsame : input.dropWhile test ≠ [] → ∀ fence,
      (Reader.takeWhile test : PatternReader (List Char)).run (input ++ fence) =
        .ok (input.takeWhile test, input.dropWhile test ++ fence) := by
    intro hne fence
    rw [run_takeWhile, takeWhile_append_of_ne hne, dropWhile_append_of_ne hne]
  constructor
  · intro a rest h hrest fence _
    obtain ⟨rfl, rfl⟩ := Prod.mk.inj (Except.ok.inj h)
    exact hsame hrest fence
  · intro fence a rest _ h hrest
    by_cases hne : input.dropWhile test = []
    · -- then what is left is a part of the fence
      have hdrop := (Prod.mk.inj (Except.ok.inj h)).2
      rw [List.dropWhile_append, hne] at hdrop
      have hlength := (List.dropWhile_suffix (l := fence) test).length_le
      have hpos := List.length_pos_iff.mpr hrest
      simp only [List.isEmpty_nil, if_true] at hdrop
      rw [hdrop, List.length_append] at hlength
      omega
    · rw [hsame hne fence] at h
      obtain ⟨rfl, hdrop⟩ := Prod.mk.inj (Except.ok.inj h)
      rw [run_takeWhile, List.append_cancel_right hdrop]

theorem dropGaps_comment {fence : List Char} (h : '\n' ∉ fence) : dropGaps true fence = [] := by
  induction fence with
  | nil => rfl
  | cons c rest ih =>
    have hc : (c != '\n') = true := bne_iff_ne.mpr (List.ne_of_not_mem_cons h).symm
    rw [dropGaps, if_pos rfl, hc]
    exact ih (List.not_mem_of_not_mem_cons h)

theorem dropGaps_fence (inComment : Bool) (input : List Char) :
    (∀ fence, Fence fence → dropGaps inComment (input ++ fence) =
        dropGaps inComment input ++ fence) ∨
      dropGaps inComment input = [] ∧ (inComment = false → '#' ∈ input) ∧
        ∀ fence, dropGaps inComment (input ++ fence) = dropGaps true fence := by
  induction input generalizing inComment with
  | nil =>
    cases inComment with
    | true => exact .inr ⟨rfl, nofun, fun fence => rfl⟩
    | false =>
      refine .inl fun fence hfence => ?_
      obtain ⟨c, tail, rfl, rfl | rfl⟩ := hfence.exists_cons <;> rfl
  | cons c rest ih =>
    simp only [List.cons_append, dropGaps]
    split
    · next hcomment =>
      exact (ih _).imp_right fun h => ⟨h.1, fun hno => absurd hcomment (by simp [hno]), h.2.2⟩
    · split
      · exact (ih _).imp_right fun h => ⟨h.1, fun _ => List.mem_cons_of_mem _ (h.2.1 rfl), h.2.2⟩
      · split
        · next hsign =>
          exact (ih _).imp_right fun h => ⟨h.1, fun _ => List.mem_cons.mpr (.inl hsign.symm), h.2.2⟩
        · exact .inl fun fence _ => rfl

theorem gapped_fence (flags : Flags) (input : List Char) :
    (∀ fence, Fence fence → gapped flags (input ++ fence) = gapped flags input ++ fence) ∨
      gapped flags input = [] ∧ '#' ∈ input ∧
        ∀ fence, gapped flags (input ++ fence) = dropGaps true fence := by
  unfold gapped
  split
  · exact (dropGaps_fence false input).imp_right fun h => ⟨h.1, h.2.1 rfl, h.2.2⟩
  · exact .inl fun _ _ => rfl

theorem gaps_fenced (flags : Flags) : Fenced (gaps flags) := by
  intro input
  refine .of_ok (run_gaps flags input) ?_
  rcases gapped_fence flags input with h | ⟨hnil, hsign, h⟩
  · exact .inl fun fence hfence => by rw [run_gaps, h fence hfence]
  · refine .inr ⟨hnil, hsign, fun fence _ hline => ?_, fun fence _ rest hfence hok => ?_⟩
    · rw [run_gaps, h, dropGaps_comment hline]
    · rw [run_gaps, h] at hok
      obtain ⟨-, rfl⟩ := Prod.mk.inj (Except.ok.inj hok)
      exact length_dropGaps_comment hfence.ne_nil

theorem spaced_fenced (flags : Flags) : Fenced (spaced flags) :=
  nextChar_fenced.bind fun c => (gaps_fenced flags).bind fun _ => .of_idle (pure_idle c)

/-- Whether an item starts can be seen by its first character, and it is none at the end. -/
def SeenAhead (starts : List Char → Bool) : Prop :=
  starts [] = false ∧ ∀ c rest rest', starts (c :: rest) = starts (c :: rest')

theorem SeenAhead.append {starts : List Char → Bool} (h : SeenAhead starts) {input : List Char}
    (hne : input ≠ []) (fence : List Char) : starts (input ++ fence) = starts input := by
  obtain ⟨c, rest, rfl⟩ := List.exists_cons_of_ne_nil hne
  exact h.2 c _ _

theorem seenAhead_any (test : Char → Bool) : SeenAhead fun input => input.head?.any test :=
  ⟨rfl, fun _ _ _ => rfl⟩

theorem seenAhead_beq (c : Char) : SeenAhead fun input => input.head? == some c :=
  ⟨rfl, fun _ _ _ => rfl⟩

section Many

variable {starts : List Char → Bool} {item : PatternReader α} {strict : item.Strict}

theorem run_many_of_starts {input : List Char} (h : starts input = true) :
    (many starts item strict).run input =
      (item >>= fun a => (a :: ·) <$> many starts item strict).run input := by
  cases ha : item.run input with
  | error e => rw [run_many, manyRun_error h ha, run_bind_error ha]
  | ok r =>
    rw [run_many, manyRun_cons h ha, run_bind_ok ha]
    cases hmany : (many starts item strict).run r.2 with
    | error e =>
      rw [show manyRun starts item strict r.2 = .error e from hmany]
      exact (run_bind_error hmany).symm
    | ok r' =>
      rw [show manyRun starts item strict r.2 = .ok r' from hmany]
      exact (run_map_eq_ok.mpr ⟨r'.1, hmany, rfl⟩).symm

theorem run_many_of_not_starts {input : List Char} (h : starts input = false) :
    (many starts item strict).run input = (pure [] : PatternReader (List α)).run input :=
  manyRun_stop h

theorem FencedAt.many (hitem : Fenced item) (seen : SeenAhead starts)
    (hstop : ∀ fence, Fence fence → starts fence = false) :
    Fenced (many starts item strict) := by
  intro input
  induction hn : input.length using Nat.strongRecOn generalizing input with
  | ind n ih =>
    have hsame : ∀ fence, Fence fence → starts (input ++ fence) = starts input := by
      intro fence hfence
      by_cases hne : input = []
      · rw [hne, List.nil_append, hstop fence hfence, seen.1]
      · exact seen.append hne fence
    cases hstarts : starts input with
    | false =>
      refine (FencedAt.of_idle (pure_idle []) input).congr (run_many_of_not_starts hstarts) ?_
      exact fun fence hfence => run_many_of_not_starts ((hsame fence hfence).trans hstarts)
    | true =>
      have hon : FencedAt (item >>= fun a => (a :: ·) <$> Reader.many starts item strict) input :=
        (hitem input).bind fun a rest ha => (ih _ (hn ▸ strict ha) rest rfl).map _
      refine hon.congr (run_many_of_starts hstarts) ?_
      exact fun fence hfence => run_many_of_starts ((hsame fence hfence).trans hstarts)

/-- Where the fence itself looks like an item, the items may go on into it. -/
theorem FencedInside.many (hitem : Fenced item) (seen : SeenAhead starts) (input : List Char) :
    FencedInside (many starts item strict) input := by
  induction hn : input.length using Nat.strongRecOn generalizing input with
  | ind n ih =>
    by_cases hne : input = []
    · rw [hne]
      exact .nil _
    · have hsame := seen.append hne
      cases hstarts : starts input with
      | false =>
        refine (FencedAt.of_idle (pure_idle []) input).inside.congr
          (run_many_of_not_starts hstarts) ?_
        exact fun fence _ => run_many_of_not_starts ((hsame fence).trans hstarts)
      | true =>
        have hon : FencedInside (item >>= fun a => (a :: ·) <$> Reader.many starts item strict)
            input :=
          .bind (hitem input) fun a rest ha => (ih _ (hn ▸ strict ha) rest rfl).map _
        refine hon.congr (run_many_of_starts hstarts) ?_
        exact fun fence _ => run_many_of_starts ((hsame fence).trans hstarts)

end Many

section Loop

variable {goesOn : σ → List Char → Bool} {step : σ → PatternReader σ}
  {strict : ∀ s, (step s).Strict}

theorem run_loop_of_goesOn {s : σ} {input : List Char} (h : goesOn s input = true) :
    (loop goesOn step strict s).run input =
      (step s >>= loop goesOn step strict).run input := by
  cases hs : (step s).run input with
  | error e => rw [run_loop, loopRun_error h hs, run_bind_error hs]
  | ok r =>
    rw [run_loop, loopRun_step h hs, run_bind_ok hs]
    rfl

theorem FencedAt.loop {goesOn : σ → Bool} (hstep : ∀ s, Fenced (step s)) (s : σ) :
    Fenced (loop (fun s _ => goesOn s) step strict s) := by
  intro input
  induction hn : input.length using Nat.strongRecOn generalizing input s with
  | ind n ih =>
    cases hgoes : goesOn s with
    | false =>
      exact (FencedAt.of_idle (pure_idle s) input).congr (loopRun_stop hgoes)
        fun fence _ => loopRun_stop hgoes
    | true =>
      have hon : FencedAt (step s >>= Reader.loop (fun s _ => goesOn s) step strict) input :=
        (hstep s input).bind fun s' rest hs => ih _ (hn ▸ strict s hs) s' rest rfl
      exact hon.congr (run_loop_of_goesOn hgoes) fun fence _ => run_loop_of_goesOn hgoes

end Loop

end JsonPath.Pattern
